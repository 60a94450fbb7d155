import LibMp.Carried
import LibMp.Posting

/- Making a request.

   Fourteen calls take a request from the pool, fill in its work request and
   give it away. What they have in common stands in `Recipe`: the checks before
   the request is taken, the type, the status and the flags it gets, its work
   request, and the call to the outside that takes it. From then on the calls
   keep what was made (`Carries`), through every round of progress of a retry
   loop, until they return or put the request back. -/
namespace LibMp
variable {cfg : Config}

/-! ## The fourteen calls -/

/-- What a call that takes a request does around it. -/
structure Recipe where
  fn : Fn
  peer : Nat
  /-- a check ends the call with `MP_FAILURE` before it takes a request -/
  refused : Bool
  /-- the assertion on the displacement, for a client -/
  inside : Nat → Bool
  type : ReqType
  state : State
  flags : Nat
  /-- fill in the work request of the request at `p` for client `c` -/
  build : (c : Nat) → (p : Ptr) → World → World
  /-- without event sync, the call to the outside that takes the work request -/
  submit : (c : Nat) → (p : Ptr) → M Int
  /-- what a call that returns 0 has done with the operation `id` -/
  marks : (c : Nat) → (p : Ptr) → (id : Nat) → List LogEv

/-- The HCA has accepted a send. -/
def acceptedTx (c : Nat) (p : Ptr) (id : Nat) : List LogEv := [.accepted c .tx p id]

/-- The HCA has accepted a receive. -/
def acceptedRx (c : Nat) (p : Ptr) (id : Nat) : List LogEv := [.accepted c .rx p id]

/-- `gds_prepare_send` has taken a send. -/
def preparedTx (c : Nat) (p : Ptr) (id : Nat) : List LogEv := [.prepared c p id]

/-- With event sync a send on `s` is appended to the posted list instead. -/
def sentOn (cfg : Config) (s : Stream) (c : Nat) (p : Ptr) (id : Nat) : List LogEv :=
  if cfg.useEventSync then [.tracked c p id s] else acceptedTx c p id

theorem sentOn_event (he : cfg.useEventSync = true) (s : Stream) (c : Nat) (p : Ptr) :
    sentOn cfg s c p = fun id => [.tracked c p id s] := by
  funext id
  rw [sentOn, if_pos he]

theorem sentOn_direct (he : cfg.useEventSync = false) (s : Stream) (c : Nat) (p : Ptr) :
    sentOn cfg s c p = acceptedTx c p := by
  funext id
  rw [sentOn, if_neg (by simp [he])]

/-- The recipe of a send. -/
def sendRecipe (fn : Fn) (peer : Nat) (refused : Bool) (state : State) (build : Nat → Ptr → World → World)
    (submit : Nat → Ptr → M Int) (marks : Nat → Ptr → Nat → List LogEv) : Recipe where
  fn := fn
  peer := peer
  refused := refused
  inside _ := true
  type := .send
  state := state
  flags := 0
  build := build
  submit := submit
  marks := marks

/-- The recipe of a receive. -/
def recvRecipe (fn : Fn) (peer : Nat) (refused : Bool) (build : Nat → Ptr → World → World)
    (submit : Nat → Ptr → M Int) : Recipe where
  fn := fn
  peer := peer
  refused := refused
  inside _ := true
  type := .recv
  state := .pendingNowait
  flags := 0
  build := build
  submit := submit
  marks := acceptedRx

/-- The recipe of a put or get. -/
def rdmaRecipe (cfg : Config) (fn : Fn) (peer displ : Nat) (win : Window) (state : State) (flags : Nat)
    (build : Nat → Ptr → World → World) (submit : Nat → Ptr → M Int) (marks : Nat → Ptr → Nat → List LogEv) :
    Recipe where
  fn := fn
  peer := peer
  refused := cfg.enableUd
  inside c := displ < win.rsize c
  type := .rdma
  state := state
  flags := flags
  build := build
  submit := submit
  marks := marks

/-- Whether a vector has more blocks than a work request can have. -/
def tooLong (cfg : Config) (v : List Iovec) : Bool := v.length > cfg.ibMaxSge

/-- The calls that take a request. -/
def Op.recipe (cfg : Config) : Op → Option Recipe
  | .isend buf size peer reg => some <| sendRecipe .mpIsend peer false .pendingNowait
      (fun c p w => w.buildSend cfg c p buf size reg) (mpPostSend cfg) acceptedTx
  | .irecv buf size peer reg => some <| recvRecipe .mpIrecv peer false
      (fun _ p w => w.buildRecv cfg p buf size reg) (mpPostRecv cfg)
  | .isendv v peer reg => some <| sendRecipe .mpIsendv peer (tooLong cfg v) .pendingNowait
      (fun c p w => w.buildSendv cfg c p v reg) gdsPostSend acceptedTx
  | .irecvv v peer reg => some <| recvRecipe .mpIrecvv peer (tooLong cfg v)
      (fun _ p w => w.buildRecvv p v reg) gdsPostRecv
  | .iput src size reg peer displ win flags => some <| rdmaRecipe cfg .mpIput peer displ win .pendingNowait flags
      (fun c p w => w.buildPut c p src size reg displ win flags) (mpPostSend cfg) acceptedTx
  | .iget dst size reg peer displ win => some <| rdmaRecipe cfg .mpIget peer displ win .pendingNowait 0
      (fun c p w => w.buildGet .wrRdmaRead c p dst size reg displ win) gdsPostSend acceptedTx
  | .sendOnStream buf size peer reg s => some <| sendRecipe .mpSendOnStream peer false
      (if cfg.useEventSync then .prepared else .pending)
      (fun c p w => w.buildSend cfg c p buf size reg) (gdsStreamQueueSend s) (sentOn cfg s)
  | .isendOnStream buf size peer reg s => some <| sendRecipe .mpIsendOnStream peer false
      (if cfg.useEventSync then .prepared else .pendingNowait)
      (fun c p w => w.buildSend cfg c p buf size reg) (mpPostSendOnStream cfg s) (sentOn cfg s)
  | .isendvOnStream v peer reg s => some <| sendRecipe .mpIsendvOnStream peer (cfg.useEventSync || tooLong cfg v)
      .pendingNowait (fun c p w => w.buildSendv cfg c p v reg) (gdsStreamQueueSend s) acceptedTx
  | .sendPrepare buf size peer reg => some <| sendRecipe .mpSendPrepare peer false .prepared
      (fun c p w => w.buildSend cfg c p buf size reg) gdsPrepareSend
      (if cfg.useEventSync then fun _ _ _ => [] else preparedTx)
  | .sendvPrepare v peer reg => some <| sendRecipe .mpSendvPrepare peer (cfg.useEventSync || tooLong cfg v)
      .prepared (fun c p w => w.buildSendv cfg c p v reg) gdsPrepareSend preparedTx
  | .putPrepare src size reg peer displ win flags => some <| rdmaRecipe cfg .mpPutPrepare peer displ win .prepared flags
      (fun c p w => w.buildPut c p src size reg displ win flags) gdsPrepareSend preparedTx
  | .iputOnStream src size reg peer displ win flags s => some <| rdmaRecipe cfg .mpIputOnStream peer displ win
      .pendingNowait flags (fun c p w => w.buildPut c p src size reg displ win flags) (mpPostSendOnStream cfg s)
        acceptedTx
  | .igetOnStream dst size reg peer displ win s => some <| rdmaRecipe cfg .mpIgetOnStream peer displ win
      .pendingNowait 0
      (fun c p w => w.buildGet .expWrRdmaRead c p dst size reg displ win) (gdsStreamQueueSend s) acceptedTx
  | _ => none

namespace Recipe
variable (cfg : Config) (j : Recipe) (w : World) (c : Nat)

/-- The call passes its checks and takes a request for the client `c`. -/
structure Takes : Prop where
  passes : j.refused = false
  client : cfg.clientIndex j.peer = some c
  inside : j.inside c = true
  id : (w.clients c).lastReqId < uintMax

/-- The request is taken and filled in. -/
def started : World := j.build c w.nextFree (w.take j.fn c (cfg.mpiRank c) j.type j.state)

end Recipe

/-- Filling in changes one request: it gets its flags and a work request that
names it. -/
theorem Op.recipe_build {op : Op} {j : Recipe} (h : op.recipe cfg = some j) (c : Nat) (p : Ptr) (w : World) :
    ∃ g : Request → Request, j.build c p w = w.setReq p g ∧ ∀ r, (g r).type = r.type ∧ (g r).peer = r.peer ∧
      (g r).id = r.id ∧ (g r).owner = r.owner ∧ (g r).next = r.next ∧ (r.flags = 0 → (g r).flags = j.flags) ∧
      (g r).inWr.wrId = p := by
  cases op <;> cases h <;> dsimp only [sendRecipe, recvRecipe, rdmaRecipe, World.buildSend, World.buildSendv,
    World.buildRecv, World.buildRecvv, World.buildPut, World.buildGet]
  case irecv buf size peer reg =>
    refine ⟨_, rfl, fun r => ?_⟩
    split
    · exact ⟨rfl, rfl, rfl, rfl, rfl, fun h => h, rfl⟩
    · exact ⟨rfl, rfl, rfl, rfl, rfl, fun h => h, rfl⟩
  case iput => exact ⟨_, rfl, fun r => ⟨rfl, rfl, rfl, rfl, rfl, fun _ => rfl, rfl⟩⟩
  case putPrepare => exact ⟨_, rfl, fun r => ⟨rfl, rfl, rfl, rfl, rfl, fun _ => rfl, rfl⟩⟩
  case iputOnStream => exact ⟨_, rfl, fun r => ⟨rfl, rfl, rfl, rfl, rfl, fun _ => rfl, rfl⟩⟩
  all_goals exact ⟨_, rfl, fun r => ⟨rfl, rfl, rfl, rfl, rfl, fun h => h, rfl⟩⟩

theorem mem_newLog_of_later {w w₁ w' : World} {e : LogEv} (hl : w.log <+: w₁.log) (h : e ∈ newLog w₁ w') :
    e ∈ newLog w w' :=
  List.drop_subset_drop_left _ hl.length_le h

theorem mem_newLog_of_earlier {w w₁ w' : World} {e : LogEv} (hl : w₁.log <+: w'.log) (h : e ∈ newLog w w₁) :
    e ∈ newLog w w' := by
  obtain ⟨l, hl⟩ := hl
  rw [newLog, ← hl, List.drop_append]
  exact List.mem_append_left _ h

/-- A call to the outside keeps what was made, and one that returns 0 has logged
what it has done with the request at `p`. -/
structure Submits (cfg : Config) (p : Ptr) (marks : Nat → List LogEv) (m : M Int) : Prop where
  stays : Stays (Carries cfg) m
  logs : ∀ s s', m s = (.ok 0, s') → ∀ e ∈ marks (s.w.mem p).id, e ∈ newLog s.w s'.w

namespace Submits
variable {p : Ptr} {marks : Nat → List LogEv}

/-- A call that logs when it succeeds. -/
theorem call {g : World → World} (hg : ∀ w, Carries cfg w (g w))
    (hl : ∀ w, ∀ e ∈ marks (w.mem p).id, (g w).log = w.log ++ [e]) : Submits cfg p marks (do
      let rc ← returnCode
      if rc = 0 then update g
      return rc) := by
  refine ⟨.call hg, fun s s' h e he => ?_⟩
  obtain ⟨rc, s₁, h₁, h₂⟩ := Prog.bind_eq_ok h
  have hw := returnCode_ok h₁
  split at h₂
  · cases h₂
    show e ∈ newLog s.w (g s₁.w)
    rw [hw, newLog, hl s.w e he, List.drop_left]
    exact List.mem_singleton_self e
  · rename_i hrc
    cases h₂
    exact absurd rfl hrc

theorem gdsPostSend (c : Nat) : Submits cfg p (acceptedTx c p) (gdsPostSend c p) :=
  call (fun w => .accept w c .tx p) fun w e he => by rw [List.mem_singleton.mp he]; rfl

theorem gdsPostRecv (c : Nat) : Submits cfg p (acceptedRx c p) (gdsPostRecv c p) :=
  call (fun w => .accept w c .rx p) fun w e he => by rw [List.mem_singleton.mp he]; rfl

theorem gdsStreamQueueSend (s : Stream) (c : Nat) : Submits cfg p (acceptedTx c p) (gdsStreamQueueSend s c p) :=
  call (fun w => (Carries.accept w c .tx p).trans (.enqueue _ s _)) fun w e he => by rw [List.mem_singleton.mp he]; rfl

theorem gdsPrepareSend (c : Nat) : Submits cfg p (preparedTx c p) (gdsPrepareSend c p) :=
  call (fun w => .fillSend w c p) fun w e he => by rw [List.mem_singleton.mp he]; rfl

/-- Something before it that keeps what was made. -/
theorem after {s s₁ s' : Sys} (hc : Carries cfg s.w s₁.w)
    (h : ∀ e ∈ marks (s₁.w.mem p).id, e ∈ newLog s₁.w s'.w) : ∀ e ∈ marks (s.w.mem p).id, e ∈ newLog s.w s'.w := by
  intro e he
  rw [← (hc.mem p).id] at he
  exact mem_newLog_of_later hc.log (h e he)

/-- A loop that returns 0 has made a try that returned 0. -/
theorem postRetry {post : M Int} (hpost : Submits cfg p marks post) (f : Flow) (tries : Nat) :
    Submits cfg p marks (postRetry cfg post f tries) := by
  refine ⟨progressive_carries.postRetry hpost.stays f tries, fun s s' h => ?_⟩
  induction tries generalizing s with
  | zero => cases h
  | succ tries ih =>
    obtain ⟨ret, s₁, h₁, h₂⟩ := Prog.bind_eq_ok h
    have hs₁ : Carries cfg s.w s₁.w := hpost.stays.run h₁
    split at h₂
    · rename_i hret
      obtain ⟨rp, s₂, h₃, h₄⟩ := Prog.bind_eq_ok h₂
      have hs₂ : Carries cfg s₁.w s₂.w := (progressive_carries.mpProgressSingleFlow f).run h₃
      split at h₄
      · cases h₄
        cases hret
      · exact after (hs₁.trans hs₂) (ih s₂ h₄)
    · cases h₂
      exact hpost.logs s s' h₁

theorem queueRetry (st : Stream) (c : Nat) (fuel : Nat) :
    Submits cfg p (acceptedTx c p) (queueRetry cfg st c p fuel) := by
  refine ⟨progressive_carries.queueRetry st c p fuel, fun s s' h => ?_⟩
  have hq : Submits cfg p (acceptedTx c p) (LibMp.gdsStreamQueueSend st c p) := gdsStreamQueueSend st c
  induction fuel generalizing s with
  | zero => cases h
  | succ fuel ih =>
    obtain ⟨ret, s₁, h₁, h₂⟩ := Prog.bind_eq_ok h
    have hs₁ : Carries cfg s.w s₁.w := hq.stays.run h₁
    split at h₂
    · obtain ⟨s₂, h₃, h₄⟩ := Prog.andThen_ok h₂
      have hs₂ : Carries cfg s₁.w s₂.w := (progressive_carries.mpProgressSingleFlow .tx).run h₃
      obtain ⟨s₃, h₅, h₆⟩ := Prog.andThen_ok h₄
      have hs₃ : Carries cfg s₂.w s₃.w := (progressive_carries.mpProgressSingleFlow .rx).run h₅
      obtain ⟨late, s₄, h₇, h₈⟩ := Prog.bind_eq_ok h₆
      have hs₄ := ((hs₁.trans hs₂).trans hs₃)
      rw [← timeout_ok h₇] at hs₄
      -- a GPU error ends the loop with its own code
      split at h₈
      · obtain ⟨s₅, h₉, h₁₀⟩ := Prog.andThen_ok h₈
        rw [← mpCheckGpuError_ok h₉] at hs₄
        exact after hs₄ (ih s₅ h₁₀)
      · exact after hs₄ (ih s₄ h₈)
    · cases h₂
      exact hq.logs s s' h₁

theorem mpPostSend (c : Nat) : Submits cfg p (acceptedTx c p) (mpPostSend cfg c p) := (gdsPostSend c).postRetry .tx _

theorem mpPostRecv (c : Nat) : Submits cfg p (acceptedRx c p) (mpPostRecv cfg c p) := (gdsPostRecv c).postRetry .rx _

theorem mpPostSendOnStream (s : Stream) (c : Nat) : Submits cfg p (acceptedTx c p) (mpPostSendOnStream cfg s c p) := by
  refine ⟨progressive_carries.mpPostSendOnStream s c p, fun s₀ s' h => ?_⟩
  rw [LibMp.mpPostSendOnStream, Prog.bind_ok (Prog.get_run _)] at h
  exact (queueRetry s c _).logs s₀ s' h

/-- What follows a call that succeeded. -/
theorem andThen {m f : M Int} (hm : Submits cfg p marks m) (hf : Stays (Carries cfg) f) : Submits cfg p marks (do
    let ret ← m
    if ret ≠ 0 then return ret
    f) := by
  refine ⟨.bind hm.stays fun _ => .ite (.pure _) hf, fun s s' h e he => ?_⟩
  obtain ⟨s₁, h₁, h₂⟩ := Prog.andThen_ok h
  have hs₁ : Carries cfg s₁.w s'.w := hf.run h₂
  exact mem_newLog_of_earlier hs₁.log (hm.logs s s₁ h₁ e he)

end Submits

/-! ## Calls that return 0 -/

/-- The request of the recipe for client `c` was made from `w` to `w'`, and the
caller got it as `req`. -/
structure Made (j : Recipe) (c : Nat) (w w' : World) (req : Option Ptr) : Prop where
  stored : req = some w.nextFree
  taken : w'.mpRequestFreeList = (w.refill.mem w.nextFree).next
  owner : (w'.mem w.nextFree).owner = some j.fn
  type : (w'.mem w.nextFree).type = j.type
  peer : (w'.mem w.nextFree).peer = j.peer
  flags : (w'.mem w.nextFree).flags = j.flags
  id : (w'.mem w.nextFree).id = (w.clients c).lastReqId + 1
  wrId : (w'.mem w.nextFree).inWr.wrId = w.nextFree
  one : ∀ q, q ≠ w.nextFree → (w'.mem q).inWr = (w.mem q).inWr
  done : ∀ e ∈ j.marks c w.nextFree ((w.clients c).lastReqId + 1), e ∈ newLog w w'

/-- What is made as soon as the request is filled in. -/
theorem Op.started_made {op : Op} {j : Recipe} (hj : op.recipe cfg = some j) {w : World} {c : Nat}
    (hc : cfg.clientIndex j.peer = some c) {w' : World} (hw : Carries cfg (j.started cfg w c) w')
    (hd : ∀ e ∈ j.marks c w.nextFree ((j.started cfg w c).mem w.nextFree).id, e ∈ newLog (j.started cfg w c) w') :
    Made j c w w' (some w.nextFree) := by
  obtain ⟨g, hg, hr⟩ := Op.recipe_build hj c w.nextFree (w.take j.fn c (cfg.mpiRank c) j.type j.state)
  have hs : j.started cfg w c = (w.take j.fn c (cfg.mpiRank c) j.type j.state).setReq w.nextFree g := hg
  obtain ⟨t1, t2, -, t4, t5, -, t7⟩ := w.take_mem j.fn c (cfg.mpiRank c) j.type j.state
  obtain ⟨r1, r2, r3, r4, -, r6, r7⟩ := hr ((w.take j.fn c (cfg.mpiRank c) j.type j.state).mem w.nextFree)
  have hm : (j.started cfg w c).mem w.nextFree =
      g ((w.take j.fn c (cfg.mpiRank c) j.type j.state).mem w.nextFree) := by
    rw [hs]
    simp
  have hk := hw.mem w.nextFree
  rw [hm] at hk hd
  refine ⟨rfl, ?_, ?_, ?_, ?_, ?_, ?_, ?_, fun q hq => ?_, fun e he => ?_⟩
  · rw [hw.free, hs]
    rfl
  · rw [hk.owner, r4, t4]
  · rw [hk.type, r1, t1]
  · rw [hk.peer, r2, t2, Config.mpiRank_eq hc]
  · rw [hk.flags, r6 t5]
  · rw [hk.id, r3, t7]
  · rw [hk.inWr, r7]
  · obtain ⟨n, hn⟩ := w.refill_mem q
    rw [(hw.mem q).inWr, hs, World.setReq_mem, if_neg hq, w.take_other _ _ _ _ _ hq, hn]
  · rw [← t7, ← r3] at he
    have hlog : (j.started cfg w c).log = w.log := by rw [hs, World.setReq_log, w.take_log]
    exact mem_newLog_of_later (by simp [hlog]) (hd e he)

/-- If the rest of a call returns 0 it stores `req`, has kept what was made and
has logged what it has done. -/
def Makes (cfg : Config) (p : Ptr) (req : Option Ptr) (marks : Nat → List LogEv) (m : M (Int × Option Ptr)) : Prop :=
  ∀ s x s', m s = (.ok x, s') → x.1 = 0 → x.2 = req ∧ Carries cfg s.w s'.w ∧
    ∀ e ∈ marks (s.w.mem p).id, e ∈ newLog s.w s'.w

namespace Makes
variable {p : Ptr} {req : Option Ptr} {marks : Nat → List LogEv}

theorem fail {ret : Int} (h : ret ≠ 0) (o : Option Ptr) : Makes cfg p req marks (pure (ret, o)) := by
  intro s x s' hr h0
  cases hr
  exact absurd h0 h

theorem done : Makes cfg p req (fun _ => []) (pure (0, req)) := by
  intro s x s' hr h0
  cases hr
  exact ⟨rfl, .refl _, fun e he => absurd he List.not_mem_nil⟩

theorem step {α : Type} {m : M α} {f : α → M (Int × Option Ptr)} (hm : Stays (Carries cfg) m)
    (hf : ∀ a, Makes cfg p req marks (f a)) : Makes cfg p req marks (m >>= f) := by
  intro s x s' hr h0
  obtain ⟨a, s₁, h₁, h₂⟩ := Prog.bind_eq_ok hr
  obtain ⟨hx, hc, hl⟩ := hf a s₁ x s' h₂ h0
  exact ⟨hx, (hm.run h₁).trans hc, Submits.after (hm.run h₁) hl⟩

theorem ite {c : Prop} [Decidable c] {m₁ m₂ : M (Int × Option Ptr)} (h₁ : c → Makes cfg p req marks m₁)
    (h₂ : ¬ c → Makes cfg p req marks m₂) : Makes cfg p req marks (if c then m₁ else m₂) := by
  split
  · rename_i h
    exact h₁ h
  · rename_i h
    exact h₂ h

/-- A call whose error is returned. -/
theorem try_ {m : M Int} {f : M (Int × Option Ptr)} (hm : Stays (Carries cfg) m) (hf : Makes cfg p req marks f) :
    Makes cfg p req marks (do
      let ret ← m
      if ret ≠ 0 then return (ret, none)
      f) :=
  step hm fun _ => ite (fun h => fail h _) fun _ => hf

/-- The call that takes the work request. -/
theorem submit {m : M Int} {f : M (Int × Option Ptr)} (hm : Submits cfg p marks m)
    (hf : Makes cfg p req (fun _ => []) f) : Makes cfg p req marks (do
      let ret ← m
      if ret ≠ 0 then return (ret, none)
      f) := by
  intro s x s' hr h0
  obtain ⟨ret, s₁, h₁, h₂⟩ := Prog.bind_eq_ok hr
  split at h₂
  · rename_i hret
    cases h₂
    exact absurd h0 hret
  · rename_i hret
    rw [not_not.mp hret] at h₁
    obtain ⟨hx, hc, -⟩ := hf s₁ x s' h₂ h0
    exact ⟨hx, (hm.stays.run h₁).trans hc, fun e he => mem_newLog_of_earlier hc.log (hm.logs s s₁ h₁ e he)⟩

theorem releaseOnError {m : M Int} (hm : Submits cfg p marks m) :
    Makes cfg p (some p) marks (releaseOnError p m) := by
  intro s x s' hr h0
  obtain ⟨ret, s₁, h₁, h₂⟩ := Prog.bind_eq_ok hr
  split at h₂
  · rename_i hret
    cases h₂
    exact absurd h0 hret
  · rename_i hret
    cases h₂
    rw [not_not.mp hret] at h₁
    exact ⟨rfl, hm.stays.run h₁, hm.logs s s' h₁⟩

end Makes

namespace Makes
variable {p : Ptr} {req : Option Ptr}

theorem prepareWait (c : Nat) (f : Flow) : Stays (Carries cfg) (gdsPrepareWaitCq c f p) :=
  Stays.call fun w => .fillWait w c f p

/-- The end of a call that prepares the wait. -/
theorem waitable (c : Nat) (f : Flow) : Makes cfg p req (fun _ => []) (do
    let ret ← gdsPrepareWaitCq c f p
    if ret ≠ 0 then return (ret, none)
    return (0, req)) :=
  try_ (prepareWait c f) done

/-- The end of a call that prepares the wait in some cases only. -/
theorem waitableIf (b : Bool) (c : Nat) (f : Flow) : Makes cfg p req (fun _ => []) (do
    if b then
      let ret ← gdsPrepareWaitCq c f p
      if ret ≠ 0 then return (ret, none)
    return (0, req)) := by
  cases b with
  | true => exact waitable c f
  | false => exact done

theorem prepareInfos (c : Nat) : Makes cfg p (some p) (preparedTx c p) (prepareInfos c p) :=
  submit (.gdsPrepareSend c) (waitable c .tx)

/-- With event sync the request is appended to the posted list. -/
theorem track (he : cfg.useEventSync = true) {c : Nat} {s : Stream} {f : M (Int × Option Ptr)}
    (hf : Makes cfg p req (fun _ => []) f) : Makes cfg p req (fun id => [.tracked c p id s]) (do
      clientTrackPostedStreamReq c p .tx s
      f) := by
  intro s₀ x s' hr h0
  obtain ⟨_, s₁, h₁, h₂⟩ := Prog.bind_eq_ok hr
  obtain ⟨w, s₂, h₃, h₄⟩ := Prog.bind_eq_ok h₁
  obtain ⟨-, h₆⟩ := require_bind_ok h₄
  cases h₃
  cases h₆
  obtain ⟨hx, hc, -⟩ := hf _ x s' h₂ h0
  refine ⟨hx, ((Carries.append he s₀.w c .tx p).trans (.addLog _ _)).trans hc, fun e he => ?_⟩
  rw [List.mem_singleton.mp he]
  refine mem_newLog_of_earlier hc.log ?_
  simp [newLog, World.append_log]

theorem blockOnCompletion (c : Nat) (f : Flow) (descs : List StreamOp) :
    Stays (Carries cfg) (blockOnCompletion c f p descs) := by
  refine .bind (Stays.client c) fun _ => .bind (Stays.request p) fun _ => .ite ?_ (.pure _)
  exact .bind (Stays.update fun w => .arm w c f p) fun _ => .bind Stays.returnCode fun _ => .pure _

end Makes

/-- A check that a call which returns 0 has passed. -/
theorem passes_ok {b : Prop} [Decidable b] {m : M (Int × Option Ptr)} {s s' : Sys} {x : Int × Option Ptr}
    (h : (if b then pure (mpFailure, none) else m) s = (.ok x, s')) (h0 : x.1 = 0) : ¬ b ∧ m s = (.ok x, s') := by
  split at h
  · cases h
    cases h0
  · rename_i hb
    exact ⟨hb, h⟩

/-- A call that returns 0 has taken a request for a client, and its rest has
made it. Only `mp_isendv` stores nothing. -/
theorem Op.run_makes {op : Op} {j : Recipe} (hj : op.recipe cfg = some j) {w : World} {tape : List Ans}
    {x : Int × Option Ptr}
    {s' : Sys} (h : op.run cfg ⟨w, tape⟩ = (.ok x, s')) (h0 : x.1 = 0) : ∃ c rest, cfg.clientIndex j.peer = some c ∧
      Makes cfg w.nextFree (if j.fn = .mpIsendv then none else some w.nextFree) (j.marks c w.nextFree) rest ∧
      rest ⟨j.started cfg w c, tape⟩ = (.ok x, s') := by
  cases op <;> cases hj
  case isend buf size peer reg =>
    obtain ⟨c, hc, h₂⟩ := clientOf_bind_ok h
    exact ⟨c, _, hc, .submit (.mpPostSend c) (.waitableIf _ c .tx), start_ok h₂⟩
  case irecv buf size peer reg =>
    obtain ⟨c, hc, h₂⟩ := clientOf_bind_ok h
    exact ⟨c, _, hc, .submit (.mpPostRecv c) (.waitableIf _ c .rx), start_ok h₂⟩
  case isendv v peer reg =>
    obtain ⟨-, h⟩ := passes_ok h h0
    obtain ⟨c, hc, h₂⟩ := clientOf_bind_ok h
    exact ⟨c, _, hc, .submit (.gdsPostSend c) (.waitableIf _ c .tx), start_ok h₂⟩
  case irecvv v peer reg =>
    obtain ⟨-, h⟩ := passes_ok h h0
    obtain ⟨c, hc, h₂⟩ := clientOf_bind_ok h
    exact ⟨c, _, hc, .submit (.gdsPostRecv c) (.waitableIf _ c .rx), start_ok h₂⟩
  case iput src size reg peer displ win flags =>
    obtain ⟨-, h⟩ := passes_ok h h0
    obtain ⟨c, hc, h₂⟩ := clientOf_bind_ok h
    obtain ⟨-, h₄⟩ := require_bind_ok h₂
    exact ⟨c, _, hc, .submit (.mpPostSend c) (.waitableIf _ c .tx), start_ok h₄⟩
  case iget dst size reg peer displ win =>
    obtain ⟨-, h⟩ := passes_ok h h0
    obtain ⟨c, hc, h₂⟩ := clientOf_bind_ok h
    obtain ⟨-, h₄⟩ := require_bind_ok h₂
    exact ⟨c, _, hc, .submit (.gdsPostSend c) (.waitable c .tx), start_ok h₄⟩
  case sendOnStream buf size peer reg s =>
    obtain ⟨c, hc, h₂⟩ := clientOf_bind_ok h
    cases he : cfg.useEventSync with
    | true =>
      rw [he, if_pos rfl] at h₂
      refine ⟨c, _, hc, ?_, start_ok h₂⟩
      dsimp only [sendRecipe]
      rw [sentOn_event he]
      refine .step (Stays.update fun w => .setClient w c _) fun _ => .step (Stays.request _) fun _ => ?_
      refine .try_ Stays.returnCode (.track he (.step (Makes.blockOnCompletion c .tx _) fun d => ?_))
      exact .ite (fun hr => .fail hr _) fun _ => .try_ (Stays.call fun w => .enqueue w s _) .done
    | false =>
      rw [he, if_neg (by decide)] at h₂
      refine ⟨c, _, hc, ?_, start_ok h₂⟩
      dsimp only [sendRecipe]
      rw [sentOn_direct he]
      exact .submit (.gdsStreamQueueSend s c) (.try_ (Stays.call fun w => .enqueue w s _) .done)
  case isendOnStream buf size peer reg s =>
    obtain ⟨c, hc, h₂⟩ := clientOf_bind_ok h
    cases he : cfg.useEventSync with
    | true =>
      rw [he, if_pos rfl] at h₂
      refine ⟨c, _, hc, ?_, start_ok h₂⟩
      dsimp only [sendRecipe]
      rw [sentOn_event he]
      refine .step (Stays.update fun w => .setClient w c _) fun _ => .step (Stays.request _) fun _ => ?_
      exact .try_ Stays.returnCode (.try_ (Stays.call fun w => .enqueue w s _) (.track he .done))
    | false =>
      rw [he, if_neg (by decide)] at h₂
      refine ⟨c, _, hc, ?_, start_ok h₂⟩
      dsimp only [sendRecipe]
      rw [sentOn_direct he]
      exact .submit (.mpPostSendOnStream s c) (.waitable c .tx)
  case isendvOnStream v peer reg s =>
    obtain ⟨c, hc, h₂⟩ := clientOf_bind_ok h
    obtain ⟨-, h₃⟩ := passes_ok h₂ h0
    obtain ⟨-, h₄⟩ := passes_ok h₃ h0
    exact ⟨c, _, hc, .submit (.gdsStreamQueueSend s c) (.waitable c .tx), start_ok h₄⟩
  case sendPrepare buf size peer reg =>
    obtain ⟨c, hc, h₂⟩ := clientOf_bind_ok h
    refine ⟨c, _, hc, ?_, start_ok h₂⟩
    cases he : cfg.useEventSync with
    | true => exact .done
    | false => exact .prepareInfos c
  case sendvPrepare v peer reg =>
    obtain ⟨c, hc, h₂⟩ := clientOf_bind_ok h
    obtain ⟨-, h₃⟩ := passes_ok h₂ h0
    obtain ⟨-, h₄⟩ := passes_ok h₃ h0
    exact ⟨c, _, hc, .prepareInfos c, start_ok h₄⟩
  case putPrepare src size reg peer displ win flags =>
    obtain ⟨-, h⟩ := passes_ok h h0
    obtain ⟨c, hc, h₂⟩ := clientOf_bind_ok h
    obtain ⟨-, h₄⟩ := require_bind_ok h₂
    refine ⟨c, _, hc, .releaseOnError (.andThen (.gdsPrepareSend c) ?_), start_ok h₄⟩
    exact .ite (.pure _) (Makes.prepareWait c .tx)
  case iputOnStream src size reg peer displ win flags s =>
    obtain ⟨-, h⟩ := passes_ok h h0
    obtain ⟨c, hc, h₂⟩ := clientOf_bind_ok h
    obtain ⟨-, h₄⟩ := require_bind_ok h₂
    refine ⟨c, _, hc, .releaseOnError (.andThen (.mpPostSendOnStream s c) ?_), start_ok h₄⟩
    exact .ite (.bind (Stays.update fun w => .setStatus w _ _) fun _ => .pure _) (Makes.prepareWait c .tx)
  case igetOnStream dst size reg peer displ win s =>
    obtain ⟨-, h⟩ := passes_ok h h0
    obtain ⟨c, hc, h₂⟩ := clientOf_bind_ok h
    obtain ⟨-, h₄⟩ := require_bind_ok h₂
    exact ⟨c, _, hc, .submit (.gdsStreamQueueSend s c) (.waitable c .tx), start_ok h₄⟩

end LibMp
