import LibMp.Returns

/- What progress carries along.

   While a call waits or tries again, progress goes on: completions are polled,
   triggered sends are handed over, streams run. `Stays R m` says that the
   program `m` stays in the relation `R` of worlds, whatever it returns and
   wherever it stops. For progress and the retry loops it is enough that the
   small steps they are made of stay in `R` (`Progressive`). The relation of a
   call that has made a request is `Carries`: whatever goes on, the request
   stays the one that was made. Where more is to be said of the end of a call,
   `Comes` is its weakest precondition, with loops that have not ended. -/
namespace LibMp
variable {cfg : Config}

instance {R : World → World → Prop} [IsPreorder World R] : IsPreorder Sys fun s s' => R s.w s'.w where
  refl s := refl_of R s.w
  trans _ _ _ := trans_of R

/-- The program stays in the relation `R`. -/
abbrev Stays {α : Type} (R : World → World → Prop) (m : M α) : Prop := Prog.Within (fun s s' : Sys => R s.w s'.w) m

/-- The steps of progress stay in `R`. Only with event sync are sends handed
over. -/
structure Progressive (cfg : Config) (R : World → World → Prop) : Prop where
  gpu : ∀ w g, R w (w.gpu g)
  accept : ∀ w c f p, R w (w.accept c f p)
  enqueue : ∀ w s ops, R w (w.enqueue s ops)
  handOver : cfg.useEventSync = true → ∀ w c f p, R w (w.handOver c f p)
  complete : ∀ w c f k wr, R w (w.complete cfg c f k wr)

namespace Stays
variable {R : World → World → Prop} [IsPreorder World R]

omit [IsPreorder World R] in
theorem run {α : Type} {m : M α} {s s' : Sys} {r : Except Stop α} (h : Stays R m) (hr : m s = (r, s')) :
    R s.w s'.w := by
  have hs := h s
  rw [hr] at hs
  exact hs

omit [IsPreorder World R] in
theorem update {g : World → World} (h : ∀ w, R w (g w)) : Stays R (update g) := .modify fun s => h s.w

theorem world : Stays R LibMp.world := .bind .get fun _ => .pure _

theorem request (p : Ptr) : Stays R (request p) := .bind world fun _ => .pure _

theorem client (c : Nat) : Stays R (client c) := .bind world fun _ => .pure _

theorem answer : Stays R answer := by
  intro s
  unfold LibMp.answer
  split
  · exact refl_of R _
  · exact refl_of R _

theorem returnCode : Stays R returnCode := .bind answer fun _ => .pure _

theorem timeout : Stays R timeout := .bind answer fun _ => .pure _

theorem mpCheckGpuError : Stays R mpCheckGpuError := .bind returnCode fun _ => .pure _

theorem clientOf (peer : Nat) : Stays R (clientOf cfg peer) := by
  unfold LibMp.clientOf
  split
  · exact .pure _
  · exact .stop _

/-- A call to the outside that does something when it succeeds. -/
theorem call {g : World → World} (h : ∀ w, R w (g w)) :
    Stays R (do
      let rc ← LibMp.returnCode
      if rc = 0 then LibMp.update g
      return rc) :=
  .bind returnCode fun _ => .ite (.bind (update h) fun _ => .pure _) (.pure _)

/-- The `while` of `client_can_poll` changes nothing. -/
theorem canPollFrom (c : Nat) (f : Flow) (fuel : Nat) (p : Option Ptr) (n : Nat) :
    Stays R (canPollFrom cfg c f fuel p n) := by
  induction fuel generalizing p n with
  | zero =>
    cases p with
    | none => exact .pure _
    | some p => exact .stop _
  | succ fuel ih =>
    cases p with
    | none => exact .pure _
    | some p => exact .bind (client c) fun _ => .bind (request p) fun _ => .ite (.pure _) (ih _ _)

theorem clientCanPoll (c : Nat) (f : Flow) : Stays R (clientCanPoll cfg c f) :=
  .ite (.pure _) (.bind world fun _ => canPollFrom c f _ _ _)

/-! What the calls with event sync do to a request. -/

theorem gdsStreamPostDescriptors {s : Stream} {descs : List StreamOp} (h : ∀ w, R w (w.enqueue s descs)) :
    Stays R (gdsStreamPostDescriptors s descs) :=
  call h

theorem clientTrackPostedStreamReq {c : Nat} {p : Ptr} {f : Flow} {s : Stream}
    (h : ∀ w op, R w ((w.append c f p).addLog (.tracked c p op s))) : Stays R (clientTrackPostedStreamReq c p f s) :=
  .bind world fun _ => .bind (.require _ _) fun _ => update fun w => h w _

theorem blockOnCompletion {c : Nat} {f : Flow} {p : Ptr} (h : ∀ w, R w (w.arm c f p)) (descs : List StreamOp) :
    Stays R (blockOnCompletion c f p descs) := by
  refine .bind (client c) fun _ => .bind (request p) fun _ => .ite ?_ (.pure _)
  exact .bind (update h) fun _ => .bind returnCode fun _ => .pure _

theorem waitAllEvent (h : ∀ w c f p, R w (w.arm c f p)) (ps : List Ptr) (descs : List StreamOp) :
    Stays R (waitAllEvent cfg ps descs) := by
  induction ps generalizing descs with
  | nil => exact .pure _
  | cons p rest ih =>
    refine .bind (request p) fun _ => .bind (clientOf _) fun c => .bind (.require _ _) fun _ => .bind (.require _ _)
      fun _ => ?_
    exact .bind (blockOnCompletion (fun w => h w c _ p) descs) fun _ => .ite (.pure _) (ih _)

/-! The loops over lists of requests. -/

theorem waitAllCopy {s : Stream} (h : ∀ w p, R w (w.setReq p fun r => { r with stream := some s, status := .pending }))
    (ps : List Ptr) : Stays R (waitAllCopy s ps) := by
  induction ps with
  | nil => exact .pure _
  | cons p rest ih =>
    refine .bind (request p) fun _ => .bind (.require _ _) fun _ => .ite (.pure _) (.bind (.require _ _) fun _ => ?_)
    exact .bind (update fun w => h w p) fun _ => .bind ih fun _ => .pure _

theorem gdsStreamPostWaitCqAll (hg : ∀ w p, R w (w.give p)) (hq : ∀ w s ops, R w (w.enqueue s ops)) (s : Stream)
    (ps : List Ptr) (infos : List (Option WaitInfo)) : Stays R (gdsStreamPostWaitCqAll s ps infos) := by
  refine .bind (update fun w => ?_) fun _ => call fun w => hq w s _
  induction ps generalizing w with
  | nil => exact refl_of R w
  | cons p rest ih => exact trans_of R (hg w p) (ih _)

theorem releaseAll (h : ∀ w p, R w (w.release p)) (ret : Int) (ps : List Ptr) : Stays R (releaseAll ret ps) := by
  induction ps generalizing ret with
  | nil => exact .pure _
  | cons p rest ih => exact .bind (request p) fun _ => .ite (.bind (update fun w => h w p) fun _ => ih _) (ih _)

end Stays

/-! ## Where a call comes back -/

/-- The program comes back with `Q`, or is in a loop with `L`. -/
def Comes {α : Type} (L : World → Prop) (m : M α) (Q : α → Sys → Prop) (s : Sys) : Prop :=
  Prog.wp m (fun e s' => e = .spinning → L s'.w) Q s

namespace Comes
variable {α β : Type} {L : World → Prop} {s s' : Sys} {P : α → Sys → Prop} {Q : β → Sys → Prop}

theorem pure {x : α} (h : P x s) : Comes L (Pure.pure x) P s := h

theorem bind {m : M α} {f : α → M β} (hm : Comes L m P s) (hf : ∀ x s', P x s' → Comes L (f x) Q s') :
    Comes L (m >>= f) Q s := by
  unfold Comes
  rw [Prog.wp_bind]
  unfold Comes Prog.wp at hm
  unfold Prog.wp
  split at hm
  · exact hf _ _ hm
  · exact hm

theorem step {m : M α} {f : α → M β} {x : α} (hm : m s = (.ok x, s')) (h : Comes L (f x) Q s') :
    Comes L (m >>= f) Q s := by
  unfold Comes
  rw [Prog.wp_bind, Prog.wp_ok hm]
  exact h

theorem clientOf {peer : Nat} {f : Nat → M β} (h : ∀ c, cfg.clientIndex peer = some c → Comes L (f c) Q s) :
    Comes L (LibMp.clientOf cfg peer >>= f) Q s := by
  cases hc : cfg.clientIndex peer with
  | none =>
    have hrun : LibMp.clientOf cfg peer s = (.error .badPeer, s) := by rw [LibMp.clientOf, hc]; rfl
    unfold Comes
    rw [Prog.wp_bind, Prog.wp, hrun]
    intro hspin
    cases hspin
  | some c =>
    have hrun : LibMp.clientOf cfg peer s = (.ok c, s) := by rw [LibMp.clientOf, hc]; rfl
    exact step hrun (h c hc)

theorem require {b : Bool} {e : Stop} {f : Unit → M β} (he : e ≠ .spinning) (h : b = true → Comes L (f ()) Q s) :
    Comes L (Prog.require b e >>= f) Q s := by
  cases b with
  | true => exact step rfl (h rfl)
  | false => exact fun hspin => absurd hspin he

theorem ite {c : Prop} [Decidable c] {m₁ m₂ : M α} (h₁ : c → Comes L m₁ P s) (h₂ : ¬ c → Comes L m₂ P s) :
    Comes L (if c then m₁ else m₂) P s := by
  split
  · rename_i hc
    exact h₁ hc
  · rename_i hc
    exact h₂ hc

/-- A call takes a request and fills it in. -/
theorem start {fn : Fn} {c rank : Nat} {type : ReqType} {st : State} {bld : Ptr → World → World} {rest : Ptr → M β}
    {w : World} {tape : List Ans} (h : Comes L (rest w.nextFree) Q ⟨bld w.nextFree (w.take fn c rank type st), tape⟩) :
    Comes L (newStreamRequest fn c rank type st >>= fun p => update (bld p) >>= fun _ => rest p) Q ⟨w, tape⟩ := by
  rcases newStreamRequest_run fn c rank type st ⟨w, tape⟩ with ⟨-, hrun⟩ | ⟨-, s', hrun⟩
  · exact step hrun (step rfl h)
  · unfold Comes
    rw [Prog.wp_bind, Prog.wp, hrun]
    intro hspin
    cases hspin

theorem only {m : M Int} (h : Comes L m (fun _ s' => L s'.w) s) : Comes L (LibMp.only m) (fun _ s' => L s'.w) s :=
  bind h fun _ _ hs => hs

/-- What the event of such a call leaves. -/
theorem exec {op : Op} {w : World} {tape : List Ans} (hs : Comes L (op.run cfg) (fun _ s' => L s'.w) ⟨w, tape⟩)
    (hnote : ∀ u s ps, L u → L (u.noteWaits cfg s ps)) (ha : alive (op.exec cfg tape w).1) :
    L (op.exec cfg tape w).2 := by
  unfold Comes Prog.wp at hs
  unfold Op.exec at ha ⊢
  cases hr : op.run cfg ⟨w, tape⟩ with
  | mk r s =>
    rw [hr] at hs ha
    cases r with
    | ok x =>
      obtain ⟨ret, req⟩ := x
      cases op.streamWait with
      | none => exact hs
      | some sp =>
        obtain ⟨st, ps⟩ := sp
        dsimp only
        split
        · exact hnote s.w st ps hs
        · exact hs
    | error e =>
      have he : e = .spinning := ha
      exact hs he

end Comes

namespace Progressive
variable {R : World → World → Prop} [IsPreorder World R] (h : Progressive cfg R)
include h

theorem runStreams (gs : List Gpu) (w : World) : R w (runStreams w gs) := by
  induction gs generalizing w with
  | nil => exact refl_of R w
  | cons g rest ih => exact trans_of R (h.gpu w g) (ih _)

theorem streamsRun : Stays R streamsRun := .bind Stays.answer fun a => Stays.update fun w => h.runStreams a.gpu w

theorem gdsPostSend (c : Nat) (p : Ptr) : Stays R (gdsPostSend c p) := Stays.call fun w => h.accept w c .tx p

theorem gdsPostRecv (c : Nat) (p : Ptr) : Stays R (gdsPostRecv c p) := Stays.call fun w => h.accept w c .rx p

theorem gdsStreamQueueSend (s : Stream) (c : Nat) (p : Ptr) : Stays R (gdsStreamQueueSend s c p) :=
  Stays.call fun w => trans_of R (h.accept w c .tx p) (h.enqueue _ s _)

theorem postHead (he : cfg.useEventSync = true) (c : Nat) (f : Flow) (p : Ptr) : Stays R (postHead c f p) :=
  .bind (h.gdsPostSend c p) fun _ => .ite (.bind (Stays.update fun w => h.handOver he w c f p) fun _ => .pure _)
    (.pure _)

theorem progressPosted (he : cfg.useEventSync = true) (c : Nat) (f : Flow) (fuel : Nat) :
    Stays R (progressPosted c f fuel) := by
  induction fuel with
  | zero => exact .stop _
  | succ fuel ih =>
    refine .bind (Stays.client c) fun cl => ?_
    split
    · exact .pure _
    · refine .bind h.streamsRun fun _ => .bind (Stays.client c) fun _ => .bind (Stays.request _) fun _ =>
        .ite (.pure _) ?_
      refine .bind (.require _ _) fun _ => .bind (.require _ _) fun _ => .bind (h.postHead he c f _) fun _ => ?_
      exact .ite (.pure _) ih

theorem progressPostedClients (he : cfg.useEventSync = true) (f : Flow) (cs : List Nat) :
    Stays R (progressPostedClients f cs) := by
  induction cs with
  | nil => exact .pure _
  | cons c rest ih => exact .bind Stays.world fun w => .bind (h.progressPosted he c f _) fun _ => .ite (.pure _) ih

theorem progressPostedList (f : Flow) : Stays R (progressPostedList cfg f) := by
  unfold LibMp.progressPostedList
  split
  · rename_i he
    exact h.progressPostedClients he f _
  · exact .pure _

theorem progressCompletion (c : Nat) (f : Flow) (k : Nat) : Stays R (progressCompletion cfg c f k) := by
  refine .bind Stays.world fun w => ?_
  split
  · exact .pure _
  · exact .bind (.require _ _) fun _ => .bind (.require _ _) fun _ => Stays.update fun w => h.complete w c f k _

theorem progressCompletions (c : Nat) (f : Flow) (ks : List Nat) : Stays R (progressCompletions cfg c f ks) := by
  induction ks with
  | nil => exact .pure _
  | cons k rest ih => exact .bind (h.progressCompletion c f k) fun _ => .bind h.streamsRun fun _ => ih

theorem pollClient (f : Flow) (c : Nat) : Stays R (pollClient cfg f c) := by
  refine .bind (Stays.clientCanPoll c f) fun n => .ite (.pure _) (.bind Stays.answer fun a => ?_)
  refine .bind (Stays.update fun w => h.runStreams a.gpu w) fun _ => .ite (.pure _) ?_
  exact .bind (h.progressCompletions c f _) fun _ => .pure _

theorem pollClients (f : Flow) (cs : List Nat) : Stays R (pollClients cfg f cs) := by
  induction cs with
  | nil => exact .pure _
  | cons c rest ih => exact .bind (h.pollClient f c) fun _ => .ite (.pure _) ih

theorem mpProgressSingleFlow (f : Flow) : Stays R (mpProgressSingleFlow cfg f) :=
  .bind (h.progressPostedList f) fun _ => h.pollClients f _

theorem progressAllFrom (n : Int) (ps : List Ptr) : Stays R (progressAllFrom cfg n ps) := by
  induction ps generalizing n with
  | nil => exact .pure _
  | cons p rest ih =>
    refine .bind (Stays.request p) fun _ => .ite (ih _) (.bind (h.mpProgressSingleFlow .tx) fun _ => .ite (.pure _) ?_)
    exact .bind (h.mpProgressSingleFlow .rx) fun _ => .ite (.pure _) (.bind (Stays.request p) fun _ => ih _)

/-! The loops that wait. -/

theorem spin (p : Ptr) (fuel : Nat) : Stays R (spin cfg p fuel) := by
  induction fuel with
  | zero => exact .stop _
  | succ fuel ih =>
    refine .bind (Stays.request p) fun _ => .ite (.pure _)
      (.bind (h.mpProgressSingleFlow .tx) fun _ => .ite (.pure _) ?_)
    refine .bind (h.mpProgressSingleFlow .rx) fun _ => .ite (.pure _) (.bind Stays.timeout fun _ => ?_)
    exact .ite (.bind Stays.mpCheckGpuError fun _ => .ite (.pure _) ih) ih

theorem spinAll (ps : List Ptr) : Stays R (spinAll cfg ps) := by
  induction ps with
  | nil => exact .pure _
  | cons p rest ih => exact .bind .get fun s => .bind (h.spin p _) fun _ => .ite (.pure _) ih

theorem postRetry {post : M Int} (hpost : Stays R post) (f : Flow) (tries : Nat) :
    Stays R (postRetry cfg post f tries) := by
  induction tries with
  | zero => exact .pure _
  | succ tries ih =>
    exact .bind hpost fun _ => .ite (.bind (h.mpProgressSingleFlow f) fun _ => .ite (.pure _) ih) (.pure _)

theorem queueRetry (s : Stream) (c : Nat) (p : Ptr) (fuel : Nat) : Stays R (queueRetry cfg s c p fuel) := by
  induction fuel with
  | zero => exact .stop _
  | succ fuel ih =>
    refine .bind (h.gdsStreamQueueSend s c p) fun _ => .ite ?_ (.pure _)
    refine .bind (h.mpProgressSingleFlow .tx) fun _ => .ite (.pure _) ?_
    refine .bind (h.mpProgressSingleFlow .rx) fun _ => .ite (.pure _) (.bind Stays.timeout fun _ => ?_)
    exact .ite (.bind Stays.mpCheckGpuError fun _ => .ite (.pure _) ih) ih

theorem mpPostSend (c : Nat) (p : Ptr) : Stays R (mpPostSend cfg c p) := h.postRetry (h.gdsPostSend c p) .tx _

theorem mpPostRecv (c : Nat) (p : Ptr) : Stays R (mpPostRecv cfg c p) := h.postRetry (h.gdsPostRecv c p) .rx _

theorem mpPostSendOnStream (s : Stream) (c : Nat) (p : Ptr) : Stays R (mpPostSendOnStream cfg s c p) :=
  .bind .get fun _ => h.queueRetry s c p _

end Progressive

/-! ## What a posting call keeps -/

/-- The second request was made as the first one was. -/
structure Request.SameMake (r r' : Request) : Prop where
  type : r'.type = r.type
  peer : r'.peer = r.peer
  id : r'.id = r.id
  flags : r'.flags = r.flags
  inWr : r'.inWr = r.inWr
  sgEntry : r'.sgEntry = r.sgEntry
  udSgEntry : r'.udSgEntry = r.udSgEntry
  owner : r'.owner = r.owner
  sgv : r.sgv = none → r'.sgv = none

theorem Request.SameMake.refl (r : Request) : r.SameMake r := ⟨rfl, rfl, rfl, rfl, rfl, rfl, rfl, rfl, fun h => h⟩

theorem Request.SameMake.trans {r₁ r₂ r₃ : Request} (h₁ : r₁.SameMake r₂) (h₂ : r₂.SameMake r₃) : r₁.SameMake r₃ :=
  ⟨h₂.type.trans h₁.type, h₂.peer.trans h₁.peer, h₂.id.trans h₁.id, h₂.flags.trans h₁.flags, h₂.inWr.trans h₁.inWr,
    h₂.sgEntry.trans h₁.sgEntry, h₂.udSgEntry.trans h₁.udSgEntry, h₂.owner.trans h₁.owner, fun h => h₂.sgv (h₁.sgv h)⟩

/-- Every request stays as it was made, the pool stays as it is, and the log
grows. The links change only with event sync. -/
structure Carries (cfg : Config) (w w' : World) : Prop where
  mem : ∀ q, (w.mem q).SameMake (w'.mem q)
  links : cfg.useEventSync = false → ∀ q, (w'.mem q).next = (w.mem q).next
  frontier : w'.frontier = w.frontier
  free : w'.mpRequestFreeList = w.mpRequestFreeList
  log : w.log <+: w'.log

namespace Carries

theorem refl (w : World) : Carries cfg w w := ⟨fun _ => .refl _, fun _ _ => rfl, rfl, rfl, List.prefix_rfl⟩

theorem trans {w₁ w₂ w₃ : World} (h₁ : Carries cfg w₁ w₂) (h₂ : Carries cfg w₂ w₃) : Carries cfg w₁ w₃ :=
  ⟨fun q => (h₁.mem q).trans (h₂.mem q), fun he q => (h₂.links he q).trans (h₁.links he q),
    h₂.frontier.trans h₁.frontier, h₂.free.trans h₁.free, h₁.log.trans h₂.log⟩

instance : IsPreorder World (Carries cfg) where
  refl := refl
  trans _ _ _ := trans

theorem of_mem {w w' : World} (hm : w'.mem = w.mem) (hfr : w'.frontier = w.frontier)
    (hf : w'.mpRequestFreeList = w.mpRequestFreeList) (hl : w.log <+: w'.log) : Carries cfg w w' := by
  refine ⟨fun q => ?_, fun _ q => ?_, hfr, hf, hl⟩
  · rw [hm]
    exact .refl _
  · rw [hm]

theorem setClient (w : World) (c : Nat) (g : Client → Client) : Carries cfg w (w.setClient c g) :=
  of_mem rfl rfl rfl List.prefix_rfl

theorem addLog (w : World) (e : LogEv) : Carries cfg w (w.addLog e) := of_mem rfl rfl rfl (List.prefix_append _ _)

theorem accept (w : World) (c : Nat) (f : Flow) (p : Ptr) : Carries cfg w (w.accept c f p) :=
  of_mem rfl rfl rfl (List.prefix_append _ _)

theorem enqueue (w : World) (s : Stream) (ops : List StreamOp) : Carries cfg w (w.enqueue s ops) :=
  of_mem rfl rfl rfl List.prefix_rfl

/-- An update of one request that keeps what was made. -/
theorem setReq (w : World) (p : Ptr) {g : Request → Request} (h : (w.mem p).SameMake (g (w.mem p)))
    (hn : cfg.useEventSync = false → (g (w.mem p)).next = (w.mem p).next) : Carries cfg w (w.setReq p g) := by
  refine ⟨fun q => ?_, fun he q => ?_, rfl, rfl, List.prefix_rfl⟩
  · exact w.setReq_rel .refl h q
  · exact w.setReq_rel (R := fun r r' => r'.next = r.next) (fun _ => rfl) (hn he) q

theorem setStatus (w : World) (p : Ptr) (st : State) : Carries cfg w (w.setStatus p st) :=
  setReq w p ⟨rfl, rfl, rfl, rfl, rfl, rfl, rfl, rfl, fun h => h⟩ fun _ => rfl

theorem fillSend (w : World) (c : Nat) (p : Ptr) : Carries cfg w (w.fillSend c p) :=
  (setReq w p ⟨rfl, rfl, rfl, rfl, rfl, rfl, rfl, rfl, fun h => h⟩ fun _ => rfl).trans (addLog _ _)

theorem fillWait (w : World) (c : Nat) (f : Flow) (p : Ptr) : Carries cfg w (w.fillWait c f p) := by
  have hreq : Carries cfg w (w.setReq p fun r => { r with gdsWaitInfo := some ⟨w.fills, c, f, r.id⟩ }) :=
    setReq w p ⟨rfl, rfl, rfl, rfl, rfl, rfl, rfl, rfl, fun h => h⟩ fun _ => rfl
  exact hreq.trans (of_mem rfl rfl rfl List.prefix_rfl)

theorem setWord (w : World) (v : Nat) (word : Word) : Carries cfg w (w.setWord v word) := by
  cases word with
  | lastTriggerId c f => exact of_mem rfl rfl rfl List.prefix_rfl
  | lastTrackedId c f => exact of_mem rfl rfl rfl List.prefix_rfl
  | user a => exact of_mem rfl rfl rfl List.prefix_rfl

theorem gpuStep (w : World) (s : Stream) : Carries cfg w (w.gpuStep s) := by
  unfold World.gpuStep
  split
  · exact .refl w
  · split
    · refine trans ?_ (addLog _ _)
      have hs : Carries cfg w (w.shift s) := of_mem rfl rfl rfl List.prefix_rfl
      unfold World.effect
      split
      · exact hs.trans (setWord _ _ _)
      · exact hs
    · exact .refl w

theorem gpu (w : World) (g : Gpu) : Carries cfg w (w.gpu g) := by
  cases g with
  | run s => exact gpuStep w s
  | store c v => exact setWord w v (.lastTriggerId c .tx)

/-- The links of the requests change. -/
theorem relinked (he : cfg.useEventSync = true) {w w' : World}
    (hm : ∀ q, ∃ n v, w'.mem q = { w.mem q with next := n, prev := v }) (hfr : w'.frontier = w.frontier)
    (hf : w'.mpRequestFreeList = w.mpRequestFreeList) (hl : w'.log = w.log) : Carries cfg w w' := by
  refine ⟨fun q => ?_, fun hn => ?_, hfr, hf, ?_⟩
  · obtain ⟨n, v, hq⟩ := hm q
    rw [hq]
    exact ⟨rfl, rfl, rfl, rfl, rfl, rfl, rfl, rfl, fun h => h⟩
  · rw [he] at hn
    cases hn
  · simp [hl]

theorem handOver (he : cfg.useEventSync = true) (w : World) (c : Nat) (f : Flow) (p : Ptr) :
    Carries cfg w (w.handOver c f p) := by
  unfold World.handOver
  generalize LogEv.handed c p (w.mem p).id ((w.clients c).lastTriggerId f) = e
  obtain ⟨hfr, hf, -, -, hlog, -⟩ := World.delink_rest (w := (w.addLog e).setStatus p .pending) (c := c) (f := f)
    (p := p)
  exact ((addLog w e).trans (setStatus _ p .pending)).trans (relinked he World.delink_links hfr hf hlog)

theorem append (he : cfg.useEventSync = true) (w : World) (c : Nat) (f : Flow) (p : Ptr) :
    Carries cfg w (w.append c f p) := by
  refine relinked he World.append_links ?_ ?_ (w.append_log c f p)
  · unfold World.append
    split
    · rfl
    · split <;> rfl
  · unfold World.append
    split
    · rfl
    · split <;> rfl

theorem progressRequest (w : World) (p : Ptr) : Carries cfg w (w.progressRequest p) := by
  have hdone : Carries cfg w (w.setReq p fun r => { r with status := .complete, sgv := none }) :=
    setReq w p ⟨rfl, rfl, rfl, rfl, rfl, rfl, rfl, rfl, fun _ => rfl⟩ fun _ => rfl
  unfold World.progressRequest
  split
  · exact hdone
  · exact hdone
  · exact .refl w
  · exact .refl w
  · exact .refl w

theorem complete (w : World) (c : Nat) (f : Flow) (k : Nat) (wr : Wr) : Carries cfg w (w.complete cfg c f k wr) := by
  have hdeq : Carries cfg w (w.dequeue c f k) := of_mem rfl rfl rfl List.prefix_rfl
  unfold World.complete
  refine (hdeq.trans ?_).trans (((setClient _ c _).trans (progressRequest _ _)).trans (addLog _ _))
  split
  · exact setClient _ c _
  · exact .refl _

theorem arm (w : World) (c : Nat) (f : Flow) (p : Ptr) : Carries cfg w (w.arm c f p) :=
  (setReq w p ⟨rfl, rfl, rfl, rfl, rfl, rfl, rfl, rfl, fun h => h⟩ fun _ => rfl).trans (setClient _ c _)

end Carries

/-- Progress keeps what was made. -/
theorem progressive_carries : Progressive cfg (Carries cfg) where
  gpu := .gpu
  accept := .accept
  enqueue := .enqueue
  handOver he := .handOver he
  complete := .complete

end LibMp
