import LibMp.Capacity
import LibMp.CommRuns
import LibMp.Quiet
import LibMp.ReadyWaits
import LibMp.Refused

/- Single calls of COMM without event sync, when the outside makes no errors.

   A posting call comes back and has posted one request, as long as there are
   ids left and room in the table. A wait on the CPU comes back when the table is
   ready, a flush when the requests complete. `RankOk` is what all of them leave
   of a rank: the table is sound, and every completion that is outstanding
   belongs to a request of the table, so a flush that returns leaves none. -/
namespace LibMp
variable {cfg : Config} {cc : CommConfig} {c c' : Comm} {rank : Nat}

/-! ## Posting one request -/

/-- With answers that are all successes the program posts the next free request
and leaves `w'`. -/
def Leaves (m : M (Int × Option Ptr)) (w w' : World) : Prop :=
  ∀ tape, Succeeds tape → ∃ tape', Succeeds tape' ∧ m ⟨w, tape⟩ = (.ok (0, some w.nextFree), ⟨w', tape'⟩)

/-- It posts one request for the client `i` and flow `f`. -/
def PostsOne (cfg : Config) (m : M (Int × Option Ptr)) (w : World) (i : Nat) (f : Flow) (fl : Nat) : Prop :=
  ∃ w', NewRequest cfg w w' w.nextFree i f fl ∧
    (∀ d, (w'.clients d).lastReqId ≤ (w.clients d).lastReqId + 1) ∧ Leaves m w w'

/-- All that is left by a call that posts a request which can be waited for: the
request has the next id of its client and a wait info of its own, and `ops` stand
at the end of the stream `st`. -/
structure Posted (cfg : Config) (w w' : World) (i : Nat) (f : Flow) (fl : Nat) (type : ReqType) (st : Stream)
    (ops : List StreamOp) : Prop where
  new : NewRequest cfg w w' w.nextFree i f fl
  type_eq : (w'.mem w.nextFree).type = type
  peer_eq : (w'.mem w.nextFree).peer = cfg.mpiRank i
  id_eq : (w'.mem w.nextFree).id = (w.clients i).lastReqId + 1
  own : Own cfg w' w.nextFree
  infos : ∀ q, q ≠ w.nextFree → (w'.mem q).gdsWaitInfo = (w.mem q).gdsWaitInfo
  ids : ∀ d, (w'.clients d).lastReqId = (w.clients d).lastReqId + if d = i then 1 else 0
  stream : (w'.streams st).todo = (w.streams st).todo ++ ops

theorem World.take_lastReqId (w : World) (fn : Fn) (i rank : Nat) (type : ReqType) (st : State) (d : Nat) :
    ((w.take fn i rank type st).clients d).lastReqId = (w.clients d).lastReqId + if d = i then 1 else 0 := by
  rw [w.take_clients]
  split
  · rename_i hd
    rw [hd]
  · rfl

theorem Posted.postsOne {m : M (Int × Option Ptr)} {w w' : World} {i fl : Nat} {f : Flow} {type : ReqType} {st : Stream}
    {ops : List StreamOp} (h : Posted cfg w w' i f fl type st ops) (hm : Leaves m w w') : PostsOne cfg m w i f fl := by
  refine ⟨w', h.new, fun d => ?_, hm⟩
  rw [h.ids]
  split <;> omega

/-- Take a request, fill it in, give it to the HCA, prepare its wait. -/
theorem posted_accept {w : World} {fn : Fn} {i peer : Nat} {type : ReqType} {g : Request → Request} {flags : Nat}
    {st : Stream} {ops : List StreamOp} (hc : cfg.clientIndex peer = some i) (hty : type ≠ .null)
    (hfl : type.flow = fn.flow) (hfn : fn ≠ .mpSendPrepare)
    (hg : ∀ r : Request, r.flags = 0 → r.owner = some fn → r.SameLife (g r) ∧ (g r).WrOk w.nextFree)
    (hfs : ∀ r : Request, r.flags = 0 → (g r).flags = flags) (hops : ∀ w', EnqueueOk cfg w' ops) :
    Posted cfg w (((((w.take fn i (cfg.mpiRank i) type .pendingNowait).setReq w.nextFree g).accept i fn.flow
      w.nextFree).enqueue st ops).fillWait i fn.flow w.nextFree) i fn.flow flags type st ops := by
  obtain ⟨h1, h2, -, h4, h5, -, h7⟩ := w.take_mem fn i (cfg.mpiRank i) type .pendingNowait
  obtain ⟨⟨l1, l2, -, -, l5, -⟩, -⟩ := hg _ h5 h4
  have hself : ((((((w.take fn i (cfg.mpiRank i) type .pendingNowait).setReq w.nextFree g).accept i fn.flow
      w.nextFree).enqueue st ops).fillWait i fn.flow w.nextFree).mem w.nextFree) =
      { g ((w.take fn i (cfg.mpiRank i) type .pendingNowait).mem w.nextFree) with
        gdsWaitInfo := some ⟨(w.take fn i (cfg.mpiRank i) type .pendingNowait).fills, i, fn.flow,
          (g ((w.take fn i (cfg.mpiRank i) type .pendingNowait).mem w.nextFree)).id⟩ } := by
    simp [World.fillWait, World.accept, World.enqueue, World.setReq]
  refine ⟨(NewRequest.enqueue (newRequest_accept hc hty hfl hfn hg hfs) st ops (hops _)).fillWait _ _ _, ?_, ?_, ?_,
    ⟨(w.take fn i (cfg.mpiRank i) type .pendingNowait).fills, i, ?_, ?_⟩, fun q hq => ?_, fun d => ?_, ?_⟩
  · rw [hself]
    exact l1.trans h1
  · rw [hself]
    exact l2.trans h2
  · rw [hself]
    exact l5.trans h7
  · rw [hself]
    dsimp only
    rw [l1, h1, hfl]
  · rw [hself]
    dsimp only
    rw [l2, h2, Config.mpiRank_eq hc]
    exact hc
  · obtain ⟨n, hn⟩ := w.refill_mem q
    have hmem := w.take_other fn i (cfg.mpiRank i) type .pendingNowait hq
    simp [World.fillWait, World.accept, World.enqueue, hq, hmem, hn]
  · exact w.take_lastReqId fn i (cfg.mpiRank i) type .pendingNowait d
  · simp [World.fillWait, World.accept, World.enqueue, w.take_streams]

section Posts
variable {w : World} {peer i : Nat} {size : Int} {reg : Reg} (hc : cfg.clientIndex peer = some i)
  (hid : (w.clients i).lastReqId < uintMax)
include hc hid

theorem mpIrecv_posted (he : cfg.useEventSync = false) (buf : Nat) (st : Stream) :
    ∃ w', Posted cfg w w' i .rx 0 .recv st [] ∧ Leaves (mpIrecv cfg buf size peer reg) w w' := by
  refine ⟨_, @posted_accept cfg w .mpIrecv i peer .recv _ 0 st [] hc (by decide) rfl (by decide)
    (fun r hf _ => @buildRecv_ok cfg w.nextFree r hf buf size reg)
    (fun r hf => ?_) (fun w' => ⟨by simp, by simp⟩), fun tape ht => ?_⟩
  · split <;> exact hf
  · refine ⟨tape.tail.tail, ht.tail.tail, ?_⟩
    rw [mpIrecv, Prog.bind_ok (clientOf_run hc _), start_run hid, Prog.bind_ok (mpPostRecv_run ht _ _ _),
      if_neg (by decide)]
    dsimp only
    rw [he, if_pos (by decide), Prog.bind_ok (gdsPrepareWaitCq_run ht.tail _ _ _ _), if_neg (by decide),
      World.enqueue_nil]
    rfl

theorem mpIrecv_posts (he : cfg.useEventSync = false) (buf : Nat) :
    PostsOne cfg (mpIrecv cfg buf size peer reg) w i .rx 0 := by
  obtain ⟨w', hposted, hposts⟩ := @mpIrecv_posted cfg w peer i size reg hc hid he buf 0
  exact hposted.postsOne hposts

theorem mpIsend_posts (he : cfg.useEventSync = false) (buf : Nat) :
    PostsOne cfg (mpIsend cfg buf size peer reg) w i .tx 0 := by
  have hposted := @posted_accept cfg w .mpIsend i peer .send
    (fun r => { r with inWr := sendWr cfg i w.nextFree 1 .sgEntry, sgEntry := ⟨buf, len32 size, reg.key⟩ }) 0 0 [] hc
    (by decide) rfl (by decide) (fun r hf _ => buildSend_ok hf i 1 .sgEntry _) (fun r hf => hf)
    fun w' => ⟨by simp, by simp⟩
  refine hposted.postsOne fun tape ht => ?_
  refine ⟨tape.tail.tail, ht.tail.tail, ?_⟩
  rw [mpIsend, Prog.bind_ok (clientOf_run hc _), start_run hid, Prog.bind_ok (mpPostSend_run ht _ _ _),
    if_neg (by decide)]
  dsimp only
  rw [he, if_pos (by decide), Prog.bind_ok (gdsPrepareWaitCq_run ht.tail _ _ _ _), if_neg (by decide),
    World.enqueue_nil]
  rfl

/-- A put that is not to be waited for. -/
theorem mpIput_posts (hud : cfg.enableUd = false) {src displ flags : Nat} {win : Window} (hn : nowait flags = true)
    (hdispl : displ < win.rsize i) : PostsOne cfg (mpIput cfg src size reg peer displ win flags) w i .tx flags := by
  refine ⟨((w.take .mpIput i (cfg.mpiRank i) .rdma .pendingNowait).buildPut i w.nextFree src size reg displ win
    flags).accept i .tx w.nextFree, ?_, fun d => ?_, fun tape ht => ?_⟩
  · refine newRequest_accept hc (by decide) rfl (by decide) ?_ ?_
    · exact fun r _ ho => buildPut_ok ho rfl win i displ flags _
    · exact fun _ _ => rfl
  · have hids := w.take_lastReqId .mpIput i (cfg.mpiRank i) .rdma .pendingNowait d
    refine hids.le.trans (Nat.add_le_add_left ?_ _)
    split <;> decide
  · refine ⟨tape.tail, ht.tail, ?_⟩
    rw [mpIput, hud, if_neg (by decide), Prog.bind_ok (clientOf_run hc _),
      Prog.bind_ok (require_run (decide_eq_true hdispl) _ _), start_run hid, Prog.bind_ok (mpPostSend_run ht _ _ _),
      if_neg (by decide)]
    dsimp only
    rw [hn, if_neg (by decide)]
    rfl

end Posts

/-! ## The posting calls of COMM -/

/-- A buffer is registered if it is not yet. -/
theorem commRegister_succeeds {size : Nat} (hsize : size ≠ 0) (creg : Nat) (ht : Succeeds c.sys.tape) :
    ∃ tape, Succeeds tape ∧
      commRegister size creg c = (.ok 0, { c with sys := ⟨c.sys.w, tape⟩, regs := c.regs.ensure creg }) := by
  have hget : (Prog.get : CM Comm) c = (.ok c, c) := rfl
  rw [commRegister, if_neg hsize, Prog.bind_ok hget, Registrations.ensure]
  by_cases hreg : c.regs.creg creg = none
  · have hcode : mpCall mpRegister c = (.ok 0, { c with sys := ⟨c.sys.w, c.sys.tape.tail⟩ }) := by
      have hrun := returnCode_run ht c.sys.w
      rw [mpCall, mpRegister, show c.sys = ⟨c.sys.w, c.sys.tape⟩ from rfl, Prog.bind_ok hrun]
      rfl
    refine ⟨c.sys.tape.tail, ht.tail, ?_⟩
    rw [if_pos hreg, if_pos hreg]
    exact (Prog.bind_ok hcode _).trans rfl
  · refine ⟨c.sys.tape, ht, ?_⟩
    rw [if_neg hreg, if_neg hreg]
    rfl

section Prelude
variable {size : Nat} {type : MpiType} (hsize : size * type.sizeof % 2 ^ 64 ≠ 0) (hrank : rank < cc.commSize)
include hsize hrank

theorem commPrelude_succeeds (creg : Nat) (ht : Succeeds c.sys.tape) : ∃ tape, Succeeds tape ∧
    commPrelude cc size type creg rank c = (.ok (size * type.sizeof % 2 ^ 64, rank, (c.regs.ensure creg).reg creg),
      { c with sys := ⟨c.sys.w, tape⟩, regs := c.regs.ensure creg }) := by
  have htype : commSizeOfMpiType type c = (.ok type.sizeof, c) := by
    cases type with
    | other => exact absurd (Nat.zero_mod _) hsize
    | _ => rfl
  obtain ⟨tape, ht', hreg⟩ := commRegister_succeeds hsize creg ht
  refine ⟨tape, ht', ?_⟩
  rw [commPrelude, Prog.bind_ok htype, Prog.bind_ok (commMpiRankToPeer_run hrank c), Prog.bind_ok hreg]
  rfl

/-- A posting call posts its request and records it. -/
theorem commPost_runs {post : Int → Nat → Reg → M (Int × Option Ptr)} {P : World → Prop}
    (hpost : ∀ n reg, ∃ w', P w' ∧ Leaves (post n rank reg) c.sys.w w') (hroom : c.reqs.length < maxReqs)
    (creg : Nat) (ht : Succeeds c.sys.tape) :
    ∃ c', commPost cc size type creg rank post c = (.ok (0, some c.sys.w.nextFree), c') ∧ P c'.sys.w ∧
      c'.ready = c.ready ∧ c'.reqs = c.reqs ++
        [⟨c.sys.w.nextFree, (c'.sys.w.mem c.sys.w.nextFree).peer, (c'.sys.w.mem c.sys.w.nextFree).id⟩] := by
  obtain ⟨tape, ht', hpre⟩ := commPrelude_succeeds hsize hrank creg ht
  obtain ⟨w', hP, hrun⟩ := hpost (toInt (size * type.sizeof % 2 ^ 64)) ((c.regs.ensure creg).reg creg)
  obtain ⟨tape', -, hm⟩ := hrun tape ht'
  have hcall : mpCall (post (toInt (size * type.sizeof % 2 ^ 64)) rank ((c.regs.ensure creg).reg creg))
      { c with sys := ⟨c.sys.w, tape⟩, regs := c.regs.ensure creg } = (.ok (0, some c.sys.w.nextFree),
        { c with sys := ⟨w', tape'⟩, regs := c.regs.ensure creg }) := by
    rw [mpCall, hm]
  refine ⟨{ c with
    sys := ⟨w', tape'⟩
    reqs := c.reqs ++ [⟨c.sys.w.nextFree, (w'.mem c.sys.w.nextFree).peer, (w'.mem c.sys.w.nextFree).id⟩]
    regs := c.regs.ensure creg }, ?_, hP, rfl, rfl⟩
  rw [commPost, Prog.bind_ok hpre]
  refine (Prog.bind_ok hcall _).trans ?_
  exact Prog.bind_ok (commTrackRequest_run _ (by exact hroom)) _

theorem commPost_succeeds {post : Int → Nat → Reg → M (Int × Option Ptr)} {i : Nat} {f : Flow}
    (hpost : ∀ n reg, PostsOne cc.mp (post n rank reg) c.sys.w i f 0) (hroom : c.reqs.length < maxReqs) (creg : Nat)
    (ht : Succeeds c.sys.tape) : ∃ x c', commPost cc size type creg rank post c = (.ok x, c') ∧
      NewRequest cc.mp c.sys.w c'.sys.w c.sys.w.nextFree i f 0 ∧
      (∀ d, (c'.sys.w.clients d).lastReqId ≤ (c.sys.w.clients d).lastReqId + 1) ∧ c'.ready = c.ready ∧
      c'.reqs.length = c.reqs.length + 1 := by
  have hleaves : ∀ n reg, ∃ w', (NewRequest cc.mp c.sys.w w' c.sys.w.nextFree i f 0 ∧
      ∀ d, (w'.clients d).lastReqId ≤ (c.sys.w.clients d).lastReqId + 1) ∧ Leaves (post n rank reg) c.sys.w w' := by
    intro n reg
    obtain ⟨w', hnew, hids, hrun⟩ := hpost n reg
    exact ⟨w', ⟨hnew, hids⟩, hrun⟩
  obtain ⟨c', hrun, ⟨hnew, hids⟩, hready, hreqs⟩ := commPost_runs hsize hrank hleaves hroom creg ht
  refine ⟨_, c', hrun, hnew, hids, hready, ?_⟩
  rw [hreqs]
  exact List.length_append

end Prelude

/-- `comm_send_ready` posts its put and takes the next value of the counter. -/
theorem commSendReady_succeeds {i : Nat} (hc : cc.mp.clientIndex rank = some i) (hud : cc.mp.enableUd = false)
    (hid : (c.sys.w.clients i).lastReqId < uintMax) (hrank : rank < cc.commSize)
    (hdispl : cc.commRank * 4 < cc.readyTableWin.rsize i) (ht : Succeeds c.sys.tape) :
    ∃ x c', commSendReady cc rank c = (.ok x, c') ∧
      NewRequest cc.mp c.sys.w c'.sys.w c.sys.w.nextFree i .tx (mpPutInline ||| mpPutNowait) ∧
      (∀ d, (c'.sys.w.clients d).lastReqId ≤ (c.sys.w.clients d).lastReqId + 1) ∧
      c'.ready = c.ready.nextSent rank ∧ c'.reqs = c.reqs := by
  have hposts : PostsOne cc.mp (mpIput cc.mp (cc.remoteReadyValues + 4 * rank) 4 cc.remoteReadyValuesReg rank
    (cc.commRank * 4) cc.readyTableWin (mpPutInline ||| mpPutNowait)) c.sys.w i .tx (mpPutInline ||| mpPutNowait) :=
    mpIput_posts hc hid hud mpPutNowait_not_waitable hdispl
  obtain ⟨w', hnew, hids, hrun⟩ := hposts
  obtain ⟨tape', -, hm⟩ := hrun c.sys.tape ht
  have hcall : mpCall (readyPut cc rank fun src size reg peer displ win =>
      mpIput cc.mp src size reg peer displ win (mpPutInline ||| mpPutNowait)) c =
      (.ok (0, some c.sys.w.nextFree), { c with sys := ⟨w', tape'⟩ }) := by
    unfold mpCall readyPut
    beta_reduce
    rw [hm]
  refine ⟨(0, some c.sys.w.nextFree), { c with sys := ⟨w', tape'⟩, ready := c.ready.nextSent rank }, ?_, hnew, hids,
    rfl, rfl⟩
  rw [commSendReady, Prog.bind_ok (commMpiRankToPeer_run hrank c), Prog.bind_ok hcall]
  rfl

/-! ## What the calls leave of a rank -/

theorem progress_lastReqId {a b : Mach} (hm : ProgressMoves cfg a b) (d : Nat) :
    (b.w.clients d).lastReqId = (a.w.clients d).lastReqId := by
  refine Moves.inv (I := fun e : Mach => (e.w.clients d).lastReqId = (a.w.clients d).lastReqId) ?_ hm rfl
  rintro e e' he ⟨l, hl, hs⟩
  rw [step_lastReqId hs d, ← he]
  cases l with
  | take fn i => exact hl.elim
  | _ => rfl

/-- Without event sync progress takes completions out of the queues. -/
theorem progress_cq (he : cfg.useEventSync = false) {a b : Mach} (hm : ProgressMoves cfg a b) (d : Nat) (g : Flow) :
    (b.w.cq d g).Sublist (a.w.cq d g) := by
  refine Moves.inv (I := fun e : Mach => (e.w.cq d g).Sublist (a.w.cq d g)) ?_ hm (.refl _)
  rintro e e' hsub ⟨l, hl, hs⟩
  rw [step_cq hs d g]
  cases hs with
  | reap =>
    dsimp only
    split
    · exact (List.eraseIdx_sublist ..).trans hsub
    · exact hsub
  | handOver hev => rw [he] at hev; cases hev
  | gpu | store => exact hsub
  | _ => exact hl.elim

theorem postWaits_clients (ps : List Ptr) {s s' : Sys} {ret : Int} (h : postWaits cfg ps s = (.ok ret, s')) :
    s'.w.clients = s.w.clients := by
  induction ps generalizing s with
  | nil =>
    cases h
    rfl
  | cons p rest ih =>
    obtain rfl | hrest | ⟨-, hgive | ⟨s₁, hw, hrest⟩⟩ := postWaits_cons_ok h
    · rfl
    · exact ih hrest
    · rw [hgive]
      rfl
    · rw [ih hrest, hw]
      rfl

theorem releaseAll_clients (ps : List Ptr) {ret r : Int} {s s' : Sys} (h : releaseAll ret ps s = (.ok r, s')) :
    s'.w.clients = s.w.clients := by
  induction ps generalizing ret s with
  | nil =>
    cases h
    rfl
  | cons p rest ih =>
    rw [releaseAll] at h
    obtain ⟨r₀, s₁, h₁, h₂⟩ := Prog.bind_eq_ok h
    obtain ⟨rfl, rfl⟩ := request_ok h₁
    split at h₂
    · obtain ⟨_, s₂, h₃, h₄⟩ := Prog.bind_eq_ok h₂
      obtain rfl := update_ok h₃
      exact ih (s := { s₁ with w := s₁.w.release p }) h₄
    · exact ih h₂

/-- A call of `mp_wait_all` hands out no ids, and completions only leave. -/
theorem mpWaitAll_leaves (he : cfg.useEventSync = false) {ps : List Ptr} {s s' : Sys} {ret : Int}
    (h : mpWaitAll cfg ps s = (.ok ret, s')) :
    (∀ d, (s'.w.clients d).lastReqId = (s.w.clients d).lastReqId) ∧ ∀ d g, (s'.w.cq d g).Sublist (s.w.cq d g) := by
  rw [mpWaitAll] at h
  obtain ⟨r₁, s₁, h₁, h₂⟩ := Prog.bind_eq_ok h
  have hcq₁ := (postWaits_posted ps h₁).cq
  have hcl₁ := postWaits_clients ps h₁
  split at h₂
  · cases h₂
    rw [hcq₁, hcl₁]
    exact ⟨fun _ => rfl, fun _ _ => .refl _⟩
  obtain ⟨r₂, s₂, h₃, h₄⟩ := Prog.bind_eq_ok h₂
  obtain ⟨b, hb, hm⟩ := spinAll_moves (.inr ⟨r₂, rfl⟩) h₃
  have hspun : (∀ d, (s₂.w.clients d).lastReqId = (s.w.clients d).lastReqId) ∧
      ∀ d g, (s₂.w.cq d g).Sublist (s.w.cq d g) := by
    rw [← hcl₁, ← hcq₁, ← hb]
    exact ⟨fun d => progress_lastReqId hm d, fun d g => progress_cq he hm d g⟩
  split at h₄
  · cases h₄
    exact hspun
  rw [releaseAll_clients ps h₄, (releaseAll_mem ps h₄).1]
  exact hspun

/-- The table of the rank is sound and has all requests that are outstanding, and
each client has handed out at most `ids` ids. -/
structure RankOk (cfg : Config) (c : Comm) (ids : Nat) : Prop where
  table : TableOk cfg c
  outstanding : ∀ d g, ∀ wr ∈ c.sys.w.cq d g, wr.wrId ∈ entries c.reqs
  ids : ∀ d, (c.sys.w.clients d).lastReqId ≤ ids

namespace RankOk
variable {ids : Nat}

theorem init : RankOk cfg Comm.init 0 := 
  ⟨.init, fun _ _ _ h => absurd h List.not_mem_nil, fun _ => Nat.le_refl 0⟩

/-- The rest of the rank does not matter. -/
theorem same (h : RankOk cfg c ids) (hsys : c'.sys = c.sys) (hreqs : c'.reqs = c.reqs) : RankOk cfg c' ids := by
  obtain ⟨⟨h₁, h₂, h₃⟩, h₄, h₅⟩ := h
  rw [← hsys] at h₁ h₃ h₄ h₅
  rw [← hreqs] at h₂ h₃ h₄
  exact ⟨⟨h₁, h₂, h₃⟩, h₄, h₅⟩

/-- A call on no request of the caller leaves the rank in order. -/
theorem step (he : cfg.useEventSync = false) (h : RankOk cfg c ids) {op : CommOp} (hop : op.handles = none)
    (hd : Did cfg op c c') (hids : ∀ d, (c'.sys.w.clients d).lastReqId ≤ (c.sys.w.clients d).lastReqId + 1) :
    RankOk cfg c' (ids + 1) := by
  have htab : TableOk cfg c' := h.table.step he (fun ps hps => by rw [hop] at hps; cases hps) hd
  refine ⟨htab, fun d g wr hwr => ?_, fun d => (hids d).trans (Nat.succ_le_succ (h.ids d))⟩
  cases hd with
  | @tracked _ _ _ p i f fl _ _ hnew hn hreqs =>
    rw [hreqs, entries, List.map_append, List.mem_append]
    rw [hnew.cq d g] at hwr
    split at hwr
    · rcases List.mem_append.mp hwr with hwr | hwr
      · exact .inl (h.outstanding _ _ wr hwr)
      · rw [List.mem_singleton.mp hwr]
        exact .inr (List.mem_singleton_self _)
    · exact .inl (h.outstanding d g wr hwr)
  | untracked hnew hn hreqs =>
    rw [hreqs]
    rw [hnew.cq d g, if_neg (by rw [hn]; simp)] at hwr
    exact h.outstanding d g wr hwr
  | progressed _ _ hm hreqs =>
    rw [hreqs]
    exact h.outstanding d g wr ((progress_cq he hm d g).subset hwr)
  | waited hps => rw [hop] at hps; cases hps
  | @flushed _ _ _ ret ht hwait hreqs =>
    -- the request was in the table, so it was put back
    exfalso
    have hin := h.outstanding d g wr (((mpWaitAll_leaves he hwait).2 d g).subset hwr)
    have hret : ret = 0 := by
      rcases mpWaitAll_recorded he h.table.core h.table.distinct h.table.recorded_entries ht with ⟨s', h0⟩ | ⟨s', hspin⟩
      · rw [hwait] at h0
        cases h0
        rfl
      · rw [hwait] at hspin
        cases hspin
    rw [hret] at hwait
    obtain ⟨fl, pl, hcore⟩ := htab.core
    exact (hcore.cq_mem d g wr hwr).1 (mpWaitAll_frees he hwait _ hin)

/-- Progress hands out no ids. -/
theorem progress (he : cfg.useEventSync = false) (h : RankOk cfg c ids)
    (hm : ProgressMoves cfg ⟨c.sys.w, none⟩ ⟨c'.sys.w, none⟩) (hreqs : c'.reqs = c.reqs) : RankOk cfg c' ids := by
  have hsame := fun d => progress_lastReqId hm d
  have hd : Did cfg .progress c c' := .progressed rfl rfl hm hreqs
  have hnext := h.step he rfl hd fun d => (hsame d).le.trans (Nat.le_succ _)
  exact ⟨hnext.table, hnext.outstanding, fun d => (hsame d).le.trans (h.ids d)⟩

/-- After a flush nothing is outstanding. -/
theorem nothing_outstanding (h : RankOk cfg c ids) (hreqs : c.reqs = []) (d : Nat) (g : Flow) :
    c.sys.w.cq d g = [] := by
  refine List.eq_nil_iff_forall_not_mem.mpr fun wr hwr => ?_
  have hin := h.outstanding d g wr hwr
  rw [hreqs] at hin
  cases hin

end RankOk

/-- It leaves the ready tables as they are. -/
theorem commFlush_ready {ret : Int} (h : commFlush cc c = (.ok ret, c')) : c'.ready = c.ready := by
  unfold commFlush at h
  obtain ⟨s, c₁, h₁, h₂⟩ := Prog.bind_eq_ok h
  cases h₁
  split at h₂
  · cases h₂
    rfl
  · obtain ⟨-, h₄⟩ := require_bind_ok h₂
    obtain ⟨r, y, -, h₆⟩ := mpCall_bind_ok h₄
    cases h₆
    rfl

end LibMp
