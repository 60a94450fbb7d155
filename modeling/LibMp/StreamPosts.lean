import LibMp.CommPosts

/- The calls of COMM on a stream, without event sync, when the outside makes no
   errors: they come back, and this is what they leave.

   A call that posts on a stream does what it does on the CPU, and the stream gets
   the operation that rings the doorbell. A wait on a stream makes its requests
   pending, and the stream gets their wait infos. `comm_progress` puts nothing on a
   stream, and runs none if the answers do not say so (`Still`). -/
namespace LibMp
variable {cfg : Config} {cc : CommConfig} {c c' : Comm} {rank : Nat}

/-! ## Posting -/

section Posts
variable {w : World} {peer i : Nat} {size : Int} {reg : Reg} (hc : cfg.clientIndex peer = some i)
  (hid : (w.clients i).lastReqId < uintMax)
include hc hid

theorem mpIsendOnStream_posted (he : cfg.useEventSync = false) (buf : Nat) (st : Stream) :
    ∃ w', Posted cfg w w' i .tx 0 .send st [.queueSend w.nextFree] ∧
      Leaves (mpIsendOnStream cfg buf size peer reg st) w w' := by
  refine ⟨_, @posted_accept cfg w .mpIsendOnStream i peer .send _ 0 st _ hc (by decide) rfl (by decide)
    (fun r hf _ => @buildSend_ok cfg w.nextFree r hf i 1 .sgEntry ⟨buf, len32 size, reg.key⟩) (fun r hf => hf)
    (fun w' => enqueueOk_queueSend w' _), fun tape ht => ⟨tape.tail.tail, ht.tail.tail, ?_⟩⟩
  rw [mpIsendOnStream, Prog.bind_ok (clientOf_run hc _), he, if_neg (by decide), start_run hid,
    Prog.bind_ok (mpPostSendOnStream_run ht _ _ _ _), if_neg (by decide),
    Prog.bind_ok (gdsPrepareWaitCq_run ht.tail _ _ _ _), if_neg (by decide)]
  rfl

omit hc hid in
/-- Where nothing fails the request is kept. -/
theorem releaseOnError_keeps {p : Ptr} {m : M Int} {s s' : Sys} (h : m s = (.ok 0, s')) :
    releaseOnError p m s = (.ok (0, some p), s') := by
  rw [releaseOnError, Prog.bind_ok h]
  rfl

/-- A put that can be waited for. -/
theorem mpIputOnStream_posted (hud : cfg.enableUd = false) {src displ flags : Nat} {win : Window}
    (hn : nowait flags = false) (hdispl : displ < win.rsize i) (st : Stream) :
    ∃ w', Posted cfg w w' i .tx flags .rdma st [.queueSend w.nextFree] ∧
      Leaves (mpIputOnStream cfg src size reg peer displ win flags st) w w' := by
  refine ⟨_, @posted_accept cfg w .mpIputOnStream i peer .rdma _ flags st _ hc (by decide) rfl (by decide)
    (fun r _ ho => buildPut_ok ho rfl win i displ flags ⟨src, len32 size, reg.key⟩) (fun _ _ => rfl)
    (fun w' => enqueueOk_queueSend w' _), fun tape ht => ⟨tape.tail.tail, ht.tail.tail, ?_⟩⟩
  rw [mpIputOnStream, hud, if_neg (by decide), Prog.bind_ok (clientOf_run hc _),
    Prog.bind_ok (require_run (decide_eq_true hdispl) _ _), start_run hid]
  refine releaseOnError_keeps ?_
  rw [Prog.bind_ok (mpPostSendOnStream_run ht _ _ _ _), if_neg (by decide), hn, if_neg (by decide)]
  exact gdsPrepareWaitCq_run ht.tail _ _ _ _

end Posts

/-- `comm_send_ready_on_stream` posts its put, records it and takes the next value
of the counter. -/
theorem commSendReadyOnStream_runs {i : Nat} (hc : cc.mp.clientIndex rank = some i) (hud : cc.mp.enableUd = false)
    (hid : (c.sys.w.clients i).lastReqId < uintMax) (hrank : rank < cc.commSize)
    (hdispl : cc.commRank * 4 < cc.readyTableWin.rsize i) (hroom : c.reqs.length < maxReqs) (st : Stream)
    (ht : Succeeds c.sys.tape) :
    ∃ c', commSendReadyOnStream cc rank st c = (.ok (0, some c.sys.w.nextFree), c') ∧
      Posted cc.mp c.sys.w c'.sys.w i .tx mpPutInline .rdma st [.queueSend c.sys.w.nextFree] ∧
      c'.ready = c.ready.nextSent rank ∧ c'.reqs = c.reqs ++
        [⟨c.sys.w.nextFree, (c'.sys.w.mem c.sys.w.nextFree).peer, (c'.sys.w.mem c.sys.w.nextFree).id⟩] := by
  have hput : ∃ w', Posted cc.mp c.sys.w w' i .tx mpPutInline .rdma st [.queueSend c.sys.w.nextFree] ∧
      Leaves (mpIputOnStream cc.mp (cc.remoteReadyValues + 4 * rank) 4 cc.remoteReadyValuesReg rank (cc.commRank * 4)
        cc.readyTableWin mpPutInline st) c.sys.w w' :=
    mpIputOnStream_posted hc hid hud mpPutInline_waitable hdispl st
  obtain ⟨w', hposted, hrun⟩ := hput
  obtain ⟨tape', -, hm⟩ := hrun c.sys.tape ht
  have hcall : mpCall (readyPut cc rank fun src size reg peer displ win =>
      mpIputOnStream cc.mp src size reg peer displ win mpPutInline st) c =
      (.ok (0, some c.sys.w.nextFree), { c with sys := ⟨w', tape'⟩ }) := by
    unfold mpCall readyPut
    beta_reduce
    rw [hm]
  refine ⟨{ c with
    sys := ⟨w', tape'⟩
    ready := c.ready.nextSent rank
    reqs := c.reqs ++ [⟨c.sys.w.nextFree, (w'.mem c.sys.w.nextFree).peer, (w'.mem c.sys.w.nextFree).id⟩] }, ?_,
    hposted, rfl, rfl⟩
  rw [commSendReadyOnStream, Prog.bind_ok (commMpiRankToPeer_run hrank c), Prog.bind_ok hcall]
  exact Prog.bind_ok (commTrackRequest_run _ (by exact hroom)) _

/-! ## Waiting -/

/-- The stream `st` is to wait for the requests `ps`, which are pending now. -/
structure WaitedOn (cfg : Config) (w w' : World) (ps : List Ptr) (st : Stream) : Prop where
  mem : ∀ q, w'.mem q = if q ∈ ps then { w.mem q with stream := some st, status := .pending } else w.mem q
  cq : w'.cq = w.cq
  clients : w'.clients = w.clients
  stream : (w'.streams st).todo = (w.streams st).todo ++ ps.map fun p => .waitCq (w.mem p).gdsWaitInfo
  runs : Runs cfg w w'

/-- No wait was posted for the request at `p`. -/
structure Unwaited (w : World) (p : Ptr) : Prop where
  type : (w.mem p).type ≠ .null
  waitable : (w.mem p).canBeWaited = true
  status : (w.mem p).status = .pendingNowait

/-- What the loop of `mp_wait_all_on_stream` leaves. -/
def World.pendAll (w : World) (ps : List Ptr) (st : Stream) : World :=
  ps.foldl (fun w p => w.markPosted p st .pending) w

theorem pendAll_mem (ps : List Ptr) (w : World) (st : Stream) (q : Ptr) : (w.pendAll ps st).mem q =
    if q ∈ ps then { w.mem q with stream := some st, status := .pending } else w.mem q := by
  induction ps generalizing w with
  | nil => rfl
  | cons p rest ih =>
    have hhead : (w.markPosted p st .pending).mem q =
        if q = p then { w.mem q with stream := some st, status := .pending } else w.mem q := by
      rw [World.markPosted, World.setReq_mem]
      split
      · rename_i hq
        rw [hq]
      · rfl
    show ((w.markPosted p st .pending).pendAll rest st).mem q = _
    rw [ih, hhead]
    by_cases hrest : q ∈ rest <;> by_cases hq : q = p <;> simp [hrest, hq]

theorem pendAll_rest (ps : List Ptr) (w : World) (st : Stream) : (w.pendAll ps st).cq = w.cq ∧
    (w.pendAll ps st).clients = w.clients ∧ (w.pendAll ps st).streams = w.streams := by
  induction ps generalizing w with
  | nil => exact ⟨rfl, rfl, rfl⟩
  | cons p rest ih => exact ih (w.markPosted p st .pending)

/-- The loop gets through distinct requests that nobody waits for. -/
theorem waitAllCopy_run (ps : List Ptr) {w : World} (hnd : ps.Nodup) (hps : ∀ p ∈ ps, Unwaited w p) (st : Stream)
    (tape : List Ans) : waitAllCopy st ps ⟨w, tape⟩ =
      (.ok (0, ps.map fun p => (w.mem p).gdsWaitInfo), ⟨w.pendAll ps st, tape⟩) := by
  induction ps generalizing w with
  | nil => rfl
  | cons p rest ih =>
    obtain ⟨hty, hcan, hst⟩ := hps p List.mem_cons_self
    obtain ⟨hp, hnd'⟩ := List.nodup_cons.mp hnd
    have hother : ∀ q ∈ rest, (w.markPosted p st .pending).mem q = w.mem q := by
      intro q hq
      have hne : q ≠ p := fun he => hp (he ▸ hq)
      rw [World.markPosted, World.setReq_mem, if_neg hne]
    have hrest := ih hnd' (w := w.markPosted p st .pending) fun q hq => by
      obtain ⟨h₁, h₂, h₃⟩ := hps q (List.mem_cons_of_mem p hq)
      exact ⟨by rwa [hother q hq], by rwa [hother q hq], by rwa [hother q hq]⟩
    have hinfos : rest.map (fun q => ((w.markPosted p st .pending).mem q).gdsWaitInfo) =
        rest.map fun q => (w.mem q).gdsWaitInfo := List.map_congr_left fun q hq => by rw [hother q hq]
    rw [hinfos] at hrest
    have hpend : update (fun w => w.setReq p fun r => { r with stream := some st, status := .pending }) ⟨w, tape⟩ =
      (.ok (), ⟨w.markPosted p st .pending, tape⟩) := rfl
    rw [waitAllCopy, Prog.bind_ok (request_run p w tape), Prog.bind_ok (require_run (decide_eq_true hty) _ _),
      if_neg (by simp [hcan]), Prog.bind_ok (require_run (by simp [hst]) _ _), Prog.bind_ok hpend,
      Prog.bind_ok hrest]
    rfl

theorem giveAll_rest (ps : List Ptr) (w : World) :
    (ps.foldl World.give w).cq = w.cq ∧ (ps.foldl World.give w).clients = w.clients := by
  induction ps generalizing w with
  | nil => exact ⟨rfl, rfl⟩
  | cons p rest ih => exact ih (w.give p)

section Waits
variable {w : World} {ps : List Ptr} {tape : List Ans} (he : cfg.useEventSync = false) (ht : Succeeds tape)
include he ht

theorem mpWaitAllOnStream_runs (hnd : ps.Nodup) (hps : ∀ p ∈ ps, Unwaited w p) (st : Stream) :
    ∃ w' tape', mpWaitAllOnStream cfg ps st ⟨w, tape⟩ = (.ok 0, ⟨w', tape'⟩) ∧ WaitedOn cfg w w' ps st := by
  have hruns : ∀ {w' tape'}, mpWaitAllOnStream cfg ps st ⟨w, tape⟩ = (.ok 0, ⟨w', tape'⟩) → Runs cfg w w' := by
    intro w' tape' h
    have hf : Follows cfg anyAns anyStep ⟨w, none⟩ (mpWaitAllOnStream cfg ps st) (fun _ b => b.cur = none) :=
      follows_mpWaitAllOnStream (fun _ _ _ => trivial) (fun _ _ _ => trivial) trivial ps st _ rfl
        (fun hev => by rw [he] at hev; cases hev) (fun _ _ _ _ _ => trivial)
    obtain ⟨⟨v, cur⟩, hm, hR, hcur⟩ := hf.ok ⟨rfl, fun _ _ => trivial⟩ h
    obtain rfl : cur = none := hcur
    obtain rfl : v = w' := hR.1
    exact hm
  by_cases hnil : ps = []
  · subst hnil
    exact ⟨w, tape, rfl, fun q => rfl, rfl, rfl, by simp, .refl w⟩
  have hrun : mpWaitAllOnStream cfg ps st ⟨w, tape⟩ = (.ok 0, ⟨(ps.foldl World.give (w.pendAll ps st)).enqueue st
      ((ps.map fun p => (w.mem p).gdsWaitInfo).map .waitCq), tape.tail⟩) := by
    rw [mpWaitAllOnStream, if_neg hnil, he, if_neg (by decide), Prog.bind_ok (waitAllCopy_run ps hnd hps st tape)]
    exact gdsStreamPostWaitCqAll_run ht st ps _ _
  obtain ⟨hcq, hclients⟩ := giveAll_rest ps (w.pendAll ps st)
  obtain ⟨pcq, pclients, pstreams⟩ := pendAll_rest ps w st
  refine ⟨_, _, hrun, fun q => ?_, hcq.trans pcq, hclients.trans pclients, ?_, hruns hrun⟩
  · rw [World.enqueue_mem, giveAll_mem, pendAll_mem]
  · rw [World.enqueue_streams, if_pos rfl, giveAll_streams, pstreams, List.map_map]
    rfl

theorem mpWaitOnStream_runs {p : Ptr} {i : Nat} (hc : cfg.clientIndex (w.mem p).peer = some i) (hp : Unwaited w p)
    (st : Stream) :
    ∃ w' tape', mpWaitOnStream cfg p st ⟨w, tape⟩ = (.ok 0, ⟨w', tape'⟩) ∧ WaitedOn cfg w w' [p] st := by
  obtain ⟨hty, hcan, hst⟩ := hp
  have hpend : update (fun w => w.setReq p fun r => { r with stream := some st, status := .pending }) ⟨w, tape⟩ =
    (.ok (), ⟨w.markPosted p st .pending, tape⟩) := rfl
  have hself : ((w.markPosted p st .pending).mem p).gdsWaitInfo = (w.mem p).gdsWaitInfo := by
    rw [World.markPosted, World.setReq_mem, if_pos rfl]
  have hrun : mpWaitOnStream cfg p st ⟨w, tape⟩ = (.ok 0, ⟨((w.markPosted p st .pending).give p).enqueue st
      [.waitCq (w.mem p).gdsWaitInfo], tape.tail⟩) := by
    rw [mpWaitOnStream, Prog.bind_ok (request_run p w tape), Prog.bind_ok (clientOf_run hc _),
      Prog.bind_ok (require_run (decide_eq_true hty) _ _), he, if_neg (by decide), if_neg (by simp [hcan]),
      Prog.bind_ok (require_run (by simp [hst]) _ _), Prog.bind_ok hpend, gdsStreamPostWaitCq_run ht, hself]
  have hf : Follows cfg anyAns anyStep ⟨w, none⟩ (mpWaitOnStream cfg p st) (fun _ b => b.cur = none) :=
    follows_mpWaitOnStream (fun _ _ _ => trivial) (fun _ _ _ => trivial) trivial p st _ rfl
      (fun hev => by rw [he] at hev; cases hev) (fun _ _ => trivial)
  obtain ⟨⟨v, cur⟩, hm, hR, hcur⟩ := hf.ok ⟨rfl, fun _ _ => trivial⟩ hrun
  obtain rfl : cur = none := hcur
  obtain rfl : v = _ := hR.1
  refine ⟨_, _, hrun, pendAll_mem [p] w st, rfl, rfl, ?_, hm⟩
  rw [World.enqueue_streams, if_pos rfl]
  rfl

end Waits

/-- `comm_wait_all_on_stream` puts the waits on the stream. -/
theorem commWaitAllOnStream_runs (he : cc.mp.useEventSync = false) (ht : Succeeds c.sys.tape) {ps : List Ptr}
    (hnd : ps.Nodup) (hps : ∀ p ∈ ps, Unwaited c.sys.w p)
    (hpeer : ∀ p ∈ ps, ∃ i, cc.mp.clientIndex (c.sys.w.mem p).peer = some i) (st : Stream) :
    ∃ y, commWaitAllOnStream cc ps st c = (.ok 0, { c with sys := y }) ∧ WaitedOn cc.mp c.sys.w y.w ps st := by
  obtain ⟨w', tape', hall, hwaited⟩ := mpWaitAllOnStream_runs he ht hnd hps st
  have hmany : commWaitManyOnStream cc ps st c = (.ok 0, { c with sys := ⟨w', tape'⟩ }) := checked_runs hall _
  match ps with
  | [] => exact ⟨_, hmany, hwaited⟩
  | p :: q :: rest => exact ⟨_, hmany, hwaited⟩
  | [p] =>
    obtain ⟨i, hc⟩ := hpeer p List.mem_cons_self
    obtain ⟨w₁, tape₁, hone, hwaited₁⟩ := mpWaitOnStream_runs he ht hc (hps p List.mem_cons_self) st
    exact ⟨⟨w₁, tape₁⟩, checked_runs hone _, hwaited₁⟩

/-- Some requests that were posted are pending now, and nothing else has happened
to a request or a client. -/
structure Waits (cfg : Config) (w w' : World) : Prop where
  mem : ∀ q, w'.mem q = w.mem q ∨
    (w.mem q).status = .pendingNowait ∧ ∃ st, w'.mem q = { w.mem q with stream := some st, status := .pending }
  cq : w'.cq = w.cq
  clients : w'.clients = w.clients
  runs : Runs cfg w w'

theorem WaitedOn.waits {w w' : World} {ps : List Ptr} {st : Stream} (h : WaitedOn cfg w w' ps st)
    (hps : ∀ p ∈ ps, Unwaited w p) : Waits cfg w w' := by
  refine ⟨fun q => ?_, h.cq, h.clients, h.runs⟩
  rw [h.mem q]
  split
  · rename_i hq
    exact .inr ⟨(hps q hq).status, st, rfl⟩
  · exact .inl rfl

/-- A wait for a word of the caller. -/
theorem waits_user (w : World) (st : Stream) (addr v : Nat) (cond : WaitCond) :
    Waits cfg w (w.enqueue st [.wait (.user addr) v cond]) :=
  ⟨fun _ => .inl rfl, rfl, rfl, .one (.enqueue (by simp) (by simp))⟩

namespace Waits
variable {w w' : World} (h : Waits cfg w w')
include h

theorem owner (q : Ptr) : (w'.mem q).owner = (w.mem q).owner := by
  rcases h.mem q with hq | ⟨-, st, hq⟩ <;> rw [hq]

theorem recorded {p : Ptr} {peer op : Nat} (hr : Recorded w p peer op) : Recorded w' p peer op := by
  rcases h.mem p with hp | ⟨hst, st, hp⟩
  · refine hr.keep ?_ fun i f hmem => ?_
    · rw [hp]
      exact .refl _
    · rw [h.cq]
      exact hmem
  · have hout := hr.state.resolve_left (by rw [hst]; decide)
    refine ⟨?_, ?_, ?_, ?_, .inr ⟨?_, ?_⟩⟩
    · rw [h.owner]
      exact hr.owner
    · rw [hp]
      exact hr.same_peer
    · rw [hp]
      exact hr.same_op
    · rw [hp]
      exact hr.waitable
    · rw [hp]
      trivial
    · rw [h.cq]
      exact hout.2

end Waits

theorem RankOk.mono {ids ids' : Nat} (h : RankOk cfg c ids) (hle : ids ≤ ids') : RankOk cfg c ids' :=
  ⟨h.table, h.outstanding, fun d => (h.ids d).trans hle⟩

/-- Such a wait leaves the rank in order. -/
theorem RankOk.waits {ids : Nat} (h : RankOk cfg c ids) (hw : Waits cfg c.sys.w c'.sys.w) (hreqs : c'.reqs = c.reqs) :
    RankOk cfg c' ids := by
  refine ⟨⟨h.table.runs.trans hw.runs, ?_, fun e he => ?_⟩, fun d g wr hwr => ?_, fun d => ?_⟩
  · rw [hreqs]
    exact h.table.distinct
  · rw [hreqs] at he
    exact hw.recorded (h.table.recorded e he)
  · rw [hreqs]
    rw [hw.cq] at hwr
    exact h.outstanding d g wr hwr
  · rw [hw.clients]
    exact h.ids d

theorem InUse.waits {w₀ : World} {leaked : List Ptr} (h : InUse w₀ c leaked) (hw : Waits cfg c.sys.w c'.sys.w)
    (hreqs : c'.reqs = c.reqs) : InUse w₀ c' leaked := by
  refine ⟨?_, ?_, fun p => ?_⟩
  · rw [hreqs]
    exact h.distinct
  · rw [hreqs]
    exact h.fresh
  · rw [hw.owner, hreqs]
    exact h.owner p

/-! ## Progress -/

/-- Answers that run no stream. -/
def Still (tape : List Ans) : Prop := ∀ ans ∈ tape, ans.gpu = []

/-- With such answers the program puts nothing on a stream, runs none, and
returns something that satisfies `P`. -/
def Calm {α : Type} (P : α → Prop) (m : M α) : Prop :=
  ∀ s, Still s.tape → (m s).2.w.streams = s.w.streams ∧ Still (m s).2.tape ∧ ∀ x, (m s).1 = .ok x → P x

namespace Calm
variable {α β : Type} {P : α → Prop} {Q : β → Prop}

theorem bind {m : M α} {f : α → M β} (hm : Calm P m) (hf : ∀ x, P x → Calm Q (f x)) : Calm Q (m >>= f) := by
  intro s hs
  obtain ⟨hstreams, hstill, hP⟩ := hm s hs
  rw [Prog.bind_run]
  cases hr : m s with
  | mk r s' =>
    rw [hr] at hstreams hstill hP
    cases r with
    | ok x =>
      obtain ⟨h₁, h₂, h₃⟩ := hf x (hP x rfl) s' hstill
      exact ⟨h₁.trans hstreams, h₂, h₃⟩
    | error e => exact ⟨hstreams, hstill, fun _ he => by cases he⟩

theorem ite {c : Prop} [Decidable c] {m₁ m₂ : M α} (h₁ : Calm P m₁) (h₂ : Calm P m₂) :
    Calm P (if c then m₁ else m₂) := by
  split
  · exact h₁
  · exact h₂

theorem pure {x : α} (h : P x) : Calm P (Pure.pure x : M α) := fun _ hs => ⟨rfl, hs, fun _ he => by cases he; exact h⟩

/-- A program that takes no answers, and leaves the streams. -/
theorem of_within {m : M α} (h : Prog.Within (fun s s' : Sys => s'.w.streams = s.w.streams ∧ s'.tape = s.tape) m) :
    Calm (fun _ => True) m := by
  intro s hs
  obtain ⟨hstreams, htape⟩ := h s
  exact ⟨hstreams, htape ▸ hs, fun _ _ => trivial⟩

theorem answer : Calm (fun a => a.gpu = []) answer := by
  rintro ⟨w, tape⟩ hs
  cases tape with
  | nil => exact ⟨rfl, hs, fun _ hx => by cases hx; rfl⟩
  | cons ans rest =>
    refine ⟨rfl, fun a ha => hs a (List.mem_cons_of_mem ans ha), fun x hx => ?_⟩
    cases hx
    exact hs ans List.mem_cons_self

theorem update {g : World → World} (h : ∀ w, (g w).streams = w.streams) : Calm (fun _ => True) (update g) :=
  fun s hs => ⟨h s.w, hs, fun _ _ => trivial⟩

theorem run {a : Ans} (ha : a.gpu = []) : Calm (fun _ => True) (LibMp.update fun w => runStreams w a.gpu) :=
  update fun w => by rw [ha]; rfl

end Calm

/-- Reading leaves the streams and the answers alone. -/
instance : IsPreorder Sys fun s s' => s'.w.streams = s.w.streams ∧ s'.tape = s.tape where
  refl _ := ⟨rfl, rfl⟩
  trans _ _ _ h h' := ⟨h'.1.trans h.1, h'.2.trans h.2⟩

theorem calm_request (p : Ptr) : Calm (fun _ => True) (request p) :=
  .of_within (.bind (.bind .get fun _ => .pure _) fun _ => .pure _)

theorem calm_world : Calm (fun _ => True) world := .of_within (.bind .get fun _ => .pure _)

theorem calm_streamsRun : Calm (fun _ => True) streamsRun := .bind .answer fun _ ha => .run ha

theorem calm_canPollFrom (i : Nat) (f : Flow) (fuel : Nat) (p : Option Ptr) (n : Nat) :
    Calm (fun _ => True) (canPollFrom cfg i f fuel p n) := by
  refine .of_within ?_
  induction fuel generalizing p n with
  | zero =>
    cases p with
    | none => exact .pure _
    | some p => exact .stop _
  | succ fuel ih =>
    cases p with
    | none => exact .pure _
    | some p =>
      unfold canPollFrom
      refine .bind (.bind (.bind .get fun _ => .pure _) fun _ => .pure _) fun _ => ?_
      refine .bind (.bind (.bind .get fun _ => .pure _) fun _ => .pure _) fun _ => ?_
      exact .ite (.pure _) (ih _ _)

theorem World.complete_streams (w : World) (i : Nat) (f : Flow) (k : Nat) (wr : Wr) :
    (w.complete cfg i f k wr).streams = w.streams := by
  simp only [World.complete, World.progressRequest, World.addLog_streams]
  split <;> split <;> rfl

theorem calm_progressCompletions (i : Nat) (f : Flow) (ks : List Nat) :
    Calm (fun _ => True) (progressCompletions cfg i f ks) := by
  induction ks with
  | nil => exact .pure trivial
  | cons k rest ih =>
    unfold progressCompletions progressCompletion
    refine .bind (P := fun _ => True) (.bind calm_world fun w _ => ?_) fun _ _ => .bind calm_streamsRun fun _ _ => ih
    split
    · exact .pure trivial
    · refine .bind (.of_within (.require _ _)) fun _ _ => .bind (.of_within (.require _ _)) fun _ _ => ?_
      exact .update fun w => w.complete_streams i f k _

section Progress
variable (he : cfg.useEventSync = false)
include he

theorem calm_pollClient (f : Flow) (i : Nat) : Calm (fun _ => True) (pollClient cfg f i) := by
  unfold pollClient clientCanPoll
  rw [he]
  refine .bind (P := fun _ => True) (.bind calm_world fun w _ => calm_canPollFrom i f _ _ _) fun n _ => ?_
  refine .ite (.pure trivial) (.bind .answer fun a ha => .bind (.run ha) fun _ _ => .ite (.pure trivial) ?_)
  exact .bind (calm_progressCompletions i f _) fun _ _ => .pure trivial

theorem calm_mpProgressSingleFlow (f : Flow) : Calm (fun _ => True) (mpProgressSingleFlow cfg f) := by
  unfold mpProgressSingleFlow progressPostedList
  rw [he]
  refine .bind (P := fun _ => True) (.pure trivial) fun _ _ => ?_
  generalize List.range cfg.clientCount = is
  induction is with
  | nil => exact .pure trivial
  | cons i rest ih => exact .bind (calm_pollClient he f i) fun _ _ => .ite (.pure trivial) ih

theorem calm_progressAllFrom (n : Int) (ps : List Ptr) : Calm (fun _ => True) (progressAllFrom cfg n ps) := by
  induction ps generalizing n with
  | nil => exact .pure trivial
  | cons p rest ih =>
    unfold progressAllFrom
    refine .bind (calm_request p) fun r _ => .ite (ih _) ?_
    refine .bind (calm_mpProgressSingleFlow he .tx) fun _ _ => .ite (.pure trivial) ?_
    refine .bind (calm_mpProgressSingleFlow he .rx) fun _ _ => .ite (.pure trivial) ?_
    exact .bind (calm_request p) fun r _ => ih _

end Progress

/-- Progress while no stream runs. -/
theorem commProgress_still (he : cc.mp.useEventSync = false) {ret : Int} (ht : Still c.sys.tape)
    (h : commProgress cc c = (.ok ret, c')) : c'.sys.w.streams = c.sys.w.streams ∧ c'.ready = c.ready := by
  unfold commProgress at h
  rw [Prog.bind_ok (Prog.get_run c)] at h
  obtain ⟨-, h₁⟩ := require_bind_ok h
  obtain ⟨y, hy, rfl⟩ := mpCall_ok h₁
  have hcalm := (calm_progressAllFrom he 0 (entries c.reqs) c.sys ht).1
  change (mpProgressAll cc.mp (entries c.reqs) c.sys).2.w.streams = _ at hcalm
  rw [hy] at hcalm
  exact ⟨hcalm, rfl⟩

/-- Progress does not change what a request is. -/
theorem progress_same (he : cfg.useEventSync = false) {a b : Mach} (hm : ProgressMoves cfg a b) (q : Ptr) :
    (b.w.mem q).type = (a.w.mem q).type ∧ (b.w.mem q).peer = (a.w.mem q).peer := by
  refine Moves.inv (I := fun e : Mach => (e.w.mem q).type = (a.w.mem q).type ∧ (e.w.mem q).peer = (a.w.mem q).peer)
    ?_ hm ⟨rfl, rfl⟩
  rintro d e ⟨hty, hpeer⟩ ⟨l, hl, hs⟩
  rcases progress_mem he hl hs q with ⟨hmem, -⟩ | hmem <;> rw [hmem] <;> exact ⟨hty, hpeer⟩

end LibMp
