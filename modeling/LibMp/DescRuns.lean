import LibMp.Puts

/- Descriptor queues against the direct calls.

   A descriptor queue changes the status of a request when its descriptor is
   added; the direct calls change it when they post. `DescAdd` are the calls
   that add a descriptor, each with the direct call it stands for. For the
   sequences in `DescScope` both ways are followed call by call: the requests
   are those from before with another status (`Restated`), and the queue holds
   what the direct calls have put on the stream. -/
namespace LibMp
variable {cfg : Config}

/-- The calls that add a descriptor to a queue. -/
inductive DescAdd where
  | send (p : Ptr)
  | waitSend (p : Ptr)
  | waitRecv (p : Ptr)
  | waitValue32 (addr value : Nat) (cond : WaitCond)
  | writeValue32 (addr value : Nat)
  deriving DecidableEq, Repr

namespace DescAdd

def add (dq : Nat) : DescAdd → M Int
  | .send p => mpDescQueueAddSend dq p
  | .waitSend p => mpDescQueueAddWaitSend dq p
  | .waitRecv p => mpDescQueueAddWaitRecv dq p
  | .waitValue32 addr value cond => mpDescQueueAddWaitValue32 dq addr value cond
  | .writeValue32 addr value => mpDescQueueAddWriteValue32 dq addr value

/-- The direct call on `s`, for the calls that concern a request. A put is
posted by `mp_iput_post_on_stream`, any other send by `mp_isend_post_on_stream`. -/
def direct (cfg : Config) (s : Stream) : DescAdd → M Int
  | .send p => do
    let r ← request p
    if r.type = .rdma then mpIputPostOnStream p s else mpIsendPostOnStream cfg p s
  | .waitSend p | .waitRecv p => mpWaitOnStream cfg p s
  | .waitValue32 _ _ _ | .writeValue32 _ _ => return 0

def desc : DescAdd → Desc
  | .send p => .send p
  | .waitSend p | .waitRecv p => .wait p
  | .waitValue32 addr value cond => .waitValue32 addr value cond
  | .writeValue32 addr value => .writeValue32 addr value

end DescAdd

/-- One call after the other, while they return 0. -/
def callEach (one : DescAdd → M Int) : List DescAdd → M Int
  | [] => return 0
  | call :: rest => do
    let ret ← one call
    if ret ≠ 0 then return ret
    callEach one rest

/-- Add the descriptors to a queue, then post it on `s`. -/
def queueAndPost (dq : Nat) (s : Stream) (calls : List DescAdd) : M Int := do
  let ret ← callEach (DescAdd.add dq) calls
  if ret ≠ 0 then return ret
  mpDescQueuePostOnStream s dq

/-- A prepared send, or a prepared put with any flags. -/
structure PreparedTx (cfg : Config) (r : Request) : Prop where
  status : r.status = .prepared
  tx : r.type.tx = true
  flags : r.type = .send → r.flags = 0
  client : ∃ c, cfg.clientIndex r.peer = some c

/-- A posted receive, not waited for yet. -/
structure PostedRecv (cfg : Config) (r : Request) : Prop where
  status : r.status = .pendingNowait ∨ r.status = .complete
  rx : r.type = .recv
  client : ∃ c, cfg.clientIndex r.peer = some c

/-- The sequences of adds that are compared: sends of prepared requests and
waits, each request once as a send and once as a wait, after its send. `sent`
and `waited` are the requests added before. -/
def DescScope (cfg : Config) (w : World) (sent waited : List Ptr) : List DescAdd → Prop
  | [] => True
  | .send p :: rest => PreparedTx cfg (w.mem p) ∧ p ∉ sent ∧ p ∉ waited ∧ DescScope cfg w (p :: sent) waited rest
  | .waitSend p :: rest => PreparedTx cfg (w.mem p) ∧ p ∈ sent ∧ p ∉ waited ∧ DescScope cfg w sent (p :: waited) rest
  | .waitRecv p :: rest => PostedRecv cfg (w.mem p) ∧ p ∉ sent ∧ p ∉ waited ∧ DescScope cfg w sent (p :: waited) rest
  | .waitValue32 _ _ _ :: _ | .writeValue32 _ _ :: _ => False

/-- Both ways return 0 and leave every request in the same status and the same
operations on the stream, and the queue is empty. -/
def SameRuns (cfg : Config) (w : World) (tape₁ tape₂ : List Ans) (dq : Nat) (s : Stream) (calls : List DescAdd) :
    Prop :=
  ∃ s₁ s₂, queueAndPost dq s calls ⟨w, tape₁⟩ = (.ok 0, s₁) ∧
    callEach (DescAdd.direct cfg s) calls ⟨w, tape₂⟩ = (.ok 0, s₂) ∧
    (∀ q, (s₁.w.mem q).status = (s₂.w.mem q).status) ∧ (s₁.w.streams s).todo = (s₂.w.streams s).todo ∧
    s₁.w.descQueues dq = []

/-! ## What the calls leave -/

/-- The requests are those of `w`, with the status `st`. -/
def Restated (w : World) (st : Ptr → State) (w' : World) : Prop :=
  ∀ q, ∃ o, w'.mem q = { w.mem q with status := st q, stream := o }

/-- The status of a request after sends and waits; a send leaves `f`. -/
def statusAfter (w : World) (f : Ptr → State) (sent waited : List Ptr) (q : Ptr) : State :=
  if q ∈ waited then .pending else if q ∈ sent then f q else (w.mem q).status

theorem Restated.descOp {w w' : World} {st : Ptr → State} (h : Restated w st w') (d : Desc) :
    w'.descOp d = w.descOp d := by
  cases d with
  | send p =>
    obtain ⟨o, ho⟩ := h p
    simp only [World.descOp, ho]
  | wait p =>
    obtain ⟨o, ho⟩ := h p
    simp only [World.descOp, ho]
  | waitValue32 addr value cond => rfl
  | writeValue32 addr value => rfl

theorem restated_nil (w : World) (f : Ptr → State) : Restated w (statusAfter w f [] []) w :=
  fun q => ⟨(w.mem q).stream, by simp [statusAfter]⟩

section Restated
variable {w₀ w w' : World} {f : Ptr → State} {sent waited : List Ptr} {p : Ptr}

/-- One more request gets its status. -/
theorem Restated.set {st st' : Ptr → State} (h : Restated w₀ st w) (hother : ∀ q, q ≠ p → w'.mem q = w.mem q)
    (hself : ∃ o, w'.mem p = { w.mem p with status := st' p, stream := o }) (hst : ∀ q, q ≠ p → st' q = st q) :
    Restated w₀ st' w' := by
  intro q
  obtain ⟨o, ho⟩ := h q
  by_cases hq : q = p
  · subst hq
    obtain ⟨o', ho'⟩ := hself
    refine ⟨o', ?_⟩
    rw [ho', ho]
  · refine ⟨o, ?_⟩
    rw [hother q hq, ho, hst q hq]

theorem Restated.send (h : Restated w₀ (statusAfter w₀ f sent waited) w) (hp : p ∉ waited)
    (hother : ∀ q, q ≠ p → w'.mem q = w.mem q) (hself : ∃ o, w'.mem p = { w.mem p with status := f p, stream := o }) :
    Restated w₀ (statusAfter w₀ f (p :: sent) waited) w' := by
  have hf : statusAfter w₀ f (p :: sent) waited p = f p := by simp [statusAfter, hp]
  refine h.set hother ?_ fun q hq => by simp [statusAfter, hq]
  rw [hf]
  exact hself

theorem Restated.wait (h : Restated w₀ (statusAfter w₀ f sent waited) w)
    (hother : ∀ q, q ≠ p → w'.mem q = w.mem q)
    (hself : ∃ o, w'.mem p = { w.mem p with status := .pending, stream := o }) :
    Restated w₀ (statusAfter w₀ f sent (p :: waited)) w' := by
  have hf : statusAfter w₀ f sent (p :: waited) p = .pending := by simp [statusAfter]
  refine h.set hother ?_ fun q hq => by simp [statusAfter, hq]
  rw [hf]
  exact hself

end Restated

/-- What the stream gets for a call, with the infos of `w`. -/
def DescAdd.op (w : World) (call : DescAdd) : StreamOp := w.descOp call.desc

/-- The requests added as sends, with those of a list. -/
def sentAfter (sent : List Ptr) : List DescAdd → List Ptr
  | [] => sent
  | .send p :: rest => sentAfter (p :: sent) rest
  | _ :: rest => sentAfter sent rest

/-- The requests added as waits. -/
def waitedAfter (waited : List Ptr) : List DescAdd → List Ptr
  | [] => waited
  | .waitSend p :: rest | .waitRecv p :: rest => waitedAfter (p :: waited) rest
  | _ :: rest => waitedAfter waited rest

/-- No wait is added for a put that is not to be waited for. -/
def Waitable (w : World) (calls : List DescAdd) : Prop := ∀ p, .waitSend p ∈ calls → nowait (w.mem p).flags = false

/-! ## The direct calls -/

theorem mpIsendPost_does (he : cfg.useEventSync = false) (s : Stream) : Does (fun r => r.status = .prepared)
    (fun p => mpIsendPostOnStream cfg p s) s (fun r => { r with stream := some s, status := .pendingNowait })
    (fun r => [.send r.gdsSendInfo]) where
  run p w _ hp ht := ⟨_, _, mpIsendPostOnStream_run he s hp ht, ht.tail, w.sendPosted_mem p s _,
    w.sendPosted_todo p s _⟩

/-- A request that can be waited for on a stream now. -/
structure WaitableNow (cfg : Config) (r : Request) : Prop where
  status : r.status = .pendingNowait ∨ r.status = .complete
  can : r.canBeWaited = true
  client : ∃ c, cfg.clientIndex r.peer = some c

theorem mpWaitOnStream_does (he : cfg.useEventSync = false) (s : Stream) : Does (WaitableNow cfg)
    (fun p => mpWaitOnStream cfg p s) s (fun r => { r with stream := some s, status := .pending })
    (fun r => [.waitCq r.gdsWaitInfo]) where
  run p w tape hp ht := by
    obtain ⟨hst, hcan, c, hc⟩ := hp
    have hnull : decide ((w.mem p).type ≠ .null) = true := by
      rw [decide_eq_true_iff]
      intro hn
      simp [Request.canBeWaited, hn, ReqType.rx, ReqType.tx] at hcan
    have hstat : ((w.mem p).status = .pendingNowait || (w.mem p).status = .complete) = true := by
      simpa using hst
    have hrun : mpWaitOnStream cfg p s ⟨w, tape⟩ = (.ok 0, ⟨((w.markPosted p s .pending).give p).enqueue s
        [.waitCq ((w.markPosted p s .pending).mem p).gdsWaitInfo], tape.tail⟩) := by
      rw [mpWaitOnStream, Prog.bind_ok (request_run p w tape), Prog.bind_ok (clientOf_run hc _),
        Prog.bind_ok (require_run hnull _ _), if_neg (by simp [he]), if_neg (by simp [hcan]),
        Prog.bind_ok (require_run hstat _ _), Prog.bind_ok (update_run _ _ _)]
      exact gdsStreamPostWaitCq_run ht s p _
    refine ⟨_, _, hrun, ht.tail, rfl, ?_⟩
    rw [World.enqueue_streams, if_pos rfl]
    simp [World.markPosted, World.give]

/-- The status a direct send leaves. -/
def sentStatus (w : World) (q : Ptr) : State := putStatus (w.mem q).flags

section Steps
variable {w₀ w : World} {sent waited : List Ptr} {p : Ptr}

/-- One direct call that marks its request. -/
theorem Does.step {pre : Request → Prop} {one : Ptr → M Int} {s : Stream} {mark : Request → Request}
    {ops : Request → List StreamOp} (h : Does pre one s mark ops) {tape : List Ans} (hp : pre (w.mem p))
    (ht : Succeeds tape) : ∃ w' tape', one p ⟨w, tape⟩ = (.ok 0, ⟨w', tape'⟩) ∧ Succeeds tape' ∧
      (∀ q, q ≠ p → w'.mem q = w.mem q) ∧ w'.mem p = mark (w.mem p) ∧
      (w'.streams s).todo = (w.streams s).todo ++ ops (w.mem p) := by
  obtain ⟨w', tape', hrun, ht', hm, hq⟩ := h.run p w tape hp ht
  refine ⟨w', tape', hrun, ht', fun q hne => ?_, ?_, hq⟩
  · rw [hm, World.setReq_mem, if_neg hne]
  · rw [hm, World.setReq_mem, if_pos rfl]

/-- A direct send of a prepared request. -/
theorem direct_send (he : cfg.useEventSync = false) (s : Stream) (hp : PreparedTx cfg (w₀.mem p)) (hs : p ∉ sent)
    (hw : p ∉ waited) (hm : Restated w₀ (statusAfter w₀ (sentStatus w₀) sent waited) w) {tape : List Ans}
    (ht : Succeeds tape) : ∃ w' tape', (DescAdd.send p).direct cfg s ⟨w, tape⟩ = (.ok 0, ⟨w', tape'⟩) ∧ Succeeds tape' ∧
      Restated w₀ (statusAfter w₀ (sentStatus w₀) (p :: sent) waited) w' ∧
      (w'.streams s).todo = (w.streams s).todo ++ [(DescAdd.send p).op w₀] := by
  obtain ⟨o, ho⟩ := hm p
  have hst : (w.mem p).status = .prepared := by
    rw [ho]
    simp [statusAfter, hs, hw, hp.status]
  have hop : (w.mem p).gdsSendInfo = (w₀.mem p).gdsSendInfo := by rw [ho]
  have hty : (w.mem p).type = (w₀.mem p).type := by rw [ho]
  have hfl : (w.mem p).flags = (w₀.mem p).flags := by rw [ho]
  by_cases hr : (w₀.mem p).type = .rdma
  · obtain ⟨w', tape', hrun, ht', hother, hself, hq⟩ := (mpIputPost_does s).step hst ht
    refine ⟨w', tape', ?_, ht', hm.send hw hother ⟨(w.mem p).stream, ?_⟩, ?_⟩
    · rw [DescAdd.direct, Prog.bind_ok (request_run p w tape), if_pos (hty.trans hr)]
      exact hrun
    · rw [hself, sentStatus, ← hfl]
    · rw [hq, hop]
      rfl
  · obtain ⟨w', tape', hrun, ht', hother, hself, hq⟩ := (mpIsendPost_does he s).step hst ht
    -- what is not a put is a send, and has no flags
    have hsend : (w₀.mem p).flags = 0 := by
      refine hp.flags ?_
      have htx := hp.tx
      cases hty : (w₀.mem p).type <;> simp [ReqType.tx, hty] at htx hr ⊢
    refine ⟨w', tape', ?_, ht', hm.send hw hother ⟨some s, ?_⟩, ?_⟩
    · rw [DescAdd.direct, Prog.bind_ok (request_run p w tape), if_neg (fun h => hr (hty.symm.trans h))]
      exact hrun
    · rw [hself, sentStatus, hsend]
      rfl
    · rw [hq, hop]
      rfl

/-- A direct wait for a request that can be waited for. -/
theorem direct_wait (he : cfg.useEventSync = false) (s : Stream) (hp : WaitableNow cfg (w.mem p))
    (hm : Restated w₀ (statusAfter w₀ (sentStatus w₀) sent waited) w) {tape : List Ans} (ht : Succeeds tape) :
    ∃ w' tape', mpWaitOnStream cfg p s ⟨w, tape⟩ = (.ok 0, ⟨w', tape'⟩) ∧ Succeeds tape' ∧
      Restated w₀ (statusAfter w₀ (sentStatus w₀) sent (p :: waited)) w' ∧
      (w'.streams s).todo = (w.streams s).todo ++ [.waitCq (w₀.mem p).gdsWaitInfo] := by
  obtain ⟨o, ho⟩ := hm p
  have hop : (w.mem p).gdsWaitInfo = (w₀.mem p).gdsWaitInfo := by rw [ho]
  obtain ⟨w', tape', hrun, ht', hother, hself, hq⟩ := (mpWaitOnStream_does he s).step hp ht
  refine ⟨w', tape', hrun, ht', hm.wait hother ⟨some s, hself⟩, ?_⟩
  rw [hq, hop]

end Steps

/-- What can be waited for, in a world in which it was sent or received. -/
theorem waitableNow_sent {w₀ w : World} {f : Ptr → State} {sent waited : List Ptr} {p : Ptr}
    (hm : Restated w₀ (statusAfter w₀ f sent waited) w) (hp : PreparedTx cfg (w₀.mem p)) (hs : p ∈ sent)
    (hw : p ∉ waited)
    (hn : nowait (w₀.mem p).flags = false) (hf : f p = .pendingNowait ∨ f p = .complete) :
    WaitableNow cfg (w.mem p) := by
  obtain ⟨o, ho⟩ := hm p
  rw [ho]
  refine ⟨?_, ?_, hp.client⟩
  · simpa [statusAfter, hs, hw] using hf
  · simp [Request.canBeWaited, hp.tx, hn]

theorem waitableNow_recv {w₀ w : World} {f : Ptr → State} {sent waited : List Ptr} {p : Ptr}
    (hm : Restated w₀ (statusAfter w₀ f sent waited) w) (hp : PostedRecv cfg (w₀.mem p)) (hs : p ∉ sent)
    (hw : p ∉ waited) : WaitableNow cfg (w.mem p) := by
  obtain ⟨o, ho⟩ := hm p
  rw [ho]
  refine ⟨?_, ?_, hp.client⟩
  · simpa [statusAfter, hs, hw] using hp.status
  · simp [Request.canBeWaited, hp.rx, ReqType.rx]

/-- The direct calls for a sequence in scope. -/
theorem callEach_direct (he : cfg.useEventSync = false) (s : Stream) {w₀ : World} {calls : List DescAdd}
    {sent waited : List Ptr} (hsc : DescScope cfg w₀ sent waited calls) (hw : Waitable w₀ calls) {w : World}
    (hm : Restated w₀ (statusAfter w₀ (sentStatus w₀) sent waited) w) {tape : List Ans} (ht : Succeeds tape) :
    ∃ w' tape', callEach (DescAdd.direct cfg s) calls ⟨w, tape⟩ = (.ok 0, ⟨w', tape'⟩) ∧
      Restated w₀ (statusAfter w₀ (sentStatus w₀) (sentAfter sent calls) (waitedAfter waited calls)) w' ∧
      (w'.streams s).todo = (w.streams s).todo ++ calls.map (DescAdd.op w₀) := by
  induction calls generalizing sent waited w tape with
  | nil => exact ⟨w, tape, rfl, hm, by simp⟩
  | cons call rest ih =>
    have hw' : Waitable w₀ rest := fun p hp => hw p (List.mem_cons_of_mem _ hp)
    -- a call that goes through, and the rest
    have hgo : ∀ sent' waited' w₁ tape₁, call.direct cfg s ⟨w, tape⟩ = (.ok 0, ⟨w₁, tape₁⟩) → Succeeds tape₁ →
        Restated w₀ (statusAfter w₀ (sentStatus w₀) sent' waited') w₁ →
        (w₁.streams s).todo = (w.streams s).todo ++ [call.op w₀] → DescScope cfg w₀ sent' waited' rest →
        ∃ w' tape', callEach (DescAdd.direct cfg s) (call :: rest) ⟨w, tape⟩ = (.ok 0, ⟨w', tape'⟩) ∧
          Restated w₀ (statusAfter w₀ (sentStatus w₀) (sentAfter sent' rest) (waitedAfter waited' rest)) w' ∧
          (w'.streams s).todo = (w.streams s).todo ++ (call :: rest).map (DescAdd.op w₀) := by
      intro sent' waited' w₁ tape₁ hrun ht₁ hm₁ hq₁ hsc₁
      obtain ⟨w', tape', hrun', hm', hq'⟩ := ih hsc₁ hw' hm₁ ht₁
      refine ⟨w', tape', ?_, hm', ?_⟩
      · rw [callEach, Prog.bind_ok hrun, if_neg (by decide)]
        exact hrun'
      · rw [hq', hq₁, List.append_assoc]
        rfl
    cases call with
    | send p =>
      obtain ⟨hp, hs, hwt, hrest⟩ := hsc
      obtain ⟨w₁, tape₁, hrun, ht₁, hm₁, hq₁⟩ := direct_send he s hp hs hwt hm ht
      exact hgo _ _ w₁ tape₁ hrun ht₁ hm₁ hq₁ hrest
    | waitSend p =>
      obtain ⟨hp, hs, hwt, hrest⟩ := hsc
      have hn := hw p List.mem_cons_self
      have hf : sentStatus w₀ p = .pendingNowait ∨ sentStatus w₀ p = .complete :=
        .inl (putStatus_eq_nowait.mpr hn)
      obtain ⟨w₁, tape₁, hrun, ht₁, hm₁, hq₁⟩ := direct_wait he s (waitableNow_sent hm hp hs hwt hn hf) hm ht
      exact hgo _ _ w₁ tape₁ hrun ht₁ hm₁ hq₁ hrest
    | waitRecv p =>
      obtain ⟨hp, hs, hwt, hrest⟩ := hsc
      obtain ⟨w₁, tape₁, hrun, ht₁, hm₁, hq₁⟩ := direct_wait he s (waitableNow_recv hm hp hs hwt) hm ht
      exact hgo _ _ w₁ tape₁ hrun ht₁ hm₁ hq₁ hrest
    | waitValue32 addr value cond => exact hsc.elim
    | writeValue32 addr value => exact hsc.elim

/-! ## The queue -/

/-- After adds: the requests, and the descriptors in the queue. -/
structure Queued (w₀ : World) (dq : Nat) (sent waited : List Ptr) (descs : List Desc) (w : World) : Prop where
  restated : Restated w₀ (statusAfter w₀ (fun _ => .pendingNowait) sent waited) w
  queue : w.descQueues dq = descs
  streams : w.streams = w₀.streams

/-- Push a descriptor of `p` and set its status. -/
def World.pushFor (w : World) (dq : Nat) (d : Desc) (p : Ptr) (st : State) : World := (w.pushDesc dq d).setStatus p st

theorem mpDescQueueAddSend_run {w : World} {p : Ptr} (htx : (w.mem p).type.tx = true)
    (hst : (w.mem p).status = .prepared) (dq : Nat) (tape : List Ans) :
    mpDescQueueAddSend dq p ⟨w, tape⟩ = (.ok 0, ⟨w.pushFor dq (.send p) p .pendingNowait, tape⟩) := by
  have hdec : decide ((w.mem p).status = .prepared) = true := by simp [hst]
  rw [mpDescQueueAddSend, Prog.bind_ok (request_run p w tape), Prog.bind_ok (require_run htx _ _),
    Prog.bind_ok (require_run hdec _ _)]
  rfl

theorem addWaitDesc_run {w : World} {p : Ptr} (hst : (w.mem p).status = .pendingNowait ∨ (w.mem p).status = .complete)
    (dq : Nat) (tape : List Ans) :
    addWaitDesc dq p ⟨w, tape⟩ = (.ok 0, ⟨w.pushFor dq (.wait p) p .pending, tape⟩) := by
  have hdec : ((w.mem p).status = .pendingNowait || (w.mem p).status = .complete) = true := by simpa using hst
  rw [addWaitDesc, Prog.bind_ok (request_run p w tape), Prog.bind_ok (require_run hdec _ _)]
  rfl

theorem mpDescQueueAddWaitSend_run {w : World} {p : Ptr} (htx : (w.mem p).type.tx = true)
    (hp : WaitableNow cfg (w.mem p)) (dq : Nat) (tape : List Ans) :
    mpDescQueueAddWaitSend dq p ⟨w, tape⟩ = (.ok 0, ⟨w.pushFor dq (.wait p) p .pending, tape⟩) := by
  rw [mpDescQueueAddWaitSend, Prog.bind_ok (request_run p w tape), Prog.bind_ok (require_run htx _ _),
    Prog.bind_ok (require_run hp.can _ _)]
  exact addWaitDesc_run hp.status dq tape

theorem mpDescQueueAddWaitRecv_run {w : World} {p : Ptr} (hrx : (w.mem p).type.rx = true)
    (hp : WaitableNow cfg (w.mem p)) (dq : Nat) (tape : List Ans) :
    mpDescQueueAddWaitRecv dq p ⟨w, tape⟩ = (.ok 0, ⟨w.pushFor dq (.wait p) p .pending, tape⟩) := by
  rw [mpDescQueueAddWaitRecv, Prog.bind_ok (request_run p w tape), Prog.bind_ok (require_run hrx _ _)]
  exact addWaitDesc_run hp.status dq tape

section Queued
variable {w₀ w : World} {dq : Nat} {sent waited : List Ptr} {descs : List Desc} {p : Ptr}

theorem World.pushFor_other (w : World) (dq : Nat) (d : Desc) (p : Ptr) (st : State) {q : Ptr} (hq : q ≠ p) :
    (w.pushFor dq d p st).mem q = w.mem q := by
  simp [World.pushFor, World.setStatus, World.pushDesc, hq]

theorem World.pushFor_self (w : World) (dq : Nat) (d : Desc) (p : Ptr) (st : State) :
    (w.pushFor dq d p st).mem p = { w.mem p with status := st, stream := (w.mem p).stream } := by
  simp [World.pushFor, World.setStatus, World.pushDesc]

theorem World.pushFor_queue (w : World) (dq : Nat) (d : Desc) (p : Ptr) (st : State) :
    (w.pushFor dq d p st).descQueues dq = w.descQueues dq ++ [d] := by
  simp [World.pushFor, World.setStatus, World.setReq, World.pushDesc]

theorem Queued.send (h : Queued w₀ dq sent waited descs w) (hw : p ∉ waited) :
    Queued w₀ dq (p :: sent) waited (descs ++ [.send p]) (w.pushFor dq (.send p) p .pendingNowait) where
  restated := h.restated.send hw (fun _ hq => w.pushFor_other dq _ p _ hq) ⟨_, w.pushFor_self dq _ p _⟩
  queue := by rw [World.pushFor_queue, h.queue]
  streams := h.streams

theorem Queued.wait (h : Queued w₀ dq sent waited descs w) :
    Queued w₀ dq sent (p :: waited) (descs ++ [.wait p]) (w.pushFor dq (.wait p) p .pending) where
  restated := h.restated.wait (fun _ hq => w.pushFor_other dq _ p _ hq) ⟨_, w.pushFor_self dq _ p _⟩
  queue := by rw [World.pushFor_queue, h.queue]
  streams := h.streams

end Queued

/-- The adds for a sequence in scope. They ask nothing of the outside. -/
theorem callEach_add (dq : Nat) {w₀ : World} {calls : List DescAdd} {sent waited : List Ptr}
    (hsc : DescScope cfg w₀ sent waited calls) (hw : Waitable w₀ calls) {descs : List Desc} {w : World}
    (h : Queued w₀ dq sent waited descs w) (tape : List Ans) :
    ∃ w', callEach (DescAdd.add dq) calls ⟨w, tape⟩ = (.ok 0, ⟨w', tape⟩) ∧
      Queued w₀ dq (sentAfter sent calls) (waitedAfter waited calls) (descs ++ calls.map DescAdd.desc) w' := by
  induction calls generalizing sent waited w descs with
  | nil => exact ⟨w, rfl, by rw [List.map_nil, List.append_nil]; exact h⟩
  | cons call rest ih =>
    have hw' : Waitable w₀ rest := fun p hp => hw p (List.mem_cons_of_mem _ hp)
    -- one add succeeds, and the rest follows by induction
    have hgo : ∀ sent' waited' w₁, call.add dq ⟨w, tape⟩ = (.ok 0, ⟨w₁, tape⟩) →
        Queued w₀ dq sent' waited' (descs ++ [call.desc]) w₁ → DescScope cfg w₀ sent' waited' rest →
        ∃ w', callEach (DescAdd.add dq) (call :: rest) ⟨w, tape⟩ = (.ok 0, ⟨w', tape⟩) ∧
          Queued w₀ dq (sentAfter sent' rest) (waitedAfter waited' rest) (descs ++ (call :: rest).map DescAdd.desc)
            w' := by
      intro sent' waited' w₁ hrun h₁ hsc₁
      obtain ⟨w', hrun', h'⟩ := ih hsc₁ hw' h₁
      refine ⟨w', ?_, by simpa using h'⟩
      rw [callEach, Prog.bind_ok hrun, if_neg (by decide)]
      exact hrun'
    cases call with
    | send p =>
      obtain ⟨hp, hs, hwt, hrest⟩ := hsc
      obtain ⟨o, ho⟩ := h.restated p
      have htx : (w.mem p).type.tx = true := by rw [ho]; exact hp.tx
      have hst : (w.mem p).status = .prepared := by
        rw [ho]
        simp [statusAfter, hs, hwt, hp.status]
      exact hgo _ _ _ (mpDescQueueAddSend_run htx hst dq tape) (h.send hwt) hrest
    | waitSend p =>
      obtain ⟨hp, hs, hwt, hrest⟩ := hsc
      obtain ⟨o, ho⟩ := h.restated p
      have htx : (w.mem p).type.tx = true := by rw [ho]; exact hp.tx
      have hnow := waitableNow_sent h.restated hp hs hwt (hw p List.mem_cons_self) (.inl rfl)
      exact hgo _ _ _ (mpDescQueueAddWaitSend_run htx hnow dq tape) h.wait hrest
    | waitRecv p =>
      obtain ⟨hp, hs, hwt, hrest⟩ := hsc
      obtain ⟨o, ho⟩ := h.restated p
      have hrx : (w.mem p).type.rx = true := by
        rw [ho]
        simp [hp.rx, ReqType.rx]
      have hnow := waitableNow_recv h.restated hp hs hwt
      exact hgo _ _ _ (mpDescQueueAddWaitRecv_run hrx hnow dq tape) h.wait hrest
    | waitValue32 addr value cond => exact hsc.elim
    | writeValue32 addr value => exact hsc.elim

/-- Posting the queue, when the outside makes no errors. -/
theorem mpDescQueuePostOnStream_run {tape : List Ans} (ht : Succeeds tape) (s : Stream) (dq : Nat) (w : World) :
    ∃ w' tape', mpDescQueuePostOnStream s dq ⟨w, tape⟩ = (.ok 0, ⟨w', tape'⟩) ∧ w'.mem = w.mem ∧
      (w'.streams s).todo = (w.streams s).todo ++ (w.descQueues dq).map w.descOp ∧ w'.descQueues dq = [] := by
  have hw : world ⟨w, tape⟩ = (.ok w, ⟨w, tape⟩) := rfl
  by_cases hq : w.descQueues dq = []
  · refine ⟨w, tape, ?_, rfl, by simp [hq], hq⟩
    rw [mpDescQueuePostOnStream, Prog.bind_ok hw, if_pos hq]
    rfl
  · refine ⟨((launchAll w (descSends w (w.descQueues dq))).enqueue s ((w.descQueues dq).map w.descOp)).flushDescs dq,
      tape.tail, ?_, ?_, ?_, ?_⟩
    · rw [mpDescQueuePostOnStream, Prog.bind_ok hw, if_neg hq, Prog.bind_ok (returnCode_run ht w)]
      rfl
    · exact launchAll_mem w _
    · show (((launchAll w _).enqueue s _).streams s).todo = _
      rw [World.enqueue_streams, if_pos rfl, launchAll_streams]
    · simp [World.flushDescs]

/-! ## Adds that return -/

/-- What an add that returns has found and done. -/
inductive Added (dq : Nat) (w : World) : DescAdd → World → Prop where
  | send {p : Ptr} (htx : (w.mem p).type.tx = true) (hst : (w.mem p).status = .prepared) :
      Added dq w (.send p) (w.pushFor dq (.send p) p .pendingNowait)
  | waitSend {p : Ptr} (htx : (w.mem p).type.tx = true) (hcan : (w.mem p).canBeWaited = true)
      (hst : (w.mem p).status = .pendingNowait ∨ (w.mem p).status = .complete) :
      Added dq w (.waitSend p) (w.pushFor dq (.wait p) p .pending)
  | waitRecv {p : Ptr} (hst : (w.mem p).status = .pendingNowait ∨ (w.mem p).status = .complete) :
      Added dq w (.waitRecv p) (w.pushFor dq (.wait p) p .pending)
  | waitValue32 {addr value : Nat} {cond : WaitCond} :
      Added dq w (.waitValue32 addr value cond) (w.pushDesc dq (.waitValue32 addr value cond))
  | writeValue32 {addr value : Nat} : Added dq w (.writeValue32 addr value) (w.pushDesc dq (.writeValue32 addr value))

theorem addWaitDesc_ok {dq : Nat} {p : Ptr} {s s' : Sys} {ret : Int} (h : addWaitDesc dq p s = (.ok ret, s')) :
    ret = 0 ∧ ((s.w.mem p).status = .pendingNowait ∨ (s.w.mem p).status = .complete) ∧
      s' = { s with w := s.w.pushFor dq (.wait p) p .pending } := by
  obtain ⟨r, s₁, h₁, h₂⟩ := Prog.bind_eq_ok h
  obtain ⟨rfl, rfl⟩ := request_ok h₁
  obtain ⟨hst, h₄⟩ := require_bind_ok h₂
  cases h₄
  exact ⟨rfl, by simpa using hst, rfl⟩

theorem DescAdd.add_ok {call : DescAdd} {dq : Nat} {s s' : Sys} {ret : Int} (h : call.add dq s = (.ok ret, s')) :
    ret = 0 ∧ Added dq s.w call s'.w := by
  cases call with
  | send p =>
    obtain ⟨r, s₁, h₁, h₂⟩ := Prog.bind_eq_ok h
    obtain ⟨rfl, rfl⟩ := request_ok h₁
    obtain ⟨htx, h₄⟩ := require_bind_ok h₂
    obtain ⟨hst, h₆⟩ := require_bind_ok h₄
    cases h₆
    exact ⟨rfl, .send htx (of_decide_eq_true hst)⟩
  | waitSend p =>
    obtain ⟨r, s₁, h₁, h₂⟩ := Prog.bind_eq_ok h
    obtain ⟨rfl, rfl⟩ := request_ok h₁
    obtain ⟨htx, h₄⟩ := require_bind_ok h₂
    obtain ⟨hcan, h₆⟩ := require_bind_ok h₄
    obtain ⟨hret, hst, rfl⟩ := addWaitDesc_ok h₆
    exact ⟨hret, .waitSend htx hcan hst⟩
  | waitRecv p =>
    obtain ⟨r, s₁, h₁, h₂⟩ := Prog.bind_eq_ok h
    obtain ⟨rfl, rfl⟩ := request_ok h₁
    obtain ⟨hrx, h₄⟩ := require_bind_ok h₂
    obtain ⟨hret, hst, rfl⟩ := addWaitDesc_ok h₄
    exact ⟨hret, .waitRecv hst⟩
  | waitValue32 addr value cond =>
    cases h
    exact ⟨rfl, .waitValue32⟩
  | writeValue32 addr value =>
    cases h
    exact ⟨rfl, .writeValue32⟩

/-- An add leaves the flags of the requests. -/
theorem Added.flags {dq : Nat} {w w' : World} {call : DescAdd} (h : Added dq w call w') (q : Ptr) :
    (w'.mem q).flags = (w.mem q).flags := by
  have hpush : ∀ d p st, ((w.pushFor dq d p st).mem q).flags = (w.mem q).flags := by
    intro d p st
    by_cases hq : q = p
    · rw [hq, w.pushFor_self]
    · rw [w.pushFor_other dq d p st hq]
  cases h with
  | send => exact hpush _ _ _
  | waitSend => exact hpush _ _ _
  | waitRecv => exact hpush _ _ _
  | waitValue32 => rfl
  | writeValue32 => rfl

/-- A wait was only added for what can be waited for. -/
theorem waitable_of_adds {dq : Nat} {calls : List DescAdd} {s s' : Sys} {ret : Int}
    (h : callEach (DescAdd.add dq) calls s = (.ok ret, s')) : Waitable s.w calls := by
  induction calls generalizing s with
  | nil => exact fun p hp => absurd hp List.not_mem_nil
  | cons call rest ih =>
    obtain ⟨ret₁, s₁, h₁, h₂⟩ := Prog.bind_eq_ok h
    obtain ⟨rfl, hadd⟩ := DescAdd.add_ok h₁
    rw [if_neg (by decide)] at h₂
    intro p hp
    rcases List.mem_cons.mp hp with rfl | hp
    · generalize s₁.w = w₁ at hadd
      cases hadd with
      | waitSend htx hcan hst =>
        have hrx : (s.w.mem p).type.rx = false := by
          cases hty : (s.w.mem p).type <;> simp [ReqType.tx, ReqType.rx, hty] at htx ⊢
        simpa [Request.canBeWaited, htx, hrx] using hcan
    · rw [← hadd.flags p]
      exact ih h₂ p hp

/-! ## Both ways -/

theorem mem_sentAfter {calls : List DescAdd} {sent : List Ptr} {q : Ptr} :
    q ∈ sentAfter sent calls ↔ q ∈ sent ∨ .send q ∈ calls := by
  induction calls generalizing sent with
  | nil => simp [sentAfter]
  | cons call rest ih =>
    cases call <;> simp only [sentAfter, ih, List.mem_cons, reduceCtorEq, false_or, DescAdd.send.injEq]
    rw [or_assoc, or_left_comm]

theorem mem_waitedAfter {calls : List DescAdd} {waited : List Ptr} {q : Ptr} :
    q ∈ waitedAfter waited calls ↔ q ∈ waited ∨ .waitSend q ∈ calls ∨ .waitRecv q ∈ calls := by
  induction calls generalizing waited with
  | nil => simp [waitedAfter]
  | cons call rest ih =>
    cases call <;> simp only [waitedAfter, ih, List.mem_cons, reduceCtorEq, false_or, DescAdd.waitSend.injEq,
      DescAdd.waitRecv.injEq]
    · tauto
    · tauto

/-- In scope, sends are of prepared requests and waits for receives of posted receives. -/
theorem DescScope.prepared {w : World} {calls : List DescAdd} {sent waited : List Ptr}
    (h : DescScope cfg w sent waited calls) {p : Ptr} :
    (.send p ∈ calls → PreparedTx cfg (w.mem p)) ∧ (.waitSend p ∈ calls → p ∈ sent ∨ .send p ∈ calls) ∧
    (.waitRecv p ∈ calls → PostedRecv cfg (w.mem p)) := by
  induction calls generalizing sent waited with
  | nil => exact ⟨nofun, nofun, nofun⟩
  | cons call rest ih =>
    cases call with
    | send q =>
      obtain ⟨hq, -, -, hrest⟩ := h
      obtain ⟨i₁, i₂, i₃⟩ := ih hrest
      simp only [List.mem_cons, DescAdd.send.injEq, reduceCtorEq, false_or] at i₂ ⊢
      refine ⟨?_, fun hp => ?_, i₃⟩
      · rintro (rfl | hp)
        · exact hq
        · exact i₁ hp
      · rcases i₂ hp with (h | h) | h
        · exact .inr (.inl h)
        · exact .inl h
        · exact .inr (.inr h)
    | waitSend q =>
      obtain ⟨-, hs, -, hrest⟩ := h
      obtain ⟨i₁, i₂, i₃⟩ := ih hrest
      simp only [List.mem_cons, DescAdd.waitSend.injEq, reduceCtorEq, false_or]
      refine ⟨i₁, ?_, i₃⟩
      rintro (rfl | hp)
      · exact .inl hs
      · exact i₂ hp
    | waitRecv q =>
      obtain ⟨hq, -, -, hrest⟩ := h
      obtain ⟨i₁, i₂, i₃⟩ := ih hrest
      simp only [List.mem_cons, DescAdd.waitRecv.injEq, reduceCtorEq, false_or]
      refine ⟨i₁, i₂, ?_⟩
      rintro (rfl | hp)
      · exact hq
      · exact i₃ hp
    | waitValue32 addr value cond => exact h.elim
    | writeValue32 addr value => exact h.elim

/-- Without event sync, when no call to the outside fails, for any sequence of
adds to an empty queue that is in scope: posting the queue and making the
direct calls in the same order leave every request in the same status and the
same operations on the stream, and the queue empty, exactly if no put that is
not to be waited for is among the sends. -/
theorem queue_agrees_with_direct_calls (he : cfg.useEventSync = false) {w : World} {dq : Nat} (s : Stream)
    (hdq : w.descQueues dq = []) {calls : List DescAdd} (hsc : DescScope cfg w [] [] calls) {tape₁ tape₂ : List Ans}
    (ht₁ : Succeeds tape₁) (ht₂ : Succeeds tape₂) :
    SameRuns cfg w tape₁ tape₂ dq s calls ↔ ∀ p, .send p ∈ calls → nowait (w.mem p).flags = false := by
  have hq₀ : Queued w dq [] [] [] w := ⟨restated_nil w _, hdq, rfl⟩
  -- what both ways leave where the waits can be added at all
  have hboth : Waitable w calls → ∃ s₁ s₂, queueAndPost dq s calls ⟨w, tape₁⟩ = (.ok 0, s₁) ∧
      callEach (DescAdd.direct cfg s) calls ⟨w, tape₂⟩ = (.ok 0, s₂) ∧
      (∀ q, (s₁.w.mem q).status = statusAfter w (fun _ => .pendingNowait) (sentAfter [] calls)
        (waitedAfter [] calls) q) ∧
      (∀ q, (s₂.w.mem q).status = statusAfter w (sentStatus w) (sentAfter [] calls) (waitedAfter [] calls) q) ∧
      (s₁.w.streams s).todo = (s₂.w.streams s).todo ∧ s₁.w.descQueues dq = [] := by
    intro hw
    obtain ⟨w₁, hadd, hqd⟩ := callEach_add dq hsc hw hq₀ tape₁
    obtain ⟨w₂, t₂, hpost, hmem, htodo, hempty⟩ := mpDescQueuePostOnStream_run ht₁ s dq w₁
    obtain ⟨w₃, t₃, hdir, hmark, htodo'⟩ := callEach_direct he s hsc hw (restated_nil w _) ht₂
    refine ⟨⟨w₂, t₂⟩, ⟨w₃, t₃⟩, ?_, hdir, fun q => ?_, fun q => ?_, ?_, hempty⟩
    · rw [queueAndPost, Prog.bind_ok hadd, if_neg (by decide)]
      exact hpost
    · obtain ⟨o, ho⟩ := hqd.restated q
      show (w₂.mem q).status = _
      rw [hmem, ho]
    · obtain ⟨o, ho⟩ := hmark q
      show (w₃.mem q).status = _
      rw [ho]
    · show (w₂.streams s).todo = (w₃.streams s).todo
      rw [htodo, htodo', hqd.streams, hqd.queue, List.nil_append, List.map_map]
      congr 1
      exact List.map_congr_left fun call _ => hqd.restated.descOp call.desc
  constructor
  · rintro ⟨s₁, s₂, hq, hd, hst, -, -⟩ p hp
    have hw : Waitable w calls := by
      obtain ⟨ret, s', h₁, -⟩ := Prog.bind_eq_ok hq
      exact waitable_of_adds h₁
    obtain ⟨s₁', s₂', hq', hd', hst₁, hst₂, -, -⟩ := hboth hw
    obtain ⟨rfl⟩ : s₁ = s₁' := congrArg Prod.snd (hq.symm.trans hq')
    obtain ⟨rfl⟩ : s₂ = s₂' := congrArg Prod.snd (hd.symm.trans hd')
    by_contra hn
    -- the put was added as a send only
    have hnot : p ∉ waitedAfter [] calls := by
      rw [mem_waitedAfter]
      rintro (h | h | h)
      · cases h
      · exact hn (hw p h)
      · have htx := (hsc.prepared.1 hp).tx
        rw [(hsc.prepared.2.2 h).rx] at htx
        cases htx
    have hsent : p ∈ sentAfter [] calls := mem_sentAfter.mpr (.inr hp)
    have heq := hst p
    rw [hst₁, hst₂, statusAfter, statusAfter, if_neg hnot, if_neg hnot, if_pos hsent, if_pos hsent] at heq
    exact hn (putStatus_eq_nowait.mp heq.symm)
  · intro hno
    have hw : Waitable w calls := by
      intro p hp
      rcases hsc.prepared.2.1 hp with h | h
      · cases h
      · exact hno p h
    obtain ⟨s₁, s₂, hq, hd, hst₁, hst₂, htodo, hempty⟩ := hboth hw
    refine ⟨s₁, s₂, hq, hd, fun q => ?_, htodo, hempty⟩
    rw [hst₁, hst₂, statusAfter, statusAfter]
    by_cases hsent : q ∈ sentAfter [] calls
    · have hsend : .send q ∈ calls := (mem_sentAfter.mp hsent).resolve_left List.not_mem_nil
      rw [if_pos hsent, if_pos hsent, sentStatus, putStatus_eq_nowait.mpr (hno q hsend)]
    · rw [if_neg hsent, if_neg hsent]

/-- A send that is waited for and a put that can be waited for. -/
theorem queue_agrees_with_direct_calls_waited : ∃ w, w = World.init.after onePeer [prepareOne, putOne 0] ∧
    DescScope onePeer w [] [] [.send 0, .waitSend 0, .send 1] ∧
    SameRuns onePeer w [] [] 0 0 [.send 0, .waitSend 0, .send 1] := by
  have hsc : DescScope onePeer (World.init.after onePeer [prepareOne, putOne 0])
    [] [] [.send 0, .waitSend 0, .send 1] := by
    refine ⟨⟨by decide, by decide, by decide, 0, by decide⟩, by decide, by decide,
      ⟨by decide, by decide, by decide, 0, by decide⟩, by decide, by decide,
      ⟨by decide, by decide, by decide, 0, by decide⟩, by decide, by decide, trivial⟩
  have ht : Succeeds [] := fun _ h => absurd h List.not_mem_nil
  refine ⟨_, rfl, hsc, (queue_agrees_with_direct_calls rfl 0 rfl hsc ht ht).mpr fun p hp => ?_⟩
  simp only [List.mem_cons, DescAdd.send.injEq, reduceCtorEq, List.not_mem_nil, or_false, false_or] at hp
  rcases hp with rfl | rfl
  · decide
  · decide

/-- A put that is not to be waited for: posted by the queue it stays pending, and
posted directly it is complete. -/
theorem queued_put_stays_pending : ∃ w s₁ s₂, w = World.init.after onePeer [putOne mpPutNowait] ∧
    DescScope onePeer w [] [] [.send 0] ∧ queueAndPost 0 0 [.send 0] ⟨w, []⟩ = (.ok 0, s₁) ∧
    callEach (DescAdd.direct onePeer 0) [.send 0] ⟨w, []⟩ = (.ok 0, s₂) ∧
    (s₁.w.mem 0).status = .pendingNowait ∧ (s₂.w.mem 0).status = .complete ∧
    ¬ SameRuns onePeer w [] [] 0 0 [.send 0] := by
  have h₁ : queueAndPost 0 0 [.send 0] ⟨World.init.after onePeer [putOne mpPutNowait], []⟩ = (.ok 0, _) := rfl
  have h₂ : callEach (DescAdd.direct onePeer 0) [.send 0] ⟨World.init.after onePeer [putOne mpPutNowait], []⟩ =
    (.ok 0, _) := rfl
  refine ⟨_, _, _, rfl, ⟨⟨by decide, by decide, by decide, 0, by decide⟩, by decide, by decide, trivial⟩, h₁, h₂,
    by decide, by decide, ?_⟩
  rintro ⟨s₁, s₂, hq, hd, hst, -, -⟩
  rw [h₁] at hq
  rw [h₂] at hd
  cases hq
  cases hd
  exact absurd (hst 0) (by decide)

end LibMp
