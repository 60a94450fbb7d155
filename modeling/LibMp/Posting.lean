import LibMp.Batch
import LibMp.Returns

/- The posting calls without event sync, when the outside makes no errors.

   Each of them takes one request of the pool, fills in its work request and
   gives it to the HCA; what else it does to the world does not concern the
   other requests (`NewRequest`). -/
namespace LibMp
variable {cfg : Config}

/-- The library gets from `w` to `w'` by steps of the machine. -/
def Runs (cfg : Config) (w w' : World) : Prop := Moves (Move cfg anyAns anyStep) ⟨w, none⟩ ⟨w', none⟩

theorem Runs.refl (w : World) : Runs cfg w w := Relation.ReflTransGen.refl

theorem Runs.trans {w₁ w₂ w₃ : World} (h₁ : Runs cfg w₁ w₂) (h₂ : Runs cfg w₂ w₃) : Runs cfg w₁ w₃ :=
  Relation.ReflTransGen.trans h₁ h₂

theorem Runs.core {w w' : World} (h : Runs cfg w w') (hc : CoreInv cfg ⟨w, none⟩) : CoreInv cfg ⟨w', none⟩ :=
  coreInv_moves hc h

theorem Runs.one {w w' : World} {l : Lbl} (h : Step cfg anyAns l ⟨w, none⟩ ⟨w', none⟩) : Runs cfg w w' :=
  .single ⟨l, trivial, h⟩

/-- The second request is the same operation as the first, in the same state. -/
def Request.Unchanged (r r' : Request) : Prop := r.SameState r' ∧ r'.flags = r.flags

/-- From `w` to `w'` a call has posted the request at `p` for client `c` and flow
`f`; it will complete unless it is a put that is not to be waited for. -/
structure NewRequest (cfg : Config) (w w' : World) (p : Ptr) (c : Nat) (f : Flow) (fl : Nat) : Prop where
  ptr : p = w.nextFree
  at_ : w'.At cfg p c f
  owner : (w'.mem p).owner ≠ none
  status : (w'.mem p).status = .pendingNowait
  flags : (w'.mem p).flags = fl
  cq : ∀ d g, w'.cq d g =
    if d = c ∧ g = f ∧ nowait fl = false then w.cq c f ++ [⟨p, (w'.mem p).id⟩] else w.cq d g
  rest : ∀ q, q ≠ p → (w.mem q).Unchanged (w'.mem q)
  runs : Runs cfg w w'

theorem World.take_unchanged {w : World} {fn : Fn} {c rank : Nat} {type : ReqType} {st : State} {q : Ptr}
    (hq : q ≠ w.nextFree) : (w.mem q).Unchanged ((w.take fn c rank type st).mem q) := by
  obtain ⟨n, hn⟩ := w.refill_mem q
  rw [w.take_other fn c rank type st hq, hn]
  exact ⟨⟨rfl, rfl, rfl, rfl, rfl, rfl⟩, rfl⟩

/-- Take a request, fill it in, give it to the HCA. -/
theorem newRequest_accept {w : World} {fn : Fn} {c peer : Nat} {type : ReqType} {g : Request → Request}
    {flags : Nat} (hc : cfg.clientIndex peer = some c) (hty : type ≠ .null) (hfl : type.flow = fn.flow)
    (hfn : fn ≠ .mpSendPrepare)
    (hg : ∀ r : Request, r.flags = 0 → r.owner = some fn → r.SameLife (g r) ∧ (g r).WrOk w.nextFree)
    (hfs : ∀ r : Request, r.flags = 0 → (g r).flags = flags) :
    NewRequest cfg w (((w.take fn c (cfg.mpiRank c) type .pendingNowait).setReq w.nextFree g).accept c fn.flow
      w.nextFree) w.nextFree c fn.flow flags := by
  have hrank : cfg.clientIndex (cfg.mpiRank c) = some c := by rw [Config.mpiRank_eq hc]; exact hc
  obtain ⟨h1, h2, h3, h4, h5, h6, h7⟩ := w.take_mem fn c (cfg.mpiRank c) type .pendingNowait
  obtain ⟨hlife, hok⟩ := hg _ h5 h4
  have hself : ∀ v : World, (v.setReq w.nextFree g).mem w.nextFree = g (v.mem w.nextFree) := by
    intro v
    simp
  obtain ⟨l1, l2, l3, -, -, -, -, l8, -, -⟩ := hlife
  have hat : ((w.take fn c (cfg.mpiRank c) type .pendingNowait).setReq w.nextFree g).At cfg w.nextFree c fn.flow := by
    refine ⟨?_, ?_, ?_⟩
    · rw [hself, l2, h2]
      exact hrank
    · rw [hself, l1, h1]
      exact hty
    · rw [hself, l1, h1]
      exact hfl
  have hflags : (((w.take fn c (cfg.mpiRank c) type .pendingNowait).setReq w.nextFree g).mem w.nextFree).flags =
      flags := by
    rw [hself]
    exact hfs _ h5
  refine ⟨rfl, hat, ?_, ?_, hflags, ?_, fun q hq => ?_, ?_⟩
  · show (((w.take fn c (cfg.mpiRank c) type .pendingNowait).setReq w.nextFree g).mem w.nextFree).owner ≠ none
    rw [hself, l8, h4]
    simp
  · show (((w.take fn c (cfg.mpiRank c) type .pendingNowait).setReq w.nextFree g).mem w.nextFree).status = _
    rw [hself, l3, h3]
  · -- accepting adds its completion to the queue of its client and flow
    intro d f
    have hwr : (((w.take fn c (cfg.mpiRank c) type .pendingNowait).setReq w.nextFree g).mem w.nextFree).WrOk
      w.nextFree := by
      rw [hself]
      exact hok
    rw [World.accept_cq hwr, hflags]
    have hcq : ((w.take fn c (cfg.mpiRank c) type .pendingNowait).setReq w.nextFree g).cq = w.cq :=
      w.take_cq fn c (cfg.mpiRank c) type .pendingNowait
    rw [hcq]
    rfl
  · show (w.mem q).Unchanged (((w.take fn c (cfg.mpiRank c) type .pendingNowait).setReq w.nextFree g).mem q)
    rw [World.setReq_mem, if_neg hq]
    exact World.take_unchanged hq
  · -- the call is three steps of the machine
    have htake : Step cfg anyAns (.take fn c) ⟨w, none⟩ ⟨w.take fn c (cfg.mpiRank c) type .pendingNowait,
        some ⟨w.nextFree, .pendingNowait, false⟩⟩ :=
      .take fn c type .pendingNowait hrank hty hfl (.inr isPending_nowait) (fun h => absurd h hfn)
    have hbuild : Step cfg anyAns (.build w.nextFree) ⟨w.take fn c (cfg.mpiRank c) type .pendingNowait,
        some ⟨w.nextFree, .pendingNowait, false⟩⟩
          ⟨(w.take fn c (cfg.mpiRank c) type .pendingNowait).setReq w.nextFree g,
        some ⟨w.nextFree, .pendingNowait, true⟩⟩ := .build g (hg _ h5 h4).1 hok
    have haccept : Step cfg anyAns (.accept c fn.flow w.nextFree)
        ⟨(w.take fn c (cfg.mpiRank c) type .pendingNowait).setReq w.nextFree g, some ⟨w.nextFree, .pendingNowait, true⟩⟩
        ⟨((w.take fn c (cfg.mpiRank c) type .pendingNowait).setReq w.nextFree g).accept c fn.flow w.nextFree, none⟩ :=
      .accept isPending_nowait hat
    exact ((Relation.ReflTransGen.single ⟨_, trivial, htake⟩).tail ⟨_, trivial, hbuild⟩).tail ⟨_, trivial, haccept⟩

/-- What does not concern the requests and the completion queues. -/
theorem NewRequest.same {w w' w'' : World} {p : Ptr} {c : Nat} {f : Flow} {flags : Nat}
    (h : NewRequest cfg w w' p c f flags) (hm : ∀ q, (w'.mem q).Unchanged (w''.mem q)) (hcq : w''.cq = w'.cq)
    (hruns : Runs cfg w' w'') : NewRequest cfg w w'' p c f flags := by
  obtain ⟨⟨m1, m2, m3, m4, m5, m6⟩, m7⟩ := hm p
  refine ⟨h.ptr, ?_, ?_, ?_, m7.trans h.flags, ?_, fun q hq => ?_, h.runs.trans hruns⟩
  · obtain ⟨h1, h2, h3⟩ := h.at_
    exact ⟨by rw [m2]; exact h1, by rw [m1]; exact h2, by rw [m1]; exact h3⟩
  · rw [m5]
    exact h.owner
  · rw [m4]
    exact h.status
  · intro d g
    rw [hcq, h.cq d g, m3]
  · obtain ⟨⟨r1, r2, r3, r4, r5, r6⟩, r7⟩ := h.rest q hq
    obtain ⟨⟨q1, q2, q3, q4, q5, q6⟩, q7⟩ := hm q
    exact ⟨⟨q1.trans r1, q2.trans r2, q3.trans r3, q4.trans r4, q5.trans r5, q6.trans r6⟩, q7.trans r7⟩

theorem Request.Unchanged.refl (r : Request) : r.Unchanged r := ⟨.refl r, rfl⟩

theorem NewRequest.fillWait {w w' : World} {p : Ptr} {c : Nat} {f : Flow} {flags : Nat}
    (h : NewRequest cfg w w' p c f flags) (d : Nat)
    (g : Flow) (r : Ptr) : NewRequest cfg w (w'.fillWait d g r) p c f flags := by
  refine h.same (fun q => ?_) rfl (.one .fill)
  simp only [World.fillWait]
  refine w'.setReq_rel (R := Request.Unchanged) .refl ?_ q
  exact ⟨⟨rfl, rfl, rfl, rfl, rfl, rfl⟩, rfl⟩

theorem NewRequest.enqueue {w w' : World} {p : Ptr} {c : Nat} {f : Flow} {flags : Nat}
    (h : NewRequest cfg w w' p c f flags) (s : Stream)
    (ops : List StreamOp) (hops : EnqueueOk cfg w' ops) : NewRequest cfg w (w'.enqueue s ops) p c f flags :=
  h.same (fun _ => .refl _) rfl (.one (.enqueue hops.1 hops.2))

/-! ## The calls -/

theorem start_ok {β : Type} {fn : Fn} {c rank : Nat} {type : ReqType} {st : State} {bld : Ptr → World → World}
    {rest : Ptr → M β} {x : β} {w : World} {tape : List Ans} {s' : Sys}
    (h : (newStreamRequest fn c rank type st >>= fun p => update (bld p) >>= fun _ => rest p) ⟨w, tape⟩ = (.ok x, s')) :
    rest w.nextFree ⟨bld w.nextFree (w.take fn c rank type st), tape⟩ = (.ok x, s') := by
  obtain ⟨p, s₁, h₁, h₂⟩ := Prog.bind_eq_ok h
  rcases newStreamRequest_run fn c rank type st ⟨w, tape⟩ with ⟨-, hrun⟩ | ⟨-, s'', hrun⟩
  · rw [hrun] at h₁
    cases h₁
    rw [Prog.bind_ok (update_run _ _ _)] at h₂
    exact h₂
  · rw [hrun] at h₁
    cases h₁

theorem enqueueOk_queueSend (w : World) (p : Ptr) : EnqueueOk cfg w [.queueSend p] :=
  enqueueOk_of_forall (by simp)

section Succeeds
variable {tape : List Ans} (ht : Succeeds tape)
include ht

theorem gdsPrepareWaitCq_run (c : Nat) (f : Flow) (p : Ptr) (w : World) :
    gdsPrepareWaitCq c f p ⟨w, tape⟩ = (.ok 0, ⟨w.fillWait c f p, tape.tail⟩) := by
  rw [gdsPrepareWaitCq, Prog.bind_ok (returnCode_run ht w)]
  rfl

theorem gdsPrepareSend_run (c : Nat) (p : Ptr) (w : World) :
    gdsPrepareSend c p ⟨w, tape⟩ = (.ok 0, ⟨w.fillSend c p, tape.tail⟩) := by
  rw [gdsPrepareSend, Prog.bind_ok (returnCode_run ht w)]
  rfl

theorem gdsPostWaitCq_run (p : Ptr) (w : World) : gdsPostWaitCq p ⟨w, tape⟩ = (.ok 0, ⟨w.give p, tape.tail⟩) := by
  rw [gdsPostWaitCq, Prog.bind_ok (update_run _ _ _)]
  exact returnCode_run ht _

theorem gdsPostSend_run (c : Nat) (p : Ptr) (w : World) :
    gdsPostSend c p ⟨w, tape⟩ = (.ok 0, ⟨w.accept c .tx p, tape.tail⟩) := by
  rw [gdsPostSend, Prog.bind_ok (returnCode_run ht w)]
  rfl

theorem gdsPostRecv_run (c : Nat) (p : Ptr) (w : World) :
    gdsPostRecv c p ⟨w, tape⟩ = (.ok 0, ⟨w.accept c .rx p, tape.tail⟩) := by
  rw [gdsPostRecv, Prog.bind_ok (returnCode_run ht w)]
  rfl

theorem gdsStreamQueueSend_run (s : Stream) (c : Nat) (p : Ptr) (w : World) :
    gdsStreamQueueSend s c p ⟨w, tape⟩ = (.ok 0, ⟨(w.accept c .tx p).enqueue s [.queueSend p], tape.tail⟩) := by
  rw [gdsStreamQueueSend, Prog.bind_ok (returnCode_run ht w)]
  rfl

theorem mpPostSend_run (c : Nat) (p : Ptr) (w : World) :
    mpPostSend cfg c p ⟨w, tape⟩ = (.ok 0, ⟨w.accept c .tx p, tape.tail⟩) := by
  rw [mpPostSend, postRetry, Prog.bind_ok (gdsPostSend_run ht c p w)]
  rfl

theorem mpPostRecv_run (c : Nat) (p : Ptr) (w : World) :
    mpPostRecv cfg c p ⟨w, tape⟩ = (.ok 0, ⟨w.accept c .rx p, tape.tail⟩) := by
  rw [mpPostRecv, postRetry, Prog.bind_ok (gdsPostRecv_run ht c p w)]
  rfl

theorem mpPostSendOnStream_run (s : Stream) (c : Nat) (p : Ptr) (w : World) : mpPostSendOnStream cfg s c p ⟨w, tape⟩ =
    (.ok 0, ⟨(w.accept c .tx p).enqueue s [.queueSend p], tape.tail⟩) := by
  rw [mpPostSendOnStream, Prog.bind_ok (Prog.get_run _), queueRetry, Prog.bind_ok (gdsStreamQueueSend_run ht s c p w)]
  rfl

variable {x : Int × Option Ptr} {w : World} {s' : Sys}

/-- `mp_isend` without event sync. -/
theorem mpIsend_new (he : cfg.useEventSync = false) {buf peer : Nat} {size : Int} {reg : Reg}
    (h : mpIsend cfg buf size peer reg ⟨w, tape⟩ = (.ok x, s')) :
    ∃ p c, x = (0, some p) ∧ NewRequest cfg w s'.w p c .tx 0 := by
  unfold mpIsend at h
  obtain ⟨c, hc, h₂⟩ := clientOf_bind_ok h
  have h₃ := start_ok h₂
  rw [Prog.bind_ok (mpPostSend_run ht _ _ _), if_neg (by decide)] at h₃
  dsimp only at h₃
  rw [he, if_pos (by decide), Prog.bind_ok (gdsPrepareWaitCq_run ht.tail _ _ _ _), if_neg (by decide)] at h₃
  cases h₃
  refine ⟨w.nextFree, c, rfl, NewRequest.fillWait (newRequest_accept hc (by decide) rfl (by decide) ?_ ?_) _ _ _⟩
  · exact fun r hf _ => buildSend_ok hf c 1 .sgEntry _
  · exact fun r hf => hf

/-- `mp_irecv` without event sync. -/
theorem mpIrecv_new (he : cfg.useEventSync = false) {buf peer : Nat} {size : Int} {reg : Reg}
    (h : mpIrecv cfg buf size peer reg ⟨w, tape⟩ = (.ok x, s')) :
    ∃ p c, x = (0, some p) ∧ NewRequest cfg w s'.w p c .rx 0 := by
  unfold mpIrecv at h
  obtain ⟨c, hc, h₂⟩ := clientOf_bind_ok h
  have h₃ := start_ok h₂
  rw [Prog.bind_ok (mpPostRecv_run ht _ _ _), if_neg (by decide)] at h₃
  dsimp only at h₃
  rw [he, if_pos (by decide), Prog.bind_ok (gdsPrepareWaitCq_run ht.tail _ _ _ _), if_neg (by decide)] at h₃
  cases h₃
  refine ⟨w.nextFree, c, rfl, NewRequest.fillWait (newRequest_accept hc (by decide) rfl (by decide) ?_ ?_) _ _ _⟩
  · exact fun r hf _ => buildRecv_ok hf buf size reg
  · intro r hf
    split <;> exact hf

/-- `mp_isend_on_stream` without event sync. -/
theorem mpIsendOnStream_new (he : cfg.useEventSync = false) {buf peer : Nat} {size : Int} {reg : Reg} {st : Stream}
    (h : mpIsendOnStream cfg buf size peer reg st ⟨w, tape⟩ = (.ok x, s')) :
    ∃ p c, x = (0, some p) ∧ NewRequest cfg w s'.w p c .tx 0 := by
  unfold mpIsendOnStream at h
  obtain ⟨c, hc, h₂⟩ := clientOf_bind_ok h
  rw [he, if_neg (by decide)] at h₂
  have h₃ := start_ok h₂
  rw [Prog.bind_ok (mpPostSendOnStream_run ht _ _ _ _), if_neg (by decide),
    Prog.bind_ok (gdsPrepareWaitCq_run ht.tail _ _ _ _), if_neg (by decide)] at h₃
  cases h₃
  refine ⟨w.nextFree, c, rfl, NewRequest.fillWait (NewRequest.enqueue
    (newRequest_accept hc (by decide) rfl (by decide) ?_ ?_) _ _ (enqueueOk_queueSend _ _)) _ _ _⟩
  · exact fun r hf _ => buildSend_ok hf c 1 .sgEntry _
  · exact fun r hf => hf

/-- `mp_iput`, of a put that is not to be waited for. -/
theorem mpIput_new {src peer displ flags : Nat} {size : Int} {reg : Reg} {win : Window} (hn : nowait flags = true)
    (h : mpIput cfg src size reg peer displ win flags ⟨w, tape⟩ = (.ok x, s')) (h0 : x.1 = 0) :
    ∃ p c, x = (0, some p) ∧ NewRequest cfg w s'.w p c .tx flags := by
  unfold mpIput at h
  split at h
  · cases h
    cases h0
  obtain ⟨c, hc, h₂⟩ := clientOf_bind_ok h
  obtain ⟨-, h₄⟩ := require_bind_ok h₂
  have h₅ := start_ok h₄
  rw [Prog.bind_ok (mpPostSend_run ht _ _ _), if_neg (by decide)] at h₅
  dsimp only at h₅
  rw [hn, if_neg (by decide)] at h₅
  cases h₅
  refine ⟨w.nextFree, c, rfl, newRequest_accept hc (by decide) rfl (by decide) ?_ ?_⟩
  · exact fun r _ ho => buildPut_ok ho rfl win c displ flags _
  · exact fun _ _ => rfl

/-- `mp_iput_on_stream`, of a put that can be waited for. -/
theorem mpIputOnStream_new {src peer displ flags : Nat} {size : Int} {reg : Reg} {win : Window} {st : Stream}
    (hn : nowait flags = false) (h : mpIputOnStream cfg src size reg peer displ win flags st ⟨w, tape⟩ = (.ok x, s'))
    (h0 : x.1 = 0) : ∃ p c, x = (0, some p) ∧ NewRequest cfg w s'.w p c .tx flags := by
  unfold mpIputOnStream at h
  split at h
  · cases h
    cases h0
  obtain ⟨c, hc, h₂⟩ := clientOf_bind_ok h
  obtain ⟨-, h₄⟩ := require_bind_ok h₂
  have h₅ := start_ok h₄
  unfold releaseOnError at h₅
  obtain ⟨ret, s₃, h₆, h₇⟩ := Prog.bind_eq_ok h₅
  rw [Prog.bind_ok (mpPostSendOnStream_run ht _ _ _ _), if_neg (by decide), hn, if_neg (by decide),
    gdsPrepareWaitCq_run ht.tail] at h₆
  cases h₆
  rw [if_neg (by decide)] at h₇
  cases h₇
  refine ⟨w.nextFree, c, rfl, NewRequest.fillWait (NewRequest.enqueue
    (newRequest_accept hc (by decide) rfl (by decide) ?_ ?_) _ _ (enqueueOk_queueSend _ _)) _ _ _⟩
  · exact fun r _ ho => buildPut_ok ho rfl win c displ flags _
  · exact fun _ _ => rfl

end Succeeds

end LibMp
