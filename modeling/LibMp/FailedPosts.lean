import LibMp.DescRuns
import LibMp.Refused

/- Posts that fail, and what they leave of the requests.

   A descriptor queue is flushed whatever the post returns, and the status of
   its requests was changed when they were added: after a failed post nobody
   waits for them and nobody sends them. `mp_wait_all_on_stream` makes its
   requests pending one by one before the one call that posts all the waits. -/
namespace LibMp
variable {cfg : Config}

/-! ## Queues -/

/-- The request a descriptor refers to. -/
def Desc.req : Desc → Option Ptr
  | .send p | .wait p => some p
  | .waitValue32 _ _ _ | .writeValue32 _ _ => none

/-- The request an add refers to. -/
def DescAdd.req (call : DescAdd) : Option Ptr := call.desc.req

/-- A failed post leaves the queue as it was, or its requests as they were
before they were added. The adds go from `w₀` to `w₁`, the post from there to
`w₂`. -/
def KeptOrUndone (dq : Nat) (w₀ w₁ w₂ : World) : Prop :=
  w₂.descQueues dq = w₁.descQueues dq ∨
    ∀ d ∈ w₁.descQueues dq, ∀ p, d.req = some p → (w₂.mem p).status = (w₀.mem p).status

/-- Adds since `w₀` have changed the status of the request at `p`. -/
def Touched (w₀ : World) (p : Ptr) (w : World) : Prop :=
  ((w.mem p).status = .pendingNowait ∧ (w₀.mem p).status = .prepared) ∨
    ((w.mem p).status = .pending ∧ (w₀.mem p).status ≠ .pending)

theorem Touched.ne {w₀ w : World} {p : Ptr} (h : Touched w₀ p w) : (w.mem p).status ≠ (w₀.mem p).status := by
  rcases h with ⟨h₁, h₂⟩ | ⟨h₁, h₂⟩
  · rw [h₁, h₂]
    decide
  · rw [h₁]
    exact h₂.symm

/-- One add: a request keeps its status, or its status is a new one. -/
theorem Added.touched {dq : Nat} {w₀ w w' : World} {call : DescAdd} {p : Ptr} (h : Added dq w call w')
    (hp : (w.mem p).status = (w₀.mem p).status ∨ Touched w₀ p w) :
    (call.req = some p → Touched w₀ p w') ∧ (Touched w₀ p w → Touched w₀ p w') ∧
      ((w'.mem p).status = (w₀.mem p).status ∨ Touched w₀ p w') := by
  -- a request that is not the one of the call keeps its status
  have hkeep : (w'.mem p).status = (w.mem p).status → call.req ≠ some p →
      (call.req = some p → Touched w₀ p w') ∧ (Touched w₀ p w → Touched w₀ p w') ∧
        ((w'.mem p).status = (w₀.mem p).status ∨ Touched w₀ p w') := by
    intro hs hne
    unfold Touched at hp ⊢
    rw [hs]
    exact ⟨fun hq => absurd hq hne, id, hp⟩
  have hnew : Touched w₀ p w' → (call.req = some p → Touched w₀ p w') ∧ (Touched w₀ p w → Touched w₀ p w') ∧
      ((w'.mem p).status = (w₀.mem p).status ∨ Touched w₀ p w') := fun ht => ⟨fun _ => ht, fun _ => ht, .inr ht⟩
  have hwait : ∀ q, ((w.mem q).status = .pendingNowait ∨ (w.mem q).status = .complete) → q = p →
      Touched w₀ p (w.pushFor dq (.wait q) q .pending) := by
    rintro q hst rfl
    right
    rw [w.pushFor_self]
    refine ⟨rfl, ?_⟩
    rcases hp with hp | ⟨-, hp⟩ | ⟨hp, -⟩
    · rw [← hp]
      rcases hst with hst | hst <;> rw [hst] <;> decide
    · rw [hp]
      decide
    · rcases hst with hst | hst <;> rw [hst] at hp <;> cases hp
  cases h with
  -- a send asks for `MP_PREPARED`, which no add leaves behind
  | @send q htx hst =>
    by_cases hq : q = p
    · subst hq
      refine hnew (.inl ?_)
      rw [w.pushFor_self]
      refine ⟨rfl, ?_⟩
      rcases hp with hp | ⟨hp, -⟩ | ⟨hp, -⟩
      · rw [← hp, hst]
      · rw [hst] at hp
        cases hp
      · rw [hst] at hp
        cases hp
    · exact hkeep (by rw [w.pushFor_other _ _ _ _ (Ne.symm hq)]) (fun h => hq (Option.some.inj h))
  | @waitSend q htx hcan hst =>
    by_cases hq : q = p
    · exact hnew (hwait q hst hq)
    · exact hkeep (by rw [w.pushFor_other _ _ _ _ (Ne.symm hq)]) (fun h => hq (Option.some.inj h))
  | @waitRecv q hst =>
    by_cases hq : q = p
    · exact hnew (hwait q hst hq)
    · exact hkeep (by rw [w.pushFor_other _ _ _ _ (Ne.symm hq)]) (fun h => hq (Option.some.inj h))
  | waitValue32 => exact hkeep rfl (by simp [DescAdd.req, DescAdd.desc, Desc.req])
  | writeValue32 => exact hkeep rfl (by simp [DescAdd.req, DescAdd.desc, Desc.req])

theorem Added.queue {dq : Nat} {w w' : World} {call : DescAdd} (h : Added dq w call w') :
    w'.descQueues dq = w.descQueues dq ++ [call.desc] := by
  cases h with
  | send => exact w.pushFor_queue dq _ _ _
  | waitSend => exact w.pushFor_queue dq _ _ _
  | waitRecv => exact w.pushFor_queue dq _ _ _
  | waitValue32 => simp [World.pushDesc, DescAdd.desc]
  | writeValue32 => simp [World.pushDesc, DescAdd.desc]

/-- Adds that return: the queue holds their descriptors, and every request they
refer to has a new status. -/
theorem adds_leave {dq : Nat} {w₀ : World} {calls : List DescAdd} {s s' : Sys} {ret : Int}
    (h : callEach (DescAdd.add dq) calls s = (.ok ret, s'))
    (hp : ∀ p, (s.w.mem p).status = (w₀.mem p).status ∨ Touched w₀ p s.w) :
    s'.w.descQueues dq = s.w.descQueues dq ++ calls.map DescAdd.desc ∧
      ∀ p, (Touched w₀ p s.w ∨ ∃ call ∈ calls, call.req = some p) → Touched w₀ p s'.w := by
  induction calls generalizing s with
  | nil =>
    cases h
    refine ⟨by simp, fun p hp => ?_⟩
    rcases hp with hp | ⟨call, hc, -⟩
    · exact hp
    · cases hc
  | cons call rest ih =>
    obtain ⟨ret₁, s₁, h₁, h₂⟩ := Prog.bind_eq_ok h
    obtain ⟨rfl, hadd⟩ := DescAdd.add_ok h₁
    rw [if_neg (by decide)] at h₂
    obtain ⟨hq, ht⟩ := ih h₂ fun p => (hadd.touched (hp p)).2.2
    refine ⟨?_, fun p hor => ht p ?_⟩
    · rw [hq, hadd.queue, List.append_assoc]
      rfl
    · obtain ⟨hnew, hold, -⟩ := hadd.touched (hp p)
      rcases hor with hor | ⟨c, hc, hreq⟩
      · exact .inl (hold hor)
      · rcases List.mem_cons.mp hc with rfl | hc
        · exact .inl (hnew hreq)
        · exact .inr ⟨c, hc, hreq⟩

/-- A post that fails empties the queue and does nothing else. -/
theorem mpDescQueuePostOnStream_fails {s : Stream} {dq : Nat} {st st' : Sys} {ret : Int}
    (h : mpDescQueuePostOnStream s dq st = (.ok ret, st')) (hret : ret ≠ 0) :
    st.w.descQueues dq ≠ [] ∧ st'.w = st.w.flushDescs dq := by
  obtain ⟨w, s₁, h₁, h₂⟩ := Prog.bind_eq_ok h
  cases h₁
  split at h₂
  · cases h₂
    exact absurd rfl hret
  · rename_i hq
    obtain ⟨rc, s₂, h₃, h₄⟩ := Prog.bind_eq_ok h₂
    have hw := returnCode_ok h₃
    dsimp only at h₄
    split at h₄
    · rename_i hrc
      cases h₄
      exact absurd hrc hret
    · cases h₄
      refine ⟨hq, ?_⟩
      show s₂.w.flushDescs dq = _
      rw [hw]

/-- Any sequence of adds to an empty queue, and a post of it that fails: the
queue is as it was, or the requests are as they were, exactly if no descriptor
refers to a request. -/
theorem failed_post_keeps_or_undoes {w₀ : World} {dq : Nat} (hdq : w₀.descQueues dq = []) {calls : List DescAdd}
    {tape : List Ans} {s₁ s₂ : Sys} (st : Stream) {ret : Int}
    (hadds : callEach (DescAdd.add dq) calls ⟨w₀, tape⟩ = (.ok 0, s₁))
    (hpost : mpDescQueuePostOnStream st dq s₁ = (.ok ret, s₂)) (hret : ret ≠ 0) :
    KeptOrUndone dq w₀ s₁.w s₂.w ↔ ∀ call ∈ calls, call.req = none := by
  -- a failed post has flushed a queue that was not empty, and done nothing else
  obtain ⟨hne, hw⟩ := mpDescQueuePostOnStream_fails hpost hret
  obtain ⟨hqueue, htouched⟩ := adds_leave hadds fun p => .inl rfl
  have hmem : ∀ d, d ∈ s₁.w.descQueues dq ↔ ∃ call ∈ calls, call.desc = d := by
    intro d
    rw [hqueue, hdq, List.nil_append, List.mem_map]
  constructor
  · rintro (hkept | hundone) call hc
    · rw [hw] at hkept
      exact absurd hkept.symm (by simpa [World.flushDescs] using hne)
    · cases hreq : call.req with
      | none => rfl
      | some p =>
        have hst := hundone call.desc ((hmem _).mpr ⟨call, hc, rfl⟩) p hreq
        rw [hw] at hst
        exact absurd hst (htouched p (.inr ⟨call, hc, hreq⟩)).ne
  · intro hnone
    right
    intro d hd p hreq
    obtain ⟨call, hc, rfl⟩ := (hmem d).mp hd
    have hno := hnone call hc
    rw [DescAdd.req, hreq] at hno
    cases hno

/-- A queue with a wait between two writes, and a prepared send that is not in it. -/
theorem failed_post_keeps_or_undoes_words : ∃ w s₁ s₂, w = World.init.after onePeer [prepareOne] ∧
    callEach (DescAdd.add 0) [.writeValue32 0 1, .waitValue32 4 1 .geq, .writeValue32 8 1] ⟨w, firstFails⟩ =
      (.ok 0, s₁) ∧ (s₁.w.descQueues 0).length = 3 ∧
    mpDescQueuePostOnStream 0 0 s₁ = (.ok einval, s₂) ∧ KeptOrUndone 0 w s₁.w s₂.w := by
  have hadds : callEach (DescAdd.add 0) [.writeValue32 0 1, .waitValue32 4 1 .geq, .writeValue32 8 1]
      ⟨World.init.after onePeer [prepareOne], firstFails⟩ = (.ok 0, _) := rfl
  have hagree := failed_post_keeps_or_undoes rfl 0 hadds rfl (by decide)
  refine ⟨_, _, _, rfl, hadds, rfl, rfl, hagree.mpr fun call hc => ?_⟩
  simp only [List.mem_cons, List.not_mem_nil, or_false] at hc
  rcases hc with rfl | rfl | rfl <;> rfl

/-- The post of a queue with a prepared send fails: the queue is empty, and the
request is pending. -/
theorem failed_post_loses_a_send : ∃ w s₁ s₂, w = World.init.after onePeer [prepareOne] ∧ (w.mem 0).status = .prepared ∧
    callEach (DescAdd.add 0) [.send 0] ⟨w, firstFails⟩ = (.ok 0, s₁) ∧
    mpDescQueuePostOnStream 0 0 s₁ = (.ok einval, s₂) ∧ s₂.w.descQueues 0 = [] ∧
    (s₂.w.mem 0).status = .pendingNowait ∧ ¬ KeptOrUndone 0 w s₁.w s₂.w := by
  refine ⟨_, _, _, rfl, by decide, rfl, rfl, by decide, by decide, ?_⟩
  rintro (hkept | hundone)
  · exact absurd hkept (by decide)
  · exact absurd (hundone (.send 0) (by decide) 0 rfl) (by decide)

/-! ## Waits -/

/-- Nothing made pending becomes anything else, and the requests stay what they
are. -/
structure PendsOnly (w w' : World) : Prop where
  type : ∀ p, (w'.mem p).type = (w.mem p).type
  flags : ∀ p, (w'.mem p).flags = (w.mem p).flags
  pending : ∀ p, (w.mem p).status = .pending → (w'.mem p).status = .pending

instance : IsPreorder World PendsOnly where
  refl _ := ⟨fun _ => rfl, fun _ => rfl, fun _ h => h⟩
  trans _ _ _ h h' := {
    type := fun p => (h'.type p).trans (h.type p)
    flags := fun p => (h'.flags p).trans (h.flags p)
    pending := fun p hp => h'.pending p (h.pending p hp) }

theorem pendsOnly_of_mem {w w' : World} (h : w'.mem = w.mem) : PendsOnly w w' := by
  constructor
  · intro p
    rw [h]
  · intro p
    rw [h]
  · intro p hp
    rwa [h]

theorem pendsOnly_pend (s : Stream) (p : Ptr) (w : World) :
    PendsOnly w (w.setReq p fun r => { r with stream := some s, status := .pending }) := by
  constructor
  · intro q
    by_cases hq : q = p <;> simp [hq]
  · intro q
    by_cases hq : q = p <;> simp [hq]
  · intro q hst
    by_cases hq : q = p <;> simp [hq, hst]

theorem pendsOnly_waitAllCopy (s : Stream) (ps : List Ptr) : Stays PendsOnly (waitAllCopy s ps) :=
  Stays.waitAllCopy (fun w p => pendsOnly_pend s p w) ps

theorem pendsOnly_gdsStreamPostWaitCqAll (s : Stream) (ps : List Ptr) (infos : List (Option WaitInfo)) :
    Stays PendsOnly (gdsStreamPostWaitCqAll s ps infos) :=
  Stays.gdsStreamPostWaitCqAll (fun _ _ => pendsOnly_of_mem rfl) (fun _ _ _ => pendsOnly_of_mem rfl) s ps infos

/-- `mp_wait_all_on_stream` on a list that starts with a request that can be
waited for, if it returns: the request is pending. -/
theorem mpWaitAllOnStream_pends (he : cfg.useEventSync = false) {p : Ptr} {rest : List Ptr} {s : Stream} {st st' : Sys}
    {ret : Int} (hcan : (st.w.mem p).canBeWaited = true)
    (h : mpWaitAllOnStream cfg (p :: rest) s st = (.ok ret, st')) :
    (st.w.mem p).type ≠ .null ∧ PendsOnly st.w st'.w ∧ (st'.w.mem p).status = .pending := by
  rw [mpWaitAllOnStream, if_neg (List.cons_ne_nil _ _), if_neg (by simp [he])] at h
  obtain ⟨x, s₁, h₁, h₂⟩ := Prog.bind_eq_ok h
  -- what comes after the gathering loop
  have htail : PendsOnly s₁.w st'.w := by
    dsimp only at h₂
    split at h₂
    · cases h₂
      exact refl_of PendsOnly _
    · exact (pendsOnly_gdsStreamPostWaitCqAll s (p :: rest) x.2).run h₂
  rw [waitAllCopy, Prog.bind_ok (request_run p st.w st.tape)] at h₁
  obtain ⟨hty, h₄⟩ := require_bind_ok h₁
  rw [if_neg (by simp [hcan])] at h₄
  obtain ⟨-, h₆⟩ := require_bind_ok h₄
  rw [Prog.bind_ok (update_run _ _ _)] at h₆
  obtain ⟨y, s₄, h₇, h₈⟩ := Prog.bind_eq_ok h₆
  cases h₈
  have hrest := trans_of PendsOnly ((pendsOnly_waitAllCopy s rest).run h₇) htail
  exact ⟨of_decide_eq_true hty, trans_of PendsOnly (pendsOnly_pend s p st.w) hrest, hrest.pending p (by simp)⟩

/-- A later `mp_wait` on the request, as far as its first loop, posts the CQ
wait of the request. -/
def StillPosts (cfg : Config) (w : World) (p : Ptr) : Prop :=
  ∀ tape ret s', postWaits cfg [p] ⟨w, tape⟩ = (.ok ret, s') →
    .given p (w.mem p).id (w.mem p).gdsWaitInfo ∈ newLog w s'.w

/-- A request that is pending is taken for one that is waited for already. -/
theorem not_stillPosts {w : World} {p : Ptr} (hty : (w.mem p).type ≠ .null) (hcan : (w.mem p).canBeWaited = true)
    (hst : (w.mem p).status = .pending) : ¬ StillPosts cfg w p := by
  intro h
  have hrun : postWaits cfg [p] ⟨w, []⟩ = (.ok 0, ⟨w, []⟩) := by
    rw [postWaits, Prog.bind_ok (request_run p w []), Prog.bind_ok (require_run (decide_eq_true hty) .assertType _),
      if_neg (by simp [hcan]), if_neg (by simp [hst])]
    rfl
  have hin := h [] 0 _ hrun
  simp [newLog] at hin

/-- Without event sync, any list of requests nobody has waited for yet: when
`mp_wait_all_on_stream` returns an error, all of them have the status they had,
and those before the first that cannot be waited for can still be waited for,
exactly if the first of the list cannot be waited for. -/
theorem failed_wait_all_keeps_statuses (he : cfg.useEventSync = false) {w : World} {ps : List Ptr}
    (hps : ∀ p ∈ ps, (w.mem p).status = .pendingNowait) {s : Stream} {tape : List Ans} {ret : Int} {s' : Sys}
    (h : mpWaitAllOnStream cfg ps s ⟨w, tape⟩ = (.ok ret, s')) (hret : ret ≠ 0) :
    ((∀ p ∈ ps, (s'.w.mem p).status = (w.mem p).status) ↔ ∃ p ∈ ps.head?, (w.mem p).canBeWaited = false) ∧
    ((∀ p ∈ ps.takeWhile fun p => (w.mem p).canBeWaited, StillPosts cfg s'.w p) ↔
      ∃ p ∈ ps.head?, (w.mem p).canBeWaited = false) := by
  cases ps with
  | nil =>
    cases h
    exact absurd rfl hret
  | cons p rest =>
    simp only [List.head?_cons, Option.mem_some_iff, exists_eq_left']
    cases hcan : (w.mem p).canBeWaited with
    | true =>
      -- the first turn makes the first request pending, and nothing undoes it
      obtain ⟨hty, hpo, hst⟩ := mpWaitAllOnStream_pends he hcan h
      have hcan' : (s'.w.mem p).canBeWaited = true := by
        rw [← hcan, Request.canBeWaited, Request.canBeWaited, hpo.type, hpo.flags]
      refine ⟨⟨fun hall => ?_, fun hf => by cases hf⟩, ⟨fun hall => ?_, fun hf => by cases hf⟩⟩
      · have heq := hall p List.mem_cons_self
        rw [hst, hps p List.mem_cons_self] at heq
        cases heq
      · refine absurd (hall p ?_) (not_stillPosts (by rw [hpo.type]; exact hty) hcan' hst)
        simp [hcan]
    | false =>
      -- the first turn ends the call
      rw [mpWaitAllOnStream, if_neg (List.cons_ne_nil _ _), if_neg (by simp [he])] at h
      obtain ⟨x, s₁, h₁, h₂⟩ := Prog.bind_eq_ok h
      rw [waitAllCopy, Prog.bind_ok (request_run p w tape)] at h₁
      obtain ⟨-, h₄⟩ := require_bind_ok h₁
      rw [if_pos (by simp [hcan])] at h₄
      cases h₄
      dsimp only at h₂
      rw [if_pos (by decide)] at h₂
      cases h₂
      refine ⟨⟨fun _ => rfl, fun _ q _ => rfl⟩, ⟨fun _ => rfl, fun _ q hq => ?_⟩⟩
      simp [hcan] at hq

/-- A put that is not to be waited for. -/
def iputOne : Event := .call (.iput 0 8 ⟨0⟩ 1 0 wideWindow mpPutNowait) []

/-- The put is the first of the list. -/
theorem failed_wait_all_keeps_statuses_put : ∃ w s', w = World.init.after onePeer [iputOne, sendOne] ∧
    mpWaitAllOnStream onePeer [0, 1] 0 ⟨w, []⟩ = (.ok einval, s') ∧
    ∀ p ∈ [0, 1], (s'.w.mem p).status = (w.mem p).status := by
  have hrun : mpWaitAllOnStream onePeer [0, 1] 0 ⟨World.init.after onePeer [iputOne, sendOne], []⟩ =
    (.ok einval, _) := rfl
  exact ⟨_, _, rfl, hrun, (failed_wait_all_keeps_statuses rfl (by decide) hrun (by decide)).1.mpr ⟨0, rfl, by decide⟩⟩

/-- The put comes second: the call fails, the send before it is pending, and a
later `mp_wait` on the send posts no wait. -/
theorem failed_wait_all_leaves_pending : ∃ w s', w = World.init.after onePeer [sendOne, iputOne] ∧
    (w.mem 0).status = .pendingNowait ∧ (w.mem 1).status = .pendingNowait ∧
    mpWaitAllOnStream onePeer [0, 1] 0 ⟨w, []⟩ = (.ok einval, s') ∧ (s'.w.mem 0).status = .pending ∧
    postWaits onePeer [0] s' = (.ok 0, s') ∧ ¬ StillPosts onePeer s'.w 0 := by
  refine ⟨_, _, rfl, by decide, by decide, rfl, by decide, rfl, ?_⟩
  exact not_stillPosts (by decide) (by decide) (by decide)

end LibMp
