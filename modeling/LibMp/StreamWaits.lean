import LibMp.Line
import LibMp.PostedList

/- The waits the library enqueues on streams, with event sync.

   A stream wait waits for `last_tracked_id` of a client and flow to reach the
   id of a request, and arms the request, so that its completion stores the id.
   No stream is left waiting where the armed requests will complete: they are
   accepted or on a posted list (`WaitInv`), and their work requests are
   signaled, which the ones of puts with `MP_PUT_NOWAIT` are not. -/
namespace LibMp
variable {cfg : Config} {Good : Ans → Prop}

/-- The work request of operation `op` of the request at `p` was accepted, or
the request was appended to the posted list. -/
def PostedOp (log : List LogEv) (c : Nat) (f : Flow) (p : Ptr) (op : Nat) : Prop :=
  .accepted c f p op ∈ log ∨ f = .tx ∧ ∃ s, .tracked c p op s ∈ log

/-- A request is armed when it is posted and will complete. -/
def armsSignaled : Lbl → Mach → Prop
  | .arm c f p, a => PostedOp a.w.log c f p (a.w.mem p).id ∧ nowait (a.w.mem p).flags = false
  | _, _ => True

/-- See the head of the file. -/
structure WaitInv (cfg : Config) (a : Mach) (pl : Nat → List Ptr) : Prop where
  ids : TrackedIds cfg a
  ops_le : ∀ c f p op, PostedOp a.w.log c f p op → op ≤ (a.w.clients c).lastReqId
  cur_fresh : ∀ k c f, a.cur = some k → a.w.At cfg k.ptr c f → ¬ PostedOp a.w.log c f k.ptr (a.w.mem k.ptr).id
  signaled : ∀ c f, ∀ p ∈ lineOf a.w pl c f, nowait (a.w.mem p).flags = false
  /-- what was posted and will complete has its place in line until it does -/
  posted_line : ∀ c f p, (a.w.mem p).owner ≠ none → a.w.At cfg p c f →
    PostedOp a.w.log c f p (a.w.mem p).id → nowait (a.w.mem p).flags = false → (a.w.mem p).status ≠ .complete →
    p ∈ lineOf a.w pl c f
  armed_line : ∀ c f p, a.w.Armed cfg p c f → p ∈ lineOf a.w pl c f
  done : ∀ c f p, (a.w.mem p).owner ≠ none → a.w.At cfg p c f → (a.w.mem p).trigger = true →
    (a.w.mem p).status = .complete → (a.w.mem p).id ≤ (a.w.clients c).lastTrackedId f
  waits : ∀ s c f v, .wait (.lastTrackedId c f) v .geq ∈ (a.w.streams s).todo →
    v ≤ (a.w.clients c).lastTrackedId f ∨ ∃ p, a.w.Armed cfg p c f ∧ (a.w.mem p).id = v
  ran : ∀ s k c f v, .ran s k (.wait (.lastTrackedId c f) v .geq) ∈ a.w.log →
    v ≤ (a.w.clients c).lastTrackedId f

section Step
variable {a b : Mach} {l : Lbl} {fl : List Ptr} {pl : Nat → List Ptr} {c : Nat} {f : Flow} {p : Ptr} {op : Nat}

/-- The step that posts an operation. -/
theorem postedOp_step (hs : Step cfg Good l a b) (h : PostedOp b.w.log c f p op) :
    PostedOp a.w.log c f p op ∨ op = (a.w.mem p).id ∧
      (l = .accept c f p ∨ f = .tx ∧ ((∃ g, l = .handOver c g p) ∨ ∃ s, l = .track c p s)) := by
  rw [PostedOp, step_log hs] at h
  simp only [List.mem_append] at h
  rcases h with (hold | hnew) | ⟨rfl, s, hold | hnew⟩
  · exact .inl (.inl hold)
  · refine .inr ?_
    cases l with
    | accept d g q => simp only [Lbl.log, List.mem_singleton] at hnew; cases hnew; exact ⟨rfl, .inl rfl⟩
    | handOver d g q =>
      simp only [Lbl.log, List.mem_cons, List.not_mem_nil, or_false, reduceCtorEq] at hnew
      cases hnew
      exact ⟨rfl, .inr ⟨rfl, .inl ⟨g, rfl⟩⟩⟩
    | gpu s =>
      obtain ⟨o, rest, -, -, he⟩ := mem_log_gpu hnew
      cases he
    | reap d g k =>
      obtain ⟨wr, -, he⟩ := mem_log_reap hnew
      cases he
    | _ => simp [Lbl.log] at hnew
  · exact .inl (.inr ⟨rfl, s, hold⟩)
  · refine .inr ?_
    cases l with
    | track d q t =>
      simp only [Lbl.log, List.mem_singleton] at hnew
      cases hnew
      exact ⟨rfl, .inr ⟨rfl, .inr ⟨_, rfl⟩⟩⟩
    | gpu s =>
      obtain ⟨o, rest, -, -, he⟩ := mem_log_gpu hnew
      cases he
    | reap d g k =>
      obtain ⟨wr, -, he⟩ := mem_log_reap hnew
      cases he
    | _ => simp [Lbl.log] at hnew

theorem WaitInv.ops_le_step (hc : Core cfg a fl pl) (h : WaitInv cfg a pl) (hs : Step cfg Good l a b)
    (hp : PostedOp b.w.log c f p op) : op ≤ (b.w.clients c).lastReqId := by
  have hmono := step_lastReqId_le hs c
  rcases postedOp_step hs hp with hold | ⟨rfl, rfl | ⟨rfl, ⟨g, rfl⟩ | ⟨s, rfl⟩⟩⟩
  · exact Nat.le_trans (h.ops_le c f p op hold) hmono
  · cases hs with
    | accept _ hat => exact Nat.le_trans (hc.id_le p c (hc.cur_ok _ rfl).1 hat.1) hmono
  · cases hs with
    | handOver _ hhead =>
      obtain ⟨-, rest, hpl, -⟩ := hc.handOver hhead
      obtain ⟨ho, hat, -⟩ := hc.posted_mem c p (by rw [hpl]; exact List.mem_cons_self)
      exact Nat.le_trans (hc.id_le p c ho hat.1) hmono
  · cases hs with
    | track _ hat => exact Nat.le_trans (hc.id_le p c (hc.cur_ok _ rfl).1 hat.1) hmono

theorem WaitInv.cur_fresh_step (hc : Core cfg a fl pl) (h : WaitInv cfg a pl) (hs : Step cfg Good l a b) {k : Cur}
    (hcur : b.cur = some k) (hat : b.w.At cfg k.ptr c f) : ¬ PostedOp b.w.log c f k.ptr (b.w.mem k.ptr).id := by
  intro hp
  rcases postedOp_step hs hp with hold | ⟨-, rfl | ⟨rfl, ⟨g, rfl⟩ | ⟨s, rfl⟩⟩⟩
  · rcases step_hand hs hcur with ⟨k', hk', hptr, -⟩ | ⟨fn, d, rfl, hptr⟩ | ⟨d, rfl, -⟩
    · obtain ⟨ho, -⟩ := hc.cur_ok k' hk'
      rw [← hptr] at hat hold
      rcases step_held ⟨fl, pl, hc⟩ hs ho with rfl | ⟨h1, h2, h3, -⟩
      · cases hs; cases hk'
      · rw [World.At, h1, h2] at hat
        rw [h3] at hold
        exact h.cur_fresh k' c f hk' hat hold
    · -- a request just taken has an id no operation has had
      obtain ⟨hpeer, hid, -⟩ := step_taken hs
      rw [hptr] at hat hold
      obtain rfl : d = c := Option.some.inj (hpeer.symm.trans hat.1)
      have := h.ops_le d f _ _ hold
      omega
    · cases hs with
      | stamp _ hat' hpre =>
        rcases hpre with hk' | ⟨ho, -, hlt⟩
        · exact h.cur_fresh _ c f hk' hat hold
        · obtain ⟨rfl, rfl⟩ := hat'.unique hat
          obtain ⟨hst, hcq, hpl, -⟩ := hc.prepared_ok k.ptr d ho hat hlt
          have hflags := hc.flags_ok k.ptr _ ho rfl
          -- posted for its id it would stand in line, and a prepared request stands nowhere
          have hin := h.posted_line d .tx k.ptr (by rw [ho]; simp) hat hold (by rw [hflags]; exact nowait_zero)
            (by rw [hst]; decide)
          rcases List.mem_append.mp hin with hin | hin
          · obtain ⟨wr, hwr, heq⟩ := List.mem_map.mp hin
            exact hcq d .tx wr hwr heq
          · exact hpl d hin
  · cases hs; cases hcur
  · cases hs with
    | handOver _ hhead =>
      obtain ⟨-, rest, hpl, -⟩ := hc.handOver hhead
      exact (hc.cur_ok k hcur).2.2.1.2.1 c (by rw [hpl]; exact List.mem_cons_self)
  · cases hs; cases hcur

theorem WaitInv.signaled_step (hc : Core cfg a fl pl) (h : WaitInv cfg a pl) (hs : Step cfg Good l a b)
    (hp : p ∈ lineOf b.w (l.posted pl) c f) : nowait (b.w.mem p).flags = false := by
  rcases line_new hc hs hp with hold | hnew
  · rcases step_flags ⟨fl, pl, hc⟩ hs (hc.line_mem hold).1 with heq | ⟨k, hk, rfl⟩
    · rw [heq]
      exact h.signaled c f p hold
    · exact absurd hold (hc.cur_not_line hk)
  · exact hnew

theorem WaitInv.posted_line_step (he : cfg.useEventSync = true) (hc : Core cfg a fl pl) (h : WaitInv cfg a pl)
    (hs : Step cfg Good l a b)
    (ho : (b.w.mem p).owner ≠ none) (hat : b.w.At cfg p c f) (hpost : PostedOp b.w.log c f p (b.w.mem p).id)
    (hn : nowait (b.w.mem p).flags = false) (hst : (b.w.mem p).status ≠ .complete) :
    p ∈ lineOf b.w (l.posted pl) c f := by
  have hline := step_line hc hs c f
  rcases postedOp_step hs hpost with hold | ⟨-, rfl | ⟨rfl, ⟨g, rfl⟩ | ⟨s, rfl⟩⟩⟩
  · by_cases hoa : (a.w.mem p).owner = none
    · -- a request just taken has an id no operation has had
      obtain ⟨fn, d, rfl, hpeer, hid, -⟩ := step_fresh hs hoa ho
      obtain rfl : d = c := Option.some.inj (hpeer.symm.trans hat.1)
      have := h.ops_le d f _ _ hold
      omega
    · rcases step_held ⟨fl, pl, hc⟩ hs hoa with rfl | ⟨h1, h2, h3, -⟩
      · cases hs
        simp [World.release] at ho
      · rw [World.At, h1, h2] at hat
        rw [h3] at hold
        rcases step_flags ⟨fl, pl, hc⟩ hs hoa with hfl | ⟨k, hk, rfl⟩
        · rw [hfl] at hn
          refine line_keep hc hs (h.posted_line c f p hoa hat hold hn fun hcomp => ?_) hst
          rcases complete_keep he ⟨fl, pl, hc⟩ hs hoa hcomp with rfl | hcomp'
          · cases hs
            simp [World.release] at ho
          · exact hst hcomp'
        · exact absurd hold (h.cur_fresh k c f hk hat)
  · -- posted by the CPU
    dsimp only at hline
    cases hs with
    | accept _ hat' =>
      rw [hline, if_pos ⟨⟨rfl, rfl⟩, hn⟩]
      exact List.mem_append_right _ List.mem_cons_self
  · -- handed over from the posted list
    cases hs with
    | handOver _ hhead =>
      obtain ⟨-, rest, hpl, -⟩ := hc.handOver hhead
      rw [show lineOf _ _ c .tx = lineOf _ pl c .tx from hline]
      exact List.mem_append_right _ (by rw [postedOf, hpl]; exact List.mem_cons_self)
  · -- appended to the posted list
    dsimp only at hline
    rw [hline, if_pos ⟨rfl, rfl⟩]
    exact List.mem_append_right _ (List.mem_singleton.mpr rfl)

theorem WaitInv.armed_line_step (he : cfg.useEventSync = true) (hc : Core cfg a fl pl) (h : WaitInv cfg a pl)
    (hk : armsSignaled l a) (hs : Step cfg Good l a b) (hp : b.w.Armed cfg p c f) :
    p ∈ lineOf b.w (l.posted pl) c f := by
  refine line_keep hc hs ?_ hp.status
  obtain ⟨-, hold | rfl | ⟨rfl, rfl⟩⟩ := step_armed he hs hp
  · exact h.armed_line c f p hold
  · cases hs with
    | arm _ hat ho hst => exact h.posted_line c f p ho hat hk.1 hk.2 hst
  · cases hs with
    | armTail _ _ htail =>
      exact List.mem_append_right _ (hc.tail_mem htail)

theorem WaitInv.done_step (he : cfg.useEventSync = true) (hc : Core cfg a fl pl) (h : WaitInv cfg a pl)
    (hs : Step cfg Good l a b) (ho : (b.w.mem p).owner ≠ none) (hat : b.w.At cfg p c f)
    (ht : (b.w.mem p).trigger = true) (hst : (b.w.mem p).status = .complete) :
    (b.w.mem p).id ≤ (b.w.clients c).lastTrackedId f := by
  have hmono := step_lastTrackedId_le he h.ids.no_writes hs c f
  cases step_req hs p with
  | same hsame =>
    obtain ⟨h1, h2, h3, h4, h5, h6⟩ := hsame
    rw [World.At, h1, h2] at hat
    rw [h5] at ho
    rw [h6] at ht
    rw [h4] at hst
    rw [h3]
    exact Nat.le_trans (h.done c f p ho hat ht hst) hmono
  | take _ _ _ _ _ _ htr => rw [htr] at ht; cases ht
  | release _ ho' => exact absurd ho' ho
  | reap hk hid hup hpd =>
    obtain ⟨h1, h2, h3, h4, h5⟩ := hup
    rw [World.At, h1, h2] at hat
    have harm : a.w.Armed cfg p c f := by
      refine ⟨by rw [← h4]; exact ho, hat, by rw [← h5]; exact ht, fun hcomp => ?_⟩
      rw [hcomp] at hpd
      exact hpd
    -- its own completion raises the word to its id
    obtain ⟨-, hb | ⟨-, heq⟩⟩ := armed_keep he ⟨fl, pl, hc⟩ h.ids.no_writes hs harm
    · exact absurd hst hb.status
    · rw [heq, h3]
  | handOver _ _ hst' => rw [hst'] at hst; cases hst
  | waitCpu _ _ hst' => rw [hst'] at hst; cases hst
  | waitStream _ _ hst' => rw [hst'] at hst; cases hst
  | arm heq =>
    rw [heq] at hst
    cases hs with
    | arm _ _ _ hst' => exact absurd hst hst'
  | armTail heq =>
    rw [heq] at hst
    cases hs with
    | armTail _ _ htail =>
      have hprep := (hc.posted_mem _ p (hc.tail_mem htail)).2.2.1
      rw [hst] at hprep
      cases hprep

theorem WaitInv.waits_step (he : cfg.useEventSync = true) (hc : Core cfg a fl pl) (h : WaitInv cfg a pl)
    (hs : Step cfg Good l a b) {s : Stream} {v : Nat} (hw : .wait (.lastTrackedId c f) v .geq ∈ (b.w.streams s).todo) :
    v ≤ (b.w.clients c).lastTrackedId f ∨ ∃ p, b.w.Armed cfg p c f ∧ (b.w.mem p).id = v := by
  have hmono := step_lastTrackedId_le he h.ids.no_writes hs c f
  rcases step_todo hs hw with hold | ⟨ops, rfl, hnew⟩
  · rcases h.waits s c f v hold with hle | ⟨p, hp, rfl⟩
    · exact .inl (Nat.le_trans hle hmono)
    · obtain ⟨hid, hb | ⟨-, heq⟩⟩ := armed_keep he ⟨fl, pl, hc⟩ h.ids.no_writes hs hp
      · exact .inr ⟨p, hb, hid⟩
      · exact .inl (Nat.le_of_eq heq.symm)
  · cases hs with
    | @enqueue w cur _ _ _ hops =>
      obtain ⟨-, p, hat, ho, rfl, ht⟩ := hops c f v .geq hnew
      by_cases hst : (w.mem p).status = .complete
      · exact .inl (h.done c f p ho hat ht hst)
      · exact .inr ⟨p, ⟨ho, hat, ht, hst⟩, rfl⟩

theorem WaitInv.ran_step (he : cfg.useEventSync = true) (h : WaitInv cfg a pl) (hs : Step cfg Good l a b) {s : Stream}
    {k v : Nat} (hw : .ran s k (.wait (.lastTrackedId c f) v .geq) ∈ b.w.log) :
    v ≤ (b.w.clients c).lastTrackedId f := by
  refine Nat.le_trans ?_ (step_lastTrackedId_le he h.ids.no_writes hs c f)
  rw [step_log hs] at hw
  rcases List.mem_append.mp hw with hold | hnew
  · exact h.ran s k c f v hold
  · clear hw
    cases l with
    | gpu t =>
      obtain ⟨o, rest, -, hr, heq⟩ := mem_log_gpu hnew
      cases heq
      exact of_decide_eq_true hr
    | reap d g k =>
      obtain ⟨wr, -, heq⟩ := mem_log_reap hnew
      cases heq
    | _ => simp [Lbl.log] at hnew

theorem WaitInv.step (he : cfg.useEventSync = true) (hc : Core cfg a fl pl) (h : WaitInv cfg a pl)
    (hk : armsSignaled l a) (hs : Step cfg Good l a b) : WaitInv cfg b (l.posted pl) where
  ids := h.ids.step he hc hs
  ops_le _ _ _ _ hp := h.ops_le_step hc hs hp
  cur_fresh _ _ _ hcur hat := h.cur_fresh_step hc hs hcur hat
  signaled _ _ _ hp := h.signaled_step hc hs hp
  posted_line _ _ _ ho hat hpost hn hst := h.posted_line_step he hc hs ho hat hpost hn hst
  armed_line _ _ _ hp := h.armed_line_step he hc hk hs hp
  done _ _ _ ho hat ht hst := h.done_step he hc hs ho hat ht hst
  waits _ _ _ _ hw := h.waits_step he hc hs hw
  ran _ _ _ _ _ hw := h.ran_step he hs hw

end Step

theorem WaitInv.init : WaitInv cfg ⟨World.init, none⟩ fun _ => [] := by
  have hlog : ∀ e, e ∉ World.init.log := fun e => List.not_mem_nil
  constructor
  · exact TrackedIds.init
  · rintro c f p op (hp | ⟨-, s, hp⟩) <;> exact absurd hp (hlog _)
  · intro k c f hk
    cases hk
  · intro c f p hp
    rw [show lineOf _ _ c f = [] from init_line c f] at hp
    cases hp
  · exact fun c f p ho => absurd (init_owner p) ho
  · exact fun c f p hp => absurd hp init_not_armed
  · exact fun c f p ho => absurd (init_owner p) ho
  · intro s c f v hv
    cases hv
  · exact fun s k c f v hv => absurd hv (hlog _)

/-! ## Runs -/

/-- A live request whose operation was posted. -/
def PostedReq (cfg : Config) (w : World) (p : Ptr) : Prop :=
  Live w p ∧ ∃ c f, w.At cfg p c f ∧ PostedOp w.log c f p (w.mem p).id

/-- Sends, receives and puts, prepared sends, CPU waits and progress, and stream
waits for operations that are posted. -/
def PostedWaitCalls (cfg : Config) : Event → World → Prop
  | .call op tape, w =>
    match op with
    | .isend .. | .irecv .. | .iput .. | .sendOnStream .. | .isendOnStream .. | .sendPrepare .. | .sendPost ..
    | .isendPost .. | .sendPostAll .. | .isendPostAll .. | .waitAll _ | .progressAll _ | .progress _ =>
      EventScope (.call op tape) w
    | .waitOnStream p _ => PostedReq cfg w p
    | .waitAllOnStream ps _ => ∀ p ∈ ps, PostedReq cfg w p
    | _ => False
  | .gpu _, _ | .work _ _, _ => True

theorem PostedWaitCalls.scope {ev : Event} {w : World} (h : PostedWaitCalls cfg ev w) : EventScope ev w := by
  cases ev with
  | call op tape =>
    cases op with
    | waitOnStream p s => exact h.1
    | waitAllOnStream ps s => exact fun p hp => (h p hp).1
    | _ => first | exact h | exact h.elim
  | gpu | work => trivial

/-- The requests of `ps` that a stream wait for all of them arms. -/
def waitsArm (cfg : Config) (w : World) : List Ptr → List Ptr
  | [] => []
  | p :: rest =>
    match cfg.clientIndex (w.mem p).peer with
    | none => []
    | some c =>
      if (w.mem p).status = .complete then []
      else if (w.clients c).lastPostedTrackedId (w.mem p).type.flow < (w.mem p).id then
        p :: waitsArm cfg (w.arm c (w.mem p).type.flow p) rest
      else waitsArm cfg w rest

/-- No stream wait arms a put that is not to be waited for. -/
def WaitsSignaled (cfg : Config) : Event → World → Prop
  | .call (.waitOnStream p _) _, w => ∀ q ∈ waitsArm cfg w [p], nowait (w.mem q).flags = false
  | .call (.waitAllOnStream ps _) _, w => ∀ q ∈ waitsArm cfg w ps, nowait (w.mem q).flags = false
  | _, _ => True

/-- The second world is the first one with some requests armed. -/
structure World.OnlyArms (w w' : World) : Prop where
  req : ∀ q, w'.mem q = w.mem q ∨ w'.mem q = { w.mem q with trigger := true }
  client : ∀ c, ∃ x, w'.clients c = { w.clients c with lastPostedTrackedId := x }
  cq : w'.cq = w.cq
  streams : w'.streams = w.streams
  log : w'.log = w.log

namespace World.OnlyArms
variable {w w' w₁ w₂ w₃ : World}

theorem refl (w : World) : w.OnlyArms w := ⟨fun _ => .inl rfl, fun _ => ⟨_, rfl⟩, rfl, rfl, rfl⟩

theorem trans (h₁ : w₁.OnlyArms w₂) (h₂ : w₂.OnlyArms w₃) : w₁.OnlyArms w₃ where
  req q := by
    rcases h₁.req q with e₁ | e₁ <;> rcases h₂.req q with e₂ | e₂
    · exact .inl (e₂.trans e₁)
    · exact .inr (by rw [e₂, e₁])
    · exact .inr (e₂.trans e₁)
    · exact .inr (by rw [e₂, e₁])
  client c := by
    obtain ⟨x, e₁⟩ := h₁.client c
    obtain ⟨y, e₂⟩ := h₂.client c
    exact ⟨y, by rw [e₂, e₁]⟩
  cq := h₂.cq.trans h₁.cq
  streams := h₂.streams.trans h₁.streams
  log := h₂.log.trans h₁.log

theorem arm (w : World) (c : Nat) (f : Flow) (p : Ptr) : w.OnlyArms (w.arm c f p) where
  req q := by
    simp only [World.arm, World.setClient_mem, World.setReq_mem]
    split
    · rename_i hq; rw [hq]; exact .inr rfl
    · exact .inl rfl
  client d := by
    simp only [World.arm, World.setClient_clients, World.setReq_clients]
    split
    · rename_i hd; rw [hd]; exact ⟨_, rfl⟩
    · exact ⟨_, rfl⟩
  cq := rfl
  streams := rfl
  log := rfl

theorem state (h : w.OnlyArms w') (q : Ptr) : (w'.mem q).type = (w.mem q).type ∧ (w'.mem q).peer = (w.mem q).peer ∧
    (w'.mem q).id = (w.mem q).id ∧ (w'.mem q).flags = (w.mem q).flags ∧ (w'.mem q).owner = (w.mem q).owner ∧
    (w'.mem q).status = (w.mem q).status ∧ (w'.mem q).next = (w.mem q).next := by
  rcases h.req q with e | e <;> rw [e] <;> exact ⟨rfl, rfl, rfl, rfl, rfl, rfl, rfl⟩

theorem at_iff (h : w.OnlyArms w') {p : Ptr} {c : Nat} {f : Flow} : w'.At cfg p c f ↔ w.At cfg p c f := by
  obtain ⟨h1, h2, -⟩ := h.state p
  simp only [World.At, h1, h2]

end World.OnlyArms

/-- The conditions of the arms of a stream wait, from the world it begins in. -/
theorem armAll_of_waitsArm {K : Lbl → Mach → Prop} {ps : List Ptr} {w : World} (ho : ∀ p ∈ ps, (w.mem p).owner ≠ none)
    (h : ∀ q ∈ waitsArm cfg w ps, ∀ w', w.OnlyArms w' → ∀ c, cfg.clientIndex (w.mem q).peer = some c →
      K (.arm c (w.mem q).type.flow q) ⟨w', none⟩) : ArmAll cfg K ⟨w, none⟩ ps := by
  induction ps generalizing w with
  | nil => trivial
  | cons p rest ih =>
    have hrest : ∀ q ∈ rest, (w.mem q).owner ≠ none := fun q hq => ho q (List.mem_cons_of_mem p hq)
    refine ⟨ho p List.mem_cons_self, fun c hc hst => ?_⟩
    simp only [waitsArm, hc, hst, if_false] at h
    split
    · rename_i hlt
      rw [if_pos hlt] at h
      have harm := World.OnlyArms.arm w c (w.mem p).type.flow p
      refine ⟨h p List.mem_cons_self w (.refl w) c hc, ih (fun q hq => ?_) (fun q hq w' hw' d hd => ?_)⟩
      · rw [(harm.state q).2.2.2.2.1]
        exact hrest q hq
      · obtain ⟨h1, h2, -⟩ := harm.state q
        rw [h1]
        rw [h2] at hd
        exact h q (List.mem_cons_of_mem p hq) w' (harm.trans hw') d hd
    · rename_i hlt
      rw [if_neg hlt] at h
      exact ih hrest h

theorem waitsArm_subset {ps : List Ptr} {w : World} {q : Ptr} (h : q ∈ waitsArm cfg w ps) : q ∈ ps := by
  induction ps generalizing w with
  | nil => exact h
  | cons p rest ih =>
    unfold waitsArm at h
    split at h
    · cases h
    · split at h
      · cases h
      · split at h
        · rcases List.mem_cons.mp h with rfl | h
          · exact List.mem_cons_self
          · exact List.mem_cons_of_mem p (ih h)
        · exact List.mem_cons_of_mem p (ih h)

/-- What a stream wait for posted requests arms will complete. -/
theorem armsSignaled_of_posted {w w' : World} (hw : w.OnlyArms w') {p : Ptr} (hp : PostedReq cfg w p) {c : Nat}
    (hc : cfg.clientIndex (w.mem p).peer = some c) (hn : nowait (w.mem p).flags = false) :
    armsSignaled (.arm c (w.mem p).type.flow p) ⟨w', none⟩ := by
  obtain ⟨-, d, g, hat, hpost⟩ := hp
  obtain ⟨-, -, hid, hfl, -⟩ := hw.state p
  obtain ⟨rfl, rfl⟩ := hat.unique ⟨hc, hat.2.1, rfl⟩
  exact ⟨by rw [hid, hw.log]; exact hpost, by rw [hfl]; exact hn⟩

theorem opOk_of_signaled (he : cfg.useEventSync = true) {w : World} (hc : CoreInv cfg ⟨w, none⟩) {op : Op}
    {tape : List Ans} (h : PostedWaitCalls cfg (.call op tape) w) (ha : WaitsSignaled cfg (.call op tape) w) :
    OpOk cfg anyAns armsSignaled w op := by
  have hne : cfg.useEventSync ≠ false := by rw [he]; decide
  cases op with
  | isend | irecv | iput | isendOnStream | waitAll | progressAll | progress => exact trivial
  | sendOnStream => exact fun _ _ _ _ _ => trivial
  | sendPrepare => exact he
  | sendPost p s => exact ⟨he, preparedSend_of_owner hc h.2, fun _ _ _ _ => trivial⟩
  | isendPost p s => exact ⟨he, preparedSend_of_owner hc h.2⟩
  | sendPostAll ps s => exact ⟨he, fun p hp => preparedSend_of_owner hc (h p hp).2, fun _ _ _ _ _ => trivial⟩
  | isendPostAll ps s => exact ⟨he, fun p hp => preparedSend_of_owner hc (h p hp).2⟩
  | waitOnStream p s =>
    refine ⟨fun _ => ⟨(live_iff_owner hc p).mp h.1, fun c hpeer hst hlt => ?_⟩, fun hn => absurd hn hne⟩
    exact armsSignaled_of_posted (.refl w) h hpeer (ha p (by simp [waitsArm, hpeer, hst, hlt]))
  | waitAllOnStream ps s =>
    refine ⟨fun _ => armAll_of_waitsArm (fun p hp => (live_iff_owner hc p).mp (h p hp).1) ?_, fun hn => absurd hn hne⟩
    exact fun q hq w' hw' c hpeer => armsSignaled_of_posted hw' (h q (waitsArm_subset hq)) hpeer (ha q hq)
  | _ => exact h.elim

section Runs
variable (he : cfg.useEventSync = true)
include he

theorem signaled_moves {w : World} {ev : Event} (hc : CoreInv cfg ⟨w, none⟩) (h : PostedWaitCalls cfg ev w)
    (hev : WaitsSignaled cfg ev w) (ha : alive (ev.exec cfg w).1) :
    Moves (Move cfg anyAns armsSignaled) ⟨w, none⟩ ⟨(ev.exec cfg w).2, none⟩ := by
  refine event_moves ?_ (fun _ _ _ => trivial) trivial (fun _ _ _ _ _ => trivial) ?_ (fun _ _ => trivial) ha
  · intro l a hl
    cases l <;> trivial
  · rintro op tape rfl
    exact ⟨opOk_of_signaled he hc h hev, fun _ _ => trivial⟩

theorem waitInv_of_reach {w : World} (h : Reach cfg (fun ev w => PostedWaitCalls cfg ev w ∧ WaitsSignaled cfg ev w) w) :
    ∃ fl pl, Core cfg ⟨w, none⟩ fl pl ∧ WaitInv cfg ⟨w, none⟩ pl := by
  have hm : Moves (Move cfg anyAns armsSignaled) ⟨World.init, none⟩ ⟨w, none⟩ :=
    reach_moves (fun w ev hc _ hev ha => signaled_moves he hc hev.1 hev.2 ha) h
  obtain ⟨fl, hc⟩ := Core.init cfg
  exact inv_moves (J := WaitInv cfg) (fun a b l fl pl hc h hk hs => h.step he hc hk hs) hc .init hm

/-- A request that will raise `last_tracked_id` of client `c` and flow `f` to
`v`: its work request is signaled, and it is accepted and not yet polled, or on
the posted list. -/
structure World.Raises (cfg : Config) (w : World) (c : Nat) (f : Flow) (v : Nat) (p : Ptr) : Prop where
  live : Live w p
  at_ : w.At cfg p c f
  id : (w.mem p).id = v
  trigger : (w.mem p).trigger = true
  status : (w.mem p).status ≠ .complete
  signaled : (w.mem p).inWr.signaled = true
  in_line : w.InLine c f p

/-- Every wait for `last_tracked_id` the library has enqueued is satisfied, or
a request that completes will satisfy it; one that was executed stays satisfied. -/
theorem no_stream_left_waiting {w : World}
    (h : Reach cfg (fun ev w => PostedWaitCalls cfg ev w ∧ WaitsSignaled cfg ev w) w) (c : Nat) (f : Flow) (v : Nat) :
    (∀ s, .wait (.lastTrackedId c f) v .geq ∈ (w.streams s).todo →
      v ≤ (w.clients c).lastTrackedId f ∨ ∃ p, w.Raises cfg c f v p) ∧
    ∀ s k, .ran s k (.wait (.lastTrackedId c f) v .geq) ∈ w.log → v ≤ (w.clients c).lastTrackedId f := by
  obtain ⟨fl, pl, hc, hinv⟩ := waitInv_of_reach he h
  refine ⟨fun s hs => ?_, fun s k hk => hinv.ran s k c f v hk⟩
  rcases hinv.waits s c f v hs with hle | ⟨p, hp, hid⟩
  · exact .inl hle
  · have hin := hinv.armed_line c f p hp
    refine .inr ⟨p, (live_iff_owner ⟨fl, pl, hc⟩ p).mpr hp.owner, hp.at_, hid, hp.trigger, hp.status, ?_,
      hc.inLine_iff.mpr hin⟩
    rcases hc.wr_ok p hp.owner with ⟨st, hcur⟩ | hwr
    · cases hcur
    · have hn := hinv.signaled c f p hin
      have hsig := hwr.2
      rw [hn] at hsig
      exact hsig

end Runs

/-- A put to the peer with `MP_PUT_NOWAIT`. -/
def putNowaitOne : Event :=
  .call (.iput 0 8 ⟨0⟩ 1 0 { basePtr := fun _ => 0, rkey := fun _ => 0, rsize := fun _ => 8 } mpPutNowait) []

/-- A send that the CPU posts, and a wait for it on stream 1. -/
theorem no_stream_left_waiting_of_send :
    ∃ w, Reach eventPeer (fun ev w => PostedWaitCalls eventPeer ev w ∧ WaitsSignaled eventPeer ev w) w ∧
      .wait (.lastTrackedId 0 .tx) 1 .geq ∈ (w.streams 1).todo ∧ ∃ p, w.Raises eventPeer 0 .tx 1 p := by
  have h₀ : Reach eventPeer (fun ev w => PostedWaitCalls eventPeer ev w ∧ WaitsSignaled eventPeer ev w)
      (World.init.after eventPeer [isendOne]) :=
    Reach.init.after eventPeer ⟨⟨trivial, trivial⟩, by decide, trivial⟩
  have hposted : PostedReq eventPeer (World.init.after eventPeer [isendOne]) 0 :=
    ⟨live_of_reach rfl (fun _ _ hev => hev.1.scope) h₀ (by decide), 0, .tx,
      ⟨by decide, by decide, by decide⟩, .inl (by decide)⟩
  have h₁ := h₀.step (waitOnOne 0) ⟨hposted, show ∀ q ∈ waitsArm eventPeer _ [0], _ by decide⟩ (by decide)
  refine ⟨_, h₁, by decide, ?_⟩
  rcases (no_stream_left_waiting rfl h₁ 0 .tx 1).1 1 (by decide) with hle | hp
  · exact absurd hle (by decide)
  · exact hp

/-- A put with `MP_PUT_NOWAIT` is posted and waited for on stream 1: no request
is going to complete, and the stream waits for its id. -/
theorem unsignaled_put_blocks_stream :
    ∃ w, Reach eventPeer (PostedWaitCalls eventPeer) w ∧ .wait (.lastTrackedId 0 .tx) 1 .geq ∈ (w.streams 1).todo ∧
      ¬ (1 ≤ (w.clients 0).lastTrackedId .tx ∨ ∃ p, w.Raises eventPeer 0 .tx 1 p) := by
  have h₀ : Reach eventPeer (PostedWaitCalls eventPeer) (World.init.after eventPeer [putNowaitOne]) :=
    Reach.init.after eventPeer ⟨trivial, by decide, trivial⟩
  have hposted : PostedReq eventPeer (World.init.after eventPeer [putNowaitOne]) 0 :=
    ⟨live_of_reach rfl (fun _ _ hev => hev.scope) h₀ (by decide), 0, .tx,
      ⟨by decide, by decide, by decide⟩, .inl (by decide)⟩
  have h₁ := h₀.step (waitOnOne 0) hposted (by decide)
  refine ⟨_, h₁, by decide, ?_⟩
  rintro (hle | ⟨p, hp⟩)
  · exact absurd hle (by decide)
  · -- the line is empty
    obtain ⟨l, ⟨m, hm, hl⟩, hmem⟩ := hp.in_line
    rw [hl, hm.unique Linked.nil] at hmem
    exact absurd hmem List.not_mem_nil

end LibMp
