import Mathlib.Data.List.Infix
import LibMp.Completion
import LibMp.Ledger
import LibMp.StreamWaits

/- Where the operations of a run stand.

   The ledger holds along the runs of the machine, so in every reachable world
   each id that was given out is in exactly one place: it is carried by one live
   request, unposted, in a completion queue, unsignaled or polled, or it was
   released and no request carries it. -/
namespace LibMp
variable {cfg : Config}

/-- The calls without event sync: those that post at once, but for the puts and gets
on a stream, the waits, on any requests, and progress. -/
def PlainScope : Event → World → Prop
  | .call op _, _ =>
    match op with
    | .isend .. | .irecv .. | .isendv .. | .irecvv .. | .iput .. | .iget .. | .sendOnStream .. | .isendOnStream ..
    | .isendvOnStream .. | .waitOnStream .. | .waitAllOnStream .. | .descAddWaitSend .. | .descAddWaitRecv ..
    | .getWaitDesc _ | .waitAll _ | .progressAll _ | .progress _ => True
    | _ => False
  | .gpu _, _ | .work _ _, _ => True

/-- The calls that are looked at in the mode of the configuration. -/
def CallScope (cfg : Config) (ev : Event) (w : World) : Prop :=
  if cfg.useEventSync then EventScope ev w else PlainScope ev w

theorem opOk_of_plainScope (he : cfg.useEventSync = false) {w : World} {op : Op} {tape : List Ans}
    (h : PlainScope (.call op tape) w) : OpOk cfg anyAns anyStep w op := by
  have hne : ¬ cfg.useEventSync = true := by
    rw [he]
    decide
  cases op with
  | sendOnStream => exact fun _ _ _ _ _ => trivial
  | waitOnStream p s => exact ⟨fun ht => absurd ht hne, fun _ _ => trivial⟩
  | waitAllOnStream ps s => exact ⟨fun ht => absurd ht hne, fun _ _ _ _ _ => trivial⟩
  | descAddWaitSend dq p => exact ⟨he, fun _ _ _ _ => trivial⟩
  | descAddWaitRecv dq p => exact ⟨he, fun _ _ _ => trivial⟩
  | getWaitDesc p => exact ⟨he, trivial⟩
  | isend | irecv | isendv | irecvv | iput | iget | isendOnStream | isendvOnStream | waitAll | progressAll | progress =>
    exact trivial
  | _ => exact h.elim

theorem callScope_event {w : World} {ev : Event} (hc : CoreInv cfg ⟨w, none⟩) (h : CallScope cfg ev w)
    (ha : alive (ev.exec cfg w).1) :
    Moves (Move cfg anyAns anyStep) ⟨w, none⟩ ⟨(ev.exec cfg w).2, none⟩ := by
  refine event_moves (fun _ _ _ => trivial) (fun _ _ _ => trivial) trivial (fun _ _ _ _ _ => trivial) ?_
    (fun _ _ => trivial) ha
  rintro op tape rfl
  refine ⟨?_, fun _ _ => trivial⟩
  unfold CallScope at h
  split at h
  · rename_i he
    exact opOk_of_eventScope he hc h
  · rename_i he
    exact opOk_of_plainScope (Bool.eq_false_iff.mpr he) h

theorem callScope_moves {w : World} (h : Reach cfg (CallScope cfg) w) :
    Moves (Move cfg anyAns anyStep) ⟨World.init, none⟩ ⟨w, none⟩ :=
  reach_moves (fun _ _ hc _ hev ha => callScope_event hc hev ha) h

theorem Ledger.of_reach {w : World} (h : Reach cfg (CallScope cfg) w) : Ledger cfg ⟨w, none⟩ :=
  Ledger.init.moves coreInv_init (callScope_moves h)

/-! ## In one place -/

section Run
variable {w : World}

end Run

section Unsignaled
variable {Good : Ans → Prop} {l : Lbl} {a b : Mach} {p : Ptr} {c op : Nat}

/-- The entries of a completion queue are put there by posting. -/
theorem mem_cq_step (hc : CoreInv cfg a) (hs : Step cfg Good l a b) {d : Nat} {g : Flow} {wr : Wr}
    (hwr : wr ∈ b.w.cq d g) :
    wr ∈ a.w.cq d g ∨ (∃ f, l = .accept d f wr.wrId) ∨ ∃ f, l = .handOver d f wr.wrId := by
  have hadd : ∀ {c f q}, (a.w.mem q).WrOk q → wr ∈ (a.w.accept c f q).cq d g →
      wr ∈ a.w.cq d g ∨ (d = c ∧ q = wr.wrId) := by
    intro c f q hw hm
    rw [World.accept_cq hw] at hm
    split at hm
    · rename_i hdf
      obtain ⟨rfl, rfl, -⟩ := hdf
      refine (List.mem_append.mp hm).imp_right fun hm => ⟨rfl, ?_⟩
      rw [List.mem_singleton.mp hm]
    · exact .inl hm
  rw [step_cq hs] at hwr
  cases l with
  | accept c f q =>
    rcases hadd (Ledger.accept_wrOk hc hs) hwr with hold | ⟨rfl, rfl⟩
    · exact .inl hold
    · exact .inr (.inl ⟨f, rfl⟩)
  | handOver c f q =>
    rcases hadd (Ledger.handOver_posted hc hs).2.2.1 hwr with hold | ⟨rfl, rfl⟩
    · exact .inl hold
    · exact .inr (.inr ⟨f, rfl⟩)
  | reap c f k =>
    dsimp only at hwr
    split at hwr
    · exact .inl ((List.eraseIdx_sublist _ _).subset hwr)
    · exact .inl hwr
  | _ => exact .inl hwr

/-- No step gives such a put a completion, or its request back to the pool. -/
theorem Unsignaled.step (h : Unsignaled cfg a p c op) (hc : CoreInv cfg a) (hs : Step cfg Good l a b) :
    Unsignaled cfg b p c op := by
  have hprep : (a.w.mem p).status ≠ .prepared := by
    intro hst
    have hpend := h.pending
    rw [hst] at hpend
    exact hpend
  have hnew : ∀ fn d, l = .take fn d → p ≠ a.w.nextFree := by
    rintro fn d rfl rfl
    cases hs
    exact h.owner (nextFree_free hc).1
  refine h.keep hc hs ?_ ?_ ?_ ?_
  · rintro rfl
    cases hs with
    | release hst =>
      have hpend := h.pending
      rw [hst] at hpend
      exact hpend
  · rintro d g wr hwr rfl
    rcases mem_cq_step hc hs hwr with hold | ⟨f, rfl⟩ | ⟨f, rfl⟩
    · exact h.notQueued d g wr hold rfl
    · cases hs with
      | accept => exact h.notInHand _ rfl rfl
    · exact hprep (Ledger.handOver_posted hc hs).2.2.2.1
  · cases step_req hs p with
    | same hsame =>
      rw [hsame.2.2.2.1]
      exact h.pending
    | take fn d hq => exact absurd hq (hnew fn d rfl)
    | release hst =>
      have hpend := h.pending
      rw [hst] at hpend
      exact hpend.elim
    | reap hk hwr => exact absurd hwr (h.notQueued _ _ _ (List.mem_of_getElem? hk))
    | handOver _ hst => exact absurd hst hprep
    | waitCpu _ _ hst | waitStream _ _ hst =>
      rw [hst]
      trivial
    | arm harm | armTail harm =>
      rw [harm]
      exact h.pending
  · intro k hk hkp
    rcases step_hand hs hk with ⟨k', hk', hp', -⟩ | ⟨fn, d, rfl, hq⟩ | ⟨d, rfl, -⟩
    · exact h.notInHand k' hk' (hp'.trans hkp)
    · exact hnew fn d rfl (hkp.symm.trans hq)
    · cases hs with
      | stamp _ hat hcur =>
        rcases hcur with hcur | ⟨ho, -, hlt⟩
        · exact h.notInHand _ hcur hkp
        · obtain ⟨fl, pl, hcore⟩ := hc
          exact hprep (hkp ▸ (hcore.prepared_ok _ d ho hat hlt).1)

/-- Nothing is logged of its operation any more. -/
theorem Unsignaled.life (h : Unsignaled cfg a p c op) (hc : CoreInv cfg a) (hl : Ledger cfg a)
    (hs : Step cfg Good l a b) (hlife : life cfg a.w.log c op = [.accepted]) : life cfg b.w.log c op = [.accepted] := by
  have hbegun := (hl.step hc hs).begun c op
  rw [step_life hs, hlife] at hbegun ⊢
  cases l with
  | accept d f q | handOver d f q =>
    -- it is not accepted twice
    simp only [Lbl.phases] at hbegun ⊢
    split at hbegun
    · exact absurd hbegun (by decide)
    · rename_i hne
      rw [if_neg hne, List.append_nil]
  | reap d f k =>
    simp only [Lbl.phases]
    cases hk : (a.w.cq d f)[k]? with
    | none => rfl
    | some wr =>
      have hwr : wr ∈ a.w.cq d f := List.mem_of_getElem? hk
      obtain ⟨fl, pl, hcore⟩ := hc
      have hp' := Ledger.queued_holds hcore hwr
      dsimp only
      rw [if_neg, List.append_nil]
      rintro ⟨rfl, hid⟩
      refine h.notQueued d f wr hwr (hl.distinct wr.wrId p d op ?_ h.toHolds)
      exact ⟨hp'.owner, hp'.client, hid⟩
  | release q =>
    simp only [Lbl.phases]
    rw [if_neg, List.append_nil]
    rintro ⟨hcl, hid⟩
    cases hs with
    | release hst =>
      obtain ⟨fl, pl, hcore⟩ := hc
      have hq : Holds cfg _ q c op := ⟨hcore.owner_of_status (by rw [hst]; intro he; cases he), hcl, hid⟩
      have hpend := h.pending
      rw [← hl.distinct q p c op hq h.toHolds] at hpend
      dsimp only at hpend
      rw [hst] at hpend
      exact hpend
  | _ => exact List.append_nil _

end Unsignaled

end LibMp
