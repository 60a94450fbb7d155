import LibMp.Batch
import LibMp.Returns

/- `mp_wait_all` without event sync: what it puts back.

   Its three loops in turn: posting the CQ waits and waiting for completions
   put nothing back and leave the free list alone (`Tame`), and a request that
   is complete stays so while the others are waited for; the release loop then
   puts back each request the first time it meets it (`toRelease`), since a
   request that went back is not complete any more. -/
namespace LibMp
variable {cfg : Config}

/-! ## The first two loops -/

/-- From `w` to `w'` nothing was put back: the log says so, and the free list is
the same. -/
structure Tame (w w' : World) : Prop where
  log : Adds LogEv.NotReleased w w'
  free : w'.mpRequestFreeList = w.mpRequestFreeList
  next : ∀ q, (w'.mem q).next = (w.mem q).next

namespace Tame
variable {w w₁ w₂ : World}

theorem refl : Tame w w := ⟨Adds.refl, rfl, fun _ => rfl⟩

theorem trans (h₁ : Tame w w₁) (h₂ : Tame w₁ w₂) : Tame w w₂ :=
  ⟨h₁.log.trans h₂.log, h₂.free.trans h₁.free, fun q => (h₂.next q).trans (h₁.next q)⟩

theorem freeList (h : Tame w w₁) {l : List Ptr} (hl : FreeList w l) : FreeList w₁ l := by
  unfold FreeList
  rw [h.free]
  exact Linked.frame hl (fun q _ => h.next q)

end Tame

theorem tame_postWait (w : World) (p : Ptr) :
    Tame w ((w.give p).setReq p fun r => { r with stream := none, status := .pending }) := by
  refine ⟨⟨[.given p (w.mem p).id (w.mem p).gdsWaitInfo], rfl, ?_⟩, rfl, fun q => ?_⟩
  · intro e he
    rw [List.mem_singleton.mp he]
    trivial
  · exact (w.give p).setReq_rel (R := fun r r' => r'.next = r.next) (fun _ => rfl) rfl q

/-- A turn of the first loop of `mp_wait_all` ends the loop with nothing done,
or it leaves the request alone and goes on, or it posts the wait of a request
that has none. -/
theorem postWaits_cons_ok {p : Ptr} {rest : List Ptr} {s s' : Sys} {ret : Int}
    (h : postWaits cfg (p :: rest) s = (.ok ret, s')) :
    s' = s ∨ postWaits cfg rest s = (.ok ret, s') ∨ (s.w.mem p).status = .pendingNowait ∧ (s'.w = s.w.give p ∨
      ∃ s₁, s₁.w = ((s.w.give p).setReq p fun r => { r with stream := none, status := .pending }) ∧
        postWaits cfg rest s₁ = (.ok ret, s')) := by
  rw [postWaits] at h
  obtain ⟨r, s₁, h₁, h⟩ := Prog.bind_eq_ok h
  obtain ⟨rfl, rfl⟩ := request_ok h₁
  obtain ⟨-, h⟩ := require_bind_ok h
  split at h
  · cases h
    exact .inl rfl
  dsimp only at h
  split at h
  · rename_i hst
    refine .inr (.inr ⟨hst, ?_⟩)
    obtain ⟨c, -, hpost⟩ := clientOf_bind_ok h
    obtain ⟨rc, s₄, h₄, hrest⟩ := Prog.bind_eq_ok hpost
    obtain ⟨_, s₅, h₅, hrc⟩ := Prog.bind_eq_ok h₄
    obtain rfl := update_ok h₅
    have hw₄ : s₄.w = s₁.w.give p := returnCode_ok hrc
    split at hrest
    · cases hrest
      exact .inl hw₄
    · obtain ⟨_, s₆, h₆, hloop⟩ := Prog.bind_eq_ok hrest
      obtain rfl := update_ok h₆
      refine .inr ⟨_, ?_, hloop⟩
      rw [← hw₄]
  · exact .inr (.inl h)

/-- The first loop of `mp_wait_all`. -/
theorem tame_postWaits (ps : List Ptr) {s s' : Sys} {ret : Int} (h : postWaits cfg ps s = (.ok ret, s')) :
    Tame s.w s'.w := by
  induction ps generalizing s with
  | nil =>
    cases h
    exact .refl
  | cons p rest ih =>
    obtain rfl | hrest | ⟨-, hgive | ⟨s₁, hw, hrest⟩⟩ := postWaits_cons_ok h
    · exact .refl
    · exact ih hrest
    · rw [hgive]
      refine ⟨⟨_, rfl, ?_⟩, rfl, fun _ => rfl⟩
      intro e he
      rw [List.mem_singleton.mp he]
      trivial
    · have hone := tame_postWait s.w p
      rw [← hw] at hone
      exact hone.trans (ih hrest)

/-- Progress without event sync puts nothing back, and leaves a complete request
complete. -/
theorem tame_step (he : cfg.useEventSync = false) {l : Lbl} {a b : Mach} (hl : l.Progress)
    (hs : Step cfg (fun _ => True) l a b) :
    Tame a.w b.w ∧ ∀ q, (a.w.mem q).status = .complete → (b.w.mem q).status = .complete := by
  constructor
  · cases hs with
    | @reap w cur c f k wr _ hk hp =>
      obtain ⟨-, hfree, -, -, hlog⟩ := World.complete_rest cfg w c f k wr
      refine ⟨⟨[.polled c f wr.wrId (w.mem wr.wrId).id], hlog, fun e he => ?_⟩, hfree, fun q => ?_⟩
      · rw [List.mem_singleton.mp he]
        trivial
      · rw [World.complete_mem cfg hp]
        split <;> rfl
    | handOver hev => rw [he] at hev; cases hev
    | @gpu w cur s =>
      refine ⟨⟨Lbl.log ⟨w, cur⟩ (.gpu s), World.gpuStep_log w s, fun e he => ?_⟩, ?_, fun q => ?_⟩
      · obtain ⟨op, rest, -, -, rfl⟩ := mem_log_gpu he
        trivial
      · exact (SameCore.gpuStep w s).free
      · rw [World.gpuStep_mem]
    | store => exact ⟨Adds.of_log rfl, rfl, fun _ => rfl⟩
    | _ => exact hl.elim
  · intro q hq
    cases step_req hs q with
    | same h => rw [h.2.2.2.1]; exact hq
    | reap _ _ _ _ h => exact h
    | handOver _ h => rw [h] at hq; cases hq
    | _ => exact hl.elim

theorem tame_moves (he : cfg.useEventSync = false) {a b : Mach} (h : ProgressMoves cfg a b) :
    Tame a.w b.w ∧ ∀ q, (a.w.mem q).status = .complete → (b.w.mem q).status = .complete := by
  refine Moves.inv (I := fun d => Tame a.w d.w ∧ ∀ q, (a.w.mem q).status = .complete → (d.w.mem q).status = .complete)
    ?_ h ⟨.refl, fun _ hq => hq⟩
  rintro d e ⟨ht, hc⟩ ⟨l, hl, hs⟩
  obtain ⟨ht', hc'⟩ := tame_step he hl hs
  exact ⟨ht.trans ht', fun q hq => hc' q (hc q hq)⟩

/-- The waiting loop makes moves of progress, whether it comes back or not. -/
theorem spinAll_moves {ps : List Ptr} {s : Sys} {r : Except Stop Int} {s' : Sys}
    (hr : r = .error .spinning ∨ ∃ ret, r = .ok ret) (h : spinAll cfg ps s = (r, s')) :
    ∃ b, b.w = s'.w ∧ ProgressMoves cfg ⟨s.w, none⟩ b := by
  have hf : Follows cfg (fun _ => True) (fun l _ => l.Progress) ⟨s.w, none⟩ (spinAll cfg ps)
      (fun _ b => Keeps ⟨s.w, none⟩ b) :=
    follows_spinAll (fun _ _ hl => hl) trivial ps ⟨s.w, none⟩ (by intro p st; simp)
  rcases hr with rfl | ⟨ret, rfl⟩
  · obtain ⟨b, hm, hb⟩ := hf.spinning ⟨rfl, fun _ _ => trivial⟩ h
    exact ⟨b, hb, hm⟩
  · obtain ⟨b, hm, hR, -⟩ := hf.ok ⟨rfl, fun _ _ => trivial⟩ h
    exact ⟨b, hR.1, hm⟩

theorem spin_moves {p : Ptr} {fuel : Nat} {s s' : Sys} {ret : Int} (h : spin cfg p fuel s = (.ok ret, s')) :
    ∃ b, b.w = s'.w ∧ ProgressMoves cfg ⟨s.w, none⟩ b := by
  have hf : Follows cfg (fun _ => True) (fun l _ => l.Progress) ⟨s.w, none⟩ (spin cfg p fuel)
      (fun _ b => Keeps ⟨s.w, none⟩ b) :=
    follows_spin (fun _ _ hl => hl) trivial p fuel ⟨s.w, none⟩ (by intro p st; simp)
  obtain ⟨b, hm, hR, -⟩ := hf.ok ⟨rfl, fun _ _ => trivial⟩ h
  exact ⟨b, hR.1, hm⟩

/-- The loop for one request returns 0 only when the request is complete. -/
theorem spin_complete {p : Ptr} (fuel : Nat) {s s' : Sys} (h : spin cfg p fuel s = (.ok 0, s')) :
    (s'.w.mem p).status = .complete := by
  induction fuel generalizing s with
  | zero => cases h
  | succ fuel ih =>
    rw [spin] at h
    obtain ⟨r, s₁, h₁, h₂⟩ := Prog.bind_eq_ok h
    obtain ⟨rfl, rfl⟩ := request_ok h₁
    split at h₂
    · rename_i hst
      cases h₂
      exact hst
    obtain ⟨s₂, -, h₃⟩ := Prog.andThen_ok h₂
    obtain ⟨s₃, -, h₄⟩ := Prog.andThen_ok h₃
    obtain ⟨late, s₄, -, h₅⟩ := Prog.bind_eq_ok h₄
    dsimp only at h₅
    split at h₅
    · obtain ⟨rc, s₅, -, h₆⟩ := Prog.bind_eq_ok h₅
      split at h₆
      · cases h₆
      · exact ih h₆
    · exact ih h₅

/-- When the second loop of `mp_wait_all` is through, every request is complete. -/
theorem spinAll_complete (he : cfg.useEventSync = false) (ps : List Ptr) {s s' : Sys}
    (h : spinAll cfg ps s = (.ok 0, s')) : ∀ p ∈ ps, (s'.w.mem p).status = .complete := by
  induction ps generalizing s with
  | nil =>
    intro p hp
    cases hp
  | cons q rest ih =>
    rw [spinAll] at h
    obtain ⟨_, s₀, h₀, h₁⟩ := Prog.bind_eq_ok h
    cases h₀
    obtain ⟨s₁, h₂, h₃⟩ := Prog.andThen_ok h₁
    have hq := spin_complete _ h₂
    obtain ⟨b, hb, hm⟩ := spinAll_moves (.inr ⟨0, rfl⟩) h₃
    intro p hp
    rcases List.mem_cons.mp hp with rfl | hp
    · rw [← hb]
      exact (tame_moves he hm).2 p hq
    · exact ih h₃ p hp

/-! ## The release loop -/

/-- The requests the release loop puts back, from the world `w` on. -/
def toRelease (w : World) : List Ptr → List Ptr
  | [] => []
  | p :: rest => if (w.mem p).status = .complete then p :: toRelease (w.release p) rest else toRelease w rest

/-- The requests put back by these events, in order. -/
def releases (l : List LogEv) : List Ptr :=
  l.filterMap fun
    | .released p _ _ => some p
    | _ => none

theorem releases_append (l₁ l₂ : List LogEv) : releases (l₁ ++ l₂) = releases l₁ ++ releases l₂ :=
  List.filterMap_append

theorem releases_eq_nil {l : List LogEv} (h : ∀ e ∈ l, e.NotReleased) : releases l = [] := by
  refine List.filterMap_eq_nil_iff.mpr (fun e he => ?_)
  have hnr := h e he
  cases e <;> first | rfl | exact hnr.elim

theorem World.release_status (w : World) (p q : Ptr) :
    ((w.release p).mem q).status = if q = p then .undef else (w.mem q).status := by
  simp only [World.release, World.setReq_mem]
  split <;> rfl

/-- What is put back was complete: it is not put back again. -/
theorem toRelease_complete (ps : List Ptr) {w : World} :
    ∀ p ∈ toRelease w ps, p ∈ ps ∧ (w.mem p).status = .complete := by
  induction ps generalizing w with
  | nil =>
    intro p hp
    cases hp
  | cons q rest ih =>
    intro p hp
    rw [toRelease] at hp
    split at hp
    · rename_i hq
      rcases List.mem_cons.mp hp with rfl | hp
      · exact ⟨List.mem_cons_self, hq⟩
      · obtain ⟨hmem, hst⟩ := ih p hp
        rw [World.release_status] at hst
        split at hst
        · cases hst
        · exact ⟨List.mem_cons_of_mem q hmem, hst⟩
    · obtain ⟨hmem, hst⟩ := ih p hp
      exact ⟨List.mem_cons_of_mem q hmem, hst⟩

theorem toRelease_nodup (ps : List Ptr) (w : World) : (toRelease w ps).Nodup := by
  induction ps generalizing w with
  | nil => exact List.nodup_nil
  | cons q rest ih =>
    rw [toRelease]
    split
    · refine List.nodup_cons.mpr ⟨fun hq => ?_, ih _⟩
      have hst := (toRelease_complete rest q hq).2
      rw [World.release_status, if_pos rfl] at hst
      cases hst
    · exact ih w

theorem toRelease_sublist (ps : List Ptr) (w : World) : (toRelease w ps).Sublist ps := by
  induction ps generalizing w with
  | nil => exact List.Sublist.refl _
  | cons q rest ih =>
    rw [toRelease]
    split
    · exact (ih _).cons_cons q
    · exact (ih w).cons q

/-- Every complete request of the list is put back. -/
theorem mem_toRelease (ps : List Ptr) {w : World} {p : Ptr} (hp : p ∈ ps) (hst : (w.mem p).status = .complete) :
    p ∈ toRelease w ps := by
  induction ps generalizing w with
  | nil => cases hp
  | cons q rest ih =>
    rw [toRelease]
    by_cases hqp : p = q
    · rw [hqp] at hst ⊢
      rw [if_pos hst]
      exact List.mem_cons_self
    · have hrest : p ∈ rest := (List.mem_cons.mp hp).resolve_left hqp
      split
      · refine List.mem_cons_of_mem q (ih hrest ?_)
        rw [World.release_status, if_neg hqp]
        exact hst
      · exact ih hrest hst

/-- Distinct complete requests are all put back. -/
theorem toRelease_eq (ps : List Ptr) {w : World} (hnd : ps.Nodup) (hc : ∀ p ∈ ps, (w.mem p).status = .complete) :
    toRelease w ps = ps := by
  induction ps generalizing w with
  | nil => rfl
  | cons q rest ih =>
    obtain ⟨hq, hnd'⟩ := List.nodup_cons.mp hnd
    rw [toRelease, if_pos (hc q List.mem_cons_self), ih hnd']
    intro p hp
    have hne : p ≠ q := fun h => hq (h ▸ hp)
    rw [World.release_status, if_neg hne]
    exact hc p (List.mem_cons_of_mem q hp)

/-- The release loop: what it returns, notes in the log and puts on the free list. -/
theorem releaseAll_run (ps : List Ptr) (ret : Int) (w : World) (tape : List Ans) :
    ∃ w', releaseAll ret ps ⟨w, tape⟩ = (.ok (if toRelease w ps = ps then ret else mpFailure), ⟨w', tape⟩) ∧
      (∃ l, w'.log = w.log ++ l ∧ releases l = toRelease w ps) ∧
      ∀ fl, FreeList w fl → (∀ p ∈ toRelease w ps, p ∉ fl) → FreeList w' ((toRelease w ps).reverse ++ fl) := by
  induction ps generalizing ret w with
  | nil => exact ⟨w, rfl, ⟨[], by simp, rfl⟩, fun fl h _ => h⟩
  | cons p rest ih =>
    by_cases hst : (w.mem p).status = .complete
    · have hto : toRelease w (p :: rest) = p :: toRelease (w.release p) rest := by rw [toRelease, if_pos hst]
      obtain ⟨w', hrun, ⟨l, hlog, hrel⟩, hfree⟩ := ih ret (w.release p)
      refine ⟨w', ?_, ⟨.released p (w.mem p).peer (w.mem p).id :: l, ?_, ?_⟩, fun fl hfl hnot => ?_⟩
      · rw [releaseAll, Prog.bind_ok (request_run p w tape), if_pos hst, releaseMpRequest,
          Prog.bind_ok (update_run _ _ _), hrun, hto]
        simp only [List.cons.injEq, true_and]
      · rw [hlog, World.release]
        simp
      · rw [hto, ← hrel]
        rfl
      · rw [hto] at hnot ⊢
        have hp : p ∉ fl := hnot p List.mem_cons_self
        rw [List.reverse_cons, List.append_assoc]
        refine hfree (p :: fl) (FreeList.release hfl hp) (fun q hq => ?_)
        -- `p` is not complete any more, so it is not put back again
        have hqc := (toRelease_complete rest q hq).2
        rw [World.release_status] at hqc
        split at hqc
        · cases hqc
        · rename_i hne
          simp only [List.mem_cons, not_or]
          exact ⟨hne, hnot q (List.mem_cons_of_mem p hq)⟩
    · have hto : toRelease w (p :: rest) = toRelease w rest := by rw [toRelease, if_neg hst]
      have hne : toRelease w (p :: rest) ≠ p :: rest := by
        intro h
        have hlen := congrArg List.length h
        have hle := (toRelease_sublist rest w).length_le
        rw [hto, List.length_cons] at hlen
        omega
      obtain ⟨w', hrun, hlog, hfree⟩ := ih mpFailure w
      refine ⟨w', ?_, ?_, ?_⟩
      · rw [releaseAll, Prog.bind_ok (request_run p w tape), if_neg hst, hrun, if_neg hne, ite_self]
      · rw [hto]
        exact hlog
      · rw [hto]
        exact hfree

/-! ## The whole call -/

/-- The call comes back before its release loop: a request is not waitable or
`gds_post_wait_cq` fails (the first loop), or polling fails or a GPU error is
detected (the second). -/
def GivesUp (cfg : Config) (ps : List Ptr) (w : World) (tape : List Ans) : Prop :=
  (∃ ret s₁, ret ≠ 0 ∧ postWaits cfg ps ⟨w, tape⟩ = (.ok ret, s₁)) ∨
  ∃ s₁ ret s₂, postWaits cfg ps ⟨w, tape⟩ = (.ok 0, s₁) ∧ ret ≠ 0 ∧ spinAll cfg ps s₁ = (.ok ret, s₂)

/-- The call gets to its release loop in the state `s₂`. -/
def GetsToRelease (cfg : Config) (ps : List Ptr) (w : World) (tape : List Ans) (s₂ : Sys) : Prop :=
  ∃ s₁, postWaits cfg ps ⟨w, tape⟩ = (.ok 0, s₁) ∧ spinAll cfg ps s₁ = (.ok 0, s₂)

theorem mpWaitAll_givesUp (he : cfg.useEventSync = false) {ps : List Ptr} {w : World} {tape : List Ans}
    (h : GivesUp cfg ps w tape) : ∃ ret s', ret ≠ 0 ∧ mpWaitAll cfg ps ⟨w, tape⟩ = (.ok ret, s') ∧ Tame w s'.w := by
  rcases h with ⟨ret, s₁, hne, h₁⟩ | ⟨s₁, ret, s₂, h₁, hne, h₂⟩
  · refine ⟨ret, s₁, hne, ?_, tame_postWaits ps h₁⟩
    rw [mpWaitAll, Prog.bind_ok h₁, if_pos hne]
    rfl
  · refine ⟨ret, s₂, hne, ?_, ?_⟩
    · rw [mpWaitAll, Prog.bind_ok h₁, if_neg (by decide), Prog.bind_ok h₂, if_pos hne]
      rfl
    · obtain ⟨b, hb, hm⟩ := spinAll_moves (.inr ⟨ret, rfl⟩) h₂
      have ht := (tame_moves he hm).1
      rw [hb] at ht
      exact (tame_postWaits ps h₁).trans ht

theorem getsToRelease_tame (he : cfg.useEventSync = false) {ps : List Ptr} {w : World} {tape : List Ans} {s₂ : Sys}
    (h : GetsToRelease cfg ps w tape s₂) : Tame w s₂.w ∧ ∀ p ∈ ps, (s₂.w.mem p).status = .complete := by
  obtain ⟨s₁, h₁, h₂⟩ := h
  refine ⟨?_, spinAll_complete he ps h₂⟩
  obtain ⟨b, hb, hm⟩ := spinAll_moves (.inr ⟨0, rfl⟩) h₂
  have ht := (tame_moves he hm).1
  rw [hb] at ht
  exact (tame_postWaits ps h₁).trans ht

/-- A call that comes back has given up or has been through its release loop. -/
theorem mpWaitAll_cases {ps : List Ptr} {w : World} {tape : List Ans} {ret : Int} {s' : Sys}
    (h : mpWaitAll cfg ps ⟨w, tape⟩ = (.ok ret, s')) :
    GivesUp cfg ps w tape ∨ ∃ s₂, GetsToRelease cfg ps w tape s₂ ∧ releaseAll 0 ps s₂ = (.ok ret, s') := by
  rw [mpWaitAll] at h
  obtain ⟨r₁, s₁, h₁, h⟩ := Prog.bind_eq_ok h
  by_cases hr₁ : r₁ = 0
  · rw [if_neg (by simp [hr₁])] at h
    obtain ⟨r₂, s₂, h₂, h⟩ := Prog.bind_eq_ok h
    rw [hr₁] at h₁
    by_cases hr₂ : r₂ = 0
    · rw [if_neg (by simp [hr₂])] at h
      rw [hr₂] at h₂
      exact .inr ⟨s₂, ⟨s₁, h₁, h₂⟩, h⟩
    · exact .inl (.inr ⟨s₁, r₂, s₂, h₁, hr₂, h₂⟩)
  · exact .inl (.inl ⟨r₁, s₁, hr₁, h₁⟩)

/-- The first loop does not wait for anything. -/
theorem postWaits_not_spinning (ps : List Ptr) {s s' : Sys} : postWaits cfg ps s ≠ (.error .spinning, s') := by
  induction ps generalizing s with
  | nil =>
    intro h
    cases h
  | cons p rest ih =>
    intro h
    have hreq : request p s = (.ok (s.w.mem p), s) := rfl
    rw [postWaits, Prog.bind_ok hreq] at h
    rcases Prog.bind_eq_error h with h₁ | ⟨_, s₁, h₁, h₂⟩
    · cases hb : decide ((s.w.mem p).type ≠ .null) <;> rw [hb] at h₁ <;> cases h₁
    obtain ⟨-, rfl⟩ := require_ok h₁
    split at h₂
    · cases h₂
    dsimp only at h₂
    split at h₂
    · rcases Prog.bind_eq_error h₂ with h₃ | ⟨c, s₂, h₃, h₄⟩
      · cases hc : cfg.clientIndex (s₁.w.mem p).peer <;> rw [clientOf, hc] at h₃ <;> cases h₃
      · have hgive : gdsPostWaitCq p s₂ = (.ok (rcOf s₂.tape), ⟨s₂.w.give p, s₂.tape.tail⟩) :=
          returnCode_eq (s₂.w.give p) s₂.tape
        rw [Prog.bind_ok hgive] at h₄
        split at h₄
        · cases h₄
        · rw [Prog.bind_ok (update_run _ _ _)] at h₄
          exact ih h₄
    · exact ih h₂

/-- What the release loop of a call leaves. -/
theorem mpWaitAll_released (he : cfg.useEventSync = false) {ps : List Ptr} {w : World} {tape : List Ans} {s₂ s' : Sys}
    {ret : Int} (hlive : ∀ p ∈ ps, Live w p) (hg : GetsToRelease cfg ps w tape s₂)
    (h : releaseAll 0 ps s₂ = (.ok ret, s')) :
    (ret = if toRelease s₂.w ps = ps then 0 else mpFailure) ∧ releases (newLog w s'.w) = toRelease s₂.w ps ∧
      ∀ fl, FreeList w fl → FreeList s'.w ((toRelease s₂.w ps).reverse ++ fl) := by
  obtain ⟨⟨⟨l₁, hl₁, hnr⟩, hfree, hnext⟩, -⟩ := getsToRelease_tame he hg
  obtain ⟨w', hrun, ⟨l₂, hl₂, hrel⟩, hfl⟩ := releaseAll_run ps 0 s₂.w s₂.tape
  rw [hrun] at h
  cases h
  refine ⟨rfl, ?_, fun fl hw => ?_⟩
  · show releases (newLog w w') = _
    rw [newLog, hl₂, hl₁, List.append_assoc, List.drop_left, releases_append, releases_eq_nil hnr, hrel,
      List.nil_append]
  · refine hfl fl (Tame.freeList ⟨⟨l₁, hl₁, hnr⟩, hfree, hnext⟩ hw) (fun p hp => ?_)
    exact (hlive p (toRelease_complete ps p hp).1).2 fl hw

/-- `mp_wait_all` on live requests, without event sync and whatever the outside
answers. If it returns 0, the handles are distinct, all requests were complete
when it began to put them back, and it has put back exactly these, once each.
If it gives up, it has put back none. If it returns an error otherwise, some
handle is repeated, and it has put back each request once. Nothing is ever put
back twice. -/
theorem wait_all_releases_once (he : cfg.useEventSync = false) (ps : List Ptr) (w : World) (tape : List Ans)
    (hlive : ∀ p ∈ ps, Live w p) (r : Except Stop Int) (s' : Sys) (h : mpWaitAll cfg ps ⟨w, tape⟩ = (r, s')) :
    (r = .ok 0 → ps.Nodup ∧
      (∃ s₂, GetsToRelease cfg ps w tape s₂ ∧ ∀ p ∈ ps, (s₂.w.mem p).status = .complete) ∧
      releases (newLog w s'.w) = ps ∧ ∀ fl, FreeList w fl → FreeList s'.w (ps.reverse ++ fl)) ∧
    (GivesUp cfg ps w tape → (∃ ret, r = .ok ret ∧ ret ≠ 0) ∧ releases (newLog w s'.w) = [] ∧
      ∀ fl, FreeList w fl → FreeList s'.w fl) ∧
    (∀ ret, r = .ok ret → ret ≠ 0 → ¬ GivesUp cfg ps w tape → ¬ ps.Nodup ∧
      ∀ p, p ∈ releases (newLog w s'.w) ↔ p ∈ ps) ∧
    (r = .error .spinning ∨ (∃ ret, r = .ok ret) → (releases (newLog w s'.w)).Nodup) := by
  have hgive : GivesUp cfg ps w tape → (∃ ret, r = .ok ret ∧ ret ≠ 0) ∧ Tame w s'.w := by
    intro hg
    obtain ⟨ret, s₀, hne, hrun, ht⟩ := mpWaitAll_givesUp he hg
    rw [h] at hrun
    cases hrun
    exact ⟨⟨ret, rfl, hne⟩, ht⟩
  have hnone : Tame w s'.w → releases (newLog w s'.w) = [] := fun ht => releases_eq_nil ht.log.newLog
  refine ⟨fun h0 => ?_, fun hg => ?_, fun ret hret hne hng => ?_, fun hr => ?_⟩
  · -- 0 is returned by the release loop only, where it met every request for the first time
    rw [h0] at h
    rcases mpWaitAll_cases h with hg | ⟨s₂, hg, hrel⟩
    · obtain ⟨⟨ret, hret, hne⟩, -⟩ := hgive hg
      rw [h0] at hret
      cases hret
      exact absurd rfl hne
    · obtain ⟨hret, hlog, hfl⟩ := mpWaitAll_released he hlive hg hrel
      have hall : toRelease s₂.w ps = ps := by
        by_contra hne
        rw [if_neg hne] at hret
        cases hret
      rw [hall] at hlog hfl
      have hnd := toRelease_nodup ps s₂.w
      rw [hall] at hnd
      exact ⟨hnd, ⟨s₂, hg, (getsToRelease_tame he hg).2⟩, hlog, hfl⟩
  · -- it gives up before the release loop
    obtain ⟨hret, ht⟩ := hgive hg
    exact ⟨hret, hnone ht, fun fl hfl => ht.freeList hfl⟩
  · -- any other error is that of the release loop, which met a request again
    rw [hret] at h
    rcases mpWaitAll_cases h with hg | ⟨s₂, hg, hrel⟩
    · exact absurd hg hng
    · obtain ⟨hret', hlog, -⟩ := mpWaitAll_released he hlive hg hrel
      have hc := (getsToRelease_tame he hg).2
      refine ⟨fun hnd => ?_, fun p => ?_⟩
      · rw [toRelease_eq ps hnd hc, if_pos rfl] at hret'
        exact hne hret'
      · rw [hlog]
        exact ⟨fun hp => (toRelease_complete ps p hp).1, fun hp => mem_toRelease ps hp (hc p hp)⟩
  · rcases hr with rfl | ⟨ret, rfl⟩
    · -- still in the waiting loop
      rw [mpWaitAll] at h
      rcases Prog.bind_eq_error h with h₁ | ⟨r₁, s₁, h₁, h₂⟩
      · exact absurd h₁ (postWaits_not_spinning ps)
      · split at h₂
        · cases h₂
        rcases Prog.bind_eq_error h₂ with h₃ | ⟨r₂, s₂, h₃, h₄⟩
        · obtain ⟨b, hb, hm⟩ := spinAll_moves (.inl rfl) h₃
          have ht := (tame_moves he hm).1
          rw [hb] at ht
          rw [hnone ((tame_postWaits ps h₁).trans ht)]
          exact List.nodup_nil
        · split at h₄
          · cases h₄
          · obtain ⟨w', hrun, -⟩ := releaseAll_run ps 0 s₂.w s₂.tape
            rw [hrun] at h₄
            cases h₄
    · rcases mpWaitAll_cases h with hg | ⟨s₂, hg, hrel⟩
      · rw [hnone (hgive hg).2]
        exact List.nodup_nil
      · rw [(mpWaitAll_released he hlive hg hrel).2.1]
        exact toRelease_nodup ps s₂.w

/-- A send is outstanding, and its completion is there at the first poll. One
handle of it is waited for and put back; with the handle repeated, the call
fails and has put it back once. -/
theorem wait_all_releases_once_of_send :
    ∃ w, w = World.init.after onePeer [sendOne] ∧ Live w 0 ∧
      (mpWaitAll onePeer [0] ⟨w, [{}, { picks := [0] }]⟩).1 = .ok 0 ∧
      releases (newLog w (mpWaitAll onePeer [0] ⟨w, [{}, { picks := [0] }]⟩).2.w) = [0] ∧
      (mpWaitAll onePeer [0, 0] ⟨w, [{}, { picks := [0] }]⟩).1 = .ok mpFailure ∧
      (releases (newLog w (mpWaitAll onePeer [0, 0] ⟨w, [{}, { picks := [0] }]⟩).2.w)).Nodup := by
  have hr : Reach onePeer WaitCalls (World.init.after onePeer [sendOne]) :=
    Reach.init.after onePeer ⟨trivial, by decide, trivial⟩
  have hlive : Live (World.init.after onePeer [sendOne]) 0 :=
    (live_iff_owner (coreInv_of_waitCalls rfl hr) 0).mpr (by decide)
  have hall : ∀ ps : List Ptr, (∀ p ∈ ps, p = 0) → ∀ p ∈ ps, Live (World.init.after onePeer [sendOne]) p :=
    fun ps h p hp => h p hp ▸ hlive
  have hone := @wait_all_releases_once onePeer rfl [0] (World.init.after onePeer [sendOne])
    [{}, { picks := [0] }] (hall _ (by simp)) _ _ rfl
  have htwo := @wait_all_releases_once onePeer rfl [0, 0] (World.init.after onePeer [sendOne])
    [{}, { picks := [0] }] (hall _ (by simp)) _ _ rfl
  have hzero : (mpWaitAll onePeer [0] ⟨World.init.after onePeer [sendOne], [{}, { picks := [0] }]⟩).1 = .ok 0 := by
    decide
  have hfail : (mpWaitAll onePeer [0, 0] ⟨World.init.after onePeer [sendOne], [{}, { picks := [0] }]⟩).1 =
      .ok mpFailure := by decide
  exact ⟨_, rfl, hlive, hzero, (hone.1 hzero).2.2.1, hfail, htwo.2.2.2 (.inr ⟨_, hfail⟩)⟩

end LibMp
