import LibMp.Line
import LibMp.PostedList

/- `last_tracked_id` with event sync, completions polled in the order in which
   the work requests were accepted.

   The completion loop asserts that a triggered request it finds has an id above
   `last_tracked_id`. It has where the armed requests stand in line in the order
   of their ids (`TrackedInv`); a request armed while an earlier armed one stands
   behind it breaks the order. -/
namespace LibMp
variable {cfg : Config}

/-- Completions are polled in the order of acceptance. -/
def inOrder (ans : Ans) : Prop := ∀ k ∈ ans.picks, k = 0

/-- Every armed request of client `c` and flow `f` has a place in line, in front
of the request at `p` if that has one. -/
def ArmedAhead (cfg : Config) (w : World) (c : Nat) (f : Flow) (p : Ptr) : Prop :=
  ∀ q, w.Armed cfg q c f → w.InLine c f q ∧ (w.InLine c f p → w.Ahead c f q p)

/-- Every armed send of client `c`, the one at `p` apart, has a place in line. -/
def ArmedInLine (cfg : Config) (w : World) (c : Nat) (p : Option Ptr) : Prop :=
  ∀ q, w.Armed cfg q c .tx → some q ≠ p → w.InLine c .tx q

/-- A request is armed behind all armed ones. -/
def armsInOrder (cfg : Config) : Lbl → Mach → Prop
  | .arm c f p, a => a.cur = none ∧ ArmedAhead cfg a.w c f p
  | .armTail c p, a => ArmedInLine cfg a.w c (some p)
  | _, _ => True

/-- See the head of the file. -/
structure TrackedInv (cfg : Config) (a : Mach) (pl : Nat → List Ptr) : Prop where
  ids : TrackedIds cfg a
  fresh : a.FreshCur
  sorted : ∀ c f p q, [p, q].Sublist (lineOf a.w pl c f) → (a.w.mem p).trigger = true →
    (a.w.mem q).trigger = true → (a.w.mem p).id < (a.w.mem q).id
  /-- an armed request without a place was armed last -/
  outside : ∀ p c f, a.w.Armed cfg p c f → p ∉ lineOf a.w pl c f → ∀ q, a.w.Armed cfg q c f → q ≠ p →
    (a.w.mem q).id < (a.w.mem p).id
  above : ∀ p c f, a.w.Armed cfg p c f → (a.w.clients c).lastTrackedId f < (a.w.mem p).id

section Step
variable {a b : Mach} {l : Lbl} {fl fl' : List Ptr} {pl : Nat → List Ptr} {c : Nat} {f : Flow} {p q : Ptr}

/-- A triggered request in line is armed. -/
theorem Core.armed_of_line (hc : Core cfg a fl pl) (hp : p ∈ lineOf a.w pl c f) (ht : (a.w.mem p).trigger = true) :
    a.w.Armed cfg p c f := ⟨(hc.line_mem hp).1, (hc.line_mem hp).2.1, ht, hc.line_incomplete hp⟩

/-- What arming the request at `p` needs and gives, whichever way it is armed. -/
structure Arms (cfg : Config) (a b : Mach) (pl : Nat → List Ptr) (c : Nat) (f : Flow) (p : Ptr) : Prop where
  below : (a.w.clients c).lastPostedTrackedId f < (a.w.mem p).id
  posted : (b.w.clients c).lastPostedTrackedId f = (a.w.mem p).id
  in_line : ∀ q, a.w.Armed cfg q c f → q ∈ lineOf a.w pl c f
  ahead : p ∈ lineOf a.w pl c f → ∀ q, a.w.Armed cfg q c f → [q, p].Sublist (lineOf a.w pl c f)

theorem arms_of_step (hc : Core cfg a fl pl) (h : TrackedInv cfg a pl) (hk : armsInOrder cfg l a)
    (hs : Step cfg inOrder l a b) (hl : l = .arm c f p ∨ l = .armTail c p ∧ f = .tx) : Arms cfg a b pl c f p := by
  have hid := step_lastPostedTrackedId hs c f
  rcases hl with rfl | ⟨rfl, rfl⟩
  · cases hs with
    | arm _ _ _ _ hlt =>
      refine ⟨hlt, by simpa using hid, fun q hq => hc.inLine_iff.mp (hk.2 q hq).1, fun hp q hq => ?_⟩
      exact hc.ahead_iff.mp ((hk.2 q hq).2 (hc.inLine_iff.mpr hp))
  · cases hs with
    | @armTail w cur _ _ _ hat htail hlt =>
      have hne : ∀ q, World.Armed cfg w q c .tx → q ≠ p := by
        rintro q hq rfl
        exact Nat.lt_irrefl _ (Nat.lt_of_lt_of_le hlt (h.ids.armed_le q c .tx hq))
      have hin : ∀ q, World.Armed cfg w q c .tx → q ∈ lineOf w pl c .tx :=
        fun q hq => hc.inLine_iff.mp (hk q hq (fun he => hne q hq (Option.some.inj he)))
      exact ⟨hlt, by simpa using hid, hin, fun _ q hq => sublist_of_getLast? (hc.line_last htail) (hin q hq) (hne q hq)⟩

/-- An armed request after a step: armed before, with the same id, or armed by the step. -/
theorem armed_cases (he : cfg.useEventSync = true) (hc : Core cfg a fl pl) (h : TrackedInv cfg a pl)
    (hk : armsInOrder cfg l a) (hs : Step cfg inOrder l a b) (hp : b.w.Armed cfg p c f) :
    (b.w.mem p).id = (a.w.mem p).id ∧ (a.w.Armed cfg p c f ∨ Arms cfg a b pl c f p) := by
  obtain ⟨hid, hold | hnew⟩ := step_armed he hs hp
  · exact ⟨hid, .inl hold⟩
  · exact ⟨hid, .inr (arms_of_step hc h hk hs hnew)⟩

/-- A polled completion takes the head of the line away. -/
theorem reap_head (hc : Core cfg a fl pl) {k : Nat} {wr : Wr} (hs : Step cfg inOrder (.reap c f k) a b)
    (hk : (a.w.cq c f)[k]? = some wr) :
    lineOf a.w pl c f = wr.wrId :: lineOf b.w pl c f ∧ (b.w.mem wr.wrId).status = .complete ∧
      a.w.At cfg wr.wrId c f ∧ (a.w.mem wr.wrId).owner ≠ none ∧ (a.w.mem wr.wrId).status.isPending := by
  have hline := step_line hc hs c f
  simp only [Lbl.posted, and_self, if_true] at hline
  rw [hline]
  obtain ⟨h1, h2, -, h3⟩ := hc.cq_mem c f wr (List.mem_of_getElem? hk)
  cases hs with
  | @reap w cur _ _ _ wr' ans hk' hp _ hgood hpick =>
    obtain rfl := hgood k hpick
    obtain rfl : wr' = wr := Option.some.inj (hk'.symm.trans hk)
    refine ⟨?_, by simp only [World.complete_mem cfg hp, if_true], h2, h1, h3⟩
    obtain ⟨x, rest, hcq⟩ : ∃ x rest, w.cq c f = x :: rest := by
      cases hcq : w.cq c f with
      | nil => rw [hcq] at hk'; cases hk'
      | cons x rest => exact ⟨x, rest, rfl⟩
    rw [hcq] at hk'
    cases hk'
    simp [lineOf, hcq]

theorem TrackedInv.above_step (he : cfg.useEventSync = true) (hc : Core cfg a fl pl) (h : TrackedInv cfg a pl)
    (hk : armsInOrder cfg l a) (hs : Step cfg inOrder l a b) (hp : b.w.Armed cfg p c f) :
    (b.w.clients c).lastTrackedId f < (b.w.mem p).id := by
  obtain ⟨hid, hold | hnew⟩ := armed_cases he hc h hk hs hp
  · rw [hid]
    rcases step_lastTrackedId he h.ids.no_writes hs c f with ⟨heq, -⟩ | ⟨k, wr, rfl, hwr, ht, heq, -⟩
    · rw [heq]; exact h.above p c f hold
    · -- the request that completes was armed, in front of `p` or before it
      rw [heq]
      obtain ⟨hline, hst, hat, ho, hpend⟩ := reap_head hc hs hwr
      have hne : p ≠ wr.wrId := by rintro rfl; exact hp.status hst
      have harm : a.w.Armed cfg wr.wrId c f := by
        refine ⟨ho, hat, ht, fun hcomp => ?_⟩
        rw [hcomp] at hpend
        exact hpend
      by_cases hin : p ∈ lineOf a.w pl c f
      · refine h.sorted c f wr.wrId p ?_ ht hold.trigger
        rw [hline] at hin ⊢
        rcases List.mem_cons.mp hin with hin | hin
        · exact absurd hin hne
        · exact (List.singleton_sublist.mpr hin).cons_cons wr.wrId
      · exact h.outside p c f hold hin wr.wrId harm (Ne.symm hne)
  · rw [hid]
    rcases step_lastTrackedId he h.ids.no_writes hs c f with ⟨heq, -⟩ | ⟨k, wr, rfl, -⟩
    · rw [heq]; exact Nat.lt_of_le_of_lt (h.ids.tracked_le c f) hnew.below
    · exact absurd (step_lastPostedTrackedId hs c f) (by
        rw [hnew.posted]
        exact Nat.ne_of_gt hnew.below)

/-- A step arms one request. -/
theorem arms_one {l : Lbl} (hp : l = .arm c f p ∨ l = .armTail c p ∧ f = .tx)
    (hq : l = .arm c f q ∨ l = .armTail c q ∧ f = .tx) : q = p := by
  rcases hp with rfl | ⟨rfl, -⟩ <;> rcases hq with hq | ⟨hq, -⟩ <;> cases hq <;> rfl

theorem TrackedInv.outside_step (he : cfg.useEventSync = true) (hc : Core cfg a fl pl) (h : TrackedInv cfg a pl)
    (hk : armsInOrder cfg l a) (hs : Step cfg inOrder l a b) (hp : b.w.Armed cfg p c f)
    (hout : p ∉ lineOf b.w (l.posted pl) c f) (hq : b.w.Armed cfg q c f) (hne : q ≠ p) :
    (b.w.mem q).id < (b.w.mem p).id := by
  obtain ⟨hidp, hpa⟩ := step_armed he hs hp
  obtain ⟨hidq, hqa⟩ := step_armed he hs hq
  rw [hidp, hidq]
  -- the line loses a request by its completion only
  have hout' : p ∉ lineOf a.w pl c f := by
    intro hin
    have hline := step_line hc hs c f
    cases l with
    | reap d g k =>
      obtain ⟨wr, hwr⟩ : ∃ wr, (a.w.cq d g)[k]? = some wr := by
        cases hs with
        | reap hwr => exact ⟨_, hwr⟩
      by_cases hcf : c = d ∧ f = g
      · obtain ⟨rfl, rfl⟩ := hcf
        obtain ⟨hl, hst, -⟩ := reap_head hc hs hwr
        rw [hl] at hin
        rcases List.mem_cons.mp hin with rfl | hin
        · exact hp.status hst
        · exact hout hin
      · simp only [hcf, if_false] at hline
        rw [hline] at hout
        exact hout hin
    | accept d g x =>
      dsimp only at hline
      rw [hline] at hout
      split at hout
      · refine hout ?_
        rcases List.mem_append.mp hin with hin | hin
        · exact List.mem_append_left _ hin
        · exact List.mem_append_right _ (List.mem_cons_of_mem _ hin)
      · exact hout hin
    | track d x s =>
      dsimp only at hline
      rw [hline] at hout
      split at hout
      · exact hout (List.mem_append_left _ hin)
      · exact hout hin
    | _ => exact hout (hline ▸ hin)
  rcases hpa with hpa | hpa
  · rcases hqa with hqa | hqa
    · exact h.outside p c f hpa hout' q hqa hne
    · exact absurd ((arms_of_step hc h hk hs hqa).in_line p hpa) hout'
  · rcases hqa with hqa | hqa
    · exact Nat.lt_of_le_of_lt (h.ids.armed_le q c f hqa) (arms_of_step hc h hk hs hpa).below
    · exact absurd (arms_one hpa hqa) hne

/-- Two armed requests in line after a step stood there before in this order,
or the step has appended the second one. -/
theorem line_order (hc : Core cfg a fl pl) (h : TrackedInv cfg a pl) (hs : Step cfg inOrder l a b)
    (hc' : Core cfg b fl' (l.posted pl)) (hpq : [p, q].Sublist (lineOf b.w (l.posted pl) c f))
    (hp : a.w.Armed cfg p c f) (hq : a.w.Armed cfg q c f) (hne : p ≠ q) : (a.w.mem p).id < (a.w.mem q).id := by
  have hline := step_line hc hs c f
  have hnd := hc'.line_nodup c f
  cases l with
  | accept d g x =>
    dsimp only at hline
    split at hline
    · -- what the CPU posts is not armed, and the others keep their order
      rw [hline] at hpq
      have hx : (a.w.mem x).trigger = false := by
        cases hs with
        | accept hst => exact h.fresh _ rfl hst
      have hmem : x ∉ [p, q] := by
        intro hm
        simp only [List.mem_cons, List.not_mem_nil, or_false] at hm
        rcases hm with rfl | rfl
        · rw [hp.trigger] at hx; cases hx
        · rw [hq.trigger] at hx; cases hx
      exact h.sorted c f p q (sublist_remove hpq hmem) hp.trigger hq.trigger
    · rw [hline] at hpq
      exact h.sorted c f p q hpq hp.trigger hq.trigger
  | track d x s =>
    have hx : x ∉ lineOf a.w pl c f := by
      cases hs with
      | track => exact hc.cur_not_line rfl
    dsimp only at hline
    split at hline
    · -- `x` comes last, so it can only be the second of the two
      rw [hline] at hpq hnd
      by_cases hqx : q = x
      · subst hqx
        exact h.outside q c f hq hx p hp hne
      · have hpx : p ≠ x := by
          rintro rfl
          have hqin : q ∈ lineOf a.w pl c f := by
            rcases List.mem_append.mp (hpq.subset (List.mem_cons_of_mem _ List.mem_cons_self)) with hm | hm
            · exact hm
            · exact absurd (List.mem_singleton.mp hm) hqx
          exact sublist_asymm hnd hpq ((List.singleton_sublist.mpr hqin).append (List.Sublist.refl [p]))
        refine h.sorted c f p q ?_ hp.trigger hq.trigger
        have : [p, q].Sublist (lineOf a.w pl c f ++ []) :=
          sublist_remove hpq (by simp [Ne.symm hpx, Ne.symm hqx])
        rwa [List.append_nil] at this
    · rw [hline] at hpq
      exact h.sorted c f p q hpq hp.trigger hq.trigger
  | reap d g k =>
    dsimp only at hline
    refine h.sorted c f p q (hpq.trans ?_) hp.trigger hq.trigger
    rw [hline]
    split
    · exact ((List.eraseIdx_sublist _ _).map _).append (List.Sublist.refl _)
    · exact List.Sublist.refl _
  | _ =>
    rw [show lineOf b.w _ c f = lineOf a.w pl c f from hline] at hpq
    exact h.sorted c f p q hpq hp.trigger hq.trigger

/-- The order of the triggered requests in line, in the terms of the state before the step. -/
theorem TrackedInv.sorted_before (he : cfg.useEventSync = true) (hc : Core cfg a fl pl) (h : TrackedInv cfg a pl)
    (hk : armsInOrder cfg l a) (hs : Step cfg inOrder l a b) (hc' : Core cfg b fl' (l.posted pl))
    (hpq : [p, q].Sublist (lineOf b.w (l.posted pl) c f)) (hp : (b.w.mem p).trigger = true)
    (hq : (b.w.mem q).trigger = true) : (a.w.mem p).id < (a.w.mem q).id := by
  have hpb := hc'.armed_of_line (hpq.subset List.mem_cons_self) hp
  have hqb := hc'.armed_of_line (hpq.subset (List.mem_cons_of_mem _ List.mem_cons_self)) hq
  have hne : p ≠ q := by
    rintro rfl
    have := (hc'.line_nodup c f).sublist hpq
    simp at this
  obtain ⟨-, hpa⟩ := step_armed he hs hpb
  obtain ⟨-, hqa⟩ := step_armed he hs hqb
  have hline := step_line hc hs c f
  rcases hpa with hpa | hpa
  · rcases hqa with hqa | hqa
    · refine line_order hc h hs hc' hpq hpa hqa hne
    · exact Nat.lt_of_le_of_lt (h.ids.armed_le p c f hpa) (arms_of_step hc h hk hs hqa).below
  · rcases hqa with hqa | hqa
    · -- what was armed stands in front of what the step arms
      have harm := arms_of_step hc h hk hs hpa
      have hsame : lineOf b.w (l.posted pl) c f = lineOf a.w pl c f := by
        rcases hpa with rfl | ⟨rfl, -⟩ <;> exact hline
      rw [hsame] at hpq
      exact (sublist_asymm (hc.line_nodup c f) hpq (harm.ahead (hpq.subset List.mem_cons_self) q hqa)).elim
    · exact absurd (arms_one hpa hqa).symm hne

theorem TrackedInv.step (he : cfg.useEventSync = true) (hc : Core cfg a fl pl) (h : TrackedInv cfg a pl)
    (hk : armsInOrder cfg l a) (hs : Step cfg inOrder l a b) : TrackedInv cfg b (l.posted pl) where
  ids := h.ids.step he hc hs
  fresh := h.fresh.step hc hs (by rintro c f p rfl; exact hk.1)
  sorted c f p q hpq hp hq := by
    obtain ⟨fl', hc'⟩ := hc.step_posted hs
    have hidp := (step_armed he hs (hc'.armed_of_line (hpq.subset List.mem_cons_self) hp)).1
    have hidq := (step_armed he hs
      (hc'.armed_of_line (hpq.subset (List.mem_cons_of_mem _ List.mem_cons_self)) hq)).1
    rw [hidp, hidq]
    exact h.sorted_before he hc hk hs hc' hpq hp hq
  outside _ _ _ hp hout _ hq hne := h.outside_step he hc hk hs hp hout hq hne
  above _ _ _ hp := h.above_step he hc hk hs hp

end Step

/-! ## Runs -/

/-- CPU-posted operations, sends on a stream and prepared sends, CPU and stream
waits, and progress; completions are polled in the order of acceptance. -/
def TrackedCalls : Event → World → Prop
  | .call op tape, w => (∀ ans ∈ tape, inOrder ans) ∧
    match op with
    | .isend .. | .irecv .. | .iput .. | .iget .. | .sendOnStream .. | .isendOnStream .. | .sendPrepare ..
    | .sendPost .. | .isendPost .. | .sendPostAll .. | .isendPostAll .. | .waitOnStream .. | .waitAll _
    | .progressAll _ | .progress _ => EventScope (.call op tape) w
    | _ => False
  | .gpu _, _ | .work _ _, _ => True

theorem TrackedCalls.scope {ev : Event} {w : World} (h : TrackedCalls ev w) : EventScope ev w := by
  cases ev with
  | call op tape => cases op <;> first | exact h.2 | exact h.2.elim
  | gpu | work => trivial

/-- A call that arms a request does so behind all armed ones: a wait on a stream
finds them in line in front of its request, a blocking send finds them in line. -/
def ArmsInOrder (cfg : Config) : Event → World → Prop
  | .call op _, w =>
    match op with
    | .waitOnStream p _ => ∀ c, cfg.clientIndex (w.mem p).peer = some c → (w.mem p).status ≠ .complete →
      (w.clients c).lastPostedTrackedId (w.mem p).type.flow < (w.mem p).id →
      ArmedAhead cfg w c (w.mem p).type.flow p
    | .sendOnStream _ _ peer _ _ => ∀ c, cfg.clientIndex peer = some c → ArmedInLine cfg w c none
    | .sendPost p _ => ∀ c, cfg.clientIndex (w.mem p).peer = some c → ArmedInLine cfg w c (some p)
    | .sendPostAll ps _ => ∀ p ∈ ps, ∀ c, cfg.clientIndex (w.mem p).peer = some c → ArmedInLine cfg w c none
    | _ => True
  | _, _ => True

/-- Posting keeps the armed sends in line. -/
theorem armedInLine_moves (he : cfg.useEventSync = true) {Good : Ans → Prop} {w : World} {b : Mach} {c : Nat}
    {x : Option Ptr} (hc : CoreInv cfg ⟨w, none⟩) (h : ArmedInLine cfg w c x)
    (hm : PostMoves cfg Good ⟨w, none⟩ b) : ArmedInLine cfg b.w c x := by
  obtain ⟨fl, pl, hc⟩ := hc
  have hinit : ∀ q, World.Armed cfg w q c .tx → some q ≠ x → q ∈ lineOf w pl c .tx :=
    fun q hq hx => hc.inLine_iff.mp (h q hq hx)
  have hstep : ∀ (a b : Mach) (l : Lbl) (fl : List Ptr) (pl : Nat → List Ptr), Core cfg a fl pl →
      (∀ q, a.w.Armed cfg q c .tx → some q ≠ x → q ∈ lineOf a.w pl c .tx) → l.Posting → Step cfg Good l a b →
      ∀ q, b.w.Armed cfg q c .tx → some q ≠ x → q ∈ lineOf b.w (l.posted pl) c .tx := by
    intro a b l fl pl hc ha hl hs q hq hx
    obtain ⟨fl', hc'⟩ := hc.step_posted hs
    have hline := step_line hc hs c .tx
    obtain ⟨-, hold | hnew⟩ := step_armed he hs hq
    · have hin := ha q hold hx
      cases l with
      | track d y s =>
        dsimp only at hline
        rw [hline]
        split
        · exact List.mem_append_left _ hin
        · exact hin
      | take | build | stamp | armTail | touch => rw [hline]; exact hin
      | _ => exact hl.elim
    · rcases hnew with rfl | ⟨rfl, -⟩
      · exact hl.elim
      · -- a post arms what it has appended, the last of the line
        cases hs with
        | @armTail w cur _ _ _ hat htail hlt =>
          have htl := (hc'.posted c).tail_eq
          have hsame : ((w.arm c .tx q).clients c).lastPostedStreamReq .tx = some q := by
            rw [← htail]
            exact congrFun ((SameCore.arm w c .tx q).lastPosted c) .tx
          rw [show ((w.arm c .tx q).clients c).lastPostedStreamReq .tx = some q from hsame] at htl
          exact List.mem_append_right _ (List.mem_of_mem_getLast? htl)
  obtain ⟨fl', pl', hc', hb⟩ := inv_moves (K := fun l _ => l.Posting)
    (J := fun a pl => ∀ q, a.w.Armed cfg q c .tx → some q ≠ x → q ∈ lineOf a.w pl c .tx) hstep hc hinit hm
  exact fun q hq hx => hc'.inLine_iff.mpr (hb q hq hx)

theorem opOk_of_armsInOrder (he : cfg.useEventSync = true) {w : World} (hc : CoreInv cfg ⟨w, none⟩) {op : Op}
    {tape : List Ans} (h : TrackedCalls (.call op tape) w) (ha : ArmsInOrder cfg (.call op tape) w) :
    OpOk cfg inOrder (armsInOrder cfg) w op := by
  have hnone : ∀ c p, ArmedInLine cfg w c none → ArmedInLine cfg w c (some p) :=
    fun c p h q hq _ => h q hq (by simp)
  obtain ⟨-, h⟩ := h
  cases op with
  | isend | irecv | iput | iget | isendOnStream | waitAll | progressAll | progress => exact trivial
  | sendOnStream buf size peer reg s =>
    exact fun b c p hm hpeer => armedInLine_moves he hc (hnone c p (ha c hpeer)) hm
  | sendPrepare => exact he
  | sendPost p s =>
    exact ⟨he, preparedSend_of_owner hc h.2, fun b c hm hpeer => armedInLine_moves he hc (ha c hpeer) hm⟩
  | isendPost p s => exact ⟨he, preparedSend_of_owner hc h.2⟩
  | sendPostAll ps s =>
    refine ⟨he, fun p hp => preparedSend_of_owner hc (h p hp).2, fun b c q hm hex => ?_⟩
    obtain ⟨p, hp, hpeer⟩ := hex
    exact armedInLine_moves he hc (hnone c q (ha p hp c hpeer)) hm
  | isendPostAll ps s => exact ⟨he, fun p hp => preparedSend_of_owner hc (h p hp).2⟩
  | waitOnStream p s =>
    refine ⟨fun _ => ⟨(live_iff_owner hc p).mp h, fun c hpeer hst hlt => ⟨rfl, ha c hpeer hst hlt⟩⟩, fun hn => ?_⟩
    rw [he] at hn
    cases hn
  | _ => exact h.elim

section Runs
variable (he : cfg.useEventSync = true)
include he

theorem tracked_moves {w : World} {ev : Event} (hc : CoreInv cfg ⟨w, none⟩) (h : TrackedCalls ev w)
    (hev : ArmsInOrder cfg ev w) (ha : alive (ev.exec cfg w).1) :
    Moves (Move cfg inOrder (armsInOrder cfg)) ⟨w, none⟩ ⟨(ev.exec cfg w).2, none⟩ := by
  refine event_moves ?_ (fun _ _ _ => trivial) ?_ (fun _ _ _ _ _ => trivial) ?_ ?_ ha
  · intro l a hl
    cases l <;> trivial
  · exact fun k hk => absurd hk List.not_mem_nil
  · rintro op tape rfl
    exact ⟨opOk_of_armsInOrder he hc h hev, h.1⟩
  · exact fun g _ k hk => absurd hk List.not_mem_nil

theorem trackedInv_of_reach {w : World} (h : Reach cfg (fun ev w => TrackedCalls ev w ∧ ArmsInOrder cfg ev w) w) :
    ∃ fl pl, Core cfg ⟨w, none⟩ fl pl ∧ TrackedInv cfg ⟨w, none⟩ pl := by
  have hm : Moves (Move cfg inOrder (armsInOrder cfg)) ⟨World.init, none⟩ ⟨w, none⟩ :=
    reach_moves (fun w ev hc _ hev ha => tracked_moves he hc hev.1 hev.2 ha) h
  obtain ⟨fl, hc⟩ := Core.init cfg
  refine inv_moves (J := TrackedInv cfg) (fun a b l fl pl hc h hk hs => h.step he hc hk hs) hc ?_ hm
  constructor
  · exact TrackedIds.init
  · intro k hk
    cases hk
  · intro c f p q hpq
    rw [show lineOf _ _ c f = [] from init_line c f] at hpq
    cases hpq
  · exact fun p c f hp => absurd hp init_not_armed
  · exact fun p c f hp => absurd hp init_not_armed

/-- Where requests are armed in the order of the line, the assertion of the
completion loop does not fail, each triggered completion raises
`last_tracked_id`, and what it covers is complete. -/
theorem tracked_ids_in_order {w : World}
    (h : Reach cfg (fun ev w => TrackedCalls ev w ∧ ArmsInOrder cfg ev w) w) :
    (∀ op tape, TrackedCalls (.call op tape) w → ArmsInOrder cfg (.call op tape) w →
      (op.exec cfg tape w).1 ≠ .error .assertTracked) ∧
    (∀ c f, ∀ wr ∈ w.cq c f, (w.mem wr.wrId).trigger = true →
      (w.clients c).lastTrackedId f < (w.mem wr.wrId).id) ∧
    ∀ c f p, Live w p → w.At cfg p c f → (w.mem p).trigger = true →
      (w.mem p).id ≤ (w.clients c).lastTrackedId f → (w.mem p).status = .complete := by
  obtain ⟨fl, pl, hc, hinv⟩ := trackedInv_of_reach he h
  have harmed : ∀ {a : Mach} {fl pl c f wr}, Core cfg a fl pl → wr ∈ a.w.cq c f → (a.w.mem wr.wrId).trigger = true →
      a.w.Armed cfg wr.wrId c f := fun hc hwr ht =>
    hc.armed_of_line (List.mem_append_left _ (List.mem_map_of_mem hwr)) ht
  refine ⟨?_, fun c f wr hwr ht => hinv.above _ c f (harmed hc hwr ht), ?_⟩
  · intro op tape hop hev hexit
    have hf : Follows cfg inOrder (armsInOrder cfg) ⟨w, none⟩ (op.run cfg) (fun _ b => b.Built) := by
      refine follows_run ?_ (fun _ _ _ => trivial) ?_ (opOk_of_armsInOrder he ⟨fl, pl, hc⟩ hop hev)
      · intro l a hl
        cases l <;> trivial
      · exact fun k hk => absurd hk List.not_mem_nil
    obtain ⟨a, s, hma, c, f, k, wr, ans, hk, hbad, -⟩ := exec_halt hf hop.1 hexit
    obtain ⟨fl', pl', hc', hinv'⟩ := inv_moves (J := TrackedInv cfg) (fun a b l fl pl hc h hk hs => h.step he hc hk hs)
      hc hinv hma
    exact hbad fun _ ht => hinv'.above _ c f (harmed hc' (List.mem_of_getElem? hk) ht)
  · intro c f p hlive hat ht hid
    by_contra hst
    have := hinv.above p c f ⟨(live_iff_owner ⟨fl, pl, hc⟩ p).mp hlive, hat, ht, hst⟩
    exact Nat.lt_irrefl _ (Nat.lt_of_lt_of_le this hid)

end Runs

/-- Progress of the sends; the head of the posted list is looked at first, then
the poll finds a completion. -/
def pollSecond : Event := .call (.progress .tx) [{}, { picks := [0] }]

/-- A wait arms the only send; its id is above `last_tracked_id`. -/
theorem tracked_ids_in_order_of_wait :
    ∃ w, Reach eventPeer (fun ev w => TrackedCalls ev w ∧ ArmsInOrder eventPeer ev w) w ∧
      ⟨0, 1⟩ ∈ w.cq 0 .tx ∧ (w.mem 0).trigger = true ∧ (w.clients 0).lastTrackedId .tx < (w.mem 0).id := by
  have h₀ : Reach eventPeer (fun ev w => TrackedCalls ev w ∧ ArmsInOrder eventPeer ev w)
      (World.init.after eventPeer [isendOne]) :=
    Reach.init.after eventPeer ⟨⟨⟨by simp, trivial⟩, trivial⟩, by decide, trivial⟩
  have hlive := live_of_reach (p := 0) rfl (fun _ _ hev => hev.1.scope) h₀ (by decide)
  have harms : ArmsInOrder eventPeer (waitOnOne 0) (World.init.after eventPeer [isendOne]) := by
    intro c hpeer _ _ q hq
    obtain rfl : 0 = c := Option.some.inj ((show _ = some 0 by decide).symm.trans hpeer)
    obtain ⟨fl, pl, -, hinv⟩ := trackedInv_of_reach rfl h₀
    exact absurd hq (hinv.ids.not_armed (by decide) q)
  have h₁ := h₀.step (waitOnOne 0) ⟨⟨by simp, hlive⟩, harms⟩ (by decide)
  have hcq : ⟨0, 1⟩ ∈ ((waitOnOne 0).exec eventPeer (World.init.after eventPeer [isendOne])).2.cq 0 .tx := by decide
  exact ⟨_, h₁, hcq, by decide, (tracked_ids_in_order rfl h₁).2.1 0 .tx _ hcq (by decide)⟩

/-- A send on stream 0 is tracked, then the CPU posts a send; stream 1 waits
for both, in this order, and the second completes first. When the first one
completes, `last_tracked_id` is beyond its id. -/
theorem overtaken_send_ends_process :
    ∃ w, Reach eventPeer TrackedCalls w ∧ ((Event.call (.progress .tx) [{}, {}, { picks := [0] }]).exec eventPeer w).1 =
      .error .assertTracked := by
  have h₀ : Reach eventPeer TrackedCalls (World.init.after eventPeer [sendOnZero, isendOne]) :=
    Reach.init.after eventPeer ⟨⟨by simp, trivial⟩, by decide, ⟨by simp, trivial⟩, by decide, trivial⟩
  have h₁ := h₀.step (waitOnOne 0) ⟨by simp, live_of_reach rfl (fun _ _ hev => hev.scope) h₀ (by decide)⟩ (by decide)
  have h₂ := h₁.step (waitOnOne 1) ⟨by simp, live_of_reach rfl (fun _ _ hev => hev.scope) h₁ (by decide)⟩ (by decide)
  have h₃ := h₂.step pollSecond ⟨by simp [inOrder], trivial⟩ (by decide)
  have h₄ := h₃.step (.gpu (.run 0)) trivial (by decide)
  exact ⟨_, h₄, rfl⟩

end LibMp
