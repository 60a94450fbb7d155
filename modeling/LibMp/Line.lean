import LibMp.Runs

/- The line of a client and flow: the requests that will complete, in the
   order in which they will, if completions are polled in the order in which
   the work requests were accepted. First those in the completion queue, then
   the posted list.

   A send that is handed over keeps its place. A request that the CPU posts
   takes its place in front of the posted list: it overtakes sends that wait
   for their stream, and ids in a line need not increase. `Armed` are the
   requests whose completion will raise `last_tracked_id`. -/
namespace LibMp
variable {cfg : Config} {Good : Ans → Prop} {K : Lbl → Mach → Prop}

/-- The line of client `c` and flow `f`. -/
def World.Line (w : World) (c : Nat) (f : Flow) (l : List Ptr) : Prop :=
  ∃ m, Linked (fun p => (w.mem p).next) ((w.clients c).postedStreamReq f) m ∧ l = (w.cq c f).map Wr.wrId ++ m

/-- The request at `p` has a place in the line. -/
def World.InLine (w : World) (c : Nat) (f : Flow) (p : Ptr) : Prop := ∃ l, w.Line c f l ∧ p ∈ l

/-- The request at `p` stands in front of the one at `q`. -/
def World.Ahead (w : World) (c : Nat) (f : Flow) (p q : Ptr) : Prop := ∃ l, w.Line c f l ∧ [p, q].Sublist l

/-- The line is read off the completion queue and the links. -/
theorem World.line_congr {w w' : World} {c : Nat} {f : Flow} (hn : ∀ q, (w'.mem q).next = (w.mem q).next)
    (hp : (w'.clients c).postedStreamReq f = (w.clients c).postedStreamReq f) (hq : w'.cq c f = w.cq c f)
    (l : List Ptr) : w'.Line c f l ↔ w.Line c f l := by
  unfold World.Line
  rw [hp, hq, show (fun q => (w'.mem q).next) = fun q => (w.mem q).next from funext hn]

/-- A request of client `c` and flow `f` that will raise `last_tracked_id`
when it completes. -/
structure World.Armed (cfg : Config) (w : World) (p : Ptr) (c : Nat) (f : Flow) : Prop where
  owner : (w.mem p).owner ≠ none
  at_ : w.At cfg p c f
  trigger : (w.mem p).trigger = true
  status : (w.mem p).status ≠ .complete

/-- A request in hand that is to be posted by the CPU is not triggered. -/
def Mach.FreshCur (a : Mach) : Prop := ∀ k, a.cur = some k → k.st.isPending → (a.w.mem k.ptr).trigger = false

/-- The posted list of client `c` and flow `f`; there is none for receives. -/
def postedOf (pl : Nat → List Ptr) (c : Nat) : Flow → List Ptr
  | .tx => pl c
  | .rx => []

/-- The line, with the posted lists `pl`. -/
def lineOf (w : World) (pl : Nat → List Ptr) (c : Nat) (f : Flow) : List Ptr :=
  (w.cq c f).map Wr.wrId ++ postedOf pl c f

section Invariant
variable {J : Mach → (Nat → List Ptr) → Prop}
  (hJ : ∀ a b l fl pl, Core cfg a fl pl → J a pl → K l a → Step cfg Good l a b → J b (l.posted pl))
include hJ

/-- What every step keeps, a run keeps: the rule for invariants that speak of
the posted lists. -/
theorem inv_moves {a b : Mach} {fl : List Ptr} {pl : Nat → List Ptr} (hc : Core cfg a fl pl) (h : J a pl)
    (hm : Moves (Move cfg Good K) a b) : ∃ fl' pl', Core cfg b fl' pl' ∧ J b pl' := by
  refine Moves.inv (I := fun a => ∃ fl pl, Core cfg a fl pl ∧ J a pl) ?_ hm ⟨fl, pl, hc, h⟩
  rintro a b ⟨fl, pl, hc, h⟩ ⟨l, hk, hs⟩
  obtain ⟨fl', hc'⟩ := hc.step_posted hs
  exact ⟨fl', _, hc', hJ a b l fl pl hc h hk hs⟩

end Invariant

section Lines
variable {a b : Mach} {l : Lbl} {fl : List Ptr} {pl : Nat → List Ptr} {c : Nat} {f : Flow} {p q : Ptr}

/-- There is one line. -/
theorem Core.line_iff (hc : Core cfg a fl pl) {m : List Ptr} : a.w.Line c f m ↔ m = lineOf a.w pl c f := by
  have hl : Linked (fun p => (a.w.mem p).next) ((a.w.clients c).postedStreamReq f) (postedOf pl c f) := by
    cases f with
    | tx => exact (hc.posted c).fwd
    | rx => rw [hc.posted_rx c]; exact Linked.nil
  constructor
  · rintro ⟨m', hm', rfl⟩
    rw [hm'.unique hl]
    rfl
  · rintro rfl
    exact ⟨_, hl, rfl⟩

/-- The tail of a posted list is on it. -/
theorem Core.tail_mem (hc : Core cfg a fl pl) (h : (a.w.clients c).lastPostedStreamReq .tx = some p) : p ∈ pl c := by
  have htl := (hc.posted c).tail_eq
  rw [h] at htl
  exact List.mem_of_mem_getLast? htl

theorem Core.line_last (hc : Core cfg a fl pl) (h : (a.w.clients c).lastPostedStreamReq .tx = some p) :
    (lineOf a.w pl c .tx).getLast? = some p := by
  have htl := (hc.posted c).tail_eq
  rw [h] at htl
  rw [lineOf, postedOf, List.getLast?_append, htl]
  rfl

/-- There is one line. -/
theorem Core.exists_line (hc : Core cfg a fl pl) {P : List Ptr → Prop} :
    (∃ m, a.w.Line c f m ∧ P m) ↔ P (lineOf a.w pl c f) := by
  constructor
  · rintro ⟨m, hm, hp⟩
    rw [hc.line_iff] at hm
    rw [← hm]
    exact hp
  · exact fun hp => ⟨_, hc.line_iff.mpr rfl, hp⟩

theorem Core.inLine_iff (hc : Core cfg a fl pl) : a.w.InLine c f p ↔ p ∈ lineOf a.w pl c f := hc.exists_line

theorem Core.ahead_iff (hc : Core cfg a fl pl) : a.w.Ahead c f p q ↔ [p, q].Sublist (lineOf a.w pl c f) :=
  hc.exists_line

/-- The requests in line are held, of this client and flow, and not complete. -/
theorem Core.line_mem (hc : Core cfg a fl pl) (hp : p ∈ lineOf a.w pl c f) :
    (a.w.mem p).owner ≠ none ∧ a.w.At cfg p c f ∧
      ((a.w.mem p).status = .prepared ∧ f = .tx ∧ p ∈ pl c ∨ (a.w.mem p).status.isPending) := by
  rcases List.mem_append.mp hp with hp | hp
  · obtain ⟨wr, hwr, rfl⟩ := List.mem_map.mp hp
    obtain ⟨h1, h2, -, h4⟩ := hc.cq_mem c f wr hwr
    exact ⟨h1, h2, .inr h4⟩
  · cases f with
    | rx => cases hp
    | tx =>
      obtain ⟨h1, h2, h3, -⟩ := hc.posted_mem c p hp
      exact ⟨h1, h2, .inl ⟨h3, rfl, hp⟩⟩

theorem Core.line_incomplete (hc : Core cfg a fl pl) (hp : p ∈ lineOf a.w pl c f) :
    (a.w.mem p).status ≠ .complete := by
  rcases (hc.line_mem hp).2.2 with ⟨h, -⟩ | h
  · rw [h]; decide
  · intro he; rw [he] at h; exact h

/-- A request stands in line once. -/
theorem Core.line_nodup (hc : Core cfg a fl pl) (c : Nat) (f : Flow) : (lineOf a.w pl c f).Nodup := by
  have hpl : (postedOf pl c f).Nodup := by
    cases f with
    | tx => exact hc.posted_nodup c
    | rx => exact List.nodup_nil
  refine List.Nodup.append (hc.cq_nodup c f) hpl ?_
  intro p hp hp'
  obtain ⟨wr, hwr, rfl⟩ := List.mem_map.mp hp
  cases f with
  | rx => cases hp'
  | tx =>
    have h1 := (hc.cq_mem c .tx wr hwr).2.2.2
    rw [(hc.posted_mem c _ hp').2.2.1] at h1
    exact h1

/-- A request that is in hand is not in line. -/
theorem Core.cur_not_line (hc : Core cfg a fl pl) {k : Cur} (hk : a.cur = some k) : k.ptr ∉ lineOf a.w pl c f := by
  obtain ⟨-, -, ⟨hcq, hpl, -⟩, -⟩ := hc.cur_ok k hk
  intro hp
  rcases List.mem_append.mp hp with hp | hp
  · obtain ⟨wr, hwr, he⟩ := List.mem_map.mp hp
    exact hcq c f wr hwr he
  · cases f with
    | tx => exact hpl c hp
    | rx => cases hp

/-- How a step changes a line: a request the CPU posts goes in front of the
posted list, a tracked one to the end, and a completion takes one away. -/
theorem step_line (hc : Core cfg a fl pl) : Step cfg Good l a b → ∀ c f,
    lineOf b.w (l.posted pl) c f = match l with
      | .accept d g p => if (c = d ∧ f = g) ∧ nowait (a.w.mem p).flags = false then
          (a.w.cq c f).map Wr.wrId ++ p :: postedOf pl c f else lineOf a.w pl c f
      | .track d p _ => if c = d ∧ f = .tx then lineOf a.w pl c f ++ [p] else lineOf a.w pl c f
      | .reap d g k => if c = d ∧ f = g then ((a.w.cq c f).eraseIdx k).map Wr.wrId ++ postedOf pl c f
          else lineOf a.w pl c f
      | _ => lineOf a.w pl c f := by
  intro hs c f
  cases l with
  | accept d g p =>
    have hwr : (a.w.mem p).WrOk p := by
      cases hs with
      | @accept w st _ _ _ hst hat =>
        obtain ⟨ho, -⟩ := hc.cur_ok _ rfl
        rcases hc.wr_ok p ho with ⟨st', hcur⟩ | hw
        · cases hcur
        · exact hw
    simp only [lineOf, step_cq hs, World.accept_cq hwr, Lbl.posted]
    by_cases hd : (c = d ∧ f = g) ∧ nowait (a.w.mem p).flags = false
    · obtain ⟨⟨rfl, rfl⟩, hn⟩ := hd
      simp [hn]
    · rw [if_neg hd, if_neg (fun h => hd ⟨⟨h.1, h.2.1⟩, h.2.2⟩)]
  | track d p s =>
    simp only [lineOf, step_cq hs, Lbl.posted]
    cases f with
    | rx => simp [postedOf]
    | tx =>
      by_cases hd : c = d
      · subst hd; simp [postedOf]
      · simp [postedOf, hd]
  | handOver d g p =>
    obtain ⟨rest, hpl⟩ : ∃ rest, pl d = p :: rest := by
      cases hs with
      | handOver _ hp _ _ =>
        obtain ⟨-, rest, hpl, -⟩ := hc.handOver hp
        exact ⟨rest, hpl⟩
    have hmem : p ∈ pl d := by rw [hpl]; exact List.mem_cons_self
    obtain ⟨ho, -, -, hnow, -⟩ := hc.posted_mem d p hmem
    have hwr : (a.w.mem p).WrOk p := by
      rcases hc.wr_ok p ho with ⟨st', hcur⟩ | hw
      · exact absurd hmem ((hc.cur_ok _ hcur).2.2.1.2.1 d)
      · exact hw
    -- the head of the posted list becomes the last of the queue: the line stays
    simp only [lineOf, step_cq hs, World.accept_cq hwr, Lbl.posted]
    cases f with
    | rx => simp [postedOf]
    | tx =>
      by_cases hd : c = d
      · subst hd; simp [postedOf, hpl, hnow]
      · simp [postedOf, hd]
  | reap d g k =>
    simp only [lineOf, step_cq hs, Lbl.posted]
    split <;> rfl
  | _ => simp only [lineOf, step_cq hs, Lbl.posted]

/-- A step arms a request, or leaves the armed ones armed at most. -/
theorem step_armed (he : cfg.useEventSync = true) (hs : Step cfg Good l a b) (h : b.w.Armed cfg p c f) :
    (b.w.mem p).id = (a.w.mem p).id ∧ (a.w.Armed cfg p c f ∨ (l = .arm c f p ∨ l = .armTail c p ∧ f = .tx)) := by
  obtain ⟨ho, hat, ht, hst⟩ := h
  cases step_req hs p with
  | same h =>
    obtain ⟨h1, h2, h3, h4, h5, h6⟩ := h
    rw [World.At, h1, h2] at hat
    exact ⟨h3, .inl ⟨by rw [← h5]; exact ho, hat, by rw [← h6]; exact ht, by rw [← h4]; exact hst⟩⟩
  | take _ _ _ _ _ _ htr => rw [htr] at ht; cases ht
  | release _ ho' => exact absurd ho' ho
  | reap _ _ _ _ hst' => exact absurd hst' hst
  | handOver h hprep =>
    obtain ⟨h1, h2, h3, h4, h5⟩ := h
    rw [World.At, h1, h2] at hat
    exact ⟨h3, .inl ⟨by rw [← h4]; exact ho, hat, by rw [← h5]; exact ht, by rw [hprep]; decide⟩⟩
  | waitCpu h hnow =>
    obtain ⟨h1, h2, h3, h4, h5⟩ := h
    rw [World.At, h1, h2] at hat
    exact ⟨h3, .inl ⟨by rw [← h4]; exact ho, hat, by rw [← h5]; exact ht, by rw [hnow]; decide⟩⟩
  | waitStream =>
    cases hs with
    | waitStream _ he' => rw [he] at he'; cases he'
  | arm h =>
    rw [World.At, h] at hat
    rw [h]
    cases hs with
    | arm _ hat' =>
      obtain ⟨rfl, rfl⟩ := World.At.unique hat' hat
      exact ⟨rfl, .inr (.inl rfl)⟩
  | armTail h =>
    rw [World.At, h] at hat
    rw [h]
    cases hs with
    | armTail _ hat' =>
      obtain ⟨rfl, rfl⟩ := World.At.unique hat' hat
      exact ⟨rfl, .inr (.inr ⟨rfl, rfl⟩)⟩

theorem Mach.FreshCur.step (hc : Core cfg a fl pl) (h : a.FreshCur) (hs : Step cfg Good l a b)
    (harm : ∀ c f p, l = .arm c f p → a.cur = none) : b.FreshCur := by
  intro k hcur hst
  rcases step_hand hs hcur with ⟨k', hk', hptr, hst'⟩ | ⟨fn, d, rfl, hptr⟩ | ⟨d, -, hst'⟩
  · have hfalse := h k' hk' (by rw [hst']; exact hst)
    rw [hptr] at hfalse
    obtain ⟨ho, -, hidle, -⟩ := hc.cur_ok k' hk'
    rw [hptr] at ho hidle
    rw [Bool.eq_false_iff]
    intro ht
    have ho' : (b.w.mem k.ptr).owner ≠ none := by
      rcases step_held ⟨fl, pl, hc⟩ hs ho with rfl | heq
      · cases hs; cases hk'
      · rw [heq.2.2.2]; exact ho
    rcases step_trigger hs ht ho' with ht' | ⟨c, f, rfl⟩ | ⟨c, rfl⟩
    · rw [hfalse] at ht'; cases ht'
    · rw [harm c f _ rfl] at hk'; cases hk'
    · cases hs with
      | armTail _ _ htail _ => exact hidle.2.1 c (hc.tail_mem htail)
  · rw [hptr]
    exact (step_taken hs).2.2.2.1
  · rw [hst'] at hst
    exact hst.elim

/-- With event sync a complete request stays so until it is released. -/
theorem complete_keep (he : cfg.useEventSync = true) (hc : CoreInv cfg a) (hs : Step cfg Good l a b)
    (ho : (a.w.mem p).owner ≠ none) (hst : (a.w.mem p).status = .complete) :
    l = .release p ∨ (b.w.mem p).status = .complete := by
  cases step_req hs p with
  | same h => exact .inr (by rw [h.2.2.2.1]; exact hst)
  | take fn d hq =>
    cases hs
    rw [hq] at ho
    exact absurd (nextFree_free hc).1 ho
  | release => exact .inl rfl
  | reap _ _ _ hpd => rw [hst] at hpd; exact hpd.elim
  | handOver _ hst' => rw [hst] at hst'; cases hst'
  | waitCpu _ hst' => rw [hst] at hst'; cases hst'
  | waitStream =>
    cases hs with
    | waitStream _ he' => rw [he] at he'; cases he'
  | arm h | armTail h => exact .inr (by rw [h]; exact hst)

/-- A request leaves the line by its completion. -/
theorem line_keep (hc : Core cfg a fl pl) (hs : Step cfg Good l a b) (hp : p ∈ lineOf a.w pl c f)
    (hst : (b.w.mem p).status ≠ .complete) : p ∈ lineOf b.w (l.posted pl) c f := by
  have hline := step_line hc hs c f
  cases l with
  | accept d g x =>
    dsimp only at hline
    rw [hline]
    split
    · rcases List.mem_append.mp hp with hp | hp
      · exact List.mem_append_left _ hp
      · exact List.mem_append_right _ (List.mem_cons_of_mem _ hp)
    · exact hp
  | track d x s =>
    dsimp only at hline
    rw [hline]
    split
    · exact List.mem_append_left _ hp
    · exact hp
  | reap d g k =>
    dsimp only at hline
    rw [hline]
    split
    · rename_i hcf
      obtain ⟨rfl, rfl⟩ := hcf
      rcases List.mem_append.mp hp with hp | hp
      · obtain ⟨wr, hwr, rfl⟩ := List.mem_map.mp hp
        obtain ⟨i, hi, hget⟩ := List.getElem_of_mem hwr
        refine List.mem_append_left _ (List.mem_map_of_mem ?_)
        refine List.mem_eraseIdx_iff_getElem.mpr ⟨i, hi, ?_, hget⟩
        rintro rfl
        -- the completion that was taken would be its own
        cases step_req hs wr.wrId with
        | same h =>
          cases hs with
          | @reap w cur _ _ _ wr' ans hk hpend =>
            rw [List.getElem?_eq_getElem hi, hget] at hk
            cases hk
            exact hst (by simp only [World.complete_mem cfg hpend, if_true])
        | reap _ _ _ _ hcomp => exact hst hcomp
      · exact List.mem_append_right _ hp
    · exact hp
  | _ => exact hline ▸ hp

/-- A request that is put in line will complete. -/
theorem line_new (hc : Core cfg a fl pl) (hs : Step cfg Good l a b) (hp : p ∈ lineOf b.w (l.posted pl) c f) :
    p ∈ lineOf a.w pl c f ∨ nowait (b.w.mem p).flags = false := by
  have hline := step_line hc hs c f
  cases l with
  | accept d g x =>
    dsimp only at hline
    rw [hline] at hp
    split at hp
    · rename_i hcf
      rcases List.mem_append.mp hp with hp | hp
      · exact .inl (List.mem_append_left _ hp)
      · rcases List.mem_cons.mp hp with rfl | hp
        · cases hs
          exact .inr hcf.2
        · exact .inl (List.mem_append_right _ hp)
    · exact .inl hp
  | track d x s =>
    dsimp only at hline
    rw [hline] at hp
    split at hp
    · rcases List.mem_append.mp hp with hp | hp
      · exact .inl hp
      · obtain rfl := List.mem_singleton.mp hp
        cases hs with
        | @track w _ _ _ _ _ hnow =>
          obtain ⟨n, v, hm⟩ := World.append_links (w := w) (c := d) (f := .tx) (p := p) p
          exact .inr (by rw [World.addLog_mem, hm]; exact hnow)
    · exact .inl hp
  | reap d g k =>
    dsimp only at hline
    rw [hline] at hp
    split at hp
    · rename_i hcf
      obtain ⟨rfl, rfl⟩ := hcf
      refine .inl ?_
      rcases List.mem_append.mp hp with hp | hp
      · exact List.mem_append_left _ (((List.eraseIdx_sublist _ _).map _).subset hp)
      · exact List.mem_append_right _ hp
    · exact .inl hp
  | _ => exact .inl (by rwa [show lineOf b.w _ c f = lineOf a.w pl c f from hline] at hp)

end Lines

/-! ## The world `mp_init` leaves -/

theorem init_not_armed {c : Nat} {f : Flow} {p : Ptr} : ¬ World.Armed cfg World.init p c f :=
  fun h => h.owner (init_owner p)

theorem init_line (c : Nat) (f : Flow) : lineOf World.init (fun _ => []) c f = [] := by cases f <;> rfl

/-! ## The words of the streams -/

/-- No operation of a stream writes `last_tracked_id`: the library does. -/
def World.NoTrackedWrites (w : World) : Prop := ∀ s c f v, .write (.lastTrackedId c f) v ∉ (w.streams s).todo

theorem World.effect_streams (w : World) (op : StreamOp) : (w.effect op).streams = w.streams := by
  cases op with
  | write word v => cases word <;> rfl
  | _ => rfl

/-- A step of a stream moves its first operation from the enqueued to the executed, at most. -/
theorem World.gpuStep_streams (w : World) (s t : Stream) :
    (w.gpuStep s).streams t = w.streams t ∨ t = s ∧ ∃ op rest, (w.streams s).todo = op :: rest ∧ w.ready op = true ∧
      (w.gpuStep s).streams s = ⟨(w.streams s).done + 1, rest⟩ := by
  rcases w.gpuStep_cases s with hw | ⟨op, rest, hq, hr, hw⟩
  · rw [hw]; exact .inl rfl
  · by_cases ht : t = s
    · refine .inr ⟨ht, op, rest, hq, hr, ?_⟩
      rw [hw, World.addLog_streams, World.effect_streams]
      simp [World.shift, hq]
    · refine .inl ?_
      rw [hw, World.addLog_streams, World.effect_streams]
      simp [World.shift, ht]

/-- The operations enqueued after a step were enqueued before, or the step enqueues them. -/
theorem step_todo {l : Lbl} {a b : Mach} (hs : Step cfg Good l a b) {s : Stream} {op : StreamOp}
    (h : op ∈ (b.w.streams s).todo) : op ∈ (a.w.streams s).todo ∨ ∃ ops, l = .enqueue s ops ∧ op ∈ ops := by
  rw [step_streams hs] at h
  cases l with
  | gpu t =>
    rcases a.w.gpuStep_streams t s with hq | ⟨rfl, op', rest, hq, -, hq'⟩
    · dsimp only at h
      rw [hq] at h
      exact .inl h
    · dsimp only at h
      rw [hq'] at h
      rw [hq]
      exact .inl (List.mem_cons_of_mem op' h)
  | enqueue t ops =>
    simp only [World.enqueue_streams] at h
    split at h
    · rename_i hst
      subst hst
      rcases List.mem_append.mp h with h | h
      · exact .inl h
      · exact .inr ⟨ops, rfl, h⟩
    · exact .inl h
  | _ => exact .inl h

theorem noTrackedWrites_step {l : Lbl} {a b : Mach} (h : a.w.NoTrackedWrites) (hs : Step cfg Good l a b) :
    b.w.NoTrackedWrites := by
  intro s c f v hm
  rcases step_todo hs hm with hold | ⟨ops, rfl, hnew⟩
  · exact h s c f v hold
  · cases hs with
    | enqueue hops => exact hops c f v hnew

/-- The streams do not write `last_tracked_id`. -/
theorem World.gpuStep_lastTrackedId {w : World} (h : w.NoTrackedWrites) (s : Stream) (d : Nat) (g : Flow) :
    ((w.gpuStep s).clients d).lastTrackedId g = (w.clients d).lastTrackedId g := by
  rcases w.gpuStep_cases s with hw | ⟨op, rest, hq, -, hw⟩
  · rw [hw]
  · rw [hw, World.addLog_clients]
    cases op with
    | write word v =>
      cases word with
      | lastTrackedId c f => exact absurd (by rw [hq]; exact List.mem_cons_self) (h s c f v)
      | lastTriggerId c f =>
        rw [World.effect, World.setWord]
        refine (w.shift s).setClient_rel (R := fun a b => b.lastTrackedId g = a.lastTrackedId g) (fun _ => rfl) ?_ d
        rfl
      | user addr => rfl
    | _ => rfl

/-- `last_tracked_id` is raised by the completion of a triggered request. -/
theorem step_lastTrackedId (he : cfg.useEventSync = true) {l : Lbl} {a b : Mach} (h : a.w.NoTrackedWrites)
    (hs : Step cfg Good l a b) (d : Nat) (g : Flow) :
    ((b.w.clients d).lastTrackedId g = (a.w.clients d).lastTrackedId g ∧
      ∀ k wr, l = .reap d g k → (a.w.cq d g)[k]? = some wr → (a.w.mem wr.wrId).trigger = false) ∨
    ∃ k wr, l = .reap d g k ∧ (a.w.cq d g)[k]? = some wr ∧ (a.w.mem wr.wrId).trigger = true ∧
      (b.w.clients d).lastTrackedId g = (a.w.mem wr.wrId).id ∧
      (a.w.clients d).lastTrackedId g < (a.w.mem wr.wrId).id := by
  obtain ⟨hd, tl, hb⟩ := step_client hs d
  rw [hb]
  cases l with
  | reap c f k =>
    cases hs with
    | @reap w cur _ _ _ wr ans hk hp htr _ _ =>
      simp only [Lbl.client, hk, World.complete_clients, he, Bool.true_and]
      by_cases hdc : d = c
      · subst hdc
        cases htg : (w.mem wr.wrId).trigger with
        | false =>
          refine .inl ⟨by simp, ?_⟩
          intro k' wr' hl hk'
          cases hl
          rw [hk] at hk'
          cases hk'
          exact htg
        | true =>
          by_cases hg : g = f
          · -- the one case that raises the word, above what it was
            subst hg
            exact .inr ⟨k, wr, rfl, hk, htg, by simp, htr he htg⟩
          · refine .inl ⟨by simp [hg], ?_⟩
            intro k' wr' hl
            cases hl
            exact absurd rfl hg
      · refine .inl ⟨by simp [hdc], ?_⟩
        intro k' wr' hl
        cases hl
        exact absurd rfl hdc
  | gpu s => exact .inl ⟨World.gpuStep_lastTrackedId h s d g, fun k wr hl => by cases hl⟩
  | take fn c =>
    refine .inl ⟨?_, fun k wr hl => by cases hl⟩
    simp only [Lbl.client]
    split <;> rfl
  | stamp c p =>
    refine .inl ⟨?_, fun k wr hl => by cases hl⟩
    obtain ⟨x, hx⟩ := a.w.stamp_clients c .tx p d
    rw [Lbl.client, hx]
  | arm c f p =>
    refine .inl ⟨?_, fun k wr hl => by cases hl⟩
    obtain ⟨x, hx⟩ := a.w.arm_clients c f p d
    rw [Lbl.client, hx]
  | armTail c p =>
    refine .inl ⟨?_, fun k wr hl => by cases hl⟩
    obtain ⟨x, hx⟩ := a.w.arm_clients c .tx p d
    rw [Lbl.client, hx]
  | store c v =>
    refine .inl ⟨?_, fun k wr hl => by cases hl⟩
    simp only [Lbl.client, World.setWord, World.setClient_clients]
    split <;> simp_all
  | _ => exact .inl ⟨rfl, fun k wr hl => by cases hl⟩

/-- `last_tracked_id` does not go down. -/
theorem step_lastTrackedId_le (he : cfg.useEventSync = true) {l : Lbl} {a b : Mach} (h : a.w.NoTrackedWrites)
    (hs : Step cfg Good l a b) (d : Nat) (g : Flow) :
    (a.w.clients d).lastTrackedId g ≤ (b.w.clients d).lastTrackedId g := by
  rcases step_lastTrackedId he h hs d g with ⟨heq, -⟩ | ⟨k, wr, -, -, -, heq, hlt⟩
  · rw [heq]
  · rw [heq]; exact Nat.le_of_lt hlt

/-- What bounds the two counters of the waits, `last_tracked_id` and
`last_posted_tracked_id`. -/
structure TrackedIds (cfg : Config) (a : Mach) : Prop where
  no_writes : a.w.NoTrackedWrites
  armed_le : ∀ p c f, a.w.Armed cfg p c f → (a.w.mem p).id ≤ (a.w.clients c).lastPostedTrackedId f
  armed_pos : ∀ p c f, a.w.Armed cfg p c f → 0 < (a.w.mem p).id
  tracked_le : ∀ c f, (a.w.clients c).lastTrackedId f ≤ (a.w.clients c).lastPostedTrackedId f

theorem TrackedIds.init : TrackedIds cfg ⟨World.init, none⟩ where
  no_writes _ _ _ _ hv := absurd hv List.not_mem_nil
  armed_le _ _ _ hp := absurd hp init_not_armed
  armed_pos _ _ _ hp := absurd hp init_not_armed
  tracked_le _ _ := le_rfl

theorem TrackedIds.step (he : cfg.useEventSync = true) {l : Lbl} {a b : Mach} {fl : List Ptr} {pl : Nat → List Ptr}
    (hc : Core cfg a fl pl) (h : TrackedIds cfg a) (hs : Step cfg Good l a b) : TrackedIds cfg b where
  no_writes := noTrackedWrites_step h.no_writes hs
  armed_le p c f hp := by
    have hmono := step_lastPostedTrackedId_le hs c f
    have hid := step_lastPostedTrackedId hs c f
    obtain ⟨heq, hold | rfl | ⟨rfl, rfl⟩⟩ := step_armed he hs hp
    · rw [heq]
      exact Nat.le_trans (h.armed_le p c f hold) hmono
    · rw [heq]
      exact Nat.le_of_eq (by simpa using hid.symm)
    · rw [heq]
      exact Nat.le_of_eq (by simpa using hid.symm)
  armed_pos p c f hp := by
    obtain ⟨heq, hold | rfl | ⟨rfl, rfl⟩⟩ := step_armed he hs hp <;> rw [heq]
    · exact h.armed_pos p c f hold
    · cases hs with
      | arm _ _ _ _ hlt => exact Nat.zero_lt_of_lt hlt
    · cases hs with
      | armTail _ _ _ hlt => exact Nat.zero_lt_of_lt hlt
  tracked_le c f := by
    refine Nat.le_trans ?_ (step_lastPostedTrackedId_le hs c f)
    rcases step_lastTrackedId he h.no_writes hs c f with ⟨heq, -⟩ | ⟨k, wr, rfl, hwr, ht, heq, -⟩
    · rw [heq]
      exact h.tracked_le c f
    · -- the request that completes was armed
      obtain ⟨ho, hat, -, hpend⟩ := hc.cq_mem c f wr (List.mem_of_getElem? hwr)
      rw [heq]
      refine h.armed_le wr.wrId c f ⟨ho, hat, ht, fun hcomp => ?_⟩
      rw [hcomp] at hpend
      exact hpend

/-- Before the first wait of a flow no request of it is armed. -/
theorem TrackedIds.not_armed {a : Mach} (h : TrackedIds cfg a) {c : Nat} {f : Flow}
    (h0 : (a.w.clients c).lastPostedTrackedId f = 0) (p : Ptr) : ¬ a.w.Armed cfg p c f := by
  intro hp
  have hle := h.armed_le p c f hp
  have hpos := h.armed_pos p c f hp
  omega

/-- An armed request stays armed until its completion raises `last_tracked_id` to its id. -/
theorem armed_keep (he : cfg.useEventSync = true) {l : Lbl} {a b : Mach} (hc : CoreInv cfg a)
    (h : a.w.NoTrackedWrites) (hs : Step cfg Good l a b) {c : Nat} {f : Flow} {p : Ptr} (hp : a.w.Armed cfg p c f) :
    (b.w.mem p).id = (a.w.mem p).id ∧ (b.w.Armed cfg p c f ∨
      (b.w.mem p).status = .complete ∧ (b.w.clients c).lastTrackedId f = (a.w.mem p).id) := by
  obtain ⟨ho, hat, ht, hst⟩ := hp
  have hkeep : ∀ {P : Prop}, (a.w.mem p).SameUpToStatus (b.w.mem p) → (b.w.mem p).status ≠ .complete →
      (b.w.mem p).id = (a.w.mem p).id ∧ (b.w.Armed cfg p c f ∨ P) := by
    rintro P ⟨h1, h2, h3, h4, h5⟩ hst'
    refine ⟨h3, .inl ⟨by rw [h4]; exact ho, ?_, by rw [h5]; exact ht, hst'⟩⟩
    rw [World.At, h1, h2]
    exact hat
  have harmed : ∀ {P : Prop}, b.w.mem p = { a.w.mem p with trigger := true } →
      (b.w.mem p).id = (a.w.mem p).id ∧ (b.w.Armed cfg p c f ∨ P) := by
    intro P h
    refine ⟨by rw [h], .inl ⟨by rw [h]; exact ho, ?_, by rw [h], by rw [h]; exact hst⟩⟩
    rw [World.At, h]
    exact hat
  cases step_req hs p with
  | same h => exact hkeep ⟨h.1, h.2.1, h.2.2.1, h.2.2.2.2.1, h.2.2.2.2.2⟩ (by rw [h.2.2.2.1]; exact hst)
  | take fn d hq =>
    cases hs
    rw [hq] at ho
    exact absurd (nextFree_free hc).1 ho
  | release hst' => exact absurd hst' hst
  | @reap d g k wr hk hid hup hpd hcomp =>
    refine ⟨hup.2.2.1, .inr ⟨hcomp, ?_⟩⟩
    obtain ⟨fl, pl, hc⟩ := hc
    have hat' := (hc.cq_mem d g wr (List.mem_of_getElem? hk)).2.1
    rw [hid] at hat'
    obtain ⟨rfl, rfl⟩ := hat.unique hat'
    rcases step_lastTrackedId he h hs c f with ⟨-, hno⟩ | ⟨k', wr', hl, hk', -, heq, -⟩
    · have := hno k wr rfl hk
      rw [hid, ht] at this
      cases this
    · cases hl
      rw [hk] at hk'
      cases hk'
      rw [heq, hid]
  | handOver hup _ hst' => exact hkeep hup (by rw [hst']; decide)
  | waitCpu hup _ hst' => exact hkeep hup (by rw [hst']; decide)
  | waitStream hup _ hst' => exact hkeep hup (by rw [hst']; decide)
  | arm h => exact harmed h
  | armTail h => exact harmed h

end LibMp
