import Mathlib.Algebra.Order.BigOperators.Group.Finset
import LibMp.Prog

/- Processes that work by themselves and meet in collective calls.

   A plan is a list of stages, and what each process does behind the last one. In
   a stage each process takes its turns, on its own state, and then enters the
   collective call that ends the stage; it leaves the call after all processes
   have entered it, with a state that may depend on what all of them brought. A
   process whose turn fails, or does not come to an end, stops for good and tells
   nobody.

   The processes are interleaved in any way. Still, what a process does in a
   stage depends only on the plan (`Team.Synced`): `entry` and `outcome` compute
   it stage by stage, all processes together. So the order does not matter for
   the end of a run (`Synced.end_eq`), nobody is ahead of anybody by more than
   one collective call (`Synced.stage_le`), and a team in which no process can
   move has left all collective calls behind it, so that each process comes back
   or not as its last turns do (`Synced.last_outcome`), or all of its processes are
   held up in the stage in which one of them failed (`Synced.stuck`). -/
namespace LibMp
variable {ι σ ε : Type}

/-- The turns of each process, and the collective call after them: `join b a` is
what process `a` leaves it with if the processes have brought `b`. -/
structure Stage (ι σ ε : Type) where
  turns : ι → List (Prog σ ε Unit)
  join : (ι → σ) → ι → σ

/-- One turn after the other. -/
def runAll : List (Prog σ ε Unit) → Prog σ ε Unit
  | [] => return ()
  | t :: rest => do
    t
    runAll rest

inductive Mode (ε : Type) where
  | running
  | waiting
  | stopped (e : ε)

/-- A process: how many collective calls and how many turns of the stage are
behind it, and its state. -/
structure Proc (σ ε : Type) where
  stage : Nat := 0
  turn : Nat := 0
  mode : Mode ε := .running
  loc : σ

/-- The process has entered the collective call `k`. -/
def Proc.Entered (p : Proc σ ε) (k : Nat) : Prop := k < p.stage ∨ k = p.stage ∧ p.mode = .waiting

/-- All processes, and for each collective call what each of them brought. -/
structure Team (ι σ ε : Type) where
  procs : ι → Proc σ ε
  board : Nat → ι → σ

/-- The stages, and the turns of each process behind the last collective call. -/
structure Plan (ι σ ε : Type) where
  stages : List (Stage ι σ ε)
  last : ι → List (Prog σ ε Unit)

namespace Plan

/-- Nothing to do. -/
def nothing : Plan ι σ ε := ⟨[], fun _ => []⟩

/-- Some stages, and then a plan. -/
def after (stages : List (Stage ι σ ε)) (rest : Plan ι σ ε) : Plan ι σ ε :=
  { rest with stages := stages ++ rest.stages }

variable (plan : Plan ι σ ε) (init : ι → σ)

/-- How many collective calls there are. -/
def length : Nat := plan.stages.length

/-- The stage `k`; behind the last one there are the last turns. -/
def stageAt (k : Nat) : Stage ι σ ε := plan.stages.getD k ⟨plan.last, id⟩

/-- The states in which the processes enter stage `k` when nobody fails. -/
def entry : Nat → ι → σ
  | 0 => init
  | k + 1 => (plan.stageAt k).join fun a => (runAll ((plan.stageAt k).turns a) (entry k a)).2

/-- How the turns of `a` in stage `k` end. -/
def outcome (k : Nat) (a : ι) : Except ε Unit × σ := runAll ((plan.stageAt k).turns a) (plan.entry init k a)

/-- `a` goes through stage `k`: it takes part in the collective call at its end,
or comes back if this is the end of the plan. -/
def Comes (k : Nat) (a : ι) : Prop := (plan.outcome init k a).1 = .ok ()

end Plan

namespace Team
variable (plan : Plan ι σ ε) (init : ι → σ)

def start : Team ι σ ε := ⟨fun a => { loc := init a }, fun _ => init⟩

section
variable [DecidableEq ι]

def set (s : Team ι σ ε) (a : ι) (p : Proc σ ε) : Team ι σ ε := { s with procs := Function.update s.procs a p }

inductive Step (s : Team ι σ ε) : Team ι σ ε → Prop where
  | turn {a t x} : (s.procs a).mode = .running →
      ((plan.stageAt (s.procs a).stage).turns a)[(s.procs a).turn]? = some t → t (s.procs a).loc = (.ok (), x) →
      Step s (s.set a { s.procs a with turn := (s.procs a).turn + 1, loc := x })
  | stop {a t e x} : (s.procs a).mode = .running →
      ((plan.stageAt (s.procs a).stage).turns a)[(s.procs a).turn]? = some t → t (s.procs a).loc = (.error e, x) →
      Step s (s.set a { s.procs a with mode := .stopped e, loc := x })
  | enter {a} : (s.procs a).mode = .running → (s.procs a).stage < plan.length →
      (s.procs a).turn = ((plan.stageAt (s.procs a).stage).turns a).length →
      Step s ⟨Function.update s.procs a { s.procs a with mode := .waiting },
        Function.update s.board (s.procs a).stage (Function.update (s.board (s.procs a).stage) a (s.procs a).loc)⟩
  | leave {a} : (s.procs a).mode = .waiting → (∀ b, (s.procs b).Entered (s.procs a).stage) →
      Step s (s.set a ⟨(s.procs a).stage + 1, 0, .running,
        (plan.stageAt (s.procs a).stage).join (s.board (s.procs a).stage) a⟩)

end

/-- Where a process stands is where the plan has led it. -/
def OnPlan (a : ι) (p : Proc σ ε) : Prop :=
  match p.mode with
  | .running => p.stage ≤ plan.length ∧ p.turn ≤ ((plan.stageAt p.stage).turns a).length ∧
      runAll (((plan.stageAt p.stage).turns a).take p.turn) (plan.entry init p.stage a) = (.ok (), p.loc)
  | .waiting => p.stage < plan.length ∧ plan.outcome init p.stage a = (.ok (), p.loc)
  | .stopped e => p.stage ≤ plan.length ∧ plan.outcome init p.stage a = (.error e, p.loc)

/-- The invariant. -/
structure Synced (s : Team ι σ ε) : Prop where
  onPlan : ∀ a, OnPlan plan init a (s.procs a)
  entered : ∀ a k, k < (s.procs a).stage → ∀ b, (s.procs b).Entered k
  brought : ∀ k b, (s.procs b).Entered k → plan.outcome init k b = (.ok (), s.board k b)

/-- Process `a` is at the end of the plan. -/
structure Back (s : Team ι σ ε) (a : ι) : Prop where
  mode : (s.procs a).mode = .running
  stage : (s.procs a).stage = plan.length
  turn : (s.procs a).turn = (plan.last a).length

/-- No process can move. -/
def Over [DecidableEq ι] (s : Team ι σ ε) : Prop := ∀ s', ¬ Step plan s s'

end Team

/-! ## Turns -/

theorem runAll_append (ts us : List (Prog σ ε Unit)) : runAll (ts ++ us) = runAll ts >>= fun _ => runAll us := by
  funext s
  induction ts generalizing s with
  | nil => rfl
  | cons t rest ih =>
    rw [List.cons_append, runAll, runAll, Prog.bind_run, Prog.bind_run, Prog.bind_run]
    cases t s with
    | mk r x =>
      cases r with
      | ok u => exact ih x
      | error e => rfl

/-- A property that is kept by every step of a program. -/
def Kept (P : σ → Prop) : σ → σ → Prop := fun x y => P x → P y

instance (P : σ → Prop) : IsPreorder σ (Kept P) where
  refl _ hx := hx
  trans _ _ _ hxy hyz hx := hyz (hxy hx)

theorem Prog.within_runAll {R : σ → σ → Prop} [IsPreorder σ R] {ts : List (Prog σ ε Unit)}
    (h : ∀ t ∈ ts, Prog.Within R t) : Prog.Within R (runAll ts) := by
  induction ts with
  | nil => exact Prog.Within.pure ()
  | cons t rest ih =>
    exact Prog.Within.bind (h t List.mem_cons_self) fun _ => ih fun u hu => h u (List.mem_cons_of_mem t hu)

/-- The turns up to the next one. -/
theorem runAll_take {ts : List (Prog σ ε Unit)} {t : Prog σ ε Unit} {i : Nat} {s x : σ} (ht : ts[i]? = some t)
    (h : runAll (ts.take i) s = (.ok (), x)) : runAll (ts.take (i + 1)) s = t x := by
  rw [List.take_add_one, ht, Option.toList_some, runAll_append, Prog.bind_ok h, runAll, Prog.bind_run]
  cases t x with
  | mk r y => cases r <;> rfl

/-- A turn that fails ends the stage. -/
theorem runAll_take_error {ts : List (Prog σ ε Unit)} {t : Prog σ ε Unit} {i : Nat} {s x y : σ} {e : ε}
    (ht : ts[i]? = some t) (h : runAll (ts.take i) s = (.ok (), x)) (he : t x = (.error e, y)) :
    runAll ts s = (.error e, y) := by
  rw [← List.take_append_drop (i + 1) ts, runAll_append]
  exact Prog.bind_error ((runAll_take ht h).trans he) _

/-! ## Every run keeps to the plan -/

namespace Plan

theorem stageAt_length (plan : Plan ι σ ε) : plan.stageAt plan.length = ⟨plan.last, id⟩ := by
  unfold stageAt length
  rw [List.getD_eq_getElem?_getD, List.getElem?_eq_none (Nat.le_refl _)]
  rfl

theorem entry_succ (plan : Plan ι σ ε) (init : ι → σ) (k : Nat) :
    plan.entry init (k + 1) = (plan.stageAt k).join fun a => (plan.outcome init k a).2 := rfl

end Plan

namespace Team
variable {plan : Plan ι σ ε} {init : ι → σ} {s s' : Team ι σ ε} {a b : ι}

theorem synced_start : Synced plan init (start init) where
  onPlan a := ⟨Nat.zero_le _, Nat.zero_le _, rfl⟩
  entered a k hk := absurd hk (Nat.not_lt_zero k)
  brought k b h := by
    rcases h with h | ⟨-, h⟩
    · exact absurd h (Nat.not_lt_zero k)
    · cases h

theorem Synced.running (h : Synced plan init s) (hm : (s.procs a).mode = .running) :
    (s.procs a).stage ≤ plan.length ∧ (s.procs a).turn ≤ ((plan.stageAt (s.procs a).stage).turns a).length ∧
      runAll (((plan.stageAt (s.procs a).stage).turns a).take (s.procs a).turn) (plan.entry init (s.procs a).stage a) =
        (.ok (), (s.procs a).loc) := by
  have ha := h.onPlan a
  unfold OnPlan at ha
  rw [hm] at ha
  exact ha

theorem Synced.waiting (h : Synced plan init s) (hm : (s.procs a).mode = .waiting) :
    (s.procs a).stage < plan.length ∧ plan.outcome init (s.procs a).stage a = (.ok (), (s.procs a).loc) := by
  have ha := h.onPlan a
  unfold OnPlan at ha
  rw [hm] at ha
  exact ha

theorem Synced.stopped (h : Synced plan init s) {e : ε} (hm : (s.procs a).mode = .stopped e) :
    (s.procs a).stage ≤ plan.length ∧ plan.outcome init (s.procs a).stage a = (.error e, (s.procs a).loc) := by
  have ha := h.onPlan a
  unfold OnPlan at ha
  rw [hm] at ha
  exact ha

theorem Synced.stage_le_length (h : Synced plan init s) (a : ι) : (s.procs a).stage ≤ plan.length := by
  cases hm : (s.procs a).mode with
  | running => exact (h.running hm).1
  | waiting => exact (h.waiting hm).1.le
  | stopped e => exact (h.stopped hm).1

section
variable [DecidableEq ι]

/-- A process moves on its own. -/
theorem Synced.set (h : Synced plan init s) {p : Proc σ ε} (hp : OnPlan plan init a p)
    (hsame : ∀ k, p.Entered k ↔ (s.procs a).Entered k) (hbehind : ∀ k < p.stage, ∀ b, (s.procs b).Entered k) :
    Synced plan init (s.set a p) := by
  have hiff : ∀ k b, ((s.set a p).procs b).Entered k ↔ (s.procs b).Entered k := by
    intro k b
    unfold Team.set
    by_cases hb : b = a
    · subst hb
      simp only [Function.update_self]
      exact hsame k
    · simp only [Function.update_of_ne hb]
  refine ⟨fun b => ?_, fun b k hk c => (hiff k c).mpr ?_, fun k b hk => h.brought k b ((hiff k b).mp hk)⟩
  · unfold Team.set
    by_cases hb : b = a
    · subst hb
      simp only [Function.update_self]
      exact hp
    · simp only [Function.update_of_ne hb]
      exact h.onPlan b
  · unfold Team.set at hk
    by_cases hb : b = a
    · subst hb
      simp only [Function.update_self] at hk
      exact hbehind k hk c
    · simp only [Function.update_of_ne hb] at hk
      exact h.entered b k hk c

/-- A process that enters the collective call brings what its turns have left. -/
theorem Synced.enter (h : Synced plan init s) (hm : (s.procs a).mode = .running) (hk : (s.procs a).stage < plan.length)
    (hturn : (s.procs a).turn = ((plan.stageAt (s.procs a).stage).turns a).length) :
    Synced plan init ⟨Function.update s.procs a { s.procs a with mode := .waiting },
      Function.update s.board (s.procs a).stage (Function.update (s.board (s.procs a).stage) a (s.procs a).loc)⟩ := by
  obtain ⟨-, -, hrun⟩ := h.running hm
  rw [hturn, List.take_length] at hrun
  have hmono : ∀ k b, (s.procs b).Entered k →
      (Function.update s.procs a { s.procs a with mode := .waiting } b).Entered k := by
    intro k b hb
    by_cases hba : b = a
    · subst hba
      simp only [Function.update_self]
      rcases hb with hlt | ⟨-, hw⟩
      · exact .inl hlt
      · rw [hm] at hw
        cases hw
    · rw [Function.update_of_ne hba]
      exact hb
  refine ⟨fun b => ?_, fun b k hb c => hmono k c ?_, fun k b hb => ?_⟩
  · by_cases hba : b = a
    · subst hba
      simp only [Function.update_self]
      exact ⟨hk, hrun⟩
    · simp only [Function.update_of_ne hba]
      exact h.onPlan b
  · by_cases hba : b = a
    · subst hba
      simp only [Function.update_self] at hb
      exact h.entered b k hb c
    · simp only [Function.update_of_ne hba] at hb
      exact h.entered b k hb c
  · by_cases hba : b = a
    · subst hba
      simp only [Function.update_self] at hb
      rcases hb with hlt | ⟨rfl, -⟩
      · have hne : k ≠ (s.procs b).stage := by
          simp only at hlt
          omega
        simp only [Function.update_of_ne hne]
        exact h.brought k b (.inl hlt)
      · simp only [Function.update_self]
        exact hrun
    · simp only [Function.update_of_ne hba] at hb
      have hsame : Function.update s.board (s.procs a).stage
          (Function.update (s.board (s.procs a).stage) a (s.procs a).loc) k b = s.board k b := by
        by_cases hks : k = (s.procs a).stage
        · subst hks
          simp only [Function.update_self, Function.update_of_ne hba]
        · simp only [Function.update_of_ne hks]
      exact (h.brought k b hb).trans (congrArg _ hsame.symm)

theorem Synced.step (h : Synced plan init s) (hs : Step plan s s') : Synced plan init s' := by
  cases hs with
  | @turn a t x hm ht hx =>
    obtain ⟨hk, -, hrun⟩ := h.running hm
    have hlt : (s.procs a).turn < ((plan.stageAt (s.procs a).stage).turns a).length :=
      (List.getElem?_eq_some_iff.mp ht).1
    refine h.set ?_ (fun k => by simp [Proc.Entered]) (h.entered a)
    unfold OnPlan
    simp only [hm]
    exact ⟨hk, hlt, (runAll_take ht hrun).trans hx⟩
  | @stop a t e x hm ht hx =>
    obtain ⟨hk, -, hrun⟩ := h.running hm
    exact h.set ⟨hk, runAll_take_error ht hrun hx⟩ (fun k => by simp [Proc.Entered, hm]) (h.entered a)
  | enter hm hk hturn => exact h.enter hm hk hturn
  | @leave a hm hall =>
    refine h.set ⟨(h.waiting hm).1, Nat.zero_le _, ?_⟩ (fun k => ?_) (fun k hk b => ?_)
    · have hboard : s.board (s.procs a).stage = fun b => (plan.outcome init (s.procs a).stage b).2 := by
        funext b
        rw [h.brought _ b (hall b)]
      rw [hboard, ← plan.entry_succ]
      rfl
    · simp only [Proc.Entered, hm, and_true]
      constructor
      · rintro (hk | ⟨-, hw⟩)
        · omega
        · cases hw
      · intro hk
        exact .inl (by omega)
    · rcases Nat.lt_or_eq_of_le (Nat.lt_succ_iff.mp hk) with hlt | rfl
      · exact h.entered a k hlt b
      · exact hall b

/-- No process goes back. -/
theorem stage_mono (hm : Moves (Step plan) s s') (b : ι) : (s.procs b).stage ≤ (s'.procs b).stage := by
  induction hm with
  | refl => exact Nat.le_refl _
  | tail _ hs ih =>
    refine ih.trans ?_
    cases hs with
    | @turn a | @stop a | @enter a | @leave a =>
      by_cases hb : b = a
      · subst hb
        simp [Team.set]
      · simp [Team.set, hb]

theorem synced_moves (hm : Moves (Step plan) (start init) s) : Synced plan init s :=
  hm.inv (fun _ _ h hs => h.step hs) synced_start

end

/-! ## What the processes know of each other -/

/-- Nobody is ahead by more than one collective call. -/
theorem Synced.stage_le (h : Synced plan init s) (a b : ι) : (s.procs a).stage ≤ (s.procs b).stage + 1 := by
  cases hk : (s.procs a).stage with
  | zero => omega
  | succ k =>
    rcases h.entered a k (by omega) b with hlt | ⟨heq, -⟩
    · omega
    · omega

/-- Who has left a collective call knows that nobody has failed before it. -/
theorem Synced.comes (h : Synced plan init s) {k : Nat} (hk : k < (s.procs a).stage) (b : ι) : plan.Comes init k b := by
  unfold Plan.Comes
  rw [h.brought k b (h.entered a k hk b)]

/-- What the turns of a stage keep holds of a process in the stage. -/
theorem Synced.within (h : Synced plan init s) {R : σ → σ → Prop} [IsPreorder σ R] {k : Nat}
    (hk : (s.procs a).stage = k) (hturns : ∀ t ∈ (plan.stageAt k).turns a, Prog.Within R t) :
    R (plan.entry init k a) (s.procs a).loc := by
  subst hk
  have hall := Prog.within_runAll hturns (plan.entry init (s.procs a).stage a)
  cases hm : (s.procs a).mode with
  | running =>
    have htake : ∀ t ∈ ((plan.stageAt (s.procs a).stage).turns a).take (s.procs a).turn, Prog.Within R t :=
      fun t ht => hturns t (List.mem_of_mem_take ht)
    have hrun := Prog.within_runAll htake (plan.entry init (s.procs a).stage a)
    rw [(h.running hm).2.2] at hrun
    exact hrun
  | waiting =>
    have ho := (h.waiting hm).2
    unfold Plan.outcome at ho
    rw [ho] at hall
    exact hall
  | stopped e =>
    have ho := (h.stopped hm).2
    unfold Plan.outcome at ho
    rw [ho] at hall
    exact hall

/-- Where there are no last turns, who has left the last call is at the end. -/
theorem Synced.through (h : Synced plan init s) (hlast : plan.last a = []) (ha : (s.procs a).stage = plan.length) :
    Back plan s a ∧ (s.procs a).loc = plan.entry init plan.length a := by
  have hnone : (plan.stageAt plan.length).turns a = [] := by
    rw [plan.stageAt_length]
    exact hlast
  cases hm : (s.procs a).mode with
  | running =>
    obtain ⟨-, hturn, hrun⟩ := h.running hm
    rw [ha, hnone] at hturn hrun
    rw [List.take_nil] at hrun
    refine ⟨⟨hm, ha, ?_⟩, (Prod.mk.inj hrun).2.symm⟩
    rw [hlast]
    exact Nat.le_zero.mp hturn
  | waiting =>
    have := (h.waiting hm).1
    omega
  | stopped e =>
    have ho := (h.stopped hm).2
    unfold Plan.outcome at ho
    rw [ha, hnone] at ho
    cases ho

/-! ## Where a run ends -/

/-- All processes are in stage `k`, and held up there by one that has failed. -/
structure HeldUp (s : Team ι σ ε) (k : Nat) : Prop where
  stage : ∀ a, (s.procs a).stage = k
  mode : ∀ a, (s.procs a).mode = .waiting ∨ ∃ e, (s.procs a).mode = .stopped e
  failed : ∃ a e, (s.procs a).mode = .stopped e

/-- A team held up in a stage: who has entered, and who has failed. -/
theorem Synced.heldUp_outcome (h : Synced plan init s) {k : Nat} (hup : s.HeldUp k) (a : ι) :
    ((s.procs a).mode = .waiting ∧ plan.outcome init k a = (.ok (), (s.procs a).loc)) ∨
      ∃ e, (s.procs a).mode = .stopped e ∧ plan.outcome init k a = (.error e, (s.procs a).loc) := by
  rw [← hup.stage a]
  rcases hup.mode a with hw | ⟨e, he⟩
  · exact .inl ⟨hw, (h.waiting hw).2⟩
  · exact .inr ⟨e, he, (h.stopped he).2⟩

/-- A stage in which somebody fails is the last one for all. -/
theorem Synced.heldUp_le (h : Synced plan init s) {k : Nat} (hup : s.HeldUp k) (h' : Synced plan init s') (b : ι) :
    (s'.procs b).stage ≤ k := by
  by_contra hlt
  obtain ⟨a, e, he⟩ := hup.failed
  have hcomes := h'.comes (a := b) (Nat.lt_of_not_le hlt) a
  unfold Plan.Comes at hcomes
  rw [← hup.stage a, (h.stopped he).2] at hcomes
  cases hcomes

section
variable [DecidableEq ι]

/-- A process that has turns left can move. -/
theorem can_turn (hm : (s.procs a).mode = .running)
    (hlt : (s.procs a).turn < ((plan.stageAt (s.procs a).stage).turns a).length) : ∃ s', Step plan s s' := by
  have ht := List.getElem?_eq_getElem hlt
  cases hx : ((plan.stageAt (s.procs a).stage).turns a)[(s.procs a).turn] (s.procs a).loc with
  | mk r x =>
    cases r with
    | ok u => exact ⟨_, .turn hm ht hx⟩
    | error e => exact ⟨_, .stop hm ht hx⟩

/-- A running process can move up to the last collective call. -/
theorem Synced.can_move (h : Synced plan init s) (hm : (s.procs a).mode = .running)
    (hk : (s.procs a).stage < plan.length) : ∃ s', Step plan s s' := by
  obtain ⟨-, hturn, -⟩ := h.running hm
  rcases Nat.lt_or_eq_of_le hturn with hlt | heq
  · exact can_turn hm hlt
  · exact ⟨_, .enter hm hk heq⟩

/-- Behind the last collective call a process ends up as its last turns do. -/
theorem Synced.last_outcome (h : Synced plan init s) (hover : Over plan s) (ha : (s.procs a).stage = plan.length) :
    (Back plan s a ∧ plan.outcome init plan.length a = (.ok (), (s.procs a).loc)) ∨
      ∃ e, (s.procs a).mode = .stopped e ∧ plan.outcome init plan.length a = (.error e, (s.procs a).loc) := by
  cases hm : (s.procs a).mode with
  | running =>
    obtain ⟨-, hturn, hrun⟩ := h.running hm
    rcases Nat.lt_or_eq_of_le hturn with hlt | heq
    · obtain ⟨s', hs'⟩ := can_turn hm hlt
      exact absurd hs' (hover s')
    · rw [heq, List.take_length] at hrun
      rw [ha] at heq hrun
      rw [plan.stageAt_length] at heq
      exact .inl ⟨⟨hm, ha, heq⟩, hrun⟩
  | waiting =>
    have := (h.waiting hm).1
    omega
  | stopped e =>
    have ho := (h.stopped hm).2
    rw [ha] at ho
    exact .inr ⟨e, rfl, ho⟩

/-- Where nobody can move, all have left the last call or all are held up. -/
theorem Synced.stuck (h : Synced plan init s) (hover : Over plan s) :
    (∀ a, (s.procs a).stage = plan.length) ∨ ∃ k < plan.length, s.HeldUp k := by
  classical
  by_cases hall : ∀ a, (s.procs a).stage = plan.length
  · exact .inl hall
  obtain ⟨c, hc⟩ := not_forall.mp hall
  -- the process that is farthest behind
  have hex : ∃ k a, (s.procs a).stage = k := ⟨_, c, rfl⟩
  obtain ⟨a, ha⟩ := Nat.find_spec hex
  have hmin : ∀ b, Nat.find hex ≤ (s.procs b).stage := fun b => Nat.find_min' hex ⟨b, rfl⟩
  have hk : Nat.find hex < plan.length := by
    have h₁ := hmin c
    have h₂ := h.stage_le_length c
    omega
  have hrest : ∀ b, (s.procs b).stage = Nat.find hex → (s.procs b).mode ≠ .running := by
    intro b hb hm
    obtain ⟨s', hs'⟩ := h.can_move hm (by omega)
    exact hover s' hs'
  -- if all had entered the call, it could leave
  have hmissing : ∃ b, ¬ (s.procs b).Entered (Nat.find hex) := by
    by_contra hnot
    have hentered := not_exists_not.mp hnot
    rcases hentered a with hlt | ⟨-, hw⟩
    · omega
    · exact hover _ (.leave hw (by rw [ha]; exact hentered))
  obtain ⟨b, hb⟩ := hmissing
  have hstage : ∀ d, (s.procs d).stage = Nat.find hex := by
    intro d
    by_contra hne
    exact hb (h.entered d _ (by have := hmin d; omega) b)
  have hmode : ∀ d, (s.procs d).mode = .waiting ∨ ∃ e, (s.procs d).mode = .stopped e := by
    intro d
    cases hm : (s.procs d).mode with
    | running => exact absurd hm (hrest d (hstage d))
    | waiting => exact .inl rfl
    | stopped e => exact .inr ⟨e, rfl⟩
  refine .inr ⟨_, hk, hstage, hmode, b, ?_⟩
  rcases hmode b with hw | he
  · exact absurd (.inr ⟨(hstage b).symm, hw⟩) hb
  · exact he

/-- The order of the steps does not matter for the end. -/
theorem Synced.end_eq (h : Synced plan init s) (hover : Over plan s) (h' : Synced plan init s')
    (hover' : Over plan s') (a : ι) :
    (s.procs a).stage = (s'.procs a).stage ∧ (s.procs a).mode = (s'.procs a).mode ∧
      (s.procs a).loc = (s'.procs a).loc := by
  rcases h.stuck hover with hthrough | ⟨k, hk, hup⟩
  · rcases h'.stuck hover' with hthrough' | ⟨k', hk', hup'⟩
    · refine ⟨(hthrough a).trans (hthrough' a).symm, ?_⟩
      rcases h.last_outcome hover (hthrough a) with ⟨hback, ho⟩ | ⟨e, hm, ho⟩ <;>
        rcases h'.last_outcome hover' (hthrough' a) with ⟨hback', ho'⟩ | ⟨e', hm', ho'⟩ <;>
        obtain ⟨hr, hl⟩ := Prod.mk.inj (ho.symm.trans ho')
      · exact ⟨hback.mode.trans hback'.mode.symm, hl⟩
      · cases hr
      · cases hr
      · cases hr
        exact ⟨hm.trans hm'.symm, hl⟩
    · have := h'.heldUp_le hup' h a
      rw [hthrough a] at this
      omega
  · rcases h'.stuck hover' with hthrough' | ⟨k', hk', hup'⟩
    · have := h.heldUp_le hup h' a
      rw [hthrough' a] at this
      omega
    · have h₁ := h.heldUp_le hup h' a
      have h₂ := h'.heldUp_le hup' h a
      rw [hup'.stage a] at h₁
      rw [hup.stage a] at h₂
      obtain rfl : k = k' := Nat.le_antisymm h₂ h₁
      refine ⟨(hup.stage a).trans (hup'.stage a).symm, ?_⟩
      rcases h.heldUp_outcome hup a with ⟨hm, ho⟩ | ⟨e, hm, ho⟩ <;>
        rcases h'.heldUp_outcome hup' a with ⟨hm', ho'⟩ | ⟨e', hm', ho'⟩ <;>
        obtain ⟨hr, hl⟩ := Prod.mk.inj (ho.symm.trans ho')
      · exact ⟨hm.trans hm'.symm, hl⟩
      · cases hr
      · cases hr
      · cases hr
        exact ⟨hm.trans hm'.symm, hl⟩

/-- A run that is over has got everybody through the collective calls, exactly if
no turn before them fails. -/
theorem Synced.through_iff (h : Synced plan init s) (hover : Over plan s) :
    (∀ a, (s.procs a).stage = plan.length) ↔ ∀ k < plan.length, ∀ a, plan.Comes init k a := by
  constructor
  · intro hall k hk a
    exact h.comes (a := a) (by rw [hall a]; exact hk) a
  · intro hcomes
    rcases h.stuck hover with hall | ⟨k, hk, hup⟩
    · exact hall
    · obtain ⟨a, e, he⟩ := hup.failed
      have hc := hcomes k hk a
      unfold Plan.Comes at hc
      rw [← hup.stage a, (h.stopped he).2] at hc
      cases hc

end

/-! ## Every run ends -/

section
variable (plan)

/-- How many steps process `a` can make from the beginning of stage `k` on. -/
def stepsFrom (a : ι) (k : Nat) : Nat :=
  (plan.stages.drop k).foldr (fun g n => (g.turns a).length + 2 + n) (plan.last a).length

/-- How many it can still make. -/
def stepsOf (a : ι) (p : Proc σ ε) : Nat :=
  match p.mode with
  | .running => stepsFrom plan a p.stage - p.turn
  | .waiting => stepsFrom plan a (p.stage + 1) + 1
  | .stopped _ => 0

end

theorem stepsFrom_eq {k : Nat} (hk : k < plan.length) (a : ι) :
    stepsFrom plan a k = ((plan.stageAt k).turns a).length + 2 + stepsFrom plan a (k + 1) := by
  have hk : k < plan.stages.length := hk
  have hat : plan.stageAt k = plan.stages[k] := by
    unfold Plan.stageAt
    rw [List.getD_eq_getElem?_getD, List.getElem?_eq_getElem hk, Option.getD_some]
  unfold stepsFrom
  rw [List.drop_eq_getElem_cons hk, List.foldr_cons, hat]

theorem stepsFrom_length (a : ι) : stepsFrom plan a plan.length = ((plan.stageAt plan.length).turns a).length := by
  rw [plan.stageAt_length]
  unfold stepsFrom Plan.length
  rw [List.drop_length]
  rfl

variable [DecidableEq ι]

/-- In a step one process uses up steps of its own, and the others are left alone. -/
theorem Synced.stepsOf_lt (h : Synced plan init s) (hs : Step plan s s') : ∃ a,
    stepsOf plan a (s'.procs a) < stepsOf plan a (s.procs a) ∧ ∀ b, b ≠ a → s'.procs b = s.procs b := by
  have hturn : ∀ a t, ((plan.stageAt (s.procs a).stage).turns a)[(s.procs a).turn]? = some t →
      (s.procs a).mode = .running → (s.procs a).turn < stepsFrom plan a (s.procs a).stage := by
    intro a t ht hm
    have hlt := (List.getElem?_eq_some_iff.mp ht).1
    rcases Nat.lt_or_eq_of_le (h.running hm).1 with hk | hk
    · rw [stepsFrom_eq hk]
      omega
    · rw [hk] at hlt ⊢
      rw [stepsFrom_length]
      exact hlt
  cases hs with
  | @turn a t x hm ht hx =>
    refine ⟨a, ?_, fun b hb => Function.update_of_ne hb ..⟩
    have := hturn a t ht hm
    simp only [Team.set, Function.update_self, stepsOf, hm]
    omega
  | @stop a t e x hm ht hx =>
    refine ⟨a, ?_, fun b hb => Function.update_of_ne hb ..⟩
    have := hturn a t ht hm
    simp only [Team.set, Function.update_self, stepsOf, hm]
    omega
  | @enter a hm hk hlast =>
    refine ⟨a, ?_, fun b hb => Function.update_of_ne hb ..⟩
    simp only [Function.update_self, stepsOf, hm]
    rw [stepsFrom_eq hk, hlast]
    omega
  | @leave a hm hall =>
    refine ⟨a, ?_, fun b hb => Function.update_of_ne hb ..⟩
    simp only [Team.set, Function.update_self, stepsOf, hm]
    omega

/-- Runs, with their number of steps. -/
inductive Run (plan : Plan ι σ ε) (init : ι → σ) : Nat → Team ι σ ε → Prop where
  | start : Run plan init 0 (start init)
  | step {k s s'} : Run plan init k s → Step plan s s' → Run plan init (k + 1) s'

theorem Run.synced {k : Nat} (h : Run plan init k s) : Synced plan init s := by
  induction h with
  | start => exact synced_start
  | step _ hs ih => exact ih.step hs

theorem Run.moves {k : Nat} (h : Run plan init k s) (hm : Moves (Step plan) s s') : ∃ k', Run plan init k' s' := by
  induction hm with
  | refl => exact ⟨k, h⟩
  | tail _ hs ih =>
    obtain ⟨k', hk'⟩ := ih
    exact ⟨k' + 1, hk'.step hs⟩

section
variable [Fintype ι]

/-- How many steps the team can still make. -/
def stepsLeft (plan : Plan ι σ ε) (s : Team ι σ ε) : Nat := ∑ a, stepsOf plan a (s.procs a)

theorem Synced.stepsLeft_lt (h : Synced plan init s) (hs : Step plan s s') : stepsLeft plan s' < stepsLeft plan s := by
  obtain ⟨a, hlt, hrest⟩ := h.stepsOf_lt hs
  refine Finset.sum_lt_sum (fun b _ => ?_) ⟨a, Finset.mem_univ a, hlt⟩
  by_cases hb : b = a
  · subst hb
    exact hlt.le
  · rw [hrest b hb]

/-- No run has more steps than the plan has turns, and two for each collective
call and process. -/
theorem Run.length_le {k : Nat} (h : Run plan init k s) :
    k + stepsLeft plan s ≤ ∑ a, stepsFrom plan a 0 := by
  induction h with
  | start =>
    rw [Nat.zero_add]
    exact Nat.le_refl _
  | step hrun hs ih =>
    have := hrun.synced.stepsLeft_lt hs
    omega

/-- From everywhere a run can be brought to its end. -/
theorem Synced.ends (h : Synced plan init s) : ∃ s', Moves (Step plan) s s' ∧ Over plan s' :=
  Moves.ends (fun _ _ hsync hs => ⟨hsync.step hs, hsync.stepsLeft_lt hs⟩) (fun _ _ hover => hover) h

end

end Team
end LibMp
