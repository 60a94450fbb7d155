import Mathlib.Logic.Relation
import Mathlib.Order.RelClasses

/- Stateful programs that can stop, and simulation by a machine.

   `Prog σ ε α` is a program over states `σ`: it returns a value of type `α` or
   stops with an `ε`, and leaves a state in both cases (a process that aborts
   leaves its memory as it was). `Sim R L S P m Q` says that a machine with moves
   `L` follows `m`: from every machine state that represents the program's
   state (`R`) and satisfies `P`, the machine reaches by moves of `L` a state
   that represents the state `m` leaves and satisfies `Q` if `m` returns, and
   one that satisfies `S` if `m` stops. The rules below take a program apart
   along its own text (`pure`, `bind`, `ite`, a state update); an invariant of
   the machine is then proved on its moves once and holds along every run of
   every program the machine follows. `Within R m` says of the program alone
   that it stays in the relation `R`, and `wp m Q` is its weakest precondition,
   for what a machine's invariant does not say. -/
namespace LibMp

/-- A program over states `σ` that returns an `α` or stops with an `ε`. -/
def Prog (σ ε α : Type) : Type := σ → Except ε α × σ

namespace Prog
variable {σ ε α β : Type}

/-- Return a value, leaving the state. -/
def ret (a : α) : Prog σ ε α := fun s => (.ok a, s)

/-- Run `m`, then `f` on its value; a stop of `m` is a stop of the whole. -/
def andThen (m : Prog σ ε α) (f : α → Prog σ ε β) : Prog σ ε β := fun s =>
  match m s with
  | (.ok a, s') => f a s'
  | (.error e, s') => (.error e, s')

instance : Monad (Prog σ ε) where
  pure := ret
  bind := andThen

/-- The current state. -/
def get : Prog σ ε σ := fun s => (.ok s, s)

/-- Replace the state. -/
def modify (g : σ → σ) : Prog σ ε Unit := fun s => (.ok (), g s)

/-- Stop here. -/
def stop (e : ε) : Prog σ ε α := fun s => (.error e, s)

/-- Stop with `e` unless `b` holds: the C `assert`. -/
def require (b : Bool) (e : ε) : Prog σ ε Unit := if b then ret () else stop e

theorem pure_run (a : α) (s : σ) : (pure a : Prog σ ε α) s = (.ok a, s) := rfl

theorem bind_run (m : Prog σ ε α) (f : α → Prog σ ε β) (s : σ) :
    (m >>= f) s = match m s with
      | (.ok a, s') => f a s'
      | (.error e, s') => (.error e, s') := rfl

theorem bind_ok {m : Prog σ ε α} {s s' : σ} {a : α} (h : m s = (.ok a, s'))
    (f : α → Prog σ ε β) : (m >>= f) s = f a s' := by
  rw [bind_run, h]

theorem bind_error {m : Prog σ ε α} {s s' : σ} {e : ε} (h : m s = (.error e, s'))
    (f : α → Prog σ ε β) : (m >>= f) s = (.error e, s') := by
  rw [bind_run, h]

/-- What a sequence returned, its two parts returned. -/
theorem bind_eq_ok {m : Prog σ ε α} {f : α → Prog σ ε β} {s s' : σ} {b : β} (h : (m >>= f) s = (.ok b, s')) :
    ∃ a s₁, m s = (.ok a, s₁) ∧ f a s₁ = (.ok b, s') := by
  rw [bind_run] at h
  cases hm : m s with
  | mk r s₁ =>
    rw [hm] at h
    cases r with
    | ok a => exact ⟨a, s₁, rfl, h⟩
    | error e => cases h

/-- A call that returns the error code of its first part: if it returned 0,
both parts did. -/
theorem andThen_ok {m : Prog σ ε Int} {f : Int → Prog σ ε Int} {s s' : σ}
    (h : (m >>= fun ret => if ret ≠ 0 then pure ret else f ret) s = (.ok 0, s')) :
    ∃ s₁, m s = (.ok 0, s₁) ∧ f 0 s₁ = (.ok 0, s') := by
  obtain ⟨ret, s₁, h₁, h₂⟩ := bind_eq_ok h
  split at h₂
  · rename_i hret
    cases h₂
    exact absurd rfl hret
  · rename_i hret
    obtain rfl := not_not.mp hret
    exact ⟨s₁, h₁, h₂⟩

/-- Where a sequence stopped, one of its parts stopped. -/
theorem bind_eq_error {m : Prog σ ε α} {f : α → Prog σ ε β} {s s' : σ} {e : ε} (h : (m >>= f) s = (.error e, s')) :
    m s = (.error e, s') ∨ ∃ a s₁, m s = (.ok a, s₁) ∧ f a s₁ = (.error e, s') := by
  rw [bind_run] at h
  cases hm : m s with
  | mk r s₁ =>
    rw [hm] at h
    cases r with
    | ok a => exact .inr ⟨a, s₁, rfl, h⟩
    | error e' =>
      cases h
      exact .inl rfl

@[simp] theorem get_run (s : σ) : (get : Prog σ ε σ) s = (.ok s, s) := rfl
@[simp] theorem modify_run (g : σ → σ) (s : σ) : (modify g : Prog σ ε Unit) s = (.ok (), g s) := rfl
@[simp] theorem stop_run (e : ε) (s : σ) : (stop e : Prog σ ε α) s = (.error e, s) := rfl
@[simp] theorem ret_run (a : α) (s : σ) : (ret a : Prog σ ε α) s = (.ok a, s) := rfl

end Prog

/-- An assertion that lets the program pass holds. -/
theorem require_ok {σ ε : Type} {b : Bool} {e : ε} {u : Unit} {s s' : σ}
    (h : (Prog.require b e : Prog σ ε Unit) s = (.ok u, s')) : b = true ∧ s' = s := by
  cases b with
  | true => cases h; exact ⟨rfl, rfl⟩
  | false => cases h

/-- A program that returns after an assertion has passed it. -/
theorem require_bind_ok {σ ε β : Type} {b : Bool} {e : ε} {g : Unit → Prog σ ε β} {x : β} {s s' : σ}
    (h : (Prog.require b e >>= g) s = (.ok x, s')) : b = true ∧ g () s = (.ok x, s') := by
  obtain ⟨_, s₁, h₁, h₂⟩ := Prog.bind_eq_ok h
  obtain ⟨hb, rfl⟩ := require_ok h₁
  exact ⟨hb, h₂⟩

/-! ## Where the runs of a program end -/

namespace Prog
variable {σ ε α β : Type}

/-- `R` relates every state to the one `m` leaves from it, whether it returns or
stops. -/
def Within (R : σ → σ → Prop) (m : Prog σ ε α) : Prop := ∀ s, R s (m s).2

namespace Within
variable {R : σ → σ → Prop} [IsPreorder σ R]

theorem pure (a : α) : Within R (Pure.pure a : Prog σ ε α) := fun s => refl_of R s

theorem stop (e : ε) : Within R (Prog.stop e : Prog σ ε α) := fun s => refl_of R s

theorem get : Within R (Prog.get : Prog σ ε σ) := fun s => refl_of R s

theorem require (b : Bool) (e : ε) : Within R (Prog.require b e : Prog σ ε Unit) := by
  intro s
  cases b with
  | true => exact refl_of R s
  | false => exact refl_of R s

omit [IsPreorder σ R] in
theorem modify {g : σ → σ} (h : ∀ s, R s (g s)) : Within R (Prog.modify g : Prog σ ε Unit) := h

theorem bind {m : Prog σ ε α} {f : α → Prog σ ε β} (hm : Within R m) (hf : ∀ a, Within R (f a)) :
    Within R (m >>= f) := by
  intro s
  have h := hm s
  rw [bind_run]
  cases hms : m s with
  | mk r s₁ =>
    rw [hms] at h
    cases r with
    | ok a => exact trans_of R h (hf a s₁)
    | error e => exact h

omit [IsPreorder σ R] in
theorem ite {c : Prop} [Decidable c] {m₁ m₂ : Prog σ ε α} (h₁ : Within R m₁) (h₂ : Within R m₂) :
    Within R (if c then m₁ else m₂) := by
  split
  · exact h₁
  · exact h₂

end Within

/-- `m`, run from `s`, returns with `Q`, or stops with `S`. -/
def wp (m : Prog σ ε α) (S : ε → σ → Prop) (Q : α → σ → Prop) (s : σ) : Prop :=
  match m s with
  | (.ok a, s') => Q a s'
  | (.error e, s') => S e s'

variable {S : ε → σ → Prop} {Q : α → σ → Prop} {s : σ}

@[simp] theorem wp_pure (a : α) : wp (Pure.pure a : Prog σ ε α) S Q s ↔ Q a s := Iff.rfl

@[simp] theorem wp_stop (e : ε) : wp (Prog.stop e : Prog σ ε α) S Q s ↔ S e s := Iff.rfl

@[simp] theorem wp_bind {Q : β → σ → Prop} (m : Prog σ ε α) (f : α → Prog σ ε β) :
    wp (m >>= f) S Q s ↔ wp m S (fun a => wp (f a) S Q) s := by
  unfold wp
  rw [bind_run]
  cases m s with
  | mk r s₁ => cases r <;> rfl

@[simp] theorem wp_require {Q : Unit → σ → Prop} (b : Bool) (e : ε) :
    wp (Prog.require b e) S Q s ↔ if b then Q () s else S e s := by
  cases b <;> rfl

@[simp] theorem wp_get {Q : σ → σ → Prop} : wp (Prog.get : Prog σ ε σ) S Q s ↔ Q s s := Iff.rfl

@[simp] theorem wp_modify {Q : Unit → σ → Prop} (g : σ → σ) : wp (Prog.modify g) S Q s ↔ Q () (g s) := Iff.rfl

theorem wp_ok {m : Prog σ ε α} {a : α} {s' : σ} (h : m s = (.ok a, s')) : wp m S Q s ↔ Q a s' := by
  rw [wp, h]

theorem wp_mono {S' : ε → σ → Prop} {Q' : α → σ → Prop} {m : Prog σ ε α} (h : wp m S Q s)
    (hS : ∀ e s', S e s' → S' e s') (hQ : ∀ a s', Q a s' → Q' a s') : wp m S' Q' s := by
  unfold wp at h ⊢
  cases hm : m s with
  | mk r s' =>
    rw [hm] at h
    cases r with
    | ok a => exact hQ a s' h
    | error e => exact hS e s' h

theorem wp_error {m : Prog σ ε α} {e : ε} {s' : σ} (h : m s = (.error e, s')) : wp m S Q s ↔ S e s' := by
  rw [wp, h]

/-- What a program does within `R`, it does to any end. -/
theorem Within.wp {R : σ → σ → Prop} {m : Prog σ ε α} (h : Within R m) (hS : ∀ e s', R s s' → S e s')
    (hQ : ∀ a s', R s s' → Q a s') : Prog.wp m S Q s := by
  have hs := h s
  unfold Prog.wp
  cases hm : m s with
  | mk r s' =>
    rw [hm] at hs
    cases r with
    | ok a => exact hQ a s' hs
    | error e => exact hS e s' hs

end Prog

/-! ## Machines that follow programs -/

/-- The reflexive and transitive closure of the moves of a machine. -/
abbrev Moves {μ : Type} (L : μ → μ → Prop) : μ → μ → Prop := Relation.ReflTransGen L

/-- What every move keeps, a run of moves keeps. -/
theorem Moves.inv {μ : Type} {L : μ → μ → Prop} {I : μ → Prop} (step : ∀ a b, I a → L a b → I b)
    {a b : μ} (h : Moves L a b) (ha : I a) : I b := by
  induction h with
  | refl => exact ha
  | tail _ hl ih => exact step _ _ ih hl

/-- Where every step lowers `m` and only a state with `D` has no next step, one with `D` is reached. -/
theorem Moves.ends {μ : Type} {L : μ → μ → Prop} {I D : μ → Prop} {m : μ → Nat}
    (step : ∀ a b, I a → L a b → I b ∧ m b < m a) (stuck : ∀ a, I a → (∀ b, ¬ L a b) → D a) {a : μ} (ha : I a) :
    ∃ b, Moves L a b ∧ D b := by
  induction hn : m a using Nat.strongRecOn generalizing a with
  | _ n ih =>
    by_cases hstuck : ∀ b, ¬ L a b
    · exact ⟨a, .refl, stuck a ha hstuck⟩
    · obtain ⟨b, hb⟩ := not_forall_not.mp hstuck
      obtain ⟨hI, hlt⟩ := step a b ha hb
      obtain ⟨c, hm, hD⟩ := ih (m b) (hn ▸ hlt) hI rfl
      exact ⟨c, .head hb hm, hD⟩

/-- `m` is followed by the machine: see the head of the file. -/
def Sim {σ ε α μ : Type} (R : μ → σ → Prop) (L : μ → μ → Prop) (S : ε → μ → σ → Prop)
    (P : μ → σ → Prop) (m : Prog σ ε α) (Q : α → μ → σ → Prop) : Prop :=
  ∀ a s, R a s → P a s → ∃ a', Moves L a a' ∧
    (∀ x, (m s).1 = .ok x → R a' (m s).2 ∧ Q x a' (m s).2) ∧ ∀ e, (m s).1 = .error e → S e a' (m s).2

namespace Sim
variable {σ ε α β μ : Type} {R : μ → σ → Prop} {L : μ → μ → Prop} {S : ε → μ → σ → Prop}
  {P P' : μ → σ → Prop} {Q Q' : α → μ → σ → Prop}

theorem conseq {m : Prog σ ε α} (h : Sim R L S P m Q) (hP : ∀ a s, P' a s → P a s)
    (hQ : ∀ x a s, Q x a s → Q' x a s) : Sim R L S P' m Q' := by
  intro a s hR hp
  obtain ⟨a', hm, hq, he⟩ := h a s hR (hP a s hp)
  exact ⟨a', hm, fun x hx => ⟨(hq x hx).1, hQ x _ _ (hq x hx).2⟩, he⟩

theorem ret {x : α} (h : ∀ a s, R a s → P a s → Q x a s) :
    Sim R L S P (Prog.ret x : Prog σ ε α) Q := by
  intro a s hR hp
  refine ⟨a, .refl, ?_, ?_⟩
  · intro y hy
    cases hy
    exact ⟨hR, h a s hR hp⟩
  · intro e he
    cases he

theorem pure {x : α} (h : ∀ a s, R a s → P a s → Q x a s) :
    Sim R L S P (Pure.pure x : Prog σ ε α) Q := ret h

theorem stop {e : ε} (h : ∀ a s, R a s → P a s → S e a s) :
    Sim R L S P (Prog.stop e : Prog σ ε α) Q := by
  intro a s hR hp
  refine ⟨a, .refl, ?_, ?_⟩
  · intro y hy
    cases hy
  · intro e' he
    cases he
    exact h a s hR hp

theorem bind {m : Prog σ ε α} {f : α → Prog σ ε β} {T : β → μ → σ → Prop}
    (hm : Sim R L S P m Q) (hf : ∀ x, Sim R L S (Q x) (f x) T) : Sim R L S P (m >>= f) T := by
  intro a s hR hp
  obtain ⟨a₁, hm₁, hq, he⟩ := hm a s hR hp
  cases hms : m s with
  | mk r s₁ =>
    rw [hms] at hq he
    cases r with
    | error e =>
      rw [Prog.bind_error hms]
      refine ⟨a₁, hm₁, ?_, ?_⟩
      · intro y hy
        cases hy
      · intro e' he'
        cases he'
        exact he e rfl
    | ok x =>
      rw [Prog.bind_ok hms]
      obtain ⟨hR₁, hq₁⟩ := hq x rfl
      obtain ⟨a₂, hm₂, ht⟩ := hf x a₁ s₁ hR₁ hq₁
      exact ⟨a₂, hm₁.trans hm₂, ht⟩

/-- Reading the state: the continuation starts where the value read is the state. -/
theorem get {T : σ → μ → σ → Prop} (h : ∀ a s, R a s → P a s → T s a s) :
    Sim R L S P (Prog.get : Prog σ ε σ) T := by
  intro a s hR hp
  refine ⟨a, .refl, ?_, ?_⟩
  · intro x hx
    cases hx
    exact ⟨hR, h a s hR hp⟩
  · intro e he
    cases he

/-- A state update the machine follows by moves of its own. -/
theorem modify {g : σ → σ} {T : Unit → μ → σ → Prop}
    (h : ∀ a s, R a s → P a s → ∃ a', Moves L a a' ∧ R a' (g s) ∧ T () a' (g s)) :
    Sim R L S P (Prog.modify g : Prog σ ε Unit) T := by
  intro a s hR hp
  obtain ⟨a', hm, ht⟩ := h a s hR hp
  refine ⟨a', hm, ?_, ?_⟩
  · intro x hx
    cases hx
    exact ht
  · intro e he
    cases he

theorem ite {c : Prop} [Decidable c] {m₁ m₂ : Prog σ ε α}
    (h₁ : c → Sim R L S P m₁ Q) (h₂ : ¬c → Sim R L S P m₂ Q) :
    Sim R L S P (if c then m₁ else m₂) Q := by
  by_cases h : c
  · simp only [h, if_true]; exact h₁ h
  · simp only [h, if_false]; exact h₂ h

theorem require {b : Bool} {e : ε} {T : Unit → μ → σ → Prop}
    (h : ∀ a s, R a s → P a s → b = true → T () a s)
    (hs : ∀ a s, R a s → P a s → b = false → S e a s) :
    Sim R L S P (Prog.require b e : Prog σ ε Unit) T := by
  cases b with
  | false => exact stop (fun a s hR hp => hs a s hR hp rfl)
  | true => exact ret (fun a s hR hp => h a s hR hp rfl)

/-- A precondition may be used where it holds. -/
theorem intro {m : Prog σ ε α}
    (h : ∀ a s, R a s → P a s → Sim R L S (fun a' s' => a' = a ∧ s' = s) m Q) :
    Sim R L S P m Q := fun a s hR hp => h a s hR hp a s hR ⟨rfl, rfl⟩

end Sim

end LibMp
