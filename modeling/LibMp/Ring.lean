import Mathlib.Data.Nat.ModEq
import Mathlib.Logic.Function.Basic

/- Rings of blocks that are filled in place and given away in turn.

   One block is current. Giving it away makes the next one current and clears
   it, so a block that was given away keeps what it holds until the turn comes
   back to it. `Ring.Holds n blank r given cur` says that the blocks of `given`
   were given away, in this order, and that the last `n - 1` of them still hold
   what they held then. The rules are the two moves of a ring. -/
namespace LibMp
variable {α : Type}

/-- Blocks, and which one is current. -/
structure Ring (α : Type) where
  slots : Nat → α
  idx : Nat

/-- Closer than `n` apart, numbers have different places in a ring of `n`. -/
theorem mod_ne_of_lt {n i j : Nat} (hij : i < j) (hn : j - i < n) : i % n ≠ j % n := by
  intro he
  have hdvd : n ∣ j - i := (Nat.modEq_iff_dvd' (Nat.le_of_lt hij)).mp he
  have := Nat.le_of_dvd (by omega) hdvd
  omega

namespace Ring

def current (r : Ring α) : α := r.slots r.idx

/-- The current block is filled in. -/
def fill (r : Ring α) (g : α → α) : Ring α := { r with slots := Function.update r.slots r.idx (g r.current) }

/-- The current block is given away, and the next one is current and blank. -/
def give (r : Ring α) (n : Nat) (blank : α) : Ring α :=
  ⟨Function.update r.slots ((r.idx + 1) % n) blank, (r.idx + 1) % n⟩

@[simp] theorem fill_current (r : Ring α) (g : α → α) : (r.fill g).current = g r.current := Function.update_self ..

theorem fill_id (r : Ring α) : r.fill (fun a => a) = r := by
  rw [fill, current, Function.update_eq_self]

theorem fill_fill (r : Ring α) (f g : α → α) : (r.fill f).fill g = r.fill fun a => g (f a) := by
  simp only [fill, current, Function.update_self, Function.update_idem]

@[simp] theorem give_current (r : Ring α) (n : Nat) (blank : α) : (r.give n blank).current = blank :=
  Function.update_self ..

/-- The blocks `given` were given away, and the current one is `cur`. -/
structure Holds (n : Nat) (r : Ring α) (given : List α) (cur : α) : Prop where
  idx : r.idx = given.length % n
  current : r.current = cur
  kept : ∀ k a, given[k]? = some a → given.length - k < n → r.slots (k % n) = a

namespace Holds
variable {n : Nat} {r : Ring α} {given : List α} {cur blank : α}

theorem init : Holds n ⟨fun _ => blank, 0⟩ [] blank where
  idx := (Nat.zero_mod n).symm
  current := rfl
  kept k a hk := by cases hk

theorem fill (h : Holds n r given cur) (g : α → α) : Holds n (r.fill g) given (g cur) where
  idx := h.idx
  current := by rw [fill_current, h.current]
  kept k a hk hn := by
    have hlt : k < given.length := (List.getElem?_eq_some_iff.mp hk).1
    have hne : k % n ≠ r.idx := h.idx ▸ mod_ne_of_lt hlt hn
    exact (Function.update_of_ne hne ..).trans (h.kept k a hk hn)

theorem give (h : Holds n r given cur) : Holds n (r.give n blank) (given ++ [cur]) blank where
  idx := by
    show (r.idx + 1) % n = _
    rw [h.idx, List.length_append, List.length_singleton, Nat.mod_add_mod]
  current := give_current ..
  kept k a hk hn := by
    rw [List.length_append, List.length_singleton] at hn
    have hnext : (r.idx + 1) % n = (given.length + 1) % n := by rw [h.idx, Nat.mod_add_mod]
    have hle : k < given.length + 1 := by
      have := (List.getElem?_eq_some_iff.mp hk).1
      rwa [List.length_append, List.length_singleton] at this
    have hne : k % n ≠ (r.idx + 1) % n := hnext ▸ mod_ne_of_lt hle hn
    refine (Function.update_of_ne hne ..).trans ?_
    by_cases hlast : k = given.length
    · -- the block that was just given away
      subst hlast
      rw [List.getElem?_concat_length] at hk
      cases hk
      rw [← h.idx]
      exact h.current
    · rw [List.getElem?_append_left (by omega)] at hk
      exact h.kept k a hk (by omega)

end Holds

end Ring

end LibMp
