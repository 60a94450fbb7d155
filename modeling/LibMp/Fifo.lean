import Mathlib.Data.List.Basic

/- Queues with a history.

   `Fifo pushed popped queue`: of the elements ever pushed, the popped ones are
   a prefix and the queue is what is left. When the pushed elements are sorted,
   so are the popped ones, and an element is popped after everything below it.

   `Precedes x y log`: whenever `y` stands in the log, `x` stands before it. -/
namespace LibMp
variable {α : Type}

/-- The queue holds what was pushed and not yet popped, in order. -/
def Fifo (pushed popped queue : List α) : Prop := pushed = popped ++ queue

namespace Fifo
variable {pushed popped queue : List α}

theorem push (h : Fifo pushed popped queue) (x : α) : Fifo (pushed ++ [x]) popped (queue ++ [x]) := by
  rw [Fifo, h, List.append_assoc]

theorem pop {x : α} (h : Fifo pushed popped (x :: queue)) : Fifo pushed (popped ++ [x]) queue := by
  rw [Fifo, h, List.append_assoc]
  rfl

variable {r : α → α → Prop}

theorem popped_sorted (h : Fifo pushed popped queue) (hs : pushed.Pairwise r) : popped.Pairwise r := by
  rw [h] at hs
  exact (List.pairwise_append.mp hs).1

/-- Everything below a popped element was popped before it. -/
theorem popped_before {l₁ l₂ : List α} {x y : α} (h : Fifo pushed (l₁ ++ x :: l₂) queue) (hs : pushed.Pairwise r)
    (hasymm : ∀ a b, r a b → ¬ r b a) (hy : y ∈ pushed) (hyx : r y x) : y ∈ l₁ := by
  rw [h, List.append_assoc] at hs hy
  obtain ⟨-, hx, -⟩ := List.pairwise_append.mp hs
  rcases List.mem_append.mp hy with hy | hy
  · exact hy
  · rw [List.cons_append] at hy hx
    rcases List.mem_cons.mp hy with rfl | hy
    · exact absurd hyx (hasymm y y hyx)
    · exact absurd (List.rel_of_pairwise_cons hx hy) (hasymm y x hyx)

end Fifo

/-! ## Places in a queue -/

/-- Without repetitions no two elements stand in front of each other. -/
theorem sublist_asymm {l : List α} {x y : α} (hnd : l.Nodup) (hxy : [x, y].Sublist l) (hyx : [y, x].Sublist l) :
    False := by
  induction l with
  | nil => cases hxy
  | cons z l ih =>
    obtain ⟨hz, hnd'⟩ := List.nodup_cons.mp hnd
    cases hxy with
    | cons _ hxy =>
      cases hyx with
      | cons _ hyx => exact ih hnd' hxy hyx
      | cons_cons _ _ => exact hz (hxy.subset (List.mem_cons_of_mem _ List.mem_cons_self))
    | cons_cons _ hy =>
      cases hyx with
      | cons _ hyx => exact hz (hyx.subset (List.mem_cons_of_mem _ List.mem_cons_self))
      | cons_cons _ _ => exact hz (hy.subset List.mem_cons_self)

/-- The last element has all others in front of it. -/
theorem sublist_of_getLast? {l : List α} {x y : α} (hlast : l.getLast? = some y) (hx : x ∈ l) (hne : x ≠ y) :
    [x, y].Sublist l := by
  obtain ⟨m, rfl⟩ := List.getLast?_eq_some_iff.mp hlast
  rcases List.mem_append.mp hx with hx | hx
  · exact (List.singleton_sublist.mpr hx).append (List.Sublist.refl [y])
  · exact absurd (List.mem_singleton.mp hx) hne

/-- Without `z` the others keep their order. -/
theorem sublist_remove {l₁ l₂ m : List α} {z : α} (h : m.Sublist (l₁ ++ z :: l₂)) (hz : z ∉ m) :
    m.Sublist (l₁ ++ l₂) := by
  obtain ⟨m₁, m₂, rfl, h₁, h₂⟩ := List.sublist_append_iff.mp h
  rcases List.sublist_cons_iff.mp h₂ with h₂ | ⟨r, rfl, -⟩
  · exact h₁.append h₂
  · exact absurd (List.mem_append_right _ List.mem_cons_self) hz

/-- Putting an element somewhere keeps the order of the others. -/
theorem sublist_insert {l₁ l₂ : List α} {m : List α} (z : α) (h : m.Sublist (l₁ ++ l₂)) :
    m.Sublist (l₁ ++ z :: l₂) := h.trans ((List.Sublist.refl l₁).append (List.sublist_cons_self z l₂))

/-! ## Orders in a log -/

/-- Before every `y` in the log stands an `x`. -/
def Precedes (x y : α) (log : List α) : Prop := ∀ l₁ l₂, log = l₁ ++ y :: l₂ → x ∈ l₁

theorem Precedes.of_not_mem {x y : α} {log : List α} (h : y ∉ log) : Precedes x y log := by
  rintro l₁ l₂ rfl
  exact absurd (List.mem_append_right _ List.mem_cons_self) h

/-- A log grows: what is new and has to come after `x` finds it in the log. -/
theorem Precedes.append {x y : α} {log new : List α} (h : Precedes x y log) (hnew : y ∈ new → x ∈ log) :
    Precedes x y (log ++ new) := by
  intro l₁ l₂ heq
  rcases List.append_eq_append_iff.mp heq with ⟨m, rfl, hm⟩ | ⟨m, rfl, hm⟩
  · exact List.mem_append_left _ (hnew (by rw [hm]; exact List.mem_append_right _ List.mem_cons_self))
  · cases m with
    | nil =>
      rw [List.append_nil] at hnew
      exact hnew (by rw [← List.nil_append new, ← hm]; exact List.mem_cons_self)
    | cons z m =>
      obtain ⟨rfl, -⟩ := List.cons.inj hm
      exact h l₁ m rfl

end LibMp
