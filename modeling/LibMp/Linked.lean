import Mathlib.Data.List.Nodup
import Mathlib.Logic.Function.Basic

/- Lists threaded through pointers.

   `Seg nxt h l e`: following `nxt` from the pointer `h` visits exactly the
   nodes `l`, in order, and then holds the pointer `e`. A singly linked list
   ends at no node (`Linked`); a doubly linked list is one list of nodes that
   `nxt` threads from the head and `prv` threads backwards from the tail
   (`Dll`). The rules are the updates an intrusive list makes in place: take
   the first node, put a node in front, append a node, unlink the first node,
   and the frame rule (links outside the list do not matter). `search` walks
   along the links to the first node of a kind. -/
namespace LibMp
variable {α : Type}

/-- Following `nxt` from `h` visits exactly `l`, then holds `e`. -/
def Seg (nxt : α → Option α) (h : Option α) : List α → Option α → Prop
  | [], e => h = e
  | p :: l, e => h = some p ∧ Seg nxt (nxt p) l e

/-- The list threaded by `nxt` from `h`. -/
def Linked (nxt : α → Option α) (h : Option α) (l : List α) : Prop := Seg nxt h l none

/-- Follow `nxt` from `h` to the first node that passes the test, over at most
`fuel` nodes; `none` if these do not reach the end. -/
def search (nxt : α → Option α) (test : α → Bool) : Nat → Option α → Option (Option α)
  | _, none => some none
  | 0, some _ => none
  | fuel + 1, some p => if test p then some (some p) else search nxt test fuel (nxt p)

namespace Seg
variable {nxt nxt' : α → Option α} {h e : Option α}

theorem append {l₁ l₂ : List α} :
    Seg nxt h (l₁ ++ l₂) e ↔ ∃ m, Seg nxt h l₁ m ∧ Seg nxt m l₂ e := by
  induction l₁ generalizing h with
  | nil => simp [Seg]
  | cons p l ih =>
    simp only [List.cons_append, Seg, ih]
    constructor
    · rintro ⟨hp, m, h1, h2⟩; exact ⟨m, ⟨hp, h1⟩, h2⟩
    · rintro ⟨m, ⟨hp, h1⟩, h2⟩; exact ⟨hp, m, h1, h2⟩

/-- Links outside the segment do not matter. -/
theorem frame {l : List α} (hs : Seg nxt h l e) (heq : ∀ p ∈ l, nxt' p = nxt p) :
    Seg nxt' h l e := by
  induction l generalizing h with
  | nil => exact hs
  | cons p l ih =>
    obtain ⟨hp, hs⟩ := hs
    refine ⟨hp, ?_⟩
    rw [heq p List.mem_cons_self]
    exact ih hs (fun q hq => heq q (List.mem_cons_of_mem p hq))

end Seg

namespace Linked
variable {nxt nxt' : α → Option α} {h : Option α} {l : List α}

theorem nil : Linked nxt none [] := rfl

theorem cons_iff {p : α} : Linked nxt h (p :: l) ↔ h = some p ∧ Linked nxt (nxt p) l := Iff.rfl

theorem frame (hs : Linked nxt h l) (heq : ∀ p ∈ l, nxt' p = nxt p) : Linked nxt' h l :=
  Seg.frame hs heq

/-- The nodes of a linked list are determined by its head. -/
theorem unique {l' : List α} (h₁ : Linked nxt h l) (h₂ : Linked nxt h l') : l = l' := by
  induction l generalizing h l' with
  | nil =>
    cases l' with
    | nil => rfl
    | cons q l' => rw [show h = none from h₁] at h₂; exact absurd h₂.1 (by simp)
  | cons p l ih =>
    cases l' with
    | nil => rw [show h = none from h₂] at h₁; exact absurd h₁.1 (by simp)
    | cons q l' =>
      obtain ⟨hp, h₁⟩ := h₁
      obtain ⟨hq, h₂⟩ := h₂
      rw [hp] at hq
      cases hq
      rw [ih h₁ h₂]

/-- A head that is no node is an empty list. -/
theorem eq_nil (hs : Linked nxt none l) : l = [] := unique hs nil

/-- A head `p` is a list that starts with `p`. -/
theorem eq_cons {p : α} (hs : Linked nxt (some p) l) :
    ∃ l', l = p :: l' ∧ Linked nxt (nxt p) l' := by
  cases l with
  | nil => exact absurd hs (by simp [Linked, Seg])
  | cons q l' =>
    obtain ⟨hq, hs⟩ := hs
    cases hq
    exact ⟨l', rfl, hs⟩

theorem head?_eq (hs : Linked nxt h l) : l.head? = h := by
  cases l with
  | nil => exact hs.symm
  | cons p l => exact hs.1.symm

/-- Every node but the last links to its successor. -/
theorem nxt_eq {l₁ l₂ : List α} {p q : α} (hs : Linked nxt h (l₁ ++ p :: q :: l₂)) : nxt p = some q := by
  obtain ⟨m, -, hm⟩ := Seg.append.mp hs
  exact hm.2.1

/-- The successor of a node is a node. -/
theorem nxt_mem {p q : α} (hs : Linked nxt h l) (hp : p ∈ l) (hpq : nxt p = some q) : q ∈ l := by
  obtain ⟨l₁, l₂, rfl⟩ := List.append_of_mem hp
  obtain ⟨m, -, -, hm⟩ := Seg.append.mp hs
  rw [hpq] at hm
  obtain ⟨l₃, rfl, -⟩ := eq_cons (show Linked nxt (some q) l₂ from hm)
  simp

/-- Walking along a list finds its first node that passes, if the fuel is enough
for all of it. -/
theorem search_eq {test : α → Bool} {fuel : Nat} (hs : Linked nxt h l) (hf : l.length ≤ fuel) :
    search nxt test fuel h = some (l.find? test) := by
  induction l generalizing h fuel with
  | nil =>
    rw [show h = none from hs]
    cases fuel <;> rfl
  | cons p l ih =>
    obtain ⟨rfl, hs⟩ := hs
    obtain ⟨n, rfl⟩ : ∃ n, fuel = n + 1 := ⟨fuel - 1, by simp at hf; omega⟩
    rw [search, List.find?_cons]
    cases test p with
    | true => rfl
    | false => exact ih hs (by simpa using hf)

/-- An array of nodes that each link to the next one, as an allocator threads
it: `n` nodes from `a` to `e`. -/
theorem range' {nxt : Nat → Option Nat} {e : Nat} (n a : Nat) (he : a + n = e)
    (hn : ∀ q, a ≤ q → q < e → nxt q = if q + 1 < e then some (q + 1) else none) :
    Linked nxt (if a < e then some a else none) (List.range' a n) := by
  induction n generalizing a with
  | zero =>
    rw [if_neg (by omega)]
    exact nil
  | succ n ih =>
    rw [if_pos (by omega), List.range'_succ, cons_iff, hn a (Nat.le_refl a) (by omega)]
    exact ⟨rfl, ih (a + 1) (by omega) (fun q hq hqe => hn q (by omega) hqe)⟩

end Linked

/-- The nodes `l`, doubly linked: `nxt` threads them from the head `hd`, `prv`
backwards from the tail `tl`. -/
structure Dll (nxt prv : α → Option α) (hd tl : Option α) (l : List α) : Prop where
  fwd : Linked nxt hd l
  bwd : Linked prv tl l.reverse

namespace Dll
variable {nxt prv nxt' prv' : α → Option α} {hd tl : Option α} {l : List α}

theorem nil : Dll nxt prv none none [] := ⟨Linked.nil, Linked.nil⟩

theorem frame (h : Dll nxt prv hd tl l) (hn : ∀ p ∈ l, nxt' p = nxt p) (hp : ∀ p ∈ l, prv' p = prv p) :
    Dll nxt' prv' hd tl l :=
  ⟨h.fwd.frame hn, h.bwd.frame (fun p hm => hp p (List.mem_reverse.mp hm))⟩

theorem eq_nil (h : Dll nxt prv none tl l) : l = [] ∧ tl = none := by
  obtain rfl := h.fwd.eq_nil
  exact ⟨rfl, h.bwd⟩

theorem tail_eq (h : Dll nxt prv hd tl l) : l.getLast? = tl := by
  rw [← h.bwd.head?_eq, List.head?_reverse]

/-- A list has no head exactly when it has no tail. -/
theorem head_none_iff (h : Dll nxt prv hd tl l) : hd = none ↔ tl = none := by
  rw [← h.fwd.head?_eq, ← h.tail_eq]
  simp

/-- The head has no predecessor. -/
theorem prv_head {p : α} (h : Dll nxt prv hd tl (p :: l)) : prv p = none := by
  have := h.bwd
  rw [List.reverse_cons] at this
  obtain ⟨m, -, hm⟩ := Seg.append.mp this
  exact hm.2

/-- On the list, `prv` is the inverse of `nxt`. -/
theorem inverse (h : Dll nxt prv hd tl l) (hnd : l.Nodup) {p q : α} (hp : p ∈ l) (hq : q ∈ l) :
    nxt p = some q ↔ prv q = some p := by
  constructor
  · intro hpq
    obtain ⟨l₁, l₂, rfl⟩ := List.append_of_mem hp
    obtain ⟨m, -, -, hm⟩ := Seg.append.mp h.fwd
    rw [hpq] at hm
    obtain ⟨l₃, rfl, -⟩ := Linked.eq_cons (show Linked nxt (some q) l₂ from hm)
    have hb := h.bwd
    rw [show (l₁ ++ p :: q :: l₃).reverse = l₃.reverse ++ q :: p :: l₁.reverse by simp] at hb
    exact hb.nxt_eq
  · intro hpq
    have hb := h.bwd
    obtain ⟨l₁, l₂, hl⟩ := List.append_of_mem (List.mem_reverse.mpr hq)
    rw [hl] at hb
    obtain ⟨m, -, -, hm⟩ := Seg.append.mp hb
    rw [hpq] at hm
    obtain ⟨l₃, rfl, -⟩ := Linked.eq_cons (show Linked prv (some p) l₂ from hm)
    have hf := h.fwd
    rw [show l = l₃.reverse ++ p :: q :: l₁.reverse by
      rw [← List.reverse_reverse l, hl]; simp] at hf
    exact hf.nxt_eq

/-- Append the node `p`: the old tail links forward to `p`, and `p` back to it. -/
theorem snoc (h : Dll nxt prv hd tl l) (hnd : l.Nodup) {p : α} (hpl : p ∉ l)
    (hne : l ≠ []) (hpn : nxt' p = none) (hpp : prv' p = tl)
    (hn : ∀ q ∈ l, some q ≠ tl → nxt' q = nxt q) (hlast : ∀ q, tl = some q → nxt' q = some p)
    (hp : ∀ q ∈ l, prv' q = prv q) : Dll nxt' prv' hd (some p) (l ++ [p]) := by
  have htl := h.tail_eq
  obtain ⟨l', q, rfl⟩ : ∃ l' q, l = l' ++ [q] :=
    ⟨l.dropLast, l.getLast hne, (List.dropLast_append_getLast hne).symm⟩
  rw [List.getLast?_concat] at htl
  subst htl
  have hnd' := List.nodup_append.mp hnd
  constructor
  · obtain ⟨m, hm, hq⟩ := Seg.append.mp h.fwd
    rw [List.append_assoc]
    refine Seg.append.mpr ⟨m, hm.frame ?_, hq.1, ?_⟩
    · intro r hr
      refine hn r (List.mem_append_left _ hr) ?_
      intro he
      cases he
      exact hnd'.2.2 q hr q (by simp) rfl
    · rw [hlast q rfl]
      exact ⟨rfl, hpn⟩
  · rw [List.reverse_append]
    refine ⟨rfl, ?_⟩
    rw [hpp]
    exact h.bwd.frame (fun r hr => hp r (List.mem_reverse.mp hr))

/-- The one-node list. -/
theorem singleton {p : α} (hn : nxt p = none) (hp : prv p = none) : Dll nxt prv (some p) (some p) [p] :=
  ⟨⟨rfl, hn⟩, ⟨rfl, hp⟩⟩

/-- The first node has nothing before it and the rest of the list after it. -/
theorem head_links {p : α} (h : Dll nxt prv hd tl (p :: l)) (hnd : (p :: l).Nodup) :
    p ∉ l ∧ prv p = none ∧ (∀ q, nxt p = some q → q ∈ l) ∧ nxt p ≠ some p := by
  have hpl : p ∉ l := (List.nodup_cons.mp hnd).1
  have hmem : ∀ q, nxt p = some q → q ∈ l := by
    intro q hq
    have hl : Linked nxt (nxt p) l := h.fwd.2
    rw [hq] at hl
    obtain ⟨l', rfl, -⟩ := hl.eq_cons
    exact List.mem_cons_self
  exact ⟨hpl, h.prv_head, hmem, fun hn => hpl (hmem p hn)⟩

/-- The first node is the tail of a list of one. -/
theorem tail_eq_head_iff {p : α} (h : Dll nxt prv hd tl (p :: l)) (hp : p ∉ l) : tl = some p ↔ l = [] := by
  rw [← h.tail_eq]
  constructor
  · intro hg
    cases l with
    | nil => rfl
    | cons r l =>
      rw [List.getLast?_cons_cons] at hg
      exact absurd (List.mem_of_getLast? hg) hp
  · rintro rfl
    rfl

/-- Unlink the first node `p`: its successor loses its predecessor, the head
moves to the successor, and the tail is cleared if `p` was the only node. -/
theorem tail_of_cons {p : α} (h : Dll nxt prv hd tl (p :: l)) (hnd : (p :: l).Nodup)
    (hn : ∀ q ∈ l, nxt' q = nxt q) (hfirst : ∀ q, nxt p = some q → prv' q = none)
    (hp : ∀ q ∈ l, nxt p ≠ some q → prv' q = prv q) :
    Dll nxt' prv' (nxt p) (if l = [] then none else tl) l := by
  have hpl := (List.nodup_cons.mp hnd).1
  refine ⟨Linked.frame h.fwd.2 hn, ?_⟩
  cases l with
  | nil => exact Linked.nil
  | cons q l =>
    have hpq : nxt p = some q := h.fwd.2.1
    have hql := (List.nodup_cons.mp (List.nodup_cons.mp hnd).2).1
    have hb := h.bwd
    rw [List.reverse_cons] at hb
    obtain ⟨m, hm, hpm⟩ := Seg.append.mp hb
    rw [List.reverse_cons] at hm ⊢
    obtain ⟨m', hm', hq⟩ := Seg.append.mp hm
    rw [if_neg (by simp)]
    refine Seg.append.mpr ⟨m', hm'.frame ?_, hq.1, hfirst q hpq⟩
    intro r hr
    rw [List.mem_reverse] at hr
    refine hp r (List.mem_cons_of_mem q hr) ?_
    intro he
    rw [hpq] at he
    cases he
    exact hql hr

end Dll

end LibMp
