import Mathlib.Data.List.Nodup

/- Loops whose body is a fixed list of different operations.

   A place in such a loop is the number of rounds that are over, and how the
   body splits into what was done in this round and what is still to do. How
   often an operation was done can be read off the place (`count`), and so can
   what the order of the body says: an operation is never done more often than
   one that stands before it, and before the next operation everything was done
   once more than the rounds. A loop whose operations hand on others makes those
   a loop too (`fed`). -/
namespace LibMp

/-- How far a loop has come. -/
structure Place (α : Type) where
  round : Nat
  did : List α
  todo : List α

namespace Place
variable {α : Type}

def start (body : List α) : Place α := ⟨0, [], body⟩

/-- The place after the next operation; after the last one the body starts again. -/
def next (body : List α) (p : Place α) : Place α :=
  match p.todo with
  | [] => p
  | [_] => ⟨p.round + 1, [], body⟩
  | op :: rest => ⟨p.round, p.did ++ [op], rest⟩

/-- The place is one in a loop over `body`. -/
structure In (body : List α) (p : Place α) : Prop where
  split : p.did ++ p.todo = body
  more : p.todo ≠ []

/-- How many operations were done. -/
def steps (body : List α) (p : Place α) : Nat := p.round * body.length + p.did.length

variable {body rest : List α} {p : Place α} {op x y : α}

theorem In.start (hb : body ≠ []) : In body (start body) := ⟨rfl, hb⟩

theorem next_last (h : p.todo = [op]) : p.next body = ⟨p.round + 1, [], body⟩ := by
  unfold next
  rw [h]

theorem next_inner (h : p.todo = op :: x :: rest) : p.next body = ⟨p.round, p.did ++ [op], x :: rest⟩ := by
  unfold next
  rw [h]

theorem In.next (h : In body p) : In body (p.next body) := by
  obtain ⟨hsplit, hmore⟩ := h
  cases htodo : p.todo with
  | nil => exact absurd htodo hmore
  | cons op rest =>
    cases rest with
    | nil =>
      rw [next_last htodo]
      refine ⟨rfl, fun hnil => ?_⟩
      have hbody : body = [] := hnil
      rw [hbody, htodo] at hsplit
      simp at hsplit
    | cons z rest =>
      rw [next_inner htodo]
      refine ⟨?_, by simp⟩
      rw [← hsplit, htodo]
      simp

/-- The next operation is one more. -/
theorem In.steps_next (h : In body p) : (p.next body).steps body = p.steps body + 1 := by
  obtain ⟨hsplit, hmore⟩ := h
  have hlen : body.length = p.did.length + p.todo.length := by rw [← hsplit, List.length_append]
  unfold steps
  cases htodo : p.todo with
  | nil => exact absurd htodo hmore
  | cons op rest =>
    rw [htodo, List.length_cons] at hlen
    cases rest with
    | nil =>
      rw [next_last htodo]
      simp only [List.length_nil, Nat.succ_mul] at hlen ⊢
      omega
    | cons z rest =>
      rw [next_inner htodo]
      simp only [List.length_append, List.length_singleton]
      omega

/-- Before the end of `n` rounds there is an operation left. -/
theorem In.steps_lt {n : Nat} (h : In body p) (hn : p.round < n) : p.steps body < n * body.length := by
  obtain ⟨hsplit, hmore⟩ := h
  have hlen : body.length = p.did.length + p.todo.length := by rw [← hsplit, List.length_append]
  have htodo : 0 < p.todo.length := List.length_pos_iff.mpr hmore
  have hround : (p.round + 1) * body.length ≤ n * body.length := Nat.mul_le_mul_right _ hn
  rw [Nat.succ_mul] at hround
  unfold steps
  omega

/-- The operation that ends a round is the last one of the body. -/
theorem In.rest_eq_nil_iff {l : List α} {z : α} (h : In (l ++ [z]) p) (hnd : (l ++ [z]).Nodup)
    (htodo : p.todo = op :: rest) : rest = [] ↔ op = z := by
  have hsplit := h.split
  rw [htodo] at hsplit
  constructor
  · rintro rfl
    exact (List.cons.inj (List.append_inj' hsplit rfl).2).1
  · rintro rfl
    by_contra hrest
    obtain ⟨init, y, rfl⟩ := List.eq_nil_or_concat rest |>.resolve_left hrest
    -- `op` would stand at the end once more
    rw [List.concat_eq_append, ← List.cons_append, ← List.append_assoc] at hsplit
    have hy := (List.cons.inj (List.append_inj' hsplit rfl).2).1
    rw [← hsplit, hy] at hnd
    refine (List.nodup_append.mp hnd).2.2 op ?_ op (List.mem_singleton_self op) rfl
    exact List.mem_append_right _ List.mem_cons_self

theorem next_round (p : Place α) : (p.next body).round ≤ p.round + 1 := by
  unfold next
  split
  · exact Nat.le_succ _
  · exact Nat.le_refl _
  · exact Nat.le_succ _

/-- A new round starts with nothing done. -/
theorem next_did (hround : (p.next body).round ≠ p.round) : (p.next body).did = [] := by
  cases htodo : p.todo with
  | nil =>
    have hsame : p.next body = p := by rw [next, htodo]
    exact absurd (congrArg Place.round hsame) hround
  | cons op rest =>
    cases rest with
    | nil => rw [next_last htodo]
    | cons z rest =>
      rw [next_inner htodo] at hround
      exact absurd rfl hround

theorem In.head_mem (h : In body p) (htodo : p.todo = op :: rest) : op ∈ body := by
  rw [← h.split, htodo]
  exact List.mem_append_right _ List.mem_cons_self

theorem In.round_next [DecidableEq α] {l : List α} {z : α} (h : In (l ++ [z]) p) (hnd : (l ++ [z]).Nodup)
    (htodo : p.todo = op :: rest) : (p.next (l ++ [z])).round = p.round + if op = z then 1 else 0 := by
  have hlast := h.rest_eq_nil_iff hnd htodo
  cases rest with
  | nil => rw [next_last htodo, if_pos (hlast.mp rfl)]
  | cons y rest =>
    have hne : ¬ op = z := fun he => List.cons_ne_nil _ _ (hlast.mpr he)
    rw [next_inner htodo, if_neg hne]
    rfl

/-! ## Counting -/

section Count
variable [DecidableEq α]

/-- How often `op` was done. -/
def count (p : Place α) (op : α) : Nat := p.round + if op ∈ p.did then 1 else 0

theorem count_bounds (p : Place α) (op : α) : p.round ≤ p.count op ∧ p.count op ≤ p.round + 1 := by
  unfold count
  split <;> omega

theorem count_of_mem (h : op ∈ p.did) : p.count op = p.round + 1 := by rw [count, if_pos h]

theorem count_of_not_mem (h : op ∉ p.did) : p.count op = p.round := by rw [count, if_neg h]; rfl

@[simp] theorem count_start (body : List α) (op : α) : (start body).count op = 0 := count_of_not_mem (by simp [start])

section In
variable (hnd : body.Nodup) (h : In body p)
include hnd h

omit [DecidableEq α] in
theorem In.head_not_mem (htodo : p.todo = op :: rest) : op ∉ p.did ∧ op ∉ rest := by
  have hsplit := h.split
  rw [htodo] at hsplit
  rw [← hsplit, List.nodup_append] at hnd
  obtain ⟨-, hnd₂, hdisj⟩ := hnd
  exact ⟨fun hm => hdisj op hm op List.mem_cons_self rfl, (List.nodup_cons.mp hnd₂).1⟩

omit [DecidableEq α] in
/-- What was done in this round is what stands before the next operation. -/
theorem In.did_eq {l l' : List α} (htodo : p.todo = op :: rest) (hbody : body = l ++ op :: l') :
    p.did = l ∧ rest = l' := by
  obtain ⟨hdid, hrest⟩ := h.head_not_mem hnd htodo
  have hsplit := h.split
  rw [htodo] at hsplit
  obtain ⟨h₁, -, h₂⟩ := (List.append_cons_inj_of_notMem hdid hrest).mp (hsplit.trans hbody)
  exact ⟨h₁, h₂⟩

/-- What is next was done once in each round that is over. -/
theorem In.count_head (htodo : p.todo = op :: rest) : p.count op = p.round :=
  count_of_not_mem (h.head_not_mem hnd htodo).1

theorem In.count_next (htodo : p.todo = op :: rest) (hx : x ∈ body) :
    (p.next body).count x = p.count x + if x = op then 1 else 0 := by
  obtain ⟨hdid, hrest⟩ := h.head_not_mem hnd htodo
  have hsplit := h.split
  cases rest with
  | nil =>
    -- the round is over: everything but the last operation was done before
    have hnew : (p.next body).count x = p.round + 1 := by
      rw [next_last htodo]
      exact count_of_not_mem (by simp)
    rw [hnew]
    by_cases hxop : x = op
    · rw [if_pos hxop, hxop, count_of_not_mem hdid]
    · rw [← hsplit, htodo] at hx
      have hmem : x ∈ p.did := by simpa [hxop] using hx
      rw [if_neg hxop, count_of_mem hmem]
  | cons z rest =>
    rw [next_inner htodo]
    by_cases hxop : x = op
    · rw [if_pos hxop, hxop, count_of_not_mem hdid]
      exact count_of_mem (by simp)
    · rw [if_neg hxop]
      simp only [count, List.mem_append, List.mem_singleton, hxop, or_false, Nat.add_zero]

/-- An operation is done no more often than one that stands before it. -/
theorem In.count_le_of_before (hxy : [x, y].Sublist body) : p.count y ≤ p.count x := by
  by_cases hy : y ∈ p.did
  · have hx : x ∈ p.did := by
      rw [← h.split] at hxy hnd
      obtain ⟨l₁, l₂, heq, hl₁, hl₂⟩ := List.sublist_append_iff.mp hxy
      have hytodo : y ∉ p.todo := fun hm => (List.nodup_append.mp hnd).2.2 y hy y hm rfl
      cases l₁ with
      | nil =>
        obtain rfl : [x, y] = l₂ := heq
        exact absurd (hl₂.subset (by simp)) hytodo
      | cons z l₁ =>
        obtain ⟨rfl, -⟩ := List.cons.inj heq
        exact hl₁.subset List.mem_cons_self
    rw [count_of_mem hx]
    exact (p.count_bounds y).2
  · rw [count_of_not_mem hy]
    exact (p.count_bounds x).1

/-- What stands before the next operation was done in this round. -/
theorem In.count_before_head (htodo : p.todo = y :: rest) (hxy : [x, y].Sublist body) : p.count x = p.round + 1 := by
  obtain ⟨-, hrest⟩ := h.head_not_mem hnd htodo
  have hx : x ∈ p.did := by
    rw [← h.split, htodo] at hxy
    obtain ⟨l₁, l₂, heq, hl₁, hl₂⟩ := List.sublist_append_iff.mp hxy
    cases l₁ with
    | nil =>
      obtain rfl : [x, y] = l₂ := heq
      -- `y` would stand once more behind itself
      have hy : y ∈ rest := by
        cases hl₂ with
        | cons _ hs => exact hs.subset (by simp)
        | cons_cons _ hs => exact hs.subset (by simp)
      exact absurd hy hrest
    | cons z l₁ =>
      obtain ⟨rfl, -⟩ := List.cons.inj heq
      exact hl₁.subset List.mem_cons_self
  exact count_of_mem hx

/-- What stands before something else does not end a round. -/
theorem In.rest_ne_nil (htodo : p.todo = x :: rest) (hxy : [x, y].Sublist body) : rest ≠ [] := by
  rintro rfl
  have hy : y ∈ p.did := by
    have hmem : y ∈ body := hxy.subset (List.mem_cons_of_mem _ List.mem_cons_self)
    have hne : y ≠ x := by
      rintro rfl
      have hnot := (List.nodup_cons.mp (hxy.nodup hnd)).1
      exact hnot List.mem_cons_self
    rw [← h.split, htodo, List.mem_append, List.mem_singleton] at hmem
    exact hmem.resolve_right hne
  have hle := h.count_le_of_before hnd hxy
  rw [h.count_head hnd htodo, count_of_mem hy] at hle
  omega

end In

/-- What does not end a round was done once more before its end. -/
theorem In.count_before_last (h : In body p) (htodo : p.todo = [op]) (hx : x ∈ body) (hne : x ≠ op) :
    p.count x = p.round + 1 := by
  rw [← h.split, htodo, List.mem_append, List.mem_singleton] at hx
  exact count_of_mem (hx.resolve_right hne)

/-- How often an operation was done that need not be one of the body. -/
def countIn (body : List α) (p : Place α) (x : α) : Nat := if x ∈ body then p.count x else 0

theorem countIn_of_mem (hx : x ∈ body) : p.countIn body x = p.count x := if_pos hx

theorem countIn_le (body : List α) (p : Place α) (x : α) : p.countIn body x ≤ p.round + 1 := by
  unfold countIn
  split
  · exact (p.count_bounds x).2
  · exact Nat.zero_le _

theorem In.countIn_next (h : In body p) (hnd : body.Nodup) (htodo : p.todo = op :: rest) (x : α) :
    (p.next body).countIn body x = p.countIn body x + if x = op then 1 else 0 := by
  by_cases hx : x ∈ body
  · rw [countIn_of_mem hx, countIn_of_mem hx, h.count_next hnd htodo hx]
  · have hne : ¬ x = op := fun he => hx (he ▸ h.head_mem htodo)
    rw [countIn, countIn, if_neg hx, if_neg hx, if_neg hne]

theorem In.countIn_head (h : In body p) (hnd : body.Nodup) (htodo : p.todo = op :: rest) :
    p.countIn body op = p.round :=
  (countIn_of_mem (h.head_mem htodo)).trans (h.count_head hnd htodo)

theorem In.countIn_before (h : In body p) (hnd : body.Nodup) (htodo : p.todo = op :: rest)
    (hx : [x, op].Sublist body) : p.countIn body x = p.round + 1 :=
  (countIn_of_mem (hx.subset List.mem_cons_self)).trans (h.count_before_head hnd htodo hx)

end Count

/-! ## Places by number -/

/-- The place after `k` operations. -/
def nth (body : List α) (k : Nat) : Place α :=
  ⟨k / body.length, body.take (k % body.length), body.drop (k % body.length)⟩

theorem nth_in (hb : body ≠ []) (k : Nat) : In body (nth body k) := by
  have hlt : k % body.length < body.length := Nat.mod_lt _ (List.length_pos_iff.mpr hb)
  refine ⟨List.take_append_drop .., fun hnil => ?_⟩
  have hle := List.drop_eq_nil_iff.mp hnil
  omega

theorem In.did_lt (h : In body p) : p.did.length < body.length := by
  have htodo : 0 < p.todo.length := List.length_pos_iff.mpr h.more
  rw [← h.split, List.length_append]
  omega

/-- A place is the one with its number. -/
theorem In.eq_nth (h : In body p) {k : Nat} (hk : p.steps body = k) : p = nth body k := by
  have hlt := h.did_lt
  have hdiv : k / body.length = p.round := by
    rw [← hk, steps, Nat.add_comm, Nat.add_mul_div_right _ _ (Nat.zero_lt_of_lt hlt), Nat.div_eq_of_lt hlt,
      Nat.zero_add]
  have hmod : k % body.length = p.did.length := by
    rw [← hk, steps, Nat.add_comm, Nat.add_mul_mod_self_right, Nat.mod_eq_of_lt hlt]
  obtain ⟨round, did, todo⟩ := p
  have hsplit : did ++ todo = body := h.split
  rw [nth, hdiv, hmod, ← hsplit, List.take_left, List.drop_left]

theorem steps_nth (hb : body ≠ []) (k : Nat) : (nth body k).steps body = k := by
  have hlt : k % body.length < body.length := Nat.mod_lt _ (List.length_pos_iff.mpr hb)
  rw [steps, nth, List.length_take, Nat.min_eq_left (Nat.le_of_lt hlt), Nat.mul_comm]
  exact Nat.div_add_mod k body.length

/-- The operations before the end of `n` rounds. -/
theorem nth_round_lt {n k : Nat} (hk : k < n * body.length) : (nth body k).round < n :=
  Nat.div_lt_of_lt_mul (by rwa [Nat.mul_comm])

theorem next_nth (hb : body ≠ []) (k : Nat) : (nth body k).next body = nth body (k + 1) := by
  have hin := nth_in hb k
  refine hin.next.eq_nth ?_
  rw [hin.steps_next, steps_nth hb]

/-! ## Loops that feed another one

   Each operation of a loop hands on a list of operations, which are done in
   their order somewhere else: so the other place is in a loop too. -/

section Fed
variable {β : Type} (f : α → List β)

/-- How many operations were handed on. -/
def fed (body : List α) (p : Place α) : Nat := p.round * (body.flatMap f).length + (p.did.flatMap f).length

variable {f}

theorem In.flatMap_split (h : In body p) (htodo : p.todo = op :: rest) :
    p.did.flatMap f ++ f op ++ rest.flatMap f = body.flatMap f := by
  rw [← h.split, htodo, List.flatMap_append, List.flatMap_cons, List.append_assoc]

theorem In.fed_next (h : In body p) (htodo : p.todo = op :: rest) :
    (p.next body).fed f body = p.fed f body + (f op).length := by
  have hlen := congrArg List.length (h.flatMap_split (f := f) htodo)
  simp only [List.length_append] at hlen
  unfold fed
  cases rest with
  | nil =>
    rw [next_last htodo]
    simp only [List.flatMap_nil, List.length_nil, Nat.succ_mul] at hlen ⊢
    omega
  | cons z rest =>
    rw [next_inner htodo]
    simp only [List.flatMap_append, List.flatMap_singleton, List.length_append]
    omega

/-- What is handed on now is done in the same round. -/
theorem In.nth_fed (h : In body p) (htodo : p.todo = op :: rest) {j : Nat} {x : β} (hj : (f op)[j]? = some x) :
    (nth (body.flatMap f) (p.fed f body + j)).round = p.round ∧
      ∃ l, (nth (body.flatMap f) (p.fed f body + j)).todo = x :: l := by
  have hsplit := h.flatMap_split (f := f) htodo
  obtain ⟨hjlt, hjx⟩ := List.getElem?_eq_some_iff.mp hj
  -- in the list of the whole round it stands behind what was handed on before
  have hget : (body.flatMap f)[(p.did.flatMap f).length + j]? = some x := by
    rw [← hsplit, List.append_assoc, List.getElem?_append_right (Nat.le_add_right ..), Nat.add_sub_cancel_left,
      List.getElem?_append_left hjlt, hj]
  obtain ⟨hlt, hx⟩ := List.getElem?_eq_some_iff.mp hget
  have hdiv : (p.fed f body + j) / (body.flatMap f).length = p.round := by
    rw [fed, Nat.add_assoc, Nat.add_comm, Nat.add_mul_div_right _ _ (Nat.zero_lt_of_lt hlt), Nat.div_eq_of_lt hlt,
      Nat.zero_add]
  have hmod : (p.fed f body + j) % (body.flatMap f).length = (p.did.flatMap f).length + j := by
    rw [fed, Nat.add_assoc, Nat.add_comm, Nat.add_mul_mod_self_right, Nat.mod_eq_of_lt hlt]
  refine ⟨hdiv, (body.flatMap f).drop ((p.did.flatMap f).length + j + 1), ?_⟩
  rw [nth, hmod]
  dsimp only
  rw [List.drop_eq_getElem_cons hlt, hx]

/-- After whole rounds everything of them was handed on. -/
theorem fed_of_did_nil (hdid : p.did = []) : p.fed f body = p.round * (body.flatMap f).length := by
  rw [fed, hdid]
  rfl

/-- In `n` rounds no more is handed on than belongs to them. -/
theorem In.fed_le {n : Nat} (h : In body p) (hn : p.round < n) : p.fed f body ≤ n * (body.flatMap f).length := by
  have hlen : (p.did.flatMap f).length ≤ (body.flatMap f).length := by
    rw [← h.split, List.flatMap_append, List.length_append]
    exact Nat.le_add_right ..
  have hround : (p.round + 1) * (body.flatMap f).length ≤ n * (body.flatMap f).length := Nat.mul_le_mul_right _ hn
  rw [Nat.succ_mul] at hround
  unfold fed
  omega

end Fed

end Place

/-! ## Bodies made of parts -/

section Parts
variable {α β : Type} {l₁ l₂ : List α} {x y : α}

/-- What stands in the first part is before what stands in the second. -/
theorem before_append (hx : x ∈ l₁) (hy : y ∈ l₂) : [x, y].Sublist (l₁ ++ l₂) :=
  (List.singleton_sublist.mpr hx).append (List.singleton_sublist.mpr hy)

theorem sublist_flatMap {f : β → List α} {l : List β} {b : β} (hb : b ∈ l) : (f b).Sublist (l.flatMap f) :=
  List.sublist_flatten_of_mem (List.mem_map.mpr ⟨b, hb, rfl⟩)

/-- Two operations for each of a list, all of them different. -/
theorem pairs_nodup {f g : β → α} {l : List β} (hl : l.Nodup) (hf : ∀ a b, f a = f b → a = b)
    (hg : ∀ a b, g a = g b → a = b) (hfg : ∀ a b, f a ≠ g b) : (l.flatMap fun b => [f b, g b]).Nodup := by
  refine List.nodup_flatMap.mpr ⟨fun b _ => by simp [hfg], hl.imp fun hne op hop hop' => ?_⟩
  simp only [List.mem_cons, List.not_mem_nil, or_false] at hop hop'
  rcases hop with rfl | rfl
  · exact hop'.elim (fun he => hne (hf _ _ he)) (hfg _ _)
  · exact hop'.elim (fun he => hfg _ _ he.symm) fun he => hne (hg _ _ he)

end Parts

end LibMp
