import Mathlib.Order.WellFounded
import LibMp.Prog

/- Messages in rounds, with credits.

   In every round each member of a group posts a buffer for every other member
   and tells it so, waits for the notice of every other member and sends it a
   message. Its round is over when it has sent and received all messages of the
   round. Messages and notices take any time, and a member reads off only the
   number of the notice that came in last.

   All counts of one message stream, from `a` to `b`, stand in one chain:

     round b ≤ arrived ≤ sent ≤ passed ≤ heard ≤ told ≤ round b + 1.

   So a message finds its buffer, a notice is not overtaken by the next one, and
   the rounds of two members differ by at most one. The order in which a member
   does its part is not fixed here: each step says what must have come before. -/
namespace LibMp

/-- `receiver` has a buffer for the message number `no` of `sender`. -/
structure Notice (ι : Type) where
  sender : ι
  receiver : ι
  no : Nat

/-- What has happened, by sender and receiver of the messages. Both `posted`
and `told` count what the receiver has done, `heard` is the number of the last
notice that has reached the sender, `passed` how many it has waited for. -/
@[ext]
structure Exchange (ι : Type) where
  posted : ι → ι → Nat
  told : ι → ι → Nat
  notices : List (Notice ι)
  heard : ι → ι → Nat
  passed : ι → ι → Nat
  sent : ι → ι → Nat
  arrived : ι → ι → Nat
  round : ι → Nat

/-- Two different members. -/
structure Apart {ι : Type} (mem : ι → Prop) (a b : ι) : Prop where
  left : mem a
  right : mem b
  ne : a ≠ b

theorem Apart.symm {ι : Type} {mem : ι → Prop} {a b : ι} (h : Apart mem a b) : Apart mem b a :=
  ⟨h.right, h.left, h.ne.symm⟩

section
variable {ι : Type} [DecidableEq ι]

/-- A table changed at one place. -/
def setAt (t : ι → ι → Nat) (a b : ι) (v : Nat) : ι → ι → Nat := fun x y => if x = a ∧ y = b then v else t x y

@[simp] theorem setAt_self (t : ι → ι → Nat) (a b : ι) (v : Nat) : setAt t a b v a b = v := if_pos ⟨rfl, rfl⟩

theorem setAt_of_ne (t : ι → ι → Nat) {a b x y : ι} (v : Nat) (h : ¬ (x = a ∧ y = b)) : setAt t a b v x y = t x y :=
  if_neg h

namespace Exchange

def start : Exchange ι :=
  ⟨fun _ _ => 0, fun _ _ => 0, [], fun _ _ => 0, fun _ _ => 0, fun _ _ => 0, fun _ _ => 0, fun _ => 0⟩

variable (mem : ι → Prop)

/-- What the members, the notices and the messages can do. -/
inductive Step (s : Exchange ι) : Exchange ι → Prop where
  | post {a b} : Apart mem a b → Step s { s with posted := setAt s.posted a b (s.posted a b + 1) }
  | tell {a b} : Apart mem a b → s.told a b < s.posted a b → s.told a b ≤ s.round b →
      Step s { s with told := setAt s.told a b (s.told a b + 1), notices := s.notices ++ [⟨a, b, s.told a b + 1⟩] }
  | hear {i x} : s.notices[i]? = some x →
      Step s { s with heard := setAt s.heard x.sender x.receiver x.no, notices := s.notices.eraseIdx i }
  | pass {a b} : Apart mem a b → s.passed a b < s.heard a b → s.passed a b ≤ s.round a →
      Step s { s with passed := setAt s.passed a b (s.passed a b + 1) }
  | send {a b} : Apart mem a b → s.sent a b < s.passed a b → Step s { s with sent := setAt s.sent a b (s.sent a b + 1) }
  | arrive {a b} : Apart mem a b → s.arrived a b < s.sent a b →
      Step s { s with arrived := setAt s.arrived a b (s.arrived a b + 1) }
  | finish {b} : mem b → (∀ a, Apart mem a b → s.round b < s.arrived a b ∧ s.round b < s.sent b a) →
      Step s { s with round := fun x => if x = b then s.round x + 1 else s.round x }

/-- The notices for the messages from `a` to `b`. -/
def noticesOf (s : Exchange ι) (a b : ι) : List (Notice ι) := s.notices.filter fun x => x.sender = a ∧ x.receiver = b

/-- See the head of the file. The last notice is on its way or was heard. -/
structure Chain (s : Exchange ι) (a b : ι) : Prop where
  round_le : s.round b ≤ s.arrived a b
  arrived_le : s.arrived a b ≤ s.sent a b
  sent_le : s.sent a b ≤ s.passed a b
  passed_le : s.passed a b ≤ s.heard a b
  heard_le : s.heard a b ≤ s.told a b
  told_le : s.told a b ≤ s.posted a b
  told_round : s.told a b ≤ s.round b + 1
  passed_round : s.passed a b ≤ s.round a + 1
  round_sent : s.round a ≤ s.sent a b
  flight : s.noticesOf a b = if s.heard a b < s.told a b then [⟨a, b, s.told a b⟩] else []

/-- The invariant of an exchange. -/
structure Orderly (s : Exchange ι) : Prop where
  apart : ∀ x ∈ s.notices, Apart mem x.sender x.receiver
  chain : ∀ a b, Apart mem a b → s.Chain a b

variable {mem} {s s' : Exchange ι}

theorem filter_one {α : Type} (p : α → Bool) (x : α) : [x].filter p = if p x then [x] else [] := by
  cases hp : p x <;> simp [hp]

/-- A filter sees the element that is taken out only if it lets it pass. -/
theorem filter_eraseIdx {α : Type} {l : List α} {i : Nat} {x : α} (h : l[i]? = some x) (p : α → Bool) :
    ∃ l₁ l₂, (l.eraseIdx i).filter p = l₁ ++ l₂ ∧ l.filter p = l₁ ++ (if p x then [x] else []) ++ l₂ := by
  obtain ⟨hlt, rfl⟩ := List.getElem?_eq_some_iff.mp h
  refine ⟨(l.take i).filter p, (l.drop (i + 1)).filter p, ?_, ?_⟩
  · rw [List.eraseIdx_eq_take_drop_succ, List.filter_append]
  · have hsplit : l = l.take i ++ [l[i]] ++ l.drop (i + 1) := by
      rw [List.append_assoc, List.singleton_append, List.getElem_cons_drop, List.take_append_drop]
    have hfilter := congrArg (List.filter p) hsplit
    rw [List.filter_append, List.filter_append, filter_one] at hfilter
    exact hfilter

/-- A notice that is told is the only one on its way. -/
theorem Orderly.tell (h : Orderly mem s) {a b : ι} (hab : Apart mem a b) (hposted : s.told a b < s.posted a b)
    (hround : s.told a b ≤ s.round b) : Orderly mem { s with
      told := setAt s.told a b (s.told a b + 1), notices := s.notices ++ [⟨a, b, s.told a b + 1⟩] } := by
  refine ⟨fun x hx => ?_, fun c d hcd => ?_⟩
  · rcases List.mem_append.mp hx with hx | hx
    · exact h.apart x hx
    · rw [List.mem_singleton.mp hx]
      exact hab
  · obtain ⟨h1, h2, h3, h4, h5, h6, h7, h8, h9, h10⟩ := h.chain c d hcd
    have hnew : ∀ v : ι → ι → Nat,
        noticesOf { s with told := v, notices := s.notices ++ [⟨a, b, s.told a b + 1⟩] } c d =
        s.noticesOf c d ++ if a = c ∧ b = d then [⟨a, b, s.told a b + 1⟩] else [] := by
      intro v
      unfold noticesOf
      simp only [List.filter_append, filter_one, decide_eq_true_eq]
    by_cases he : c = a ∧ d = b
    · obtain ⟨rfl, rfl⟩ := he
      have heq : s.heard c d = s.told c d := by omega
      constructor <;> try simp only [setAt_self]
      case flight =>
        rw [hnew, h10, if_neg (by omega), if_pos ⟨rfl, rfl⟩, if_pos (by omega)]
        rfl
      all_goals omega
    · have hne : ¬ (a = c ∧ b = d) := fun hh => he ⟨hh.1.symm, hh.2.symm⟩
      constructor <;> try simp only [setAt_of_ne _ _ he]
      case flight => rw [hnew, if_neg hne, List.append_nil, h10]
      all_goals assumption

/-- The notice that is heard is the last one that was told. -/
theorem Orderly.hear (h : Orderly mem s) {i : Nat} {x : Notice ι} (hx : s.notices[i]? = some x) :
    Orderly mem { s with heard := setAt s.heard x.sender x.receiver x.no, notices := s.notices.eraseIdx i } := by
  refine ⟨fun y hy => h.apart y ((List.eraseIdx_sublist ..).subset hy), fun c d hcd => ?_⟩
  obtain ⟨h1, h2, h3, h4, h5, h6, h7, h8, h9, h10⟩ := h.chain c d hcd
  obtain ⟨l₁, l₂, hnew, hold⟩ := filter_eraseIdx hx fun y => y.sender = c ∧ y.receiver = d
  change s.noticesOf c d = _ at hold
  have hflight : ∀ v : ι → ι → Nat, noticesOf { s with heard := v, notices := s.notices.eraseIdx i } c d = l₁ ++ l₂ :=
    fun v => hnew
  by_cases he : x.sender = c ∧ x.receiver = d
  · obtain ⟨rfl, rfl⟩ := he
    rw [h10] at hold
    simp only [and_self, decide_true, if_true] at hold
    split at hold
    · rename_i hlt
      -- there was this notice only, so none is left
      have hlen := congrArg List.length hold
      simp only [List.length_append, List.length_singleton] at hlen
      obtain rfl : l₁ = [] := List.length_eq_zero_iff.mp (by omega)
      obtain rfl : l₂ = [] := List.length_eq_zero_iff.mp (by omega)
      have hno : x.no = s.told x.sender x.receiver := by
        have hone := (List.cons.inj hold).1
        rw [← hone]
      constructor <;> try simp only [setAt_self, hno]
      case flight =>
        rw [if_neg (by omega)]
        exact hflight _
      all_goals omega
    · simp at hold
  · have hne : ¬ (c = x.sender ∧ d = x.receiver) := fun hh => he ⟨hh.1.symm, hh.2.symm⟩
    simp only [he, decide_false] at hold
    constructor <;> try simp only [setAt_of_ne _ _ hne]
    case flight =>
      rw [hflight, ← h10, hold]
      simp
    all_goals assumption

theorem Orderly.step (h : Orderly mem s) (hs : Step mem s s') : Orderly mem s' := by
  cases hs with
  | tell hab hposted hround => exact h.tell hab hposted hround
  | hear hx => exact h.hear hx
  | @finish b hb hall =>
    refine ⟨h.apart, fun c d hcd => ?_⟩
    obtain ⟨h1, h2, h3, h4, h5, h6, h7, h8, h9, h10⟩ := h.chain c d hcd
    have hup : ∀ x, s.round x ≤ if x = b then s.round x + 1 else s.round x := by
      intro x
      split <;> omega
    -- both the messages it got and those it sent allow `b` to end its round
    refine ⟨?_, h2, h3, h4, h5, h6, ?_, ?_, ?_, h10⟩
    · dsimp only
      split
      · rename_i hd
        rw [hd] at hcd ⊢
        exact (hall c hcd).1
      · exact h1
    · exact Nat.le_trans h7 (Nat.succ_le_succ (hup d))
    · exact Nat.le_trans h8 (Nat.succ_le_succ (hup c))
    · dsimp only
      split
      · rename_i hc
        rw [hc] at hcd ⊢
        exact (hall d hcd.symm).2
      · exact h9
  | @post a b hab | @pass a b hab | @send a b hab | @arrive a b hab =>
    refine ⟨h.apart, fun c d hcd => ?_⟩
    obtain ⟨h1, h2, h3, h4, h5, h6, h7, h8, h9, h10⟩ := h.chain c d hcd
    by_cases he : c = a ∧ d = b
    · obtain ⟨rfl, rfl⟩ := he
      constructor <;> try simp only [setAt_self]
      case flight => exact h10
      all_goals omega
    · constructor <;> try simp only [setAt_of_ne _ _ he]
      case flight => exact h10
      all_goals assumption

theorem orderly_moves (hm : Moves (Step mem) s s') (h : Orderly mem s) : Orderly mem s' :=
  Moves.inv (fun _ _ h hs => h.step hs) hm h

/-! ## What the chain says -/

namespace Orderly
variable (h : Orderly mem s) {a b : ι} (hab : Apart mem a b)
include h hab

/-- A message that is on its way has a buffer. -/
theorem buffered (hflying : s.arrived a b < s.sent a b) : s.arrived a b < s.posted a b := by
  obtain ⟨h1, h2, h3, h4, h5, h6, -, -, -, -⟩ := h.chain a b hab
  omega

end Orderly

end Exchange

end

end LibMp
