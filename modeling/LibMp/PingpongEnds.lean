import Mathlib.Algebra.Order.BigOperators.Group.Finset
import LibMp.PingpongRuns
import LibMp.StreamPosts

/- The ping-pong job is safe in every interleaving, and it ends.

   That it is safe is read off the exchange. Each step lowers a measure, so the job
   can only go on for ever by polls, of ranks whose words are not there; and it
   cannot get stuck: if nothing is on its way, then some rank is not blocked in the
   exchange, and its next call comes back. -/
namespace LibMp

namespace Pingpong
variable {pp : Pingpong} {s s' : PingState} {c : Comm} {a b r p i k : Nat} {op : PingOp} {rest : List PingOp}

/-- A sum that gets smaller at one place. -/
theorem sum_range_le {n r d : Nat} {f f' : Nat → Nat} (hr : r < n) (hself : f' r + d ≤ f r)
    (hother : ∀ q, q ≠ r → f' q = f q) : ∑ q ∈ Finset.range n, f' q + d ≤ ∑ q ∈ Finset.range n, f q := by
  have hmem : r ∈ Finset.range n := Finset.mem_range.mpr hr
  have hrest : ∑ q ∈ (Finset.range n).erase r, f' q = ∑ q ∈ (Finset.range n).erase r, f q :=
    Finset.sum_congr rfl fun q hq => hother q (Finset.ne_of_mem_erase hq)
  rw [← Finset.add_sum_erase _ f' hmem, ← Finset.add_sum_erase _ f hmem, hrest]
  omega

/-- A table that gets larger at one place. -/
theorem sum_setAt_le {n m a b : Nat} {t : Nat → Nat → Nat} (ha : a < n) (hb : b < n) (hm : t a b < m) :
    ∑ x ∈ Finset.range n, ∑ y ∈ Finset.range n, (m - setAt t a b (t a b + 1) x y) + 1 ≤
      ∑ x ∈ Finset.range n, ∑ y ∈ Finset.range n, (m - t x y) := by
  have hother : ∀ x y, ¬ (x = a ∧ y = b) → setAt t a b (t a b + 1) x y = t x y := fun x y hxy => setAt_of_ne _ _ hxy
  refine sum_range_le ha (sum_range_le hb ?_ fun y hy => ?_) fun x hx => Finset.sum_congr rfl fun y _ => ?_
  · rw [setAt_self]
    omega
  · rw [hother a y fun hh => hy hh.2]
  · rw [hother x y fun hh => hx hh.1]

/-- The calls that rank `r` has still to make. -/
def callsLeft (pp : Pingpong) (s : PingState) (r : Nat) : Nat :=
  pp.totIters * (pp.body r).length - (s.pos r).steps (pp.body r)

/-- How many steps there can be: a call issues at most one put, and every message
arrives once. -/
def stepsLeft (pp : Pingpong) (s : PingState) : Nat :=
  ∑ r ∈ Finset.range pp.job.size, 2 * pp.callsLeft s r + s.flying.length +
    ∑ a ∈ Finset.range pp.job.size, ∑ b ∈ Finset.range pp.job.size, (pp.totIters + 1 - s.arrived a b)

theorem puts_length_le (pp : Pingpong) (s : PingState) (r : Nat) (op : PingOp) : (pp.puts s r op).length ≤ 1 := by
  cases op with
  | sendReady p =>
    rw [puts]
    cases pp.job.put (s.comm r).ready r p (sentCount s.log r p + 1) with
    | none => exact Nat.zero_le 1
    | some q => exact Nat.le_refl 1
  | _ => exact Nat.zero_le 1

theorem PingInv.stepsLeft_lt (h : PingInv pp s) (hs : pp.Step s s') : pp.stepsLeft s' < pp.stepsLeft s := by
  cases hs with
  | @call r op rest tape x c hr hround htodo ht hrun hcomp =>
    have hcalls : ∑ q ∈ Finset.range pp.job.size, 2 * pp.callsLeft (pp.afterCall s r op c) q + 2 ≤
        ∑ q ∈ Finset.range pp.job.size, 2 * pp.callsLeft s q := by
      refine sum_range_le hr ?_ fun q hq => ?_
      · have hlt := (h.place r hr).steps_lt hround
        have hpos : (pp.afterCall s r op c).pos r = (s.pos r).next (pp.body r) := Function.update_self ..
        unfold callsLeft
        rw [hpos, (h.place r hr).steps_next]
        omega
      · have hpos : (pp.afterCall s r op c).pos q = s.pos q := Function.update_of_ne hq ..
        unfold callsLeft
        rw [hpos]
    have hfly : (pp.afterCall s r op c).flying.length ≤ s.flying.length + 1 := by
      show (s.flying ++ pp.puts s r op).length ≤ _
      rw [List.length_append]
      exact Nat.add_le_add_left (pp.puts_length_le s r op) _
    have harrived : (pp.afterCall s r op c).arrived = s.arrived := rfl
    unfold stepsLeft
    rw [harrived]
    omega
  | @put i p hp =>
    obtain ⟨hlt, -⟩ := List.getElem?_eq_some_iff.mp hp
    have hfly : (pp.afterPut s i p).flying.length = s.flying.length - 1 := List.length_eraseIdx_of_lt hlt
    have hcalls : ∀ q, pp.callsLeft (pp.afterPut s i p) q = pp.callsLeft s q := fun _ => rfl
    have harrived : (pp.afterPut s i p).arrived = s.arrived := rfl
    unfold stepsLeft
    simp only [hcalls]
    rw [harrived, hfly]
    omega
  | @message a b ha hb hne hsent _ =>
    have hle := pp.done_le s a (.isend b)
    have hround := h.rounds a ha
    have hmessages := sum_setAt_le (n := pp.job.size) (m := pp.totIters + 1) (t := s.arrived) ha hb (by omega)
    have hcalls : ∀ q, pp.callsLeft (Pingpong.afterMessage s a b) q = pp.callsLeft s q := fun _ => rfl
    have hfly : (Pingpong.afterMessage s a b).flying = s.flying := rfl
    have harrived : (Pingpong.afterMessage s a b).arrived = setAt s.arrived a b (s.arrived a b + 1) := rfl
    unfold stepsLeft
    simp only [hcalls]
    rw [hfly, harrived]
    omega

/-- What is on its way can arrive. -/
theorem PingInv.arrives (h : PingInv pp s)
    (hway : s.flying ≠ [] ∨ ∃ a b, Apart pp.Member a b ∧ s.arrived a b ≠ pp.done s a (.isend b)) :
    ∃ s', pp.Step s s' := by
  rcases hway with hfly | ⟨a, b, hab, hne⟩
  · obtain ⟨p, rest, hp⟩ := List.exists_cons_of_ne_nil hfly
    exact ⟨_, .put (i := 0) (p := p) (by rw [hp]; rfl)⟩
  · have hle : s.arrived a b ≤ pp.done s a (.isend b) := (h.order.chain a b hab).arrived_le
    have hlt : s.arrived a b < pp.done s a (.isend b) := Nat.lt_of_le_of_ne hle hne
    exact ⟨_, .message hab.left hab.right hab.ne hlt (h.order.buffered hab hlt)⟩

theorem Run.moves (h : pp.Run k s) (hm : Moves pp.Step s s') : ∃ k', pp.Run k' s' := by
  induction hm with
  | refl => exact ⟨k, h⟩
  | tail _ hs ih =>
    obtain ⟨k', hk'⟩ := ih
    exact ⟨k' + 1, hk'.step hs⟩

end Pingpong

end LibMp
