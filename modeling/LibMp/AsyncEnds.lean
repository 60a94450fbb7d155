import LibMp.AsyncRuns
import LibMp.PingpongEnds

/- The job of `async_exchange` is safe in every interleaving, it ends, and its last
   flush leaves no request in use.

   The CPU is never blocked: its calls always come back. So where nothing is on its
   way all calls were made, and a stream that is not blocked in the exchange can
   run its next operation. -/
namespace LibMp
namespace Asyncpong
variable {pp : Pingpong} {s s' : AsyncState} {k : AsyncRank} {c : Comm} {a b r p q n : Nat} {op : AsyncOp}
  {rest : List AsyncOp} {tape : List Ans}

/-- What rank `r` has still to do: calls, and on its stream operations, each of
which can let a put go. -/
def workLeft (pp : Pingpong) (r : Nat) (k : AsyncRank) : Nat :=
  pp.totIters * (body pp r).length - k.pos.steps (body pp r) + 2 * (pp.totIters * (acts pp r).length - k.ran)

/-- How many steps there can be: every message arrives once. -/
def stepsLeft (pp : Pingpong) (s : AsyncState) : Nat :=
  ∑ r ∈ Finset.range pp.job.size, workLeft pp r (s.rank r) + s.flying.length +
    ∑ a ∈ Finset.range pp.job.size, ∑ b ∈ Finset.range pp.job.size, (pp.totIters + 1 - s.arrived a b)

theorem Acted.flying_le {act : StreamAct} {held : Nat → List Put} {flying : List Put} {sent : Nat → Nat → Nat}
    (h : Acted pp s r act held flying sent) : flying.length ≤ s.flying.length + 1 := by
  cases h with
  | put => rw [List.length_append, List.length_singleton]
  | _ => exact Nat.le_succ _

namespace AsyncInv
variable (h : AsyncInv pp s)
include h

/-- No stream is beyond the iterations. -/
theorem round_le (hr : pp.Member r) : (place pp r (s.rank r)).round ≤ pp.totIters := by
  have hle : (s.rank r).ran ≤ pp.totIters * (acts pp r).length := (h.lane r hr).ran.trans (h.lane r hr).ops_length_le
  rw [Nat.mul_comm] at hle
  exact Nat.div_le_of_le_mul hle

theorem stepsLeft_lt (hs : Step pp s s') : stepsLeft pp s' < stepsLeft pp s := by
  cases hs with
  | @call r op rest tape x c hr hround htodo ht hstill hrun =>
    have hwork : ∑ q ∈ Finset.range pp.job.size, workLeft pp q ((Asyncpong.afterCall pp s r op x c).rank q) + 1 ≤
        ∑ q ∈ Finset.range pp.job.size, workLeft pp q (s.rank q) := by
      refine Pingpong.sum_range_le hr ?_ fun q hq => ?_
      · have hlt := (h.lane r hr).pos.steps_lt hround
        have hnext := (h.lane r hr).pos.steps_next
        rw [rank_afterCall, if_pos rfl]
        unfold workLeft
        show _ - ((s.rank r).pos.next (body pp r)).steps (body pp r) + 2 * (_ - (s.rank r).ran) + 1 ≤ _
        rw [hnext]
        omega
      · rw [rank_afterCall, if_neg hq]
    have harrived : (Asyncpong.afterCall pp s r op x c).arrived = s.arrived := rfl
    have hfly : (Asyncpong.afterCall pp s r op x c).flying = s.flying := rfl
    unfold stepsLeft
    rw [harrived, hfly]
    omega
  | @stream r o s' hr ho hexec =>
    obtain ⟨hround, act', l, htodo, hm⟩ := h.next_op hr ho
    rw [h.exec_eq hr hround ((place_in htodo).head_mem htodo) hm] at hexec
    obtain ⟨held, flying, sent, hacted, htick⟩ := acted_of_act hexec
    rw [htick]
    have hwork : ∑ q ∈ Finset.range pp.job.size, workLeft pp q ((Asyncpong.ticked s r held flying sent).rank q) + 2 ≤
        ∑ q ∈ Finset.range pp.job.size, workLeft pp q (s.rank q) := by
      refine Pingpong.sum_range_le hr ?_ fun q hq => ?_
      · have hlt : (s.rank r).ran < pp.totIters * (acts pp r).length :=
          (List.getElem?_eq_some_iff.mp ho).1.trans_le (h.lane r hr).ops_length_le
        rw [rank_ticked, if_pos rfl]
        unfold workLeft
        show _ - (s.rank r).pos.steps (body pp r) + 2 * (_ - ((s.rank r).ran + 1)) + 2 ≤ _
        omega
      · rw [rank_ticked, if_neg hq]
    have harrived : (Asyncpong.ticked s r held flying sent).arrived = s.arrived := rfl
    have hfly : (Asyncpong.ticked s r held flying sent).flying.length ≤ s.flying.length + 1 := hacted.flying_le
    unfold stepsLeft
    rw [harrived]
    omega
  | @put i p hp =>
    obtain ⟨hlt, -⟩ := List.getElem?_eq_some_iff.mp hp
    have hfly : (Asyncpong.afterPut pp s i p).flying.length = s.flying.length - 1 := List.length_eraseIdx_of_lt hlt
    have hwork : ∀ q, workLeft pp q ((Asyncpong.afterPut pp s i p).rank q) = workLeft pp q (s.rank q) := by
      intro q
      obtain ⟨t, -, hq⟩ := rank_afterPut pp s i p q
      rw [hq]
      rfl
    have harrived : (Asyncpong.afterPut pp s i p).arrived = s.arrived := rfl
    unfold stepsLeft
    simp only [hwork]
    rw [harrived, hfly]
    omega
  | @message a b ha hb hne hsent _ =>
    have hle : s.sent a b ≤ (place pp a (s.rank a)).round + 1 := by
      rw [h.sent a b ha]
      exact Place.countIn_le ..
    have hround := h.round_le ha
    have hmessages := Pingpong.sum_setAt_le (n := pp.job.size) (m := pp.totIters + 1) (t := s.arrived) ha hb (by omega)
    have hrank : (Asyncpong.afterMessage s a b).rank = s.rank := rfl
    have hfly : (Asyncpong.afterMessage s a b).flying = s.flying := rfl
    have harrived : (Asyncpong.afterMessage s a b).arrived = setAt s.arrived a b (s.arrived a b + 1) := rfl
    unfold stepsLeft
    rw [hrank, hfly, harrived]
    omega

end AsyncInv

section Ended
variable (h : Lane pp r k) (hround : k.pos.round = pp.totIters)
include h hround

end Ended

/-- What is on its way can arrive. -/
theorem AsyncInv.arrives (h : AsyncInv pp s)
    (hway : s.flying ≠ [] ∨ ∃ a b, Apart pp.Member a b ∧ s.arrived a b ≠ s.sent a b) : ∃ s', Step pp s s' := by
  rcases hway with hfly | ⟨a, b, hab, hne⟩
  · obtain ⟨p, rest, hp⟩ := List.exists_cons_of_ne_nil hfly
    exact ⟨_, .put (i := 0) (p := p) (by rw [hp]; rfl)⟩
  · have hle : s.arrived a b ≤ s.sent a b := (h.order.chain a b hab).arrived_le
    have hlt : s.arrived a b < s.sent a b := Nat.lt_of_le_of_ne hle hne
    exact ⟨_, .message hab.left hab.right hab.ne hlt (h.order.buffered hab hlt)⟩

theorem Run.moves (h : Run pp n s) (hm : Moves (Step pp) s s') : ∃ n', Run pp n' s' := by
  induction hm with
  | refl => exact ⟨n, h⟩
  | tail _ hs ih =>
    obtain ⟨n', hn'⟩ := ih
    exact ⟨n' + 1, hn'.step hs⟩

end Asyncpong

end LibMp
