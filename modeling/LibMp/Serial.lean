import Mathlib.Tactic.Ring

/- Counters that are only seen modulo `m`.

   Two counters `T` and `E` run up without a bound; a reader has `T % m` and
   `E % m` and asks whether `E ≤ T`. The difference modulo `m` tells
   (`serialGe`), as long as the counters are less than half of `m` apart. The
   comparison of the residues themselves tells only while the counters have
   gone round equally often. -/
namespace LibMp

/-- `t` is at or past `e` on the circle of length `m`: the difference `t - e`,
read as a signed residue, is not negative. -/
def serialGe (m t e : Nat) : Bool := (t + m - e) % m < m / 2

/-- `T` and `E` are less than half of `m` apart. -/
structure Near (m T E : Nat) : Prop where
  above : T < E + m / 2
  below : E < T + m / 2

section
variable {m T E : Nat}

theorem Near.pos (h : Near m T E) : 0 < m := by
  obtain ⟨h₁, h₂⟩ := h
  omega

/-- The difference of the residues is the difference of the counters. -/
theorem sub_residues (hm : 0 < m) :
    (((T % m + m - E % m : Nat) : Int) % m) = ((T : Int) - E) % m := by
  have hE : E % m < m := Nat.mod_lt _ hm
  have hT' : (T : Int) % m = T - m * (T / m) := Int.emod_def ..
  have hE' : (E : Int) % m = E - m * (E / m) := Int.emod_def ..
  calc (((T % m + m - E % m : Nat) : Int) % m)
      = (((T : Int) - E) + m * (1 - T / m + E / m)) % m := by
        rw [Nat.cast_sub (by omega), Nat.cast_add, Int.natCast_mod, Int.natCast_mod, hT', hE']
        congr 1
        ring
    _ = ((T : Int) - E) % m := Int.add_mul_emod_self_left ..

/-- Counters that are near compare as their residues do on the circle. -/
theorem serialGe_residues (h : Near m T E) : serialGe m (T % m) (E % m) = decide (E ≤ T) := by
  have hm := h.pos
  obtain ⟨habove, hbelow⟩ := h
  have hsub := @sub_residues m T E hm
  have hcast : (((T % m + m - E % m) % m : Nat) : Int) = ((T : Int) - E) % m := by
    rw [Int.natCast_mod]
    exact hsub
  unfold serialGe
  rw [decide_eq_decide]
  by_cases hle : E ≤ T
  · have hmod : ((T : Int) - E) % m = T - E := Int.emod_eq_of_lt (by omega) (by omega)
    rw [hmod] at hcast
    exact ⟨fun _ => hle, fun _ => by omega⟩
  · -- the difference is negative, and comes round by one turn
    have hmod : ((T : Int) - E) % m = T - E + m := by
      rw [← Int.add_emod_right]
      exact Int.emod_eq_of_lt (by omega) (by omega)
    rw [hmod] at hcast
    exact ⟨fun hlt => by omega, fun h => absurd h hle⟩

/-- Residues compare on the circle as they do as numbers exactly if they are no
more than about half of `m` apart. -/
theorem serialGe_eq_decide_iff {t e : Nat} (ht : t < m) (he : e < m) :
    serialGe m t e = decide (e ≤ t) ↔ t < e + m / 2 ∧ e ≤ t + (m - m / 2) := by
  unfold serialGe
  rw [decide_eq_decide]
  by_cases hle : e ≤ t
  · have hmod : (t + m - e) % m = t - e := by
      rw [Nat.sub_add_comm hle, Nat.add_mod_right, Nat.mod_eq_of_lt (by omega)]
    rw [hmod]
    omega
  · have hmod : (t + m - e) % m = t + m - e := Nat.mod_eq_of_lt (by omega)
    rw [hmod]
    omega

/-- The residues compare as the counters do exactly if both have gone round
equally often. -/
theorem lt_residues_iff (h : Near m T E) : (T % m < E % m ↔ T < E) ↔ T / m = E / m := by
  have hm := h.pos
  obtain ⟨habove, hbelow⟩ := h
  have hT := Nat.div_add_mod T m
  have hE := Nat.div_add_mod E m
  have htm : T % m < m := Nat.mod_lt _ hm
  have hem : E % m < m := Nat.mod_lt _ hm
  rcases Nat.lt_trichotomy (T / m) (E / m) with hlt | heq | hgt
  · have hturn : m * (T / m) + m ≤ m * (E / m) := by
      rw [← Nat.mul_succ]
      exact Nat.mul_le_mul_left m hlt
    refine ⟨fun hc => ?_, fun heq => by omega⟩
    omega
  · rw [heq] at hT
    exact ⟨fun _ => heq, fun _ => by omega⟩
  · have hturn : m * (E / m) + m ≤ m * (T / m) := by
      rw [← Nat.mul_succ]
      exact Nat.mul_le_mul_left m hgt
    refine ⟨fun hc => ?_, fun heq => by omega⟩
    omega

end

end LibMp
