import Mathlib.Algebra.Order.BigOperators.Group.List
import Mathlib.Tactic.Linarith

/-!
# Proportional shares of a pool

A pool of units is shared over a list of weights: each weight first receives its exact proportional
share rounded down. The shares never overspend the pool (`sum_shares_le`), a pool smaller than the
total weight leaves every positive weight strictly short of itself (`share_lt`), and what rounding
leaves over is at most one unit per positive weight (`leftover_le_countP`). So one pass that gives
one more unit to each weight still short places the whole pool.
-/

namespace Prorata

variable (pool : ℕ) (ws : List ℕ)

/-- The exact shares, rounded down. -/
def shares : List ℕ := ws.map fun w ↦ pool * w / ws.sum

private theorem sum_div_add_sum_mod (d : ℕ) :
    d * (ws.map fun w ↦ pool * w / d).sum + (ws.map fun w ↦ pool * w % d).sum = pool * ws.sum := by
  induction ws with
  | nil => rfl
  | cons w ws ih =>
    simp only [List.map_cons, List.sum_cons, Nat.mul_add]
    have := Nat.div_add_mod (pool * w) d
    omega

theorem sum_shares_le (hpos : 0 < ws.sum) : (shares pool ws).sum ≤ pool := by
  have h := sum_div_add_sum_mod pool ws ws.sum
  have hle : ws.sum * (shares pool ws).sum ≤ ws.sum * pool := by
    rw [Nat.mul_comm ws.sum pool, ← h]
    exact Nat.le_add_right _ _
  exact Nat.le_of_mul_le_mul_left hle hpos

theorem share_lt {w : ℕ} (hlt : pool < ws.sum) (hw : 0 < w) : pool * w / ws.sum < w :=
  (Nat.div_lt_iff_lt_mul (by omega)).mpr <| by
    rw [Nat.mul_comm w]
    exact Nat.mul_lt_mul_of_pos_right hlt hw

private theorem sum_mod_le (d : ℕ) (hd : 0 < d) :
    (ws.map fun w ↦ pool * w % d).sum ≤ ws.countP (0 < ·) * (d - 1) := by
  induction ws with
  | nil => simp
  | cons w ws ih =>
    rw [List.map_cons, List.sum_cons, List.countP_cons]
    rcases Nat.eq_zero_or_pos w with rfl | hw
    · simpa using ih
    · have hmod : pool * w % d ≤ d - 1 := Nat.le_sub_one_of_lt (Nat.mod_lt _ hd)
      rw [if_pos (decide_eq_true hw), Nat.add_mul, Nat.one_mul]
      omega

/-- **What rounding leaves over is at most one unit per positive weight.** -/
theorem leftover_le_countP (hpos : 0 < ws.sum) :
    pool - (shares pool ws).sum ≤ ws.countP (0 < ·) := by
  by_contra hlt
  rw [not_le] at hlt
  have h := sum_div_add_sum_mod pool ws ws.sum
  have hmod := sum_mod_le pool ws ws.sum hpos
  have hle := sum_shares_le pool ws hpos
  -- The remainders sum to the leftover times the total weight, which is more than they can be.
  have hleft : ws.sum * (pool - (shares pool ws).sum) = (ws.map fun w ↦ pool * w % ws.sum).sum := by
    rw [Nat.mul_sub, Nat.mul_comm ws.sum pool, ← h, shares, Nat.add_sub_cancel_left]
  have hcount : ws.countP (0 < ·) * (ws.sum - 1) ≤ ws.countP (0 < ·) * ws.sum :=
    Nat.mul_le_mul_left _ (Nat.sub_le _ _)
  have hmore : ws.sum * (ws.countP (0 < ·) + 1) ≤ ws.sum * (pool - (shares pool ws).sum) :=
    Nat.mul_le_mul_left _ hlt
  rw [hleft, Nat.mul_add, Nat.mul_one, Nat.mul_comm] at hmore
  omega

end Prorata
