import Mathlib.Algebra.BigOperators.Group.Finset.Piecewise
import Mathlib.Algebra.BigOperators.Group.Multiset.Basic
import Mathlib.Algebra.Order.BigOperators.Group.Multiset
import Mathlib.Algebra.Order.Group.Multiset
import Mathlib.Algebra.Order.Ring.Int

/-!
# What is owed on account of each owner

A multiset of items, each with an owner and an integer cost, and the exact sum of the costs of one
owner's items. Adding an item adds its cost to its owner's sum and leaves every other sum alone; a
sum of non-negative costs is non-negative and at least each of its terms.
-/

namespace Owned

variable {α ι : Type*} [DecidableEq ι] (owner : α → ι) (cost : α → ℤ) (p : ι)

/-- The sum of the costs of the items that `p` owns. -/
def total (m : Multiset α) : ℤ := ((m.filter fun a ↦ owner a = p).map cost).sum

@[simp] theorem total_zero : total owner cost p 0 = 0 := rfl

theorem total_cons (a : α) (m : Multiset α) :
    total owner cost p (a ::ₘ m) = (if owner a = p then cost a else 0) + total owner cost p m := by
  unfold total
  split_ifs with h
  · rw [Multiset.filter_cons_of_pos (p := fun a ↦ owner a = p) m h, Multiset.map_cons,
      Multiset.sum_cons]
  · rw [Multiset.filter_cons_of_neg (p := fun a ↦ owner a = p) m h, zero_add]

theorem total_add (m m' : Multiset α) :
    total owner cost p (m + m') = total owner cost p m + total owner cost p m' := by
  unfold total
  rw [Multiset.filter_add, Multiset.map_add]
  exact Multiset.sum_add _ _

theorem total_coe (l : List α) :
    total owner cost p (l : Multiset α) = ((l.filter fun a ↦ owner a = p).map cost).sum := by
  unfold total
  rw [Multiset.filter_coe, Multiset.map_coe, Multiset.sum_coe]

variable {owner cost p}

theorem total_nonneg {m : Multiset α} (h : ∀ a ∈ m, owner a = p → 0 ≤ cost a) :
    0 ≤ total owner cost p m := by
  refine Multiset.sum_nonneg fun x hx ↦ ?_
  obtain ⟨a, ha, rfl⟩ := Multiset.mem_map.mp hx
  obtain ⟨ha, hp⟩ := Multiset.mem_filter.mp ha
  exact h a ha hp

theorem le_total_of_mem {m : Multiset α} (h : ∀ a ∈ m, 0 ≤ cost a) {a : α} (ha : a ∈ m) :
    cost a ≤ total owner cost (owner a) m := by
  obtain ⟨rest, rfl⟩ := Multiset.exists_cons_of_mem ha
  rw [total_cons, if_pos rfl]
  have : 0 ≤ total owner cost (owner a) rest :=
    total_nonneg fun b hb _ ↦ h b (Multiset.mem_cons_of_mem hb)
  omega

theorem total_le_total {cost' : α → ℤ} {m : Multiset α} (h : ∀ a ∈ m, cost a ≤ cost' a) :
    total owner cost p m ≤ total owner cost' p m :=
  Multiset.sum_map_le_sum_map _ _ fun a ha ↦ h a (Multiset.mem_of_mem_filter ha)

theorem total_congr {cost' : α → ℤ} {m : Multiset α} (h : ∀ a ∈ m, owner a = p → cost a = cost' a) :
    total owner cost p m = total owner cost' p m := by
  unfold total
  refine congrArg Multiset.sum (Multiset.map_congr rfl fun a ha ↦ ?_)
  obtain ⟨ha, hp⟩ := Multiset.mem_filter.mp ha
  exact h a ha hp

theorem sum_total {owners : Finset ι} {m : Multiset α} (h : ∀ a ∈ m, owner a ∈ owners) :
    ∑ p ∈ owners, total owner cost p m = (m.map cost).sum := by
  induction m using Multiset.induction with
  | empty => exact Finset.sum_const_zero
  | cons a m ih =>
    have hrest := ih fun b hb ↦ h b (Multiset.mem_cons_of_mem hb)
    have ha : owner a ∈ owners := h a (Multiset.mem_cons_self a m)
    simp only [total_cons, Finset.sum_add_distrib, Finset.sum_ite_eq, hrest, if_pos ha,
      Multiset.map_cons, Multiset.sum_cons]

end Owned
