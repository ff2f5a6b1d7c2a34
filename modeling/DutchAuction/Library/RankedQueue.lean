import Mathlib.Data.List.TakeDrop
import Mathlib.Order.MinMax

/-!
# Queues by rank

A queue by rank is a list with the highest rank first (`Ranked`). The elements of one rank form a
queue of their own inside it, its `level`, and the levels determine the whole.

An element that is put in has a higher part of the list before it and a lower part behind it, and
its equals on one side. Behind its equals it is the last of its level (`level_behind`), before them
it is the first (`level_before`), and no other level notices. Cutting the list between two ranks
separates it by rank (`filter_append_of_lt`). -/

namespace RankedQueue

variable {α K : Type*} [LinearOrder K] (rank : α → K)

/-- The highest rank first. -/
def Ranked (q : List α) : Prop := q.Pairwise fun a b ↦ rank b ≤ rank a

/-- The elements of one rank, in the order they stand. -/
def level (k : K) (q : List α) : List α := q.filter fun a ↦ rank a = k

variable {rank} {a : α} {k : K} {q front back : List α}

theorem level_append (k : K) (q q' : List α) :
    level rank k (q ++ q') = level rank k q ++ level rank k q' := List.filter_append q q'

theorem level_eq_nil (h : ∀ b ∈ q, rank b ≠ k) : level rank k q = [] :=
  List.filter_eq_nil_iff.mpr fun b hb ↦ by simpa using h b hb

theorem level_insert_self (a : α) (front back : List α) :
    level rank (rank a) (front ++ a :: back) =
      level rank (rank a) front ++ a :: level rank (rank a) back := by
  rw [level_append]
  exact congrArg _ (List.filter_cons_of_pos (decide_eq_true rfl))

theorem level_insert_of_ne (hk : k ≠ rank a) (front back : List α) :
    level rank k (front ++ a :: back) = level rank k (front ++ back) := by
  rw [level_append, level_append]
  exact congrArg _ (List.filter_cons_of_neg (by simpa using hk.symm))

/-- **Behind its equals** an element is the last of its level. -/
theorem level_behind (hback : ∀ b ∈ back, rank b < rank a) :
    level rank (rank a) (front ++ a :: back) = level rank (rank a) (front ++ back) ++ [a] := by
  rw [level_insert_self, level_append, level_eq_nil fun b hb ↦ (hback b hb).ne, List.append_nil]

/-- **Before its equals** an element is the first of its level. -/
theorem level_before (hfront : ∀ b ∈ front, rank a < rank b) :
    level rank (rank a) (front ++ a :: back) = a :: level rank (rank a) (front ++ back) := by
  rw [level_insert_self, level_append, level_eq_nil fun b hb ↦ (hfront b hb).ne']
  rfl

/-- **A cut between two ranks** separates a list by rank. -/
theorem filter_append_of_lt (hfront : ∀ b ∈ front, k ≤ rank b) (hback : ∀ b ∈ back, rank b < k) :
    (front ++ back).filter (fun b ↦ k ≤ rank b) = front ∧
      (front ++ back).filter (fun b ↦ rank b < k) = back := by
  have hfront' : front.filter (fun b ↦ k ≤ rank b) = front :=
    List.filter_eq_self.mpr fun b hb ↦ decide_eq_true (hfront b hb)
  have hback' : back.filter (fun b ↦ k ≤ rank b) = [] :=
    List.filter_eq_nil_iff.mpr fun b hb ↦ by simpa using hback b hb
  have hfront'' : front.filter (fun b ↦ rank b < k) = [] :=
    List.filter_eq_nil_iff.mpr fun b hb ↦ by simpa using hfront b hb
  have hback'' : back.filter (fun b ↦ rank b < k) = back :=
    List.filter_eq_self.mpr fun b hb ↦ decide_eq_true (hback b hb)
  rw [List.filter_append, List.filter_append, hfront', hback', hfront'', hback'', List.append_nil]
  exact ⟨rfl, rfl⟩

end RankedQueue
