import Mathlib.Data.List.Sort
import Mathlib.Data.List.SplitBy

/-!
# Sorting and grouping, part by part

Insertion sort is stable, so when one part of a list strictly precedes the other the two parts can
be sorted apart (`insertionSort_split`). A list whose elements have different keys is sorted by key
in one way only (`insertionSort_key`). A list is grouped as its image is, when the image relates
what the list does (`splitBy_map`).
-/

namespace Sorting

variable {α : Type*} {r : α → α → Prop} [DecidableRel r] {a : α} {l m : List α}

theorem orderedInsert_append_of_forall (h : ∀ b ∈ m, r a b) :
    (l ++ m).orderedInsert r a = l.orderedInsert r a ++ m := by
  induction l with
  | nil =>
    cases m with
    | nil => rfl
    | cons b m => exact List.orderedInsert_cons_of_le r m (h b List.mem_cons_self)
  | cons b l ih =>
    rw [List.cons_append, List.orderedInsert_cons, List.orderedInsert_cons, ih]
    split_ifs
    · rfl
    · rfl

theorem orderedInsert_append_of_forall_not (h : ∀ b ∈ l, ¬r a b) :
    (l ++ m).orderedInsert r a = l ++ m.orderedInsert r a := by
  induction l with
  | nil => rfl
  | cons b l ih =>
    rw [List.cons_append, List.orderedInsert_of_not_le r _ (h b List.mem_cons_self),
      ih fun c hc ↦ h c (List.mem_cons_of_mem _ hc), List.cons_append]

/-- **Two parts of a list, one strictly before the other, are sorted apart.** -/
theorem insertionSort_split (p : α → Bool)
    (h : ∀ a ∈ l, ∀ b ∈ l, p a = true → p b = false → r a b ∧ ¬r b a) :
    l.insertionSort r =
      (l.filter p).insertionSort r ++ (l.filter fun a ↦ !p a).insertionSort r := by
  induction l with
  | nil => rfl
  | cons a l ih =>
    have hrest := ih fun b hb c hc ↦
      h b (List.mem_cons_of_mem _ hb) c (List.mem_cons_of_mem _ hc)
    rw [List.insertionSort_cons, hrest]
    cases ha : p a with
    | true =>
      rw [List.filter_cons_of_pos ha, List.filter_cons_of_neg (by simp [ha]),
        List.insertionSort_cons]
      apply orderedInsert_append_of_forall
      intro b hb
      obtain ⟨hb, hpb⟩ := List.mem_filter.mp ((List.mem_insertionSort r).mp hb)
      exact (h a List.mem_cons_self b (List.mem_cons_of_mem _ hb) ha (by simpa using hpb)).1
    | false =>
      rw [List.filter_cons_of_neg (by simp [ha]), List.filter_cons_of_pos (by simp [ha]),
        List.insertionSort_cons]
      apply orderedInsert_append_of_forall_not
      intro b hb
      obtain ⟨hb, hpb⟩ := List.mem_filter.mp ((List.mem_insertionSort r).mp hb)
      exact (h b (List.mem_cons_of_mem _ hb) a List.mem_cons_self hpb ha).2

/-- **Sorting by a key that no two elements share** gives the list that ascends by it. -/
theorem insertionSort_key {κ : Type*} [LinearOrder κ] (key : α → κ) (hperm : l.Perm m)
    (hsorted : m.Pairwise fun a b ↦ key a < key b) :
    l.insertionSort (fun a b ↦ key a ≤ key b) = m := by
  have htotal : Std.Total fun a b ↦ key a ≤ key b := ⟨fun a b ↦ le_total (key a) (key b)⟩
  have htrans : IsTrans α fun a b ↦ key a ≤ key b := ⟨fun _ _ _ ↦ le_trans⟩
  have hnodup : (m.map key).Nodup := List.pairwise_map.mpr (hsorted.imp ne_of_lt)
  have hsame := (List.perm_insertionSort (fun a b ↦ key a ≤ key b) l).trans hperm
  refine hsame.eq_of_pairwise (fun a b ha hb hab hba ↦ ?_) (List.pairwise_insertionSort _ l)
    (hsorted.imp le_of_lt)
  exact List.inj_on_of_nodup_map hnodup (hsame.mem_iff.mp ha) hb (le_antisymm hab hba)

/-- **The groups of an image are the images of the groups.** -/
theorem splitBy_map {α β : Type*} (f : α → β) (r : β → β → Bool) (l : List α) :
    (l.map f).splitBy r = (l.splitBy fun a b ↦ r (f a) (f b)).map (List.map f) := by
  obtain ⟨hflat, hnil, hchain, hcut⟩ :=
    List.splitBy_eq_iff.mp (rfl : (l.splitBy fun a b ↦ r (f a) (f b)) = _)
  refine List.splitBy_eq_iff.mpr ⟨?_, ?_, ?_, ?_⟩
  · rw [← List.map_flatten, ← hflat]
  · rintro hmem
    obtain ⟨g, hg, hg'⟩ := List.mem_map.mp hmem
    rw [List.map_eq_nil_iff.mp hg'] at hg
    exact hnil hg
  · intro g hg
    obtain ⟨g', hg', rfl⟩ := List.mem_map.mp hg
    exact (List.isChain_map f).mpr (hchain g' hg')
  · refine (List.isChain_map (List.map f)).mpr (hcut.imp fun a b hab ↦ ?_)
    obtain ⟨ha, hb, hab⟩ := hab
    refine ⟨mt List.map_eq_nil_iff.mp ha, mt List.map_eq_nil_iff.mp hb, ?_⟩
    rw [List.getLast_map, List.head_map]
    exact hab

end Sorting
