import Mathlib.Data.List.Sort
import Mathlib.Order.Basic

/-!
# Ordered maps

A map from an ordered key type, as the list of its entries in strictly ascending key order. The
order is a field, so an `OrdMap` with a repeated or misplaced key cannot be built, and two maps with
the same entries are equal.

The operations are those of a program's ordered map: insert-or-update at a key, split at a key, drop
entries by value, update the first value a function accepts, and read the largest key. Each is
specified by what it does to the list of entries.
-/

/-- A finite map with its entries in ascending key order. -/
structure OrdMap (K V : Type*) [LinearOrder K] where
  /-- The entries. -/
  entries : List (K × V)
  /-- Their keys strictly ascend. -/
  sorted : entries.Pairwise fun a b ↦ a.1 < b.1

namespace OrdMap

variable {K V α : Type*} [LinearOrder K]

@[ext] theorem ext {m m' : OrdMap K V} (h : m.entries = m'.entries) : m = m' := by
  cases m
  cases m'
  simp_all

instance [DecidableEq V] : DecidableEq (OrdMap K V) := fun m m' ↦
  decidable_of_iff (m.entries = m'.entries) ⟨ext, congrArg entries⟩

/-- The map with no entries. -/
def empty : OrdMap K V := ⟨[], List.Pairwise.nil⟩

@[simp] theorem entries_empty : (empty : OrdMap K V).entries = [] := rfl

/-- The values, in ascending key order. -/
def values (m : OrdMap K V) : List V := m.entries.map Prod.snd

/-- The largest key. -/
def maxKey? (m : OrdMap K V) : Option K := m.entries.getLast?.map Prod.fst

/-! ## Insert or update

One pass over the ascending entries finds the key, or the place where it belongs. Everything else
about an update follows from the two things that can come of it. -/

/-- Put `f none` at `k` if the key is new, and replace its value `v` by `f (some v)` if it is
not. -/
def upsertEntries (k : K) (f : Option V → V) : List (K × V) → List (K × V)
  | [] => [(k, f none)]
  | (k', v) :: rest =>
    if k < k' then (k, f none) :: (k', v) :: rest
    else if k = k' then (k, f (some v)) :: rest
    else (k', v) :: upsertEntries k f rest

theorem mem_upsertEntries {k : K} {f : Option V → V} {e : K × V} {l : List (K × V)}
    (h : e ∈ upsertEntries k f l) : e.1 = k ∨ e ∈ l := by
  induction l with
  | nil =>
    rw [upsertEntries, List.mem_singleton] at h
    exact Or.inl (congrArg Prod.fst h)
  | cons hd rest ih =>
    obtain ⟨k', v⟩ := hd
    rw [upsertEntries] at h
    split_ifs at h with hlt heq
    · rcases List.mem_cons.mp h with rfl | h
      · exact Or.inl rfl
      · exact Or.inr h
    · rcases List.mem_cons.mp h with rfl | h
      · exact Or.inl rfl
      · exact Or.inr (List.mem_cons_of_mem _ h)
    · rcases List.mem_cons.mp h with rfl | h
      · exact Or.inr List.mem_cons_self
      · exact (ih h).imp_right (List.mem_cons_of_mem _)

theorem sorted_upsertEntries (k : K) (f : Option V → V) {l : List (K × V)}
    (h : l.Pairwise fun a b ↦ a.1 < b.1) :
    (upsertEntries k f l).Pairwise fun a b ↦ a.1 < b.1 := by
  induction l with
  | nil => exact List.pairwise_singleton _ _
  | cons hd rest ih =>
    obtain ⟨k', v⟩ := hd
    obtain ⟨hhd, hrest⟩ := List.pairwise_cons.mp h
    rw [upsertEntries]
    split_ifs with hlt heq
    · refine List.pairwise_cons.mpr ⟨fun e he ↦ ?_, h⟩
      rcases List.mem_cons.mp he with rfl | he
      · exact hlt
      · exact hlt.trans (hhd e he)
    · subst heq
      exact List.pairwise_cons.mpr ⟨hhd, hrest⟩
    · refine List.pairwise_cons.mpr ⟨fun e he ↦ ?_, ih hrest⟩
      rcases mem_upsertEntries he with hk | he
      · rw [hk]
        exact lt_of_le_of_ne (not_lt.mp hlt) (Ne.symm heq)
      · exact hhd e he

/-- Insert or update at a key. -/
def upsert (m : OrdMap K V) (k : K) (f : Option V → V) : OrdMap K V :=
  ⟨upsertEntries k f m.entries, sorted_upsertEntries k f m.sorted⟩

/-- **The two things an insert-or-update can do**: put one new entry between two parts of the list,
or replace the value of one entry. -/
theorem upsert_entries (m : OrdMap K V) (k : K) (f : Option V → V) :
    (∃ l₁ l₂, m.entries = l₁ ++ l₂ ∧ (m.upsert k f).entries = l₁ ++ (k, f none) :: l₂) ∨
      ∃ l₁ v l₂, m.entries = l₁ ++ (k, v) :: l₂ ∧
        (m.upsert k f).entries = l₁ ++ (k, f (some v)) :: l₂ := by
  obtain ⟨l, hl⟩ := m
  show (∃ l₁ l₂, l = l₁ ++ l₂ ∧ upsertEntries k f l = _) ∨
    ∃ l₁ v l₂, l = _ ∧ upsertEntries k f l = _
  clear hl
  induction l with
  | nil => exact Or.inl ⟨[], [], rfl, rfl⟩
  | cons hd rest ih =>
    obtain ⟨k', v⟩ := hd
    rw [upsertEntries]
    split_ifs with hlt heq
    · exact Or.inl ⟨[], (k', v) :: rest, rfl, rfl⟩
    · subst heq
      exact Or.inr ⟨[], v, rest, rfl, rfl⟩
    · rcases ih with ⟨l₁, l₂, h, h'⟩ | ⟨l₁, w, l₂, h, h'⟩
      · exact Or.inl ⟨(k', v) :: l₁, l₂, by rw [h, List.cons_append],
          by rw [h', List.cons_append]⟩
      · exact Or.inr ⟨(k', v) :: l₁, w, l₂, by rw [h, List.cons_append],
          by rw [h', List.cons_append]⟩

theorem mem_entries_upsert {m : OrdMap K V} {k : K} {f : Option V → V} {e : K × V}
    (h : e ∈ (m.upsert k f).entries) : (∃ old, e = (k, f old)) ∨ (e.1 ≠ k ∧ e ∈ m.entries) := by
  obtain ⟨l₁, l₂, old, heq, hsub⟩ : ∃ l₁ l₂ old, (m.upsert k f).entries = l₁ ++ (k, f old) :: l₂ ∧
      ∀ e ∈ l₁ ++ l₂, e ∈ m.entries := by
    rcases m.upsert_entries k f with ⟨l₁, l₂, hm, heq⟩ | ⟨l₁, v, l₂, hm, heq⟩
    · exact ⟨l₁, l₂, none, heq, fun e he ↦ hm ▸ he⟩
    · refine ⟨l₁, l₂, some v, heq, fun e he ↦ ?_⟩
      rw [hm]
      exact (List.append_sublist_append_left l₁).mpr (List.sublist_cons_self _ l₂) |>.subset he
  have hsorted := (m.upsert k f).sorted
  rw [heq, List.pairwise_append] at hsorted
  rw [heq] at h
  rcases List.mem_append.mp h with h | h
  · have hlt := hsorted.2.2 e h _ List.mem_cons_self
    exact Or.inr ⟨hlt.ne, hsub e (List.mem_append_left _ h)⟩
  · rcases List.mem_cons.mp h with rfl | h
    · exact Or.inl ⟨old, rfl⟩
    · have hlt := (List.pairwise_cons.mp hsorted.2.1).1 e h
      exact Or.inr ⟨hlt.ne', hsub e (List.mem_append_right _ h)⟩

theorem key_mem_upsert {m : OrdMap K V} {k : K} {v : V} (h : (k, v) ∈ m.entries) (k' : K)
    (f : Option V → V) : ∃ w, (k, w) ∈ (m.upsert k' f).entries := by
  rcases m.upsert_entries k' f with ⟨l₁, l₂, hm, heq⟩ | ⟨l₁, u, l₂, hm, heq⟩
  · rw [hm] at h
    rw [heq]
    refine ⟨v, List.mem_append.mpr ((List.mem_append.mp h).imp_right (List.mem_cons_of_mem _))⟩
  · rw [hm] at h
    rw [heq]
    rcases List.mem_append.mp h with h | h
    · exact ⟨v, List.mem_append_left _ h⟩
    · rcases List.mem_cons.mp h with h | h
      · obtain ⟨rfl, -⟩ := Prod.mk.inj h
        exact ⟨_, List.mem_append_right _ List.mem_cons_self⟩
      · exact ⟨v, List.mem_append_right _ (List.mem_cons_of_mem _ h)⟩

theorem upsertEntries_append {k : K} (f : Option V → V) {l : List (K × V)}
    (h : ∀ e ∈ l, e.1 < k) (r : List (K × V)) :
    upsertEntries k f (l ++ r) = l ++ upsertEntries k f r := by
  induction l with
  | nil => rfl
  | cons hd rest ih =>
    have hlt := h hd List.mem_cons_self
    rw [List.cons_append, upsertEntries, if_neg hlt.not_gt, if_neg hlt.ne',
      ih fun e he ↦ h e (List.mem_cons_of_mem _ he), List.cons_append]

theorem entries_upsert_of_mem {m : OrdMap K V} {l₁ l₂ : List (K × V)} {k : K} {v : V}
    (h : m.entries = l₁ ++ (k, v) :: l₂) (f : Option V → V) :
    (m.upsert k f).entries = l₁ ++ (k, f (some v)) :: l₂ := by
  have hsorted := m.sorted
  rw [h, List.pairwise_append] at hsorted
  show upsertEntries k f m.entries = _
  rw [h, upsertEntries_append f fun e he ↦ hsorted.2.2 e he _ List.mem_cons_self, upsertEntries,
    if_neg (lt_irrefl k), if_pos rfl]

theorem entries_upsert_of_gt {m : OrdMap K V} {k : K} (h : ∀ e ∈ m.entries, e.1 < k)
    (f : Option V → V) : (m.upsert k f).entries = m.entries ++ [(k, f none)] := by
  have happend := upsertEntries_append f h []
  rw [List.append_nil] at happend
  exact happend

/-! ## Looking up -/

/-- The value at a key. -/
def get? (m : OrdMap K V) (k : K) : Option V := (m.entries.find? fun e ↦ e.1 = k).map Prod.snd

theorem get?_of_mem {m : OrdMap K V} {l₁ l₂ : List (K × V)} {k : K} {v : V}
    (h : m.entries = l₁ ++ (k, v) :: l₂) : m.get? k = some v := by
  have hsorted := m.sorted
  rw [h, List.pairwise_append] at hsorted
  have hnone : l₁.find? (fun e ↦ e.1 = k) = none := by
    rw [List.find?_eq_none]
    exact fun e he heq ↦
      absurd (of_decide_eq_true heq) (hsorted.2.2 e he _ List.mem_cons_self).ne
  rw [get?, h, List.find?_append, hnone, Option.none_or, List.find?_cons_of_pos (by simp)]
  rfl

theorem get?_eq_some {m : OrdMap K V} {k : K} {v : V} :
    m.get? k = some v ↔ (k, v) ∈ m.entries := by
  refine ⟨fun h ↦ ?_, fun h ↦ ?_⟩
  · obtain ⟨⟨k', v'⟩, hfind, hv⟩ := Option.map_eq_some_iff.mp h
    have hkey := List.find?_some hfind
    obtain rfl : k' = k := of_decide_eq_true hkey
    obtain rfl : v' = v := hv
    exact List.mem_of_find?_eq_some hfind
  · obtain ⟨l₁, l₂, heq⟩ := List.append_of_mem h
    exact get?_of_mem heq

theorem ext_get? {m m' : OrdMap K V} (h : ∀ k, m.get? k = m'.get? k) : m = m' := by
  have hmem : ∀ e : K × V, e ∈ m.entries ↔ e ∈ m'.entries := fun e ↦ by
    rw [← get?_eq_some, ← get?_eq_some, h]
  have hnodup : ∀ {l : List (K × V)}, (l.Pairwise fun a b ↦ a.1 < b.1) → l.Nodup := fun hl ↦
    hl.imp fun hlt heq ↦ absurd (congrArg Prod.fst heq) hlt.ne
  have hperm := (List.perm_ext_iff_of_nodup (hnodup m.sorted) (hnodup m'.sorted)).mpr hmem
  exact ext (hperm.eq_of_pairwise (fun a b _ _ hlt hgt ↦ absurd hlt hgt.not_gt) m.sorted m'.sorted)

theorem get?_upsert (m : OrdMap K V) (k : K) (f : Option V → V) (k' : K) :
    (m.upsert k f).get? k' = if k' = k then some (f (m.get? k)) else m.get? k' := by
  have hat : (m.upsert k f).get? k = some (f (m.get? k)) := by
    rcases m.upsert_entries k f with ⟨l₁, l₂, hm, heq⟩ | ⟨l₁, v, l₂, hm, heq⟩
    · have hnone : m.get? k = none := by
        refine Option.eq_none_iff_forall_ne_some.mpr fun v hv ↦ ?_
        have hsorted := (m.upsert k f).sorted
        rw [get?_eq_some, hm] at hv
        rw [heq, List.pairwise_append] at hsorted
        rcases List.mem_append.mp hv with hv | hv
        · exact lt_irrefl k (hsorted.2.2 _ hv _ List.mem_cons_self)
        · exact lt_irrefl k ((List.pairwise_cons.mp hsorted.2.1).1 _ hv)
      rw [hnone, get?_of_mem heq]
    · rw [get?_of_mem hm, get?_of_mem heq]
  split_ifs with hk
  · rw [hk, hat]
  · refine Option.ext fun v ↦ ?_
    rw [get?_eq_some, get?_eq_some]
    refine ⟨fun h ↦ ?_, fun h ↦ ?_⟩
    · rcases mem_entries_upsert h with ⟨old, heq⟩ | ⟨-, h⟩
      · exact absurd (congrArg Prod.fst heq) hk
      · exact h
    · rcases m.upsert_entries k f with ⟨l₁, l₂, hm, heq⟩ | ⟨l₁, w, l₂, hm, heq⟩
      · rw [hm] at h
        rw [heq]
        exact List.mem_append.mpr ((List.mem_append.mp h).imp_right (List.mem_cons_of_mem _))
      · rw [hm] at h
        rw [heq]
        refine List.mem_append.mpr ((List.mem_append.mp h).imp_right fun h ↦ ?_)
        exact List.mem_cons_of_mem _ ((List.mem_cons.mp h).resolve_left fun heq ↦
          hk (congrArg Prod.fst heq))

theorem length_upsert_le (m : OrdMap K V) (k : K) (f : Option V → V) :
    (m.upsert k f).entries.length ≤ m.entries.length + 1 := by
  rcases m.upsert_entries k f with ⟨l₁, l₂, hm, heq⟩ | ⟨l₁, v, l₂, hm, heq⟩
  · rw [hm, heq, List.length_append, List.length_append, List.length_cons, Nat.add_assoc]
  · rw [hm, heq, List.length_append, List.length_append, List.length_cons, List.length_cons]
    exact Nat.le_succ _

/-! ## From a list of entries, and from a function -/

/-- The map into which the entries were put one after another. -/
def ofEntries (l : List (K × V)) : OrdMap K V :=
  l.foldl (fun m e ↦ m.upsert e.1 fun _ ↦ e.2) empty

theorem ofEntries_entries (m : OrdMap K V) : ofEntries m.entries = m := by
  suffices h : ∀ (l : List (K × V)) (m' : OrdMap K V),
      ((m'.entries ++ l).Pairwise fun a b ↦ a.1 < b.1) →
        (l.foldl (fun m e ↦ m.upsert e.1 fun _ ↦ e.2) m').entries = m'.entries ++ l by
    exact ext (h m.entries empty m.sorted)
  intro l
  induction l with
  | nil => exact fun m' _ ↦ (List.append_nil _).symm
  | cons e l ih =>
    intro m' hsorted
    have hlast : (m'.upsert e.1 fun _ ↦ e.2).entries = m'.entries ++ [e] :=
      entries_upsert_of_gt (fun e' he' ↦
        (List.pairwise_append.mp hsorted).2.2 e' he' e List.mem_cons_self) fun _ ↦ e.2
    rw [List.append_cons] at hsorted
    rw [List.foldl_cons, ih _ (by rwa [hlast]), hlast, List.append_assoc, List.singleton_append]

/-- The map of a function that is undefined but at the keys listed. -/
def ofKeys (f : K → Option V) : List K → OrdMap K V
  | [] => empty
  | k :: keys => (f k).elim (ofKeys f keys) fun v ↦ (ofKeys f keys).upsert k fun _ ↦ v

theorem get?_ofKeys (f : K → Option V) (keys : List K) (k : K) :
    (ofKeys f keys).get? k = if k ∈ keys then f k else none := by
  induction keys with
  | nil => rfl
  | cons k' keys ih =>
    have hhead : k = k' → f k = f k' := congrArg f
    rw [ofKeys]
    cases hv : f k' with
    | none =>
      rw [Option.elim_none, ih]
      by_cases hk : k = k'
      · rw [hhead hk, hv, ite_self, ite_self]
      · simp only [List.mem_cons, hk, false_or]
    | some v =>
      rw [Option.elim_some, get?_upsert, ih]
      by_cases hk : k = k'
      · rw [if_pos hk, if_pos (hk ▸ List.mem_cons_self), hhead hk, hv]
      · simp only [List.mem_cons, hk, false_or, if_false]

theorem length_ofKeys_le (f : K → Option V) (keys : List K) :
    (ofKeys f keys).entries.length ≤ keys.length := by
  induction keys with
  | nil => exact le_rfl
  | cons k keys ih =>
    rw [ofKeys, List.length_cons]
    cases f k with
    | none => exact ih.trans (Nat.le_succ _)
    | some v => exact (length_upsert_le _ _ _).trans (Nat.succ_le_succ ih)

/-! ## Filtering -/

/-- Keep the entries that satisfy `p`. -/
def filter (m : OrdMap K V) (p : K × V → Bool) : OrdMap K V :=
  ⟨m.entries.filter p, m.sorted.filter p⟩

@[simp] theorem entries_filter (m : OrdMap K V) (p : K × V → Bool) :
    (m.filter p).entries = m.entries.filter p := rfl

theorem get?_filter_ne (m : OrdMap K V) {p : K × V → Bool} {k : K}
    (hp : ∀ e, p e = true ↔ e.1 ≠ k) (k' : K) :
    (m.filter p).get? k' = if k' = k then none else m.get? k' := by
  refine Option.ext fun v ↦ ?_
  rw [get?_eq_some, entries_filter, List.mem_filter, hp]
  split_ifs with hk
  · exact ⟨fun h ↦ absurd hk h.2, False.elim⟩
  · rw [get?_eq_some]
    exact and_iff_left hk

/-- The entries below `k`, and those at or above it. -/
def splitOff (m : OrdMap K V) (k : K) : OrdMap K V × OrdMap K V :=
  (m.filter fun e ↦ e.1 < k, m.filter fun e ↦ k ≤ e.1)

theorem splitOff_append (m : OrdMap K V) (k : K) :
    (m.splitOff k).1.entries ++ (m.splitOff k).2.entries = m.entries := by
  obtain ⟨l, hl⟩ := m
  show l.filter _ ++ l.filter _ = l
  induction l with
  | nil => rfl
  | cons hd rest ih =>
    obtain ⟨hhd, hrest⟩ := List.pairwise_cons.mp hl
    rw [List.filter_cons, List.filter_cons]
    by_cases hk : hd.1 < k
    · rw [if_pos (decide_eq_true hk), if_neg (by simpa using hk), List.cons_append, ih hrest]
    · have hge : ∀ e ∈ rest, ¬e.1 < k := fun e he h ↦ hk ((hhd e he).trans h)
      have hnil : rest.filter (fun e ↦ decide (e.1 < k)) = [] := by
        rw [List.filter_eq_nil_iff]
        exact fun e he ↦ by simpa using hge e he
      rw [if_neg (by simpa using hk), if_pos (by simpa using hk), hnil, List.nil_append]
      congr 1
      rw [List.filter_eq_self]
      exact fun e he ↦ by simpa using hge e he

/-! ## Updating the first value a function accepts

The values are offered in ascending order of the keys until the function accepts one. It may change
that value, and nothing else changes. -/

/-- Walk the entries in ascending key order; the first value `f` accepts is replaced, and what `f`
took out of it is returned. -/
def updateFirstEntries (f : V → Option (α × V)) : List (K × V) → Option (α × List (K × V))
  | [] => none
  | (k, v) :: rest =>
    match f v with
    | some (a, v') => some (a, (k, v') :: rest)
    | none => (updateFirstEntries f rest).map fun r ↦ (r.1, (k, v) :: r.2)

omit [LinearOrder K] in
theorem updateFirstEntries_eq_some {f : V → Option (α × V)} {l l' : List (K × V)} {a : α}
    (h : updateFirstEntries f l = some (a, l')) :
    ∃ l₁ k v v' l₂, l = l₁ ++ (k, v) :: l₂ ∧ l' = l₁ ++ (k, v') :: l₂ ∧ f v = some (a, v') := by
  induction l generalizing l' with
  | nil => exact absurd h (by simp [updateFirstEntries])
  | cons hd rest ih =>
    obtain ⟨k, v⟩ := hd
    rw [updateFirstEntries] at h
    cases hv : f v with
    | some r =>
      obtain ⟨b, v'⟩ := r
      rw [hv] at h
      cases h
      exact ⟨[], k, v, v', rest, rfl, rfl, hv⟩
    | none =>
      rw [hv] at h
      obtain ⟨⟨b, rest'⟩, hr, heq⟩ := Option.map_eq_some_iff.mp h
      cases heq
      obtain ⟨l₁, k₁, w, w', l₂, h₁, h₂, h₃⟩ := ih hr
      refine ⟨(k, v) :: l₁, k₁, w, w', l₂, ?_, ?_, h₃⟩
      · rw [h₁, List.cons_append]
      · rw [h₂, List.cons_append]

omit [LinearOrder K] in
theorem updateFirstEntries_eq_none {f : V → Option (α × V)} {l : List (K × V)} :
    updateFirstEntries f l = none ↔ ∀ e ∈ l, f e.2 = none := by
  induction l with
  | nil => simp [updateFirstEntries]
  | cons hd rest ih =>
    obtain ⟨k, v⟩ := hd
    rw [updateFirstEntries]
    cases hv : f v with
    | some r => simp [hv]
    | none => simp [hv, ih]

omit [LinearOrder K] in
theorem keys_updateFirstEntries {f : V → Option (α × V)} {l l' : List (K × V)} {a : α}
    (h : updateFirstEntries f l = some (a, l')) : l'.map Prod.fst = l.map Prod.fst := by
  obtain ⟨l₁, k, v, v', l₂, rfl, rfl, -⟩ := updateFirstEntries_eq_some h
  simp

/-- Update the first value `f` accepts, in ascending key order. -/
def updateFirst (m : OrdMap K V) (f : V → Option (α × V)) : Option (α × OrdMap K V) :=
  match h : updateFirstEntries f m.entries with
  | none => none
  | some (a, l) => some (a, ⟨l, by
      have hs := m.sorted
      rw [← List.pairwise_map (f := Prod.fst) (R := (· < ·))] at hs ⊢
      rwa [keys_updateFirstEntries h]⟩)

theorem updateFirst_eq_none {m : OrdMap K V} {f : V → Option (α × V)} :
    m.updateFirst f = none ↔ ∀ v ∈ m.values, f v = none := by
  have hiff : m.updateFirst f = none ↔ updateFirstEntries f m.entries = none := by
    unfold updateFirst
    split
    · simp [*]
    · simp [*]
  rw [hiff, updateFirstEntries_eq_none, values, List.forall_mem_map]

theorem updateFirst_eq_some {m m' : OrdMap K V} {f : V → Option (α × V)} {a : α}
    (h : m.updateFirst f = some (a, m')) :
    ∃ l₁ k v v' l₂, m.entries = l₁ ++ (k, v) :: l₂ ∧ m'.entries = l₁ ++ (k, v') :: l₂ ∧
      f v = some (a, v') := by
  unfold updateFirst at h
  split at h
  · cases h
  · rename_i b l hl
    cases h
    exact updateFirstEntries_eq_some hl

/-! ## Changing the values

A function of the values alone commutes with every operation, when what the operation does to the
changed values is what it did to the old ones, changed. -/

/-- Change every value. -/
def mapVal (m : OrdMap K V) (f : V → V) : OrdMap K V :=
  ⟨m.entries.map fun e ↦ (e.1, f e.2), List.pairwise_map.mpr m.sorted⟩

@[simp] theorem entries_mapVal (m : OrdMap K V) (f : V → V) :
    (m.mapVal f).entries = m.entries.map fun e ↦ (e.1, f e.2) := rfl

/-- Change every value, by a function that sees its key. -/
def mapEntries (m : OrdMap K V) (f : K → V → V) : OrdMap K V :=
  ⟨m.entries.map fun e ↦ (e.1, f e.1 e.2), List.pairwise_map.mpr m.sorted⟩

@[simp] theorem entries_mapEntries (m : OrdMap K V) (f : K → V → V) :
    (m.mapEntries f).entries = m.entries.map fun e ↦ (e.1, f e.1 e.2) := rfl

theorem upsert_mapVal (m : OrdMap K V) (k : K) (f : V → V) (g g' : Option V → V)
    (h : ∀ old, g' (old.map f) = f (g old)) :
    (m.mapVal f).upsert k g' = (m.upsert k g).mapVal f := by
  obtain ⟨l, hl⟩ := m
  apply ext
  show upsertEntries k g' (l.map fun e ↦ (e.1, f e.2)) =
    (upsertEntries k g l).map fun e ↦ (e.1, f e.2)
  clear hl
  induction l with
  | nil => exact congrArg (fun v ↦ [(k, v)]) (h none)
  | cons e l ih =>
    obtain ⟨k', v⟩ := e
    rw [List.map_cons, upsertEntries, upsertEntries]
    split_ifs
    · exact congrArg (fun w ↦ (k, w) :: _) (h none)
    · exact congrArg (fun w ↦ (k, w) :: _) (h (some v))
    · exact congrArg ((k', f v) :: ·) ih

theorem filter_mapVal (m : OrdMap K V) (f : V → V) (p p' : K × V → Bool)
    (h : ∀ e, p' (e.1, f e.2) = p e) : (m.mapVal f).filter p' = (m.filter p).mapVal f := by
  apply ext
  simp only [entries_filter, entries_mapVal, List.filter_map, Function.comp_def, h]

theorem splitOff_mapVal (m : OrdMap K V) (k : K) (f : V → V) :
    (m.mapVal f).splitOff k = ((m.splitOff k).1.mapVal f, (m.splitOff k).2.mapVal f) :=
  Prod.ext (filter_mapVal m f _ _ fun _ ↦ rfl) (filter_mapVal m f _ _ fun _ ↦ rfl)

omit [LinearOrder K] in
theorem updateFirstEntries_mapVal {f : V → V} {φ : α → α} {g : V → Option (α × V)}
    (h : ∀ v, g (f v) = (g v).map fun r ↦ (φ r.1, f r.2)) (l : List (K × V)) :
    updateFirstEntries g (l.map fun e ↦ (e.1, f e.2)) =
      (updateFirstEntries g l).map fun r ↦ (φ r.1, r.2.map fun e ↦ (e.1, f e.2)) := by
  induction l with
  | nil => rfl
  | cons e l ih =>
    obtain ⟨k, v⟩ := e
    rw [List.map_cons, updateFirstEntries, updateFirstEntries, h]
    cases g v with
    | some r => rfl
    | none =>
      simp only [Option.map_none, ih, Option.map_map]
      rfl

omit [LinearOrder K] in
theorem updateFirstEntries_filter {p : V → Bool} {g : V → Option (α × V)}
    (h : ∀ v, p v = false → g v = none) (l : List (K × V)) :
    (updateFirstEntries g (l.filter fun e ↦ p e.2)).map (fun r ↦ (r.1, r.2.filter fun e ↦ p e.2)) =
      (updateFirstEntries g l).map fun r ↦ (r.1, r.2.filter fun e ↦ p e.2) := by
  induction l with
  | nil => rfl
  | cons e l ih =>
    obtain ⟨k, v⟩ := e
    cases hp : p v with
    | true =>
      have hkeep : ∀ l : List (K × V), ((k, v) :: l).filter (fun e ↦ p e.2) =
          (k, v) :: l.filter fun e ↦ p e.2 := fun l ↦ List.filter_cons_of_pos hp
      rw [hkeep, updateFirstEntries, updateFirstEntries]
      cases g v with
      | some r =>
        dsimp only
        rw [Option.map_some, Option.map_some, List.filter_cons, List.filter_cons,
          List.filter_filter]
        simp only [Bool.and_self]
      | none =>
        have hcons := congrArg (Option.map fun r : α × List (K × V) ↦ (r.1, (k, v) :: r.2)) ih
        simp only [Option.map_map, Function.comp_def] at hcons
        simp only [Option.map_map, Function.comp_def, hkeep]
        exact hcons
    | false =>
      have hdrop : ∀ l : List (K × V), ((k, v) :: l).filter (fun e ↦ p e.2) =
          l.filter fun e ↦ p e.2 := fun l ↦ List.filter_cons_of_neg (by simp [hp])
      rw [hdrop, ih, updateFirstEntries, h v hp]
      simp only [Option.map_map, Function.comp_def, hdrop]

theorem entries_updateFirst (m : OrdMap K V) (f : V → Option (α × V)) :
    ((m.updateFirst f).map fun r ↦ (r.1, r.2.entries)) = updateFirstEntries f m.entries := by
  unfold updateFirst
  split
  · simp [*]
  · simp [*]

theorem updateFirst_mapVal (m : OrdMap K V) {f : V → V} {φ : α → α} {g : V → Option (α × V)}
    (h : ∀ v, g (f v) = (g v).map fun r ↦ (φ r.1, f r.2)) :
    (m.mapVal f).updateFirst g = (m.updateFirst g).map fun r ↦ (φ r.1, r.2.mapVal f) := by
  have hinj : Function.Injective fun r : α × OrdMap K V ↦ (r.1, r.2.entries) := by
    rintro ⟨a, m⟩ ⟨b, m'⟩ heq
    obtain ⟨rfl, hm⟩ := Prod.ext_iff.mp heq
    exact congrArg (a, ·) (ext hm)
  have hentries := updateFirstEntries_mapVal h m.entries
  apply Option.map_injective hinj
  rw [entries_updateFirst, entries_mapVal, hentries, ← entries_updateFirst, Option.map_map,
    Option.map_map]
  rfl

end OrdMap
