import DutchAuction.Core.Matching
import DutchAuction.Library.Sorting

/-!
# The bids at one price

The bids of a window above a price are matched before the others, and those at the price are one
level (`byPriority_split`, `matchLevels_of_priority_eq`). What a bid of a level receives is its
share of what remains, or one unit more; the share depends on what the level asks for and not on the
order in which it does.

So two windows that hold the same bids above a price, and bids at the price that ask for the same
(`Shuffled`), spend the same supply and allot every key the same up to one unit.
-/

namespace DutchAuction

variable {price : Price} {l l' : List PendingBid}

/-! ## One window by price

Sorting by priority and grouping by price both respect a cut at a price: what competes above it is
sorted before the rest and makes levels of its own. -/

/-- The bids of a window above a price. -/
def above (price : Price) (bids : List PendingBid) : List PendingBid :=
  bids.filter fun b ↦ price < b.priority

/-- The bids of a window at or below a price. -/
def upTo (price : Price) (bids : List PendingBid) : List PendingBid :=
  bids.filter fun b ↦ !decide (price < b.priority)

theorem byPriority_cut (p : PendingBid → Bool) (bids : List PendingBid)
    (h : ∀ a ∈ bids, ∀ b ∈ bids, p a = true → p b = false → b.priority < a.priority) :
    byPriority bids = byPriority (bids.filter p) ++ byPriority (bids.filter fun b ↦ !p b) := by
  refine Sorting.insertionSort_split p fun a hmem b hmem' ha hb ↦ ?_
  have hlt := h a hmem b hmem' ha hb
  refine ⟨Or.inl hlt, ?_⟩
  rintro (hgt | ⟨heq, -⟩)
  · exact lt_asymm hlt hgt
  · exact hlt.ne heq

theorem priceLevels_cut (p : PendingBid → Bool) (bids : List PendingBid)
    (h : ∀ a ∈ bids, ∀ b ∈ bids, p a = true → p b = false → b.priority < a.priority) :
    priceLevels (byPriority bids) =
      priceLevels (byPriority (bids.filter p)) ++
        priceLevels (byPriority (bids.filter fun b ↦ !p b)) := by
  rw [byPriority_cut p bids h]
  refine List.splitBy_append fun a ha b hb ↦ decide_eq_false fun heq ↦ ?_
  have ha := List.mem_filter.mp ((byPriority_perm _).mem_iff.mp (List.mem_of_getLast? ha))
  have hb := List.mem_filter.mp ((byPriority_perm _).mem_iff.mp (List.mem_of_head? hb))
  have hlt := h a ha.1 b hb.1 ha.2 (by simpa using hb.2)
  exact hlt.ne heq.symm

private theorem lt_of_above {a b : PendingBid} (ha : decide (price < a.priority) = true)
    (hb : decide (price < b.priority) = false) : b.priority < a.priority :=
  (not_lt.mp (of_decide_eq_false hb)).trans_lt (of_decide_eq_true ha)

theorem byPriority_split (price : Price) (bids : List PendingBid) :
    byPriority bids = byPriority (above price bids) ++ byPriority (upTo price bids) :=
  byPriority_cut _ bids fun _ _ _ _ ha hb ↦ lt_of_above ha hb

theorem priceLevels_split (price : Price) (bids : List PendingBid) :
    priceLevels (byPriority bids) =
      priceLevels (byPriority (above price bids)) ++ priceLevels (byPriority (upTo price bids)) :=
  priceLevels_cut _ bids fun _ _ _ _ ha hb ↦ lt_of_above ha hb

theorem matchLevels_of_priority_eq (h : ∀ b ∈ l, b.priority = price) (supply : Qty)
    (exhausted : Bool) :
    matchLevels (priceLevels l) supply exhausted =
      if l = [] ∨ Qty.isZero supply = true then (l.map fun _ ↦ 0, supply, exhausted)
      else (allocate l supply.val,
        supply.saturatingSub (U64.saturate (min (demand l) supply.val)),
        Qty.isZero (supply.saturatingSub (U64.saturate (min (demand l) supply.val)))) := by
  by_cases hnil : l = []
  · rw [if_pos (Or.inl hnil), hnil]
    rfl
  · have hlevels : priceLevels l = [l] := by
      refine List.splitBy_of_isChain hnil (List.Pairwise.isChain ?_)
      refine List.pairwise_of_forall_mem_list fun a ha b hb ↦ decide_eq_true ?_
      rw [h a ha, h b hb]
    rw [hlevels, matchLevels]
    by_cases hz : Qty.isZero supply = true
    · rw [if_pos hz, if_pos (Or.inr hz)]
      simp only [matchLevels, List.append_nil]
    · rw [if_neg hz, if_neg (not_or.mpr ⟨hnil, hz⟩)]
      simp only [matchLevels, List.append_nil, sum_allocate]

/-! ## What one key receives

A bid receives its share of its level or one unit more, so what all bids under a key receive is
known up to one unit for each. -/

/-- The units allotted to a key. -/
def allotted (key : IdempotencyKey) (l : List (PendingBid × ℕ)) : ℕ :=
  ((l.filter fun ba ↦ ba.1.key = key).map Prod.snd).sum

theorem allotted_append (key : IdempotencyKey) (l l' : List (PendingBid × ℕ)) :
    allotted key (l ++ l') = allotted key l + allotted key l' := by
  rw [allotted, List.filter_append, List.map_append, List.sum_append]
  rfl

/-- What a bid asks for. -/
def PendingBid.ask (b : PendingBid) : IdempotencyKey × Qty := (b.key, b.qty)

theorem allotted_bounds {f : ℕ → ℕ} {alloc : List ℕ} (key : IdempotencyKey)
    (h : List.Forall₂ (fun b a ↦ f b.qty.val ≤ a ∧ a ≤ f b.qty.val + 1) l alloc) :
    (((l.map PendingBid.ask).filter fun e ↦ e.1 = key).map fun e ↦ f e.2.val).sum ≤
        allotted key (l.zip alloc) ∧
      allotted key (l.zip alloc) ≤
        (((l.map PendingBid.ask).filter fun e ↦ e.1 = key).map fun e ↦ f e.2.val).sum +
          (l.map PendingBid.key).count key := by
  induction h with
  | nil => exact ⟨le_rfl, Nat.zero_le _⟩
  | @cons b a l alloc hba _ ih =>
    rw [List.zip_cons_cons, List.map_cons, List.map_cons, List.count_cons]
    by_cases hkey : b.key = key
    · have hask : ∀ rest, (b.ask :: rest).filter (fun e ↦ e.1 = key) =
          b.ask :: rest.filter fun e ↦ e.1 = key :=
        fun _ ↦ List.filter_cons_of_pos (decide_eq_true hkey)
      have hzip : ∀ rest : List (PendingBid × ℕ),
          ((b, a) :: rest).filter (fun ba ↦ ba.1.key = key) =
          (b, a) :: rest.filter fun ba ↦ ba.1.key = key :=
        fun _ ↦ List.filter_cons_of_pos (decide_eq_true hkey)
      rw [allotted, hask, hzip, List.map_cons,
        List.map_cons, List.sum_cons, List.sum_cons, if_pos (by simpa using hkey)]
      have hqty : f b.ask.2.val = f b.qty.val := rfl
      unfold allotted at ih
      omega
    · have hask : ∀ rest, (b.ask :: rest).filter (fun e ↦ e.1 = key) =
          rest.filter fun e ↦ e.1 = key :=
        fun _ ↦ List.filter_cons_of_neg fun h ↦ hkey (of_decide_eq_true h)
      have hzip : ∀ rest : List (PendingBid × ℕ),
          ((b, a) :: rest).filter (fun ba ↦ ba.1.key = key) =
          rest.filter fun ba ↦ ba.1.key = key :=
        fun _ ↦ List.filter_cons_of_neg fun h ↦ hkey (of_decide_eq_true h)
      rw [allotted, hask, hzip, if_neg (by simpa using hkey)]
      exact ih

/-! ## Two orders of arrival

Levels that ask for the same leave the same, whatever the order inside them. So two orders of one
window run through the same supplies, and differ only in who in a level receives the odd unit. -/

/-- Two windows hold the same bids above a price, and bids at that price that ask for the same. -/
structure Shuffled (price : Price) (l l' : List PendingBid) : Prop where
  low : ∀ b ∈ l, price ≤ b.priority
  low' : ∀ b ∈ l', price ≤ b.priority
  higher : above price l' = above price l
  ask : ((upTo price l').map PendingBid.ask).Perm ((upTo price l).map PendingBid.ask)

theorem Shuffled.symm (h : Shuffled price l l') : Shuffled price l' l :=
  ⟨h.low', h.low, h.higher.symm, h.ask.symm⟩

theorem demand_eq_of_ask (h : (l'.map PendingBid.ask).Perm (l.map PendingBid.ask)) :
    demand l' = demand l := by
  have hsum := (h.map fun e ↦ e.2.val).sum_eq
  rw [List.map_map, List.map_map] at hsum
  exact hsum

theorem matchLevels_snd_eq_of_ask (h : ∀ b ∈ l, b.priority = price)
    (h' : ∀ b ∈ l', b.priority = price) (hask : (l'.map PendingBid.ask).Perm (l.map PendingBid.ask))
    (supply : Qty) (exhausted : Bool) :
    (matchLevels (priceLevels l') supply exhausted).2 =
      (matchLevels (priceLevels l) supply exhausted).2 := by
  have hnil : l' = [] ↔ l = [] := by
    have hlength := hask.length_eq
    rw [List.length_map, List.length_map] at hlength
    rw [← List.length_eq_zero_iff, ← List.length_eq_zero_iff, hlength]
  rw [matchLevels_of_priority_eq h, matchLevels_of_priority_eq h', demand_eq_of_ask hask]
  by_cases hcut : l = [] ∨ Qty.isZero supply = true
  · rw [if_pos hcut, if_pos (hcut.imp_left hnil.mpr)]
  · rw [if_neg hcut, if_neg fun h ↦ hcut (h.imp_left hnil.mp)]

/-- What a bid at the price of the window is entitled to. -/
def levelShare (total supply qty : ℕ) : ℕ := if supply = 0 then 0 else share total supply qty

theorem matchLevels_bounds (h : ∀ b ∈ l, b.priority = price) (supply : Qty) (exhausted : Bool) :
    List.Forall₂ (fun b a ↦ levelShare (demand l) supply.val b.qty.val ≤ a ∧
      a ≤ levelShare (demand l) supply.val b.qty.val + 1) l
      (matchLevels (priceLevels l) supply exhausted).1 := by
  rw [matchLevels_of_priority_eq h]
  by_cases hnil : l = []
  · rw [if_pos (Or.inl hnil), hnil]
    exact List.Forall₂.nil
  · by_cases hz : Qty.isZero supply = true
    · rw [if_pos (Or.inr hz)]
      have hzero : ∀ qty, levelShare (demand l) supply.val qty = 0 :=
        fun qty ↦ if_pos (Qty.isZero_eq_true.mp hz)
      refine List.forall₂_map_right_iff.mpr (List.forall₂_same.mpr fun b _ ↦ ?_)
      rw [hzero]
      exact ⟨le_rfl, Nat.zero_le _⟩
    · rw [if_neg (not_or.mpr ⟨hnil, hz⟩)]
      have hshare : ∀ qty, levelShare (demand l) supply.val qty = share (demand l) supply.val qty :=
        fun qty ↦ if_neg fun h ↦ hz (Qty.isZero_eq_true.mpr h)
      simp only [hshare]
      exact allocate_bounds l supply.val

/-! ### Both orders of one window -/

private theorem Shuffled.priority (h : Shuffled price l l') :
    ∀ b ∈ byPriority (upTo price l), b.priority = price := by
  intro b hb
  obtain ⟨hb, hle⟩ := List.mem_filter.mp ((byPriority_perm _).mem_iff.mp hb)
  refine le_antisymm (not_lt.mp fun hlt ↦ ?_) (h.low b hb)
  rw [decide_eq_true hlt] at hle
  cases hle

private theorem Shuffled.sorted_ask (h : Shuffled price l l') :
    ((byPriority (upTo price l')).map PendingBid.ask).Perm
      ((byPriority (upTo price l)).map PendingBid.ask) :=
  ((byPriority_perm _).map _).trans (h.ask.trans ((byPriority_perm _).map _).symm)

/-- **Both orders spend the same supply.** -/
theorem Shuffled.matched (h : Shuffled price l l') (supply : Qty) :
    (matchLevels (priceLevels (byPriority l')) supply false).2 =
      (matchLevels (priceLevels (byPriority l)) supply false).2 := by
  rw [priceLevels_split price l, priceLevels_split price l', h.higher, matchLevels_append,
    matchLevels_append]
  exact matchLevels_snd_eq_of_ask h.priority h.symm.priority h.sorted_ask _ _

private theorem allotted_split (price : Price) (l : List PendingBid) (supply : Qty)
    (key : IdempotencyKey) :
    allotted key (allocations l supply) =
      allotted key (allocations (above price l) supply) +
        allotted key ((byPriority (upTo price l)).zip
          (matchLevels (priceLevels (byPriority (upTo price l)))
            (matchLevels (priceLevels (byPriority (above price l))) supply false).2.1
            (matchLevels (priceLevels (byPriority (above price l))) supply false).2.2).1) := by
  have hlength := (allots_matchLevels (priceLevels (byPriority (above price l))) supply
    false).length_eq
  rw [flatten_priceLevels] at hlength
  rw [allocations, priceLevels_split price l, byPriority_split price l, matchLevels_append,
    List.zip_append hlength, allotted_append]
  rfl

/-- **Both orders allot every key the same, up to one unit.** -/
theorem Shuffled.allotted_le (h : Shuffled price l l') (hkeys : (l.map PendingBid.key).Nodup)
    (supply : Qty) (key : IdempotencyKey) :
    allotted key (allocations l supply) ≤ allotted key (allocations l' supply) + 1 ∧
      allotted key (allocations l' supply) ≤ allotted key (allocations l supply) + 1 := by
  rw [allotted_split price l, allotted_split price l', h.higher]
  generalize (matchLevels (priceLevels (byPriority (above price l))) supply false).2.1 = left
  generalize (matchLevels (priceLevels (byPriority (above price l))) supply false).2.2 = exhausted
  have hbounds := allotted_bounds key (matchLevels_bounds h.priority left exhausted)
  have hbounds' := allotted_bounds key (matchLevels_bounds h.symm.priority left exhausted)
  -- Entitlements are a matter of what is asked for; only the leftover units are not.
  have hsame := ((h.sorted_ask.filter fun e ↦ e.1 = key).map fun e ↦
    levelShare (demand (byPriority (upTo price l))) left.val e.2.val).sum_eq
  rw [demand_eq_of_ask h.sorted_ask, hsame] at hbounds'
  have hone : ∀ m : List PendingBid, (m.map PendingBid.ask).Perm
      ((byPriority (upTo price l)).map PendingBid.ask) → (m.map PendingBid.key).count key ≤ 1 := by
    intro m hm
    have hperm := hm.map Prod.fst
    rw [List.map_map, List.map_map] at hperm
    have hsub : ((byPriority (upTo price l)).map PendingBid.key).Nodup :=
      ((byPriority_perm _).map _).nodup_iff.mpr
        (hkeys.sublist ((List.filter_sublist).map PendingBid.key))
    refine List.nodup_iff_count_le_one.mp ?_ key
    exact hperm.nodup_iff.mpr hsub
  have hcount := hone _ (List.Perm.refl _)
  have hcount' := hone _ h.sorted_ask
  omega

end DutchAuction
