import Mathlib.Data.List.SplitBy
import DutchAuction.Core.State
import DutchAuction.Library.Prorata

/-!
# Matching one window

What the matching loop of a flushed window hands out, as facts about its list of allocations.

* `Allots`: no bid receives more than it asked for, and every bid receives an entry.
* `sum_matchLevels`: the units handed out are exactly the units deducted from the supply.
* `alloc_eq_qty_of_not_exhausted`: if a bid that receives anything receives less than it asked for,
  the supply is exhausted. With it goes the refill of a partially filled bid.
* `exhausted_matchLevels`: the loop reports exhaustion exactly when the demand covers the supply.
* `allocate_bounds`: a bid's place in its level is worth at most one unit.

All of it rests on one level being shared exactly (`sum_allocate`): rounding down and handing out
the leftover in one pass places all of it.
-/

namespace DutchAuction

/-- The quantity a list of bids asks for. -/
def demand (bids : List PendingBid) : ℕ := (bids.map fun b ↦ b.qty.val).sum

@[simp] theorem demand_nil : demand [] = 0 := rfl

@[simp] theorem demand_cons (b : PendingBid) (bids : List PendingBid) :
    demand (b :: bids) = b.qty.val + demand bids := rfl

theorem demand_append (l l' : List PendingBid) : demand (l ++ l') = demand l + demand l' := by
  simp [demand]

theorem demand_perm {l l' : List PendingBid} (h : l.Perm l') : demand l = demand l' :=
  (h.map _).sum_eq

/-- One allocation per bid, none above what the bid asked for. -/
def Allots (bids : List PendingBid) (alloc : List ℕ) : Prop :=
  List.Forall₂ (fun b a ↦ a ≤ b.qty.val) bids alloc

/-! ## One level

The rounded shares of a level leave no less than nothing and no more than one unit for each bid
that is still short, so one round of single units places what is left, and the level hands out its
demand or everything that remains. -/

private theorem allots_topUp (l : List (ℕ × PendingBid)) (left : ℕ)
    (h : ∀ e ∈ l, e.1 ≤ e.2.qty.val) : Allots (l.map Prod.snd) (topUp l left) := by
  induction l generalizing left with
  | nil => exact List.Forall₂.nil
  | cons e rest ih =>
    obtain ⟨a, b⟩ := e
    have hrest : ∀ e ∈ rest, e.1 ≤ e.2.qty.val := fun e he ↦ h e (List.mem_cons_of_mem _ he)
    rw [topUp]
    split_ifs with hleft hlt
    · exact List.Forall₂.cons (h _ List.mem_cons_self)
        (List.forall₂_map_left_iff.mpr (List.forall₂_map_right_iff.mpr
          (List.forall₂_same.mpr hrest)))
    · exact List.Forall₂.cons hlt (ih _ hrest)
    · exact List.Forall₂.cons (h _ List.mem_cons_self) (ih _ hrest)

private theorem sum_topUp (l : List (ℕ × PendingBid)) (left : ℕ)
    (h : left ≤ l.countP fun e ↦ e.1 < e.2.qty.val) :
    (topUp l left).sum = (l.map Prod.fst).sum + left := by
  induction l generalizing left with
  | nil =>
    rw [List.countP_nil, Nat.le_zero] at h
    rw [h]
    rfl
  | cons e rest ih =>
    obtain ⟨a, b⟩ := e
    rw [topUp]
    rw [List.countP_cons] at h
    split_ifs with hleft hlt
    · rw [hleft]
      rfl
    · rw [if_pos (decide_eq_true hlt)] at h
      rw [List.sum_cons, ih (left - 1) (by omega), List.map_cons, List.sum_cons]
      omega
    · rw [if_neg (by simpa using hlt), Nat.add_zero] at h
      rw [List.sum_cons, ih left h, List.map_cons, List.sum_cons]
      omega

private theorem shares_eq (level : List PendingBid) (remaining : ℕ) :
    (level.map fun b ↦ remaining * b.qty.val / demand level) =
      Prorata.shares remaining (level.map fun b ↦ b.qty.val) := by
  rw [Prorata.shares, List.map_map]
  rfl

theorem zip_map_left (level : List PendingBid) (f : PendingBid → ℕ) :
    (level.map f).zip level = level.map fun b ↦ (f b, b) := by
  induction level with
  | nil => rfl
  | cons b level ih => rw [List.map_cons, List.zip_cons_cons, ih, List.map_cons]

theorem zip_map_right (level : List PendingBid) (f : PendingBid → ℕ) :
    level.zip (level.map f) = level.map fun b ↦ (b, f b) := by
  induction level with
  | nil => rfl
  | cons b level ih => rw [List.map_cons, List.zip_cons_cons, ih, List.map_cons]

theorem allots_allocate (level : List PendingBid) (remaining : ℕ) :
    Allots level (allocate level remaining) := by
  unfold allocate
  simp only
  split_ifs with hfit
  · exact List.forall₂_map_right_iff.mpr (List.forall₂_same.mpr fun _ _ ↦ le_rfl)
  · rw [zip_map_left]
    have h := allots_topUp (level.map fun b ↦
      (remaining * b.qty.val / (level.map fun b ↦ b.qty.val).sum, b))
      (remaining -
        (level.map fun b ↦ remaining * b.qty.val / (level.map fun b ↦ b.qty.val).sum).sum)
      ?_
    · simpa only [List.map_map, Function.comp_def, List.map_id'] using h
    · intro e he
      obtain ⟨b, -, rfl⟩ := List.mem_map.mp he
      rcases Nat.eq_zero_or_pos b.qty.val with hz | hpos
      · simp [hz]
      · exact (Prorata.share_lt remaining _ (not_le.mp hfit) hpos).le

theorem leftover_le_short {level : List PendingBid} {remaining : ℕ}
    (hlt : remaining < demand level) :
    (level.map fun b ↦ remaining * b.qty.val / demand level).sum ≤ remaining ∧
      remaining - (level.map fun b ↦ remaining * b.qty.val / demand level).sum ≤
        level.countP fun b ↦ remaining * b.qty.val / demand level < b.qty.val := by
  have hpos : 0 < demand level := by omega
  have hshares := shares_eq level remaining
  have hle := Prorata.sum_shares_le remaining (level.map fun b : PendingBid ↦ b.qty.val) hpos
  have hleft := Prorata.leftover_le_countP remaining (level.map fun b : PendingBid ↦ b.qty.val) hpos
  rw [← hshares] at hle hleft
  refine ⟨hle, hleft.trans ?_⟩
  rw [List.countP_map]
  refine List.countP_mono_left fun b _ hb ↦ ?_
  rw [Function.comp_apply, decide_eq_true_iff] at hb
  rw [decide_eq_true_iff]
  exact Prorata.share_lt remaining _ hlt hb

/-- **One level is shared exactly**: it hands out its demand or everything that remains, whichever
is less. -/
theorem sum_allocate (level : List PendingBid) (remaining : ℕ) :
    (allocate level remaining).sum = min (demand level) remaining := by
  unfold allocate
  simp only
  split_ifs with hfit
  · exact (min_eq_left hfit).symm
  · have hlt : remaining < demand level := not_le.mp hfit
    obtain ⟨hle, hleft⟩ := leftover_le_short hlt
    rw [min_eq_right hlt.le, zip_map_left, sum_topUp, List.map_map]
    · exact Nat.add_sub_cancel' hle
    · rw [List.countP_map]
      exact hleft

theorem allocate_eq_of_demand_le {level : List PendingBid} {remaining : ℕ}
    (h : demand level ≤ remaining) : allocate level remaining = level.map fun b ↦ b.qty.val :=
  if_pos h

/-! ### The place in a level -/

/-- What each unit-for-unit share of a level comes to before the leftover is handed out. -/
def share (total remaining qty : ℕ) : ℕ :=
  if total ≤ remaining then qty else remaining * qty / total

private theorem topUp_bounds (l : List (ℕ × PendingBid)) (left : ℕ) :
    List.Forall₂ (fun e a ↦ e.1 ≤ a ∧ a ≤ e.1 + 1) l (topUp l left) := by
  induction l generalizing left with
  | nil => exact List.Forall₂.nil
  | cons e rest ih =>
    obtain ⟨a, b⟩ := e
    rw [topUp]
    split_ifs
    · refine List.Forall₂.cons ⟨le_rfl, Nat.le_succ a⟩ ?_
      exact List.forall₂_map_right_iff.mpr (List.forall₂_same.mpr fun e _ ↦ ⟨le_rfl, Nat.le_succ _⟩)
    · exact List.Forall₂.cons ⟨Nat.le_succ a, le_rfl⟩ (ih _)
    · exact List.Forall₂.cons ⟨le_rfl, Nat.le_succ a⟩ (ih _)

/-- **A place in the level is worth at most one unit**: every bid receives its share, or one
more. -/
theorem allocate_bounds (level : List PendingBid) (remaining : ℕ) :
    List.Forall₂ (fun b a ↦ share (demand level) remaining b.qty.val ≤ a ∧
      a ≤ share (demand level) remaining b.qty.val + 1) level (allocate level remaining) := by
  unfold allocate share
  by_cases hfit : demand level ≤ remaining
  · simp only [if_pos hfit]
    rw [if_pos (show (level.map fun b ↦ b.qty.val).sum ≤ remaining from hfit)]
    exact List.forall₂_map_right_iff.mpr (List.forall₂_same.mpr fun b _ ↦ ⟨le_rfl, Nat.le_succ _⟩)
  · simp only [if_neg hfit]
    rw [if_neg (show ¬(level.map fun b ↦ b.qty.val).sum ≤ remaining from hfit)]
    rw [zip_map_left]
    have h := topUp_bounds (level.map fun b ↦
      (remaining * b.qty.val / (level.map fun b ↦ b.qty.val).sum, b))
      (remaining -
        (level.map fun b ↦ remaining * b.qty.val / (level.map fun b ↦ b.qty.val).sum).sum)
    exact List.forall₂_map_left_iff.mp h

/-! ## All levels

The supply goes through the levels in order, and each takes its demand or what is left of the
supply. The loop is described by what it hands out and by whether it has run dry. -/

variable {levels : List (List PendingBid)} {supply : Qty} {exhausted : Bool}

theorem allots_matchLevels (levels : List (List PendingBid)) (supply : Qty) (exhausted : Bool) :
    Allots levels.flatten (matchLevels levels supply exhausted).1 := by
  induction levels generalizing supply exhausted with
  | nil => exact List.Forall₂.nil
  | cons level levels ih =>
    rw [matchLevels, List.flatten_cons]
    simp only
    split_ifs with hz
    · refine List.rel_append ?_ (ih _ _)
      exact List.forall₂_map_right_iff.mpr (List.forall₂_same.mpr fun b _ ↦ Nat.zero_le _)
    · exact List.rel_append (allots_allocate _ _) (ih _ _)

private theorem val_supply_sub_allocate (level : List PendingBid) (supply : Qty) :
    (supply.saturatingSub (U64.saturate (allocate level supply.val).sum)).val =
      supply.val - demand level := by
  have := supply.val_lt
  rw [U64.val_saturatingSub, U64.val_saturate, sum_allocate]
  omega

theorem matchLevels_append (levels levels' : List (List PendingBid)) (supply : Qty)
    (exhausted : Bool) :
    matchLevels (levels ++ levels') supply exhausted =
      ((matchLevels levels supply exhausted).1 ++
          (matchLevels levels' (matchLevels levels supply exhausted).2.1
            (matchLevels levels supply exhausted).2.2).1,
        (matchLevels levels' (matchLevels levels supply exhausted).2.1
          (matchLevels levels supply exhausted).2.2).2) := by
  induction levels generalizing supply exhausted with
  | nil => rfl
  | cons level levels ih =>
    rw [List.cons_append, matchLevels, matchLevels]
    simp only
    split_ifs
    · rw [ih, List.append_assoc]
    · rw [ih, List.append_assoc]

theorem val_supply_matchLevels (levels : List (List PendingBid)) (supply : Qty) (exhausted : Bool) :
    (matchLevels levels supply exhausted).2.1.val = supply.val - demand levels.flatten := by
  induction levels generalizing supply exhausted with
  | nil => rfl
  | cons level levels ih =>
    rw [matchLevels, List.flatten_cons, demand_append]
    simp only
    split_ifs with hz
    · rw [Qty.isZero_eq_true] at hz
      rw [ih, hz, Nat.zero_sub, Nat.zero_sub]
    · rw [ih, val_supply_sub_allocate, Nat.sub_sub]

/-- **The units handed out are exactly the units deducted.** -/
theorem sum_matchLevels (levels : List (List PendingBid)) (supply : Qty) (exhausted : Bool) :
    (matchLevels levels supply exhausted).1.sum +
      (matchLevels levels supply exhausted).2.1.val = supply.val := by
  induction levels generalizing supply exhausted with
  | nil => exact Nat.zero_add _
  | cons level levels ih =>
    rw [matchLevels]
    simp only
    split_ifs with hz
    · have hzero : (level.map fun _ ↦ 0).sum = 0 := by simp
      rw [List.sum_append, hzero, Nat.zero_add]
      exact ih supply exhausted
    · have hval := val_supply_sub_allocate level supply
      have hsum := sum_allocate level supply.val
      have h := ih (supply.saturatingSub (U64.saturate (allocate level supply.val).sum))
        (Qty.isZero (supply.saturatingSub (U64.saturate (allocate level supply.val).sum)))
      rw [List.sum_append]
      simp only
      omega

theorem exhausted_matchLevels (levels : List (List PendingBid)) (hsupply : 0 < supply.val) :
    (matchLevels levels supply false).2.2 = true ↔ supply.val ≤ demand levels.flatten := by
  -- Once the supply is gone the flag keeps its value; until then it is `false`.
  have hgone : ∀ (levels : List (List PendingBid)) (s : Qty), s.val = 0 →
      (matchLevels levels s true).2.2 = true := by
    intro levels
    induction levels with
    | nil => exact fun _ _ ↦ rfl
    | cons level levels ih =>
      intro s hs
      rw [matchLevels]
      simp only
      rw [if_pos (Qty.isZero_eq_true.mpr hs)]
      exact ih s hs
  induction levels generalizing supply with
  | nil =>
    rw [List.flatten_nil, demand_nil]
    exact ⟨fun h ↦ absurd h Bool.false_ne_true, fun h ↦ absurd h (by omega)⟩
  | cons level levels ih =>
    rw [matchLevels, List.flatten_cons, demand_append]
    simp only
    rw [if_neg (by rw [Qty.isZero_eq_true]; omega)]
    have hval := val_supply_sub_allocate level supply
    cases hz : Qty.isZero (supply.saturatingSub (U64.saturate (allocate level supply.val).sum)) with
    | true =>
      rw [Qty.isZero_eq_true, hval] at hz
      exact ⟨fun _ ↦ by omega, fun _ ↦ hgone levels _ (hval.trans hz)⟩
    | false =>
      rw [Qty.isZero_eq_false] at hz
      refine (ih (by omega)).trans ?_
      rw [hval]
      omega

theorem matchLevels_eq_of_demand_le (h : demand levels.flatten ≤ supply.val) :
    (matchLevels levels supply exhausted).1 = levels.flatten.map fun b ↦ b.qty.val := by
  induction levels generalizing supply exhausted with
  | nil => rfl
  | cons level levels ih =>
    rw [List.flatten_cons, demand_append] at h
    rw [matchLevels, List.flatten_cons, List.map_append]
    simp only
    split_ifs with hz
    · rw [Qty.isZero_eq_true] at hz
      -- Nothing is left, so nothing was asked for.
      have hnone : (level.map fun _ ↦ 0) = level.map fun b ↦ b.qty.val :=
        List.map_congr_left fun b hb ↦ by
          have hle : b.qty.val ≤ demand level :=
            List.single_le_sum (fun _ _ ↦ Nat.zero_le _) _ (List.mem_map_of_mem hb)
          omega
      rw [hnone, ih (by omega)]
    · rw [ih (by rw [val_supply_sub_allocate]; omega), allocate_eq_of_demand_le (by omega)]

theorem matchLevels_fst (levels : List (List PendingBid)) (supply : Qty) (exhausted : Bool) :
    (matchLevels levels supply exhausted).1 = (matchLevels levels supply false).1 := by
  induction levels generalizing supply exhausted with
  | nil => rfl
  | cons level levels ih =>
    rw [matchLevels, matchLevels]
    simp only
    split_ifs
    · rw [ih]
    · rfl

/-! ## The bids of a window in matching order

The levels are the bids sorted by priority and then by arrival, cut where the priority changes.
Every bid is settled, and receives all it asked for unless the supply runs dry. -/

theorem flatten_priceLevels (sorted : List PendingBid) : (priceLevels sorted).flatten = sorted :=
  List.flatten_splitBy _ _

instance : Std.Total PendingBid.Precedes where
  total a b := by
    rcases lt_trichotomy a.priority b.priority with hlt | heq | hgt
    · exact Or.inr (Or.inl hlt)
    · rcases le_total a.seq b.seq with hle | hle
      · exact Or.inl (Or.inr ⟨heq, hle⟩)
      · exact Or.inr (Or.inr ⟨heq.symm, hle⟩)
    · exact Or.inl (Or.inl hgt)

instance : IsTrans PendingBid PendingBid.Precedes where
  trans a b c := by
    rintro (hab | ⟨hab, hle⟩) (hbc | ⟨hbc, hle'⟩)
    · exact Or.inl (hbc.trans hab)
    · exact Or.inl (hbc ▸ hab)
    · exact Or.inl (hab ▸ hbc)
    · exact Or.inr ⟨hab.trans hbc, hle.trans hle'⟩

theorem byPriority_sorted (bids : List PendingBid) :
    (byPriority bids).Pairwise PendingBid.Precedes :=
  List.pairwise_insertionSort _ _

theorem byPriority_perm (bids : List PendingBid) : (byPriority bids).Perm bids :=
  List.perm_insertionSort _ _

/-- The allocations of a whole window: what each bid of `bids`, in matching order, receives out of
`supply`. -/
def allocations (bids : List PendingBid) (supply : Qty) : List (PendingBid × ℕ) :=
  (byPriority bids).zip (matchLevels (priceLevels (byPriority bids)) supply false).1

private theorem allots_byPriority (bids : List PendingBid) (supply : Qty) :
    Allots (byPriority bids) (matchLevels (priceLevels (byPriority bids)) supply false).1 := by
  have h := allots_matchLevels (priceLevels (byPriority bids)) supply false
  rwa [flatten_priceLevels] at h

theorem allocations_bids_perm (bids : List PendingBid) (supply : Qty) :
    ((allocations bids supply).map Prod.fst).Perm bids := by
  rw [allocations, List.map_fst_zip (allots_byPriority bids supply).length_eq.le]
  exact byPriority_perm bids

theorem mem_of_mem_allocations {bids : List PendingBid} {supply : Qty} {ba : PendingBid × ℕ}
    (h : ba ∈ allocations bids supply) : ba.1 ∈ bids :=
  (allocations_bids_perm bids supply).mem_iff.mp (List.mem_map_of_mem h)

theorem alloc_le_qty {bids : List PendingBid} {supply : Qty} {ba : PendingBid × ℕ}
    (h : ba ∈ allocations bids supply) : ba.2 ≤ ba.1.qty.val :=
  (List.forall₂_iff_zip.mp (allots_byPriority bids supply)).2 h

theorem sum_allocations (bids : List PendingBid) (supply : Qty) :
    ((allocations bids supply).map Prod.snd).sum +
      (matchLevels (priceLevels (byPriority bids)) supply false).2.1.val = supply.val := by
  rw [allocations, List.map_snd_zip (allots_byPriority bids supply).length_eq.ge]
  exact sum_matchLevels _ _ _

theorem exhausted_iff_le_demand (bids : List PendingBid) {supply : Qty} (h : 0 < supply.val) :
    (matchLevels (priceLevels (byPriority bids)) supply false).2.2 = true ↔
      supply.val ≤ demand bids := by
  rw [exhausted_matchLevels _ h, flatten_priceLevels, demand_perm (byPriority_perm bids)]

theorem allocations_eq_of_demand_le {bids : List PendingBid} {supply : Qty}
    (h : demand bids ≤ supply.val) :
    allocations bids supply = (byPriority bids).map fun b ↦ (b, b.qty.val) := by
  have hle : demand (priceLevels (byPriority bids)).flatten ≤ supply.val := by
    rw [flatten_priceLevels, demand_perm (byPriority_perm bids)]
    exact h
  rw [allocations, matchLevels_eq_of_demand_le hle, flatten_priceLevels, zip_map_right]

/-- **A bid that receives something receives all it asked for, unless the supply is exhausted.** -/
theorem alloc_eq_qty_of_not_exhausted {bids : List PendingBid} {supply : Qty} {ba : PendingBid × ℕ}
    (h : ba ∈ allocations bids supply) (hpos : 0 < ba.2)
    (hex : (matchLevels (priceLevels (byPriority bids)) supply false).2.2 = false) :
    ba.2 = ba.1.qty.val := by
  have hsupply : 0 < supply.val := by
    have hle : ba.2 ≤ ((allocations bids supply).map Prod.snd).sum :=
      List.single_le_sum (fun _ _ ↦ Nat.zero_le _) _ (List.mem_map_of_mem h)
    have := sum_allocations bids supply
    omega
  have hle : demand bids ≤ supply.val := by
    have := mt (exhausted_iff_le_demand bids hsupply).mpr (by rw [hex]; exact Bool.false_ne_true)
    omega
  rw [allocations_eq_of_demand_le hle] at h
  obtain ⟨b, -, rfl⟩ := List.mem_map.mp h
  rfl

end DutchAuction
