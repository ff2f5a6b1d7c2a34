import DutchAuction.Core.Levels
import DutchAuction.Core.Pricing

/-!
# Window matching meets its specification

A window is cut at a price into the bids above it, the level at it and the bids below
(`allocations_at`). Each part is matched with what the parts before it left, so what a bid receives
depends only on its own level and on how much is asked for above it. The level that cannot be served
in full is the prefix of its bids in order of arrival with one unit more than their share, and the
rest with their share (`allocations_of_short`).

`Matched` states what a matching has to do without saying how, and `flush_matched` that a flush does
it and answers accordingly.
-/

namespace DutchAuction

variable {bids l : List PendingBid} {supply : Qty} {price : Price}

/-! ## The three parts of a window

The specification reads a window at one of its prices: what competes above it is served first, what
competes at it is served out of what is left, and what competes below it comes last. -/

/-- The bids of a window at a price. -/
def levelAt (price : Price) (bids : List PendingBid) : List PendingBid :=
  bids.filter fun b ↦ b.priority = price

/-- The bids of a window below a price. -/
def below (price : Price) (bids : List PendingBid) : List PendingBid :=
  bids.filter fun b ↦ b.priority < price

theorem allocations_cut (p : PendingBid → Bool) (bids : List PendingBid) (supply : Qty)
    (h : ∀ a ∈ bids, ∀ b ∈ bids, p a = true → p b = false → b.priority < a.priority) :
    ∃ left : Qty, left.val = supply.val - demand (bids.filter p) ∧
      allocations bids supply =
        allocations (bids.filter p) supply ++ allocations (bids.filter fun b ↦ !p b) left := by
  refine ⟨(matchLevels (priceLevels (byPriority (bids.filter p))) supply false).2.1, ?_, ?_⟩
  · rw [val_supply_matchLevels, flatten_priceLevels, demand_perm (byPriority_perm _)]
  · have hlength := (allots_matchLevels (priceLevels (byPriority (bids.filter p))) supply
      false).length_eq
    rw [flatten_priceLevels] at hlength
    rw [allocations, priceLevels_cut p bids h, byPriority_cut p bids h, matchLevels_append,
      List.zip_append hlength, matchLevels_fst _ _
        (matchLevels (priceLevels (byPriority (bids.filter p))) supply false).2.2]
    rfl

/-- **A window cut at a price**: above it, at it, below it. -/
theorem allocations_at (price : Price) (bids : List PendingBid) (supply : Qty) :
    ∃ left rest : Qty, left.val = supply.val - demand (above price bids) ∧
      rest.val = left.val - demand (levelAt price bids) ∧
      allocations bids supply = allocations (above price bids) supply ++
        (allocations (levelAt price bids) left ++ allocations (below price bids) rest) := by
  obtain ⟨left, hleft, hfirst⟩ := allocations_cut (fun b ↦ decide (price < b.priority)) bids supply
    fun a _ b _ ha hb ↦ (not_lt.mp (of_decide_eq_false hb)).trans_lt (of_decide_eq_true ha)
  obtain ⟨rest, hrest, hsecond⟩ := allocations_cut (fun b ↦ decide (b.priority = price))
    (upTo price bids) left fun a ha b hb hat hnot ↦ by
      have hle := (List.mem_filter.mp hb).2
      have hat := of_decide_eq_true hat
      have hnot := of_decide_eq_false hnot
      rw [Bool.not_eq_true', decide_eq_false_iff_not, not_lt] at hle
      rw [hat]
      exact lt_of_le_of_ne hle hnot
  have hlevel : (upTo price bids).filter (fun b ↦ decide (b.priority = price)) =
      levelAt price bids := by
    unfold upTo levelAt
    rw [List.filter_filter]
    refine List.filter_congr fun b _ ↦ ?_
    by_cases heq : b.priority = price
    · simp [heq]
    · simp [heq]
  have hbelow : (upTo price bids).filter (fun b ↦ !decide (b.priority = price)) =
      below price bids := by
    unfold upTo below
    rw [List.filter_filter]
    refine List.filter_congr fun b _ ↦ ?_
    rw [Bool.eq_iff_iff]
    simp only [Bool.and_eq_true, Bool.not_eq_true', decide_eq_false_iff_not, decide_eq_true_iff,
      not_lt]
    exact ⟨fun h ↦ lt_of_le_of_ne h.2 h.1, fun h ↦ ⟨h.ne, h.le⟩⟩
  rw [hlevel] at hrest hsecond
  rw [hbelow] at hsecond
  exact ⟨left, rest, hleft, hrest, hfirst.trans (congrArg _ hsecond)⟩

theorem priority_of_mem_allocations {p : PendingBid → Bool} {ba : PendingBid × ℕ}
    (h : ba ∈ allocations (bids.filter p) supply) : p ba.1 = true :=
  (List.mem_filter.mp (mem_of_mem_allocations h)).2

/-! ## A level that cannot be served in full

Its bids each receive the rounded share, and what rounding leaves over goes out one unit at a time
from the first bid on. Every bid of the level is short of what it asks for, so none is passed over.
-/

private theorem topUp_eq (l : List (ℕ × PendingBid)) (left : ℕ) (h : ∀ e ∈ l, e.1 < e.2.qty.val) :
    topUp l left = (l.take left).map (fun e ↦ e.1 + 1) ++ (l.drop left).map Prod.fst := by
  induction l generalizing left with
  | nil => simp [topUp]
  | cons e rest ih =>
    obtain ⟨a, b⟩ := e
    rw [topUp]
    split_ifs with hleft hlt
    · rw [hleft]
      rfl
    · obtain ⟨n, rfl⟩ := Nat.exists_eq_succ_of_ne_zero hleft
      rw [ih _ fun e he ↦ h e (List.mem_cons_of_mem _ he)]
      rfl
    · exact absurd (h _ List.mem_cons_self) hlt

/-- **The level that cannot be served in full**: in order of arrival, the first bids receive one
unit more than their share and the others their share. -/
theorem allocations_of_short (price : Price) (hlevel : ∀ b ∈ l, b.priority = price)
    (hqty : ∀ b ∈ l, 0 < b.qty.val) (hshort : supply.val < demand l) :
    ∃ k, allocations l supply =
      ((byPriority l).take k).map (fun b ↦ (b, supply.val * b.qty.val / demand l + 1)) ++
        ((byPriority l).drop k).map (fun b ↦ (b, supply.val * b.qty.val / demand l)) := by
  have hmem : ∀ b ∈ byPriority l, b ∈ l := fun b hb ↦ (byPriority_perm l).mem_iff.mp hb
  have hdemand : demand (byPriority l) = demand l := demand_perm (byPriority_perm l)
  unfold allocations
  rw [matchLevels_of_priority_eq fun b hb ↦ hlevel b (hmem b hb)]
  by_cases hnone : byPriority l = [] ∨ Qty.isZero supply = true
  · rw [if_pos hnone]
    refine ⟨0, ?_⟩
    rcases hnone with hnil | hzero
    · rw [hnil]
      rfl
    · -- Nothing is left, and a share of nothing is nothing.
      rw [Qty.isZero_eq_true.mp hzero, List.take_zero, List.drop_zero, List.map_nil,
        List.nil_append, zip_map_right]
      refine List.map_congr_left fun b _ ↦ ?_
      simp
  · rw [if_neg hnone]
    refine ⟨supply.val - ((byPriority l).map fun b ↦ supply.val * b.qty.val / demand l).sum, ?_⟩
    have halloc : allocate (byPriority l) supply.val =
        topUp ((byPriority l).map fun b ↦ (supply.val * b.qty.val / demand l, b))
          (supply.val - ((byPriority l).map fun b ↦ supply.val * b.qty.val / demand l).sum) := by
      have hlt : ¬demand (byPriority l) ≤ supply.val := by omega
      unfold allocate
      dsimp only
      rw [if_neg (show ¬((byPriority l).map fun b ↦ b.qty.val).sum ≤ supply.val from hlt),
        zip_map_left, ← hdemand]
      rfl
    have hsum : supply.val < (l.map fun b : PendingBid ↦ b.qty.val).sum := hshort
    have hshare : ∀ e ∈ (byPriority l).map (fun b ↦ (supply.val * b.qty.val / demand l, b)),
        e.1 < e.2.qty.val := by
      intro e he
      obtain ⟨b, hb, rfl⟩ := List.mem_map.mp he
      exact Prorata.share_lt supply.val _ hsum (hqty b (hmem b hb))
    rw [halloc, topUp_eq _ _ hshare]
    generalize supply.val - ((byPriority l).map fun b ↦ supply.val * b.qty.val / demand l).sum = k
    have hlen : ((byPriority l).take k).length =
        (((byPriority l).take k).map fun b ↦ supply.val * b.qty.val / demand l + 1).length :=
      (List.length_map _).symm
    have hzip := @List.zip_append _ _ _ ((byPriority l).drop k) _
      (((byPriority l).drop k).map fun b ↦ supply.val * b.qty.val / demand l) hlen
    rw [List.take_append_drop, zip_map_right, zip_map_right] at hzip
    rw [← List.map_take, ← List.map_drop, List.map_map, List.map_map]
    exact hzip

/-! ## The specification

A bid is served in full, or it is in a level that cannot be and behind which nothing is left. The
units handed out are the demand, or all there is. -/

/-- What is left for the bids at a price once those above it are served. -/
def leftAt (bids : List PendingBid) (supply : ℕ) (price : Price) : ℕ :=
  supply - demand (above price bids)

/-- What a bid of a level is due by its quantity alone. -/
def dueAt (bids : List PendingBid) (supply : ℕ) (b : PendingBid) : ℕ :=
  leftAt bids supply b.priority * b.qty.val / demand (levelAt b.priority bids)

/-- What matching a window against a supply has to do. -/
structure Matched (bids : List PendingBid) (supply : ℕ) (pairs : List (PendingBid × ℕ)) : Prop where
  once : (pairs.map Prod.fst).Perm bids
  within : ∀ ba ∈ pairs, ba.2 ≤ ba.1.qty.val
  total : (pairs.map Prod.snd).sum = min supply (demand bids)
  /-- Nothing goes to a level below a bid that is left short. -/
  lower : ∀ ba ∈ pairs, ba.2 < ba.1.qty.val → ∀ cb ∈ pairs, cb.1.priority < ba.1.priority → cb.2 = 0
  /-- Every level above a bid that receives something is filled in full. -/
  higher : ∀ ba ∈ pairs, 0 < ba.2 → ∀ cb ∈ pairs, ba.1.priority < cb.1.priority →
    cb.2 = cb.1.qty.val
  /-- A level receives what is left for it, or what it asks for. -/
  level : ∀ price, ((pairs.filter fun ba ↦ ba.1.priority = price).map Prod.snd).sum =
    min (leftAt bids supply price) (demand (levelAt price bids))
  /-- A level that cannot be served in full is shared in proportion, up to one unit. -/
  shared : ∀ ba ∈ pairs, leftAt bids supply ba.1.priority < demand (levelAt ba.1.priority bids) →
    ba.2 = dueAt bids supply ba.1 ∨ ba.2 = dueAt bids supply ba.1 + 1
  /-- The extra units go to those who came first. -/
  first : ∀ ba ∈ pairs, leftAt bids supply ba.1.priority < demand (levelAt ba.1.priority bids) →
    ba.2 = dueAt bids supply ba.1 + 1 → ∀ cb ∈ pairs, cb.1.priority = ba.1.priority →
      cb.1.seq < ba.1.seq → cb.2 = dueAt bids supply cb.1 + 1

private theorem allocations_level (hqty : ∀ b ∈ bids, 0 < b.qty.val) (price : Price) (left : Qty) :
    (demand (levelAt price bids) ≤ left.val ∧ allocations (levelAt price bids) left =
        (byPriority (levelAt price bids)).map fun b ↦ (b, b.qty.val)) ∨
      left.val < demand (levelAt price bids) ∧ ∃ k, allocations (levelAt price bids) left =
        ((byPriority (levelAt price bids)).take k).map (fun b ↦
          (b, left.val * b.qty.val / demand (levelAt price bids) + 1)) ++
        ((byPriority (levelAt price bids)).drop k).map (fun b ↦
          (b, left.val * b.qty.val / demand (levelAt price bids))) := by
  rcases le_or_gt (demand (levelAt price bids)) left.val with hle | hlt
  · exact Or.inl ⟨hle, allocations_eq_of_demand_le hle⟩
  · refine Or.inr ⟨hlt, allocations_of_short price (fun b hb ↦ ?_) (fun b hb ↦ ?_) hlt⟩
    · exact of_decide_eq_true (List.mem_filter.mp hb).2
    · exact hqty b (List.mem_filter.mp hb).1

private theorem eq_zero_of_mem_allocations {ba : PendingBid × ℕ} (h : ba ∈ allocations bids supply)
    (hzero : supply.val = 0) : ba.2 = 0 := by
  have hle : ba.2 ≤ ((allocations bids supply).map Prod.snd).sum :=
    List.single_le_sum (fun _ _ ↦ Nat.zero_le _) _ (List.mem_map_of_mem h)
  have := sum_allocations bids supply
  omega

theorem sum_snd_allocations (bids : List PendingBid) (supply : Qty) :
    ((allocations bids supply).map Prod.snd).sum = min supply.val (demand bids) := by
  have hsum := sum_allocations bids supply
  have hleft := val_supply_matchLevels (priceLevels (byPriority bids)) supply false
  rw [flatten_priceLevels, demand_perm (byPriority_perm bids)] at hleft
  omega

/-- **The matching loop meets the specification.** -/
theorem matched_allocations (hqty : ∀ b ∈ bids, 0 < b.qty.val) (supply : Qty) :
    Matched bids supply.val (allocations bids supply) := by
  -- What there is to know about one bid comes from the window cut at its price.
  have hcut : ∀ b a, (b, a) ∈ allocations bids supply → ∃ left rest : Qty,
      left.val = leftAt bids supply.val b.priority ∧
      rest.val = left.val - demand (levelAt b.priority bids) ∧
      (b, a) ∈ allocations (levelAt b.priority bids) left ∧
      ∀ cb ∈ allocations bids supply,
        (b.priority < cb.1.priority → cb ∈ allocations (above b.priority bids) supply) ∧
        (cb.1.priority = b.priority → cb ∈ allocations (levelAt b.priority bids) left) ∧
        (cb.1.priority < b.priority → cb ∈ allocations (below b.priority bids) rest) := by
    intro b a hba
    obtain ⟨left, rest, hleft, hrest, hparts⟩ := allocations_at b.priority bids supply
    have hwhere : ∀ cb ∈ allocations bids supply,
        (b.priority < cb.1.priority → cb ∈ allocations (above b.priority bids) supply) ∧
        (cb.1.priority = b.priority → cb ∈ allocations (levelAt b.priority bids) left) ∧
        (cb.1.priority < b.priority → cb ∈ allocations (below b.priority bids) rest) := by
      intro cb hcb
      rw [hparts, List.mem_append, List.mem_append] at hcb
      rcases hcb with hcb | hcb | hcb
      · have hpriority := of_decide_eq_true (priority_of_mem_allocations hcb)
        exact ⟨fun _ ↦ hcb, fun heq ↦ absurd heq hpriority.ne',
          fun hlt ↦ absurd hlt hpriority.asymm⟩
      · have hpriority := of_decide_eq_true (priority_of_mem_allocations hcb)
        exact ⟨fun hlt ↦ absurd hpriority hlt.ne', fun _ ↦ hcb, fun hlt ↦ absurd hpriority hlt.ne⟩
      · have hpriority := of_decide_eq_true (priority_of_mem_allocations hcb)
        exact ⟨fun hlt ↦ absurd hlt hpriority.asymm, fun heq ↦ absurd heq hpriority.ne, fun _ ↦ hcb⟩
    exact ⟨left, rest, hleft, hrest, (hwhere _ hba).2.1 rfl, hwhere⟩
  refine
    { once := allocations_bids_perm bids supply
      within := fun ba hba ↦ alloc_le_qty hba
      total := sum_snd_allocations bids supply
      lower := ?_
      higher := ?_
      level := fun price ↦ ?_
      shared := ?_
      first := ?_ }
  · rintro ⟨b, a⟩ hba hshort cb hcb hlt
    obtain ⟨left, rest, -, hrest, hat, hwhere⟩ := hcut b a hba
    refine eq_zero_of_mem_allocations ((hwhere cb hcb).2.2 hlt) ?_
    rcases allocations_level hqty b.priority left with ⟨-, hfull⟩ | ⟨hlevel, -⟩
    · rw [hfull] at hat
      obtain ⟨c, -, heq⟩ := List.mem_map.mp hat
      cases heq
      exact absurd hshort (lt_irrefl _)
    · omega
  · rintro ⟨b, a⟩ hba hpos cb hcb hlt
    obtain ⟨left, rest, hleft, -, hat, hwhere⟩ := hcut b a hba
    have hsome : left.val ≠ 0 := fun hzero ↦ hpos.ne' (eq_zero_of_mem_allocations hat hzero)
    have hcovered : demand (above b.priority bids) ≤ supply.val := by
      unfold leftAt at hleft
      omega
    have habove := (hwhere cb hcb).1 hlt
    rw [allocations_eq_of_demand_le hcovered] at habove
    obtain ⟨c, -, rfl⟩ := List.mem_map.mp habove
    rfl
  · obtain ⟨left, rest, hleft, -, hparts⟩ := allocations_at price bids supply
    have hone : (allocations bids supply).filter (fun ba ↦ ba.1.priority = price) =
        allocations (levelAt price bids) left := by
      have habove : (allocations (above price bids) supply).filter
          (fun ba ↦ ba.1.priority = price) = [] := List.filter_eq_nil_iff.mpr fun ba hba ↦ by
        have hpriority := of_decide_eq_true (priority_of_mem_allocations hba)
        simpa using hpriority.ne'
      have hlevel : (allocations (levelAt price bids) left).filter
          (fun ba ↦ ba.1.priority = price) = allocations (levelAt price bids) left :=
        List.filter_eq_self.mpr fun ba hba ↦ priority_of_mem_allocations hba
      have hbelow : (allocations (below price bids) rest).filter
          (fun ba ↦ ba.1.priority = price) = [] := List.filter_eq_nil_iff.mpr fun ba hba ↦ by
        have hpriority := of_decide_eq_true (priority_of_mem_allocations hba)
        simpa using hpriority.ne
      rw [hparts, List.filter_append, List.filter_append, habove, hlevel, hbelow, List.nil_append,
        List.append_nil]
    rw [hone, sum_snd_allocations, leftAt, hleft]
  · rintro ⟨b, a⟩ hba hleft
    obtain ⟨left, rest, hval, -, hat, -⟩ := hcut b a hba
    dsimp only at hleft ⊢
    rcases allocations_level hqty b.priority left with ⟨hle, -⟩ | ⟨-, k, hshares⟩
    · omega
    · rw [hshares, List.mem_append] at hat
      rw [dueAt, ← hval]
      rcases hat with hat | hat
      · obtain ⟨c, -, heq⟩ := List.mem_map.mp hat
        cases heq
        exact Or.inr rfl
      · obtain ⟨c, -, heq⟩ := List.mem_map.mp hat
        cases heq
        exact Or.inl rfl
  · rintro ⟨b, a⟩ hba hleft hextra ⟨c, x⟩ hcb hsame hseq
    obtain ⟨left, rest, hval, -, hat, hwhere⟩ := hcut b a hba
    have hcat := (hwhere _ hcb).2.1 hsame
    dsimp only at hleft hextra hsame hseq ⊢
    rcases allocations_level hqty b.priority left with ⟨hle, -⟩ | ⟨-, k, hshares⟩
    · omega
    · have hsorted := byPriority_sorted (levelAt b.priority bids)
      rw [← List.take_append_drop k (byPriority _)] at hsorted
      rw [hshares, List.mem_append] at hat hcat
      rw [dueAt, ← hval] at hextra
      rw [dueAt, hsame, ← hval]
      rcases hcat with hcat | hcat
      · obtain ⟨d, -, heq⟩ := List.mem_map.mp hcat
        cases heq
        rfl
      · -- Otherwise the one that came first is behind the one with the extra unit.
        exfalso
        obtain ⟨d, hd, heq⟩ := List.mem_map.mp hcat
        cases heq
        rcases hat with hat | hat
        · obtain ⟨e, he, heq⟩ := List.mem_map.mp hat
          cases heq
          rcases (List.pairwise_append.mp hsorted).2.2 b he c hd with hlt | ⟨-, hle⟩
          · exact hlt.ne hsame
          · exact absurd hseq (not_lt.mpr hle)
        · obtain ⟨e, -, heq⟩ := List.mem_map.mp hat
          cases heq
          omega

/-! ## A flush

A flush answers each bid of its window once. The clearing that may follow moves fills and turns
away what rests; it fills nobody and refuses nobody of the window for want of supply. -/

/-- What a bid is answered for what it was allotted in a window at this price. -/
def Answered (price : Price) (ba : PendingBid × ℕ) (e : Event) : Prop :=
  if 0 < ba.2 then
    ∃ f : Fill, e = .filled f ∧ f.seq = ba.1.seq ∧ f.participant = ba.1.participant ∧
      f.key = ba.1.key ∧ f.qty.val = ba.2 ∧ f.price = price
  else e = .rejected ba.1.key .supplyExhausted

/-- What a fill allots to its key. -/
def Fill.allotment (f : Fill) : IdempotencyKey × ℕ := (f.key, f.qty.val)

theorem allotment_fillsOf {id : FillId} {l : List (PendingBid × ℕ)}
    (h : ∀ ba ∈ l, ba.2 ≤ ba.1.qty.val) :
    (fillsOf price id l).map Fill.allotment =
      (l.filter fun ba ↦ 0 < ba.2).map fun ba ↦ (ba.1.key, ba.2) := by
  induction l generalizing id with
  | nil => rfl
  | cons ba l ih =>
    obtain ⟨b, a⟩ := ba
    have hrest := fun id ↦ @ih id fun ba hba ↦ h ba (List.mem_cons_of_mem _ hba)
    have hfit : a < 2 ^ 64 := (h _ List.mem_cons_self).trans_lt b.qty.val_lt
    rw [fillsOf]
    split_ifs with hz
    · rw [hrest, List.filter_cons_of_neg (by simp [hz])]
    · rw [List.map_cons, hrest, List.filter_cons_of_pos (by simpa using Nat.pos_of_ne_zero hz),
        List.map_cons]
      unfold Fill.allotment
      dsimp only
      rw [U64.val_saturate_of_lt hfit]

namespace AuctionState

variable {s : AuctionState} {w : OpenWindow}

private theorem answered_settle (exhausted : Bool) {ba : PendingBid × ℕ}
    (hfit : ba.2 ≤ ba.1.qty.val) (s : AuctionState) :
    ∃ e, (s.settle price exhausted ba).2 = [e] ∧ Answered price ba e := by
  have hlt : ba.2 < 2 ^ 64 := hfit.trans_lt ba.1.qty.val_lt
  unfold settle Answered
  dsimp only
  by_cases hz : Qty.isZero (U64.saturate ba.2) = true
  · have hnone : ¬0 < ba.2 := by rw [isZero_saturate.mp hz]; exact lt_irrefl 0
    rw [if_pos hz]
    refine ⟨_, rfl, ?_⟩
    rw [if_neg hnone]
  · have hpos : 0 < ba.2 := Nat.pos_of_ne_zero fun h ↦ hz (isZero_saturate.mpr h)
    rw [if_neg hz]
    refine ⟨_, rfl, ?_⟩
    rw [if_pos hpos]
    exact ⟨_, rfl, rfl, rfl, rfl, U64.val_saturate_of_lt hlt, rfl⟩

private theorem answered_settle_loop (exhausted : Bool) {l : List (PendingBid × ℕ)}
    (hfit : ∀ ba ∈ l, ba.2 ≤ ba.1.qty.val) (s : AuctionState) :
    List.Forall₂ (Answered price) l (Emit.forEach (settle price exhausted) l s).2 := by
  induction l generalizing s with
  | nil => exact List.Forall₂.nil
  | cons ba l ih =>
    obtain ⟨e, he, hanswered⟩ := s.answered_settle exhausted (hfit ba List.mem_cons_self)
    rw [Emit.forEach_cons_snd, he]
    exact List.Forall₂.cons hanswered (ih (fun ba hba ↦ hfit ba (List.mem_cons_of_mem _ hba)) _)

private theorem not_answered_clear {e : Event} (h : e ∈ (s.clear price).2) :
    (∀ f, e ≠ .filled f) ∧ ∀ key, e ≠ .rejected key .supplyExhausted := by
  refine ⟨fun f heq ↦ not_filled_mem_clear (heq ▸ h), fun key heq ↦ ?_⟩
  rcases mem_clear h with ⟨f, -, -, hrepriced⟩ | ⟨key', hrejected⟩ | ⟨filled, unsold, hcleared⟩
  · rw [heq] at hrepriced
    cases hrepriced
  · rw [heq] at hrejected
    cases hrejected
  · rw [heq] at hcleared
    cases hcleared

/-- **Window matching meets its specification.** With supply left, a flush hands out the supply as
`Matched` says, and answers each bid of the window with what it received, in matching order; the
fills it makes are these. Nobody else is filled or refused for want of supply, and nobody is refused
for it unless the flush ends with nothing left and clears the auction. -/
theorem flush_matched (hw : s.window = some w) (hlive : s.status = .live)
    (hsupply : 0 < s.supplyRemaining.val) (hqty : ∀ b ∈ w.bids, 0 < b.qty.val) :
    Matched w.bids s.supplyRemaining.val (allocations w.bids s.supplyRemaining) ∧
      (∃ answers others, s.flushWindow.2 = answers ++ others ∧
        List.Forall₂ (Answered w.price) (allocations w.bids s.supplyRemaining) answers ∧
        ∀ e ∈ others, (∀ f, e ≠ .filled f) ∧ ∀ key, e ≠ .rejected key .supplyExhausted) ∧
      s.flushWindow.1.fills.map Fill.allotment = s.fills.map Fill.allotment ++
        ((allocations w.bids s.supplyRemaining).filter fun ba ↦ 0 < ba.2).map
          (fun ba ↦ (ba.1.key, ba.2)) ∧
      s.flushWindow.1.supplyRemaining.val = s.supplyRemaining.val - demand w.bids ∧
      ∀ key, .rejected key .supplyExhausted ∈ s.flushWindow.2 →
        s.flushWindow.1.supplyRemaining.val = 0 ∧ s.flushWindow.1.status = .cleared := by
  have hmatched := matched_allocations hqty s.supplyRemaining
  have hfit : ∀ ba ∈ allocations w.bids s.supplyRemaining, ba.2 ≤ ba.1.qty.val := hmatched.within
  have hbare := bare_flushWindow_live hw hlive
  have hexhausts : s.Exhausts w ↔ s.supplyRemaining.val ≤ demand w.bids :=
    exhausted_iff_le_demand w.bids hsupply
  have hremaining : (s.supplyAfter w).val = s.supplyRemaining.val - demand w.bids := by
    rw [supplyAfter, val_supply_matchLevels, flatten_priceLevels,
      demand_perm (byPriority_perm w.bids)]
  have hloop : List.Forall₂ (Answered w.price) (allocations w.bids s.supplyRemaining)
      (s.settling w).2 := answered_settle_loop _ hfit _
  obtain ⟨others, hevents, hothers⟩ : ∃ others, s.flushWindow.2 = (s.settling w).2 ++ others ∧
      ∀ e ∈ others, (∀ f, e ≠ .filled f) ∧ ∀ key, e ≠ .rejected key .supplyExhausted := by
    rcases s.flushWindow_cases with ⟨hnone, -⟩ | ⟨w', -, hstatus, -⟩ | ⟨w', hw', -, hflush⟩
    · rw [hw] at hnone
      cases hnone
    · exact absurd hlive hstatus
    · rw [hw] at hw'
      cases hw'
      rw [hflush, Emit.andThen_snd]
      split_ifs
      · exact ⟨_, rfl, fun e he ↦ not_answered_clear he⟩
      · exact ⟨[], rfl, fun e he ↦ absurd he List.not_mem_nil⟩
  have hsettled : (s.fills ++ s.windowFills w).map Fill.allotment = s.fills.map Fill.allotment ++
      ((allocations w.bids s.supplyRemaining).filter fun ba ↦ 0 < ba.2).map
        (fun ba ↦ (ba.1.key, ba.2)) := by
    rw [List.map_append, windowFills, allotment_fillsOf hfit]
  refine ⟨hmatched, ⟨_, others, hevents, hloop, hothers⟩, ?_, ?_, fun key hkey ↦ ?_⟩
  · rw [← hsettled]
    split_ifs at hbare
    · rw [bare_clear] at hbare
      have hfills := congrArg AuctionState.fills hbare
      have hset := congrArg AuctionState.fills (s.bare_settled w)
      have hfills : s.flushWindow.1.fills = (s.settled w).fills.map (Fill.at w.price) := hfills
      have hset : (s.settled w).fills = s.fills ++ s.windowFills w := hset
      rw [hfills, hset, List.map_map]
      rfl
    · rw [bare_settled] at hbare
      have hfills := congrArg AuctionState.fills hbare
      have hfills : s.flushWindow.1.fills = s.fills ++ s.windowFills w := hfills
      rw [hfills]
  · rw [← hremaining]
    split_ifs at hbare
    · rw [bare_clear] at hbare
      have hleft := congrArg AuctionState.supplyRemaining hbare
      have hset := congrArg AuctionState.supplyRemaining (s.bare_settled w)
      exact congrArg U64.val (hleft.trans hset)
    · rw [bare_settled] at hbare
      have hleft := congrArg AuctionState.supplyRemaining hbare
      exact congrArg U64.val hleft
  · -- The one refused received nothing, so less was handed out than asked for.
    rw [hevents, List.mem_append] at hkey
    have hkey := hkey.resolve_right fun h ↦ (hothers _ h).2 key rfl
    obtain ⟨ba, hba, s', hsettle⟩ := Emit.exists_of_mem_forEach_snd hkey
    obtain ⟨e, he, hanswered⟩ := s'.answered_settle _ (hfit ba hba)
    rw [he, List.mem_singleton] at hsettle
    rw [← hsettle] at hanswered
    have hnone : ba.2 = 0 := by
      unfold Answered at hanswered
      split_ifs at hanswered with hpos
      · obtain ⟨f, hf, -⟩ := hanswered
        cases hf
      · omega
    have hshort : s.supplyRemaining.val ≤ demand w.bids := by
      by_contra hlt
      have hfull :=
        allocations_eq_of_demand_le (show demand w.bids ≤ s.supplyRemaining.val by omega)
      rw [hfull] at hba
      obtain ⟨b, hb, rfl⟩ := List.mem_map.mp hba
      exact (hqty b ((byPriority_perm _).mem_iff.mp hb)).ne' hnone
    rw [if_pos (hexhausts.mpr hshort), bare_clear] at hbare
    have hstatus := congrArg AuctionState.status hbare
    have hleft := congrArg AuctionState.supplyRemaining hbare
    have hset := congrArg AuctionState.supplyRemaining (s.bare_settled w)
    refine ⟨?_, hstatus⟩
    have hval := congrArg U64.val (hleft.trans hset)
    have hval : s.flushWindow.1.supplyRemaining.val = (s.supplyAfter w).val := hval
    omega

/-- All ten units go to the bid at 950, and the one at 940 is refused. -/
theorem flush_matched_sample :
    ∃ s : AuctionState, s = (play (.sample (U64.lit 10000000000)) crowdedRecords).2 ∧
      Matched crowdedWindow.bids 10 (allocations crowdedWindow.bids s.supplyRemaining) ∧
      s.flushWindow.1.supplyRemaining.val = 0 ∧
      .rejected 102 .supplyExhausted ∈ s.flushWindow.2 := by
  refine ⟨_, rfl, ?_, ?_, by decide⟩
  · exact (flush_matched (s := (play (.sample (U64.lit 10000000000)) crowdedRecords).2)
      (w := crowdedWindow) (by decide) (by decide) (by decide) (by decide)).1
  · exact ((flush_matched (s := (play (.sample (U64.lit 10000000000)) crowdedRecords).2)
      (w := crowdedWindow) (by decide) (by decide) (by decide) (by decide)).2.2.2.2 102
        (by decide)).1

/-- The bid at 940 is left short, and the one above it is not filled in full. -/
theorem higher_level_left_short :
    ¬∀ (s : AuctionState) (w : OpenWindow), s.window = some w → s.status = .live →
      0 < s.supplyRemaining.val → (∀ b ∈ w.bids, 0 < b.qty.val) →
      ∀ ba ∈ allocations w.bids s.supplyRemaining, ba.2 < ba.1.qty.val →
        ∀ cb ∈ allocations w.bids s.supplyRemaining,
          (cb.1.priority < ba.1.priority → cb.2 = 0) ∧
            (ba.1.priority < cb.1.priority → cb.2 = cb.1.qty.val) := by
  intro h
  have hcase := h (play (.sample (U64.lit 10000000000)) crowdedRecords).2 crowdedWindow (by decide)
    (by decide) (by decide) (by decide)
  revert hcase
  decide

end AuctionState

end DutchAuction
