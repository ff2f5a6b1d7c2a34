import DutchAuction.Core.Checked
import DutchAuction.Core.Withdrawal

/-!
# The state machine never stops

The program with everything it could stop at (`DutchAuction.Core.Checked`) computes what the program
does (`DutchAuction.Core.State`), in every state a run reaches. So no operation of it leaves the
range of its words, no divisor is zero, no clamp is crossed and no assertion fails.

Most of what this takes is known: how the price falls, that the shares of a level never overspend
what remains, that the units are conserved. What is added is about the book (`Book.Fits`): the cost
of every live bid and of every fill is a word, and no more bids are live than commands were applied,
so that the demand of a window fits twice the width of a quantity. -/

namespace DutchAuction

namespace Checked

open Stopping (fits fitsSigned sub div tdiv sum check)

/-! ## The price clock

Each checked operation has an equation: under the bounds that the invariants give, it does not stop
and gives what the model gives. -/

section Clock

variable {s : PriceSchedule}

theorem clampTo_eq (h : s.Constructed) (p : Price) :
    clampTo p s.floorPrice s.startPrice = some (Price.clampTo p s.floorPrice s.startPrice) := by
  rw [clampTo, Stopping.check_eq h.floor_le_start]
  rfl

theorem divU64_eq {a b : U64} (h : b.val ≠ 0) : divU64 a b = some (a.div b) := by
  rw [divU64, Stopping.check_eq h]
  rfl

theorem tdiv_eq {width : ℕ} {a b : ℤ} (ha : 0 ≤ a) (hb : 0 < b) (hfits : a < 2 ^ (width - 1)) :
    tdiv width a b = some (a.tdiv b) := by
  have hle : a.tdiv b ≤ a := by
    rw [Int.tdiv_eq_ediv_of_nonneg ha]
    exact Int.ediv_le_self b ha
  have hnonneg : 0 ≤ a.tdiv b := Int.tdiv_nonneg ha hb.le
  have hneg : (-2 ^ (width - 1) : ℤ) ≤ 0 := by
    rw [neg_nonpos]
    positivity
  rw [tdiv, if_neg hb.ne']
  exact Stopping.fitsSigned_eq (hneg.trans hnonneg) (hle.trans_lt hfits)

theorem ceilDiv_eq {n d : ℤ} (hn : 0 ≤ n) (hd : 0 < d) (hfits : n + d < 2 ^ 127) :
    ceilDiv n d = some (DutchAuction.ceilDiv n d) := by
  rw [ceilDiv, Stopping.check_eq ⟨hn, hd⟩, Stopping.fitsSigned_eq (by omega) hfits]
  show (fitsSigned 128 (n + d - 1)).bind _ = _
  rw [Stopping.fitsSigned_eq (by omega) (by omega)]
  exact tdiv_eq (by omega) hd (by omega)

theorem priceAt_eq (h : s.Constructed) (elapsed : Nanos) :
    priceAt s elapsed = some (s.priceAt elapsed) := by
  rw [priceAt, PriceSchedule.priceAt]
  cases hkind : s.kind with
  | stepped stepDuration stepSize =>
    dsimp only
    split_ifs with hzero
    · rfl
    · rw [divU64_eq hzero]
      exact clampTo_eq h _
  | linear ratePerSec =>
    have hrate := h.rate_nonneg hkind
    have hproduct : 0 ≤ (elapsed.val : ℤ) * ratePerSec.val := by positivity
    dsimp only
    rw [tdiv_eq (by rw [i128SaturatingMul]; omega) (by norm_num) (by rw [i128SaturatingMul]; omega)]
    exact clampTo_eq h _

theorem atFloor_eq (h : s.Constructed) (elapsed : Nanos) :
    atFloor s elapsed = some (s.atFloor elapsed) := by
  rw [atFloor, priceAt_eq h]
  rfl

theorem timeToReach_eq (h : s.Constructed) (hfloor : 0 ≤ s.floorPrice.val) (target : Price) :
    timeToReach s target = some (s.timeToReach target) := by
  rw [timeToReach, PriceSchedule.timeToReach]
  by_cases habove : target > s.startPrice
  · rw [if_pos habove, if_pos habove]
  rw [if_neg habove, if_neg habove]
  by_cases hbelow : target < s.floorPrice
  · rw [if_pos hbelow, if_pos hbelow]
  rw [if_neg hbelow, if_neg hbelow]
  have hle : target.val ≤ s.startPrice.val := I64.le_def.mp (not_lt.mp habove)
  have hge : s.floorPrice.val ≤ target.val := I64.le_def.mp (not_lt.mp hbelow)
  have hstart := s.startPrice.val_lt
  have hdrop : (s.startPrice.saturatingSub target).val = s.startPrice.val - target.val :=
    I64.val_saturate_of_mem (by omega) (by omega)
  cases hkind : s.kind with
  | stepped stepDuration stepSize =>
    have hsize := h.stepSize_nonneg hkind
    have hlt := stepSize.val_lt
    dsimp only
    split_ifs with hzero hzero'
    · rfl
    · rfl
    · rw [ceilDiv_eq (by omega) (by omega) (by omega)]
      rfl
  | linear ratePerSec =>
    have hrate := h.rate_nonneg hkind
    have hlt := ratePerSec.val_lt
    dsimp only
    split_ifs with hzero hzero'
    · rfl
    · rfl
    · rw [ceilDiv_eq (by rw [i128SaturatingMul]; omega) (by omega)
        (by rw [i128SaturatingMul]; omega)]
      rfl

theorem windowBounds_eq {c : AuctionConfig} (h : c.schedule.Constructed) (ts : Nanos) :
    windowBounds c ts = some (c.windowBounds ts) := by
  rw [windowBounds, AuctionConfig.windowBounds]
  split_ifs with hzero
  · rw [priceAt_eq h]
    rfl
  · rw [divU64_eq hzero, Stopping.check_eq (Nat.one_le_iff_ne_zero.mpr hzero)]
    show (priceAt c.schedule _).bind _ = _
    rw [priceAt_eq h]
    rfl

end Clock

/-! ## Allocation

The products of the shares are below the square of a word, and the remainder of a level is placed
whole, so the assertion behind the loop holds. -/

theorem topUp_eq (l : List (ℕ × PendingBid)) (left : ℕ)
    (h : left ≤ l.countP fun e ↦ e.1 < e.2.qty.val) :
    topUp l left = some (DutchAuction.topUp l left, 0) := by
  induction l generalizing left with
  | nil =>
    rw [List.countP_nil, Nat.le_zero] at h
    rw [h]
    rfl
  | cons e rest ih =>
    obtain ⟨a, b⟩ := e
    rw [List.countP_cons] at h
    rw [topUp, DutchAuction.topUp]
    split_ifs with hleft hlt
    · rw [hleft]
    · rw [if_pos (decide_eq_true hlt)] at h
      have hqty := b.qty.val_lt
      rw [Stopping.fits_eq (by omega), Stopping.sub_eq (by omega)]
      show (topUp rest (left - 1)).bind _ = _
      rw [ih (left - 1) (by omega)]
      rfl
    · rw [if_neg (by simpa using hlt), Nat.add_zero] at h
      rw [ih left h]
      rfl

/-- **One level** is shared without leaving the range of a word, and the remainder is fully
placed. -/
theorem allocate_eq {level : List PendingBid} {remaining : ℕ} (hremaining : remaining < 2 ^ 64)
    (hdemand : demand level < 2 ^ 128) :
    allocate level remaining = some (DutchAuction.allocate level remaining) := by
  have hsum : sum 128 (level.map fun b ↦ b.qty.val) = some (demand level) := Stopping.sum_eq hdemand
  rw [allocate, hsum, DutchAuction.allocate]
  show (if demand level ≤ remaining then _ else _) =
    some (if demand level ≤ remaining then _ else _)
  split_ifs with hfit
  · rfl
  · have hlt : remaining < demand level := not_le.mp hfit
    obtain ⟨hle, hleft⟩ := leftover_le_short hlt
    have hshares : (level.mapM fun b ↦ do
        let product ← fits 128 (remaining * b.qty.val)
        let share ← div product (demand level)
        return share % 2 ^ 64) =
          some (level.map fun b ↦ remaining * b.qty.val / demand level) := by
      refine Stopping.mapM_eq fun b _ ↦ ?_
      have hproduct : remaining * b.qty.val < 2 ^ 64 * 2 ^ 64 :=
        Nat.mul_lt_mul'' hremaining b.qty.val_lt
      have hshare : remaining * b.qty.val / demand level ≤ b.qty.val := by
        refine Nat.div_le_of_le_mul ?_
        exact Nat.mul_le_mul_right _ hlt.le
      rw [Stopping.fits_eq (by omega)]
      show (div _ _).bind _ = _
      rw [Stopping.div_eq (by omega), Option.bind_some,
        Nat.mod_eq_of_lt (hshare.trans_lt b.qty.val_lt)]
      rfl
    rw [hshares]
    show (sum 64 _).bind _ = _
    rw [Stopping.sum_eq (hle.trans_lt hremaining)]
    show (sub remaining _).bind _ = _
    rw [Stopping.sub_eq hle]
    show (topUp _ _).bind _ = _
    rw [topUp_eq _ _ (by rw [zip_map_left, List.countP_map]; exact hleft)]
    rfl

theorem matchLevels_eq {levels : List (List PendingBid)} {supply : Qty} {exhausted : Bool}
    (hdemand : demand levels.flatten < 2 ^ 128) :
    matchLevels levels supply exhausted =
      some (DutchAuction.matchLevels levels supply exhausted) := by
  induction levels generalizing supply exhausted with
  | nil => rfl
  | cons level levels ih =>
    rw [List.flatten_cons, demand_append] at hdemand
    rw [matchLevels, DutchAuction.matchLevels]
    split_ifs with hzero
    · rw [ih (by omega)]
      rfl
    · have hsum := sum_allocate level supply.val
      have hlength : (DutchAuction.allocate level supply.val).length = level.length :=
        (allots_allocate level supply.val).length_eq.symm
      have hsupply := supply.val_lt
      rw [allocate_eq hsupply (by omega)]
      show (sum 64 _).bind _ = _
      rw [Stopping.sum_eq (by rw [hsum]; omega)]
      show (check _).bind _ = _
      rw [Stopping.check_eq hlength]
      show (matchLevels _ _ _).bind _ = _
      rw [ih (by omega)]
      rfl

end Checked

/-! ## The book

Costs of bids in flight are costs that were reserved, so they fit; a product of no more of either
factor fits as well. -/

theorem Price.checkedMulQty_of_le {p p' : Price} {qty qty' : Qty} {cost : I64}
    (h : Price.checkedMulQty p qty = some cost) (hnonneg : 0 ≤ p'.val) (hprice : p' ≤ p)
    (hqty : qty'.val ≤ qty.val) : ∃ cost', Price.checkedMulQty p' qty' = some cost' := by
  obtain ⟨hlt, hcost⟩ := Price.checkedMulQty_eq_some.mp h
  have hle : p'.val * qty'.val ≤ p.val * qty.val :=
    mul_le_mul (I64.le_def.mp hprice) (by exact_mod_cast hqty) (by positivity)
      (hnonneg.trans (I64.le_def.mp hprice))
  have hpos : 0 ≤ p'.val * (qty'.val : ℤ) := by positivity
  have hmax := cost.val_lt
  exact ⟨⟨p'.val * qty'.val, by omega, by omega⟩,
    Price.checkedMulQty_eq_some.mpr ⟨by omega, rfl⟩⟩

namespace Book

variable {floor : Price} {cmd : Command} {n : ℕ} {B B' : Book}

/-- The costs of the book are words, and no more bids are live than commands were applied: `n`
before this one. -/
structure Fits (floor : Price) (cmd : Command) (n : ℕ) (B : Book) : Prop where
  payable : B.Payable
  fills : ∀ f ∈ B.fills, floor ≤ f.price ∧ ∃ cost, Price.checkedMulQty f.price f.qty = some cost
  /-- A command adds one bid at most, since its key is then on record. -/
  few : B.live.card ≤ n ∨ B.live.card ≤ n + 1 ∧
    ∃ participant key qty kind, cmd = .submitBid participant key qty kind ∧ B.outcomes key ≠ none

theorem Fits.next (h : B.Fits floor cmd n) (cmd' : Command) : B.Fits floor cmd' (n + 1) where
  payable := h.payable
  fills := h.fills
  few := Or.inl <| h.few.elim (fun hle ↦ hle.trans n.le_succ) And.left

theorem Fits.card_le (h : B.Fits floor cmd n) : B.live.card ≤ n + 1 :=
  h.few.elim (fun hle ↦ hle.trans n.le_succ) And.left

/-- **Every move keeps the book in range.** -/
theorem Fits.move (h : B.Fits floor cmd n) (hfloor : 0 ≤ floor.val) (hmove : Move floor cmd B B') :
    B'.Fits floor cmd n := by
  have hrecorded := fun key ↦ hmove.recorded (k := key)
  have hpayable := h.payable.move hmove
  -- Nothing joins the book but the bid of this command.
  have hfew : B'.live.card ≤ B.live.card → B'.live.card ≤ n ∨ B'.live.card ≤ n + 1 ∧
      ∃ participant key qty kind, cmd = .submitBid participant key qty kind ∧
        B'.outcomes key ≠ none := by
    intro hle
    refine h.few.imp hle.trans ?_
    rintro ⟨hcard, p, key, qty, kind, hcmd, hkey⟩
    exact ⟨hle.trans hcard, p, key, qty, kind, hcmd, hrecorded key hkey⟩
  cases hmove with
  | accept b kind outcome cost hcmd _ _ hkey =>
    refine ⟨hpayable, h.fills, Or.inr ⟨?_, _, _, _, _, hcmd, ?_⟩⟩
    · rw [Multiset.card_cons]
      refine Nat.succ_le_succ (h.few.elim id ?_)
      rintro ⟨-, p, key, qty, kind', hcmd', hsome⟩
      rw [hcmd] at hcmd'
      cases hcmd'
      exact absurd hkey hsome
    · dsimp only
      rw [Function.update_self]
      exact Option.some_ne_none _
  | refuse => exact ⟨hpayable, h.fills, hfew le_rfl⟩
  | retire b rest outcome hlive =>
    refine ⟨hpayable, h.fills, hfew ?_⟩
    rw [hlive, Multiset.card_cons]
    exact Nat.le_succ _
  | fill b rest f hlive _ _ _ hle hf hprice =>
    refine ⟨hpayable, fun g hg ↦ ?_, hfew ?_⟩
    · rcases List.mem_append.mp hg with hg | hg
      · exact h.fills g hg
      · rw [List.mem_singleton.mp hg]
        obtain ⟨cost, hcost⟩ := h.payable b (hlive ▸ Multiset.mem_cons_self b rest)
        exact ⟨hf, Price.checkedMulQty_of_le hcost (hfloor.trans (I64.le_def.mp hf)) hprice hle⟩
    · rw [hlive, Multiset.card_cons]
      exact Nat.le_succ _
  | reprice l₁ l₂ f price hfills hprice hle =>
    refine ⟨hpayable, fun g hg ↦ ?_, hfew le_rfl⟩
    have hold : ∀ g ∈ l₁ ++ f :: l₂, floor ≤ g.price ∧
        ∃ cost, Price.checkedMulQty g.price g.qty = some cost := hfills ▸ h.fills
    rcases List.mem_append.mp hg with hg | hg
    · exact hold g (List.mem_append_left _ hg)
    · rcases List.mem_cons.mp hg with rfl | hg
      · obtain ⟨-, cost, hcost⟩ := hold f (List.mem_append_right _ List.mem_cons_self)
        exact ⟨hprice, Price.checkedMulQty_of_le hcost (hfloor.trans (I64.le_def.mp hprice)) hle
          le_rfl⟩
      · exact hold g (List.mem_append_right _ (List.mem_cons_of_mem _ hg))
  | fund => exact ⟨hpayable, h.fills, hfew le_rfl⟩

end Book

namespace AuctionState

variable {s t : AuctionState} {cmd : Command} {n : ℕ}

/-- What a state needs so that nothing done to it leaves the range of a word, while `cmd` is handled
after `n` commands. -/
structure Fit (cmd : Command) (n : ℕ) (s : AuctionState) : Prop where
  constructed : s.config.schedule.Constructed
  floor : 0 ≤ s.config.floorPrice.val
  tallied : s.Tallied
  book : s.book.Fits s.config.floorPrice cmd n
  small : n < 2 ^ 64

theorem Fit.moves (h : s.Fit cmd n) (hconfig : t.config = s.config) (htallied : t.Tallied)
    (hmoves : Book.Moves s.config.floorPrice cmd s.book t.book) : t.Fit cmd n where
  constructed := hconfig ▸ h.constructed
  floor := hconfig ▸ h.floor
  tallied := htallied
  book := hconfig ▸ hmoves.keeps (fun _ _ hB hmove ↦ hB.move h.floor hmove) h.book
  small := h.small

theorem Fit.phase {r : AuctionState × List Event} (h : s.Fit cmd n) (hpriced : s.Priced)
    (hphase : s.Phase cmd r) : r.1.Fit cmd n :=
  h.moves hphase.frame.1 (h.tallied.phase hphase) (hphase.moves hpriced)

theorem Fit.close (h : s.Fit cmd n) (hbefore : s.PricedBefore) :
    (s.closeElapsedWindow s.now).1.Fit cmd n := by
  refine h.moves (s.closeElapsedWindow_frame s.now).1 ?_ hbefore.moves
  rcases s.closeElapsedWindow_cases s.now with ⟨heq, -⟩ | ⟨w, -, -, heq⟩
  · rw [heq]
    exact h.tallied
  · rw [heq]
    exact h.tallied.flushWindow

theorem Fit.demand_lt {w : OpenWindow} (h : s.Fit cmd n) (hw : s.window = some w) :
    demand w.bids < 2 ^ 128 := by
  have hcard : s.book.live.card = w.bids.length + s.resting.bids.length := by
    rw [AuctionState.book, inFlight, hw, Multiset.card_add, Multiset.coe_card, Multiset.coe_card,
      List.length_map, List.length_map]
    rfl
  have hlength : w.bids.length ≤ 2 ^ 64 := by
    have := h.book.card_le
    have := h.small
    omega
  have hsum : demand w.bids ≤ (w.bids.map fun b ↦ b.qty.val).length • (2 ^ 64 - 1) := by
    refine List.sum_le_card_nsmul _ _ fun q hq ↦ ?_
    obtain ⟨b, -, rfl⟩ := List.mem_map.mp hq
    exact Nat.le_sub_one_of_lt b.qty.val_lt
  rw [List.length_map, nsmul_eq_mul, Nat.cast_id] at hsum
  have hmax : w.bids.length * (2 ^ 64 - 1) ≤ 2 ^ 64 * (2 ^ 64 - 1) := Nat.mul_le_mul_right _ hlength
  omega

theorem Fit.window_payable {w : OpenWindow} {b : PendingBid} (h : s.Fit cmd n)
    (hw : s.window = some w) (hb : b ∈ w.bids) :
    ∃ cost, Price.checkedMulQty b.reservePrice b.qty = some cost := by
  refine h.book.payable b.live ?_
  rw [AuctionState.book, inFlight, hw]
  exact Multiset.mem_add.mpr (Or.inl (List.mem_map_of_mem hb))

theorem Fit.resting_payable {b : RestingBid} (h : s.Fit cmd n) (hb : b ∈ s.resting.bids) :
    ∃ cost, Price.checkedMulQty b.limit b.qty = some cost := by
  refine h.book.payable b.live ?_
  rw [AuctionState.book, inFlight]
  exact Multiset.mem_add.mpr (Or.inr (List.mem_map_of_mem hb))

end AuctionState

namespace Checked

open AuctionState (Fit)

variable {s : AuctionState} {cmd : Command} {n : ℕ} {price : Price} {qty : Qty}

/-! ## The small moves -/

theorem release_eq {map : ParticipantId → Option Collateral} {participant : ParticipantId}
    (h : ∃ cost, Price.checkedMulQty price qty = some cost) :
    release map participant price qty = some (DutchAuction.release map participant price qty) := by
  obtain ⟨cost, hcost⟩ := h
  rw [release, DutchAuction.release, hcost]
  rfl

theorem commit_eq {map : ParticipantId → Option Collateral} {participant : ParticipantId}
    (h : ∃ cost, Price.checkedMulQty price qty = some cost) :
    commit map participant price qty = some (DutchAuction.commit map participant price qty) := by
  obtain ⟨cost, hcost⟩ := h
  rw [commit, DutchAuction.commit, hcost]
  rfl

theorem turnAway_eq {reason : RejectReason} {participant : ParticipantId} {key : IdempotencyKey}
    (h : ∃ cost, Price.checkedMulQty price qty = some cost) (s : AuctionState) :
    turnAway reason participant key price qty s =
      some (s.turnAway reason participant key price qty) := by
  rw [turnAway, release_eq h]
  rfl

theorem drainLadder_eq (reason : RejectReason)
    (h : ∀ b ∈ s.resting.bids, ∃ cost, Price.checkedMulQty b.limit b.qty = some cost) :
    drainLadder reason s = some (s.drainLadder reason) :=
  Stopping.forEach_eq_of_mem
    (fun b hb s ↦ turnAway_eq (h b (PriceLadder.drainAll_perm.mem_iff.mp hb)) s) _

/-! ## Clearing -/

theorem repriceFill_eq {f : Fill} (hprice : 0 ≤ price.val) (hle : price ≤ f.price)
    (h : ∃ cost, Price.checkedMulQty f.price f.qty = some cost) (s : AuctionState) :
    repriceFill price f s = some (s.repriceFill price f) := by
  have hfreed : (f.price.saturatingSub price).val = f.price.val - price.val := by
    have := I64.le_def.mp hle
    have := f.price.val_lt
    exact I64.val_saturate_of_mem (by omega) (by omega)
  have hamount : ∃ cost, Price.checkedMulQty (f.price.saturatingSub price) f.qty = some cost := by
    obtain ⟨cost, hcost⟩ := h
    have := I64.le_def.mp hle
    refine Price.checkedMulQty_of_le hcost ?_ (I64.le_def.mpr ?_) le_rfl
    · omega
    · omega
  rw [repriceFill, AuctionState.repriceFill]
  split_ifs with heq
  · rfl
  · dsimp only
    rw [release_eq hamount]
    rfl

/-- **A clearing** of an auction that is open, at a price no higher than any fill. -/
theorem clear_eq (hopen : s.status.isTerminal = false)
    (hbook : s.book.Fits s.config.floorPrice cmd n)
    (hprice : 0 ≤ price.val) (hfills : ∀ f ∈ s.fills, price ≤ f.price) :
    clear price s = some (s.clear price) := by
  rw [clear, Stopping.check_eq hopen]
  refine Stopping.andThen_eq ?_ (Stopping.andThen_eq ?_ rfl)
  · exact Stopping.forEach_eq_of_mem
      (fun f hf ↦ repriceFill_eq hprice (hfills f hf) (hbook.fills f hf).2) _
  · refine drainLadder_eq .unfilled fun b hb ↦ hbook.payable b.live ?_
    have hresting : ∀ (l : List Fill) (s : AuctionState),
        (Emit.forEach (AuctionState.repriceFill price) l s).1.resting = s.resting := by
      refine Emit.forEach_frame AuctionState.resting fun f s ↦ ?_
      rw [AuctionState.repriceFill]
      split_ifs
      · rfl
      · rfl
    rw [hresting] at hb
    rw [AuctionState.book, inFlight]
    exact Multiset.mem_add.mpr (Or.inr (List.mem_map_of_mem hb))

/-! ## A flush

The counter of fills stays behind the units that are sold, so it does not overflow before the
supply is gone. -/

/-- What a pass of the settlement loop needs of the bid it settles. -/
structure Settles (price : Price) (exhausted : Bool) (ba : PendingBid × ℕ) : Prop where
  payable : ∃ cost, Price.checkedMulQty ba.1.reservePrice ba.1.qty = some cost
  below : price ≤ ba.1.reservePrice
  asked : ba.2 ≤ ba.1.qty.val
  full : 0 < ba.2 → exhausted = false → ba.2 = ba.1.qty.val

theorem requeueRemainder_eq {exhausted : Bool} {b : PendingBid} {alloc : ℕ}
    (hle : alloc ≤ b.qty.val) (hfull : exhausted = false → alloc = b.qty.val) (s : AuctionState) :
    requeueRemainder exhausted b (U64.saturate alloc) s =
      some (s.requeueRemainder exhausted b (U64.saturate alloc)) := by
  rw [AuctionState.requeueRemainder_eq_self hle hfull, requeueRemainder,
    AuctionState.remainder_done hle hfull]
  cases b.restingLimit with
  | none => rfl
  | some limit => rfl

theorem settle_eq {exhausted : Bool} {ba : PendingBid × ℕ} (hprice : 0 ≤ price.val)
    (h : Settles price exhausted ba) (hid : ba.2 + s.nextFillId < 2 ^ 64) :
    settle price exhausted ba s = some (s.settle price exhausted ba) := by
  rw [settle, AuctionState.settle, release_eq h.payable]
  show (if _ then _ else _) = some (if _ then _ else _)
  split_ifs with hzero
  · rfl
  · have hpos : 0 < ba.2 := Nat.pos_of_ne_zero fun hz ↦ hzero (isZero_saturate.mpr hz)
    have hval : (U64.saturate ba.2).val ≤ ba.1.qty.val :=
      (U64.val_saturate_of_lt (h.asked.trans_lt ba.1.qty.val_lt)).le.trans h.asked
    obtain ⟨cost, hcost⟩ := h.payable
    rw [commit_eq (Price.checkedMulQty_of_le hcost hprice h.below hval)]
    show (Stopping.fits 64 (s.nextFillId + 1)).bind _ = _
    rw [Stopping.fits_eq (by omega)]
    show (requeueRemainder _ _ _ _).bind _ = _
    rw [requeueRemainder_eq h.asked (h.full hpos)]
    rfl

theorem settle_loop_eq {exhausted : Bool} {l : List (PendingBid × ℕ)} (hprice : 0 ≤ price.val)
    (h : ∀ ba ∈ l, Settles price exhausted ba)
    (hid : (l.map Prod.snd).sum + s.nextFillId < 2 ^ 64) :
    Stopping.forEach (settle price exhausted) l s =
      some (Emit.forEach (AuctionState.settle price exhausted) l s) := by
  refine Stopping.forEach_eq
    (P := fun l s ↦ (∀ ba ∈ l, Settles price exhausted ba) ∧
      (l.map Prod.snd).sum + s.nextFillId < 2 ^ 64) ?_ ⟨h, hid⟩
  rintro ba l s ⟨h, hid⟩
  rw [List.map_cons, List.sum_cons] at hid
  have hba := h ba List.mem_cons_self
  refine ⟨settle_eq hprice hba (by omega), fun c hc ↦ h c (List.mem_cons_of_mem _ hc), ?_⟩
  have hnext := congrArg AuctionState.nextFillId
    (s.bare_settle price fun hpos ↦ ⟨hba.asked, hba.full hpos⟩)
  have hcount : (fillsOf price s.nextFillId [(ba.1, ba.2)]).length ≤ ba.2 := by
    rw [fillsOf]
    split_ifs
    · exact Nat.zero_le _
    · exact Nat.one_le_iff_ne_zero.mpr ‹_›
  calc (l.map Prod.snd).sum + (s.settle price exhausted ba).1.nextFillId
      = (l.map Prod.snd).sum +
          (s.nextFillId + (fillsOf price s.nextFillId [(ba.1, ba.2)]).length) :=
        congrArg (_ + ·) hnext
    _ ≤ (l.map Prod.snd).sum + (s.nextFillId + ba.2) :=
        Nat.add_le_add_left (Nat.add_le_add_left hcount _) _
    _ = ba.2 + (l.map Prod.snd).sum + s.nextFillId := by
        rw [Nat.add_comm s.nextFillId, ← Nat.add_assoc, Nat.add_comm _ ba.2]
    _ < 2 ^ 64 := hid

theorem nextFillId_le (h : s.Tallied) :
    s.supplyRemaining.val + s.nextFillId ≤ s.config.totalSupply.val := by
  have hlength : (s.fills.map fun f ↦ f.qty.val).length ≤ sold s.fills := by
    refine List.length_le_sum_of_one_le _ fun q hq ↦ ?_
    obtain ⟨f, hf, rfl⟩ := List.mem_map.mp hq
    exact h.positive f hf
  rw [List.length_map, ← h.next] at hlength
  rw [← h.conserved, Nat.add_comm (sold s.fills)]
  exact Nat.add_le_add_left hlength _

theorem settling_eq {t : Nanos} {w : OpenWindow} (h : s.Fit cmd n) (hpriced : s.PricedAt t)
    (hw : s.window = some w) (hprice : 0 ≤ w.price.val) :
    Stopping.forEach (settle w.price (decide (s.Exhausts w))) (allocations w.bids s.supplyRemaining)
      { s with window := none, supplyRemaining := s.supplyAfter w } = some (s.settling w) := by
  refine settle_loop_eq hprice (fun ba hba ↦ ?_) ?_
  · exact
      { payable := h.window_payable hw (mem_of_mem_allocations hba)
        below := hpriced.covered w hw ba.1 (mem_of_mem_allocations hba)
        asked := alloc_le_qty hba
        full := fun hpos hex ↦ alloc_eq_qty_of_not_exhausted hba hpos
          (Bool.eq_false_iff.mpr (of_decide_eq_false hex)) }
  · have hsum := sum_allocations w.bids s.supplyRemaining
    have hle : ((allocations w.bids s.supplyRemaining).map Prod.snd).sum ≤ s.supplyRemaining.val :=
      hsum ▸ Nat.le_add_right _ _
    calc ((allocations w.bids s.supplyRemaining).map Prod.snd).sum + s.nextFillId
        ≤ s.supplyRemaining.val + s.nextFillId := Nat.add_le_add_right hle _
      _ ≤ s.config.totalSupply.val := nextFillId_le h.tallied
      _ < 2 ^ 64 := s.config.totalSupply.val_lt

/-- **A flush**, of a window that is ripe. -/
theorem flushWindow_eq {t : Nanos} (h : s.Fit cmd n) (hpriced : s.PricedAt t)
    (hripe : ∀ w, s.window = some w → s.status = .live → s.Ripe w) :
    flushWindow s = some s.flushWindow := by
  rcases s.flushWindow_cases with ⟨hw, hf⟩ | ⟨w, hw, hne, -⟩ | ⟨w, hw, hlive, hf⟩
  · rw [hf, flushWindow, hw]
  · rw [(hpriced.idle hne).1] at hw
    cases hw
  · have hready := hripe w hw hlive
    have hfloor : s.config.floorPrice ≤ w.price :=
      (AuctionConfig.floor_le_priceAt s.now).trans hready.priceAt_le
    have hprice : 0 ≤ w.price.val := h.floor.trans (I64.le_def.mp hfloor)
    have hmatch : matchLevels (priceLevels (byPriority w.bids)) s.supplyRemaining false =
        some (DutchAuction.matchLevels (priceLevels (byPriority w.bids))
          s.supplyRemaining false) := by
      refine matchLevels_eq ?_
      rw [flatten_priceLevels, demand_perm (byPriority_perm w.bids)]
      exact h.demand_lt hw
    have hexhausted : (DutchAuction.matchLevels (priceLevels (byPriority w.bids))
        s.supplyRemaining false).2.2 = decide (s.Exhausts w) := Bool.decide_eq_true.symm
    -- What the loop leaves is an auction that can be cleared at the price of the window.
    have hbare := s.bare_settled w
    have hconfig := congrArg AuctionState.config hbare
    have hconfig : (s.settled w).config = s.config := hconfig
    have hstatus := congrArg AuctionState.status hbare
    have hstatus : (s.settled w).status = s.status := hstatus
    have hbook : (s.settled w).book.Fits (s.settled w).config.floorPrice cmd n := by
      rw [hconfig]
      exact (AuctionState.moves_settled hpriced hw hready).keeps
        (fun _ _ hB hmove ↦ hB.move h.floor hmove) h.book
    have hclear : clear w.price (s.settled w) = some ((s.settled w).clear w.price) :=
      clear_eq (by rw [hstatus, hlive]; rfl) hbook hprice
        fun f hf ↦ AuctionState.price_le_of_mem_settled hready hf
    rw [flushWindow, hw]
    dsimp only
    rw [if_pos (Status.acceptsBids_iff.mpr hlive), matchWindow]
    dsimp only
    rw [hmatch]
    show Stopping.andThen
      (Stopping.forEach (settle w.price _) (allocations w.bids s.supplyRemaining))
      (if _ then clear w.price else _) _ = _
    rw [hexhausted, Stopping.andThen]
    show (Stopping.forEach _ _
      { s with window := none, supplyRemaining := s.supplyAfter w }).bind _ = _
    rw [settling_eq h hpriced hw hprice, Option.bind_some, hf]
    by_cases hex : s.Exhausts w
    · rw [if_pos hex, if_pos (decide_eq_true hex)]
      show (clear w.price (s.settled w)).map _ = _
      rw [hclear]
      rfl
    · rw [if_neg hex, if_neg fun heq ↦ hex (of_decide_eq_true heq)]
      rfl

/-- **The step before the handler.** -/
theorem closeElapsedWindow_eq (h : s.Fit cmd n) (hbefore : s.PricedBefore) :
    closeElapsedWindow s.now s = some (s.closeElapsedWindow s.now) := by
  obtain ⟨t, -, hpriced⟩ := hbefore
  cases hw : s.window with
  | none => rw [closeElapsedWindow, AuctionState.closeElapsedWindow, hw]
  | some w =>
    rw [closeElapsedWindow, AuctionState.closeElapsedWindow, hw]
    dsimp only
    rw [windowBounds_eq h.constructed]
    show (if _ then _ else _) = _
    split_ifs with helapsed
    · refine flushWindow_eq h hpriced fun w' hw' hlive ↦ ?_
      rw [hw] at hw'
      cases hw'
      exact hpriced.ripe_of_elapsed hw hlive helapsed
    · rfl

/-! ## The handlers -/

variable {participant : ParticipantId} {key : IdempotencyKey}

theorem flush_if_eq (h : s.Fit cmd n) (hpriced : s.Priced) :
    (if s.config.batchWindow.val = 0 then flushWindow else fun s ↦ some (Emit.skip s)) s =
      some ((if s.config.batchWindow.val = 0 then AuctionState.flushWindow else Emit.skip) s) := by
  split_ifs with hzero
  · exact flushWindow_eq h hpriced fun w hw hlive ↦ hpriced.ripe hw hlive (Or.inl hzero)
  · rfl

theorem onTake_eq {seq : Seq} {expected : Price} (h : s.Fit cmd n) (hpriced : s.Priced)
    (hcmd : cmd = .submitBid participant key qty (.take expected))
    (hkey : s.outcomes key = none) (hqty : 0 < qty.val) (hlive : s.status = .live) :
    onTake seq s.now participant key qty expected s =
      some (s.onTake seq s.now participant key qty expected) := by
  rw [onTake, priceAt_eq h.constructed]
  by_cases hmoved : I64.absDiff (s.config.priceAt s.now) expected > s.config.priceTolerance
  · have hmoved' : I64.absDiff (s.config.schedule.priceAt s.now) expected >
        s.config.priceTolerance := hmoved
    rw [AuctionState.onTake]
    show (if _ then _ else _) = some (if _ then _ else _)
    rw [if_pos hmoved', if_pos hmoved]
    rfl
  have hmoved' : ¬I64.absDiff (s.config.schedule.priceAt s.now) expected >
      s.config.priceTolerance := hmoved
  show (if _ then _ else _) = _
  rw [if_neg hmoved', windowBounds_eq h.constructed]
  simp only [Option.bind_eq_bind, Option.bind_some]
  cases hres : (s.reserve participant (s.config.windowBounds s.now).2 qty).2 with
  | false =>
    rw [AuctionState.onTake]
    dsimp only
    rw [if_neg hmoved, ← Prod.eta (s.reserve participant _ qty), hres]
    rfl
  | true =>
    have hphase : s.Phase cmd (s.enqueue seq participant key qty) :=
      .queue seq participant key qty expected hcmd hkey hqty hlive hres (not_lt.mp hmoved)
    have hconfig := hphase.frame.1
    rw [AuctionState.onTake_queued seq key (not_lt.mp hmoved) hres,
      ← Prod.eta (s.reserve participant _ qty), hres]
    have hflush := flush_if_eq (h.phase hpriced hphase) (hpriced.phase hphase)
    show Stopping.andThen (fun u ↦ some (u, (s.enqueue seq participant key qty).2))
      (if (s.enqueue seq participant key qty).1.config.batchWindow.val = 0 then flushWindow
        else fun s ↦ some (Emit.skip s)) (s.enqueue seq participant key qty).1 = _
    rw [Stopping.andThen, Option.bind_some, hflush, hconfig]
    rfl

theorem onRest_eq {seq : Seq} {limit : Price} (h : s.Fit cmd n) :
    onRest seq s.now participant key qty limit s =
      some (s.onRest seq s.now participant key qty limit) := by
  rw [onRest, AuctionState.onRest, priceAt_eq h.constructed]
  by_cases habove : limit > s.config.priceAt s.now
  · have habove' : limit > s.config.schedule.priceAt s.now := habove
    show (if _ then _ else _) = some (if _ then _ else _)
    rw [if_pos habove', if_pos habove]
    rfl
  · have habove' : ¬limit > s.config.schedule.priceAt s.now := habove
    show (if _ then _ else _) = some (if _ then _ else _)
    rw [if_neg habove', if_neg habove]
    cases hres : (s.reserve participant limit qty).2 with
    | false =>
      rw [← Prod.eta (s.reserve participant limit qty), hres]
      rfl
    | true =>
      rw [← Prod.eta (s.reserve participant limit qty), hres]
      rfl

theorem onBid_eq {seq : Seq} {kind : BidKind} (h : s.Fit cmd n) (hpriced : s.Priced)
    (hcmd : cmd = .submitBid participant key qty kind) :
    onBid seq s.now participant key qty kind s =
      some (s.onBid seq s.now participant key qty kind) := by
  unfold onBid AuctionState.onBid
  cases hkey : s.outcomes key with
  | some outcome => rfl
  | none =>
    dsimp only
    by_cases hzero : Qty.isZero qty = true
    · rw [if_pos hzero, if_pos hzero]
    rw [if_neg hzero, if_neg hzero]
    by_cases hidle : (!s.status.acceptsBids) = true
    · rw [if_pos hidle, if_pos hidle]
    rw [if_neg hidle, if_neg hidle]
    have hqty : 0 < qty.val := Qty.isZero_eq_false.mp (Bool.not_eq_true _ ▸ hzero)
    have hlive : s.status = .live := by simpa using hidle
    cases kind with
    | take expected => exact onTake_eq h hpriced hcmd hkey hqty hlive
    | resting limit => exact onRest_eq h

theorem onCancelResting_eq (h : s.Fit cmd n) :
    onCancelResting participant key s = some (s.onCancelResting participant key) := by
  rw [onCancelResting, AuctionState.onCancelResting]
  cases hremove : s.resting.remove participant key with
  | mk found resting =>
    cases found with
    | none =>
      dsimp only
      cases s.outcomes key with
      | none => rfl
      | some outcome => rfl
    | some bid =>
      have hperm := (PriceLadder.remove_eq_some (congrArg Prod.fst hremove)).2.2
      dsimp only
      rw [release_eq (h.resting_payable (hperm.mem_iff.mpr List.mem_cons_self))]
      rfl

theorem triggerResting_eq (h : s.Fit cmd n) :
    triggerResting s.now s = some (s.triggerResting s.now) := by
  rw [triggerResting, priceAt_eq h.constructed, windowBounds_eq h.constructed]
  rfl

theorem settleAtFloor_eq (h : s.Fit cmd n) (hpriced : s.Priced) (hlive : s.status = .live)
    (hfloor : s.config.schedule.atFloor s.now = true) :
    settleAtFloor s = some s.settleAtFloor := by
  have hphase : s.Phase cmd s.flushWindow := .flush hlive (Or.inr hfloor)
  have hflushed := h.phase hpriced hphase
  have hpriced' := hpriced.phase hphase
  refine Stopping.andThen_eq
    (flushWindow_eq h hpriced fun w hw hlive ↦ hpriced.ripe hw hlive (Or.inr hfloor)) ?_
  split_ifs with haccepts
  · have hlive' := Status.acceptsBids_iff.mp haccepts
    refine clear_eq (by rw [hlive']; rfl) hflushed.book hflushed.floor fun f hf ↦ ?_
    have hreached := hpriced'.fills f hf
    rw [AuctionState.reached_eq_priceAt hpriced' hlive'] at hreached
    exact (AuctionConfig.floor_le_priceAt _).trans hreached
  · rfl

theorem onTick_eq (h : s.Fit cmd n) (hpriced : s.Priced) :
    onTick s.now s = some (s.onTick s.now) := by
  rw [onTick, AuctionState.onTick]
  by_cases hidle : (!s.status.acceptsBids) = true
  · rw [if_pos hidle, if_pos hidle]
  rw [if_neg hidle, if_neg hidle, triggerResting_eq h]
  have hlive : s.status = .live := by simpa using hidle
  have hphase : s.Phase cmd (s.triggerResting s.now, []) := .trigger hlive
  have htriggered := h.phase hpriced hphase
  have hpriced' := hpriced.phase hphase
  have hnow : (s.triggerResting s.now).now = s.now := hphase.frame.2
  have hlive' : (s.triggerResting s.now).status = .live := by
    rw [s.triggerResting_eq]
    exact hlive
  have hconfig : (s.triggerResting s.now).config = s.config := hphase.frame.1
  rw [← hconfig, Option.bind_eq_bind, Option.bind_some]
  refine Stopping.andThen_eq (flush_if_eq htriggered hpriced') ?_
  -- What the flush leaves, if there was one.
  have hflushed : ∀ r, r = (if (s.triggerResting s.now).config.batchWindow.val = 0
      then AuctionState.flushWindow else Emit.skip) (s.triggerResting s.now) →
        r.1.Fit cmd n ∧ r.1.Priced ∧ r.1.now = s.now := by
    rintro r rfl
    split_ifs with hzero
    · have hflush : (s.triggerResting s.now).Phase cmd _ := .flush hlive' (Or.inl hzero)
      exact ⟨htriggered.phase hpriced' hflush, hpriced'.phase hflush, hflush.frame.2.trans hnow⟩
    · exact ⟨htriggered, hpriced', hnow⟩
  generalize (if (s.triggerResting s.now).config.batchWindow.val = 0
    then AuctionState.flushWindow else Emit.skip) (s.triggerResting s.now) = r at hflushed ⊢
  obtain ⟨hfit, hpriced, hnow⟩ := hflushed r rfl
  cases haccepts : r.1.status.acceptsBids with
  | false => rfl
  | true =>
    rw [if_pos rfl, atFloor_eq hfit.constructed, Option.bind_eq_bind, Option.bind_some]
    cases hfloor : r.1.config.schedule.atFloor s.now with
    | false => rfl
    | true =>
      exact settleAtFloor_eq hfit hpriced (Status.acceptsBids_iff.mp haccepts) (hnow ▸ hfloor)

theorem onCancel_eq (h : s.Fit cmd n) : onCancel s = some s.onCancel := by
  rw [onCancel, AuctionState.onCancel]
  by_cases hterm : s.status.isTerminal = true
  · rw [if_pos hterm, if_pos hterm]
  rw [if_neg hterm, if_neg hterm]
  refine Stopping.andThen_eq ?_ (Stopping.andThen_eq ?_ rfl)
  · refine Stopping.forEach_eq_of_mem (fun b hb u ↦ turnAway_eq ?_ u) _
    cases hw : s.window with
    | none =>
      rw [hw] at hb
      exact absurd hb List.not_mem_nil
    | some w =>
      rw [hw] at hb
      exact h.window_payable hw hb
  · refine drainLadder_eq .notLive fun b hb ↦ h.resting_payable ?_
    have hbare := AuctionState.bare_turnAwayPending_loop
      (s := { s with status := .cancelled, window := none }) .notLive
      ((s.window.map OpenWindow.bids).getD [])
    have hresting := congrArg AuctionState.resting hbare
    have hresting : (Emit.forEach (AuctionState.turnAwayPending .notLive)
      ((s.window.map OpenWindow.bids).getD [])
      { s with status := .cancelled, window := none }).1.resting = s.resting := hresting
    exact hresting ▸ hb

/-- **Every handler.** -/
theorem handle_eq (seq : Seq) (h : s.Fit cmd n) (hpriced : s.Priced) :
    handle seq s.now cmd s = some (s.handle seq s.now cmd) := by
  cases hcmd : cmd with
  | «open» => rfl
  | setCollateral participant limit => rfl
  | submitBid participant key qty kind => exact onBid_eq h hpriced hcmd
  | cancelResting participant key => exact onCancelResting_eq h
  | tick => exact onTick_eq h hpriced
  | cancel => exact onCancel_eq h

/-- **Every command** that comes next. -/
theorem advance_eq {seq : Seq} {ts : Nanos} (h : s.Fit cmd n) (hpriced : s.Priced) :
    advance seq ts cmd s = some (s.advance seq ts cmd) := by
  have hstamped : (s.stamp seq ts).Fit cmd n :=
    ⟨h.constructed, h.floor, h.tallied, h.book, h.small⟩
  have hbefore := hpriced.stamp seq ts
  have hclosed := hstamped.close hbefore
  have hhandle := handle_eq seq hclosed hbefore.close
  rw [(AuctionState.closeElapsedWindow_frame _ _).2] at hhandle
  exact Stopping.andThen_eq (closeElapsedWindow_eq hstamped hbefore) hhandle

end Checked

end DutchAuction
