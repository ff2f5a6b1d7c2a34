import DutchAuction.Core.Keys
import DutchAuction.Library.Owned

/-!
# The collateral ledger is exact

`Book.Exact` says that each account has committed exactly what its owner's fills cost plus what the
owner's live bids have reserved, as integers and not merely up to saturation. Seven code paths touch
the committed amount; in the book they are four moves, and the invariant is proved for each.

Under it no saturating operation can bite. All terms are non-negative, so each is at most the
committed amount and fits the word it is computed in; a release takes out a term that is there, and
a fill commits no more than was just released.
-/

namespace DutchAuction

/-- What a fill costs. -/
def Fill.cost (f : Fill) : ℤ := f.price.val * f.qty.val

/-- What a live bid has reserved. -/
def LiveBid.cost (b : LiveBid) : ℤ := b.price.val * b.qty.val

/-- What the fills of a participant cost. -/
def paid (p : ParticipantId) (fills : List Fill) : ℤ :=
  ((fills.filter fun f ↦ f.participant = p).map Fill.cost).sum

/-- What the live bids of a participant have reserved. -/
def reserved (p : ParticipantId) (live : Multiset LiveBid) : ℤ :=
  Owned.total LiveBid.participant LiveBid.cost p live

theorem paid_eq_total (p : ParticipantId) (fills : List Fill) :
    paid p fills = Owned.total Fill.participant Fill.cost p fills :=
  (Owned.total_coe _ _ _ _).symm

theorem paid_append (p : ParticipantId) (l l' : List Fill) :
    paid p (l ++ l') = paid p l + paid p l' := by
  rw [paid_eq_total, paid_eq_total, paid_eq_total, ← Multiset.coe_add, Owned.total_add]

theorem paid_cons (p : ParticipantId) (f : Fill) (fills : List Fill) :
    paid p (f :: fills) = (if f.participant = p then f.cost else 0) + paid p fills := by
  rw [paid_eq_total, paid_eq_total, ← Multiset.cons_coe, Owned.total_cons]

theorem reserved_cons (p : ParticipantId) (b : LiveBid) (live : Multiset LiveBid) :
    reserved p (b ::ₘ live) = (if b.participant = p then b.cost else 0) + reserved p live :=
  Owned.total_cons _ _ _ _ _

theorem paid_nonneg {p : ParticipantId} {fills : List Fill} (h : ∀ f ∈ fills, 0 ≤ f.price.val) :
    0 ≤ paid p fills := by
  rw [paid_eq_total]
  exact Owned.total_nonneg fun f hf _ ↦
    Int.mul_nonneg (h f (Multiset.mem_coe.mp hf)) (Int.natCast_nonneg _)

theorem reserved_nonneg {p : ParticipantId} {live : Multiset LiveBid}
    (h : ∀ b ∈ live, b.participant = p → 0 ≤ b.price.val) : 0 ≤ reserved p live :=
  Owned.total_nonneg fun b hb hp ↦ Int.mul_nonneg (h b hb hp) (Int.natCast_nonneg _)

/-! ## Exact arithmetic on an account

The operations saturate. A commitment that leaves the account in range, and a release of no more
than is committed, are exact. -/

namespace Collateral

variable {c : Collateral} {price : Price} {qty : Qty}

theorem getD_checkedMulQty (price : Price) (x : I64) (hqty : (qty.val : ℤ) < 2 ^ 63)
    (hlo : -2 ^ 63 ≤ price.val * qty.val) (hhi : price.val * qty.val < 2 ^ 63) :
    ((Price.checkedMulQty price qty).getD x).val = price.val * qty.val := by
  have hsome : Price.checkedMulQty price qty = some ⟨price.val * qty.val, hlo, hhi⟩ :=
    Price.checkedMulQty_eq_some.mpr ⟨hqty, rfl⟩
  rw [hsome, Option.getD_some]

theorem val_commit (hqty : (qty.val : ℤ) < 2 ^ 63) (hcost : 0 ≤ price.val * qty.val)
    (hcommitted : 0 ≤ c.committed.val)
    (hfits : c.committed.val + price.val * qty.val < 2 ^ 63) :
    (c.commit price qty).committed.val = c.committed.val + price.val * qty.val := by
  have hamount := getD_checkedMulQty price I64.maxValue hqty (by omega) (by omega)
  rw [commit, I64.saturatingAdd, hamount]
  exact I64.val_saturate_of_mem (by omega) hfits

theorem val_release (hqty : (qty.val : ℤ) < 2 ^ 63) (hcost : 0 ≤ price.val * qty.val)
    (hle : price.val * qty.val ≤ c.committed.val) :
    (c.release price qty).committed.val = c.committed.val - price.val * qty.val := by
  have hlt := c.committed.val_lt
  have hamount := getD_checkedMulQty price 0 hqty (by omega) (by omega)
  rw [release, I64.saturatingSub, hamount]
  exact I64.val_saturate_of_mem (by omega) (by omega)

theorem add_le_limit {cost : I64} (hcost : 0 ≤ cost.val) (h : cost ≤ c.available) :
    c.committed.val + cost.val ≤ c.limit.val := by
  have hle := I64.le_def.mp h
  rw [available, I64.saturatingSub, I64.val_saturate] at hle
  omega

end Collateral

/-- A command that rests no bid below zero. -/
def Command.RestsNonneg : Command → Prop
  | .submitBid _ _ _ (.resting limit) => 0 ≤ limit.val
  | _ => True

instance : DecidablePred Command.RestsNonneg
  | .submitBid _ _ _ (.resting limit) => inferInstanceAs (Decidable (0 ≤ limit.val))
  | .submitBid _ _ _ (.take _) => .isTrue trivial
  | .open => .isTrue trivial
  | .setCollateral _ _ => .isTrue trivial
  | .cancelResting _ _ => .isTrue trivial
  | .tick => .isTrue trivial
  | .cancel => .isTrue trivial

private theorem Command.RestsNonneg.nonneg {p : ParticipantId} {key : IdempotencyKey} {qty : Qty}
    {limit : Price} {cmd : Command} (h : cmd.RestsNonneg)
    (hcmd : cmd = .submitBid p key qty (.resting limit)) : 0 ≤ limit.val := by
  subst hcmd
  exact h

namespace Book

variable {floor : Price} {cmd : Command} {B B' : Book}

/-! ## The invariant

What a participant has committed is what their fills cost and their bids in flight have reserved. A
move changes one participant's account and what they owe by the same amount. -/

/-- Every account has committed exactly what its owner's fills and live bids come to. -/
structure Exact (B : Book) : Prop where
  accounts : ∀ p, (B.accounts p).committed.val = paid p B.fills + reserved p B.live
  live : ∀ b ∈ B.live, 0 ≤ b.price.val ∧ (b.qty.val : ℤ) < 2 ^ 63
  fills : ∀ f ∈ B.fills, 0 ≤ f.price.val ∧ (f.qty.val : ℤ) < 2 ^ 63

theorem exact_empty : Exact ⟨0, [], fun _ ↦ none, fun _ ↦ default⟩ where
  accounts := fun _ ↦ rfl
  live := fun _ hb ↦ absurd hb (Multiset.notMem_zero _)
  fills := fun _ hf ↦ absurd hf List.not_mem_nil

theorem Exact.paid_nonneg (h : B.Exact) (p : ParticipantId) : 0 ≤ paid p B.fills :=
  DutchAuction.paid_nonneg fun f hf ↦ (h.fills f hf).1

theorem Exact.reserved_nonneg (h : B.Exact) (p : ParticipantId) : 0 ≤ reserved p B.live :=
  DutchAuction.reserved_nonneg fun b hb _ ↦ (h.live b hb).1

private theorem Exact.of_account (h : B.Exact) (q : ParticipantId) {c : Collateral}
    {fills : List Fill} {live : Multiset LiveBid} {d : ℤ}
    (howed : ∀ p, paid p fills + reserved p live =
      paid p B.fills + reserved p B.live + if q = p then d else 0)
    (hc : c.committed.val = (B.accounts q).committed.val + d) (p : ParticipantId) :
    (Function.update B.accounts q c p).committed.val = paid p fills + reserved p live := by
  rw [howed p]
  by_cases hp : p = q
  · rw [hp, Function.update_self, if_pos rfl, hc, h.accounts q]
  · rw [Function.update_of_ne hp, if_neg (Ne.symm hp), h.accounts p, add_zero]

private theorem Exact.cost_le (h : B.Exact) {b : LiveBid} {rest : Multiset LiveBid}
    (hlive : B.live = b ::ₘ rest) :
    0 ≤ b.cost ∧ b.cost ≤ (B.accounts b.participant).committed.val := by
  have hb := h.live b (hlive ▸ Multiset.mem_cons_self b rest)
  have hrest : 0 ≤ reserved b.participant rest := DutchAuction.reserved_nonneg fun c hc _ ↦
    (h.live c (hlive ▸ Multiset.mem_cons_of_mem hc)).1
  have hpaid := h.paid_nonneg b.participant
  rw [h.accounts, hlive, reserved_cons, if_pos rfl]
  exact ⟨Int.mul_nonneg hb.1 (Int.natCast_nonneg _), by omega⟩

/-- **Every move keeps the ledger exact**, in an auction whose floor is not negative. -/
theorem Exact.move (h : B.Exact) (hfloor : 0 ≤ floor.val) (hcmd : cmd.RestsNonneg)
    (hmove : Move floor cmd B B') : B'.Exact := by
  cases hmove with
  | accept b kind outcome cost hsubmit hprice _ _ _ hcost hcover =>
    obtain ⟨hqty, hval⟩ := Price.checkedMulQty_eq_some.mp hcost
    have hpos : 0 ≤ b.price.val := by
      rcases hprice with ⟨expected, -, hle⟩ | rfl
      · exact hfloor.trans (I64.le_def.mp hle)
      · exact hcmd.nonneg hsubmit
    have hcostpos : 0 ≤ b.price.val * b.qty.val := Int.mul_nonneg hpos (Int.natCast_nonneg _)
    have hlimit := Collateral.add_le_limit (hval ▸ hcostpos) hcover
    have hcommitted : 0 ≤ (B.accounts b.participant).committed.val := by
      rw [h.accounts]
      exact add_nonneg (h.paid_nonneg _) (h.reserved_nonneg _)
    have hlt := (B.accounts b.participant).limit.val_lt
    refine ⟨h.of_account b.participant (d := b.cost) (fun p ↦ ?_)
      (Collateral.val_commit hqty hcostpos hcommitted (by omega)), fun c hc ↦ ?_, h.fills⟩
    · dsimp only
      rw [reserved_cons]
      omega
    · rcases Multiset.mem_cons.mp hc with rfl | hc
      · exact ⟨hpos, hqty⟩
      · exact h.live c hc
  | refuse => exact ⟨h.accounts, h.live, h.fills⟩
  | retire b rest outcome hlive =>
    obtain ⟨hcost, hle⟩ := h.cost_le hlive
    have hb := h.live b (hlive ▸ Multiset.mem_cons_self b rest)
    refine ⟨h.of_account b.participant (d := -b.cost) (fun p ↦ ?_)
      (Collateral.val_release hb.2 hcost hle), fun c hc ↦ ?_, h.fills⟩
    · dsimp only
      rw [hlive, reserved_cons]
      split_ifs <;> omega
    · exact h.live c (hlive ▸ Multiset.mem_cons_of_mem hc)
  | fill b rest f hlive _ hparticipant _ hle hfloor' hprice =>
    obtain ⟨hcost, hcommitted⟩ := h.cost_le hlive
    have hb := h.live b (hlive ▸ Multiset.mem_cons_self b rest)
    have hfprice : 0 ≤ f.price.val := hfloor.trans (I64.le_def.mp hfloor')
    have hfcost : 0 ≤ f.cost := Int.mul_nonneg hfprice (Int.natCast_nonneg _)
    -- A fill costs no more than what was reserved for it.
    have hless : f.cost ≤ b.cost := by
      refine Int.mul_le_mul (I64.le_def.mp hprice) ?_ (Int.natCast_nonneg _) hb.1
      exact_mod_cast hle
    have hfqty : (f.qty.val : ℤ) < 2 ^ 63 := by
      have : (f.qty.val : ℤ) ≤ b.qty.val := by exact_mod_cast hle
      omega
    have hrelease := Collateral.val_release (c := B.accounts b.participant) hb.2 hcost hcommitted
    have hlt := (B.accounts b.participant).committed.val_lt
    have hcommit : (((B.accounts b.participant).release b.price b.qty).commit f.price
        f.qty).committed.val = _ :=
      Collateral.val_commit hfqty hfcost (by rw [hrelease]; exact sub_nonneg.mpr hcommitted)
      (by
        rw [hrelease]
        have : f.price.val * f.qty.val ≤ b.price.val * b.qty.val := hless
        omega)
    refine ⟨h.of_account b.participant (d := f.cost - b.cost) (fun p ↦ ?_) ?_, fun c hc ↦ ?_,
      fun g hg ↦ ?_⟩
    · dsimp only
      rw [hlive, reserved_cons, paid_append, paid_cons, hparticipant]
      have hnil : paid p [] = 0 := rfl
      split_ifs <;> omega
    · rw [hcommit, hrelease, LiveBid.cost, Fill.cost]
      omega
    · exact h.live c (hlive ▸ Multiset.mem_cons_of_mem hc)
    · rcases List.mem_append.mp hg with hg | hg
      · exact h.fills g hg
      · rw [List.mem_singleton.mp hg]
        exact ⟨hfprice, hfqty⟩
  | reprice l₁ l₂ f price hfills hfloor' hprice =>
    have hf := h.fills f (hfills ▸ List.mem_append_right _ List.mem_cons_self)
    have hprice0 : 0 ≤ price.val := hfloor.trans (I64.le_def.mp hfloor')
    have hle := I64.le_def.mp hprice
    have hlt := f.price.val_lt
    have hfreed : (f.price.saturatingSub price).val = f.price.val - price.val :=
      I64.val_saturate_of_mem (by omega) (by omega)
    have hqty0 : (0 : ℤ) ≤ f.qty.val := Int.natCast_nonneg _
    have hamount : 0 ≤ (f.price.saturatingSub price).val * f.qty.val := by
      rw [hfreed]
      exact Int.mul_nonneg (by omega) hqty0
    have hbound : (f.price.saturatingSub price).val * f.qty.val ≤
        (B.accounts f.participant).committed.val := by
      have hpaid : f.cost ≤ paid f.participant B.fills := by
        rw [paid_eq_total]
        refine Owned.le_total_of_mem (fun g hg ↦ ?_)
          (Multiset.mem_coe.mpr (hfills ▸ List.mem_append_right _ List.mem_cons_self))
        exact Int.mul_nonneg (h.fills g (Multiset.mem_coe.mp hg)).1 (Int.natCast_nonneg _)
      have hpart : (f.price.val - price.val) * f.qty.val ≤ f.cost :=
        Int.mul_le_mul_of_nonneg_right (by omega) hqty0
      have hreserved := h.reserved_nonneg f.participant
      rw [hfreed, h.accounts]
      omega
    refine ⟨h.of_account f.participant (d := -((f.price.val - price.val) * f.qty.val))
      (fun p ↦ ?_) ?_,
      h.live, fun g hg ↦ ?_⟩
    · have hcost : (f.at price).cost = f.cost - (f.price.val - price.val) * f.qty.val := by
        show price.val * f.qty.val = f.price.val * f.qty.val - (f.price.val - price.val) * f.qty.val
        rw [Int.sub_mul]
        omega
      have howner : (f.at price).participant = f.participant := rfl
      dsimp only
      rw [hfills, paid_append, paid_append, paid_cons, paid_cons, howner, hcost]
      split_ifs <;> omega
    · rw [Collateral.val_release hf.2 hamount hbound, hfreed]
      omega
    · rcases List.mem_append.mp hg with hg | hg
      · exact h.fills g (hfills ▸ List.mem_append_left _ hg)
      · rcases List.mem_cons.mp hg with rfl | hg
        · exact ⟨hprice0, hf.2⟩
        · exact h.fills g (hfills ▸ List.mem_append_right _ (List.mem_cons_of_mem _ hg))
  | fund participant limit =>
    refine ⟨h.of_account participant (d := 0) (fun p ↦ ?_) ?_, h.live, h.fills⟩
    · rw [ite_self, add_zero]
    · exact (add_zero _).symm

end Book

/-! ## Runs -/

/-- What a bid of the window has reserved. -/
def PendingBid.cost (b : PendingBid) : ℤ := b.reservePrice.val * b.qty.val

/-- What a bid of the ladder has reserved. -/
def RestingBid.cost (b : RestingBid) : ℤ := b.limit.val * b.qty.val

theorem reserved_book (s : AuctionState) (p : ParticipantId) :
    reserved p s.book.live =
      ((((s.window.map OpenWindow.bids).getD []).filter fun b ↦ b.participant = p).map
        PendingBid.cost).sum +
      ((s.resting.bids.filter fun b ↦ b.participant = p).map RestingBid.cost).sum := by
  have hmap : ∀ {α : Type} (live : α → LiveBid) (l : List α),
      Owned.total LiveBid.participant LiveBid.cost p (l.map live : List LiveBid) =
        ((l.filter fun a ↦ (live a).participant = p).map fun a ↦ (live a).cost).sum := by
    intro α live l
    rw [Owned.total_coe, List.filter_map, List.map_map]
    rfl
  rw [reserved, AuctionState.book, inFlight, Owned.total_add, hmap PendingBid.live,
    hmap RestingBid.live]
  rfl

/-- **The collateral ledger is exact.** In every state of a run whose resting limits are not
negative, what a participant has committed is exactly what their fills cost, plus what their bids in
the window and on the ladder have reserved; and once the auction is over, what their fills cost. -/
theorem ledger_exact {config : AuctionConfig} {tr : List Transition} {s : AuctionState}
    (hfloor : 0 ≤ config.floorPrice.val) (hrun : Run config tr s)
    (hlimits : ∀ t ∈ tr, t.input.cmd.RestsNonneg) :
    (∀ p, (s.collateralOf p).committed.val =
      paid p s.fills +
        ((((s.window.map OpenWindow.bids).getD []).filter fun b ↦ b.participant = p).map
          PendingBid.cost).sum +
        ((s.resting.bids.filter fun b ↦ b.participant = p).map RestingBid.cost).sum) ∧
      (s.status.isTerminal = true → ∀ p, (s.collateralOf p).committed.val = paid p s.fills) := by
  have hexact : s.book.Exact :=
    run_book (C := Command.RestsNonneg) Book.exact_empty
      (fun _ _ _ hcmd h hmove ↦ h.move hfloor hcmd hmove) hrun hlimits
  have hcommitted := fun p ↦ (hexact.accounts p).trans
    (congrArg (paid p s.fills + ·) (reserved_book s p))
  refine ⟨fun p ↦ by rw [add_assoc]; exact hcommitted p, fun hterm p ↦ ?_⟩
  have hidle := (run_priced hrun).idle fun hlive ↦ by rw [hlive] at hterm; exact nomatch hterm
  have h := hcommitted p
  rw [hidle.1, hidle.2] at h
  exact h.trans (add_zero _)

/-- The first participant ends up with five units at 900 committed, after a repricing. -/
theorem ledger_exact_sample :
    paid 1 (play (.sample 0) sampleRecords).2.fills = 4500 ∧
      ((play (.sample 0) sampleRecords).2.collateralOf 1).committed.val = 4500 :=
  have hpaid : paid 1 (play (.sample 0) sampleRecords).2.fills = 4500 := by decide
  ⟨hpaid, ((ledger_exact (by decide) (run_play (.sample 0) sampleRecords) (by decide)).2 (by decide)
    1).trans hpaid⟩

end DutchAuction
