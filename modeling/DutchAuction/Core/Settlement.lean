import DutchAuction.Core.Ledger
import DutchAuction.Core.Supply

/-!
# What a cleared auction settles for

An auction that clears leaves fills at one price and collateral committed for them. Settlement reads
both: what each fill is worth (`Fill.consideration`, checked arithmetic that may fail), what each
participant has committed, and what was sold. The three agree to the unit. No fill's worth
overflows, a participant owes the clearing price for each unit bought and nothing else, and what all
the buyers have committed is the clearing price for every unit that left the supply.
-/

namespace DutchAuction

/-- What this fill is worth at its current price; `none` on overflow. -/
def Fill.consideration (f : Fill) : Option I64 := Price.checkedMulQty f.price f.qty

/-- The units a participant bought. -/
def bought (p : ParticipantId) (fills : List Fill) : ℕ :=
  sold (fills.filter fun f ↦ f.participant = p)

theorem sum_cost_of_uniform {fills : List Fill} {price : Price} (h : ∀ f ∈ fills, f.price = price) :
    (fills.map Fill.cost).sum = price.val * sold fills := by
  induction fills with
  | nil => exact (Int.mul_zero _).symm
  | cons f fills ih =>
    have hsold : sold (f :: fills) = f.qty.val + sold fills := rfl
    rw [List.map_cons, List.sum_cons, ih fun g hg ↦ h g (List.mem_cons_of_mem _ hg), hsold,
      Fill.cost, h f List.mem_cons_self, Int.natCast_add, Int.mul_add]

theorem paid_of_uniform {fills : List Fill} {price : Price} (h : ∀ f ∈ fills, f.price = price)
    (p : ParticipantId) : paid p fills = price.val * bought p fills :=
  sum_cost_of_uniform fun f hf ↦ h f (List.mem_filter.mp hf).1

/-- **A fill of an exact book has a worth**: it is committed, so it fits. -/
theorem Book.Exact.consideration {B : Book} (h : B.Exact) {f : Fill} (hf : f ∈ B.fills) :
    ∃ amount, f.consideration = some amount ∧ amount.val = f.price.val * f.qty.val := by
  obtain ⟨hprice, hqty⟩ := h.fills f hf
  have hcost : 0 ≤ f.price.val * f.qty.val := Int.mul_nonneg hprice (Int.natCast_nonneg _)
  have hpaid : f.price.val * f.qty.val ≤ paid f.participant B.fills := by
    rw [paid_eq_total]
    have hcosts : ∀ g ∈ (B.fills : Multiset Fill), 0 ≤ g.cost := fun g hg ↦
      Int.mul_nonneg (h.fills g (Multiset.mem_coe.mp hg)).1 (Int.natCast_nonneg _)
    exact Owned.le_total_of_mem hcosts (Multiset.mem_coe.mpr hf)
  have hreserved := h.reserved_nonneg f.participant
  have hcommitted := h.accounts f.participant
  have hlt := (B.accounts f.participant).committed.val_lt
  have hlo : -2 ^ 63 ≤ f.price.val * f.qty.val := by omega
  have hhi : f.price.val * f.qty.val < 2 ^ 63 := by omega
  exact ⟨⟨_, hlo, hhi⟩, Price.checkedMulQty_eq_some.mpr ⟨hqty, rfl⟩, rfl⟩

/-- What a cleared state settles for. -/
structure Settles (config : AuctionConfig) (s : AuctionState) (price : Price) : Prop where
  /-- Every fill has a worth: the clearing price for each of its units. -/
  worth : ∀ f ∈ s.fills, ∃ amount, f.consideration = some amount ∧
    amount.val = price.val * f.qty.val
  /-- Every participant has committed the clearing price for each unit bought. -/
  owed : ∀ p, (s.collateralOf p).committed.val = price.val * bought p s.fills
  /-- All the buyers together have committed it for each unit that left the supply. -/
  proceeds : ∀ buyers : Finset ParticipantId, (∀ f ∈ s.fills, f.participant ∈ buyers) →
    ∑ p ∈ buyers, (s.collateralOf p).committed.val =
      price.val * (config.totalSupply.val - s.supplyRemaining.val)

/-- **A cleared auction settles to the unit**, in every state of a run whose resting limits are not
negative. -/
theorem cleared_settles {config : AuctionConfig} {tr : List Transition} {s : AuctionState}
    (hfloor : 0 ≤ config.floorPrice.val) (hrun : Run config tr s)
    (hlimits : ∀ t ∈ tr, t.input.cmd.RestsNonneg) {price : Price}
    (hprice : s.clearingPrice = some price) : Settles config s price := by
  have hpriced := run_priced hrun
  have hexact : s.book.Exact :=
    run_book (C := Command.RestsNonneg) Book.exact_empty
      (fun _ _ _ hcmd h hmove ↦ h.move hfloor hcmd hmove) hrun hlimits
  have htallied : s.Tallied :=
    hrun.invariant (AuctionState.tallied_new config) fun _ _ _ _ h h' ↦ h.step h'
  have huniform := (hpriced.clearedAt price hprice).uniform
  have hcleared : s.status = .cleared := hpriced.cleared.mpr (by rw [hprice]; rfl)
  have hidle := hpriced.idle (by rw [hcleared]; exact fun h ↦ nomatch h)
  have hnone : s.book.live = 0 := by
    rw [s.live_book, AuctionState.liveBids, hidle.1, hidle.2]
    rfl
  have howed : ∀ p, (s.collateralOf p).committed.val = paid p s.fills := fun p ↦ by
    have haccount := hexact.accounts p
    rw [hnone, reserved, Owned.total_zero, add_zero] at haccount
    exact haccount
  refine ⟨fun f hf ↦ ?_, fun p ↦ (howed p).trans (paid_of_uniform huniform p),
    fun buyers hbuyers ↦ ?_⟩
  · have hworth := hexact.consideration hf
    rwa [huniform f hf] at hworth
  · have hconserved := htallied.conserved
    rw [run_config hrun] at hconserved
    calc ∑ p ∈ buyers, (s.collateralOf p).committed.val
        = ∑ p ∈ buyers, Owned.total Fill.participant Fill.cost p s.fills :=
          Finset.sum_congr rfl fun p _ ↦ (howed p).trans (paid_eq_total p s.fills)
      _ = (s.fills.map Fill.cost).sum :=
          Owned.sum_total fun f hf ↦ hbuyers f (Multiset.mem_coe.mp hf)
      _ = price.val * sold s.fills := sum_cost_of_uniform huniform
      _ = price.val * (config.totalSupply.val - s.supplyRemaining.val) := by
          congr 1
          omega

/-- Ten units at 900: two buyers have committed 4500 each, which is 9000 together. -/
theorem cleared_settles_sample :
    Settles (.sample 0) (play (.sample 0) sampleRecords).2 (I64.lit 900) ∧
      bought 1 (play (.sample 0) sampleRecords).2.fills = 5 ∧
      bought 2 (play (.sample 0) sampleRecords).2.fills = 5 :=
  ⟨cleared_settles (by decide) (run_play (.sample 0) sampleRecords) (by decide) (by decide),
    by decide, by decide⟩

end DutchAuction
