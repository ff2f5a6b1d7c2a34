import DutchAuction.Core.Run

/-!
# Supply is conserved

The units sold and the units remaining always add up to the supply, exactly and not merely within
the saturating arithmetic that moves them; every fill is of at least one unit; fills are numbered in
the order they were made; and an auction that still accepts bids, or has yet to open, has something
to sell.

`Tally` says this of the five fields it concerns. Only a flush moves units, from the remaining
supply to the fills it appends (`sold_fillsOf`), and only the exhaustion of the supply ends the
auction there. -/

namespace DutchAuction

/-- The units a list of fills allocates. -/
def sold (fills : List Fill) : ℕ := (fills.map fun f ↦ f.qty.val).sum

theorem sold_append (l l' : List Fill) : sold (l ++ l') = sold l + sold l' := by
  simp [sold]

@[simp] theorem sold_map_at (price : Price) (fills : List Fill) :
    sold (fills.map (Fill.at price)) = sold fills := by
  rw [sold, sold, List.map_map]
  rfl

@[simp] theorem map_id_map_at (price : Price) (fills : List Fill) :
    (fills.map (Fill.at price)).map Fill.id = fills.map Fill.id := by
  rw [List.map_map]
  rfl

/-! ## The fills of one settlement loop -/

variable {price : Price} {id : FillId} {l : List (PendingBid × ℕ)}

theorem mem_fillsOf {f : Fill} (h : f ∈ fillsOf price id l) :
    ∃ ba ∈ l, 0 < ba.2 ∧ f.key = ba.1.key ∧ f.participant = ba.1.participant ∧
      f.qty = U64.saturate ba.2 ∧ f.price = price := by
  induction l generalizing id with
  | nil => exact absurd h List.not_mem_nil
  | cons ba l ih =>
    obtain ⟨b, alloc⟩ := ba
    rw [fillsOf] at h
    split_ifs at h with hz
    · obtain ⟨ba, hba, hf⟩ := ih h
      exact ⟨ba, List.mem_cons_of_mem _ hba, hf⟩
    · rcases List.mem_cons.mp h with rfl | h
      · exact ⟨(b, alloc), List.mem_cons_self, Nat.pos_of_ne_zero hz, rfl, rfl, rfl, rfl⟩
      · obtain ⟨ba, hba, hf⟩ := ih h
        exact ⟨ba, List.mem_cons_of_mem _ hba, hf⟩

theorem sold_fillsOf (h : ∀ ba ∈ l, ba.2 < 2 ^ 64) :
    sold (fillsOf price id l) = (l.map Prod.snd).sum := by
  induction l generalizing id with
  | nil => rfl
  | cons ba l ih =>
    obtain ⟨b, alloc⟩ := ba
    have hrest := fun id ↦ @ih id fun ba hba ↦ h ba (List.mem_cons_of_mem _ hba)
    rw [fillsOf, List.map_cons, List.sum_cons]
    split_ifs with hz
    · rw [hrest, hz, Nat.zero_add]
    · rw [← hrest (id + 1)]
      show (U64.saturate alloc).val + _ = _
      rw [U64.val_saturate_of_lt (h _ List.mem_cons_self)]
      rfl

theorem map_id_fillsOf (price : Price) (id : FillId) (l : List (PendingBid × ℕ)) :
    (fillsOf price id l).map Fill.id = List.range' id (fillsOf price id l).length := by
  induction l generalizing id with
  | nil => rfl
  | cons ba l ih =>
    obtain ⟨b, alloc⟩ := ba
    rw [fillsOf]
    split_ifs
    · exact ih _
    · rw [List.map_cons, ih, List.length_cons, List.range'_succ]

theorem qty_pos_of_mem_fillsOf {f : Fill} (h : f ∈ fillsOf price id l) : 0 < f.qty.val := by
  obtain ⟨ba, -, hpos, -, -, hqty, -⟩ := mem_fillsOf h
  rw [hqty, U64.val_saturate]
  omega

/-! ## The invariant

The units sold, with what remains, are what was offered; matching moves units from the second to
the first, and nothing else touches them. -/

/-- The books of the seller: what was sold, what remains, and whether that ends the auction. -/
structure Tally (total : Qty) (status : Status) (supply : Qty) (fills : List Fill)
    (nextFillId : FillId) : Prop where
  /-- Nothing is lost and nothing is sold twice. -/
  conserved : sold fills + supply.val = total.val
  /-- Every fill is of something. -/
  positive : ∀ f ∈ fills, 0 < f.qty.val
  /-- Fills are numbered in order. -/
  numbered : fills.map Fill.id = List.range fills.length
  next : nextFillId = fills.length
  /-- Running out ends the auction. -/
  available : 0 < total.val → status.isTerminal = false → 0 < supply.val

namespace AuctionState

/-- The seller's books of a state balance. -/
def Tallied (s : AuctionState) : Prop :=
  Tally s.config.totalSupply s.status s.supplyRemaining s.fills s.nextFillId

variable {s : AuctionState}

theorem tallied_bare : s.bare.Tallied ↔ s.Tallied := Iff.rfl

theorem tallied_new (config : AuctionConfig) : (new config).Tallied where
  conserved := Nat.zero_add _
  positive := fun _ hf ↦ absurd hf List.not_mem_nil
  numbered := rfl
  next := rfl
  available := fun h _ ↦ h

private theorem Tallied.terminal (h : s.Tallied) (status : Status) (price : Option Price)
    (hstatus : status.isTerminal = true) :
    { s with status := status, clearingPrice := price }.Tallied :=
  ⟨h.conserved, h.positive, h.numbered, h.next,
    fun _ hopen ↦ absurd hstatus (by rw [hopen]; exact Bool.false_ne_true)⟩

theorem Tallied.clear (h : s.Tallied) (price : Price) : (s.clear price).1.Tallied := by
  rw [← tallied_bare, bare_clear]
  refine ⟨?_, fun f hf ↦ ?_, ?_, ?_, fun _ hopen ↦ absurd hopen Bool.noConfusion⟩
  · rw [sold_map_at]
    exact h.conserved
  · obtain ⟨g, hg, rfl⟩ := List.mem_map.mp hf
    exact h.positive g hg
  · rw [map_id_map_at, List.length_map]
    exact h.numbered
  · rw [List.length_map]
    exact h.next

private theorem Tallied.settled (h : s.Tallied) (w : OpenWindow) :
    sold (s.fills ++ s.windowFills w) + (s.supplyAfter w).val = s.config.totalSupply.val ∧
      (0 < s.supplyRemaining.val → ¬s.Exhausts w → 0 < (s.supplyAfter w).val) := by
  have hsum := sum_allocations w.bids s.supplyRemaining
  have hfits : ∀ ba ∈ allocations w.bids s.supplyRemaining, ba.2 < 2 ^ 64 := fun ba hba ↦
    (alloc_le_qty hba).trans_lt ba.1.qty.val_lt
  constructor
  · have := h.conserved
    rw [sold_append, windowFills, sold_fillsOf hfits, supplyAfter]
    omega
  · intro hpos hex
    have hdemand := mt (exhausted_iff_le_demand w.bids hpos).mpr hex
    rw [supplyAfter, val_supply_matchLevels, flatten_priceLevels,
      demand_perm (byPriority_perm w.bids)]
    omega

theorem Tallied.flushWindow (h : s.Tallied) : s.flushWindow.1.Tallied := by
  rcases s.flushWindow_cases with ⟨-, hf⟩ | ⟨w, -, -, hf⟩ | ⟨w, hw, hlive, -⟩
  · rwa [hf]
  · rw [hf, ← tallied_bare, bare_turnAwayPending_loop]
    exact h
  · obtain ⟨hconserved, havailable⟩ := Tallied.settled h w
    -- The books balance after the loop whatever the status; the status is dealt with last.
    have hbooks : ∀ status : Status, (status.isTerminal = false → ¬s.Exhausts w) →
        { (s.settled w).bare with status := status }.Tallied := by
      intro status hstatus
      rw [bare_settled]
      refine ⟨hconserved, fun f hf ↦ ?_, ?_, ?_, fun htotal hopen ↦ ?_⟩
      · rcases List.mem_append.mp hf with hf | hf
        · exact h.positive f hf
        · exact qty_pos_of_mem_fillsOf hf
      · have hids := map_id_fillsOf w.price s.nextFillId (allocations w.bids s.supplyRemaining)
        show (s.fills ++ s.windowFills w).map Fill.id = _
        rw [List.map_append, h.numbered, windowFills, hids, h.next, List.length_append,
          List.range_eq_range', List.range_eq_range', ← List.range'_append_1, Nat.zero_add]
      · show s.nextFillId + _ = (s.fills ++ s.windowFills w).length
        rw [List.length_append, h.next]
      · exact havailable (h.available htotal (by rw [hlive]; rfl)) (hstatus hopen)
    rw [← tallied_bare, bare_flushWindow_live hw hlive]
    split_ifs with hex
    · have hclear := Tallied.clear (s := { s.settled w with status := .cleared })
        (hbooks .cleared fun h ↦ absurd h Bool.noConfusion) w.price
      rwa [← tallied_bare, bare_clear] at hclear ⊢
    · have hstatus : (s.settled w).bare = { (s.settled w).bare with status := .live } := by
        rw [bare_settled]
        simp only [bare, hlive]
      rw [hstatus]
      exact hbooks .live fun _ ↦ hex

/-- **Every phase keeps the tally.** -/
theorem Tallied.phase {cmd : Command} {t : AuctionState × List Event} (h : s.Tallied)
    (hphase : s.Phase cmd t) : t.1.Tallied := by
  cases hphase with
  | duplicate => exact h
  | unknown => exact h
  | refuse => exact h
  | uncovered participant key price qty =>
    obtain ⟨c, hc⟩ := s.reserve_frame participant price qty
    rw [hc]
    exact h
  | queue seq participant key qty =>
    obtain ⟨c, hc⟩ := s.reserve_frame participant (s.config.windowBounds s.now).2 qty
    unfold enqueue
    dsimp only
    rw [hc]
    exact h
  | rest seq participant key qty limit =>
    obtain ⟨c, hc⟩ := s.reserve_frame participant limit qty
    unfold shelve
    dsimp only
    rw [hc]
    exact h
  | withdraw => exact h
  | fund => exact h
  | «open» hpending =>
    unfold onOpen
    rw [if_pos hpending]
    exact ⟨h.conserved, h.positive, h.numbered, h.next,
      fun htotal _ ↦ h.available htotal (by rw [hpending]; rfl)⟩
  | trigger =>
    rw [s.triggerResting_eq]
    exact h
  | flush => exact h.flushWindow
  | floor => exact h.clear _
  | cancel hopen =>
    rw [← tallied_bare, bare_onCancel hopen]
    exact Tallied.terminal h .cancelled s.clearingPrice rfl

theorem Tallied.step {r : LogRecord} {s' : AuctionState} {o : List Event} (h : s.Tallied)
    (hstep : s.step r = some (s', o)) : s'.Tallied := by
  refine step_keeps (J := Tallied) h id (fun s h ↦ ?_) (fun s t h ht ↦ h.phase ht) hstep
  rcases s.closeElapsedWindow_cases s.now with ⟨heq, -⟩ | ⟨w, -, -, heq⟩
  · rwa [heq]
  · rw [heq]
    exact h.flushWindow

end AuctionState

/-- **Supply is conserved and never oversold**, in every state a run reaches. -/
theorem supply_conserved {config : AuctionConfig} {tr : List Transition} {s : AuctionState}
    (hrun : Run config tr s) :
    sold s.fills + s.supplyRemaining.val = config.totalSupply.val ∧
      (∀ f ∈ s.fills, 0 < f.qty.val) ∧ s.fills.map Fill.id = List.range s.fills.length ∧
      s.nextFillId = s.fills.length ∧
      (0 < config.totalSupply.val → s.status = .live → 0 < s.supplyRemaining.val) := by
  have h : s.Tallied :=
    hrun.invariant (AuctionState.tallied_new config) fun _ _ _ _ h h' ↦ h.step h'
  rw [← run_config hrun]
  exact ⟨h.conserved, h.positive, h.numbered, h.next,
    fun htotal hlive ↦ h.available htotal (by rw [hlive]; rfl)⟩

/-- Ten units sold in two fills, five and five. -/
theorem supply_conserved_sample :
    sold (play (.sample 0) sampleRecords).2.fills = 10 ∧
      (play (.sample 0) sampleRecords).2.nextFillId = 2 := by
  have h := supply_conserved (run_play (.sample 0) sampleRecords)
  have hremaining : (play (.sample 0) sampleRecords).2.supplyRemaining.val = 0 := by decide
  have hlength : (play (.sample 0) sampleRecords).2.fills.length = 2 := by decide
  have htotal : (AuctionConfig.sample 0).totalSupply.val = 10 := rfl
  exact ⟨by omega, h.2.2.2.1.trans hlength⟩

end DutchAuction
