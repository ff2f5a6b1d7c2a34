import DutchAuction.Core.Ledger

/-!
# Whether collateral is ever exceeded

A participant is solvent when what their fills cost, together with what their bids at non-negative
prices have reserved, is within their ceiling. Admission is decided by one comparison on the
committed amount, and a bid resting at a negative limit makes that amount *smaller*: it lends its
owner room that is not there. While no bid of the participant rests below zero the comparison is
right, and solvency is kept by every move of the book (`Book.Solvent.move`).

So fills stay within the ceiling in every run that never charges a participant while one of their
bids rests below zero (`fills_within_ceiling`), and a run of three commands that does so exceeds it
(`ceiling_exceeded`).
-/

namespace DutchAuction

/-- What a live bid can come to cost: nothing, at a negative price. -/
def LiveBid.exposure (b : LiveBid) : ℤ := max 0 b.cost

/-- What the live bids of a participant can come to cost. -/
def exposed (p : ParticipantId) (live : Multiset LiveBid) : ℤ :=
  Owned.total LiveBid.participant LiveBid.exposure p live

theorem exposed_cons (p : ParticipantId) (b : LiveBid) (live : Multiset LiveBid) :
    exposed p (b ::ₘ live) = (if b.participant = p then b.exposure else 0) + exposed p live :=
  Owned.total_cons _ _ _ _ _

theorem reserved_le_exposed (p : ParticipantId) (live : Multiset LiveBid) :
    reserved p live ≤ exposed p live :=
  Owned.total_le_total fun _ _ ↦ le_max_right _ _

theorem exposed_nonneg (p : ParticipantId) (live : Multiset LiveBid) : 0 ≤ exposed p live :=
  Owned.total_nonneg fun _ _ _ ↦ le_max_left _ _

theorem exposed_eq_reserved {p : ParticipantId} {live : Multiset LiveBid}
    (h : ∀ b ∈ live, b.participant = p → 0 ≤ b.price.val) : exposed p live = reserved p live :=
  Owned.total_congr fun b hb hp ↦
    max_eq_right (Int.mul_nonneg (h b hb hp) (Int.natCast_nonneg _))

/-! ## Saturating arithmetic on an account -/

namespace Collateral

variable {c : Collateral} {price : Price} {qty : Qty} {x : ℤ}

theorem le_val_commit {cost : I64} (hcost : Price.checkedMulQty price qty = some cost)
    (h : x ≤ c.committed.val) (hfits : x + price.val * qty.val < 2 ^ 63) :
    x + price.val * qty.val ≤ (c.commit price qty).committed.val := by
  have hval := (Price.checkedMulQty_eq_some.mp hcost).2
  rw [commit, hcost, Option.getD_some, I64.saturatingAdd, I64.val_saturate, hval]
  omega

theorem le_val_release {cost : I64} (hcost : Price.checkedMulQty price qty = some cost)
    (h : x ≤ c.committed.val) (hfits : x - price.val * qty.val < 2 ^ 63) :
    x - price.val * qty.val ≤ (c.release price qty).committed.val := by
  have hval := (Price.checkedMulQty_eq_some.mp hcost).2
  rw [release, hcost, Option.getD_some, I64.saturatingSub, I64.val_saturate, hval]
  omega

theorem le_val_release_of_nonneg (hnonneg : 0 ≤ price.val * qty.val) (h : x ≤ c.committed.val) :
    x - price.val * qty.val ≤ (c.release price qty).committed.val := by
  have hlt := c.committed.val_lt
  cases hcost : Price.checkedMulQty price qty with
  | some cost => exact le_val_release hcost h (by omega)
  | none =>
    have hlo := c.committed.neg_le
    rw [release, hcost, Option.getD_none, I64.saturatingSub, I64.val_saturate, I64.val_zero]
    omega

end Collateral

namespace Book

variable {floor : Price} {cmd : Command} {B B' : Book}

/-! ## The invariant

A participant is solvent if fills and bids together, a bid below zero counted as nothing, are
within the ceiling, and if what is committed covers what is owed. -/

/-- Every participant's fills and non-negative bids are within their ceiling, and what is committed
never falls short of what they owe. -/
structure Solvent (B : Book) : Prop where
  within : ∀ p, paid p B.fills + exposed p B.live ≤ (B.accounts p).limit.val
  committed : ∀ p, paid p B.fills + reserved p B.live ≤ (B.accounts p).committed.val
  fits : ∀ b ∈ B.live, ∃ cost, Price.checkedMulQty b.price b.qty = some cost
  fills : ∀ f ∈ B.fills, 0 ≤ f.price.val

theorem solvent_empty : Solvent ⟨0, [], fun _ ↦ none, fun _ ↦ default⟩ where
  within := fun _ ↦ le_rfl
  committed := fun _ ↦ le_rfl
  fits := fun _ hb ↦ absurd hb (Multiset.notMem_zero _)
  fills := fun _ hf ↦ absurd hf List.not_mem_nil

/-- The kind of bid that charges its owner: a take, or a limit that is not negative. -/
def Charges : BidKind → Prop
  | .take _ => True
  | .resting limit => 0 ≤ limit.val

instance : DecidablePred Charges
  | .take _ => .isTrue trivial
  | .resting limit => inferInstanceAs (Decidable (0 ≤ limit.val))

/-- What `cmd` asks of the book: a ceiling is not lowered, and a participant is not charged for a
new bid while one of their bids is live below zero. -/
structure Sound (cmd : Command) (B : Book) : Prop where
  raises : ∀ p limit, cmd = .setCollateral p limit → (B.accounts p).limit ≤ limit
  clear : ∀ p key qty kind, cmd = .submitBid p key qty kind → B.outcomes key = none →
    Charges kind → ∀ b ∈ B.live, b.participant = p → 0 ≤ b.price.val

private theorem Solvent.of_account (h : B.Solvent) (q : ParticipantId) (c : Collateral)
    (fills : List Fill) (live : Multiset LiveBid)
    (hwithin : paid q fills + exposed q live ≤ c.limit.val)
    (hcommitted : paid q fills + reserved q live ≤ c.committed.val)
    (hother : ∀ p ≠ q, paid p fills = paid p B.fills ∧ exposed p live = exposed p B.live ∧
      reserved p live = reserved p B.live) (p : ParticipantId) :
    paid p fills + exposed p live ≤ (Function.update B.accounts q c p).limit.val ∧
      paid p fills + reserved p live ≤ (Function.update B.accounts q c p).committed.val := by
  by_cases hp : p = q
  · rw [hp, Function.update_self]
    exact ⟨hwithin, hcommitted⟩
  · obtain ⟨hpaid, hexposed, hreserved⟩ := hother p hp
    rw [Function.update_of_ne hp, hpaid, hexposed, hreserved]
    exact ⟨h.within p, h.committed p⟩

/-- **Every move keeps everyone solvent**, in an auction whose floor is not negative, while the
command is sound. -/
theorem Solvent.move (h : B.Solvent) (hfloor : 0 ≤ floor.val) (hsound : Sound cmd B)
    (hmove : Move floor cmd B B') : B'.Solvent := by
  cases hmove with
  | accept b kind outcome cost hsubmit hprice _ hkey hqty hcost hcover =>
    obtain ⟨-, hval⟩ := Price.checkedMulQty_eq_some.mp hcost
    have hbcost : b.cost = cost.val := hval.symm
    have hwithin := h.within b.participant
    have hcommitted := h.committed b.participant
    have hlt := (B.accounts b.participant).limit.val_lt
    have hle := reserved_le_exposed b.participant B.live
    have hexposure : b.exposure = max 0 b.cost := rfl
    -- Charged only while nothing of the participant's is live below zero, or not charged at all.
    have hcovered : paid b.participant B.fills + exposed b.participant B.live + b.exposure ≤
        (B.accounts b.participant).limit.val := by
      by_cases hneg : 0 ≤ b.price.val
      · have hcharges : Charges kind := by
          rcases hprice with ⟨expected, rfl, -⟩ | rfl
          · exact trivial
          · exact hneg
        have hequal := exposed_eq_reserved (hsound.clear _ _ _ _ hsubmit hkey hcharges)
        have hcostpos : 0 ≤ cost.val := hval ▸ Int.mul_nonneg hneg (Int.natCast_nonneg _)
        have := Collateral.add_le_limit hcostpos hcover
        omega
      · have hcostneg : cost.val ≤ 0 := by
          rw [hval]
          exact Int.mul_nonpos_of_nonpos_of_nonneg (by omega) (Int.natCast_nonneg _)
        omega
    have hcommit := Collateral.le_val_commit hcost hcommitted (by
      rw [← hval, ← hbcost]
      omega)
    have haccount := h.of_account b.participant
      ((B.accounts b.participant).commit b.price b.qty) B.fills (b ::ₘ B.live)
      (by
        rw [exposed_cons, if_pos rfl]
        show _ ≤ (B.accounts b.participant).limit.val
        omega)
      (by
        rw [reserved_cons, if_pos rfl, LiveBid.cost]
        omega)
      fun p hp ↦ ⟨rfl, by rw [exposed_cons, if_neg (Ne.symm hp), zero_add],
        by rw [reserved_cons, if_neg (Ne.symm hp), zero_add]⟩
    refine ⟨fun p ↦ (haccount p).1, fun p ↦ (haccount p).2, fun c hc ↦ ?_, h.fills⟩
    rcases Multiset.mem_cons.mp hc with rfl | hc
    · exact ⟨cost, hcost⟩
    · exact h.fits c hc
  | refuse => exact ⟨h.within, h.committed, h.fits, h.fills⟩
  | retire b rest outcome hlive =>
    obtain ⟨cost, hcost⟩ := h.fits b (hlive ▸ Multiset.mem_cons_self b rest)
    have hwithin := h.within b.participant
    have hcommitted := h.committed b.participant
    rw [hlive, exposed_cons, if_pos rfl] at hwithin
    rw [hlive, reserved_cons, if_pos rfl] at hcommitted
    have hlt := (B.accounts b.participant).limit.val_lt
    have hle := reserved_le_exposed b.participant rest
    have hexposure : 0 ≤ b.exposure := le_max_left _ _
    have hrelease := Collateral.le_val_release hcost hcommitted (by
      rw [LiveBid.cost]
      omega)
    have haccount := h.of_account b.participant
      ((B.accounts b.participant).release b.price b.qty) B.fills rest
      (by
        show _ ≤ (B.accounts b.participant).limit.val
        omega)
      (by
        rw [LiveBid.cost] at hrelease
        omega)
      fun p hp ↦ ⟨rfl, by rw [hlive, exposed_cons, if_neg (Ne.symm hp), zero_add],
        by rw [hlive, reserved_cons, if_neg (Ne.symm hp), zero_add]⟩
    exact ⟨fun p ↦ (haccount p).1, fun p ↦ (haccount p).2,
      fun c hc ↦ h.fits c (hlive ▸ Multiset.mem_cons_of_mem hc), h.fills⟩
  | fill b rest f hlive _ hparticipant _ hle hfloor' hprice =>
    obtain ⟨cost, hcost⟩ := h.fits b (hlive ▸ Multiset.mem_cons_self b rest)
    obtain ⟨hbqty, hbval⟩ := Price.checkedMulQty_eq_some.mp hcost
    have hfprice : 0 ≤ f.price.val := hfloor.trans (I64.le_def.mp hfloor')
    have hbprice : 0 ≤ b.price.val := hfprice.trans (I64.le_def.mp hprice)
    have hqty : (f.qty.val : ℤ) ≤ b.qty.val := by exact_mod_cast hle
    have hless : f.price.val * f.qty.val ≤ b.price.val * b.qty.val :=
      Int.mul_le_mul (I64.le_def.mp hprice) hqty (Int.natCast_nonneg _) hbprice
    have hfpos : 0 ≤ f.price.val * f.qty.val := Int.mul_nonneg hfprice (Int.natCast_nonneg _)
    have hcostlt := cost.val_lt
    have hfcost : Price.checkedMulQty f.price f.qty =
        some ⟨f.price.val * f.qty.val, by omega, by omega⟩ :=
      Price.checkedMulQty_eq_some.mpr ⟨by omega, rfl⟩
    have hwithin := h.within b.participant
    have hcommitted := h.committed b.participant
    rw [hlive, exposed_cons, if_pos rfl] at hwithin
    rw [hlive, reserved_cons, if_pos rfl] at hcommitted
    have hexposure : b.exposure = b.price.val * b.qty.val :=
      max_eq_right (by rw [LiveBid.cost]; omega)
    have hlt := (B.accounts b.participant).limit.val_lt
    have hrest := reserved_le_exposed b.participant rest
    have hrelease := Collateral.le_val_release hcost hcommitted (by
      rw [LiveBid.cost]
      omega)
    have hcommit := Collateral.le_val_commit hfcost hrelease (by
      rw [LiveBid.cost]
      omega)
    have hpaid : ∀ p, paid p (B.fills ++ [f]) =
        paid p B.fills + if b.participant = p then f.price.val * f.qty.val else 0 := fun p ↦ by
      rw [paid_append, paid_cons, hparticipant]
      exact congrArg _ (add_zero _)
    have haccount := h.of_account b.participant
      (((B.accounts b.participant).release b.price b.qty).commit f.price f.qty)
      (B.fills ++ [f]) rest
      (by
        rw [hpaid, if_pos rfl]
        show _ ≤ (B.accounts b.participant).limit.val
        omega)
      (by
        rw [hpaid, if_pos rfl]
        rw [LiveBid.cost] at hcommit
        omega)
      fun p hp ↦ ⟨by rw [hpaid, if_neg (Ne.symm hp), add_zero],
        by rw [hlive, exposed_cons, if_neg (Ne.symm hp), zero_add],
        by rw [hlive, reserved_cons, if_neg (Ne.symm hp), zero_add]⟩
    refine ⟨fun p ↦ (haccount p).1, fun p ↦ (haccount p).2,
      fun c hc ↦ h.fits c (hlive ▸ Multiset.mem_cons_of_mem hc), fun g hg ↦ ?_⟩
    rcases List.mem_append.mp hg with hg | hg
    · exact h.fills g hg
    · rw [List.mem_singleton.mp hg]
      exact hfprice
  | reprice l₁ l₂ f price hfills hfloor' hprice =>
    have hprice0 : 0 ≤ price.val := hfloor.trans (I64.le_def.mp hfloor')
    have hle := I64.le_def.mp hprice
    have hlt := f.price.val_lt
    have hfreed : (f.price.saturatingSub price).val = f.price.val - price.val :=
      I64.val_saturate_of_mem (by omega) (by omega)
    have hamount : 0 ≤ (f.price.saturatingSub price).val * f.qty.val :=
      Int.mul_nonneg (by omega) (Int.natCast_nonneg _)
    have hrelease := Collateral.le_val_release_of_nonneg hamount (h.committed f.participant)
    have hpaid : ∀ p, paid p (l₁ ++ f.at price :: l₂) = paid p B.fills -
        if f.participant = p then (f.price.saturatingSub price).val * f.qty.val else 0 := fun p ↦ by
      have hcost : (f.at price).cost = f.cost - (f.price.val - price.val) * f.qty.val := by
        show price.val * f.qty.val = f.price.val * f.qty.val - (f.price.val - price.val) * f.qty.val
        rw [Int.sub_mul]
        omega
      have howner : (f.at price).participant = f.participant := rfl
      rw [hfills, paid_append, paid_append, paid_cons, paid_cons, howner, hcost, hfreed]
      split_ifs <;> omega
    have hwithin := h.within f.participant
    have haccount := h.of_account f.participant
      ((B.accounts f.participant).release (f.price.saturatingSub price) f.qty)
      (l₁ ++ f.at price :: l₂) B.live
      (by
        rw [hpaid, if_pos rfl]
        show _ ≤ (B.accounts f.participant).limit.val
        omega)
      (by
        rw [hpaid, if_pos rfl]
        omega)
      fun p hp ↦ ⟨by rw [hpaid, if_neg (Ne.symm hp), sub_zero], rfl, rfl⟩
    refine ⟨fun p ↦ (haccount p).1, fun p ↦ (haccount p).2, h.fits, fun g hg ↦ ?_⟩
    rcases List.mem_append.mp hg with hg | hg
    · exact h.fills g (hfills ▸ List.mem_append_left _ hg)
    · rcases List.mem_cons.mp hg with rfl | hg
      · exact hprice0
      · exact h.fills g (hfills ▸ List.mem_append_right _ (List.mem_cons_of_mem _ hg))
  | fund participant limit hcmd =>
    have hraise := I64.le_def.mp (hsound.raises participant limit hcmd)
    have haccount := h.of_account participant
      { B.accounts participant with limit := limit } B.fills B.live
      ((h.within participant).trans hraise) (h.committed participant) fun _ _ ↦ ⟨rfl, rfl, rfl⟩
    exact ⟨fun p ↦ (haccount p).1, fun p ↦ (haccount p).2, h.fits, h.fills⟩

private theorem Sound.answered (h : Sound cmd B) {b : LiveBid} {rest : Multiset LiveBid}
    (hlive : B.live = b ::ₘ rest) (fills : List Fill) (outcome : Outcome) {account : Collateral}
    (hlimit : account.limit = (B.accounts b.participant).limit) :
    Sound cmd
      { live := rest
        fills := fills
        outcomes := Function.update B.outcomes b.key (some outcome)
        accounts := Function.update B.accounts b.participant account } := by
  refine ⟨fun p limit hcmd ↦ ?_, fun p k qty kind hcmd hkey hcharges c hc ↦ ?_⟩
  · dsimp only
    by_cases hp : p = b.participant
    · rw [hp, Function.update_self, hlimit]
      exact h.raises _ limit (hp ▸ hcmd)
    · rw [Function.update_of_ne hp]
      exact h.raises p limit hcmd
  · by_cases hk : k = b.key
    · rw [hk] at hkey
      exact absurd ((Function.update_self _ _ _).symm.trans hkey) (Option.some_ne_none _)
    · exact h.clear p k qty kind hcmd ((Function.update_of_ne hk _ _).symm.trans hkey) hcharges c
        (hlive ▸ Multiset.mem_cons_of_mem hc)

/-- **A command that is sound stays so** while it is handled: bids only leave the book, except for
the one it admits, whose key is then on record. -/
theorem Sound.move (h : Sound cmd B) (hmove : Move floor cmd B B') : Sound cmd B' := by
  cases hmove with
  | accept b kind outcome cost hsubmit =>
    refine ⟨fun p limit hcmd ↦ ?_, fun p key qty kind' hcmd hkey ↦ ?_⟩ <;> rw [hsubmit] at hcmd <;>
      cases hcmd
    exact absurd ((Function.update_self _ _ _).symm.trans hkey) (Option.some_ne_none _)
  | refuse key reason =>
    refine ⟨h.raises, fun p k qty kind hcmd hkey ↦ ?_⟩
    by_cases hk : k = key
    · rw [hk] at hkey
      exact absurd ((Function.update_self _ _ _).symm.trans hkey) (Option.some_ne_none _)
    · exact h.clear p k qty kind hcmd ((Function.update_of_ne hk _ _).symm.trans hkey)
  | retire b rest outcome hlive => exact h.answered hlive B.fills _ rfl
  | fill b rest f hlive => exact h.answered hlive _ _ rfl
  | reprice l₁ l₂ f price hfills =>
    refine ⟨fun p limit hcmd ↦ ?_, fun p k qty kind hcmd hkey ↦ ?_⟩
    · dsimp only
      by_cases hp : p = f.participant
      · rw [hp, Function.update_self]
        exact h.raises _ limit (hp ▸ hcmd)
      · rw [Function.update_of_ne hp]
        exact h.raises p limit hcmd
    · refine h.clear p k qty kind hcmd ?_
      by_cases hk : k = f.key
      · rw [hk] at hkey ⊢
        have hnone : (B.outcomes f.key).map (Outcome.quoting price) = none :=
          (Function.update_self f.key _ B.outcomes).symm.trans hkey
        exact Option.map_eq_none_iff.mp hnone
      · exact (Function.update_of_ne hk _ _).symm.trans hkey
  | fund participant limit hcmd =>
    refine ⟨fun p limit' hcmd' ↦ ?_, h.clear⟩
    rw [hcmd] at hcmd'
    cases hcmd'
    dsimp only
    rw [Function.update_self]

end Book

/-! ## Runs

Only the ladder can hold a bid below zero when the floor is not negative, so the condition on the
commands is one on the bids that rest. -/

/-- The command does not lower a ceiling. -/
def Command.Raises (s : AuctionState) : Command → Prop
  | .setCollateral p limit => (s.collateralOf p).limit ≤ limit
  | _ => True

/-- The command does not charge a participant, under a fresh key, while one of their bids rests at
a negative limit. -/
def Command.ChargesClear (s : AuctionState) : Command → Prop
  | .submitBid p key _ kind => s.outcome key = none → Book.Charges kind →
      ∀ b ∈ s.resting.bids, b.participant = p → 0 ≤ b.limit.val
  | _ => True

instance (s : AuctionState) : DecidablePred (Command.Raises s)
  | .setCollateral p limit => inferInstanceAs (Decidable ((s.collateralOf p).limit ≤ limit))
  | .open => .isTrue trivial
  | .submitBid _ _ _ _ => .isTrue trivial
  | .cancelResting _ _ => .isTrue trivial
  | .tick => .isTrue trivial
  | .cancel => .isTrue trivial

instance (s : AuctionState) : DecidablePred (Command.ChargesClear s)
  | .submitBid p key _ kind =>
    inferInstanceAs (Decidable (s.outcome key = none → Book.Charges kind →
      ∀ b ∈ s.resting.bids, b.participant = p → 0 ≤ b.limit.val))
  | .open => .isTrue trivial
  | .setCollateral _ _ => .isTrue trivial
  | .cancelResting _ _ => .isTrue trivial
  | .tick => .isTrue trivial
  | .cancel => .isTrue trivial

variable {config : AuctionConfig} {tr : List Transition} {s : AuctionState}

private theorem Command.Raises.limit_le {p : ParticipantId} {limit : I64} {cmd : Command}
    (h : cmd.Raises s) (hcmd : cmd = .setCollateral p limit) :
    (s.collateralOf p).limit ≤ limit := by
  subst hcmd
  exact h

private theorem Command.ChargesClear.nonneg {p : ParticipantId} {key : IdempotencyKey} {qty : Qty}
    {kind : BidKind} {cmd : Command} (h : cmd.ChargesClear s)
    (hcmd : cmd = .submitBid p key qty kind) (hkey : s.outcome key = none)
    (hcharges : Book.Charges kind) : ∀ b ∈ s.resting.bids, b.participant = p → 0 ≤ b.limit.val := by
  subst hcmd
  exact h hkey hcharges

private theorem sound_of_command (hfloor : 0 ≤ s.config.floorPrice.val) (h : s.Priced)
    {cmd : Command} (hraises : cmd.Raises s) (hclear : cmd.ChargesClear s) :
    Book.Sound cmd s.book := by
  refine ⟨fun p limit hcmd ↦ hraises.limit_le hcmd,
    fun p key qty kind hcmd hkey hcharges b hb hp ↦ ?_⟩
  rw [AuctionState.live_book, Multiset.mem_coe, AuctionState.liveBids, List.mem_append] at hb
  rcases hb with hb | hb
  · obtain ⟨c, hc, rfl⟩ := List.mem_map.mp hb
    cases hw : s.window with
    | none =>
      rw [hw] at hc
      exact absurd hc List.not_mem_nil
    | some w =>
      rw [hw] at hc
      have hprice : (s.config.windowBounds s.now).2 = w.price :=
        congrArg Prod.snd (h.window w hw)
      have hle := AuctionConfig.floor_le_windowPrice (c := s.config) s.now
      exact hfloor.trans (I64.le_def.mp ((hprice ▸ hle).trans (h.covered w hw c hc)))
  · obtain ⟨c, hc, rfl⟩ := List.mem_map.mp hb
    exact hclear.nonneg hcmd hkey hcharges c hc hp

/-- **Fills stay within the ceiling** in every state of a run that never lowers a ceiling and never
charges a participant while one of their bids rests below zero. -/
theorem fills_within_ceiling (hfloor : 0 ≤ config.floorPrice.val) (hrun : Run config tr s)
    (hraises : ∀ t ∈ tr, t.input.cmd.Raises t.pre)
    (hclear : ∀ t ∈ tr, t.input.cmd.ChargesClear t.pre) (p : ParticipantId) :
    paid p s.fills ≤ (s.collateralOf p).limit.val := by
  have h : s.Priced ∧ s.config = config ∧ s.book.Solvent :=
    hrun.invariant_of (P := fun s ↦ s.Priced ∧ s.config = config ∧ s.book.Solvent)
      (C := fun t ↦ t.input.cmd.Raises t.pre ∧ t.input.cmd.ChargesClear t.pre)
      ⟨AuctionState.priced_new config, rfl, Book.solvent_empty⟩
      (fun s r s' o hs hstep hC ↦ by
        obtain ⟨hpriced, hconfig, hsolvent⟩ := hs
        rw [← hconfig] at hfloor
        have hsound := sound_of_command hfloor hpriced hC.1 hC.2
        refine ⟨hpriced.step hstep, (step_frame hstep).1.trans hconfig, ?_⟩
        exact ((hpriced.moves hstep).keeps (P := fun B ↦ B.Solvent ∧ Book.Sound r.cmd B)
          (fun B B' hB hmove ↦ ⟨hB.1.move hfloor hB.2 hmove, hB.2.move hmove⟩)
          ⟨hsolvent, hsound⟩).1) fun t ht ↦ ⟨hraises t ht, hclear t ht⟩
  have hwithin := h.2.2.within p
  have hexposed := exposed_nonneg p s.book.live
  have hpaid : paid p s.book.fills = paid p s.fills := rfl
  have hlimit : (s.book.accounts p).limit.val = (s.collateralOf p).limit.val := rfl
  omega

/-- One participant, funded up to 20000, who rests a bid at 950 and then takes at 1000. -/
theorem fills_within_ceiling_funded :
    (play (.sample 0) (script [(0, .open), (0, .setCollateral 1 (I64.lit 20000)),
      (0, .submitBid 1 101 (U64.lit 5) (.resting (I64.lit 950))),
      (0, .submitBid 1 102 (U64.lit 5) (.take (I64.lit 1000)))])).2.fills ≠ [] ∧
    paid 1 (play (.sample 0) (script [(0, .open), (0, .setCollateral 1 (I64.lit 20000)),
      (0, .submitBid 1 101 (U64.lit 5) (.resting (I64.lit 950))),
      (0, .submitBid 1 102 (U64.lit 5) (.take (I64.lit 1000)))])).2.fills ≤ 20000 := by
  refine ⟨by decide, ?_⟩
  exact fills_within_ceiling (by decide) (run_play _ _) (by decide) (by decide) 1

/-- A participant with a ceiling of 100 who rests ten units at minus 1000, and is then let through
for ten units at 1000. -/
theorem ceiling_exceeded :
    ¬∀ (config : AuctionConfig) (tr : List Transition) (s : AuctionState),
      0 ≤ config.floorPrice.val → config.floorPrice ≤ config.startPrice → Run config tr s →
      (∀ t ∈ tr, t.input.cmd.Raises t.pre) →
        ∀ p, paid p s.fills ≤ (s.collateralOf p).limit.val := by
  intro h
  have := h (.sample 0) _ _ (by decide) (by decide)
    (run_play _ (script [(0, .open), (0, .setCollateral 1 (I64.lit 100)),
      (0, .submitBid 1 101 (U64.lit 10) (.resting (I64.lit (-1000)))),
      (0, .submitBid 1 102 (U64.lit 10) (.take (I64.lit 1000)))])) (by decide) 1
  revert this
  decide

end DutchAuction
