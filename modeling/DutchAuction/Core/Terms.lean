import DutchAuction.Core.Keys

/-!
# Nobody pays more than they agreed to

A take agrees to the price it expects and the tolerance on top of it, and to the clock it was
applied at; a resting bid agrees to its limit. Which submission placed a bid is read off the run:
the first one under the bid's key, which is the one that found no record (`Places`).

The price in question is fixed when the window opens, by the first bid in it, and clearing may move
it long after. Neither is looked at again here. On the book a bid carries the price it reserved at,
which is the window's for a take and the limit for a resting bid, and no move fills or reprices
above it. What is left is the moment a bid is placed. -/

namespace DutchAuction

/-- The price is one that a bid of this kind, applied at `applied`, agreed to. -/
def BidKind.Allows (config : AuctionConfig) (applied : Nanos) (price : Price) : BidKind → Prop
  | .take expected => price.val ≤ expected.val + config.priceTolerance.val ∧
      price ≤ config.priceAt applied
  | .resting limit => price ≤ limit

theorem BidKind.Allows.anti {config : AuctionConfig} {applied : Nanos} {price lower : Price}
    {kind : BidKind} (h : kind.Allows config applied price) (hle : lower ≤ price) :
    kind.Allows config applied lower := by
  cases kind with
  | take expected => exact ⟨(I64.le_def.mp hle).trans h.1, hle.trans h.2⟩
  | resting limit => exact hle.trans h

/-- The command that placed a bid: a submission under a key with no record. -/
structure Places (t : Transition) (participant : ParticipantId) (key : IdempotencyKey)
    (kind : BidKind) : Prop where
  fresh : t.pre.outcome key = none
  cmd : ∃ qty, t.input.cmd = .submitBid participant key qty kind

/-- The participant placed a bid under this key, and agreed to this price when doing so. -/
structure Agreed (config : AuctionConfig) (tr : List Transition) (participant : ParticipantId)
    (key : IdempotencyKey) (price : Price) : Prop where
  placed : ∃ t ∈ tr, ∃ kind, Places t participant key kind
  allowed : ∀ t ∈ tr, ∀ p kind, Places t p key kind →
    p = participant ∧ kind.Allows config t.post.now price

variable {config : AuctionConfig} {tr : List Transition} {participant : ParticipantId}
  {key : IdempotencyKey} {price : Price}

theorem Agreed.anti {lower : Price} (h : Agreed config tr participant key price)
    (hle : lower ≤ price) : Agreed config tr participant key lower :=
  ⟨h.placed, fun t ht p kind hplaces ↦
    ⟨(h.allowed t ht p kind hplaces).1, (h.allowed t ht p kind hplaces).2.anti hle⟩⟩

theorem Agreed.later {t : Transition} (h : Agreed config tr participant key price)
    (hkey : t.pre.outcome key ≠ none) : Agreed config (tr ++ [t]) participant key price := by
  obtain ⟨t₀, ht₀, hplaced⟩ := h.placed
  refine ⟨⟨t₀, List.mem_append_left _ ht₀, hplaced⟩, fun t' ht' p kind hplaces ↦ ?_⟩
  rcases List.mem_append.mp ht' with ht' | ht'
  · exact h.allowed t' ht' p kind hplaces
  · rw [List.mem_singleton.mp ht'] at hplaces
    exact absurd hplaces.fresh hkey

theorem Agreed.first {t : Transition} {qty : Qty} {kind : BidKind}
    (hcmd : t.input.cmd = .submitBid participant key qty kind) (hkey : t.pre.outcome key = none)
    (hpast : ∀ t' ∈ tr, ∀ p kind, ¬Places t' p key kind)
    (hallows : kind.Allows config t.post.now price) :
    Agreed config (tr ++ [t]) participant key price := by
  refine ⟨⟨t, List.mem_append_right _ (List.mem_singleton_self t), kind, hkey, qty, hcmd⟩,
    fun t' ht' p kind' hplaces ↦ ?_⟩
  rcases List.mem_append.mp ht' with ht' | ht'
  · exact absurd hplaces (hpast t' ht' p kind')
  · obtain ⟨qty', hcmd'⟩ := hplaces.cmd
    rw [List.mem_singleton.mp ht', hcmd] at hcmd'
    cases hcmd'
    rw [List.mem_singleton.mp ht']
    exact ⟨rfl, hallows⟩

namespace Book

/-- Every live bid and every fill is at a price that `A` allows it. -/
structure Within (A : ParticipantId → IdempotencyKey → Price → Prop) (B : Book) : Prop where
  live : ∀ b ∈ B.live, A b.participant b.key b.price
  fills : ∀ f ∈ B.fills, A f.participant f.key f.price

variable {A : ParticipantId → IdempotencyKey → Price → Prop} {B B' : Book} {floor : Price}
  {cmd : Command}

/-- **No move but an admission takes a bid above its price.** -/
theorem Within.move (h : B.Within A)
    (hanti : ∀ p k price lower, A p k price → lower ≤ price → A p k lower)
    (hcmd : ∀ p k qty kind, cmd ≠ .submitBid p k qty kind) (hmove : Move floor cmd B B') :
    B'.Within A := by
  cases hmove with
  | accept b kind outcome cost hsubmit => exact absurd hsubmit (hcmd _ _ _ _)
  | refuse => exact ⟨h.live, h.fills⟩
  | retire b rest outcome hlive =>
    refine ⟨fun c hc ↦ h.live c ?_, h.fills⟩
    rw [hlive]
    exact Multiset.mem_cons_of_mem hc
  | fill b rest f hlive hkey hparticipant _ _ _ hprice =>
    have hb := h.live b (by rw [hlive]; exact Multiset.mem_cons_self b rest)
    refine ⟨fun c hc ↦ h.live c ?_, fun g hg ↦ ?_⟩
    · rw [hlive]
      exact Multiset.mem_cons_of_mem hc
    · rcases List.mem_append.mp hg with hg | hg
      · exact h.fills g hg
      · rw [List.mem_singleton.mp hg, hkey, hparticipant]
        exact hanti _ _ _ _ hb hprice
  | reprice l₁ l₂ f price hfills _ hprice =>
    have hmem : ∀ g ∈ l₁ ++ f :: l₂, A g.participant g.key g.price := hfills ▸ h.fills
    refine ⟨h.live, fun g hg ↦ ?_⟩
    rcases List.mem_append.mp hg with hg | hg
    · exact hmem g (List.mem_append_left _ hg)
    · rcases List.mem_cons.mp hg with rfl | hg
      · exact hanti _ _ _ _ (hmem f (by simp)) hprice
      · exact hmem g (by simp [hg])
  | fund => exact ⟨h.live, h.fills⟩

end Book

namespace AuctionState

variable {s s' : AuctionState} {t : Nanos} {cmd : Command}

/-! ## A submission puts its key on record

Whatever becomes of a bid, its key is on record afterwards, so the first submission under a key is
the only one that can place a bid. -/

theorem recorded_setOutcome (s : AuctionState) (key : IdempotencyKey) (outcome : Outcome) :
    (s.setOutcome key outcome).outcomes key ≠ none := by
  unfold setOutcome
  dsimp only
  rw [Function.update_self]
  exact Option.some_ne_none _

theorem recorded_reject (s : AuctionState) (key : IdempotencyKey) (reason : RejectReason) :
    (s.reject key reason).1.outcomes key ≠ none := s.recorded_setOutcome key _

theorem Priced.recorded_onBid (h : s.Priced) (seq : Seq) (participant : ParticipantId)
    (key : IdempotencyKey) (qty : Qty) (kind : BidKind) :
    (s.onBid seq s.now participant key qty kind).1.outcomes key ≠ none := by
  unfold onBid
  cases hkey : s.outcomes key with
  | some outcome =>
    show s.outcomes key ≠ none
    rw [hkey]
    exact Option.some_ne_none outcome
  | none =>
    dsimp only
    split_ifs with hzero hlive
    · exact recorded_reject s key _
    · exact recorded_reject s key _
    have hqty : 0 < qty.val := Qty.isZero_eq_false.mp (Bool.not_eq_true _ ▸ hzero)
    have hlive : s.status = .live := by simpa using hlive
    cases kind with
    | take expected =>
      show (s.onTake seq s.now participant key qty expected).1.outcomes key ≠ none
      rcases lt_or_ge s.config.priceTolerance
        (I64.absDiff (s.config.priceAt s.now) expected) with hmoved | hnear
      · rw [onTake_moved seq participant key qty hmoved]
        exact recorded_reject s key _
      cases hres : (s.reserve participant (s.config.windowBounds s.now).2 qty).2 with
      | false =>
        rw [onTake_uncovered seq key hnear hres]
        exact recorded_reject _ key _
      | true =>
        have hqueue : s.Phase (.submitBid participant key qty (.take expected))
            (s.enqueue seq participant key qty) :=
          .queue seq participant key qty expected rfl hkey hqty hlive hres hnear
        have hrecorded : (s.enqueue seq participant key qty).1.outcomes key ≠ none :=
          recorded_setOutcome _ key _
        have hpriced := h.phase hqueue
        rw [onTake_queued seq key hnear hres, Emit.andThen_fst]
        split_ifs with hbatch
        · have hmoves : Book.Moves _ .tick _ _ := moves_flushWindow hpriced fun w hw hstatus ↦
            hpriced.ripe hw hstatus (Or.inl (hqueue.frame.1.symm ▸ hbatch))
          exact hmoves.recorded hrecorded
        · exact hrecorded
    | resting limit =>
      show (s.onRest seq s.now participant key qty limit).1.outcomes key ≠ none
      rcases lt_or_ge (s.config.priceAt s.now) limit with habove | hlimit
      · rw [onRest_above seq participant key qty habove]
        exact recorded_reject s key _
      cases hres : (s.reserve participant limit qty).2 with
      | false =>
        rw [onRest_uncovered seq key hlimit hres]
        exact recorded_reject _ key _
      | true =>
        rw [onRest_rested seq key hlimit hres]
        exact recorded_setOutcome _ key _

/-- **Whatever becomes of a submission, its key is on record afterwards.** -/
theorem Priced.recorded_step {r : LogRecord} {o : List Event} (h : s.Priced)
    (hstep : s.step r = some (s', o)) {qty : Qty} {kind : BidKind}
    {participant : ParticipantId} {key : IdempotencyKey}
    (hcmd : r.cmd = .submitBid participant key qty kind) : s'.outcomes key ≠ none := by
  obtain ⟨-, hadvance⟩ := step_eq_some hstep
  have hclosed := (h.stamp r.seq r.ts).close.recorded_onBid r.seq participant key qty kind
  have hnow := (closeElapsedWindow_frame (s.stamp r.seq r.ts) (s.stamp r.seq r.ts).now).2
  rw [hnow] at hclosed
  rw [hcmd] at hadvance
  have hpost : (advance r.seq r.ts (.submitBid participant key qty kind) s).1 = s' :=
    congrArg Prod.fst hadvance
  rw [← hpost]
  exact hclosed

/-! ## What one phase does to the prices -/

theorem Phase.places_or {r : AuctionState × List Event} (h : s.Phase cmd r) :
    (∃ seq p key qty expected, cmd = .submitBid p key qty (.take expected) ∧
        s.outcomes key = none ∧
        I64.absDiff (s.config.priceAt s.now) expected ≤ s.config.priceTolerance ∧
        r = s.enqueue seq p key qty) ∨
      (∃ seq p key qty limit, cmd = .submitBid p key qty (.resting limit) ∧
        s.outcomes key = none ∧ r = s.shelve seq p key qty limit) ∨
      ∃ cmd', (∀ p key qty kind, cmd' ≠ .submitBid p key qty kind) ∧ s.Phase cmd' r := by
  have hnone : ∀ p key qty kind, Command.tick ≠ .submitBid p key qty kind :=
    fun _ _ _ _ heq ↦ Command.noConfusion heq
  cases h with
  | duplicate key outcome hkey => exact Or.inr (Or.inr ⟨.tick, hnone, .duplicate key outcome hkey⟩)
  | unknown key hkey => exact Or.inr (Or.inr ⟨.tick, hnone, .unknown key hkey⟩)
  | refuse key reason hkey hreason =>
    exact Or.inr (Or.inr ⟨.tick, hnone, .refuse key reason hkey hreason⟩)
  | uncovered p key price qty hkey hres =>
    exact Or.inr (Or.inr ⟨.tick, hnone, .uncovered p key price qty hkey hres⟩)
  | queue seq p key qty expected hcmd hkey _ _ _ hmoved =>
    exact Or.inl ⟨seq, p, key, qty, expected, hcmd, hkey, hmoved, rfl⟩
  | rest seq p key qty limit hcmd hkey =>
    exact Or.inr (Or.inl ⟨seq, p, key, qty, limit, hcmd, hkey, rfl⟩)
  | withdraw p key bid hbid => exact Or.inr (Or.inr ⟨.tick, hnone, .withdraw p key bid hbid⟩)
  | fund p limit hcmd =>
    exact Or.inr (Or.inr ⟨.setCollateral p limit, fun _ _ _ _ heq ↦ Command.noConfusion heq,
      .fund p limit rfl⟩)
  | «open» hpending => exact Or.inr (Or.inr ⟨.tick, hnone, .open hpending⟩)
  | trigger hlive => exact Or.inr (Or.inr ⟨.tick, hnone, .trigger hlive⟩)
  | flush hlive hwhen => exact Or.inr (Or.inr ⟨.tick, hnone, .flush hlive hwhen⟩)
  | floor hlive hfloor hwindow =>
    exact Or.inr (Or.inr ⟨.tick, hnone, .floor hlive hfloor hwindow⟩)
  | cancel hopen =>
    exact Or.inr (Or.inr ⟨.cancel, fun _ _ _ _ heq ↦ Command.noConfusion heq, .cancel hopen rfl⟩)

theorem PricedAt.filled_mem_flushWindow (h : PricedAt t s) {f : Fill}
    (hf : .filled f ∈ s.flushWindow.2) :
    ∃ b ∈ s.book.live, f.key = b.key ∧ f.participant = b.participant ∧ f.price ≤ b.price := by
  rcases s.flushWindow_cases with ⟨-, heq⟩ | ⟨w, -, -, heq⟩ | ⟨w, hw, -, heq⟩
  · rw [heq] at hf
    exact absurd hf List.not_mem_nil
  · rw [heq] at hf
    obtain ⟨b, -, s', he⟩ := Emit.exists_of_mem_forEach_snd hf
    cases List.mem_singleton.mp he
  · rw [heq, Emit.andThen_snd, List.mem_append] at hf
    rcases hf with hf | hf
    · obtain ⟨b, hb, hkey, hparticipant, hprice⟩ := filled_mem_settling hf
      refine ⟨b.live, ?_, hkey, hparticipant, hprice.le.trans (h.covered w hw b hb)⟩
      rw [live_book, liveBids, hw, Multiset.mem_coe, List.mem_append]
      exact Or.inl (List.mem_map_of_mem hb)
    · split_ifs at hf
      · exact absurd hf not_filled_mem_clear
      · exact absurd hf List.not_mem_nil

theorem Priced.filled_mem_phase {r : AuctionState × List Event} (h : s.Priced)
    (hphase : s.Phase cmd r) {f : Fill} (hf : .filled f ∈ r.2) :
    ∃ b ∈ s.book.live, f.key = b.key ∧ f.participant = b.participant ∧ f.price ≤ b.price := by
  cases hphase with
  | flush => exact h.filled_mem_flushWindow hf
  | floor => exact absurd hf not_filled_mem_clear
  | trigger => exact absurd hf List.not_mem_nil
  | «open» hpending =>
    rw [onOpen, if_pos hpending] at hf
    cases List.mem_singleton.mp hf
  | cancel hopen =>
    rw [onCancel, if_neg (by rw [hopen]; exact Bool.false_ne_true), Emit.andThen_snd,
      Emit.andThen_snd, List.mem_append, List.mem_append] at hf
    rcases hf with hf | hf | hf
    · obtain ⟨b, -, s', he⟩ := Emit.exists_of_mem_forEach_snd hf
      cases List.mem_singleton.mp he
    · rw [snd_drainLadder] at hf
      obtain ⟨b, -, he⟩ := List.mem_map.mp hf
      cases he
    · cases List.mem_singleton.mp hf
  | duplicate => cases List.mem_singleton.mp hf
  | unknown => cases List.mem_singleton.mp hf
  | refuse => cases List.mem_singleton.mp hf
  | uncovered => cases List.mem_singleton.mp hf
  | queue => cases List.mem_singleton.mp hf
  | rest => cases List.mem_singleton.mp hf
  | withdraw => cases List.mem_singleton.mp hf
  | fund => cases List.mem_singleton.mp hf

/-! ## Every command -/

/-- No record is lost on the way, and every fill announced is on record and at a price that `A`
allows. -/
structure Tells (A : ParticipantId → IdempotencyKey → Price → Prop) (s : AuctionState)
    (r : AuctionState × List Event) : Prop where
  recorded : ∀ k, s.outcomes k ≠ none → r.1.outcomes k ≠ none
  filled : ∀ f, .filled f ∈ r.2 → r.1.outcomes f.key ≠ none ∧ A f.participant f.key f.price

variable {A : ParticipantId → IdempotencyKey → Price → Prop}

theorem Tells.append {r r' : AuctionState × List Event} (h : Tells A s r) (h' : Tells A r.1 r') :
    Tells A s (r'.1, r.2 ++ r'.2) := by
  refine ⟨fun k hk ↦ h'.recorded k (h.recorded k hk), fun f hf ↦ ?_⟩
  rcases List.mem_append.mp hf with hf | hf
  · exact ⟨h'.recorded f.key (h.filled f hf).1, (h.filled f hf).2⟩
  · exact h'.filled f hf

private theorem tells_of_moves {r : AuctionState × List Event} {floor : Price}
    (hanti : ∀ p k price lower, A p k price → lower ≤ price → A p k lower)
    (hkeyed : s.book.Keyed) (hwithin : s.book.Within A)
    (hmoves : Book.Moves floor cmd s.book r.1.book)
    (hfilled : ∀ f, .filled f ∈ r.2 →
      ∃ b ∈ s.book.live, f.key = b.key ∧ f.participant = b.participant ∧ f.price ≤ b.price) :
    Tells A s r := by
  refine ⟨fun k hk ↦ hmoves.recorded (B := s.book) hk, fun f hf ↦ ?_⟩
  obtain ⟨b, hb, hkey, hparticipant, hprice⟩ := hfilled f hf
  rw [hkey, hparticipant]
  exact ⟨hmoves.recorded (hkeyed.recorded_of_live hb), hanti _ _ _ _ (hwithin.live b hb) hprice⟩

/-- **Every phase keeps the prices within terms**, if the bid it may place comes within its own. -/
theorem Priced.within_phase {r : AuctionState × List Event} (h : s.Priced)
    (hanti : ∀ p k price lower, A p k price → lower ≤ price → A p k lower)
    (hplaces : ∀ p key qty kind price, cmd = .submitBid p key qty kind → s.outcomes key = none →
      kind.Allows s.config s.now price → A p key price)
    (hwithin : s.book.Within A) (hphase : s.Phase cmd r) : r.1.book.Within A := by
  rcases hphase.places_or with ⟨seq, p, key, qty, expected, hcmd, hkey, hmoved, rfl⟩ |
    ⟨seq, p, key, qty, limit, hcmd, hkey, rfl⟩ | ⟨cmd', hnone, hphase'⟩
  · obtain ⟨hlive, hfills⟩ := s.live_enqueue seq p key qty
    have hclock := AuctionConfig.windowPrice_le_priceAt (c := s.config) s.now
    have hallows :
      (BidKind.take expected).Allows s.config s.now (s.config.windowBounds s.now).2 := by
      have hdist := U64.le_def.mp hmoved
      have hle := I64.le_def.mp hclock
      refine ⟨?_, hclock⟩
      unfold I64.absDiff at hdist
      dsimp only at hdist
      omega
    refine ⟨fun b hb ↦ ?_, fun f hf ↦ hwithin.fills f ((congrArg (f ∈ ·) hfills).mp hf)⟩
    rw [hlive] at hb
    rcases Multiset.mem_cons.mp hb with rfl | hb
    · exact hplaces _ _ _ _ _ hcmd hkey hallows
    · exact hwithin.live b hb
  · obtain ⟨hlive, hfills⟩ := s.live_shelve seq p key qty limit
    refine ⟨fun b hb ↦ ?_, fun f hf ↦ hwithin.fills f ((congrArg (f ∈ ·) hfills).mp hf)⟩
    rw [hlive] at hb
    rcases Multiset.mem_cons.mp hb with rfl | hb
    · exact hplaces _ _ _ _ _ hcmd hkey le_rfl
    · exact hwithin.live b hb
  · exact (hphase'.moves h).keeps (fun B B' hB hmove ↦ hB.move hanti hnone hmove) hwithin

/-- **Every command keeps the prices within terms**, and announces no fill outside them. -/
theorem Priced.within_step {r : LogRecord} {o : List Event} (h : s.Priced)
    (hkeyed : s.book.Keyed) (hanti : ∀ p k price lower, A p k price → lower ≤ price → A p k lower)
    (hwithin : s.book.Within A) (hstep : s.step r = some (s', o))
    (hplaces : ∀ p key qty kind price, r.cmd = .submitBid p key qty kind → s.outcomes key = none →
      kind.Allows s.config s'.now price → A p key price) :
    s'.book.Within A ∧ Tells A s (s', o) := by
  have hnow := (step_frame hstep).2
  obtain ⟨-, hadvance⟩ := step_eq_some hstep
  obtain ⟨t, hsteps, heq⟩ := s.advance_eq r.seq r.ts r.cmd
  have hnone : ∀ p key qty kind, Command.tick ≠ .submitBid p key qty kind :=
    fun _ _ _ _ heq ↦ Command.noConfusion heq
  -- First what closing an elapsed window does, which places nothing.
  have hbefore := h.stamp r.seq r.ts
  have hmoves : Book.Moves _ .tick (s.stamp r.seq r.ts).book _ := hbefore.moves
  have hclose : Tells A s
      ((s.stamp r.seq r.ts).closeElapsedWindow (s.stamp r.seq r.ts).now) := by
    have htells : Tells A (s.stamp r.seq r.ts) _ :=
      tells_of_moves hanti hkeyed hwithin hmoves fun f hf ↦ ?_
    · exact ⟨htells.recorded, htells.filled⟩
    obtain ⟨u, -, hat⟩ := hbefore
    rcases (s.stamp r.seq r.ts).closeElapsedWindow_cases (s.stamp r.seq r.ts).now with
      ⟨hnothing, -⟩ | ⟨w, -, -, hflush⟩
    · rw [hnothing] at hf
      exact absurd hf List.not_mem_nil
    · rw [hflush] at hf
      exact hat.filled_mem_flushWindow hf
  have hframe := closeElapsedWindow_frame (s.stamp r.seq r.ts) (s.stamp r.seq r.ts).now
  -- Then the phases of the handler, one of which may place the bid.
  obtain ⟨⟨-, -, hwithin', -⟩, htells⟩ := hsteps.rel
    (P := fun u : AuctionState ↦ u.Priced ∧ u.book.Keyed ∧ u.book.Within A ∧ u.config = s.config ∧
      u.now = s'.now ∧ ∀ k, s.outcomes k ≠ none → u.outcomes k ≠ none) (M := Tells A)
    (fun u ↦ ⟨fun _ hk ↦ hk, fun f hf ↦ absurd hf List.not_mem_nil⟩)
    (fun u v w hv hw ↦ hv.append hw)
    (fun u v hu hphase ↦ by
      obtain ⟨hpriced, hkeyed, hwithin, hconfig, hclock, hrecorded⟩ := hu
      have hv := hphase.moves hpriced
      have htells : Tells A u v := tells_of_moves hanti hkeyed hwithin hv fun f hf ↦
        hpriced.filled_mem_phase hphase hf
      refine ⟨⟨hpriced.phase hphase, hv.keeps (fun _ _ h hm ↦ h.move hm) hkeyed,
        hpriced.within_phase hanti (fun p key qty kind price hcmd hkey hallows ↦ ?_) hwithin hphase,
        hphase.frame.1.trans hconfig, hphase.frame.2.trans hclock,
        fun k hk ↦ htells.recorded k (hrecorded k hk)⟩, htells⟩
      rw [hconfig, hclock] at hallows
      exact hplaces p key qty kind price hcmd (not_not.mp fun hne ↦ hrecorded key hne hkey) hallows)
    ⟨hbefore.close, hmoves.keeps (fun _ _ h hm ↦ h.move hm) hkeyed,
      hmoves.keeps (fun B B' hB hmove ↦ hB.move hanti hnone hmove) hwithin,
      hframe.1, hframe.2.trans hnow.symm, hclose.recorded⟩
  rw [hadvance] at heq
  cases heq
  exact ⟨hwithin', hclose.append htells⟩

end AuctionState

/-! ## Every run

What was placed under a key is found in the list of commands: it is the first submission of that
key. -/

/-- **Nobody pays more than they agreed to.** Every fill, at the price it was announced at and at
the price it has after any repricing, is of a bid that was placed under its key, and is within what
that bid agreed to: a take's expected price with the tolerance and the clock it was applied at, a
resting bid's limit. -/
theorem fills_within_terms {s : AuctionState} (hrun : Run config tr s) :
    (∀ f ∈ s.fills, Agreed config tr f.participant f.key f.price) ∧
      ∀ t ∈ tr, ∀ f, .filled f ∈ t.out → Agreed config tr f.participant f.key f.price := by
  have h : s.book.Within (Agreed config tr) ∧
      (∀ t ∈ tr, ∀ p key kind, Places t p key kind → s.outcomes key ≠ none) ∧
      ∀ t ∈ tr, ∀ f, .filled f ∈ t.out →
        s.outcomes f.key ≠ none ∧ Agreed config tr f.participant f.key f.price := by
    induction hrun with
    | nil =>
      exact ⟨⟨fun b hb ↦ absurd hb (Multiset.notMem_zero b), fun f hf ↦ absurd hf List.not_mem_nil⟩,
        fun t ht ↦ absurd ht List.not_mem_nil, fun t ht ↦ absurd ht List.not_mem_nil⟩
    | @snoc tr s s' r o hrun hstep ih =>
      obtain ⟨hwithin, hplaced, htold⟩ := ih
      have hpriced := run_priced hrun
      have hkeyed := run_keyed hrun
      -- What was agreed before stays agreed, since its key is on record.
      have hlater : ∀ {p key price}, s.outcomes key ≠ none → Agreed config tr p key price →
          Agreed config (tr ++ [⟨s, r, o, s'⟩]) p key price := fun hkey hagreed ↦
        hagreed.later hkey
      have hwithin' : s.book.Within (Agreed config (tr ++ [⟨s, r, o, s'⟩])) :=
        ⟨fun b hb ↦ hlater (hkeyed.recorded_of_live hb) (hwithin.live b hb),
          fun f hf ↦ hlater (hkeyed.recorded_of_fill hf) (hwithin.fills f hf)⟩
      obtain ⟨hpost, htells⟩ := hpriced.within_step hkeyed
        (fun _ _ _ _ hagreed hle ↦ hagreed.anti hle) hwithin' hstep
        fun p key qty kind price hcmd hkey hallows ↦ by
          rw [run_config hrun] at hallows
          exact Agreed.first hcmd hkey
            (fun t ht p kind hplaces ↦ hplaced t ht p key kind hplaces hkey)
            hallows
      refine ⟨hpost, fun t ht p key kind hplaces ↦ ?_, fun t ht f hf ↦ ?_⟩
      · rcases List.mem_append.mp ht with ht | ht
        · exact htells.recorded key (hplaced t ht p key kind hplaces)
        · rw [List.mem_singleton.mp ht] at hplaces
          obtain ⟨qty, hcmd⟩ := hplaces.cmd
          exact hpriced.recorded_step hstep hcmd
      · rcases List.mem_append.mp ht with ht | ht
        · obtain ⟨hkey, hagreed⟩ := htold t ht f hf
          exact ⟨htells.recorded f.key hkey, hlater hkey hagreed⟩
        · rw [List.mem_singleton.mp ht] at hf
          exact htells.filled f hf
  exact ⟨h.1.fills, fun t ht f hf ↦ (h.2.2 t ht f hf).2⟩

/-- The bid resting at 950 under key 101 fills at the clearing price of 900, which it agreed to. -/
theorem fills_within_terms_sample :
    ∃ f ∈ (play (.sample 0) sampleRecords).2.fills, f.key = 101 ∧ f.price = I64.lit 900 ∧
      Agreed (.sample 0) (play (.sample 0) sampleRecords).1 f.participant f.key f.price := by
  have hfill : ∃ f ∈ (play (.sample 0) sampleRecords).2.fills,
      f.key = 101 ∧ f.price = I64.lit 900 := by
    decide
  obtain ⟨f, hf, hkey, hprice⟩ := hfill
  exact ⟨f, hf, hkey, hprice, (fills_within_terms (run_play (.sample 0) sampleRecords)).1 f hf⟩

end DutchAuction
