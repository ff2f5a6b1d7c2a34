import DutchAuction.Core.Terms

/-!
# The end of an auction is final

Whichever way an auction ends, the window and the ladder are empty by then, and that is what the
handlers rest on: opening asks for a pending auction, a bid for one that accepts bids, a tick and a
cancellation look at the status too, but a withdrawal and the closing of an elapsed window look at
nothing else. `Ended` says what a state may still differ in from one in which the auction was over.

On the way there the status goes forward only (`Status.Follows`), by at most one stage a command.
-/

namespace DutchAuction

/-- Where the status may be after a command. -/
inductive Status.Follows : Status → Status → Prop
  | stay (status : Status) : Follows status status
  | opened : Follows .pending .live
  | cleared : Follows .live .cleared
  | cancelled (status : Status) (hopen : status = .pending ∨ status = .live) :
      Follows status .cancelled

namespace AuctionState

variable {s t u : AuctionState}

/-- What stays of an auction once it is over. Ceilings may still be set, time passes, and a key that
was never submitted may still be refused. -/
structure Ended (s t : AuctionState) : Prop where
  status : t.status = s.status
  clearingPrice : t.clearingPrice = s.clearingPrice
  fills : t.fills = s.fills
  supplyRemaining : t.supplyRemaining = s.supplyRemaining
  committed : ∀ p, (t.collateralOf p).committed = (s.collateralOf p).committed
  known : ∀ k, s.outcome k ≠ none → t.outcome k = s.outcome k
  unknown : ∀ k, s.outcome k = none → t.outcome k = none ∨
    ∃ reason, (reason = .notLive ∨ reason = .zeroQuantity) ∧ t.outcome k = some (.rejected reason)

theorem Ended.refl (s : AuctionState) : Ended s s :=
  ⟨rfl, rfl, rfl, rfl, fun _ ↦ rfl, fun _ _ ↦ rfl, fun _ hk ↦ Or.inl hk⟩

theorem Ended.trans (h : Ended s t) (h' : Ended t u) : Ended s u where
  status := h'.status.trans h.status
  clearingPrice := h'.clearingPrice.trans h.clearingPrice
  fills := h'.fills.trans h.fills
  supplyRemaining := h'.supplyRemaining.trans h.supplyRemaining
  committed p := (h'.committed p).trans (h.committed p)
  known k hk := by
    have heq := h.known k hk
    rw [h'.known k (by rw [heq]; exact hk), heq]
  unknown k hk := by
    rcases h.unknown k hk with hnone | ⟨reason, hreason, hrecord⟩
    · exact h'.unknown k hnone
    · refine Or.inr ⟨reason, hreason, ?_⟩
      rw [h'.known k (by rw [hrecord]; exact Option.some_ne_none _), hrecord]

private theorem Ended.reject {key : IdempotencyKey} {reason : RejectReason}
    (hkey : s.outcomes key = none) (hreason : reason = .notLive ∨ reason = .zeroQuantity) :
    Ended s (s.reject key reason).1 := by
  have hother : ∀ k, k ≠ key → (s.reject key reason).1.outcomes k = s.outcomes k := fun k hk ↦
    Function.update_of_ne hk _ _
  refine ⟨rfl, rfl, rfl, rfl, fun _ ↦ rfl, fun k hk ↦ hother k fun heq ↦ hk (heq ▸ hkey),
    fun k hk ↦ ?_⟩
  by_cases heq : k = key
  · refine Or.inr ⟨reason, hreason, ?_⟩
    show Function.update s.outcomes key _ k = _
    rw [heq, Function.update_self, hkey]
    rfl
  · exact Or.inl ((hother k heq).trans hk)

/-- **No handler moves an auction that is over.** -/
private theorem Ended.handle (hterm : s.status.isTerminal = true) (hresting : s.resting.bids = [])
    (seq : Seq) (ts : Nanos) (cmd : Command) : Ended s (handle seq ts cmd s).1 := by
  have hclosed : s.status.acceptsBids = false := by
    cases hstatus : s.status with
    | pending => rw [hstatus] at hterm; cases hterm
    | live => rw [hstatus] at hterm; cases hterm
    | cleared => rfl
    | cancelled => rfl
  cases cmd with
  | «open» =>
    show Ended s s.onOpen.1
    rw [onOpen, if_neg fun hpending ↦ by rw [hpending] at hterm; cases hterm]
    exact Ended.refl s
  | setCollateral participant limit =>
    refine ⟨rfl, rfl, rfl, rfl, fun p ↦ ?_, fun _ _ ↦ rfl, fun _ hk ↦ Or.inl hk⟩
    show ((Function.update s.collateral participant _ p).getD default).committed = _
    by_cases hp : p = participant
    · rw [hp, Function.update_self]
      rfl
    · rw [Function.update_of_ne hp]
      rfl
  | submitBid participant key qty kind =>
    show Ended s (s.onBid seq ts participant key qty kind).1
    unfold onBid
    cases hkey : s.outcomes key with
    | some outcome => exact Ended.refl s
    | none =>
      dsimp only
      split_ifs with hzero hlive
      · exact Ended.reject hkey (Or.inr rfl)
      · exact Ended.reject hkey (Or.inl rfl)
      · rw [hclosed] at hlive
        exact absurd rfl hlive
  | cancelResting participant key =>
    show Ended s (s.onCancelResting participant key).1
    unfold onCancelResting
    generalize hremove : s.resting.remove participant key = r
    obtain ⟨found, resting⟩ := r
    cases found with
    | some bid =>
      have hperm := (PriceLadder.remove_eq_some (congrArg Prod.fst hremove)).2.2
      rw [hresting] at hperm
      exact absurd hperm.length_eq (by simp)
    | none =>
      cases s.outcomes key with
      | some outcome => exact Ended.refl s
      | none => exact Ended.refl s
  | tick =>
    show Ended s (s.onTick ts).1
    rw [onTick, hclosed]
    exact Ended.refl s
  | cancel =>
    show Ended s s.onCancel.1
    rw [onCancel, if_pos hterm]
    exact Ended.refl s

theorem closeElapsedWindow_of_window_none {ts : Nanos} (h : s.window = none) :
    s.closeElapsedWindow ts = (s, []) := by
  rw [closeElapsedWindow, h]

/-- **No command moves an auction that is over.** -/
theorem Priced.ended {r : LogRecord} {s' : AuctionState} {o : List Event} (h : s.Priced)
    (hterm : s.status.isTerminal = true) (hstep : s.step r = some (s', o)) : Ended s s' := by
  obtain ⟨hwindow, hresting⟩ := h.idle fun hlive ↦ by rw [hlive] at hterm; cases hterm
  obtain ⟨-, hadvance⟩ := step_eq_some hstep
  have hstamped : Ended s (s.stamp r.seq r.ts) :=
    ⟨rfl, rfl, rfl, rfl, fun _ ↦ rfl, fun _ _ ↦ rfl, fun _ hk ↦ Or.inl hk⟩
  have hnone : (s.stamp r.seq r.ts).window = none := hwindow
  have hempty : (s.stamp r.seq r.ts).resting.bids = [] := hresting
  have hpost : (advance r.seq r.ts r.cmd s).1 = s' := congrArg Prod.fst hadvance
  rw [← hpost]
  unfold advance
  rw [Emit.andThen_fst, closeElapsedWindow_of_window_none hnone]
  exact hstamped.trans (Ended.handle (s := s.stamp r.seq r.ts) hterm hempty r.seq _ r.cmd)

/-! ## The way there

A pending auction is opened or cancelled; a live one is cancelled, or cleared by a flush or at the
floor. Nothing moves one that is over. -/

theorem status_flushWindow (s : AuctionState) :
    s.flushWindow.1.status = s.status ∨ s.status = .live ∧ s.flushWindow.1.status = .cleared := by
  rcases s.flushWindow_cases with ⟨-, hf⟩ | ⟨w, -, -, hf⟩ | ⟨w, hw, hlive, -⟩
  · rw [hf]
    exact Or.inl rfl
  · have hbare : s.flushWindow.1.bare = { s.bare with window := none } := by
      rw [hf]
      exact bare_turnAwayPending_loop .notLive w.bids
    have hstatus := congrArg AuctionState.status hbare
    exact Or.inl hstatus
  · have hbare := congrArg AuctionState.status (bare_flushWindow_live hw hlive)
    split_ifs at hbare
    · rw [bare_clear] at hbare
      exact Or.inr ⟨hlive, hbare⟩
    · rw [bare_settled] at hbare
      exact Or.inl hbare

theorem status_closeElapsedWindow (s : AuctionState) (ts : Nanos) :
    (s.closeElapsedWindow ts).1.status = s.status ∨
      s.status = .live ∧ (s.closeElapsedWindow ts).1.status = .cleared := by
  rcases s.closeElapsedWindow_cases ts with ⟨heq, -⟩ | ⟨w, -, -, heq⟩
  · rw [heq]
    exact Or.inl rfl
  · rw [heq]
    exact s.status_flushWindow

/-- **What a phase may do to the status.** -/
theorem Phase.status_cases {cmd : Command} {r : AuctionState × List Event} (h : s.Phase cmd r) :
    r.1.status = s.status ∨ s.status = .pending ∧ r.1.status = .live ∨
      s.status = .live ∧ r.1.status = .cleared ∨ cmd = .cancel ∧ r.1.status = .cancelled := by
  cases h with
  | duplicate => exact Or.inl rfl
  | unknown => exact Or.inl rfl
  | refuse => exact Or.inl rfl
  | uncovered participant key price qty =>
    obtain ⟨c, hc⟩ := s.reserve_frame participant price qty
    rw [hc]
    exact Or.inl rfl
  | queue seq participant key qty => exact Or.inl (s.enqueue_status seq participant key qty)
  | rest seq participant key qty limit =>
    obtain ⟨c, hc⟩ := s.reserve_frame participant limit qty
    unfold shelve
    dsimp only
    rw [hc]
    exact Or.inl rfl
  | withdraw => exact Or.inl rfl
  | fund => exact Or.inl rfl
  | «open» hpending =>
    rw [onOpen, if_pos hpending]
    exact Or.inr (Or.inl ⟨hpending, rfl⟩)
  | trigger =>
    rw [s.triggerResting_eq]
    exact Or.inl rfl
  | flush =>
    rcases s.status_flushWindow with hsame | hcleared
    · exact Or.inl hsame
    · exact Or.inr (Or.inr (Or.inl hcleared))
  | floor hlive =>
    have hcleared := congrArg AuctionState.status (s.bare_clear s.config.floorPrice)
    exact Or.inr (Or.inr (Or.inl ⟨hlive, hcleared⟩))
  | cancel hopen hcmd =>
    have hcancelled := congrArg AuctionState.status (bare_onCancel hopen)
    exact Or.inr (Or.inr (Or.inr ⟨hcmd, hcancelled⟩))

private theorem status_handle_pending (hpending : s.status = .pending) (seq : Seq) (ts : Nanos)
    (cmd : Command) : Status.Follows .pending (handle seq ts cmd s).1.status := by
  have hclosed : s.status.acceptsBids = false := by rw [hpending]; rfl
  have hstay : Status.Follows .pending s.status := by rw [hpending]; exact .stay _
  cases cmd with
  | «open» =>
    show Status.Follows _ s.onOpen.1.status
    rw [onOpen, if_pos hpending]
    exact .opened
  | setCollateral participant limit => exact hstay
  | submitBid participant key qty kind =>
    show Status.Follows _ (s.onBid seq ts participant key qty kind).1.status
    unfold onBid
    cases hkey : s.outcomes key with
    | some outcome => exact hstay
    | none =>
      dsimp only
      split_ifs with hzero hlive
      · exact hstay
      · exact hstay
      · rw [hclosed] at hlive
        exact absurd rfl hlive
  | cancelResting participant key =>
    show Status.Follows _ (s.onCancelResting participant key).1.status
    unfold onCancelResting
    generalize s.resting.remove participant key = r
    obtain ⟨found, resting⟩ := r
    cases found with
    | some bid => exact hstay
    | none =>
      cases s.outcomes key with
      | some outcome => exact hstay
      | none => exact hstay
  | tick =>
    show Status.Follows _ (s.onTick ts).1.status
    rw [onTick, hclosed]
    exact hstay
  | cancel =>
    have hcancelled := congrArg AuctionState.status (bare_onCancel (s := s) (by rw [hpending]; rfl))
    have hcancelled : s.onCancel.1.status = .cancelled := hcancelled
    show Status.Follows _ s.onCancel.1.status
    rw [hcancelled]
    exact .cancelled _ (Or.inl rfl)

/-- **A command takes the status forward**, and by at most one stage. -/
theorem Priced.follows {r : LogRecord} {s' : AuctionState} {o : List Event} (h : s.Priced)
    (hstep : s.step r = some (s', o)) : s.status.Follows s'.status := by
  cases hstatus : s.status with
  | pending =>
    have hwindow := (h.idle (by rw [hstatus]; exact fun h ↦ Status.noConfusion h)).1
    have hnone : (s.stamp r.seq r.ts).window = none := hwindow
    have hpending : (s.stamp r.seq r.ts).status = .pending := hstatus
    have hpost := congrArg Prod.fst (step_eq_some hstep).2
    have hpost : (advance r.seq r.ts r.cmd s).1 = s' := hpost
    rw [← hpost]
    unfold advance
    rw [Emit.andThen_fst, closeElapsedWindow_of_window_none hnone]
    exact status_handle_pending hpending r.seq _ r.cmd
  | live =>
    -- Every stage after this one is one step away, so only going back is in question.
    have hforward : s'.status ≠ .pending := by
      refine step_keeps (P := fun u ↦ u.status ≠ .pending) (J := fun u ↦ u.status ≠ .pending)
        (by rw [hstatus]; exact fun h ↦ Status.noConfusion h) id (fun u hu ↦ ?_)
        (fun u v hu hv ↦ ?_) hstep
      · rcases u.status_closeElapsedWindow u.now with hsame | ⟨-, hcleared⟩
        · rw [hsame]
          exact hu
        · rw [hcleared]
          exact fun h ↦ Status.noConfusion h
      · rcases hv.status_cases with hsame | ⟨hpending, -⟩ | ⟨-, hcleared⟩ | ⟨-, hcancelled⟩
        · rw [hsame]
          exact hu
        · exact absurd hpending hu
        · rw [hcleared]
          exact fun h ↦ Status.noConfusion h
        · rw [hcancelled]
          exact fun h ↦ Status.noConfusion h
    cases hpost : s'.status with
    | pending => exact absurd hpost hforward
    | live => exact .stay _
    | cleared => exact .cleared
    | cancelled => exact .cancelled _ (Or.inr rfl)
  | cleared =>
    rw [(h.ended (by rw [hstatus]; rfl) hstep).status, hstatus]
    exact .stay _
  | cancelled =>
    rw [(h.ended (by rw [hstatus]; rfl) hstep).status, hstatus]
    exact .stay _

theorem Priced.ended_run {tr : List Transition} {s' : AuctionState} (h : s.Priced)
    (hterm : s.status.isTerminal = true) (hrun : Runs.Run AuctionState.step s tr s') :
    s'.Priced ∧ Ended s s' ∧ ∀ t ∈ tr, ∀ p key qty kind,
      t.input.cmd = .submitBid p key qty kind → s'.outcome key ≠ none := by
  induction hrun with
  | nil => exact ⟨h, Ended.refl s, fun t ht ↦ absurd ht List.not_mem_nil⟩
  | snoc _ hstep ih =>
    obtain ⟨hpriced, hended, hsubmitted⟩ := ih
    have hlast := hpriced.ended (by rw [hended.status]; exact hterm) hstep
    refine ⟨hpriced.step hstep, hended.trans hlast, fun t ht p key qty kind hcmd ↦ ?_⟩
    rcases List.mem_append.mp ht with ht | ht
    · have hknown := hsubmitted t ht p key qty kind hcmd
      rw [hlast.known key hknown]
      exact hknown
    · rw [List.mem_singleton.mp ht] at hcmd
      exact hpriced.recorded_step hstep hcmd

end AuctionState

/-- **The end of an auction is final.** Once it is cleared or cancelled, no sequence of commands
changes the status, the clearing price, the fills, the supply left, what anyone has committed or
what is on record for a key; the window and the ladder stay empty; and a key submitted for the first
time is refused, as not live or for its quantity. And over every run the status goes from pending to
live to cleared, or from one of the first two to cancelled. -/
theorem end_final {config : AuctionConfig} {tr : List Transition} {s : AuctionState}
    (hrun : Run config tr s) :
    (s.status.isTerminal = true → ∀ tr' s', Runs.Run AuctionState.step s tr' s' →
      s.Ended s' ∧ s'.window = none ∧ s'.resting.bids = [] ∧
        ∀ t ∈ tr', ∀ p key qty kind, t.input.cmd = .submitBid p key qty kind →
          s.outcome key = none → ∃ reason, (reason = .notLive ∨ reason = .zeroQuantity) ∧
            s'.outcome key = some (.rejected reason)) ∧
      ∀ t ∈ tr, t.pre.status.Follows t.post.status := by
  refine ⟨fun hterm tr' s' hrun' ↦ ?_, fun t ht ↦ ?_⟩
  · obtain ⟨hpriced, hended, hsubmitted⟩ := (run_priced hrun).ended_run hterm hrun'
    obtain ⟨hwindow, hresting⟩ := hpriced.idle fun hlive ↦ by
      rw [← hended.status, hlive] at hterm
      cases hterm
    refine ⟨hended, hwindow, hresting, fun t ht p key qty kind hcmd hkey ↦ ?_⟩
    exact (hended.unknown key hkey).resolve_left (hsubmitted t ht p key qty kind hcmd)
  · obtain ⟨⟨tr', -, hpre⟩, hstep⟩ := hrun.split ht
    exact (run_priced hpre).follows hstep

/-- A take that arrives after the sample auction has cleared is refused, and nothing else
happens. -/
theorem end_final_sample :
    ∃ s', (play (.sample 0) sampleRecords).2.Ended s' ∧
      s'.outcome 104 = some (.rejected .notLive) := by
  have hstep : ∃ s' o, (play (.sample 0) sampleRecords).2.step ⟨7, U64.lit 10000000000,
      .submitBid 2 104 1 (.take (I64.lit 900))⟩ = some (s', o) ∧
        s'.outcome 104 = some (.rejected .notLive) := ⟨_, _, rfl, by decide⟩
  obtain ⟨s', o, hstep, houtcome⟩ := hstep
  have hfinal := (end_final (run_play (.sample 0) sampleRecords)).1 (by decide) _ s'
    (.snoc .nil hstep)
  exact ⟨s', hfinal.1, houtcome⟩

end DutchAuction
