import DutchAuction.Core.Lockstep

/-!
# Refused commands are invisible

Take a command out of a run that was only ever refused, and let the positions after it move up by
one: the run ends in the same state, but for the numbers (`refused_invisible`).

The run without the command and the run with it are in lockstep (`Tracks`) but for the command
itself. It moves nothing that is tracked (`unmoved_handle`), and it may close a window that on the
other side is still open. The next command then closes it there, with the same result, since what a
window settles to does not depend on when it is closed (`Tracks.catch_up`). That is why something
has to follow the refusal.
-/

namespace DutchAuction

namespace AuctionState

/-! ## A refusal

A command that is refused, or answered that its key is on record, leaves the state as it was but
for that record, its position and the clock. The window that it may have closed on the way is
closed on the other side by the next command, with the same result. -/

/-- The answer is that the key is on record already, or that it is refused. -/
def Refused (key : IdempotencyKey) (es : List Event) : Prop :=
  (∃ outcome, es = [.duplicate key outcome]) ∨ ∃ reason, es = [.rejected key reason]

/-- The second state differs from the first in what is on record for `key`, if it was not on record,
and perhaps in a default entry among the accounts. -/
structure Unmoved (key : IdempotencyKey) (t t' : AuctionState) : Prop where
  bare : t'.bare = t.bare
  accounts : accounts t'.collateral = accounts t.collateral
  outcomes : ∀ k, k ≠ key ∨ t.outcomes key ≠ none → t'.outcomes k = t.outcomes k

variable {key : IdempotencyKey} {t : AuctionState}

private theorem Unmoved.refl (key : IdempotencyKey) (t : AuctionState) : Unmoved key t t :=
  ⟨rfl, rfl, fun _ _ ↦ rfl⟩

private theorem unmoved_reject {u : AuctionState} (hkey : t.outcomes key = none)
    (reason : RejectReason) (hu : ∃ c, u = { t with collateral := c })
    (haccounts : accounts u.collateral = accounts t.collateral) :
    Unmoved key t (u.reject key reason).1 := by
  obtain ⟨c, rfl⟩ := hu
  refine ⟨rfl, haccounts, fun k hk ↦ ?_⟩
  have hne : k ≠ key := hk.resolve_right fun h ↦ h hkey
  exact Function.update_of_ne hne _ _

private theorem not_refused {e : Event} {es : List Event}
    (h : (∃ p qty price, e = .queued key p qty price) ∨
      ∃ p qty limit, e = .rested key p qty limit) :
    ¬Refused key (e :: es) := by
  rintro (⟨outcome, heq⟩ | ⟨reason, heq⟩)
  · obtain ⟨rfl, -⟩ := List.cons_eq_cons.mp heq
    rcases h with ⟨p, qty, price, h⟩ | ⟨p, qty, limit, h⟩
    · cases h
    · cases h
  · obtain ⟨rfl, -⟩ := List.cons_eq_cons.mp heq
    rcases h with ⟨p, qty, price, h⟩ | ⟨p, qty, limit, h⟩
    · cases h
    · cases h

private theorem unmoved_onTake (hkey : t.outcomes key = none) {seq : Seq} {ts : Nanos}
    {p : ParticipantId} {qty : Qty} {expected : Price}
    (h : Refused key (t.onTake seq ts p key qty expected).2) :
    Unmoved key t (t.onTake seq ts p key qty expected).1 := by
  rcases lt_or_ge t.config.priceTolerance
    (I64.absDiff (t.config.priceAt ts) expected) with hmoved | hnear
  · rw [onTake_moved seq p key qty hmoved]
    exact unmoved_reject hkey _ ⟨_, rfl⟩ rfl
  cases hres : (t.reserve p (t.config.windowBounds ts).2 qty).2 with
  | false =>
    rw [onTake_uncovered seq key hnear hres]
    obtain ⟨-, haccounts⟩ | ⟨cost, hcovered, -⟩ :=
      t.accounts_reserve p (t.config.windowBounds ts).2 qty
    · exact unmoved_reject hkey _ (t.reserve_frame p (t.config.windowBounds ts).2 qty) haccounts
    · cases hres.symm.trans hcovered
  | true =>
    -- What it announces first is that it is queued.
    unfold onTake at h
    dsimp only at h
    rw [if_neg (not_lt.mpr hnear), ← Prod.eta (t.reserve p _ qty), hres] at h
    exact absurd h (not_refused (Or.inl ⟨_, _, _, rfl⟩))

private theorem unmoved_onRest (hkey : t.outcomes key = none) {seq : Seq} {ts : Nanos}
    {p : ParticipantId} {qty : Qty} {limit : Price}
    (h : Refused key (t.onRest seq ts p key qty limit).2) :
    Unmoved key t (t.onRest seq ts p key qty limit).1 := by
  rcases lt_or_ge (t.config.priceAt ts) limit with habove | hlimit
  · rw [onRest_above seq p key qty habove]
    exact unmoved_reject hkey _ ⟨_, rfl⟩ rfl
  cases hres : (t.reserve p limit qty).2 with
  | false =>
    rw [onRest_uncovered seq key hlimit hres]
    obtain ⟨-, haccounts⟩ | ⟨cost, hcovered, -⟩ := t.accounts_reserve p limit qty
    · exact unmoved_reject hkey _ (t.reserve_frame p limit qty) haccounts
    · cases hres.symm.trans hcovered
  | true =>
    rw [onRest_rested seq key hlimit hres] at h
    exact absurd h (not_refused (Or.inr ⟨_, _, _, rfl⟩))

private theorem unmoved_onBid {seq : Seq} {ts : Nanos} {p : ParticipantId} {qty : Qty}
    {kind : BidKind} (h : Refused key (t.onBid seq ts p key qty kind).2) :
    Unmoved key t (t.onBid seq ts p key qty kind).1 := by
  unfold onBid at h ⊢
  cases hkey : t.outcomes key with
  | some outcome => exact Unmoved.refl key t
  | none =>
    rw [hkey] at h
    dsimp only at h ⊢
    split_ifs at h ⊢ with hzero hlive
    · exact unmoved_reject hkey _ ⟨_, rfl⟩ rfl
    · exact unmoved_reject hkey _ ⟨_, rfl⟩ rfl
    · cases kind with
      | take expected => exact unmoved_onTake hkey h
      | resting limit => exact unmoved_onRest hkey h

private theorem unmoved_onCancelResting {p : ParticipantId}
    (h : Refused key (t.onCancelResting p key).2) :
    Unmoved key t (t.onCancelResting p key).1 := by
  unfold onCancelResting at h ⊢
  generalize t.resting.remove p key = r at h ⊢
  obtain ⟨found, resting⟩ := r
  cases found with
  | some bid =>
    rcases h with ⟨outcome, h⟩ | ⟨reason, h⟩
    · cases h
    · cases h
  | none =>
    dsimp only
    cases t.outcomes key with
    | none => exact Unmoved.refl key t
    | some outcome => exact Unmoved.refl key t

/-- **A refused command moves nothing.** -/
theorem unmoved_handle {seq : Seq} {ts : Nanos} {cmd : Command} (hkey : key ∈ cmd.key?)
    (h : Refused key (handle seq ts cmd t).2) : Unmoved key t (handle seq ts cmd t).1 := by
  cases cmd with
  | submitBid p k qty kind =>
    obtain rfl : k = key := Option.some.inj hkey
    exact unmoved_onBid h
  | cancelResting p k =>
    obtain rfl : k = key := Option.some.inj hkey
    exact unmoved_onCancelResting h
  | «open» => cases hkey
  | setCollateral => cases hkey
  | tick => cases hkey
  | cancel => cases hkey

namespace Tracks

variable {ρ : Seq → Seq} {S : Set Seq} {K : Set IdempotencyKey} {s : AuctionState}

theorem refused (h : Tracks ρ S K s t) {t' : AuctionState} (hunmoved : Unmoved key t t')
    (hK : ∀ k ∉ K, k ≠ key ∨ t.outcomes key ≠ none) : Tracks ρ S K s t' := by
  obtain ⟨hbare, haccounts, houtcomes⟩ := hunmoved
  have hconfig := congrArg AuctionState.config hbare
  have hstatus := congrArg AuctionState.status hbare
  have hsupply := congrArg AuctionState.supplyRemaining hbare
  have hprice := congrArg AuctionState.clearingPrice hbare
  have hfills := congrArg AuctionState.fills hbare
  have hnext := congrArg AuctionState.nextFillId hbare
  have hresting := congrArg AuctionState.resting hbare
  have hwindow := congrArg AuctionState.window hbare
  exact { h with
    config := Eq.trans hconfig h.config
    status := Eq.trans hstatus h.status
    supplyRemaining := Eq.trans hsupply h.supplyRemaining
    clearingPrice := Eq.trans hprice h.clearingPrice
    fills := Eq.trans hfills h.fills
    nextFillId := Eq.trans hnext h.nextFillId
    resting := Eq.trans hresting h.resting
    window := Eq.trans hwindow h.window
    accounts := haccounts.trans h.accounts
    outcomes := fun k hk ↦ (houtcomes k (hK k hk)).trans (h.outcomes k hk) }

theorem stamp_right (h : Tracks ρ S K s t) (seq : Seq) (ts : Nanos) :
    Tracks ρ S K s (t.stamp seq ts) :=
  { h with config := h.config }

/-- **The next command catches up.** A window that the refused command closed on one side is closed
on the other by the command after it, with the same result. -/
theorem catch_up (h : Tracks ρ S K s s) (hρ : StrictMonoOn ρ S) {c : LogRecord}
    (hkey : key ∈ c.cmd.key?) (hrefused : Refused key (s.answer c)) (hK : ∀ k ∉ K, k ≠ key ∨
      ((s.stamp c.seq c.ts).closeElapsedWindow (max c.ts s.now)).1.outcomes key ≠ none)
    (seq seq' : Seq) (ts ts' now : Nanos) (hnow : max c.ts s.now ≤ now) :
    Tracks ρ S K ((s.stamp seq ts).closeElapsedWindow now).1
      (((s.advance c.seq c.ts c.cmd).1.stamp seq' ts').closeElapsedWindow now).1 := by
  have hunmoved : Unmoved key ((s.stamp c.seq c.ts).closeElapsedWindow (max c.ts s.now)).1
      (s.advance c.seq c.ts c.cmd).1 := unmoved_handle hkey hrefused
  rcases (s.stamp c.seq c.ts).closeElapsedWindow_cases (max c.ts s.now) with
    ⟨heq, -⟩ | ⟨w, hw, helapsed, heq⟩
  · rw [heq] at hunmoved hK
    have hrefused := (h.stamp_right c.seq c.ts).refused hunmoved hK
    exact (hrefused.stamp seq seq' ts ts').closeElapsedWindow hρ now
  · rw [heq] at hunmoved hK
    have hrefused := ((h.stamp seq c.seq ts c.ts).flushWindow hρ).refused hunmoved hK
    have hlater : w.index < ((s.stamp seq ts).config.windowBounds now).1 :=
      helapsed.trans_le (AuctionConfig.windowIndex_mono hnow)
    have hleft : (s.stamp seq ts).closeElapsedWindow now = (s.stamp seq ts).flushWindow := by
      rcases (s.stamp seq ts).closeElapsedWindow_cases now with ⟨-, hcurrent⟩ | ⟨w', -, -, hflush⟩
      · exact absurd hlater (hcurrent w hw)
      · exact hflush
    have hnone : (s.advance c.seq c.ts c.cmd).1.window = none := by
      rw [hrefused.window, (s.stamp seq ts).flushWindow_fixed.1]
      rfl
    have hright : ((s.advance c.seq c.ts c.cmd).1.stamp seq' ts').closeElapsedWindow now =
        ((s.advance c.seq c.ts c.cmd).1.stamp seq' ts', []) := by
      rcases ((s.advance c.seq c.ts c.cmd).1.stamp seq' ts').closeElapsedWindow_cases now with
        ⟨hskip, -⟩ | ⟨w', hw', -⟩
      · exact hskip
      · exact absurd (hw'.symm.trans hnone) (Option.some_ne_none w')
    rw [hleft, hright]
    exact hrefused.stamp_right seq' ts'

end Tracks

end AuctionState

/-! ## The renumbering

The run without the refused command has every later position one lower. `Seq.skip` makes room for
it, and keeps the order of the numbers. -/

/-- Make room for the position `c`: those before it stay, the others move up by one. -/
def Seq.skip (c n : Seq) : Seq := if n < c then n else n.saturatingAdd 1

theorem Seq.skip_of_lt {c n : Seq} (h : n < c) : Seq.skip c n = n := if_pos h

theorem Seq.val_skip {c n : Seq} (h : ¬n < c) (hn : n.val + 1 < 2 ^ 64) :
    (Seq.skip c n).val = n.val + 1 := by
  rw [Seq.skip, if_neg h, U64.saturatingAdd, U64.val_one, U64.val_saturate_of_lt hn]

/-- The positions with one after them. -/
def Seq.movable : Set Seq := {n | n.val + 1 < 2 ^ 64}

/-- **Making room keeps the order.** -/
theorem Seq.strictMonoOn_skip (c : Seq) : StrictMonoOn (Seq.skip c) Seq.movable := by
  intro m hm n hn hlt
  have hlt' : m.val < n.val := U64.lt_def.mp hlt
  by_cases hmc : m < c
  · rw [Seq.skip_of_lt hmc]
    by_cases hnc : n < c
    · rw [Seq.skip_of_lt hnc]
      exact hlt
    · rw [U64.lt_def, Seq.val_skip hnc hn]
      omega
  · have hnc : ¬n < c := fun h ↦ hmc (hlt.trans h)
    rw [U64.lt_def, Seq.val_skip hmc hm, Seq.val_skip hnc hn]
    omega

/-- The record at its new position. -/
def LogRecord.renumber (ρ : Seq → Seq) (r : LogRecord) : LogRecord := { r with seq := ρ r.seq }

theorem PriceLadder.renumber_eq_self {ρ : Seq → Seq} {l : PriceLadder}
    (h : ∀ b ∈ l.bids, ρ b.seq = b.seq) : l.renumber ρ = l := by
  have hlevel : ∀ e ∈ l.levels.entries, e.2.map (RestingBid.renumber ρ) = e.2 := by
    intro e he
    refine (List.map_congr_left fun b hb ↦ ?_).trans (List.map_id e.2)
    show { b with seq := ρ b.seq } = b
    rw [h b (PriceLadder.mem_bids.mpr ⟨e, he, hb⟩)]
  have hlevels : l.levels.mapVal (List.map (RestingBid.renumber ρ)) = l.levels := by
    apply OrdMap.ext
    refine (List.map_congr_left fun e he ↦ ?_).trans (List.map_id _)
    exact Prod.ext rfl (hlevel e he)
  rw [renumber, hlevels]

namespace AuctionState

variable {s : AuctionState} {c : Seq}

theorem Numbered.tracks (h : s.Numbered) (hc : s.Accepts c) (K : Set IdempotencyKey) :
    Tracks (Seq.skip c) Seq.movable K s s := by
  have hbefore : ∀ n ∈ s.positions, n < c := by
    rintro n ⟨last, hlast, hn⟩
    have hnext := Seq.next_eq_some.mp (hc last hlast)
    exact hn.trans_lt (U64.lt_def.mpr (by omega))
  have hskip : ∀ n ∈ s.positions, Seq.skip c n = n := fun n hn ↦ Seq.skip_of_lt (hbefore n hn)
  have hmovable : s.positions ⊆ Seq.movable := by
    intro n hn
    have hlt : n.val < c.val := hbefore n hn
    exact Nat.lt_of_le_of_lt hlt c.val_lt
  have hmono := h.mono hmovable
  exact { hmono with
    fills := by
      refine ((List.map_congr_left fun f hf ↦ ?_).trans (List.map_id s.fills)).symm
      show { f with seq := Seq.skip c f.seq } = f
      rw [hskip _ (h.filledIn f hf)]
    resting := (PriceLadder.renumber_eq_self fun b hb ↦ hskip _ (h.restingIn b hb)).symm
    window := by
      have hpending := h.pendingIn
      cases hw : s.window with
      | none => rfl
      | some w =>
        have hbids : w.bids.map (PendingBid.renumber (Seq.skip c)) = w.bids := by
          refine (List.map_congr_left fun b hb ↦ ?_).trans (List.map_id w.bids)
          show { b with seq := Seq.skip c b.seq } = b
          rw [hskip _ (hpending w hw b hb)]
        rw [Option.map_some, OpenWindow.renumber, hbids]
    outcomes := fun _ _ ↦ rfl }

end AuctionState

/-! ## The run without it

The side that never saw the command is behind by the clock and possibly by a window until its next
command, and in step after it. So the first command is treated apart, and the rest by the rule for
two runs. -/

/-- Where the run without the refused command is when the run with it has reached `t`. -/
structure Behind (c : Seq) (K : Set IdempotencyKey) (t' t : AuctionState) : Prop where
  tracks : AuctionState.Tracks (Seq.skip c) Seq.movable K t' t
  now : t.now = t'.now
  /-- One position behind. -/
  last : ∃ n : Seq, t'.lastSeq = some n ∧ ¬n < c ∧ n.val + 1 < 2 ^ 64 ∧
    t.lastSeq = some (Seq.skip c n)

theorem AuctionState.step_of_accepts {s : AuctionState} {r : LogRecord} (h : s.Accepts r.seq) :
    s.step r = some (s.advance r.seq r.ts r.cmd) := if_pos h

/-- **One more command on both sides.** -/
theorem Behind.step {c : Seq} {K : Set IdempotencyKey} {t' t u : AuctionState} {r : LogRecord}
    {o : List Event} (h : Behind c K t' t) (hstep : t.step r = some (u, o))
    (hcmd : ∀ k ∈ r.cmd.key?, k ∉ K) :
    ∃ r' u' o', r = r'.renumber (Seq.skip c) ∧ t'.step r' = some (u', o') ∧ Behind c K u' u := by
  obtain ⟨n, hn, hnc, hfits, hlast⟩ := h.last
  obtain ⟨haccepts, hadvance⟩ := AuctionState.step_eq_some hstep
  have hseq : r.seq.val = n.val + 2 := by
    rw [Seq.next_eq_some.mp (haccepts _ hlast), Seq.val_skip hnc hfits]
  have hlt := r.seq.val_lt
  have hm : (n.saturatingAdd 1).val = n.val + 1 := by
    rw [U64.saturatingAdd, U64.val_one, U64.val_saturate_of_lt hfits]
  have hmc : ¬n.saturatingAdd 1 < c := by
    rw [U64.lt_def, hm]
    rw [U64.lt_def] at hnc
    omega
  have hmfits : (n.saturatingAdd 1).val + 1 < 2 ^ 64 := by omega
  have hskip : Seq.skip c (n.saturatingAdd 1) = r.seq := by
    apply U64.ext
    rw [Seq.val_skip hmc hmfits, hm, hseq]
  have haccepts' : t'.Accepts (n.saturatingAdd 1) := by
    intro last hl
    cases hn.symm.trans hl
    exact Seq.next_eq_some.mpr hm
  refine ⟨⟨n.saturatingAdd 1, r.ts, r.cmd⟩, _, _, ?_,
    AuctionState.step_of_accepts (r := ⟨n.saturatingAdd 1, r.ts, r.cmd⟩) haccepts', ?_⟩
  · show r = ⟨Seq.skip c (n.saturatingAdd 1), r.ts, r.cmd⟩
    rw [hskip]
  · have hmovable : n.saturatingAdd 1 ∈ Seq.movable := hmfits
    have htracks := h.tracks.advance (Seq.strictMonoOn_skip c) hmovable r.ts (by rw [h.now]) hcmd
    have hfixed := step_fixed hstep
    have hfixed' := step_fixed (AuctionState.step_of_accepts (r := ⟨n.saturatingAdd 1, r.ts, r.cmd⟩)
      haccepts')
    rw [hskip, hadvance] at htracks
    refine ⟨htracks, ?_, n.saturatingAdd 1, ?_, hmc, hmfits, ?_⟩
    · rw [show u.now = _ from congrArg (fun f ↦ f.2.1) hfixed, h.now]
      exact (congrArg (fun f ↦ f.2.1) hfixed').symm
    · exact congrArg (fun f ↦ f.2.2) hfixed'
    · rw [hskip]
      exact congrArg (fun f ↦ f.2.2) hfixed

/-- **The first command after the refusal**, which takes the place of the refused one. -/
theorem behind_first {s sc u : AuctionState} {c y : LogRecord} {oc o : List Event}
    {K : Set IdempotencyKey} {key : IdempotencyKey} (hnumbered : s.Numbered)
    (hc : s.step c = some (sc, oc)) (hkey : key ∈ c.cmd.key?)
    (hrefused : AuctionState.Refused key (s.answer c)) (hK : ∀ k ∉ K, k ≠ key ∨
      ((s.stamp c.seq c.ts).closeElapsedWindow (max c.ts s.now)).1.outcomes key ≠ none)
    (hstep : sc.step y = some (u, o)) (hts : c.ts ≤ y.ts) (hcmd : ∀ k ∈ y.cmd.key?, k ∉ K) :
    ∃ r' u' o', y = r'.renumber (Seq.skip c.seq) ∧ s.step r' = some (u', o') ∧
      Behind c.seq K u' u := by
  obtain ⟨haccepts, hadvance⟩ := AuctionState.step_eq_some hc
  obtain ⟨haccepts', hadvance'⟩ := AuctionState.step_eq_some hstep
  have hseq : y.seq.val = c.seq.val + 1 := Seq.next_eq_some.mp (haccepts' _ (step_lastSeq hc))
  have hlt := y.seq.val_lt
  have hmovable : c.seq ∈ Seq.movable := by
    show c.seq.val + 1 < 2 ^ 64
    omega
  have hskip : Seq.skip c.seq c.seq = y.seq := by
    apply U64.ext
    rw [Seq.val_skip (lt_irrefl c.seq) hmovable, hseq]
  have hnow : max y.ts sc.now = max y.ts s.now := by
    rw [(step_frame hc).2, ← max_assoc, max_eq_left hts]
  have hfixed := step_fixed hstep
  have hfixed' := step_fixed (AuctionState.step_of_accepts (r := ⟨c.seq, y.ts, y.cmd⟩) haccepts)
  refine ⟨⟨c.seq, y.ts, y.cmd⟩, _, _, ?_,
    AuctionState.step_of_accepts (r := ⟨c.seq, y.ts, y.cmd⟩) haccepts, ?_, ?_,
    c.seq, ?_, lt_irrefl c.seq, hmovable, ?_⟩
  · show y = ⟨Seq.skip c.seq c.seq, y.ts, y.cmd⟩
    rw [hskip]
  · have hmono := Seq.strictMonoOn_skip c.seq
    have hcaught :=
      (hnumbered.tracks haccepts K).catch_up hmono hkey hrefused hK c.seq y.seq y.ts y.ts
      (max y.ts s.now) (max_le_max_right s.now hts)
    have hhandled := hcaught.handle hmono hmovable (max y.ts s.now) hcmd
    have hu : (sc.advance y.seq y.ts y.cmd).1 = u := congrArg Prod.fst hadvance'
    rw [hskip, hadvance] at hhandled
    rw [← hu]
    unfold AuctionState.advance
    simp only [Emit.andThen_fst, hnow]
    exact hhandled
  · rw [show u.now = _ from congrArg (fun f ↦ f.2.1) hfixed, hnow]
    exact (congrArg (fun f ↦ f.2.1) hfixed').symm
  · exact congrArg (fun f ↦ f.2.2) hfixed'
  · rw [hskip]
    exact congrArg (fun f ↦ f.2.2) hfixed

private theorem run_behind {s sc t : AuctionState} {c : LogRecord} {oc : List Event}
    {K : Set IdempotencyKey} {key : IdempotencyKey} {ys : List Transition}
    (hnumbered : s.Numbered) (hc : s.step c = some (sc, oc)) (hkey : key ∈ c.cmd.key?)
    (hrefused : AuctionState.Refused key (s.answer c)) (hK : ∀ k ∉ K, k ≠ key ∨
      ((s.stamp c.seq c.ts).closeElapsedWindow (max c.ts s.now)).1.outcomes key ≠ none)
    (hys : Runs.Run AuctionState.step sc ys t) (hne : ys ≠ [])
    (hts : ∀ y ∈ ys, c.ts ≤ y.input.ts) (hcmd : ∀ y ∈ ys, ∀ k ∈ y.input.cmd.key?, k ∉ K) :
    ∃ ys' t', Runs.Run AuctionState.step s ys' t' ∧
      ys.map (fun y ↦ y.input) = ys'.map (fun y ↦ y.input.renumber (Seq.skip c.seq)) ∧
      Behind c.seq K t' t := by
  induction hys with
  | nil => exact absurd rfl hne
  | @snoc ys u t y o hrun hstep ih =>
    have hlast := List.mem_append_right ys (List.mem_singleton_self (⟨u, y, o, t⟩ : Transition))
    by_cases hnil : ys = []
    · subst hnil
      obtain rfl := hrun.eq_of_nil
      obtain ⟨y', t', o', hy, hstep', hbehind⟩ := behind_first hnumbered hc hkey hrefused hK hstep
        (hts _ hlast) (hcmd _ hlast)
      exact ⟨_, t', Runs.Run.nil.snoc hstep', by rw [hy]; rfl, hbehind⟩
    · obtain ⟨ys', u', hrun', hinputs, hbehind⟩ := ih hnil
        (fun y hy ↦ hts y (List.mem_append_left _ hy))
        (fun y hy ↦ hcmd y (List.mem_append_left _ hy))
      obtain ⟨y', t', o', hy, hstep', hbehind'⟩ := hbehind.step hstep (hcmd _ hlast)
      refine ⟨_, t', hrun'.snoc hstep', ?_, hbehind'⟩
      rw [List.map_append, List.map_append, hinputs]
      exact congrArg (_ ++ [·]) hy

/-- **Refused commands are invisible.** Where `c` is answered that its key is on record, or refused,
the run in which it never arrived ends in the same state, but for what is on record for its key if
it was new, and with every position after it one lower. -/
theorem refused_invisible {config : AuctionConfig} {tr ys : List Transition}
    {s sc t : AuctionState} {c : LogRecord} {oc : List Event} {key : IdempotencyKey}
    (hrun : Run config tr s) (hc : s.step c = some (sc, oc))
    (hys : Runs.Run AuctionState.step sc ys t) (hne : ys ≠ [])
    (hts : ((tr.map fun y ↦ y.input.ts) ++ c.ts :: ys.map fun y ↦ y.input.ts).Pairwise (· ≤ ·))
    (hkey : c.cmd.key? = some key) (hrefused : AuctionState.Refused key (s.answer c))
    (hfresh : s.outcome key ≠ none ∨ ∀ y ∈ ys, y.input.cmd.key? ≠ some key) :
    ∃ ys' t', Run config (tr ++ ys') t' ∧
      ys.map (fun y ↦ y.input) = ys'.map (fun y ↦ y.input.renumber (Seq.skip c.seq)) ∧
      AuctionState.Agree (Seq.skip c.seq) {k | k = key ∧ s.outcome k = none} t' t := by
  have hlater : ∀ y ∈ ys, c.ts ≤ y.input.ts := fun y hy ↦
    (List.pairwise_cons.mp (List.pairwise_append.mp hts).2.1).1 _ (List.mem_map_of_mem hy)
  have hrecorded : s.outcomes key ≠ none →
      ((s.stamp c.seq c.ts).closeElapsedWindow (max c.ts s.now)).1.outcomes key ≠ none := fun h ↦
    (((run_priced hrun).stamp c.seq c.ts).moves : Book.Moves _ .tick _ _).recorded h
  have hK : ∀ k ∉ {k | k = key ∧ s.outcome k = none}, k ≠ key ∨
      ((s.stamp c.seq c.ts).closeElapsedWindow (max c.ts s.now)).1.outcomes key ≠ none := by
    intro k hk
    by_cases heq : k = key
    · exact Or.inr (hrecorded fun hnone ↦ hk ⟨heq, heq ▸ hnone⟩)
    · exact Or.inl heq
  have hcmd : ∀ y ∈ ys, ∀ k ∈ y.input.cmd.key?, k ∉ {k | k = key ∧ s.outcome k = none} := by
    rintro y hy k hk ⟨rfl, hnone⟩
    rcases hfresh with hknown | hunused
    · exact hknown hnone
    · exact hunused y hy hk
  obtain ⟨ys', t', hrun', hinputs, hbehind⟩ := run_behind (run_numbered hrun) hc hkey hrefused hK
    hys hne hlater hcmd
  exact ⟨ys', t', hrun.append hrun', hinputs, hbehind.tracks.agree⟩

/-- A retry of the bid under key 101, by somebody else and for another quantity, between the bid and
a tick. -/
theorem refused_invisible_sample :
    ∃ (s sc : AuctionState) (oc : List Event) (ys : List Transition) (t : AuctionState),
      s = (play (.sample 0) (sampleRecords.take 4)).2 ∧
      s.step ⟨U64.lit 4, 0, .submitBid 2 101 1 (.take 0)⟩ = some (sc, oc) ∧
      Runs.Run AuctionState.step sc ys t ∧ ys.length = 1 ∧
      ∃ ys' t', Run (.sample 0) ((play (.sample 0) (sampleRecords.take 4)).1 ++ ys') t' ∧
        ys.map (fun y ↦ y.input) = ys'.map (fun y ↦ y.input.renumber (Seq.skip (U64.lit 4))) ∧
        AuctionState.Agree (Seq.skip (U64.lit 4)) {k | k = 101 ∧ s.outcome k = none} t' t :=
  ⟨_, _, _, _, _, rfl, rfl, Runs.run_play AuctionState.step _ [⟨U64.lit 5, 0, .tick⟩], rfl,
    refused_invisible (run_play (.sample 0) (sampleRecords.take 4))
      (c := ⟨U64.lit 4, 0, .submitBid 2 101 1 (.take 0)⟩) rfl
      (Runs.run_play AuctionState.step _ [⟨U64.lit 5, 0, .tick⟩]) (by decide) (by decide) rfl
      (Or.inl ⟨_, rfl⟩) (Or.inl (by decide))⟩

end DutchAuction
