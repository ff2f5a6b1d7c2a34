import DutchAuction.Core.Keys
import DutchAuction.Core.Levels

/-!
# Arrival order inside a window

Takes that arrive inside one window compete at its price, which no bid of the window is below, so
they share its last level (`Submits.gathered`). The order in which they arrive decides their places
in that level, and a place is worth at most one unit (`arrival_order_at_most_one`).

The two orders lead to states that differ in the fills and in the numbers of the bids. A tick reads
neither (`readsCore_onTick`): it leaves alike what was alike (`Alike`).
-/

namespace DutchAuction

/-! ## What a tick reads

A tick adds fills and puts records on the two maps, but it looks at neither of them, nor at the
clock that was or the position in the log. What it does to the rest, the `core`, is determined by
the core, and so are the units it fills under each key. -/

namespace AuctionState

variable {s s' : AuctionState} {key : IdempotencyKey}

/-- The units filled under a key. -/
def filledQty (s : AuctionState) (key : IdempotencyKey) : ℕ :=
  sold (s.fills.filter fun f ↦ f.key = key)

/-- The state with the fills, the two maps, the clock and the position in the log forgotten. -/
def core (s : AuctionState) : AuctionState :=
  { s.bare with fills := [], nextFillId := 0, lastSeq := none, now := 0 }

/-- Two states that differ in what `core` forgets, and by at most one unit of any key's fills. -/
structure Alike (s s' : AuctionState) : Prop where
  core : s'.core = s.core
  filled : ∀ key, s.filledQty key ≤ s'.filledQty key + 1 ∧ s'.filledQty key ≤ s.filledQty key + 1

/-- What an operation does to the rest of the state, and the units it fills under each key, do not
depend on what `core` forgets. -/
def ReadsCore (op : AuctionState → AuctionState × List Event) : Prop :=
  ∀ s, (op s).1.core = (op s.core).1.core ∧
    ∀ key, (op s).1.filledQty key = s.filledQty key + (op s.core).1.filledQty key

theorem ReadsCore.alike {op : AuctionState → AuctionState × List Event} (hop : ReadsCore op)
    (h : s.Alike s') : (op s).1.Alike (op s').1 := by
  refine ⟨?_, fun key ↦ ?_⟩
  · rw [(hop s).1, (hop s').1, h.core]
  · rw [(hop s).2 key, (hop s').2 key, h.core]
    have := h.filled key
    omega

theorem readsCore_skip : ReadsCore Emit.skip := fun _ ↦ ⟨rfl, fun _ ↦ rfl⟩

theorem ReadsCore.andThen {f g : AuctionState → AuctionState × List Event} (hf : ReadsCore f)
    (hg : ReadsCore g) : ReadsCore (Emit.andThen f g) := by
  intro s
  simp only [Emit.andThen_fst]
  refine ⟨?_, fun key ↦ ?_⟩
  · rw [(hg (f s).1).1, (hf s).1, ← (hg (f s.core).1).1]
  · rw [(hg (f s).1).2, (hf s).1, (hf s).2, (hg (f s.core).1).2, add_assoc]

theorem ReadsCore.ite {f g : AuctionState → AuctionState × List Event} {c : AuctionState → Prop}
    [DecidablePred c] (hc : ∀ s, c s ↔ c s.core) (hf : ReadsCore f) (hg : ReadsCore g) :
    ReadsCore fun s ↦ if c s then f s else g s := by
  intro s
  dsimp only
  by_cases h : c s
  · rw [if_pos h, if_pos ((hc s).mp h)]
    exact hf s
  · rw [if_neg h, if_neg fun h' ↦ h ((hc s).mpr h')]
    exact hg s

/-! ### Each operation of a tick -/

private theorem ReadsCore.of_bare {op : AuctionState → AuctionState × List Event}
    (hcore : ∀ s, (op s).1.core = (op s.core).1.core)
    (hfills : ∀ s, (op s).1.fills = s.fills) : ReadsCore op := fun s ↦
  ⟨hcore s, fun key ↦ by rw [filledQty, filledQty, filledQty, hfills, hfills]; rfl⟩

private theorem sold_filter_fillsOf {price : Price} {id : FillId} {l : List (PendingBid × ℕ)}
    (h : ∀ ba ∈ l, ba.2 < 2 ^ 64) :
    sold ((fillsOf price id l).filter fun f ↦ f.key = key) = allotted key l := by
  induction l generalizing id with
  | nil => rfl
  | cons ba l ih =>
    obtain ⟨b, alloc⟩ := ba
    have hrest := fun id ↦ @ih id fun ba hba ↦ h ba (List.mem_cons_of_mem _ hba)
    have halloc := U64.val_saturate_of_lt (h _ List.mem_cons_self)
    rw [fillsOf, allotted]
    by_cases hkey : b.key = key
    · rw [List.filter_cons_of_pos (by simpa using hkey), List.map_cons, List.sum_cons]
      split_ifs with hz
      · rw [hrest, allotted]
        omega
      · rw [List.filter_cons_of_pos (by simpa using hkey)]
        show (U64.saturate alloc).val + sold _ = _
        rw [hrest, halloc]
        rfl
    · rw [List.filter_cons_of_neg (by simpa using hkey)]
      split_ifs with hz
      · exact hrest id
      · rw [List.filter_cons_of_neg (by simpa using hkey)]
        exact hrest _

theorem core_eq_of_bare {t : AuctionState} (h : s.bare = t) : s.core = t.core := by
  rw [← h]
  rfl

theorem readsCore_clear (price : Price) : ReadsCore (clear price) := by
  intro s
  have hbare := s.bare_clear price
  have hbare' := s.core.bare_clear price
  refine ⟨?_, fun key ↦ ?_⟩
  · rw [core_eq_of_bare hbare, core_eq_of_bare hbare']
    rfl
  · have hfills : (s.clear price).1.fills = s.fills.map (Fill.at price) :=
      congrArg AuctionState.fills hbare
    have hfills' : (s.core.clear price).1.fills = [] := congrArg AuctionState.fills hbare'
    rw [filledQty, filledQty, filledQty, hfills, hfills', List.filter_map, sold_map_at]
    rfl

theorem core_flushWindow {w : OpenWindow} (hw : s.window = some w) (hlive : s.status = .live) :
    s.flushWindow.1.core =
      if s.Exhausts w then
        { s.core with
          window := none
          supplyRemaining := s.supplyAfter w
          status := .cleared
          clearingPrice := some w.price
          resting := PriceLadder.new }
      else { s.core with window := none, supplyRemaining := s.supplyAfter w } := by
  rw [core_eq_of_bare (bare_flushWindow_live hw hlive)]
  by_cases hex : s.Exhausts w
  · rw [if_pos hex, if_pos hex, bare_clear, bare_settled]
    rfl
  · rw [if_neg hex, if_neg hex, bare_settled]
    rfl

theorem filledQty_flushWindow {w : OpenWindow} (hw : s.window = some w) (hlive : s.status = .live)
    (key : IdempotencyKey) :
    s.flushWindow.1.filledQty key =
      s.filledQty key + allotted key (allocations w.bids s.supplyRemaining) := by
  have hfits : ∀ ba ∈ allocations w.bids s.supplyRemaining, ba.2 < 2 ^ 64 := fun ba hba ↦
    (alloc_le_qty hba).trans_lt ba.1.qty.val_lt
  have hsettled : (s.settled w).filledQty key =
      s.filledQty key + allotted key (allocations w.bids s.supplyRemaining) := by
    have hfills : (s.settled w).fills = s.fills ++ s.windowFills w :=
      congrArg AuctionState.fills (s.bare_settled w)
    rw [filledQty, hfills, List.filter_append, sold_append, windowFills, sold_filter_fillsOf hfits]
    rfl
  have hbare := congrArg AuctionState.fills (bare_flushWindow_live hw hlive)
  rw [← hsettled]
  split_ifs at hbare with hex
  · have hclear := (readsCore_clear w.price (s.settled w)).2 key
    have hnone : ((s.settled w).core.clear w.price).1.filledQty key = 0 := by
      have hfills : ((s.settled w).core.clear w.price).1.fills = [] :=
        congrArg AuctionState.fills ((s.settled w).core.bare_clear w.price)
      rw [filledQty, hfills]
      rfl
    rw [hnone] at hclear
    rw [← Nat.add_zero (filledQty (s.settled w) key), ← hclear]
    exact congrArg (fun fills ↦ sold (fills.filter fun f ↦ f.key = key)) hbare
  · exact congrArg (fun fills ↦ sold (fills.filter fun f ↦ f.key = key)) hbare

theorem bare_flushWindow_of_not_live {w : OpenWindow} (hw : s.window = some w)
    (hlive : s.status ≠ .live) : s.flushWindow.1.bare = { s.bare with window := none } := by
  rcases s.flushWindow_cases with ⟨hnone, -⟩ | ⟨w', -, -, hf⟩ | ⟨w', -, h, -⟩
  · exact absurd (hw.symm.trans hnone) (Option.some_ne_none w)
  · rw [hf, bare_turnAwayPending_loop]
    rfl
  · exact absurd h hlive

theorem readsCore_flushWindow : ReadsCore flushWindow := by
  intro s
  rcases s.flushWindow_cases with ⟨hw, hf⟩ | ⟨w, hw, hlive, -⟩ | ⟨w, hw, hlive, -⟩
  · have hf' : s.core.flushWindow = (s.core, []) := by
      rcases s.core.flushWindow_cases with ⟨-, hf'⟩ | ⟨w, hw', -⟩ | ⟨w, hw', -⟩
      · exact hf'
      · exact absurd (hw'.symm.trans hw) (Option.some_ne_none w)
      · exact absurd (hw'.symm.trans hw) (Option.some_ne_none w)
    rw [hf, hf']
    exact ⟨rfl, fun _ ↦ rfl⟩
  · have hbare := bare_flushWindow_of_not_live hw hlive
    have hbare' := bare_flushWindow_of_not_live (s := s.core) hw hlive
    have hfills := congrArg AuctionState.fills hbare
    have hfills' := congrArg AuctionState.fills hbare'
    have hfills : s.flushWindow.1.fills = s.fills := hfills
    have hfills' : s.core.flushWindow.1.fills = [] := hfills'
    refine ⟨?_, fun key ↦ ?_⟩
    · rw [core_eq_of_bare hbare, core_eq_of_bare hbare']
      rfl
    · rw [filledQty, filledQty, filledQty, hfills, hfills']
      rfl
  · have hw' : s.core.window = some w := hw
    have hlive' : s.core.status = .live := hlive
    refine ⟨?_, fun key ↦ ?_⟩
    · rw [core_flushWindow hw hlive, core_flushWindow hw' hlive']
      rfl
    · rw [filledQty_flushWindow hw hlive, filledQty_flushWindow hw' hlive']
      exact congrArg _ (Nat.zero_add _).symm

theorem readsCore_closeElapsedWindow (ts : Nanos) : ReadsCore (closeElapsedWindow ts) := by
  intro s
  rcases s.closeElapsedWindow_cases ts with ⟨heq, hcurrent⟩ | ⟨w, hw, helapsed, heq⟩
  · have heq' : s.core.closeElapsedWindow ts = (s.core, []) := by
      rcases s.core.closeElapsedWindow_cases ts with ⟨heq', -⟩ | ⟨w, hw, helapsed, -⟩
      · exact heq'
      · exact absurd helapsed (hcurrent w hw)
    rw [heq, heq']
    exact ⟨rfl, fun _ ↦ rfl⟩
  · have heq' : s.core.closeElapsedWindow ts = s.core.flushWindow := by
      rcases s.core.closeElapsedWindow_cases ts with ⟨-, hcurrent⟩ | ⟨w', -, -, heq'⟩
      · exact absurd helapsed (hcurrent w hw)
      · exact heq'
    rw [heq, heq']
    exact readsCore_flushWindow s

theorem core_pushPending {t : AuctionState} (index : U64) (price : Price) (b : PendingBid)
    (h : s.core = t.core) :
    (s.pushPending index price b).core = (t.pushPending index price b).core := by
  have hpush := congrArg (fun c : AuctionState ↦ c.pushPending index price b) h
  unfold pushPending at hpush ⊢
  exact hpush

private theorem core_foldl_pushTriggered (index : U64) (price : Price) (bids : List RestingBid)
    {s t : AuctionState} (h : s.core = t.core) :
    (bids.foldl (pushTriggered index price) s).core =
      (bids.foldl (pushTriggered index price) t).core := by
  induction bids generalizing s t with
  | nil => exact h
  | cons b bids ih =>
    exact ih (core_pushPending index price b.toPending h)

private theorem fills_foldl_pushTriggered (index : U64) (price : Price) (bids : List RestingBid)
    (s : AuctionState) : (bids.foldl (pushTriggered index price) s).fills = s.fills := by
  induction bids generalizing s with
  | nil => rfl
  | cons b bids ih => exact ih _

theorem readsCore_triggerResting (ts : Nanos) :
    ReadsCore fun s ↦ (s.triggerResting ts, []) :=
  ReadsCore.of_bare (fun _ ↦ core_foldl_pushTriggered _ _ _ rfl)
    fun _ ↦ fills_foldl_pushTriggered _ _ _ _

theorem readsCore_settleAtFloor : ReadsCore settleAtFloor :=
  readsCore_flushWindow.andThen (ReadsCore.ite (c := fun s ↦ s.status.acceptsBids = true)
    (fun _ ↦ Iff.rfl) (fun s ↦ readsCore_clear s.config.floorPrice s) readsCore_skip)

/-- **A tick reads the core.** -/
theorem readsCore_onTick (ts : Nanos) : ReadsCore (onTick ts) := by
  have hfloor : ReadsCore fun s ↦
      if s.status.acceptsBids && s.config.schedule.atFloor ts then s.settleAtFloor else (s, []) :=
    ReadsCore.ite (c := fun s ↦ (s.status.acceptsBids && s.config.schedule.atFloor ts) = true)
      (fun _ ↦ Iff.rfl) readsCore_settleAtFloor readsCore_skip
  refine ReadsCore.ite (c := fun s ↦ (!s.status.acceptsBids) = true)
    (fun _ ↦ Iff.rfl) readsCore_skip
    fun s ↦ ?_
  have hconfig : s.core.config = s.config := rfl
  rw [hconfig]
  by_cases hbatch : s.config.batchWindow.val = 0
  · rw [if_pos hbatch]
    exact ((readsCore_triggerResting ts).andThen (readsCore_flushWindow.andThen hfloor)) s
  · rw [if_neg hbatch]
    exact ((readsCore_triggerResting ts).andThen (readsCore_skip.andThen hfloor)) s

/-! ## Every bid of a window competes at what it reserved

A take reserves at the price of the window and competes there; a bid that was triggered reserved at
its own limit, and competes there. -/

/-- The bids of the window compete at the prices they reserved at. -/
def Ranked (s : AuctionState) : Prop :=
  ∀ w, s.window = some w → ∀ b ∈ w.bids, b.priority = b.reservePrice

theorem Ranked.of_window (h : s.Ranked) (hwindow : s'.window = s.window) : s'.Ranked :=
  fun w hw ↦ h w (hwindow ▸ hw)

theorem ranked_of_window_eq_none (h : s.window = none) : s.Ranked :=
  fun w hw ↦ absurd (hw.symm.trans h) (Option.some_ne_none w)

private theorem Ranked.join (h : s.Ranked) (bids : List PendingBid)
    (hbids : ∀ b ∈ bids, b.priority = b.reservePrice)
    (hwindow : s'.window = some { s.currentWindow with bids := s.currentWindow.bids ++ bids }) :
    s'.Ranked := by
  intro w hw b hb
  cases hwindow.symm.trans hw
  rcases List.mem_append.mp hb with hb | hb
  · unfold currentWindow at hb
    cases hcurrent : s.window with
    | none =>
      rw [hcurrent] at hb
      exact absurd hb List.not_mem_nil
    | some w =>
      rw [hcurrent] at hb
      exact h w hcurrent b hb
  · exact hbids b hb

theorem Ranked.phase {cmd : Command} {r : AuctionState × List Event} (h : s.Ranked)
    (hphase : s.Phase cmd r) : r.1.Ranked := by
  cases hphase with
  | duplicate => exact h
  | unknown => exact h
  | refuse => exact h
  | uncovered participant key price qty =>
    obtain ⟨c, hc⟩ := s.reserve_frame participant price qty
    rw [hc]
    exact h
  | queue seq participant key qty =>
    obtain ⟨c, hc⟩ := s.reserve_frame participant (s.config.windowBounds s.now).2 qty
    refine h.join [⟨seq, participant, key, qty, (s.config.windowBounds s.now).2,
      (s.config.windowBounds s.now).2, none⟩] (fun b hb ↦ by rw [List.mem_singleton.mp hb]) ?_
    unfold enqueue
    dsimp only
    rw [hc]
    rfl
  | rest seq participant key qty limit =>
    obtain ⟨c, hc⟩ := s.reserve_frame participant limit qty
    refine h.of_window ?_
    unfold shelve
    dsimp only
    rw [hc]
    rfl
  | withdraw => exact h
  | fund => exact h
  | «open» hpending =>
    refine h.of_window ?_
    rw [onOpen, if_pos hpending]
  | trigger =>
    rw [s.triggerResting_eq]
    split_ifs with hnil
    · exact h
    · refine h.join _ (fun b hb ↦ ?_) rfl
      obtain ⟨c, -, rfl⟩ := List.mem_map.mp hb
      rfl
  | flush => exact ranked_of_window_eq_none s.flushWindow_fixed.1
  | floor _ _ hwindow =>
    have hclear := congrArg AuctionState.window (s.bare_clear s.config.floorPrice)
    exact ranked_of_window_eq_none (hclear.trans hwindow)
  | cancel hopen =>
    have hcancel := congrArg AuctionState.window (bare_onCancel hopen)
    exact ranked_of_window_eq_none hcancel

theorem Ranked.step {r : LogRecord} {o : List Event} (h : s.Ranked)
    (hstep : s.step r = some (s', o)) :
    s'.Ranked := by
  refine step_keeps (J := Ranked) h id (fun s h ↦ ?_) (fun s t h ht ↦ h.phase ht) hstep
  rcases s.closeElapsedWindow_cases s.now with ⟨heq, -⟩ | ⟨w, -, -, heq⟩
  · rwa [heq]
  · rw [heq]
    exact ranked_of_window_eq_none s.flushWindow_fixed.1

end AuctionState

theorem run_ranked {config : AuctionConfig} {tr : List Transition} {s : AuctionState}
    (hrun : Run config tr s) : s.Ranked :=
  hrun.invariant (AuctionState.ranked_of_window_eq_none rfl) fun _ _ _ _ h h' ↦ h.step h'

/-! ## Submitting takes inside one window

A take that is admitted with batching on joins the window and does nothing else that the core
keeps. So a batch of takes submitted at one instant leads to the window as it was, or a new one,
with these bids behind it, in the order they came. -/

/-- A take, as it is submitted. -/
structure Take where
  participant : ParticipantId
  key : IdempotencyKey
  qty : Qty
  expectedPrice : Price
deriving DecidableEq

def Take.cmd (t : Take) : Command := .submitBid t.participant t.key t.qty (.take t.expectedPrice)

/-- What a take asks for. -/
def Take.ask (t : Take) : IdempotencyKey × Qty := (t.key, t.qty)

/-- Takes submitted one after another from a state on, all of them admitted, and all while the clock
is in the window `index`. -/
inductive Submits (index : U64) (s : AuctionState) : List Take → AuctionState → Prop
  | nil : Submits index s [] s
  | snoc {takes : List Take} {take : Take} {q q' : AuctionState} {seq : Seq} {ts : Nanos}
      {price : Price} {o : List Event} (h : Submits index s takes q)
      (hstep : q.apply seq ts take.cmd = some (q', o))
      (hqueued : .queued take.key take.participant take.qty price ∈ o)
      (hindex : (q'.config.windowBounds q'.now).1 = index) : Submits index s (takes ++ [take]) q'

namespace AuctionState

variable {s s' : AuctionState} {seq : Seq} {ts : Nanos} {take : Take} {price : Price}
  {o : List Event}

theorem queued_not_mem_flushWindow {key : IdempotencyKey} {participant : ParticipantId}
    {qty : Qty} :
    .queued key participant qty price ∉ s.flushWindow.2 := by
  intro h
  rcases mem_flushWindow h with ⟨key, reason, heq⟩ | ⟨f, heq⟩ | ⟨id, p, q, heq⟩ | ⟨p, q, u, heq⟩
  · cases heq
  · cases heq
  · cases heq
  · cases heq

/-- **An admitted take joins the window** and does nothing else that the core keeps, with batching
on. -/
theorem onBid_queued (hbatch : s.config.batchWindow.val ≠ 0)
    (hqueued : .queued take.key take.participant take.qty price ∈
      (handle seq s.now take.cmd s).2) :
    s.status = .live ∧ (handle seq s.now take.cmd s).1.fills = s.fills ∧
      (handle seq s.now take.cmd s).1.core = (s.pushPending (s.config.windowBounds s.now).1
        (s.config.windowBounds s.now).2 ⟨seq, take.participant, take.key, take.qty,
          (s.config.windowBounds s.now).2, (s.config.windowBounds s.now).2, none⟩).core := by
  have hhandle : handle seq s.now take.cmd s =
    s.onBid seq s.now take.participant take.key take.qty (.take take.expectedPrice) := rfl
  rw [hhandle] at hqueued ⊢
  unfold onBid at hqueued ⊢
  cases hkey : s.outcomes take.key with
  | some outcome =>
    rw [hkey] at hqueued
    cases List.mem_singleton.mp hqueued
  | none =>
    rw [hkey] at hqueued
    dsimp only at hqueued ⊢
    by_cases hzero : Qty.isZero take.qty = true
    · rw [if_pos hzero] at hqueued
      cases List.mem_singleton.mp hqueued
    rw [if_neg hzero] at hqueued ⊢
    by_cases hlive : (!s.status.acceptsBids) = true
    · rw [if_pos hlive] at hqueued
      cases List.mem_singleton.mp hqueued
    rw [if_neg hlive] at hqueued ⊢
    refine ⟨by simpa using hlive, ?_⟩
    rcases lt_or_ge s.config.priceTolerance
      (I64.absDiff (s.config.priceAt s.now) take.expectedPrice) with hmoved | hnear
    · rw [onTake_moved seq take.participant take.key take.qty hmoved] at hqueued
      cases List.mem_singleton.mp hqueued
    obtain ⟨c, hc⟩ := s.reserve_frame take.participant (s.config.windowBounds s.now).2 take.qty
    cases hres : (s.reserve take.participant (s.config.windowBounds s.now).2 take.qty).2 with
    | false =>
      rw [onTake_uncovered seq take.key hnear hres] at hqueued
      cases List.mem_singleton.mp hqueued
    | true =>
      rw [onTake_queued seq take.key hnear hres, Emit.andThen_fst, if_neg hbatch, enqueue, hc]
      exact ⟨rfl, rfl⟩

theorem closeElapsedWindow_congr {t u : Nanos}
    (h : (s.config.windowBounds t).1 = (s.config.windowBounds u).1) :
    s.closeElapsedWindow t = s.closeElapsedWindow u := by
  unfold closeElapsedWindow
  rw [h]

theorem apply_queued (hbatch : s.config.batchWindow.val ≠ 0)
    (hstep : s.apply seq ts take.cmd = some (s', o))
    (hqueued : .queued take.key take.participant take.qty price ∈ o) :
    (s.closeElapsedWindow (max ts s.now)).1.status = .live ∧
      (∀ key, s'.filledQty key = (s.closeElapsedWindow (max ts s.now)).1.filledQty key) ∧
      s'.core = ((s.closeElapsedWindow (max ts s.now)).1.pushPending
        (s.config.windowBounds (max ts s.now)).1 (s.config.windowBounds (max ts s.now)).2
        ⟨seq, take.participant, take.key, take.qty, (s.config.windowBounds (max ts s.now)).2,
          (s.config.windowBounds (max ts s.now)).2, none⟩).core := by
  have hrecord : s.step ⟨seq, ts, take.cmd⟩ = some (s', o) := hstep
  have hadvance :
      Emit.andThen (closeElapsedWindow (max ts s.now)) (handle seq (max ts s.now) take.cmd)
        (s.stamp seq ts) = (s', o) := (step_eq_some hrecord).2
  rw [Emit.andThen] at hadvance
  obtain ⟨hpost, hout⟩ := Prod.mk.inj hadvance
  -- The stamp is nothing that closing the window reads.
  have hreads := readsCore_closeElapsedWindow (max ts s.now)
  have hcore : ((s.stamp seq ts).closeElapsedWindow (max ts s.now)).1.core =
      (s.closeElapsedWindow (max ts s.now)).1.core := (hreads _).1.trans (hreads s).1.symm
  have hfilled : ∀ key, ((s.stamp seq ts).closeElapsedWindow (max ts s.now)).1.filledQty key =
      (s.closeElapsedWindow (max ts s.now)).1.filledQty key :=
    fun key ↦ ((hreads _).2 key).trans ((hreads s).2 key).symm
  obtain ⟨hconfig, hnow⟩ := (s.stamp seq ts).closeElapsedWindow_frame (max ts s.now)
  have hqueued : .queued take.key take.participant take.qty price ∈
      (handle seq (max ts s.now) take.cmd
        ((s.stamp seq ts).closeElapsedWindow (max ts s.now)).1).2 := by
    rw [← hout] at hqueued
    rcases List.mem_append.mp hqueued with hclosing | hhandling
    · rcases (s.stamp seq ts).closeElapsedWindow_cases (max ts s.now) with ⟨heq, -⟩ | ⟨w, -, -, heq⟩
      · rw [heq] at hclosing
        exact absurd hclosing List.not_mem_nil
      · rw [heq] at hclosing
        exact absurd hclosing queued_not_mem_flushWindow
    · exact hhandling
  rw [← hpost]
  clear hpost hout hadvance
  generalize ((s.stamp seq ts).closeElapsedWindow (max ts s.now)).1 = c at *
  have hnow : c.now = max ts s.now := hnow
  have hconfig : c.config = s.config := hconfig
  rw [← hnow] at hqueued hcore hfilled ⊢
  rw [← hconfig] at hbatch ⊢
  obtain ⟨hlive, hfills, hjoined⟩ := onBid_queued hbatch hqueued
  refine ⟨?_, fun key ↦ ?_, ?_⟩
  · have hstatus := congrArg AuctionState.status hcore
    exact hstatus.symm.trans hlive
  · rw [← hfilled, filledQty, hfills]
    rfl
  · rw [hjoined]
    exact core_pushPending _ _ _ hcore

end AuctionState

open AuctionState

variable {index : U64} {s a a' : AuctionState} {takes takes' : List Take}

theorem Submits.eq_of_nil (h : Submits index s [] a) : a = s := by
  generalize hnil : ([] : List Take) = takes at h
  cases h with
  | nil => rfl
  | snoc => exact absurd hnil.symm (by simp)

theorem Submits.run {config : AuctionConfig} {tr : List Transition} (h : Submits index s takes a)
    (hrun : Run config tr s) : ∃ tr, Run config tr a := by
  induction h with
  | nil => exact ⟨tr, hrun⟩
  | @snoc takes take q q' seq ts price o _ hstep _ _ ih =>
    obtain ⟨tr, hrun⟩ := ih
    have hrecord : q.step ⟨seq, ts, take.cmd⟩ = some (q', o) := hstep
    exact ⟨_, hrun.snoc hrecord⟩

/-- **What a batch of takes leads to**: the elapsed window is closed, and the takes are in the
window of the instant, at its price. -/
theorem Submits.gathered (h : Submits index s takes a) (hbatch : s.config.batchWindow.val ≠ 0)
    (hne : takes ≠ []) {t : Nanos} (ht : (s.config.windowBounds t).1 = index) :
    a.config = s.config ∧ (s.config.windowBounds a.now).1 = index ∧
      (s.closeElapsedWindow t).1.status = .live ∧
      (∀ key, a.filledQty key = (s.closeElapsedWindow t).1.filledQty key) ∧
      ∃ (w : OpenWindow) (pending : List PendingBid),
        w = (s.closeElapsedWindow t).1.window.getD ⟨index, (s.config.windowBounds t).2, []⟩ ∧
        ¬w.index < index ∧
        a.core = { (s.closeElapsedWindow t).1.core with
          window := some { w with bids := w.bids ++ pending } } ∧
        pending.map PendingBid.ask = takes.map Take.ask ∧
        ∀ b ∈ pending, b.priority = (s.config.windowBounds t).2 := by
  induction h with
  | nil => exact absurd rfl hne
  | @snoc takes take q q' seq ts price o hsubmits hstep hqueued hindex ih =>
    have hrecord : q.step ⟨seq, ts, take.cmd⟩ = some (q', o) := hstep
    obtain ⟨hconfig', hnow'⟩ := step_frame hrecord
    dsimp only at hnow'
    by_cases hfirst : takes = []
    · -- The first take closes the window that has elapsed.
      subst hfirst
      obtain rfl := hsubmits.eq_of_nil
      rw [hnow', hconfig'] at hindex
      obtain ⟨hlive, hfilled, hcore⟩ := apply_queued hbatch hstep hqueued
      have hbounds := AuctionConfig.windowBounds_eq_of_index_eq (hindex.trans ht.symm)
      rw [closeElapsedWindow_congr (hindex.trans ht.symm)] at hlive hfilled hcore
      refine ⟨hconfig', hnow'.symm ▸ hindex, hlive, hfilled, _,
        [⟨seq, take.participant, take.key, take.qty, (q.config.windowBounds t).2,
          (q.config.windowBounds t).2, none⟩], rfl, ?_, ?_, rfl, ?_⟩
      · rcases q.closeElapsedWindow_cases t with ⟨heq, hcurrent⟩ | ⟨w, -, -, heq⟩
        · rw [heq, ← ht]
          cases hw : q.window with
          | none => exact ht ▸ lt_irrefl _
          | some w => exact hcurrent w hw
        · rw [heq, q.flushWindow_fixed.1]
          exact lt_irrefl _
      · rw [hcore, hindex, hbounds]
        rfl
      · intro b hb
        rw [List.mem_singleton.mp hb]
    · obtain ⟨hconfig, hin, hlive, hfilled, w, pending, hw, hcurrent, hcore, hask, hprice⟩ :=
        ih hfirst
      rw [hnow', hconfig', hconfig] at hindex
      have hwindow : q.window = some { w with bids := w.bids ++ pending } :=
        congrArg AuctionState.window hcore
      -- A later take finds the window open.
      have hopen : (q.closeElapsedWindow (max ts q.now)).1 = q := by
        rcases q.closeElapsedWindow_cases (max ts q.now) with ⟨heq, -⟩ | ⟨w', hw', helapsed, -⟩
        · rw [heq]
        · cases hwindow.symm.trans hw'
          rw [hconfig, hindex] at helapsed
          exact absurd helapsed hcurrent
      rw [← hconfig] at hbatch
      obtain ⟨-, hfilled', hcore'⟩ := apply_queued hbatch hstep hqueued
      rw [hopen] at hfilled' hcore'
      have hbounds := AuctionConfig.windowBounds_eq_of_index_eq (hindex.trans ht.symm)
      refine ⟨hconfig'.trans hconfig, hnow'.symm ▸ hindex, hlive,
        fun key ↦ (hfilled' key).trans (hfilled key), w,
        pending ++ [⟨seq, take.participant, take.key, take.qty, (s.config.windowBounds t).2,
          (s.config.windowBounds t).2, none⟩], hw, hcurrent, ?_, ?_, ?_⟩
      · have hopened : q.core = AuctionState.core { (s.closeElapsedWindow t).1.core with
            window := some { w with bids := w.bids ++ pending } } := hcore
        rw [hcore', hconfig, hbounds, ht, core_pushPending _ _ _ hopened, ← List.append_assoc]
        rfl
      · rw [List.map_append, List.map_append, hask]
        rfl
      · intro b hb
        rcases List.mem_append.mp hb with hb | hb
        · exact hprice b hb
        · rw [List.mem_singleton.mp hb]

/-! ## Two orders

The same takes in two orders lead to states that are alike: equal cores, but for the order of the
bids in the window. The tick that closes the window then matches a list and a permutation of it. -/

theorem val_totalFilled (s : AuctionState) :
    s.totalFilled.val = min (sold s.fills) (2 ^ 64 - 1) := by
  have hfold : ∀ (fills : List Fill) (q : Qty),
      (fills.foldl (fun acc f ↦ acc.saturatingAdd f.qty) q).val =
        min (q.val + sold fills) (2 ^ 64 - 1) := by
    intro fills
    induction fills with
    | nil =>
      intro q
      have hlt := q.val_lt
      show q.val = min (q.val + 0) _
      omega
    | cons f fills ih =>
      intro q
      have hsold : sold (f :: fills) = f.qty.val + sold fills := rfl
      rw [List.foldl_cons, ih, U64.saturatingAdd, U64.val_saturate, hsold]
      omega
  rw [totalFilled, hfold]
  show min (0 + _) _ = _
  rw [Nat.zero_add]

theorem AuctionState.Alike.totalFilled_eq (h : s.Alike a) (hs : s.Tallied) (ha : a.Tallied) :
    a.totalFilled = s.totalFilled := by
  have hsupply := congrArg AuctionState.supplyRemaining h.core
  have hconfig := congrArg AuctionState.config h.core
  have hsupply : a.supplyRemaining = s.supplyRemaining := hsupply
  have hconfig : a.config = s.config := hconfig
  have hconserved := ha.conserved
  rw [hsupply, hconfig, ← hs.conserved] at hconserved
  apply U64.ext
  rw [val_totalFilled, val_totalFilled, Nat.add_right_cancel hconserved]

theorem AuctionState.alike_flushWindow {w : OpenWindow} (bids : List PendingBid)
    (hcore : s.core = { a.core with window := some { w with bids := bids } })
    (hwindow : a.window = some w) (hlive : a.status = .live)
    (hfilled : ∀ key, s.filledQty key = a.filledQty key) (hshuffled : Shuffled w.price w.bids bids)
    (hkeys : (w.bids.map PendingBid.key).Nodup) : a.flushWindow.1.Alike s.flushWindow.1 := by
  have hw : s.window = some { w with bids := bids } := by
    have h := congrArg AuctionState.window hcore
    exact h
  have hlive' : s.status = .live := by
    have h := congrArg AuctionState.status hcore
    exact h.trans hlive
  have hsupply : s.supplyRemaining = a.supplyRemaining := by
    have h := congrArg AuctionState.supplyRemaining hcore
    exact h
  have hmatched := hshuffled.matched a.supplyRemaining
  have hafter : s.supplyAfter { w with bids := bids } = a.supplyAfter w := by
    unfold supplyAfter
    rw [hsupply, hmatched]
  have hexhausts : s.Exhausts { w with bids := bids } ↔ a.Exhausts w := by
    unfold Exhausts
    rw [hsupply, hmatched]
  refine ⟨?_, fun key ↦ ?_⟩
  · rw [core_flushWindow hw hlive', core_flushWindow hwindow hlive, hafter, hcore]
    by_cases hex : a.Exhausts w
    · rw [if_pos hex, if_pos (hexhausts.mpr hex)]
    · rw [if_neg hex, if_neg fun h ↦ hex (hexhausts.mp h)]
  · rw [filledQty_flushWindow hw hlive', filledQty_flushWindow hwindow hlive, hsupply, hfilled]
    have hallotted := hshuffled.allotted_le hkeys a.supplyRemaining key
    dsimp only
    omega

private theorem alike_tick {seq seq' : Seq} {ts : Nanos} {b b' : AuctionState} {o o' : List Event}
    (hclosed : ((a.stamp seq ts).closeElapsedWindow (max ts a.now)).1.Alike
      ((a'.stamp seq' ts).closeElapsedWindow (max ts a'.now)).1)
    (hnow : max ts a'.now = max ts a.now) (htick : a.apply seq ts .tick = some (b, o))
    (htick' : a'.apply seq' ts .tick = some (b', o')) : b.Alike b' := by
  have hrecord : a.step ⟨seq, ts, .tick⟩ = some (b, o) := htick
  have hrecord' : a'.step ⟨seq', ts, .tick⟩ = some (b', o') := htick'
  have hpost :
      (((a.stamp seq ts).closeElapsedWindow (max ts a.now)).1.onTick (max ts a.now)).1 = b :=
    congrArg Prod.fst (step_eq_some hrecord).2
  have hpost' : (((a'.stamp seq' ts).closeElapsedWindow (max ts a'.now)).1.onTick
      (max ts a'.now)).1 = b' := congrArg Prod.fst (step_eq_some hrecord').2
  rw [← hpost, ← hpost', hnow]
  rw [hnow] at hclosed
  exact (readsCore_onTick _).alike hclosed

theorem Submits.index_now {config : AuctionConfig} {tr : List Transition}
    (h : Submits index s takes a)
    (hrun : Run config tr a) (hne : takes ≠ []) : (config.windowBounds a.now).1 = index := by
  cases h with
  | nil => exact absurd rfl hne
  | snoc _ _ _ hindex =>
    rw [run_config hrun] at hindex
    exact hindex

private theorem Submits.closed {config : AuctionConfig} {tr : List Transition} (seq : Seq)
    {ts : Nanos} {w : OpenWindow} (hrun : Run config tr a)
    (hin : (config.windowBounds a.now).1 = index)
    (hlater : index < (config.windowBounds ts).1) (hw : a.window = some w) :
    max ts a.now = ts ∧ w.index = index ∧ w.price = (config.windowBounds a.now).2 ∧
      (a.stamp seq ts).closeElapsedWindow ts = (a.stamp seq ts).flushWindow := by
  have hconfig := run_config hrun
  have hbounds := (run_priced hrun).window w hw
  rw [hconfig] at hbounds
  have hindex : (config.windowBounds a.now).1 = w.index := congrArg Prod.fst hbounds
  have hprice : (config.windowBounds a.now).2 = w.price := congrArg Prod.snd hbounds
  have hlt : a.now ≤ ts := by
    by_contra hle
    have hmono := AuctionConfig.windowIndex_mono (c := config) (not_le.mp hle).le
    rw [hin] at hmono
    exact not_lt.mpr hmono hlater
  refine ⟨max_eq_left hlt, hindex.symm.trans hin, hprice.symm, ?_⟩
  rcases (a.stamp seq ts).closeElapsedWindow_cases ts with ⟨-, hcurrent⟩ | ⟨w', -, -, heq⟩
  · refine absurd ?_ (hcurrent w hw)
    show w.index < (a.config.windowBounds ts).1
    rw [hconfig, ← hindex, hin]
    exact hlater
  · exact heq

private theorem shuffled_of_ask {price : Price} {bids pending pending' : List PendingBid}
    (hlow : ∀ b ∈ bids, price ≤ b.priority) (hprice : ∀ b ∈ pending, b.priority = price)
    (hprice' : ∀ b ∈ pending', b.priority = price)
    (hask : (pending'.map PendingBid.ask).Perm (pending.map PendingBid.ask)) :
    Shuffled price (bids ++ pending) (bids ++ pending') := by
  have habove : ∀ pending : List PendingBid, (∀ b ∈ pending, b.priority = price) →
      above price (bids ++ pending) = above price bids ∧
        upTo price (bids ++ pending) = upTo price bids ++ pending := by
    intro pending hprice
    have hnone : above price pending = [] := List.filter_eq_nil_iff.mpr fun b hb ↦ by
      rw [hprice b hb, decide_eq_true_iff]
      exact lt_irrefl _
    have hall : upTo price pending = pending := List.filter_eq_self.mpr fun b hb ↦ by
      rw [hprice b hb, decide_eq_false (lt_irrefl _), Bool.not_false]
    unfold above upTo at *
    rw [List.filter_append, List.filter_append, hnone, hall, List.append_nil]
    exact ⟨rfl, rfl⟩
  have hlow' : ∀ pending : List PendingBid, (∀ b ∈ pending, b.priority = price) →
      ∀ b ∈ bids ++ pending, price ≤ b.priority := by
    intro pending hprice b hb
    rcases List.mem_append.mp hb with hb | hb
    · exact hlow b hb
    · exact (hprice b hb).ge
  refine ⟨hlow' _ hprice, hlow' _ hprice', ?_, ?_⟩
  · rw [(habove _ hprice).1, (habove _ hprice').1]
  · rw [(habove _ hprice).2, (habove _ hprice').2, List.map_append, List.map_append]
    exact hask.append_left _

private theorem alike_closed {config : AuctionConfig} {tr : List Transition} {seq seq' : Seq}
    {ts : Nanos} (hrun : Run config tr s) (hbatch : config.batchWindow.val ≠ 0)
    (hperm : takes.Perm takes') (hne : takes ≠ []) (ha : Submits index s takes a)
    (ha' : Submits index s takes' a') (hlater : index < (config.windowBounds ts).1) :
    max ts a'.now = max ts a.now ∧ ((a.stamp seq ts).closeElapsedWindow (max ts a.now)).1.Alike
      ((a'.stamp seq' ts).closeElapsedWindow (max ts a'.now)).1 := by
  have hconfig := run_config hrun
  have hne' : takes' ≠ [] := by
    rintro rfl
    exact hne hperm.eq_nil
  obtain ⟨tra, hruna⟩ := ha.run hrun
  obtain ⟨tra', hruna'⟩ := ha'.run hrun
  have hin := ha.index_now hruna hne
  have hin' := ha'.index_now hruna' hne'
  rw [← hconfig] at hbatch
  obtain ⟨-, -, hlive, hfilled, w, pending, hw, hcurrent, hcore, hask, hprice⟩ :=
    ha.gathered hbatch hne (t := a.now) (hconfig.symm ▸ hin)
  obtain ⟨-, -, -, hfilled', w', pending', hw', -, hcore', hask', hprice'⟩ :=
    ha'.gathered hbatch hne' (t := a.now) (hconfig.symm ▸ hin)
  obtain rfl : w = w' := hw.trans hw'.symm
  have hwindow : a.window = some { w with bids := w.bids ++ pending } :=
    congrArg AuctionState.window hcore
  have hwindow' : a'.window = some { w with bids := w.bids ++ pending' } :=
    congrArg AuctionState.window hcore'
  have hstatus : a.status = .live := by
    have h := congrArg AuctionState.status hcore
    exact h.trans hlive
  obtain ⟨hnow, -, hwprice, hclose⟩ := Submits.closed seq hruna hin hlater hwindow
  obtain ⟨hnow', -, -, hclose'⟩ := Submits.closed seq' hruna' hin' hlater hwindow'
  have hwprice : w.price = (config.windowBounds a.now).2 := hwprice
  rw [hconfig, ← hwprice] at hprice hprice'
  rw [hnow, hnow', hclose, hclose']
  refine ⟨rfl, alike_flushWindow (w := { w with bids := w.bids ++ pending })
    (w.bids ++ pending') ?_ hwindow hstatus (fun key ↦ ?_) ?_ ?_⟩
  · show a'.core = { a.core with window := some { w with bids := w.bids ++ pending' } }
    rw [hcore, hcore']
  · exact (hfilled' key).trans (hfilled key).symm
  · refine shuffled_of_ask (fun b hb ↦ ?_) hprice hprice' ?_
    · have hb : b ∈ w.bids ++ pending := List.mem_append_left _ hb
      rw [run_ranked hruna _ hwindow b hb]
      exact (run_priced hruna).covered _ hwindow b hb
    · rw [hask, hask']
      exact (hperm.map _).symm
  · have hnodup := (run_keyed hruna).nodup
    rw [live_book, Multiset.map_coe, Multiset.coe_nodup, liveBids, hwindow, List.map_append,
      List.map_map] at hnodup
    exact hnodup.of_append_left

/-- **Arrival order inside a batch window is worth at most one unit.** Takes that are admitted in
both orders leave the same supply, and the same fills under every key but for one unit. -/
theorem arrival_order_at_most_one {config : AuctionConfig} {tr : List Transition} {seq seq' : Seq}
    {ts : Nanos} {b b' : AuctionState} {o o' : List Event} (hrun : Run config tr s)
    (hbatch : config.batchWindow.val ≠ 0) (hperm : takes.Perm takes')
    (ha : Submits index s takes a) (ha' : Submits index s takes' a')
    (hlater : index < (config.windowBounds ts).1) (htick : a.apply seq ts .tick = some (b, o))
    (htick' : a'.apply seq' ts .tick = some (b', o')) :
    b'.supplyRemaining = b.supplyRemaining ∧ b'.status = b.status ∧
      b'.clearingPrice = b.clearingPrice ∧ b'.totalFilled = b.totalFilled ∧
      ∀ key, b.filledQty key ≤ b'.filledQty key + 1 ∧ b'.filledQty key ≤ b.filledQty key + 1 := by
  have halike : b.Alike b' := by
    by_cases hne : takes = []
    · subst hne
      obtain rfl := hperm.symm.eq_nil
      obtain rfl := ha.eq_of_nil
      obtain rfl := ha'.eq_of_nil
      have hstamp : (a'.stamp seq ts).Alike (a'.stamp seq' ts) :=
        ⟨rfl, fun _ ↦ ⟨Nat.le_succ _, Nat.le_succ _⟩⟩
      exact alike_tick ((readsCore_closeElapsedWindow _).alike hstamp) rfl htick htick'
    · obtain ⟨hnow, hclosed⟩ := alike_closed hrun hbatch hperm hne ha ha' hlater
      exact alike_tick hclosed hnow htick htick'
  have htallied : ∀ {q r : AuctionState} {takes : List Take} {seq : Seq} {o : List Event},
      Submits index s takes q → q.apply seq ts .tick = some (r, o) → r.Tallied := by
    intro q r takes seq o hsubmits hstep
    obtain ⟨tr, hrun⟩ := hsubmits.run hrun
    have hrecord : q.step ⟨seq, ts, .tick⟩ = some (r, o) := hstep
    exact (hrun.snoc hrecord).invariant (tallied_new config) fun _ _ _ _ h h' ↦ h.step h'
  have hsupply := congrArg AuctionState.supplyRemaining halike.core
  have hstatus := congrArg AuctionState.status halike.core
  have hprice := congrArg AuctionState.clearingPrice halike.core
  exact ⟨hsupply, hstatus, hprice,
    halike.totalFilled_eq (htallied ha htick) (htallied ha' htick'), halike.filled⟩

/-- Two participants are funded. -/
def twoFunded : List Transition × AuctionState :=
  play (.sample 1000000000) (script [(0, .open), (0, .setCollateral 1 100000),
    (0, .setCollateral 2 100000)])

/-- Seven units of the ten there are. -/
def sevenTake : Take := ⟨1, 101, 7, 1000⟩

/-- Eight units of the same ten. -/
def eightTake : Take := ⟨2, 102, 8, 1000⟩

/-- Whoever comes first receives the odd unit. -/
theorem arrival_order_sample :
    ∃ a a' b b' o o', Submits 0 twoFunded.2 [sevenTake, eightTake] a ∧
      Submits 0 twoFunded.2 [eightTake, sevenTake] a' ∧
      a.apply 5 1000000000 .tick = some (b, o) ∧ a'.apply 5 1000000000 .tick = some (b', o') ∧
      (b.filledQty 101 = 5 ∧ b'.filledQty 101 = 4) ∧
      b'.totalFilled = b.totalFilled ∧
      ∀ key, b.filledQty key ≤ b'.filledQty key + 1 ∧ b'.filledQty key ≤ b.filledQty key + 1 := by
  have hrun := run_play (.sample 1000000000) (script [(0, .open), (0, .setCollateral 1 100000),
    (0, .setCollateral 2 100000)])
  obtain ⟨q, a, b, o₁, o₂, o, h₁, h₂, htick, hq₁, hq₂, hi₁, hi₂, hfilled⟩ : ∃ q a b o₁ o₂ o,
      twoFunded.2.apply 3 0 sevenTake.cmd = some (q, o₁) ∧
        q.apply 4 0 eightTake.cmd = some (a, o₂) ∧ a.apply 5 1000000000 .tick = some (b, o) ∧
        .queued 101 1 7 1000 ∈ o₁ ∧ .queued 102 2 8 1000 ∈ o₂ ∧
        (q.config.windowBounds q.now).1 = 0 ∧ (a.config.windowBounds a.now).1 = 0 ∧
        b.filledQty 101 = 5 :=
    ⟨_, _, _, _, _, _, rfl, rfl, rfl, by decide, by decide, by decide, by decide, by decide⟩
  obtain ⟨q', a', b', o₁', o₂', o', h₁', h₂', htick', hq₁', hq₂', hi₁', hi₂', hfilled'⟩ :
      ∃ q a b o₁ o₂ o, twoFunded.2.apply 3 0 eightTake.cmd = some (q, o₁) ∧
        q.apply 4 0 sevenTake.cmd = some (a, o₂) ∧ a.apply 5 1000000000 .tick = some (b, o) ∧
        .queued 102 2 8 1000 ∈ o₁ ∧ .queued 101 1 7 1000 ∈ o₂ ∧
        (q.config.windowBounds q.now).1 = 0 ∧ (a.config.windowBounds a.now).1 = 0 ∧
        b.filledQty 101 = 4 :=
    ⟨_, _, _, _, _, _, rfl, rfl, rfl, by decide, by decide, by decide, by decide, by decide⟩
  have ha : Submits 0 twoFunded.2 [sevenTake, eightTake] a :=
    (Submits.nil.snoc h₁ hq₁ hi₁).snoc h₂ hq₂ hi₂
  have ha' : Submits 0 twoFunded.2 [eightTake, sevenTake] a' :=
    (Submits.nil.snoc h₁' hq₁' hi₁').snoc h₂' hq₂' hi₂'
  obtain ⟨-, -, -, htotal, hkeys⟩ := arrival_order_at_most_one hrun (by decide)
    (List.Perm.swap eightTake sevenTake []) ha ha' (by decide) htick htick'
  exact ⟨a, a', b, b', o, o', ha, ha', htick, htick', ⟨hfilled, hfilled'⟩, htotal, hkeys⟩

end DutchAuction
