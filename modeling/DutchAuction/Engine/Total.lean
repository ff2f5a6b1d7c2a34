import DutchAuction.Core.Total
import DutchAuction.Engine.Loop

/-!
# A whole run never stops

Commands numbered one after another are applied to a fresh auction, with everything the program
could stop at, and after them the engine asks for its next deadline. Neither stops (`checked_run`),
whatever is sent: the times, quantities, limits and ceilings are arbitrary, and of the terms only
those matter that the constructors of a schedule check, and that the floor is not negative. -/

namespace DutchAuction

namespace Checked

/-- Apply commands one after another. -/
def applyAll : AuctionState → List LogRecord → Option AuctionState
  | s, [] => some s
  | s, r :: records => do
    let t ← apply s r.seq r.ts r.cmd
    applyAll t.1 records

/-- When the batch window containing `now` closes. -/
def windowClose (now width : Nanos) : Option (Option Nanos) :=
  if width.val = 0 then some none
  else do
    let index ← divU64 now width
    return some ((index.saturatingAdd 1).saturatingMul width)

/-- The next instant the engine has work to do with nothing arriving from outside. -/
def deadline (state : AuctionState) : Option (Option Nanos) :=
  if state.status.acceptsBids then do
    let window ← Stopping.bindSome (fun _ ↦ windowClose state.now state.config.batchWindow)
      state.openWindow
    let trigger ← Stopping.bindSome (timeToReach state.config.schedule) state.resting.nextTrigger
    let floor ← timeToReach state.config.schedule state.config.floorPrice
    return (([window, trigger, floor].filterMap id).map fun t ↦ max t state.now).min?
  else some none

variable {s : AuctionState} {cmd : Command} {n k : ℕ} {records : List LogRecord}

theorem windowClose_eq (now width : Nanos) :
    windowClose now width = some (DutchAuction.windowClose now width) := by
  rw [windowClose, DutchAuction.windowClose]
  split_ifs with hzero
  · rfl
  · rw [divU64_eq hzero, Nanos.windowIndex, if_neg hzero]
    rfl

/-- **The deadline.** -/
theorem deadline_eq (h : s.Fit cmd n) : deadline s = some (DutchAuction.deadline s) := by
  have htime := timeToReach_eq h.constructed h.floor
  rw [deadline, DutchAuction.deadline]
  split_ifs with haccepts
  · rw [Stopping.bindSome_eq fun _ ↦ windowClose_eq s.now s.config.batchWindow,
      Stopping.bindSome_eq htime, htime]
    rfl
  · rfl

/-- **One command**, which is the next. -/
theorem apply_eq {r : LogRecord} (h : s.Fit r.cmd n) (hpriced : s.Priced)
    (haccepts : s.Accepts r.seq) :
    apply s r.seq r.ts r.cmd = s.step r := by
  have hstep : s.step r = some (s.advance r.seq r.ts r.cmd) := if_pos haccepts
  rw [hstep, apply]
  cases hlast : s.lastSeq with
  | none => exact advance_eq h hpriced
  | some last =>
    dsimp only
    rw [haccepts last hlast, Option.bind_eq_bind, Option.bind_some, Stopping.check_eq rfl]
    exact advance_eq h hpriced

/-- **Any number of commands**, after `n` that came before the position `k`. -/
theorem applyAll_eq (hnum : NumberedFrom k records) (hbelow : ∀ r ∈ records, r.seq < U64.maxValue)
    (h : ∀ cmd, s.Fit cmd n) (hpriced : s.Priced) (hat : s.At k) (hle : n ≤ k) :
    ∃ tr s', Runs.Run AuctionState.step s tr s' ∧ tr.map Runs.Transition.input = records ∧
      applyAll s records = some s' ∧ ∃ cmd n', s'.Fit cmd n' := by
  induction records generalizing s n k with
  | nil => exact ⟨[], s, Runs.Run.nil, rfl, rfl, .tick, n, h .tick⟩
  | cons r records ih =>
    obtain ⟨hseq, hnum⟩ := hnum
    have haccepts : s.Accepts r.seq := fun last hlast ↦
      Seq.next_eq_some.mpr (hseq.trans (hat last hlast).symm)
    have hstep : s.step r = some (s.advance r.seq r.ts r.cmd) := if_pos haccepts
    have hsmall : n + 1 < 2 ^ 64 := by
      have hlt := U64.lt_def.mp (hbelow r List.mem_cons_self)
      rw [U64.val_maxValue] at hlt
      omega
    have hnext : ∀ cmd, (s.advance r.seq r.ts r.cmd).1.Fit cmd (n + 1) := by
      intro cmd
      have hfit := (h r.cmd).moves (step_frame hstep).1 ((h r.cmd).tallied.step hstep)
        (hpriced.moves hstep)
      exact ⟨hfit.constructed, hfit.floor, hfit.tallied, hfit.book.next cmd, hsmall⟩
    have hat' : (s.advance r.seq r.ts r.cmd).1.At (k + 1) := by
      intro last hlast
      have hlast' : (s.advance r.seq r.ts r.cmd).1.lastSeq = some r.seq := step_lastSeq hstep
      cases hlast.symm.trans hlast'
      rw [hseq]
    obtain ⟨tr, s', hrun, hinputs, hall, hfit⟩ := ih hnum
      (fun r' hr' ↦ hbelow r' (List.mem_cons_of_mem _ hr')) hnext (hpriced.step hstep) hat'
      (by omega)
    refine ⟨_, s', (Runs.Run.nil.snoc hstep).append hrun, congrArg (r :: ·) hinputs, ?_, hfit⟩
    rw [applyAll, apply_eq (h r.cmd) hpriced haccepts, hstep]
    exact hall

end Checked

/-- **No run stops.** Any commands, numbered one after another and below the last number there is,
are applied to an auction whose schedule one of the constructors built, with a floor that is not
negative. With everything they could stop at, they do what the machine does, and so does the
question for the next deadline. -/
theorem checked_run {config : AuctionConfig} {k : ℕ} {records : List LogRecord}
    (hconstructed : config.schedule.Constructed) (hfloor : 0 ≤ config.floorPrice.val)
    (hnum : NumberedFrom k records) (hbelow : ∀ r ∈ records, r.seq < U64.maxValue) :
    ∃ tr s, Run config tr s ∧ tr.map Runs.Transition.input = records ∧
      Checked.applyAll (AuctionState.new config) records = some s ∧
      Checked.deadline s = some (deadline s) := by
  have hfit : ∀ cmd, (AuctionState.new config).Fit cmd 0 := fun cmd ↦
    { constructed := hconstructed
      floor := hfloor
      tallied := AuctionState.tallied_new config
      book :=
        { payable := fun b hb ↦ absurd hb (Multiset.notMem_zero b)
          fills := fun f hf ↦ absurd hf List.not_mem_nil
          few := Or.inl le_rfl }
      small := Nat.two_pow_pos 64 }
  obtain ⟨tr, s, hrun, hinputs, hall, cmd, n, hreached⟩ := Checked.applyAll_eq hnum hbelow hfit
    (AuctionState.priced_new config) (AuctionState.new_at config k) (Nat.zero_le k)
  exact ⟨tr, s, hrun, hinputs, hall, Checked.deadline_eq hreached⟩

/-- Two bids at one price share ten units, five to one, and the auction clears. -/
theorem checked_run_sample :
    ∃ tr s, Run (.sample (U64.lit 10000000000)) tr s ∧
      tr.map Runs.Transition.input = crowdedRecords ∧
      Checked.applyAll (AuctionState.new (.sample (U64.lit 10000000000))) crowdedRecords = some s ∧
      Checked.deadline s = some (deadline s) :=
  checked_run (k := 0) (AuctionConfig.sample_constructed _) (by decide) (by decide) (by decide)

end DutchAuction
