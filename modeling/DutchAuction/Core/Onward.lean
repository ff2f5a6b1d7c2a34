import DutchAuction.Core.Account
import DutchAuction.Core.Final

/-!
# What a reader sees only goes on

Someone who looks at an auction now and then sees scalars: the status, the units left, the price and
the clock. `Onward` is how what he sees later stands to what he saw before. The clock and the status
go forward, the units only get fewer, the price only falls until the auction clears, and an auction
that was over is as it was.

Clearing itself may show a price above the last one: a window settles at the price at which it
opened, and the clock has gone on since.

The units and the status can be read off the events alone (`Summary`).
-/

namespace DutchAuction

/-- How far along an auction is. -/
def Status.stage : Status → ℕ
  | pending => 0
  | live => 1
  | cleared | cancelled => 2

theorem Status.isTerminal_iff_stage {status : Status} :
    status.isTerminal = true ↔ 2 ≤ status.stage := by
  cases status with
  | pending => decide
  | live => decide
  | cleared => decide
  | cancelled => decide

theorem Status.Follows.stage {status status' : Status} (h : status.Follows status') :
    status.stage ≤ status'.stage := by
  cases h with
  | stay => exact le_rfl
  | opened => exact Nat.zero_le 1
  | cleared => exact Nat.le_succ 1
  | cancelled _ hopen =>
    rcases hopen with rfl | rfl
    · exact Nat.zero_le 2
    · exact Nat.le_succ 1

/-! ## What the events say of the scalars -/

/-- The scalars that do not depend on the clock. -/
structure Summary where
  status : Status
  supplyRemaining : Qty
  clearingPrice : Option Price

/-- Read one event. -/
def Summary.record (s : Summary) : Event → Summary
  | .opened _ _ => { s with status := .live }
  | .filled f => { s with supplyRemaining := s.supplyRemaining.saturatingSub f.qty }
  | .cleared price _ _ => { s with status := .cleared, clearingPrice := some price }
  | .cancelled => { s with status := .cancelled }
  | _ => s

/-- What an account says of them. -/
def Account.summary (a : Account) : Summary := ⟨a.status, a.supplyRemaining, a.clearingPrice⟩

theorem Account.summary_record (a : Account) (e : Event) :
    (a.record e).summary = a.summary.record e := by
  cases e with
  | rejected key reason =>
    cases reason with
    | _ => rfl
  | _ => rfl

theorem Account.summary_foldl (a : Account) (events : List Event) :
    (events.foldl Account.record a).summary = events.foldl Summary.record a.summary :=
  (List.foldl_hom summary fun a e ↦ (a.summary_record e).symm).symm

namespace AuctionState

/-- The scalars of a state. -/
def summary (s : AuctionState) : Summary := s.account.summary

variable {s t u : AuctionState} {r : LogRecord} {events : List Event}

theorem Sound.summary_step (h : s.Sound) (hstep : s.step r = some (t, events)) :
    events.foldl Summary.record s.summary = t.summary := by
  rw [summary, ← Account.summary_foldl, (h.step hstep).2, summary]

theorem Sound.summary_run {tr : List Transition} (h : s.Sound)
    (hrun : Runs.Run AuctionState.step s tr t) :
    t.Sound ∧ (tr.flatMap fun t ↦ t.out).foldl Summary.record s.summary = t.summary := by
  induction hrun with
  | nil => exact ⟨h, rfl⟩
  | snoc _ hstep ih =>
    refine ⟨(ih.1.step hstep).1, ?_⟩
    rw [List.flatMap_append, List.foldl_append, ih.2, List.flatMap_singleton]
    exact ih.1.summary_step hstep

/-! ## Onward

A state is behind another if it is no later in time and stage, and has no fewer units left and, but
for the clearing, no lower price. No command goes back, and so no run. -/

/-- How a state that is reached later stands to one before. -/
structure Onward (s t : AuctionState) : Prop where
  config : t.config = s.config
  now : s.now ≤ t.now
  stage : s.status.stage ≤ t.status.stage
  supply : t.supplyRemaining ≤ s.supplyRemaining
  /-- The price only falls, but for the clearing. -/
  price : (t.status = .cleared → s.status = .cleared) → t.price ≤ s.price
  /-- One that is over stays as it was. -/
  ended : s.status.isTerminal = true → Ended s t

namespace Onward

theorem refl (s : AuctionState) : s.Onward s :=
  ⟨rfl, le_rfl, le_rfl, le_rfl, fun _ ↦ le_rfl, fun _ ↦ Ended.refl s⟩

theorem cleared (h : s.Onward t) (hs : s.status = .cleared) : t.status = .cleared := by
  rw [(h.ended (by rw [hs]; rfl)).status, hs]

theorem trans (h : s.Onward t) (h' : t.Onward u) : s.Onward u where
  config := h'.config.trans h.config
  now := h.now.trans h'.now
  stage := h.stage.trans h'.stage
  supply := h'.supply.trans h.supply
  price hclearing :=
    (h'.price fun hu ↦ h.cleared (hclearing hu)).trans
      (h.price fun ht ↦ hclearing (h'.cleared ht))
  ended hterm := (h.ended hterm).trans (h'.ended
    (Status.isTerminal_iff_stage.mpr ((Status.isTerminal_iff_stage.mp hterm).trans h.stage)))

end Onward

theorem supply_foldl_le (events : List Event) (a : Summary) :
    (events.foldl Summary.record a).supplyRemaining ≤ a.supplyRemaining := by
  induction events generalizing a with
  | nil => exact le_rfl
  | cons e events ih =>
    refine (ih (a.record e)).trans ?_
    cases e with
    | filled f => exact U64.le_def.mpr (Nat.sub_le _ _)
    | _ => exact le_rfl

/-- **A command goes onward.** -/
theorem Sound.onward (h : s.Sound) (hstep : s.step r = some (t, events)) : s.Onward t := by
  obtain ⟨hconfig, hnow⟩ := step_frame hstep
  have hlater : s.now ≤ t.now := hnow ▸ le_max_right _ _
  have hended : s.status.isTerminal = true → Ended s t := fun hterm ↦ h.priced.ended hterm hstep
  refine ⟨hconfig, hlater, (h.priced.follows hstep).stage, ?_, fun hclearing ↦ ?_, hended⟩
  · have hsupply : (events.foldl Summary.record s.summary).supplyRemaining ≤ s.supplyRemaining :=
      supply_foldl_le events s.summary
    rwa [h.summary_step hstep] at hsupply
  · have hsame : t.clearingPrice = s.clearingPrice := by
      by_cases ht : t.status = .cleared
      · exact (hended (by rw [hclearing ht]; rfl)).clearingPrice
      · have hs : s.status ≠ .cleared := fun hs ↦
          ht ((hended (by rw [hs]; rfl)).status.trans hs)
        rw [(h.priced.step hstep).clearingPrice_eq_none ht, h.priced.clearingPrice_eq_none hs]
    have hprice : s.reached t.now ≤ s.reached s.now := reached_anti hlater
    rw [reached, ← hsame, ← hconfig] at hprice
    exact hprice

end AuctionState

/-- **Every state a run passes is behind the ones it passes later**, and so are their numbers. -/
theorem run_onward {config : AuctionConfig} {tr : List Transition} {s : AuctionState}
    (hrun : Run config tr s) :
    s.Sound ∧ (∀ t ∈ tr, t.post.Onward s ∧ some t.input.seq ≤ s.lastSeq) ∧
      tr.Pairwise fun t t' ↦ t.post.Onward t'.post ∧ t.input.seq < t'.input.seq := by
  induction hrun with
  | nil => exact ⟨AuctionState.sound_new config, fun t ht ↦ absurd ht List.not_mem_nil, .nil⟩
  | @snoc tr s s' r events _ hstep ih =>
    obtain ⟨hsound, hpast, hpairs⟩ := ih
    have honward := hsound.onward hstep
    -- Whatever has a number before has one below this.
    have hbelow : ∀ t ∈ tr, t.input.seq < r.seq := by
      intro t ht
      obtain ⟨-, hle⟩ := hpast t ht
      cases hlast : s.lastSeq with
      | none =>
        rw [hlast] at hle
        exact absurd hle Option.not_some_le_none
      | some last =>
        rw [hlast] at hle
        have hnext := Seq.next_eq_some.mp ((AuctionState.step_eq_some hstep).1 last hlast)
        have hle : t.input.seq.val ≤ last.val := Option.some_le_some.mp hle
        exact U64.lt_def.mpr (by omega)
    refine ⟨(hsound.step hstep).1, fun t ht ↦ ?_, ?_⟩
    · rw [step_lastSeq hstep]
      rcases List.mem_append.mp ht with ht | ht
      · exact ⟨(hpast t ht).1.trans honward, Option.some_le_some.mpr (hbelow t ht).le⟩
      · obtain rfl := List.mem_singleton.mp ht
        exact ⟨AuctionState.Onward.refl _, Option.some_le_some.mpr le_rfl⟩
    · refine List.pairwise_append.mpr ⟨hpairs, List.pairwise_singleton _ _, fun t ht t' ht' ↦ ?_⟩
      obtain rfl := List.mem_singleton.mp ht'
      exact ⟨(hpast t ht).1.trans honward, hbelow t ht⟩

end DutchAuction
