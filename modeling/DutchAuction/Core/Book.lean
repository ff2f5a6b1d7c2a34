import Mathlib.Data.Multiset.Filter
import Mathlib.Logic.Relation
import DutchAuction.Core.Frame

/-!
# The book

What an auction is about, with the clock, the window, the ladder and the order of everything left
out: the bids that hold a reservation, the fills, what is on record for each key, and each
participant's account.

Six moves change it. A bid is *admitted* against its participant's account; a key is *refused*
outright; a live bid is *retired* with its reservation returned, or *filled* at a price no higher
than the one it reserved at; a fill is *repriced* downward; an account is *funded*. A move carries
the command it serves, since only a submission admits and only a funding command funds.

The invariants of the book are proved per move: here that the record agrees with the book
(`Agrees`), in `DutchAuction.Core.Ledger` that the accounts are exact. The machine refines the book
(`DutchAuction.Core.Refine`), so they hold of every state of a run.
-/

namespace DutchAuction

/-- A bid that holds a reservation, in the window or on the ladder. -/
structure LiveBid where
  participant : ParticipantId
  key : IdempotencyKey
  qty : Qty
  /-- The price it reserved at. -/
  price : Price
deriving DecidableEq

/-- The account with `price * qty` committed against it. -/
def Collateral.commit (c : Collateral) (price : Price) (qty : Qty) : Collateral :=
  { c with committed :=
      c.committed.saturatingAdd ((Price.checkedMulQty price qty).getD I64.maxValue) }

/-- The account with `price * qty` given back to it. -/
def Collateral.release (c : Collateral) (price : Price) (qty : Qty) : Collateral :=
  { c with committed := c.committed.saturatingSub ((Price.checkedMulQty price qty).getD 0) }

/-- The bids in flight, the fills, the record and the accounts. -/
structure Book where
  live : Multiset LiveBid
  fills : List Fill
  outcomes : IdempotencyKey → Option Outcome
  accounts : ParticipantId → Collateral

namespace Book

variable {floor : Price} {cmd : Command} {B B' : Book}

/-- One move of the book while `cmd` is handled, in an auction with this floor. -/
inductive Move (floor : Price) (cmd : Command) (B : Book) : Book → Prop
  /-- Admit a bid that its participant's account covers. -/
  | accept (b : LiveBid) (kind : BidKind) (outcome : Outcome) (cost : I64)
      (hcmd : cmd = .submitBid b.participant b.key b.qty kind)
      (hprice : (∃ expected, kind = .take expected ∧ floor ≤ b.price) ∨ kind = .resting b.price)
      (houtcome : outcome = .queued b.qty ∨ outcome = .resting b.qty)
      (hkey : B.outcomes b.key = none) (hqty : 0 < b.qty.val)
      (hcost : Price.checkedMulQty b.price b.qty = some cost)
      (hcover : cost ≤ (B.accounts b.participant).available) :
      Move floor cmd B
        { B with
          live := b ::ₘ B.live
          outcomes := Function.update B.outcomes b.key (some outcome)
          accounts := Function.update B.accounts b.participant
            ((B.accounts b.participant).commit b.price b.qty) }
  /-- Refuse a key that was never seen. -/
  | refuse (key : IdempotencyKey) (reason : RejectReason) (hkey : B.outcomes key = none) :
      Move floor cmd B
        { B with outcomes := Function.update B.outcomes key (some (.rejected reason)) }
  /-- Take a bid out unfilled. -/
  | retire (b : LiveBid) (rest : Multiset LiveBid) (outcome : Outcome) (hlive : B.live = b ::ₘ rest)
      (houtcome : outcome = .cancelled ∨ ∃ reason, outcome = .rejected reason) :
      Move floor cmd B
        { B with
          live := rest
          outcomes := Function.update B.outcomes b.key
            (some (mergeOutcome (B.outcomes b.key) outcome))
          accounts := Function.update B.accounts b.participant
            ((B.accounts b.participant).release b.price b.qty) }
  /-- Fill a bid, for no more than it asked and at no more than it reserved. -/
  | fill (b : LiveBid) (rest : Multiset LiveBid) (f : Fill) (hlive : B.live = b ::ₘ rest)
      (hkey : f.key = b.key) (hparticipant : f.participant = b.participant)
      (hqty : 0 < f.qty.val) (hle : f.qty.val ≤ b.qty.val) (hfloor : floor ≤ f.price)
      (hprice : f.price ≤ b.price) :
      Move floor cmd B
        { live := rest
          fills := B.fills ++ [f]
          outcomes := Function.update B.outcomes b.key
            (some (mergeOutcome (B.outcomes b.key) (.filled f.qty f.price)))
          accounts := Function.update B.accounts b.participant
            (((B.accounts b.participant).release b.price b.qty).commit f.price f.qty) }
  /-- Move a fill down to a lower price, in the list and on record. -/
  | reprice (l₁ l₂ : List Fill) (f : Fill) (price : Price) (hfills : B.fills = l₁ ++ f :: l₂)
      (hfloor : floor ≤ price) (hprice : price ≤ f.price) :
      Move floor cmd B
        { B with
          fills := l₁ ++ f.at price :: l₂
          outcomes := Function.update B.outcomes f.key
            ((B.outcomes f.key).map (Outcome.quoting price))
          accounts := Function.update B.accounts f.participant
            ((B.accounts f.participant).release (f.price.saturatingSub price) f.qty) }
  /-- Set an account's ceiling. -/
  | fund (participant : ParticipantId) (limit : I64)
      (hcmd : cmd = .setCollateral participant limit) :
      Move floor cmd B
        { B with
          accounts := Function.update B.accounts participant
            { B.accounts participant with limit := limit } }

/-- Any number of moves. -/
abbrev Moves (floor : Price) (cmd : Command) : Book → Book → Prop :=
  Relation.ReflTransGen (Move floor cmd)

/-- **The rule for moves.** What every move keeps, a sequence of them keeps. -/
theorem Moves.keeps {P : Book → Prop} (move : ∀ B B', P B → Move floor cmd B B' → P B')
    (h : Moves floor cmd B B') (hB : P B) : P B' := by
  induction h with
  | refl => exact hB
  | tail _ hmove ih => exact move _ _ ih hmove

/-! ## The record agrees with the book

Each key is in one of three places: it was never used, its one bid is live and on record as queued
or resting, or it has been answered, with the one fill it may have. A move is about one key and
leaves the agreement of the others alone. -/

/-- The live bids under a key. -/
def liveAt (B : Book) (k : IdempotencyKey) : Multiset LiveBid := B.live.filter fun b ↦ b.key = k

/-- The fills under a key. -/
def fillsAt (B : Book) (k : IdempotencyKey) : List Fill := B.fills.filter fun f ↦ f.key = k

/-- What may be on record for a key, given the live bids and the fills under it. Nothing else may:
no key is live twice or filled twice, or both live and filled, and none was filled and then
cancelled. -/
inductive Agrees : Option Outcome → Multiset LiveBid → List Fill → Prop
  | unseen : Agrees none 0 []
  | queued (b : LiveBid) : Agrees (some (.queued b.qty)) {b} []
  | resting (b : LiveBid) : Agrees (some (.resting b.qty)) {b} []
  | filled (f : Fill) : Agrees (some (.filled f.qty f.price)) 0 [f]
  | rejected (reason : RejectReason) : Agrees (some (.rejected reason)) 0 []
  | cancelled : Agrees (some .cancelled) 0 []

/-- Every key's record agrees with the book. -/
def Keyed (B : Book) : Prop := ∀ k, Agrees (B.outcomes k) (B.liveAt k) (B.fillsAt k)

theorem Agrees.of_none {live : Multiset LiveBid} {fills : List Fill} (h : Agrees none live fills) :
    live = 0 ∧ fills = [] := by
  cases h
  exact ⟨rfl, rfl⟩

theorem Agrees.of_cons {o : Option Outcome} {b : LiveBid} {rest : Multiset LiveBid}
    {fills : List Fill} (h : Agrees o (b ::ₘ rest) fills) :
    rest = 0 ∧ fills = [] ∧ (o = some (.queued b.qty) ∨ o = some (.resting b.qty)) := by
  generalize hlive : b ::ₘ rest = live at h
  cases h with
  | queued c =>
    obtain ⟨rfl, rfl⟩ := (Multiset.singleton_eq_cons_iff _).mp hlive.symm
    exact ⟨rfl, rfl, Or.inl rfl⟩
  | resting c =>
    obtain ⟨rfl, rfl⟩ := (Multiset.singleton_eq_cons_iff _).mp hlive.symm
    exact ⟨rfl, rfl, Or.inr rfl⟩
  | unseen => exact absurd hlive (Multiset.cons_ne_zero)
  | filled f => exact absurd hlive (Multiset.cons_ne_zero)
  | rejected reason => exact absurd hlive (Multiset.cons_ne_zero)
  | cancelled => exact absurd hlive (Multiset.cons_ne_zero)

theorem Agrees.of_fill {o : Option Outcome} {live : Multiset LiveBid} {fills : List Fill} {f : Fill}
    (h : Agrees o live fills) (hf : f ∈ fills) :
    live = 0 ∧ fills = [f] ∧ o = some (.filled f.qty f.price) := by
  cases h with
  | filled g =>
    cases List.mem_singleton.mp hf
    exact ⟨rfl, rfl, rfl⟩
  | unseen => exact absurd hf List.not_mem_nil
  | queued b => exact absurd hf List.not_mem_nil
  | resting b => exact absurd hf List.not_mem_nil
  | rejected reason => exact absurd hf List.not_mem_nil
  | cancelled => exact absurd hf List.not_mem_nil

theorem Keyed.of_key (h : B.Keyed) (k : IdempotencyKey)
    (houtcomes : ∀ k' ≠ k, B'.outcomes k' = B.outcomes k')
    (hlive : ∀ k' ≠ k, B'.liveAt k' = B.liveAt k')
    (hfills : ∀ k' ≠ k, B'.fillsAt k' = B.fillsAt k')
    {o : Option Outcome} {live : Multiset LiveBid} {fills : List Fill} (hk : Agrees o live fills)
    (ho : B'.outcomes k = o) (hl : B'.liveAt k = live) (hf : B'.fillsAt k = fills) : B'.Keyed := by
  intro k'
  by_cases heq : k' = k
  · rw [heq, ho, hl, hf]
    exact hk
  · rw [houtcomes k' heq, hlive k' heq, hfills k' heq]
    exact h k'

private theorem filter_cons_of_key_ne {b : LiveBid} {rest : Multiset LiveBid} {k : IdempotencyKey}
    (h : k ≠ b.key) : (b ::ₘ rest).filter (fun c ↦ c.key = k) = rest.filter fun c ↦ c.key = k :=
  Multiset.filter_cons_of_neg _ fun heq ↦ h heq.symm

private theorem filter_cons_of_key_eq (b : LiveBid) (rest : Multiset LiveBid) :
    (b ::ₘ rest).filter (fun c ↦ c.key = b.key) = b ::ₘ rest.filter fun c ↦ c.key = b.key :=
  Multiset.filter_cons_of_pos _ rfl

private theorem Keyed.taken (h : B.Keyed) {b : LiveBid} {rest : Multiset LiveBid}
    (hlive : B.live = b ::ₘ rest) :
    rest.filter (fun c ↦ c.key = b.key) = 0 ∧ B.fillsAt b.key = [] ∧
      (B.outcomes b.key = some (.queued b.qty) ∨ B.outcomes b.key = some (.resting b.qty)) := by
  have hk := h b.key
  rw [liveAt, hlive, filter_cons_of_key_eq] at hk
  exact hk.of_cons

private theorem Keyed.unseen (h : B.Keyed) {k : IdempotencyKey} (hkey : B.outcomes k = none) :
    B.liveAt k = 0 ∧ B.fillsAt k = [] := by
  have hk := h k
  rw [hkey] at hk
  exact hk.of_none

/-- **Every move keeps the record in agreement with the book.** -/
theorem Keyed.move (h : B.Keyed) (hmove : Move floor cmd B B') : B'.Keyed := by
  cases hmove with
  | accept b kind outcome cost _ _ houtcome hkey =>
    obtain ⟨hlive, hfills⟩ := h.unseen hkey
    have hagrees : Agrees (some outcome) {b} [] := by
      rcases houtcome with rfl | rfl
      · exact Agrees.queued b
      · exact Agrees.resting b
    refine h.of_key b.key (fun k hk ↦ Function.update_of_ne hk _ _)
      (fun k hk ↦ filter_cons_of_key_ne hk) (fun _ _ ↦ rfl) hagrees
      (Function.update_self _ _ _) ?_ hfills
    exact (filter_cons_of_key_eq b B.live).trans (congrArg (b ::ₘ ·) hlive)
  | refuse key reason hkey =>
    obtain ⟨hlive, hfills⟩ := h.unseen hkey
    exact h.of_key key (fun k hk ↦ Function.update_of_ne hk _ _) (fun _ _ ↦ rfl) (fun _ _ ↦ rfl)
      (Agrees.rejected reason) (Function.update_self _ _ _) hlive hfills
  | retire b rest outcome hlive houtcome =>
    obtain ⟨hrest, hfills, hrecord⟩ := h.taken hlive
    have hmerge : mergeOutcome (B.outcomes b.key) outcome = outcome := by
      rcases hrecord with hrecord | hrecord <;> rw [hrecord] <;> rfl
    have hagrees : Agrees (some outcome) 0 [] := by
      rcases houtcome with rfl | ⟨reason, rfl⟩
      · exact Agrees.cancelled
      · exact Agrees.rejected reason
    refine h.of_key b.key (fun k hk ↦ Function.update_of_ne hk _ _)
      (fun k hk ↦ ?_) (fun _ _ ↦ rfl) hagrees ?_ hrest hfills
    · rw [liveAt, liveAt, hlive, filter_cons_of_key_ne hk]
    · exact (Function.update_self _ _ _).trans (congrArg some hmerge)
  | fill b rest f hlive hkey =>
    obtain ⟨hrest, hfills, hrecord⟩ := h.taken hlive
    have hmerge : mergeOutcome (B.outcomes b.key) (.filled f.qty f.price) =
        .filled f.qty f.price := by
      rcases hrecord with hrecord | hrecord <;> rw [hrecord] <;> rfl
    refine h.of_key b.key (fun k hk ↦ Function.update_of_ne hk _ _)
      (fun k hk ↦ ?_) (fun k hk ↦ ?_) (Agrees.filled f) ?_ hrest ?_
    · rw [liveAt, liveAt, hlive, filter_cons_of_key_ne hk]
    · rw [fillsAt, fillsAt, List.filter_append,
        List.filter_cons_of_neg (by simpa [hkey] using Ne.symm hk), List.filter_nil,
        List.append_nil]
    · exact (Function.update_self _ _ _).trans (congrArg some hmerge)
    · rw [fillsAt] at hfills ⊢
      rw [List.filter_append, hfills, List.filter_cons_of_pos (by simpa using hkey),
        List.filter_nil, List.nil_append]
  | reprice l₁ l₂ f price hfills =>
    have hmem : f ∈ B.fillsAt f.key := by
      rw [fillsAt, hfills]
      exact List.mem_filter.mpr ⟨by simp, by simp⟩
    obtain ⟨hlive, hone, hrecord⟩ := (h f.key).of_fill hmem
    -- The fill is alone under its key, so what stands before and after it is under others.
    have hsplit : l₁.filter (fun g ↦ g.key = f.key) = [] ∧
        l₂.filter (fun g ↦ g.key = f.key) = [] := by
      rw [fillsAt, hfills, List.filter_append, List.filter_cons_of_pos (by simp)] at hone
      have hlen := congrArg List.length hone
      simp only [List.length_append, List.length_cons, List.length_nil] at hlen
      exact ⟨List.length_eq_zero_iff.mp (by omega), List.length_eq_zero_iff.mp (by omega)⟩
    refine h.of_key f.key (fun k hk ↦ Function.update_of_ne hk _ _) (fun _ _ ↦ rfl)
      (fun k hk ↦ ?_) (Agrees.filled (f.at price)) ?_ hlive ?_
    · rw [fillsAt, fillsAt, hfills, List.filter_append, List.filter_append,
        List.filter_cons_of_neg fun heq ↦ hk (of_decide_eq_true heq).symm,
        List.filter_cons_of_neg fun heq ↦ hk (of_decide_eq_true heq).symm]
    · refine (Function.update_self _ _ _).trans ?_
      rw [hrecord]
      rfl
    · rw [fillsAt, List.filter_append, hsplit.1, List.filter_cons_of_pos (by simp [Fill.at]),
        hsplit.2, List.nil_append]
  | fund => exact h

end Book

end DutchAuction
