import DutchAuction.Core.Matching
import DutchAuction.Library.Sorting

/-!
# Renumbering

A bid carries the position of the command that submitted it, and a fill carries its bid's. Nothing
but the order of bids of one priority depends on these numbers: the ladder keeps its queues by
arrival, and the matching reads quantities. So the ladder's operations commute with any renumbering
(`PriceLadder.renumber`), and the matching with one that keeps the order of the bids it matches
(`byPriority_renumber`, `matchLevels_renumber`).
-/

namespace DutchAuction

variable {ρ : Seq → Seq}

def Fill.renumber (ρ : Seq → Seq) (f : Fill) : Fill := { f with seq := ρ f.seq }

def PendingBid.renumber (ρ : Seq → Seq) (b : PendingBid) : PendingBid := { b with seq := ρ b.seq }

def RestingBid.renumber (ρ : Seq → Seq) (b : RestingBid) : RestingBid := { b with seq := ρ b.seq }

def OpenWindow.renumber (ρ : Seq → Seq) (w : OpenWindow) : OpenWindow :=
  { w with bids := w.bids.map (PendingBid.renumber ρ) }

def PriceLadder.renumber (ρ : Seq → Seq) (l : PriceLadder) : PriceLadder :=
  { l with levels := l.levels.mapVal (List.map (RestingBid.renumber ρ)) }

/-! ## The ladder -/

namespace PriceLadder

variable (l : PriceLadder)

@[simp] theorem renumber_new : new.renumber ρ = new := rfl

theorem insert_renumber (b : RestingBid) :
    (l.renumber ρ).insert (b.renumber ρ) = (l.insert b).renumber ρ := by
  have hlevels := l.levels.upsert_mapVal b.limit (List.map (RestingBid.renumber ρ))
    (fun level ↦ level.getD [] ++ [b]) (fun level ↦ level.getD [] ++ [b.renumber ρ]) fun old ↦ by
      cases old with
      | none => rfl
      | some level =>
        show level.map _ ++ [b].map _ = (level ++ [b]).map _
        exact List.map_append.symm
  exact congrArg (PriceLadder.mk · (l.totalQty.saturatingAdd b.qty)) hlevels

theorem requeue_renumber (b : RestingBid) :
    (l.renumber ρ).requeue (b.renumber ρ) = (l.requeue b).renumber ρ := by
  have hlevels := l.levels.upsert_mapVal b.limit (List.map (RestingBid.renumber ρ))
    (fun level ↦ b :: level.getD []) (fun level ↦ b.renumber ρ :: level.getD []) fun old ↦ by
      cases old with
      | none => rfl
      | some level => rfl
  unfold requeue
  by_cases hz : b.qty.isZero = true
  · rw [if_pos hz]
    exact if_pos hz
  · rw [if_neg hz]
    refine (if_neg hz).trans ?_
    exact congrArg (PriceLadder.mk · (l.totalQty.saturatingAdd b.qty)) hlevels

private theorem flatten_reverse_renumber (m : OrdMap Price (List RestingBid)) :
    (((m.mapVal (List.map (RestingBid.renumber ρ))).entries.reverse.map Prod.snd).flatten) =
      ((m.entries.reverse.map Prod.snd).flatten).map (RestingBid.renumber ρ) := by
  rw [OrdMap.entries_mapVal, ← List.map_reverse, List.map_map, List.map_flatten, List.map_map]
  rfl

theorem drainAll_renumber :
    (l.renumber ρ).drainAll = (l.drainAll.1.map (RestingBid.renumber ρ), l.drainAll.2) :=
  congrArg (·, _) (flatten_reverse_renumber l.levels)

theorem drainTriggered_renumber (price : Price) :
    (l.renumber ρ).drainTriggered price =
      ((l.drainTriggered price).1.map (RestingBid.renumber ρ),
        (l.drainTriggered price).2.renumber ρ) := by
  unfold drainTriggered renumber
  dsimp only
  rw [OrdMap.splitOff_mapVal, flatten_reverse_renumber, List.foldl_map]
  rfl

theorem remove_renumber (p : ParticipantId) (k : IdempotencyKey) :
    (l.renumber ρ).remove p k =
      ((l.remove p k).1.map (RestingBid.renumber ρ), (l.remove p k).2.renumber ρ) := by
  have hupdate := l.levels.updateFirst_mapVal (f := List.map (RestingBid.renumber ρ))
    (φ := RestingBid.renumber ρ) (g := takeFrom p k) fun level ↦ by
      unfold takeFrom
      rw [List.find?_map, List.eraseP_map, Option.map_map, Option.map_map]
      rfl
  unfold remove renumber
  dsimp only
  rw [hupdate]
  cases hfirst : l.levels.updateFirst (takeFrom p k) with
  | none => rfl
  | some r =>
    obtain ⟨bid, levels⟩ := r
    have hprune := levels.filter_mapVal (List.map (RestingBid.renumber ρ))
      (fun e ↦ !e.2.isEmpty) (fun e ↦ !e.2.isEmpty) fun e ↦ by rw [List.isEmpty_map]
    simp only [Option.map_some]
    rw [hprune]
    rfl

end PriceLadder

/-! ## Matching

Matching sorts by the numbers within a price, so a renumbering has to keep their order. -/

theorem byPriority_renumber {S : Set Seq} (hρ : StrictMonoOn ρ S) {bids : List PendingBid}
    (hS : ∀ b ∈ bids, b.seq ∈ S) :
    byPriority (bids.map (PendingBid.renumber ρ)) =
      (byPriority bids).map (PendingBid.renumber ρ) := by
  refine (List.map_insertionSort _ _ _ bids fun a ha b hb ↦ ?_).symm
  show _ ∨ _ ↔ _ ∨ _
  exact or_congr Iff.rfl (and_congr_right fun _ ↦ (hρ.le_iff_le (hS a ha) (hS b hb)).symm)

theorem priceLevels_renumber (sorted : List PendingBid) :
    priceLevels (sorted.map (PendingBid.renumber ρ)) =
      (priceLevels sorted).map (List.map (PendingBid.renumber ρ)) :=
  Sorting.splitBy_map _ _ sorted

private theorem topUp_renumber (l : List (ℕ × PendingBid)) (left : ℕ) :
    topUp (l.map (Prod.map id (PendingBid.renumber ρ))) left = topUp l left := by
  induction l generalizing left with
  | nil => rfl
  | cons e l ih =>
    obtain ⟨a, b⟩ := e
    have hfst : (l.map (Prod.map id (PendingBid.renumber ρ))).map Prod.fst = l.map Prod.fst := by
      rw [List.map_map]
      rfl
    rw [List.map_cons, Prod.map_apply, topUp, topUp, ih, ih, hfst]
    rfl

theorem allocate_renumber (level : List PendingBid) (remaining : ℕ) :
    allocate (level.map (PendingBid.renumber ρ)) remaining = allocate level remaining := by
  unfold allocate
  simp only [List.map_map, Function.comp_def, List.zip_map_right, topUp_renumber]
  rfl

theorem matchLevels_renumber (levels : List (List PendingBid)) (supply : Qty) (exhausted : Bool) :
    matchLevels (levels.map (List.map (PendingBid.renumber ρ))) supply exhausted =
      matchLevels levels supply exhausted := by
  induction levels generalizing supply exhausted with
  | nil => rfl
  | cons level levels ih =>
    rw [List.map_cons, matchLevels, matchLevels, allocate_renumber, ih, List.map_map]
    simp only [ih]
    rfl

end DutchAuction
