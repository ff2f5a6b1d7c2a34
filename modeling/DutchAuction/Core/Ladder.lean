import DutchAuction.Library.OrdMap
import DutchAuction.Proto

/-!
# The resting-bid ladder

Resting bids wait in a map from limit price to a queue in arrival order, beside a running total of
the units resting. The clock triggers a bid by splitting the map at the current price; a withdrawal
searches the queues for the participant and key.

Five operations maintain the map by hand. What a caller needs of them is stated once, on the list of
bids that rest (`PriceLadder.bids`): each operation adds, removes or keeps exactly the bids it
should, up to the order in which that list enumerates them. `PriceLadder.Filed` is the invariant the
map itself keeps, that no queue is empty and every bid sits in the queue of its own limit. -/

namespace DutchAuction

/-- A bid waiting for the clock to reach its limit. -/
structure RestingBid where
  /-- The submitting command's position in the total order. -/
  seq : Seq
  participant : ParticipantId
  key : IdempotencyKey
  /-- Units still wanted. -/
  qty : Qty
  limit : Price
deriving DecidableEq

/-- Resting bids indexed by limit price. -/
structure PriceLadder where
  levels : OrdMap Price (List RestingBid)
  /-- Maintained alongside the map, not read off it. -/
  totalQty : Qty
deriving DecidableEq

namespace PriceLadder

/-- A ladder with nothing resting. -/
def new : PriceLadder := ⟨OrdMap.empty, 0⟩

variable (l : PriceLadder)

def isEmpty : Bool := l.levels.entries.isEmpty

/-- Number of resting bids. -/
def len : ℕ := (l.levels.values.map List.length).sum

/-- The highest limit resting, which is the next one a descending clock reaches. -/
def nextTrigger : Option Price := l.levels.maxKey?

/-- Place a bid at the back of its level. -/
def insert (bid : RestingBid) : PriceLadder where
  levels := l.levels.upsert bid.limit fun level ↦ level.getD [] ++ [bid]
  totalQty := l.totalQty.saturatingAdd bid.qty

/-- Remove and return every bid whose limit the clock has reached, highest limit first and within a
level in queue order. -/
def drainTriggered (price : Price) : List RestingBid × PriceLadder :=
  let triggered := (l.levels.splitOff price).2
  let out := (triggered.entries.reverse.map Prod.snd).flatten
  (out, ⟨(l.levels.splitOff price).1, out.foldl (fun q b ↦ q.saturatingSub b.qty) l.totalQty⟩)

/-- Remove and return every bid, highest limit first. -/
def drainAll : List RestingBid × PriceLadder :=
  ((l.levels.entries.reverse.map Prod.snd).flatten, ⟨OrdMap.empty, 0⟩)

/-- The first bid in the queue under this participant and key, and the queue without it. -/
def takeFrom (participant : ParticipantId) (key : IdempotencyKey) (level : List RestingBid) :
    Option (RestingBid × List RestingBid) :=
  (level.find? fun b ↦ b.key = key ∧ b.participant = participant).map fun bid ↦
    (bid, level.eraseP fun b ↦ b.key = key ∧ b.participant = participant)

/-- Withdraw a bid by its submission key, pruning the level it empties. -/
def remove (participant : ParticipantId) (key : IdempotencyKey) : Option RestingBid × PriceLadder :=
  match l.levels.updateFirst (takeFrom participant key) with
  | some (bid, levels) =>
    (some bid, ⟨levels.filter fun e ↦ !e.2.isEmpty, l.totalQty.saturatingSub bid.qty⟩)
  | none => (none, l)

/-- Put a partially filled bid back at the front of its level. -/
def requeue (bid : RestingBid) : PriceLadder :=
  if bid.qty.isZero then l
  else
    { levels := l.levels.upsert bid.limit fun level ↦ bid :: level.getD []
      totalQty := l.totalQty.saturatingAdd bid.qty }

/-! ## The bids that rest

The ladder is enumerated from the lowest limit by its map and from the highest by a drain. The two
hold the same bids, and most facts only need them up to order. -/

/-- Every resting bid, level by level. -/
def bids : List RestingBid := l.levels.values.flatten

/-- No level is empty, and every bid is filed under its own limit. -/
def Filed : Prop := ∀ e ∈ l.levels.entries, e.2 ≠ [] ∧ ∀ b ∈ e.2, b.limit = e.1

variable {l}

theorem mem_bids {b : RestingBid} : b ∈ l.bids ↔ ∃ e ∈ l.levels.entries, b ∈ e.2 := by
  rw [bids, OrdMap.values, List.mem_flatten]
  constructor
  · rintro ⟨level, hlevel, hb⟩
    obtain ⟨e, he, rfl⟩ := List.mem_map.mp hlevel
    exact ⟨e, he, hb⟩
  · rintro ⟨e, he, hb⟩
    exact ⟨e.2, List.mem_map_of_mem he, hb⟩

@[simp] theorem bids_new : new.bids = [] := rfl

theorem filed_new : new.Filed := fun _ he ↦ absurd he List.not_mem_nil

private theorem flatten_reverse_perm (es : List (Price × List RestingBid)) :
    (es.reverse.map Prod.snd).flatten.Perm (es.map Prod.snd).flatten :=
  ((List.reverse_perm es).map Prod.snd).flatten

/-! ### Insertion and requeueing

Both put one bid into the queue of its limit, at one end or the other. -/

private theorem bids_upsert_perm (bid : RestingBid) (q : Qty)
    (place : Option (List RestingBid) → List RestingBid)
    (hplace : ∀ level, (place level).Perm (bid :: level.getD [])) :
    (⟨l.levels.upsert bid.limit place, q⟩ : PriceLadder).bids.Perm (bid :: l.bids) := by
  unfold bids OrdMap.values
  rcases l.levels.upsert_entries bid.limit place with ⟨l₁, l₂, h, h'⟩ | ⟨l₁, v, l₂, h, h'⟩
  · rw [h, h']
    simp only [List.map_append, List.map_cons, List.flatten_append, List.flatten_cons]
    have hp : (place none).Perm [bid] := hplace none
    calc (l₁.map Prod.snd).flatten ++ (place none ++ (l₂.map Prod.snd).flatten)
        |>.Perm ((l₁.map Prod.snd).flatten ++ ([bid] ++ (l₂.map Prod.snd).flatten)) :=
          (hp.append_right _).append_left _
      _ |>.Perm (bid :: ((l₁.map Prod.snd).flatten ++ (l₂.map Prod.snd).flatten)) :=
          List.perm_middle
  · rw [h, h']
    simp only [List.map_append, List.map_cons, List.flatten_append, List.flatten_cons]
    have hp : (place (some v)).Perm (bid :: v) := hplace (some v)
    calc (l₁.map Prod.snd).flatten ++ (place (some v) ++ (l₂.map Prod.snd).flatten)
        |>.Perm ((l₁.map Prod.snd).flatten ++ (bid :: v ++ (l₂.map Prod.snd).flatten)) :=
          (hp.append_right _).append_left _
      _ |>.Perm (bid :: ((l₁.map Prod.snd).flatten ++ (v ++ (l₂.map Prod.snd).flatten))) :=
          List.perm_middle

private theorem filed_upsert (h : l.Filed) (bid : RestingBid) (q : Qty)
    (place : Option (List RestingBid) → List RestingBid)
    (hplace : ∀ level, (place level).Perm (bid :: level.getD [])) :
    (⟨l.levels.upsert bid.limit place, q⟩ : PriceLadder).Filed := by
  have hnew : ∀ level : Option (List RestingBid), (∀ b ∈ level.getD [], b.limit = bid.limit) →
      place level ≠ [] ∧ ∀ b ∈ place level, b.limit = bid.limit := by
    intro level hlevel
    refine ⟨fun hnil ↦ ?_, fun b hb ↦ ?_⟩
    · have := (hplace level).length_eq
      rw [hnil] at this
      simp at this
    · rcases List.mem_cons.mp ((hplace level).mem_iff.mp hb) with rfl | hb
      · rfl
      · exact hlevel b hb
  intro e he
  rcases l.levels.upsert_entries bid.limit place with ⟨l₁, l₂, h₁, h₂⟩ | ⟨l₁, v, l₂, h₁, h₂⟩
  · have he' : e ∈ l₁ ++ (bid.limit, place none) :: l₂ := h₂ ▸ he
    rcases List.mem_append.mp he' with he' | he'
    · exact h e (h₁ ▸ List.mem_append_left _ he')
    · rcases List.mem_cons.mp he' with rfl | he'
      · exact hnew none fun b hb ↦ absurd hb List.not_mem_nil
      · exact h e (h₁ ▸ List.mem_append_right _ he')
  · have hv : (bid.limit, v) ∈ l.levels.entries :=
      h₁ ▸ List.mem_append_right _ List.mem_cons_self
    have he' : e ∈ l₁ ++ (bid.limit, place (some v)) :: l₂ := h₂ ▸ he
    rcases List.mem_append.mp he' with he' | he'
    · exact h e (h₁ ▸ List.mem_append_left _ he')
    · rcases List.mem_cons.mp he' with rfl | he'
      · exact hnew (some v) fun b hb ↦ (h _ hv).2 b hb
      · exact h e (h₁ ▸ List.mem_append_right _ (List.mem_cons_of_mem _ he'))

/-- **Insertion adds the bid.** -/
theorem bids_insert_perm (bid : RestingBid) : (l.insert bid).bids.Perm (bid :: l.bids) :=
  bids_upsert_perm bid _ _ fun _ ↦ List.perm_append_singleton _ _

theorem mem_bids_requeue {bid b : RestingBid} (h : b ∈ (l.requeue bid).bids) :
    b = bid ∨ b ∈ l.bids := by
  unfold requeue at h
  split_ifs at h
  · exact Or.inr h
  · exact List.mem_cons.mp ((bids_upsert_perm bid _ _ fun _ ↦ List.Perm.refl _).mem_iff.mp h)

theorem filed_insert (h : l.Filed) (bid : RestingBid) : (l.insert bid).Filed :=
  filed_upsert h bid _ _ fun _ ↦ List.perm_append_singleton _ _

theorem filed_requeue (h : l.Filed) (bid : RestingBid) : (l.requeue bid).Filed := by
  unfold requeue
  split_ifs
  · exact h
  · exact filed_upsert h bid _ _ fun _ ↦ List.Perm.refl _

/-! ### Draining -/

/-- **A drain takes out the bids the clock has reached and leaves the rest.** -/
theorem bids_drainTriggered_perm (price : Price) :
    ((l.drainTriggered price).1 ++ (l.drainTriggered price).2.bids).Perm l.bids := by
  unfold drainTriggered bids OrdMap.values
  conv_rhs => rw [← l.levels.splitOff_append price, List.map_append, List.flatten_append]
  exact (List.perm_append_comm).trans ((flatten_reverse_perm _).append_left _)

theorem mem_drainTriggered (h : l.Filed) {price : Price} {b : RestingBid}
    (hb : b ∈ (l.drainTriggered price).1) : b ∈ l.bids ∧ price ≤ b.limit := by
  refine ⟨(bids_drainTriggered_perm price).mem_iff.mp (List.mem_append_left _ hb), ?_⟩
  obtain ⟨level, hlevel, hb⟩ := List.mem_flatten.mp hb
  obtain ⟨e, he, rfl⟩ := List.mem_map.mp hlevel
  rw [List.mem_reverse] at he
  obtain ⟨he, hk⟩ := List.mem_filter.mp he
  rw [(h e he).2 b hb]
  exact of_decide_eq_true hk

theorem limit_lt_of_mem_drained (h : l.Filed) {price : Price} {b : RestingBid}
    (hb : b ∈ (l.drainTriggered price).2.bids) : b.limit < price := by
  obtain ⟨e, he, hb⟩ := mem_bids.mp hb
  obtain ⟨he, hk⟩ := List.mem_filter.mp he
  rw [(h e he).2 b hb]
  exact of_decide_eq_true hk

theorem filed_drainTriggered (h : l.Filed) (price : Price) : (l.drainTriggered price).2.Filed :=
  fun e he ↦ h e (List.mem_of_mem_filter he)

theorem drainAll_perm : l.drainAll.1.Perm l.bids := flatten_reverse_perm _

@[simp] theorem bids_drainAll : l.drainAll.2.bids = [] := rfl

theorem filed_drainAll : l.drainAll.2.Filed := filed_new

/-! ### Withdrawal

The bid is looked for level by level. It leaves its queue, and a queue that this empties is pruned
from the map; the other bids stay where they are. -/

private theorem takeFrom_eq_some {p : ParticipantId} {k : IdempotencyKey}
    {level level' : List RestingBid} {bid : RestingBid}
    (h : takeFrom p k level = some (bid, level')) :
    bid.key = k ∧ bid.participant = p ∧
      ∃ before behind, level = before ++ bid :: behind ∧ level' = before ++ behind := by
  unfold takeFrom at h
  obtain ⟨b, hfind, heq⟩ := Option.map_eq_some_iff.mp h
  cases heq
  have hp := List.find?_some hfind
  rw [decide_eq_true_iff] at hp
  refine ⟨hp.1, hp.2, ?_⟩
  obtain ⟨-, before, behind, rfl, hbefore⟩ := List.find?_eq_some_iff_append.mp hfind
  refine ⟨before, behind, rfl, ?_⟩
  have hnot : ∀ b ∈ before, ¬(decide (b.key = k ∧ b.participant = p)) = true := fun b hb ↦ by
    simpa only [Bool.not_eq_true, Bool.not_eq_true'] using hbefore b hb
  rw [List.eraseP_append_right _ hnot]
  exact congrArg _ (List.eraseP_cons_of_pos (by simpa using hp))

private theorem takeFrom_eq_none {p : ParticipantId} {k : IdempotencyKey}
    {level : List RestingBid} :
    takeFrom p k level = none ↔ ∀ b ∈ level, ¬(b.key = k ∧ b.participant = p) := by
  unfold takeFrom
  rw [Option.map_eq_none_iff, List.find?_eq_none]
  simp only [decide_eq_true_eq]

theorem remove_eq_none {p : ParticipantId} {k : IdempotencyKey} (h : (l.remove p k).1 = none) :
    (l.remove p k).2 = l ∧ ∀ b ∈ l.bids, ¬(b.key = k ∧ b.participant = p) := by
  unfold remove at h ⊢
  split at h
  · cases h
  · rename_i hnone
    refine ⟨rfl, fun b hb ↦ ?_⟩
    obtain ⟨e, he, hb⟩ := mem_bids.mp hb
    exact takeFrom_eq_none.mp (OrdMap.updateFirst_eq_none.mp hnone e.2 (List.mem_map_of_mem he)) b
      hb

theorem flatten_prune (es : List (Price × List RestingBid)) :
    ((es.filter fun e ↦ !e.2.isEmpty).map Prod.snd).flatten = (es.map Prod.snd).flatten := by
  induction es with
  | nil => rfl
  | cons e es ih =>
    rw [List.filter_cons]
    cases he : e.2 with
    | nil => simp [he, ih]
    | cons c cs => simp [he, ih]

/-- **What a withdrawal does that finds something**: one bid, which matches the participant and the
key, leaves its queue, and a queue that this empties is pruned. -/
theorem remove_entries {p : ParticipantId} {k : IdempotencyKey} {bid : RestingBid}
    (h : (l.remove p k).1 = some bid) :
    bid.key = k ∧ bid.participant = p ∧ ∃ l₁ q before behind l₂,
      l.levels.entries = l₁ ++ (q, before ++ bid :: behind) :: l₂ ∧
      (l.remove p k).2.levels.entries =
        (l₁ ++ (q, before ++ behind) :: l₂).filter (fun e ↦ !e.2.isEmpty) ∧
      (l.remove p k).2.totalQty = l.totalQty.saturatingSub bid.qty := by
  unfold remove at h ⊢
  split at h
  · rename_i b levels hsome
    cases h
    obtain ⟨l₁, q, v, v', l₂, h₁, h₂, h₃⟩ := OrdMap.updateFirst_eq_some hsome
    obtain ⟨hk, hp, before, behind, rfl, rfl⟩ := takeFrom_eq_some h₃
    exact ⟨hk, hp, l₁, q, before, behind, l₂, h₁, congrArg (List.filter _) h₂, rfl⟩
  · cases h

theorem bids_remove {p : ParticipantId} {k : IdempotencyKey} {bid : RestingBid}
    (h : (l.remove p k).1 = some bid) :
    ∃ before behind, l.bids = before ++ bid :: behind ∧
      (l.remove p k).2.bids = before ++ behind := by
  obtain ⟨-, -, l₁, q, before, behind, l₂, h₁, h₂, -⟩ := remove_entries h
  refine ⟨(l₁.map Prod.snd).flatten ++ before, behind ++ (l₂.map Prod.snd).flatten, ?_, ?_⟩
  · rw [bids, OrdMap.values, h₁]
    simp only [List.map_append, List.map_cons, List.flatten_append, List.flatten_cons,
      List.append_assoc, List.cons_append]
  · rw [bids, OrdMap.values, h₂, flatten_prune]
    simp only [List.map_append, List.map_cons, List.flatten_append, List.flatten_cons,
      List.append_assoc]

/-- **A withdrawal takes out exactly the bid it returns**, which matches the participant and the
key. -/
theorem remove_eq_some {p : ParticipantId} {k : IdempotencyKey} {bid : RestingBid}
    (h : (l.remove p k).1 = some bid) :
    bid.key = k ∧ bid.participant = p ∧ l.bids.Perm (bid :: (l.remove p k).2.bids) := by
  obtain ⟨hk, hp, -⟩ := remove_entries h
  obtain ⟨before, behind, hbids, hbids'⟩ := bids_remove h
  rw [hbids, hbids']
  exact ⟨hk, hp, List.perm_middle⟩

theorem bids_remove_sublist (p : ParticipantId) (k : IdempotencyKey) :
    (l.remove p k).2.bids.Sublist l.bids := by
  cases h : (l.remove p k).1 with
  | none => rw [(remove_eq_none h).1]
  | some bid =>
    obtain ⟨before, behind, hbids, hbids'⟩ := bids_remove h
    rw [hbids, hbids']
    exact (List.Sublist.refl before).append (List.sublist_cons_self bid behind)

theorem filed_remove (h : l.Filed) (p : ParticipantId) (k : IdempotencyKey) :
    (l.remove p k).2.Filed := by
  cases hrem : (l.remove p k).1 with
  | none =>
    rw [(remove_eq_none hrem).1]
    exact h
  | some bid =>
    obtain ⟨-, -, l₁, q, before, behind, l₂, h₁, h₂, -⟩ := remove_entries hrem
    intro e he
    rw [h₂] at he
    obtain ⟨he, hne⟩ := List.mem_filter.mp he
    refine ⟨by simpa using hne, ?_⟩
    rcases List.mem_append.mp he with he | he
    · exact (h e (h₁ ▸ List.mem_append_left _ he)).2
    · rcases List.mem_cons.mp he with rfl | he
      · have hq := (h _ (h₁ ▸ List.mem_append_right _ List.mem_cons_self)).2
        intro b hb
        rcases List.mem_append.mp hb with hb | hb
        · exact hq b (List.mem_append_left _ hb)
        · exact hq b (List.mem_append_right _ (List.mem_cons_of_mem _ hb))
      · exact (h e (h₁ ▸ List.mem_append_right _ (List.mem_cons_of_mem _ he))).2

/-! ### The next trigger -/

theorem limit_le_nextTrigger (h : l.Filed) {b : RestingBid} (hb : b ∈ l.bids) :
    ∃ m, l.nextTrigger = some m ∧ b.limit ≤ m := by
  obtain ⟨e, he, hbe⟩ := mem_bids.mp hb
  obtain ⟨es, last, hes⟩ : ∃ es last, l.levels.entries = es ++ [last] :=
    (List.eq_nil_or_concat' _).resolve_left (List.ne_nil_of_mem he)
  have hsorted := l.levels.sorted
  refine ⟨last.1, by rw [nextTrigger, OrdMap.maxKey?, hes, List.getLast?_concat, Option.map_some],
    ?_⟩
  rw [(h e he).2 b hbe]
  rw [hes] at he hsorted
  rcases List.mem_append.mp he with he | he
  · exact ((List.pairwise_append.mp hsorted).2.2 e he last (List.mem_singleton_self _)).le
  · rw [List.mem_singleton.mp he]

theorem mem_of_nextTrigger (h : l.Filed) {m : Price} (hm : l.nextTrigger = some m) :
    ∃ b ∈ l.bids, b.limit = m := by
  obtain ⟨e, he, rfl⟩ := Option.map_eq_some_iff.mp hm
  have hmem := List.mem_of_getLast? he
  obtain ⟨b, hb⟩ := List.exists_mem_of_ne_nil _ (h e hmem).1
  exact ⟨b, mem_bids.mpr ⟨e, hmem, hb⟩, (h e hmem).2 b hb⟩

theorem drainTriggered_eq_self (h : l.Filed) {price : Price}
    (hlow : ∀ b ∈ l.bids, b.limit < price) :
    l.drainTriggered price = ([], l) := by
  have hkeys : ∀ e ∈ l.levels.entries, e.1 < price := by
    intro e he
    obtain ⟨b, hb⟩ := List.exists_mem_of_ne_nil _ (h e he).1
    rw [← (h e he).2 b hb]
    exact hlow b (mem_bids.mpr ⟨e, he, hb⟩)
  have hbelow : (l.levels.splitOff price).1 = l.levels :=
    OrdMap.ext (List.filter_eq_self.mpr fun e he ↦ decide_eq_true (hkeys e he))
  have habove : (l.levels.splitOff price).2.entries = [] :=
    List.filter_eq_nil_iff.mpr fun e he ↦ by
      rw [decide_eq_true_iff]
      exact not_le.mpr (hkeys e he)
  unfold drainTriggered
  simp only [hbelow, habove]
  rfl

end PriceLadder

end DutchAuction
