import DutchAuction.Core.Ladder
import DutchAuction.Library.RankedQueue
import DutchAuction.Library.Runs

/-!
# The ladder as a queue by price and time

Read from the highest limit down, the levels of the ladder are one queue (`PriceLadder.queue`), and
each of the five operations is an operation on that queue: an insertion goes behind the bids of its
limit and a requeued bid before them, a drain cuts the queue at a price, a withdrawal takes one bid
out of the middle.

`price_time_queue` says so of every sequence of calls, together with what the hand-maintained map
and total are at every point of it (`PriceLadder.Faithful`). The total saturates, so it is the sum
of what rests only while that sum is a word. -/

namespace DutchAuction

/-- One call of an operation of the ladder. -/
inductive LadderCall
  | insert (bid : RestingBid)
  | requeue (bid : RestingBid)
  | remove (participant : ParticipantId) (key : IdempotencyKey)
  | drainTriggered (price : Price)
  | drainAll
deriving DecidableEq

namespace LadderCall

/-- Only the queue at one limit changes, and this is how. -/
def AtLevel (limit : Price) (q q' : List RestingBid) (f : List RestingBid → List RestingBid) :
    Prop :=
  RankedQueue.level RestingBid.limit limit q' = f (RankedQueue.level RestingBid.limit limit q) ∧
    ∀ other, other ≠ limit →
      RankedQueue.level RestingBid.limit other q' = RankedQueue.level RestingBid.limit other q

/-- **What a call does to a queue by price and time**, and what it returns. A requeued bid with
nothing left is no bid. -/
def Does (q out q' : List RestingBid) : LadderCall → Prop
  | .insert bid => out = [] ∧ AtLevel bid.limit q q' fun level ↦ level ++ [bid]
  | .requeue bid =>
    out = [] ∧ if bid.qty.isZero then q' = q else AtLevel bid.limit q q' fun level ↦ bid :: level
  | .remove participant key =>
    (∃ before bid behind, q = before ++ bid :: behind ∧ bid.participant = participant ∧
      bid.key = key ∧ out = [bid] ∧ q' = before ++ behind) ∨
    (∀ b ∈ q, ¬(b.participant = participant ∧ b.key = key)) ∧ out = [] ∧ q' = q
  | .drainTriggered price =>
    out = q.filter (fun b ↦ price ≤ b.limit) ∧ q' = q.filter fun b ↦ b.limit < price
  | .drainAll => out = q ∧ q' = []

/-- The bids a call brings to the ladder. -/
def brings : LadderCall → List RestingBid
  | .insert bid => [bid]
  | .requeue bid => if bid.qty.isZero then [] else [bid]
  | .remove _ _ => []
  | .drainTriggered _ => []
  | .drainAll => []

end LadderCall

namespace PriceLadder

/-- Make a call. -/
def call (l : PriceLadder) : LadderCall → Option (PriceLadder × List RestingBid)
  | .insert bid => some (l.insert bid, [])
  | .requeue bid => some (l.requeue bid, [])
  | .remove participant key =>
    some ((l.remove participant key).2, (l.remove participant key).1.toList)
  | .drainTriggered price => some ((l.drainTriggered price).2, (l.drainTriggered price).1)
  | .drainAll => some (l.drainAll.2, l.drainAll.1)

/-! ## The queue

A ladder whose levels are filed under their own limits, and of which none is empty, is one queue:
highest limit first, and inside a limit as its level has it. -/

/-- The bids of these levels, from the last level down. -/
def descending (levels : List (Price × List RestingBid)) : List RestingBid :=
  (levels.reverse.map Prod.snd).flatten

/-- The resting bids, highest limit first. -/
def queue (l : PriceLadder) : List RestingBid := descending l.levels.entries

/-- The units that rest. -/
def units (l : PriceLadder) : ℕ := (l.queue.map fun b ↦ b.qty.val).sum

variable {l l' : PriceLadder} {out : List RestingBid}

theorem descending_append (es es' : List (Price × List RestingBid)) :
    descending (es ++ es') = descending es' ++ descending es := by
  rw [descending, List.reverse_append, List.map_append, List.flatten_append]
  rfl

theorem descending_cons (e : Price × List RestingBid) (es : List (Price × List RestingBid)) :
    descending (e :: es) = descending es ++ e.2 := by
  rw [← List.singleton_append, descending_append]
  exact congrArg _ (List.flatten_singleton)

theorem mem_descending {es : List (Price × List RestingBid)} {b : RestingBid} :
    b ∈ descending es ↔ ∃ e ∈ es, b ∈ e.2 := by
  rw [descending, List.mem_flatten]
  constructor
  · rintro ⟨level, hlevel, hb⟩
    obtain ⟨e, he, rfl⟩ := List.mem_map.mp hlevel
    exact ⟨e, List.mem_reverse.mp he, hb⟩
  · rintro ⟨e, he, hb⟩
    exact ⟨e.2, List.mem_map_of_mem (List.mem_reverse.mpr he), hb⟩

theorem descending_prune (es : List (Price × List RestingBid)) :
    descending (es.filter fun e ↦ !e.2.isEmpty) = descending es := by
  rw [descending, ← List.filter_reverse, flatten_prune]
  rfl

theorem queue_perm (l : PriceLadder) : l.queue.Perm l.bids := drainAll_perm

theorem mem_queue {b : RestingBid} : b ∈ l.queue ↔ b ∈ l.bids := l.queue_perm.mem_iff

theorem Filed.ranked (h : l.Filed) : RankedQueue.Ranked RestingBid.limit l.queue := by
  have hsorted := l.levels.sorted
  unfold Filed at h
  unfold queue
  generalize l.levels.entries = es at h hsorted
  induction es with
  | nil => exact List.Pairwise.nil
  | cons e es ih =>
    obtain ⟨hhead, hsorted⟩ := List.pairwise_cons.mp hsorted
    rw [descending_cons]
    refine List.pairwise_append.mpr
      ⟨ih (fun e he ↦ h e (List.mem_cons_of_mem _ he)) hsorted, ?_, fun b hb c hc ↦ ?_⟩
    · refine List.pairwise_of_forall_mem_list fun b hb c hc ↦ ?_
      rw [(h e List.mem_cons_self).2 b hb, (h e List.mem_cons_self).2 c hc]
    · obtain ⟨f, hf, hb⟩ := mem_descending.mp hb
      rw [(h f (List.mem_cons_of_mem _ hf)).2 b hb, (h e List.mem_cons_self).2 c hc]
      exact (hhead f hf).le

/-! ## Insertion and requeueing

Changing one level changes one stretch of the queue, with everything of a higher limit before it
and everything of a lower limit behind it. The two operations put a bid at the two ends of that
stretch. -/

/-- **Where a level is.** Changing one level changes one stretch of the queue, with everything of a
higher limit before it and everything of a lower limit behind it. -/
theorem queue_upsert (h : l.Filed) (limit : Price) (total : Qty)
    (place : Option (List RestingBid) → List RestingBid) :
    ∃ above old below, l.queue = above ++ (old.getD [] ++ below) ∧
      (⟨l.levels.upsert limit place, total⟩ : PriceLadder).queue = above ++ (place old ++ below) ∧
      (∀ b ∈ above, limit < b.limit) ∧ (∀ b ∈ old.getD [], b.limit = limit) ∧
      ∀ b ∈ below, b.limit < limit := by
  obtain ⟨l₁, old, l₂, hentries, hkept, hlevel, hbefore⟩ : ∃ l₁ old l₂,
      (l.levels.upsert limit place).entries = l₁ ++ (limit, place old) :: l₂ ∧
      (∀ e ∈ l₁ ++ l₂, e ∈ l.levels.entries) ∧ (∀ b ∈ old.getD [], b.limit = limit) ∧
      l.queue = descending l₂ ++ (old.getD [] ++ descending l₁) := by
    rcases l.levels.upsert_entries limit place with ⟨l₁, l₂, hm, heq⟩ | ⟨l₁, v, l₂, hm, heq⟩
    · refine ⟨l₁, none, l₂, heq, fun e he ↦ hm ▸ he, fun b hb ↦ absurd hb List.not_mem_nil, ?_⟩
      rw [queue, hm, descending_append]
      rfl
    · refine ⟨l₁, some v, l₂, heq, fun e he ↦ ?_, ?_, ?_⟩
      · rw [hm]
        exact ((List.sublist_cons_self _ l₂).append_left l₁).subset he
      · exact (h (limit, v) (hm ▸ List.mem_append_right _ List.mem_cons_self)).2
      · rw [queue, hm, descending_append, descending_cons, List.append_assoc]
        rfl
  have hsorted := (l.levels.upsert limit place).sorted
  rw [hentries, List.pairwise_append, List.pairwise_cons] at hsorted
  refine ⟨descending l₂, old, descending l₁, hbefore, ?_, fun b hb ↦ ?_, hlevel, fun b hb ↦ ?_⟩
  · rw [queue, hentries, descending_append, descending_cons, List.append_assoc]
  · obtain ⟨e, he, hb⟩ := mem_descending.mp hb
    rw [(h e (hkept e (List.mem_append_right _ he))).2 b hb]
    exact hsorted.2.1.1 e he
  · obtain ⟨e, he, hb⟩ := mem_descending.mp hb
    rw [(h e (hkept e (List.mem_append_left _ he))).2 b hb]
    exact hsorted.2.2 e he _ List.mem_cons_self

/-- **An insertion** goes behind everything of its limit or above. -/
theorem queue_insert (h : l.Filed) (bid : RestingBid) :
    ∃ front back, l.queue = front ++ back ∧ (l.insert bid).queue = front ++ bid :: back ∧
      (∀ b ∈ front, bid.limit ≤ b.limit) ∧ ∀ b ∈ back, b.limit < bid.limit := by
  obtain ⟨above, old, below, hqueue, hqueue', habove, hlevel, hbelow⟩ := queue_upsert h bid.limit
    (l.totalQty.saturatingAdd bid.qty) fun level ↦ level.getD [] ++ [bid]
  refine ⟨above ++ old.getD [], below, ?_, ?_, fun b hb ↦ ?_, hbelow⟩
  · rw [hqueue, List.append_assoc]
  · rw [insert, hqueue', List.append_assoc, List.append_assoc]
    rfl
  · rcases List.mem_append.mp hb with hb | hb
    · exact (habove b hb).le
    · exact (hlevel b hb).ge

/-- **A requeued bid** goes before everything of its limit or below. -/
theorem queue_requeue (h : l.Filed) {bid : RestingBid} (hqty : bid.qty.isZero = false) :
    ∃ front back, l.queue = front ++ back ∧ (l.requeue bid).queue = front ++ bid :: back ∧
      (∀ b ∈ front, bid.limit < b.limit) ∧ ∀ b ∈ back, b.limit ≤ bid.limit := by
  obtain ⟨above, old, below, hqueue, hqueue', habove, hlevel, hbelow⟩ := queue_upsert h bid.limit
    (l.totalQty.saturatingAdd bid.qty) fun level ↦ bid :: level.getD []
  refine ⟨above, old.getD [] ++ below, hqueue, ?_, habove, fun b hb ↦ ?_⟩
  · rw [requeue, if_neg (by rw [hqty]; exact Bool.false_ne_true), hqueue']
    rfl
  · rcases List.mem_append.mp hb with hb | hb
    · exact (hlevel b hb).le
    · exact (hbelow b hb).le

/-! ## Withdrawal and draining -/

/-- **A withdrawal** takes its bid out of the middle. -/
theorem queue_remove {p : ParticipantId} {k : IdempotencyKey} {bid : RestingBid}
    (h : (l.remove p k).1 = some bid) :
    ∃ before behind, l.queue = before ++ bid :: behind ∧
      (l.remove p k).2.queue = before ++ behind := by
  obtain ⟨-, -, l₁, q, before, behind, l₂, h₁, h₂, -⟩ := remove_entries h
  refine ⟨descending l₂ ++ before, behind ++ descending l₁, ?_, ?_⟩
  · rw [queue, h₁, descending_append, descending_cons]
    simp only [List.append_assoc, List.cons_append]
  · rw [queue, h₂, descending_prune, descending_append, descending_cons]
    simp only [List.append_assoc]

/-- **A drain** cuts the queue at the price. -/
theorem queue_drainTriggered (h : l.Filed) (price : Price) :
    (l.drainTriggered price).1 = l.queue.filter (fun b ↦ price ≤ b.limit) ∧
      (l.drainTriggered price).2.queue = l.queue.filter fun b ↦ b.limit < price := by
  have hqueue : l.queue = (l.drainTriggered price).1 ++ (l.drainTriggered price).2.queue := by
    rw [queue, ← l.levels.splitOff_append price, descending_append]
    rfl
  have hhigh : ∀ b ∈ (l.drainTriggered price).1, price ≤ b.limit := fun b hb ↦
    (mem_drainTriggered h hb).2
  have hlow : ∀ b ∈ (l.drainTriggered price).2.queue, b.limit < price := fun b hb ↦
    limit_lt_of_mem_drained h (mem_queue.mp hb)
  obtain ⟨habove, hbelow⟩ := RankedQueue.filter_append_of_lt hhigh hlow
  rw [hqueue, habove, hbelow]
  exact ⟨rfl, rfl⟩

/-! ## One call

What a call should do to the queue is stated on lists alone, without levels. -/

/-- **Every call does to the queue what it should.** -/
theorem call_does (h : l.Filed) {call : LadderCall} (hcall : l.call call = some (l', out)) :
    call.Does l.queue out l'.queue := by
  cases call with
  | insert bid =>
    cases hcall
    obtain ⟨front, back, hqueue, hqueue', -, hback⟩ := queue_insert h bid
    rw [hqueue, hqueue']
    exact ⟨rfl, RankedQueue.level_behind hback, fun _ hne ↦ RankedQueue.level_insert_of_ne hne _ _⟩
  | requeue bid =>
    cases hcall
    refine ⟨rfl, ?_⟩
    cases hqty : bid.qty.isZero with
    | true => rw [if_pos rfl, requeue, if_pos hqty]
    | false =>
      obtain ⟨front, back, hqueue, hqueue', hfront, -⟩ := queue_requeue h hqty
      rw [if_neg Bool.false_ne_true, hqueue, hqueue']
      exact ⟨RankedQueue.level_before hfront, fun _ hne ↦ RankedQueue.level_insert_of_ne hne _ _⟩
  | remove participant key =>
    cases hcall
    cases hrem : (l.remove participant key).1 with
    | none =>
      obtain ⟨hsame, hnone⟩ := remove_eq_none hrem
      refine Or.inr ⟨fun b hb hmatch ↦ hnone b (mem_queue.mp hb) hmatch.symm, rfl, ?_⟩
      rw [hsame]
    | some bid =>
      obtain ⟨hkey, hparticipant, -⟩ := remove_entries hrem
      obtain ⟨before, behind, hqueue, hqueue'⟩ := queue_remove hrem
      exact Or.inl ⟨before, bid, behind, hqueue, hparticipant, hkey, rfl, hqueue'⟩
  | drainTriggered price =>
    cases hcall
    exact queue_drainTriggered h price
  | drainAll =>
    cases hcall
    exact ⟨rfl, rfl⟩

/-- **No call loses or duplicates a bid.** -/
theorem call_perm (h : l.Filed) {call : LadderCall} (hcall : l.call call = some (l', out)) :
    (out ++ l'.queue).Perm (call.brings ++ l.queue) := by
  cases call with
  | insert bid =>
    cases hcall
    obtain ⟨front, back, hqueue, hqueue', -⟩ := queue_insert h bid
    rw [hqueue, hqueue']
    exact List.perm_middle
  | requeue bid =>
    cases hcall
    rw [LadderCall.brings]
    cases hqty : bid.qty.isZero with
    | true =>
      rw [if_pos rfl, requeue, if_pos hqty]
    | false =>
      obtain ⟨front, back, hqueue, hqueue', -⟩ := queue_requeue h hqty
      rw [if_neg Bool.false_ne_true, hqueue, hqueue']
      exact List.perm_middle
  | remove participant key =>
    cases hcall
    cases hrem : (l.remove participant key).1 with
    | none =>
      rw [(remove_eq_none hrem).1]
      exact List.Perm.refl _
    | some bid =>
      obtain ⟨before, behind, hqueue, hqueue'⟩ := queue_remove hrem
      rw [hqueue, hqueue']
      exact List.Perm.symm (List.perm_middle : (before ++ bid :: behind).Perm _)
  | drainTriggered price =>
    cases hcall
    have hall : (l.drainTriggered price).1 ++ (l.drainTriggered price).2.queue = l.queue := by
      rw [queue, queue, ← l.levels.splitOff_append price, descending_append]
      rfl
    rw [hall]
    exact List.Perm.refl _
  | drainAll =>
    cases hcall
    exact List.perm_append_comm

theorem filed_call (h : l.Filed) {call : LadderCall} (hcall : l.call call = some (l', out)) :
    l'.Filed := by
  cases call with
  | insert bid =>
    cases hcall
    exact filed_insert h bid
  | requeue bid =>
    cases hcall
    exact filed_requeue h bid
  | remove participant key =>
    cases hcall
    exact filed_remove h participant key
  | drainTriggered price =>
    cases hcall
    exact filed_drainTriggered h price
  | drainAll =>
    cases hcall
    exact filed_drainAll

/-! ### The total

The ladder keeps the sum of the units that rest in a saturating word, which is exact as long as the
sum fits. -/

/-- The running total is the sum of what rests. -/
def Counted (l : PriceLadder) : Prop := l.totalQty.val = l.units

theorem val_foldl_saturatingSub (out : List RestingBid) (total : Qty) :
    (out.foldl (fun q b ↦ q.saturatingSub b.qty) total).val =
      total.val - (out.map fun b ↦ b.qty.val).sum := by
  induction out generalizing total with
  | nil => rfl
  | cons b out ih =>
    rw [List.foldl_cons, ih, List.map_cons, List.sum_cons, U64.val_saturatingSub, Nat.sub_sub]

theorem units_call (h : l.Filed) {call : LadderCall} (hcall : l.call call = some (l', out)) :
    (out.map fun b ↦ b.qty.val).sum + l'.units =
      (call.brings.map fun b ↦ b.qty.val).sum + l.units := by
  have hperm := ((call_perm h hcall).map fun b ↦ b.qty.val).sum_nat
  rw [List.map_append, List.sum_append, List.map_append, List.sum_append] at hperm
  exact hperm

theorem val_saturatingAdd_of_counted {total qty : Qty} {before after : ℕ} (h : total.val = before)
    (hafter : after = before + qty.val) (hfits : after < 2 ^ 64) :
    (total.saturatingAdd qty).val = after := by
  rw [U64.saturatingAdd, U64.val_saturate]
  omega

/-- **The total stays exact** as long as what rests is a word. -/
theorem Counted.call (h : l.Counted) (hfiled : l.Filed) {call : LadderCall}
    (hcall : l.call call = some (l', out)) (hfits : l'.units < 2 ^ 64) : l'.Counted := by
  have hunits := units_call hfiled hcall
  unfold Counted at h ⊢
  cases call with
  | insert bid =>
    cases hcall
    simp only [LadderCall.brings, List.map_nil, List.map_cons, List.sum_nil,
      List.sum_cons] at hunits
    exact val_saturatingAdd_of_counted h (by omega) hfits
  | requeue bid =>
    cases hcall
    rw [LadderCall.brings] at hunits
    cases hqty : bid.qty.isZero with
    | true =>
      rw [requeue, if_pos hqty]
      exact h
    | false =>
      rw [if_neg (by rw [hqty]; exact Bool.false_ne_true)] at hunits
      simp only [List.map_nil, List.map_cons, List.sum_nil, List.sum_cons] at hunits
      have htotal : (l.requeue bid).totalQty = l.totalQty.saturatingAdd bid.qty := by
        rw [requeue, if_neg (by rw [hqty]; exact Bool.false_ne_true)]
      rw [htotal]
      exact val_saturatingAdd_of_counted h (by omega) hfits
  | remove participant key =>
    cases hcall
    cases hrem : (l.remove participant key).1 with
    | none =>
      rw [(remove_eq_none hrem).1]
      exact h
    | some bid =>
      obtain ⟨-, -, l₁, q, before, behind, l₂, -, -, htotal⟩ := remove_entries hrem
      rw [hrem] at hunits
      simp only [LadderCall.brings, Option.toList_some, List.map_nil, List.map_cons, List.sum_nil,
        List.sum_cons] at hunits
      rw [htotal, U64.val_saturatingSub]
      omega
  | drainTriggered price =>
    cases hcall
    simp only [LadderCall.brings, List.map_nil, List.sum_nil] at hunits
    have htotal : (l.drainTriggered price).2.totalQty =
        (l.drainTriggered price).1.foldl (fun q b ↦ q.saturatingSub b.qty) l.totalQty := rfl
    rw [htotal, val_foldl_saturatingSub]
    omega
  | drainAll =>
    cases hcall
    rfl

/-! ## Every sequence of calls -/

/-- The map and the total are what they are kept for. -/
structure Faithful (l : PriceLadder) : Prop where
  /-- No level is empty, and every bid is filed under its own limit. -/
  filed : l.Filed
  /-- The highest limit comes first. -/
  ranked : RankedQueue.Ranked RestingBid.limit l.queue
  /-- The total is the sum of what rests. -/
  counted : l.Counted
  /-- The levels hold as many bids as the queue. -/
  len_eq : l.len = l.queue.length
  isEmpty_iff : l.isEmpty = true ↔ l.len = 0
  /-- The next trigger is the highest limit that rests. -/
  nextTrigger_eq : l.nextTrigger = (l.queue.map RestingBid.limit).max?

theorem len_eq_length_queue (l : PriceLadder) : l.len = l.queue.length := by
  rw [l.queue_perm.length_eq, bids, List.length_flatten]
  rfl

theorem Filed.isEmpty_iff (h : l.Filed) : l.isEmpty = true ↔ l.len = 0 := by
  rw [len_eq_length_queue, List.length_eq_zero_iff, isEmpty, List.isEmpty_iff]
  constructor
  · intro hnil
    rw [queue, hnil]
    rfl
  · intro hnil
    refine List.eq_nil_iff_forall_not_mem.mpr fun e he ↦ ?_
    obtain ⟨b, hb⟩ := List.exists_mem_of_ne_nil _ (h e he).1
    have hmem : b ∈ l.queue := mem_descending.mpr ⟨e, he, hb⟩
    rw [hnil] at hmem
    exact absurd hmem List.not_mem_nil

theorem Filed.nextTrigger_eq (h : l.Filed) :
    l.nextTrigger = (l.queue.map RestingBid.limit).max? := by
  cases htrigger : l.nextTrigger with
  | none =>
    have hnone : l.queue = [] := List.eq_nil_iff_forall_not_mem.mpr fun b hb ↦ by
      obtain ⟨m, hm, -⟩ := limit_le_nextTrigger h (mem_queue.mp hb)
      exact Option.some_ne_none m (hm.symm.trans htrigger)
    rw [hnone]
    rfl
  | some m =>
    obtain ⟨b, hb, hlimit⟩ := mem_of_nextTrigger h htrigger
    refine (List.max?_eq_some_iff.mpr ⟨List.mem_map.mpr ⟨b, mem_queue.mpr hb, hlimit⟩, ?_⟩).symm
    rintro x hx
    obtain ⟨c, hc, rfl⟩ := List.mem_map.mp hx
    obtain ⟨m', hm', hle⟩ := limit_le_nextTrigger h (mem_queue.mp hc)
    cases hm'.symm.trans htrigger
    exact hle

theorem Filed.faithful (h : l.Filed) (hcounted : l.Counted) : l.Faithful :=
  ⟨h, h.ranked, hcounted, l.len_eq_length_queue, h.isEmpty_iff, h.nextTrigger_eq⟩

/-- The calls made on a new ladder, and the ladder they lead to. -/
abbrev Calls :
    List (Runs.Transition PriceLadder LadderCall (List RestingBid)) → PriceLadder → Prop :=
  Runs.Run call new

theorem Calls.sound {tr : List (Runs.Transition PriceLadder LadderCall (List RestingBid))}
    (hcalls : Calls tr l) (hfits : ∀ t ∈ tr, t.post.units < 2 ^ 64) : l.Filed ∧ l.Counted := by
  refine Runs.Run.invariant_of (P := fun l ↦ l.Filed ∧ l.Counted)
    (C := fun t ↦ t.post.units < 2 ^ 64) ⟨filed_new, rfl⟩ ?_ hcalls hfits
  rintro l call l' out ⟨hfiled, hcounted⟩ hcall hfits
  exact ⟨filed_call hfiled hcall, hcounted.call hfiled hcall hfits⟩

/-- **The ladder is a queue by price and time.** Whatever is called on a new ladder, as long as the
units that rest are never more than a word holds: the ladder it leads to is faithful, every call on
the way did to the queue what it should, and no bid was lost or duplicated. -/
theorem price_time_queue {tr : List (Runs.Transition PriceLadder LadderCall (List RestingBid))}
    (hcalls : Calls tr l) (hfits : ∀ t ∈ tr, t.post.units < 2 ^ 64) :
    l.Faithful ∧ ∀ t ∈ tr, t.pre.Faithful ∧ t.input.Does t.pre.queue t.out t.post.queue ∧
      (t.out ++ t.post.queue).Perm (t.input.brings ++ t.pre.queue) := by
  obtain ⟨hfiled, hcounted⟩ := hcalls.sound hfits
  refine ⟨hfiled.faithful hcounted, fun t ht ↦ ?_⟩
  obtain ⟨⟨tr', hpre, hbefore⟩, hcall⟩ := hcalls.split ht
  obtain ⟨hfiled, hcounted⟩ := Calls.sound hbefore fun u hu ↦ hfits u (hpre.subset hu)
  exact ⟨hfiled.faithful hcounted, call_does hfiled hcall, call_perm hfiled hcall⟩

/-- Two bids at 900 and one at 950; the clock reaches 950, part of that bid goes back, and the first
at 900 is withdrawn. -/
theorem price_time_queue_sample :
    ∃ tr l, Calls tr l ∧ tr.map Runs.Transition.input =
        [.insert ⟨1, 1, 11, U64.lit 5, I64.lit 900⟩, .insert ⟨U64.lit 2, 2, 12, 1, I64.lit 900⟩,
          .insert ⟨U64.lit 3, 1, 13, U64.lit 4, I64.lit 950⟩, .drainTriggered (I64.lit 950),
          .requeue ⟨U64.lit 3, 1, 13, 1, I64.lit 950⟩, .remove 1 11] ∧
      l.queue.map RestingBid.key = [13, 12] ∧ l.Faithful ∧ ∀ t ∈ tr, t.pre.Faithful ∧
        t.input.Does t.pre.queue t.out t.post.queue ∧
        (t.out ++ t.post.queue).Perm (t.input.brings ++ t.pre.queue) := by
  have hcalls : Calls _ _ := Runs.run_play call new
    [.insert ⟨1, 1, 11, U64.lit 5, I64.lit 900⟩, .insert ⟨U64.lit 2, 2, 12, 1, I64.lit 900⟩,
      .insert ⟨U64.lit 3, 1, 13, U64.lit 4, I64.lit 950⟩, .drainTriggered (I64.lit 950),
      .requeue ⟨U64.lit 3, 1, 13, 1, I64.lit 950⟩, .remove 1 11]
  refine ⟨_, _, hcalls, ?_, ?_, price_time_queue hcalls ?_⟩
  · decide +kernel
  · decide +kernel
  · decide +kernel

end PriceLadder

end DutchAuction
