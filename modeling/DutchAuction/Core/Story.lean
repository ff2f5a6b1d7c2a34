import DutchAuction.Core.Stream

/-!
# What becomes of one key

The rules of the stream (`Account.Permits`) leave few things that can be said of one key: nothing,
one refusal, or that its bid is held and then one answer. `Story` lists them, each with what is on
record for the key at the end of it.

That every stream which keeps the rules tells such a story of every key is a fact about readers,
with no auction in it: it follows from what one event does to an account (`Coherent.record`,
`Story.record`) by the rule for permitted streams.
-/

namespace DutchAuction

/-- Whether an event changes what is on record for a key. A retry that is answered again does not,
nor does a withdrawal of something that was never submitted, nor a fill that is moved. -/
def Event.tells (key : IdempotencyKey) : Event → Bool
  | .queued k _ _ _ | .rested k _ _ _ | .restingCancelled k _ _ => k = key
  | .filled f => f.key = key
  | .rejected k reason => k = key && reason ≠ .unknownBid
  | _ => false

/-- The event that takes a bid under the key into the book. -/
inductive Taken (key : IdempotencyKey) (qty : Qty) : Event → Prop
  | queued (participant : ParticipantId) (price : Price) :
      Taken key qty (.queued key participant qty price)
  | rested (participant : ParticipantId) (limit : Price) :
      Taken key qty (.rested key participant qty limit)

/-- What may be said of a key, and what is then on record for it. -/
inductive Story (key : IdempotencyKey) : List Event → Option Outcome → Prop
  | unheard : Story key [] none
  | refused (reason : RejectReason) :
      Story key [.rejected key reason] (some (.rejected reason))
  | queued (participant : ParticipantId) (qty : Qty) (price : Price) :
      Story key [.queued key participant qty price] (some (.queued qty))
  | rested (participant : ParticipantId) (qty : Qty) (limit : Price) :
      Story key [.rested key participant qty limit] (some (.resting qty))
  /-- Filled, once and for no more than was asked, and moved down from there. -/
  | filled {first : Event} {qty : Qty} {f : Fill} {price : Price} (hfirst : Taken key qty first)
      (hkey : f.key = key) (hpos : 0 < f.qty.val) (hle : f.qty ≤ qty) (hprice : price ≤ f.price) :
      Story key [first, .filled f] (some (.filled f.qty price))
  | turnedAway {first : Event} {qty : Qty} (hfirst : Taken key qty first) (reason : RejectReason) :
      Story key [first, .rejected key reason] (some (.rejected reason))
  | withdrawn (participant participant' : ParticipantId) (qty : Qty) (limit : Price) :
      Story key [.rested key participant qty limit, .restingCancelled key participant' qty]
        (some .cancelled)

namespace Story

variable {key : IdempotencyKey} {told : List Event}

theorem of_none (h : Story key told none) : told = [] := by
  cases h
  rfl

theorem of_queued {qty : Qty} (h : Story key told (some (.queued qty))) :
    ∃ participant price, told = [.queued key participant qty price] := by
  cases h with
  | queued participant _ price => exact ⟨participant, price, rfl⟩

theorem of_resting {qty : Qty} (h : Story key told (some (.resting qty))) :
    ∃ participant limit, told = [.rested key participant qty limit] := by
  cases h with
  | rested participant _ limit => exact ⟨participant, limit, rfl⟩

theorem of_held {a : Account} {qty : Qty} (h : Story key told (a.outcomes key))
    (hholds : a.Holds key qty) : ∃ first, told = [first] ∧ Taken key qty first := by
  rcases hholds with ho | ho
  · rw [ho] at h
    obtain ⟨participant, price, rfl⟩ := h.of_queued
    exact ⟨_, rfl, .queued participant price⟩
  · rw [ho] at h
    obtain ⟨participant, limit, rfl⟩ := h.of_resting
    exact ⟨_, rfl, .rested participant limit⟩

theorem lower {qty : Qty} {price price' : Price} (h : Story key told (some (.filled qty price)))
    (hle : price' ≤ price) : Story key told (some (.filled qty price')) := by
  cases h with
  | filled hfirst hkey hpos hqty hprice => exact .filled hfirst hkey hpos hqty (hle.trans hprice)

end Story

namespace Account

variable {config : AuctionConfig} {a : Account} {e : Event} {key : IdempotencyKey}

/-! ## Accounts that were read off a stream that keeps the rules

The account that is read off such a stream is coherent: its fills are numbered in order, under keys
of their own, and on record. A fill that is moved down is found by its number. -/

/-- The fills of the account are numbered in order, under keys of their own, and on record. -/
structure Coherent (a : Account) : Prop where
  numbered : a.fills.map Fill.id = List.range a.fills.length
  apart : (a.fills.map Fill.key).Nodup
  recorded : ∀ f ∈ a.fills, a.outcomes f.key = some (.filled f.qty f.price)

theorem coherent_start (config : AuctionConfig) : (start config).Coherent :=
  ⟨rfl, List.nodup_nil, fun _ hf ↦ absurd hf List.not_mem_nil⟩

theorem Coherent.note (h : a.Coherent) (outcome : Outcome)
    (hkey : ∀ qty price, a.outcomes key ≠ some (.filled qty price)) :
    (a.note key outcome).Coherent := by
  refine ⟨h.numbered, h.apart, fun f hf ↦ ?_⟩
  have hrecorded := h.recorded f hf
  refine (Function.update_of_ne (fun heq ↦ ?_) _ _).trans hrecorded
  rw [heq] at hrecorded
  exact hkey _ _ hrecorded

theorem Coherent.filled (h : a.Coherent) {f : Fill} (hid : f.id = a.fills.length)
    (hkey : ∀ qty price, a.outcomes f.key ≠ some (.filled qty price)) :
    (a.record (.filled f)).Coherent := by
  have hnew : ∀ g ∈ a.fills, g.key ≠ f.key := fun g hg heq ↦
    hkey _ _ (heq ▸ h.recorded g hg)
  refine ⟨?_, ?_, fun g hg ↦ ?_⟩
  · show (a.fills ++ [f]).map Fill.id = List.range (a.fills ++ [f]).length
    rw [List.map_append, h.numbered, List.length_append, List.length_singleton, List.range_succ,
      List.map_singleton, hid]
  · show ((a.fills ++ [f]).map Fill.key).Nodup
    rw [List.map_append, List.map_singleton, ← List.concat_eq_append]
    refine h.apart.concat fun hmem ↦ ?_
    obtain ⟨g, hg, heq⟩ := List.mem_map.mp hmem
    exact hnew g hg heq
  · rcases List.mem_append.mp hg with hg | hg
    · exact (Function.update_of_ne (hnew g hg) _ _).trans (h.recorded g hg)
    · obtain rfl := List.mem_singleton.mp hg
      exact Function.update_self _ _ _

theorem Coherent.find? (h : a.Coherent) {f : Fill} (hf : f ∈ a.fills) :
    a.fills.find? (fun g ↦ g.id = f.id) = some f := by
  cases hfind : a.fills.find? fun g ↦ g.id = f.id with
  | none => exact absurd rfl (of_decide_eq_false (Bool.eq_false_iff.mpr
      (List.find?_eq_none.mp hfind f hf)))
  | some g =>
    have hnodup : (a.fills.map Fill.id).Nodup := h.numbered ▸ List.nodup_range
    have hid : g.id = f.id := by simpa using List.find?_some hfind
    rw [List.inj_on_of_nodup_map hnodup (List.mem_of_find?_eq_some hfind) hf hid]

theorem Coherent.outcomes_reprice (h : a.Coherent) {f : Fill} (hf : f ∈ a.fills) (price : Price) :
    (a.reprice f.id price).outcomes =
      Function.update a.outcomes f.key (some (.filled f.qty price)) := by
  have hrecorded := h.recorded f hf
  unfold reprice
  rw [h.find? hf]
  dsimp only
  rw [hrecorded]
  rfl

theorem Coherent.reprice (h : a.Coherent) {f : Fill} (hf : f ∈ a.fills) (price : Price) :
    (a.reprice f.id price).Coherent := by
  have hfills : (a.reprice f.id price).fills =
      a.fills.map fun g ↦ if g.id = f.id then g.at price else g := rfl
  refine ⟨?_, ?_, fun g hg ↦ ?_⟩
  · rw [hfills, List.map_map, List.length_map, ← h.numbered]
    refine List.map_congr_left fun g _ ↦ ?_
    rw [Function.comp_apply]
    split_ifs
    · rfl
    · rfl
  · have hkeys : (a.reprice f.id price).fills.map Fill.key = a.fills.map Fill.key := by
      rw [hfills, List.map_map]
      refine List.map_congr_left fun g _ ↦ ?_
      rw [Function.comp_apply]
      split_ifs
      · rfl
      · rfl
    rw [hkeys]
    exact h.apart
  · rw [h.outcomes_reprice hf]
    rw [hfills] at hg
    obtain ⟨k, hk, rfl⟩ := List.mem_map.mp hg
    have hnodup : (a.fills.map Fill.id).Nodup := h.numbered ▸ List.nodup_range
    split_ifs with hid
    · rw [List.inj_on_of_nodup_map hnodup hk hf hid]
      exact Function.update_self _ _ _
    · have hne : k.key ≠ f.key := fun heq ↦
        hid (congrArg Fill.id (List.inj_on_of_nodup_map h.apart hk hf heq))
      exact (Function.update_of_ne hne _ _).trans (h.recorded k hk)

theorem Holds.not_filled {qty : Qty} (h : a.Holds key qty) (qty' : Qty) (price : Price) :
    a.outcomes key ≠ some (.filled qty' price) := by
  rcases h with h | h <;> rw [h] <;> exact fun h ↦ nomatch h

/-- **What the rules permit keeps an account coherent.** -/
theorem Coherent.record (h : a.Coherent) (he : a.Permits config e) : (a.record e).Coherent := by
  have hfresh : ∀ {key}, a.outcomes key = none → ∀ qty price,
      a.outcomes key ≠ some (.filled qty price) := fun hnone qty price ↦ by
    rw [hnone]
    exact fun h ↦ nomatch h
  cases e with
  | opened => exact ⟨h.numbered, h.apart, h.recorded⟩
  | collateralSet => exact ⟨h.numbered, h.apart, h.recorded⟩
  | queued key participant qty price => exact h.note _ (hfresh he.2.1)
  | rested key participant qty limit => exact h.note _ (hfresh he.2.1)
  | restingCancelled key participant qty => exact h.note _ (Holds.not_filled (Or.inr he.2))
  | filled f =>
    obtain ⟨-, ⟨qty, hholds, -⟩, -, -, hid, -⟩ := he
    exact h.filled hid hholds.not_filled
  | rejected key reason =>
    by_cases hreason : reason = .unknownBid
    · rw [hreason]
      exact h
    · rw [record_rejected hreason]
      rcases he with ⟨hnone, -⟩ | ⟨-, ⟨qty, hholds⟩, -⟩
      · exact h.note _ (hfresh hnone)
      · exact h.note _ hholds.not_filled
  | duplicate => exact h
  | repriced id fromPrice toPrice =>
    obtain ⟨-, -, -, f, hf, rfl, -⟩ := he
    exact h.reprice hf toPrice
  | cleared => exact ⟨h.numbered, h.apart, h.recorded⟩
  | cancelled => exact ⟨h.numbered, h.apart, h.recorded⟩

/-! ## One event more -/

theorem Coherent.outcomes_of_not_tells (h : a.Coherent) (he : a.Permits config e)
    (htells : e.tells key = false) :
    (a.record e).outcomes key = a.outcomes key ∨
      ∃ qty price price', a.outcomes key = some (.filled qty price) ∧ price' ≤ price ∧
        (a.record e).outcomes key = some (.filled qty price') := by
  have hnote : ∀ {k} outcome, decide (k = key) = false →
      (a.note k outcome).outcomes key = a.outcomes key := fun outcome hk ↦
    Function.update_of_ne (fun heq ↦ of_decide_eq_false hk heq.symm) _ _
  cases e with
  | opened => exact Or.inl rfl
  | collateralSet => exact Or.inl rfl
  | queued k participant qty price => exact Or.inl (hnote _ htells)
  | rested k participant qty limit => exact Or.inl (hnote _ htells)
  | restingCancelled k participant qty => exact Or.inl (hnote _ htells)
  | filled f => exact Or.inl (hnote _ htells)
  | rejected k reason =>
    by_cases hreason : reason = .unknownBid
    · rw [hreason]
      exact Or.inl rfl
    · rw [record_rejected hreason]
      refine Or.inl (hnote _ ?_)
      rw [Event.tells, Bool.and_eq_false_iff] at htells
      exact htells.resolve_right fun h ↦ of_decide_eq_false h hreason
  | duplicate => exact Or.inl rfl
  | repriced id fromPrice toPrice =>
    obtain ⟨-, -, hlt, f, hf, rfl, rfl⟩ := he
    have houtcomes := congrFun (h.outcomes_reprice hf toPrice) key
    by_cases heq : key = f.key
    · subst heq
      rw [Function.update_self] at houtcomes
      exact Or.inr ⟨f.qty, f.price, toPrice, h.recorded f hf, hlt.le, houtcomes⟩
    · rw [Function.update_of_ne heq] at houtcomes
      exact Or.inl houtcomes
  | cleared => exact Or.inl rfl
  | cancelled => exact Or.inl rfl

end Account

/-- **One event more of a story.** -/
theorem Story.record {config : AuctionConfig} {a : Account} {e : Event} {key : IdempotencyKey}
    {told : List Event} (h : Story key told (a.outcomes key)) (hcoherent : a.Coherent)
    (he : a.Permits config e) :
    Story key (told ++ [e].filter (Event.tells key)) ((a.record e).outcomes key) := by
  cases htells : e.tells key with
  | false =>
    rw [List.filter_cons_of_neg (by rw [htells]; exact Bool.false_ne_true), List.filter_nil,
      List.append_nil]
    rcases hcoherent.outcomes_of_not_tells he htells with hsame | ⟨q, p, p', hfilled, hle, hnew⟩
    · rwa [hsame]
    · rw [hfilled] at h
      rw [hnew]
      exact h.lower hle
  | true =>
    rw [List.filter_cons_of_pos htells, List.filter_nil]
    have hnote : ∀ outcome, (a.note key outcome).outcomes key = some outcome := fun _ ↦
      Function.update_self _ _ _
    cases e with
    | opened => cases htells
    | collateralSet => cases htells
    | queued k participant qty price =>
      obtain rfl : k = key := of_decide_eq_true htells
      rw [he.2.1] at h
      rw [h.of_none, Account.record, hnote]
      exact .queued participant qty price
    | rested k participant qty limit =>
      obtain rfl : k = key := of_decide_eq_true htells
      rw [he.2.1] at h
      rw [h.of_none, Account.record, hnote]
      exact .rested participant qty limit
    | restingCancelled k participant qty =>
      obtain rfl : k = key := of_decide_eq_true htells
      rw [he.2] at h
      obtain ⟨first, limit, rfl⟩ := h.of_resting
      rw [Account.record, hnote]
      exact .withdrawn first participant qty limit
    | filled f =>
      obtain rfl : f.key = key := of_decide_eq_true htells
      obtain ⟨-, ⟨qty, hholds, hle⟩, hpos, -⟩ := he
      obtain ⟨first, rfl, hfirst⟩ := h.of_held hholds
      have hrecord : (a.record (.filled f)).outcomes f.key = some (.filled f.qty f.price) :=
        Function.update_self _ _ _
      rw [hrecord]
      exact .filled hfirst rfl hpos hle le_rfl
    | rejected k reason =>
      rw [Event.tells, Bool.and_eq_true] at htells
      obtain rfl : k = key := of_decide_eq_true htells.1
      rw [Account.record_rejected (of_decide_eq_true htells.2), hnote]
      rcases he with ⟨hnone, -⟩ | ⟨-, ⟨qty, hholds⟩, -⟩
      · rw [hnone] at h
        rw [h.of_none]
        exact .refused reason
      · obtain ⟨first, rfl, hfirst⟩ := h.of_held hholds
        exact .turnedAway hfirst reason
    | duplicate => cases htells
    | repriced => cases htells
    | cleared => cases htells
    | cancelled => cases htells

theorem Account.Permitted.story {config : AuctionConfig} {events : List Event}
    (h : Account.Permitted config (Account.start config) events) (key : IdempotencyKey) :
    Story key (events.filter (Event.tells key))
      ((events.foldl Account.record (Account.start config)).outcomes key) := by
  have hall := Audit.Permitted.invariant
    (I := fun read a ↦ a.Coherent ∧ Story key (read.filter (Event.tells key)) (a.outcomes key)) h
    ⟨Account.coherent_start config, .unheard⟩ fun read a e hI he ↦ by
      rw [List.filter_append]
      exact ⟨hI.1.record he, hI.2.record hI.1 he⟩
  exact hall.2

/-- **One story for every key**: in every run the stream says of a key nothing, one refusal, or that
its bid is held and then at most one answer; the state has on record what the story ends with; and
once the auction is over no story is left without its answer. -/
theorem key_story {config : AuctionConfig} {tr : List Transition} {s : AuctionState}
    (hrun : Run config tr s) (key : IdempotencyKey) :
    Story key ((tr.flatMap fun t ↦ t.out).filter (Event.tells key)) (s.outcome key) ∧
      (s.status.isTerminal = true → ∀ qty,
        s.outcome key ≠ some (.queued qty) ∧ s.outcome key ≠ some (.resting qty)) := by
  obtain ⟨hspoken, htold, hpermitted⟩ := run_spoken hrun
  have hstory := hpermitted.story key
  rw [htold] at hstory
  refine ⟨hstory, fun hterminal qty ↦ ?_⟩
  have hidle := hspoken.sound.priced.idle fun hlive ↦ by
    rw [hlive] at hterminal
    cases hterminal
  have hsettled : s.account.Settled :=
    AuctionState.settled_of_idle hspoken.sound.keyed hidle.1 hidle.2 rfl
  exact ⟨fun h ↦ hsettled key qty (Or.inl h), fun h ↦ hsettled key qty (Or.inr h)⟩

/-- Five units that rested at 950, were filled at 940 and moved down to 900. -/
theorem key_story_sample :
    Story 101
      [.rested 101 1 (U64.lit 5) (I64.lit 950),
        .filled ⟨0, U64.lit 3, 1, 101, U64.lit 5, I64.lit 940⟩]
      (some (.filled (U64.lit 5) (I64.lit 900))) := by
  have htold : ((play (.sample 0) sampleRecords).1.flatMap fun t ↦ t.out).filter
      (Event.tells 101) =
        [.rested 101 1 (U64.lit 5) (I64.lit 950),
          .filled ⟨0, U64.lit 3, 1, 101, U64.lit 5, I64.lit 940⟩] := by decide
  have hrecord : (play (.sample 0) sampleRecords).2.outcome 101 =
      some (.filled (U64.lit 5) (I64.lit 900)) := by decide
  have hstory := (key_story (run_play (.sample 0) sampleRecords) 101).1
  rwa [htold, hrecord] at hstory

end DutchAuction
