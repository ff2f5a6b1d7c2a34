import DutchAuction.Wal.Bincode
import DutchAuction.Wal.Replay

/-!
# What recovery rebuilds

The state an auction should be in is the one a full replay of its log gives (`fullReplay`). Records
that are numbered one after another can always be applied (`applyAll_numbered`), and the loop of
recovery applies exactly those it has not been given by the snapshot (`replay_eq`, `replay_skip`).

So recovery either starts from a fresh auction and applies every record it has read
(`recoverFrom_fresh`), or from a snapshot and applies the records behind it
(`recoverFrom_snapshot`).
-/

namespace DutchAuction

/-! ## Replaying a log in full -/

/-- Apply records one after another. -/
def applyAll : AuctionState → List LogRecord → Option AuctionState
  | state, [] => some state
  | state, record :: records => (follow state record).bind fun state ↦ applyAll state records

/-- The state after the whole log. -/
def fullReplay (config : AuctionConfig) (records : List LogRecord) : Option AuctionState :=
  applyAll (AuctionState.new config) records

theorem applyAll_append (state : AuctionState) (l l' : List LogRecord) :
    applyAll state (l ++ l') = (applyAll state l).bind fun state ↦ applyAll state l' := by
  induction l generalizing state with
  | nil => rfl
  | cons r l ih =>
    rw [List.cons_append, applyAll, applyAll, Option.bind_assoc]
    exact congrArg _ (funext ih)

theorem fullReplay_append (config : AuctionConfig) (l l' : List LogRecord) :
    fullReplay config (l ++ l') = (fullReplay config l).bind fun state ↦ applyAll state l' :=
  applyAll_append _ l l'

theorem applyAll_run {state state' : AuctionState} {records : List LogRecord}
    (h : applyAll state records = some state') :
    ∃ tr : List Transition, Runs.Run AuctionState.step state tr state' ∧
      tr.map Runs.Transition.input = records := by
  induction records generalizing state with
  | nil =>
    cases h
    exact ⟨[], Runs.Run.nil, rfl⟩
  | cons r records ih =>
    obtain ⟨t, hfollow, hall⟩ := Option.bind_eq_some_iff.mp h
    obtain ⟨u, hstep, rfl⟩ := Option.map_eq_some_iff.mp hfollow
    obtain ⟨tr, hrun, hinputs⟩ := ih hall
    exact ⟨_, (Runs.Run.nil.snoc (o := u.2) hstep).append hrun, congrArg (r :: ·) hinputs⟩

theorem run_applyAll {state state' : AuctionState} {tr : List Transition}
    (h : Runs.Run AuctionState.step state tr state') :
    applyAll state (tr.map Runs.Transition.input) = some state' := by
  induction h with
  | nil => rfl
  | snoc _ hstep ih =>
    rw [List.map_append, applyAll_append, ih, Option.bind_some]
    show (follow _ _).bind _ = _
    rw [follow, hstep]
    rfl

/-! ## Numbered records

Records numbered one after another from some position are found by their number, and split at any
position they reach. They can be applied to the state whose position is right before them. -/

/-- The sequence numbers are `n`, `n + 1`, and so on. -/
def NumberedFrom : ℕ → List LogRecord → Prop
  | _, [] => True
  | n, r :: records => r.seq.val = n ∧ NumberedFrom (n + 1) records

instance decidableNumberedFrom : ∀ n records, Decidable (NumberedFrom n records)
  | _, [] => .isTrue trivial
  | n, r :: records =>
    have := decidableNumberedFrom (n + 1) records
    inferInstanceAs (Decidable (r.seq.val = n ∧ NumberedFrom (n + 1) records))

namespace NumberedFrom

variable {n : ℕ} {r : LogRecord} {records l l' history : List LogRecord}

theorem append : NumberedFrom n (l ++ l') ↔ NumberedFrom n l ∧ NumberedFrom (n + l.length) l' := by
  induction l generalizing n with
  | nil => exact ⟨fun h ↦ ⟨trivial, h⟩, And.right⟩
  | cons r l ih =>
    rw [List.cons_append, NumberedFrom, NumberedFrom, ih, List.length_cons, and_assoc,
      Nat.add_assoc, Nat.add_comm 1]

theorem drop (h : NumberedFrom n l) (k : ℕ) (hk : k ≤ l.length) :
    NumberedFrom (n + k) (l.drop k) := by
  rw [← List.take_append_drop k l, append, List.length_take_of_le hk] at h
  exact h.2

theorem le_of_mem (h : NumberedFrom n records) (hr : r ∈ records) :
    n ≤ r.seq.val ∧ r.seq.val < n + records.length := by
  induction records generalizing n with
  | nil => exact absurd hr List.not_mem_nil
  | cons r' records ih =>
    rw [List.length_cons]
    rcases List.mem_cons.mp hr with rfl | hr
    · have := h.1
      omega
    · have := ih h.2 hr
      omega

theorem getLast? (h : NumberedFrom n records) (hr : r ∈ records.getLast?) :
    r.seq.val + 1 = n + records.length := by
  obtain ⟨l, rfl⟩ := List.getLast?_eq_some_iff.mp hr
  rw [append] at h
  rw [List.length_append, List.length_singleton, h.2.1]
  omega

theorem filter_after (h : NumberedFrom n records) (k : Seq) :
    records.filter (fun r ↦ k < r.seq) = records.drop (k.val + 1 - n) := by
  induction records generalizing n with
  | nil => rw [List.filter_nil, List.drop_nil]
  | cons r records ih =>
    rw [List.filter_cons, ih h.2]
    have hseq := h.1
    by_cases hlt : k < r.seq
    · have : k.val < r.seq.val := hlt
      rw [if_pos (decide_eq_true hlt), show k.val + 1 - n = 0 by omega,
        show k.val + 1 - (n + 1) = 0 by omega]
      rfl
    · have : ¬k.val < r.seq.val := hlt
      rw [if_neg fun h ↦ hlt (of_decide_eq_true h),
        show k.val + 1 - n = k.val + 1 - (n + 1) + 1 by omega, List.drop_succ_cons]

theorem drop_eq_cons (h : NumberedFrom n history) (hr : r ∈ history) {k : ℕ}
    (hk : r.seq.val = n + k) : history.drop k = r :: history.drop (k + 1) := by
  induction history generalizing n k with
  | nil => exact absurd hr List.not_mem_nil
  | cons r' history ih =>
    rcases List.mem_cons.mp hr with rfl | hr
    · have := h.1
      obtain rfl : k = 0 := by omega
      rfl
    · have := (h.2.le_of_mem hr).1
      obtain ⟨k, rfl⟩ : ∃ j, k = j + 1 := ⟨k - 1, by omega⟩
      exact ih h.2 hr (by omega)

theorem eq_take (h : NumberedFrom 0 history) (hrecords : NumberedFrom n records)
    (hmem : ∀ r ∈ records, r ∈ history) : records = (history.drop n).take records.length := by
  induction records generalizing n with
  | nil => rw [List.length_nil, List.take_zero]
  | cons r records ih =>
    rw [h.drop_eq_cons (hmem r List.mem_cons_self) (by rw [hrecords.1, Nat.zero_add]),
      List.length_cons, List.take_succ_cons,
      ← ih hrecords.2 fun r hr ↦ hmem r (List.mem_cons_of_mem _ hr)]

theorem of_gapless (h : Gapless (r :: records)) : NumberedFrom r.seq.val (r :: records) := by
  induction records generalizing r with
  | nil => exact ⟨rfl, trivial⟩
  | cons r' records ih =>
    rw [Gapless, List.isChain_cons_cons] at h
    have hnext := Seq.next_eq_some.mp h.1
    exact ⟨rfl, hnext ▸ ih h.2⟩

theorem gapless (h : NumberedFrom n records) : Gapless records := by
  induction records generalizing n with
  | nil => exact List.IsChain.nil
  | cons r records ih =>
    cases records with
    | nil => exact List.isChain_singleton _
    | cons r' records =>
      refine List.isChain_cons_cons.mpr ⟨Seq.next_eq_some.mpr ?_, ih h.2⟩
      rw [h.1, h.2.1]

/-- **Numbered records split at any position** that they reach from no later than right behind
it. -/
theorem split (h : NumberedFrom n records) {k : ℕ} (hstart : records ≠ [] → n ≤ k + 1)
    (hreach : ∀ last ∈ records.getLast?, k ≤ last.seq.val) :
    ∃ front back, records = front ++ back ∧ (∀ r ∈ front, r.seq.val ≤ k) ∧
      NumberedFrom (k + 1) back ∧ (records ≠ [] → n + records.length = k + 1 + back.length) := by
  cases hlast : records.getLast? with
  | none =>
    obtain rfl := List.getLast?_eq_none_iff.mp hlast
    exact ⟨[], [], rfl, fun r hr ↦ absurd hr List.not_mem_nil, trivial, fun h ↦ absurd rfl h⟩
  | some last =>
    have hne : records ≠ [] := by
      rintro rfl
      cases hlast
    have hend := h.getLast? hlast
    have hreach := hreach last hlast
    have hstart := hstart hne
    have hsplit := List.take_append_drop (k + 1 - n) records
    have hboth := h
    rw [← hsplit, append, List.length_take_of_le (by omega)] at hboth
    refine ⟨_, _, hsplit.symm, fun r hr ↦ ?_, ?_, fun _ ↦ ?_⟩
    · have hbound := (hboth.1.le_of_mem hr).2
      rw [List.length_take_of_le (by omega)] at hbound
      omega
    · have hback := hboth.2
      rwa [show n + (k + 1 - n) = k + 1 by omega] at hback
    · rw [List.length_drop]
      omega

end NumberedFrom

theorem Gapless.numbered {records : List LogRecord} (h : Gapless records) :
    ∃ n, NumberedFrom n records := by
  cases records with
  | nil => exact ⟨0, trivial⟩
  | cons r records => exact ⟨_, NumberedFrom.of_gapless h⟩

/-- Nothing applied yet, or the last applied record is the one before `n`. -/
def AuctionState.At (s : AuctionState) (n : ℕ) : Prop := ∀ last ∈ s.lastSeq, last.val + 1 = n

theorem AuctionState.new_at (config : AuctionConfig) (n : ℕ) : (AuctionState.new config).At n :=
  fun _ h ↦ absurd h (Option.not_mem_none _)

/-- **Numbered records can be applied.** -/
theorem applyAll_numbered {state : AuctionState} {n : ℕ} {records : List LogRecord}
    (hat : state.At n) (hnum : NumberedFrom n records) :
    ∃ state', applyAll state records = some state' ∧ state'.At (n + records.length) := by
  induction records generalizing state n with
  | nil => exact ⟨state, rfl, hat⟩
  | cons r records ih =>
    have haccepts : state.Accepts r.seq := fun last hlast ↦
      Seq.next_eq_some.mpr (hnum.1.trans (hat last hlast).symm)
    have hstep : state.step r = some (state.advance r.seq r.ts r.cmd) := if_pos haccepts
    have hfollow : follow state r = some (state.advance r.seq r.ts r.cmd).1 := by
      rw [follow, hstep, Option.map_some]
    have hat' : (state.advance r.seq r.ts r.cmd).1.At (n + 1) := by
      intro last hlast
      have hseq : (state.advance r.seq r.ts r.cmd).1.lastSeq = some r.seq := step_lastSeq hstep
      cases hlast.symm.trans hseq
      rw [hnum.1]
    obtain ⟨state', hall, hat'⟩ := ih hat' hnum.2
    refine ⟨state', ?_, ?_⟩
    · rw [applyAll, hfollow, Option.bind_some, hall]
    · rw [List.length_cons, Nat.add_comm records.length, ← Nat.add_assoc]
      exact hat'

theorem applyAll_lastSeq {state state' : AuctionState} {records : List LogRecord}
    (h : applyAll state records = some state') :
    state'.lastSeq = (records.getLast?.map LogRecord.seq).or state.lastSeq := by
  induction records generalizing state with
  | nil =>
    cases h
    rfl
  | cons r records ih =>
    obtain ⟨t, hfollow, hall⟩ := Option.bind_eq_some_iff.mp h
    obtain ⟨u, hstep, rfl⟩ := Option.map_eq_some_iff.mp hfollow
    have hseq := step_lastSeq (o := u.2) hstep
    rw [ih hall, hseq, List.getLast?_cons]
    cases records.getLast? with
    | none => rfl
    | some last => rfl

/-! ## The loop of recovery

The records up to the position of the snapshot are passed over; those behind it are applied, if the
first of them is the next one. A gap is all that the loop complains of. -/

variable {resumeAfter last : Option Seq} {state : AuctionState} {records : List LogRecord} {n : ℕ}

theorem replay_skip {s : Seq} {front : List LogRecord} (h : ∀ r ∈ front, r.seq ≤ s) (k : ℕ)
    (records : List LogRecord) :
    replay (some s) state last k (front ++ records) = replay (some s) state last k records := by
  induction front with
  | nil => rfl
  | cons r front ih =>
    have hskip : (some s).any (fun s ↦ r.seq ≤ s) = true :=
      decide_eq_true (h r List.mem_cons_self)
    rw [List.cons_append, replay, if_pos hskip]
    exact ih fun r hr ↦ h r (List.mem_cons_of_mem _ hr)

/-- **The records behind it are applied**, one after another. -/
theorem replay_eq (hnum : NumberedFrom n records) (hafter : ∀ s ∈ resumeAfter, s.val < n)
    (hlast : ∀ prev ∈ last, prev.val + 1 = n) (k : ℕ) :
    replay resumeAfter state last k records = (applyAll state records).map fun t ↦
      .ok (t, (records.getLast?.map LogRecord.seq).or last, k + records.length) := by
  induction records generalizing n state last k with
  | nil => rfl
  | cons r records ih =>
    have hkeep : ¬resumeAfter.any (fun s ↦ r.seq ≤ s) = true := by
      intro hany
      obtain ⟨s, hs, hle⟩ := Option.any_eq_true _ _ |>.mp hany
      have := hafter s hs
      have := hnum.1
      have : r.seq.val ≤ s.val := of_decide_eq_true hle
      omega
    have hseam : (last.bind fun prev ↦ if prev.next = some r.seq then none else some prev) =
        none := by
      cases last with
      | none => rfl
      | some prev =>
        exact if_pos (Seq.next_eq_some.mpr (hnum.1.trans (hlast prev rfl).symm))
    have hafter' : ∀ s ∈ resumeAfter, s.val < n + 1 := fun s hs ↦ Nat.lt_succ_of_lt (hafter s hs)
    have hlast' : ∀ prev ∈ some r.seq, prev.val + 1 = n + 1 := by
      intro prev hprev
      cases hprev
      rw [hnum.1]
    rw [replay, if_neg hkeep, hseam]
    dsimp only
    rw [applyAll]
    cases hfollow : follow state r with
    | none => rfl
    | some state' =>
      rw [Option.bind_some, Option.bind_some, ih hnum.2 hafter' hlast', List.getLast?_cons,
        List.length_cons]
      congr 1
      funext t
      cases hlast : records.getLast? with
      | none => rw [Nat.add_assoc, Nat.add_comm 1]; rfl
      | some prev => rw [Nat.add_assoc, Nat.add_comm 1]; rfl

theorem replay_gap {s : Seq} {r : LogRecord} (h : s.val + 1 < r.seq.val) (k : ℕ) :
    replay (some s) state (some s) k (r :: records) = some (.error (.sequenceGap s r.seq)) := by
  have hkeep : ¬(some s).any (fun s ↦ r.seq ≤ s) = true := by
    intro hany
    have : r.seq.val ≤ s.val := of_decide_eq_true hany
    omega
  have hseam : ((some s).bind fun prev ↦ if prev.next = some r.seq then none else some prev) =
      some s := by
    refine if_neg fun hnext ↦ ?_
    have := Seq.next_eq_some.mp hnext
    omega
  rw [replay, if_neg hkeep, hseam]

theorem replay_error {e : WalError} {k : ℕ}
    (h : replay resumeAfter state last k records = some (.error e)) :
    ∃ prev found, e = .sequenceGap prev found := by
  induction records generalizing state last k with
  | nil => cases h
  | cons r records ih =>
    rw [replay] at h
    by_cases hskip : (resumeAfter.any fun s ↦ r.seq ≤ s) = true
    · rw [if_pos hskip] at h
      exact ih h
    · rw [if_neg hskip] at h
      split at h
      · rename_i prev hgap
        cases h
        exact ⟨prev, r.seq, rfl⟩
      · obtain ⟨state', -, h⟩ := Option.bind_eq_some_iff.mp h
        exact ih h

theorem replay_last {state' : AuctionState} {last' : Option Seq} {k k' : ℕ}
    (h : replay resumeAfter state last k records = some (.ok (state', last', k'))) :
    last' = (((records.filter fun r ↦ !resumeAfter.any fun s ↦ r.seq ≤ s).getLast?).map
      LogRecord.seq).or last := by
  induction records generalizing state last k with
  | nil =>
    cases h
    rfl
  | cons r records ih =>
    rw [replay] at h
    rw [List.filter_cons]
    by_cases hskip : (resumeAfter.any fun s ↦ r.seq ≤ s) = true
    · rw [if_pos hskip] at h
      rw [hskip]
      exact ih h
    · rw [if_neg hskip] at h
      rw [Bool.not_eq_true _ |>.mp hskip]
      split at h
      · cases h
      · obtain ⟨state'', -, h⟩ := Option.bind_eq_some_iff.mp h
        rw [ih h, Bool.not_false, if_pos rfl, List.getLast?_cons]
        cases (records.filter fun r ↦ !resumeAfter.any fun s ↦ r.seq ≤ s).getLast? with
        | none => rfl
        | some r' => rfl

/-! ## Where recovery starts

From the newest snapshot that reads, unless the log ends before it: then, as when there is none,
from a fresh auction. -/

/-- The log ends before the snapshot. -/
def EndsBefore (records : List LogRecord) (s : Snapshot) : Prop :=
  ∃ r ∈ records.getLast?, r.seq < s.seq

instance (records : List LogRecord) (s : Snapshot) : Decidable (EndsBefore records s) :=
  inferInstanceAs (Decidable (∃ r ∈ records.getLast?, r.seq < s.seq))

theorem startFrom_ignored {s : Snapshot} (config : AuctionConfig) (h : EndsBefore records s) :
    startFrom config records (some s) = (AuctionState.new config, none) := by
  obtain ⟨r, hr, hlt⟩ := h
  rw [startFrom, Option.mem_def.mp hr]
  exact if_pos (decide_eq_true hlt)

theorem startFrom_used {s : Snapshot} (config : AuctionConfig) (h : ¬EndsBefore records s) :
    startFrom config records (some s) = (s.state, some s.seq) := by
  refine if_neg fun hany ↦ h ?_
  obtain ⟨r, hr, hlt⟩ := (Option.any_eq_true _ _).mp hany
  exact ⟨r, hr, of_decide_eq_true hlt⟩

variable {config : AuctionConfig} {snapshot : Option Snapshot} {next : Seq}

/-- **Recovery resumes right behind the log.** -/
theorem recoverFrom_next {r : Recovered} (hnum : NumberedFrom n records)
    (h : recoverFrom config records snapshot = some (.ok r)) :
    ∀ record ∈ records.getLast?, record.seq.next = some r.nextSeq := by
  intro record hrecord
  obtain ⟨result, hreplay, hresult⟩ := Option.bind_eq_some_iff.mp h
  cases result with
  | error e => cases hresult
  | ok result =>
    obtain ⟨state, last, replayed⟩ := result
    obtain ⟨nextSeq, hnext, heq⟩ := Option.map_eq_some_iff.mp hresult
    cases heq
    have hlast := replay_last hreplay
    suffices hsame : last = some record.seq by
      rw [hsame] at hnext
      exact hnext
    have hall : (startFrom config records snapshot).2 = none → last = some record.seq := by
      intro hnone
      have hkeep : (records.filter fun r ↦ !(none : Option Seq).any fun s ↦ r.seq ≤ s) = records :=
        List.filter_eq_self.mpr fun _ _ ↦ rfl
      rw [hlast, hnone, hkeep, Option.mem_def.mp hrecord]
      rfl
    cases snapshot with
    | none => exact hall rfl
    | some s =>
      by_cases hends : EndsBefore records s
      · exact hall (congrArg Prod.snd (startFrom_ignored config hends))
      · rw [startFrom_used config hends] at hlast
        -- The log reaches the snapshot: records lie behind it, or its last is the snapshot's.
        have hreaches : s.seq ≤ record.seq := by
          by_contra hlt
          exact hends ⟨record, hrecord, not_le.mp hlt⟩
        have hskip : (records.filter fun r ↦ !(some s.seq).any fun s ↦ r.seq ≤ s) =
            records.drop (s.seq.val + 1 - n) := by
          rw [← hnum.filter_after]
          refine List.filter_congr fun r _ ↦ ?_
          by_cases hle : r.seq ≤ s.seq
          · rw [Option.any_some, decide_eq_true hle, decide_eq_false (not_lt.mpr hle)]
            rfl
          · rw [Option.any_some, decide_eq_false hle, decide_eq_true (not_le.mp hle)]
            rfl
        have hlen := hnum.getLast? hrecord
        have hpos := List.length_pos_of_mem (List.mem_of_getLast? hrecord)
        rw [hskip] at hlast
        rw [hlast, List.getLast?_drop]
        split_ifs with hshort
        · have hle : record.seq.val ≤ s.seq.val := by omega
          rw [Option.map_none, Option.none_or]
          exact congrArg some (le_antisymm hreaches hle)
        · rw [Option.mem_def.mp hrecord]
          rfl

/-- **Recovery from a fresh auction** applies every record of the log. -/
theorem recoverFrom_fresh (hstart : ∀ s ∈ snapshot, EndsBefore records s)
    (hnum : NumberedFrom n records)
    (hnext : next.val = if records = [] then 0 else n + records.length) :
    recoverFrom config records snapshot =
      (fullReplay config records).map fun t ↦ .ok ⟨t, next, records.length, none⟩ := by
  have hfresh : startFrom config records snapshot = (AuctionState.new config, none) := by
    cases snapshot with
    | none => rfl
    | some s => exact startFrom_ignored config (hstart s rfl)
  have hlast : (((records.getLast?.map LogRecord.seq).or none).elim (some Seq.START) Seq.next) =
      some next := by
    cases hr : records.getLast? with
    | none =>
      rw [List.getLast?_eq_none_iff.mp hr, if_pos rfl] at hnext
      exact congrArg some (U64.ext hnext.symm)
    | some r =>
      have hne : records ≠ [] := fun hnil ↦ by rw [hnil] at hr; cases hr
      rw [if_neg hne, ← hnum.getLast? hr] at hnext
      exact Seq.next_eq_some.mpr hnext
  rw [recoverFrom, hfresh]
  dsimp only
  rw [replay_eq hnum (fun s hs ↦ absurd hs (Option.not_mem_none s))
    (fun s hs ↦ absurd hs (Option.not_mem_none s)), fullReplay]
  cases applyAll (AuctionState.new config) records with
  | none => rfl
  | some t =>
    rw [Option.map_some, Option.map_some, Option.bind_some]
    dsimp only
    rw [hlast, Option.map_some, Nat.zero_add]

/-- **Recovery from a snapshot** applies the records behind it. -/
theorem recoverFrom_snapshot {s : Snapshot} {front back : List LogRecord}
    (hused : ¬EndsBefore (front ++ back) s) (hfront : ∀ r ∈ front, r.seq ≤ s.seq)
    (hback : NumberedFrom (s.seq.val + 1) back) (hnext : next.val = s.seq.val + 1 + back.length) :
    recoverFrom config (front ++ back) (some s) =
      (applyAll s.state back).map fun t ↦ .ok ⟨t, next, back.length, some s.seq⟩ := by
  have hlast : (((back.getLast?.map LogRecord.seq).or (some s.seq)).elim (some Seq.START) Seq.next)
      = some next := by
    cases hr : back.getLast? with
    | none =>
      rw [List.getLast?_eq_none_iff.mp hr] at hnext
      exact Seq.next_eq_some.mpr hnext
    | some r => exact Seq.next_eq_some.mpr (hnext.trans (hback.getLast? hr).symm)
  rw [recoverFrom, startFrom_used config hused]
  dsimp only
  rw [replay_skip hfront, replay_eq hback (fun t ht ↦ by cases ht; exact Nat.lt_succ_self _)
    (fun t ht ↦ by cases ht; rfl)]
  cases applyAll s.state back with
  | none => rfl
  | some t =>
    rw [Option.map_some, Option.map_some, Option.bind_some]
    dsimp only
    rw [hlast, Option.map_some, Nat.zero_add]

/-- **Recovery equals full replay** of a numbered log, if the snapshot is ignored or is the state
after a record of the log. -/
theorem recoverFrom_honest (hnum : NumberedFrom 0 records) (hn : records.length = next.val)
    (hsnapshot : ∀ s ∈ snapshot, EndsBefore records s ∨ s.seq.val < records.length ∧
      fullReplay config (records.take (s.seq.val + 1)) = some s.state) :
    ∃ r, recoverFrom config records snapshot = some (.ok r) ∧
      fullReplay config records = some r.state ∧ r.nextSeq = next ∧
      ((r.fromSnapshot = none ∧ r.replayed = next.val ∧ ∀ s ∈ snapshot, EndsBefore records s) ∨
        ∃ s ∈ snapshot, ¬EndsBefore records s ∧ r.fromSnapshot = some s.seq ∧
          r.replayed = next.val - (s.seq.val + 1)) := by
  obtain ⟨state, hstate, -⟩ := applyAll_numbered (AuctionState.new_at config 0) hnum
  have hall : fullReplay config records = some state := hstate
  by_cases hused : ∃ s ∈ snapshot, ¬EndsBefore records s
  · obtain ⟨s, hs, hused⟩ := hused
    obtain ⟨hlt, hpre⟩ := (hsnapshot s hs).resolve_left hused
    have hsplit := List.take_append_drop (s.seq.val + 1) records
    have hfront : ∀ r ∈ records.take (s.seq.val + 1), r.seq ≤ s.seq := by
      intro r hr
      have hboth := hnum
      rw [← hsplit, NumberedFrom.append] at hboth
      have hbound := (hboth.1.le_of_mem hr).2
      rw [List.length_take] at hbound
      show r.seq.val ≤ s.seq.val
      omega
    have hback := hnum.drop (s.seq.val + 1) hlt
    rw [Nat.zero_add] at hback
    have hlen : (records.drop (s.seq.val + 1)).length = next.val - (s.seq.val + 1) := by
      rw [List.length_drop, hn]
    have hrest : applyAll s.state (records.drop (s.seq.val + 1)) = some state := by
      have hall := hall
      rw [← hsplit, fullReplay_append, hpre, Option.bind_some] at hall
      exact hall
    rw [← hsplit] at hused
    have hrecover : recoverFrom config (records.take (s.seq.val + 1) ++
        records.drop (s.seq.val + 1)) (some s) = _ :=
      recoverFrom_snapshot hused hfront hback
        (show next.val = s.seq.val + 1 + (records.drop (s.seq.val + 1)).length by omega)
    rw [hsplit, hrest, Option.map_some] at hrecover
    rw [hsplit] at hused
    obtain rfl := Option.mem_def.mp hs
    exact ⟨_, hrecover, hall, rfl, Or.inr ⟨s, rfl, hused, rfl, hlen⟩⟩
  · push Not at hused
    have hnext : next.val = if records = [] then 0 else 0 + records.length := by
      split_ifs with hnil
      · rw [← hn, hnil, List.length_nil]
      · rw [Nat.zero_add, hn]
    have hrecover : recoverFrom config records snapshot = _ := recoverFrom_fresh hused hnum hnext
    rw [hall, Option.map_some] at hrecover
    exact ⟨_, hrecover, hall, rfl, Or.inl ⟨rfl, hn, hused⟩⟩

theorem applyAll_config {state state' : AuctionState} {records : List LogRecord}
    (h : applyAll state records = some state') : state'.config = state.config := by
  obtain ⟨tr, hrun, -⟩ := applyAll_run h
  exact hrun.invariant (P := fun s : AuctionState ↦ s.config = state.config) rfl
    fun _ _ _ _ hs hstep ↦ (step_frame hstep).1.trans hs

/-- **Recovery refuses nothing** that is numbered and reaches back to behind the snapshot it starts
from. -/
theorem recoverFrom_ok (hnum : NumberedFrom n records) (hbound : n + records.length < 2 ^ 64)
    (hsnapshot : ∀ s ∈ snapshot, s.state.At (s.seq.val + 1) ∧ s.state.config = config ∧
      s.seq.val + 1 < 2 ^ 64 ∧ (records ≠ [] → n ≤ s.seq.val + 1)) :
    ∃ r, recoverFrom config records snapshot = some (.ok r) ∧ r.state.config = config ∧
      r.state.At r.nextSeq.val ∧ (records ≠ [] → r.nextSeq.val = n + records.length) ∧
      (records = [] → r.nextSeq.val = 0 ∨ ∃ s ∈ snapshot, r.nextSeq.val = s.seq.val + 1) := by
  by_cases hused : ∃ s ∈ snapshot, ¬EndsBefore records s
  · obtain ⟨s, hs, hused⟩ := hused
    obtain ⟨hat, hconfig, hlast, hstart⟩ := hsnapshot s hs
    obtain ⟨front, back, hsplit, hfront, hback, hlength⟩ := hnum.split hstart fun last hmem ↦ by
      by_contra hlt
      exact hused ⟨last, hmem, not_le.mp hlt⟩
    obtain ⟨state, hstate, hat'⟩ := applyAll_numbered hat hback
    have hfit : s.seq.val + 1 + back.length < 2 ^ 64 := by
      by_cases hnil : records = []
      · rw [hnil] at hsplit
        rw [(List.append_eq_nil_iff.mp hsplit.symm).2]
        exact hlast
      · exact hlength hnil ▸ hbound
    obtain ⟨next, hnext⟩ : ∃ next : Seq, next.val = s.seq.val + 1 + back.length := ⟨⟨_, hfit⟩, rfl⟩
    obtain rfl : snapshot = some s := hs
    have hrecover : recoverFrom config records (some s) =
        some (.ok ⟨state, next, back.length, some s.seq⟩) := by
      rw [hsplit] at hused ⊢
      rw [recoverFrom_snapshot hused hfront hback hnext, hstate, Option.map_some]
    refine ⟨_, hrecover, (applyAll_config hstate).trans hconfig, hnext ▸ hat', fun hne ↦ ?_,
      fun hnil ↦ Or.inr ⟨s, rfl, ?_⟩⟩
    · exact hnext.trans (hlength hne).symm
    · rw [hnil] at hsplit
      rw [(List.append_eq_nil_iff.mp hsplit.symm).2] at hnext
      exact hnext
  · push Not at hused
    obtain ⟨state, hstate, hat⟩ := applyAll_numbered (AuctionState.new_at config n) hnum
    have hfit : (if records = [] then 0 else n + records.length) < 2 ^ 64 := by
      split_ifs
      · exact Nat.two_pow_pos 64
      · exact hbound
    obtain ⟨next, hnext⟩ : ∃ next : Seq,
        next.val = if records = [] then 0 else n + records.length := ⟨⟨_, hfit⟩, rfl⟩
    have hrecover : recoverFrom config records snapshot =
        some (.ok ⟨state, next, records.length, none⟩) := by
      rw [recoverFrom_fresh hused hnum hnext, fullReplay, hstate, Option.map_some]
    refine ⟨_, hrecover, applyAll_config hstate, ?_, fun hne ↦ ?_, fun hnil ↦ Or.inl ?_⟩
    · show state.At next.val
      by_cases hnil : records = []
      · rw [hnil] at hstate
        cases hstate
        exact AuctionState.new_at config _
      · rw [hnext, if_neg hnil]
        exact hat
    · exact hnext.trans (if_neg hne)
    · exact hnext.trans (if_pos hnil)

/-! ## The newest snapshot that reads -/

namespace Snapshots

variable {snaps : Snapshots}

theorem latestUsable_eq_none (h : snaps.latestUsable = none) (k : Seq) (s : Snapshot) :
    (k, Except.ok s) ∉ snaps.entries := by
  intro hmem
  have hnone := List.findSome?_eq_none_iff.mp h _ (List.mem_reverse.mpr hmem)
  cases hnone

theorem latestUsable_eq_some {s : Snapshot} (h : snaps.latestUsable = some s) :
    ∃ k, (k, .ok s) ∈ snaps.entries ∧ ∀ k' s', (k', .ok s') ∈ snaps.entries → k' ≤ k := by
  obtain ⟨l₁, ⟨k, file⟩, l₂, hlist, hfile, hbefore⟩ := List.findSome?_eq_some_iff.mp h
  have hentries : snaps.entries = l₂.reverse ++ (k, file) :: l₁.reverse := by
    rw [← List.reverse_reverse snaps.entries, show snaps.entries.reverse = _ from hlist]
    simp only [List.reverse_append, List.reverse_cons, List.append_assoc, List.singleton_append]
  have hok : file = .ok s := by
    cases file with
    | error e => cases hfile
    | ok s' => cases hfile; rfl
  refine ⟨k, ?_, fun k' s' hmem ↦ ?_⟩
  · rw [hentries, hok]
    exact List.mem_append_right _ List.mem_cons_self
  · have hsorted := snaps.sorted
    rw [hentries, List.pairwise_append] at hsorted
    rw [hentries] at hmem
    rcases List.mem_append.mp hmem with hmem | hmem
    · exact (hsorted.2.2 _ hmem _ List.mem_cons_self).le
    · rcases List.mem_cons.mp hmem with heq | hmem
      · exact (congrArg Prod.fst heq).le
      · cases hbefore _ (List.mem_reverse.mp hmem)

end Snapshots

/-! ## A missing manifest

A directory without a manifest is told from one that cannot be recovered, as an open creates the
first and refuses the second. -/

theorem Codec.extend_ne_noManifest (all records : List LogRecord) (path : Path) :
    Codec.extend all records ≠ .error (.noManifest path) := by
  induction records generalizing all with
  | nil =>
    intro h
    cases h
  | cons r records ih =>
    rw [Codec.extend]
    split
    · split
      · exact ih _
      · intro h
        cases h
    · exact ih _

theorem Codec.readFrom_ne_noManifest (c : Codec) (all : List LogRecord)
    (files : List (ℕ × List UInt8)) (path : Path) :
    c.readFrom all files ≠ .error (.noManifest path) := by
  induction files generalizing all with
  | nil =>
    intro h
    cases h
  | cons file files ih =>
    rw [Codec.readFrom]
    split
    · rename_i e hread
      rw [Codec.readSegment] at hread
      split at hread
      · cases hread
      · cases hread
        intro h
        cases h
    · split_ifs
      · intro h
        cases h
      · split
        · rename_i e hextend
          intro h
          cases h
          exact Codec.extend_ne_noManifest _ _ _ hextend
        · exact ih _

theorem replay_ne_noManifest {count : ℕ} (path : Path) :
    replay resumeAfter state last count records ≠ some (.error (.noManifest path)) := by
  induction records generalizing state last count with
  | nil =>
    intro h
    cases h
  | cons r records ih =>
    rw [replay]
    split
    · exact ih
    · split
      · intro h
        cases h
      · intro h
        obtain ⟨t, -, hrest⟩ := Option.bind_eq_some_iff.mp h
        exact ih hrest

theorem Codec.manifest_of_recover {c : Codec} {dir : Dir} {path : Path}
    (h : c.recover dir = some (.error (.noManifest path))) : dir.manifest = none := by
  rw [Codec.recover] at h
  split at h
  · rename_i e hmanifest
    rw [Dir.readManifest] at hmanifest
    split at hmanifest
    · assumption
    · cases hmanifest
    · cases hmanifest
      cases h
  · split at h
    · rename_i e hread
      cases h
      exact absurd hread (c.readFrom_ne_noManifest _ _ _)
    · obtain ⟨result, hreplay, hresult⟩ := Option.bind_eq_some_iff.mp h
      cases result with
      | error e =>
        cases hresult
        exact absurd hreplay (replay_ne_noManifest _)
      | ok result =>
        obtain ⟨nextSeq, -, heq⟩ := Option.map_eq_some_iff.mp hresult
        cases heq

end DutchAuction
