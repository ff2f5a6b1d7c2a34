import DutchAuction.Wal.Commit

/-!
# How far the disk may fall behind

A record that was submitted and is not synced is in the channel or in the writer's hand. The channel
is bounded, and so is a batch; what the writer takes behind a stop was in the channel when the stop
was sent, as long as nobody sends behind it. So the writer is never further behind than the channel
and one batch together, failed writes included (`Backed.backlog`).
-/

namespace DutchAuction

/-- How many messages the channel can hold. -/
def WalOptions.slots (options : WalOptions) : ℕ := max options.submitQueueDepth 1

/-- How many records a batch can hold. The first is taken before the bound is looked at. -/
def WalOptions.batch (options : WalOptions) : ℕ := max options.maxBatch 1

namespace CommitThread

variable {codec : Codec} {options : WalOptions} {c c' : CommitThread} {stopped : Bool}

/-- What one step of the writer can come to. -/
inductive Advances (codec : Codec) (options : WalOptions) (c : CommitThread) : CommitThread → Prop
  | receives (wal : Wal) (r : LogRecord) (queue : List Msg) (hw : c.writer = .receiving wal)
      (hq : c.queue = .record r :: queue) :
      Advances codec options c { c with queue := queue, writer := .gathering wal [r] }
  | receivesStop (wal : Wal) (queue : List Msg) (hw : c.writer = .receiving wal)
      (hq : c.queue = .stop :: queue) :
      Advances codec options c { c with queue := queue, writer := .draining wal [] }
  | hangsUp (wal : Wal) (hw : c.writer = .receiving wal) (hhung : c.hungUp = true) :
      Advances codec options c { c with writer := .draining wal [] }
  | gathers (wal : Wal) (batch : List LogRecord) (r : LogRecord) (queue : List Msg)
      (hw : c.writer = .gathering wal batch) (hroom : batch.length < options.maxBatch)
      (hq : c.queue = .record r :: queue) :
      Advances codec options c { c with queue := queue, writer := .gathering wal (batch ++ [r]) }
  | gathersStop (wal : Wal) (batch : List LogRecord) (queue : List Msg)
      (hw : c.writer = .gathering wal batch) (hq : c.queue = .stop :: queue) :
      Advances codec options c { c with queue := queue, writer := .writing wal batch .drain }
  | gathered (wal : Wal) (batch : List LogRecord) (hw : c.writer = .gathering wal batch) :
      Advances codec options c { c with writer := .writing wal batch .receive }
  | drains (wal : Wal) (leftovers : List LogRecord) (r : LogRecord) (queue : List Msg)
      (hw : c.writer = .draining wal leftovers) (hq : c.queue = .record r :: queue) :
      Advances codec options c { c with queue := queue, writer := .draining wal (leftovers ++ [r]) }
  | drainsStop (wal : Wal) (leftovers : List LogRecord) (queue : List Msg)
      (hw : c.writer = .draining wal leftovers) (hq : c.queue = .stop :: queue) :
      Advances codec options c { c with queue := queue, writer := .draining wal leftovers }
  | drained (wal : Wal) (leftovers : List LogRecord) (hw : c.writer = .draining wal leftovers)
      (hq : c.queue = []) :
      Advances codec options c { c with
        writer := if leftovers = [] then .closing .shutDown else .writing wal leftovers .close }
  | appends (wal wal' : Wal) (r : LogRecord) (rest : List LogRecord) (after : After) (dir : Dir)
      (hw : c.writer = .writing wal (r :: rest) after) :
      Advances codec options c { c with
        dir := dir
        appended := c.appended ++ [r]
        writer := .writing wal' rest after }
  | fails (wal : Wal) (rest : List LogRecord) (after : After) (e : WriteError) (dir : Dir)
      (hw : c.writer = .writing wal rest after) :
      Advances codec options c { c with dir := dir, writer := .closing (.failed e) }
  | syncs (wal wal' : Wal) (after : After) (durable : Option Seq) (dir : Dir)
      (hw : c.writer = .writing wal [] after) :
      Advances codec options c { c with
        dir := dir
        synced := c.appended
        writer := .publishing wal' durable after }
  | publishes (wal : Wal) (durable : Option Seq) (after : After) (mark : Watermark)
      (hw : c.writer = .publishing wal durable after) :
      Advances codec options c { c with watermark := mark, writer := after.next wal }
  | closes (reason : StopReason) (mark : Watermark) (hw : c.writer = .closing reason) :
      Advances codec options c { c with watermark := mark, writer := .returning }
  | returns (hw : c.writer = .returning) :
      Advances codec options c { c with writer := .ended }

theorem poll_advances (hpoll : c.poll options = some c') : Advances codec options c c' := by
  rw [poll] at hpoll
  split at hpoll
  · rename_i wal r queue hw hq
    cases hpoll
    exact .receives wal r queue hw hq
  · rename_i wal queue hw hq
    cases hpoll
    exact .receivesStop wal queue hw hq
  · rename_i wal hw hq
    split_ifs at hpoll with hhung
    cases hpoll
    exact .hangsUp wal hw hhung
  · rename_i wal batch hw
    by_cases hroom : batch.length < options.maxBatch
    · rw [if_pos hroom] at hpoll
      split at hpoll
      · rename_i r queue hq
        cases hpoll
        exact .gathers wal batch r queue hw hroom hq
      · rename_i queue hq
        cases hpoll
        exact .gathersStop wal batch queue hw hq
      · split_ifs at hpoll
        cases hpoll
        exact .gathered wal batch hw
    · rw [if_neg hroom] at hpoll
      cases hpoll
      exact .gathered wal batch hw
  · rename_i wal leftovers r queue hw hq
    cases hpoll
    exact .drains wal leftovers r queue hw hq
  · rename_i wal leftovers queue hw hq
    cases hpoll
    exact .drainsStop wal leftovers queue hw hq
  · rename_i wal hw hq
    cases hpoll
    have hdrained : Advances codec options c _ := .drained wal [] hw hq
    rwa [if_pos rfl] at hdrained
  · rename_i wal leftovers hne hw hq
    cases hpoll
    have hdrained : Advances codec options c _ := .drained wal leftovers hw hq
    rwa [if_neg hne] at hdrained
  · cases hpoll

/-- **One step of the writer** is one of these. -/
theorem advance_advances {move : Move} (h : c.advance codec options move = some c') :
    Advances codec options c c' := by
  cases move with
  | poll => exact poll_advances h
  | lapse =>
    rw [advance, lapse] at h
    split at h
    · rename_i wal batch hw hq
      cases h
      exact .gathered wal batch hw
    · cases h
  | write fault =>
    rw [advance, write] at h
    split at h
    · rename_i wal rest after hw
      split at h
      · cases h
        exact .fails wal rest after _ _ hw
      · rename_i r rest
        split_ifs at h
        split at h
        · cases h
          exact .appends wal _ r rest after _ hw
        · cases h
          exact .fails wal (r :: rest) after _ c.dir hw
      · cases h
        exact .syncs wal _ after _ _ hw
    · cases h
  | publish =>
    rw [advance, publish] at h
    split at h
    · rename_i wal durable after hw
      cases h
      exact .publishes wal durable after _ hw
    · cases h
  | close =>
    rw [advance, close] at h
    split at h
    · rename_i reason hw
      cases h
      exact .closes reason _ hw
    · cases h
  | «return» =>
    rw [advance, CommitThread.return] at h
    split at h
    · rename_i hw
      cases h
      exact .returns hw
    · cases h

/-! ## The bound

What is unsynced is counted in the channel and in the writer's hand. Every step of the writer moves
records from the one to the other or syncs them; only sending adds to them, and only where the
channel has room. -/

/-- What the writer has in hand is a batch, or what had been in the channel behind the stop, and
once it has stopped it has left no more than one of these. -/
def Room (options : WalOptions) (stopped : Bool) (c : CommitThread) : Prop :=
  match c.writer with
  | .receiving _ | .publishing _ _ .receive => True
  | .gathering _ batch => batch.length ≤ options.batch
  | .writing _ rest .receive => c.appended.length + rest.length ≤ c.synced.length + options.batch
  | .writing _ rest .drain =>
    stopped = true ∧ c.appended.length + rest.length ≤ c.synced.length + options.batch
  | .writing _ rest .close =>
    stopped = true ∧
      c.appended.length + rest.length + c.queue.length ≤ c.synced.length + options.slots
  | .publishing _ _ _ => stopped = true
  | .draining _ leftovers =>
    stopped = true ∧ leftovers.length + c.queue.length ≤ options.slots
  | .closing _ | .returning | .ended =>
    c.submitted.length ≤ c.synced.length + options.batch + c.queue.length ∨
      stopped = true ∧ c.submitted.length ≤ c.synced.length + options.slots

/-- What holds between any two steps, as long as nothing is sent behind a stop. -/
structure Backed (options : WalOptions) (stopped : Bool) (c : CommitThread) : Prop where
  hungUp : c.hungUp = false
  queue : c.queue.length ≤ options.slots
  stop : .stop ∈ c.queue → stopped = true
  room : c.Room options stopped

theorem spawn_backed (wal : Wal) (dir : Dir) : (spawn wal dir).Backed options false where
  hungUp := rfl
  queue := Nat.zero_le _
  stop h := absurd h List.not_mem_nil
  room := trivial

theorem Writes.length {wal : Wal} {inHand : List LogRecord} (h : c.Writes wal inHand) :
    c.submitted.length ≤ c.appended.length + inHand.length + c.queue.length := by
  have hqueued : c.queued.length ≤ c.queue.length := List.length_filterMap_le _ _
  rw [h.order, List.length_append, List.length_append]
  omega

/-- **No more is unsynced** than the channel and a batch can hold. -/
theorem Backed.backlog (h : c.Backed options stopped) (hs : c.Sound) :
    c.submitted.length ≤ c.synced.length + (options.slots + options.batch) := by
  have hstage := hs.stage
  have hroom := h.room
  have hqueue := h.queue
  unfold Room at hroom
  cases hw : c.writer with
  | receiving wal =>
    simp only [Stage, hw] at hstage
    have hlength := hstage.1.length
    rw [hstage.2.synced]
    simp only [List.length_nil] at hlength
    omega
  | gathering wal batch =>
    simp only [Stage, hw] at hstage hroom
    have hlength := hstage.1.length
    rw [hstage.2.synced]
    omega
  | writing wal rest after =>
    simp only [Stage, hw] at hstage hroom
    have hlength := hstage.1.length
    cases after with
    | receive =>
      dsimp only at hroom
      omega
    | drain =>
      dsimp only at hroom
      omega
    | close =>
      dsimp only at hroom
      omega
  | publishing wal durable after =>
    simp only [Stage, hw] at hstage
    have hlength := hstage.1.length
    rw [hstage.2.1]
    simp only [List.length_nil] at hlength
    omega
  | draining wal leftovers =>
    simp only [Stage, hw] at hstage hroom
    have hlength := hstage.1.length
    rw [hstage.2.synced]
    omega
  | closing reason =>
    simp only [hw] at hroom
    omega
  | returning =>
    simp only [hw] at hroom
    omega
  | ended =>
    simp only [hw] at hroom
    omega

theorem send_room {msg : Msg} (hsend : c.send options msg = some (c', true)) :
    c.queue.length < options.slots := by
  rw [send] at hsend
  split at hsend
  · cases hsend
  · split_ifs at hsend with hroom
    exact hroom.2

/-- **A record** makes the channel longer, as long as no stop was sent. -/
theorem Backed.send_record (h : c.Backed options false) {r : LogRecord} {sent : Bool}
    (hsend : c.send options (.record r) = some (c', sent)) : c'.Backed options false := by
  obtain ⟨rfl, -, rfl⟩ | ⟨-, -, rfl⟩ := send_cases hsend
  · have hlt := send_room hsend
    have hqueue : (c.queue ++ [Msg.record r]).length = c.queue.length + 1 := List.length_append ..
    have hsubmitted : (c.submitted ++ (Msg.record r).record?.toList).length =
        c.submitted.length + 1 := List.length_append ..
    refine ⟨h.hungUp, hqueue.trans_le hlt, fun hstop ↦ ?_, ?_⟩
    · rcases List.mem_append.mp hstop with hstop | hstop
      · exact h.stop hstop
      · cases List.mem_singleton.mp hstop
    · have hroom := h.room
      unfold Room at hroom ⊢
      dsimp only
      rw [hqueue, hsubmitted]
      split at hroom
      · trivial
      · trivial
      · exact hroom
      · exact hroom
      · exact absurd hroom.1 Bool.false_ne_true
      · exact absurd hroom.1 Bool.false_ne_true
      · exact absurd hroom Bool.false_ne_true
      · exact absurd hroom.1 Bool.false_ne_true
      · have := hroom.resolve_right fun h ↦ Bool.false_ne_true h.1
        exact Or.inl (by omega)
      · have := hroom.resolve_right fun h ↦ Bool.false_ne_true h.1
        exact Or.inl (by omega)
      · have := hroom.resolve_right fun h ↦ Bool.false_ne_true h.1
        exact Or.inl (by omega)
  · exact h

theorem Backed.send_stop (h : c.Backed options false) {sent : Bool}
    (hsend : c.send options .stop = some (c', sent)) : c'.Backed options true := by
  have hroom := h.room
  obtain ⟨rfl, -, rfl⟩ | ⟨-, hended, rfl⟩ := send_cases hsend
  · have hlt := send_room hsend
    have hqueue : (c.queue ++ [Msg.stop]).length = c.queue.length + 1 := List.length_append ..
    refine ⟨h.hungUp, hqueue.trans_le hlt, fun _ ↦ rfl, ?_⟩
    unfold Room at hroom ⊢
    dsimp only
    rw [hqueue, show c.submitted ++ Msg.stop.record?.toList = c.submitted from List.append_nil _]
    split at hroom
    · trivial
    · trivial
    · exact hroom
    · exact hroom
    · exact absurd hroom.1 Bool.false_ne_true
    · exact absurd hroom.1 Bool.false_ne_true
    · exact absurd hroom Bool.false_ne_true
    · exact absurd hroom.1 Bool.false_ne_true
    · have := hroom.resolve_right fun h ↦ Bool.false_ne_true h.1
      exact Or.inl (by omega)
    · have := hroom.resolve_right fun h ↦ Bool.false_ne_true h.1
      exact Or.inl (by omega)
    · have := hroom.resolve_right fun h ↦ Bool.false_ne_true h.1
      exact Or.inl (by omega)
  · refine ⟨h.hungUp, h.queue, fun _ ↦ rfl, ?_⟩
    unfold Room at hroom ⊢
    rw [hended] at hroom ⊢
    exact hroom.imp_right fun hstopped ↦ absurd hstopped.1 Bool.false_ne_true

/-- **Every step of the writer** keeps it, a failed write too. -/
theorem Backed.advance (h : c.Backed options stopped) (hs : c.Sound)
    (hadvances : Advances codec options c c') : c'.Backed options stopped := by
  have hbatch : options.maxBatch ≤ options.batch := le_max_left _ _
  have hone : 1 ≤ options.batch := le_max_right _ _
  have hqueue := h.queue
  have hroom := h.room
  have hbacklog := h.backlog hs
  have hstage := hs.stage
  unfold Room at hroom
  cases hadvances with
  | receives wal r queue hw hq =>
    rw [hq, List.length_cons] at hqueue
    exact ⟨h.hungUp, by dsimp only; omega,
      fun hstop ↦ h.stop (hq ▸ List.mem_cons_of_mem _ hstop), hone⟩
  | receivesStop wal queue hw hq =>
    rw [hq, List.length_cons] at hqueue
    refine ⟨h.hungUp, by dsimp only; omega,
      fun hstop ↦ h.stop (hq ▸ List.mem_cons_of_mem _ hstop), h.stop (hq ▸ List.mem_cons_self), ?_⟩
    dsimp only
    rw [List.length_nil]
    omega
  | hangsUp wal hw hhung =>
    rw [h.hungUp] at hhung
    cases hhung
  | gathers wal batch r queue hw hmore hq =>
    rw [hq, List.length_cons] at hqueue
    refine ⟨h.hungUp, by dsimp only; omega,
      fun hstop ↦ h.stop (hq ▸ List.mem_cons_of_mem _ hstop), ?_⟩
    show (batch ++ [r]).length ≤ options.batch
    rw [List.length_append, List.length_singleton]
    omega
  | gathersStop wal batch queue hw hq =>
    simp only [Stage, hw] at hstage hroom
    rw [hq, List.length_cons] at hqueue
    refine ⟨h.hungUp, by dsimp only; omega,
      fun hstop ↦ h.stop (hq ▸ List.mem_cons_of_mem _ hstop), h.stop (hq ▸ List.mem_cons_self), ?_⟩
    dsimp only
    rw [hstage.2.synced]
    omega
  | gathered wal batch hw =>
    simp only [Stage, hw] at hstage hroom
    refine ⟨h.hungUp, hqueue, h.stop, ?_⟩
    show c.appended.length + batch.length ≤ c.synced.length + options.batch
    rw [hstage.2.synced]
    omega
  | drains wal leftovers r queue hw hq =>
    simp only [hw] at hroom
    rw [hq, List.length_cons] at hqueue hroom
    refine ⟨h.hungUp, by dsimp only; omega,
      fun hstop ↦ h.stop (hq ▸ List.mem_cons_of_mem _ hstop), hroom.1, ?_⟩
    dsimp only
    rw [List.length_append, List.length_singleton]
    omega
  | drainsStop wal leftovers queue hw hq =>
    simp only [hw] at hroom
    rw [hq, List.length_cons] at hqueue hroom
    refine ⟨h.hungUp, by dsimp only; omega,
      fun hstop ↦ h.stop (hq ▸ List.mem_cons_of_mem _ hstop), hroom.1, ?_⟩
    dsimp only
    omega
  | drained wal leftovers hw hq =>
    simp only [Stage, hw] at hstage hroom
    have hlength := hstage.1.length
    refine ⟨h.hungUp, hqueue, h.stop, ?_⟩
    unfold Room
    dsimp only
    by_cases hnil : leftovers = []
    · rw [if_pos hnil]
      refine Or.inl ?_
      rw [hnil, List.length_nil, ← hstage.2.synced] at hlength
      omega
    · rw [if_neg hnil]
      refine ⟨hroom.1, ?_⟩
      rw [hstage.2.synced]
      omega
  | appends wal wal' r rest after dir hw =>
    simp only [hw] at hroom
    refine ⟨h.hungUp, hqueue, h.stop, ?_⟩
    unfold Room
    dsimp only
    rw [List.length_append, List.length_singleton]
    cases after with
    | receive =>
      simp only [List.length_cons] at hroom
      dsimp only
      omega
    | drain =>
      simp only [List.length_cons] at hroom
      refine ⟨hroom.1, ?_⟩
      omega
    | close =>
      simp only [List.length_cons] at hroom
      refine ⟨hroom.1, ?_⟩
      omega
  | fails wal rest after e dir hw =>
    simp only [Stage, hw] at hstage hroom
    have hlength := hstage.1.length
    refine ⟨h.hungUp, hqueue, h.stop, ?_⟩
    unfold Room
    dsimp only
    cases after with
    | receive => exact Or.inl (by dsimp only at hroom; omega)
    | drain => exact Or.inl (by dsimp only at hroom; omega)
    | close => exact Or.inr ⟨hroom.1, by dsimp only at hroom; omega⟩
  | syncs wal wal' after durable dir hw =>
    simp only [hw] at hroom
    refine ⟨h.hungUp, hqueue, h.stop, ?_⟩
    unfold Room
    dsimp only
    cases after with
    | receive => trivial
    | drain => exact hroom.1
    | close => exact hroom.1
  | publishes wal durable after mark hw =>
    simp only [Stage, hw] at hstage hroom
    have hlength := hstage.1.length
    refine ⟨h.hungUp, hqueue, h.stop, ?_⟩
    unfold Room
    cases after with
    | receive => trivial
    | drain => exact ⟨hroom, (Nat.zero_add _).trans_le hqueue⟩
    | close =>
      refine Or.inl ?_
      dsimp only
      rw [hstage.2.1]
      rw [List.length_nil] at hlength
      omega
  | closes reason mark hw =>
    simp only [hw] at hroom
    exact ⟨h.hungUp, hqueue, h.stop, hroom⟩
  | returns hw =>
    simp only [hw] at hroom
    exact ⟨h.hungUp, hqueue, h.stop, hroom⟩

end CommitThread

end DutchAuction
