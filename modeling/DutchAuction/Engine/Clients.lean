import DutchAuction.Core.Onward
import DutchAuction.Engine.Lives

/-!
# What a client makes of the view and the events

A client subscribes to the events, reads the view, and from then on applies to it the events it
hears. The two come to it by different ways, so it can hear events that the view already reflects;
the number of the view tells them apart. `caught_up` is that this works, whatever the threads do in
between: whenever the ack thread is between two commands and the client has heard all there is to
hear, it shows what the view shows.

It hears the events from a channel that keeps so many of them for it and no more. A client that
falls further behind misses some, and is told so: nothing holds for it but that it has to start
again.

The reason is that the ack thread lets out whole commands, view first (`Whole`). So a view that is
read somewhere in between reflects everything that was broadcast by then.

A client that reads the view again and again, through all lives of the auction, sees it only go on
(`views_go_on`).
-/

namespace DutchAuction

variable {codec : Codec} {config : AuctionConfig} {options : ThreadOptions} {o : Opened} {l : Lives}
  {p p' : Pipeline}

/-! ## Views in all lives

A view shows the scalars of a state, which only go onward inside a life. A life starts from a state
of the log that is no earlier than anything that was published before it. -/

/-- How a view stands to one that is published later. -/
structure View.Before (v w : View) : Prop where
  seq : v.seq < w.seq
  elapsed : v.elapsed ≤ w.elapsed
  stage : v.status.stage ≤ w.status.stage
  supply : w.supplyRemaining ≤ v.supplyRemaining
  /-- The price only falls, but for the clearing. -/
  price : (w.status = .cleared → v.status = .cleared) → w.price ≤ v.price
  /-- An auction that is over is shown as it was. -/
  ended : v.status.isTerminal = true → w.status = v.status ∧
    w.supplyRemaining = v.supplyRemaining ∧ w.clearingPrice = v.clearingPrice

theorem View.before_of {s t : AuctionState} (h : s.Onward t) (hseq : s.lastSeq < t.lastSeq) :
    (View.of s).Before (View.of t) where
  seq := hseq
  elapsed := h.now
  stage := h.stage
  supply := h.supply
  price := h.price
  ended hterm :=
    have hended := h.ended hterm
    ⟨hended.status, hended.supplyRemaining, hended.clearingPrice⟩

/-- The view that is let out, if it is one. -/
def Emission.view? : Emission → Option View
  | .view _ v => some v
  | .event _ _ | .reply _ _ _ => none

def Said.view? : Said → Option View
  | .view _ v => some v
  | .event _ _ | .answer _ _ => none

theorem filterMap_said (told : List Emission) :
    (told.map Emission.said).filterMap Said.view? = told.filterMap Emission.view? := by
  rw [List.filterMap_map]
  refine List.filterMap_congr fun e _ ↦ ?_
  cases e with
  | view seq v => rfl
  | event seq e => rfl
  | reply seq receiver events => rfl

/-- The view of a command, if it did anything. -/
def shown (t : Transition) : Option View := if t.out = [] then none else some (View.of t.post)

theorem filterMap_disclosed (t : Transition) :
    (disclosed t).filterMap Said.view? = (shown t).toList := by
  have hevents : (t.out.map (Said.event t.input.seq) ++ [Said.answer t.input.seq t.out]).filterMap
      Said.view? = [] :=
    List.filterMap_eq_nil_iff.mpr fun x hx ↦ by
      rcases List.mem_append.mp hx with hx | hx
      · obtain ⟨e, -, rfl⟩ := List.mem_map.mp hx
        rfl
      · obtain rfl := List.mem_singleton.mp hx
        rfl
  rw [disclosed, shown, List.filterMap_append, hevents, List.append_nil]
  split_ifs
  · rfl
  · rfl

theorem views_pairwise {tr : List Transition} {s : AuctionState} (hrun : Run config tr s) :
    (tr.filterMap shown).Pairwise View.Before := by
  refine List.pairwise_filterMap.mpr ((run_onward hrun).2.2.imp_of_mem ?_)
  rintro t t' ht ht' ⟨honward, hseq⟩ v hv v' hv'
  rw [shown] at hv hv'
  split_ifs at hv hv'
  obtain rfl := Option.some.inj hv
  obtain rfl := Option.some.inj hv'
  refine View.before_of honward ?_
  rw [step_lastSeq (hrun.split ht).2, step_lastSeq (hrun.split ht').2]
  exact hseq

namespace Lives

/-- **The view only goes on**, through all lives: of any two views that were published, in one life
or in two, the later one has the higher number, and shows no earlier time, no earlier stage, no more
units and, but for the clearing, no higher price; and an auction that was over as it was. -/
theorem views_go_on (hc : codec.Lawful)
    {tr : List (Runs.Transition Lives Move (Option Pipeline.Output))}
    (hrun : Run codec config options tr l) (hcalm : ∀ t ∈ tr, Calm t) :
    (l.told.filterMap Emission.view?).Pairwise View.Before := by
  obtain ⟨⟨appended, synced, hsound⟩, -⟩ := run_sound hc hrun hcalm
  obtain ⟨records, htold⟩ := (hsound.oneHistory hc).told
  have hviews : ((play config records).1.flatMap disclosed).filterMap Said.view? =
      (play config records).1.filterMap shown := by
    rw [List.filterMap_flatMap, List.filterMap_eq_flatMap_toList]
    exact List.flatMap_congr fun t _ ↦ filterMap_disclosed t
  rw [← filterMap_said]
  refine List.Pairwise.sublist (htold.filterMap Said.view?) ?_
  rw [hviews]
  exact views_pairwise (run_play config records)

/-- The auction is opened in one life and cancelled in the next. -/
theorem views_go_on_sample :
    let played := Runs.play (step Bincode.codec (.sample 0) ⟨4, ⟨4, 4⟩, 0, .async⟩) new
      (sampleMoves ++ [.live (.submit ⟨.cancel, none⟩), .live (.engine 9 9 9),
        .live (.engine 9 9 9), .live .hand, .live .hand, .live .hand, .live (.acks false),
        .live (.commit .poll), .live (.commit .lapse), .live (.commit (.write none)),
        .live (.commit (.write none)), .live (.commit .publish), .live (.acks false),
        .live (.acks false), .live (.acks false)])
    (played.2.told.filterMap Emission.view?).length = 2 ∧
      (played.2.told.filterMap Emission.view?).Pairwise View.Before :=
  ⟨by decide +kernel,
    views_go_on Bincode.lawful (Runs.run_play _ _ _) (by decide +kernel)⟩

end Lives

/-! ## Commands are let out whole

The ack thread has one command in hand at a time: it waits, lets out the view, then the events and
the answer, and only then takes up the next. -/

/-- The command that the ack thread waits for. -/
def AckPosition.pending : AckPosition → List Pending
  | .waiting p | .confirming p | .refused p => [p]
  | .receiving | .releasing _ _ | .finished => []

/-- What is left to let out of the command that is being let out. -/
def AckPosition.rest : AckPosition → List Emission
  | .releasing _ rest => rest
  | .receiving | .waiting _ | .confirming _ | .finished | .refused _ => []

/-- The command that the ack thread has not been given. -/
def Handing.pending : Handing → List Pending
  | nothing => []
  | replicating a | logging a | answering a | unlogged a | unanswered a => [a.pending]

/-- Where the commands are on their way out: of the first ones everything is let out, but for what
is left of the last of them; the others wait in their order. -/
structure Pipeline.Whole (p : Pipeline) (done waiting : List Applied) : Prop where
  applied : p.applied = done ++ waiting
  emitted : p.emitted ++ p.acks.position.rest = done.flatMap Applied.emissions
  waiting : waiting.map Applied.pending =
    p.acks.position.pending ++ (p.acks.queue ++ p.handing.pending)

namespace Pipeline

theorem Whole.clear {done waiting : List Applied} (h : p.Whole done waiting) {pending : Pending}
    (hposition : p.acks.position = .confirming pending) (lost : Bool) :
    ∃ done' waiting', Whole { p with
      acks := { p.acks with
        position := .releasing pending pending.emissions
        replicaLost := lost }
      emitted := p.emitted ++ [] } done' waiting' := by
  have hemitted := h.emitted
  have hwaiting := h.waiting
  rw [hposition] at hemitted hwaiting
  obtain ⟨a, rest, rfl, ha, hrest⟩ := List.map_eq_cons_iff.mp hwaiting
  refine ⟨done ++ [a], rest, ⟨?_, ?_, hrest⟩⟩
  · show p.applied = _
    rw [h.applied, List.append_assoc]
    rfl
  · rw [List.flatMap_append, List.flatMap_singleton, ← hemitted, Applied.emissions, ha]
    show (p.emitted ++ []) ++ pending.emissions = (p.emitted ++ []) ++ pending.emissions
    rfl

/-- **One step** keeps the commands whole. -/
theorem Whole.step {done waiting : List Applied} (h : p.Whole done waiting) {move : Move}
    {out : Option Output} (hstep : p.step codec options move = some (p', out)) :
    ∃ done' waiting', p'.Whole done' waiting' := by
  cases step_steps hstep with
  | applied seen anchored stamped engine a hnothing hpasses =>
    refine ⟨done, waiting ++ [a], ⟨?_, h.emitted, ?_⟩⟩
    · rw [h.applied, List.append_assoc]
    · rw [List.map_append, h.waiting, hnothing, Handing.pending, List.append_nil, List.append_assoc]
      rfl
  | replicated a ha =>
    exact ⟨done, waiting, h.applied, h.emitted, h.waiting.trans (by rw [ha]; rfl)⟩
  | logged a commit ha hsend =>
    exact ⟨done, waiting, h.applied, h.emitted, h.waiting.trans (by rw [ha]; rfl)⟩
  | unlogged a ha hended =>
    exact ⟨done, waiting, h.applied, h.emitted, h.waiting.trans (by rw [ha]; rfl)⟩
  | unanswered a ha hended =>
    exact ⟨done, waiting, h.applied, h.emitted, h.waiting.trans (by rw [ha]; rfl)⟩
  | answered a ha hopen =>
    refine ⟨done, waiting, ⟨h.applied, h.emitted, ?_⟩⟩
    rw [h.waiting, ha]
    show _ = p.acks.position.pending ++ ((p.acks.queue ++ [a.pending]) ++ [])
    rw [List.append_nil]
    rfl
  | acked timedOut acks e hsteps =>
    have hemitted := h.emitted
    have hwaiting := h.waiting
    cases hsteps with
    | took pending queue hposition hqueue =>
      rw [hposition] at hemitted hwaiting
      rw [hqueue] at hwaiting
      exact ⟨done, waiting, h.applied, by rwa [Option.toList_none, List.append_nil], hwaiting⟩
    | finished hposition hqueue hhung =>
      rw [hposition] at hemitted hwaiting
      exact ⟨done, waiting, h.applied, by rwa [Option.toList_none, List.append_nil], hwaiting⟩
    | durable pending hposition hwait =>
      rw [hposition] at hemitted hwaiting
      exact ⟨done, waiting, h.applied, by rwa [Option.toList_none, List.append_nil], hwaiting⟩
    | refused pending reason hposition hwait =>
      rw [hposition] at hemitted hwaiting
      exact ⟨done, waiting, h.applied, by rwa [Option.toList_none, List.append_nil], hwaiting⟩
    | cleared pending hposition hconfirmed => exact h.clear hposition p.acks.replicaLost
    | lost pending hposition => exact h.clear hposition true
    | released pending e rest hposition =>
      rw [hposition] at hemitted hwaiting
      refine ⟨done, waiting, h.applied, ?_, hwaiting⟩
      rw [← hemitted, List.append_assoc]
      rfl
    | done pending hposition =>
      rw [hposition] at hemitted hwaiting
      exact ⟨done, waiting, h.applied, by rwa [Option.toList_none, List.append_nil], hwaiting⟩
  | _ => exact ⟨done, waiting, h.applied, h.emitted, h.waiting⟩

theorem run_whole {replicated : Bool} {instant : Instant}
    {tr : List (Runs.Transition Pipeline Move (Option Output))}
    (hrun : Run codec options o replicated instant tr p) : ∃ done waiting, p.Whole done waiting :=
  hrun.invariant (P := fun p : Pipeline ↦ ∃ done waiting, p.Whole done waiting)
    ⟨[], [], rfl, rfl, rfl⟩
    fun _ _ _ _ ⟨_, _, h⟩ hstep ↦ h.step hstep

/-! ## The view -/

/-- What the view says: the last that was published, or the one from the start. -/
def published (o : Opened) (p : Pipeline) : View :=
  (p.emitted.filterMap Emission.view?).getLast?.getD (View.of o.state)

end Pipeline

/-- The view after these commands: the last that was shown, or the one from before. -/
def lastShown (v : View) (tr : List Transition) : View := (tr.filterMap shown).getLast?.getD v

theorem getD_getLast?_append {α : Type*} (a : α) (l l' : List α) :
    (l ++ l').getLast?.getD a = l'.getLast?.getD (l.getLast?.getD a) := by
  rw [List.getLast?_append]
  cases l'.getLast? with
  | none => rfl
  | some b => rfl

theorem lastShown_append (v : View) (tr tr' : List Transition) :
    lastShown v (tr ++ tr') = lastShown (lastShown v tr) tr' := by
  rw [lastShown, List.filterMap_append, getD_getLast?_append]
  rfl

theorem lastShown_quiet (v : View) {t : Transition} (h : t.out = []) : lastShown v [t] = v := by
  rw [lastShown, List.filterMap_cons, shown, if_pos h]
  rfl

theorem lastShown_moved (v : View) {t : Transition} (h : t.out ≠ []) :
    lastShown v [t] = View.of t.post := by
  rw [lastShown, List.filterMap_cons, shown, if_neg h]
  rfl

/-- What a view shows that does not depend on the clock. -/
def View.summary (v : View) : Summary := ⟨v.status, v.supplyRemaining, v.clearingPrice⟩

theorem lastShown_summary {s t : AuctionState} {tr : List Transition} (h : s.Sound)
    (hrun : Runs.Run AuctionState.step s tr t) :
    (lastShown (View.of s) tr).summary = t.summary := by
  have hall := h.summary_run hrun
  induction hrun with
  | nil => rfl
  | @snoc tr u t r events hrun hstep ih =>
    obtain ⟨hu, hsummary⟩ := h.summary_run hrun
    rw [lastShown_append]
    by_cases hout : events = []
    · have hsame := hu.summary_step hstep
      rw [hout] at hsame
      rw [lastShown_quiet _ hout, ih ⟨hu, hsummary⟩]
      exact hsame
    · rw [lastShown_moved _ hout]
      rfl

theorem lastShown_seq {s t : AuctionState} {tr : List Transition} {n : ℕ}
    (hrun : Runs.Run AuctionState.step s tr t)
    (hnum : NumberedFrom n (tr.map Runs.Transition.input))
    (hlast : ∀ m, s.lastSeq = some m → m.val < n) :
    (∀ x ∈ tr, x.out ≠ [] → ∃ m, (lastShown (View.of s) tr).seq = some m ∧ x.input.seq ≤ m) ∧
      ∀ m, (lastShown (View.of s) tr).seq = some m → m.val < n + tr.length := by
  induction hrun with
  | nil => exact ⟨fun x hx ↦ absurd hx List.not_mem_nil, hlast⟩
  | @snoc tr u t r events hrun hstep ih =>
    rw [List.map_append, NumberedFrom.append] at hnum
    obtain ⟨hbelow, hhigh⟩ := ih hnum.1
    have hseq : r.seq.val = n + tr.length := by
      have hfirst := hnum.2.1
      rwa [List.length_map] at hfirst
    rw [lastShown_append, List.length_append, List.length_singleton]
    by_cases hout : events = []
    · rw [lastShown_quiet _ hout]
      refine ⟨fun x hx hx' ↦ ?_, fun m hm ↦ (hhigh m hm).trans (Nat.lt_succ_self _)⟩
      rcases List.mem_append.mp hx with hx | hx
      · exact hbelow x hx hx'
      · obtain rfl := List.mem_singleton.mp hx
        exact absurd hout hx'
    · rw [lastShown_moved _ hout]
      have hview : (View.of t).seq = some r.seq := step_lastSeq hstep
      refine ⟨fun x hx _ ↦ ⟨r.seq, hview, ?_⟩, fun m hm ↦ ?_⟩
      · rcases List.mem_append.mp hx with hx | hx
        · have hle := (hnum.1.le_of_mem (List.mem_map_of_mem hx)).2
          rw [List.length_map] at hle
          exact U64.le_def.mpr (by omega)
        · obtain rfl := List.mem_singleton.mp hx
          exact le_rfl
      · obtain rfl := Option.some.inj (hview.symm.trans hm)
        omega

/-! ## A client -/

/-- The event that is broadcast, if it is one, with its number. -/
def Emission.event? : Emission → Option (Seq × Event)
  | .event seq e => some (seq, e)
  | .view _ _ | .reply _ _ _ => none

/-- A client that read this view hears an event. The view already reflects what is not numbered
above it. -/
def View.hear (v : View) (s : Summary) (heard : Seq × Event) : Summary :=
  if v.seq.any fun seq ↦ heard.1 ≤ seq then s else s.record heard.2

/-- What it shows after all of this. -/
def View.following (v : View) (heard : List (Seq × Event)) : Summary := heard.foldl v.hear v.summary

theorem View.foldl_hear_known {v : View} {heard : List (Seq × Event)}
    (h : ∀ x ∈ heard, ∃ m, v.seq = some m ∧ x.1 ≤ m) (s : Summary) : heard.foldl v.hear s = s := by
  induction heard generalizing s with
  | nil => rfl
  | cons x heard ih =>
    obtain ⟨m, hm, hle⟩ := h x List.mem_cons_self
    have hknown : v.hear s x = s := by
      rw [View.hear, hm, Option.any_some, if_pos (decide_eq_true hle)]
    rw [List.foldl_cons, hknown, ih (fun y hy ↦ h y (List.mem_cons_of_mem _ hy)) s]

theorem View.foldl_hear_new {v : View} {heard : List (Seq × Event)}
    (h : ∀ x ∈ heard, ∀ m, v.seq = some m → m < x.1) (s : Summary) :
    heard.foldl v.hear s = (heard.map Prod.snd).foldl Summary.record s := by
  induction heard generalizing s with
  | nil => rfl
  | cons x heard ih =>
    have hnew : v.hear s x = s.record x.2 := by
      rw [View.hear]
      cases hseq : v.seq with
      | none => rfl
      | some m =>
        have hlt := h x List.mem_cons_self m hseq
        rw [Option.any_some, if_neg (by rw [decide_eq_true_iff]; exact not_le.mpr hlt)]
    rw [List.foldl_cons, hnew, ih (fun y hy ↦ h y (List.mem_cons_of_mem _ hy)) _, List.map_cons,
      List.foldl_cons]

/-! ## The channel of events

The ack thread never waits for a subscriber. What it broadcasts is kept for each of them until they
take it, up to a fixed number; after that the oldest is dropped.
-/

/-- How many events the channel keeps for a subscriber. -/
def EVENTS : ℕ := 16384

/-- A subscriber, and what the channel keeps for it. -/
structure Subscriber where
  queue : List (Seq × Event)
  heard : List (Seq × Event)
  /-- Events were dropped that it had not heard. -/
  lagged : Bool

namespace Subscriber

def new : Subscriber := ⟨[], [], false⟩

/-- An event is broadcast. -/
def send (q : Subscriber) (e : Seq × Event) : Subscriber :=
  if q.queue.length < EVENTS then { q with queue := q.queue ++ [e] }
  else { q with queue := q.queue.tail ++ [e], lagged := true }

/-- It hears the next event, if there is one. -/
def recv (q : Subscriber) : Option Subscriber :=
  match q.queue with
  | [] => none
  | e :: queue => some { q with queue := queue, heard := q.heard ++ [e] }

theorem send_kept {q : Subscriber} {e : Seq × Event} (h : (q.send e).lagged = false) :
    q.lagged = false ∧ (q.send e).heard ++ (q.send e).queue = q.heard ++ q.queue ++ [e] := by
  rw [send] at h ⊢
  split_ifs at h ⊢
  exact ⟨h, (List.append_assoc ..).symm⟩

theorem recv_kept {q q' : Subscriber} (h : q.recv = some q') :
    q'.lagged = q.lagged ∧ q'.heard ++ q'.queue = q.heard ++ q.queue := by
  rw [recv] at h
  split at h
  · cases h
  · rename_i e queue hqueue
    cases h
    refine ⟨rfl, ?_⟩
    rw [hqueue, List.append_assoc]
    rfl

end Subscriber

/-- A process and a client that has subscribed to its events. -/
structure Listening where
  pipeline : Pipeline
  subscriber : Subscriber

namespace Listening

/-- The process makes a move, or the client hears an event. -/
inductive Move
  | live (move : Pipeline.Move)
  | recv

def step (codec : Codec) (options : ThreadOptions) (x : Listening) :
    Move → Option (Listening × Option Pipeline.Output)
  | .live move => (x.pipeline.step codec options move).map fun r ↦
      (⟨r.1, ((r.2.bind Pipeline.Output.emission?).bind Emission.event?).elim x.subscriber
        x.subscriber.send⟩, r.2)
  | .recv => x.subscriber.recv.map fun q ↦ (⟨x.pipeline, q⟩, none)

theorem emissions_snoc (tr : List (Runs.Transition Pipeline Pipeline.Move (Option Pipeline.Output)))
    (t : Runs.Transition Pipeline Pipeline.Move (Option Pipeline.Output)) :
    Pipeline.emissions (tr ++ [t]) =
      Pipeline.emissions tr ++ (t.out.bind Pipeline.Output.emission?).toList := by
  rw [Pipeline.emissions, List.filterMap_append]
  refine congrArg (_ ++ ·) ?_
  rw [List.filterMap_eq_flatMap_toList, List.flatMap_singleton]

theorem filterMap_toList (e : Option Emission) :
    e.toList.filterMap Emission.event? = (e.bind Emission.event?).toList := by
  rw [List.filterMap_eq_flatMap_toList, Option.toList_bind]
  rfl

/-- **What a client hears.** It does not disturb the process, and as long as it has not fallen too
far behind, what it has heard and what is kept for it is all that was broadcast. -/
theorem run_sent {x y : Listening}
    {tr : List (Runs.Transition Listening Move (Option Pipeline.Output))}
    (hrun : Runs.Run (step codec options) x tr y) :
    ∃ tr', Runs.Run (Pipeline.step codec options) x.pipeline tr' y.pipeline ∧
      (y.subscriber.lagged = false → x.subscriber.lagged = false ∧
        y.subscriber.heard ++ y.subscriber.queue = x.subscriber.heard ++ x.subscriber.queue ++
          (Pipeline.emissions tr').filterMap Emission.event?) := by
  induction hrun with
  | nil => exact ⟨[], .nil, fun h ↦ ⟨h, (List.append_nil _).symm⟩⟩
  | @snoc tr y z move out hrun hstep ih =>
    obtain ⟨tr', hrun', hsent⟩ := ih
    cases move with
    | live move =>
      obtain ⟨⟨p, out'⟩, hmove, heq⟩ := Option.map_eq_some_iff.mp hstep
      cases heq
      refine ⟨_, hrun'.snoc hmove, fun hkept ↦ ?_⟩
      rw [emissions_snoc, List.filterMap_append]
      dsimp only at hkept ⊢
      cases hevent : (out'.bind Pipeline.Output.emission?).bind Emission.event? with
      | none =>
        rw [hevent] at hkept
        rw [filterMap_toList, hevent, Option.toList_none, List.append_nil]
        exact hsent hkept
      | some heard =>
        rw [hevent] at hkept
        obtain ⟨hbefore, hall⟩ := Subscriber.send_kept hkept
        rw [filterMap_toList, hevent, Option.toList_some, ← List.append_assoc]
        refine (hsent hbefore).imp_right fun h ↦ hall.trans ?_
        rw [h]
    | recv =>
      obtain ⟨q, hrecv, heq⟩ := Option.map_eq_some_iff.mp hstep
      cases heq
      obtain ⟨hlagged, hsame⟩ := Subscriber.recv_kept hrecv
      exact ⟨tr', hrun', fun hkept ↦ (hsent (hlagged ▸ hkept)).imp_right hsame.trans⟩

end Listening

/-! ## What is let out of the commands

Before the events of a command its view is let out, if it has any events. So whatever has been let
out of some commands, the last view reflects the events that were. -/

theorem Pending.filterMap_view (p : Pending) :
    p.emissions.filterMap Emission.view? = p.view.toList := by
  have hevents : (p.events.map (Emission.event p.seq)).filterMap Emission.view? = [] :=
    List.filterMap_eq_nil_iff.mpr fun x hx ↦ by
      obtain ⟨e, -, rfl⟩ := List.mem_map.mp hx
      rfl
  have hreply : (p.reply.map fun receiver ↦
      Emission.reply p.seq receiver p.events).toList.filterMap Emission.view? = [] := by
    cases p.reply with
    | none => rfl
    | some receiver => rfl
  rw [emissions, List.filterMap_append, List.filterMap_append, hevents, hreply, List.append_nil]
  cases p.view with
  | none => rfl
  | some v => rfl

theorem Pending.filterMap_event (p : Pending) :
    p.emissions.filterMap Emission.event? = p.events.map fun e ↦ (p.seq, e) := by
  have hview : (p.view.map (Emission.view p.seq)).toList.filterMap Emission.event? = [] := by
    cases p.view with
    | none => rfl
    | some v => rfl
  have hreply : (p.reply.map fun receiver ↦
      Emission.reply p.seq receiver p.events).toList.filterMap Emission.event? = [] := by
    cases p.reply with
    | none => rfl
    | some receiver => rfl
  have hevents : (p.events.map (Emission.event p.seq)).filterMap Emission.event? =
      p.events.map fun e ↦ (p.seq, e) := by
    rw [List.filterMap_map, ← List.filterMap_eq_map]
    rfl
  rw [emissions, List.filterMap_append, List.filterMap_append, hview, hreply, hevents,
    List.nil_append, List.append_nil]

theorem Applied.filterMap_view (a : Applied) :
    a.emissions.filterMap Emission.view? = (shown a.transition).toList :=
  a.pending.filterMap_view

/-- The events of a command, with its number. -/
def Applied.heard (a : Applied) : List (Seq × Event) :=
  a.transition.out.map fun e ↦ (a.record.seq, e)

theorem Applied.filterMap_event (a : Applied) :
    a.emissions.filterMap Emission.event? = a.heard :=
  a.pending.filterMap_event

theorem filterMap_event_flatMap (applied : List Applied) :
    (applied.flatMap Applied.emissions).filterMap Emission.event? =
      applied.flatMap Applied.heard := by
  rw [List.filterMap_flatMap]
  exact List.flatMap_congr fun a _ ↦ a.filterMap_event

theorem Applied.reflected (a : Applied) {told : List Emission} (v : View)
    (h : told <+: a.emissions) :
    (∃ w, told.filterMap Emission.view? = [w] ∧ lastShown v [a.transition] = w) ∨
      told.filterMap Emission.view? = [] ∧ told.filterMap Emission.event? = [] := by
  have hviews := h.filterMap Emission.view?
  have hevents := h.filterMap Emission.event?
  rw [a.filterMap_view] at hviews
  rw [a.filterMap_event] at hevents
  by_cases hquiet : a.transition.out = []
  · right
    rw [shown, if_pos hquiet, Option.toList_none, List.prefix_nil] at hviews
    rw [heard, hquiet, List.map_nil, List.prefix_nil] at hevents
    exact ⟨hviews, hevents⟩
  · cases told with
    | nil => exact Or.inr ⟨rfl, rfl⟩
    | cons e told =>
      -- The first thing that is let out is the view.
      have hview : a.pending.view = some (View.of a.transition.post) := if_neg hquiet
      rw [emissions, Pending.emissions, hview] at h
      have h : e :: told <+: .view a.record.seq (View.of a.transition.post) :: _ := h
      obtain ⟨rfl, -⟩ := List.cons_prefix_cons.mp h
      rw [shown, if_neg hquiet, Option.toList_some, List.filterMap_cons, Emission.view?] at hviews
      obtain ⟨-, hnone⟩ := List.cons_prefix_cons.mp hviews
      refine Or.inl ⟨View.of a.transition.post, ?_, lastShown_moved v hquiet⟩
      rw [List.filterMap_cons, Emission.view?, List.prefix_nil.mp hnone]

theorem reflected {applied : List Applied} {told : List Emission} (v : View)
    (h : told <+: applied.flatMap Applied.emissions) :
    ∃ k, (told.filterMap Emission.view?).getLast?.getD v =
        lastShown v ((applied.take k).map Applied.transition) ∧
      told.filterMap Emission.event? <+: (applied.take k).flatMap Applied.heard := by
  induction applied generalizing told v with
  | nil =>
    obtain rfl := List.prefix_nil.mp h
    exact ⟨0, rfl, List.prefix_rfl⟩
  | cons a applied ih =>
    rw [List.flatMap_cons] at h
    rcases List.prefix_or_prefix_of_prefix h (List.prefix_append _ _) with hfront | ⟨more, rfl⟩
    · rcases a.reflected v hfront with ⟨w, hview, hshown⟩ | ⟨hview, hevents⟩
      · refine ⟨1, ?_, ?_⟩
        · rw [hview]
          exact hshown.symm
        · have hall := hfront.filterMap Emission.event?
          rw [a.filterMap_event] at hall
          exact hall.trans (List.prefix_append _ _)
      · exact ⟨0, by rw [hview]; rfl, by rw [hevents]; exact List.nil_prefix⟩
    · obtain ⟨k, hview, hevents⟩ := ih (lastShown v [a.transition])
        ((List.prefix_append_right_inj _).mp h)
      refine ⟨k + 1, ?_, ?_⟩
      · have hfirst : (a.emissions.filterMap Emission.view?).getLast?.getD v =
            lastShown v [a.transition] := by
          rw [a.filterMap_view, lastShown, List.filterMap_eq_flatMap_toList,
            List.flatMap_singleton]
        rw [List.take_succ_cons, List.map_cons, ← List.singleton_append, lastShown_append,
          ← hview, List.filterMap_append, getD_getLast?_append, hfirst]
      · rw [List.take_succ_cons, List.flatMap_cons, List.filterMap_append, a.filterMap_event]
        exact (List.prefix_append_right_inj _).mpr hevents

/-! ## Catching up

The client reads the view after it began to listen, so between the events that the view reflects
and those that the client hears nothing is missing. -/

/-- The state of the auction is one that the machine can be in, and the next command is numbered
above it. -/
structure Opened.Honest (o : Opened) : Prop where
  sound : o.state.Sound
  behind : ∀ m, o.state.lastSeq = some m → m.val < o.nextSeq.val
  aligned : o.Aligned

/-- **What is opened is honest**, whatever happened before. -/
theorem Lives.Sound.honest {appended synced : List LogRecord} {dir : Dir} {segmentBytes : U64}
    (h : l.Sound codec config options.replication appended synced) (hc : codec.Lawful)
    (hphase : l.phase = .down dir)
    (hopen : openInner codec config segmentBytes dir = some (.ok o)) : o.Honest := by
  obtain ⟨o', records, hopen', -, -, ⟨rest, hrest⟩, hreplay, hnext, haligned, -⟩ :=
    h.opens hc hphase segmentBytes
  obtain rfl : o = o' := Except.ok.inj (Option.some.inj (hopen.symm.trans hopen'))
  have hnum := h.numbered
  rw [← hrest, NumberedFrom.append] at hnum
  obtain ⟨tr, hrun, hinputs⟩ := applyAll_run hreplay
  have hrun : DutchAuction.Run config tr o.state := hrun
  refine ⟨(run_onward hrun).1, fun m hm ↦ ?_, haligned⟩
  rcases List.eq_nil_or_concat' tr with rfl | ⟨front, t, rfl⟩
  · rw [hrun.eq_of_nil] at hm
    cases hm
  · have hmem : t ∈ front ++ [t] := List.mem_append_right _ (List.mem_singleton_self t)
    have hlast := step_lastSeq (hrun.split hmem).2
    rw [hrun.last, hm] at hlast
    obtain rfl := Option.some.inj hlast
    have hbound := (hnum.1.le_of_mem (hinputs ▸ List.mem_map_of_mem hmem)).2
    rw [hnext]
    omega

namespace Pipeline

variable {replicated : Bool} {instant : Instant}
  {tr₁ : List (Runs.Transition Pipeline Move (Option Output))} {p₁ : Pipeline}

theorem following_summary (ho : o.Honest) {done : List Applied} {s' : AuctionState}
    (hrun : Runs.Run AuctionState.step o.state (done.map Applied.transition) s')
    (hnum : NumberedFrom o.nextSeq.val (done.map Applied.record))
    {before front heard : List Emission} (hbefore : before <+: front)
    (hfront : front <+: before ++ heard)
    (htold : before ++ heard = done.flatMap Applied.emissions) :
    ((front.filterMap Emission.view?).getLast?.getD (View.of o.state)).following
      (heard.filterMap Emission.event?) = s'.summary := by
  rw [htold] at hfront
  obtain ⟨k, hview, hevents⟩ := reflected (View.of o.state) hfront
  rw [hview]
  -- What was broadcast before the client listened is reflected in the view.
  obtain ⟨missed, hmissed⟩ := (hbefore.filterMap Emission.event?).trans hevents
  have hheard : heard.filterMap Emission.event? =
      missed ++ (done.drop k).flatMap Applied.heard := by
    have hall := congrArg (List.filterMap Emission.event?) htold
    rw [List.filterMap_append, filterMap_event_flatMap, ← List.take_append_drop k done,
      List.flatMap_append, ← hmissed, List.append_assoc] at hall
    exact List.append_cancel_left hall
  rw [← List.take_append_drop k done, List.map_append] at hrun hnum
  rw [NumberedFrom.append] at hnum
  obtain ⟨s, htake, hdrop⟩ := hrun.unappend
  have hinputs : ((done.take k).map Applied.transition).map Runs.Transition.input =
      (done.take k).map Applied.record := List.map_map ..
  obtain ⟨hknown, hhigh⟩ := lastShown_seq htake (by rw [hinputs]; exact hnum.1) ho.behind
  have hskipped : ∀ x ∈ missed, ∃ m, (lastShown (View.of o.state)
      ((done.take k).map Applied.transition)).seq = some m ∧ x.1 ≤ m := by
    intro x hx
    have hx : x ∈ (done.take k).flatMap Applied.heard := hmissed ▸ List.mem_append_right _ hx
    obtain ⟨a, ha, hx⟩ := List.mem_flatMap.mp hx
    obtain ⟨e, he, rfl⟩ := List.mem_map.mp hx
    exact hknown a.transition (List.mem_map_of_mem ha) (List.ne_nil_of_mem he)
  have hread : ∀ x ∈ (done.drop k).flatMap Applied.heard, ∀ m, (lastShown (View.of o.state)
      ((done.take k).map Applied.transition)).seq = some m → m < x.1 := by
    intro x hx m hm
    obtain ⟨a, ha, hx⟩ := List.mem_flatMap.mp hx
    obtain ⟨e, -, rfl⟩ := List.mem_map.mp hx
    have hlow := (hnum.2.le_of_mem (List.mem_map_of_mem ha)).1
    have hbelow := hhigh m hm
    rw [List.length_map] at hlow hbelow
    exact U64.lt_def.mpr (hbelow.trans_le hlow)
  have hout : ((done.drop k).flatMap Applied.heard).map Prod.snd =
      ((done.drop k).map Applied.transition).flatMap fun t ↦ t.out := by
    rw [List.map_flatMap, List.flatMap_map]
    refine List.flatMap_congr fun a _ ↦ ?_
    rw [Applied.heard, List.map_map]
    exact List.map_id _
  rw [View.following, hheard, List.foldl_append, View.foldl_hear_known hskipped,
    View.foldl_hear_new hread, lastShown_summary ho.sound htake, hout]
  exact ((ho.sound.summary_run htake).1.summary_run hdrop).2

theorem published_summary (ho : o.Honest) {done : List Applied} {s' : AuctionState}
    (hrun : Runs.Run AuctionState.step o.state (done.map Applied.transition) s')
    (htold : p.emitted = done.flatMap Applied.emissions) :
    (p.published o).summary = s'.summary := by
  have hpublished : p.published o = lastShown (View.of o.state) (done.map Applied.transition) := by
    rw [published, htold, List.filterMap_flatMap, lastShown, List.filterMap_map,
      List.filterMap_eq_flatMap_toList]
    rw [List.flatMap_congr fun a _ ↦ a.filterMap_view]
    rfl
  rw [hpublished, lastShown_summary ho.sound hrun]

theorem emissions_append (tr tr' : List (Runs.Transition Pipeline Move (Option Output))) :
    emissions (tr ++ tr') = emissions tr ++ emissions tr' := List.filterMap_append

/-- **A client catches up.** In any life of the auction, and however its threads interleave, a
client subscribes, later reads the view, and applies to it every event that it hears and that is
numbered above it. Whenever the ack thread is between two commands, and the client has never fallen
too far behind and has heard what there is to hear, it shows what the view shows. -/
theorem caught_up (hc : codec.Lawful)
    {tr : List (Runs.Transition Lives Lives.Move (Option Output))}
    (hlives : Lives.Run codec config options tr l) (hcalm : ∀ t ∈ tr, Lives.Calm t) {dir : Dir}
    (hdown : l.phase = .down dir) {segmentBytes : U64}
    (hopen : openInner codec config segmentBytes dir = some (.ok o))
    (hsubscribe : Run codec options o replicated instant tr₁ p₁)
    {tr₂ tr₃ : List (Runs.Transition Listening Listening.Move (Option Output))}
    {x₂ x₃ : Listening} (hread : Runs.Run (Listening.step codec options) ⟨p₁, .new⟩ tr₂ x₂)
    (hthen : Runs.Run (Listening.step codec options) x₂ tr₃ x₃)
    (hbetween : x₃.pipeline.acks.position.rest = []) (hkept : x₃.subscriber.lagged = false)
    (hheard : x₃.subscriber.queue = []) :
    (x₂.pipeline.published o).following x₃.subscriber.heard =
      (x₃.pipeline.published o).summary := by
  obtain ⟨⟨appended, synced, hl⟩, -⟩ := Lives.run_sound hc hlives hcalm
  have ho := hl.honest hc hdown hopen
  -- What the pipeline has done while the client listened, and what the client has heard of it.
  obtain ⟨tr₂', hrun₂, hsent₂⟩ := Listening.run_sent hread
  obtain ⟨tr₃', hrun₃, hsent₃⟩ := Listening.run_sent hthen
  obtain ⟨hkept₂, hall⟩ := hsent₃ hkept
  have hheard : x₃.subscriber.heard = (emissions (tr₂' ++ tr₃')).filterMap Emission.event? := by
    rw [hheard, List.append_nil, (hsent₂ hkept₂).2, Subscriber.new] at hall
    rw [hall, emissions_append, List.filterMap_append]
    rfl
  have hrun := (hsubscribe.append hrun₂).append hrun₃
  have hsound : x₃.pipeline.Sound o options.replication := hrun.invariant
    (start_sound ho.aligned replicated instant) fun _ _ _ _ h hstep ↦ h.step hstep
  obtain ⟨done, waiting, hwhole⟩ := run_whole hrun
  have htold := hwhole.emitted
  rw [hbetween, List.append_nil] at htold
  have hhistory := hsound.history
  have hnum := hsound.numbered
  rw [hwhole.applied, List.map_append] at hhistory
  rw [records, hwhole.applied, List.map_append, NumberedFrom.append] at hnum
  obtain ⟨s', hdone, -⟩ := hhistory.unappend
  have hemitted : emissions tr₁ ++ emissions (tr₂' ++ tr₃') = x₃.pipeline.emitted := by
    rw [← emissions_append, ← List.append_assoc, run_emitted hrun]
  have hfront : x₂.pipeline.emitted = emissions tr₁ ++ emissions tr₂' := by
    rw [← emissions_append, run_emitted (hsubscribe.append hrun₂)]
  rw [published_summary ho hdone htold, published, hfront, hheard]
  refine following_summary ho hdone hnum.1 (List.prefix_append _ _) ?_ (hemitted.trans htold)
  rw [emissions_append, ← List.append_assoc]
  exact List.prefix_append _ _

/-- The view that opens the auction is out. -/
def sampleSubscribed : List (Runs.Transition Pipeline Move (Option Output)) × Pipeline :=
  Runs.play (step Bincode.codec ⟨4, ⟨4, 4⟩, 0, .async⟩) (start sampleOpened false 0)
    [.submit ⟨.open, some 0⟩, .engine 0 0 0, .engine 0 0 0, .hand, .hand, .hand, .acks false,
      .commit .poll, .commit .lapse, .commit (.write none), .commit (.write none),
      .commit .publish, .acks false, .acks false, .acks false]

/-- Its event and the answer are out, too. -/
def sampleRead :
    List (Runs.Transition Listening Listening.Move (Option Output)) × Listening :=
  Runs.play (Listening.step Bincode.codec ⟨4, ⟨4, 4⟩, 0, .async⟩) ⟨sampleSubscribed.2, .new⟩
    [.live (.acks false), .live (.acks false), .live (.acks false)]

/-- The auction is cancelled, and the client hears both events. -/
def sampleThen :
    List (Runs.Transition Listening Listening.Move (Option Output)) × Listening :=
  Runs.play (Listening.step Bincode.codec ⟨4, ⟨4, 4⟩, 0, .async⟩) sampleRead.2
    [.live (.submit ⟨.cancel, none⟩), .live (.engine 0 0 0), .live (.engine 0 0 0), .live .hand,
      .live .hand, .recv, .live .hand, .live (.acks false), .live (.commit .poll),
      .live (.commit .lapse), .live (.commit (.write none)), .live (.commit (.write none)),
      .live (.commit .publish), .live (.acks false), .live (.acks false), .live (.acks false),
      .live (.acks false), .live (.acks false), .recv]

theorem caught_up_sample :
    sampleThen.2.subscriber.heard.map Prod.fst = [0, 1] ∧
      (sampleThen.2.pipeline.published sampleOpened).status = .cancelled ∧
      (sampleRead.2.pipeline.published sampleOpened).following sampleThen.2.subscriber.heard =
        (sampleThen.2.pipeline.published sampleOpened).summary := by
  have hopen : openInner Bincode.codec (.sample 0) 4096 Dir.empty = some (.ok sampleOpened) := rfl
  exact ⟨rfl, rfl, caught_up Bincode.lawful Runs.Run.nil (fun t ht ↦ absurd ht List.not_mem_nil) rfl
    hopen (Runs.run_play _ _ _) (Runs.run_play _ _ _) (Runs.run_play _ _ _) rfl rfl rfl⟩

end Pipeline

end DutchAuction
