import Mathlib.Algebra.Order.Ring.Nat
import Mathlib.Data.List.Forall2

/-!
# Runs of a machine that can refuse

A machine is a partial function from a state and an input to the next state and what it put out; it
is undefined where the program stops. A run records every transition it took, so a property of one
transition (what it emitted, what held just before it) and a property of the state reached are both
read off the same object.

`Run.invariant` is the induction every safety property uses, and `Run.split` turns "a transition of
the run" back into "a run followed by a step".
-/

namespace Runs

variable {σ ι ω : Type*}

/-- One transition taken. -/
structure Transition (σ ι ω : Type*) where
  /-- The state it started from. -/
  pre : σ
  /-- The input it consumed. -/
  input : ι
  /-- What it put out. -/
  out : ω
  /-- The state it ended in. -/
  post : σ

/-- The transitions of a run from `init`, oldest first, and the state they lead to. -/
inductive Run (step : σ → ι → Option (σ × ω)) (init : σ) : List (Transition σ ι ω) → σ → Prop
  | nil : Run step init [] init
  | snoc {tr : List (Transition σ ι ω)} {s s' : σ} {i : ι} {o : ω} :
      Run step init tr s → step s i = some (s', o) → Run step init (tr ++ [⟨s, i, o, s'⟩]) s'

namespace Run

variable {step : σ → ι → Option (σ × ω)} {init : σ}

/-- **The run rule.** What holds initially and is kept by every step that a run can take holds of
the state the run reaches. -/
theorem invariant {P : σ → Prop} (base : P init)
    (pres : ∀ s i s' o, P s → step s i = some (s', o) → P s') {tr : List (Transition σ ι ω)}
    {s : σ} (h : Run step init tr s) : P s := by
  induction h with
  | nil => exact base
  | snoc _ hstep ih => exact pres _ _ _ _ ih hstep

theorem invariant_of {P : σ → Prop} {C : Transition σ ι ω → Prop} (base : P init)
    (pres : ∀ s i s' o, P s → step s i = some (s', o) → C ⟨s, i, o, s'⟩ → P s')
    {tr : List (Transition σ ι ω)} {s : σ} (h : Run step init tr s) (hC : ∀ t ∈ tr, C t) : P s := by
  induction h with
  | nil => exact base
  | snoc _ hstep ih =>
    refine pres _ _ _ _ (ih fun t ht ↦ hC t (List.mem_append_left _ ht)) hstep (hC _ ?_)
    exact List.mem_append_right _ (List.mem_singleton_self _)

theorem split {tr : List (Transition σ ι ω)} {s : σ} (h : Run step init tr s)
    {t : Transition σ ι ω} (ht : t ∈ tr) :
    (∃ tr', tr' <+: tr ∧ Run step init tr' t.pre) ∧ step t.pre t.input = some (t.post, t.out) := by
  induction h with
  | nil => exact absurd ht List.not_mem_nil
  | @snoc tr s s' i o hrun hstep ih =>
    rcases List.mem_append.mp ht with ht | ht
    · obtain ⟨⟨tr', hpre, hrun'⟩, hstep'⟩ := ih ht
      exact ⟨⟨tr', hpre.trans (List.prefix_append _ _), hrun'⟩, hstep'⟩
    · obtain rfl := List.mem_singleton.mp ht
      exact ⟨⟨tr, List.prefix_append _ _, hrun⟩, hstep⟩

theorem eq_of_nil {s : σ} (h : Run step init [] s) : s = init := by
  generalize hnil : ([] : List (Transition σ ι ω)) = tr at h
  cases h with
  | nil => rfl
  | snoc => exact absurd hnil.symm (by simp)

theorem append {tr tr' : List (Transition σ ι ω)} {s s' : σ} (h : Run step init tr s)
    (h' : Run step s tr' s') : Run step init (tr ++ tr') s' := by
  induction h' with
  | nil => rwa [List.append_nil]
  | snoc _ hstep ih =>
    rw [← List.append_assoc]
    exact ih.snoc hstep

theorem unappend {tr tr' : List (Transition σ ι ω)} {s : σ} (h : Run step init (tr ++ tr') s) :
    ∃ m, Run step init tr m ∧ Run step m tr' s := by
  generalize heq : tr ++ tr' = whole at h
  induction h generalizing tr' with
  | nil =>
    obtain ⟨rfl, rfl⟩ := List.append_eq_nil_iff.mp heq
    exact ⟨init, Run.nil, Run.nil⟩
  | @snoc front s s' i o hrun hstep ih =>
    rcases List.eq_nil_or_concat' tr' with rfl | ⟨mid, last, rfl⟩
    · rw [List.append_nil] at heq
      exact ⟨s', heq ▸ hrun.snoc hstep, Run.nil⟩
    · rw [← List.append_assoc] at heq
      obtain ⟨hfront, hlast⟩ := List.append_inj' heq rfl
      obtain rfl := (List.cons.inj hlast).1
      obtain ⟨m, hbefore, hafter⟩ := ih hfront
      exact ⟨m, hbefore, hafter.snoc hstep⟩

theorem last {tr : List (Transition σ ι ω)} {t : Transition σ ι ω} {s : σ}
    (h : Run step init (tr ++ [t]) s) : t.post = s := by
  generalize heq : tr ++ [t] = whole at h
  cases h with
  | nil => exact absurd heq (List.append_ne_nil_of_right_ne_nil _ (List.cons_ne_nil _ _))
  | snoc hrun hstep =>
    obtain ⟨-, hlast⟩ := List.append_inj' heq rfl
    rw [(List.cons.inj hlast).1]

theorem history_of {P : σ → Prop} {R : σ → σ → Prop} {C : Transition σ ι ω → Prop}
    (refl : ∀ s, R s s) (trans : ∀ s t u, R s t → R t u → R s u) (base : P init)
    (pres : ∀ s i s' o, P s → step s i = some (s', o) → C ⟨s, i, o, s'⟩ → P s' ∧ R s s')
    {tr : List (Transition σ ι ω)} {s : σ} (h : Run step init tr s) (hC : ∀ t ∈ tr, C t) :
    P s ∧ ∀ t ∈ tr, P t.pre ∧ R t.pre t.post ∧ R t.post s := by
  induction h with
  | nil => exact ⟨base, fun t ht ↦ absurd ht List.not_mem_nil⟩
  | snoc hrun hstep ih =>
    obtain ⟨hP, hpast⟩ := ih fun t ht ↦ hC t (List.mem_append_left _ ht)
    have hlast := hC _ (List.mem_append_right _ (List.mem_singleton_self _))
    obtain ⟨hP', hR⟩ := pres _ _ _ _ hP hstep hlast
    refine ⟨hP', fun t ht ↦ ?_⟩
    rcases List.mem_append.mp ht with ht | ht
    · obtain ⟨hpre, hstep', hsince⟩ := hpast t ht
      exact ⟨hpre, hstep', trans _ _ _ hsince hR⟩
    · obtain rfl := List.mem_singleton.mp ht
      exact ⟨hP, hR, refl _⟩

theorem history {P : σ → Prop} {R : σ → σ → Prop} (refl : ∀ s, R s s)
    (trans : ∀ s t u, R s t → R t u → R s u) (base : P init)
    (pres : ∀ s i s' o, P s → step s i = some (s', o) → P s' ∧ R s s')
    {tr : List (Transition σ ι ω)} {s : σ} (h : Run step init tr s) :
    P s ∧ ∀ t ∈ tr, P t.pre ∧ R t.pre t.post ∧ R t.post s :=
  h.history_of (C := fun _ ↦ True) refl trans base
    (fun s i s' o hs hstep _ ↦ pres s i s' o hs hstep) fun _ _ ↦ trivial

/-- **The potential rule.** If what every step costs and the potential it leaves is paid by the
potential before it and what it brings in, then the whole run costs no more than the potential it
started with and all that was brought in. -/
theorem amortized {P : σ → Prop} {C : Transition σ ι ω → Prop} {potential : σ → ℕ}
    {cost income : Transition σ ι ω → ℕ} (base : P init)
    (pres : ∀ t : Transition σ ι ω, P t.pre → step t.pre t.input = some (t.post, t.out) → C t →
      P t.post ∧ cost t + potential t.post ≤ potential t.pre + income t)
    {tr : List (Transition σ ι ω)} {s : σ} (h : Run step init tr s) (hC : ∀ t ∈ tr, C t) :
    P s ∧ (tr.map cost).sum + potential s ≤ potential init + (tr.map income).sum := by
  induction h with
  | nil => exact ⟨base, by simp⟩
  | @snoc tr s s' i o _ hstep ih =>
    obtain ⟨hP, hpaid⟩ := ih fun t ht ↦ hC t (List.mem_append_left _ ht)
    obtain ⟨hP', hnext⟩ := pres ⟨s, i, o, s'⟩ hP hstep
      (hC _ (List.mem_append_right _ (List.mem_singleton_self _)))
    refine ⟨hP', ?_⟩
    rw [List.map_append, List.map_append, List.sum_append, List.sum_append, List.map_singleton,
      List.map_singleton, List.sum_singleton, List.sum_singleton]
    dsimp only at hnext
    omega

/-- **The rule for two runs over the same inputs.** `P` relates the two starts and the two ends of
every pair of steps on one input; whatever `Q` says of such a pair holds all along. -/
theorem pair {init' : σ} {P : σ → σ → Prop} {C D : Transition σ ι ω → Prop}
    {Q : Transition σ ι ω → Transition σ ι ω → Prop} (base : P init init')
    (pres : ∀ t t' : Transition σ ι ω, P t.pre t'.pre → t.input = t'.input →
      step t.pre t.input = some (t.post, t.out) → step t'.pre t'.input = some (t'.post, t'.out) →
      C t → D t' → P t.post t'.post ∧ Q t t')
    {tr tr' : List (Transition σ ι ω)} {s s' : σ} (h : Run step init tr s)
    (h' : Run step init' tr' s') (hin : tr.map Transition.input = tr'.map Transition.input)
    (hC : ∀ t ∈ tr, C t) (hD : ∀ t ∈ tr', D t) : P s s' ∧ List.Forall₂ Q tr tr' := by
  induction h generalizing tr' s' with
  | nil =>
    cases h' with
    | nil => exact ⟨base, List.Forall₂.nil⟩
    | snoc => exact absurd hin (by simp)
  | @snoc tr s u i o _ hstep ih =>
    cases h' with
    | nil => exact absurd hin (by simp)
    | @snoc tr' v _ i' o' hrun' hstep' =>
      rw [List.map_append, List.map_append] at hin
      obtain ⟨hinit, hlast⟩ := List.append_inj' hin rfl
      obtain ⟨hP, hQ⟩ := ih hrun' hinit (fun t ht ↦ hC t (List.mem_append_left _ ht))
        fun t ht ↦ hD t (List.mem_append_left _ ht)
      have hinput : i = i' := (List.cons.inj hlast).1
      obtain ⟨hP', hQ'⟩ := pres ⟨s, i, o, u⟩ ⟨v, i', o', s'⟩ hP hinput hstep hstep'
        (hC _ (List.mem_append_right _ (List.mem_singleton_self _)))
        (hD _ (List.mem_append_right _ (List.mem_singleton_self _)))
      exact ⟨hP', List.rel_append hQ (List.Forall₂.cons hQ' List.Forall₂.nil)⟩

end Run

/-! ## Executed runs

Inputs that are executed one after another, as long as each can be, give a run, and playing them
again gives the same one. Statements about a run that was executed can be evaluated. -/

/-- Feed inputs to the machine until it refuses one: the transitions taken and the state reached. -/
def play (step : σ → ι → Option (σ × ω)) : σ → List ι → List (Transition σ ι ω) × σ
  | s, [] => ([], s)
  | s, i :: is =>
    match step s i with
    | none => ([], s)
    | some (s', o) => (⟨s, i, o, s'⟩ :: (play step s' is).1, (play step s' is).2)

theorem run_play (step : σ → ι → Option (σ × ω)) (s : σ) (is : List ι) :
    Run step s (play step s is).1 (play step s is).2 := by
  induction is generalizing s with
  | nil => exact Run.nil
  | cons i is ih =>
    rw [play]
    cases hstep : step s i with
    | none => exact Run.nil
    | some r => exact (Run.nil.snoc hstep).append (ih r.1)

variable {step : σ → ι → Option (σ × ω)} {init s : σ} {tr : List (Transition σ ι ω)}

/-- **Played again, the inputs of a run take the same transitions**, and what follows them goes on
from where they lead. -/
theorem Run.play_append (h : Run step init tr s) (is : List ι) :
    play step init (tr.map Transition.input ++ is) =
      (tr ++ (play step s is).1, (play step s is).2) := by
  induction h generalizing is with
  | nil => rfl
  | @snoc tr s s' i o _ hstep ih =>
    have hnext : play step s (i :: is) =
        (⟨s, i, o, s'⟩ :: (play step s' is).1, (play step s' is).2) := by
      rw [play, hstep]
    rw [List.map_append, List.append_assoc, ih, List.map_singleton, List.singleton_append, hnext,
      List.append_assoc]
    rfl

theorem Run.play_eq (h : Run step init tr s) :
    play step init (tr.map Transition.input) = (tr, s) := by
  have happend := h.play_append []
  rwa [List.append_nil, play, List.append_nil] at happend

theorem play_prefix (step : σ → ι → Option (σ × ω)) (s : σ) (is more : List ι) :
    (play step s is).1 <+: (play step s (is ++ more)).1 := by
  induction is generalizing s with
  | nil => exact List.nil_prefix
  | cons i is ih =>
    rw [List.cons_append, play, play]
    cases step s i with
    | none => exact List.prefix_rfl
    | some r => exact (List.prefix_cons_inj _).mpr (ih r.1)

end Runs
