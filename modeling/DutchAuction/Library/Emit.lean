import Mathlib.Data.List.Basic

/-!
# Operations that change a state and emit a list

An operation takes a state and returns the next one together with what it emitted, in order. Two
combinators build larger ones: `Emit.andThen` runs one operation after another and concatenates
what they emitted, `Emit.forEach` runs one operation per element of a list.

What is proved about a loop is proved about one pass: `forEach_rel` carries a relation between the
state before and the state after from the start of the loop to its end, `forEach_comp` one between
the state before and the result, and `forEach_foldl` a view of what is emitted.

`Emit.Steps` is the relational counterpart: a finite sequence of steps of a relation, with
everything they emitted. An operation that has been decomposed into such steps inherits every
invariant of one step. -/

namespace Emit

variable {σ ε α β : Type*}

/-- Change nothing and emit nothing. -/
def skip (s : σ) : σ × List ε := (s, [])

/-- One operation after another. -/
def andThen (f g : σ → σ × List ε) (s : σ) : σ × List ε :=
  ((g (f s).1).1, (f s).2 ++ (g (f s).1).2)

@[simp] theorem andThen_fst (f g : σ → σ × List ε) (s : σ) :
    (andThen f g s).1 = (g (f s).1).1 := rfl

@[simp] theorem andThen_snd (f g : σ → σ × List ε) (s : σ) :
    (andThen f g s).2 = (f s).2 ++ (g (f s).1).2 := rfl

/-- One operation per element, in order. -/
def forEach (f : α → σ → σ × List ε) : List α → σ → σ × List ε
  | [], s => (s, [])
  | a :: as, s => andThen (f a) (forEach f as) s

@[simp] theorem forEach_nil (f : α → σ → σ × List ε) (s : σ) : forEach f [] s = (s, []) := rfl

@[simp] theorem forEach_cons_fst (f : α → σ → σ × List ε) (a : α) (as : List α) (s : σ) :
    (forEach f (a :: as) s).1 = (forEach f as (f a s).1).1 := rfl

@[simp] theorem forEach_cons_snd (f : α → σ → σ × List ε) (a : α) (as : List α) (s : σ) :
    (forEach f (a :: as) s).2 = (f a s).2 ++ (forEach f as (f a s).1).2 := rfl

theorem forEach_rel {f : α → σ → σ × List ε} {R : σ → σ → Prop} (refl : ∀ s, R s s)
    (trans : ∀ s t u, R s t → R t u → R s u) (step : ∀ a s, R s (f a s).1) (l : List α) (s : σ) :
    R s (forEach f l s).1 := by
  induction l generalizing s with
  | nil => exact refl s
  | cons a as ih =>
    rw [forEach_cons_fst]
    exact trans _ _ _ (step a s) (ih _)

theorem forEach_comp {f : α → σ → σ × List ε} {M : σ → σ × List ε → Prop} (refl : ∀ s, M s (s, []))
    (comp : ∀ s r r', M s r → M r.1 r' → M s (r'.1, r.2 ++ r'.2)) (step : ∀ a s, M s (f a s))
    (l : List α) (s : σ) : M s (forEach f l s) := by
  induction l generalizing s with
  | nil => exact refl s
  | cons a as ih => exact comp _ _ _ (step a s) (ih _)

theorem forEach_frame {f : α → σ → σ × List ε} (π : σ → β) (step : ∀ a s, π (f a s).1 = π s)
    (l : List α) (s : σ) : π (forEach f l s).1 = π s :=
  forEach_rel (R := fun s t ↦ π t = π s) (fun _ ↦ rfl) (fun _ _ _ h h' ↦ h'.trans h) step l s

theorem forEach_keeps {f : α → σ → σ × List ε} {P : σ → Prop} {l : List α}
    (pass : ∀ a ∈ l, ∀ s, P s → P (f a s).1) {s : σ} (h : P s) : P (forEach f l s).1 := by
  induction l generalizing s with
  | nil => exact h
  | cons a as ih =>
    rw [forEach_cons_fst]
    exact ih (fun b hb ↦ pass b (List.mem_cons_of_mem a hb)) (pass a List.mem_cons_self s h)

/-- **The rule for what a loop emits.** Folded into a view of the state and the elements still to
come, it gives the view of the final state and no elements, if that is so of each pass. -/
theorem forEach_foldl {f : α → σ → σ × List ε} {g : β → ε → β} (P : List α → σ → Prop)
    (view : List α → σ → β)
    (pass : ∀ a as s, P (a :: as) s →
      P as (f a s).1 ∧ (f a s).2.foldl g (view (a :: as) s) = view as (f a s).1) :
    ∀ {l : List α} {s : σ}, P l s →
      (forEach f l s).2.foldl g (view l s) = view [] (forEach f l s).1 := by
  intro l
  induction l with
  | nil =>
    intro s _
    rfl
  | cons a as ih =>
    intro s h
    obtain ⟨hP, hview⟩ := pass a as s h
    rw [forEach_cons_snd, forEach_cons_fst, List.foldl_append, hview]
    exact ih hP

/-- **The rule for two loops in lockstep.** A relation between two states that every pass and its
counterpart keep is kept by the loop over a list and the counterpart's loop over its image. -/
theorem forEach_lockstep {τ : Type*} {f : α → σ → σ × List ε} {g : β → τ → τ × List ε}
    {R : σ → τ → Prop} (φ : α → β) {l : List α}
    (pass : ∀ a ∈ l, ∀ s t, R s t → R (f a s).1 (g (φ a) t).1) {s : σ} {t : τ} (h : R s t) :
    R (forEach f l s).1 (forEach g (l.map φ) t).1 := by
  induction l generalizing s t with
  | nil => exact h
  | cons a as ih =>
    rw [List.map_cons, forEach_cons_fst, forEach_cons_fst]
    exact ih (fun b hb ↦ pass b (List.mem_cons_of_mem a hb)) (pass a List.mem_cons_self s t h)

theorem forEach_same {τ : Type*} {f : α → σ → σ × List ε} {g : α → τ → τ × List ε}
    {R : σ → τ → Prop} {l : List α}
    (pass : ∀ a ∈ l, ∀ s t, R s t → (g a t).2 = (f a s).2 ∧ R (f a s).1 (g a t).1) {s : σ} {t : τ}
    (h : R s t) :
    (forEach g l t).2 = (forEach f l s).2 ∧ R (forEach f l s).1 (forEach g l t).1 := by
  induction l generalizing s t with
  | nil => exact ⟨rfl, h⟩
  | cons a as ih =>
    obtain ⟨hsame, hR⟩ := pass a List.mem_cons_self s t h
    obtain ⟨hrest, hR'⟩ := ih (fun b hb ↦ pass b (List.mem_cons_of_mem a hb)) hR
    rw [forEach_cons_snd, forEach_cons_snd, hsame, hrest]
    exact ⟨rfl, hR'⟩

theorem forEach_snd_eq_flatMap {f : α → σ → σ × List ε} {e : α → List ε}
    (step : ∀ a s, (f a s).2 = e a) (l : List α) (s : σ) : (forEach f l s).2 = l.flatMap e := by
  induction l generalizing s with
  | nil => rfl
  | cons a as ih => rw [forEach_cons_snd, step, ih, List.flatMap_cons]

theorem exists_of_mem_forEach_snd {f : α → σ → σ × List ε} {l : List α} {s : σ} {e : ε}
    (h : e ∈ (forEach f l s).2) : ∃ a ∈ l, ∃ s', e ∈ (f a s').2 := by
  induction l generalizing s with
  | nil => exact absurd h List.not_mem_nil
  | cons a as ih =>
    rw [forEach_cons_snd, List.mem_append] at h
    rcases h with h | h
    · exact ⟨a, List.mem_cons_self, s, h⟩
    · obtain ⟨b, hb, s', he⟩ := ih h
      exact ⟨b, List.mem_cons_of_mem _ hb, s', he⟩

theorem forall_mem_forEach_snd {f : α → σ → σ × List ε} {Q : ε → Prop}
    (step : ∀ a s, ∀ e ∈ (f a s).2, Q e) (l : List α) (s : σ) : ∀ e ∈ (forEach f l s).2, Q e := by
  intro e he
  obtain ⟨a, -, s', he⟩ := exists_of_mem_forEach_snd he
  exact step a s' e he

/-! ## Sequences of steps -/

/-- A finite sequence of steps of `R`, with everything they emit. -/
inductive Steps (R : σ → σ × List ε → Prop) : σ → σ × List ε → Prop
  | refl (s : σ) : Steps R s (s, [])
  | head {s : σ} {r r' : σ × List ε} : R s r → Steps R r.1 r' → Steps R s (r'.1, r.2 ++ r'.2)

namespace Steps

variable {R : σ → σ × List ε → Prop}

theorem single {s : σ} {r : σ × List ε} (h : R s r) : Steps R s r := by
  have h' := head h (refl r.1)
  rwa [List.append_nil] at h'

theorem trans {s : σ} {r r' : σ × List ε} (h : Steps R s r) (h' : Steps R r.1 r') :
    Steps R s (r'.1, r.2 ++ r'.2) := by
  induction h with
  | refl s => exact h'
  | head hstep _ ih =>
    have := head hstep (ih h')
    rwa [← List.append_assoc] at this

theorem andThen {f g : σ → σ × List ε} {s : σ} (hf : Steps R s (f s))
    (hg : Steps R (f s).1 (g (f s).1)) : Steps R s (Emit.andThen f g s) :=
  hf.trans hg

/-- **The rule for sequences.** What every step keeps holds at the end, and what every step
guarantees of its own emissions holds of all of them. -/
theorem invariant {P : σ → Prop} {Q : ε → Prop}
    (step : ∀ s r, P s → R s r → P r.1 ∧ ∀ e ∈ r.2, Q e) {s : σ} {r : σ × List ε}
    (h : Steps R s r) (hs : P s) : P r.1 ∧ ∀ e ∈ r.2, Q e := by
  induction h with
  | refl s => exact ⟨hs, fun e he ↦ absurd he List.not_mem_nil⟩
  | head hstep _ ih =>
    obtain ⟨hP, hQ⟩ := step _ _ hs hstep
    obtain ⟨hP', hQ'⟩ := ih hP
    refine ⟨hP', fun e he ↦ ?_⟩
    rcases List.mem_append.mp he with he | he
    · exact hQ e he
    · exact hQ' e he

/-- **The rule for relations.** A relation between a state and a result that composes as results do
holds across the sequence, if it holds across every step taken from a state where `P` does. -/
theorem rel {P : σ → Prop} {M : σ → σ × List ε → Prop} (refl : ∀ s, M s (s, []))
    (comp : ∀ s r r', M s r → M r.1 r' → M s (r'.1, r.2 ++ r'.2))
    (step : ∀ s r, P s → R s r → P r.1 ∧ M s r) {s : σ} {r : σ × List ε} (h : Steps R s r)
    (hs : P s) : P r.1 ∧ M s r := by
  induction h with
  | refl s => exact ⟨hs, refl s⟩
  | head hstep _ ih =>
    obtain ⟨hP, hM⟩ := step _ _ hs hstep
    obtain ⟨hP', hM'⟩ := ih hP
    exact ⟨hP', comp _ _ _ hM hM'⟩

theorem keeps {P : σ → Prop} (step : ∀ s r, P s → R s r → P r.1) {s : σ} {r : σ × List ε}
    (h : Steps R s r) (hs : P s) : P r.1 :=
  (invariant (Q := fun _ ↦ True) (fun s r hP hr ↦ ⟨step s r hP hr, fun _ _ ↦ trivial⟩) h hs).1

end Steps

end Emit
