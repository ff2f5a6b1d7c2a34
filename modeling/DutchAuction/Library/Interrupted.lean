import Mathlib.Data.List.Basic

/-!
# Programs that are killed

A program changes something outside itself by a list of calls. When it is killed, the calls it has
made are made, the one it was in is made in part, and the others never will be.

`Left` is what may be there then. It splits over the list (`left_append`), and what every call and
every part of a call keeps is kept wherever the program is killed (`Left.invariant`).
-/

namespace Interrupted

variable {σ α : Type*}

/-- What a call does, and what it has done when it is cut off at `n`. -/
structure Effect (σ α : Type*) where
  apply : α → σ → σ
  cut : ℕ → α → σ → σ

namespace Effect

variable (e : Effect σ α)

/-- Make all of these calls. -/
def run (calls : List α) (s : σ) : σ := calls.foldl (fun s a ↦ e.apply a s) s

@[simp] theorem run_nil (s : σ) : e.run [] s = s := rfl

@[simp] theorem run_cons (a : α) (calls : List α) (s : σ) :
    e.run (a :: calls) s = e.run calls (e.apply a s) := rfl

theorem run_append (calls calls' : List α) (s : σ) :
    e.run (calls ++ calls') s = e.run calls' (e.run calls s) :=
  List.foldl_append

/-- What may be there once a program is killed that still had these calls to make. -/
inductive Left : List α → σ → σ → Prop
  | before (calls : List α) (s : σ) : Left calls s s
  | inside (n : ℕ) (a : α) (calls : List α) (s : σ) : Left (a :: calls) s (e.cut n a s)
  | behind {a : α} {calls : List α} {s t : σ} :
      Left calls (e.apply a s) t → Left (a :: calls) s t

variable {e} {calls calls' : List α} {s t : σ}

theorem left_nil : e.Left [] s t ↔ t = s := by
  refine ⟨fun h ↦ ?_, fun h ↦ h ▸ Left.before _ _⟩
  cases h
  rfl

theorem Left.run (calls : List α) (s : σ) : e.Left calls s (e.run calls s) := by
  induction calls generalizing s with
  | nil => exact Left.before _ _
  | cons a calls ih => exact (ih _).behind

/-- **A program that makes two lists of calls** is killed in the first or in the second. -/
theorem left_append :
    e.Left (calls ++ calls') s t ↔ e.Left calls s t ∨ e.Left calls' (e.run calls s) t := by
  induction calls generalizing s with
  | nil =>
    rw [List.nil_append, left_nil, run_nil]
    exact ⟨Or.inr, fun h ↦ h.elim (fun h ↦ h ▸ Left.before _ _) id⟩
  | cons a calls ih =>
    rw [List.cons_append, run_cons]
    constructor
    · intro h
      cases h with
      | before => exact Or.inl (Left.before _ _)
      | inside n => exact Or.inl (Left.inside n _ _ _)
      | behind h => exact (ih.mp h).imp Left.behind id
    · rintro (h | h)
      · cases h with
        | before => exact Left.before _ _
        | inside n => exact Left.inside n _ _ _
        | behind h => exact (ih.mpr (Or.inl h)).behind
      · exact (ih.mpr (Or.inr h)).behind

/-- **The rule for a killed program.** What holds before it and is kept by every call and by every
part of one holds of what is left. -/
theorem Left.invariant {P : σ → Prop} (h : e.Left calls s t) (base : P s)
    (apply : ∀ a ∈ calls, ∀ s, P s → P (e.apply a s))
    (cut : ∀ n, ∀ a ∈ calls, ∀ s, P s → P (e.cut n a s)) : P t := by
  induction h with
  | before => exact base
  | inside n a calls s => exact cut n a List.mem_cons_self s base
  | @behind a calls s t _ ih =>
    exact ih (apply a List.mem_cons_self s base)
      (fun a' ha' ↦ apply a' (List.mem_cons_of_mem _ ha'))
      fun n a' ha' ↦ cut n a' (List.mem_cons_of_mem _ ha')

end Effect

end Interrupted
