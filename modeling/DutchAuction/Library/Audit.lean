import Mathlib.Data.List.Induction
import DutchAuction.Library.Emit

/-!
# Streams that are permitted entry by entry

A reader keeps a view of a stream and updates it with every entry (`record`). What may come next
depends on the view alone (`permits`). `Permitted` says that every entry of a stream was one that
might come next, as a recursion over the stream; `permitted_iff` is the same said of every entry and
what stands before it.

An invariant of the view and what was read so far follows from what is permitted, with no machine in
sight (`Permitted.invariant`). That a machine permits its own stream is proved for its loops one
pass at a time (`permitted_forEach`).
-/

namespace Audit

variable {β ε σ α : Type*} {record : β → ε → β} {permits : β → ε → Prop}

/-- Every entry is one that may come next, for a reader with view `b`. -/
def Permitted (record : β → ε → β) (permits : β → ε → Prop) : β → List ε → Prop
  | _, [] => True
  | b, e :: es => permits b e ∧ Permitted record permits (record b e) es

@[simp] theorem permitted_nil (b : β) : Permitted record permits b [] := trivial

@[simp] theorem permitted_singleton {b : β} {e : ε} :
    Permitted record permits b [e] ↔ permits b e := and_iff_left trivial

theorem permitted_append {b : β} {l l' : List ε} :
    Permitted record permits b (l ++ l') ↔
      Permitted record permits b l ∧ Permitted record permits (l.foldl record b) l' := by
  induction l generalizing b with
  | nil => exact (and_iff_right trivial).symm
  | cons e l ih =>
    rw [List.cons_append, Permitted, Permitted, ih, List.foldl_cons, and_assoc]

/-- **Every entry is permitted by what stands before it.** -/
theorem permitted_iff {b : β} {l : List ε} :
    Permitted record permits b l ↔
      ∀ before e after, l = before ++ e :: after → permits (before.foldl record b) e := by
  constructor
  · rintro h before e after rfl
    exact (permitted_append.mp h).2.1
  · intro h
    induction l generalizing b with
    | nil => exact trivial
    | cons e l ih =>
      refine ⟨h [] e l rfl, ih fun before e' after heq ↦ ?_⟩
      exact h (e :: before) e' after (congrArg (e :: ·) heq)

/-- **The rule for readers.** What holds of a view and nothing read, and is kept by every entry that
the view permits, holds of whatever was read. -/
theorem Permitted.invariant {I : List ε → β → Prop} {b : β} {l : List ε}
    (h : Permitted record permits b l) (base : I [] b)
    (pres : ∀ read b e, I read b → permits b e → I (read ++ [e]) (record b e)) :
    I l (l.foldl record b) := by
  induction l using List.reverseRecOn with
  | nil => exact base
  | append_singleton l e ih =>
    obtain ⟨hl, he⟩ := permitted_append.mp h
    rw [List.foldl_append]
    exact pres l _ e (ih hl) (permitted_singleton.mp he)

/-- **The rule for what a loop emits.** A loop whose passes are each told to the view, and permitted
by it, is permitted. -/
theorem permitted_forEach {f : α → σ → σ × List ε} (P : List α → σ → Prop) (view : List α → σ → β)
    (pass : ∀ a as s, P (a :: as) s → P as (f a s).1 ∧
      (f a s).2.foldl record (view (a :: as) s) = view as (f a s).1 ∧
      Permitted record permits (view (a :: as) s) (f a s).2) {l : List α} {s : σ} (h : P l s) :
    Permitted record permits (view l s) (Emit.forEach f l s).2 := by
  induction l generalizing s with
  | nil => exact trivial
  | cons a as ih =>
    obtain ⟨hP, hview, hpermitted⟩ := pass a as s h
    rw [Emit.forEach_cons_snd]
    refine permitted_append.mpr ⟨hpermitted, ?_⟩
    rw [hview]
    exact ih hP

end Audit
