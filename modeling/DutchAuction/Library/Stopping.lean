import Mathlib.Algebra.BigOperators.Group.List.Basic
import Mathlib.Algebra.Order.Ring.Nat
import DutchAuction.Library.Emit

/-!
# Programs that stop

A program that is compiled to stop where its arithmetic leaves the machine's range, or an assertion
fails, is a partial function. Here are the operations of such arithmetic, on numbers and with the
width given (`fits`, `sub`, `div`, `sum`), and the two combinators of `DutchAuction.Library.Emit`
for programs of this kind (`andThen`, `forEach`).

That a program does not stop is shown together with what it computes, as an equation with `some` of
a total function. The rules say that such equations of the parts give one of the whole; a loop needs
an invariant from which the equation of each pass follows (`forEach_eq`). -/

namespace Stopping

/-! ## Arithmetic

These stop where a result does not fit its word, or an index is outside its list. Each comes with
an equation for where it does not stop. -/

/-- The number, if it is a word of this width. -/
def fits (width n : ℕ) : Option ℕ := if n < 2 ^ width then some n else none

/-- The number, if it is a signed word of this width. -/
def fitsSigned (width : ℕ) (x : ℤ) : Option ℤ :=
  if -2 ^ (width - 1) ≤ x ∧ x < 2 ^ (width - 1) then some x else none

/-- Unsigned subtraction. -/
def sub (a b : ℕ) : Option ℕ := if b ≤ a then some (a - b) else none

/-- Division. -/
def div (a b : ℕ) : Option ℕ := if b = 0 then none else some (a / b)

/-- Signed division, toward zero. -/
def tdiv (width : ℕ) (a b : ℤ) : Option ℤ := if b = 0 then none else fitsSigned width (a.tdiv b)

/-- The sum of a list, from the left. -/
def sum (width : ℕ) (l : List ℕ) : Option ℕ := l.foldlM (fun acc n ↦ fits width (acc + n)) 0

/-- The elements from `a` on and before `b`. -/
def slice {α : Type*} (l : List α) (a b : ℕ) : Option (List α) :=
  if a ≤ b ∧ b ≤ l.length then some ((l.drop a).take (b - a)) else none

/-- The list with these elements written over it from `a` on. -/
def overwrite {α : Type*} (l : List α) (a : ℕ) (src : List α) : Option (List α) :=
  if a + src.length ≤ l.length then some (l.take a ++ (src ++ l.drop (a + src.length))) else none

/-- Go on only if this holds. -/
def check (p : Prop) [Decidable p] : Option Unit := if p then some () else none

variable {width n : ℕ} {l : List ℕ}

theorem fits_eq (h : n < 2 ^ width) : fits width n = some n := if_pos h

theorem fitsSigned_eq {x : ℤ} (h : -2 ^ (width - 1) ≤ x) (h' : x < 2 ^ (width - 1)) :
    fitsSigned width x = some x := if_pos ⟨h, h'⟩

theorem sub_eq {a b : ℕ} (h : b ≤ a) : sub a b = some (a - b) := if_pos h

theorem div_eq {a b : ℕ} (h : b ≠ 0) : div a b = some (a / b) := if_neg h

theorem slice_eq {α : Type*} {l : List α} {a b : ℕ} (h : a ≤ b) (h' : b ≤ l.length) :
    slice l a b = some ((l.drop a).take (b - a)) := if_pos ⟨h, h'⟩

theorem overwrite_append {α : Type*} {front old back src : List α} (h : src.length = old.length) :
    overwrite (front ++ (old ++ back)) front.length src = some (front ++ (src ++ back)) := by
  have hfits : front.length + src.length ≤ (front ++ (old ++ back)).length := by
    rw [List.length_append, List.length_append]
    omega
  rw [overwrite, if_pos hfits, List.take_left, h, ← List.drop_drop, List.drop_left, List.drop_left]

theorem check_eq {p : Prop} [Decidable p] (h : p) : check p = some () := if_pos h

theorem sum_eq (h : l.sum < 2 ^ width) : sum width l = some l.sum := by
  have hacc : ∀ acc, acc + l.sum < 2 ^ width →
      l.foldlM (fun acc n ↦ fits width (acc + n)) acc = some (acc + l.sum) := by
    clear h
    induction l with
    | nil => exact fun acc _ ↦ rfl
    | cons n l ih =>
      intro acc h
      rw [List.sum_cons, ← Nat.add_assoc] at h ⊢
      rw [List.foldlM_cons, fits_eq (by omega)]
      exact ih _ h
  rw [sum, hacc 0 (by rwa [Nat.zero_add]), Nat.zero_add]

theorem mapM_eq {α β : Type*} {f : α → Option β} {g : α → β} {l : List α}
    (h : ∀ a ∈ l, f a = some (g a)) : l.mapM f = some (l.map g) := by
  induction l with
  | nil => rfl
  | cons a l ih =>
    rw [List.mapM_cons, h a List.mem_cons_self, ih fun b hb ↦ h b (List.mem_cons_of_mem _ hb)]
    rfl

/-- A function of what may not be there, which can stop where it is. -/
def bindSome {α β : Type*} (f : α → Option (Option β)) : Option α → Option (Option β)
  | none => some none
  | some a => f a

theorem bindSome_eq {α β : Type*} {f : α → Option (Option β)} {g : α → Option β}
    (h : ∀ a, f a = some (g a)) (o : Option α) : bindSome f o = some (o.bind g) := by
  cases o with
  | none => rfl
  | some a => exact h a

/-! ## Sequences and loops -/

variable {σ ε α β : Type*}

/-- One program after another. -/
def andThen (f g : σ → Option (σ × List ε)) (s : σ) : Option (σ × List ε) :=
  (f s).bind fun r ↦ (g r.1).map fun t ↦ (t.1, r.2 ++ t.2)

/-- One program per element, in order. -/
def forEach (f : α → σ → Option (σ × List ε)) : List α → σ → Option (σ × List ε)
  | [], s => some (s, [])
  | a :: as, s => andThen (f a) (forEach f as) s

theorem andThen_eq {f' g' : σ → Option (σ × List ε)} {f g : σ → σ × List ε} {s : σ}
    (hf : f' s = some (f s)) (hg : g' (f s).1 = some (g (f s).1)) :
    andThen f' g' s = some (Emit.andThen f g s) := by
  rw [andThen, hf, Option.bind_some, hg]
  rfl

/-- **The rule for a loop that does not stop.** -/
theorem forEach_eq {f' : α → σ → Option (σ × List ε)} {f : α → σ → σ × List ε}
    {P : List α → σ → Prop}
    (pass : ∀ a as s, P (a :: as) s → f' a s = some (f a s) ∧ P as (f a s).1) {l : List α} {s : σ}
    (h : P l s) : forEach f' l s = some (Emit.forEach f l s) := by
  induction l generalizing s with
  | nil => rfl
  | cons a as ih =>
    obtain ⟨heq, hP⟩ := pass a as s h
    exact andThen_eq heq (ih hP)

theorem forEach_eq_of_mem {f' : α → σ → Option (σ × List ε)} {f : α → σ → σ × List ε} {l : List α}
    (pass : ∀ a ∈ l, ∀ s, f' a s = some (f a s)) (s : σ) :
    forEach f' l s = some (Emit.forEach f l s) := by
  refine forEach_eq (P := fun l _ ↦ ∀ a ∈ l, ∀ s, f' a s = some (f a s)) (fun a as s h ↦ ?_) pass
  exact ⟨h a List.mem_cons_self s, fun b hb ↦ h b (List.mem_cons_of_mem _ hb)⟩

end Stopping
