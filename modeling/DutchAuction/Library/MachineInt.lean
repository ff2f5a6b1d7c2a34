import Mathlib.Algebra.Order.Ring.Int
import Mathlib.Order.Lattice
import Mathlib.Tactic.Linarith

/-!
# Machine integers that carry their range

`U64` and `I64` are a number together with the proof that it fits. An out-of-range value cannot be
built, so a statement quantified over `I64` ranges over exactly the values a 64-bit register can
hold, and no range hypothesis is ever needed beside it.

None of the operations wraps. Each is one of the three disciplines a program can ask for
explicitly: *saturating* (`saturate`, the nearest value in range), *checked* (`ofInt?`, `none` when
the result does not fit), or a total operation whose result always fits.

The values are read as `ℕ` and `ℤ` through `val`. Every lemma below pushes `val` inward, after which
a goal is linear arithmetic over the range facts `U64.val_lt`, `I64.neg_le` and `I64.val_lt`.
-/

/-- An unsigned 64-bit integer. -/
structure U64 where
  /-- The number. -/
  val : ℕ
  /-- It fits in 64 bits. -/
  val_lt : val < 2 ^ 64
deriving DecidableEq

/-- A signed 64-bit integer. -/
structure I64 where
  /-- The number. -/
  val : ℤ
  /-- It is at least the least signed value. -/
  neg_le : -2 ^ 63 ≤ val
  /-- It is below `2 ^ 63`. -/
  val_lt : val < 2 ^ 63
deriving DecidableEq

namespace U64

@[ext] theorem ext {a b : U64} (h : a.val = b.val) : a = b := by
  cases a
  cases b
  simp_all

instance : LinearOrder U64 := LinearOrder.lift' U64.val fun _ _ ↦ U64.ext

theorem le_def {a b : U64} : a ≤ b ↔ a.val ≤ b.val := Iff.rfl

theorem lt_def {a b : U64} : a < b ↔ a.val < b.val := Iff.rfl

@[simp] theorem val_max (a b : U64) : (max a b).val = max a.val b.val := by
  rcases le_total a b with h | h
  · rw [max_eq_right h, max_eq_right (le_def.mp h)]
  · rw [max_eq_left h, max_eq_left (le_def.mp h)]

/-- The nearest value in range. -/
def saturate (n : ℕ) : U64 := ⟨min n (2 ^ 64 - 1), by omega⟩

/-- The literal `n`, with the proof that it fits found by evaluation. -/
def lit (n : ℕ) (h : n < 2 ^ 64 := by decide) : U64 := ⟨n, h⟩

instance : Zero U64 := ⟨⟨0, by decide⟩⟩

instance : One U64 := ⟨⟨1, by decide⟩⟩

/-- A numeral. -/
instance (n : ℕ) : OfNat U64 (n + 2) := ⟨saturate (n + 2)⟩

instance : Inhabited U64 := ⟨0⟩

@[simp] theorem val_zero : (0 : U64).val = 0 := rfl

@[simp] theorem val_one : (1 : U64).val = 1 := rfl

@[simp] theorem val_lit (n : ℕ) (h : n < 2 ^ 64) : (lit n h).val = n := rfl

/-- The largest value. -/
def maxValue : U64 := ⟨2 ^ 64 - 1, by decide⟩

@[simp] theorem val_maxValue : maxValue.val = 2 ^ 64 - 1 := rfl

theorem le_maxValue (a : U64) : a ≤ maxValue := by
  have := a.val_lt
  rw [le_def, val_maxValue]
  omega

theorem val_saturate (n : ℕ) : (saturate n).val = min n (2 ^ 64 - 1) := rfl

theorem val_saturate_of_lt {n : ℕ} (h : n < 2 ^ 64) : (saturate n).val = n := by
  rw [val_saturate]
  omega

@[simp] theorem saturate_val (a : U64) : saturate a.val = a := ext (val_saturate_of_lt a.val_lt)

theorem saturate_mono {m n : ℕ} (h : m ≤ n) : saturate m ≤ saturate n := by
  rw [le_def, val_saturate, val_saturate]
  omega

theorem le_saturate {a : U64} {n : ℕ} (h : a.val ≤ n) : a ≤ saturate n := by
  have := a.val_lt
  rw [le_def, val_saturate]
  omega

def saturatingAdd (a b : U64) : U64 := saturate (a.val + b.val)

def saturatingMul (a b : U64) : U64 := saturate (a.val * b.val)

/-- Subtraction that stops at zero. -/
def saturatingSub (a b : U64) : U64 := ⟨a.val - b.val, by have := a.val_lt; omega⟩

@[simp] theorem val_saturatingSub (a b : U64) : (saturatingSub a b).val = a.val - b.val := rfl

/-- Integer division; the result always fits, and division by zero is zero as it is on `ℕ`. -/
def div (a b : U64) : U64 := ⟨a.val / b.val, (Nat.div_le_self _ _).trans_lt a.val_lt⟩

@[simp] theorem val_div (a b : U64) : (div a b).val = a.val / b.val := rfl

/-- The next value, or `none` past the largest. -/
def checkedSucc (a : U64) : Option U64 :=
  if h : a.val + 1 < 2 ^ 64 then some ⟨a.val + 1, h⟩ else none

theorem checkedSucc_eq_some {a b : U64} : a.checkedSucc = some b ↔ b.val = a.val + 1 := by
  unfold checkedSucc
  constructor
  · intro h
    split at h
    · cases h
      rfl
    · cases h
  · intro h
    have hlt : a.val + 1 < 2 ^ 64 := by
      have := b.val_lt
      omega
    rw [dif_pos hlt]
    exact congrArg some (U64.ext h.symm)

/-- The number fits. -/
def InRange (x : ℤ) : Prop := 0 ≤ x ∧ x < 2 ^ 64

-- Decided by constructor: integer comparison would subtract the bound from an unknown number.
instance : DecidablePred InRange
  | .ofNat n => decidable_of_iff (n < 2 ^ 64) (by rw [InRange, Int.ofNat_eq_natCast]; omega)
  | .negSucc n => .isFalse (by unfold InRange; omega)

/-- A number that fits, or `none`. -/
def ofInt? (x : ℤ) : Option U64 :=
  if h : InRange x then some ⟨x.toNat, by unfold InRange at h; omega⟩ else none

theorem val_getD_ofInt? {x : ℤ} (h : 0 ≤ x) :
    (((ofInt? x).getD maxValue).val : ℤ) = min x (2 ^ 64 - 1) := by
  unfold ofInt?
  split_ifs with hx
  · show _ = min x _
    unfold InRange at hx
    simp only [Option.getD_some]
    omega
  · unfold InRange at hx
    rw [Option.getD_none, val_maxValue]
    omega

end U64

namespace I64

@[ext] theorem ext {a b : I64} (h : a.val = b.val) : a = b := by
  cases a
  cases b
  simp_all

instance : LinearOrder I64 := LinearOrder.lift' I64.val fun _ _ ↦ I64.ext

theorem le_def {a b : I64} : a ≤ b ↔ a.val ≤ b.val := Iff.rfl

theorem lt_def {a b : I64} : a < b ↔ a.val < b.val := Iff.rfl

@[simp] theorem val_max (a b : I64) : (max a b).val = max a.val b.val := by
  rcases le_total a b with h | h
  · rw [max_eq_right h, max_eq_right (le_def.mp h)]
  · rw [max_eq_left h, max_eq_left (le_def.mp h)]

@[simp] theorem val_min (a b : I64) : (min a b).val = min a.val b.val := by
  rcases le_total a b with h | h
  · rw [min_eq_left h, min_eq_left (le_def.mp h)]
  · rw [min_eq_right h, min_eq_right (le_def.mp h)]

/-- The nearest value in range. -/
def saturate (x : ℤ) : I64 := ⟨max (-2 ^ 63) (min x (2 ^ 63 - 1)), by omega, by omega⟩

/-- The literal `x`, with the proofs that it fits found by evaluation. -/
def lit (x : ℤ) (h : -2 ^ 63 ≤ x := by decide) (h' : x < 2 ^ 63 := by decide) : I64 := ⟨x, h, h'⟩

instance : Zero I64 := ⟨⟨0, by decide, by decide⟩⟩

/-- A numeral. -/
instance (n : ℕ) : OfNat I64 (n + 2) := ⟨saturate (n + 2)⟩

instance : Inhabited I64 := ⟨0⟩

@[simp] theorem val_zero : (0 : I64).val = 0 := rfl

@[simp] theorem val_lit (x : ℤ) (h : -2 ^ 63 ≤ x) (h' : x < 2 ^ 63) : (lit x h h').val = x := rfl

/-- The largest value. -/
def maxValue : I64 := ⟨2 ^ 63 - 1, by decide, by decide⟩

@[simp] theorem val_maxValue : maxValue.val = 2 ^ 63 - 1 := rfl

theorem val_saturate (x : ℤ) : (saturate x).val = max (-2 ^ 63) (min x (2 ^ 63 - 1)) := rfl

theorem val_saturate_of_mem {x : ℤ} (h : -2 ^ 63 ≤ x) (h' : x < 2 ^ 63) :
    (saturate x).val = x := by
  rw [val_saturate]
  omega

theorem saturate_mono {x y : ℤ} (h : x ≤ y) : saturate x ≤ saturate y := by
  rw [le_def, val_saturate, val_saturate]
  omega

def saturatingAdd (a b : I64) : I64 := saturate (a.val + b.val)

def saturatingSub (a b : I64) : I64 := saturate (a.val - b.val)

def saturatingMul (a b : I64) : I64 := saturate (a.val * b.val)

theorem saturatingSub_anti {a b b' : I64} (h : b ≤ b') : a.saturatingSub b' ≤ a.saturatingSub b :=
  saturate_mono (by have := le_def.mp h; omega)

/-- The number fits. -/
def InRange (x : ℤ) : Prop := -2 ^ 63 ≤ x ∧ x < 2 ^ 63

-- Decided by constructor: integer comparison would subtract the bound from an unknown number.
instance : DecidablePred InRange
  | .ofNat n => decidable_of_iff (n < 2 ^ 63) (by rw [InRange, Int.ofNat_eq_natCast]; omega)
  | .negSucc n => decidable_of_iff (n < 2 ^ 63) (by unfold InRange; omega)

/-- A number that fits, or `none`. -/
def ofInt? (x : ℤ) : Option I64 :=
  if h : InRange x then some ⟨x, h.1, h.2⟩ else none

theorem ofInt?_eq_some {x : ℤ} {a : I64} : ofInt? x = some a ↔ a.val = x := by
  unfold ofInt?
  constructor
  · intro h
    split at h
    · cases h
      rfl
    · cases h
  · rintro rfl
    rw [dif_pos ⟨a.neg_le, a.val_lt⟩]

theorem val_getD_ofInt? {x : ℤ} (h : 0 ≤ x) :
    ((ofInt? x).getD maxValue).val = min x (2 ^ 63 - 1) := by
  unfold ofInt?
  split_ifs with hx
  · show _ = min x _
    unfold InRange at hx
    simp only [Option.getD_some]
    omega
  · unfold InRange at hx
    rw [Option.getD_none, val_maxValue]
    omega

/-- Multiplication, or `none` when the product does not fit. -/
def checkedMul (a b : I64) : Option I64 := ofInt? (a.val * b.val)

/-- The distance between two values, which always fits unsigned. -/
def absDiff (a b : I64) : U64 :=
  ⟨(a.val - b.val).natAbs, by have := a.neg_le; have := a.val_lt; have := b.neg_le;
                              have := b.val_lt; omega⟩

/-- The magnitude, which always fits unsigned. -/
def unsignedAbs (a : I64) : U64 := ⟨a.val.natAbs, by have := a.neg_le; have := a.val_lt; omega⟩

/-- The value pushed into `[lo, hi]`. -/
def clamp (a lo hi : I64) : I64 := max lo (min a hi)

@[simp] theorem val_clamp (a lo hi : I64) :
    (a.clamp lo hi).val = max lo.val (min a.val hi.val) := by
  rw [clamp, val_max, val_min]

theorem clamp_mono {a b : I64} (h : a ≤ b) (lo hi : I64) : a.clamp lo hi ≤ b.clamp lo hi :=
  max_le_max le_rfl (min_le_min h le_rfl)

theorem le_clamp (a lo hi : I64) : lo ≤ a.clamp lo hi := le_max_left _ _

theorem clamp_le {lo hi : I64} (h : lo ≤ hi) (a : I64) : a.clamp lo hi ≤ hi :=
  max_le h (min_le_right _ _)

end I64
