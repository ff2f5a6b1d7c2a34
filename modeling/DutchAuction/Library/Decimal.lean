import Mathlib.Algebra.Order.Ring.Nat
import Mathlib.Data.List.Basic

/-!
# Decimal numerals of a least width

A number is written with leading zeros up to some width, and with more digits if it needs them. It
is read back whatever the width (`parse_padded`), it has exactly that many digits if it is small
enough (`length_padded_iff`), and then the order of the texts is the order of the numbers
(`padded_lt_iff`).

Reading follows the conventions of a program's parser of unsigned integers: one plus sign may stand
in front, nothing but digits may follow it, and the value has to be below a bound.
-/

namespace Decimal

/-- `n` in decimal, with zeros in front up to `w` digits. -/
def padded (w n : ℕ) : List Char := (Nat.toDigits 10 n).leftpad w '0'

/-- Without a plus sign in front. -/
def unsigned (s : List Char) : List Char := if s.head? = some '+' then s.tail else s

/-- The number below `bound` that these characters are read as. -/
def parse (bound : ℕ) (s : List Char) : Option ℕ :=
  let digits := unsigned s
  if digits ≠ [] ∧ digits.all Char.isDigit ∧ Nat.ofDigitChars 10 digits 0 < bound then
    some (Nat.ofDigitChars 10 digits 0)
  else none

variable {w n m bound : ℕ}

theorem padded_eq (w n : ℕ) :
    padded w n =
      List.replicate (w - (Nat.toDigits 10 n).length) '0' ++ Nat.toDigits 10 n := rfl

theorem isDigit_of_mem_padded {c : Char} (h : c ∈ padded w n) : c.isDigit = true := by
  rcases List.mem_append.mp (padded_eq w n ▸ h) with h | h
  · rw [List.eq_of_mem_replicate h]
    rfl
  · exact Nat.isDigit_of_mem_toDigits (by decide) (by decide) h

theorem ofDigitChars_padded (w n : ℕ) : Nat.ofDigitChars 10 (padded w n) 0 = n := by
  rw [padded_eq, Nat.ofDigitChars_append, Nat.ofDigitChars_replicate_zero, Nat.mul_zero,
    Nat.ofDigitChars_ten_toDigits]

theorem padded_injective (w : ℕ) : Function.Injective (padded w) := fun n m h ↦ by
  rw [← ofDigitChars_padded w n, h, ofDigitChars_padded]

theorem padded_ne_nil (w n : ℕ) : padded w n ≠ [] := by
  rw [padded_eq]
  exact List.append_ne_nil_of_right_ne_nil _ Nat.toDigits_ne_nil

/-- **What is written is read back.** -/
theorem parse_padded (h : n < bound) : parse bound (padded w n) = some n := by
  have hsign : (padded w n).head? ≠ some '+' := fun hhead ↦ by
    have hdigit := isDigit_of_mem_padded (List.mem_of_mem_head? hhead)
    exact absurd hdigit (by decide)
  rw [parse, unsigned, if_neg hsign, ofDigitChars_padded]
  exact if_pos ⟨padded_ne_nil w n, List.all_eq_true.mpr fun c hc ↦ isDigit_of_mem_padded hc, h⟩

/-- **A number has exactly as many digits as it is given, if it is small enough.** -/
theorem length_padded_iff (hw : 0 < w) : (padded w n).length = w ↔ n < 10 ^ w := by
  rw [← Nat.length_toDigits_le_iff (by decide) hw, padded_eq, List.length_append,
    List.length_replicate]
  omega

/-! ## Order -/

theorem digit_lt {c : Char} (h : c.isDigit = true) :
    '0'.toNat ≤ c.toNat ∧ c.toNat - '0'.toNat < 10 := by
  have hbounds := Char.isDigit_iff_toNat.mp h
  have hzero : '0'.toNat = 48 := rfl
  have hnine : '9'.toNat = 57 := rfl
  omega

theorem ofDigitChars_cons (c : Char) (l : List Char) :
    Nat.ofDigitChars 10 (c :: l) 0 =
      10 ^ l.length * (c.toNat - '0'.toNat) + Nat.ofDigitChars 10 l 0 := by
  rw [Nat.ofDigitChars_cons, Nat.ofDigitChars_eq_ofDigitChars_zero, Nat.mul_zero, Nat.zero_add]

theorem ofDigitChars_lt {l : List Char} (h : ∀ c ∈ l, c.isDigit = true) :
    Nat.ofDigitChars 10 l 0 < 10 ^ l.length := by
  induction l with
  | nil => exact Nat.one_pos
  | cons c l ih =>
    have hdigit := (digit_lt (h c List.mem_cons_self)).2
    have hrest := ih fun d hd ↦ h d (List.mem_cons_of_mem c hd)
    have hle := Nat.mul_le_mul_left (10 ^ l.length) (Nat.le_of_lt_succ hdigit)
    rw [ofDigitChars_cons, List.length_cons, Nat.pow_succ]
    omega

theorem lt_between_iff (front back : List Char) {l l' : List Char} (hlen : l.length = l'.length) :
    front ++ (l ++ back) < front ++ (l' ++ back) ↔ l < l' := by
  induction front with
  | nil =>
    rw [List.nil_append, List.nil_append]
    induction l generalizing l' with
    | nil =>
      obtain rfl := List.length_eq_zero_iff.mp hlen.symm
      exact iff_of_false (List.lt_irrefl _) (List.lt_irrefl _)
    | cons c l ih =>
      obtain ⟨d, l', rfl⟩ : ∃ d l'', l' = d :: l'' :=
        List.exists_cons_of_length_pos (by rw [← hlen]; exact Nat.succ_pos _)
      rw [List.cons_append, List.cons_append, List.cons_lt_cons_iff, List.cons_lt_cons_iff,
        ih (Nat.succ.inj hlen)]
  | cons c front ih =>
    rw [List.cons_append, List.cons_append, List.cons_lt_cons_iff, ih]
    exact ⟨fun h ↦ (h.resolve_left (Char.lt_irrefl c)).2, fun h ↦ Or.inr ⟨rfl, h⟩⟩

/-- **Among numerals of one length the order of the characters is the order of the numbers.** -/
theorem lt_iff_of_length_eq {l l' : List Char} (h : ∀ c ∈ l, c.isDigit = true)
    (h' : ∀ c ∈ l', c.isDigit = true) (hlen : l.length = l'.length) :
    l < l' ↔ Nat.ofDigitChars 10 l 0 < Nat.ofDigitChars 10 l' 0 := by
  induction l generalizing l' with
  | nil =>
    obtain rfl := List.length_eq_zero_iff.mp hlen.symm
    exact ⟨fun hlt ↦ absurd hlt (List.lt_irrefl _), fun hlt ↦ absurd hlt (Nat.lt_irrefl _)⟩
  | cons c l ih =>
    obtain ⟨d, l', rfl⟩ : ∃ d l'', l' = d :: l'' :=
      List.exists_cons_of_length_pos (by rw [← hlen]; exact Nat.succ_pos _)
    have hlen := Nat.succ.inj hlen
    have hrest := fun e he ↦ h e (List.mem_cons_of_mem c he)
    have hrest' := fun e he ↦ h' e (List.mem_cons_of_mem d he)
    have hc := digit_lt (h c List.mem_cons_self)
    have hd := digit_lt (h' d List.mem_cons_self)
    have hlt := ofDigitChars_lt hrest
    have hlt' := ofDigitChars_lt hrest'
    rw [List.cons_lt_cons_iff, ih hrest hrest' hlen, ofDigitChars_cons, ofDigitChars_cons, ← hlen]
    rw [← hlen] at hlt'
    rcases Nat.lt_trichotomy c.toNat d.toNat with hcd | hcd | hcd
    · have hstep := Nat.mul_le_mul_left (10 ^ l.length)
        (show c.toNat - '0'.toNat + 1 ≤ d.toNat - '0'.toNat by omega)
      rw [Nat.mul_add] at hstep
      refine ⟨fun _ ↦ by omega, fun _ ↦ Or.inl hcd⟩
    · obtain rfl := Char.toNat_inj.mp hcd
      refine ⟨?_, fun hlt ↦ Or.inr ⟨rfl, by omega⟩⟩
      rintro (hcc | ⟨-, hlt⟩)
      · exact absurd hcc (Char.lt_irrefl c)
      · omega
    · have hstep := Nat.mul_le_mul_left (10 ^ l.length)
        (show d.toNat - '0'.toNat + 1 ≤ c.toNat - '0'.toNat by omega)
      rw [Nat.mul_add] at hstep
      refine ⟨?_, fun hlt ↦ by omega⟩
      rintro (hcd' | ⟨rfl, -⟩)
      · exact absurd (show c.toNat < d.toNat from hcd') (Nat.lt_asymm hcd)
      · exact absurd hcd (Nat.lt_irrefl _)

theorem padded_lt_iff (hw : 0 < w) (hn : n < 10 ^ w) (hm : m < 10 ^ w) :
    padded w n < padded w m ↔ n < m := by
  have hlen : (padded w n).length = (padded w m).length :=
    ((length_padded_iff hw).mpr hn).trans ((length_padded_iff hw).mpr hm).symm
  rw [lt_iff_of_length_eq (fun _ ↦ isDigit_of_mem_padded) (fun _ ↦ isDigit_of_mem_padded) hlen,
    ofDigitChars_padded, ofDigitChars_padded]

end Decimal
