import DutchAuction.Library.Serial
import Mathlib.Logic.Function.Iterate

/-!
# Cyclic redundancy checks

A check register takes a message bit by bit and divides it by a polynomial, in the reflected form:
the low bit goes out first. If the top bit of the polynomial is set, the bit that goes out can be
read off what is left, so a step can be undone (`shift_agree`) and a register forgets nothing. Two
messages of one length that differ only within as many consecutive bits as the register has leave
different registers behind (`run_ne_of_burst`).

A word of bits may also be put in at once and the register shifted afterwards
(`run_eq_iterate_shift`).

What a user needs of a checksum of four bytes does not mention registers: what is followed by its
checksum is not turned into something else that is followed by its own within 32 consecutive bits
(`DetectsBursts`).
-/

namespace Crc

/-- Two messages differ, and only within `n` consecutive bits. -/
def Burst (n : ℕ) (bits bits' : List Bool) : Prop :=
  ∃ front w w' back, bits = front ++ (w ++ back) ∧ bits' = front ++ (w' ++ back) ∧
    w.length = w'.length ∧ w.length ≤ n ∧ w ≠ w'

theorem Burst.length_eq {n : ℕ} {bits bits' : List Bool} (h : Burst n bits bits') :
    bits.length = bits'.length := by
  obtain ⟨front, w, w', back, rfl, rfl, hlen, -, -⟩ := h
  rw [List.length_append, List.length_append, List.length_append, List.length_append, hlen]

theorem Burst.append_right {n : ℕ} {bits bits' : List Bool} (h : Burst n bits bits')
    (more : List Bool) : Burst n (bits ++ more) (bits' ++ more) := by
  obtain ⟨front, w, w', back, rfl, rfl, hlen, hle, hne⟩ := h
  refine ⟨front, w, w', back ++ more, ?_, ?_, hlen, hle, hne⟩
  · rw [List.append_assoc, List.append_assoc]
  · rw [List.append_assoc, List.append_assoc]

/-! ## Bytes

A check takes in the bytes in order, and of each the low bit first. A word of four bytes, least
significant first, then goes in from its low bit to its high one.
-/

/-- The bits of a byte, low bit first. -/
def bitsOf (b : UInt8) : List Bool := (List.range 8).map b.toBitVec.getLsbD

/-- The bits of a byte string, in the order in which a check takes them in. -/
def bits (bytes : List UInt8) : List Bool := bytes.flatMap bitsOf

theorem bits_append (l l' : List UInt8) : bits (l ++ l') = bits l ++ bits l' := List.flatMap_append

@[simp] theorem length_bitsOf (b : UInt8) : (bitsOf b).length = 8 := by
  rw [bitsOf, List.length_map, List.length_range]

theorem length_bits (bytes : List UInt8) : (bits bytes).length = 8 * bytes.length := by
  induction bytes with
  | nil => rfl
  | cons b bytes ih =>
    rw [bits, List.flatMap_cons, List.length_append, length_bitsOf, List.length_cons]
    rw [bits] at ih
    omega

theorem Burst.bytes_length_eq {n : ℕ} {bytes bytes' : List UInt8}
    (h : Burst n (bits bytes) (bits bytes')) : bytes.length = bytes'.length := by
  have heq := h.length_eq
  rw [length_bits, length_bits] at heq
  omega

theorem testBit_ofLE (bytes : List UInt8) (i : ℕ) :
    (Serial.ofLE bytes).testBit i = (bits bytes).getD i false := by
  induction bytes generalizing i with
  | nil => rw [Serial.ofLE, Nat.zero_testBit]; rfl
  | cons b bytes ih =>
    have hbits : bits (b :: bytes) = bitsOf b ++ bits bytes := List.flatMap_cons
    have hsum : Serial.ofLE (b :: bytes) = 2 ^ 8 * Serial.ofLE bytes + b.toNat := Nat.add_comm _ _
    rw [hbits, hsum, Nat.testBit_two_pow_mul_add _ b.toNat_lt, List.getD_eq_getElem?_getD]
    split_ifs with hi
    · rw [List.getElem?_append_left (by rwa [length_bitsOf]), bitsOf, List.getElem?_map,
        List.getElem?_range hi]
      rfl
    · rw [List.getElem?_append_right (by rw [length_bitsOf]; omega), length_bitsOf, ih,
        List.getD_eq_getElem?_getD]

/-! ## Checksums of four bytes

The value of a checksum goes behind the bytes it was computed of, least significant byte first.
What the checksum promises of a burst is then a matter of two lists of bytes, of one length, that
differ within 32 consecutive bits. -/

/-- A message with its checksum behind it. -/
def checked (hash : List UInt8 → UInt32) (bytes : List UInt8) : List UInt8 :=
  bytes ++ Serial.toLE 4 (hash bytes).toNat

/-- No change within 32 consecutive bits, of the message or of the checksum behind it, leaves
another message with its checksum behind it. -/
def DetectsBursts (hash : List UInt8 → UInt32) : Prop :=
  ∀ bytes bytes', ¬Burst 32 (bits (checked hash bytes)) (bits (checked hash bytes'))

theorem length_checked (hash : List UInt8 → UInt32) (bytes : List UInt8) :
    (checked hash bytes).length = bytes.length + 4 := by
  rw [checked, List.length_append, Serial.length_toLE]

theorem DetectsBursts.hash_ne {hash : List UInt8 → UInt32} (h : DetectsBursts hash)
    {bytes bytes' : List UInt8} (hburst : Burst 32 (bits bytes) (bits bytes')) :
    hash bytes ≠ hash bytes' := by
  intro heq
  refine h bytes bytes' ?_
  rw [checked, checked, ← heq, bits_append, bits_append]
  exact hburst.append_right _

/-! ## The register

A register takes in a message bit by bit: a bit is added to its lowest, it is shifted down, and the
polynomial is added if a set bit went out. -/

variable {n : ℕ} (poly : BitVec n)

/-- One bit of the division. -/
def shift (s : BitVec n) : BitVec n := if s.getLsbD 0 then (s >>> 1) ^^^ poly else s >>> 1

/-- Take in one bit. -/
def absorb (s : BitVec n) (b : Bool) : BitVec n := shift poly (s ^^^ (BitVec.ofBool b).setWidth n)

/-- Take in a message. -/
def run (s : BitVec n) (bits : List Bool) : BitVec n := bits.foldl (absorb poly) s

variable {poly} {s s' : BitVec n}

@[simp] theorem run_nil : run poly s [] = s := rfl

@[simp] theorem run_cons (b : Bool) (bits : List Bool) :
    run poly s (b :: bits) = run poly (absorb poly s b) bits := rfl

theorem run_append (bits bits' : List Bool) :
    run poly s (bits ++ bits') = run poly (run poly s bits) bits' := List.foldl_append

/-! ## One step

The polynomial has its top bit set, so the top bit of a register tells which bit went out of the
one before, and a step can be undone. -/

theorem getLsbD_shift (i : ℕ) :
    (shift poly s).getLsbD i = (s.getLsbD (i + 1) ^^ (s.getLsbD 0 && poly.getLsbD i)) := by
  rw [shift]
  cases hlow : s.getLsbD 0 with
  | false =>
    rw [if_neg Bool.false_ne_true, BitVec.getLsbD_ushiftRight, Nat.add_comm, Bool.false_and,
      Bool.xor_false]
  | true =>
    rw [if_pos rfl, BitVec.getLsbD_xor, BitVec.getLsbD_ushiftRight, Nat.add_comm, Bool.true_and]

theorem getLsbD_ofBool (b : Bool) (i : ℕ) (hn : 0 < n) :
    ((BitVec.ofBool b).setWidth n).getLsbD i = (decide (i = 0) && b) := by
  rw [BitVec.getLsbD_setWidth, BitVec.getLsbD_ofBool]
  cases i with
  | zero => simp [hn]
  | succ i => simp

/-- **A step can be undone**, from the top bit down: what the registers behind it share from some
bit on, those before it share from the next, and the bit that went out. -/
theorem shift_agree (hpoly : poly.getLsbD (n - 1) = true) {j : ℕ} (hj : j < n)
    (h : ∀ i, j ≤ i → (shift poly s).getLsbD i = (shift poly s').getLsbD i) :
    s.getLsbD 0 = s'.getLsbD 0 ∧ ∀ i, j + 1 ≤ i → s.getLsbD i = s'.getLsbD i := by
  have hlow : s.getLsbD 0 = s'.getLsbD 0 := by
    have htop := h (n - 1) (by omega)
    rwa [getLsbD_shift, getLsbD_shift, hpoly, Nat.sub_add_cancel (by omega),
      BitVec.getLsbD_of_ge s n (Nat.le_refl n), BitVec.getLsbD_of_ge s' n (Nat.le_refl n),
      Bool.and_true, Bool.and_true, Bool.false_xor, Bool.false_xor] at htop
  refine ⟨hlow, fun i hi ↦ ?_⟩
  obtain ⟨k, rfl⟩ : ∃ k, i = k + 1 := ⟨i - 1, by omega⟩
  have hk := h k (by omega)
  rw [getLsbD_shift, getLsbD_shift, hlow] at hk
  exact Bool.xor_left_inj.mp hk

theorem getLsbD_set (b : Bool) (i : ℕ) (hn : 0 < n) :
    (s ^^^ (BitVec.ofBool b).setWidth n).getLsbD i =
      if i = 0 then (s.getLsbD 0 ^^ b) else s.getLsbD i := by
  rw [BitVec.getLsbD_xor, getLsbD_ofBool b i hn]
  split_ifs with hi
  · rw [hi, decide_eq_true rfl, Bool.true_and]
  · rw [decide_eq_false hi, Bool.false_and, Bool.xor_false]

/-! ## A message

Two messages that leave the same register are gone back over together. What the registers share
gets one bit shorter with each step, so messages that start from one register, and differ within no
more bits than it has, do not differ. -/

theorem run_agree (hpoly : poly.getLsbD (n - 1) = true) {w w' : List Bool}
    (hlen : w.length = w'.length) {j : ℕ} (hj : j + w.length ≤ n)
    (h : ∀ i, j ≤ i → (run poly s w).getLsbD i = (run poly s' w').getLsbD i) :
    (∀ i, j + w.length ≤ i → s.getLsbD i = s'.getLsbD i) ∧ (s = s' → w = w') := by
  induction w generalizing s s' w' with
  | nil =>
    obtain rfl := List.length_eq_zero_iff.mp hlen.symm
    exact ⟨h, fun _ ↦ rfl⟩
  | cons b w ih =>
    obtain ⟨b', w', rfl⟩ : ∃ b' w'', w' = b' :: w'' :=
      List.exists_cons_of_length_pos (by rw [← hlen]; exact Nat.succ_pos _)
    rw [List.length_cons] at hj
    have hn : 0 < n := by omega
    obtain ⟨hshare, hsame⟩ := ih (Nat.succ.inj hlen) (by omega) h
    obtain ⟨hlow, hhigh⟩ := shift_agree hpoly (by omega) hshare
    rw [getLsbD_set b 0 hn, getLsbD_set b' 0 hn, if_pos rfl, if_pos rfl] at hlow
    refine ⟨fun i hi ↦ ?_, fun heq ↦ ?_⟩
    · rw [List.length_cons] at hi
      have hi' := hhigh i (by omega)
      rwa [getLsbD_set b i hn, getLsbD_set b' i hn, if_neg (by omega), if_neg (by omega)] at hi'
    · obtain rfl := heq
      obtain rfl := Bool.xor_right_inj.mp hlow
      rw [hsame rfl]

/-- **A register forgets nothing.** -/
theorem absorb_injective (hpoly : poly.getLsbD (n - 1) = true) {b : Bool}
    (h : absorb poly s b = absorb poly s' b) : s = s' := by
  refine BitVec.eq_of_getLsbD_eq fun i hi ↦ ?_
  obtain ⟨hlow, hhigh⟩ := shift_agree hpoly (j := 0) (by omega) fun i _ ↦
    congrArg (fun s : BitVec n ↦ s.getLsbD i) h
  rw [getLsbD_set b 0 (by omega), getLsbD_set b 0 (by omega), if_pos rfl, if_pos rfl] at hlow
  cases i with
  | zero => exact Bool.xor_left_inj.mp hlow
  | succ i =>
    have hi' := hhigh (i + 1) (by omega)
    rwa [getLsbD_set b _ (by omega), getLsbD_set b _ (by omega), if_neg (by omega),
      if_neg (by omega)] at hi'

theorem run_injective (hpoly : poly.getLsbD (n - 1) = true) {bits : List Bool}
    (h : run poly s bits = run poly s' bits) : s = s' := by
  induction bits generalizing s s' with
  | nil => exact h
  | cons b bits ih => exact absorb_injective hpoly (ih h)

/-- **A burst no longer than the register is noticed.** -/
theorem run_ne_of_burst (hpoly : poly.getLsbD (n - 1) = true) {bits bits' : List Bool}
    (h : Burst n bits bits') : run poly s bits ≠ run poly s bits' := by
  obtain ⟨front, w, w', back, rfl, rfl, hlen, hle, hne⟩ := h
  intro heq
  rw [run_append, run_append, run_append, run_append] at heq
  have hwindow := run_injective hpoly heq
  exact hne ((run_agree hpoly hlen (j := 0) (by omega) fun i _ ↦
    congrArg (fun s : BitVec n ↦ s.getLsbD i) hwindow).2 rfl)

/-! ## A word at once

An implementation adds a whole word and shifts afterwards. What is put in one place up is there
after a step, so both leave the same register. -/

/-- The word whose bits these are, low bit first. -/
def word : List Bool → BitVec n
  | [] => 0#n
  | b :: bits => (BitVec.ofBool b).setWidth n ^^^ (word bits <<< 1)

theorem getLsbD_word (bits : List Bool) (i : ℕ) :
    (word bits : BitVec n).getLsbD i = (decide (i < n) && bits.getD i false) := by
  induction bits generalizing i with
  | nil => simp [word]
  | cons b bits ih =>
    rw [word]
    by_cases hi : i < n
    · rw [BitVec.getLsbD_xor, getLsbD_ofBool b i (by omega), BitVec.getLsbD_shiftLeft, ih]
      cases i with
      | zero => simp [hi]
      | succ i => simp [hi, show i < n by omega]
    · rw [BitVec.getLsbD_of_ge _ _ (Nat.le_of_not_lt hi), decide_eq_false hi, Bool.false_and]

theorem shift_xor_shiftLeft {y : BitVec n} (hy : y.getLsbD (n - 1) = false) :
    shift poly (s ^^^ (y <<< 1)) = shift poly s ^^^ y := by
  refine BitVec.eq_of_getLsbD_eq fun i hi ↦ ?_
  have hzero : (y <<< 1).getLsbD 0 = false := by simp
  have hup : (y <<< 1).getLsbD (i + 1) = y.getLsbD i := by
    rw [BitVec.getLsbD_shiftLeft, Nat.add_sub_cancel]
    by_cases hlast : i + 1 < n
    · simp [hlast]
    · obtain rfl : i = n - 1 := by omega
      rw [hy, Bool.and_false]
  rw [getLsbD_shift, BitVec.getLsbD_xor, BitVec.getLsbD_xor, hzero, hup, Bool.xor_false,
    BitVec.getLsbD_xor, getLsbD_shift]
  cases s.getLsbD (i + 1) <;> cases y.getLsbD i <;> simp

/-- **A word put in at once** and shifted out leaves what its bits leave one by one. -/
theorem run_eq_iterate_shift {bits : List Bool} (hlen : bits.length ≤ n) :
    run poly s bits = (shift poly)^[bits.length] (s ^^^ word bits) := by
  induction bits generalizing s with
  | nil =>
    show s = s ^^^ 0#n
    rw [BitVec.xor_zero]
  | cons b bits ih =>
    rw [List.length_cons] at hlen
    have htop : (word bits : BitVec n).getLsbD (n - 1) = false := by
      rw [getLsbD_word, List.getD_eq_getElem?_getD, List.getElem?_eq_none (by omega),
        Option.getD_none, Bool.and_false]
    rw [run_cons, ih (by omega), List.length_cons, Function.iterate_succ_apply, word,
      ← BitVec.xor_assoc, shift_xor_shiftLeft htop, absorb]

/-- **What checks itself.** A register that takes in itself, but for some bits, is left with what
those bits leave, whatever it held. -/
theorem run_of_word {bits : List Bool} (hlen : bits.length = n) {d : BitVec n}
    (h : word bits = s ^^^ d) : run poly s bits = (shift poly)^[n] d := by
  rw [run_eq_iterate_shift (Nat.le_of_eq hlen), h, ← BitVec.xor_assoc, BitVec.xor_self,
    BitVec.zero_xor, hlen]

/-! ## A register as a checksum

A checksum that is the register of 32 bits, up to a fixed mask, leaves the register with one and the
same value when it is taken in behind its message. A burst would leave another.
-/

theorem word_bits (bytes : List UInt8) :
    (word (bits bytes) : BitVec 32) = BitVec.ofNat 32 (Serial.ofLE bytes) := by
  refine BitVec.eq_of_getLsbD_eq fun i hi ↦ ?_
  rw [getLsbD_word, BitVec.getLsbD_ofNat, testBit_ofLE]

theorem run_checked {poly s d : BitVec 32} {hash : List UInt8 → UInt32} {bytes : List UInt8}
    (h : (hash bytes).toBitVec = run poly s (bits bytes) ^^^ d) :
    run poly s (bits (checked hash bytes)) = (shift poly)^[32] d := by
  rw [checked, bits_append, run_append]
  refine run_of_word (by rw [length_bits, Serial.length_toLE]) ?_
  rw [word_bits, Serial.ofLE_toLE (UInt32.toNat_lt _), ← h]
  exact BitVec.ofNat_toNat .. |>.trans (BitVec.setWidth_eq _)

/-- **A register of 32 bits detects bursts.** -/
theorem detectsBursts_of_run {poly s d : BitVec 32} (hpoly : poly.getLsbD 31 = true)
    {hash : List UInt8 → UInt32}
    (h : ∀ bytes, (hash bytes).toBitVec = run poly s (bits bytes) ^^^ d) :
    DetectsBursts hash := fun bytes bytes' hburst ↦
  run_ne_of_burst (s := s) hpoly hburst
    ((run_checked (h bytes)).trans (run_checked (h bytes')).symm)

end Crc
