import Mathlib.Algebra.Order.Ring.Nat
import Mathlib.Data.List.TakeDrop
import Mathlib.Order.MinMax

/-!
# Serial formats

A format puts a value at the front of a byte string and gets it back off the front of any byte
string that begins with it; the law is a field, so a format that does not read back what it writes
cannot be built. Formats compose: one value after another, and a value through a pair of inverse
maps. Little-endian words of a fixed width are the base.

None of these readers looks ahead (`Steady`), so what was written does not read once it is cut
short. -/

namespace Serial

/-! ## Little-endian words -/

/-- The low `w` bytes of `n`, least significant first. -/
def toLE : ℕ → ℕ → List UInt8
  | 0, _ => []
  | w + 1, n => UInt8.ofNat n :: toLE w (n / 256)

/-- The number whose bytes, least significant first, these are. -/
def ofLE : List UInt8 → ℕ
  | [] => 0
  | b :: bs => b.toNat + 256 * ofLE bs

@[simp] theorem length_toLE (w n : ℕ) : (toLE w n).length = w := by
  induction w generalizing n with
  | zero => rfl
  | succ w ih => rw [toLE, List.length_cons, ih]

theorem ofLE_toLE {w n : ℕ} (h : n < 256 ^ w) : ofLE (toLE w n) = n := by
  induction w generalizing n with
  | zero =>
    rw [Nat.pow_zero, Nat.lt_one_iff] at h
    rw [h]
    rfl
  | succ w ih =>
    rw [Nat.pow_succ, Nat.mul_comm] at h
    rw [toLE, ofLE, ih (Nat.div_lt_of_lt_mul h), UInt8.toNat_ofNat']
    omega

theorem toLE_ofLE (bs : List UInt8) : toLE bs.length (ofLE bs) = bs := by
  induction bs with
  | nil => rfl
  | cons b bs ih =>
    have hb := b.toNat_lt
    have hlow : UInt8.ofNat (b.toNat + 256 * ofLE bs) = b := by
      apply UInt8.toNat_inj.mp
      rw [UInt8.toNat_ofNat']
      omega
    have hhigh : (b.toNat + 256 * ofLE bs) / 256 = ofLE bs := by omega
    rw [ofLE, List.length_cons, toLE, hlow, hhigh, ih]

theorem ofLE_lt (bs : List UInt8) : ofLE bs < 256 ^ bs.length := by
  induction bs with
  | nil => exact Nat.one_pos
  | cons b bs ih =>
    have hb := b.toNat_lt
    rw [ofLE, List.length_cons, Nat.pow_succ]
    omega

/-! ## Formats -/

/-- A way to write values of `α` that can be read back. -/
structure Format (α : Type*) where
  put : α → List UInt8
  get : List UInt8 → Option (α × List UInt8)
  get_put : ∀ a rest, get (put a ++ rest) = some (a, rest)

namespace Format

variable {α β : Type*}

/-- A string of `w` bytes. -/
def bytes (w : ℕ) : Format {bs : List UInt8 // bs.length = w} where
  put bs := bs.val
  get bs :=
    if h : bs.length < w then none
    else some (⟨bs.take w, by rw [List.length_take]; omega⟩, bs.drop w)
  get_put bs rest := by
    have hlen := bs.property
    have hle : ¬(bs.val ++ rest).length < w := by
      rw [List.length_append]
      omega
    have htake : (bs.val ++ rest).take w = bs.val := List.take_left' hlen
    have hdrop : (bs.val ++ rest).drop w = rest := List.drop_left' hlen
    rw [dif_neg hle]
    simp only [htake, hdrop]

/-- A fixed string of bytes. -/
def const (bs : List UInt8) : Format Unit where
  put _ := bs
  get l := if bs.isPrefixOf l then some ((), l.drop bs.length) else none
  get_put _ rest := by
    rw [if_pos (List.isPrefixOf_iff_prefix.mpr (List.prefix_append bs rest)), List.drop_left]

/-- A value written as the one that `make` makes it from. -/
def via (f : Format α) (make : α → β) (split : β → α) (h : ∀ b, make (split b) = b) : Format β where
  put b := f.put (split b)
  get bs := (f.get bs).map fun r ↦ (make r.1, r.2)
  get_put b rest := by rw [f.get_put, Option.map_some, h]

/-- A number below `256 ^ w`, least significant byte first. -/
def le (w : ℕ) : Format {n : ℕ // n < 256 ^ w} :=
  (bytes w).via
    (fun bs ↦ ⟨ofLE bs.val, by
      have h := ofLE_lt bs.val
      rwa [bs.property] at h⟩)
    (fun n ↦ ⟨toLE w n.val, length_toLE w n.val⟩) fun n ↦ Subtype.ext (ofLE_toLE n.property)

/-- A number below `256 ^ w`, most significant byte first. -/
def be (w : ℕ) : Format {n : ℕ // n < 256 ^ w} :=
  (bytes w).via
    (fun bs ↦ ⟨ofLE bs.val.reverse, by
      have h := ofLE_lt bs.val.reverse
      rwa [List.length_reverse, bs.property] at h⟩)
    (fun n ↦ ⟨(toLE w n.val).reverse, by rw [List.length_reverse, length_toLE]⟩)
    fun n ↦ Subtype.ext (by
      show ofLE (toLE w n.val).reverse.reverse = n.val
      rw [List.reverse_reverse, ofLE_toLE n.property])

/-- One value after another. -/
def pair (f : Format α) (g : Format β) : Format (α × β) where
  put p := f.put p.1 ++ g.put p.2
  get bs := (f.get bs).bind fun r ↦ (g.get r.2).map fun r' ↦ ((r.1, r'.1), r'.2)
  get_put p rest := by
    rw [List.append_assoc, f.get_put, Option.bind_some, g.get_put]
    rfl

end Format

/-! ## Steady readers

A reader that takes its bytes one after another does not look ahead, so what it has read stays so,
whatever follows. What was written then does not read once it is cut short: if a first part of it
did, so would the whole, with something left over. -/

/-- What is read stays so, whatever follows. -/
def Steady {α : Type*} (get : List UInt8 → Option (α × List UInt8)) : Prop :=
  ∀ bs more a rest, get bs = some (a, rest) → get (bs ++ more) = some (a, rest ++ more)

section Steady

variable {α β : Type*} {get : List UInt8 → Option (α × List UInt8)}

/-- **A first part of what is read to its end does not read.** -/
theorem Steady.eq_none_of_cut (h : Steady get) {bs front : List UInt8} {a : α}
    (hget : get bs = some (a, [])) (hfront : front <+: bs) (hne : front ≠ bs) :
    get front = none := by
  obtain ⟨more, rfl⟩ := hfront
  cases hread : get front with
  | none => rfl
  | some r =>
    have hwhole := h front more r.1 r.2 hread
    rw [hget] at hwhole
    have hmore := List.append_eq_nil_iff.mp (Prod.mk.inj (Option.some.inj hwhole)).2.symm
    exact absurd (by rw [hmore.2, List.append_nil]) hne

theorem steady_some (a : α) : Steady fun bs ↦ some (a, bs) := by
  intro bs more b rest h
  cases h
  rfl

theorem steady_none : Steady fun _ ↦ (none : Option (α × List UInt8)) :=
  fun _ _ _ _ h ↦ absurd h (Option.some_ne_none _).symm

theorem Steady.map (h : Steady get) (f : α → β) :
    Steady fun bs ↦ (get bs).map fun r ↦ (f r.1, r.2) := by
  intro bs more b rest hread
  obtain ⟨⟨a, rest'⟩, hget, heq⟩ := Option.map_eq_some_iff.mp hread
  obtain ⟨rfl, rfl⟩ := Prod.mk.inj heq
  dsimp only
  rw [h bs more a rest' hget, Option.map_some]

theorem Steady.bind (h : Steady get) {next : α × List UInt8 → Option (β × List UInt8)}
    (hnext : ∀ a, Steady fun bs ↦ next (a, bs)) : Steady fun bs ↦ (get bs).bind next := by
  intro bs more b rest hread
  obtain ⟨⟨a, rest'⟩, hget, hthen⟩ := Option.bind_eq_some_iff.mp hread
  dsimp only
  rw [h bs more a rest' hget, Option.bind_some]
  exact hnext a rest' more b rest hthen

theorem steady_bytes (w : ℕ) : Steady (Format.bytes w).get := by
  intro bs more a rest hread
  dsimp only [Format.bytes] at hread ⊢
  split at hread
  · cases hread
  · rename_i hlen
    have hle : w ≤ bs.length := Nat.le_of_not_lt hlen
    cases hread
    rw [dif_neg (by rw [List.length_append]; omega)]
    simp only [List.take_append_of_le_length hle, List.drop_append_of_le_length hle]

theorem steady_const (bs : List UInt8) : Steady (Format.const bs).get := by
  intro l more a rest hread
  dsimp only [Format.const] at hread ⊢
  split at hread
  · rename_i hfront
    have hle := List.isPrefixOf_iff_prefix.mp hfront
    cases hread
    rw [if_pos (List.isPrefixOf_iff_prefix.mpr (hle.trans (List.prefix_append l more))),
      List.drop_append_of_le_length hle.length_le]
  · cases hread

theorem steady_via {f : Format α} (h : Steady f.get) (make : α → β) (split : β → α)
    (hsplit : ∀ b, make (split b) = b) : Steady (f.via make split hsplit).get := h.map make

theorem steady_le (w : ℕ) : Steady (Format.le w).get := steady_via (steady_bytes w) _ _ _

theorem steady_be (w : ℕ) : Steady (Format.be w).get := steady_via (steady_bytes w) _ _ _

theorem steady_pair {f : Format α} {g : Format β} (hf : Steady f.get) (hg : Steady g.get) :
    Steady (f.pair g).get := hf.bind fun a ↦ hg.map (Prod.mk a)

end Steady

end Serial
