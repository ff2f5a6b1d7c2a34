import Mathlib.Data.List.TakeDrop

/-!
# Streams of frames

Records are written to a stream one frame after another and read back by decoding the front of what
is left, until nothing is left or nothing decodes. A decoder does not judge: it finds a record and
says how much of the buffer that consumed, or finds no whole record, or finds something that is
whole and is no record.

The laws of a decoder (`Lawful`) are two: the frame at the front of any buffer is read back, and a
frame cut short is no record. From them a scan of frames reads the records up to the first place
where nothing decodes (`scan_frames`), and a stream cut at any point is a stream of fewer records
with such an end (`take_frames`).

A buffer that was not written as a stream is still read as far as records go, if only every record
takes something (`scan_reads`).
-/

namespace Framing

variable {α β ε : Type*}

/-- What a decode attempt found at the front of a buffer. -/
inductive Decoded (α ε : Type*)
  /-- A record, and the length of its frame. -/
  | record (a : α) (consumed : ℕ)
  /-- No whole record. -/
  | incomplete
  /-- Something whole that is not a record. -/
  | malformed (why : ε)

/-- Read records off the front of a buffer until nothing is left or nothing decodes. Returns them
with the number of unread items, or where something malformed was found. `pos` items have been read
before the buffer; every record takes some, so `fuel` need be no more than the length. -/
def scan (decode : List β → Decoded α ε) : ℕ → ℕ → List β → Except (ℕ × ε) (List α × ℕ)
  | 0, _, buf => .ok ([], buf.length)
  | fuel + 1, pos, buf =>
    if buf = [] then .ok ([], 0)
    else
      match decode buf with
      | .record a consumed =>
        (scan decode fuel (pos + consumed) (buf.drop consumed)).map fun r ↦ (a :: r.1, r.2)
      | .incomplete => .ok ([], buf.length)
      | .malformed why => .error (pos, why)

/-- A tail at which a scan stops without an error. -/
def Ends (decode : List β → Decoded α ε) (tail : List β) : Prop :=
  tail = [] ∨ decode tail = .incomplete

/-- The buffer begins with the frames of these records, and this is behind them. -/
inductive Reads (decode : List β → Decoded α ε) : List β → List α → List β → Prop
  | done (buf : List β) : Reads decode buf [] buf
  | more {buf tail : List β} {a : α} {consumed : ℕ} {as : List α} :
      decode buf = .record a consumed → Reads decode (buf.drop consumed) as tail →
      Reads decode buf (a :: as) tail

/-- **Whatever the buffer holds**, a scan reads the records it begins with, if a record takes
something and no more than there is. It stops without an error behind them, or at something
malformed. -/
theorem scan_reads {decode : List β → Decoded α ε}
    (hprogress : ∀ buf a n, decode buf = .record a n → 0 < n ∧ n ≤ buf.length) {fuel : ℕ}
    {buf : List β} (hfuel : buf.length ≤ fuel) (pos : ℕ) :
    ∃ as tail, Reads decode buf as tail ∧ tail.length ≤ buf.length ∧
      (Ends decode tail ∧ scan decode fuel pos buf = .ok (as, tail.length) ∨
        ∃ why, decode tail = .malformed why ∧
          scan decode fuel pos buf = .error (pos + (buf.length - tail.length), why)) := by
  induction fuel generalizing buf pos with
  | zero =>
    obtain rfl : buf = [] := List.length_eq_zero_iff.mp (Nat.le_zero.mp hfuel)
    exact ⟨[], [], .done [], Nat.le_refl _, Or.inl ⟨Or.inl rfl, rfl⟩⟩
  | succ fuel ih =>
    by_cases hnil : buf = []
    · refine ⟨[], buf, .done buf, Nat.le_refl _, Or.inl ⟨Or.inl hnil, ?_⟩⟩
      rw [scan, if_pos hnil, hnil]
      rfl
    rw [scan, if_neg hnil]
    cases hfound : decode buf with
    | incomplete => exact ⟨[], buf, .done buf, Nat.le_refl _, Or.inl ⟨Or.inr hfound, rfl⟩⟩
    | malformed why =>
      refine ⟨[], buf, .done buf, Nat.le_refl _, Or.inr ⟨why, hfound, ?_⟩⟩
      rw [Nat.sub_self, Nat.add_zero]
    | record a consumed =>
      obtain ⟨hpos, hle⟩ := hprogress buf a consumed hfound
      have hlen : (buf.drop consumed).length = buf.length - consumed := List.length_drop
      have hfuel' : (buf.drop consumed).length ≤ fuel := by omega
      obtain ⟨as, tail, hreads, htail, hstop⟩ := ih hfuel' (pos + consumed)
      refine ⟨a :: as, tail, .more hfound hreads, by omega, ?_⟩
      rcases hstop with ⟨hends, hscan⟩ | ⟨why, hwhy, hscan⟩
      · refine Or.inl ⟨hends, ?_⟩
        dsimp only
        rw [hscan]
        rfl
      · refine Or.inr ⟨why, hwhy, ?_⟩
        dsimp only
        rw [hscan, hlen, show pos + consumed + (buf.length - consumed - tail.length) =
          pos + (buf.length - tail.length) by omega]
        rfl

/-- The laws of a decoder for the frames `frame`. -/
structure Lawful (decode : List β → Decoded α ε) (frame : α → List β) : Prop where
  ne_nil : ∀ a, frame a ≠ []
  /-- A frame is read back from the front of any buffer. -/
  front : ∀ a rest, decode (frame a ++ rest) = .record a (frame a).length
  /-- A frame cut short is no record. -/
  torn : ∀ a l, l <+: frame a → l ≠ frame a → decode l = .incomplete

namespace Lawful

variable {decode : List β → Decoded α ε} {frame : α → List β}

/-- **A scan reads the frames up to the first place where nothing decodes.** -/
theorem scan_frames (h : Lawful decode frame) (as : List α) {tail : List β}
    (htail : Ends decode tail) {fuel : ℕ} (hfuel : (as.flatMap frame ++ tail).length ≤ fuel)
    (pos : ℕ) : scan decode fuel pos (as.flatMap frame ++ tail) = .ok (as, tail.length) := by
  induction as generalizing fuel pos with
  | nil =>
    rw [List.flatMap_nil, List.nil_append] at hfuel ⊢
    cases fuel with
    | zero => rfl
    | succ fuel =>
      rw [scan]
      split_ifs with hnil
      · rw [hnil]
        rfl
      · rw [htail.resolve_left hnil]
  | cons a as ih =>
    have hpos : 0 < (frame a).length := List.length_pos_iff.mpr (h.ne_nil a)
    rw [List.flatMap_cons, List.append_assoc] at hfuel ⊢
    rw [List.length_append] at hfuel
    cases fuel with
    | zero => omega
    | succ fuel =>
      have hne : frame a ++ (as.flatMap frame ++ tail) ≠ [] := fun hnil ↦
        h.ne_nil a (List.append_eq_nil_iff.mp hnil).1
      rw [scan, if_neg hne, h.front]
      dsimp only
      rw [List.drop_left, ih (by omega)]
      rfl

/-- **A stream cut at any point** is a stream of its first `k` records with an end, and keeps every
record whose frame lies before the cut. -/
theorem take_frames (h : Lawful decode frame) (as : List α) (n : ℕ) :
    ∃ k tail, (as.flatMap frame).take n = (as.take k).flatMap frame ++ tail ∧ Ends decode tail ∧
      ∀ bs, bs <+: as → (bs.flatMap frame).length ≤ n → bs <+: as.take k := by
  induction as generalizing n with
  | nil => exact ⟨0, [], by rw [List.flatMap_nil, List.take_nil, List.take_nil]; rfl, Or.inl rfl,
      fun bs hbs _ ↦ by rwa [List.take_nil]⟩
  | cons a as ih =>
    by_cases hcut : n < (frame a).length
    · refine ⟨0, (frame a).take n, ?_, ?_, fun bs hbs hlen ↦ ?_⟩
      · rw [List.flatMap_cons, List.take_append_of_le_length (by omega)]
        rfl
      · refine Or.inr (h.torn a _ (List.take_prefix _ _) fun heq ↦ ?_)
        have hlen := congrArg List.length heq
        rw [List.length_take] at hlen
        omega
      · cases bs with
        | nil => exact List.nil_prefix
        | cons b bs =>
          obtain ⟨rfl, -⟩ := List.cons_prefix_cons.mp hbs
          rw [List.flatMap_cons, List.length_append] at hlen
          omega
    · obtain ⟨k, tail, heq, hend, hmax⟩ := ih (n - (frame a).length)
      refine ⟨k + 1, tail, ?_, hend, fun bs hbs hlen ↦ ?_⟩
      · rw [List.flatMap_cons, List.take_append, List.take_of_length_le (by omega), heq,
          List.take_succ_cons, List.flatMap_cons, List.append_assoc]
      · cases bs with
        | nil => exact List.nil_prefix
        | cons b bs =>
          obtain ⟨rfl, htl⟩ := List.cons_prefix_cons.mp hbs
          rw [List.flatMap_cons, List.length_append] at hlen
          rw [List.take_succ_cons]
          exact List.cons_prefix_cons.mpr ⟨rfl, hmax bs htl (by omega)⟩

end Lawful

end Framing
