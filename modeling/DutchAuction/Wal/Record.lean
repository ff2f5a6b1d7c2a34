import DutchAuction.Core.Run
import DutchAuction.Library.Framing
import DutchAuction.Library.Serial

/-!
# How a record is framed on disk

A frame is a header of eight bytes, the length of the payload and its checksum as little-endian
words, and then the payload. How a record becomes a payload and how a checksum is computed is not
the log's own doing, so both are parameters (`Codec`); what the log relies on is that a payload
reads back, is not empty and is no longer than the largest record (`Codec.Lawful`).

The checksum covers the payload only. A payload that does not match it reads as incomplete, like one
that is cut short (`decode_damaged`): the decoder cannot tell the two apart.
-/

namespace DutchAuction

open Serial (toLE ofLE)

/-! ## Failures -/

/-- The log directory, and the files in it. -/
inductive Path
  | dir
  | manifest
  | segment (index : ℕ)
  | snapshot (seq : Seq)
deriving DecidableEq

/-- Failures the log can produce. -/
inductive WalError
  | encode (detail : String)
  /-- A record failed its checksum somewhere other than the very end of the log. -/
  | corrupt (path : Path) (offset : ℕ) (detail : String)
  /-- The sequence numbers are not gapless. -/
  | sequenceGap (prev found : Seq)
  /-- The directory holds a log for a different auction. -/
  | manifestMismatch (path : Path)
  | noManifest (path : Path)
deriving DecidableEq

/-! ## The frame -/

/-- How a record becomes bytes and back, and how bytes are summed. -/
structure Codec where
  serialize : LogRecord → List UInt8
  /-- The record, or why the bytes are none. -/
  deserialize : List UInt8 → Except String LogRecord
  hash : List UInt8 → UInt32

/-- Size of the fixed frame header, in bytes. -/
def HEADER_LEN : ℕ := 8

/-- The longest payload a reader accepts. -/
def MAX_RECORD_LEN : ℕ := 2 ^ 20

namespace Codec

/-- What the log relies on. -/
structure Lawful (c : Codec) : Prop where
  round_trip : ∀ r, c.deserialize (c.serialize r) = .ok r
  nonempty : ∀ r, 0 < (c.serialize r).length
  bounded : ∀ r, (c.serialize r).length ≤ MAX_RECORD_LEN

variable (c : Codec)

/-- The header of a payload of `len` bytes whose checksum is `crc`. -/
def header (len crc : ℕ) : List UInt8 := toLE 4 len ++ toLE 4 crc

/-- A payload with its header. -/
def framed (payload : List UInt8) : List UInt8 :=
  header payload.length (c.hash payload).toNat ++ payload

/-- The framed encoding of a record. -/
def encode (record : LogRecord) : Except WalError (List UInt8) :=
  let payload := c.serialize record
  if payload.length < 2 ^ 32 then .ok (c.framed payload)
  else .error (.encode s!"record of {payload.length} bytes exceeds the frame length field")

/-- Decode one framed record from the front of `buf`. -/
def decode (buf : List UInt8) : Framing.Decoded LogRecord String :=
  if buf.length < HEADER_LEN then .incomplete
  else
    let len := ofLE (buf.take 4)
    let crc := ofLE ((buf.drop 4).take 4)
    if len = 0 ∨ len > MAX_RECORD_LEN then .incomplete
    else if buf.length < HEADER_LEN + len then .incomplete
    else
      let payload := (buf.drop HEADER_LEN).take len
      if (c.hash payload).toNat ≠ crc then .incomplete
      else
        match c.deserialize payload with
        | .ok record => .record record (HEADER_LEN + len)
        | .error detail => .malformed detail

/-! ## What decoding finds behind a header

A header tells how much to take and what it should sum to. Too little of it, and a sum that
differs, both read as incomplete. -/

variable {c}

@[simp] theorem length_header (len crc : ℕ) : (header len crc).length = HEADER_LEN := by
  rw [header, List.length_append, Serial.length_toLE, Serial.length_toLE]
  rfl

theorem length_framed (payload : List UInt8) :
    (c.framed payload).length = HEADER_LEN + payload.length := by
  rw [framed, List.length_append, length_header]

theorem decode_header {len crc : ℕ} (hlen : 0 < len) (hmax : len ≤ MAX_RECORD_LEN)
    (hcrc : crc < 2 ^ 32) (body : List UInt8) :
    c.decode (header len crc ++ body) =
      if body.length < len ∨ (c.hash (body.take len)).toNat ≠ crc then .incomplete
      else
        match c.deserialize (body.take len) with
        | .ok record => .record record (HEADER_LEN + len)
        | .error detail => .malformed detail := by
  have hlen4 : ofLE ((header len crc ++ body).take 4) = len := by
    rw [header, List.append_assoc, List.take_append_of_le_length (Serial.length_toLE 4 len).ge,
      List.take_of_length_le (Serial.length_toLE 4 len).le, Serial.ofLE_toLE]
    exact hmax.trans_lt (by decide)
  have hcrc4 : ofLE (((header len crc ++ body).drop 4).take 4) = crc := by
    rw [header, List.append_assoc, List.drop_append_of_le_length (Serial.length_toLE 4 len).ge,
      List.drop_of_length_le (Serial.length_toLE 4 len).le, List.nil_append,
      List.take_append_of_le_length (Serial.length_toLE 4 crc).ge,
      List.take_of_length_le (Serial.length_toLE 4 crc).le, Serial.ofLE_toLE]
    exact hcrc
  have hbody : (header len crc ++ body).drop HEADER_LEN = body := by
    rw [List.drop_append_of_le_length (length_header len crc).ge,
      List.drop_of_length_le (length_header len crc).le, List.nil_append]
  have hlength : (header len crc ++ body).length = HEADER_LEN + body.length := by
    rw [List.length_append, length_header]
  unfold decode
  dsimp only
  rw [hlen4, hcrc4, hbody, hlength, if_neg (by omega), if_neg (by omega)]
  by_cases hshort : body.length < len
  · rw [if_pos (by omega), if_pos (Or.inl hshort)]
  · rw [if_neg (by omega)]
    by_cases hsum : (c.hash (body.take len)).toNat ≠ crc
    · rw [if_pos hsum, if_pos (Or.inr hsum)]
    · rw [if_neg hsum, if_neg (not_or.mpr ⟨hshort, hsum⟩)]

theorem hash_lt (payload : List UInt8) : (c.hash payload).toNat < 2 ^ 32 :=
  (c.hash payload).toNat_lt

theorem decode_damaged {payload payload' : List UInt8} (hlen : payload'.length = payload.length)
    (hpos : 0 < payload.length) (hmax : payload.length ≤ MAX_RECORD_LEN)
    (hsum : c.hash payload' ≠ c.hash payload) (rest : List UInt8) :
    c.decode (header payload.length (c.hash payload).toNat ++ (payload' ++ rest)) =
      .incomplete := by
  have htake : (payload' ++ rest).take payload.length = payload' := by
    rw [List.take_append_of_le_length hlen.ge, List.take_of_length_le hlen.le]
  rw [decode_header hpos hmax (hash_lt payload), htake]
  exact if_pos (Or.inr fun h ↦ hsum (UInt32.toNat_inj.mp h))

namespace Lawful

variable (h : c.Lawful)
include h

theorem encode_eq (r : LogRecord) : c.encode r = .ok (c.framed (c.serialize r)) :=
  if_pos ((h.bounded r).trans_lt (by decide))

/-- **The decoder is lawful for the frames the encoder writes.** -/
theorem framing : Framing.Lawful c.decode fun r ↦ c.framed (c.serialize r) where
  ne_nil r hnil := by
    have hlen := length_framed (c := c) (c.serialize r)
    rw [hnil] at hlen
    exact absurd hlen (by rw [HEADER_LEN, List.length_nil]; omega)
  front r rest := by
    have htake : (c.serialize r ++ rest).take (c.serialize r).length = c.serialize r :=
      List.take_left
    rw [framed, List.append_assoc, decode_header (h.nonempty r) (h.bounded r) (hash_lt _), htake,
      if_neg (by rw [List.length_append]; omega), h.round_trip, List.length_append, length_header]
  torn r l hpre hne := by
    by_cases hshort : l.length < HEADER_LEN
    · exact if_pos hshort
    -- The header is whole, so what is missing is missing from the payload.
    obtain ⟨rest, hrest⟩ := hpre
    have hlen := congrArg List.length hrest
    rw [List.length_append, length_framed] at hlen
    have hl : l = header (c.serialize r).length (c.hash (c.serialize r)).toNat ++
        l.drop HEADER_LEN := by
      have htake := congrArg (List.take HEADER_LEN) hrest
      rw [List.take_append_of_le_length (not_lt.mp hshort), framed,
        List.take_append_of_le_length (length_header _ _).ge,
        List.take_of_length_le (length_header _ _).le] at htake
      rw [← htake, List.take_append_drop]
    rw [hl, decode_header (h.nonempty r) (h.bounded r) (hash_lt _)]
    refine if_pos (Or.inl ?_)
    rw [List.length_drop]
    have hpos : 0 < rest.length := by
      refine List.length_pos_iff.mpr fun hnil ↦ hne ?_
      rw [hnil, List.append_nil] at hrest
      exact hrest
    omega

end Lawful

end Codec

end DutchAuction
