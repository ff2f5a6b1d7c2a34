import DutchAuction.Library.Stopping
import DutchAuction.Wal.Bincode
import DutchAuction.Wal.Segment

/-!
# Frames delimit themselves

The encoder leaves room for a header, lets the payload be written behind it and then goes back to
fill the header in. The reader walks a buffer by an index, and stops at the first place where
nothing decodes. Both cut and overwrite buffers at computed offsets, where the program stops if an
offset is outside; here they are written with those conditions (`Checked.encodeInto`,
`Checked.decode`, `Checked.readLoop`), and shown to meet none of them.

So a log that is followed by part of a frame, or by zeros, reads back as exactly that log
(`self_delimiting`); and any bytes whatever are read to the end of the whole frames they begin with.
-/

namespace DutchAuction

open Serial (toLE ofLE)

namespace Checked

variable (c : Codec)

/-- Append the framed encoding of `record` to `out`. -/
def encodeInto (record : LogRecord) (out : List UInt8) : Option (Except WalError (List UInt8)) := do
  let start := out.length
  -- The header is left blank until the payload is there.
  let written := (out ++ List.replicate HEADER_LEN 0) ++ c.serialize record
  let added ← Stopping.sub written.length start
  let payloadLen ← Stopping.sub added HEADER_LEN
  let payload ← Stopping.slice written (start + HEADER_LEN) written.length
  if payloadLen < 2 ^ 32 then do
    let withLen ← Stopping.overwrite written start (toLE 4 payloadLen)
    let withCrc ← Stopping.overwrite withLen (start + 4) (toLE 4 (c.hash payload).toNat)
    return .ok withCrc
  else return .error (.encode s!"record of {payloadLen} bytes exceeds the frame length field")

/-- Append the framed encodings of these records, as a commit of all of them does. -/
def encodeAll : List LogRecord → List UInt8 → Option (Except WalError (List UInt8))
  | [], out => some (.ok out)
  | record :: records, out => (encodeInto c record out).bind fun result ↦
    match result with
    | .ok out => encodeAll records out
    | .error e => some (.error e)

/-- Decode one framed record from the front of `buf`. -/
def decode (buf : List UInt8) : Option (Framing.Decoded LogRecord String) :=
  if buf.length < HEADER_LEN then some .incomplete
  else do
    let len ← (Stopping.slice buf 0 4).map ofLE
    let crc ← (Stopping.slice buf 4 HEADER_LEN).map ofLE
    if len = 0 ∨ len > MAX_RECORD_LEN then return .incomplete
    else if buf.length < HEADER_LEN + len then return .incomplete
    else do
      let payload ← Stopping.slice buf HEADER_LEN (HEADER_LEN + len)
      if (c.hash payload).toNat ≠ crc then return .incomplete
      else
        match c.deserialize payload with
        | .ok record => return .record record (HEADER_LEN + len)
        | .error detail => return .malformed detail

/-- The loop that reads a segment: the records so far, and the index of the first byte not read. The
result is the records and how many bytes could not be read, or where something malformed is. -/
def readLoop (buf : List UInt8) :
    ℕ → ℕ → List LogRecord → Option (Except (ℕ × String) (List LogRecord × ℕ))
  | 0, _, _ => none
  | fuel + 1, pos, records =>
    if pos < buf.length then
      ((Stopping.slice buf pos buf.length).bind (decode c)).bind fun found ↦
        match found with
        | .record record consumed => readLoop buf fuel (pos + consumed) (records ++ [record])
        | .incomplete => (Stopping.sub buf.length pos).map fun trailing ↦ .ok (records, trailing)
        | .malformed detail => some (.error (pos, detail))
    else (Stopping.sub buf.length pos).map fun trailing ↦ .ok (records, trailing)

end Checked

namespace Codec

variable {c : Codec}

/-! ## Encoding -/

theorem overwrite_header (out payload : List UInt8) (len crc : ℕ) :
    (Stopping.overwrite ((out ++ List.replicate HEADER_LEN 0) ++ payload) out.length
      (toLE 4 len)).bind (fun withLen ↦ Stopping.overwrite withLen (out.length + 4) (toLE 4 crc)) =
        some (out ++ (header len crc ++ payload)) := by
  have hsplit : (out ++ List.replicate HEADER_LEN (0 : UInt8)) ++ payload =
      out ++ (List.replicate 4 0 ++ (List.replicate 4 0 ++ payload)) := by
    rw [List.append_assoc]
    rfl
  have hword : ∀ n : ℕ, (toLE 4 n).length = (List.replicate 4 (0 : UInt8)).length :=
    Serial.length_toLE 4
  have hbehind : out.length + 4 = (out ++ toLE 4 len).length := by
    rw [List.length_append, Serial.length_toLE]
  rw [hsplit, Stopping.overwrite_append (hword len), Option.bind_some, ← List.append_assoc out,
    hbehind, Stopping.overwrite_append (hword crc), header, List.append_assoc, List.append_assoc]

/-- **The header is filled in where it was left blank.** -/
theorem encodeInto_eq (record : LogRecord) (out : List UInt8) :
    Checked.encodeInto c record out = some ((c.encode record).map fun frame ↦ out ++ frame) := by
  have hblank :
      (out ++ List.replicate HEADER_LEN (0 : UInt8)).length = out.length + HEADER_LEN := by
    rw [List.length_append, List.length_replicate]
  have hlength : ((out ++ List.replicate HEADER_LEN 0) ++ c.serialize record).length =
      out.length + HEADER_LEN + (c.serialize record).length := by
    rw [List.length_append, hblank]
  have hpayload : Stopping.slice ((out ++ List.replicate HEADER_LEN 0) ++ c.serialize record)
      (out.length + HEADER_LEN) (out.length + HEADER_LEN + (c.serialize record).length) =
        some (c.serialize record) := by
    rw [Stopping.slice_eq (by omega) hlength.ge, ← hblank, List.drop_left, Nat.add_sub_cancel_left,
      List.take_length]
  have hadded : Stopping.sub (out.length + HEADER_LEN + (c.serialize record).length) out.length =
      some (HEADER_LEN + (c.serialize record).length) := by
    rw [Stopping.sub_eq (by omega), Nat.add_assoc, Nat.add_sub_cancel_left]
  have hlen : Stopping.sub (HEADER_LEN + (c.serialize record).length) HEADER_LEN =
      some (c.serialize record).length := by
    rw [Stopping.sub_eq (by omega), Nat.add_sub_cancel_left]
  simp only [Checked.encodeInto, encode, hlength, hadded, hlen, hpayload, Option.bind_eq_bind,
    Option.bind_some]
  split_ifs with hfits
  · rw [← Option.bind_assoc, overwrite_header]
    rfl
  · rfl

/-! ## Decoding

The slices of the decoder are taken behind checks on the length of the buffer, so none of them is
outside it, and a frame that is accepted lies inside the buffer and is not empty. -/

/-- **No slice of the decoder is outside its buffer.** -/
theorem decode_eq (buf : List UInt8) : Checked.decode c buf = some (c.decode buf) := by
  unfold Checked.decode decode
  by_cases hshort : buf.length < HEADER_LEN
  · rw [if_pos hshort, if_pos hshort]
  rw [if_neg hshort, if_neg hshort]
  have hheader : 4 ≤ HEADER_LEN ∧ HEADER_LEN ≤ buf.length := ⟨by decide, not_lt.mp hshort⟩
  have hlen : Stopping.slice buf 0 4 = some (buf.take 4) :=
    Stopping.slice_eq (Nat.zero_le 4) (hheader.1.trans hheader.2)
  have hcrc : Stopping.slice buf 4 HEADER_LEN = some ((buf.drop 4).take 4) :=
    Stopping.slice_eq hheader.1 hheader.2
  dsimp only
  rw [hlen, hcrc, Option.map_some, Option.map_some, Option.bind_eq_bind, Option.bind_some,
    Option.bind_eq_bind, Option.bind_some]
  generalize ofLE (buf.take 4) = len
  by_cases hbad : len = 0 ∨ len > MAX_RECORD_LEN
  · rw [if_pos hbad, if_pos hbad]
    rfl
  rw [if_neg hbad, if_neg hbad]
  by_cases hcut : buf.length < HEADER_LEN + len
  · rw [if_pos hcut, if_pos hcut]
    rfl
  have hpayload : Stopping.slice buf HEADER_LEN (HEADER_LEN + len) =
      some ((buf.drop HEADER_LEN).take len) := by
    rw [Stopping.slice_eq (Nat.le_add_right _ _) (not_lt.mp hcut), Nat.add_sub_cancel_left]
  rw [if_neg hcut, if_neg hcut, hpayload, Option.bind_some]
  split_ifs
  · rfl
  · cases c.deserialize ((buf.drop HEADER_LEN).take len) with
    | ok record => rfl
    | error detail => rfl

/-- **What decoding finds** is a whole frame at the front, which holds a record or does not, or
nothing. -/
theorem decode_cases (buf : List UInt8) :
    c.decode buf = .incomplete ∨ ∃ payload rest, buf = c.framed payload ++ rest ∧
      0 < payload.length ∧ payload.length ≤ MAX_RECORD_LEN ∧
      ((∃ record, c.deserialize payload = .ok record ∧
          c.decode buf = .record record (c.framed payload).length) ∨
        ∃ detail, c.deserialize payload = .error detail ∧ c.decode buf = .malformed detail) := by
  by_cases hshort : buf.length < HEADER_LEN
  · exact Or.inl (if_pos hshort)
  have hheader : 8 ≤ buf.length := not_lt.mp hshort
  -- Any eight bytes are the header of some length and some checksum.
  have hwords : buf = header (ofLE (buf.take 4)) (ofLE ((buf.drop 4).take 4)) ++ buf.drop 8 := by
    have hlow := Serial.toLE_ofLE (buf.take 4)
    have hhigh := Serial.toLE_ofLE ((buf.drop 4).take 4)
    rw [show (buf.take 4).length = 4 by rw [List.length_take]; omega] at hlow
    rw [show ((buf.drop 4).take 4).length = 4 by
      rw [List.length_take, List.length_drop]; omega] at hhigh
    rw [header, hlow, hhigh, List.append_assoc, ← List.drop_drop (i := 4) (j := 4),
      List.take_append_drop, List.take_append_drop]
  have hcrc : ofLE ((buf.drop 4).take 4) < 2 ^ 32 := by
    have hlt := Serial.ofLE_lt ((buf.drop 4).take 4)
    rwa [show ((buf.drop 4).take 4).length = 4 by
      rw [List.length_take, List.length_drop]; omega] at hlt
  by_cases hbad : ofLE (buf.take 4) = 0 ∨ ofLE (buf.take 4) > MAX_RECORD_LEN
  · refine Or.inl ?_
    rw [decode, if_neg hshort]
    exact if_pos hbad
  obtain ⟨hpos, hmax⟩ := not_or.mp hbad
  generalize ofLE (buf.take 4) = len at hwords hpos hmax
  generalize ofLE ((buf.drop 4).take 4) = crc at hwords hcrc
  generalize buf.drop 8 = body at hwords
  subst hwords
  rw [decode_header (Nat.pos_of_ne_zero hpos) (not_lt.mp hmax) hcrc]
  by_cases hwhole : body.length < len ∨ (c.hash (body.take len)).toNat ≠ crc
  · exact Or.inl (if_pos hwhole)
  rw [if_neg hwhole]
  obtain ⟨hlen, hsum⟩ := not_or.mp hwhole
  have htake : (body.take len).length = len := by
    rw [List.length_take]
    omega
  have hframed : c.framed (body.take len) = header len crc ++ body.take len := by
    rw [framed, htake, not_not.mp hsum]
  refine Or.inr ⟨body.take len, body.drop len, ?_, by omega, by omega, ?_⟩
  · rw [hframed, List.append_assoc, List.take_append_drop]
  · rw [length_framed, htake]
    cases c.deserialize (body.take len) with
    | ok record => exact Or.inl ⟨record, rfl, rfl⟩
    | error detail => exact Or.inr ⟨detail, rfl, rfl⟩

theorem decode_eq_record {buf : List UInt8} {record : LogRecord} {consumed : ℕ}
    (h : c.decode buf = .record record consumed) :
    ∃ payload rest, buf = c.framed payload ++ rest ∧ consumed = (c.framed payload).length ∧
      0 < payload.length ∧ payload.length ≤ MAX_RECORD_LEN ∧
      c.deserialize payload = .ok record := by
  rcases c.decode_cases buf with hnone | ⟨payload, rest, hbuf, hpos, hmax, hfound⟩
  · rw [hnone] at h
    cases h
  rcases hfound with ⟨r, hr, hdecode⟩ | ⟨detail, -, hdecode⟩
  · rw [hdecode] at h
    cases h
    exact ⟨payload, rest, hbuf, rfl, hpos, hmax, hr⟩
  · rw [hdecode] at h
    cases h

theorem decode_progress (c : Codec) (buf : List UInt8) (record : LogRecord) (consumed : ℕ)
    (h : c.decode buf = .record record consumed) : 0 < consumed ∧ consumed ≤ buf.length := by
  obtain ⟨payload, rest, rfl, rfl, hpos, -⟩ := decode_eq_record h
  rw [List.length_append, length_framed]
  omega

/-! ## The loop

The index goes up with every frame, so the loop needs no more passes than there are bytes. It is
the scan of the framing library over what is left of the buffer. -/

/-- **The loop is the scan**, with fuel for every byte that is left and for the last look. -/
theorem readLoop_eq (buf : List UInt8) {fuel : ℕ} (fuel' pos : ℕ) (records : List LogRecord)
    (hpos : pos ≤ buf.length) (hfuel : buf.length - pos < fuel)
    (hfuel' : buf.length - pos ≤ fuel') :
    Checked.readLoop c buf fuel pos records =
      some ((Framing.scan c.decode fuel' pos (buf.drop pos)).map
        fun r ↦ (records ++ r.1, r.2)) := by
  induction fuel generalizing fuel' pos records with
  | zero => omega
  | succ fuel ih =>
    have hrest : (buf.drop pos).length = buf.length - pos := List.length_drop
    have htrailing : Stopping.sub buf.length pos = some (buf.length - pos) := Stopping.sub_eq hpos
    rw [Checked.readLoop]
    by_cases hmore : pos < buf.length
    · have hne : buf.drop pos ≠ [] := List.length_pos_iff.mp (by omega)
      have hslice : Stopping.slice buf pos buf.length = some (buf.drop pos) := by
        rw [Stopping.slice_eq hpos le_rfl, ← hrest, List.take_length]
      obtain ⟨fuel', rfl⟩ : ∃ n, fuel' = n + 1 := ⟨fuel' - 1, by omega⟩
      rw [if_pos hmore, hslice, Option.bind_some, decode_eq, Option.bind_some, Framing.scan,
        if_neg hne]
      cases hfound : c.decode (buf.drop pos) with
      | incomplete =>
        dsimp only
        rw [htrailing, hrest, Option.map_some]
        exact congrArg (fun l ↦ some (Except.ok (l, buf.length - pos)))
          (List.append_nil records).symm
      | malformed detail => rfl
      | record record consumed =>
        obtain ⟨hconsumed, hinside⟩ := decode_progress _ _ _ _ hfound
        dsimp only
        rw [ih fuel' (pos + consumed) (records ++ [record]) (by omega) (by omega) (by omega),
          List.drop_drop]
        cases Framing.scan c.decode fuel' (pos + consumed) (buf.drop (pos + consumed)) with
        | error e => rfl
        | ok r =>
          exact congrArg (fun l ↦ some (Except.ok (l, r.2)))
            (List.append_assoc records [record] r.1)
    · have hnil : buf.drop pos = [] := List.drop_of_length_le (not_lt.mp hmore)
      have hscan : Framing.scan c.decode fuel' pos [] = .ok ([], 0) := by
        cases fuel' with
        | zero => rfl
        | succ fuel' => exact if_pos rfl
      rw [if_neg hmore, htrailing, hnil, hscan, Nat.sub_eq_zero_of_le (not_lt.mp hmore),
        Option.map_some]
      exact congrArg (fun l ↦ some (Except.ok (l, 0))) (List.append_nil records).symm

/-- The bytes are whole frames, of payloads that hold these records. -/
inductive WholeFrames (c : Codec) : List LogRecord → List UInt8 → Prop
  | nil : WholeFrames c [] []
  | cons {record : LogRecord} {payload : List UInt8} {records : List LogRecord}
      {bytes : List UInt8} :
      0 < payload.length → payload.length ≤ MAX_RECORD_LEN → c.deserialize payload = .ok record →
      WholeFrames c records bytes → WholeFrames c (record :: records) (c.framed payload ++ bytes)

theorem wholeFrames_of_reads {buf tail : List UInt8} {records : List LogRecord}
    (h : Framing.Reads c.decode buf records tail) :
    ∃ front, buf = front ++ tail ∧ c.WholeFrames records front := by
  induction h with
  | done buf => exact ⟨[], rfl, .nil⟩
  | more hfound _ ih =>
    obtain ⟨payload, rest, rfl, rfl, hpos, hmax, hrecord⟩ := decode_eq_record hfound
    obtain ⟨front, hfront, hwhole⟩ := ih
    rw [List.drop_left] at hfront
    rw [hfront, ← List.append_assoc]
    exact ⟨_, rfl, .cons hpos hmax hrecord hwhole⟩

/-- **Any bytes whatever** are read to the end of the whole frames they begin with. -/
theorem readLoop_total (c : Codec) (bytes : List UInt8) :
    ∃ records front tail, bytes = front ++ tail ∧ c.WholeFrames records front ∧
      (Framing.Ends c.decode tail ∧ (∀ fuel, bytes.length < fuel →
          Checked.readLoop c bytes fuel 0 [] = some (.ok (records, tail.length))) ∨
        ∃ detail, c.decode tail = .malformed detail ∧ ∀ fuel, bytes.length < fuel →
          Checked.readLoop c bytes fuel 0 [] = some (.error (front.length, detail))) := by
  obtain ⟨records, tail, hreads, -, hstop⟩ := Framing.scan_reads c.decode_progress
    (le_refl bytes.length) 0
  obtain ⟨front, hfront, hwhole⟩ := wholeFrames_of_reads hreads
  have hloop : ∀ fuel, bytes.length < fuel → Checked.readLoop c bytes fuel 0 [] =
      some ((Framing.scan c.decode bytes.length 0 bytes).map fun r ↦ ([] ++ r.1, r.2)) :=
    fun fuel hfuel ↦ readLoop_eq bytes bytes.length 0 [] (Nat.zero_le _) hfuel le_rfl
  have hbefore : 0 + (bytes.length - tail.length) = front.length := by
    have hlen := congrArg List.length hfront
    rw [List.length_append] at hlen
    omega
  refine ⟨records, front, tail, hfront, hwhole, ?_⟩
  rcases hstop with ⟨hends, hscan⟩ | ⟨detail, hdetail, hscan⟩
  · refine Or.inl ⟨hends, fun fuel hfuel ↦ ?_⟩
    rw [hloop fuel hfuel, hscan]
    rfl
  · refine Or.inr ⟨detail, hdetail, fun fuel hfuel ↦ ?_⟩
    rw [hloop fuel hfuel, hscan, hbefore]
    rfl

/-! ## The tail

A first part of a frame holds no record, and neither does a run of zeros, whose length field says
that nothing is there. -/

theorem ends_zeros (c : Codec) (n : ℕ) : Framing.Ends c.decode (List.replicate n 0) := by
  refine Or.inr ?_
  by_cases hshort : n < HEADER_LEN
  · exact if_pos (by rwa [List.length_replicate])
  have height : 8 ≤ n := not_lt.mp hshort
  have hlen : ofLE ((List.replicate n (0 : UInt8)).take 4) = 0 := by
    rw [List.take_replicate, min_eq_left (by omega)]
    rfl
  rw [decode, if_neg (by rwa [List.length_replicate])]
  exact if_pos (Or.inl hlen)

/-- What a kill leaves of one more frame: a proper first part of it, or blank bytes. -/
inductive Leaves (c : Codec) : List UInt8 → Prop
  | cut {record : LogRecord} {whole p : List UInt8} :
      Checked.encodeInto c record [] = some (.ok whole) → p <+: whole → p ≠ whole → Leaves c p
  | blank (n : ℕ) : Leaves c (List.replicate n 0)

namespace Lawful

variable (h : c.Lawful)
include h

theorem encodeInto_eq (record : LogRecord) (out : List UInt8) :
    Checked.encodeInto c record out = some (.ok (out ++ c.framed (c.serialize record))) := by
  rw [Codec.encodeInto_eq, h.encode_eq]
  rfl

theorem encodeAll_eq (records : List LogRecord) (out : List UInt8) :
    Checked.encodeAll c records out = some (.ok (out ++ c.frames records)) := by
  induction records generalizing out with
  | nil => rw [Checked.encodeAll, frames_nil, List.append_nil]
  | cons record records ih =>
    rw [Checked.encodeAll, h.encodeInto_eq, Option.bind_some]
    dsimp only
    rw [ih, List.append_assoc, ← frames_singleton, ← frames_append]
    rfl

theorem ends_of_leaves {p : List UInt8} (hp : Leaves c p) : Framing.Ends c.decode p := by
  cases hp with
  | @cut record whole p hwhole hpre hne =>
    have hencoded := h.encodeInto_eq record []
    rw [hwhole] at hencoded
    cases hencoded
    exact Or.inr (h.framing.torn record p hpre hne)
  | blank n => exact ends_zeros c n

/-- **Frames delimit themselves.** The encodings of any records, followed by a proper first part of
a further one or by zeros, read back as exactly these records, with exactly what follows left over.
And any bytes at all are read: the loop ends without leaving its buffer, behind whole frames. -/
theorem self_delimiting :
    (∀ (records : List LogRecord) (p : List UInt8), Leaves c p → ∃ bytes,
      Checked.encodeAll c records [] = some (.ok bytes) ∧ ∀ fuel, (bytes ++ p).length < fuel →
        Checked.readLoop c (bytes ++ p) fuel 0 [] = some (.ok (records, p.length))) ∧
    ∀ bytes, ∃ records front tail, bytes = front ++ tail ∧ c.WholeFrames records front ∧
      (Framing.Ends c.decode tail ∧ (∀ fuel, bytes.length < fuel →
          Checked.readLoop c bytes fuel 0 [] = some (.ok (records, tail.length))) ∨
        ∃ detail, c.decode tail = .malformed detail ∧ ∀ fuel, bytes.length < fuel →
          Checked.readLoop c bytes fuel 0 [] = some (.error (front.length, detail))) := by
  refine ⟨fun records p hp ↦ ⟨c.frames records, h.encodeAll_eq records [], fun fuel hfuel ↦ ?_⟩,
    c.readLoop_total⟩
  have hscan : Framing.scan c.decode (c.frames records ++ p).length 0 (c.frames records ++ p) =
      .ok (records, p.length) := h.framing.scan_frames records (h.ends_of_leaves hp) le_rfl 0
  rw [readLoop_eq _ (c.frames records ++ p).length 0 [] (Nat.zero_le _) hfuel le_rfl,
    List.drop_zero, hscan]
  rfl

end Lawful

/-- One record, followed by the first five bytes of another; and three bytes that are no frame. -/
theorem self_delimiting_sample :
    ∃ p, Leaves Bincode.codec p ∧ p.length = 5 ∧
      (∃ bytes, Checked.encodeAll Bincode.codec [⟨0, 0, .open⟩] [] = some (.ok bytes) ∧
        ∀ fuel, (bytes ++ p).length < fuel →
          Checked.readLoop Bincode.codec (bytes ++ p) fuel 0 [] =
            some (.ok ([⟨0, 0, .open⟩], p.length))) ∧
      ∃ records front tail, [1, 2, 3] = front ++ tail ∧ Bincode.codec.WholeFrames records front ∧
        (Framing.Ends Bincode.codec.decode tail ∧ (∀ fuel, 3 < fuel →
            Checked.readLoop Bincode.codec [1, 2, 3] fuel 0 [] =
              some (.ok (records, tail.length))) ∨
          ∃ detail, Bincode.codec.decode tail = .malformed detail ∧ ∀ fuel, 3 < fuel →
            Checked.readLoop Bincode.codec [1, 2, 3] fuel 0 [] =
              some (.error (front.length, detail))) := by
  have hwhole := Bincode.lawful.encodeInto_eq ⟨1, 0, .tick⟩ []
  have hlen : ((([] : List UInt8) ++ Bincode.codec.framed
      (Bincode.codec.serialize ⟨1, 0, .tick⟩)).take 5).length = 5 := by decide +kernel
  have hleaves : Leaves Bincode.codec (([] ++ Bincode.codec.framed
      (Bincode.codec.serialize ⟨1, 0, .tick⟩)).take 5) := by
    refine .cut hwhole (List.take_prefix _ _) fun heq ↦ ?_
    rw [heq] at hlen
    exact absurd hlen (by decide +kernel)
  obtain ⟨hrecords, hany⟩ := Lawful.self_delimiting Bincode.lawful
  exact ⟨_, hleaves, hlen, hrecords _ _ hleaves, hany [1, 2, 3]⟩

end Codec

end DutchAuction
