import DutchAuction.Library.Crc
import DutchAuction.Wal.Damage

/-!
# What the checksum notices

How a payload is summed is not the log's own doing. What is used of the checksum here is that it
detects bursts: whatever alters a payload within 32 consecutive bits, a flipped bit or up to four
bytes that were written wrong, gives it another checksum. The standard check of 32 bits does that
(`crc32_detects`).

So no reader takes such a record for one that was written: in a sealed segment the log is refused,
and in the final one it is read up to the record before (`burst_never_served`).
-/

namespace DutchAuction

/-! ## The standard check

Byte by byte it is the division of the register by the polynomial, so what the register notices it
notices.
-/

namespace Bincode

open Crc (bits bitsOf length_bitsOf)

/-- The polynomial of the check, reflected. -/
def POLY : BitVec 32 := 0xEDB88320#32

theorem word_bitsOf (b : UInt8) : Crc.word (bitsOf b) = b.toUInt32.toBitVec := by
  refine BitVec.eq_of_getLsbD_eq fun i hi ↦ ?_
  rw [Crc.getLsbD_word, UInt8.toBitVec_toUInt32, BitVec.getLsbD_setWidth, bitsOf,
    List.getD_eq_getElem?_getD, List.getElem?_map]
  by_cases hlow : i < 8
  · rw [List.getElem?_range hlow]
    rfl
  · rw [List.getElem?_eq_none (by rw [List.length_range]; omega),
      BitVec.getLsbD_of_ge _ _ (by omega)]
    rfl

theorem toBitVec_crcBit (c : UInt32) : (crcBit c).toBitVec = Crc.shift POLY c.toBitVec := by
  have hlow : c &&& 1 = 1 ↔ c.toBitVec.getLsbD 0 = true := by
    rw [← UInt32.toBitVec_inj, UInt32.toBitVec_and]
    show c.toBitVec &&& 1#32 = 1#32 ↔ _
    rw [BitVec.and_one_eq_setWidth_ofBool_getLsbD]
    cases c.toBitVec.getLsbD 0 <;> decide
  rw [crcBit, Crc.shift]
  split_ifs with h h' h'
  · rw [UInt32.toBitVec_xor, UInt32.toBitVec_shiftRight]
    rfl
  · exact absurd (hlow.mp h) h'
  · exact absurd (hlow.mpr h') h
  · rw [UInt32.toBitVec_shiftRight]
    rfl

theorem toBitVec_crcByte (c : UInt32) (b : UInt8) :
    (crcByte c b).toBitVec = Crc.run POLY c.toBitVec (bitsOf b) := by
  rw [Crc.run_eq_iterate_shift (by rw [length_bitsOf]; decide), length_bitsOf, word_bitsOf,
    ← UInt32.toBitVec_xor, crcByte]
  rw [toBitVec_crcBit, toBitVec_crcBit, toBitVec_crcBit, toBitVec_crcBit, toBitVec_crcBit,
    toBitVec_crcBit, toBitVec_crcBit, toBitVec_crcBit]
  rfl

theorem toBitVec_foldl (c : UInt32) (bytes : List UInt8) :
    (bytes.foldl crcByte c).toBitVec = Crc.run POLY c.toBitVec (bits bytes) := by
  induction bytes generalizing c with
  | nil => rfl
  | cons b bytes ih =>
    rw [List.foldl_cons, ih, toBitVec_crcByte, bits, bits, List.flatMap_cons, Crc.run_append]

/-- **The checksum is a check register of 32 bits**, complemented at both ends. -/
theorem toBitVec_crc32 (bytes : List UInt8) :
    (crc32 bytes).toBitVec =
      Crc.run POLY (BitVec.allOnes 32) (bits bytes) ^^^ BitVec.allOnes 32 := by
  rw [crc32, UInt32.toBitVec_xor, toBitVec_foldl]
  rfl

/-- **The standard check detects bursts.** -/
theorem crc32_detects : Crc.DetectsBursts crc32 :=
  Crc.detectsBursts_of_run (by decide) toBitVec_crc32

end Bincode

/-! ## Altered payloads

A burst keeps the length of a payload and changes its checksum, so it is a damage in the sense of
`DutchAuction.Wal.Damage`, and what is shown there of any such damage applies. -/

variable {c : Codec} {d : Damage} {dir : Dir}

theorem Damage.detected_of_burst (hc : Crc.DetectsBursts c.hash)
    (h : Crc.Burst 32 (Crc.bits (c.serialize d.record)) (Crc.bits d.payload)) : d.Detected c where
  length := h.bytes_length_eq.symm
  hash := (hc.hash_ne h).symm

/-- **A payload altered within 32 consecutive bits is never served**: the log is refused, or it is
read up to the record before, and opening it cuts it there. -/
theorem burst_never_served (h : c.Lawful) (hc : Crc.DetectsBursts c.hash) (hd : d.Struck c dir)
    (hburst : Crc.Burst 32 (Crc.bits (c.serialize d.record)) (Crc.bits d.payload)) :
    (d.after ≠ [] → c.Refuses (d.strike c dir)) ∧
      (d.after = [] → c.readAll (d.strike c dir) =
          .ok (d.before.flatMap Prod.snd ++ d.front) ∧
        ∀ config segmentBytes, dir.manifest = some (.ok config) →
          (∃ w, (Wal.open c config segmentBytes (d.strike c dir)).1 = .ok w) ∧
            (Wal.open c config segmentBytes (d.strike c dir)).2.segs.entries =
              d.before.map (fun e ↦ (e.1, c.frames e.2)) ++
                [(d.index, c.frames d.front)]) := by
  have hdet := Damage.detected_of_burst hc hburst
  refine ⟨fun hafter ↦ ?_, fun hafter ↦ ⟨hd.readAll_final h hdet hafter,
    fun config segmentBytes hmanifest ↦ hd.open_final h hdet hafter hmanifest segmentBytes⟩⟩
  obtain ⟨path, offset, detail, herror⟩ := hd.readAll_sealed h hdet hafter
  exact Codec.refuses_of_corrupt herror

/-- One bit of the first of two records is flipped. -/
theorem burst_never_served_sample :
    Bincode.codec.readAll ((Damage.sample []).strike Bincode.codec Dir.sample) = .ok [] :=
  ((burst_never_served Bincode.lawful Bincode.crc32_detects Dir.sample_struck
    ⟨[], [false], [true], Crc.bits (List.replicate 20 0) |>.drop 1,
      by decide, by decide, rfl, by decide, by decide⟩).2 rfl).1

end DutchAuction
