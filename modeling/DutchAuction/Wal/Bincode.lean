import DutchAuction.Wal.Record

/-!
# The codec the program is built with

The layout of a record in the fixed-width binary encoding, and the cyclic redundancy check in its
bitwise form. Words are little-endian; a tag is a word of four bytes; an identifier is its length
and then its bytes, most significant first. -/

namespace DutchAuction

namespace Bincode

open Serial (Format toLE ofLE)

/-! ## Layout -/

/-- An unsigned word. -/
def u64 : Format U64 :=
  (Format.le 8).via (fun n ↦ ⟨n.val, n.property⟩) (fun u ↦ ⟨u.val, u.val_lt⟩) fun _ ↦ rfl

/-- A signed word, in two's complement. -/
def i64 : Format I64 :=
  (Format.le 8).via
    (fun n ↦ I64.saturate (if n.val < 2 ^ 63 then n.val else n.val - 2 ^ 64))
    (fun i ↦ ⟨(i.val % 2 ^ 64).toNat, by omega⟩) fun i ↦ by
      have hlo := i.neg_le
      have hlt := i.val_lt
      refine I64.ext ?_
      rw [I64.val_saturate]
      dsimp only
      split_ifs <;> omega

/-- An identifier. -/
def uuid : Format Uuid :=
  ((Format.const (toLE 8 16)).pair (Format.be 16)).via (fun n ↦ BitVec.ofNat 128 n.2.val)
    (fun id ↦ ((), ⟨id.toNat, id.isLt⟩))
    fun id ↦ BitVec.ofNat_toNat .. |>.trans (BitVec.setWidth_eq id)

/-- The tag of a variant. -/
def tag : Format {n : ℕ // n < 256 ^ 4} := Format.le 4

def bidKind : Format BidKind where
  put
    | .take expectedPrice => tag.put ⟨0, by decide⟩ ++ i64.put expectedPrice
    | .resting limit => tag.put ⟨1, by decide⟩ ++ i64.put limit
  get bs := (tag.get bs).bind fun r ↦
    match r.1.val with
    | 0 => (i64.get r.2).map fun r ↦ (.take r.1, r.2)
    | 1 => (i64.get r.2).map fun r ↦ (.resting r.1, r.2)
    | _ => none
  get_put kind rest := by
    cases kind with
    | take expectedPrice => simp [Format.get_put]
    | resting limit => simp [Format.get_put]

def command : Format Command where
  put
    | .open => tag.put ⟨0, by decide⟩
    | .setCollateral participant limit =>
      tag.put ⟨1, by decide⟩ ++ (uuid.pair i64).put (participant, limit)
    | .submitBid participant key qty kind =>
      tag.put ⟨2, by decide⟩ ++
        (uuid.pair (uuid.pair (u64.pair bidKind))).put (participant, key, qty, kind)
    | .cancelResting participant key =>
      tag.put ⟨3, by decide⟩ ++ (uuid.pair uuid).put (participant, key)
    | .tick => tag.put ⟨4, by decide⟩
    | .cancel => tag.put ⟨5, by decide⟩
  get bs := (tag.get bs).bind fun r ↦
    match r.1.val with
    | 0 => some (.open, r.2)
    | 1 => ((uuid.pair i64).get r.2).map fun r ↦ (.setCollateral r.1.1 r.1.2, r.2)
    | 2 => ((uuid.pair (uuid.pair (u64.pair bidKind))).get r.2).map fun r ↦
      (.submitBid r.1.1 r.1.2.1 r.1.2.2.1 r.1.2.2.2, r.2)
    | 3 => ((uuid.pair uuid).get r.2).map fun r ↦ (.cancelResting r.1.1 r.1.2, r.2)
    | 4 => some (.tick, r.2)
    | 5 => some (.cancel, r.2)
    | _ => none
  get_put cmd rest := by
    cases cmd with
    | «open» => simp [Format.get_put]
    | setCollateral participant limit => simp [Format.get_put]
    | submitBid participant key qty kind => simp [Format.get_put]
    | cancelResting participant key => simp [Format.get_put]
    | tick => simp [Format.get_put]
    | cancel => simp [Format.get_put]

def logRecord : Format LogRecord :=
  (u64.pair (u64.pair command)).via (fun r ↦ ⟨r.1, r.2.1, r.2.2⟩) (fun r ↦ (r.seq, r.ts, r.cmd))
    fun _ ↦ rfl

/-! ## Checksum

The bitwise form of the standard check: the register starts with all bits set, takes in the bytes,
and is complemented at the end. -/

/-- One bit of the division. -/
def crcBit (crc : UInt32) : UInt32 :=
  if crc &&& 1 = 1 then (crc >>> 1) ^^^ 0xEDB88320 else crc >>> 1

/-- One byte of the division. -/
def crcByte (crc : UInt32) (b : UInt8) : UInt32 :=
  crcBit (crcBit (crcBit (crcBit (crcBit (crcBit (crcBit (crcBit (crc ^^^ b.toUInt32))))))))

def crc32 (bytes : List UInt8) : UInt32 := bytes.foldl crcByte 0xFFFFFFFF ^^^ 0xFFFFFFFF

/-- The check value of the polynomial. -/
example : crc32 [49, 50, 51, 52, 53, 54, 55, 56, 57] = 0xCBF43926 := by decide +kernel

/-! ## The codec

A command takes between four and seventy-two bytes, its tag included, and a record sixteen more, so
that a payload is never empty nor too long for its length field. -/

/-- Trailing bytes are not an error. -/
def codec : Codec where
  serialize := logRecord.put
  deserialize bytes :=
    match logRecord.get bytes with
    | some r => .ok r.1
    | none => .error "io error: unexpected end of file"
  hash := crc32

theorem length_command (cmd : Command) :
    4 ≤ (command.put cmd).length ∧ (command.put cmd).length ≤ 72 := by
  cases cmd with
  | «open» => exact ⟨le_rfl, by decide⟩
  | setCollateral participant limit =>
    have hlen : (command.put (.setCollateral participant limit)).length = 36 := rfl
    omega
  | submitBid participant key qty kind =>
    have hlen : (command.put (.submitBid participant key qty kind)).length = 72 := by
      cases kind with
      | take expectedPrice => rfl
      | resting limit => rfl
    omega
  | cancelResting participant key =>
    have hlen : (command.put (.cancelResting participant key)).length = 52 := rfl
    omega
  | tick => exact ⟨le_rfl, by decide⟩
  | cancel => exact ⟨le_rfl, by decide⟩

theorem length_logRecord (r : LogRecord) :
    (logRecord.put r).length = 16 + (command.put r.cmd).length := by
  have hseq : (u64.put r.seq).length = 8 := rfl
  have hts : (u64.put r.ts).length = 8 := rfl
  show (u64.put r.seq ++ (u64.put r.ts ++ command.put r.cmd)).length = _
  rw [List.length_append, List.length_append, hseq, hts]
  omega

/-- **The codec has the properties the log relies on.** -/
theorem lawful : codec.Lawful where
  round_trip r := by
    have h := logRecord.get_put r []
    rw [List.append_nil] at h
    show (match logRecord.get (logRecord.put r) with | some r => _ | none => _) = _
    rw [h]
  nonempty r := by
    show 0 < (logRecord.put r).length
    have hlen := length_logRecord r
    omega
  bounded r := by
    show (logRecord.put r).length ≤ MAX_RECORD_LEN
    have hlen := length_logRecord r
    have hcmd := (length_command r.cmd).2
    rw [MAX_RECORD_LEN]
    omega

end Bincode

end DutchAuction
