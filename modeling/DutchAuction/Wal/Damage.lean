import DutchAuction.Wal.Bincode
import DutchAuction.Wal.Replay

/-!
# A damaged record inside the log

One payload of a log is altered in a way its checksum detects. To the decoder the record reads like
one that is cut short, so what becomes of the damage is decided by where it is. In a sealed segment
it leaves trailing bytes that are refused (`readAll_sealed`). In the final segment it is taken for
the end of the log: the records before it are the whole log (`readAll_final`), and opening the log
cuts off the damaged record together with every intact one behind it (`open_final`).
-/

namespace DutchAuction

/-- One record of a log, and what its payload was altered to. -/
structure Damage where
  /-- The segments before the one it is in. -/
  before : List (ℕ × List LogRecord)
  /-- The index of its segment. -/
  index : ℕ
  /-- The records before it in its segment. -/
  front : List LogRecord
  record : LogRecord
  /-- The records after it in its segment. -/
  back : List LogRecord
  /-- The segments after the one it is in. -/
  after : List (ℕ × List LogRecord)
  payload : List UInt8

namespace Damage

/-- The segments of the log before the damage. -/
def segments (d : Damage) : List (ℕ × List LogRecord) :=
  d.before ++ (d.index, d.front ++ d.record :: d.back) :: d.after

/-- The frame with the header it had and the altered payload. -/
def frame (d : Damage) (c : Codec) : List UInt8 :=
  Codec.header (c.serialize d.record).length (c.hash (c.serialize d.record)).toNat ++ d.payload

/-- Alter the payload on disk. -/
def strike (d : Damage) (c : Codec) (dir : Dir) : Dir :=
  { dir with
    segs := dir.segs.upsert d.index fun _ ↦ c.frames d.front ++ (d.frame c ++ c.frames d.back) }

/-- The checksum detects the alteration, which keeps the length. -/
structure Detected (d : Damage) (c : Codec) : Prop where
  length : d.payload.length = (c.serialize d.record).length
  hash : c.hash d.payload ≠ c.hash (c.serialize d.record)

/-- A log directory with these segments, whose sequence numbers are gapless. -/
structure Struck (d : Damage) (c : Codec) (dir : Dir) : Prop where
  entries : dir.segs.entries = d.segments.map fun e ↦ (e.1, c.frames e.2)
  few : ∀ e ∈ d.segments, e.1 < SEGMENTS
  gapless : Gapless (d.segments.flatMap Prod.snd)

end Damage

namespace Codec

/-- The log is refused as corrupt: reading it says so, recovery and opening fail too, and opening
leaves every segment as it is. -/
def Refuses (c : Codec) (dir : Dir) : Prop :=
  (∃ path offset detail, c.readAll dir = .error (.corrupt path offset detail)) ∧
    (∃ e, c.recover dir = some (.error e)) ∧
    ∀ config segmentBytes, (∃ e, (Wal.open c config segmentBytes dir).1 = .error e) ∧
      (Wal.open c config segmentBytes dir).2.segs = dir.segs

variable {c : Codec}

theorem open_of_error {dir : Dir} {e : WalError} (h : c.readAll dir = .error e)
    (config : AuctionConfig) (segmentBytes : U64) :
    (∃ e, (Wal.open c config segmentBytes dir).1 = .error e) ∧
      (Wal.open c config segmentBytes dir).2.segs = dir.segs := by
  have hresume : ∀ manifest, Wal.open.resume c segmentBytes { dir with manifest := manifest } =
      (.error e, { dir with manifest := manifest }) := by
    intro manifest
    have hread : c.readAll { dir with manifest := manifest } = .error e := h
    rw [Wal.open.resume, lastSeqIn, hread]
    rfl
  rw [Wal.open]
  split
  · split_ifs with heq
    · rw [hresume dir.manifest]
      exact ⟨⟨e, rfl⟩, rfl⟩
    · exact ⟨⟨_, rfl⟩, rfl⟩
  · rw [hresume]
    exact ⟨⟨e, rfl⟩, rfl⟩
  · exact ⟨⟨_, rfl⟩, rfl⟩

theorem recover_of_error {dir : Dir} {e : WalError} (h : c.readAll dir = .error e) :
    ∃ e, c.recover dir = some (.error e) := by
  rw [recover]
  cases dir.readManifest with
  | error e' => exact ⟨e', rfl⟩
  | ok config =>
    dsimp only
    rw [h]
    exact ⟨e, rfl⟩

theorem refuses_of_corrupt {dir : Dir} {path : Path} {offset : ℕ} {detail : String}
    (h : c.readAll dir = .error (.corrupt path offset detail)) : c.Refuses dir :=
  ⟨⟨path, offset, detail, h⟩, recover_of_error h, open_of_error h⟩

end Codec

namespace Damage

variable {d : Damage} {c : Codec} {dir : Dir}

theorem ends (h : c.Lawful) (hdet : d.Detected c) :
    Framing.Ends c.decode (d.frame c ++ c.frames d.back) := by
  refine Or.inr ?_
  rw [frame, List.append_assoc]
  exact Codec.decode_damaged hdet.length (h.nonempty d.record) (h.bounded d.record) hdet.hash _

theorem length_tail (d : Damage) (c : Codec) : 0 < (d.frame c ++ c.frames d.back).length := by
  rw [frame, List.length_append, List.length_append, Codec.length_header, HEADER_LEN]
  omega

namespace Struck

variable (hd : d.Struck c dir)
include hd

theorem entries_strike :
    (d.strike c dir).segs.entries = d.before.map (fun e ↦ (e.1, c.frames e.2)) ++
      (d.index, c.frames d.front ++ (d.frame c ++ c.frames d.back)) ::
        d.after.map fun e ↦ (e.1, c.frames e.2) := by
  have hentries := hd.entries
  rw [segments, List.map_append, List.map_cons] at hentries
  exact OrdMap.entries_upsert_of_mem hentries _

theorem segments_strike : (d.strike c dir).segments = (d.strike c dir).segs.entries := by
  have hkeys : (d.strike c dir).segs.entries.map Prod.fst = d.segments.map Prod.fst := by
    rw [hd.entries_strike, segments, List.map_append, List.map_append, List.map_map, List.map_cons,
      List.map_cons, List.map_map]
    rfl
  rw [Dir.segments, List.filter_eq_self]
  intro e he
  have hmem : e.1 ∈ d.segments.map Prod.fst := hkeys ▸ List.mem_map_of_mem he
  obtain ⟨e', he', heq⟩ := List.mem_map.mp hmem
  exact decide_eq_true (heq ▸ hd.few e' he')

theorem gapless_front : Gapless (d.before.flatMap Prod.snd ++ d.front) := by
  have hgap := hd.gapless
  rw [segments, List.flatMap_append, List.flatMap_cons, ← List.append_assoc] at hgap
  have hleft := hgap.left_of_append
  rw [← List.append_assoc] at hleft
  exact hleft.left_of_append

theorem readAll_strike (h : c.Lawful) :
    c.readAll (d.strike c dir) = c.readFrom (d.before.flatMap Prod.snd)
      ((d.index, c.frames d.front ++ (d.frame c ++ c.frames d.back)) ::
        d.after.map fun e ↦ (e.1, c.frames e.2)) := by
  have hgap : Gapless ([] ++ d.before.flatMap Prod.snd) := by
    rw [List.nil_append]
    exact hd.gapless_front.left_of_append
  rw [Codec.readAll, hd.segments_strike, hd.entries_strike, Codec.readFrom_append h hgap,
    List.nil_append]

theorem readAll_sealed (h : c.Lawful) (hdet : d.Detected c) (hafter : d.after ≠ []) :
    ∃ path offset detail, c.readAll (d.strike c dir) = .error (.corrupt path offset detail) := by
  rw [hd.readAll_strike h, Codec.readFrom, h.readSegment d.index d.front (ends h hdet)]
  dsimp only
  rw [if_pos ⟨d.length_tail c, fun hnil ↦ hafter (List.map_eq_nil_iff.mp hnil)⟩]
  exact ⟨_, _, _, rfl⟩

/-- **In the final segment, the records before the damage are read as the whole log.** -/
theorem readAll_final (h : c.Lawful) (hdet : d.Detected c) (hafter : d.after = []) :
    c.readAll (d.strike c dir) = .ok (d.before.flatMap Prod.snd ++ d.front) := by
  rw [hd.readAll_strike h, hafter, List.map_nil, Codec.readFrom_last h hd.gapless_front d.index
    (ends h hdet)]

/-- **Opening that log cuts the damaged record off with everything behind it.** -/
theorem open_final (h : c.Lawful) (hdet : d.Detected c) (hafter : d.after = [])
    {config : AuctionConfig} (hmanifest : dir.manifest = some (.ok config)) (segmentBytes : U64) :
    (∃ w, (Wal.open c config segmentBytes (d.strike c dir)).1 = .ok w) ∧
      (Wal.open c config segmentBytes (d.strike c dir)).2.segs.entries =
        d.before.map (fun e ↦ (e.1, c.frames e.2)) ++ [(d.index, c.frames d.front)] := by
  have hholds : (d.strike c dir).Holds c ⟨d.before, d.index, d.front⟩
      (c.frames d.front ++ (d.frame c ++ c.frames d.back)) := by
    refine ⟨?_⟩
    rw [hd.entries_strike, hafter]
    rfl
  have hfew : d.index < SEGMENTS := hd.few _ (List.mem_append_right _ List.mem_cons_self)
  obtain ⟨dir', htrunc, -, -, hholds'⟩ := Codec.truncateTornTail_holds h hholds (ends h hdet)
  have hresume : Wal.open c config segmentBytes (d.strike c dir) =
      Wal.open.resume c segmentBytes (d.strike c dir) := by
    have hread : (d.strike c dir).readManifest = .ok config := by
      rw [Dir.readManifest, show (d.strike c dir).manifest = some (.ok config) from hmanifest]
    rw [Wal.open, hread]
    exact if_pos rfl
  have hlast : ((d.strike c dir).segments.getLast?.map Prod.fst).getD 0 = d.index := by
    rw [hholds.segments hfew, List.getLast?_append]
    rfl
  have hdone : (dir'.write d.index []).Holds c ⟨d.before, d.index, d.front⟩ (c.frames d.front) := by
    have hwrite := hholds'.write []
    rwa [List.append_nil] at hwrite
  rw [hresume, Wal.open.resume]
  dsimp only
  rw [hlast, Codec.lastSeqIn, hd.readAll_final h hdet hafter]
  dsimp only [Except.map]
  rw [htrunc]
  exact ⟨⟨_, rfl⟩, hdone.entries⟩

end Struck

end Damage

/-! ## Exactly the damage in a sealed segment is refused -/

/-- **Damage in the middle of the log is refused if and only if it is not in the final segment.** -/
theorem damage_refused_iff {c : Codec} {d : Damage} {dir : Dir} (h : c.Lawful)
    (hd : d.Struck c dir) (hdet : d.Detected c) : c.Refuses (d.strike c dir) ↔ d.after ≠ [] := by
  refine ⟨fun hrefuses hafter ↦ ?_, fun hafter ↦ ?_⟩
  · obtain ⟨⟨path, offset, detail, herror⟩, -⟩ := hrefuses
    rw [hd.readAll_final h hdet hafter] at herror
    cases herror
  · obtain ⟨path, offset, detail, herror⟩ := hd.readAll_sealed h hdet hafter
    exact Codec.refuses_of_corrupt herror

/-- The first of two records in the first segment, with one bit of its sequence number flipped. -/
def Damage.sample (after : List (ℕ × List LogRecord)) : Damage where
  before := []
  index := 0
  front := []
  record := ⟨0, 0, .open⟩
  back := [⟨1, 0, .tick⟩]
  after := after
  payload := 1 :: List.replicate 19 0

theorem Damage.sample_detected (after : List (ℕ × List LogRecord)) :
    (Damage.sample after).Detected Bincode.codec where
  length := rfl
  hash := by
    show Bincode.codec.hash (1 :: List.replicate 19 0) ≠
      Bincode.codec.hash (Bincode.codec.serialize ⟨0, 0, .open⟩)
    decide +kernel

/-- A directory with one segment of two records, -/
def Dir.sample : Dir where
  manifest := some (.ok (.sample 0))
  segs := OrdMap.empty.upsert 0 fun _ ↦ Bincode.codec.frames [⟨0, 0, .open⟩, ⟨1, 0, .tick⟩]
  snaps := OrdMap.empty

/-- and a directory with one more segment. -/
def Dir.rolled : Dir :=
  Dir.sample.write 1 (Bincode.codec.frames [⟨2, 0, .tick⟩])

theorem Dir.sample_struck : (Damage.sample []).Struck Bincode.codec Dir.sample where
  entries := rfl
  few := by decide
  gapless := by decide

theorem Dir.rolled_struck :
    (Damage.sample [(1, [⟨2, 0, .tick⟩])]).Struck Bincode.codec Dir.rolled where
  entries := rfl
  few := by decide
  gapless := by decide

theorem damage_refused_iff_rolled :
    Bincode.codec.Refuses
        ((Damage.sample [(1, [⟨2, 0, .tick⟩])]).strike Bincode.codec Dir.rolled) ↔
      (Damage.sample [(1, [⟨2, 0, .tick⟩])]).after ≠ [] :=
  damage_refused_iff Bincode.lawful Dir.rolled_struck (Damage.sample_detected _)

/-- **The first of the two records of the only segment is damaged, and the log reads as empty**:
opening it truncates the segment to nothing, the intact second record included. -/
theorem damage_truncated :
    (Damage.sample []).back ≠ [] ∧ (Damage.sample []).Detected Bincode.codec ∧
      ¬Bincode.codec.Refuses ((Damage.sample []).strike Bincode.codec Dir.sample) ∧
      Bincode.codec.readAll ((Damage.sample []).strike Bincode.codec Dir.sample) = .ok [] ∧
      (Wal.open Bincode.codec (.sample 0) 0
        ((Damage.sample []).strike Bincode.codec Dir.sample)).2.segs.entries = [(0, [])] := by
  have hread := Dir.sample_struck.readAll_final Bincode.lawful (Damage.sample_detected []) rfl
  refine ⟨List.cons_ne_nil _ _, Damage.sample_detected [], ?_, hread,
    (Dir.sample_struck.open_final Bincode.lawful (Damage.sample_detected []) rfl rfl 0).2⟩
  rintro ⟨⟨path, offset, detail, herror⟩, -⟩
  rw [hread] at herror
  cases herror

end DutchAuction
