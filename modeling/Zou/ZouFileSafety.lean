import Zou.Lib.Trace
import Zou.ZouFile

/-!
# Recovery of the single file store
-/

namespace Zou

open Bytes

namespace FileCodec

variable {c : FileCodec}

/-! ## What the fields hold -/

/-- The lengths and numbers of a frame head fit their fields. -/
structure HeadFits (c : FileCodec) (frameSeq : Nat) (entries : List FrameEntry) : Prop where
  seq : frameSeq < 2 ^ 64
  count : entries.length * metaRecordLen < 2 ^ 32
  keysComp : (c.compress (keysRaw entries)).length < 2 ^ 32
  keysRaw : (keysRaw entries).length < 2 ^ 32
  data : (dataOf entries).length < 2 ^ 64

/-- All of a frame fits. -/
structure Fits (c : FileCodec) (frameSeq : Nat) (entries : List FrameEntry) : Prop
    extends HeadFits c frameSeq entries where
  entry : ∀ e ∈ entries, (utf8 e.key).length < 2 ^ 16 ∧ e.stored.length < 2 ^ 32
    ∧ e.rawLen < 2 ^ 32 ∧ e.seq < 2 ^ 64

@[simp] theorem length_metaRecord (e : FrameEntry) (off : Nat) :
    (c.metaRecord e off).length = metaRecordLen := by
  simp [metaRecord, metaRecordLen]

theorem length_metaFrom (off : Nat) (es : List FrameEntry) :
    (c.metaFrom off es).length = es.length * metaRecordLen := by
  induction es generalizing off with
  | nil => exact (Nat.zero_mul _).symm
  | cons e es ih =>
    rw [metaFrom, List.length_append, length_metaRecord, ih, List.length_cons, Nat.succ_mul,
      Nat.add_comm]

@[simp] theorem length_headFields (frameSeq : Nat) (es : List FrameEntry) :
    (c.headFields frameSeq es).length = 32 := by
  simp [headFields]

/-- The head of a frame. -/
def frameHead (c : FileCodec) (frameSeq : Nat) (es : List FrameEntry) : List UInt8 :=
  frameMagic ++ c.headFields frameSeq es
    ++ le 4 (c.crc (c.headFields frameSeq es ++ c.sections es)).toNat

@[simp] theorem length_frameHead (frameSeq : Nat) (es : List FrameEntry) :
    (c.frameHead frameSeq es).length = frameHeadLen := by
  simp [frameHead, frameMagic, frameHeadLen]

theorem encodeFrame_fst (frameSeq : Nat) (es : List FrameEntry) (start : Nat) :
    (c.encodeFrame frameSeq es start).1 = c.frameHead frameSeq es ++ c.sections es ++ dataOf es :=
  rfl

theorem encodeFrame_snd (frameSeq : Nat) (es : List FrameEntry) (start : Nat) :
    (c.encodeFrame frameSeq es start).2
      = offsetsFrom (start + frameHeadLen + (c.sections es).length) es := rfl

variable {es : List FrameEntry} {frameSeq : Nat}

theorem frameHead_fields (h : HeadFits c frameSeq es) :
    slice (c.frameHead frameSeq es) 0 4 = frameMagic
      ∧ slice (c.frameHead frameSeq es) 4 32 = c.headFields frameSeq es
      ∧ ofLe (slice (c.frameHead frameSeq es) 4 8) = frameSeq
      ∧ ofLe (slice (c.frameHead frameSeq es) 12 4) = es.length
      ∧ ofLe (slice (c.frameHead frameSeq es) 16 4) = (c.compress (keysRaw es)).length
      ∧ ofLe (slice (c.frameHead frameSeq es) 20 4) = (keysRaw es).length
      ∧ ofLe (slice (c.frameHead frameSeq es) 24 4) = es.length * metaRecordLen
      ∧ ofLe (slice (c.frameHead frameSeq es) 28 8) = (dataOf es).length
      ∧ ofLe (slice (c.frameHead frameSeq es) 36 4)
          = (c.crc (c.headFields frameSeq es ++ c.sections es)).toNat := by
  have hm : frameMagic.length = 4 := rfl
  have hcount : es.length < 2 ^ 32 := by
    have := h.count
    rw [metaRecordLen] at this
    omega
  have hfields : slice (c.frameHead frameSeq es) 4 32 = c.headFields frameSeq es := by
    rw [frameHead, List.append_assoc, slice_skip (by rw [hm]), hm, slice_head (by simp)]
  have hin : ∀ at_ len, at_ + len ≤ 32 →
      slice (c.frameHead frameSeq es) (4 + at_) len = slice (c.headFields frameSeq es) at_ len := by
    intro at_ len hle
    rw [← hfields, slice_slice hle]
  refine ⟨?_, hfields, ?_, ?_, ?_, ?_, ?_, ?_, ?_⟩
  · rw [frameHead, List.append_assoc]
    exact slice_head rfl
  · rw [hin 0 8 (by omega)]
    simp [headFields, ofLe_le64 h.seq]
  · rw [hin 8 4 (by omega)]
    simp [headFields, ofLe_le32 hcount]
  · rw [hin 12 4 (by omega)]
    simp [headFields, ofLe_le32 h.keysComp]
  · rw [hin 16 4 (by omega)]
    simp [headFields, ofLe_le32 h.keysRaw]
  · rw [hin 20 4 (by omega)]
    simp [headFields, length_metaFrom, ofLe_le32 h.count]
  · rw [hin 24 8 (by omega)]
    simp [headFields, ofLe_le64 h.data]
  · rw [frameHead, slice_skip (by simp [hm])]
    simp only [List.length_append, hm, length_headFields, Nat.sub_self, slice_le]
    exact ofLe_le32 (UInt32.toNat_lt _)

/-! ## The sections read back -/

theorem keysRaw_cons (e : FrameEntry) (es : List FrameEntry) :
    keysRaw (e :: es) = le 2 (utf8 e.key).length ++ (utf8 e.key ++ keysRaw es) := by
  rw [keysRaw, List.flatMap_cons, List.append_assoc]
  rfl

theorem parseKeys_keysRaw (h : ∀ e ∈ es, (utf8 e.key).length < 2 ^ 16) :
    parseKeys es.length (keysRaw es) = some (es.map FrameEntry.key) := by
  induction es with
  | nil => rfl
  | cons e es ih =>
    have hk := h e List.mem_cons_self
    have hklen : ofLe (slice (keysRaw (e :: es)) 0 2) = (utf8 e.key).length := by
      rw [keysRaw_cons, slice_le_head, ofLe_le16 hk]
    have hkey : slice (keysRaw (e :: es)) 2 (utf8 e.key).length = utf8 e.key := by
      rw [keysRaw_cons, slice_le_skip (Nat.le_refl 2), Nat.sub_self, slice_head rfl]
    have hrest : (keysRaw (e :: es)).drop (2 + (utf8 e.key).length) = keysRaw es := by
      rw [keysRaw_cons, ← List.append_assoc]
      exact List.drop_left' (by simp)
    have hlen : (keysRaw (e :: es)).length = 2 + (utf8 e.key).length + (keysRaw es).length := by
      rw [keysRaw_cons]
      simp
      omega
    rw [List.length_cons, parseKeys]
    rw [if_neg (by omega), hklen, if_neg (by omega), hkey, fromUtf8_utf8]
    rw [hrest, ih fun e he => h e (.tail _ he)]
    rfl

theorem parseKeys_long {e : FrameEntry} (h : 2 ^ 16 ≤ (utf8 e.key).length) :
    parseKeys 1 (keysRaw [e]) = none := by
  have hlt : ofLe (slice (keysRaw [e]) 0 2) < (utf8 e.key).length := by
    rw [keysRaw_cons, slice_le_head, ofLe_le_mod]
    have := Nat.mod_lt (utf8 e.key).length (show 0 < 256 ^ 2 by decide)
    omega
  have hlen : (keysRaw [e]).length = 2 + (utf8 e.key).length := by
    rw [keysRaw_cons]
    simp [keysRaw]
  rw [parseKeys]
  rw [if_neg (by omega), if_neg (by omega)]
  split
  · rfl
  · rw [parseKeys, if_neg]
    · rfl
    · intro hnil
      have := congrArg List.length hnil
      rw [List.length_drop, List.length_nil] at this
      omega

/-- The records of a frame, as the scan reads them. -/
def recordOf (c : FileCodec) (e : FrameEntry) (off : Nat) : Record :=
  ⟨e.op, e.enc, e.stored.length, e.rawLen, (c.crc e.stored).toNat, e.seq, off⟩

def recordsFrom (c : FileCodec) (off : Nat) : List FrameEntry → List (String × Record)
  | [] => []
  | e :: es => (e.key, c.recordOf e off) :: recordsFrom c (off + e.stored.length) es

theorem readRecord_metaRecord {e : FrameEntry} {off : Nat} (hs : e.stored.length < 2 ^ 32)
    (hr : e.rawLen < 2 ^ 32) (hq : e.seq < 2 ^ 64) (ho : off < 2 ^ 64) :
    readRecord (c.metaRecord e off) = c.recordOf e off := by
  have hskip : ∀ at_ len, slice (c.metaRecord e off) (2 + at_) len
      = slice (le 2 0 ++ (le 4 e.stored.length ++ (le 4 e.rawLen
        ++ (le 4 (c.crc e.stored).toNat ++ (le 8 e.seq ++ le 8 off))))) at_ len := by
    intro at_ len
    have hform : c.metaRecord e off = [e.op, e.enc] ++ (le 2 0 ++ (le 4 e.stored.length
        ++ (le 4 e.rawLen ++ (le 4 (c.crc e.stored).toNat ++ (le 8 e.seq ++ le 8 off))))) := by
      simp [metaRecord]
    rw [hform, slice_skip (by simp)]
    simp
  have hcrc : (c.crc e.stored).toNat < 2 ^ 32 := UInt32.toNat_lt _
  rw [readRecord, recordOf, hskip 2 4, hskip 6 4, hskip 10 4, hskip 14 8, hskip 22 8]
  simp [metaRecord, ofLe_le32 hs, ofLe_le32 hr, ofLe_le32 hcrc, ofLe_le64 hq, ofLe_le64 ho]

theorem dataOf_cons (e : FrameEntry) (es : List FrameEntry) :
    dataOf (e :: es) = e.stored ++ dataOf es := List.flatMap_cons ..

theorem readRecords_metaFrom : ∀ {off : Nat},
    (∀ e ∈ es, e.stored.length < 2 ^ 32 ∧ e.rawLen < 2 ^ 32 ∧ e.seq < 2 ^ 64) →
    off + (dataOf es).length < 2 ^ 64 →
    readRecords (es.map FrameEntry.key) (c.metaFrom off es) = c.recordsFrom off es := by
  induction es with
  | nil => exact fun _ _ => rfl
  | cons e es ih =>
    intro off h hoff
    obtain ⟨hs, hr, hq⟩ := h e List.mem_cons_self
    rw [dataOf_cons, List.length_append] at hoff
    rw [List.map_cons, metaFrom, readRecords, recordsFrom,
      slice_head (length_metaRecord e off).symm, List.drop_left' (length_metaRecord e off),
      readRecord_metaRecord hs hr hq (by omega),
      ih (fun e he => h e (.tail _ he)) (by omega)]

/-! ## A frame in a file -/

/-- Everything that makes a frame check. -/
structure Checks (c : FileCodec) (file : List UInt8) (pos : Nat) (p : Parsed) : Prop where
  magic : slice (slice file pos frameHeadLen) 0 4 = frameMagic
  records : ofLe (slice (slice file pos frameHeadLen) 24 4)
    = ofLe (slice (slice file pos frameHeadLen) 12 4) * metaRecordLen
  base : p.base = pos + frameHeadLen + (ofLe (slice (slice file pos frameHeadLen) 16 4)
    + ofLe (slice (slice file pos frameHeadLen) 24 4))
  fin : p.fin = p.base + ofLe (slice (slice file pos frameHeadLen) 28 8)
  whole : p.fin ≤ file.length
  crc : (c.crc (slice (slice file pos frameHeadLen) 4 32
    ++ slice file (pos + frameHeadLen) (p.base - (pos + frameHeadLen)))).toNat
      = ofLe (slice (slice file pos frameHeadLen) 36 4)
  frameSeq : p.frameSeq = ofLe (slice (slice file pos frameHeadLen) 4 8)
  entries : ∃ raw keys,
    c.decompress (slice (slice file (pos + frameHeadLen) (p.base - (pos + frameHeadLen))) 0
        (ofLe (slice (slice file pos frameHeadLen) 16 4)))
      (ofLe (slice (slice file pos frameHeadLen) 20 4)) = some raw
    ∧ parseKeys (ofLe (slice (slice file pos frameHeadLen) 12 4)) raw = some keys
    ∧ p.entries = readRecords keys
        ((slice file (pos + frameHeadLen) (p.base - (pos + frameHeadLen))).drop
          (ofLe (slice (slice file pos frameHeadLen) 16 4)))

variable {file : List UInt8} {pos : Nat}

theorem parseFrame_eq_some {p : Parsed} : c.parseFrame file pos = some p ↔ Checks c file pos p := by
  constructor
  · intro h
    unfold parseFrame at h
    dsimp only at h
    split at h
    · cases h
    rename_i h1
    split at h
    · cases h
    rename_i h2
    split at h
    · cases h
    rename_i h3
    split at h
    · cases h
    rename_i h4
    split at h
    · cases h
    rename_i raw h5
    split at h
    · cases h
    rename_i keys h6
    cases h
    have hsub : ∀ a b : Nat, a + b - a = b := Nat.add_sub_cancel_left
    refine ⟨not_not.mp h1, not_not.mp h2, rfl, rfl, not_lt.mp h3, ?_, rfl, raw, keys, ?_, h6, ?_⟩
    · rw [hsub]
      exact not_not.mp h4
    · rw [hsub]
      exact h5
    · rw [hsub]
  · intro h
    obtain ⟨raw, keys, h5, h6, hentries⟩ := h.entries
    have hsub : p.base - (pos + frameHeadLen)
        = ofLe (slice (slice file pos frameHeadLen) 16 4)
          + ofLe (slice (slice file pos frameHeadLen) 24 4) := by
      rw [h.base, Nat.add_sub_cancel_left]
    have hcrc := h.crc
    rw [hsub] at h5 hentries hcrc
    have hwhole : ¬ pos + frameHeadLen + (ofLe (slice (slice file pos frameHeadLen) 16 4)
        + ofLe (slice (slice file pos frameHeadLen) 24 4))
        + ofLe (slice (slice file pos frameHeadLen) 28 8) > file.length := by
      rw [← h.base, ← h.fin]
      exact not_lt.mpr h.whole
    unfold parseFrame
    rw [if_neg (not_not.mpr h.magic), if_neg (not_not.mpr h.records), if_neg hwhole,
      if_neg (not_not.mpr hcrc), h5]
    dsimp only
    rw [h6]
    dsimp only
    rw [← hentries, ← h.frameSeq, ← h.base, ← h.fin]

theorem parseFrame_append {p : Parsed} (ext : List UInt8)
    (h : c.parseFrame file pos = some p) : c.parseFrame (file ++ ext) pos = some p := by
  have hc := parseFrame_eq_some.mp h
  have hle : pos + frameHeadLen ≤ p.base := by
    rw [hc.base]
    omega
  have hfin : p.base ≤ p.fin := by
    rw [hc.fin]
    omega
  have hwhole := hc.whole
  have hhead : slice (file ++ ext) pos frameHeadLen = slice file pos frameHeadLen :=
    slice_within (by omega)
  have hmeta : slice (file ++ ext) (pos + frameHeadLen) (p.base - (pos + frameHeadLen))
      = slice file (pos + frameHeadLen) (p.base - (pos + frameHeadLen)) :=
    slice_within (by omega)
  rw [parseFrame_eq_some]
  constructor
  · rw [hhead]; exact hc.magic
  · rw [hhead]; exact hc.records
  · rw [hhead]; exact hc.base
  · rw [hhead]; exact hc.fin
  · rw [List.length_append]
    omega
  · rw [hhead, hmeta]; exact hc.crc
  · rw [hhead]; exact hc.frameSeq
  · rw [hhead, hmeta]; exact hc.entries

/-- What the libraries promise. -/
structure Lawful (c : FileCodec) : Prop where
  decompress_compress : ∀ x, c.decompress (c.compress x) x.length = some x
  compress_length : ∀ x, (c.compress x).length ≤ 20 + x.length * 110 / 100

/-- A frame as the scan reads it at `start`. -/
def parsedFrame (c : FileCodec) (frameSeq : Nat) (es : List FrameEntry) (start : Nat) : Parsed where
  entries := c.recordsFrom 0 es
  frameSeq := frameSeq
  base := start + frameHeadLen + (c.sections es).length
  fin := start + (c.encodeFrame frameSeq es start).1.length

theorem length_encodeFrame (frameSeq : Nat) (es : List FrameEntry) (start : Nat) :
    (c.encodeFrame frameSeq es start).1.length
      = frameHeadLen + (c.sections es).length + (dataOf es).length := by
  rw [encodeFrame_fst, List.length_append, List.length_append, length_frameHead]

theorem length_sections (es : List FrameEntry) :
    (c.sections es).length = (c.compress (keysRaw es)).length + es.length * metaRecordLen := by
  rw [sections, List.length_append, length_metaFrom]

theorem slice_head_frame (file : List UInt8) (frameSeq : Nat) (es : List FrameEntry) (k : Nat) :
    slice (file ++ (c.frameHead frameSeq es ++ (c.sections es ++ dataOf es)).take (frameHeadLen + k))
      file.length frameHeadLen = c.frameHead frameSeq es := by
  have htake : (c.frameHead frameSeq es ++ (c.sections es ++ dataOf es)).take (frameHeadLen + k)
      = c.frameHead frameSeq es ++ (c.sections es ++ dataOf es).take k := by
    rw [List.take_append, length_frameHead, List.take_of_length_le (by simp),
      Nat.add_sub_cancel_left]
  rw [htake, slice_skip le_rfl, Nat.sub_self, slice_head (length_frameHead ..).symm]

theorem parseFrame_encodeFrame (hc : c.Lawful) (h : Fits c frameSeq es) (file : List UInt8)
    (start : Nat) : c.parseFrame (file ++ (c.encodeFrame frameSeq es start).1) file.length
      = some (c.parsedFrame frameSeq es file.length) := by
  obtain ⟨hmagic, hfields, hseq, hcount, hcomp, hraw, hmeta, hdata, hcrc⟩ := frameHead_fields h.toHeadFits
  have hassoc : (c.encodeFrame frameSeq es start).1
      = c.frameHead frameSeq es ++ (c.sections es ++ dataOf es) := by
    rw [encodeFrame_fst, List.append_assoc]
  have hhead : slice (file ++ (c.encodeFrame frameSeq es start).1) file.length frameHeadLen
      = c.frameHead frameSeq es := by
    rw [hassoc, slice_skip le_rfl, Nat.sub_self, slice_head (length_frameHead ..).symm]
  have hsec : slice (file ++ (c.encodeFrame frameSeq es start).1) (file.length + frameHeadLen)
      (c.sections es).length = c.sections es := by
    rw [hassoc, slice_skip (by omega), slice_skip (by rw [length_frameHead]; omega),
      length_frameHead]
    have : file.length + frameHeadLen - file.length - frameHeadLen = 0 := by omega
    rw [this, slice_head rfl]
  have hbase : (c.parsedFrame frameSeq es file.length).base - (file.length + frameHeadLen)
      = (c.sections es).length := by
    show file.length + frameHeadLen + (c.sections es).length - (file.length + frameHeadLen) = _
    omega
  rw [parseFrame_eq_some]
  constructor
  · rw [hhead, hmagic]
  · rw [hhead, hmeta, hcount]
  · rw [hhead, hcomp, hmeta, ← length_sections]
    rfl
  · rw [hhead, hdata]
    show file.length + (c.encodeFrame frameSeq es file.length).1.length = _
    rw [length_encodeFrame]
    show _ = file.length + frameHeadLen + (c.sections es).length + (dataOf es).length
    omega
  · rw [List.length_append, length_encodeFrame]
    show file.length + (c.encodeFrame frameSeq es file.length).1.length ≤ _
    rw [length_encodeFrame]
  · rw [hhead, hfields, hbase, hsec, hcrc]
  · rw [hhead, hseq]
    rfl
  · refine ⟨keysRaw es, es.map FrameEntry.key, ?_, ?_, ?_⟩
    · rw [hhead, hbase, hsec, hcomp, hraw, sections, slice_head rfl, hc.decompress_compress]
    · rw [hhead, hcount]
      exact parseKeys_keysRaw fun e he => (h.entry e he).1
    · rw [hhead, hbase, hsec, hcomp, sections, List.drop_left]
      exact (readRecords_metaFrom (fun e he => (h.entry e he).2) (by simpa using h.data)).symm

/-- A frame with a key that is too long for its field does not check. -/
theorem parseFrame_long (hc : c.Lawful) {e : FrameEntry} (h : HeadFits c frameSeq [e])
    (hlong : 2 ^ 16 ≤ (utf8 e.key).length) (file : List UInt8) (start : Nat) :
    c.parseFrame (file ++ (c.encodeFrame frameSeq [e] start).1) file.length = none := by
  obtain ⟨-, -, -, hcount, hcomp, hraw, hmeta, -, -⟩ := frameHead_fields h
  have hassoc : (c.encodeFrame frameSeq [e] start).1
      = c.frameHead frameSeq [e] ++ (c.sections [e] ++ dataOf [e]) := by
    rw [encodeFrame_fst, List.append_assoc]
  have hhead : slice (file ++ (c.encodeFrame frameSeq [e] start).1) file.length frameHeadLen
      = c.frameHead frameSeq [e] := by
    rw [hassoc, slice_skip le_rfl, Nat.sub_self, slice_head (length_frameHead ..).symm]
  cases hp : c.parseFrame (file ++ (c.encodeFrame frameSeq [e] start).1) file.length with
  | none => rfl
  | some p =>
    have hchecks := parseFrame_eq_some.mp hp
    obtain ⟨raw, keys, hdec, hkeys, -⟩ := hchecks.entries
    have hbase := hchecks.base
    rw [hhead, hcomp, hmeta] at hbase
    rw [hhead, hcomp, hraw, hbase, Nat.add_sub_cancel_left, slice_slice (by omega), hassoc,
      slice_skip (by omega), slice_skip (by rw [length_frameHead]; omega), length_frameHead] at hdec
    have hzero : file.length + frameHeadLen + 0 - file.length - frameHeadLen = 0 := by omega
    rw [hzero, sections, List.append_assoc, slice_head rfl, hc.decompress_compress] at hdec
    rw [hhead, hcount, ← Option.some.inj hdec] at hkeys
    have hnone : parseKeys 1 (keysRaw [e]) = none := parseKeys_long hlong
    exact absurd (hnone.symm.trans hkeys) (fun h => nomatch h)

theorem scanFrom_torn (h : HeadFits c frameSeq es) (file : List UInt8) (start cut : Nat)
    (hcut : cut < (c.encodeFrame frameSeq es start).1.length) (s : Scan) :
    c.scanFrom (file ++ (c.encodeFrame frameSeq es start).1.take cut) file.length s
      = (s, file.length) := by
  have hlen : (file ++ (c.encodeFrame frameSeq es start).1.take cut).length = file.length + cut := by
    rw [List.length_append, List.length_take, Nat.min_eq_left (Nat.le_of_lt hcut)]
  rw [scanFrom]
  split
  · rfl
  · rename_i hhead
    rw [hlen] at hhead
    obtain ⟨k, rfl⟩ : ∃ k, cut = frameHeadLen + k := ⟨cut - frameHeadLen, by omega⟩
    have hsome : ∀ p, c.parseFrame
        (file ++ (c.encodeFrame frameSeq es start).1.take (frameHeadLen + k)) file.length
          ≠ some p := by
      intro p hp
      have hc := parseFrame_eq_some.mp hp
      obtain ⟨-, -, -, -, hcomp, -, hmeta, hdata, -⟩ := frameHead_fields h
      have hwhole := hc.whole
      have hfin := hc.fin
      have hbase := hc.base
      rw [hlen] at hwhole
      rw [encodeFrame_fst, List.append_assoc, slice_head_frame] at hfin hbase
      rw [hdata] at hfin
      rw [hcomp, hmeta, ← length_sections] at hbase
      rw [length_encodeFrame] at hcut
      omega
    split
    · rfl
    · rename_i p hp
      exact absurd hp (hsome p)

/-! ## Scans -/

/-- A file that is scanned to its end is scanned the same way when it goes
on, and then from there. -/
theorem scanFrom_append {s s' : Scan} (ext : List UInt8)
    (h : c.scanFrom file pos s = (s', file.length)) :
    c.scanFrom (file ++ ext) pos s = c.scanFrom (file ++ ext) file.length s' := by
  induction pos, s using scanFrom.induct c file with
  | case1 pos s hend =>
    rw [scanFrom, if_pos hend] at h
    obtain ⟨rfl, rfl⟩ := Prod.mk.injEq .. |>.mp h
    rfl
  | case2 pos s hend hnone =>
    rw [scanFrom, if_neg hend] at h
    split at h
    · obtain ⟨rfl, rfl⟩ := Prod.mk.injEq .. |>.mp h
      rfl
    · rename_i p hp
      rw [hnone] at hp
      cases hp
  | case3 pos s hend p hp ih =>
    have hstep : c.scanFrom file pos s = c.scanFrom file p.fin (s.frame p) := by
      rw [scanFrom, if_neg hend]
      split
      · rename_i hnone
        rw [hp] at hnone
        cases hnone
      · rename_i p' hp'
        rw [hp] at hp'
        cases hp'
        rfl
    have happ := parseFrame_append ext hp
    rw [hstep] at h
    rw [← ih h, scanFrom, if_neg (by rw [List.length_append]; omega)]
    split
    · rename_i hnone
      rw [happ] at hnone
      cases hnone
    · rename_i p' hp'
      rw [happ] at hp'
      cases hp'
      rfl

theorem scanFrom_le (file : List UInt8) (pos : Nat) (s : Scan) :
    pos ≤ (c.scanFrom file pos s).2 := by
  induction pos, s using scanFrom.induct c file with
  | case1 pos s hend => rw [scanFrom, if_pos hend]
  | case2 pos s hend hnone =>
    rw [scanFrom, if_neg hend]
    split
    · exact le_rfl
    · rename_i p hp
      rw [hnone] at hp
      cases hp
  | case3 pos s hend p hp ih =>
    rw [scanFrom, if_neg hend]
    split
    · exact le_rfl
    · rename_i p' hp'
      rw [hp] at hp'
      cases hp'
      exact (Nat.le_of_lt (c.lt_fin hp)).trans ih

theorem scanFrom_frame (hc : c.Lawful) (h : Fits c frameSeq es) {s s' : Scan} (start : Nat)
    (hscan : c.scanFrom file pos s = (s', file.length)) :
    c.scanFrom (file ++ (c.encodeFrame frameSeq es start).1) pos s
      = (s'.frame (c.parsedFrame frameSeq es file.length),
        (file ++ (c.encodeFrame frameSeq es start).1).length) := by
  have hp := parseFrame_encodeFrame hc h file start
  have hlen : (file ++ (c.encodeFrame frameSeq es start).1).length
      = (c.parsedFrame frameSeq es file.length).fin := by
    rw [List.length_append]
    show _ = file.length + (c.encodeFrame frameSeq es file.length).1.length
    rw [length_encodeFrame, length_encodeFrame]
  have hhead : frameHeadLen ≤ (c.encodeFrame frameSeq es start).1.length := by
    rw [length_encodeFrame]
    omega
  rw [scanFrom_append _ hscan, scanFrom, if_neg (by rw [List.length_append]; omega)]
  split
  · rename_i hnone
    rw [hp] at hnone
    cases hnone
  · rename_i p' hp'
    rw [hp] at hp'
    cases hp'
    have hpos : 0 < frameHeadLen := by decide
    rw [scanFrom, if_pos (by rw [hlen]; omega), hlen]

/-! ## What the index stands for -/

/-- The file holds a value where an entry says. -/
structure Held (c : FileCodec) (file : List UInt8) (e : FileEntry) (data : List UInt8) : Prop where
  within : e.offset + e.storedLen ≤ file.length
  crc : (c.crc (slice file e.offset e.storedLen)).toNat = e.crc
  value : if e.lz4 then c.decompress (slice file e.offset e.storedLen) e.rawLen = some data
    else slice file e.offset e.storedLen = data
  storedLen : e.storedLen < 2 ^ 32
  rawLen : e.rawLen < 2 ^ 32
  seq : e.seq < 2 ^ 64

variable {data : List UInt8}

theorem Held.append {e : FileEntry}
    (h : Held c file e data) (ext : List UInt8) : Held c (file ++ ext) e data := by
  have hslice : slice (file ++ ext) e.offset e.storedLen = slice file e.offset e.storedLen :=
    slice_within h.within
  constructor
  · rw [List.length_append]
    exact Nat.le_add_right_of_le h.within
  · rw [hslice]; exact h.crc
  · rw [hslice]; exact h.value
  · exact h.storedLen
  · exact h.rawLen
  · exact h.seq

theorem Held.copied {file' : List UInt8} {e : FileEntry}
    (h : Held c file e data) {off : Nat} (hin : off + e.storedLen ≤ file'.length)
    (hcopy : slice file' off e.storedLen = slice file e.offset e.storedLen) :
    Held c file' { e with offset := off } data := by
  constructor
  · exact hin
  · show (c.crc (slice file' off e.storedLen)).toNat = e.crc
    rw [hcopy]; exact h.crc
  · show if e.lz4 then c.decompress (slice file' off e.storedLen) e.rawLen = some data
      else slice file' off e.storedLen = data
    rw [hcopy]; exact h.value
  · exact h.storedLen
  · exact h.rawLen
  · exact h.seq

variable {inner : FileInner}

theorem Held.readEntry {e : FileEntry}
    (h : Held c inner.file e data) : c.readEntry inner e = .ok data := by
  have hlen := length_slice h.within
  have hvalue := h.value
  unfold FileCodec.readEntry
  rw [if_neg (by rw [hlen]; exact lt_irrefl _), if_neg (not_not.mpr h.crc)]
  cases hl : e.lz4 with
  | true =>
    rw [hl, if_pos rfl] at hvalue
    rw [if_pos rfl, hvalue]
  | false =>
    rw [hl, if_neg (by decide)] at hvalue
    rw [if_neg (by decide), hvalue]

/-- The index answers as a history says, and the file holds the values. -/
def Answers (c : FileCodec) (file : List UInt8) (index : OrdMap String FileEntry)
    (done : List FileEvent) : Prop :=
  ∀ key, match index.get? key with
    | none => objectsAfter done key = none
    | some e => (utf8 key).length < 2 ^ 16
        ∧ ∃ data, objectsAfter done key = some (data, e.seq) ∧ Held c file e data

variable {done : List FileEvent}

theorem Answers.get (h : Answers c inner.file inner.index done) (key : String) :
    c.get inner key = .ok (objectsAfter done key) := by
  have hk := h key
  unfold FileCodec.get
  cases hg : inner.index.get? key with
  | none =>
    rw [hg] at hk
    rw [hk]
  | some e =>
    rw [hg] at hk
    obtain ⟨-, data, hobj, hheld⟩ := hk
    dsimp only
    rw [hheld.readEntry, hobj]
    rfl

/-- An open store: its file is a header and frames that all check, and the
index is what they say. -/
structure Sound (c : FileCodec) (inner : FileInner) (done : List FileEvent) : Prop where
  headed : ∃ rest, inner.file = fileHeader ++ rest
  fin : inner.fin = inner.file.length
  scanned : ∃ sc, c.scanFrom inner.file headerLen Scan.new = (sc, inner.file.length)
    ∧ (∀ key, sc.index.get? key = inner.index.get? key)
    ∧ (sc.seq = inner.seq ∨ (inner.file = fileHeader ∧ sc.seq = 0))
  answers : Answers c inner.file inner.index done

theorem Sound.nonempty (h : Sound c inner done) : inner.file ≠ [] := by
  obtain ⟨rest, hrest⟩ := h.headed
  rw [hrest]
  exact fun hnil => nomatch (List.append_eq_nil_iff.mp hnil).1

/-! ## Writes -/

/-- The index after an entry of a frame. -/
def reindex (index : OrdMap String FileEntry) (key : String) (e : Option FileEntry) :
    OrdMap String FileEntry :=
  let index := match index.get? key with
    | none => index
    | some _ => index.remove key
  e.elim index (index.insert key)

theorem get?_reindex (index : OrdMap String FileEntry) (key : String) (e : Option FileEntry)
    (key' : String) :
    (reindex index key e).get? key' = if key' = key then e else index.get? key' := by
  have hgone : ∀ k, (match index.get? key with
      | none => index
      | some _ => index.remove key).get? k = if k = key then none else index.get? k := by
    intro k
    cases hg : index.get? key with
    | none =>
      dsimp only
      split
      · rename_i h
        rw [h, hg]
      · rfl
    | some _ => exact index.get?_remove key k
  unfold reindex
  cases e with
  | none => exact hgone key'
  | some e =>
    dsimp only [Option.elim_some]
    rw [OrdMap.get?_insert, hgone]
    split <;> rfl

/-- The entry the scan makes of a record. -/
def Record.toEntry (base : Nat) (r : Record) : Option FileEntry :=
  if r.op = opPut then some ⟨r.seq, base + r.off, r.storedLen, r.rawLen, r.crc, r.enc = encLz4⟩
  else none

theorem Scan.entry_index (base : Nat) (s : Scan) (key : String) (r : Record) :
    (s.entry base key r).index = reindex s.index key (r.toEntry base) := by
  unfold Scan.entry reindex Record.toEntry
  cases s.index.get? key <;> dsimp only <;> split <;> rfl

theorem Scan.entry_seq (base : Nat) (s : Scan) (key : String) (r : Record) :
    (s.entry base key r).seq = s.seq := by
  unfold Scan.entry
  cases s.index.get? key <;> dsimp only <;> split <;> rfl

/-- The entry of the frame a write appends. -/
def entryOf (c : FileCodec) (seq : Nat) (key : String) (op : UInt8) :
    Option (List UInt8) → FrameEntry
  | some d => ⟨key, op, (c.encodeValue d).1, (c.encodeValue d).2, d.length % 2 ^ 32, seq⟩
  | none => ⟨key, op, encRaw, [], 0, seq⟩

/-- The frame of a write. -/
def frameOf (c : FileCodec) (inner : FileInner) (key : String) (op : UInt8)
    (data : Option (List UInt8)) : List UInt8 :=
  (c.encodeFrame (inner.seq + 1) [c.entryOf (inner.seq + 1) key op data] inner.fin).1

/-- Where the index finds the payload of a write. -/
def payloadOf (c : FileCodec) (inner : FileInner) (key : String) (op : UInt8)
    (data : Option (List UInt8)) : FileEntry :=
  let e := c.entryOf (inner.seq + 1) key op data
  ⟨inner.seq + 1, inner.fin + frameHeadLen + (c.sections [e]).length, e.stored.length % 2 ^ 32,
    e.rawLen, (c.crc e.stored).toNat, e.enc = encLz4⟩

theorem append_parts (inner : FileInner) (key : String) (op : UInt8) (data : Option (List UInt8))
    (hfin : inner.fin = inner.file.length) :
    (c.append inner key op data).1.file = inner.file ++ c.frameOf inner key op data
      ∧ (c.append inner key op data).1.fin = (inner.file ++ c.frameOf inner key op data).length
      ∧ (c.append inner key op data).1.seq = inner.seq + 1
      ∧ (c.append inner key op data).1.index
          = reindex inner.index key (if op = opPut then some (c.payloadOf inner key op data) else none)
      ∧ (c.append inner key op data).2 = inner.seq + 1 := by
  have hraw : (c.append inner key op data).1.file = inner.file.take inner.fin
        ++ c.frameOf inner key op data
        ++ inner.file.drop (inner.fin + (c.frameOf inner key op data).length)
      ∧ (c.append inner key op data).1.fin = inner.fin + (c.frameOf inner key op data).length
      ∧ (c.append inner key op data).1.seq = inner.seq + 1
      ∧ (c.append inner key op data).1.index
          = reindex inner.index key (if op = opPut then some (c.payloadOf inner key op data) else none)
      ∧ (c.append inner key op data).2 = inner.seq + 1 := by
    unfold append reindex frameOf payloadOf
    cases data <;> cases hg : inner.index.get? key <;> by_cases hop : op = opPut <;>
      simp [hg, hop, entryOf, encodeFrame_snd, offsetsFrom]
  obtain ⟨h1, h2, h3, h4, h5⟩ := hraw
  refine ⟨?_, ?_, h3, h4, h5⟩
  · rw [h1, hfin, List.take_length, List.drop_eq_nil_of_le (by omega), List.append_nil]
  · rw [h2, hfin, List.length_append]

/-- The lengths of a write fit. -/
structure WriteFits (inner : FileInner) (key : String) (data : Option (List UInt8)) : Prop where
  key : (utf8 key).length < 2 ^ 16
  data : ∀ d, data = some d → d.length < 2 ^ 32
  seq : inner.seq + 1 < 2 ^ 64

theorem encodeValue_length (data : List UInt8) : (c.encodeValue data).2.length ≤ data.length := by
  unfold encodeValue
  dsimp only
  split
  · rename_i h
    exact h.2.trans (Nat.sub_le ..)
  · exact le_rfl

theorem entryOf_fits (hc : c.Lawful) {key : String} {op : UInt8}
    {data : Option (List UInt8)} (h : WriteFits inner key data) :
    Fits c (inner.seq + 1) [c.entryOf (inner.seq + 1) key op data] := by
  have hkey : (c.entryOf (inner.seq + 1) key op data).key = key := by cases data <;> rfl
  have hseq : (c.entryOf (inner.seq + 1) key op data).seq = inner.seq + 1 := by cases data <;> rfl
  have hstored : (c.entryOf (inner.seq + 1) key op data).stored.length < 2 ^ 32 := by
    cases data with
    | none => exact (by decide : 0 < 2 ^ 32)
    | some d => exact lt_of_le_of_lt (encodeValue_length d) (h.data d rfl)
  have hraw : (c.entryOf (inner.seq + 1) key op data).rawLen < 2 ^ 32 := by
    cases data with
    | none => exact (by decide : 0 < 2 ^ 32)
    | some d => exact Nat.mod_lt _ (by decide)
  have hk := h.key
  have hkeys : (keysRaw [c.entryOf (inner.seq + 1) key op data]).length
      = 2 + (utf8 key).length := by
    rw [keysRaw_cons, hkey]
    simp [keysRaw]
  have hcomp := hc.compress_length (keysRaw [c.entryOf (inner.seq + 1) key op data])
  rw [hkeys] at hcomp
  refine ⟨⟨h.seq, (by decide : 1 * metaRecordLen < 2 ^ 32), by omega, by omega, ?_⟩, ?_⟩
  · rw [dataOf_cons, List.length_append]
    simp only [dataOf, List.flatMap_nil, List.length_nil]
    omega
  · intro e he
    cases List.mem_singleton.mp he
    rw [hkey, hseq]
    exact ⟨hk, hstored, hraw, h.seq⟩

theorem payloadOf_held (hc : c.Lawful) {key : String}
    (h : WriteFits inner key (some data)) (hfin : inner.fin = inner.file.length) :
    Held c (inner.file ++ c.frameOf inner key opPut (some data))
      (c.payloadOf inner key opPut (some data)) data := by
  let e := c.entryOf (inner.seq + 1) key opPut (some data)
  have hfits : Fits c (inner.seq + 1) [e] := entryOf_fits hc h
  have hd := h.data data rfl
  have hstored : e.stored.length % 2 ^ 32 = e.stored.length :=
    Nat.mod_eq_of_lt (hfits.entry e (List.mem_singleton.mpr rfl)).2.1
  have hraw : data.length % 2 ^ 32 = data.length := Nat.mod_eq_of_lt hd
  have hdata : dataOf [e] = e.stored := by
    rw [dataOf_cons]
    exact List.append_nil _
  have hframe : inner.file ++ c.frameOf inner key opPut (some data)
      = (inner.file ++ (c.frameHead (inner.seq + 1) [e] ++ c.sections [e])) ++ e.stored := by
    rw [frameOf, encodeFrame_fst, hdata, List.append_assoc inner.file]
  have hoff : (c.payloadOf inner key opPut (some data)).offset
      = (inner.file ++ (c.frameHead (inner.seq + 1) [e] ++ c.sections [e])).length := by
    show inner.fin + frameHeadLen + (c.sections [e]).length = _
    rw [List.length_append, List.length_append, length_frameHead, hfin, Nat.add_assoc]
  have hslice : slice (inner.file ++ c.frameOf inner key opPut (some data))
      (c.payloadOf inner key opPut (some data)).offset
      (c.payloadOf inner key opPut (some data)).storedLen = e.stored := by
    show slice _ _ (e.stored.length % 2 ^ 32) = _
    rw [hstored, hframe, hoff, slice_skip le_rfl, Nat.sub_self, slice_all le_rfl]
  constructor
  · show _ + e.stored.length % 2 ^ 32 ≤ _
    rw [hstored, hframe, hoff, ← List.length_append]
  · rw [hslice]
    rfl
  · rw [hslice]
    show if decide ((c.encodeValue data).1 = encLz4) then
      c.decompress (c.encodeValue data).2 (data.length % 2 ^ 32) = some data
      else (c.encodeValue data).2 = data
    rw [hraw]
    unfold encodeValue
    dsimp only
    split
    · rw [if_pos (decide_eq_true rfl), hc.decompress_compress]
    · rw [if_neg (by simp [encRaw, encLz4])]
  · exact Nat.mod_lt _ (by decide)
  · exact Nat.mod_lt _ (by decide)
  · exact h.seq

theorem scanFrom_write (hc : c.Lawful) (hs : Sound c inner done) {key : String} (op : UInt8)
    {data : Option (List UInt8)} (h : WriteFits inner key data) :
    ∃ sc, c.scanFrom (inner.file ++ c.frameOf inner key op data) headerLen Scan.new
        = (sc, (inner.file ++ c.frameOf inner key op data).length)
      ∧ (∀ key', sc.index.get? key' = (reindex inner.index key
          (if op = opPut then some (c.payloadOf inner key op data) else none)).get? key')
      ∧ sc.seq = inner.seq + 1 := by
  obtain ⟨sc, hscan, hindex, hseq⟩ := hs.scanned
  have hfits : Fits c (inner.seq + 1) [c.entryOf (inner.seq + 1) key op data] := entryOf_fits hc h
  have hkey : (c.entryOf (inner.seq + 1) key op data).key = key := by cases data <;> rfl
  have hop : (c.entryOf (inner.seq + 1) key op data).op = op := by cases data <;> rfl
  have hs' : (c.entryOf (inner.seq + 1) key op data).seq = inner.seq + 1 := by cases data <;> rfl
  have hstored := (hfits.entry _ (List.mem_singleton.mpr rfl)).2.1
  refine ⟨_, scanFrom_frame hc hfits inner.fin hscan, ?_, ?_⟩
  · intro key'
    -- the record of the frame is the entry `append` puts into the index
    have hrec : (c.recordOf (c.entryOf (inner.seq + 1) key op data) 0).toEntry
        (inner.file.length + frameHeadLen
          + (c.sections [c.entryOf (inner.seq + 1) key op data]).length)
        = if op = opPut then some (c.payloadOf inner key op data) else none := by
      unfold Record.toEntry recordOf payloadOf
      dsimp only
      rw [hop, hs', hs.fin, Nat.mod_eq_of_lt hstored]
      rfl
    show (sc.entry _ _ _).index.get? key' = _
    rw [Scan.entry_index, hkey, get?_reindex, get?_reindex, hindex key']
    exact congrArg (fun e => if key' = key then e else inner.index.get? key') hrec
  · show max (sc.entry _ _ _).seq (inner.seq + 1) = inner.seq + 1
    rw [Scan.entry_seq]
    rcases hseq with hseq | ⟨-, hseq⟩ <;> omega

theorem Sound.append (hc : c.Lawful)
    (hs : Sound c inner done) {key : String} {op : UInt8} {data : Option (List UInt8)}
    (h : WriteFits inner key data) {event : FileEvent}
    (hother : ∀ key', key' ≠ key → objectsAfter (event :: done) key' = objectsAfter done key')
    (hself : if op = opPut then ∃ d, data = some d
        ∧ objectsAfter (event :: done) key = some (d, inner.seq + 1)
      else objectsAfter (event :: done) key = none) :
    Sound c (c.append inner key op data).1 (event :: done) := by
  obtain ⟨hfile, hfin, hseq, hindex, -⟩ := append_parts (c := c) inner key op data hs.fin
  obtain ⟨sc, hscan, hsc, hscseq⟩ := scanFrom_write hc hs op h
  constructor
  · obtain ⟨rest, hrest⟩ := hs.headed
    exact ⟨rest ++ c.frameOf inner key op data, by rw [hfile, hrest, List.append_assoc]⟩
  · rw [hfin, hfile]
  · rw [hfile, hseq, hindex]
    exact ⟨sc, hscan, hsc, .inl hscseq⟩
  · intro key'
    rw [hfile, hindex, get?_reindex]
    by_cases hk : key' = key
    · subst hk
      rw [if_pos rfl]
      by_cases hop : op = opPut
      · subst hop
        rw [if_pos rfl] at hself ⊢
        obtain ⟨d, rfl, hobj⟩ := hself
        exact ⟨h.key, d, hobj, payloadOf_held hc h hs.fin⟩
      · rw [if_neg hop] at hself ⊢
        exact hself
    · have hold := hs.answers key'
      rw [if_neg hk]
      cases hg : inner.index.get? key' with
      | none =>
        rw [hg] at hold
        rw [hother key' hk]
        exact hold
      | some e =>
        rw [hg] at hold
        obtain ⟨hlen, d, hobj, hheld⟩ := hold
        rw [hother key' hk]
        exact ⟨hlen, d, hobj, hheld.append _⟩

/-! ## Compaction -/

/-- The frame entry of a live entry. -/
def liveEntry (file : List UInt8) (p : String × FileEntry) : FrameEntry :=
  ⟨p.1, opPut, if p.2.lz4 then encLz4 else encRaw, slice file p.2.offset p.2.storedLen, p.2.rawLen,
    p.2.seq⟩

theorem liveEntries_eq (inner : FileInner) :
    liveEntries inner = inner.index.entries.map (liveEntry inner.file) := rfl

/-- The file holds a value for every one of these entries. -/
def AllHeld (c : FileCodec) (file : List UInt8) (ps : List (String × FileEntry)) : Prop :=
  ∀ p ∈ ps, ∃ data, Held c file p.2 data

theorem recordOf_liveEntry {p : String × FileEntry} (h : Held c file p.2 data) (base off : Nat) :
    (c.recordOf (liveEntry file p) off).toEntry base
      = some { p.2 with offset := base + off } := by
  unfold Record.toEntry recordOf liveEntry
  dsimp only
  rw [if_pos rfl, length_slice h.within, h.crc]
  cases hl : p.2.lz4 with
  | true => simp
  | false => simp [encRaw, encLz4]

variable {ps : List (String × FileEntry)}

/-- The scan of the frame compaction writes finds what `compact` leaves in
the index. -/
theorem scan_moved (base : Nat) :
    ∀ (off : Nat) (s : Scan) (m : OrdMap String FileEntry) (key : String), AllHeld c file ps →
    (s.index.get? key = m.get? key ∨ key ∈ ps.map Prod.fst) →
    ((c.recordsFrom off (ps.map (liveEntry file))).foldl (fun s e => s.entry base e.1 e.2)
        s).index.get? key
      = ((ps.zip (offsetsFrom (base + off) (ps.map (liveEntry file)))).foldl
          (fun m p => m.insert p.1.1 { p.1.2 with offset := p.2 }) m).get? key := by
  induction ps with
  | nil =>
    intro off s m key _ h
    exact h.resolve_right (fun h => nomatch h)
  | cons p ps ih =>
    intro off s m key hheld h
    obtain ⟨data, hp⟩ := hheld p List.mem_cons_self
    simp only [List.map_cons, recordsFrom, offsetsFrom, List.zip_cons_cons, List.foldl_cons]
    rw [Nat.add_assoc]
    refine ih _ _ _ _ (fun q hq => hheld q (.tail _ hq)) ?_
    rw [Scan.entry_index, get?_reindex, recordOf_liveEntry hp, OrdMap.get?_insert]
    by_cases hk : key = p.1
    · have hk' : key = (liveEntry file p).key := hk
      rw [if_pos hk, if_pos hk']
      exact .inl rfl
    · have hk' : ¬ key = (liveEntry file p).key := hk
      rw [if_neg hk, if_neg hk']
      refine h.imp_right fun hmem => ?_
      rcases List.mem_cons.mp hmem with heq | hmem
      · exact absurd heq hk
      · exact hmem

theorem scan_seq (base : Nat) (rs : List (String × Record)) : ∀ s : Scan,
    (rs.foldl (fun s e => s.entry base e.1 e.2) s).seq = s.seq := by
  induction rs with
  | nil => exact fun _ => rfl
  | cons r rs ih =>
    intro s
    rw [List.foldl_cons, ih, Scan.entry_seq]

/-- Where `compact` moves an entry to, there is its payload. -/
theorem moved_held :
    ∀ {pre : List UInt8} {m : OrdMap String FileEntry} {key : String} {e' : FileEntry},
    AllHeld c file ps →
    ((ps.zip (offsetsFrom pre.length (ps.map (liveEntry file)))).foldl
      (fun m p => m.insert p.1.1 { p.1.2 with offset := p.2 }) m).get? key = some e' →
    (m.get? key = some e' ∧ key ∉ ps.map Prod.fst) ∨ ∃ e, (key, e) ∈ ps
      ∧ ∃ off, e' = { e with offset := off }
        ∧ off + e.storedLen ≤ (pre ++ dataOf (ps.map (liveEntry file))).length
        ∧ slice (pre ++ dataOf (ps.map (liveEntry file))) off e.storedLen
          = slice file e.offset e.storedLen := by
  induction ps with
  | nil =>
    intro pre m key e' _ h
    exact .inl ⟨h, fun h => nomatch h⟩
  | cons p ps ih =>
    intro pre m key e' hheld h
    obtain ⟨data, hp⟩ := hheld p List.mem_cons_self
    have hstored : (liveEntry file p).stored = slice file p.2.offset p.2.storedLen := rfl
    have hlen : (slice file p.2.offset p.2.storedLen).length = p.2.storedLen :=
      length_slice hp.within
    have hpre : pre.length + (liveEntry file p).stored.length
        = (pre ++ (liveEntry file p).stored).length := (List.length_append ..).symm
    have hdata : pre ++ dataOf ((p :: ps).map (liveEntry file))
        = (pre ++ (liveEntry file p).stored) ++ dataOf (ps.map (liveEntry file)) := by
      rw [List.map_cons, dataOf_cons, List.append_assoc]
    simp only [List.map_cons, offsetsFrom, List.zip_cons_cons, List.foldl_cons] at h
    rw [hpre] at h
    rw [hdata]
    rcases ih (fun q hq => hheld q (.tail _ hq)) h with
      ⟨hm, hnot⟩ | ⟨e, hmem, off, he, hin, hslice⟩
    · rw [OrdMap.get?_insert] at hm
      by_cases hk : key = p.1
      · subst hk
        rw [if_pos rfl] at hm
        refine .inr ⟨p.2, List.mem_cons_self, pre.length, (Option.some.inj hm).symm, ?_, ?_⟩
        · rw [List.length_append, List.length_append, hstored, hlen]
          omega
        · rw [List.append_assoc, slice_skip le_rfl, Nat.sub_self, hstored,
            slice_head hlen.symm]
      · rw [if_neg hk] at hm
        refine .inl ⟨hm, ?_⟩
        rw [List.map_cons, List.mem_cons]
        exact fun h => h.elim hk hnot
    · exact .inr ⟨e, .tail _ hmem, off, he, hin, hslice⟩

theorem moved_none : ∀ {offs : List Nat}
    {m : OrdMap String FileEntry} {key : String},
    ((ps.zip offs).foldl (fun m p => m.insert p.1.1 { p.1.2 with offset := p.2 }) m).get? key = none →
    m.get? key = none := by
  induction ps with
  | nil => exact fun h => h
  | cons p ps ih =>
    intro offs m key h
    cases offs with
    | nil => exact h
    | cons o offs =>
      have hins := ih h
      rw [OrdMap.get?_insert] at hins
      split at hins
      · cases hins
      · exact hins

/-- The lengths of a compaction fit. -/
structure CompactFits (c : FileCodec) (inner : FileInner) : Prop where
  seq : inner.seq < 2 ^ 64
  count : (liveEntries inner).length * metaRecordLen < 2 ^ 32
  keysComp : (c.compress (keysRaw (liveEntries inner))).length < 2 ^ 32
  keysRaw : (keysRaw (liveEntries inner)).length < 2 ^ 32
  data : (dataOf (liveEntries inner)).length < 2 ^ 64

@[simp] theorem length_fileHeader : fileHeader.length = headerLen := rfl

theorem scanFrom_fileHeader : c.scanFrom fileHeader headerLen Scan.new
    = (Scan.new, fileHeader.length) := by
  rw [scanFrom, if_pos (by decide)]
  rfl

theorem Answers.allHeld {index : OrdMap String FileEntry} (h : Answers c file index done) : AllHeld c file index.entries := by
  intro p hp
  have hk := h p.1
  rw [OrdMap.get?_eq_some.mpr hp] at hk
  obtain ⟨-, data, -, hheld⟩ := hk
  exact ⟨data, hheld⟩

theorem CompactFits.frame (h : CompactFits c inner)
    (ha : Answers c inner.file inner.index done) : Fits c inner.seq (liveEntries inner) := by
  refine ⟨⟨h.seq, h.count, h.keysComp, h.keysRaw, h.data⟩, ?_⟩
  intro e he
  obtain ⟨p, hp, rfl⟩ := List.mem_map.mp he
  have hk := ha p.1
  rw [OrdMap.get?_eq_some.mpr hp] at hk
  obtain ⟨hlen, data, -, hheld⟩ := hk
  refine ⟨hlen, ?_, hheld.rawLen, hheld.seq⟩
  show (slice inner.file p.2.offset p.2.storedLen).length < 2 ^ 32
  rw [length_slice hheld.within]
  exact hheld.storedLen

theorem Sound.compact (hc : c.Lawful)
    (hs : Sound c inner done) (h : CompactFits c inner) : Sound c (c.compact inner) done := by
  by_cases hlive : liveEntries inner = []
  · have hnone : inner.index.entries = [] := List.map_eq_nil_iff.mp hlive
    have hcomp : c.compacted inner = (fileHeader, []) := by
      rw [compacted, if_pos hlive]
    have hget : ∀ key, inner.index.get? key = none := by
      intro key
      rw [OrdMap.get?_eq_none, hnone]
      exact fun _ h => nomatch h
    have hindex : moved inner.index [] = inner.index := by
      rw [moved, List.zip_nil_right]
      rfl
    unfold FileCodec.compact
    rw [hcomp]
    dsimp only
    rw [hindex]
    refine ⟨⟨[], rfl⟩, rfl, ⟨Scan.new, scanFrom_fileHeader, ?_, .inr ⟨rfl, rfl⟩⟩, ?_⟩
    · intro key
      rw [hget key]
      rfl
    · intro key
      have hk := hs.answers key
      rw [hget key] at hk ⊢
      exact hk
  · have hcomp : c.compacted inner
        = (fileHeader ++ (c.encodeFrame inner.seq (liveEntries inner) headerLen).1,
          (c.encodeFrame inner.seq (liveEntries inner) headerLen).2) := by
      rw [compacted, if_neg hlive]
    have hheld := hs.answers.allHeld
    have hscan := scanFrom_frame hc (h.frame hs.answers) headerLen scanFrom_fileHeader
    let pre := fileHeader ++ (c.frameHead inner.seq (liveEntries inner)
      ++ c.sections (liveEntries inner))
    have hpre : pre.length = headerLen + frameHeadLen + (c.sections (liveEntries inner)).length := by
      rw [List.length_append, List.length_append, length_frameHead, length_fileHeader, Nat.add_assoc]
    have hfile : fileHeader ++ (c.encodeFrame inner.seq (liveEntries inner) headerLen).1
        = pre ++ dataOf (inner.index.entries.map (liveEntry inner.file)) := by
      rw [encodeFrame_fst, List.append_assoc fileHeader, ← liveEntries_eq]
    have hmoved : moved inner.index (c.encodeFrame inner.seq (liveEntries inner) headerLen).2
        = (inner.index.entries.zip
            (offsetsFrom pre.length (inner.index.entries.map (liveEntry inner.file)))).foldl
          (fun m p => m.insert p.1.1 { p.1.2 with offset := p.2 }) inner.index := by
      rw [moved, encodeFrame_snd, hpre, ← liveEntries_eq]
    unfold FileCodec.compact
    rw [hcomp]
    dsimp only
    refine ⟨⟨_, rfl⟩, rfl, ⟨_, hscan, ?_, ?_⟩, ?_⟩
    · intro key
      have hsm := scan_moved pre.length 0 Scan.new inner.index key hheld
      rw [hmoved]
      rw [hpre] at hsm ⊢
      refine hsm ?_
      cases hg : inner.index.get? key with
      | none => exact .inl rfl
      | some e =>
        exact .inr (List.mem_map.mpr ⟨(key, e), OrdMap.get?_eq_some.mp hg, rfl⟩)
    · left
      show max (List.foldl _ Scan.new _).seq inner.seq = inner.seq
      rw [scan_seq]
      exact Nat.max_eq_right (Nat.zero_le _)
    · intro key
      rw [hmoved, hfile]
      cases hg : ((inner.index.entries.zip
          (offsetsFrom pre.length (inner.index.entries.map (liveEntry inner.file)))).foldl
          (fun m p => m.insert p.1.1 { p.1.2 with offset := p.2 }) inner.index).get? key with
      | none =>
        have hk := hs.answers key
        rw [moved_none hg] at hk
        exact hk
      | some e' =>
        rcases moved_held hheld hg with ⟨hold, hnot⟩ | ⟨e, hmem, off, rfl, hin, hslice⟩
        · exact absurd (List.mem_map.mpr ⟨(key, e'), OrdMap.get?_eq_some.mp hold, rfl⟩) hnot
        · have hk := hs.answers key
          rw [OrdMap.get?_eq_some.mpr hmem] at hk
          obtain ⟨hlen, data, hobj, he⟩ := hk
          exact ⟨hlen, data, hobj, he.copied hin hslice⟩

end FileCodec

end Zou
