import Zou.Frame
import Zou.Lib.Packing

/-!
# Frames read back, and what a decoder accepts

What the encoder makes of a frame within its limits decodes to the frame,
whatever follows it in the buffer, and takes exactly the encoded bytes; so
frames one behind the other read back in order. On a string of bytes of any
origin the decoder does not panic, and what it accepts lies in the buffer
and is as long as the header says.

The two halves take the decoder apart in the same order. For a frame that
was encoded each field is read where `head` puts it, then the hints, then
the payload (`decode_wire`). For any bytes each read is shown to be inside
the buffer by the checks made before it (`decode_meets`). The walk needs of
both that a frame takes bytes: it ends, and it has the fuel for what it is
given.
-/

namespace Zou

namespace Wire

open Bytes Outcome

namespace Frame2

variable {p : WirePacking}

/-! ## Lengths -/

theorem bytes_length (h : BlockRef) : h.bytes.length = hintLen := by
  simp only [BlockRef.bytes, List.length_append, length_le, List.length_cons, hintLen]

theorem flatMap_bytes_length (hints : List BlockRef) :
    (hints.flatMap BlockRef.bytes).length = hints.length * hintLen :=
  length_flatMap_of_length bytes_length hints

theorem hintBytes_length_le {hints : List BlockRef} (h : hints.length ≤ maxHints) :
    (hintBytes hints).length ≤ 2 + maxHints * hintLen := by
  rw [hintBytes]
  split
  · exact Nat.zero_le _
  · rw [List.length_append, length_le, flatMap_bytes_length]
    have := Nat.mul_le_mul_right hintLen h
    omega

theorem packed_length_le (payload : List UInt8) : (packed p payload).2.length ≤ payload.length := by
  rw [packed]
  split
  · exact Nat.le_of_lt ‹_›
  · exact le_rfl

/-- The bytes a frame takes. -/
def size (p : WirePacking) (f : Frame2) : Nat :=
  frameHeaderLen + (hintBytes f.hints).length + (packed p f.payload).2.length

/-- The header of a frame, up to its hints. -/
def head (p : WirePacking) (f : Frame2) : List UInt8 :=
  le 4 (f.size p) ++ (le 4 (p.crc 0 (f.covered p)) ++ (le 16 f.tenant.toNat
    ++ (le 4 f.writerEpoch.toNat ++ (le 8 f.startLsn.toNat ++ (le 8 f.endLsn.toNat
    ++ (flags f.containsCommit f.firstOfEpoch (! f.hints.isEmpty) (packed p f.payload).1
    :: le 4 f.payload.length))))))

theorem head_length (f : Frame2) : (f.head p).length = frameHeaderLen := by
  simp only [head, List.length_append, length_le, List.length_cons, frameHeaderLen]

theorem wire_eq (f : Frame2) :
    f.wire p = f.head p ++ (hintBytes f.hints ++ (packed p f.payload).2) := by
  simp only [wire, head, size, covered, List.append_assoc, List.cons_append]

theorem wire_length (f : Frame2) : (f.wire p).length = f.size p := by
  rw [wire_eq, List.length_append, List.length_append, head_length, size, Nat.add_assoc]

theorem covered_length (f : Frame2) : (f.covered p).length + crcEnd = f.size p := by
  rw [← wire_length, wire, List.length_append, List.length_append, length_le, length_le, crcEnd]
  omega

theorem header_le_size (f : Frame2) : frameHeaderLen ≤ f.size p := by
  rw [size]
  omega

theorem wire_pos (f : Frame2) : 0 < (f.wire p).length := by
  rw [wire_length]
  exact Nat.lt_of_lt_of_le (by decide) (header_le_size f)

variable {f : Frame2}

theorem size_le (h : f.Encodable) :
    f.size p ≤ frameHeaderLen + (2 + maxHints * hintLen) + maxPayloadLen := by
  have hhints := hintBytes_length_le h.2
  have hbody := Nat.le_trans (packed_length_le (p := p) f.payload) h.1
  rw [size]
  omega

/-- The bound a reader puts on a frame holds of every frame that is encoded. -/
theorem size_le_maxLen (hp : p.Lawful) (h : f.Encodable) : f.size p ≤ maxLen p := by
  have hmax := hp.le_maxOutput maxPayloadLen
  have hsize := size_le (p := p) h
  rw [maxLen]
  omega

theorem size_lt (h : f.Encodable) : f.size p < 2 ^ 32 :=
  Nat.lt_of_le_of_lt (size_le h) (by decide)

/-! ## Fields read back -/

theorem flags_known (a b c d : Bool) : flags a b c d &&& ~~~ flagKnown = 0 := by
  cases a <;> cases b <;> cases c <;> cases d <;> decide

theorem flags_containsCommit (a b c d : Bool) :
    decide (flags a b c d &&& flagContainsCommit ≠ 0) = a := by
  cases a <;> cases b <;> cases c <;> cases d <;> decide

theorem flags_firstOfEpoch (a b c d : Bool) :
    decide (flags a b c d &&& flagFirstOfEpoch ≠ 0) = b := by
  cases a <;> cases b <;> cases c <;> cases d <;> decide

theorem flags_hints (a b c d : Bool) : flags a b c d &&& flagHints ≠ 0 ↔ c = true := by
  cases a <;> cases b <;> cases c <;> cases d <;> decide

theorem flags_uncompressed (a b c d : Bool) :
    flags a b c d &&& flagUncompressed ≠ 0 ↔ d = true := by
  cases a <;> cases b <;> cases c <;> cases d <;> decide

/-- Hints are read one by one, each behind the last. -/
theorem readHints_bytes (hints : List BlockRef) (pre rest : List UInt8) :
    readHints (pre ++ (hints.flatMap BlockRef.bytes ++ rest)) hints.length pre.length
      = .ok (hints, pre.length + hints.length * hintLen) := by
  induction hints generalizing pre with
  | nil => simp only [List.length_nil, readHints, pure_eq, Nat.zero_mul, Nat.add_zero]
  | cons h hints ih =>
    have hih := ih (pre ++ h.bytes)
    have hlen : (pre ++ h.bytes).length = pre.length + hintLen := by
      rw [List.length_append, bytes_length]
    have hbuf : pre ++ (h.bytes ++ (hints.flatMap BlockRef.bytes ++ rest))
        = (pre ++ h.bytes) ++ (hints.flatMap BlockRef.bytes ++ rest) := by
      rw [List.append_assoc]
    have hrel : (range (pre ++ (h.bytes ++ (hints.flatMap BlockRef.bytes ++ rest))) pre.length
        (pre.length + 4) : Outcome Frame2DecodeError _) = .ok (le 4 h.relfilenode.toNat) := by
      rw [BlockRef.bytes, List.append_assoc]
      exact range_part rfl (by rw [length_le])
    have hfork : (index (pre ++ (h.bytes ++ (hints.flatMap BlockRef.bytes ++ rest)))
        (pre.length + 4) : Outcome Frame2DecodeError _) = .ok h.fork := by
      rw [BlockRef.bytes, index, List.getElem?_append_right (by omega), List.append_assoc,
        List.getElem?_append_right (by rw [length_le]; omega), length_le,
        show pre.length + 4 - pre.length - 4 = 0 by omega]
      rfl
    have hblock : (range (pre ++ (h.bytes ++ (hints.flatMap BlockRef.bytes ++ rest)))
        (pre.length + 5) (pre.length + 9) : Outcome Frame2DecodeError _)
        = .ok (le 4 h.block.toNat) := by
      have hsplit : pre ++ (h.bytes ++ (hints.flatMap BlockRef.bytes ++ rest))
          = (pre ++ (le 4 h.relfilenode.toNat ++ [h.fork]))
            ++ (le 4 h.block.toNat ++ (hints.flatMap BlockRef.bytes ++ rest)) := by
        simp only [BlockRef.bytes, List.append_assoc, List.cons_append, List.nil_append]
      rw [hsplit]
      exact range_part (by simp) (by rw [length_le])
    rw [List.flatMap_cons, List.append_assoc, List.length_cons, readHints, hrel, Outcome.ok_bind, hfork,
      Outcome.ok_bind, hblock, Outcome.ok_bind, hbuf, ← hlen, hih, Outcome.ok_bind]
    simp only [pure_eq, ofLe_le_u32, hlen, Nat.succ_mul]
    rw [Nat.add_right_comm, Nat.add_assoc]

/-- The hints of an encoded frame, behind a header of the right length: their
count is there only where there are any. -/
theorem decodeHints_bytes {hints : List BlockRef} (hmax : hints.length ≤ maxHints)
    {pre : List UInt8} (hpre : pre.length = frameHeaderLen) (rest : List UInt8) {total : Nat}
    (htotal : frameHeaderLen + (hintBytes hints).length ≤ total) (a b d : Bool) :
    decodeHints (pre ++ (hintBytes hints ++ rest)) total (flags a b (! hints.isEmpty) d)
      = .ok (hints, frameHeaderLen + (hintBytes hints).length) := by
  rw [decodeHints]
  by_cases hemp : hints = []
  · subst hemp
    rw [if_neg (by rw [flags_hints]; decide)]
    rfl
  have hhinted : hints.isEmpty = false := by
    cases hints with
    | nil => exact absurd rfl hemp
    | cons h hs => rfl
  have hlt : hints.length < 2 ^ 16 := Nat.lt_of_le_of_lt hmax (by decide)
  have hbytes : hintBytes hints = le 2 hints.length ++ hints.flatMap BlockRef.bytes := by
    rw [hintBytes, hhinted, if_neg Bool.false_ne_true]
  have hlen : (hintBytes hints).length = 2 + hints.length * hintLen := by
    rw [hbytes, List.length_append, length_le, flatMap_bytes_length]
  have hcount : (UInt16.ofNat (ofLe (le 2 hints.length))).toNat = hints.length := by
    rw [ofLe_le16 hlt]
    exact UInt16.toNat_ofNat_of_lt' hlt
  have hread : (range (pre ++ (hintBytes hints ++ rest)) frameHeaderLen (frameHeaderLen + 2) :
      Outcome Frame2DecodeError _) = .ok (le 2 hints.length) := by
    rw [hbytes, List.append_assoc]
    exact range_part hpre (by rw [length_le])
  have hrefs := readHints_bytes hints (pre ++ le 2 hints.length) rest
  rw [List.length_append, length_le, hpre, List.append_assoc, ← List.append_assoc (le 2 _),
    ← hbytes] at hrefs
  rw [if_pos (by rw [flags_hints, hhinted]; rfl), reject_neg (by omega), Outcome.ok_bind, hread, Outcome.ok_bind]
  simp only [hcount]
  rw [reject_neg (by omega), Outcome.ok_bind, reject_neg (by omega), Outcome.ok_bind, hrefs, hlen, Nat.add_assoc]

/-- A payload comes back from whichever of the two ways it was kept in. -/
theorem unpack_packed (hp : p.Lawful) (payload : List UInt8) (a b c : Bool) :
    unpack p (flags a b c (packed p payload).1) payload.length (packed p payload).2
      = .ok payload := by
  rw [packed]
  split
  · rw [unpack, if_neg (by rw [flags_uncompressed]; exact Bool.false_ne_true),
      hp.decompress_compress]
    simp only [if_true]
  · rw [unpack, if_pos (by rw [flags_uncompressed])]
    simp only [ne_eq, not_true_eq_false, if_false]

/-! ## A frame reads back -/

/-- The fields of the header, each read where the decoder reads it. -/
theorem head_reads (f : Frame2) (tail : List UInt8) {ε : Type} :
    (range (f.head p ++ tail) 0 4 : Outcome ε _) = .ok (le 4 (f.size p))
    ∧ (range (f.head p ++ tail) 4 8 : Outcome ε _) = .ok (le 4 (p.crc 0 (f.covered p)))
    ∧ (range (f.head p ++ tail) 8 24 : Outcome ε _) = .ok (le 16 f.tenant.toNat)
    ∧ (range (f.head p ++ tail) 24 28 : Outcome ε _) = .ok (le 4 f.writerEpoch.toNat)
    ∧ (range (f.head p ++ tail) 28 36 : Outcome ε _) = .ok (le 8 f.startLsn.toNat)
    ∧ (range (f.head p ++ tail) 36 44 : Outcome ε _) = .ok (le 8 f.endLsn.toNat)
    ∧ (index (f.head p ++ tail) 44 : Outcome ε _)
      = .ok (flags f.containsCommit f.firstOfEpoch (! f.hints.isEmpty) (packed p f.payload).1)
    ∧ (range (f.head p ++ tail) 45 49 : Outcome ε _) = .ok (le 4 f.payload.length) := by
  simp [head]

/-- An encoded frame is read back, whatever follows it. -/
theorem decode_wire (hp : p.Lawful) (hf : f.Encodable) (rest : List UInt8) :
    decode p (f.wire p ++ rest) = .ok (f, (f.wire p).length) := by
  -- the lengths the header declares fit their fields
  have hsize := size_lt (p := p) hf
  have hmaxLen := size_le_maxLen hp hf
  have hheader := header_le_size (p := p) f
  have hpayload : f.payload.length < 2 ^ 32 := Nat.lt_of_le_of_lt hf.1 (by decide)
  have hlen : (f.wire p ++ rest).length = f.size p + rest.length := by
    rw [List.length_append, wire_length]
  have htotal : (UInt32.ofNat (ofLe (le 4 (f.size p)))).toNat = f.size p := by
    rw [ofLe_le32 hsize]
    exact UInt32.toNat_ofNat_of_lt' hsize
  have hplen : (UInt32.ofNat (ofLe (le 4 f.payload.length))).toNat = f.payload.length := by
    rw [ofLe_le32 hpayload]
    exact UInt32.toNat_ofNat_of_lt' hpayload
  -- what the checksum covers, and what stands behind the hints
  have hcovered : (range (f.wire p ++ rest) crcEnd (f.size p) : Outcome Frame2DecodeError _)
      = .ok (f.covered p) := by
    rw [wire, ← List.append_assoc (le 4 _), List.append_assoc]
    refine range_part (by rw [List.length_append, length_le, length_le]; rfl) ?_
    rw [← covered_length, Nat.add_comm]
  have hparts : f.wire p ++ rest
      = f.head p ++ (hintBytes f.hints ++ ((packed p f.payload).2 ++ rest)) := by
    simp only [wire_eq, List.append_assoc]
  have hbody : (range (f.wire p ++ rest) (frameHeaderLen + (hintBytes f.hints).length) (f.size p) :
      Outcome Frame2DecodeError _) = .ok (packed p f.payload).2 := by
    rw [hparts, ← List.append_assoc (f.head p)]
    exact range_part (by rw [List.length_append, head_length]) rfl
  have hhints := decodeHints_bytes hf.2 (head_length (p := p) f)
    ((packed p f.payload).2 ++ rest) (show _ ≤ f.size p by rw [size]; omega)
    f.containsCommit f.firstOfEpoch (packed p f.payload).1
  rw [← hparts] at hhints
  have hunpack := unpack_packed hp f.payload f.containsCommit f.firstOfEpoch (! f.hints.isEmpty)
  obtain ⟨hlen', hcrc, htenant, hepoch, hstart, hend, hflags, hplen'⟩ :=
    head_reads (p := p) (ε := Frame2DecodeError) f
      (hintBytes f.hints ++ ((packed p f.payload).2 ++ rest))
  rw [← hparts] at hlen' hcrc htenant hepoch hstart hend hflags hplen'
  -- every check passes, in the decoder's order
  rw [decode, reject_neg (by omega), Outcome.ok_bind, hlen', Outcome.ok_bind]
  simp only [htotal]
  rw [reject_neg (by omega), Outcome.ok_bind, reject_neg (by omega), Outcome.ok_bind, hcrc, Outcome.ok_bind, hcovered,
    Outcome.ok_bind, ofLe_le32 (hp.crc_lt 0 _), reject_neg (fun h => h rfl), Outcome.ok_bind, htenant, Outcome.ok_bind,
    hepoch, Outcome.ok_bind, hstart, Outcome.ok_bind, hend, Outcome.ok_bind, hflags, Outcome.ok_bind, flags_known,
    reject_neg (fun h => h rfl), Outcome.ok_bind, hplen', Outcome.ok_bind]
  simp only [hplen]
  rw [reject_neg (Nat.not_lt.mpr hf.1), Outcome.ok_bind, hhints, Outcome.ok_bind]
  simp only [hbody, Outcome.ok_bind, hunpack, pure_eq, ofLe_le_u128, ofLe_le_u32, ofLe_le_u64,
    flags_containsCommit, flags_firstOfEpoch, wire_length]

theorem encode_eq_ok {ε : Type} {wire : List UInt8} :
    f.encode p = (.ok wire : Outcome ε _) ↔ f.Encodable ∧ wire = f.wire p := by
  rw [encode]
  split
  · simp only [ok.injEq, true_and, eq_comm, *]
  · simp only [reduceCtorEq, false_and, *]

theorem encodeAll_eq_ok {ε : Type} {fs : List Frame2} {wires : List (List UInt8)} :
    fs.mapM (Frame2.encode p) = (.ok wires : Outcome ε _)
      ↔ (∀ f ∈ fs, f.Encodable) ∧ wires = fs.map (wire p) := by
  induction fs generalizing wires with
  | nil => simp [eq_comm]
  | cons f fs ih =>
    simp only [List.mapM_cons, bind_eq_ok, encode_eq_ok, ih, pure_eq, ok.injEq,
      List.forall_mem_cons, List.map_cons]
    constructor
    · rintro ⟨_, ⟨hf, rfl⟩, _, ⟨hfs, rfl⟩, rfl⟩
      exact ⟨⟨hf, hfs⟩, rfl⟩
    · rintro ⟨⟨hf, hfs⟩, rfl⟩
      exact ⟨_, ⟨hf, rfl⟩, _, ⟨hfs, rfl⟩, rfl⟩

/-! ## What is accepted -/

/-- An accepted frame of `n` bytes lies in the buffer and is what its header
declares. -/
structure Declared (buf : List UInt8) (f : Frame2) (n : Nat) : Prop where
  header : frameHeaderLen ≤ n
  inside : n ≤ buf.length
  total : n = ofLe (slice buf 0 4)
  payload : f.payload.length = ofLe (slice buf 45 4)
  encodable : f.Encodable
  hints : frameHeaderLen + f.hints.length * hintLen ≤ n
  hinted : ∀ flags, buf[44]? = some flags → flags &&& flagHints ≠ 0 →
    f.hints.length = ofLe (slice buf frameHeaderLen 2)
      ∧ frameHeaderLen + 2 + f.hints.length * hintLen ≤ n
  raw : ∀ flags, buf[44]? = some flags → flags &&& flagUncompressed ≠ 0 →
    frameHeaderLen + f.hints.length * hintLen + f.payload.length ≤ n

theorem Declared.pos {buf : List UInt8} {n : Nat} (h : Declared buf f n) : 0 < n :=
  Nat.lt_of_lt_of_le (by decide) h.header

/-- So many hints are read where there is room for them. -/
theorem readHints_meets {buf : List UInt8} (count at_ : Nat)
    (h : at_ + count * hintLen ≤ buf.length) : Meets (readHints buf count at_) fun r =>
      r.1.length = count ∧ r.2 = at_ + count * hintLen := by
  induction count generalizing at_ with
  | zero => exact Meets.ok ⟨rfl, by omega⟩
  | succ count ih =>
    rw [Nat.succ_mul] at h
    have hlen : hintLen = 9 := rfl
    refine Meets.range (by omega) (by omega) ?_
    refine Meets.index (by omega) fun fork _ => ?_
    refine Meets.range (by omega) (by omega) ?_
    refine Meets.bind (ih (at_ + hintLen) (by omega)) fun r hr => ?_
    refine Meets.ok ⟨congrArg Nat.succ hr.1, ?_⟩
    rw [hr.2, Nat.succ_mul]
    omega

/-- Hints that are accepted are as many as is said and lie within the frame. -/
theorem decodeHints_meets {buf : List UInt8} {total : Nat} (hheader : frameHeaderLen ≤ total)
    (htotal : total ≤ buf.length) (flags : UInt8) :
    Meets (decodeHints buf total flags) fun r => r.2 ≤ total ∧ r.1.length ≤ maxHints
      ∧ frameHeaderLen + r.1.length * hintLen ≤ r.2
      ∧ (flags &&& flagHints ≠ 0 → r.1.length = ofLe (slice buf frameHeaderLen 2)
        ∧ frameHeaderLen + 2 + r.1.length * hintLen ≤ r.2) := by
  rw [decodeHints]
  by_cases hhinted : flags &&& flagHints ≠ 0
  · rw [if_pos hhinted]
    refine Meets.reject fun htwo => ?_
    refine Meets.range (by omega) (by omega) ?_
    rw [Nat.add_sub_cancel_left]
    have hcount : (UInt16.ofNat (ofLe (slice buf frameHeaderLen 2))).toNat
        = ofLe (slice buf frameHeaderLen 2) :=
      UInt16.toNat_ofNat_of_lt' (ofLe_slice_lt buf frameHeaderLen 2)
    simp only [hcount]
    refine Meets.reject fun hmax => ?_
    refine Meets.reject fun hlen => ?_
    refine Meets.mono (readHints_meets _ _ (by omega)) fun r hr => ?_
    obtain ⟨hr₁, hr₂⟩ := hr
    rw [hr₁, hr₂]
    exact ⟨by omega, by omega, by omega, fun _ => ⟨rfl, le_rfl⟩⟩
  · rw [if_neg hhinted]
    exact Meets.ok ⟨hheader, Nat.zero_le _, by simp, fun h => absurd h hhinted⟩

/-- A payload that is accepted has the length that is declared. -/
theorem unpack_meets (flags : UInt8) (payloadLen : Nat) (body : List UInt8) :
    Meets (unpack p flags payloadLen body) fun payload => payload.length = payloadLen
      ∧ (flags &&& flagUncompressed ≠ 0 → payload = body) := by
  rw [unpack]
  split
  · split
    · exact Meets.err
    · exact Meets.ok ⟨Decidable.not_not.mp ‹_›, fun _ => rfl⟩
  · split
    · split
      · exact Meets.ok ⟨‹_›, fun h => absurd h ‹_›⟩
      · exact Meets.err
    · exact Meets.err

/-- The decoder reads nothing outside of its bytes, and what it accepts is as
its header declares. -/
theorem decode_meets (buf : List UInt8) : Meets (decode p buf) fun r => Declared buf r.1 r.2 := by
  rw [decode]
  refine Meets.reject fun hhave => ?_
  have hheader : frameHeaderLen = 49 := rfl
  refine Meets.range (by omega) (by omega) ?_
  have hlen : (UInt32.ofNat (ofLe (slice buf 0 (4 - 0)))).toNat = ofLe (slice buf 0 4) :=
    UInt32.toNat_ofNat_of_lt' (ofLe_slice_lt buf 0 4)
  simp only [hlen]
  refine Meets.reject fun hbad => ?_
  refine Meets.reject fun htotal => ?_
  refine Meets.range (by omega) (by omega) ?_
  refine Meets.range (by rw [crcEnd]; omega) (by omega) ?_
  refine Meets.reject fun _ => ?_
  refine Meets.range (by omega) (by omega) ?_
  refine Meets.range (by omega) (by omega) ?_
  refine Meets.range (by omega) (by omega) ?_
  refine Meets.range (by omega) (by omega) ?_
  refine Meets.index (by omega) fun flags hflags => ?_
  refine Meets.reject fun _ => ?_
  refine Meets.range (by omega) (by omega) ?_
  have hplen : (UInt32.ofNat (ofLe (slice buf 45 (49 - 45)))).toNat = ofLe (slice buf 45 4) :=
    UInt32.toNat_ofNat_of_lt' (ofLe_slice_lt buf 45 4)
  simp only [hplen]
  refine Meets.reject fun hmax => ?_
  refine Meets.bind (decodeHints_meets (by omega) (by omega) flags) fun hints hhints => ?_
  obtain ⟨hend, hcount, hafter, hhinted⟩ := hhints
  refine Meets.range hend (by omega) ?_
  refine Meets.bind (unpack_meets flags _ _) fun payload hpayload => ?_
  obtain ⟨hpay, hraw⟩ := hpayload
  -- the flags are read once
  have hflag : ∀ flags', buf[44]? = some flags' → flags' = flags := by
    intro flags' h
    rw [hflags] at h
    exact (Option.some.inj h).symm
  refine Meets.ok ⟨by omega, by omega, rfl, hpay, ⟨?_, hcount⟩, ?_, ?_, ?_⟩
  · exact Nat.le_trans (Nat.le_of_eq hpay) (Nat.not_lt.mp hmax)
  · exact Nat.le_trans hafter hend
  · intro flags' h hset
    rw [hflag flags' h] at hset
    exact ⟨(hhinted hset).1, Nat.le_trans (hhinted hset).2 hend⟩
  · intro flags' h hset
    rw [hflag flags' h] at hset
    have hbody := congrArg List.length (hraw hset)
    rw [length_slice (by omega)] at hbody
    change frameHeaderLen + hints.1.length * hintLen + payload.length ≤ _
    omega

end Frame2

/-! ## The walk -/

namespace Frame2Stream

variable {p : WirePacking} {ε : Type}

theorem next_nil : next p [] = (.ok (none, []) : Outcome ε _) := rfl

/-- The walk takes an encoded frame off and is left with what follows. -/
theorem next_wire (hp : p.Lawful) {f : Frame2} (hf : f.Encodable) (rest : List UInt8) :
    next p (f.wire p ++ rest) = (.ok (some (.ok f), rest) : Outcome ε _) := by
  have hne : (f.wire p ++ rest).isEmpty = false := by
    have hpos := Frame2.wire_pos (p := p) f
    rw [List.isEmpty_eq_false_iff]
    exact List.append_ne_nil_of_left_ne_nil (List.ne_nil_of_length_pos hpos) rest
  have hrest := range_part (ε := ε) (a := f.wire p) (x := rest) (b := []) rfl rfl
  rw [List.append_nil] at hrest
  rw [next, hne, if_neg Bool.false_ne_true, Frame2.decode_wire hp hf]
  simp only [List.length_append, hrest, Outcome.ok_bind, pure_eq]

/-- A step of the walk that gives anything leaves fewer bytes. -/
theorem next_meets {buf : List UInt8} :
    Meets (next p buf : Outcome ε _) fun r => r.1 ≠ none → r.2.length < buf.length := by
  rw [next]
  split
  · exact Meets.ok fun h => absurd rfl h
  have hpos : 0 < buf.length := by
    cases buf with
    | nil => exact absurd rfl ‹_›
    | cons x xs => exact Nat.succ_pos _
  have hmeets := Frame2.decode_meets (p := p) buf
  split
  · rename_i frame consumed hdecode
    have hdecl := hmeets.of_ok hdecode
    refine Meets.range hdecl.inside le_rfl (Meets.ok fun _ => ?_)
    have hlt := hdecl.pos
    rw [length_slice (by have := hdecl.inside; omega)]
    omega
  · exact Meets.ok fun _ => hpos
  · exact absurd ‹_› hmeets.ne_panicked

/-- The walk ends with as much fuel as there are bytes, by induction on it. -/
theorem collect_ends {fuel : Nat} {buf : List UInt8} (h : buf.length < fuel) :
    Meets (collect p fuel buf : Outcome ε _) fun items => items ≠ none := by
  induction fuel generalizing buf with
  | zero => omega
  | succ fuel ih =>
    rw [collect]
    refine Meets.bind next_meets fun r hr => ?_
    match hitem : r with
    | (none, rest) => exact Meets.ok (Option.some_ne_none _)
    | (some item, rest) =>
      have hlt : rest.length < buf.length := hr (Option.some_ne_none _)
      refine Meets.bind (ih (by omega)) fun items hitems => Meets.ok ?_
      rwa [ne_eq, Option.map_eq_none_iff]

/-- Over encoded frames the walk gives them in order and goes on behind them. -/
theorem collect_wires (hp : p.Lawful) {fs : List Frame2} (hfs : ∀ f ∈ fs, f.Encodable)
    (rest : List UInt8) (fuel : Nat) :
    collect p (fuel + fs.length) (fs.flatMap (Frame2.wire p) ++ rest)
      = (do let items ← collect p fuel rest
            pure (items.map (fs.map .ok ++ ·)) : Outcome ε _) := by
  induction fs with
  | nil =>
    rw [List.flatMap_nil, List.nil_append, List.length_nil, Nat.add_zero]
    cases collect p fuel rest with
    | ok items => cases items <;> rfl
    | err e => rfl
    | panicked => rfl
  | cons f fs ih =>
    rw [List.flatMap_cons, List.append_assoc, List.length_cons, ← Nat.add_assoc, collect,
      next_wire hp (hfs f List.mem_cons_self), Outcome.ok_bind]
    simp only
    rw [ih fun g hg => hfs g (List.mem_cons_of_mem f hg)]
    cases collect p fuel rest with
    | ok items => cases items <;> rfl
    | err e => rfl
    | panicked => rfl

theorem length_le_wires (fs : List Frame2) : fs.length ≤ (fs.flatMap (Frame2.wire p)).length := by
  induction fs with
  | nil => exact le_rfl
  | cons f fs ih =>
    have hpos := Frame2.wire_pos (p := p) f
    rw [List.flatMap_cons, List.length_append, List.length_cons]
    omega

theorem walk_wires (hp : p.Lawful) {fs : List Frame2} (hfs : ∀ f ∈ fs, f.Encodable) :
    walk p (fs.flatMap (Frame2.wire p)) = (.ok (some (fs.map .ok)) : Outcome ε _) := by
  have hlen := length_le_wires (p := p) fs
  have hfuel : (fs.flatMap (Frame2.wire p)).length + 1
      = ((fs.flatMap (Frame2.wire p)).length - fs.length + 1) + fs.length := by omega
  have hcollect := collect_wires (ε := ε) hp hfs []
    ((fs.flatMap (Frame2.wire p)).length - fs.length + 1)
  rw [List.append_nil] at hcollect
  rw [walk, hfuel, hcollect, collect, next_nil, Outcome.ok_bind]
  simp only [pure_eq, Outcome.ok_bind, Option.map_some, List.append_nil]

theorem walk_ends (buf : List UInt8) : ∃ items, walk p buf = (.ok (some items) : Outcome Empty _) := by
  have hends : Meets (walk p buf : Outcome Empty _) fun items => items ≠ none :=
    collect_ends (Nat.lt_succ_self _)
  cases hwalk : (walk p buf : Outcome Empty _) with
  | ok items =>
    obtain ⟨items, rfl⟩ := Option.ne_none_iff_exists'.mp (hends.of_ok hwalk)
    exact ⟨items, rfl⟩
  | err e => exact e.elim
  | panicked => exact absurd hwalk hends.ne_panicked

end Frame2Stream

/-- **The codec of a frame.** A frame within the limits of the encoder
encodes, and what it encodes to reads back as the frame and takes its own
length, whatever follows; encoded frames one behind the other are walked in
order; and on every string of bytes the decoder stays inside it, accepts
only what lies in it, and takes a byte at least, so that the walk ends. -/
theorem frame_codec (p : WirePacking) (hp : p.Lawful) :
    (∀ f : Frame2, f.Encodable → ∃ wire, f.encode p = (.ok wire : Outcome Empty _)
      ∧ ∀ rest, Frame2.decode p (wire ++ rest) = .ok (f, wire.length))
    ∧ (∀ (fs : List Frame2) (wires : List (List UInt8)),
        fs.mapM (Frame2.encode p) = (.ok wires : Outcome Empty _) →
        Frame2Stream.walk p wires.flatten = (.ok (some (fs.map .ok)) : Outcome Empty _))
    ∧ (∀ buf, Frame2.decode p buf ≠ .panicked
        ∧ ∀ f n, Frame2.decode p buf = .ok (f, n) → 0 < n ∧ Frame2.Declared buf f n)
    ∧ ∀ buf, ∃ items, Frame2Stream.walk p buf = (.ok (some items) : Outcome Empty _) := by
  refine ⟨fun f hf => ⟨f.wire p, Frame2.encode_eq_ok.mpr ⟨hf, rfl⟩, Frame2.decode_wire hp hf⟩,
    fun fs wires hwires => ?_, fun buf => ?_, Frame2Stream.walk_ends⟩
  · obtain ⟨hfs, rfl⟩ := Frame2.encodeAll_eq_ok.mp hwires
    rw [← List.flatMap_def]
    exact Frame2Stream.walk_wires hp hfs
  · have hmeets := Frame2.decode_meets (p := p) buf
    exact ⟨hmeets.ne_panicked, fun f n h => ⟨(hmeets.of_ok h).pos, hmeets.of_ok h⟩⟩

/-- lz4 as one run of literals, crc32c bit by bit, and the size that lz4
asks for. -/
def literalWirePacking : WirePacking where
  compress := Packing.literalBlock
  decompress := Packing.literals
  crc c b := (Packing.crc32cAppend (UInt32.ofNat c) b).toNat
  maxOutput n := 16 + 4 + n * 11 / 10

theorem literalWirePacking_lawful : literalWirePacking.Lawful where
  crc_lt _ _ := UInt32.toNat_lt _
  decompress_compress := Packing.literals_literalBlock
  le_maxOutput n := by
    change n ≤ 16 + 4 + n * 11 / 10
    omega

/-- A commit of six bytes with one hint. -/
def commitFrame : Frame2 where
  tenant := 1
  writerEpoch := 7
  startLsn := 100
  endLsn := 106
  containsCommit := true
  firstOfEpoch := false
  hints := [⟨16384, 0, 5⟩]
  payload := [1, 2, 3, 4, 5, 6]

/-- An empty frame and one of two hints behind the commit. -/
def hintedFrames : List Frame2 :=
  [commitFrame, { commitFrame with startLsn := 106, hints := [], payload := [] },
    { commitFrame with startLsn := 106, endLsn := 109, containsCommit := false, payload := [7, 8, 9],
                       hints := [⟨16384, 0, 6⟩, ⟨16385, 1, 0⟩] }]

theorem frame_codec_three :
    Frame2Stream.walk literalWirePacking
        (hintedFrames.map (Frame2.wire literalWirePacking)).flatten
        = (.ok (some (hintedFrames.map .ok)) : Outcome Empty _)
      ∧ Frame2.decode literalWirePacking (commitFrame.wire literalWirePacking ++ [9])
        = .ok (commitFrame, 66)
      ∧ hintedFrames.map (fun f => (f.wire literalWirePacking).length) = [66, 49, 72] := by
  have hfs : ∀ f ∈ hintedFrames, f.Encodable := by decide
  have hcodec := frame_codec literalWirePacking literalWirePacking_lawful
  have hlens : hintedFrames.map (fun f => (f.wire literalWirePacking).length) = [66, 49, 72] := by
    decide
  obtain ⟨wire, hencode, hdecode⟩ := hcodec.1 commitFrame (hfs _ List.mem_cons_self)
  obtain ⟨-, rfl⟩ := Frame2.encode_eq_ok.mp hencode
  refine ⟨hcodec.2.1 hintedFrames _ (Frame2.encodeAll_eq_ok.mpr ⟨hfs, rfl⟩), ?_, hlens⟩
  have hcommit : (commitFrame.wire literalWirePacking).length = 66 := (List.cons.inj hlens).1
  rw [hdecode, hcommit]

end Wire

end Zou
