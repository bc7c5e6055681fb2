import Zou.FrameCodec
import Zou.SegmentCodec

/-!
# Shells of segments

What the landing and the sealed codec share: an object closed behind its
header and its frames gives the decoder the footer body back, as much of it
as its length of four bytes can say, and a region of encoded frames reads
as the frames and nothing longer does.
-/

namespace Zou

namespace Wire

open Bytes Outcome

variable {p : WirePacking} {magic head region body : List UInt8}

/-! ## Shells -/

theorem close_eq (hhead : head.length = headerLen) (magic region body : List UInt8) :
    close p magic (head ++ region) body
      = head ++ (region ++ (body ++ (le 4 (body.length % 2 ^ 32)
        ++ (le 4 (p.crc (p.crc 0 head) (body.take (body.length % 2 ^ 32))) ++ magic)))) := by
  rw [close, List.take_left' hhead, List.append_assoc]

theorem close_length (hhead : head.length = headerLen) (hmagic : magic.length = 4)
    (region body : List UInt8) : (close p magic (head ++ region) body).length
      = headerLen + region.length + body.length + tailLen := by
  rw [close_eq hhead magic]
  simp only [List.length_append, length_le, hmagic, hhead, tailLen]
  omega

/-- What the decoder takes for the footer: the end of it, as much as fits
the length of four bytes. -/
theorem footerBody_close (hp : p.Lawful) (hhead : head.length = headerLen)
    (hmagic : magic.length = 4) (region body : List UInt8) :
    footerBody p magic (close p magic (head ++ region) body) = (do
      reject (p.crc (p.crc 0 head) (body.drop (body.length - body.length % 2 ^ 32))
        ≠ p.crc (p.crc 0 head) (body.take (body.length % 2 ^ 32))) .corrupt
      pure (body.drop (body.length - body.length % 2 ^ 32),
        headerLen + region.length + (body.length - body.length % 2 ^ 32))) := by
  have hlen := close_length (p := p) hhead hmagic region body
  have heq := close_eq (p := p) hhead magic region body
  generalize hobj : close p magic (head ++ region) body = obj at hlen heq
  generalize hcrc : p.crc (p.crc 0 head) (body.take (body.length % 2 ^ 32)) = crc at heq ⊢
  have hcrc_lt : crc < 2 ^ 32 := hcrc ▸ hp.crc_lt _ _
  have hcut_le : body.length % 2 ^ 32 ≤ body.length := Nat.mod_le _ _
  have hcut_lt : body.length % 2 ^ 32 < 2 ^ 32 := Nat.mod_lt _ (Nat.two_pow_pos 32)
  generalize body.length % 2 ^ 32 = n at heq hcut_le hcut_lt ⊢
  have htail : tailLen = 12 := rfl
  have hmagicAt : (range obj (obj.length - 4) obj.length : Outcome SegmentDecodeError _)
      = .ok magic := by
    refine range_split (a := head ++ (region ++ (body ++ (le 4 n ++ le 4 crc)))) (b := []) ?_ ?_ ?_
    · simp only [heq, List.append_assoc, List.append_nil]
    · simp only [List.length_append, length_le]
      omega
    · omega
  have htailAt : obj.length - tailLen = headerLen + region.length + body.length := by omega
  have hlenAt : (range obj (headerLen + region.length + body.length)
      (headerLen + region.length + body.length + 4) : Outcome SegmentDecodeError _)
      = .ok (le 4 n) := by
    refine range_split (a := head ++ (region ++ body)) (b := le 4 crc ++ magic) ?_ ?_ ?_
    · simp only [heq, List.append_assoc]
    · simp only [List.length_append, hhead]
      omega
    · rw [length_le]
  have hcrcAt : (range obj (headerLen + region.length + body.length + 4)
      (headerLen + region.length + body.length + 8) : Outcome SegmentDecodeError _)
      = .ok (le 4 crc) := by
    refine range_split (a := head ++ (region ++ (body ++ le 4 n))) (b := magic) ?_ ?_ ?_
    · simp only [heq, List.append_assoc]
    · simp only [List.length_append, hhead, length_le]
      omega
    · rw [length_le]
  have hheadAt : (range obj 0 headerLen : Outcome SegmentDecodeError _) = .ok head :=
    range_split (a := []) heq rfl (by omega)
  have hbodyAt : (range obj (headerLen + region.length + body.length - n)
      (headerLen + region.length + body.length) : Outcome SegmentDecodeError _)
      = .ok (body.drop (body.length - n)) := by
    refine range_split (a := head ++ (region ++ body.take (body.length - n)))
      (b := le 4 n ++ (le 4 crc ++ magic)) ?_ ?_ ?_
    · rw [heq, List.append_assoc, List.append_assoc, ← List.append_assoc (body.take _),
        List.take_append_drop]
    · simp only [List.length_append, hhead, List.length_take]
      omega
    · rw [List.length_drop]
      omega
  rw [footerBody, hmagicAt, Outcome.ok_bind, reject_neg (fun h => h rfl), Outcome.ok_bind]
  simp only [htailAt]
  rw [hlenAt, Outcome.ok_bind, hcrcAt, Outcome.ok_bind, ofLe_le32 hcut_lt, ofLe_le32 hcrc_lt,
    reject_neg (by omega), Outcome.ok_bind, hheadAt, Outcome.ok_bind, hbodyAt, Outcome.ok_bind, Nat.add_sub_assoc hcut_le]

theorem footerBody_close_of_lt (hp : p.Lawful) (hhead : head.length = headerLen)
    (hmagic : magic.length = 4) (region : List UInt8) (hbody : body.length < 2 ^ 32) :
    footerBody p magic (close p magic (head ++ region) body)
      = .ok (body, headerLen + region.length) := by
  rw [footerBody_close hp hhead hmagic, Nat.mod_eq_of_lt hbody, Nat.sub_self, List.drop_zero,
    List.take_length, reject_neg (fun h => h rfl)]
  rfl

theorem take_part {n : Nat} {x b : List UInt8} (h : x.length = n) :
    take n (x ++ b) = .ok (x, b) := by
  rw [take, if_pos (by rw [List.length_append]; omega), List.take_left' h, List.drop_left' h]

/-! ## Regions -/

theorem gather_append (acc fs : List Frame2) (items : List (Except Frame2DecodeError Frame2)) :
    gather acc (fs.map .ok ++ items) = gather (acc ++ fs) items := by
  induction fs generalizing acc with
  | nil => rw [List.map_nil, List.nil_append, List.append_nil]
  | cons f fs ih =>
    rw [List.map_cons, List.cons_append, gather, ih, List.append_assoc, List.singleton_append]

theorem gather_length {acc frames : List Frame2} {items : List (Except Frame2DecodeError Frame2)}
    (h : gather acc items = .ok frames) : frames.length = acc.length + items.length := by
  induction items generalizing acc with
  | nil =>
    cases h
    rfl
  | cons item items ih =>
    cases item with
    | error e => cases h
    | ok f =>
      rw [ih h, List.length_append, List.length_cons, List.length_cons, List.length_nil]
      omega

theorem readFrames_wires (hp : p.Lawful) {fs : List Frame2} (hfs : ∀ f ∈ fs, f.Encodable) :
    readFrames p (fs.flatMap (Frame2.wire p)) = .ok fs := by
  rw [readFrames, Frame2Stream.walk_wires hp hfs, Outcome.ok_bind]
  have hgather := gather_append [] fs []
  rwa [List.append_nil] at hgather

/-- A region that goes on after the frames does not read as the frames. -/
theorem readFrames_longer (hp : p.Lawful) {fs : List Frame2} (hfs : ∀ f ∈ fs, f.Encodable)
    {extra : List UInt8} (hextra : extra ≠ []) :
    readFrames p (fs.flatMap (Frame2.wire p) ++ extra) ≠ .ok fs := by
  intro h
  obtain ⟨x, xs, rfl⟩ := List.exists_cons_of_ne_nil hextra
  have hlen := Frame2Stream.length_le_wires (p := p) fs
  have hfuel : (fs.flatMap (Frame2.wire p) ++ x :: xs).length + 1
      = ((fs.flatMap (Frame2.wire p)).length - fs.length + xs.length + 1 + 1) + fs.length := by
    rw [List.length_append, List.length_cons]
    omega
  rw [readFrames, Frame2Stream.walk, hfuel, Frame2Stream.collect_wires hp hfs] at h
  obtain ⟨items, hitems, h⟩ := bind_eq_ok.mp h
  obtain ⟨items', hcollect, heq⟩ := bind_eq_ok.mp hitems
  cases items' with
  | none =>
    cases heq
    cases h
  | some rest =>
    rw [Option.map_some, pure_eq] at heq
    cases heq
    simp only at h
    rw [gather_append, List.nil_append] at h
    have hnone := gather_length h
    have hrest : rest = [] := List.eq_nil_of_length_eq_zero (by omega)
    subst hrest
    rw [Frame2Stream.collect] at hcollect
    obtain ⟨⟨item, left⟩, hnext, hcons⟩ := bind_eq_ok.mp hcollect
    cases item with
    | none =>
      rw [Frame2Stream.next, if_neg (by exact Bool.false_ne_true)] at hnext
      split at hnext
      · obtain ⟨_, -, hpair⟩ := bind_eq_ok.mp hnext
        cases hpair
      · cases hnext
      · cases hnext
    | some item =>
      obtain ⟨more, -, hmore⟩ := bind_eq_ok.mp hcons
      cases more with
      | none => cases hmore
      | some more => cases hmore

/-- A decoder that finds the frames again found all of the footer. -/
theorem body_lt_of_readFrames (hp : p.Lawful) (hhead : head.length = headerLen)
    (hmagic : magic.length = 4) {fs : List Frame2} (hfs : ∀ f ∈ fs, f.Encodable)
    {found : List UInt8 × Nat}
    (hbody : footerBody p magic (close p magic (head ++ fs.flatMap (Frame2.wire p)) body) = .ok found)
    (hregion : range (close p magic (head ++ fs.flatMap (Frame2.wire p)) body) headerLen found.2
      = (.ok region : Outcome SegmentDecodeError _))
    (hread : readFrames p region = .ok fs) : body.length < 2 ^ 32 := by
  rw [footerBody_close hp hhead hmagic] at hbody
  obtain ⟨_, -, hbody⟩ := bind_eq_ok.mp hbody
  rw [pure_eq] at hbody
  cases hbody
  by_contra hlong
  have hcut : body.length % 2 ^ 32 < body.length :=
    Nat.lt_of_lt_of_le (Nat.mod_lt _ (Nat.two_pow_pos 32)) (Nat.not_lt.mp hlong)
  have hassoc : ∀ tail, fs.flatMap (Frame2.wire p) ++ (body ++ tail)
      = (fs.flatMap (Frame2.wire p) ++ body.take (body.length - body.length % 2 ^ 32))
        ++ (body.drop (body.length - body.length % 2 ^ 32) ++ tail) := by
    intro tail
    rw [List.append_assoc, ← List.append_assoc (body.take _), List.take_append_drop]
  rw [close_eq hhead, hassoc, range_part hhead] at hregion
  · -- the region the decoder walks goes on into the footer
    cases hregion
    refine readFrames_longer hp hfs (List.ne_nil_of_length_pos ?_) hread
    rw [List.length_take]
    omega
  · rw [List.length_append, List.length_take]
    simp only
    omega

/-! ## What is accepted -/

theorem take_meets (n : Nat) (b : List UInt8) : Meets (take n b) fun r => r.1.length = n := by
  rw [take]
  split
  · exact Meets.ok (List.length_take_of_le ‹_›)
  · exact Meets.err

/-- Where the frames of an object end, by the length of its footer. -/
def framesEnd (buf : List UInt8) : Nat :=
  buf.length - tailLen - ofLe (slice buf (buf.length - tailLen) 4)

theorem footerBody_meets {buf : List UInt8} (hlen : headerLen + tailLen ≤ buf.length) :
    Meets (footerBody p magic buf) fun r =>
      headerLen ≤ r.2 ∧ r.2 + tailLen ≤ buf.length ∧ r.2 = framesEnd buf := by
  have htail : tailLen = 12 := rfl
  rw [footerBody]
  refine Meets.range (by omega) le_rfl ?_
  refine Meets.reject fun _ => ?_
  refine Meets.range (by omega) (by omega) ?_
  refine Meets.range (by omega) (by omega) ?_
  refine Meets.reject fun hfooter => ?_
  refine Meets.range (Nat.zero_le _) (by omega) ?_
  refine Meets.range (Nat.sub_le ..) (by omega) ?_
  refine Meets.reject fun _ => ?_
  rw [Nat.add_sub_cancel_left] at hfooter ⊢
  exact Meets.ok ⟨by omega, by omega, rfl⟩

theorem gather_meets (acc : List Frame2) (items : List (Except Frame2DecodeError Frame2)) :
    Meets (gather acc items) fun _ => True := by
  induction items generalizing acc with
  | nil => exact Meets.ok trivial
  | cons item items ih =>
    cases item with
    | ok f => exact ih _
    | error e => exact Meets.err

theorem readFrames_meets (region : List UInt8) : Meets (readFrames p region) fun _ => True := by
  have hends : Meets (Frame2Stream.walk p region : Outcome SegmentDecodeError _)
      fun items => items ≠ none := Frame2Stream.collect_ends (Nat.lt_succ_self _)
  refine Meets.bind hends fun items hitems => ?_
  obtain ⟨items, rfl⟩ := Option.ne_none_iff_exists'.mp hitems
  exact gather_meets _ _

end Wire

end Zou
