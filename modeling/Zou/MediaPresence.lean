import Zou.DualMediaSafety
import Zou.SegmentRoundTrip
import Zou.WalChain

/-!
# Presence on the media

A seq is in the chain when two media hold the same bytes for it. `fetch`
compares whole objects. `present` compares the first 28 bytes, a header:
the kind, the shard, the seq and the link to the segment before. Two
objects of one seq can share all of these and differ in their frames, and
then the probe sees an owner that no fetch returns.
-/

namespace Zou

namespace Wire

open Bytes Outcome

variable {p : WirePacking}

/-- The bytes of a segment or a seal of the seq. -/
def WellFormed (p : WirePacking) (shard seq : Nat) (buf : List UInt8) : Prop :=
  ∃ header frames footer, decodeSegment p buf = .ok (header, frames, footer)
    ∧ header.shard = shard ∧ header.seq = seq

/-- Segments of one kind that follow the same segment. -/
def SameLink (x y : List UInt8) : Prop :=
  ∃ h h', parseHeader x = .ok h ∧ parseHeader y = .ok h'
    ∧ h.kind = h'.kind ∧ h.prevDigest = h'.prevDigest

theorem WellFormed.header {shard seq : Nat} {buf : List UInt8} (h : WellFormed p shard seq buf) :
    ∃ header, parseHeader buf = .ok header ∧ header.shard = shard ∧ header.seq = seq := by
  obtain ⟨header, frames, footer, hdecode, hshard, hseq⟩ := h
  obtain ⟨⟨header', footer', start⟩, hshell, hdecode⟩ := bind_eq_ok.mp hdecode
  obtain ⟨header'', hparse, hshell⟩ := bind_eq_ok.mp hshell
  obtain ⟨⟨body, start'⟩, -, hshell⟩ := bind_eq_ok.mp hshell
  obtain ⟨footer'', -, hshell⟩ := bind_eq_ok.mp hshell
  obtain ⟨region, -, hdecode⟩ := bind_eq_ok.mp hdecode
  obtain ⟨frames', -, hdecode⟩ := bind_eq_ok.mp hdecode
  obtain ⟨_, -, hdecode⟩ := bind_eq_ok.mp hdecode
  simp only [pure_eq, ok.injEq, Prod.mk.injEq] at hshell hdecode
  obtain ⟨rfl, -, -⟩ := hshell
  obtain ⟨rfl, -, -⟩ := hdecode
  exact ⟨header'', hparse, hshard, hseq⟩

/-- What an accepted header says, and the bytes it says it in. -/
structure Reads (buf : List UInt8) (h : SegmentHeader) : Prop where
  long : headerLen ≤ buf.length
  magic : slice buf 0 4 = segmentMagic
  version : ofLe (slice buf 4 2) = segmentVersion
  kind : parseKind (ofLe (slice buf 6 2)) = .ok h.kind
  shard : ofLe (slice buf 8 4) = h.shard
  seq : ofLe (slice buf 12 8) = h.seq
  prevDigest : ofLe (slice buf 20 8) = h.prevDigest

theorem range_ok {ε : Type} {b x : List UInt8} {lo hi : Nat}
    (h : (range b lo hi : Outcome ε _) = .ok x) : x = slice b lo (hi - lo) := by
  unfold range at h
  split at h
  · exact (Outcome.ok.inj h).symm
  · cases h

theorem parseHeader_reads {buf : List UInt8} {h : SegmentHeader} (hp : parseHeader buf = .ok h) :
    Reads buf h := by
  have hlen : headerLen + tailLen ≤ buf.length := (parseHeader_meets buf).of_ok hp
  obtain ⟨_, -, hp⟩ := bind_eq_ok.mp hp
  obtain ⟨magic, hmagic, hp⟩ := bind_eq_ok.mp hp
  obtain ⟨_, hm, hp⟩ := bind_eq_ok.mp hp
  obtain ⟨version, hversion, hp⟩ := bind_eq_ok.mp hp
  obtain ⟨_, hv, hp⟩ := bind_eq_ok.mp hp
  obtain ⟨code, hcode, hp⟩ := bind_eq_ok.mp hp
  obtain ⟨kind, hkind, hp⟩ := bind_eq_ok.mp hp
  obtain ⟨shard, hshard, hp⟩ := bind_eq_ok.mp hp
  obtain ⟨seq, hseq, hp⟩ := bind_eq_ok.mp hp
  obtain ⟨digest, hdigest, hp⟩ := bind_eq_ok.mp hp
  rw [reject_eq_ok, Decidable.not_not] at hm hv
  rw [range_ok hmagic] at hm
  rw [range_ok hversion] at hv
  rw [range_ok hcode] at hkind
  cases hp
  exact ⟨Nat.le_trans (Nat.le_add_right ..) hlen, hm, hv, hkind, by rw [range_ok hshard],
    by rw [range_ok hseq], by rw [range_ok hdigest]⟩

theorem ofLe_injective : ∀ {x y : List UInt8}, x.length = y.length → ofLe x = ofLe y → x = y
  | [], [], _, _ => rfl
  | [], _ :: _, h, _ => by cases h
  | _ :: _, [], h, _ => by cases h
  | a :: x, b :: y, hlen, h => by
      simp only [ofLe] at h
      have ha : a.toNat < 256 := a.toNat_lt
      have hb : b.toNat < 256 := b.toNat_lt
      have hhead : a.toNat = b.toNat := by omega
      have htail : ofLe x = ofLe y := by omega
      rw [UInt8.toNat_inj.mp hhead, ofLe_injective (Nat.succ.inj hlen) htail]

theorem parseKind_injective {m n : Nat} {kind : SegmentKind} (hm : parseKind m = .ok kind)
    (hn : parseKind n = .ok kind) : m = n := by
  unfold parseKind at hm hn
  split at hm
  · cases hm
    split at hn <;> first | rfl | cases hn
  · cases hm
    split at hn <;> first | rfl | cases hn
  · cases hm

theorem take_headerLen (buf : List UInt8) :
    buf.take headerLen = slice buf 0 4 ++ (slice buf 4 2 ++ (slice buf 6 2 ++ (slice buf 8 4
      ++ (slice buf 12 8 ++ slice buf 20 8)))) := by
  have hsplit : ∀ {at_ m n : Nat}, slice buf at_ m ++ slice buf (at_ + m) n
      = slice buf at_ (m + n) := by
    intro at_ m n
    rw [slice, slice, slice, List.take_add, List.drop_drop]
  rw [hsplit, hsplit, hsplit, hsplit, hsplit, slice, List.drop_zero]
  rfl

/-- The first 28 bytes of two segments agree when their kinds and links do,
the shard and the seq being the same. -/
theorem take_eq_iff {x y : List UInt8} {shard seq : Nat} (hx : WellFormed p shard seq x)
    (hy : WellFormed p shard seq y) : x.take headerLen = y.take headerLen ↔ SameLink x y := by
  obtain ⟨h, hph, rfl, rfl⟩ := hx.header
  obtain ⟨h', hph', hshard, hseq⟩ := hy.header
  have hr := parseHeader_reads hph
  have hr' := parseHeader_reads hph'
  have hlen : ∀ {at_ n : Nat}, at_ + n ≤ headerLen →
      (slice x at_ n).length = (slice y at_ n).length := by
    intro at_ n hle
    rw [length_slice (Nat.le_trans hle hr.long), length_slice (Nat.le_trans hle hr'.long)]
  constructor
  · intro heq
    have hslice : ∀ {at_ n : Nat}, at_ + n ≤ headerLen → slice x at_ n = slice y at_ n := by
      intro at_ n hle
      have hsub : ∀ b : List UInt8, slice b at_ n = slice (b.take headerLen) at_ n := by
        intro b
        have hwhole : b.take headerLen = slice b 0 headerLen := by rw [slice, List.drop_zero]
        rw [hwhole, slice_slice hle, Nat.zero_add]
      rw [hsub x, hsub y, heq]
    refine ⟨h, h', hph, hph', ?_, ?_⟩
    · have hkind := hr.kind
      rw [hslice (by decide), hr'.kind] at hkind
      exact (Outcome.ok.inj hkind).symm
    · rw [← hr.prevDigest, ← hr'.prevDigest, hslice (by decide)]
  · rintro ⟨k, k', hk, hk', hkind, hdigest⟩
    rw [hph] at hk
    rw [hph'] at hk'
    cases hk
    cases hk'
    rw [take_headerLen x, take_headerLen y, hr.magic, hr'.magic,
      ofLe_injective (hlen (by decide)) (hr.version.trans hr'.version.symm),
      ofLe_injective (hlen (by decide)) (parseKind_injective hr.kind (hkind ▸ hr'.kind)),
      ofLe_injective (hlen (by decide)) (hr.shard.trans (hshard.symm.trans hr'.shard.symm)),
      ofLe_injective (hlen (by decide)) (hr.seq.trans (hseq.symm.trans hr'.seq.symm)),
      ofLe_injective (hlen (by decide)) (hr.prevDigest.trans (hdigest.trans hr'.prevDigest.symm))]

end Wire

/-! ## The rules of the reader -/

namespace MediaBytes

open Bytes Wire Wal

/-- What the media hold under the key of one seq. The one medium of the
standard mode is `standard`. -/
abbrev Content := Medium → Option (List UInt8)

def getRange (x : Option (List UInt8)) (at_ len : Nat) : Option (List UInt8) :=
  x.map fun b => slice b at_ len

def present (mode : DurabilityMode) (c : Content) : Bool :=
  match mode with
  | .standard => (getRange (c .standard) 0 1).isSome
  | .expressDual =>
    let a := getRange (c .az1) 0 28
    let b := getRange (c .az2) 0 28
    if a.isSome ∧ a = b then true
    else if a = none ∧ b = none then false
    -- one medium, or two that disagree
    else match getRange (c .standard) 0 28 with
      | some s => decide (a = some s ∨ b = some s)
      | none => false

def fetch (mode : DurabilityMode) (c : Content) : Option (List UInt8) :=
  match mode with
  | .standard => c .standard
  | .expressDual => fetchOf (c .az1) (c .az2) (c .standard)

/-- Two media hold objects that `r` relates. -/
def Voted (r : List UInt8 → List UInt8 → Prop) (c : Content) : Prop :=
  ∃ m m' x y, m ≠ m' ∧ c m = some x ∧ c m' = some y ∧ r x y

theorem voted_iff {r : List UInt8 → List UInt8 → Prop} (hr : ∀ x y, r x y → r y x) {c : Content} :
    Voted r c ↔ (∃ x y, c .az1 = some x ∧ c .az2 = some y ∧ r x y)
      ∨ (∃ x y, c .az1 = some x ∧ c .standard = some y ∧ r x y)
      ∨ ∃ x y, c .az2 = some x ∧ c .standard = some y ∧ r x y := by
  constructor
  · rintro ⟨m, m', x, y, hne, hx, hy, hxy⟩
    cases m <;> cases m'
    case az1.az1 | az2.az2 | standard.standard => exact absurd rfl hne
    case az1.az2 => exact .inl ⟨x, y, hx, hy, hxy⟩
    case az1.standard => exact .inr (.inl ⟨x, y, hx, hy, hxy⟩)
    case az2.az1 => exact .inl ⟨y, x, hy, hx, hr x y hxy⟩
    case az2.standard => exact .inr (.inr ⟨x, y, hx, hy, hxy⟩)
    case standard.az1 => exact .inr (.inl ⟨y, x, hy, hx, hr x y hxy⟩)
    case standard.az2 => exact .inr (.inr ⟨y, x, hy, hx, hr x y hxy⟩)
  · rintro (⟨x, y, hx, hy, hxy⟩ | ⟨x, y, hx, hy, hxy⟩ | ⟨x, y, hx, hy, hxy⟩)
    · exact ⟨.az1, .az2, x, y, (by decide), hx, hy, hxy⟩
    · exact ⟨.az1, .standard, x, y, (by decide), hx, hy, hxy⟩
    · exact ⟨.az2, .standard, x, y, (by decide), hx, hy, hxy⟩

theorem fetch_dual (c : Content) : (fetch .expressDual c).isSome = true ↔ Voted (· = ·) c := by
  have hvoted : ∀ m m' : Medium, m ≠ m' → (c m).isSome = true → c m = c m' →
      Voted (· = ·) c := by
    intro m m' hne hsome heq
    obtain ⟨x, hx⟩ := Option.isSome_iff_exists.mp hsome
    exact ⟨m, m', x, x, hne, hx, heq ▸ hx, rfl⟩
  constructor
  · intro h
    simp only [fetch] at h
    unfold fetchOf at h
    split at h
    · rename_i hab
      exact hvoted .az1 .az2 (by decide) hab.1 hab.2
    · split at h
      · cases h
      · split at h
        · rename_i hsa
          exact hvoted .standard .az1 (by decide) hsa.1 hsa.2
        · split at h
          · rename_i hsb
            exact hvoted .standard .az2 (by decide) hsb.1 hsb.2
          · cases h
  · rintro ⟨m, m', x, y, hne, hx, hy, rfl⟩
    rw [fetch, DualMedia.fetchOf_two hne hx hy]
    rfl

/-- `present` finds one when two media hold objects with one header. -/
theorem present_dual (c : Content) :
    present .expressDual c = true ↔ Voted (fun x y => x.take headerLen = y.take headerLen) c := by
  rw [voted_iff fun x y h => h.symm]
  have hheader : ∀ b : List UInt8, slice b 0 28 = b.take headerLen := fun b => by
    rw [slice, List.drop_zero]
    rfl
  simp only [present, getRange, hheader]
  cases c .az1 <;> cases c .az2 <;> cases c .standard <;> simp

variable {p : WirePacking} {shard seq : Nat}

/-- **Presence and fetch.** The probe of a seq agrees with its fetch exactly
when the mode is the standard one, or two media hold one object, or no two
media hold objects of one kind and link. -/
theorem present_agrees_iff {mode : DurabilityMode} {c : Content}
    (hwf : ∀ m b, c m = some b → WellFormed p shard seq b) :
    ((present mode c = true) ↔ (fetch mode c).isSome = true)
      ↔ mode = .standard ∨ Voted (· = ·) c ∨ ¬ Voted SameLink c := by
  cases mode with
  | standard => simp [present, fetch, getRange]
  | expressDual =>
    have hheader : Voted (fun x y => x.take headerLen = y.take headerLen) c
        ↔ Voted SameLink c := by
      refine exists_congr fun m => exists_congr fun m' => exists_congr fun x =>
        exists_congr fun y => and_congr_right fun _ => and_congr_right fun hx =>
        and_congr_right fun hy => ?_
      exact take_eq_iff (hwf m x hx) (hwf m' y hy)
    have hsame : Voted (· = ·) c → Voted SameLink c := by
      rintro ⟨m, m', x, y, hne, hx, hy, rfl⟩
      exact hheader.mp ⟨m, m', x, x, hne, hx, hy, rfl⟩
    rw [present_dual, fetch_dual, hheader]
    simp only [reduceCtorEq, false_or]
    constructor
    · intro h
      by_cases hv : Voted SameLink c
      · exact .inl (h.mp hv)
      · exact .inr hv
    · rintro (h | h)
      · exact ⟨fun _ => h, hsame⟩
      · exact ⟨fun hv => absurd hv h, hsame⟩

/-- A landing segment of seq 9 of shard 3. -/
def landingAt9 (frames : List Frame2) : List UInt8 :=
  (((SegmentBuilder.new ⟨.landing, 3, 9, 7⟩).pushFrames literalWirePacking frames).finish
    literalWirePacking).1

theorem landingAt9_wellFormed {frames : List Frame2} (hfs : ∀ f ∈ frames, f.Encodable)
    (hcount : frames.length < 2 ^ 32) (hsize : footerSize frames < 2 ^ 32) :
    WellFormed literalWirePacking 3 9 (landingAt9 frames) :=
  ⟨_, _, _, (built_pushFrames _ frames).decode literalWirePacking_lawful
    ⟨by decide, by decide, by decide⟩ hfs hcount hsize, rfl, rfl⟩

/-- Two segments with one link and different frames, each on one medium. -/
def halfLanded : Content
  | .az1 => some (landingAt9 [])
  | .az2 => some (landingAt9 [commitFrame])
  | .standard => none

theorem halfLanded_wellFormed (m : Medium) (b : List UInt8) (h : halfLanded m = some b) :
    WellFormed literalWirePacking 3 9 b := by
  cases m with
  | az1 =>
    cases h
    exact landingAt9_wellFormed (by decide) (by decide) (by decide)
  | az2 =>
    cases h
    exact landingAt9_wellFormed (by decide) (by decide) (by decide)
  | standard => cases h

/-- The probe finds an owner, the fetch does not. -/
theorem halfLanded_present :
    (∀ m b, halfLanded m = some b → WellFormed literalWirePacking 3 9 b)
      ∧ present .expressDual halfLanded = true ∧ fetch .expressDual halfLanded = none :=
  ⟨halfLanded_wellFormed, by decide +kernel, by decide +kernel⟩

/-- They agree on the seq once the standard medium has the second segment. -/
theorem present_agrees_iff_landed :
    present .expressDual (Function.update halfLanded .standard (some (landingAt9 [commitFrame])))
        = true
      ↔ (fetch .expressDual
          (Function.update halfLanded .standard (some (landingAt9 [commitFrame])))).isSome = true := by
  have hwf : ∀ m b, Function.update halfLanded .standard (some (landingAt9 [commitFrame])) m = some b
      → WellFormed literalWirePacking 3 9 b := by
    intro m b h
    by_cases hm : m = .standard
    · subst hm
      cases h
      exact halfLanded_wellFormed .az2 _ rfl
    · rw [Function.update_of_ne hm] at h
      exact halfLanded_wellFormed m b h
  exact (present_agrees_iff hwf).mpr (.inr (.inl ⟨.az2, .standard, _, _, (by decide), rfl, rfl, rfl⟩))

end MediaBytes

end Zou
