import Zou.LayerCodecSpec
import Zou.SealedCodec
import Zou.SegmentRoundTrip

/-!
# Sealed segments read back

Sorted frames stand tenant by tenant, and the builder cuts the frames of
each tenant into chunks as `cut` does. What it makes decodes to the frames,
and its footer is exact, exactly as long as the count and the length of the
footer fit their four bytes. Whatever the decoder accepts has its chunks
inside the region of the frames.
-/

namespace Zou

namespace Wire

open Bytes Outcome Tiling

variable {p : WirePacking} {target : Nat}

/-! ## Chunks -/

/-- The chunks of a tenant with a frame more. -/
def cutSnoc (p : WirePacking) (target : Nat) (gs : List (List Frame2)) (f : Frame2) :
    List (List Frame2) :=
  match gs.getLast? with
  | some g =>
    if (g.flatMap (Frame2.wire p)).length + (f.wire p).length ≤ target then
      gs.dropLast ++ [g ++ [f]]
    else gs ++ [[f]]
  | none => gs ++ [[f]]

/-- The frames of a tenant, chunk by chunk. -/
def cut (p : WirePacking) (target : Nat) (fs : List Frame2) : List (List Frame2) :=
  fs.foldl (cutSnoc p target) []

def chunkOf (x : List Frame2 × Nat × Nat) : SealedChunk where
  minLsn := (x.1.head?.map fun f => f.startLsn.toNat).getD 0
  maxLsn := (x.1.map fun f => f.endLsn.toNat).foldl max 0
  offset := x.2.1
  len := x.2.2

@[simp] theorem chunkOf_len (x : List Frame2 × Nat × Nat) : (chunkOf x).len = x.2.2 := rfl

theorem cut_snoc (fs : List Frame2) (f : Frame2) :
    cut p target (fs ++ [f]) = cutSnoc p target (cut p target fs) f := by
  rw [cut, List.foldl_append]
  rfl

variable (p target) in
theorem cut_cases (fs : List Frame2) (f : Frame2) : (∃ gs g, cut p target fs = gs ++ [g]
        ∧ (g.flatMap (Frame2.wire p)).length + (f.wire p).length ≤ target
        ∧ cut p target (fs ++ [f]) = gs ++ [g ++ [f]])
    ∨ ((∀ g ∈ (cut p target fs).getLast?,
          ¬ (g.flatMap (Frame2.wire p)).length + (f.wire p).length ≤ target)
        ∧ cut p target (fs ++ [f]) = cut p target fs ++ [[f]]) := by
  rw [cut_snoc, cutSnoc]
  cases hlast : (cut p target fs).getLast? with
  | none => exact .inr ⟨nofun, rfl⟩
  | some g =>
    obtain ⟨gs, hgs⟩ := List.getLast?_eq_some_iff.mp hlast
    by_cases hfit : (g.flatMap (Frame2.wire p)).length + (f.wire p).length ≤ target
    · refine .inl ⟨gs, g, hgs, hfit, ?_⟩
      simp only [hfit, if_true, hgs, List.dropLast_concat]
    · refine .inr ⟨fun g' hg' => Option.some.inj hg' ▸ hfit, ?_⟩
      simp only [hfit, if_false]

variable (p target) in
theorem cut_flatten (fs : List Frame2) : (cut p target fs).flatten = fs := by
  induction fs using List.reverseRecOn with
  | nil => rfl
  | append_singleton fs f ih =>
    rcases cut_cases p target fs f with ⟨gs, g, hgs, -, hsnoc⟩ | ⟨-, hsnoc⟩
    · rw [hgs] at ih
      rw [hsnoc, ← ih]
      simp only [List.flatten_append, List.flatten_singleton, List.append_assoc]
    · rw [hsnoc, List.flatten_append, ih, List.flatten_singleton]

variable (p target) in
theorem nil_notMem_cut (fs : List Frame2) : [] ∉ cut p target fs := by
  induction fs using List.reverseRecOn with
  | nil => exact List.not_mem_nil
  | append_singleton fs f ih =>
    rcases cut_cases p target fs f with ⟨gs, g, hgs, -, hsnoc⟩ | ⟨-, hsnoc⟩
    · rw [hgs, List.mem_append, not_or] at ih
      rw [hsnoc, List.mem_append, not_or]
      exact ⟨ih.1, by simp⟩
    · rw [hsnoc, List.mem_append, not_or]
      exact ⟨ih, by simp⟩

theorem pushChunk_placed (target at_ : Nat) (fs : List Frame2) (f : Frame2) :
    pushChunk target ((placed (Frame2.wire p) at_ (cut p target fs)).map chunkOf) f
        (at_ + (fs.flatMap (Frame2.wire p)).length) (f.wire p).length
      = (placed (Frame2.wire p) at_ (cut p target (fs ++ [f]))).map chunkOf := by
  have hone : chunkOf ([f], at_ + (fs.flatMap (Frame2.wire p)).length, (f.wire p).length)
      = ⟨f.startLsn.toNat, f.endLsn.toNat, at_ + (fs.flatMap (Frame2.wire p)).length,
        (f.wire p).length⟩ := by
    simp [chunkOf]
  rcases cut_cases p target fs f with ⟨gs, g, hgs, hfit, hsnoc⟩ | ⟨hfit, hsnoc⟩
  · have hne : g ≠ [] := fun h => nil_notMem_cut p target fs (hgs ▸ h ▸ by simp)
    obtain ⟨a, g, rfl⟩ := List.exists_cons_of_ne_nil hne
    rw [hsnoc, hgs, placed_snoc, placed_snoc, List.map_append, List.map_append, pushChunk]
    simp only [List.map_cons, List.map_nil, List.getLast?_concat, List.dropLast_concat, chunkOf_len]
    rw [if_pos hfit]
    simp [chunkOf, List.foldl_append, Nat.add_assoc]
  · have hplaced := placed_snoc p at_ (cut p target fs) [f]
    rw [cut_flatten, List.flatMap_singleton] at hplaced
    rw [hsnoc, hplaced, List.map_append, List.map_singleton, hone, pushChunk]
    rcases List.eq_nil_or_concat (cut p target fs) with hnil | ⟨gs, g, hgs⟩
    · rw [hnil]
      rfl
    · rw [List.concat_eq_append] at hgs
      rw [hgs, List.getLast?_concat] at hfit
      rw [hgs, placed_snoc, List.map_append, List.map_singleton, List.getLast?_concat]
      simp only [chunkOf_len, hfit g rfl, if_false]

/-! ## Tenants -/

/-- What the footer says of the frames of a tenant and where they stand. -/
def sealedTenant (p : WirePacking) (target : Nat) (x : List Frame2 × Nat × Nat) : SealedTenant where
  tenant := groupTenant x.1
  frames := x.1.length % 2 ^ 32
  chunks := (placed (Frame2.wire p) x.2.1 (cut p target x.1)).map chunkOf

structure SealedBuilt (p : WirePacking) (target : Nat) (header : SealedHeader) (fs : List Frame2)
    (b : SealedBuilder) : Prop where
  buf : b.buf = sealedHeader header ++ fs.flatMap (Frame2.wire p)
  tenants : b.tenants
    = (placed (Frame2.wire p) headerLen (groups tenantOf fs)).map (sealedTenant p target)

theorem sealedHeader_length (h : SealedHeader) : (sealedHeader h).length = headerLen := by
  simp only [sealedHeader, sealedMagic, List.length_append, length_le, List.length_cons,
    List.length_nil, headerLen]

variable {fs : List Frame2}

theorem SealedBuilt.push {header : SealedHeader} {b : SealedBuilder}
    (h : SealedBuilt p target header fs b) (f : Frame2) :
    SealedBuilt p target header (fs ++ [f]) (b.push target f (f.wire p)) := by
  have hbuf : b.buf.length = headerLen + (fs.flatMap (Frame2.wire p)).length := by
    rw [h.buf, List.length_append, sealedHeader_length]
  refine ⟨?_, ?_⟩
  · rw [SealedBuilder.push, h.buf, List.flatMap_append, List.flatMap_singleton, List.append_assoc]
  rcases groups_snoc tenantOf fs f with ⟨gs, g, hgs, hkey, hsnoc⟩ | ⟨hdiff, hsnoc⟩
  · have hmem : g ∈ groups tenantOf fs := hgs ▸ List.mem_append_right _ List.mem_cons_self
    have hg : groupTenant g = tenantOf f := groupTenant_eq (ne_nil_of_mem_groups hmem) hkey
    have hg' : groupTenant (g ++ [f]) = tenantOf f :=
      groupTenant_eq (by simp) (List.forall_mem_append.mpr ⟨hkey, by simp⟩)
    have hflat : fs = gs.flatten ++ g := by
      have hflatten := groups_flatten tenantOf fs
      rwa [hgs, List.flatten_append, List.flatten_singleton, eq_comm] at hflatten
    have hend : headerLen + (fs.flatMap (Frame2.wire p)).length
        = headerLen + (gs.flatten.flatMap (Frame2.wire p)).length
          + (g.flatMap (Frame2.wire p)).length := by
      rw [hflat, List.flatMap_append, List.length_append, Nat.add_assoc]
    have htenants := h.tenants
    rw [hgs, placed_snoc, List.map_append, List.map_singleton] at htenants
    have hopen : SealedBuilder.openTenant b.tenants f.tenant.toNat = b.tenants := by
      rw [SealedBuilder.openTenant, htenants, List.getLast?_concat, if_neg]
      rw [Option.map_some, ne_eq, not_not]
      exact congrArg some hg
    rw [hsnoc, placed_snoc, List.map_append, List.map_singleton]
    simp only [SealedBuilder.push, hopen]
    simp only [htenants, List.getLast?_concat, List.dropLast_concat, hbuf, hend]
    congr 2
    rw [sealedTenant, sealedTenant, pushChunk_placed, List.length_append, List.length_singleton,
      Nat.mod_add_mod, hg, hg']
  · have hopen : SealedBuilder.openTenant b.tenants f.tenant.toNat
        = b.tenants ++ [⟨tenantOf f, 0, []⟩] := by
      rw [SealedBuilder.openTenant, if_pos]
      · rfl
      rw [h.tenants]
      rcases List.eq_nil_or_concat (groups tenantOf fs) with hnil | ⟨gs, g, hgs⟩
      · rw [hnil]
        exact fun h => nomatch h
      rw [List.concat_eq_append] at hgs
      have hmem : g ∈ groups tenantOf fs := hgs ▸ List.mem_append_right _ List.mem_cons_self
      obtain ⟨a, ha⟩ := List.exists_mem_of_ne_nil g (ne_nil_of_mem_groups hmem)
      rw [hgs, List.getLast?_concat] at hdiff
      rw [hgs, placed_snoc, List.map_append, List.map_singleton, List.getLast?_concat]
      intro hsame
      refine hdiff g rfl a ha ?_
      rw [← groupTenant_of_mem hmem ha]
      exact Option.some.inj hsame
    have hgroups : (groups tenantOf fs).flatten = fs := groups_flatten tenantOf fs
    rw [SealedBuilder.push, hsnoc, placed_snoc, List.map_append, List.map_singleton, ← h.tenants,
      hgroups]
    simp only [hopen, List.getLast?_concat, List.dropLast_concat, hbuf]
    congr 2
    have hfirst := pushChunk_placed (p := p) target
      (headerLen + (fs.flatMap (Frame2.wire p)).length) [] f
    exact congrArg (SealedTenant.mk (tenantOf f) 1) hfirst

theorem foldlM_encode {ε : Type} (hfs : ∀ f ∈ fs, f.Encodable) (b : SealedBuilder) :
    (SealedBuilder.pushFrames p target b fs : Outcome ε _)
      = .ok (fs.foldl (fun b f => b.push target f (f.wire p)) b) := by
  induction fs generalizing b with
  | nil => rfl
  | cons f fs ih =>
    obtain ⟨hf, hfs⟩ := List.forall_mem_cons.mp hfs
    have hencode : (f.encode p : Outcome ε _) = .ok (f.wire p) :=
      Frame2.encode_eq_ok.mpr ⟨hf, rfl⟩
    rw [SealedBuilder.pushFrames, List.foldlM_cons, hencode, List.foldl_cons]
    exact ih hfs _

variable (p target) in
theorem sealedBuilt_pushFrames (header : SealedHeader) (fs : List Frame2) :
    SealedBuilt p target header fs (fs.foldl (fun b f => b.push target f (f.wire p))
      ⟨sealedHeader header, []⟩) := by
  induction fs using List.reverseRecOn with
  | nil => exact ⟨(List.append_nil _).symm, rfl⟩
  | append_singleton fs f ih =>
    rw [List.foldl_append]
    exact ih.push f

/-! ## The filter -/

namespace TenantBloom

variable (crc : Nat → List UInt8 → Nat)

theorem insert_length (b : Bloom) (t : Nat) : (insert crc b t).bits.length = b.bits.length :=
  Bloom.length_sets _ _

theorem foldl_length (ts : List Nat) (b : Bloom) :
    (ts.foldl (insert crc) b).bits.length = b.bits.length := by
  induction ts generalizing b with
  | nil => rfl
  | cons t ts ih => rw [List.foldl_cons, ih, insert_length]

/-- The bytes of a filter over `n` tenants. -/
def size (n : Nat) : Nat := max ((n * 10 + 7) / 8).nextPowerOfTwo 64

theorem over_length (ts : List Nat) : («over» crc ts).bits.length = 8 * size ts.length := by
  rw [«over», foldl_length, Bloom.sizedFor, List.length_replicate]
  rfl

theorem size_pow (n : Nat) : (size n).isPowerOfTwo ∧ 64 ≤ size n := by
  refine ⟨?_, Nat.le_max_right _ _⟩
  rcases Nat.le_total 64 ((n * 10 + 7) / 8).nextPowerOfTwo with h | h
  · rw [size, Nat.max_eq_left h]
    exact Nat.isPowerOfTwo_nextPowerOfTwo _
  · rw [size, Nat.max_eq_right h]
    exact ⟨6, rfl⟩

theorem over_bytes (ts : List Nat) : («over» crc ts).bytes.length = size ts.length
      ∧ («over» crc ts).bytes.flatMap unpackByte = («over» crc ts).bits :=
  packBits_spec _ _ (over_length crc ts)

variable {crc}

theorem getD_foldl {ts : List Nat} {b : Bloom} {t i : Nat} (hi : i < b.bits.length)
    (h : (t ∈ ts ∧ i ∈ Bloom.probes (hash crc t) b.bits.length) ∨ b.bits.getD i false = true) :
    (ts.foldl (insert crc) b).bits.getD i false = true := by
  induction ts generalizing b with
  | nil =>
    rcases h with ⟨ht, -⟩ | h
    · cases ht
    · exact h
  | cons s ts ih =>
    have hlen := insert_length crc b s
    refine ih (by rw [hlen]; exact hi) ?_
    rw [hlen]
    rcases h with ⟨ht, hprobe⟩ | h
    · rcases List.mem_cons.mp ht with rfl | ht
      · exact .inr (Bloom.getD_sets hi (.inl hprobe))
      · exact .inl ⟨ht, hprobe⟩
    · exact .inr (Bloom.getD_sets hi (.inr h))

theorem mayContain_over {ts : List Nat} {t : Nat} (ht : t ∈ ts) :
    mayContain crc («over» crc ts) t = true := by
  have hlen : («over» crc ts).bits.length = (Bloom.sizedFor ts.length).bits.length :=
    foldl_length crc ts _
  rw [mayContain, Bloom.mayContain, List.all_eq_true, hlen]
  intro i hi
  refine getD_foldl ?_ (.inl ⟨ht, hi⟩)
  have hpos : 0 < (Bloom.sizedFor ts.length).bits.length := by
    simp only [Bloom.sizedFor, List.length_replicate]
    omega
  obtain ⟨j, -, rfl⟩ := List.mem_map.mp hi
  exact Nat.mod_lt _ hpos

end TenantBloom

/-! ## Headers and footers -/

structure SealedHeaderFits (h : SealedHeader) : Prop where
  shard : h.shard < 2 ^ 32
  firstSeq : h.firstSeq < 2 ^ 64
  lastSeq : h.lastSeq < 2 ^ 64

theorem parseSealedHeader_header {h : SealedHeader} (hfits : SealedHeaderFits h) {rest : List UInt8}
    (hrest : tailLen ≤ rest.length) : parseSealedHeader (sealedHeader h ++ rest) = .ok h := by
  have hlen : ¬ (sealedHeader h ++ rest).length < headerLen + tailLen := by
    rw [List.length_append, sealedHeader_length]
    omega
  have hmagicAt : (range (sealedHeader h ++ rest) 0 4 : Outcome SegmentDecodeError _)
      = .ok sealedMagic := by
    rw [sealedHeader, List.append_assoc]
    exact range_split (a := []) (x := sealedMagic) rfl rfl rfl
  rw [parseSealedHeader, reject_neg hlen, Outcome.ok_bind, hmagicAt, Outcome.ok_bind, reject_neg (fun h => h rfl),
    Outcome.ok_bind]
  have hversion : ofLe (le 2 sealedVersion) = sealedVersion := ofLe_le16 (by decide)
  simp [sealedHeader, sealedMagic, hversion, ofLe_le32 hfits.shard, ofLe_le64 hfits.firstSeq,
    ofLe_le64 hfits.lastSeq]

/-- A chunk inside a region that ends at `footerStart`, in fields that fit. -/
structure ChunkFits (footerStart : Nat) (c : SealedChunk) : Prop where
  minLsn : c.minLsn < 2 ^ 64
  maxLsn : c.maxLsn < 2 ^ 64
  start : headerLen ≤ c.offset
  inside : c.offset + c.len ≤ footerStart
  small : c.offset + c.len < 2 ^ 64

structure SealedTenantFits (footerStart : Nat) (t : SealedTenant) : Prop where
  tenant : t.tenant < 2 ^ 128
  frames : t.frames < 2 ^ 32
  chunkCount : t.chunks.length < 2 ^ 32
  chunks : ∀ c ∈ t.chunks, ChunkFits footerStart c

theorem chunkBytes_length (c : SealedChunk) : (chunkBytes c).length = chunkLen := by
  simp [chunkBytes, chunkLen]

theorem tenantBytes_length (t : SealedTenant) :
    (tenantBytes t).length = tenantFixedLen + t.chunks.length * chunkLen := by
  simp only [tenantBytes, List.length_append, length_le,
    length_flatMap_of_length chunkBytes_length, tenantFixedLen]
  omega

theorem parseChunk_bytes {footerStart : Nat} {c : SealedChunk} (h : ChunkFits footerStart c)
    (rest : List UInt8) : parseChunk footerStart (chunkBytes c ++ rest) = .ok (c, rest) := by
  have hoffset : c.offset < 2 ^ 64 := Nat.lt_of_le_of_lt (Nat.le_add_right ..) h.small
  have hlen : c.len < 2 ^ 64 := Nat.lt_of_le_of_lt (Nat.le_add_left ..) h.small
  have hbad : ¬ (c.offset < headerLen ∨ c.offset + c.len ≥ 2 ^ 64
      ∨ c.offset + c.len > footerStart) := by
    have := h.start
    have := h.inside
    have := h.small
    omega
  rw [parseChunk, take_part (chunkBytes_length c), Outcome.ok_bind]
  simp only [chunkBytes, range_le_skip, range_le_head, range_le_all, Outcome.ok_bind, Nat.reduceLeDiff,
    Nat.reduceSub, ofLe_le64 hoffset, ofLe_le64 hlen, reject_neg hbad, ofLe_le64 h.minLsn,
    ofLe_le64 h.maxLsn, pure_eq]

theorem parseTenant_bytes {footerStart : Nat} {t : SealedTenant}
    (h : SealedTenantFits footerStart t) (rest : List UInt8) :
    parseTenant footerStart (tenantBytes t ++ rest) = .ok (t, rest) := by
  have hsplit : tenantBytes t ++ rest = (le 16 t.tenant ++ (le 4 t.frames ++ le 4 t.chunks.length))
      ++ (t.chunks.flatMap chunkBytes ++ rest) := by
    simp only [tenantBytes, List.append_assoc]
  have hcount : ¬ t.chunks.length > (t.chunks.flatMap chunkBytes ++ rest).length / chunkLen := by
    rw [List.length_append, length_flatMap_of_length chunkBytes_length, Nat.not_lt,
      Nat.le_div_iff_mul_le (by decide)]
    exact Nat.le_add_right ..
  have hchunks := many_bytes (fun c hc => parseChunk_bytes (h.chunks c hc)) rest
  rw [hsplit, parseTenant, take_part (by simp [tenantFixedLen]), Outcome.ok_bind]
  simp only [range_le_skip, range_le_head, range_le_all, Outcome.ok_bind, Nat.reduceLeDiff, Nat.reduceSub,
    ofLe_le32 h.chunkCount, reject_neg hcount, hchunks, pure_eq, ofLe_le128 h.tenant,
    ofLe_le32 h.frames]

theorem sealedTenants_length (ts : List SealedTenant) : (ts.flatMap tenantBytes).length
      = tenantFixedLen * ts.length + chunkLen * (ts.flatMap fun t => t.chunks).length := by
  induction ts with
  | nil => rfl
  | cons t ts ih =>
    rw [List.flatMap_cons, List.flatMap_cons, List.length_append, List.length_append, ih,
      tenantBytes_length, List.length_cons, Nat.mul_succ, Nat.mul_add, Nat.mul_comm t.chunks.length]
    omega

theorem parseSealedFooter_footer {footerStart : Nat} {f : SealedFooter} {ts : List Nat}
    {crc : Nat → List UInt8 → Nat} (hbloom : f.bloom = TenantBloom.over crc ts)
    (hsize : (sealedFooter f).length < 2 ^ 32) (hcount : f.frameCount < 2 ^ 32)
    (hfits : ∀ t ∈ f.tenants, SealedTenantFits footerStart t) :
    parseSealedFooter (sealedFooter f) footerStart = .ok f := by
  obtain ⟨hlen, hbits⟩ := TenantBloom.over_bytes crc ts
  obtain ⟨hpow, hmin⟩ := TenantBloom.size_pow ts.length
  rw [← hbloom] at hlen hbits
  have htenants := sealedTenants_length f.tenants
  have hcountLe : f.tenants.length ≤ (f.tenants.flatMap tenantBytes).length := by
    rw [htenants, tenantFixedLen]
    omega
  have hparts : (sealedFooter f).length
      = 4 + (f.bloom.bytes.length + (4 + ((f.tenants.flatMap tenantBytes).length + 4))) := by
    simp only [sealedFooter, List.length_append, length_le]
  have hbad : ¬ (f.bloom.bytes.length > (f.bloom.bytes ++ (le 4 f.tenants.length
        ++ (f.tenants.flatMap tenantBytes ++ le 4 f.frameCount))).length
      ∨ ¬ f.bloom.bytes.length.isPowerOfTwo ∨ f.bloom.bytes.length < 64) := by
    rw [List.length_append, hlen, not_or, not_or, not_not]
    exact ⟨by omega, hpow, by omega⟩
  have hlie : ¬ f.tenants.length
      > (f.tenants.flatMap tenantBytes ++ le 4 f.frameCount).length / tenantFixedLen := by
    rw [Nat.not_lt, Nat.le_div_iff_mul_le (by decide), List.length_append, htenants, Nat.mul_comm]
    omega
  have hmany := many_bytes (fun t ht => parseTenant_bytes (hfits t ht)) (le 4 f.frameCount)
  have htake := take_part (b := []) (length_le 4 f.frameCount)
  rw [List.append_nil] at htake
  rw [parseSealedFooter, sealedFooter, take_part (length_le 4 _), Outcome.ok_bind]
  simp only [ofLe_le32 (show f.bloom.bytes.length < 2 ^ 32 by omega), reject_neg hbad, Outcome.ok_bind,
    take_part (rfl : f.bloom.bytes.length = _), take_part (length_le 4 f.tenants.length),
    ofLe_le32 (show f.tenants.length < 2 ^ 32 by omega), reject_neg hlie, hmany, htake,
    reject_neg (fun h : ([] : List UInt8) ≠ [] => h rfl), pure_eq, ofLe_le32 hcount, hbits]

/-! ## What is accepted -/

theorem parseSealedHeader_meets (buf : List UInt8) :
    Meets (parseSealedHeader buf) fun _ => headerLen + tailLen ≤ buf.length := by
  rw [parseSealedHeader]
  refine Meets.reject fun hlen => ?_
  have hheader : headerLen = 28 := rfl
  refine Meets.range (by omega) (by omega) ?_
  refine Meets.reject fun _ => ?_
  refine Meets.range (by omega) (by omega) ?_
  refine Meets.reject fun _ => ?_
  refine Meets.range (by omega) (by omega) ?_
  refine Meets.range (by omega) (by omega) ?_
  refine Meets.range (by omega) (by omega) ?_
  exact Meets.ok (Nat.not_lt.mp hlen)

/-- A chunk that lies in the region of the frames. -/
def ChunkInside (footerStart : Nat) (c : SealedChunk) : Prop :=
  headerLen ≤ c.offset ∧ c.offset + c.len ≤ footerStart

theorem parseChunk_meets (footerStart : Nat) (b : List UInt8) :
    Meets (parseChunk footerStart b) fun r => ChunkInside footerStart r.1 := by
  refine Meets.bind (take_meets chunkLen b) fun r hr => ?_
  have hlen : chunkLen = 32 := rfl
  refine Meets.range (by omega) (by omega) ?_
  refine Meets.range (by omega) (by omega) ?_
  refine Meets.range (by omega) (by omega) ?_
  refine Meets.range (by omega) (by omega) ?_
  refine Meets.reject fun hbad => ?_
  rw [not_or, not_or] at hbad
  exact Meets.ok ⟨Nat.not_lt.mp hbad.1, Nat.not_lt.mp hbad.2.2⟩

theorem parseTenant_meets (footerStart : Nat) (b : List UInt8) :
    Meets (parseTenant footerStart b) fun r => ∀ c ∈ r.1.chunks, ChunkInside footerStart c := by
  refine Meets.bind (take_meets tenantFixedLen b) fun r hr => ?_
  have hlen : tenantFixedLen = 24 := rfl
  refine Meets.range (by omega) (by omega) ?_
  refine Meets.reject fun _ => ?_
  refine Meets.bind (Meets.many (I := fun _ => True)
    (fun b _ => (parseChunk_meets footerStart b).mono fun _ h => ⟨h, trivial⟩) _ trivial)
    fun cs hcs => ?_
  refine Meets.range (by omega) (by omega) ?_
  refine Meets.range (by omega) (by omega) ?_
  exact Meets.ok hcs.1

theorem parseSealedFooter_meets (body : List UInt8) (footerStart : Nat) :
    Meets (parseSealedFooter body footerStart) fun f =>
      f.frameCount < 2 ^ 32 ∧ ∀ t ∈ f.tenants, ∀ c ∈ t.chunks, ChunkInside footerStart c := by
  refine Meets.bind (take_meets 4 body) fun r _ => ?_
  refine Meets.reject fun _ => ?_
  refine Meets.bind (take_meets _ r.2) fun bits _ => ?_
  refine Meets.bind (take_meets 4 bits.2) fun count _ => ?_
  refine Meets.reject fun _ => ?_
  refine Meets.bind (Meets.many (Q := fun t => ∀ c ∈ t.chunks, ChunkInside footerStart c)
    (I := fun _ => True) (fun b _ => (parseTenant_meets footerStart b).mono fun _ h => ⟨h, trivial⟩) _ trivial)
    fun ts hts => ?_
  refine Meets.bind (take_meets 4 ts.2) fun c hc => ?_
  refine Meets.reject fun _ => ?_
  have hlt := ofLe_lt c.1
  rw [hc] at hlt
  exact Meets.ok ⟨hlt, hts.1⟩

/-- The decoder does not panic, counts the frames it accepts, and has every
chunk inside the region of the frames. -/
theorem decodeSealed_meets (buf : List UInt8) : Meets (decodeSealed p buf) fun r =>
      r.2.1.length = r.2.2.frameCount ∧ r.2.2.frameCount < 2 ^ 32
        ∧ ∀ t ∈ r.2.2.tenants, ∀ c ∈ t.chunks, ChunkInside (framesEnd buf) c := by
  have hshell : Meets (parseSealedShell p buf) fun r =>
      headerLen ≤ r.2.2 ∧ r.2.2 ≤ buf.length ∧ r.2.1.frameCount < 2 ^ 32
        ∧ ∀ t ∈ r.2.1.tenants, ∀ c ∈ t.chunks, ChunkInside (framesEnd buf) c := by
    refine Meets.bind (parseSealedHeader_meets buf) fun header hlen => ?_
    refine Meets.bind (footerBody_meets hlen) fun r hr => ?_
    refine Meets.bind (parseSealedFooter_meets r.1 r.2) fun f hf => ?_
    exact Meets.ok ⟨hr.1, Nat.le_trans (Nat.le_add_right ..) hr.2.1, hf.1, hr.2.2 ▸ hf.2⟩
  refine Meets.bind hshell fun r hr => ?_
  refine Meets.range hr.1 hr.2.1 ?_
  refine Meets.bind (readFrames_meets _) fun frames _ => ?_
  refine Meets.reject fun hcount => ?_
  exact Meets.ok ⟨Decidable.not_not.mp hcount, hr.2.2⟩

/-! ## Sorted frames -/

/-- By tenant, and by start lsn among the frames of a tenant. -/
def SortedFrames (fs : List Frame2) : Prop :=
  fs.Pairwise fun a b => tenantOf a < tenantOf b
    ∨ (tenantOf a = tenantOf b ∧ a.startLsn.toNat ≤ b.startLsn.toNat)

theorem unsorted_eq_false (fs : List Frame2) : unsorted fs = false ↔ SortedFrames fs := by
  have hbefore : ∀ a b : Frame2, before b a = false ↔ tenantOf a < tenantOf b
      ∨ (tenantOf a = tenantOf b ∧ a.startLsn.toNat ≤ b.startLsn.toNat) := by
    intro a b
    simp only [before, tenantOf, Bool.or_eq_false_iff, Bool.and_eq_false_iff, decide_eq_false_iff_not]
    omega
  have htrans : IsTrans Frame2 fun a b => tenantOf a < tenantOf b
      ∨ (tenantOf a = tenantOf b ∧ a.startLsn.toNat ≤ b.startLsn.toNat) :=
    ⟨fun a b c hab hbc => by omega⟩
  rw [SortedFrames, ← List.isChain_iff_pairwise]
  induction fs with
  | nil => exact ⟨fun _ => List.isChain_nil, fun _ => rfl⟩
  | cons a fs ih =>
    cases fs with
    | nil => exact ⟨fun _ => List.isChain_singleton _, fun _ => rfl⟩
    | cons b fs =>
      have hcons : unsorted (a :: b :: fs) = (before b a || unsorted (b :: fs)) := rfl
      rw [hcons, Bool.or_eq_false_iff, List.isChain_cons_cons, hbefore]
      exact and_congr_right fun _ => ih

theorem SortedFrames.tenants (h : SortedFrames fs) :
    fs.Pairwise fun a b => tenantOf a ≤ tenantOf b := by
  refine h.imp fun hab => ?_
  omega

theorem filter_key_eq {α : Type} {key : α → Nat} {l : List α}
    (h : l.Pairwise fun a b => key a < key b) {a : α} (ha : a ∈ l) :
    l.filter (fun b => key b = key a) = [a] := by
  induction l with
  | nil => cases ha
  | cons b l ih =>
    obtain ⟨hb, hl⟩ := List.pairwise_cons.mp h
    rcases List.mem_cons.mp ha with rfl | ha
    · have hnone : l.filter (fun b => key b = key a) = [] :=
        List.filter_eq_nil_iff.mpr fun c hc heq =>
          absurd (of_decide_eq_true heq) (Nat.ne_of_gt (hb c hc))
      rw [List.filter_cons_of_pos (by simp), hnone]
    · rw [List.filter_cons_of_neg (by simpa using Nat.ne_of_lt (hb a ha)), ih hl ha]

theorem groupTenants_lt (h : SortedFrames fs) :
    (groups tenantOf fs).Pairwise fun g g' => groupTenant g < groupTenant g' := by
  refine (groups_lt h.tenants).imp_of_mem fun hg hg' hlt => ?_
  obtain ⟨a, ha⟩ := List.exists_mem_of_ne_nil _ (ne_nil_of_mem_groups hg)
  obtain ⟨b, hb⟩ := List.exists_mem_of_ne_nil _ (ne_nil_of_mem_groups hg')
  rw [groupTenant_of_mem hg ha, groupTenant_of_mem hg' hb]
  exact hlt a ha b hb

theorem framesOf_groupTenant {g : List Frame2} (h : SortedFrames fs)
    (hg : g ∈ groups tenantOf fs) : framesOf (groupTenant g) fs = g := by
  have hflatten := flatten_filter (groups tenantOf fs) (q := fun g' => groupTenant g' = groupTenant g)
    (r := fun f => tenantOf f = groupTenant g) fun g' hg' a ha => by rw [groupTenant_of_mem hg' ha]
  rw [filter_key_eq (groupTenants_lt h) hg, List.flatten_singleton, groups_flatten] at hflatten
  exact hflatten.symm

theorem le_foldl_max {l : List Nat} {m a : Nat} (h : a ≤ m ∨ a ∈ l) : a ≤ l.foldl max m := by
  induction l generalizing m with
  | nil => exact h.resolve_right List.not_mem_nil
  | cons b l ih =>
    refine ih ?_
    rcases h with h | h
    · exact .inl (Nat.le_trans h (Nat.le_max_left ..))
    · rcases List.mem_cons.mp h with rfl | h
      · exact .inl (Nat.le_max_right ..)
      · exact .inr h

theorem foldl_max_lt {l : List Nat} {m b : Nat} (hm : m < b) (h : ∀ a ∈ l, a < b) :
    l.foldl max m < b := by
  induction l generalizing m with
  | nil => exact hm
  | cons a l ih =>
    obtain ⟨ha, hl⟩ := List.forall_mem_cons.mp h
    exact ih (Nat.max_lt.mpr ⟨hm, ha⟩) hl

theorem chunkOf_encloses {x : List Frame2 × Nat × Nat}
    (h : x.1.Pairwise fun a b => a.startLsn.toNat ≤ b.startLsn.toNat) {f : Frame2} (hf : f ∈ x.1) :
    (chunkOf x).minLsn ≤ f.startLsn.toNat ∧ f.endLsn.toNat ≤ (chunkOf x).maxLsn := by
  refine ⟨?_, le_foldl_max (.inr (List.mem_map_of_mem hf))⟩
  obtain ⟨g, at_, len⟩ := x
  cases g with
  | nil => cases hf
  | cons a g =>
    rcases List.mem_cons.mp hf with rfl | hf
    · exact le_rfl
    · exact (List.pairwise_cons.mp h).1 f hf

/-! ## Exact footers -/

/-- The footer is true of the frames and the object. -/
structure SealedFooter.Exact (p : WirePacking) (fs : List Frame2) (wire : List UInt8)
    (footer : SealedFooter) : Prop where
  count : footer.frameCount = fs.length
  sorted : footer.tenants.Pairwise fun s t => s.tenant < t.tenant
  tenants : ∀ t, (∃ s ∈ footer.tenants, s.tenant = t) ↔ ∃ f ∈ fs, tenantOf f = t
  frames : ∀ s ∈ footer.tenants, s.frames = (framesOf s.tenant fs).length
  /-- The chunks of a tenant stand one behind the other, and so do the
  tenants. -/
  contiguous : ∀ s ∈ footer.tenants, ∃ start end_,
    Consecutive start end_ (s.chunks.map fun c => (c.offset, c.len))
  region : Consecutive headerLen (headerLen + (fs.flatMap (Frame2.wire p)).length)
    ((footer.tenants.flatMap fun s => s.chunks).map fun c => (c.offset, c.len))
  /-- Each chunk reads on its own, within its bounds, and the chunks of a
  tenant read as its frames. -/
  standalone : ∀ s ∈ footer.tenants, ∃ pieces : List (List Frame2),
    List.Forall₂ (fun c piece => readFrames p (slice wire c.offset c.len) = .ok piece
      ∧ ∀ f ∈ piece, c.minLsn ≤ f.startLsn.toNat ∧ f.endLsn.toNat ≤ c.maxLsn) s.chunks pieces
    ∧ pieces.flatten = framesOf s.tenant fs
  bloom : ∀ s ∈ footer.tenants, TenantBloom.mayContain p.crc footer.bloom s.tenant = true

/-- The length of the footer body. -/
def sealedFooterSize (p : WirePacking) (target : Nat) (fs : List Frame2) : Nat :=
  4 + 4 + 4 + TenantBloom.size (groups tenantOf fs).length
    + tenantFixedLen * (groups tenantOf fs).length
    + chunkLen * ((groups tenantOf fs).flatMap (cut p target)).length

section Exact

variable {header : SealedHeader} {fs : List Frame2} {b : SealedBuilder}

/-- The footer the builder writes. -/
def SealedBuilder.footer (p : WirePacking) (b : SealedBuilder) (fs : List Frame2) : SealedFooter where
  frameCount := fs.length % 2 ^ 32
  bloom := TenantBloom.over p.crc (b.tenants.map fun t => t.tenant)
  tenants := b.tenants

theorem buildSealed_eq (header : SealedHeader) (hfs : ∀ f ∈ fs, f.Encodable)
    (hsorted : SortedFrames fs) (target : Nat) :
    ∃ b, SealedBuilt p target header fs b ∧ buildSealed p header fs target
      = .ok (close p sealedFooterMagic (sealedHeader header ++ fs.flatMap (Frame2.wire p))
          (sealedFooter (b.footer p fs)), b.footer p fs) := by
  have hbuilt := sealedBuilt_pushFrames p target header fs
  refine ⟨_, hbuilt, ?_⟩
  rw [buildSealed, reject_neg (by rw [(unsorted_eq_false fs).mpr hsorted]; exact Bool.false_ne_true),
    Outcome.ok_bind, foldlM_encode hfs, Outcome.ok_bind, ← hbuilt.buf]
  rfl

theorem SealedBuilt.of_mem (h : SealedBuilt p target header fs b) {s : SealedTenant}
    (hs : s ∈ b.tenants) : ∃ x ∈ placed (Frame2.wire p) headerLen (groups tenantOf fs),
      x.1 ∈ groups tenantOf fs ∧ s = sealedTenant p target x := by
  rw [h.tenants] at hs
  obtain ⟨x, hx, rfl⟩ := List.mem_map.mp hs
  have hmem := List.mem_map_of_mem (f := Prod.fst) hx
  rw [placed_groups] at hmem
  exact ⟨x, hx, hmem, rfl⟩

theorem SealedBuilt.tenants_length (h : SealedBuilt p target header fs b) :
    b.tenants.length = (groups tenantOf fs).length := by
  rw [h.tenants, List.length_map, placed_length]

theorem sealedTenant_ranges (x : List Frame2 × Nat × Nat) :
    (sealedTenant p target x).chunks.map (fun c => (c.offset, c.len))
      = (placed (Frame2.wire p) x.2.1 (cut p target x.1)).map Prod.snd := by
  rw [sealedTenant, List.map_map]
  rfl

theorem sealedTenant_consecutive (x : List Frame2 × Nat × Nat) :
    Consecutive x.2.1 (x.2.1 + (x.1.flatMap (Frame2.wire p)).length)
      ((sealedTenant p target x).chunks.map fun c => (c.offset, c.len)) := by
  have hrows := placed_consecutive (Frame2.wire p) x.2.1 (cut p target x.1)
  rwa [cut_flatten, ← sealedTenant_ranges] at hrows

variable (p target) in
theorem tenants_consecutive (at_ : Nat) (gs : List (List Frame2)) :
    Consecutive at_ (at_ + (gs.flatten.flatMap (Frame2.wire p)).length)
      ((((placed (Frame2.wire p) at_ gs).map (sealedTenant p target)).flatMap fun s => s.chunks).map
        fun c => (c.offset, c.len)) := by
  induction gs generalizing at_ with
  | nil => rfl
  | cons g gs ih =>
    rw [placed, List.map_cons, List.flatMap_cons, List.map_append, List.flatten_cons,
      List.flatMap_append, List.length_append, ← Nat.add_assoc]
    exact (sealedTenant_consecutive (g, at_, _)).append (ih _)

theorem SealedBuilt.chunks_length (h : SealedBuilt p target header fs b) :
    (b.tenants.flatMap fun s => s.chunks).length
      = ((groups tenantOf fs).flatMap (cut p target)).length := by
  have hall : ∀ (at_ : Nat) (gs : List (List Frame2)),
      (((placed (Frame2.wire p) at_ gs).map (sealedTenant p target)).flatMap
        fun s => s.chunks).length = (gs.flatMap (cut p target)).length := by
    intro at_ gs
    induction gs generalizing at_ with
    | nil => rfl
    | cons g gs ih =>
      rw [placed, List.map_cons, List.flatMap_cons, List.length_append, ih, List.flatMap_cons,
        List.length_append, sealedTenant, List.length_map, placed_length]
  rw [h.tenants, hall]

theorem SealedBuilt.footer_length (h : SealedBuilt p target header fs b) :
    (sealedFooter (b.footer p fs)).length = sealedFooterSize p target fs := by
  have hbloom := (TenantBloom.over_bytes p.crc (b.tenants.map fun t => t.tenant)).1
  rw [List.length_map, h.tenants_length] at hbloom
  simp only [sealedFooter, SealedBuilder.footer, List.length_append, length_le,
    sealedTenants_length, h.chunks_length, h.tenants_length, hbloom, sealedFooterSize]
  omega

theorem SealedBuilt.exact (hp : p.Lawful) (h : SealedBuilt p target header fs b)
    (hfs : ∀ f ∈ fs, f.Encodable) (hsorted : SortedFrames fs) (hcount : fs.length < 2 ^ 32)
    (post : List UInt8) : SealedFooter.Exact p fs
      (sealedHeader header ++ (fs.flatMap (Frame2.wire p) ++ post)) (b.footer p fs) := by
  refine ⟨Nat.mod_eq_of_lt hcount, ?_, fun t => ⟨?_, ?_⟩, fun s hs => ?_, fun s hs => ?_, ?_,
    fun s hs => ?_, fun s hs => ?_⟩
  · have hlt := groupTenants_lt hsorted
    rw [← placed_groups (Frame2.wire p) headerLen (groups tenantOf fs), List.pairwise_map] at hlt
    rw [SealedBuilder.footer, h.tenants]
    exact List.pairwise_map.mpr hlt
  · rintro ⟨s, hs, rfl⟩
    obtain ⟨x, -, hx, rfl⟩ := h.of_mem hs
    obtain ⟨a, ha⟩ := List.exists_mem_of_ne_nil _ (ne_nil_of_mem_groups hx)
    have hmem : a ∈ fs := groups_flatten tenantOf fs ▸ List.mem_flatten_of_mem hx ha
    exact ⟨a, hmem, (groupTenant_of_mem hx ha).symm⟩
  · rintro ⟨f, hf, rfl⟩
    rw [← groups_flatten tenantOf fs] at hf
    obtain ⟨g, hg, hfg⟩ := List.mem_flatten.mp hf
    have hplaced := hg
    rw [← placed_groups (Frame2.wire p) headerLen (groups tenantOf fs)] at hplaced
    obtain ⟨x, hx, rfl⟩ := List.mem_map.mp hplaced
    refine ⟨sealedTenant p target x, ?_, groupTenant_of_mem hg hfg⟩
    rw [SealedBuilder.footer, h.tenants]
    exact List.mem_map_of_mem hx
  · obtain ⟨x, -, hx, rfl⟩ := h.of_mem hs
    have hgroup := framesOf_groupTenant hsorted hx
    have hle : x.1.length ≤ fs.length := by
      rw [← hgroup]
      exact List.length_filter_le _ _
    change x.1.length % 2 ^ 32 = (framesOf (groupTenant x.1) fs).length
    rw [hgroup, Nat.mod_eq_of_lt (Nat.lt_of_le_of_lt hle hcount)]
  · obtain ⟨x, -, -, rfl⟩ := h.of_mem hs
    exact ⟨_, _, sealedTenant_consecutive x⟩
  · have hrows := tenants_consecutive p target headerLen (groups tenantOf fs)
    rwa [groups_flatten, ← h.tenants] at hrows
  · obtain ⟨x, hplaced, hx, rfl⟩ := h.of_mem hs
    refine ⟨cut p target x.1, ?_, ?_⟩
    · have hslice : slice (sealedHeader header ++ (fs.flatMap (Frame2.wire p) ++ post)) x.2.1
          ((cut p target x.1).flatten.flatMap (Frame2.wire p)).length
          = (cut p target x.1).flatten.flatMap (Frame2.wire p) := by
        rw [← sealedHeader_length header] at hplaced
        have hx := slice_placed hplaced post
        rw [groups_flatten, placed_len hplaced] at hx
        rwa [cut_flatten]
      have hstart : ∀ g ∈ cut p target x.1,
          g.Pairwise fun a b => a.startLsn.toNat ≤ b.startLsn.toNat := by
        intro g hg
        have hgx : g.Sublist x.1 := cut_flatten p target x.1 ▸ List.sublist_flatten_of_mem hg
        have hxfs : x.1.Sublist fs := groups_flatten tenantOf fs ▸ List.sublist_flatten_of_mem hx
        refine (hsorted.sublist (hgx.trans hxfs)).imp_of_mem fun ha hb hab => ?_
        have hsame := key_of_mem_groups hx (hgx.mem ha) (hgx.mem hb)
        omega
      have hfst := placed_groups (Frame2.wire p) x.2.1 (cut p target x.1)
      conv => arg 3; rw [← hfst]
      change List.Forall₂ _ ((placed (Frame2.wire p) x.2.1 (cut p target x.1)).map chunkOf) _
      rw [List.forall₂_map_left_iff, List.forall₂_map_right_iff, List.forall₂_same]
      intro y hy
      have hg : y.1 ∈ cut p target x.1 := hfst ▸ List.mem_map_of_mem hy
      have henc : ∀ f ∈ y.1, f.Encodable := fun f hf => by
        have hfx : f ∈ x.1 := cut_flatten p target x.1 ▸ List.mem_flatten_of_mem hg hf
        exact hfs f (groups_flatten tenantOf fs ▸ List.mem_flatten_of_mem hx hfx)
      refine ⟨?_, fun f hf => chunkOf_encloses (hstart _ hg) hf⟩
      change readFrames p (slice _ y.2.1 y.2.2) = .ok y.1
      rw [slice_placed_of_slice hslice hy, readFrames_wires hp henc]
    · rw [cut_flatten]
      exact (framesOf_groupTenant hsorted hx).symm
  · exact TenantBloom.mayContain_over (List.mem_map_of_mem hs)

theorem SealedBuilt.fits (h : SealedBuilt p target header fs b) (hfs : ∀ f ∈ fs, f.Encodable)
    (hcount : fs.length < 2 ^ 32) (hsize : sealedFooterSize p target fs < 2 ^ 32)
    {s : SealedTenant} (hs : s ∈ b.tenants) :
    SealedTenantFits (headerLen + (fs.flatMap (Frame2.wire p)).length) s := by
  obtain ⟨x, hplaced, hx, rfl⟩ := h.of_mem hs
  obtain ⟨a, ha⟩ := List.exists_mem_of_ne_nil _ (ne_nil_of_mem_groups hx)
  have hregion := region_length_le (p := p) hfs
  have hheader : headerLen = 28 := rfl
  have hbounds := mem_placed_bounds hplaced
  rw [groups_flatten, placed_len hplaced] at hbounds
  have hchunks : (cut p target x.1).length ≤ ((groups tenantOf fs).flatMap (cut p target)).length := by
    rw [List.flatMap_def]
    exact (List.sublist_flatten_of_mem (List.mem_map_of_mem hx)).length_le
  refine ⟨?_, Nat.mod_lt _ (Nat.two_pow_pos 32), ?_, fun c hc => ?_⟩
  · change groupTenant x.1 < _
    rw [groupTenant_of_mem hx ha]
    exact a.tenant.isLt
  · rw [sealedTenant, List.length_map, placed_length]
    rw [sealedFooterSize, chunkLen] at hsize
    omega
  · obtain ⟨y, hy, rfl⟩ := List.mem_map.mp hc
    have hinner := mem_placed_bounds hy
    rw [cut_flatten] at hinner
    refine ⟨?_, foldl_max_lt (Nat.two_pow_pos 64) fun e he => ?_, ?_, ?_, ?_⟩
    · change (y.1.head?.map fun f => f.startLsn.toNat).getD 0 < _
      cases y.1.head? with
      | none => exact Nat.two_pow_pos 64
      | some f => exact f.startLsn.toNat_lt
    · obtain ⟨f, -, rfl⟩ := List.mem_map.mp he
      exact f.endLsn.toNat_lt
    · exact Nat.le_trans hbounds.1 hinner.1
    · exact Nat.le_trans hinner.2 hbounds.2
    · change y.2.1 + y.2.2 < _
      omega

theorem SealedBuilt.decode (hp : p.Lawful) (h : SealedBuilt p target header fs b)
    (hheader : SealedHeaderFits header) (hfs : ∀ f ∈ fs, f.Encodable) (hcount : fs.length < 2 ^ 32)
    (hsize : sealedFooterSize p target fs < 2 ^ 32) :
    decodeSealed p (close p sealedFooterMagic (sealedHeader header ++ fs.flatMap (Frame2.wire p))
      (sealedFooter (b.footer p fs))) = .ok (header, fs, b.footer p fs) := by
  have hlen : (sealedFooter (b.footer p fs)).length < 2 ^ 32 := h.footer_length ▸ hsize
  have hfooter : parseSealedFooter (sealedFooter (b.footer p fs))
      (headerLen + (fs.flatMap (Frame2.wire p)).length) = .ok (b.footer p fs) :=
    parseSealedFooter_footer rfl hlen (Nat.mod_lt _ (Nat.two_pow_pos 32))
      fun s hs => h.fits hfs hcount hsize hs
  have hclose := close_eq (p := p) (sealedHeader_length header) sealedFooterMagic
    (fs.flatMap (Frame2.wire p)) (sealedFooter (b.footer p fs))
  have hparse : parseSealedHeader (close p sealedFooterMagic
      (sealedHeader header ++ fs.flatMap (Frame2.wire p)) (sealedFooter (b.footer p fs)))
      = .ok header := by
    rw [hclose]
    refine parseSealedHeader_header hheader ?_
    simp only [List.length_append, length_le, sealedFooterMagic, List.length_cons, List.length_nil,
      tailLen]
    omega
  have hregion : (range (close p sealedFooterMagic
      (sealedHeader header ++ fs.flatMap (Frame2.wire p)) (sealedFooter (b.footer p fs))) headerLen
      (headerLen + (fs.flatMap (Frame2.wire p)).length) : Outcome SegmentDecodeError _)
      = .ok (fs.flatMap (Frame2.wire p)) := by
    rw [hclose]
    exact range_part (sealedHeader_length header) rfl
  rw [decodeSealed, parseSealedShell, hparse, Outcome.ok_bind,
    footerBody_close_of_lt hp (sealedHeader_length header) rfl _ hlen, Outcome.ok_bind]
  simp only [hfooter, Outcome.ok_bind, pure_eq]
  rw [hregion, Outcome.ok_bind, readFrames_wires hp hfs, Outcome.ok_bind,
    reject_neg (fun hne => hne (Nat.mod_eq_of_lt hcount).symm), Outcome.ok_bind]

/-- A decoder that gives the frames back read a footer of four byte
numbers. -/
theorem SealedBuilt.bounds (hp : p.Lawful) (h : SealedBuilt p target header fs b)
    (hfs : ∀ f ∈ fs, f.Encodable) {header' : SealedHeader} {footer : SealedFooter}
    (hdecode : decodeSealed p (close p sealedFooterMagic
      (sealedHeader header ++ fs.flatMap (Frame2.wire p)) (sealedFooter (b.footer p fs)))
      = .ok (header', fs, footer)) :
    fs.length < 2 ^ 32 ∧ sealedFooterSize p target fs < 2 ^ 32 := by
  obtain ⟨hframes, hcount, -⟩ := (decodeSealed_meets (p := p) _).of_ok hdecode
  refine ⟨Nat.lt_of_le_of_lt (Nat.le_of_eq hframes) hcount, ?_⟩
  obtain ⟨⟨_, _, start⟩, hshell, hdecode⟩ := bind_eq_ok.mp hdecode
  obtain ⟨_, -, hshell⟩ := bind_eq_ok.mp hshell
  obtain ⟨⟨_, start'⟩, hbody, hshell⟩ := bind_eq_ok.mp hshell
  obtain ⟨_, -, hshell⟩ := bind_eq_ok.mp hshell
  obtain rfl : start' = start := by
    simp only [pure_eq, ok.injEq, Prod.mk.injEq] at hshell
    exact hshell.2.2
  obtain ⟨region, hregion, hdecode⟩ := bind_eq_ok.mp hdecode
  obtain ⟨frames, hread, hdecode⟩ := bind_eq_ok.mp hdecode
  obtain ⟨_, -, hdecode⟩ := bind_eq_ok.mp hdecode
  obtain rfl : frames = fs := by
    simp only [pure_eq, ok.injEq, Prod.mk.injEq] at hdecode
    exact hdecode.2.1
  rw [← h.footer_length]
  exact body_lt_of_readFrames hp (sealedHeader_length header) rfl hfs hbody hregion hread

end Exact

/-! ## The codec -/

/-- **The codec of a sealed segment.** Sorted frames are built into an
object that decodes to them, with an exact footer, if and only if there are
fewer than `2 ^ 32` frames and the footer body is shorter than `2 ^ 32`
bytes; and every object the decoder accepts has its chunks inside the region
of its frames. -/
theorem sealed_codec (hp : p.Lawful) :
    (∀ (header : SealedHeader) (fs : List Frame2) (target : Nat), SealedHeaderFits header →
      (∀ f ∈ fs, f.Encodable) → SortedFrames fs →
      ∃ wire footer, buildSealed p header fs target = .ok (wire, footer)
        ∧ ((decodeSealed p wire = .ok (header, fs, footer) ∧ footer.Exact p fs wire)
          ↔ fs.length < 2 ^ 32 ∧ sealedFooterSize p target fs < 2 ^ 32))
    ∧ ∀ buf header fs footer, decodeSealed p buf = .ok (header, fs, footer) →
      ∀ t ∈ footer.tenants, ∀ c ∈ t.chunks,
        headerLen ≤ c.offset ∧ c.offset + c.len ≤ framesEnd buf := by
  refine ⟨fun header fs target hheader hfs hsorted => ?_,
    fun buf header fs footer h => ((decodeSealed_meets buf).of_ok h).2.2⟩
  obtain ⟨b, hbuilt, hbuild⟩ := buildSealed_eq (p := p) header hfs hsorted target
  refine ⟨_, _, hbuild, fun h => hbuilt.bounds hp hfs h.1, fun ⟨hcount, hsize⟩ => ?_⟩
  refine ⟨hbuilt.decode hp hheader hfs hcount hsize, ?_⟩
  rw [close_eq (sealedHeader_length header)]
  exact hbuilt.exact hp hfs hsorted hcount _

/-- Two frames of a tenant and one of the next. -/
def sortedFrames : List Frame2 :=
  [commitFrame, { commitFrame with startLsn := 106, endLsn := 112 }, { commitFrame with tenant := 2 }]

theorem sealed_codec_sorted :
    ∃ wire footer, buildSealed literalWirePacking ⟨3, 10, 25⟩ sortedFrames 100 = .ok (wire, footer)
      ∧ decodeSealed literalWirePacking wire = .ok (⟨3, 10, 25⟩, sortedFrames, footer) := by
  have hheader : SealedHeaderFits ⟨3, 10, 25⟩ := ⟨by decide, by decide, by decide⟩
  have hfs : ∀ f ∈ sortedFrames, f.Encodable := by decide
  have hsorted : SortedFrames sortedFrames := by
    simp [SortedFrames, sortedFrames, commitFrame, tenantOf]
  obtain ⟨wire, footer, hbuild, hiff⟩ :=
    (sealed_codec literalWirePacking_lawful).1 ⟨3, 10, 25⟩ sortedFrames 100 hheader hfs hsorted
  exact ⟨wire, footer, hbuild, (hiff.mpr ⟨by decide, by decide +kernel⟩).1⟩

theorem crowdedWindow_sorted : SortedFrames crowdedWindow := by
  have hlt : (crowdedWindow.map tenantOf).Pairwise (· < ·) := by
    rw [crowdedWindow_tenants]
    exact List.pairwise_lt_range
  exact (List.pairwise_map.mp hlt).imp .inl

theorem length_le_flatMap {α β : Type} {l : List α} {f : α → List β} (h : ∀ a ∈ l, f a ≠ []) :
    l.length ≤ (l.flatMap f).length := by
  induction l with
  | nil => exact le_rfl
  | cons a l ih =>
    obtain ⟨ha, hl⟩ := List.forall_mem_cons.mp h
    have hpos := List.length_pos_of_ne_nil ha
    have hrest := ih hl
    rw [List.flatMap_cons, List.length_append, List.length_cons]
    omega

theorem crowdedWindow_sealed_size : 2 ^ 32 ≤ sealedFooterSize literalWirePacking sealedChunkTarget
    crowdedWindow := by
  have hsub : crowdedWindow.map tenantOf ⊆ (groups tenantOf crowdedWindow).map groupTenant := by
    intro t ht
    obtain ⟨f, hf, rfl⟩ := List.mem_map.mp ht
    rw [← groups_flatten tenantOf crowdedWindow] at hf
    obtain ⟨g, hg, hfg⟩ := List.mem_flatten.mp hf
    exact List.mem_map.mpr ⟨g, hg, groupTenant_of_mem hg hfg⟩
  have hgroups : 2 ^ 27 ≤ (groups tenantOf crowdedWindow).length := by
    have hnodup : (crowdedWindow.map tenantOf).Nodup := crowdedWindow_tenants ▸ List.nodup_range
    have hle := (List.subperm_of_subset hnodup hsub).length_le
    rwa [crowdedWindow_tenants, List.length_range, List.length_map] at hle
  have hchunks : (groups tenantOf crowdedWindow).length
      ≤ ((groups tenantOf crowdedWindow).flatMap
        (cut literalWirePacking sealedChunkTarget)).length := by
    refine length_le_flatMap fun g hg hnil => ?_
    have hflat := cut_flatten literalWirePacking sealedChunkTarget g
    rw [hnil] at hflat
    exact ne_nil_of_mem_groups hg hflat.symm
  rw [sealedFooterSize, tenantFixedLen, chunkLen]
  omega

/-- A round over `2 ^ 27` tenants has a footer that is longer than its
length can say, and the sealed segment does not read back. -/
theorem crowdedWindow_unsealed :
    ∃ wire footer, buildSealed literalWirePacking ⟨3, 10, 25⟩ crowdedWindow sealedChunkTarget
        = .ok (wire, footer)
      ∧ decodeSealed literalWirePacking wire ≠ .ok (⟨3, 10, 25⟩, crowdedWindow, footer) := by
  obtain ⟨b, hbuilt, hbuild⟩ := buildSealed_eq (p := literalWirePacking) ⟨3, 10, 25⟩
    crowdedWindow_encodable crowdedWindow_sorted sealedChunkTarget
  refine ⟨_, _, hbuild, fun hdecode => ?_⟩
  have hbounds := hbuilt.bounds literalWirePacking_lawful crowdedWindow_encodable hdecode
  exact absurd hbounds.2 (Nat.not_lt.mpr crowdedWindow_sealed_size)

end Wire

end Zou
