import Mathlib.Order.Bounds.Basic
import Zou.Lib.Tiling
import Zou.SegmentShell

/-!
# Landing segments read back

What the builder makes of encoded frames decodes to the header, the frames
and the summaries; the summaries are exact, and the runs of a tenant slice
its frames out of the object. The lengths and counts of the footer are of
four bytes, so this holds exactly as long as there are fewer than `2 ^ 32`
frames and the footer body is shorter than `2 ^ 32` bytes: past the first
the count is wrong, past the second the decoder takes the end of the footer
for the whole of it and the rest for frames.
-/

namespace Zou

namespace Wire

open Bytes Outcome

variable {p : WirePacking}

/-! ## Headers and footers -/

/-- The fields of a header fit their types. -/
structure HeaderFits (h : SegmentHeader) : Prop where
  shard : h.shard < 2 ^ 32
  seq : h.seq < 2 ^ 64
  prevDigest : h.prevDigest < 2 ^ 64

theorem segmentHeader_length (h : SegmentHeader) : (segmentHeader h).length = headerLen := by
  simp only [segmentHeader, segmentMagic, List.length_append, length_le, List.length_cons,
    List.length_nil, headerLen]

theorem parseHeader_header {h : SegmentHeader} (hfits : HeaderFits h) {rest : List UInt8}
    (hrest : tailLen ≤ rest.length) : parseHeader (segmentHeader h ++ rest) = .ok h := by
  have hlen : ¬ (segmentHeader h ++ rest).length < headerLen + tailLen := by
    rw [List.length_append, segmentHeader_length]
    omega
  have hmagicAt : (range (segmentHeader h ++ rest) 0 4 : Outcome SegmentDecodeError _)
      = .ok segmentMagic := by
    rw [segmentHeader, List.append_assoc]
    exact range_split (a := []) (x := segmentMagic) rfl rfl rfl
  rw [parseHeader, reject_neg hlen, Outcome.ok_bind, hmagicAt, Outcome.ok_bind, reject_neg (fun h => h rfl), Outcome.ok_bind]
  cases h with
  | mk kind shard seq prevDigest =>
    have hversion : ofLe (le 2 segmentVersion) = segmentVersion := ofLe_le16 (by decide)
    have hkind : parseKind (ofLe (le 2 (kindCode kind))) = .ok kind := by cases kind <;> rfl
    have hshard : ofLe (le 4 shard) = shard := ofLe_le32 hfits.shard
    have hseq : ofLe (le 8 seq) = seq := ofLe_le64 hfits.seq
    have hdigest : ofLe (le 8 prevDigest) = prevDigest := ofLe_le64 hfits.prevDigest
    simp [segmentHeader, segmentMagic, hversion, hkind, hshard, hseq, hdigest]

/-- The numbers of a summary fit their fields. -/
structure SummaryFits (t : TenantSummary) : Prop where
  tenant : t.tenant < 2 ^ 128
  minLsn : t.minLsn < 2 ^ 64
  maxLsn : t.maxLsn < 2 ^ 64
  frames : t.frames < 2 ^ 32
  runCount : t.runs.length < 2 ^ 32
  runs : ∀ r ∈ t.runs, r.offset < 2 ^ 64 ∧ r.len < 2 ^ 64

theorem parseRun_bytes {r : TenantRun} (h : r.offset < 2 ^ 64 ∧ r.len < 2 ^ 64)
    (rest : List UInt8) : parseRun (SegmentBuilder.runBytes r ++ rest) = .ok (r, rest) := by
  rw [parseRun, take_part (by simp [SegmentBuilder.runBytes, runLen])]
  simp [SegmentBuilder.runBytes, ofLe_le64 h.1, ofLe_le64 h.2]

theorem runBytes_length (r : TenantRun) : (SegmentBuilder.runBytes r).length = runLen := by
  simp [SegmentBuilder.runBytes, runLen]

theorem summaryBytes_length (t : TenantSummary) :
    (SegmentBuilder.summaryBytes t).length = summaryFixedLen + t.runs.length * runLen := by
  simp only [SegmentBuilder.summaryBytes, List.length_append, length_le,
    length_flatMap_of_length runBytes_length, summaryFixedLen]
  omega

theorem parseSummary_bytes {t : TenantSummary} (h : SummaryFits t) (rest : List UInt8) :
    parseSummary (SegmentBuilder.summaryBytes t ++ rest) = .ok (t, rest) := by
  have hsplit : SegmentBuilder.summaryBytes t ++ rest
      = (le 16 t.tenant ++ (le 8 t.minLsn ++ (le 8 t.maxLsn ++ (le 4 t.frames
        ++ le 4 t.runs.length)))) ++ (t.runs.flatMap SegmentBuilder.runBytes ++ rest) := by
    simp only [SegmentBuilder.summaryBytes, List.append_assoc]
  have hcount : ¬ t.runs.length > (t.runs.flatMap SegmentBuilder.runBytes ++ rest).length / runLen := by
    rw [List.length_append, length_flatMap_of_length runBytes_length, Nat.not_lt,
      Nat.le_div_iff_mul_le (by decide)]
    exact Nat.le_add_right ..
  have hruns := many_bytes (fun r hr => parseRun_bytes (h.runs r hr)) rest
  rw [hsplit, parseSummary, take_part (by simp [summaryFixedLen]), Outcome.ok_bind]
  simp only [range_le_skip, range_le_head, range_le_all, Outcome.ok_bind, Nat.reduceLeDiff, Nat.reduceSub,
    ofLe_le32 h.runCount, reject_neg hcount, hruns, pure_eq, ofLe_le128 h.tenant,
    ofLe_le64 h.minLsn, ofLe_le64 h.maxLsn, ofLe_le32 h.frames]

theorem le_flatMap_length (ts : List TenantSummary) :
    ts.length * summaryFixedLen ≤ (ts.flatMap SegmentBuilder.summaryBytes).length := by
  induction ts with
  | nil => rw [List.length_nil, Nat.zero_mul]; exact Nat.zero_le _
  | cons t ts ih =>
    rw [List.flatMap_cons, List.length_append, summaryBytes_length, List.length_cons, Nat.succ_mul]
    omega

theorem parseFooter_footer {f : Footer} (hcount : f.frameCount < 2 ^ 32)
    (htenants : f.tenants.length < 2 ^ 32) (hfits : ∀ t ∈ f.tenants, SummaryFits t) :
    parseFooter (SegmentBuilder.footer f) = .ok f := by
  have hlie : ¬ f.tenants.length > (SegmentBuilder.footer f).length / summaryFixedLen := by
    rw [Nat.not_lt, Nat.le_div_iff_mul_le (by decide)]
    refine Nat.le_trans (le_flatMap_length f.tenants) ?_
    simp only [SegmentBuilder.footer, List.length_append, length_le]
    omega
  have hmany := many_bytes (fun t ht => parseSummary_bytes (hfits t ht)) (le 4 f.frameCount)
  have htake := take_part (b := []) (length_le 4 f.frameCount)
  rw [List.append_nil] at htake
  rw [parseFooter]
  conv => lhs; arg 1; rw [SegmentBuilder.footer, take_part (length_le 4 _)]
  rw [Outcome.ok_bind]
  simp only [ofLe_le32 htenants, reject_neg hlie, Outcome.ok_bind, hmany, htake,
    reject_neg (fun h : ([] : List UInt8) ≠ [] => h rfl), pure_eq, ofLe_le32 hcount]

/-! ## What is accepted -/

theorem parseKind_meets (found : Nat) : Meets (parseKind found) fun _ => True := by
  unfold parseKind
  split
  · exact Meets.ok trivial
  · exact Meets.ok trivial
  · exact Meets.err

theorem parseHeader_meets (buf : List UInt8) :
    Meets (parseHeader buf) fun _ => headerLen + tailLen ≤ buf.length := by
  rw [parseHeader]
  refine Meets.reject fun hlen => ?_
  have hheader : headerLen = 28 := rfl
  refine Meets.range (by omega) (by omega) ?_
  refine Meets.reject fun _ => ?_
  refine Meets.range (by omega) (by omega) ?_
  refine Meets.reject fun _ => ?_
  refine Meets.range (by omega) (by omega) ?_
  refine Meets.bind (parseKind_meets _) fun kind _ => ?_
  refine Meets.range (by omega) (by omega) ?_
  refine Meets.range (by omega) (by omega) ?_
  refine Meets.range (by omega) (by omega) ?_
  exact Meets.ok (Nat.not_lt.mp hlen)

theorem parseRun_meets (b : List UInt8) : Meets (parseRun b) fun _ => True := by
  refine Meets.bind (take_meets runLen b) fun r hr => ?_
  have hlen : runLen = 16 := rfl
  refine Meets.range (by omega) (by omega) ?_
  refine Meets.range (by omega) (by omega) ?_
  exact Meets.ok trivial

theorem parseSummary_meets (b : List UInt8) : Meets (parseSummary b) fun _ => True := by
  refine Meets.bind (take_meets summaryFixedLen b) fun r hr => ?_
  have hlen : summaryFixedLen = 40 := rfl
  refine Meets.range (by omega) (by omega) ?_
  refine Meets.reject fun _ => ?_
  refine Meets.bind (Meets.many (Q := fun _ => True) (I := fun _ => True)
    (fun b _ => (parseRun_meets b).mono fun _ _ => ⟨trivial, trivial⟩) _ trivial) fun rs _ => ?_
  refine Meets.range (by omega) (by omega) ?_
  refine Meets.range (by omega) (by omega) ?_
  refine Meets.range (by omega) (by omega) ?_
  refine Meets.range (by omega) (by omega) ?_
  exact Meets.ok trivial

theorem parseFooter_meets (body : List UInt8) :
    Meets (parseFooter body) fun f => f.frameCount < 2 ^ 32 := by
  refine Meets.bind (take_meets 4 body) fun r _ => ?_
  refine Meets.reject fun _ => ?_
  refine Meets.bind (Meets.many (Q := fun _ => True) (I := fun _ => True)
    (fun b _ => (parseSummary_meets b).mono fun _ _ => ⟨trivial, trivial⟩) _ trivial) fun rs _ => ?_
  refine Meets.bind (take_meets 4 rs.2) fun c hc => ?_
  refine Meets.reject fun _ => ?_
  refine Meets.ok ?_
  have hlt := ofLe_lt c.1
  rw [hc] at hlt
  exact hlt

/-- The decoder does not panic, and counts the frames it accepts. -/
theorem decodeSegment_meets (buf : List UInt8) : Meets (decodeSegment p buf) fun r =>
      r.2.1.length = r.2.2.frameCount ∧ r.2.2.frameCount < 2 ^ 32 := by
  have hshell : Meets (parseShell p buf) fun r =>
      headerLen ≤ r.2.2 ∧ r.2.2 ≤ buf.length ∧ r.2.1.frameCount < 2 ^ 32 := by
    refine Meets.bind (parseHeader_meets buf) fun header hlen => ?_
    refine Meets.bind (footerBody_meets hlen) fun r hr => ?_
    refine Meets.bind (parseFooter_meets r.1) fun f hf => ?_
    exact Meets.ok ⟨hr.1, Nat.le_trans (Nat.le_add_right ..) hr.2.1, hf⟩
  refine Meets.bind hshell fun r hr => ?_
  refine Meets.range hr.1 hr.2.1 ?_
  refine Meets.bind (readFrames_meets _) fun frames _ => ?_
  refine Meets.reject fun hcount => ?_
  exact Meets.ok ⟨Decidable.not_not.mp hcount, hr.2.2⟩

/-! ## The builder -/

open Tiling

def tenantOf (f : Frame2) : Nat := f.tenant.toNat

def framesOf (t : Nat) (fs : List Frame2) : List Frame2 := fs.filter fun f => tenantOf f = t

def groupTenant (g : List Frame2) : Nat := (g.head?.map tenantOf).getD 0

/-- The stretches of frames of a tenant with their ranges in the object. -/
def placedOf (p : WirePacking) (t : Nat) (fs : List Frame2) : List (List Frame2 × Nat × Nat) :=
  (placed (Frame2.wire p) headerLen (groups tenantOf fs)).filter fun x => groupTenant x.1 = t

def runOf (x : List Frame2 × Nat × Nat) : TenantRun := ⟨x.2.1, x.2.2⟩

theorem framesOf_snoc_self (fs : List Frame2) (f : Frame2) :
    framesOf (tenantOf f) (fs ++ [f]) = framesOf (tenantOf f) fs ++ [f] := by
  rw [framesOf, List.filter_append, List.filter_singleton]
  simp only [decide_true, cond_true]
  rfl

variable {fs : List Frame2} {t : Nat}

theorem framesOf_snoc_other {f : Frame2} (h : tenantOf f ≠ t) :
    framesOf t (fs ++ [f]) = framesOf t fs := by
  rw [framesOf, List.filter_append, List.filter_singleton]
  simp only [h, decide_false, cond_false, List.append_nil]
  rfl

variable {g : List Frame2}

theorem groupTenant_eq (hne : g ≠ []) (h : ∀ a ∈ g, tenantOf a = t) : groupTenant g = t := by
  cases g with
  | nil => exact absurd rfl hne
  | cons a g => exact h a List.mem_cons_self

theorem groupTenant_of_mem (hg : g ∈ groups tenantOf fs) {a : Frame2}
    (ha : a ∈ g) : groupTenant g = tenantOf a :=
  groupTenant_eq (List.ne_nil_of_mem ha) fun _ hb => key_of_mem_groups hg hb ha

theorem ne_nil_of_mem_groups (hg : g ∈ groups tenantOf fs) : g ≠ [] :=
  fun h => nil_notMem_groups tenantOf fs (h ▸ hg)

theorem placed_snoc (p : WirePacking) (at_ : Nat) (gs : List (List Frame2)) (g : List Frame2) :
    placed (Frame2.wire p) at_ (gs ++ [g]) = placed (Frame2.wire p) at_ gs
      ++ [(g, at_ + (gs.flatten.flatMap (Frame2.wire p)).length,
        (g.flatMap (Frame2.wire p)).length)] :=
  placed_append at_ gs [g]

theorem placedOf_snoc_other {f : Frame2} (h : tenantOf f ≠ t) :
    placedOf p t (fs ++ [f]) = placedOf p t fs := by
  rcases groups_snoc tenantOf fs f with ⟨gs, g, hgs, hkey, hsnoc⟩ | ⟨-, hsnoc⟩
  · have hmem : g ∈ groups tenantOf fs := hgs ▸ List.mem_append_right _ List.mem_cons_self
    have hg : groupTenant g ≠ t := by
      rwa [groupTenant_eq (ne_nil_of_mem_groups hmem) hkey]
    have hg' : groupTenant (g ++ [f]) ≠ t := by
      rwa [groupTenant_eq (t := tenantOf f) (by simp)
        (List.forall_mem_append.mpr ⟨hkey, by simp⟩)]
    rw [placedOf, placedOf, hsnoc, hgs, placed_snoc, placed_snoc, List.filter_append,
      List.filter_append, List.filter_singleton, List.filter_singleton]
    simp only [hg, hg', decide_false, cond_false]
  · have hg : groupTenant [f] ≠ t := h
    rw [placedOf, placedOf, hsnoc, placed_snoc, List.filter_append, List.filter_singleton]
    simp only [hg, decide_false, cond_false, List.append_nil]

/-- A frame goes into the runs of its tenant as the builder puts it. -/
theorem pushRun_placedOf (fs : List Frame2) (f : Frame2) :
    pushRun ((placedOf p (tenantOf f) fs).map runOf)
        (headerLen + (fs.flatMap (Frame2.wire p)).length) (f.wire p).length
      = (placedOf p (tenantOf f) (fs ++ [f])).map runOf := by
  rcases groups_snoc tenantOf fs f with ⟨gs, g, hgs, hkey, hsnoc⟩ | ⟨hdiff, hsnoc⟩
  · have hmem : g ∈ groups tenantOf fs := hgs ▸ List.mem_append_right _ List.mem_cons_self
    have hg : groupTenant g = tenantOf f := groupTenant_eq (ne_nil_of_mem_groups hmem) hkey
    have hg' : groupTenant (g ++ [f]) = tenantOf f :=
      groupTenant_eq (by simp) (List.forall_mem_append.mpr ⟨hkey, by simp⟩)
    have hflat : fs = gs.flatten ++ g := by
      have hflatten := groups_flatten tenantOf fs
      rwa [hgs, List.flatten_append, List.flatten_singleton, eq_comm] at hflatten
    have hend : headerLen + (gs.flatten.flatMap (Frame2.wire p)).length
        + (g.flatMap (Frame2.wire p)).length = headerLen + (fs.flatMap (Frame2.wire p)).length := by
      rw [hflat, List.flatMap_append, List.length_append, Nat.add_assoc]
    rw [placedOf, placedOf, hsnoc, hgs, placed_snoc, placed_snoc, List.filter_append,
      List.filter_append, List.filter_singleton, List.filter_singleton]
    simp only [hg, hg', decide_true, cond_true, List.map_append, List.map_cons, List.map_nil, pushRun,
      List.getLast?_concat, runOf, hend, if_true, List.dropLast_concat, List.flatMap_append,
      List.length_append, List.flatMap_singleton]
  · have hf : groupTenant [f] = tenantOf f := rfl
    have hpush : ∀ run ∈ ((placedOf p (tenantOf f) fs).map runOf).getLast?,
        run.offset + run.len ≠ headerLen + (fs.flatMap (Frame2.wire p)).length := by
      intro run hrun
      obtain ⟨x, hx, rfl⟩ := List.mem_map.mp (List.mem_of_mem_getLast? hrun)
      obtain ⟨hx, htenant⟩ := List.mem_filter.mp hx
      rcases List.eq_nil_or_concat (groups tenantOf fs) with hnil | ⟨gs, g, hgs⟩
      · rw [hnil] at hx
        cases hx
      rw [List.concat_eq_append] at hgs
      rw [hgs, placed_snoc] at hx
      rw [hgs, List.getLast?_concat] at hdiff
      have hmem : g ∈ groups tenantOf fs := hgs ▸ List.mem_append_right _ List.mem_cons_self
      have hne := ne_nil_of_mem_groups hmem
      rcases List.mem_append.mp hx with hx | hx
      · have hbounds := mem_placed_bounds hx
        obtain ⟨a, g', rfl⟩ := List.exists_cons_of_ne_nil hne
        have hpos := Frame2.wire_pos (p := p) a
        have hflatten := groups_flatten tenantOf fs
        rw [hgs, List.flatten_append, List.flatten_singleton] at hflatten
        rw [← hflatten, List.flatMap_append, List.flatMap_cons, List.length_append,
          List.length_append]
        change x.2.1 + x.2.2 ≠ _
        omega
      · cases List.mem_singleton.mp hx
        have hg : groupTenant g = tenantOf f := of_decide_eq_true htenant
        obtain ⟨a, ha⟩ := List.exists_mem_of_ne_nil g hne
        rw [groupTenant_of_mem hmem ha] at hg
        exact absurd hg (hdiff g rfl a ha)
    have hgroups : (groups tenantOf fs).flatten = fs := groups_flatten tenantOf fs
    rw [placedOf, placedOf, hsnoc, placed_snoc, List.filter_append, List.filter_singleton, hgroups]
    simp only [hf, decide_true, cond_true, List.map_append, List.map_cons, List.map_nil,
      List.flatMap_singleton]
    rw [pushRun]
    split
    · rw [if_neg (hpush _ ‹_›)]
      rfl
    · rfl

/-- What the builder knows of a tenant is true of its frames. -/
structure Summarized (p : WirePacking) (fs : List Frame2) (t : Nat) (acc : SummaryAcc) : Prop where
  minLsn : IsLeast { l | ∃ f ∈ framesOf t fs, f.startLsn.toNat = l } acc.minLsn
  maxLsn : IsGreatest { l | ∃ f ∈ framesOf t fs, f.endLsn.toNat = l } acc.maxLsn
  frames : acc.frames = (framesOf t fs).length % 2 ^ 32
  runs : acc.runs = (placedOf p t fs).map runOf

structure Built (p : WirePacking) (header : SegmentHeader) (fs : List Frame2)
    (b : SegmentBuilder) : Prop where
  buf : b.buf = segmentHeader header ++ fs.flatMap (Frame2.wire p)
  count : b.frameCount = fs.length % 2 ^ 32
  summarized : ∀ t acc, b.tenants.get? t = some acc → Summarized p fs t acc
  absent : ∀ t, b.tenants.get? t = none → framesOf t fs = []

theorem built_new (header : SegmentHeader) : Built p header [] (SegmentBuilder.new header) where
  buf := (List.append_nil _).symm
  count := rfl
  summarized _ _ h := by cases h
  absent _ _ := rfl

theorem placedOf_nil (h : framesOf t fs = []) : placedOf p t fs = [] := by
  rw [placedOf, List.filter_eq_nil_iff]
  intro x hx htenant
  have hg : x.1 ∈ groups tenantOf fs := placed_groups (Frame2.wire p) headerLen (groups tenantOf fs) ▸ List.mem_map_of_mem hx
  obtain ⟨a, ha⟩ := List.exists_mem_of_ne_nil _ (ne_nil_of_mem_groups hg)
  have hfs : a ∈ fs := groups_flatten tenantOf fs ▸ List.mem_flatten_of_mem hg ha
  have hta : tenantOf a = t := (groupTenant_of_mem hg ha).symm.trans (of_decide_eq_true htenant)
  have hmem : a ∈ framesOf t fs := List.mem_filter.mpr ⟨hfs, decide_eq_true hta⟩
  rw [h] at hmem
  cases hmem

theorem values_snoc (g : Frame2 → Nat) (fs : List Frame2) (f : Frame2) :
    { l | ∃ a ∈ fs ++ [f], g a = l } = insert (g f) { l | ∃ a ∈ fs, g a = l } := by
  ext l
  simp only [List.mem_append, List.mem_singleton, Set.mem_ofPred_eq, Set.mem_insert_iff]
  constructor
  · rintro ⟨a, ha | rfl, rfl⟩
    · exact .inr ⟨a, ha, rfl⟩
    · exact .inl rfl
  · rintro (rfl | ⟨a, ha, rfl⟩)
    · exact ⟨f, .inr rfl, rfl⟩
    · exact ⟨a, .inl ha, rfl⟩

theorem Built.push {header : SegmentHeader} {b : SegmentBuilder} (h : Built p header fs b)
    (f : Frame2) : Built p header (fs ++ [f])
      (b.pushEncoded f.tenant.toNat f.startLsn.toNat f.endLsn.toNat (f.wire p)) := by
  have hbuf : b.buf.length = headerLen + (fs.flatMap (Frame2.wire p)).length := by
    rw [h.buf, List.length_append, segmentHeader_length]
  refine ⟨?_, ?_, fun t acc hacc => ?_, fun t hnone => ?_⟩
  · rw [SegmentBuilder.pushEncoded, h.buf, List.flatMap_append, List.flatMap_singleton,
      List.append_assoc]
  · rw [SegmentBuilder.pushEncoded, h.count, List.length_append, List.length_singleton,
      Nat.mod_add_mod]
  · rw [SegmentBuilder.pushEncoded, OrdMap.get?_insert] at hacc
    split at hacc
    · -- the tenant of the frame, which is there already or comes first
      rename_i ht
      obtain rfl : tenantOf f = t := ht.symm
      cases hacc
      have hrun := pushRun_placedOf (p := p) fs f
      rw [← hbuf] at hrun
      cases hold : b.tenants.get? f.tenant.toNat with
      | none =>
        have hnil : framesOf (tenantOf f) fs = [] := h.absent _ hold
        have hone : framesOf (tenantOf f) (fs ++ [f]) = [f] := by
          rw [framesOf_snoc_self, hnil, List.nil_append]
        rw [placedOf_nil hnil] at hrun
        refine ⟨?_, ?_, ?_, hrun⟩
        · rw [hone, Option.getD_none, min_self]
          simp
        · rw [hone, Option.getD_none, max_self]
          simp
        · rw [hone]
          rfl
      | some acc =>
        have hacc : Summarized p fs (tenantOf f) acc := h.summarized _ _ hold
        rw [← hacc.runs] at hrun
        refine ⟨?_, ?_, ?_, hrun⟩
        · rw [framesOf_snoc_self, values_snoc fun a => a.startLsn.toNat, Option.getD_some, min_comm]
          exact hacc.minLsn.insert _
        · rw [framesOf_snoc_self, values_snoc fun a => a.endLsn.toNat, Option.getD_some, max_comm]
          exact hacc.maxLsn.insert _
        · rw [framesOf_snoc_self, List.length_append, List.length_singleton, Option.getD_some,
            hacc.frames, Nat.mod_add_mod]
    · have ht : tenantOf f ≠ t := fun heq => ‹¬ _› heq.symm
      have hold := h.summarized t acc hacc
      refine ⟨?_, ?_, ?_, ?_⟩
      · rw [framesOf_snoc_other ht]
        exact hold.minLsn
      · rw [framesOf_snoc_other ht]
        exact hold.maxLsn
      · rw [framesOf_snoc_other ht]
        exact hold.frames
      · rw [placedOf_snoc_other ht]
        exact hold.runs
  · rw [SegmentBuilder.pushEncoded, OrdMap.get?_insert] at hnone
    split at hnone
    · cases hnone
    · rw [framesOf_snoc_other fun heq => ‹¬ _› heq.symm]
      exact h.absent t hnone

theorem built_pushFrames (header : SegmentHeader) (fs : List Frame2) :
    Built p header fs ((SegmentBuilder.new header).pushFrames p fs) := by
  induction fs using List.reverseRecOn with
  | nil => exact built_new header
  | append_singleton fs f ih =>
    rw [SegmentBuilder.pushFrames, List.foldl_append]
    exact ih.push f

/-! ## Exact summaries -/

/-- The footer is true of the frames and the object. -/
structure Footer.Honest (p : WirePacking) (fs : List Frame2) (wire : List UInt8) (footer : Footer) :
    Prop where
  count : footer.frameCount = fs.length
  sorted : footer.tenants.Pairwise fun s t => s.tenant < t.tenant
  tenants : ∀ t, (∃ s ∈ footer.tenants, s.tenant = t) ↔ ∃ f ∈ fs, tenantOf f = t
  minLsn : ∀ s ∈ footer.tenants,
    IsLeast { l | ∃ f ∈ framesOf s.tenant fs, f.startLsn.toNat = l } s.minLsn
  maxLsn : ∀ s ∈ footer.tenants,
    IsGreatest { l | ∃ f ∈ framesOf s.tenant fs, f.endLsn.toNat = l } s.maxLsn
  frames : ∀ s ∈ footer.tenants, s.frames = (framesOf s.tenant fs).length
  /-- Each run reads on its own, and the runs of a tenant read as its
  frames. -/
  sliced : ∀ s ∈ footer.tenants, ∃ pieces : List (List Frame2),
    List.Forall₂ (fun r piece => readFrames p (slice wire r.offset r.len) = .ok piece) s.runs pieces
      ∧ pieces.flatten = framesOf s.tenant fs
  /-- The runs of all tenants, in the order they stand, are the region of
  the frames. -/
  partition : ∃ order : List TenantRun, order.Perm (footer.tenants.flatMap fun s => s.runs)
    ∧ Consecutive headerLen (headerLen + (fs.flatMap (Frame2.wire p)).length)
        (order.map fun r => (r.offset, r.len))
    ∧ ∀ r ∈ order, 0 < r.len

/-- The length of the footer body: one summary a tenant, one run a stretch
of frames of one tenant. -/
def footerSize (fs : List Frame2) : Nat :=
  4 + 4 + summaryFixedLen * (fs.map tenantOf).dedup.length + runLen * (groups tenantOf fs).length

section Summaries

variable {header : SegmentHeader} {fs : List Frame2} {b : SegmentBuilder}

theorem Built.of_mem (h : Built p header fs b) {s : TenantSummary} (hs : s ∈ b.summaries) :
    Summarized p fs s.tenant ⟨s.minLsn, s.maxLsn, s.frames, s.runs⟩ := by
  obtain ⟨⟨t, acc⟩, he, rfl⟩ := List.mem_map.mp hs
  exact h.summarized t acc (OrdMap.get?_eq_some.mpr he)

theorem Built.mem_tenants (h : Built p header fs b) (t : Nat) :
    t ∈ b.tenants.entries.map Prod.fst ↔ ∃ f ∈ fs, tenantOf f = t := by
  constructor
  · intro ht
    obtain ⟨⟨t', acc⟩, he, rfl⟩ := List.mem_map.mp ht
    obtain ⟨f, hf, -⟩ := (h.summarized t' acc (OrdMap.get?_eq_some.mpr he)).minLsn.1
    obtain ⟨hmem, htenant⟩ := List.mem_filter.mp hf
    exact ⟨f, hmem, of_decide_eq_true htenant⟩
  · rintro ⟨f, hf, rfl⟩
    cases hget : b.tenants.get? (tenantOf f) with
    | some acc => exact List.mem_map.mpr ⟨_, OrdMap.get?_eq_some.mp hget, rfl⟩
    | none =>
      have hmem : f ∈ framesOf (tenantOf f) fs := List.mem_filter.mpr ⟨hf, decide_eq_true rfl⟩
      rw [h.absent _ hget] at hmem
      cases hmem

theorem keys_nodup (m : OrdMap Nat SummaryAcc) : (m.entries.map Prod.fst).Nodup :=
  List.pairwise_map.mpr (m.sorted.imp fun hlt => Nat.ne_of_lt hlt)

theorem Built.tenants_length (h : Built p header fs b) :
    b.summaries.length = (fs.map tenantOf).dedup.length := by
  have hperm : (b.tenants.entries.map Prod.fst).Perm (fs.map tenantOf).dedup := by
    refine (List.perm_ext_iff_of_nodup (keys_nodup _) (List.nodup_dedup _)).mpr fun t => ?_
    rw [h.mem_tenants, List.mem_dedup, List.mem_map]
  rw [SegmentBuilder.summaries, List.length_map, ← hperm.length_eq, List.length_map]

theorem Built.runs_perm (h : Built p header fs b) :
    ((placed (Frame2.wire p) headerLen (groups tenantOf fs)).map runOf).Perm
      (b.summaries.flatMap fun s => s.runs) := by
  have hruns : (b.summaries.flatMap fun s => s.runs)
      = ((b.tenants.entries.map Prod.fst).flatMap fun t => placedOf p t fs).map runOf := by
    rw [SegmentBuilder.summaries, List.flatMap_map, List.flatMap_map, List.map_flatMap]
    exact List.flatMap_congr fun e he =>
      (h.summarized e.1 e.2 (OrdMap.get?_eq_some.mpr he)).runs
  rw [hruns]
  refine (flatMap_filter_perm (keys_nodup _) fun x hx => ?_).symm.map runOf
  have hg : x.1 ∈ groups tenantOf fs :=
    placed_groups (Frame2.wire p) headerLen (groups tenantOf fs) ▸ List.mem_map_of_mem hx
  obtain ⟨a, ha⟩ := List.exists_mem_of_ne_nil _ (ne_nil_of_mem_groups hg)
  have hfs : a ∈ fs := groups_flatten tenantOf fs ▸ List.mem_flatten_of_mem hg ha
  exact (h.mem_tenants _).mpr ⟨a, hfs, (groupTenant_of_mem hg ha).symm⟩

theorem summaries_length (ts : List TenantSummary) : (ts.flatMap SegmentBuilder.summaryBytes).length
      = summaryFixedLen * ts.length + runLen * (ts.flatMap fun s => s.runs).length := by
  induction ts with
  | nil => rfl
  | cons t ts ih =>
    rw [List.flatMap_cons, List.flatMap_cons, List.length_append, List.length_append, ih,
      summaryBytes_length, List.length_cons, Nat.mul_succ, Nat.mul_add, Nat.mul_comm t.runs.length]
    omega

theorem Built.footer_length (h : Built p header fs b) :
    (SegmentBuilder.footer ⟨b.frameCount, b.summaries⟩).length = footerSize fs := by
  have hruns := h.runs_perm.length_eq
  have hgroups := congrArg List.length
    (placed_groups (Frame2.wire p) headerLen (groups tenantOf fs))
  rw [List.length_map] at hruns hgroups
  simp only [SegmentBuilder.footer, List.length_append, length_le, summaries_length,
    h.tenants_length, ← hruns, hgroups, footerSize]
  omega

theorem placedOf_flatten (t : Nat) (fs : List Frame2) :
    ((placedOf p t fs).map Prod.fst).flatten = framesOf t fs := by
  have hfilter : (placedOf p t fs).map Prod.fst
      = (groups tenantOf fs).filter fun g => groupTenant g = t := by
    conv => rhs; rw [← placed_groups (Frame2.wire p) headerLen (groups tenantOf fs)]
    rw [List.filter_map]
    rfl
  have hflatten := flatten_filter (groups tenantOf fs) (q := fun g => groupTenant g = t)
    (r := fun f => tenantOf f = t) fun g hg a ha => by rw [groupTenant_of_mem hg ha]
  rw [hfilter, hflatten, groups_flatten, framesOf]

theorem Built.finish_eq (h : Built p header fs b) :
    (b.finish p).1 = close p footerMagic (segmentHeader header ++ fs.flatMap (Frame2.wire p))
      (SegmentBuilder.footer ⟨b.frameCount, b.summaries⟩) := by
  rw [SegmentBuilder.finish, h.buf]

theorem Built.honest (hp : p.Lawful) (h : Built p header fs b) (hfs : ∀ f ∈ fs, f.Encodable)
    (hcount : fs.length < 2 ^ 32) :
    Footer.Honest p fs (b.finish p).1 ⟨b.frameCount, b.summaries⟩ := by
  refine ⟨?_, ?_, fun t => ?_, fun s hs => (h.of_mem hs).minLsn, fun s hs => (h.of_mem hs).maxLsn,
    fun s hs => ?_, fun s hs => ?_, ?_⟩
  · exact h.count.trans (Nat.mod_eq_of_lt hcount)
  · exact List.pairwise_map.mpr (b.tenants.sorted.imp fun hlt => hlt)
  · rw [← h.mem_tenants, SegmentBuilder.summaries]
    simp only [List.mem_map, exists_exists_and_eq_and]
    rfl
  · refine (h.of_mem hs).frames.trans (Nat.mod_eq_of_lt (Nat.lt_of_le_of_lt ?_ hcount))
    exact List.length_filter_le _ _
  · refine ⟨(placedOf p s.tenant fs).map Prod.fst, ?_, placedOf_flatten _ fs⟩
    have hruns : s.runs = (placedOf p s.tenant fs).map runOf := (h.of_mem hs).runs
    rw [hruns, List.forall₂_map_left_iff, List.forall₂_map_right_iff, List.forall₂_same]
    intro x hx
    have hx := (List.mem_filter.mp hx).1
    have hg : x.1 ∈ groups tenantOf fs :=
      placed_groups (Frame2.wire p) headerLen (groups tenantOf fs) ▸ List.mem_map_of_mem hx
    have henc : ∀ f ∈ x.1, f.Encodable := fun f hf =>
      hfs f (groups_flatten tenantOf fs ▸ List.mem_flatten_of_mem hg hf)
    rw [← segmentHeader_length header] at hx
    have hslice := slice_placed hx
    rw [groups_flatten] at hslice
    change readFrames p (slice (b.finish p).1 x.2.1 x.2.2) = .ok x.1
    rw [h.finish_eq, close_eq (segmentHeader_length header), hslice, readFrames_wires hp henc]
  · refine ⟨_, h.runs_perm, ?_, fun r hr => ?_⟩
    · have hrows := placed_consecutive (Frame2.wire p) headerLen (groups tenantOf fs)
      rw [groups_flatten] at hrows
      rw [List.map_map]
      exact hrows
    · obtain ⟨x, hx, rfl⟩ := List.mem_map.mp hr
      exact placed_pos (fun f => List.ne_nil_of_length_pos (Frame2.wire_pos f))
        (nil_notMem_groups tenantOf fs) hx

theorem region_length_le (hfs : ∀ f ∈ fs, f.Encodable) :
    (fs.flatMap (Frame2.wire p)).length ≤ fs.length * 2 ^ 32 := by
  induction fs with
  | nil => exact Nat.zero_le _
  | cons f fs ih =>
    obtain ⟨hf, hfs⟩ := List.forall_mem_cons.mp hfs
    have hsize := Frame2.size_lt (p := p) hf
    have hrest := ih hfs
    rw [List.flatMap_cons, List.length_append, Frame2.wire_length, List.length_cons]
    omega

theorem Built.fits (h : Built p header fs b) (hfs : ∀ f ∈ fs, f.Encodable)
    (hcount : fs.length < 2 ^ 32) (hsize : footerSize fs < 2 ^ 32) {s : TenantSummary}
    (hs : s ∈ b.summaries) : SummaryFits s := by
  have hsum := h.of_mem hs
  obtain ⟨f, hf, hmin⟩ := hsum.minLsn.1
  obtain ⟨g, -, hmax⟩ := hsum.maxLsn.1
  have htenant : tenantOf f = s.tenant := of_decide_eq_true (List.mem_filter.mp hf).2
  have hregion := region_length_le (p := p) hfs
  have hruns : s.runs.length ≤ (groups tenantOf fs).length := by
    rw [show s.runs = (placedOf p s.tenant fs).map runOf from hsum.runs, List.length_map,
      ← placed_length (Frame2.wire p) headerLen]
    exact List.length_filter_le _ _
  refine ⟨?_, ?_, ?_, ?_, ?_, fun r hr => ?_⟩
  · exact htenant ▸ f.tenant.isLt
  · exact Nat.lt_of_le_of_lt (Nat.le_of_eq hmin.symm) f.startLsn.toNat_lt
  · exact Nat.lt_of_le_of_lt (Nat.le_of_eq hmax.symm) g.endLsn.toNat_lt
  · exact Nat.lt_of_le_of_lt (Nat.le_of_eq hsum.frames) (Nat.mod_lt _ (Nat.two_pow_pos 32))
  · rw [footerSize, runLen] at hsize
    omega
  · have hrows := placed_consecutive (Frame2.wire p) headerLen (groups tenantOf fs)
    rw [groups_flatten] at hrows
    rw [show s.runs = (placedOf p s.tenant fs).map runOf from hsum.runs] at hr
    obtain ⟨x, hx, rfl⟩ := List.mem_map.mp hr
    have hbounds := mem_placed_bounds (List.mem_filter.mp hx).1
    rw [groups_flatten] at hbounds
    have hheader : headerLen = 28 := rfl
    change x.2.1 < _ ∧ x.2.2 < _
    omega

theorem Built.decode (hp : p.Lawful) (h : Built p header fs b) (hheader : HeaderFits header)
    (hfs : ∀ f ∈ fs, f.Encodable) (hcount : fs.length < 2 ^ 32) (hsize : footerSize fs < 2 ^ 32) :
    decodeSegment p (b.finish p).1 = .ok (header, fs, ⟨b.frameCount, b.summaries⟩) := by
  have hlen : (SegmentBuilder.footer ⟨b.frameCount, b.summaries⟩).length < 2 ^ 32 :=
    h.footer_length ▸ hsize
  have hframes : b.frameCount = fs.length := h.count.trans (Nat.mod_eq_of_lt hcount)
  have htenants : b.summaries.length < 2 ^ 32 := by
    have hle : (fs.map tenantOf).dedup.length ≤ footerSize fs := by
      rw [footerSize, summaryFixedLen]
      omega
    exact h.tenants_length ▸ Nat.lt_of_le_of_lt hle hsize
  have hfooter : parseFooter (SegmentBuilder.footer ⟨b.frameCount, b.summaries⟩)
      = .ok ⟨b.frameCount, b.summaries⟩ :=
    parseFooter_footer (hframes ▸ hcount) htenants fun s hs => h.fits hfs hcount hsize hs
  have hclose := close_eq (p := p) (segmentHeader_length header) footerMagic
    (fs.flatMap (Frame2.wire p)) (SegmentBuilder.footer ⟨b.frameCount, b.summaries⟩)
  have hparse : parseHeader (b.finish p).1 = .ok header := by
    rw [h.finish_eq, hclose]
    refine parseHeader_header hheader ?_
    simp only [List.length_append, length_le, footerMagic, List.length_cons, List.length_nil, tailLen]
    omega
  have hregion : (range (b.finish p).1 headerLen
      (headerLen + (fs.flatMap (Frame2.wire p)).length) : Outcome SegmentDecodeError _)
      = .ok (fs.flatMap (Frame2.wire p)) := by
    rw [h.finish_eq, hclose]
    exact range_part (segmentHeader_length header) rfl
  rw [decodeSegment, parseShell, hparse, Outcome.ok_bind, h.finish_eq,
    footerBody_close_of_lt hp (segmentHeader_length header) rfl _ hlen, Outcome.ok_bind]
  simp only [hfooter, Outcome.ok_bind, pure_eq]
  rw [← h.finish_eq, hregion, Outcome.ok_bind, readFrames_wires hp hfs, Outcome.ok_bind,
    reject_neg (fun hne => hne hframes.symm), Outcome.ok_bind]

/-- A decoder that gives the frames back read a footer of four byte
numbers. -/
theorem Built.bounds (hp : p.Lawful) (h : Built p header fs b) (hfs : ∀ f ∈ fs, f.Encodable)
    {header' : SegmentHeader} {footer : Footer}
    (hdecode : decodeSegment p (b.finish p).1 = .ok (header', fs, footer)) :
    fs.length < 2 ^ 32 ∧ footerSize fs < 2 ^ 32 := by
  obtain ⟨hframes, hcount⟩ := (decodeSegment_meets (p := p) _).of_ok hdecode
  refine ⟨Nat.lt_of_le_of_lt (Nat.le_of_eq hframes) hcount, ?_⟩
  obtain ⟨⟨_, _, start⟩, hshell, hdecode⟩ := bind_eq_ok.mp hdecode
  obtain ⟨_, -, hshell⟩ := bind_eq_ok.mp hshell
  obtain ⟨⟨_, start'⟩, hbody, hshell⟩ := bind_eq_ok.mp hshell
  obtain ⟨_, -, hshell⟩ := bind_eq_ok.mp hshell
  obtain rfl : start' = start := by
    simp only [pure_eq, ok.injEq, Prod.mk.injEq] at hshell
    exact hshell.2.2
  obtain ⟨region, hregion, hdecode⟩ := bind_eq_ok.mp hdecode
  obtain ⟨frames, hread, hdecode⟩ := bind_eq_ok.mp hdecode
  obtain ⟨_, -, hdecode⟩ := bind_eq_ok.mp hdecode
  obtain rfl : frames = fs := by
    simp only [pure_eq, ok.injEq, Prod.mk.injEq] at hdecode
    exact hdecode.2.1
  rw [h.finish_eq] at hregion hbody
  rw [← h.footer_length]
  exact body_lt_of_readFrames hp (segmentHeader_length header) rfl hfs hbody hregion hread

end Summaries

/-! ## The codec -/

/-- **The codec of a landing segment.** What the builder makes of encoded
frames decodes to the header, the frames in order and its summaries, and
those are exact, if and only if there are fewer than `2 ^ 32` frames and the
footer body is shorter than `2 ^ 32` bytes. -/
theorem segment_codec (hp : p.Lawful) {header : SegmentHeader} (hheader : HeaderFits header)
    {fs : List Frame2} (hfs : ∀ f ∈ fs, f.Encodable) :
    (∃ footer, decodeSegment p (((SegmentBuilder.new header).pushFrames p fs).finish p).1
        = .ok (header, fs, footer)
      ∧ footer.tenants = (((SegmentBuilder.new header).pushFrames p fs).finish p).2
      ∧ footer.Honest p fs (((SegmentBuilder.new header).pushFrames p fs).finish p).1)
    ↔ fs.length < 2 ^ 32 ∧ footerSize fs < 2 ^ 32 := by
  have hbuilt := built_pushFrames (p := p) header fs
  constructor
  · rintro ⟨footer, hdecode, -, -⟩
    exact hbuilt.bounds hp hfs hdecode
  · rintro ⟨hcount, hsize⟩
    exact ⟨_, hbuilt.decode hp hheader hfs hcount hsize, rfl, hbuilt.honest hp hfs hcount⟩

/-- Two tenants, the frames of one around the frame of the other. -/
def threeFrames : List Frame2 :=
  [commitFrame, { commitFrame with tenant := 2 },
    { commitFrame with startLsn := 106, endLsn := 112 }]

theorem segment_codec_three :
    ∃ footer, decodeSegment literalWirePacking (((SegmentBuilder.new ⟨.landing, 3, 9, 7⟩).pushFrames
          literalWirePacking threeFrames).finish literalWirePacking).1
        = .ok (⟨.landing, 3, 9, 7⟩, threeFrames, footer)
      ∧ footer.tenants.map (fun s => s.runs) = [[⟨28, 66⟩, ⟨160, 66⟩], [⟨94, 66⟩]] := by
  have hheader : HeaderFits ⟨.landing, 3, 9, 7⟩ := ⟨by decide, by decide, by decide⟩
  have hfs : ∀ f ∈ threeFrames, f.Encodable := by decide
  obtain ⟨footer, hdecode, htenants, -⟩ :=
    (segment_codec literalWirePacking_lawful hheader hfs).mpr ⟨by decide, by decide⟩
  refine ⟨footer, hdecode, ?_⟩
  rw [htenants]
  decide +kernel

/-- A frame without payload of a tenant. -/
def emptyFrame (tenant : Nat) : Frame2 where
  tenant := BitVec.ofNat 128 tenant
  writerEpoch := 1
  startLsn := 0
  endLsn := 0
  containsCommit := true
  firstOfEpoch := true
  hints := []
  payload := []

/-- A window with one frame each of many tenants. -/
def crowdedWindow : List Frame2 := (List.range (2 ^ 27)).map emptyFrame

theorem crowdedWindow_encodable : ∀ f ∈ crowdedWindow, f.Encodable := by
  intro f hf
  obtain ⟨t, -, rfl⟩ := List.mem_map.mp hf
  exact ⟨Nat.zero_le _, Nat.zero_le _⟩

theorem crowdedWindow_tenants : crowdedWindow.map tenantOf = List.range (2 ^ 27) := by
  rw [crowdedWindow, List.map_map]
  refine (List.map_congr_left fun t ht => ?_).trans (List.map_id _)
  have hlt : t < 2 ^ 128 := Nat.lt_trans (List.mem_range.mp ht) (by decide)
  exact Nat.mod_eq_of_lt hlt

theorem crowdedWindow_size : 2 ^ 32 ≤ footerSize crowdedWindow := by
  have htenants : (crowdedWindow.map tenantOf).dedup.length = 2 ^ 27 := by
    rw [crowdedWindow_tenants, List.nodup_range.dedup, List.length_range]
  rw [footerSize, htenants, summaryFixedLen]
  omega

/-- The footer of a window with `2 ^ 27` tenants is longer than its length
can say, and the segment does not read back. -/
theorem crowdedWindow_lost :
    (∀ f ∈ crowdedWindow, f.Encodable) ∧ ¬ ∃ footer, decodeSegment literalWirePacking (((SegmentBuilder.new ⟨.landing, 3, 9, 7⟩).pushFrames
        literalWirePacking crowdedWindow).finish literalWirePacking).1
      = .ok (⟨.landing, 3, 9, 7⟩, crowdedWindow, footer) := by
  refine ⟨crowdedWindow_encodable, ?_⟩
  rintro ⟨footer, hdecode⟩
  have hbounds :=
    (built_pushFrames _ _).bounds literalWirePacking_lawful crowdedWindow_encodable hdecode
  exact absurd hbounds.2 (Nat.not_lt.mpr crowdedWindow_size)

end Wire

end Zou
