import Zou.Ingest
import Zou.WalFraming

/-!
# Ingest does not depend on framing

Frames are stretches of one stream, in any number of calls, cut anywhere,
replayed and overlapping. The invariant of an ingest between two calls is
that its buffer is the stream from the resume point to the end of what
was received, and that resuming there, now or with any more of the stream,
finds what one walk over everything would. A call extends the buffer or
names the first gap, and then walks.
-/

namespace Zou

/-- A frame of the stream. -/
def Frame2.Of (f : Frame2) (S : WalStream) : Prop :=
  f.payload = S.bytes f.startLsn f.payload.length

namespace ShardIngest

open WalStream WalWindow

variable {S : WalStream} {crc32c : List UInt8 → Nat} {cfg : IngestConfig}

/-- How far the stream is received after some frames of the tenant. -/
def coverage (tenant : Nat) : Nat → List Frame2 → Nat
  | hi, [] => hi
  | hi, f :: fs => coverage tenant (if f.tenant = tenant then max hi f.endLsn else hi) fs

/-- The first frame that starts behind the end of what was seen. -/
def firstGap (tenant : Nat) : Nat → List Frame2 → Option IngestError
  | _, [] => none
  | seen, f :: fs =>
    if f.tenant ≠ tenant ∨ f.endLsn ≤ seen then firstGap tenant seen fs
    else if f.startLsn > seen then some (.gap seen f.startLsn)
    else firstGap tenant f.endLsn fs

theorem le_coverage (tenant : Nat) : ∀ (fs : List Frame2) (hi : Nat),
    hi ≤ coverage tenant hi fs := by
  intro fs
  induction fs with
  | nil => exact fun hi => Nat.le_refl hi
  | cons f fs ih =>
    intro hi
    refine Nat.le_trans ?_ (ih _)
    split
    · exact Nat.le_max_left ..
    · exact le_rfl

theorem coverage_append (tenant : Nat) : ∀ (fs gs : List Frame2) (hi : Nat),
    coverage tenant hi (fs ++ gs) = coverage tenant (coverage tenant hi fs) gs := by
  intro fs
  induction fs with
  | nil => exact fun _ _ => rfl
  | cons f fs ih => exact fun gs hi => ih gs _

variable {e : Nat}

theorem coverage_le {tenant : Nat} : ∀ {fs : List Frame2} {hi : Nat}, hi ≤ e →
    (∀ f ∈ fs, f.tenant = tenant → f.endLsn ≤ e) → coverage tenant hi fs ≤ e := by
  intro fs
  induction fs with
  | nil => exact fun h _ => h
  | cons f fs ih =>
    intro hi h hfs
    refine ih ?_ fun g hg => hfs g (.tail _ hg)
    split
    · rename_i ht
      exact Nat.max_le.mpr ⟨h, hfs f List.mem_cons_self ht⟩
    · exact h

/-! ## The buffer -/

/-- The buffer is the stream from the resume point to `hi`. -/
structure Buffered (S : WalStream) (hi : Nat) (s : ShardIngest) : Prop where
  base : s.bufBase = s.applied
  buf : s.buf = S.bytes s.applied (hi - s.applied)

variable {s : ShardIngest} {hi : Nat}

theorem Buffered.seen (h : Buffered S hi s) : s.seen = max hi s.applied := by
  unfold ShardIngest.seen
  rw [h.base, h.buf, length_bytes]
  omega

theorem extend_spec {f : Frame2} (hb : Buffered S hi s) (hf : f.tenant = s.cfg.tenant → f.Of S) :
    s.extend f = if f.tenant ≠ s.cfg.tenant ∨ f.endLsn ≤ s.seen then .ok s
      else if f.startLsn > s.seen then .error (.gap s.seen f.startLsn)
      else .ok { s with buf := S.bytes s.applied (f.endLsn - s.applied) } := by
  unfold extend
  by_cases ht : f.tenant = s.cfg.tenant
  · have hne : ¬ (f.tenant ≠ s.cfg.tenant) := fun h => h ht
    rw [if_neg hne]
    by_cases hold : f.endLsn ≤ s.seen
    · rw [if_pos hold, if_pos (.inr hold)]
    · have hno : ¬ (f.tenant ≠ s.cfg.tenant ∨ f.endLsn ≤ s.seen) :=
        fun h => Or.elim h hne hold
      rw [if_neg hold, if_neg hno]
      by_cases hgap : f.startLsn > s.seen
      · rw [if_pos hgap, if_pos hgap]
      · rw [if_neg hgap, if_neg hgap]
        have hseen := hb.seen
        have hpay := hf ht
        have hend : f.endLsn = f.startLsn + f.payload.length := rfl
        have hstart : f.startLsn + (s.seen - f.startLsn) = s.applied + (hi - s.applied) := by omega
        have hlen : f.payload.length - (s.seen - f.startLsn)
            = f.endLsn - (s.applied + (hi - s.applied)) := by omega
        have hsplit : f.endLsn - s.applied
            = (hi - s.applied) + (f.endLsn - (s.applied + (hi - s.applied))) := by omega
        have hbuf : s.buf ++ f.payload.drop (s.seen - f.startLsn)
            = S.bytes s.applied (f.endLsn - s.applied) := by
          rw [hpay, drop_bytes, hb.buf, hstart, hlen, ← bytes_add, ← hsplit]
        rw [hbuf]
  · rw [if_pos ht, if_pos (.inl ht)]

/-- The frames of a call go into the buffer, or the first gap is named. -/
theorem extendAll_spec : ∀ {fs : List Frame2} {hi : Nat} {s : ShardIngest}, Buffered S hi s →
    (∀ f ∈ fs, f.tenant = s.cfg.tenant → f.Of S) →
    (extendAll s fs).2 = firstGap s.cfg.tenant s.seen fs
      ∧ (firstGap s.cfg.tenant s.seen fs = none → (extendAll s fs).1 =
          { s with buf := S.bytes s.applied (coverage s.cfg.tenant hi fs - s.applied) }) := by
  intro fs
  induction fs with
  | nil =>
    intro hi s hb _
    refine ⟨rfl, fun _ => ?_⟩
    simp only [extendAll, coverage, ← hb.buf]
  | cons f fs ih =>
    intro hi s hb hfs
    have hf := extend_spec hb (hfs f List.mem_cons_self)
    have hfs' : ∀ g ∈ fs, g.tenant = s.cfg.tenant → g.Of S :=
      fun g hg => hfs g (.tail _ hg)
    have hseen := hb.seen
    unfold extendAll firstGap coverage
    rw [hf]
    by_cases hold : f.tenant ≠ s.cfg.tenant ∨ f.endLsn ≤ s.seen
    · rw [if_pos hold, if_pos hold]
      -- What the frame covers is received already, or is behind the resume point.
      have hcov : Buffered S (if f.tenant = s.cfg.tenant then max hi f.endLsn else hi) s := by
        refine ⟨hb.base, ?_⟩
        rw [hb.buf]
        split
        · rename_i ht
          have hle : f.endLsn ≤ s.seen := hold.resolve_left fun h => h ht
          have heq : max hi f.endLsn - s.applied = hi - s.applied := by omega
          rw [heq]
        · rfl
      exact ih hcov hfs'
    · rw [if_neg hold, if_neg hold]
      have ht : f.tenant = s.cfg.tenant := by
        by_contra hne
        exact hold (.inl hne)
      have hnew : ¬ f.endLsn ≤ s.seen := fun h => hold (.inr h)
      by_cases hgap : f.startLsn > s.seen
      · rw [if_pos hgap, if_pos hgap]
        exact ⟨rfl, nofun⟩
      · rw [if_neg hgap, if_neg hgap, if_pos ht]
        have hmax : max hi f.endLsn = f.endLsn := by omega
        rw [hmax]
        have hb' : Buffered S f.endLsn
            { s with buf := S.bytes s.applied (f.endLsn - s.applied) } := ⟨hb.base, rfl⟩
        have hseen' : ShardIngest.seen
            { s with buf := S.bytes s.applied (f.endLsn - s.applied) } = f.endLsn := by
          rw [hb'.seen]
          dsimp only
          omega
        have hrest := ih hb' hfs'
        rw [hseen'] at hrest
        exact hrest

/-! ## The walk over the buffer -/

theorem readRecords_window (S : WalStream) (lo hi : Nat) :
    readRecords (S.window lo hi) lo none = S.walkTo hi lo := by
  rcases Nat.le_total lo hi with h | h
  · have hend : (S.window lo hi).end_ = hi := by
      simp only [WalWindow.end_, WalStream.window, length_bytes]
      omega
    simp only [readRecords, Option.getD_none, Option.isSome_none, hend]
    rfl
  · have hend : (S.window lo hi).end_ = lo := by
      simp only [WalWindow.end_, WalStream.window, length_bytes]
      omega
    rw [walkTo_stop h]
    simp only [readRecords, Option.getD_none, Option.isSome_none, hend, Nat.sub_self]
    rfl

variable {R : List WalRecord} {mem : Memtable}

/-- A walk and an index that succeed move the resume point and leave the
rest of the stream in the buffer. -/
theorem parseAvailable_spec {r : Nat} (hb : Buffered S hi s)
    (hw : S.walkTo hi s.applied = .ok (R, r)) (hix : indexAll crc32c s.cfg s.mem R = (mem, none)) :
    s.parseAvailable crc32c
      = ({ s with mem := mem, applied := r, bufBase := r, buf := S.bytes r (hi - r) }, none) := by
  unfold parseAvailable
  by_cases hempty : hi ≤ s.applied
  · have hbuf : s.buf = [] := by
      rw [hb.buf, Nat.sub_eq_zero_of_le hempty]
      rfl
    rw [walkTo_stop hempty] at hw
    cases hw
    obtain rfl : s.mem = mem := (Prod.mk.inj hix).1
    have hrest : S.bytes s.applied (hi - s.applied) = s.buf := hb.buf.symm
    have hsame : s = { s with bufBase := s.applied } := by
      obtain ⟨c, m, a, b, u⟩ := s
      obtain rfl : b = a := hb.base
      rfl
    rw [hrest, hbuf, List.isEmpty_nil, if_pos rfl, ← hbuf, ← hsame]
  · have hlen : 0 < s.buf.length := by
      rw [hb.buf, length_bytes]
      omega
    have hne : s.buf.isEmpty = false := by
      cases hbuf : s.buf with
      | nil => rw [hbuf] at hlen; cases hlen
      | cons b bs => rfl
    have hwin : (⟨s.bufBase, s.buf⟩ : WalWindow) = S.window s.applied hi := by
      rw [hb.base, hb.buf]
      rfl
    have hread : readRecords ⟨s.bufBase, s.buf⟩ s.applied none = .ok (R, r) := by
      rw [hwin, readRecords_window, hw]
    have hdrop : s.buf.drop (min (r - s.bufBase) s.buf.length) = S.bytes r (hi - r) := by
      have hle := (walkTo_lsns hw).1
      rw [hb.buf, drop_bytes, length_bytes, hb.base]
      rcases Nat.le_total r hi with h | h
      · have h1 : s.applied + min (r - s.applied) (hi - s.applied) = r := by omega
        have h2 : hi - s.applied - min (r - s.applied) (hi - s.applied) = hi - r := by omega
        rw [h1, h2]
      · have h2 : hi - s.applied - min (r - s.applied) (hi - s.applied) = 0 := by omega
        rw [h2, Nat.sub_eq_zero_of_le h]
        rfl
    simp only [hne, Bool.false_eq_true, if_false, hread, hix, hdrop]

/-! ## Indexing in several calls -/

-- Unfolding the index of one record would unfold the whole parse of it.
attribute [local irreducible] indexRecord

theorem indexAll_cons {rec : WalRecord} :
    indexAll crc32c cfg mem (rec :: R) = match indexRecord crc32c cfg mem rec with
      | .error c => (mem, some c)
      | .ok mem => indexAll crc32c cfg mem R := rfl

theorem indexAll_append {R' : List WalRecord} :
    indexAll crc32c cfg mem (R ++ R') = match indexAll crc32c cfg mem R with
      | (mem', none) => indexAll crc32c cfg mem' R'
      | (mem', some c) => (mem', some c) := by
  induction R generalizing mem with
  | nil => rfl
  | cons rec R ih =>
    rw [List.cons_append, indexAll_cons, indexAll_cons]
    cases indexRecord crc32c cfg mem rec with
    | error c => rfl
    | ok mem' => exact ih

/-- Indexing that succeeds on some records succeeds on the first of
them. -/
theorem indexAll_prefix {mem' : Memtable} {R' : List WalRecord}
    (h : indexAll crc32c cfg mem (R ++ R') = (mem', none)) :
    ∃ mem₁, indexAll crc32c cfg mem R = (mem₁, none)
      ∧ indexAll crc32c cfg mem₁ R' = (mem', none) := by
  rw [indexAll_append] at h
  split at h
  · rename_i mem₁ heq
    exact ⟨mem₁, heq, h⟩
  · cases h

theorem indexAll_eq {mem' : Memtable} (h : indexAll crc32c cfg mem R = (mem', none)) :
    mem' = mem.insertAll (R.flatMap (writes crc32c cfg)) := by
  induction R generalizing mem with
  | nil => exact (Prod.mk.inj h).1.symm
  | cons rec R ih =>
    rw [indexAll_cons] at h
    cases hrec : indexRecord crc32c cfg mem rec with
    | error c =>
      rw [hrec] at h
      cases h
    | ok mem₁ =>
      rw [hrec] at h
      rw [List.flatMap_cons, Memtable.insertAll_append, ← indexRecord_eq hrec]
      exact ih h

theorem lsn_unique (h : R.Pairwise fun a b => a.lsn < b.lsn)
    {a b : WalRecord} (ha : a ∈ R) (hb : b ∈ R) (heq : a.lsn = b.lsn) : a = b := by
  induction R with
  | nil => cases ha
  | cons c R ih =>
    obtain ⟨hc, hR⟩ := List.pairwise_cons.mp h
    rcases List.mem_cons.mp ha with rfl | ha'
    · rcases List.mem_cons.mp hb with rfl | hb'
      · rfl
      · exact absurd heq (Nat.ne_of_lt (hc b hb'))
    · rcases List.mem_cons.mp hb with rfl | hb'
      · exact absurd heq.symm (Nat.ne_of_lt (hc a ha'))
      · exact ih hR ha' hb'

/-- Each of the records stands in the table once under each of its keys of
the shard, and nothing else stands in it. -/
structure Indexed (crc32c : List UInt8 → Nat) (cfg : IngestConfig) (R : List WalRecord)
    (mem : Memtable) : Prop where
  once : ∀ rec ∈ R, ∀ key ∈ keys rec, shardOf crc32c key cfg.shardCount = cfg.shard →
    ∃ v, mem.iter.filter (fun e => e.key = key ∧ e.lsn = rec.lsn) = [⟨key, rec.lsn, v⟩]
      ∧ (key.kind = 0 → v = rec.bytes)
  only : ∀ e ∈ mem.iter, ∃ rec ∈ R, e.lsn = rec.lsn ∧ e.key ∈ keys rec
    ∧ shardOf crc32c e.key cfg.shardCount = cfg.shard

theorem indexed_of_indexAll (hlsn : R.Pairwise fun a b => a.lsn < b.lsn)
    (h : indexAll crc32c cfg Memtable.new R = (mem, none)) : Indexed crc32c cfg R mem := by
  have hmem := indexAll_eq h
  have hfrom : ∀ e ∈ mem.iter, ∃ rec ∈ R, e ∈ writes crc32c cfg rec := by
    intro e he
    rw [hmem] at he
    rcases Memtable.of_mem_insertAll he with he | he
    · cases he
    · exact List.mem_flatMap.mp he
  constructor
  · intro rec hrec key hkey hshard
    obtain ⟨w, hw, rfl, hwl⟩ := writes_of_key hkey hshard
    have hplace : ∃ e ∈ mem.iter, e.key = w.key ∧ e.lsn = rec.lsn := by
      rw [hmem]
      exact Memtable.place_insertAll ⟨w, .inr (List.mem_flatMap.mpr ⟨rec, hrec, hw⟩), rfl, hwl⟩
    obtain ⟨e, he, hek, hel⟩ := hplace
    obtain ⟨rec', hrec', he'⟩ := hfrom e he
    obtain ⟨hl, -, -, hbytes⟩ := mem_writes he'
    -- The lsn says which record wrote the entry.
    obtain rfl := lsn_unique hlsn hrec hrec' (hel.symm.trans hl)
    refine ⟨e.record, ?_, fun hkind => hbytes (by rw [hek]; exact hkind)⟩
    rw [← hek, ← hel]
    exact Memtable.iter_filter he
  · intro e he
    obtain ⟨rec, hrec, hw⟩ := hfrom e he
    obtain ⟨hl, hk, hs, -⟩ := mem_writes hw
    exact ⟨rec, hrec, hl, hk, hs⟩

/-! ## The invariant -/

/-- An ingest that started at `base` and has received the stream up to
`hi`, of a stream that ends at `e`. -/
structure Framed (crc32c : List UInt8 → Nat) (cfg : IngestConfig) (S : WalStream)
    (base e hi : Nat) (s : ShardIngest) : Prop where
  cfg_eq : s.cfg = cfg
  buffered : Buffered S hi s
  rest : S.walkTo hi s.applied = .ok ([], s.applied)
  clean : Clean S e s.applied
  walked : ∃ R, indexAll crc32c cfg Memtable.new R = (s.mem, none)
    ∧ ∀ hi', hi ≤ hi' → hi' ≤ e → Same (S.walkTo hi' base) (after R (S.walkTo hi' s.applied))

variable {base : Nat}

theorem framed_new (hclean : Clean S e base) : Framed crc32c cfg S base e base (new cfg base) where
  cfg_eq := rfl
  buffered := ⟨rfl, by simp [new, WalStream.bytes]⟩
  rest := walkTo_stop le_rfl
  clean := hclean
  walked := ⟨[], rfl, fun hi' _ _ => by rw [after_nil]; exact Same.refl _⟩

variable {Rw : List WalRecord} {memw : Memtable}

/-- What the walk to the end of the stream finds behind the resume point
can be indexed, if all of it can. -/
theorem Framed.index_rest {rw_ r₂ : Nat} {R₂ : List WalRecord} (hs : Framed crc32c cfg S base e hi s) (hhi : hi ≤ e)
    (hwhole : S.walkTo e base = .ok (Rw, rw_))
    (hindex : indexAll crc32c cfg Memtable.new Rw = (memw, none))
    (hres : Same (S.walkTo e s.applied) (after R₂ (S.walkTo e r₂))) :
    ∃ mem₂, indexAll crc32c cfg s.mem R₂ = (mem₂, none) := by
  obtain ⟨-, -, -, -, R, hR, hsame⟩ := hs
  have hall := (hsame e hhi (Nat.le_refl e)).trans (hres.after R)
  rw [hwhole, after_append] at hall
  have hpre : ∃ R₃, Rw = R ++ (R₂ ++ R₃) := by
    rcases hall with ⟨R', r, r', h1, h2, -⟩ | ⟨err, h, -⟩
    · cases h1
      cases hw₃ : S.walkTo e r₂ with
      | error err =>
        rw [hw₃] at h2
        cases h2
      | ok out =>
        rw [hw₃] at h2
        cases h2
        exact ⟨out.1, List.append_assoc ..⟩
    · cases h
  obtain ⟨R₃, rfl⟩ := hpre
  obtain ⟨mem₁, h1, h2⟩ := indexAll_prefix hindex
  obtain rfl : s.mem = mem₁ := by
    rw [hR] at h1
    exact (Prod.mk.inj h1).1
  obtain ⟨mem₂, h3, -⟩ := indexAll_prefix h2
  exact ⟨mem₂, h3⟩

/-- One call: the first gap is its error, and without one the invariant
holds for all that was received. -/
theorem Framed.applyFrames {rw_ : Nat} {call : List Frame2} (hs : Framed crc32c cfg S base e hi s)
    (hwhole : S.walkTo e base = .ok (Rw, rw_))
    (hindex : indexAll crc32c cfg Memtable.new Rw = (memw, none))
    (hhi : hi ≤ e) (hcall : ∀ f ∈ call, f.tenant = cfg.tenant → f.Of S ∧ f.endLsn ≤ e) :
    (s.applyFrames crc32c call).2 = firstGap cfg.tenant s.seen call
      ∧ (firstGap cfg.tenant s.seen call = none →
          Framed crc32c cfg S base e (coverage cfg.tenant hi call)
            (s.applyFrames crc32c call).1) := by
  have hs₀ := hs
  obtain ⟨rfl, hbuf, hrest, hclean, R, hR, hsame⟩ := hs
  obtain ⟨hgap, hext⟩ := extendAll_spec hbuf fun f hf ht => (hcall f hf ht).1
  cases hfirst : firstGap s.cfg.tenant s.seen call with
  | some err =>
    rw [hfirst] at hgap
    cases hx : extendAll s call with
    | mk s₁ o =>
      rw [hx] at hgap
      obtain rfl : o = some err := hgap
      have happly : s.applyFrames crc32c call = (s₁, some err) := by
        rw [ShardIngest.applyFrames, hx]
      rw [happly]
      exact ⟨rfl, nofun⟩
  | none =>
    rw [hfirst] at hgap
    have hext := hext hfirst
    have hle : hi ≤ coverage s.cfg.tenant hi call := le_coverage _ _ _
    have hcov : coverage s.cfg.tenant hi call ≤ e :=
      coverage_le hhi fun f hf ht => (hcall f hf ht).2
    generalize hhi' : coverage s.cfg.tenant hi call = hi' at *
    cases hx : extendAll s call with
    | mk s₁ o =>
      rw [hx] at hgap hext
      obtain rfl : o = none := hgap
      obtain rfl : s₁ = { s with buf := S.bytes s.applied (hi' - s.applied) } := hext
      have hb' : Buffered S hi' { s with buf := S.bytes s.applied (hi' - s.applied) } :=
        ⟨hbuf.base, rfl⟩
      cases hw : S.walkTo hi' s.applied with
      | error err =>
        -- The walk to the end of the stream would have failed too.
        obtain ⟨R', r', hok, -⟩ := hclean
        rw [walkTo_error hcov hw] at hok
        cases hok
      | ok out =>
        obtain ⟨R₂, r₂⟩ := out
        have hres : Same (S.walkTo e s.applied) (after R₂ (S.walkTo e r₂)) :=
          walkTo_resume hcov (Nat.le_refl e) hclean hw
        obtain ⟨mem₂, h3⟩ := hs₀.index_rest hhi hwhole hindex hres
        have happly : s.applyFrames crc32c call =
            ({ s with
                mem := mem₂, applied := r₂, bufBase := r₂, buf := S.bytes r₂ (hi' - r₂) },
              none) := by
          rw [ShardIngest.applyFrames, hx]
          exact parseAvailable_spec hb' hw h3
        rw [happly]
        refine ⟨rfl, fun _ => ?_⟩
        refine ⟨rfl, ⟨rfl, rfl⟩, walkTo_rest hw, hclean.of_after hres rfl, R ++ R₂, ?_,
          fun hi'' hle' hle'' => ?_⟩
        · rw [indexAll_append, hR]
          exact h3
        · have hstep := (walkTo_resume hle' hle'' hclean hw).after R
          rw [after_append] at hstep
          exact (hsame hi'' (Nat.le_trans hle hle') hle'').trans hstep

theorem Framed.applyCalls {rw_ : Nat} (hwhole : S.walkTo e base = .ok (Rw, rw_))
    (hindex : indexAll crc32c cfg Memtable.new Rw = (memw, none)) :
    ∀ {calls : List (List Frame2)} {hi : Nat} {s s' : ShardIngest},
      Framed crc32c cfg S base e hi s → hi ≤ e →
      (∀ call ∈ calls, ∀ f ∈ call, f.tenant = cfg.tenant → f.Of S ∧ f.endLsn ≤ e) →
      s.applyCalls crc32c calls = (s', none) →
      Framed crc32c cfg S base e (coverage cfg.tenant hi calls.flatten) s'
        ∧ coverage cfg.tenant hi calls.flatten ≤ e := by
  intro calls
  induction calls with
  | nil =>
    intro hi s s' hs hhi _ h
    obtain rfl : s = s' := (Prod.mk.inj h).1
    exact ⟨hs, hhi⟩
  | cons call calls ih =>
    intro hi s s' hs hhi hcalls h
    have hcall := hcalls call List.mem_cons_self
    obtain ⟨herr, hok⟩ := hs.applyFrames hwhole hindex hhi hcall
    rw [ShardIngest.applyCalls] at h
    cases happly : s.applyFrames crc32c call with
    | mk s₁ o =>
      rw [happly] at h herr hok
      cases o with
      | some err => cases h
      | none =>
        rw [List.flatten_cons, coverage_append]
        exact ih (hok herr.symm) (coverage_le hhi fun f hf ht => (hcall f hf ht).2)
          (fun c hc => hcalls c (.tail _ hc)) h

/-- What an ingest has found is what one pass over all it received finds. -/
theorem Framed.pass (hs : Framed crc32c cfg S base e hi s) (hhi : hi ≤ e) :
    ∃ R r, readRecords (S.window base hi) base none = .ok (R, r)
      ∧ indexAll crc32c cfg Memtable.new R = (s.mem, none) ∧ Past r s.applied := by
  obtain ⟨-, -, hrest, -, R, hR, hsame⟩ := hs
  have hpass := hsame hi le_rfl hhi
  rw [hrest] at hpass
  rcases hpass with ⟨R', r, r', h1, h2, hpast⟩ | ⟨err, -, h⟩
  · cases h2
    refine ⟨R, r, ?_, hR, hpast⟩
    rw [readRecords_window, h1, List.append_nil]
  · cases h

/-! ## Frames do not matter -/

/-- A stream one pass accepts, cut into frames in any way, with any replay
and overlap, in any number of calls. A call fails exactly where a frame
starts behind the end of what was received and behind the resume point.
Without a failure the table is that of one pass over what was received, in
which every record stands once under each of its keys of the shard, and
the watermark is that pass's save for a page header it already stands
behind. -/
theorem ingest_framing {base e rw_ : Nat} {Rw : List WalRecord} {memw : Memtable}
    {calls : List (List Frame2)} (hbase : base ≤ e)
    (hwhole : readRecords (S.window base e) base none = .ok (Rw, rw_))
    (hindex : indexAll crc32c cfg Memtable.new Rw = (memw, none))
    (hend : rw_ % xlogBlcksz = 0 → rw_ + phd rw_ + 4 ≤ e → S.bytes (rw_ + phd rw_) 4 ≠ [0, 0, 0, 0])
    (hframes : ∀ call ∈ calls, ∀ f ∈ call, f.tenant = cfg.tenant → f.Of S ∧ f.endLsn ≤ e) :
    (∀ before call rest s, calls = before ++ call :: rest →
        (new cfg base).applyCalls crc32c before = (s, none) →
        s.seen = max (coverage cfg.tenant base before.flatten) s.applied
          ∧ (s.applyFrames crc32c call).2 = firstGap cfg.tenant s.seen call)
      ∧ ∀ s, (new cfg base).applyCalls crc32c calls = (s, none) →
        (∃ R r, readRecords (S.window base (coverage cfg.tenant base calls.flatten)) base none
              = .ok (R, r)
            ∧ indexAll crc32c cfg Memtable.new R = (s.mem, none) ∧ Past r s.applied
            ∧ Indexed crc32c cfg R s.mem)
          ∧ (coverage cfg.tenant base calls.flatten = e → s.mem = memw ∧ Past rw_ s.applied) := by
  rw [readRecords_window] at hwhole
  have hnew : Framed crc32c cfg S base e base (new cfg base) :=
    framed_new ⟨Rw, rw_, hwhole, hend⟩
  constructor
  · rintro before call rest s rfl hok
    have hbefore : ∀ c ∈ before, ∀ f ∈ c, f.tenant = cfg.tenant → f.Of S ∧ f.endLsn ≤ e :=
      fun c hc => hframes c (List.mem_append_left _ hc)
    have hcall := hframes call (List.mem_append_right _ List.mem_cons_self)
    obtain ⟨hs, hhi⟩ := Framed.applyCalls hwhole hindex hnew hbase hbefore hok
    exact ⟨hs.buffered.seen, (hs.applyFrames hwhole hindex hhi hcall).1⟩
  · intro s hok
    obtain ⟨hs, hhi⟩ := Framed.applyCalls hwhole hindex hnew hbase hframes hok
    obtain ⟨R, r, hpass, hix, hpast⟩ := hs.pass hhi
    have hwalk := hpass
    rw [readRecords_window] at hwalk
    refine ⟨⟨R, r, hpass, hix, hpast, indexed_of_indexAll (walkTo_lsns hwalk).2.2 hix⟩, ?_⟩
    intro hall
    rw [hall, hwhole] at hwalk
    cases hwalk
    rw [hindex] at hix
    exact ⟨(Prod.mk.inj hix).1.symm, hpast⟩

/-- A record that initialises block 5 of relation 3. -/
def initRecord : List UInt8 :=
  [44, 0, 0, 0] ++ List.replicate 20 0
    ++ [0, 64, 0, 0, 1, 0, 0, 0, 2, 0, 0, 0, 3, 0, 0, 0, 5, 0, 0, 0]

/-- The record in two frames that overlap, the first cut inside its block
reference. -/
theorem ingest_framing_overlap :
    let s := ((new ⟨7, 0, 1⟩ 8).applyCalls (fun _ => 0)
      [[⟨7, 8, initRecord.take 30⟩], [⟨7, 20, initRecord.drop 12⟩]]).1
    s.mem = (indexAll (fun _ => 0) ⟨7, 0, 1⟩ Memtable.new [⟨8, 56, 0, 0, 0, initRecord⟩]).1
      ∧ Past 56 s.applied := by
  have hall := (@ingest_framing (fun n => initRecord.getD (n - 8) 0) (fun _ => 0) ⟨7, 0, 1⟩
    8 52 56 [⟨8, 56, 0, 0, 0, initRecord⟩] _
    [[⟨7, 8, initRecord.take 30⟩], [⟨7, 20, initRecord.drop 12⟩]]
    (by decide) (by decide) (Prod.ext rfl (by decide +kernel)) (by decide)
    (by unfold Frame2.Of; decide)).2 _ (Prod.ext rfl (by decide +kernel))
  exact hall.2 (by decide)

/-- A page header and the first bytes of a record behind it. -/
def pageStart : List UInt8 := [0x18, 0xD1, 0, 0] ++ List.replicate 20 0 ++ [26, 0, 0, 0, 0, 0]

/-- A record of 26 bytes, six short of its alignment. -/
def paddedRecord : List UInt8 := [26, 0, 0, 0] ++ List.replicate 20 0 ++ [255, 0]

/-- The pass stops in front of the page header, an ingest that had only
part of the header stands behind it; and the alignment padding of a record
may be missing between two frames. -/
theorem ingest_watermark_framed :
    WalWindow.readRecords ⟨8192, pageStart⟩ 8192 none = .ok ([], 8192)
      ∧ (let out := (new ⟨7, 0, 1⟩ 8192).applyCalls (fun _ => 0)
          [[⟨7, 8192, pageStart.take 10⟩], [⟨7, 8192, pageStart⟩]]
        out.2 = none ∧ out.1.applied = 8216)
      ∧ (let out := (new ⟨7, 0, 1⟩ 8).applyCalls (fun _ => 0)
          [[⟨7, 8, paddedRecord⟩], [⟨7, 40, paddedRecord⟩]]
        out.2 = none ∧ 8 + paddedRecord.length < 40) := by
  decide +kernel

end ShardIngest

end Zou
