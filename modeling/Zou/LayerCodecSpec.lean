import Zou.LayerCodec

/-!
# A layer object reads back as it was built

The encoder cuts the entries into the runs of the abstract layer and lays
their bytes out one behind the other, the parser gets the footer back from
the object or from a suffix of it, and each block decodes to its run. The
length of the footer body has to fit in the four bytes it is written in,
and a suffix that does not hold the tail asks for the tail alone.
-/

namespace Zou

open Bytes

/-! ## Fields -/

@[simp] theorem ok_bind {ε α β : Type} (a : α) (f : α → Except ε β) :
    (Except.ok a >>= f) = f a := rfl

@[simp] theorem takeBytes_append {n : Nat} {x rest : List UInt8} (h : x.length = n) :
    takeBytes n (x ++ rest) = .ok (x, rest) := by
  subst h
  simp [takeBytes]

theorem toLe32_eq (n : Nat) : toLe32 n = le 4 n := by
  simp only [toLe32, le, Nat.div_div_eq_div_mul, Nat.reduceMul, Nat.reducePow]

theorem LayerKey.encode_eq (k : LayerKey) : k.encode = le 1 k.kind ++ (le 4 k.spc ++ (le 4 k.db
    ++ (le 4 k.rel ++ (le 1 k.fork ++ le 4 k.block)))) := by
  simp [LayerKey.encode, toLe32_eq, le]

@[simp] theorem LayerKey.length_encode (k : LayerKey) : k.encode.length = keyEncodedLen := by
  simp [LayerKey.encode_eq, keyEncodedLen]

/-- The fields are within the widths of the source's types. -/
structure LayerKey.Fits (k : LayerKey) : Prop where
  kind : k.kind < 2 ^ 8
  spc : k.spc < 2 ^ 32
  db : k.db < 2 ^ 32
  rel : k.rel < 2 ^ 32
  fork : k.fork < 2 ^ 8
  block : k.block < 2 ^ 32

theorem LayerKey.decode_encode {k : LayerKey} (h : k.Fits) : LayerKey.decode k.encode = k := by
  have h1 : ofLe (le 1 k.kind) = k.kind := ofLe_le h.kind
  have h5 : ofLe (le 1 k.fork) = k.fork := ofLe_le h.fork
  have h2 := ofLe_le32 h.spc
  have h3 := ofLe_le32 h.db
  have h4 := ofLe_le32 h.rel
  have h6 := ofLe_le32 h.block
  rw [LayerKey.encode_eq]
  simp [LayerKey.decode, h1, h2, h3, h4, h5, h6]

/-! ## The filter as bytes -/

theorem unpack_pack (b₀ b₁ b₂ b₃ b₄ b₅ b₆ b₇ : Bool) :
    unpackByte (packByte [b₀, b₁, b₂, b₃, b₄, b₅, b₆, b₇]) = [b₀, b₁, b₂, b₃, b₄, b₅, b₆, b₇] := by
  revert b₀ b₁ b₂ b₃ b₄ b₅ b₆ b₇
  decide +kernel

theorem packBits_spec : ∀ (n : Nat) (bits : List Bool), bits.length = 8 * n →
    (packBits bits).length = n ∧ (packBits bits).flatMap unpackByte = bits := by
  intro n
  induction n with
  | zero =>
    intro bits h
    rw [List.eq_nil_of_length_eq_zero h]
    exact ⟨rfl, rfl⟩
  | succ n ih =>
    intro bits h
    match bits, h with
    | b₀ :: b₁ :: b₂ :: b₃ :: b₄ :: b₅ :: b₆ :: b₇ :: rest, h =>
      have hrest : rest.length = 8 * n := by
        simp only [List.length_cons] at h
        omega
      obtain ⟨hlen, hbits⟩ := ih rest hrest
      rw [packBits, List.length_cons, List.flatMap_cons, hlen, hbits, unpack_pack]
      exact ⟨rfl, rfl⟩

theorem Bloom.length_fromHashes (hashes : List (UInt64 × UInt64)) :
    (Bloom.fromHashes hashes).bits.length
      = 8 * max ((max hashes.length 1 * 10 + 7) / 8).nextPowerOfTwo bloomMinBytes := by
  rw [Bloom.fromHashes, Bloom.length_sets, Bloom.sizedFor, List.length_replicate]
  rfl

theorem Bloom.fromBits_bytes (hashes : List (UInt64 × UInt64)) :
    Bloom.fromBits (Bloom.fromHashes hashes).bytes = some (Bloom.fromHashes hashes) := by
  obtain ⟨hlen, hbits⟩ := packBits_spec _ _ (Bloom.length_fromHashes hashes)
  have hsize : ¬ (¬ (Bloom.fromHashes hashes).bytes.length.isPowerOfTwo
      ∨ (Bloom.fromHashes hashes).bytes.length < bloomMinBytes) := by
    rw [Bloom.bytes, hlen, not_or, not_not]
    refine ⟨?_, by omega⟩
    rcases Nat.le_total bloomMinBytes ((max hashes.length 1 * 10 + 7) / 8).nextPowerOfTwo
      with h | h
    · rw [Nat.max_eq_left h]
      exact Nat.isPowerOfTwo_nextPowerOfTwo _
    · rw [Nat.max_eq_right h]
      exact ⟨6, rfl⟩
  rw [Bloom.fromBits, if_neg hsize, Bloom.bytes, hbits]

/-! ## The encoder cuts the runs -/

/-- What the encoder and the formats agree on. -/
structure Coding.Lawful {E : Type} (c : Coding E) : Prop where
  fmt : c.fmt.Lawful
  length_bytes : ∀ {e}, c.fmt.check e = .ok () → (c.bytes e).length = c.fmt.size e
  size_pos : ∀ e, 0 < c.fmt.size e
  body_bytes : ∀ run, bodyBytes (c.fmt.body run) = run.flatMap c.bytes
  hashed_none : ∀ e, c.hashed none e = true
  hashed_some : ∀ {q e}, c.fmt.before q e = true →
    (c.hashed (some q) e = true ↔ c.fmt.key q ≠ c.fmt.key e)
  bounds : ∀ es, es.foldl c.note c.lsns = c.fmt.bounds es
  bounds_lt : ∀ {es} {m : Nat}, es ≠ [] → (∀ e ∈ es, c.fmt.lsn e < m) → (c.fmt.bounds es).2 < m
  strict : c.kind = .image → ∀ {a b}, c.fmt.before a b = true → c.fmt.key a < c.fmt.key b

theorem foldl_max_lt {E : Type} {f : E → Nat} {m : Nat} : ∀ {es : List E} {a : Nat}, a < m →
    (∀ e ∈ es, f e < m) → es.foldl (fun m e => max m (f e)) a < m := by
  intro es
  induction es with
  | nil => exact fun ha _ => ha
  | cons e es ih =>
    intro a ha h
    refine ih (Nat.max_lt.mpr ⟨ha, h e List.mem_cons_self⟩) fun x hx => ?_
    exact h x (.tail _ hx)

theorem foldl_pair {E : Type} {f g : Nat → E → Nat} : ∀ (es : List E) (a b : Nat),
    es.foldl (fun (m : Nat × Nat) e => (f m.1 e, g m.2 e)) (a, b) = (es.foldl f a, es.foldl g b)
  | [], _, _ => rfl
  | e :: es, a, b => foldl_pair es (f a e) (g b e)

theorem deltaCoding_lawful : deltaCoding.Lawful where
  fmt := deltaFormat_lawful
  length_bytes _ := by
    simp only [deltaCoding, deltaFormat, List.length_append, LayerKey.length_encode, length_le,
      entryFixedLen]
    omega
  size_pos e := by
    simp only [deltaCoding, deltaFormat, entryFixedLen, keyEncodedLen]
    omega
  body_bytes _ := rfl
  hashed_none _ := rfl
  hashed_some _ := by simp [deltaCoding, deltaFormat]
  bounds es := foldl_pair (f := fun m (e : DeltaEntry) => min m e.lsn)
    (g := fun m e => max m e.lsn) es u64Max 0
  bounds_lt {es m} hne h := by
    obtain ⟨e, rest, rfl⟩ := List.exists_cons_of_ne_nil hne
    exact foldl_max_lt (Nat.lt_of_le_of_lt (Nat.zero_le _) (h e List.mem_cons_self)) h
  strict h := by cases h

theorem imageCoding_lawful (lsn : Lsn) : (imageCoding lsn).Lawful where
  fmt := imageFormat_lawful lsn
  length_bytes {e} h := by
    by_cases hlen : e.page.length = pageImageLen
    · simp [imageCoding, imageFormat, hlen]
    · simp [imageCoding, imageFormat, hlen] at h
  size_pos _ := by
    simp only [imageCoding, imageFormat, keyEncodedLen]
    omega
  body_bytes _ := rfl
  hashed_none _ := rfl
  hashed_some h := by
    simp only [imageCoding, imageFormat, decide_eq_true_eq, true_iff] at h ⊢
    exact ne_of_lt h
  bounds es := by
    induction es with
    | nil => rfl
    | cons e es ih => exact ih
  bounds_lt {es m} hne h := by
    obtain ⟨e, rest, rfl⟩ := List.exists_cons_of_ne_nil hne
    exact h e List.mem_cons_self
  strict := fun _ {a b} h => by
    simp only [imageCoding, imageFormat, decide_eq_true_eq] at h
    exact h

section Build

variable {E : Type} {c : Coding E} {p : LayerPacking} {target : Nat}

/-- A run as raw bytes. -/
def runBytes (c : Coding E) (run : List E) : List UInt8 := run.flatMap c.bytes

/-- A run as it is stored. -/
def storedRun (c : Coding E) (p : LayerPacking) (run : List E) : List UInt8 :=
  (p.packed (runBytes c run)).2

/-- The index row of a run. -/
def runRow (c : Coding E) (p : LayerPacking) (offset : Nat) (run : List E) : IndexRow :=
  p.indexRow offset (runBytes c run)
    ((run.head?.map c.fmt.key).getD (LayerKey.page 0 0 0 0 0))
    ((run.getLast?.map c.fmt.key).getD (LayerKey.page 0 0 0 0 0)) run.length

/-- The rows of runs laid out one behind the other. -/
def runRows (c : Coding E) (p : LayerPacking) : Nat → List (List E) → List IndexRow
  | _, [] => []
  | offset, run :: runs =>
    runRow c p offset run :: runRows c p (offset + (storedRun c p run).length) runs

/-- The hashes of the keys, a key that repeats taken once. -/
def keyHashes (c : Coding E) (p : LayerPacking) (last : Option E) (es : List E) :
    List (UInt64 × UInt64) :=
  (distinctKeys c.fmt (last.map c.fmt.key) es).map (Bloom.hash p.crc)

theorem length_runBytes (hc : c.Lawful) {run : List E} (h : ∀ e ∈ run, c.fmt.check e = .ok ()) :
    (runBytes c run).length = (run.map c.fmt.size).sum := by
  induction run with
  | nil => rfl
  | cons e run ih =>
    rw [runBytes, List.flatMap_cons, List.length_append,
      hc.length_bytes (h e List.mem_cons_self), List.map_cons, List.sum_cons]
    exact congrArg _ (ih fun e he => h e (.tail _ he))

/-- The builder is filling a block with `cur`. -/
structure LayerBuilder.Filling (c : Coding E) (b : LayerBuilder E) (cur : List E) : Prop where
  checked : ∀ e ∈ cur, c.fmt.check e = .ok ()
  raw : b.raw = runBytes c cur
  count : b.count = cur.length
  last : b.last = cur.getLast?
  first : ∀ e, cur.head? = some e → b.first = c.fmt.key e

variable {b : LayerBuilder E} {cur : List E}

theorem LayerBuilder.Filling.pushBlock (hf : b.Filling c cur) (hne : cur ≠ []) :
    (b.pushBlock c p).buf = b.buf ++ storedRun c p cur
      ∧ (b.pushBlock c p).blocks = b.blocks ++ [runRow c p b.buf.length cur] := by
  obtain ⟨e, rest, rfl⟩ := List.exists_cons_of_ne_nil hne
  have hfirst := hf.first e rfl
  unfold LayerBuilder.pushBlock LayerBuilder.lastKey runRow storedRun
  rw [hf.raw, hf.count, hf.last, hfirst]
  exact ⟨rfl, rfl⟩

theorem LayerBuilder.Filling.raw_ne (hc : c.Lawful)
    (hf : b.Filling c cur) : b.raw ≠ [] ↔ cur ≠ [] := by
  rw [hf.raw, ← List.length_pos_iff, length_runBytes hc hf.checked]
  constructor
  · rintro h rfl
    exact absurd h (Nat.lt_irrefl 0)
  · intro h
    obtain ⟨e, rest, rfl⟩ := List.exists_cons_of_ne_nil h
    have := hc.size_pos e
    rw [List.map_cons, List.sum_cons]
    omega

variable (p target) in
/-- What one push leaves: the filled block is closed first when the entry
would take it over the target. -/
theorem LayerBuilder.Filling.push {e : E} (hc : c.Lawful) (hf : b.Filling c cur)
    (hlast : ¬ b.last.any fun x => ! c.fmt.before x e) (hcheck : c.fmt.check e = .ok ()) :
    ∃ b', b.push c p target e = .ok b'
      ∧ b'.last = some e ∧ b'.total = b.total + 1 ∧ b'.lsns = c.note b.lsns e
      ∧ b'.hashes = b.hashes ++ (if b.last.map c.fmt.key = some (c.fmt.key e) then []
        else [Bloom.hash p.crc (c.fmt.key e)])
      ∧ (if cur ≠ [] ∧ (runBytes c cur).length + c.fmt.size e > target then
          b'.Filling c [e] ∧ b'.buf = b.buf ++ storedRun c p cur
            ∧ b'.blocks = b.blocks ++ [runRow c p b.buf.length cur]
        else b'.Filling c (cur ++ [e]) ∧ b'.buf = b.buf ∧ b'.blocks = b.blocks) := by
  have hhash : (if c.hashed b.last e then b.hashes ++ [Bloom.hash p.crc (c.fmt.key e)]
      else b.hashes) = b.hashes ++ (if b.last.map c.fmt.key = some (c.fmt.key e) then []
        else [Bloom.hash p.crc (c.fmt.key e)]) := by
    cases hl : b.last with
    | none => simp [hc.hashed_none]
    | some q =>
      have hq : c.fmt.before q e = true := by
        rw [hl] at hlast
        simpa using hlast
      have hiff := hc.hashed_some hq
      by_cases hk : c.fmt.key q = c.fmt.key e
      · have hno : c.hashed (some q) e = false := by
          rw [Bool.eq_false_iff]
          exact fun h => hiff.mp h hk
        simp [hno, hk]
      · simp [hiff.mpr hk, hk]
  have hraw := hf.raw_ne hc
  unfold LayerBuilder.push
  rw [if_neg hlast, hcheck]
  by_cases hcut : cur ≠ [] ∧ (runBytes c cur).length + c.fmt.size e > target
  · have hcond : b.raw ≠ [] ∧ b.raw.length + c.fmt.size e > target :=
      ⟨hraw.mpr hcut.1, by rw [hf.raw]; exact hcut.2⟩
    have hsome : b.last.isNone = false := by
      rw [hf.last, List.getLast?_eq_some_getLast hcut.1]
      rfl
    refine ⟨_, rfl, rfl, ?_⟩
    rw [if_pos hcond, if_pos hcut, hsome, hhash]
    obtain ⟨hbuf, hblocks⟩ := hf.pushBlock (p := p) hcut.1
    refine ⟨rfl, rfl, rfl, ⟨?_, ?_, rfl, rfl, ?_⟩, hbuf, hblocks⟩
    · intro x hx
      rw [List.mem_singleton.mp hx]
      exact hcheck
    · simp [runBytes]
    · intro x hx
      rw [← Option.some.inj hx]
  · have hcond : ¬ (b.raw ≠ [] ∧ b.raw.length + c.fmt.size e > target) := fun h =>
      hcut ⟨hraw.mp h.1, by rw [← hf.raw]; exact h.2⟩
    refine ⟨_, rfl, rfl, ?_⟩
    rw [if_neg hcond, if_neg hcut, hhash]
    refine ⟨rfl, rfl, rfl, ⟨?_, ?_, ?_, ?_, ?_⟩, rfl, rfl⟩
    · intro x hx
      rcases List.mem_append.mp hx with hx | hx
      · exact hf.checked x hx
      · rw [List.mem_singleton.mp hx]
        exact hcheck
    · simp [runBytes, hf.raw]
    · simp [hf.count]
    · simp
    · intro x hx
      cases cur with
      | nil =>
        have hnone : b.last = none := hf.last
        rw [hnone]
        exact congrArg c.fmt.key (Option.some.inj hx)
      | cons a cur =>
        have hsome : b.last.isNone = false := by
          rw [hf.last, List.getLast?_cons]
          rfl
        rw [hsome]
        exact hf.first x hx

theorem LayerBuilder.pushAll_error {err : LayerBuildError} : ∀ {es : List E} {cur : List E}
    {b : LayerBuilder E}, c.Lawful → b.Filling c cur → validate c.fmt b.last es = .error err →
    b.pushAll c p target es = .error err := by
  intro es
  induction es with
  | nil =>
    nofun
  | cons e es ih =>
    intro cur b hc hf h
    rw [validate] at h
    rw [LayerBuilder.pushAll]
    by_cases hlast : b.last.any fun x => ! c.fmt.before x e
    · rw [if_pos hlast] at h
      cases h
      rw [LayerBuilder.push, if_pos hlast]
    · rw [if_neg hlast] at h
      cases hcheck : c.fmt.check e with
      | error err' =>
        rw [hcheck] at h
        cases h
        rw [LayerBuilder.push, if_neg hlast, hcheck]
      | ok u =>
        rw [hcheck] at h
        obtain ⟨b', hpush, hb', -, -, -, hfill⟩ := hf.push p target hc hlast hcheck
        rw [hpush]
        rw [← hb'] at h
        split at hfill
        · exact ih hc hfill.1 h
        · exact ih hc hfill.1 h

theorem LayerBuilder.pushAll_ok : ∀ {es cur : List E} {b : LayerBuilder E}, c.Lawful →
    b.Filling c cur → validate c.fmt b.last es = .ok () → cur ++ es ≠ [] →
    ∃ b', b.pushAll c p target es = .ok b'
      ∧ b'.last.isSome ∧ b'.total = b.total + es.length ∧ b'.lsns = es.foldl c.note b.lsns
      ∧ b'.hashes = b.hashes ++ keyHashes c p b.last es
      ∧ (b'.pushBlock c p).buf = b.buf
        ++ (cutRuns c.fmt target cur (runBytes c cur).length es).flatMap (storedRun c p)
      ∧ (b'.pushBlock c p).blocks = b.blocks
        ++ runRows c p b.buf.length (cutRuns c.fmt target cur (runBytes c cur).length es) := by
  intro es
  induction es with
  | nil =>
    intro cur b _ hf _ hne
    rw [List.append_nil] at hne
    obtain ⟨hbuf, hblocks⟩ := hf.pushBlock (p := p) hne
    refine ⟨b, rfl, ?_, rfl, rfl, ?_, ?_, ?_⟩
    · rw [hf.last, List.getLast?_eq_some_getLast hne]
      rfl
    · simp [keyHashes, distinctKeys]
    · rw [hbuf, cutRuns]
      simp
    · rw [hblocks, cutRuns]
      rfl
  | cons e es ih =>
    intro cur b hc hf h _
    rw [validate] at h
    split at h
    · cases h
    · rename_i hlast
      cases hcheck : c.fmt.check e with
      | error err =>
        rw [hcheck] at h
        cases h
      | ok u =>
        rw [hcheck] at h
        obtain ⟨b₁, hpush, hb₁, htotal, hlsns, hhashes, hfill⟩ := hf.push p target hc hlast hcheck
        rw [← hb₁] at h
        have hkeys : keyHashes c p b.last (e :: es)
            = (if b.last.map c.fmt.key = some (c.fmt.key e) then []
              else [Bloom.hash p.crc (c.fmt.key e)]) ++ keyHashes c p b₁.last es := by
          rw [keyHashes, distinctKeys, keyHashes, hb₁]
          split
          · rename_i hk
            rw [hk]
            rfl
          · rfl
        have hsize := hc.length_bytes hcheck
        rw [LayerBuilder.pushAll, hpush, cutRuns]
        by_cases hcut : cur ≠ [] ∧ (runBytes c cur).length + c.fmt.size e > target
        · rw [if_pos hcut] at hfill
          obtain ⟨hf₁, hbuf, hblocks⟩ := hfill
          obtain ⟨b', hall, hsome, ht, hl, hh, hb, hr⟩ := ih hc hf₁ h (by simp)
          have hone : (runBytes c [e]).length = c.fmt.size e := by
            simpa [runBytes] using hsize
          rw [hone] at hb hr
          refine ⟨b', hall, hsome, ?_, ?_, ?_, ?_, ?_⟩
          · rw [ht, htotal, List.length_cons]
            omega
          · rw [hl, hlsns, List.foldl_cons]
          · rw [hh, hhashes, hkeys, List.append_assoc]
          · rw [hb, hbuf, if_pos hcut, List.flatMap_cons, List.append_assoc]
          · rw [hr, hblocks, hbuf, if_pos hcut, runRows, List.length_append, List.append_assoc]
            rfl
        · rw [if_neg hcut] at hfill
          obtain ⟨hf₁, hbuf, hblocks⟩ := hfill
          obtain ⟨b', hall, hsome, ht, hl, hh, hb, hr⟩ := ih hc hf₁ h (by simp)
          have hmore : (runBytes c (cur ++ [e])).length
              = (runBytes c cur).length + c.fmt.size e := by
            simp [runBytes, hsize]
          rw [hmore] at hb hr
          refine ⟨b', hall, hsome, ?_, ?_, ?_, ?_, ?_⟩
          · rw [ht, htotal, List.length_cons]
            omega
          · rw [hl, hlsns, List.foldl_cons]
          · rw [hh, hhashes, hkeys, List.append_assoc]
          · rw [hb, hbuf, if_neg hcut]
          · rw [hr, hblocks, hbuf, if_neg hcut]

theorem LayerBuilder.new_filling : (LayerBuilder.new c).Filling c [] where
  checked := nofun
  raw := rfl
  count := rfl
  last := rfl
  first := nofun

/-- What the encoder returns, in terms of the runs it cut. -/
structure Encoded (c : Coding E) (p : LayerPacking) (es : List E) (runs : List (List E))
    (buf : List UInt8) (f : CodedFooter) : Prop where
  footer : f = {
    kind := c.kind
    minKey := ((runRows c p layerHeaderLen runs).head?.map fun r => r.firstKey).getD
      (LayerKey.page 0 0 0 0 0)
    maxKey := ((runRows c p layerHeaderLen runs).getLast?.map fun r => r.lastKey).getD
      (LayerKey.page 0 0 0 0 0)
    minLsn := (c.fmt.bounds es).1
    maxLsn := (c.fmt.bounds es).2
    entryCount := es.length
    blocks := runRows c p layerHeaderLen runs
    bloom := Bloom.fromHashes (keyHashes c p none es) }
  buf : buf = p.finish (header c.kind ++ runs.flatMap (storedRun c p)) f

theorem length_header (kind : LayerKind) : (header kind).length = layerHeaderLen := by
  cases kind <;> rfl

/-- The encoder accepts exactly what passes the checks, and cuts it into
the runs of the abstract layer. -/
theorem build_iff (hc : c.Lawful) {es : List E} {buf : List UInt8} {f : CodedFooter} :
    LayerBuilder.build c p target es = .ok (buf, f) ↔ validate c.fmt none es = .ok ()
      ∧ es ≠ [] ∧ Encoded c p es (cutRuns c.fmt target [] 0 es) buf f := by
  unfold LayerBuilder.build
  cases hv : validate c.fmt none es with
  | error err =>
    rw [LayerBuilder.pushAll_error hc LayerBuilder.new_filling hv]
    simp
  | ok u =>
    by_cases hne : es = []
    · subst hne
      have hfin : (LayerBuilder.new c).finish c p = .error .empty := rfl
      simp [LayerBuilder.pushAll, hfin]
    · obtain ⟨b, hall, hsome, ht, hl, hh, hb, hr⟩ :=
        LayerBuilder.pushAll_ok (p := p) hc LayerBuilder.new_filling hv hne
      have hnone : b.last.isNone = false := by
        rw [← Option.not_isSome, hsome]
        rfl
      have hbuf : (LayerBuilder.new c).buf.length = layerHeaderLen := length_header c.kind
      have hfooter : (b.pushBlock c p).footer c = {
          kind := c.kind
          minKey := ((b.pushBlock c p).blocks.head?.map fun r => r.firstKey).getD
            (LayerKey.page 0 0 0 0 0)
          maxKey := ((b.pushBlock c p).blocks.getLast?.map fun r => r.lastKey).getD
            (LayerKey.page 0 0 0 0 0)
          minLsn := b.lsns.1
          maxLsn := b.lsns.2
          entryCount := b.total
          blocks := (b.pushBlock c p).blocks
          bloom := Bloom.fromHashes b.hashes } := rfl
      have hlsns : b.lsns = c.fmt.bounds es := hl.trans (hc.bounds es)
      have htotal : b.total = es.length := ht.trans (Nat.zero_add _)
      have hblocks : (b.pushBlock c p).blocks
          = runRows c p layerHeaderLen (cutRuns c.fmt target [] 0 es) := by
        rw [hr, hbuf]
        rfl
      rw [hall]
      change b.finish c p = .ok (buf, f) ↔ _
      rw [LayerBuilder.finish, hnone, if_neg Bool.false_ne_true]
      dsimp only
      rw [hblocks, hlsns, htotal, hh] at hfooter
      rw [hfooter, hb]
      constructor
      · intro h
        obtain ⟨rfl, rfl⟩ := Prod.mk.inj (Except.ok.inj h)
        exact ⟨rfl, hne, rfl, rfl⟩
      · rintro ⟨-, -, ⟨rfl, rfl⟩⟩
        rfl

end Build

/-! ## The footer parses back -/

/-- The fields of a row are within their widths. -/
structure IndexRow.Fits (r : IndexRow) : Prop where
  firstKey : r.firstKey.Fits
  lastKey : r.lastKey.Fits
  offset : r.offset < 2 ^ 64
  len : r.len < 2 ^ 32
  rawLen : r.rawLen < 2 ^ 32
  entries : r.entries < 2 ^ 32
  crc : r.crc < 2 ^ 32
  enc : r.enc < 2 ^ 8

theorem length_rowBytes (r : IndexRow) : (CodedFooter.rowBytes r).length = blockMetaLen := by
  simp [CodedFooter.rowBytes, blockMetaLen, keyEncodedLen]

theorem parseRow_rowBytes {r : IndexRow} (h : r.Fits) (rest : List UInt8) :
    parseRow (CodedFooter.rowBytes r ++ rest) = .ok (r, rest) := by
  have h1 := LayerKey.decode_encode h.firstKey
  have h2 := LayerKey.decode_encode h.lastKey
  have h3 := ofLe_le64 h.offset
  have h4 := ofLe_le32 h.len
  have h5 := ofLe_le32 h.rawLen
  have h6 := ofLe_le32 h.entries
  have h7 := ofLe_le32 h.crc
  have h8 : ofLe (le 1 r.enc) = r.enc := ofLe_le h.enc
  have hfixed : (le 8 r.offset ++ (le 4 r.len ++ (le 4 r.rawLen ++ (le 4 r.entries
      ++ (le 4 r.crc ++ le 1 r.enc))))).length = blockMetaLen - 2 * keyEncodedLen := by
    simp [blockMetaLen, keyEncodedLen]
  unfold parseRow CodedFooter.rowBytes
  rw [List.append_assoc, takeBytes_append (LayerKey.length_encode _), ok_bind]
  dsimp only
  rw [List.append_assoc, takeBytes_append (LayerKey.length_encode _), ok_bind]
  dsimp only
  rw [takeBytes_append hfixed, ok_bind]
  simp [h1, h2, h3, h4, h5, h6, h7, h8]

/-- Rows that prove themselves, from an offset on. -/
def RowsFrom (kind : LayerKind) : Nat → Option IndexRow → List IndexRow → Prop
  | _, _, [] => True
  | at_, prev, r :: rows => r.Fits ∧ rowBad kind at_ prev r = false ∧ at_ + r.len < 2 ^ 64
      ∧ RowsFrom kind (at_ + r.len) (some r) rows

theorem parseRows_rowBytes {kind : LayerKind} (rest : List UInt8) :
    ∀ {rows acc : List IndexRow} {at_ sum : Nat}, RowsFrom kind at_ acc.getLast? rows →
      parseRows kind rows.length ⟨acc, at_, sum, rows.flatMap CodedFooter.rowBytes ++ rest⟩
        = .ok ⟨acc ++ rows, at_ + (rows.map fun r => r.len).sum,
          sum + (rows.map fun r => r.entries).sum, rest⟩ := by
  intro rows
  induction rows with
  | nil =>
    intro acc at_ sum _
    simp [parseRows]
  | cons r rows ih =>
    rintro acc at_ sum ⟨hfits, hok, hlt, hrest⟩
    have hnext : RowsFrom kind (at_ + r.len) (acc ++ [r]).getLast? rows := by
      rw [List.getLast?_concat]
      exact hrest
    rw [List.length_cons, parseRows, List.flatMap_cons, List.append_assoc,
      parseRow_rowBytes hfits]
    change (if rowBad kind at_ acc.getLast? r || decide (at_ + r.len ≥ 2 ^ 64) then _
      else parseRows kind rows.length
        ⟨acc ++ [r], at_ + r.len, sum + r.entries, rows.flatMap CodedFooter.rowBytes ++ rest⟩) = _
    rw [hok, decide_eq_false (Nat.not_le.mpr hlt), Bool.or_self, if_neg Bool.false_ne_true,
      ih hnext]
    simp [Nat.add_assoc]

/-- What the parser asks of a footer, and the widths of its fields. -/
structure CodedFooter.Proper (f : CodedFooter) : Prop where
  minKey : f.minKey.Fits
  maxKey : f.maxKey.Fits
  minLsn : f.minLsn < 2 ^ 64
  maxLsn : f.maxLsn < 2 ^ 64
  lsns : f.minLsn ≤ f.maxLsn
  entryCount : f.entryCount < 2 ^ 64
  length : f.blocks.length < 2 ^ 32
  rows : RowsFrom f.kind layerHeaderLen none f.blocks
  first : f.blocks.head?.map (fun r => r.firstKey) = some f.minKey
  last : f.blocks.getLast?.map (fun r => r.lastKey) = some f.maxKey
  entries : (f.blocks.map fun r => r.entries).sum = f.entryCount
  bloomLen : f.bloom.bytes.length < 2 ^ 32
  bloom : Bloom.fromBits f.bloom.bytes = some f.bloom

theorem length_flatMap_rowBytes (rows : List IndexRow) :
    (rows.flatMap CodedFooter.rowBytes).length = rows.length * blockMetaLen := by
  induction rows with
  | nil => simp
  | cons r rows ih =>
    rw [List.flatMap_cons, List.length_append, length_rowBytes, ih, List.length_cons,
      Nat.add_mul, Nat.one_mul, Nat.add_comm]

theorem parseFooterBody_body {f : CodedFooter} (h : f.Proper) :
    parseFooterBody f.kind f.body (layerHeaderLen + (f.blocks.map fun r => r.len).sum)
      = .ok f := by
  have hne : f.blocks.length ≠ 0 := by
    intro h0
    have hfirst := h.first
    rw [List.eq_nil_of_length_eq_zero h0] at hfirst
    cases hfirst
  have hcount : ¬ (f.blocks.length = 0 ∨ f.blocks.length > (f.blocks.flatMap CodedFooter.rowBytes
      ++ (le 4 f.bloom.bytes.length ++ f.bloom.bytes)).length / blockMetaLen) := by
    rw [not_or]
    refine ⟨hne, Nat.not_lt.mpr ?_⟩
    rw [Nat.le_div_iff_mul_le (by decide), List.length_append, length_flatMap_rowBytes]
    exact Nat.le_add_right _ _
  have hrows : parseRows f.kind f.blocks.length ⟨[], layerHeaderLen, 0,
      f.blocks.flatMap CodedFooter.rowBytes ++ (le 4 f.bloom.bytes.length ++ f.bloom.bytes)⟩
        = .ok ⟨[] ++ f.blocks, layerHeaderLen + (f.blocks.map fun r => r.len).sum,
          0 + (f.blocks.map fun r => r.entries).sum,
          le 4 f.bloom.bytes.length ++ f.bloom.bytes⟩ :=
    parseRows_rowBytes _ h.rows
  have hbits : takeBytes f.bloom.bytes.length f.bloom.bytes = .ok (f.bloom.bytes, []) := by
    simp [takeBytes]
  unfold parseFooterBody CodedFooter.body
  rw [takeBytes_append (LayerKey.length_encode _), ok_bind]
  dsimp only
  rw [takeBytes_append (LayerKey.length_encode _), ok_bind]
  dsimp only
  rw [takeBytes_append (length_le 8 _), ok_bind]
  rw [takeBytes_append (length_le 8 _), ok_bind]
  rw [takeBytes_append (length_le 8 _), ok_bind]
  rw [takeBytes_append (length_le 4 _), ok_bind]
  rw [ofLe_le32 h.length, if_neg hcount, hrows, ok_bind]
  rw [ofLe_le64 h.entryCount, ofLe_le64 h.minLsn, ofLe_le64 h.maxLsn,
    LayerKey.decode_encode h.minKey, LayerKey.decode_encode h.maxKey, List.nil_append, Nat.zero_add,
    h.entries, h.first, h.last, if_neg (by simp), if_neg (by simpa using h.lsns),
    takeBytes_append (length_le 4 _), ok_bind]
  rw [ofLe_le32 h.bloomLen, if_neg (Nat.lt_irrefl _), hbits, ok_bind]
  rw [h.bloom]
  dsimp only
  rw [if_neg (not_not.mpr rfl)]

/-! ## The footer from an object and from a suffix -/

section Shell

variable {p : LayerPacking} {f : CodedFooter} {pre : List UInt8}

/-- The tail of an object. -/
def tailBytes (len crc : Nat) : List UInt8 := le 4 len ++ (le 4 crc ++ layerFooterMagic)

@[simp] theorem length_tailBytes (len crc : Nat) : (tailBytes len crc).length = tailLen := by
  simp [tailBytes, tailLen, layerFooterMagic]

theorem tail_fields (x : List UInt8) {len crc : Nat} (hlen : len < 2 ^ 32) (hcrc : crc < 2 ^ 32) :
    (x ++ tailBytes len crc).drop ((x ++ tailBytes len crc).length - 4) = layerFooterMagic
      ∧ ofLe (slice (x ++ tailBytes len crc) x.length 4) = len
      ∧ ofLe (slice (x ++ tailBytes len crc) (x.length + 4) 4) = crc := by
  refine ⟨?_, ?_, ?_⟩
  · have heq : x ++ tailBytes len crc = (x ++ (le 4 len ++ le 4 crc)) ++ layerFooterMagic := by
      simp [tailBytes]
    have hdrop : (x ++ tailBytes len crc).length - 4 = (x ++ (le 4 len ++ le 4 crc)).length := by
      simp [tailBytes, layerFooterMagic]
    rw [hdrop, heq, List.drop_left]
  · rw [slice_skip le_rfl, Nat.sub_self, tailBytes, slice_le_head, ofLe_le32 hlen]
  · rw [slice_skip (Nat.le_add_right _ _), Nat.add_sub_cancel_left, tailBytes,
      slice_le_skip le_rfl, Nat.sub_self, slice_le_head, ofLe_le32 hcrc]

/-- The crc over the header and the body. -/
def shellCrc (p : LayerPacking) (f : CodedFooter) : Nat := p.crc (p.crc 0 (header f.kind)) f.body

theorem finish_eq (hpre : pre.take layerHeaderLen = header f.kind) (hlen : f.body.length < 2 ^ 32) :
    p.finish pre f = (pre ++ f.body) ++ tailBytes f.body.length (shellCrc p f) := by
  rw [LayerPacking.finish, Nat.mod_eq_of_lt hlen, List.take_length, hpre, List.append_assoc]
  rfl

theorem parseHeader_header (kind : LayerKind) : parseHeader (header kind) = .ok kind := by
  cases kind <;> decide

theorem parseShell_finish (hp : p.Lawful) (hf : f.Proper)
    (hpre : pre.take layerHeaderLen = header f.kind)
    (hat : pre.length = layerHeaderLen + (f.blocks.map fun r => r.len).sum)
    (hlen : f.body.length < 2 ^ 32) : p.parseShell (p.finish pre f) = .ok (f, pre.length) := by
  have hcrc : shellCrc p f < 2 ^ 32 := hp.crc_lt _ _
  obtain ⟨hmagic, hL, hC⟩ := tail_fields (pre ++ f.body) hlen hcrc
  have hsize : ((pre ++ f.body) ++ tailBytes f.body.length (shellCrc p f)).length
      = pre.length + f.body.length + tailLen := by
    rw [List.length_append, List.length_append, length_tailBytes]
  have htail : pre.length + f.body.length + tailLen - tailLen = (pre ++ f.body).length := by
    rw [List.length_append, Nat.add_sub_cancel]
  have hshort : ¬ pre.length + f.body.length + tailLen < layerHeaderLen + tailLen := by omega
  have hhead : ((pre ++ f.body) ++ tailBytes f.body.length (shellCrc p f)).take layerHeaderLen
      = header f.kind := by
    rw [List.append_assoc, List.take_append_of_le_length (by omega), hpre]
  have hbody : slice ((pre ++ f.body) ++ tailBytes f.body.length (shellCrc p f)) pre.length
      f.body.length = f.body := by
    rw [slice_within (by rw [List.length_append]), slice_skip le_rfl, Nat.sub_self,
      slice_all le_rfl]
  have hfit : ¬ f.body.length > (pre ++ f.body).length - layerHeaderLen := by
    rw [List.length_append]
    omega
  have hstart : (pre ++ f.body).length - f.body.length = pre.length := by
    rw [List.length_append, Nat.add_sub_cancel]
  rw [finish_eq hpre hlen, LayerPacking.parseShell, if_neg (by rw [hsize]; exact hshort), hhead,
    parseHeader_header]
  dsimp only
  rw [hmagic, if_neg (not_not.mpr rfl), hsize, htail, hL, if_neg hfit, hC, hstart, hbody,
    if_neg (not_not.mpr (shellCrc.eq_1 p f).symm), hat, parseFooterBody_body hf]

/-- A suffix of an object. -/
def suffixOf (obj : List UInt8) (n : Nat) : List UInt8 := obj.drop (obj.length - n)

theorem length_suffixOf {obj : List UInt8} {n : Nat} (h : n ≤ obj.length) :
    (suffixOf obj n).length = n := by
  rw [suffixOf, List.length_drop]
  omega

theorem suffix_finish (hp : p.Lawful) (hf : f.Proper)
    (hpre : pre.take layerHeaderLen = header f.kind)
    (hat : pre.length = layerHeaderLen + (f.blocks.map fun r => r.len).sum)
    (hlen : f.body.length < 2 ^ 32) {n : Nat} (htail : tailLen ≤ n)
    (hn : n ≤ (p.finish pre f).length) :
    p.readLayerFooterSuffix f.kind (suffixOf (p.finish pre f) n) (p.finish pre f).length
      = if n < f.body.length + tailLen then .error (.truncated n (f.body.length + tailLen))
        else .ok f := by
  have hcrc : shellCrc p f < 2 ^ 32 := hp.crc_lt _ _
  have hsize : (p.finish pre f).length = pre.length + f.body.length + tailLen := by
    rw [finish_eq hpre hlen, List.length_append, List.length_append, length_tailBytes]
  have hsuf : suffixOf (p.finish pre f) n
      = (pre ++ f.body).drop (pre.length + f.body.length + tailLen - n)
        ++ tailBytes f.body.length (shellCrc p f) := by
    rw [suffixOf, hsize, finish_eq hpre hlen, List.drop_append_of_le_length]
    rw [List.length_append]
    omega
  have hx : ((pre ++ f.body).drop (pre.length + f.body.length + tailLen - n)).length
      = n - tailLen := by
    rw [List.length_drop, List.length_append]
    omega
  obtain ⟨hmagic, hL, hC⟩ := tail_fields
    ((pre ++ f.body).drop (pre.length + f.body.length + tailLen - n)) hlen hcrc
  rw [← hsuf] at hmagic hL hC
  rw [hx] at hL hC
  have hneed : ¬ f.body.length + tailLen > (p.finish pre f).length - layerHeaderLen := by omega
  unfold LayerPacking.readLayerFooterSuffix
  rw [length_suffixOf hn, if_neg (by omega)]
  rw [length_suffixOf hn] at hmagic
  rw [hmagic, if_neg (not_not.mpr rfl)]
  dsimp only
  rw [hL, if_neg hneed]
  by_cases hshort : n < f.body.length + tailLen
  · rw [if_pos hshort, if_pos hshort]
  · have hbody : slice (suffixOf (p.finish pre f) n) (n - (f.body.length + tailLen))
        f.body.length = f.body := by
      have hdrop : (pre ++ f.body).drop (pre.length + f.body.length + tailLen - n)
          = pre.drop (pre.length + f.body.length + tailLen - n) ++ f.body :=
        List.drop_append_of_le_length (by omega)
      have hlen' : (pre.drop (pre.length + f.body.length + tailLen - n)).length
          = n - (f.body.length + tailLen) := by
        rw [List.length_drop]
        omega
      rw [hsuf, hdrop, slice_within (by rw [List.length_append, hlen']), ← hlen',
        slice_skip le_rfl, Nat.sub_self, slice_all le_rfl]
    have hstart : (p.finish pre f).length - (f.body.length + tailLen)
        = layerHeaderLen + (f.blocks.map fun r => r.len).sum := by omega
    rw [if_neg hshort, if_neg hshort, hbody, hC, if_neg (not_not.mpr (shellCrc.eq_1 p f).symm),
      hstart, parseFooterBody_body hf]

theorem suffix_short {obj : List UInt8} {kind : LayerKind} {n : Nat} (hn : n ≤ obj.length)
    (hshort : n < tailLen) :
    p.readLayerFooterSuffix kind (suffixOf obj n) obj.length = .error (.truncated n tailLen) := by
  rw [LayerPacking.readLayerFooterSuffix, length_suffixOf hn, if_pos (.inl hshort)]

end Shell

/-! ## The rows of the runs -/

section Runs

variable {E : Type} {c : Coding E} {p : LayerPacking}

/-- An entry within the widths of the source's types. -/
structure Coding.Fits (c : Coding E) (e : E) : Prop where
  key : (c.fmt.key e).Fits
  lsn : c.fmt.lsn e < 2 ^ 64

/-- Sorted, checked entries cut into runs that are not empty and not
impossibly large. -/
structure Cut (c : Coding E) (es : List E) (runs : List (List E)) : Prop where
  flatten : runs.flatten = es
  ne : ∀ run ∈ runs, run ≠ []
  small : ∀ run ∈ runs, (runBytes c run).length ≤ maxBlockRawLen
  sorted : es.Pairwise (c.fmt.before · ·)
  checked : ∀ e ∈ es, c.fmt.check e = .ok ()
  fits : ∀ e ∈ es, c.Fits e

variable {es : List E}

theorem cut_of_validate (hc : c.Lawful) {target : Nat} (htarget : target ≤ layerBlockTarget) (hne : es ≠ []) (hv : validate c.fmt none es = .ok ())
    (hfits : ∀ e ∈ es, c.Fits e) : Cut c es (cutRuns c.fmt target [] 0 es) := by
  obtain ⟨hcheck, hpw⟩ := validate_ok hc.fmt hv
  have hspec : (cutRuns c.fmt target [] 0 es).flatten = [] ++ es
      ∧ ∀ run ∈ cutRuns c.fmt target [] 0 es,
        run ≠ [] ∧ (run.length ≤ 1 ∨ (run.map c.fmt.size).sum ≤ target) :=
    cutRuns_spec rfl (.inl (Nat.zero_le _)) (by simpa using hne)
  obtain ⟨hflat, hruns⟩ := hspec
  have hrun : ∀ run ∈ cutRuns c.fmt target [] 0 es, ∀ e ∈ run, c.fmt.check e = .ok () := by
    intro run hrun e he
    refine hcheck e ?_
    rw [← List.nil_append es, ← hflat]
    exact List.mem_flatten.mpr ⟨run, hrun, he⟩
  refine ⟨hflat, fun run h => (hruns run h).1, fun run h => ?_, hpw, hcheck, hfits⟩
  have hraw : (blockRow c.fmt (fun _ => 0) 0 run).rawLen ≤ maxBlockRawLen :=
    rawLen_le hc.fmt (hrun run h) (hruns run h).2 htarget
  rw [length_runBytes hc (hrun run h)]
  exact hraw

variable {run : List E} {runs : List (List E)}

theorem Cut.tail (h : Cut c es (run :: runs)) : Cut c runs.flatten runs where
  flatten := rfl
  ne := fun r hr => h.ne r (.tail _ hr)
  small := fun r hr => h.small r (.tail _ hr)
  sorted := by
    have hs := h.sorted
    rw [← h.flatten, List.flatten_cons, List.pairwise_append] at hs
    exact hs.2.1
  checked := fun e he => h.checked e (by
    rw [← h.flatten, List.flatten_cons]
    exact List.mem_append_right _ he)
  fits := fun e he => h.fits e (by
    rw [← h.flatten, List.flatten_cons]
    exact List.mem_append_right _ he)

theorem Cut.mem (h : Cut c es runs) (hrun : run ∈ runs) {e : E} (he : e ∈ run) : e ∈ es := by
  rw [← h.flatten]
  exact List.mem_flatten.mpr ⟨run, hrun, he⟩

theorem length_packed_le (raw : List UInt8) : (p.packed raw).2.length ≤ raw.length := by
  unfold LayerPacking.packed
  split
  · rename_i h
    exact Nat.le_of_lt h
  · exact le_rfl

theorem packed_cases (raw : List UInt8) :
    p.packed raw = (layerEncRaw, raw) ∨ p.packed raw = (layerEncLz4, p.compress raw) := by
  unfold LayerPacking.packed
  split
  · exact .inr rfl
  · exact .inl rfl

theorem length_le_runBytes (hc : c.Lawful)
    (h : ∀ e ∈ run, c.fmt.check e = .ok ()) : run.length ≤ (runBytes c run).length := by
  rw [length_runBytes hc h]
  clear h
  induction run with
  | nil => exact le_rfl
  | cons e run ih =>
    have := hc.size_pos e
    rw [List.length_cons, List.map_cons, List.sum_cons]
    omega

theorem runRow_keys {offset : Nat} (hne : run ≠ []) :
    ∃ a ∈ run, ∃ z ∈ run, run.head? = some a ∧ run.getLast? = some z
      ∧ (runRow c p offset run).firstKey = c.fmt.key a
      ∧ (runRow c p offset run).lastKey = c.fmt.key z := by
  obtain ⟨a, rest, rfl⟩ := List.exists_cons_of_ne_nil hne
  refine ⟨a, List.mem_cons_self, (a :: rest).getLast hne, List.getLast_mem hne, rfl,
    List.getLast?_eq_some_getLast hne, rfl, ?_⟩
  unfold runRow LayerPacking.indexRow
  rw [List.getLast?_eq_some_getLast hne]
  rfl

theorem runRow_fits (hc : c.Lawful) (hp : p.Lawful) (h : Cut c es runs) (hrun : run ∈ runs)
    {offset : Nat} (hoff : offset < 2 ^ 64) : (runRow c p offset run).Fits := by
  obtain ⟨a, ha, z, hz, -, -, hfirst, hlast⟩ : ∃ a ∈ run, ∃ z ∈ run, run.head? = some a
      ∧ run.getLast? = some z ∧ (runRow c p offset run).firstKey = c.fmt.key a
      ∧ (runRow c p offset run).lastKey = c.fmt.key z := runRow_keys (h.ne run hrun)
  have hraw := h.small run hrun
  have hmax : maxBlockRawLen < 2 ^ 32 := by decide
  refine ⟨?_, ?_, hoff, ?_, ?_, ?_, hp.crc_lt _ _, ?_⟩
  · rw [hfirst]
    exact (h.fits a (h.mem hrun ha)).key
  · rw [hlast]
    exact (h.fits z (h.mem hrun hz)).key
  · have hle := length_packed_le (p := p) (runBytes c run)
    change (p.packed (runBytes c run)).2.length < 2 ^ 32
    omega
  · change (runBytes c run).length < 2 ^ 32
    omega
  · have hle := length_le_runBytes hc fun e he => h.checked e (h.mem hrun he)
    change run.length < 2 ^ 32
    omega
  · change (p.packed (runBytes c run)).1 < 2 ^ 8
    rcases packed_cases (p := p) (runBytes c run) with hpk | hpk
    · rw [hpk, layerEncRaw]
      omega
    · rw [hpk, layerEncLz4]
      omega

/-- The bytes of the runs. -/
def storedLen (c : Coding E) (p : LayerPacking) (runs : List (List E)) : Nat :=
  (runs.flatMap (storedRun c p)).length

theorem storedLen_cons (run : List E) (runs : List (List E)) :
    storedLen c p (run :: runs) = (storedRun c p run).length + storedLen c p runs := by
  rw [storedLen, List.flatMap_cons, List.length_append]
  rfl

theorem rowBad_runRow (hc : c.Lawful)
    (h : Cut c es runs) (hrun : run ∈ runs) {offset : Nat} {prev : Option IndexRow}
    (hprev : ∀ q, prev = some q → ∃ z, q.lastKey = c.fmt.key z
      ∧ ∀ e ∈ run, c.fmt.before z e = true) :
    rowBad c.kind offset prev (runRow c p offset run) = false := by
  have hne := h.ne run hrun
  obtain ⟨a, ha, z, hz, hhead, hlast, hfirst, hlastKey⟩ : ∃ a ∈ run, ∃ z ∈ run,
      run.head? = some a ∧ run.getLast? = some z
      ∧ (runRow c p offset run).firstKey = c.fmt.key a
      ∧ (runRow c p offset run).lastKey = c.fmt.key z := runRow_keys hne
  have hsorted : run.Pairwise (c.fmt.before · ·) := by
    have hs := h.sorted
    rw [← h.flatten, List.pairwise_flatten] at hs
    exact hs.1 run hrun
  have hle : c.fmt.key a ≤ c.fmt.key z := by
    obtain ⟨a', rest, rfl⟩ := List.exists_cons_of_ne_nil hne
    obtain rfl : a' = a := Option.some.inj hhead
    rcases List.mem_cons.mp hz with rfl | hz
    · exact le_refl _
    · exact hc.fmt.key_le ((List.pairwise_cons.mp hsorted).1 z hz)
  have hentries : ¬ run.length = 0 := fun h0 => hne (List.eq_nil_of_length_eq_zero h0)
  have hraw := h.small run hrun
  have henc : (runRow c p offset run).enc = layerEncRaw →
      (runRow c p offset run).len = (runRow c p offset run).rawLen := by
    intro henc
    change (p.packed (runBytes c run)).1 = layerEncRaw at henc
    change (p.packed (runBytes c run)).2.length = (runBytes c run).length
    rcases packed_cases (p := p) (runBytes c run) with hpk | hpk
    · rw [hpk]
    · rw [hpk] at henc
      cases henc
  have henc' : (runRow c p offset run).enc = layerEncRaw
      ∨ (runRow c p offset run).enc = layerEncLz4 := by
    change (p.packed (runBytes c run)).1 = layerEncRaw ∨ (p.packed (runBytes c run)).1 = layerEncLz4
    rcases packed_cases (p := p) (runBytes c run) with hpk | hpk
    · exact .inl (by rw [hpk])
    · exact .inr (by rw [hpk])
  have hover : (prev.any fun q => overlaps c.kind q (runRow c p offset run)) = false := by
    cases prev with
    | none => rfl
    | some q =>
      obtain ⟨y, hy, hbefore⟩ := hprev q rfl
      have hb := hbefore a ha
      cases hk : c.kind with
      | image =>
        have hlt := hc.strict hk hb
        simp only [Option.any_some, overlaps, hfirst, hy, decide_eq_false_iff_not, not_le]
        exact hlt
      | delta =>
        have hle := hc.fmt.key_le hb
        simp only [Option.any_some, overlaps, hfirst, hy, decide_eq_false_iff_not, not_lt]
        exact hle
  unfold rowBad
  rw [hover]
  simp only [Bool.or_false, Bool.or_eq_false_iff, decide_eq_false_iff_not, not_and, not_not,
    gt_iff_lt, not_lt, ne_eq]
  refine ⟨⟨⟨⟨⟨rfl, hentries⟩, ?_⟩, hraw⟩, ?_⟩, henc⟩
  · rw [hfirst, hlastKey]
    exact hle
  · intro hno
    exact henc'.resolve_left hno

theorem rowsFrom_runRows (hc : c.Lawful) (hp : p.Lawful) : ∀ {runs : List (List E)} {es : List E}
    {offset : Nat} {prev : Option IndexRow}, Cut c es runs →
    offset + storedLen c p runs < 2 ^ 64 →
    (∀ q, prev = some q → ∃ z, q.lastKey = c.fmt.key z ∧ ∀ e ∈ es, c.fmt.before z e = true) →
    RowsFrom c.kind offset prev (runRows c p offset runs) := by
  intro runs
  induction runs with
  | nil => exact fun _ _ _ => trivial
  | cons run runs ih =>
    intro es offset prev h hlt hprev
    rw [storedLen_cons] at hlt
    have hrun := List.mem_cons_self (a := run) (l := runs)
    have hlen : (runRow c p offset run).len = (storedRun c p run).length := rfl
    refine ⟨runRow_fits hc hp h hrun (by omega), ?_, by rw [hlen]; omega, ?_⟩
    · refine rowBad_runRow hc h hrun fun q hq => ?_
      obtain ⟨z, hz, hb⟩ := hprev q hq
      exact ⟨z, hz, fun e he => hb e (h.mem hrun he)⟩
    · rw [hlen]
      refine ih h.tail (by omega) fun q hq => ?_
      cases hq
      obtain ⟨-, -, z, hz, -, -, -, hlast⟩ : ∃ a ∈ run, ∃ z ∈ run, run.head? = some a
          ∧ run.getLast? = some z ∧ (runRow c p offset run).firstKey = c.fmt.key a
          ∧ (runRow c p offset run).lastKey = c.fmt.key z := runRow_keys (h.ne run hrun)
      refine ⟨z, hlast, fun e he => ?_⟩
      have hs := h.sorted
      rw [← h.flatten, List.flatten_cons, List.pairwise_append] at hs
      exact hs.2.2 z hz e he

theorem runRows_sums : ∀ {runs : List (List E)} {offset : Nat},
    ((runRows c p offset runs).map fun r => r.len).sum = storedLen c p runs
      ∧ ((runRows c p offset runs).map fun r => r.entries).sum = runs.flatten.length
      ∧ (runRows c p offset runs).length = runs.length := by
  intro runs
  induction runs with
  | nil => exact fun {_} => ⟨rfl, rfl, rfl⟩
  | cons run runs ih =>
    intro offset
    obtain ⟨hlen, hentries, hcount⟩ :
      ((runRows c p (offset + (storedRun c p run).length) runs).map fun r => r.len).sum
          = storedLen c p runs
        ∧ ((runRows c p (offset + (storedRun c p run).length) runs).map fun r => r.entries).sum
          = runs.flatten.length
        ∧ (runRows c p (offset + (storedRun c p run).length) runs).length = runs.length := ih
    rw [runRows, List.map_cons, List.sum_cons, List.map_cons, List.sum_cons, List.length_cons,
      hlen, hentries, hcount, storedLen_cons, List.flatten_cons, List.length_append]
    exact ⟨rfl, rfl, rfl⟩

theorem storedLen_le : ∀ {runs : List (List E)}, Cut c es runs →
    storedLen c p runs ≤ runs.length * maxBlockRawLen := by
  intro runs h
  have hsmall := h.small
  clear h
  induction runs with
  | nil => exact Nat.zero_le _
  | cons run runs ih =>
    have hrun := hsmall run List.mem_cons_self
    have hle : (storedRun c p run).length ≤ (runBytes c run).length := length_packed_le _
    have hrest := ih fun r hr => hsmall r (.tail _ hr)
    rw [storedLen_cons, List.length_cons, Nat.add_mul, Nat.one_mul]
    omega

theorem Cut.length_le (hc : c.Lawful) : ∀ {runs : List (List E)} {es : List E}, Cut c es runs →
    es.length ≤ runs.length * maxBlockRawLen := by
  intro runs
  induction runs with
  | nil =>
    intro es h
    rw [← h.flatten]
    exact Nat.zero_le _
  | cons run runs ih =>
    intro es h
    have hrun := List.mem_cons_self (a := run) (l := runs)
    have hle := length_le_runBytes hc fun e he => h.checked e (h.mem hrun he)
    have hsmall := h.small run hrun
    have hrest := ih h.tail
    rw [← h.flatten, List.flatten_cons, List.length_append, List.length_cons, Nat.add_mul,
      Nat.one_mul]
    omega

/-- The rows of an object start and end with the keys of its entries. -/
theorem runRows_ends (hne : runs ≠ []) (hruns : ∀ run ∈ runs, run ≠ [])
    (offset : Nat) : ∃ a ∈ runs.flatten, ∃ z ∈ runs.flatten,
      (runRows c p offset runs).head?.map (fun r => r.firstKey) = some (c.fmt.key a)
        ∧ (runRows c p offset runs).getLast?.map (fun r => r.lastKey) = some (c.fmt.key z) := by
  have hfirst : ∃ a ∈ runs.flatten,
      (runRows c p offset runs).head?.map (fun r => r.firstKey) = some (c.fmt.key a) := by
    obtain ⟨run, rest, rfl⟩ := List.exists_cons_of_ne_nil hne
    obtain ⟨a, ha, -, -, -, -, hkey, -⟩ : ∃ a ∈ run, ∃ z ∈ run, run.head? = some a
        ∧ run.getLast? = some z ∧ (runRow c p offset run).firstKey = c.fmt.key a
        ∧ (runRow c p offset run).lastKey = c.fmt.key z :=
      runRow_keys (hruns run List.mem_cons_self)
    exact ⟨a, List.mem_flatten.mpr ⟨run, List.mem_cons_self, ha⟩, congrArg some hkey⟩
  have hlast : ∀ (runs : List (List E)) (offset : Nat), runs ≠ [] → (∀ run ∈ runs, run ≠ []) →
      ∃ z ∈ runs.flatten,
        (runRows c p offset runs).getLast?.map (fun r => r.lastKey) = some (c.fmt.key z) := by
    intro runs
    induction runs with
    | nil => exact fun _ h _ => absurd rfl h
    | cons run runs ih =>
      intro offset _ hruns
      cases runs with
      | nil =>
        obtain ⟨-, -, z, hz, -, -, -, hkey⟩ : ∃ a ∈ run, ∃ z ∈ run, run.head? = some a
            ∧ run.getLast? = some z ∧ (runRow c p offset run).firstKey = c.fmt.key a
            ∧ (runRow c p offset run).lastKey = c.fmt.key z :=
          runRow_keys (hruns run List.mem_cons_self)
        exact ⟨z, List.mem_flatten.mpr ⟨run, List.mem_cons_self, hz⟩, congrArg some hkey⟩
      | cons run' runs =>
        obtain ⟨z, hz, hkey⟩ := ih (offset + (storedRun c p run).length) (by simp)
          fun r hr => hruns r (.tail _ hr)
        refine ⟨z, ?_, ?_⟩
        · rw [List.flatten_cons]
          exact List.mem_append_right _ hz
        · rw [runRows, List.getLast?_cons_of_ne_nil (by simp [runRows]), hkey]
  obtain ⟨a, ha, hfirst⟩ := hfirst
  obtain ⟨z, hz, hlast⟩ := hlast runs offset hne hruns
  exact ⟨a, ha, z, hz, hfirst, hlast⟩

/-- The length of the footer body of a layer: the fixed fields, a row for
each block, and the filter. -/
def footerLen (c : Coding E) (target : Nat) (es : List E) : Nat :=
  2 * keyEncodedLen + 8 + 8 + 8 + 4 + blockMetaLen * (cutRuns c.fmt target [] 0 es).length + 4
    + max ((max (distinctKeys c.fmt none es).length 1 * 10 + 7) / 8).nextPowerOfTwo bloomMinBytes

theorem Encoded.length_body {target : Nat} {buf : List UInt8} {f : CodedFooter}
    (h : Encoded c p es (cutRuns c.fmt target [] 0 es) buf f) :
    f.body.length = footerLen c target es := by
  have hbloom : f.bloom.bytes.length
      = max ((max (distinctKeys c.fmt none es).length 1 * 10 + 7) / 8).nextPowerOfTwo
        bloomMinBytes := by
    rw [h.footer, Bloom.bytes, (packBits_spec _ _ (Bloom.length_fromHashes _)).1, keyHashes,
      List.length_map]
    rfl
  have hrows : f.blocks.length = (cutRuns c.fmt target [] 0 es).length := by
    rw [h.footer]
    exact runRows_sums.2.2
  rw [CodedFooter.body, footerLen, ← hbloom, ← hrows]
  simp only [List.length_append, LayerKey.length_encode, length_le, length_flatMap_rowBytes]
  rw [Nat.mul_comm]
  omega

theorem Encoded.proper (hc : c.Lawful) (hp : p.Lawful) {buf : List UInt8} {f : CodedFooter}
    (h : Encoded c p es runs buf f) (hcut : Cut c es runs) (hne : es ≠ [])
    (hlen : f.body.length < 2 ^ 32) : f.Proper ∧ layerHeaderLen + (f.blocks.map fun r => r.len).sum
      = layerHeaderLen + storedLen c p runs := by
  have hruns : runs ≠ [] := by
    rintro rfl
    exact hne hcut.flatten.symm
  have hbody : f.blocks.length * blockMetaLen + f.bloom.bytes.length ≤ f.body.length := by
    rw [CodedFooter.body]
    simp only [List.length_append, LayerKey.length_encode, length_le, length_flatMap_rowBytes]
    omega
  have hmeta : f.blocks.length ≤ f.blocks.length * blockMetaLen :=
    Nat.le_mul_of_pos_right _ (by decide)
  obtain ⟨a, ha, z, hz, hfirst, hlast⟩ : ∃ a ∈ runs.flatten, ∃ z ∈ runs.flatten,
      (runRows c p layerHeaderLen runs).head?.map (fun r => r.firstKey) = some (c.fmt.key a)
        ∧ (runRows c p layerHeaderLen runs).getLast?.map (fun r => r.lastKey)
          = some (c.fmt.key z) := runRows_ends hruns hcut.ne layerHeaderLen
  rw [hcut.flatten] at ha hz
  obtain ⟨hsum, hentries, hcount⟩ :
      ((runRows c p layerHeaderLen runs).map fun r => r.len).sum = storedLen c p runs
      ∧ ((runRows c p layerHeaderLen runs).map fun r => r.entries).sum = runs.flatten.length
      ∧ (runRows c p layerHeaderLen runs).length = runs.length := runRows_sums
  have hstored : storedLen c p runs ≤ runs.length * maxBlockRawLen := storedLen_le hcut
  have hblocks : f.blocks = runRows c p layerHeaderLen runs := by rw [h.footer]
  have hbloom : f.bloom = Bloom.fromHashes (keyHashes c p none es) := by rw [h.footer]
  have hkind : f.kind = c.kind := by rw [h.footer]
  have hmin : f.minKey = c.fmt.key a := by
    rw [h.footer]
    rw [hfirst]
    rfl
  have hmax : f.maxKey = c.fmt.key z := by
    rw [h.footer]
    rw [hlast]
    rfl
  have hlo : f.minLsn = (c.fmt.bounds es).1 := by rw [h.footer]
  have hhi : f.maxLsn = (c.fmt.bounds es).2 := by rw [h.footer]
  have htotal : f.entryCount = es.length := by rw [h.footer]
  have hlsn := hc.fmt.bounds_le ha
  have hmaxLsn : (c.fmt.bounds es).2 < 2 ^ 64 := hc.bounds_lt hne fun e he => (hcut.fits e he).lsn
  have hlenEs := hcut.length_le hc
  have hbig : runs.length * maxBlockRawLen < 2 ^ 63 := by
    have hlt : runs.length < 2 ^ 32 := by
      rw [← hcount, ← hblocks]
      omega
    have hcap : maxBlockRawLen < 2 ^ 28 := by decide
    calc runs.length * maxBlockRawLen ≤ 2 ^ 32 * 2 ^ 28 :=
          Nat.mul_le_mul (Nat.le_of_lt hlt) (Nat.le_of_lt hcap)
      _ < 2 ^ 63 := by decide
  have hheader : layerHeaderLen = 8 := rfl
  refine ⟨⟨?_, ?_, ?_, ?_, ?_, ?_, ?_, ?_, ?_, ?_, ?_, ?_, ?_⟩, by rw [hblocks, hsum]⟩
  · rw [hmin]
    exact (hcut.fits a ha).key
  · rw [hmax]
    exact (hcut.fits z hz).key
  · rw [hlo]
    exact Nat.lt_of_le_of_lt (hlsn.1.trans hlsn.2) hmaxLsn
  · rw [hhi]
    exact hmaxLsn
  · rw [hlo, hhi]
    exact hlsn.1.trans hlsn.2
  · rw [htotal]
    omega
  · omega
  · rw [hkind, hblocks]
    exact rowsFrom_runRows hc hp hcut (by omega) nofun
  · rw [hblocks, hfirst, hmin]
  · rw [hblocks, hlast, hmax]
  · rw [hblocks, hentries, hcut.flatten, htotal]
  · omega
  · rw [hbloom]
    exact Bloom.fromBits_bytes _

end Runs

end Zou
