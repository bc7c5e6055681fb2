import Zou.Lib.BlockIndex
import Zou.Memtable
import Zou.Shards

/-!
# Layer objects

An immutable object of the page store: blocks of sorted entries and a
footer with an index row for each block and a bloom filter over the keys.
A delta layer holds records by key and lsn, an image layer holds pages by
key at one lsn.

A stored block is modelled by its index row and its entries. A row has the
crc of the stored bytes, so bytes that belong to another row do not decode
under this one; here that is equality of rows. `stored` stands for the
length of a block as stored, compressed or not, and `crc` for
`crc32c_append` of the crc library.
-/

namespace Zou

structure ImageEntry where
  key : LayerKey
  page : List UInt8
  deriving DecidableEq, Repr

/-- Uncompressed bytes a block aims for. -/
def layerBlockTarget : Nat := 256 * 1024

def pageImageLen : Nat := 8192

def maxRecordLen : Nat := 64 * 1024 * 1024

def layerHeaderLen : Nat := 8

def keyEncodedLen : Nat := 18

def entryFixedLen : Nat := keyEncodedLen + 8 + 4

def maxBlockRawLen : Nat := layerBlockTarget + maxRecordLen + entryFixedLen

def u64Max : Nat := 2 ^ 64 - 1

def LayerKey.encode (k : LayerKey) : List UInt8 :=
  UInt8.ofNat k.kind :: toLe32 k.spc ++ toLe32 k.db ++ toLe32 k.rel
    ++ UInt8.ofNat k.fork :: toLe32 k.block

inductive LayerBuildError where
  | empty
  | unsorted
  | badPageLen (len : Nat)
  | recordTooLarge
  deriving DecidableEq, Repr

/-! ## The filter -/

structure Bloom where
  bits : List Bool
  deriving DecidableEq, Repr

namespace Bloom

/-- The finalizer of splitmix64. -/
def mix (z : UInt64) : UInt64 :=
  let z := (z ^^^ (z >>> 30)) * 0xbf58476d1ce4e5b9
  let z := (z ^^^ (z >>> 27)) * 0x94d049bb133111eb
  z ^^^ (z >>> 31)

/-- The pair a key hashes to. -/
def hash (crc : Nat → List UInt8 → Nat) (key : LayerKey) : UInt64 × UInt64 :=
  (mix (UInt64.ofNat (crc 0 key.encode)), mix (UInt64.ofNat (crc 0x5EED key.encode)) ||| 1)

/-- Where one key's seven probes land in a filter of `bits` bits. -/
def probes (h : UInt64 × UInt64) (bits : Nat) : List Nat :=
  (List.range 7).map fun i => (h.1 + UInt64.ofNat i * h.2).toNat % bits

/-- About ten bits a key, a power of two bytes and at least 64. -/
def sizedFor (keys : Nat) : Bloom :=
  ⟨List.replicate (8 * max ((keys * 10 + 7) / 8).nextPowerOfTwo 64) false⟩

def fromHashes (hashes : List (UInt64 × UInt64)) : Bloom :=
  let bloom := sizedFor (max hashes.length 1)
  ⟨(hashes.flatMap fun h => probes h bloom.bits.length).foldl (fun bits p => bits.set p true)
    bloom.bits⟩

def mayContain (b : Bloom) (h : UInt64 × UInt64) : Bool :=
  (probes h b.bits.length).all fun p => b.bits.getD p false

theorem length_sets (ps : List Nat) (bits : List Bool) :
    (ps.foldl (fun bits p => bits.set p true) bits).length = bits.length := by
  induction ps generalizing bits with
  | nil => rfl
  | cons p ps ih => rw [List.foldl_cons, ih, List.length_set]

theorem getD_sets {ps : List Nat} {p : Nat} :
    ∀ {bits : List Bool}, p < bits.length → (p ∈ ps ∨ bits.getD p false = true) →
      (ps.foldl (fun bits p => bits.set p true) bits).getD p false = true := by
  induction ps with
  | nil =>
    rintro bits _ (h | h)
    · cases h
    · exact h
  | cons q ps ih =>
    intro bits hp h
    rw [List.foldl_cons]
    refine ih (by rw [List.length_set]; exact hp) ?_
    by_cases hq : q = p
    · right
      subst hq
      simp [List.getD, hp]
    · rcases h with h | h
      · rcases List.mem_cons.mp h with rfl | h
        · exact absurd rfl hq
        · exact .inl h
      · right
        rw [← h]
        simp [List.getD, List.getElem?_set_ne hq]

/-- A filter has no false negatives. -/
theorem mayContain_fromHashes {hashes : List (UInt64 × UInt64)} {h : UInt64 × UInt64}
    (hmem : h ∈ hashes) : (fromHashes hashes).mayContain h = true := by
  unfold mayContain
  rw [List.all_eq_true]
  intro p hp
  have hlen : (fromHashes hashes).bits.length = (sizedFor (max hashes.length 1)).bits.length :=
    length_sets _ _
  rw [hlen] at hp
  have hbits : 0 < (sizedFor (max hashes.length 1)).bits.length := by
    simp only [sizedFor, List.length_replicate]
    omega
  have hlt : p < (sizedFor (max hashes.length 1)).bits.length := by
    obtain ⟨i, -, rfl⟩ := List.mem_map.mp hp
    exact Nat.mod_lt _ hbits
  exact getD_sets hlt (.inl (List.mem_flatMap.mpr ⟨h, hmem, hp⟩))

end Bloom

/-! ## Blocks -/

/-- One index row. -/
structure LayerBlock where
  firstKey : LayerKey
  lastKey : LayerKey
  offset : Nat
  len : Nat
  rawLen : Nat
  entries : Nat
  deriving DecidableEq, Repr

inductive BlockBody where
  | delta (es : List DeltaEntry)
  | image (es : List ImageEntry)
  deriving DecidableEq, Repr

structure StoredBlock where
  row : LayerBlock
  body : BlockBody
  deriving DecidableEq, Repr

structure LayerFooter where
  kind : LayerKind
  minKey : LayerKey
  maxKey : LayerKey
  minLsn : Lsn
  maxLsn : Lsn
  entryCount : Nat
  blocks : List LayerBlock
  bloom : Bloom
  deriving DecidableEq, Repr

structure LayerObj where
  footer : LayerFooter
  blocks : List StoredBlock
  size : Nat
  deriving DecidableEq, Repr

/-- The stored block a byte range names. -/
def LayerObj.blockAt (o : LayerObj) (offset len : Nat) : Option StoredBlock :=
  o.blocks.find? fun b => b.row.offset = offset ∧ b.row.len = len

inductive LayerDecodeError where
  | corrupt
  deriving DecidableEq, Repr

namespace LayerFooter

def mayContain (crc : Nat → List UInt8 → Nat) (f : LayerFooter) (key : LayerKey) : Bool :=
  f.bloom.mayContain (Bloom.hash crc key)

/-- The run of blocks whose key ranges cover `key`. -/
def locate (f : LayerFooter) (key : LayerKey) : List LayerBlock :=
  BlockIndex.locate LayerBlock.firstKey LayerBlock.lastKey f.blocks key

end LayerFooter

/-- The check of a fetched block against its index row. -/
def blockRaw (b : StoredBlock) (row : LayerBlock) : Except LayerDecodeError BlockBody :=
  if b.row ≠ row ∨ row.rawLen > maxBlockRawLen then .error .corrupt else .ok b.body

def decodeDeltaBlock (b : StoredBlock) (row : LayerBlock) :
    Except LayerDecodeError (List DeltaEntry) :=
  match blockRaw b row with
  | .ok (.delta es) =>
    if es.head?.map DeltaEntry.key = some row.firstKey
        ∧ es.getLast?.map DeltaEntry.key = some row.lastKey then .ok es
    else .error .corrupt
  | _ => .error .corrupt

def decodeImageBlock (b : StoredBlock) (row : LayerBlock) :
    Except LayerDecodeError (List ImageEntry) :=
  match blockRaw b row with
  | .ok (.image es) =>
    if es.head?.map ImageEntry.key = some row.firstKey
        ∧ es.getLast?.map ImageEntry.key = some row.lastKey then .ok es
    else .error .corrupt
  | _ => .error .corrupt

/-! ## Building -/

/-- What the two encoders differ in: the lsn bounds of a layer, the order
entries must come in, the check of one entry, its raw length, and the
body of a block. -/
structure EntryFormat (E : Type) where
  key : E → LayerKey
  lsn : E → Lsn
  bounds : List E → Lsn × Lsn
  before : E → E → Bool
  check : E → Except LayerBuildError Unit
  size : E → Nat
  body : List E → BlockBody

def deltaFormat : EntryFormat DeltaEntry where
  key := DeltaEntry.key
  lsn := DeltaEntry.lsn
  bounds es := (es.foldl (fun m e => min m e.lsn) u64Max, es.foldl (fun m e => max m e.lsn) 0)
  before a b := toLex (a.key, a.lsn) < toLex (b.key, b.lsn)
  check e := if e.record.length > maxRecordLen then .error .recordTooLarge else .ok ()
  size e := entryFixedLen + e.record.length
  body := BlockBody.delta

def imageFormat (lsn : Lsn) : EntryFormat ImageEntry where
  key := ImageEntry.key
  lsn _ := lsn
  bounds _ := (lsn, lsn)
  before a b := a.key < b.key
  check e := if e.page.length ≠ pageImageLen then .error (.badPageLen e.page.length) else .ok ()
  size _ := keyEncodedLen + pageImageLen
  body := BlockBody.image

section Build

variable {E : Type} (fmt : EntryFormat E) (stored : BlockBody → Nat)
  (crc : Nat → List UInt8 → Nat)

/-- The checks of the pushes, in order. -/
def validate : Option E → List E → Except LayerBuildError Unit
  | _, [] => .ok ()
  | last, e :: es =>
    if last.any fun p => ! fmt.before p e then .error .unsorted else
    match fmt.check e with
    | .error err => .error err
    | .ok () => validate (some e) es

/-- Cut the entries into runs: a run is closed when the next entry would
take it over the target. -/
def cutRuns (target : Nat) : List E → Nat → List E → List (List E)
  | cur, _, [] => [cur]
  | cur, raw, e :: es =>
    if cur ≠ [] ∧ raw + fmt.size e > target then
      cur :: cutRuns target [e] (fmt.size e) es
    else cutRuns target (cur ++ [e]) (raw + fmt.size e) es

def blockRow (offset : Nat) (run : List E) : LayerBlock where
  firstKey := (run.head?.map fmt.key).getD (LayerKey.page 0 0 0 0 0)
  lastKey := (run.getLast?.map fmt.key).getD (LayerKey.page 0 0 0 0 0)
  offset := offset
  len := stored (fmt.body run)
  rawLen := (run.map fmt.size).sum
  entries := run.length

/-- Lay the runs out one behind the other. -/
def layout : Nat → List (List E) → List StoredBlock
  | _, [] => []
  | offset, run :: runs =>
    ⟨blockRow fmt stored offset run, fmt.body run⟩
      :: layout (offset + stored (fmt.body run)) runs

/-- The keys of the entries, a key that repeats taken once. -/
def distinctKeys : Option LayerKey → List E → List LayerKey
  | _, [] => []
  | last, e :: es =>
    if last = some (fmt.key e) then distinctKeys last es
    else fmt.key e :: distinctKeys (some (fmt.key e)) es

def buildLayer (kind : LayerKind) (target : Nat) (entries : List E) :
    Except LayerBuildError LayerObj := do
  validate fmt none entries
  if entries.isEmpty then throw .empty
  let blocks := layout fmt stored layerHeaderLen (cutRuns fmt target [] 0 entries)
  let bloom := Bloom.fromHashes ((distinctKeys fmt none entries).map (Bloom.hash crc))
  let rows := blocks.map StoredBlock.row
  let footer : LayerFooter := {
    kind := kind
    minKey := (rows.head?.map LayerBlock.firstKey).getD (LayerKey.page 0 0 0 0 0)
    maxKey := (rows.getLast?.map LayerBlock.lastKey).getD (LayerKey.page 0 0 0 0 0)
    minLsn := (fmt.bounds entries).1
    maxLsn := (fmt.bounds entries).2
    entryCount := entries.length
    blocks := rows
    bloom := bloom }
  -- The footer body, its fixed fields and a row of 61 bytes a block, and the tail.
  let footerLen := 2 * keyEncodedLen + 28 + 61 * rows.length + 4 + bloom.bits.length / 8
  pure ⟨footer, blocks, layerHeaderLen + (rows.map LayerBlock.len).sum + footerLen + 12⟩

end Build

def buildDelta (stored : BlockBody → Nat) (crc : Nat → List UInt8 → Nat) (entries : List DeltaEntry)
    (target : Nat) : Except LayerBuildError LayerObj :=
  buildLayer deltaFormat stored crc .delta target entries

def buildImage (stored : BlockBody → Nat) (crc : Nat → List UInt8 → Nat) (entries : List ImageEntry)
    (lsn : Lsn) (target : Nat) : Except LayerBuildError LayerObj :=
  buildLayer (imageFormat lsn) stored crc .image target entries

/-- The descriptor a footer describes. -/
def LayerDesc.fromFooter (f : LayerFooter) (size : Nat) : LayerDesc :=
  ⟨f.kind, f.minKey, f.maxKey, f.minLsn, f.maxLsn, size, none, none, none⟩

end Zou
