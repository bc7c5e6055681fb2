import Zou.PageRuns

/-!
# The full capture of a branch and the reads it replaces

A branch reads a page from its own `pg/` prefix, or else from the chain of
checkpoint indexes it inherits: newest first, up to an index that names
the block, or to an event that makes older copies of it stale. A file
recreation kills every older block of the relation, a truncate kills the
main fork from its cutoff on and every other fork. The tail of the stream
past the newest checkpoint masks by the same rules.

`pack_merged_full` packs the union of the two into one full capture. It
goes through the chain newest first with sets of what is seen and masked,
where a read walks it for one block.
-/

namespace Zou

open Store (Prog)

/-- INIT_FORKNUM. A relation with one is unlogged. -/
def initFork : Nat := 3

/-! ## The read path -/

namespace ChkIndex

/-- Whether an index names the block. -/
def has (c : ChkIndex) (r : BlockRef) : Bool := (c.lookup r).isSome

/-- Whether an event of an index makes older copies of the block stale. -/
def stops (c : ChkIndex) (r : BlockRef) : Bool :=
  (match c.truncs.get? r.tag with
    | some cut => decide (r.fork ≠ 0 ∨ r.blk ≥ cut)
    | none => false)
    || decide (r.tag ∈ c.rels)

/-- The page of a block the index names, out of its run object. -/
def page (c : ChkIndex) (objs : List (FoldKey × FoldObj)) (r : BlockRef) :
    Except FoldError (List UInt8) :=
  match c.lookup r with
  | none => .error (.vanished r c.id)
  | some (run, off) =>
    match Store.get objs (.pages c.owner c.id run) with
    | some obj =>
      if off + zouPageSize > obj.raw.length then .error (.shortRun c.id)
      else .ok ((obj.raw.drop off).take zouPageSize)
    | none => .error (.missingRun c.id run)

end ChkIndex

/-- A chain of indexes, newest first, and the events of the tail. -/
structure ChainReader where
  chain : List ChkIndex
  tail : DirtySets

namespace ChainReader

/-- The newest index that names the block, unless an event stops the walk
before it. -/
def hit (r : BlockRef) : List ChkIndex → Option ChkIndex
  | [] => none
  | c :: cs => if c.has r then some c else if c.stops r then none else hit r cs

/-- Whether the tail dirtied the block or made the chain's copies of it
stale. -/
def masks (d : DirtySets) (r : BlockRef) : Bool :=
  decide (r ∈ d.dirty ∨ r.tag ∈ d.rels)
    || match d.truncs.get? r.tag with
      | some cut => decide (r.fork ≠ 0 ∨ r.blk ≥ cut)
      | none => false

/-- `read`, the barrier behind it: the page, or nothing. -/
def read (rd : ChainReader) (objs : List (FoldKey × FoldObj)) (r : BlockRef) :
    Option (List UInt8) :=
  match hit r rd.chain with
  | none => none
  | some c => if masks rd.tail r then none else (c.page objs r).toOption

/-- `fork_size`: the newest index with a size of the fork answers, a
truncate answers for the main fork, and an event ends the walk. -/
def forkSize (f : ForkTag) : List ChkIndex → Option Nat
  | [] => none
  | c :: cs =>
    match c.sizes.get? f with
    | some n => some n
    | none =>
      match c.truncs.get? f.rel with
      | some cut =>
        if f.fork ≠ 0 then none
        else if cut ≠ u32Max then some cut
        else if f.rel ∈ c.rels then none else forkSize f cs
      | none => if f.rel ∈ c.rels then none else forkSize f cs

end ChainReader

/-- The tenant's own page object. -/
def ownPage (objs : List (FoldKey × FoldObj)) (owner : String) (r : BlockRef) :
    Option (List UInt8) := (Store.get objs (.pgBlock owner r)).map FoldObj.raw

/-- The tenant's own SIZE object. -/
def ownSize (objs : List (FoldKey × FoldObj)) (owner : String) (f : ForkTag) : Option Nat :=
  match Store.get objs (.pgSize owner f) with
  | some (.size n) => some n
  | _ => none

/-- The object read path of a branch for a page: its own, or the chain's. -/
def objectRead (objs : List (FoldKey × FoldObj)) (owner : String) (rd : ChainReader)
    (r : BlockRef) : Option (List UInt8) :=
  match ownPage objs owner r with
  | some page => some page
  | none => rd.read objs r

/-- The object read path of a branch for a fork size. -/
def objectSize (objs : List (FoldKey × FoldObj)) (owner : String) (chain : List ChkIndex)
    (f : ForkTag) : Option Nat :=
  match ownSize objs owner f with
  | some n => some n
  | none => ChainReader.forkSize f chain

/-! ## The listing of the own prefix -/

/-- What a listing of the `pg/` prefix has shown so far. -/
structure PgList where
  refs : List BlockRef
  sizes : List (ForkTag × Nat)
  unlogged : Finset RelTag

def noteInit (l : PgList) (f : ForkTag) : PgList :=
  if f.fork = initFork then { l with unlogged := insert f.rel l.unlogged } else l

/-- The keys under a tenant's `pg/` prefix. -/
def pgKeys (owner : String) (objs : List (FoldKey × FoldObj)) : List FoldKey :=
  (objs.map Prod.fst).dedup.filter fun
    | .pgBlock o _ | .pgSize o _ => o = owner
    | _ => false

def getFold (k : FoldKey) : FoldM (Option FoldObj) := Store.read .store fun objs => Store.get objs k

def allPagesLoop : List FoldKey → PgList → FoldM PgList
  | [], l => pure l
  | .pgBlock _ r :: ks, l =>
    let l := noteInit l r.forkTag
    allPagesLoop ks { l with refs := l.refs ++ [r] }
  | .pgSize o f :: ks, l => do
      let l := noteInit l f
      match ← getFold (.pgSize o f) with
      | none => allPagesLoop ks l
      | some (.size n) => allPagesLoop ks { l with sizes := l.sizes ++ [(f, n)] }
      | some _ => Prog.throw (.badSize f)
  | _ :: ks, l => allPagesLoop ks l

/-- `all_pages`: every page and fork size of the prefix, without the pages
of unlogged relations. -/
def allPages (owner : String) : FoldM (List BlockRef × List (ForkTag × Nat)) := do
  let keys ← Store.read .store (pgKeys owner)
  let l ← allPagesLoop keys ⟨[], [], ∅⟩
  pure ((l.refs.filter fun r => r.tag ∉ l.unlogged).insertionSort (· ≤ ·), l.sizes)

/-! ## The merge -/

/-- The sets of the walk over the chain. -/
structure Merge where
  sizes : OrdMap ForkTag Nat
  seen : Finset BlockRef
  masked : Finset RelTag
  cuts : OrdMap RelTag Nat
  picked : List (BlockRef × Nat)

namespace Merge

/-- The value already there stays. -/
def orInsert (m : OrdMap ForkTag Nat) (f : ForkTag) (n : Nat) : OrdMap ForkTag Nat :=
  match m.get? f with
  | some _ => m
  | none => m.insert f n

/-- Whether an event of a newer index makes the block stale. -/
def dead (m : Merge) (r : BlockRef) : Bool :=
  decide (r.tag ∈ m.masked)
    || match m.cuts.get? r.tag with
      | some cut => decide (r.fork ≠ 0 ∨ r.blk ≥ cut)
      | none => false

def addEntry (i : Nat) (m : Merge) (r : BlockRef) : Merge :=
  if m.dead r ∨ r ∈ m.seen then m
  else { m with seen := insert r m.seen, picked := m.picked ++ [(r, i)] }

def addSize (m : Merge) (s : ForkTag × Nat) : Merge :=
  if s.1.rel ∈ m.masked ∨ (s.1.fork ≠ 0 ∧ (m.cuts.get? s.1.rel).isSome) then m
  else { m with sizes := orInsert m.sizes s.1 s.2 }

def addTrunc (m : Merge) (t : RelTag × Nat) : Merge :=
  let m := if t.2 ≠ u32Max ∧ t.1 ∉ m.masked then
    { m with sizes := orInsert m.sizes ⟨t.1, 0⟩ t.2 } else m
  { m with cuts := m.cuts.lower t.1 t.2 }

/-- One index: its entries, its sizes, then its events, so that its own
events do not mask its own entries. -/
def addIndex (i : Nat) (m : Merge) (c : ChkIndex) : Merge :=
  let m := c.entries.foldl (addEntry i) m
  let m := c.sizes.entries.foldl addSize m
  let m := c.truncs.entries.foldl addTrunc m
  { m with masked := m.masked ∪ c.rels }

def addChain : Nat → List ChkIndex → Merge → Merge
  | _, [], m => m
  | i, c :: cs, m => addChain (i + 1) cs (addIndex i m c)

def start (ownRefs : List BlockRef) (ownSizes : List (ForkTag × Nat)) : Merge where
  sizes := ownSizes.foldl (fun m s => m.insert s.1 s.2) OrdMap.empty
  seen := ownRefs.toFinset
  masked := ∅
  cuts := OrdMap.empty
  picked := []

/-- The picked blocks below the size of their fork. -/
def kept (m : Merge) : List (BlockRef × Nat) :=
  m.picked.filter fun p => match m.sizes.get? p.1.forkTag with
    | some n => decide (p.1.blk < n)
    | none => true

end Merge

/-- The indexes of the newest full and of every checkpoint after it, newest
first. -/
def loadChain (own : String) : List CheckpointRef → FoldM (List ChkIndex)
  | [] => pure []
  | c :: cs => do
      let owner := c.owner.getD own
      match ← getFold (.pageIndex owner c.id) with
      | some (.index text) => do
          let chk ← Prog.lift (ChkIndex.parse c.id owner text)
          let rest ← loadChain own cs
          pure (chk :: rest)
      | _ => Prog.throw (.noPages c.id)

/-- The checkpoints from the newest full on, newest first. -/
def fromFull : List CheckpointRef → Option (List CheckpointRef)
  | [] => none
  | c :: cs =>
    match fromFull cs with
    | some rest => some rest
    | none => if c.kind = .full then some (c :: cs).reverse else none

/-- The image source of the merged full. -/
def mergedFetch (objs : List (FoldKey × FoldObj)) (owner : String) (chain : List ChkIndex)
    (kept : List (BlockRef × Nat)) (r : BlockRef) : Except FoldError (Option (List UInt8)) :=
  match kept.lookup r with
  | none => .ok (ownPage objs owner r)
  | some i =>
    match chain[i]? with
    | some c => (c.page objs r).map some
    | none => .error .fetch

/-- `pack_merged_full`. -/
def packMergedFull (owner id : String) (checkpoints : List CheckpointRef) : FoldM (Nat × Nat) := do
  let (ownRefs, ownSizes) ← allPages owner
  match fromFull checkpoints with
  | none => Prog.throw .noFull
  | some refs => do
      let chain ← loadChain owner refs
      let m := Merge.addChain 0 chain (Merge.start ownRefs ownSizes)
      let refs := (ownRefs ++ m.kept.map Prod.fst).insertionSort (· ≤ ·)
      let objs ← Store.read .store fun objs => objs
      packPageRuns owner id refs [] [] m.sizes.entries (mergedFetch objs owner chain m.kept)

end Zou
