import Zou.Lib.Store
import Zou.Manifest
import Zou.TailScan

/-!
# Page runs and their index

A checkpoint's pages in sorted run objects, with a PAGES index that says
which block lies at which place. The pack goes through the blocks in
order, takes the image of each from `fetch`, and puts a run object each
time a run is full, then the index. Every put is one that keeps what is
there, so that a retried pack finds the runs of an earlier one.

A PAGES text is modelled by its lines. A reader parses it and finds a
block by binary search; the entries are ascending, so that is the place
where the block stands.
-/

namespace Zou

open Store (Prog)

def zouPageSize : Nat := 8192

/-- Pages per run object. -/
def runPages : Nat := 1024

/-- One fork of a relation. -/
structure ForkTag where
  rel : RelTag
  fork : Nat
  deriving DecidableEq, Repr

namespace ForkTag

def toTuple (f : ForkTag) : RelTag ×ₗ Nat := toLex (f.rel, f.fork)

theorem toTuple_injective : Function.Injective toTuple := by
  rintro ⟨⟩ ⟨⟩ h
  simp [toTuple] at h
  simp [h]

instance : LinearOrder ForkTag := LinearOrder.lift' toTuple toTuple_injective

end ForkTag

def BlockRef.tag (r : BlockRef) : RelTag := ⟨r.spc, r.db, r.rel⟩

def BlockRef.forkTag (r : BlockRef) : ForkTag := ⟨r.tag, r.fork⟩

/-! ## Objects -/

/-- The objects of a fold, by the tenant whose prefix they lie under. -/
inductive FoldKey where
  | pageIndex (owner id : String)
  | pages (owner id : String) (run : Nat)
  | pgBlock (owner : String) (r : BlockRef)
  | pgSize (owner : String) (f : ForkTag)
  deriving DecidableEq, Repr

/-- A line of a PAGES text. -/
inductive PagesLine where
  | p (r : BlockRef)
  | r (t : RelTag)
  | t (t : RelTag) (cut : Nat)
  | s (f : ForkTag) (n : Nat)
  deriving DecidableEq, Repr

structure PagesText where
  runs : Nat
  lines : List PagesLine
  deriving DecidableEq, Repr

inductive FoldObj where
  | bytes (b : List UInt8)
  | index (text : PagesText)
  | size (nblocks : Nat)
  deriving DecidableEq, Repr

/-- The bytes of a page or a run object. The other objects are modelled by
what they decode to. -/
def FoldObj.raw : FoldObj → List UInt8
  | .bytes b => b
  | _ => []

inductive FoldError where
  | store
  | fetch
  | badPage (r : BlockRef) (len : Nat)
  | badHeader (id : String)
  | outOfOrder (id : String)
  | noFull
  | noPages (id : String)
  | vanished (r : BlockRef) (id : String)
  | missingRun (id : String) (run : Nat)
  | shortRun (id : String)
  | badSize (f : ForkTag)
  deriving DecidableEq, Repr

abbrev FoldM (α : Type) := Prog FoldKey FoldObj FoldError α

/-! ## The pack -/

/-- The index text so far, the run being filled, the runs put and the pages
packed. -/
structure Packer where
  lines : List PagesLine
  run : List UInt8
  runs : Nat
  pages : Nat
  deriving DecidableEq, Repr

def Packer.new : Packer := ⟨[], [], 0, 0⟩

section

variable (owner id : String)

/-- Put the run being filled, unless it is empty. -/
def flushRun (p : Packer) : FoldM Packer :=
  if p.run = [] then pure p else do
    Store.putOrKeep .store (.pages owner id p.runs) (.bytes p.run)
    pure { p with run := [], runs := p.runs + 1 }

/-- The loop over the blocks. One that `fetch` does not find is skipped. -/
def packRefs (fetch : BlockRef → Except FoldError (Option (List UInt8))) :
    List BlockRef → Packer → FoldM Packer
  | [], p => pure p
  | r :: rs, p => do
      match ← Prog.lift (fetch r) with
      | none => packRefs fetch rs p
      | some data =>
        if data.length ≠ zouPageSize then Prog.throw (.badPage r data.length) else
        let p := { p with
          run := p.run ++ data, pages := p.pages + 1, lines := p.lines ++ [.p r] }
        if p.run.length ≥ runPages * zouPageSize then do
          let p ← flushRun owner id p
          packRefs fetch rs p
        else packRefs fetch rs p

theorem packRefs_cons (fetch : BlockRef → Except FoldError (Option (List UInt8))) (r : BlockRef)
    (rs : List BlockRef) (p : Packer) : packRefs owner id fetch (r :: rs) p = (do
      match ← Prog.lift (fetch r) with
      | none => packRefs owner id fetch rs p
      | some data =>
        if data.length ≠ zouPageSize then Prog.throw (.badPage r data.length) else
        let p := { p with
          run := p.run ++ data, pages := p.pages + 1, lines := p.lines ++ [.p r] }
        if p.run.length ≥ runPages * zouPageSize then do
          let p ← flushRun owner id p
          packRefs owner id fetch rs p
        else packRefs owner id fetch rs p) :=
  rfl

/-- The relation events and fork sizes behind the p lines. -/
def eventLines (rels : List RelTag) (truncs : List (RelTag × Nat))
    (sizes : List (ForkTag × Nat)) : List PagesLine :=
  rels.map .r ++ truncs.map (fun t => .t t.1 t.2) ++ sizes.map fun s => .s s.1 s.2

/-- `pack_page_runs`, with the pages and runs it packed. -/
def packPageRuns (refs : List BlockRef) (rels : List RelTag) (truncs : List (RelTag × Nat))
    (sizes : List (ForkTag × Nat))
    (fetch : BlockRef → Except FoldError (Option (List UInt8))) : FoldM (Nat × Nat) := do
  match ← Store.read .store fun objs => Store.get objs (.pageIndex owner id) with
  | some _ => pure (0, 0)
  | none => do
      let p ← packRefs owner id fetch refs Packer.new
      let p ← flushRun owner id p
      Store.putOrKeep .store (.pageIndex owner id)
        (.index ⟨runPages, p.lines ++ eventLines rels truncs sizes⟩)
      pure (p.pages, p.runs)

end

/-! ## The index of a reader -/

/-- The parsed PAGES index of one checkpoint and the tenant whose prefix
holds its objects. -/
structure ChkIndex where
  id : String
  owner : String
  runPages : Nat
  entries : List BlockRef
  rels : Finset RelTag
  truncs : OrdMap RelTag Nat
  sizes : OrdMap ForkTag Nat

namespace ChkIndex

def addLine (c : ChkIndex) : PagesLine → ChkIndex
  | .p r => { c with entries := c.entries ++ [r] }
  | .r t => { c with rels := insert t c.rels }
  | .t t cut => { c with truncs := c.truncs.insert t cut }
  | .s f n => { c with sizes := c.sizes.insert f n }

def parse (id owner : String) (text : PagesText) : Except FoldError ChkIndex :=
  if text.runs = 0 then .error (.badHeader id) else
  let c := text.lines.foldl addLine ⟨id, owner, text.runs, [], ∅, OrdMap.empty, OrdMap.empty⟩
  if c.entries.Pairwise (· ≤ ·) then .ok c else .error (.outOfOrder id)

/-- Which run object holds the block and at what byte offset. -/
def lookup (c : ChkIndex) (r : BlockRef) : Option (Nat × Nat) :=
  (c.entries.findIdx? (· = r)).map fun i => (i / c.runPages, i % c.runPages * zouPageSize)

end ChkIndex

end Zou
