import Mathlib.Data.Prod.Lex
import Zou.Manifest

/-!
# The page shard manifest

Which layers a shard serves and how far its ingest has flushed. A layer's
name is its coverage, so a name is modelled by what it parses to: a delta
with inclusive key and lsn bounds, an image with inclusive key bounds and
one lsn, or a string that parses to neither. `LayerDesc` is the parsed
entry with the tags the manifest keeps next to the name.

The three commits of a shard (`publishLayer`, `advanceConsistent`,
`swapLayers`) are a read, an edit and a conditional put that starts over on
a conflict; here they are their edits.
-/

namespace Zou

/-! ## Keys -/

/-- One addressable thing of the page keyspace. The field order is the
total order of the keyspace. -/
structure LayerKey where
  kind : Nat
  spc : Nat
  db : Nat
  rel : Nat
  fork : Nat
  block : Nat
  deriving DecidableEq, Repr

namespace LayerKey

def page (spc db rel fork block : Nat) : LayerKey := ⟨0, spc, db, rel, fork, block⟩

def relsize (spc db rel fork : Nat) : LayerKey := ⟨1, spc, db, rel, fork, 0⟩

def toTuple (k : LayerKey) : Nat ×ₗ Nat ×ₗ Nat ×ₗ Nat ×ₗ Nat ×ₗ Nat :=
  toLex (k.kind, toLex (k.spc, toLex (k.db, toLex (k.rel, toLex (k.fork, k.block)))))

theorem toTuple_injective : Function.Injective toTuple := by
  rintro ⟨⟩ ⟨⟩ h
  simp [toTuple] at h
  simp [h]

instance : LinearOrder LayerKey := LinearOrder.lift' toTuple toTuple_injective

end LayerKey

/-! ## Names and entries -/

inductive LayerKind where
  | delta
  | image
  deriving DecidableEq, Repr

inductive LayerName where
  | delta (minKey maxKey : LayerKey) (minLsn maxLsn : Lsn)
  | image (minKey maxKey : LayerKey) (lsn : Lsn)
  | malformed (text : String)
  deriving DecidableEq, Repr

structure LayerEntry where
  name : LayerName
  size : Nat
  owner : Option String
  upto : Option Lsn
  deriving DecidableEq, Repr

structure LayerDesc where
  kind : LayerKind
  minKey : LayerKey
  maxKey : LayerKey
  minLsn : Lsn
  maxLsn : Lsn
  size : Nat
  owner : Option String
  upto : Option Lsn
  home : Option Nat
  deriving DecidableEq, Repr

inductive PageShardError where
  | formatTooNew (found : Nat)
  | json
  | store
  | name (text : String)
  deriving DecidableEq, Repr

namespace LayerDesc

def delta (minKey maxKey : LayerKey) (minLsn maxLsn : Lsn) : LayerDesc :=
  ⟨.delta, minKey, maxKey, minLsn, maxLsn, 0, none, none, none⟩

def image (minKey maxKey : LayerKey) (lsn : Lsn) : LayerDesc :=
  ⟨.image, minKey, maxKey, lsn, lsn, 0, none, none, none⟩

def covers (d : LayerDesc) (key : LayerKey) : Bool := d.minKey ≤ key && key ≤ d.maxKey

/-- The newest lsn this layer may serve for a read at `lsn`. -/
def clamp (d : LayerDesc) (lsn : Lsn) : Lsn := d.upto.elim lsn (min · lsn)

def name (d : LayerDesc) : LayerName :=
  match d.kind with
  | .delta => .delta d.minKey d.maxKey d.minLsn d.maxLsn
  | .image => .image d.minKey d.maxKey d.minLsn

def parse (n : LayerName) (size : Nat) : Except PageShardError LayerDesc :=
  match n with
  | .delta minKey maxKey minLsn maxLsn => .ok { delta minKey maxKey minLsn maxLsn with size := size }
  | .image minKey maxKey lsn => .ok { image minKey maxKey lsn with size := size }
  | .malformed text => .error (.name text)

end LayerDesc

/-! ## The manifest -/

/-- Newest shard manifest format this code reads. -/
def pageShardFormat : Nat := 2

structure PageShardManifest where
  format : Nat
  shard : Nat
  diskConsistentLsn : Lsn
  layers : List LayerEntry
  covers : Option Nat
  horizon : Option Lsn
  deriving DecidableEq, Repr

namespace PageShardManifest

def new (shard : Nat) : PageShardManifest := ⟨1, shard, 0, [], none, none⟩

/-- The merge rule of every commit: an entry whose name is listed is not
listed twice. -/
def list (m : PageShardManifest) (e : LayerEntry) : PageShardManifest :=
  if m.layers.any (·.name = e.name) then m else { m with layers := m.layers ++ [e] }

/-- The edit of `publish_layer`. -/
def publishLayer (m : PageShardManifest) (e : LayerEntry) (upto : Lsn) : PageShardManifest :=
  { m.list e with diskConsistentLsn := max m.diskConsistentLsn upto }

/-- The edit of `advance_consistent`. -/
def advanceConsistent (m : PageShardManifest) (lsn : Lsn) : PageShardManifest :=
  { m with diskConsistentLsn := max m.diskConsistentLsn lsn }

/-- The edit of `swap_layers`: retire, add, and stamp the coverage claim
and the horizon when given. -/
def swapLayers (m : PageShardManifest) (retire : List LayerName) (add : List LayerEntry)
    (covers : Option Nat) (horizon : Option Lsn) : PageShardManifest :=
  let kept := { m with layers := m.layers.filter fun l => ¬ l.name ∈ retire }
  let added := add.foldl list kept
  { added with
    covers := covers.orElse fun _ => m.covers
    horizon := match horizon with
      | none => m.horizon
      | some at_ => some (m.horizon.elim at_ (max · at_)) }

/-- The entries of a list that a commit lists where `names` are listed. -/
def newly (names : List LayerName) : List LayerEntry → List LayerEntry
  | [] => []
  | e :: es => if e.name ∈ names then newly names es else e :: newly (e.name :: names) es

theorem newly_congr {es : List LayerEntry} : ∀ {names names' : List LayerName},
    (∀ x, x ∈ names ↔ x ∈ names') → newly names es = newly names' es := by
  induction es with
  | nil => exact fun _ => rfl
  | cons e es ih =>
    intro names names' h
    have hcons : ∀ x, x ∈ e.name :: names ↔ x ∈ e.name :: names' := by
      intro x
      rw [List.mem_cons, List.mem_cons, h]
    rw [newly, newly, ih h, ih hcons]
    simp only [h e.name]

theorem list_eq (m : PageShardManifest) (e : LayerEntry) :
    m.list e = { m with layers := m.layers ++ newly (m.layers.map LayerEntry.name) [e] } := by
  have hany : (m.layers.any (·.name = e.name)) = true ↔ e.name ∈ m.layers.map LayerEntry.name := by
    simp
  by_cases h : e.name ∈ m.layers.map LayerEntry.name
  · rw [list, if_pos (hany.mpr h), newly, if_pos h, newly, List.append_nil]
  · rw [list, if_neg (fun hc => h (hany.mp hc)), newly, if_neg h, newly]

/-- A commit touches the layers of a manifest and adds to them at the end. -/
theorem foldl_list (es : List LayerEntry) : ∀ m : PageShardManifest,
    es.foldl list m = { m with layers := m.layers ++ newly (m.layers.map LayerEntry.name) es } := by
  induction es with
  | nil =>
    intro m
    rw [List.foldl_nil, newly, List.append_nil]
  | cons e es ih =>
    intro m
    rw [List.foldl_cons, ih, list_eq]
    by_cases h : e.name ∈ m.layers.map LayerEntry.name
    · simp only [newly, if_pos h, List.append_nil]
    · simp only [newly, if_neg h, List.append_assoc, List.singleton_append, List.map_append,
        List.map_cons, List.map_nil]
      have hnames : newly (m.layers.map LayerEntry.name ++ [e.name]) es
          = newly (e.name :: m.layers.map LayerEntry.name) es := by
        refine newly_congr fun x => ?_
        rw [List.mem_append, List.mem_singleton, List.mem_cons, or_comm]
      rw [hnames]

theorem swapLayers_eq (m : PageShardManifest) (retire : List LayerName) (add : List LayerEntry)
    (covers : Option Nat) (horizon : Option Lsn) : m.swapLayers retire add covers horizon =
      let kept := m.layers.filter fun l => ¬ l.name ∈ retire
      { m with
        layers := kept ++ newly (kept.map LayerEntry.name) add
        covers := covers.orElse fun _ => m.covers
        horizon := match horizon with
          | none => m.horizon
          | some at_ => some (m.horizon.elim at_ (max · at_)) } := by
  unfold swapLayers
  dsimp only
  rw [foldl_list]

end PageShardManifest

/-- `LayerDesc::parse` of a manifest entry with the tags it carries. -/
def LayerEntry.desc (e : LayerEntry) : Except PageShardError LayerDesc := do
  let d ← LayerDesc.parse e.name e.size
  pure { d with owner := e.owner, upto := e.upto }

end Zou
