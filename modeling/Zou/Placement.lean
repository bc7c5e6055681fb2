import Mathlib.Algebra.Order.Ring.Nat
import Zou.Lib.Cell
import Zou.Lib.Trace

/-!
# The placement map

One versioned object says which page node serves which tenant shard.
Any number of publishers load it, edit it, bump its version and swap it
in, starting over when somebody was first. Clients and servers hold
copies, and reload theirs when the other side names a newer version than
their own.

A publisher's closure is an `FnMut` and is called once for every try, so
what it does may depend on the maps it was given before. Requests may
fail, and a swap may land with its reply lost. The S3 client sends a put
again when its answer was a 429 or a 5xx, and where the first one had
landed the second one's 412 is a conflict to the caller. Landings and
answers are written down in the order they happen, which nobody keeps.
-/

namespace Zou

open Cell

/-- Newest map format this code reads. -/
def mapFormat : Nat := 1

structure Node where
  id : String
  addr : String
  deriving DecidableEq, Repr

/-- A placement that beats the hash for one tenant shard. -/
structure Pin where
  tenant : String
  shard : Nat
  node : String
  deriving DecidableEq, Repr

structure ShardMap where
  format : Nat
  version : Nat
  nodes : List Node
  pins : List Pin
  publishedUnix : Option Nat
  deriving DecidableEq, Repr

inductive PlacementError where
  | wrongShard (mapVersion : Nat)
  | noNodes
  | mapFormatTooNew (found : Nat)
  | store
  deriving DecidableEq, Repr

namespace ShardMap

/-- The map before anyone published one. -/
def empty : ShardMap := ⟨mapFormat, 0, [], [], none⟩

/-- The format gate of `from_json`. -/
def fromJson (m : ShardMap) : Except PlacementError ShardMap :=
  if m.format > mapFormat then .error (.mapFormatTooNew m.format) else .ok m

/-! ## Placement

`score` is the rendezvous score of a node for a tenant shard. -/

variable (score : String → String → Nat → Nat)

/-- Every node by its score, best first; equal scores keep the roster's
order. -/
def rank (m : ShardMap) (tenantRef : String) (shard : Nat) : List Node :=
  m.nodes.mergeSort fun a b => score b.id tenantRef shard ≤ score a.id tenantRef shard

/-- The pin, where its node is in the roster, and the best score
otherwise. -/
def nodeFor (m : ShardMap) (tenantRef : String) (shard : Nat) : Option Node :=
  let pinned := (m.pins.find? fun p => p.tenant = tenantRef ∧ p.shard = shard).bind fun p =>
    m.nodes.find? fun n => n.id = p.node
  pinned.or (m.rank score tenantRef shard).head?

end ShardMap

/-! ## Publishing -/

/-- A closure `publish` is called with, given the maps it was called on
before. Every one in the source edits the roster or the pins and leaves
the version to `publish`. -/
structure MapEdit where
  apply : List ShardMap → ShardMap → ShardMap
  version_eq : ∀ seen m, (apply seen m).version = m.version

namespace MapEdit

/-- The roster `zou map nodes` sets. -/
def setNodes (nodes : List Node) : MapEdit where
  apply _ m := { m with nodes := nodes }
  version_eq _ _ := rfl

/-- The pin `zou map pin` puts in place of an older one. -/
def pin (p : Pin) : MapEdit where
  apply _ m :=
    { m with pins := m.pins.filter (fun q => ¬(q.tenant = p.tenant ∧ q.shard = p.shard)) ++ [p] }
  version_eq _ _ := rfl

/-- The map a publish swaps in for `m`. -/
def published (e : MapEdit) (seen : List ShardMap) (now : Nat) (m : ShardMap) : ShardMap :=
  let edited := e.apply seen m
  { edited with version := edited.version + 1, publishedUnix := some now }

end MapEdit

/-- One landing of call `call`: what it read, what the object held and
what it put there. -/
structure Landing where
  call : Nat
  seen : List ShardMap
  now : Nat
  read : ShardMap
  before : ShardMap
  map : ShardMap

/-- The next request of a publisher; `seen` are the maps of the tries
before. -/
inductive PublishPc (V : Type) where
  | idle
  | get (call : Nat) (seen : List ShardMap)
  | put (call : Nat) (seen : List ShardMap) (now : Nat) (read map : ShardMap) (expected : Option V)
  /-- The swap landed and its history copy is next. -/
  | history (call : Nat) (map : ShardMap)

structure MapServer where
  node : String
  map : ShardMap
  deriving DecidableEq, Repr

structure Fleet (V : Type) where
  cell : Option (ShardMap × V)
  history : Nat → Option ShardMap
  pcs : Nat → PublishPc V
  /-- The closures of the calls so far, a call being its number here. -/
  calls : List MapEdit
  landed : List Landing
  returned : List (Nat × Except PlacementError ShardMap)
  clients : Nat → Option ShardMap
  servers : Nat → Option MapServer

/-- One step: a publisher begins a call or does its next request, a
client or a server starts, or one of them hears a version from the other
side. -/
inductive FleetLabel (V : Type) where
  | publish (i : Nat) (e : MapEdit)
  | get (i now : Nat) (ok : Bool)
  | put (i : Nat) (io : Io V)
  /-- The swap landed, was answered 429 or 5xx and sent again, and that one
  met its own landing. -/
  | resent (i : Nat) (tok : V)
  | history (i : Nat) (ok : Bool)
  | client (j : Nat) (ok : Bool)
  | absorb (j serverVersion : Nat) (ok : Bool)
  | server (k : Nat) (node : String) (ok : Bool)
  | refresh (k : Nat) (ok : Bool)
  | admitRpc (k clientVersion : Nat) (ok : Bool)

namespace Fleet

variable {V : Type}

/-- The map the object holds, before anyone published the empty one. -/
def view (cell : Option (ShardMap × V)) : ShardMap := cell.elim .empty Prod.fst

/-- `load`. -/
def load (cell : Option (ShardMap × V)) (ok : Bool) : Except PlacementError ShardMap :=
  if ok then (view cell).fromJson else .error .store

def goto (s : Fleet V) (i : Nat) (pc : PublishPc V) : Fleet V :=
  { s with pcs := Function.update s.pcs i pc }

/-- A call ends with `r`. -/
def answer (s : Fleet V) (i call : Nat) (r : Except PlacementError ShardMap) : Fleet V :=
  { s with returned := s.returned ++ [(call, r)] }.goto i .idle

/-- The cached map after a version from the other side. A failed load
keeps the old one. -/
def absorbed (cell : Option (ShardMap × V)) (ok : Bool) (map : ShardMap) (version : Nat) :
    ShardMap :=
  if version > map.version then (load cell ok).toOption.getD map else map

/-- Does a put change the object. -/
def lands [DecidableEq V] (s : Fleet V) (expected : Option V) : Io V → Bool
  | .fail => false
  | _ => s.cell.map Prod.snd = expected

/-- The put of a try, and what its caller does next. -/
def swap [DecidableEq V] (content : V → ShardMap) (s : Fleet V) (i call : Nat)
    (seen : List ShardMap) (now : Nat) (read map : ShardMap) (expected : Option V) (io : Io V) :
    Option (Fleet V) := do
  let (cell, r) ← putIfMatch content s.cell map expected io
  let entry : Landing := ⟨call, seen, now, read, view s.cell, map⟩
  let s' := { s with
    cell := cell, landed := if s.lands expected io then s.landed ++ [entry] else s.landed }
  match r with
  | .ok _ => some (s'.goto i (.history call map))
  | .conflict => some (s'.goto i (.get call (seen ++ [read])))
  | .err => some (s'.answer i call (.error .store))

/-- The put of a try that the client sends twice: it lands, and its caller
hears of a conflict. -/
def swapTwice [DecidableEq V] (content : V → ShardMap) (s : Fleet V) (i call : Nat)
    (seen : List ShardMap) (now : Nat) (read map : ShardMap) (expected : Option V) (tok : V) :
    Option (Fleet V) :=
  if s.cell.map Prod.snd = expected ∧ content tok = map then
    let entry : Landing := ⟨call, seen, now, read, view s.cell, map⟩
    let s' := { s with cell := some (map, tok), landed := s.landed ++ [entry] }
    some (s'.goto i (.get call (seen ++ [read])))
  else none

def next [DecidableEq V] (content : V → ShardMap) (s : Fleet V) : FleetLabel V → Option (Fleet V)
  | .publish i e => match s.pcs i with
      | .idle => some ({ s with calls := s.calls ++ [e] }.goto i (.get s.calls.length []))
      | _ => none
  | .get i now ok => match s.pcs i with
      | .get call seen => (s.calls[call]?).map fun e =>
        match load s.cell ok with
        | .error err => s.answer i call (.error err)
        | .ok m => s.goto i (.put call seen now m (e.published seen now m) (s.cell.map Prod.snd))
      | _ => none
  | .put i io => match s.pcs i with
      | .put call seen now read map expected => s.swap content i call seen now read map expected io
      | _ => none
  | .resent i tok => match s.pcs i with
      | .put call seen now read map expected =>
        s.swapTwice content i call seen now read map expected tok
      | _ => none
  | .history i ok => match s.pcs i with
      | .history call map =>
        let wrote := Function.update s.history map.version
          (some ((s.history map.version).getD map))
        some ((if ok then { s with history := wrote } else s).answer i call (.ok map))
      | _ => none
  | .client j ok => match s.clients j with
      | none => (load s.cell ok).toOption.map fun m =>
        { s with clients := Function.update s.clients j (some m) }
      | some _ => none
  | .absorb j version ok => (s.clients j).map fun m =>
    { s with clients := Function.update s.clients j (some (absorbed s.cell ok m version)) }
  | .server k node ok => match s.servers k with
      | none => (load s.cell ok).toOption.map fun m =>
        { s with servers := Function.update s.servers k (some ⟨node, m⟩) }
      | some _ => none
  | .refresh k ok => (s.servers k).map fun sv =>
    let map := (load s.cell ok).toOption.getD sv.map
    { s with servers := Function.update s.servers k (some { sv with map := map }) }
  | .admitRpc k version ok => (s.servers k).map fun sv =>
    let map := absorbed s.cell ok sv.map version
    { s with servers := Function.update s.servers k (some { sv with map := map }) }

/-- Nobody has called anything yet; the object may be there already. -/
structure Init (content : V → ShardMap) (s : Fleet V) : Prop where
  sound : Sound content s.cell
  pcs : ∀ i, s.pcs i = .idle
  calls : s.calls = []
  landed : s.landed = []
  returned : s.returned = []
  clients : ∀ j, s.clients j = none
  servers : ∀ k, s.servers k = none

end Fleet

/-- What `route` answers from the cached map. -/
def ShardMap.route (score : String → String → Nat → Nat) (m : ShardMap) (tenantRef : String)
    (shard : Nat) : Except PlacementError Node :=
  match m.nodeFor score tenantRef shard with
  | some n => .ok n
  | none => .error .noNodes

/-- What `admit` answers once its map is fresh enough: the version either
way. -/
def MapServer.answers (score : String → String → Nat → Nat) (sv : MapServer) (tenantRef : String)
    (shard : Nat) : Except PlacementError Nat :=
  match sv.map.nodeFor score tenantRef shard with
  | some n => if n.id = sv.node then .ok sv.map.version else .error (.wrongShard sv.map.version)
  | none => .error (.wrongShard sv.map.version)

end Zou
