import Zou.Compact

/-!
# A merge to a horizon and the ingester next to it

`merge_to_horizon` as its store operations: the load of the layers it
serves, the load of the shard manifest whose flush point it cuts under, a
put and a commit for each output, and the commit that retires what the
outputs replace. Between any two of them the ingester may publish a flush
or advance the flush point. It resumes where the manifest says, so a flush
holds records of the log at or above the flush point and moves it past
them.

`load_serving_descs` reads the shard's manifest once for its claim, which
a flush does not touch, and then for its layers; here it is one step.
-/

namespace Zou

open Store

/-- Where a merge is. -/
inductive MergePoint where
  | start
  | listed (descs : List LayerDesc)
  | staging (plan : Compactor.MergePlan) (staged todo : List LayerObj)
  | naming (plan : Compactor.MergePlan) (staged : List LayerObj) (o : LayerObj)
      (todo : List LayerObj)
  | done (plan : Option Compactor.MergePlan)

/-- The store of a shard with a merge under way. `reference` is the layers
that were listed before it and those published since, which no part of the
code keeps. -/
structure Merging where
  objs : List (ShardKey × ShardObj)
  manifest : Manifest
  shard : Nat
  horizon : Lsn
  point : MergePoint
  reference : List LayerDesc

inductive MergeStep where
  | pass
  | flush (entries : List DeltaEntry) (upto : Lsn)
  | advance (lsn : Lsn)
  deriving DecidableEq, Repr

/-- The descriptor of an object of the shard's own. -/
def LayerObj.desc (o : LayerObj) : LayerDesc := LayerDesc.fromFooter o.footer o.size

def LayerObj.entry (o : LayerObj) : LayerEntry := ⟨o.name, o.size, none, none⟩

/-- A commit on the manifest of a shard. -/
def commitEdit (shard : Nat) (objs : List (ShardKey × ShardObj))
    (f : PageShardManifest → PageShardManifest) : List (ShardKey × ShardObj) :=
  (.manifest shard, .shard (f (manifestOf shard objs))) :: objs

namespace Merging

variable (c : Compactor) (wal : LayerKey → Lsn → List UInt8)

def own (s : Merging) : PageShardManifest := manifestOf s.shard s.objs

/-- The next operation of the merge. -/
def pass (s : Merging) : Option Merging :=
  match s.point with
  | .start =>
    match loadServingDescs s.objs s.manifest s.shard with
    | .error _ => some { s with point := .done none }
    | .ok (descs, _) => some { s with point := .listed descs }
  | .listed descs =>
    match loadManifest s.objs s.shard with
    | .error _ => some { s with point := .done none }
    | .ok none => some { s with point := .done none }
    | .ok (some own) =>
      match c.mergePlan s.shard s.objs s.manifest own descs s.horizon with
      | .error _ => some { s with point := .done none }
      | .ok none => some { s with point := .done none }
      | .ok (some plan) => some { s with point := .staging plan [] plan.outputs }
  | .staging plan staged (o :: todo) =>
    some { s with
      objs := stageOutput c.tenant s.shard s.objs o
      point := .naming plan staged o todo }
  | .naming plan staged o todo =>
    some { s with
      objs := commitEdit s.shard s.objs fun m => m.swapLayers [] [o.entry] none none
      point := .staging plan (staged ++ [o]) todo }
  | .staging plan staged [] =>
    some { s with
      objs := commitEdit s.shard s.objs fun m =>
        m.swapLayers plan.retire (staged.map LayerObj.entry) none
          (if plan.retire = [] then none else some plan.horizon)
      point := .done (some plan) }
  | .done _ => none

/-- A flush of the ingester. -/
def flush (s : Merging) (entries : List DeltaEntry) (upto : Lsn) : Option Merging :=
  if upto ≤ u64Max ∧ ∀ e ∈ entries, s.own.diskConsistentLsn ≤ e.lsn ∧ e.lsn < upto
      ∧ e.record = wal e.key e.lsn ∧ (e.key.kind = keyRelsize → e.key.block = 0) then
    match buildDelta c.codec.stored c.codec.crc entries c.codec.target with
    | .error _ => none
    | .ok o =>
      some { s with
        objs := commitEdit s.shard (stageOutput c.tenant s.shard s.objs o) fun m =>
          m.publishLayer o.entry upto
        reference := s.reference ++ [o.desc] }
  else none

def next (s : Merging) : MergeStep → Option Merging
  | .pass => s.pass c
  | .flush entries upto => s.flush c wal entries upto
  | .advance lsn =>
    match get s.objs (.manifest s.shard) with
    | none => some s
    | some _ => some { s with objs := commitEdit s.shard s.objs fun m => m.advanceConsistent lsn }

end Merging

end Zou
