import Zou.Lib.Trace
import Zou.PageReadSpec

/-!
# The caches of a reader over a run

The reader without caches, and the machine of a reader that lives on: layer
objects land in the store, the map is swapped, keys are read, and what a
map does not name is forgotten. A hit is taken on the layer's name alone,
so it is the layer's own when the layers planned under that name since it
was last forgotten are one object of one recorded size. Then every answer
of the run, a reconstruction or an error, is the answer of the reader
without caches.
-/

namespace Zou

/-! ## The reader without caches -/

namespace ReaderEnv

variable (env : ReaderEnv)

def rawBlock (d : LayerDesc) (row : LayerBlock) : Except ReadError StoredBlock := do
  let o ← env.fetch d
  match o.blockAt row.offset row.len with
  | none => .error (.layer d.name .corrupt)
  | some b => .ok b

def rawFooter (d : LayerDesc) : Except ReadError LayerFooter := do
  let o ← env.fetch d
  let f := o.footer
  if o.size ≠ d.size then .error (.layer d.name .corrupt)
  else if f.kind ≠ d.kind ∨ f.minKey ≠ d.minKey ∨ f.maxKey ≠ d.maxKey ∨ f.minLsn ≠ d.minLsn
      ∨ f.maxLsn ≠ d.maxLsn then .error (.mismatched d.name)
  else .ok f

def rawPageIn (d : LayerDesc) (key : LayerKey) :
    List LayerBlock → Except ReadError (Option (List UInt8))
  | [] => .ok none
  | row :: rows => do
      let b ← env.rawBlock d row
      match decodeImageBlock b row with
      | .error e => .error (.layer d.name e)
      | .ok es =>
        match es.find? fun e => e.key = key with
        | some e => .ok (some e.page)
        | none => rawPageIn d key rows

def rawBaseIn (key : LayerKey) : List LayerDesc → Except ReadError (Option (List UInt8 × Lsn))
  | [] => .ok none
  | d :: ds => do
      let f ← env.rawFooter d
      if f.mayContain env.crc key then
        match ← env.rawPageIn d key (f.locate key) with
        | some page => .ok (some (page, d.minLsn))
        | none => rawBaseIn key ds
      else rawBaseIn key ds

def rawRecordsIn (d : LayerDesc) (key : LayerKey) (floor ceil : Lsn) :
    List LayerBlock → OrdMap Lsn (List UInt8) → Except ReadError (OrdMap Lsn (List UInt8))
  | [], merged => .ok merged
  | row :: rows, merged => do
      let b ← env.rawBlock d row
      match decodeDeltaBlock b row with
      | .error e => .error (.layer d.name e)
      | .ok es =>
        rawRecordsIn d key floor ceil rows
          ((es.filter fun e => e.key = key ∧ floor < e.lsn ∧ e.lsn ≤ ceil).foldl
            (fun m e => m.insert e.lsn e.record) merged)

def rawMergeIn (key : LayerKey) (floor lsn : Lsn) :
    List LayerDesc → OrdMap Lsn (List UInt8) → Except ReadError (OrdMap Lsn (List UInt8))
  | [], merged => .ok merged
  | d :: ds, merged => do
      let f ← env.rawFooter d
      if f.mayContain env.crc key then
        let merged ← env.rawRecordsIn d key floor (d.clamp lsn) (f.locate key) merged
        rawMergeIn key floor lsn ds merged
      else rawMergeIn key floor lsn ds merged

def rawReconstruct (map : LayerMap) (mem : Memtable) (key : LayerKey) (lsn : Lsn) :
    Except ReadError Reconstruction := do
  let plan := map.plan key lsn
  let base ← env.rawBaseIn key plan.images
  let floor := (base.map Prod.snd).getD 0
  let above := plan.above floor
  let merged ← env.rawMergeIn key floor lsn above OrdMap.empty
  let merged := (mem.recordsFor key floor lsn).foldl (fun m r => m.insert r.1 r.2) merged
  .ok {
    base := base.map Prod.fst
    baseLsn := base.map Prod.snd
    records := merged.entries
    layersTouched := (if base.isSome then 1 else 0) + above.length }

end ReaderEnv

/-! ## A reader over a run -/

inductive ReaderOp where
  /-- An object is put where there is none. -/
  | land (key : (String × Nat) × LayerName) (o : LayerObj)
  /-- The map later reads plan on; one that is not accepted is not swapped
  in. -/
  | swap (layers : List LayerDesc)
  | read (mem : Memtable) (key : LayerKey) (lsn : Lsn)
  | forget (layers : List LayerDesc)

/-- A reader without caches, and what it answered, newest first. -/
structure PlainReader where
  env : ReaderEnv
  map : LayerMap
  answers : List (Except ReadError Reconstruction)

/-- A reader with its caches. `planned` is kept for the statements only:
the layers of the plans of its reads whose names were not forgotten
since. -/
structure CachedReader where
  plain : PlainReader
  reader : LayerReader
  planned : List LayerDesc

/-- The layers one read may touch. -/
def LayerMap.planned (map : LayerMap) (key : LayerKey) (lsn : Lsn) : List LayerDesc :=
  (map.plan key lsn).images ++ (map.plan key lsn).deltas

namespace PlainReader

/-- A reader just opened on a store. -/
def new (env : ReaderEnv) : PlainReader := ⟨env, ⟨[], LayerMap.build [], LayerMap.build []⟩, []⟩

def land (p : PlainReader) (key : (String × Nat) × LayerName) (o : LayerObj) : PlainReader :=
  { p with env := { p.env with
    objects := fun k => if k = key then (p.env.objects k).or (some o) else p.env.objects k } }

def swap (p : PlainReader) (layers : List LayerDesc) : PlainReader :=
  match LayerMap.new layers with
  | .ok map => { p with map := map }
  | .error _ => p

def answer (p : PlainReader) (r : Except ReadError Reconstruction) : PlainReader :=
  { p with answers := r :: p.answers }

def next (p : PlainReader) : ReaderOp → Option PlainReader
  | .land key o => some (p.land key o)
  | .swap layers => some (p.swap layers)
  | .read mem key lsn => some (p.answer (p.env.rawReconstruct p.map mem key lsn))
  | .forget _ => some p

end PlainReader

namespace CachedReader

def new (env : ReaderEnv) (budget : Nat) : CachedReader :=
  ⟨PlainReader.new env, ⟨[], BlockCache.new budget⟩, []⟩

def read (s : CachedReader) (mem : Memtable) (key : LayerKey) (lsn : Lsn) : CachedReader :=
  match Total.exec (s.plain.env.reconstruct s.plain.map mem key lsn) s.reader with
  | (r, reader) => ⟨s.plain.answer r, reader, s.plain.map.planned key lsn ++ s.planned⟩

def forget (s : CachedReader) (layers : List LayerDesc) : CachedReader :=
  match LayerMap.new layers with
  | .ok map => { s with
      reader := s.reader.forgetUnnamed map
      planned := s.planned.filter fun d => d.name ∈ map.layers.map LayerDesc.name }
  | .error _ => s

def next (s : CachedReader) : ReaderOp → Option CachedReader
  | .land key o => some { s with plain := s.plain.land key o }
  | .swap layers => some { s with plain := s.plain.swap layers }
  | .read mem key lsn => some (s.read mem key lsn)
  | .forget layers => some (s.forget layers)

end CachedReader

/-! ## When a hit is the layer's own -/

/-- What the parse of a footer checks, and that no block is empty: the rows
are those of the blocks, at rising offsets. -/
structure LayerObj.Rising (o : LayerObj) : Prop where
  rows : o.footer.blocks = o.blocks.map StoredBlock.row
  offsets : o.blocks.Pairwise fun a b => a.row.offset < b.row.offset

/-- A layer of `ds` and one of `all` of the same name are one object of one
recorded size. -/
def OneObject (env : ReaderEnv) (ds all : List LayerDesc) : Prop :=
  ∀ d ∈ ds, ∀ d' ∈ all, d.name = d'.name → env.fetch d = env.fetch d' ∧ d.size = d'.size

/-- Layers that land have no empty block, and a read plans on no layer whose
name was planned for another object since it was last forgotten. -/
def CachedReader.Allowed (s : CachedReader) : ReaderOp → Prop
  | .land _ o => o.Rising
  | .read _ key lsn => OneObject s.plain.env (s.plain.map.planned key lsn)
      (s.plain.map.planned key lsn ++ s.planned)
  | _ => True

instance (o : LayerObj) : Decidable o.Rising :=
  decidable_of_iff (o.footer.blocks = o.blocks.map StoredBlock.row
      ∧ o.blocks.Pairwise fun a b => a.row.offset < b.row.offset)
    ⟨fun h => ⟨h.1, h.2⟩, fun h => ⟨h.rows, h.offsets⟩⟩

instance (s : CachedReader) : ∀ op, Decidable (s.Allowed op)
  | .land _ o => inferInstanceAs (Decidable o.Rising)
  | .read _ key lsn => inferInstanceAs (Decidable (∀ d ∈ s.plain.map.planned key lsn,
      ∀ d' ∈ s.plain.map.planned key lsn ++ s.planned, d.name = d'.name →
        s.plain.env.fetch d = s.plain.env.fetch d' ∧ d.size = d'.size))
  | .swap _ => inferInstanceAs (Decidable True)
  | .forget _ => inferInstanceAs (Decidable True)

/-- An image is of one lsn. -/
def LayerDesc.AtOneLsn (d : LayerDesc) : Prop := d.kind = .image → d.minLsn = d.maxLsn

/-- What the caches hold is of one of these layers. -/
structure Caches (env : ReaderEnv) (ds : List LayerDesc) (rd : LayerReader) : Prop where
  footers : ∀ n f, (n, f) ∈ rd.footers → ∃ d ∈ ds, d.name = n ∧ env.rawFooter d = .ok f
  blocks : rd.blocks.All fun n off b => ∃ d ∈ ds, d.name = n
    ∧ ∃ o, env.fetch d = .ok o ∧ b ∈ o.blocks ∧ b.row.offset = off

theorem LayerDesc.fields_of_name {d d' : LayerDesc} (hd : d.AtOneLsn) (hd' : d'.AtOneLsn)
    (h : d.name = d'.name) : d.kind = d'.kind ∧ d.minKey = d'.minKey ∧ d.maxKey = d'.maxKey
      ∧ d.minLsn = d'.minLsn ∧ d.maxLsn = d'.maxLsn := by
  unfold LayerDesc.name at h
  cases hk : d.kind with
  | delta =>
    cases hk' : d'.kind with
    | delta =>
      rw [hk, hk'] at h
      injection h with h1 h2 h3 h4
      exact ⟨rfl, h1, h2, h3, h4⟩
    | image =>
      rw [hk, hk'] at h
      injection h
  | image =>
    cases hk' : d'.kind with
    | delta =>
      rw [hk, hk'] at h
      injection h
    | image =>
      rw [hk, hk'] at h
      injection h with h1 h2 h3
      exact ⟨rfl, h1, h2, h3, by rw [← hd hk, ← hd' hk', h3]⟩

section Reads

open Total

variable {env : ReaderEnv} {ds all : List LayerDesc} {d d' : LayerDesc} {o : LayerObj}

theorem rawFooter_congr (hd : d.AtOneLsn) (hd' : d'.AtOneLsn) (hname : d.name = d'.name)
    (hfetch : env.fetch d = env.fetch d') (hsize : d.size = d'.size) :
    env.rawFooter d = env.rawFooter d' := by
  obtain ⟨hk, h1, h2, h3, h4⟩ := LayerDesc.fields_of_name hd hd' hname
  unfold ReaderEnv.rawFooter
  rw [hfetch, hname, hsize, hk, h1, h2, h3, h4]

theorem rawFooter_ok {f : LayerFooter} (h : env.rawFooter d = .ok f) :
    ∃ o, env.fetch d = .ok o ∧ f = o.footer := by
  unfold ReaderEnv.rawFooter at h
  cases hfetch : env.fetch d with
  | error e =>
    rw [hfetch] at h
    cases h
  | ok o =>
    rw [hfetch] at h
    change (if o.size ≠ d.size then _ else if _ then _ else Except.ok o.footer) = .ok f at h
    split at h
    · cases h
    · split at h
      · cases h
      · exact ⟨o, rfl, (Except.ok.inj h).symm⟩

/-- The footer of a planned layer is the layer's own, from cache or not. -/
theorem footer_computes (hone : OneObject env ds all) (hsub : ∀ d ∈ ds, d ∈ all)
    (hpt : ∀ d ∈ all, d.AtOneLsn) (hd : d ∈ ds) :
    Computes (Caches env all) (env.footer d) (env.rawFooter d) := by
  unfold ReaderEnv.footer
  refine Computes.get fun rd hrd => ?_
  cases hl : rd.footers.lookup d.name with
  | some f =>
    obtain ⟨l₁, l₂, heq, -⟩ := List.lookup_eq_some_iff.mp hl
    have hmem : (d.name, f) ∈ rd.footers := by
      rw [heq]
      simp
    obtain ⟨d', hd', hname, hf⟩ := hrd.footers d.name f hmem
    obtain ⟨hfetch, hsize⟩ := hone d hd d' hd' hname.symm
    rw [rawFooter_congr (hpt d (hsub d hd)) (hpt d' hd') hname.symm hfetch hsize, hf]
    exact Computes.pure
  | none =>
    have hraw : ∀ f, env.rawFooter d = .ok f →
        Computes (Caches env all) (do
          modify fun rd : LayerReader => { rd with footers := (d.name, f) :: rd.footers }
          pure f : ReadM LayerFooter) (.ok f) := by
      intro f hf
      have hput : Computes (Caches env all)
          (modify fun rd : LayerReader => { rd with footers := (d.name, f) :: rd.footers }
            : ReadM PUnit) (.ok ⟨⟩) := by
        refine Computes.modify fun rd hrd => ⟨fun n g hg => ?_, hrd.blocks⟩
        rcases List.mem_cons.mp hg with heq | hg
        · obtain ⟨rfl, rfl⟩ := Prod.mk.inj heq
          exact ⟨d, hsub d hd, rfl, hf⟩
        · exact hrd.footers n g hg
      exact hput.bind (g := fun _ => .ok f) fun _ _ => Computes.pure
    unfold ReaderEnv.rawFooter at hraw ⊢
    cases hfetch : env.fetch d with
    | error e => exact Computes.throw.bind nofun
    | ok o =>
      rw [hfetch] at hraw
      refine (Computes.pure (a := o)).bind fun a ha => ?_
      cases ha
      dsimp only
      split
      · exact Computes.throw
      · rename_i hsize
        split
        · exact Computes.throw
        · rename_i hfit
          refine hraw o.footer ?_
          change (if _ then _ else if _ then _ else _) = _
          rw [if_neg hsize, if_neg hfit]

theorem rawBlock_of_row (hfetch : env.fetch d = .ok o) (ho : o.Rising) {b : StoredBlock}
    (hb : b ∈ o.blocks) : env.rawBlock d b.row = .ok b := by
  have hat : o.blockAt b.row.offset b.row.len = some b := by
    cases hfind : o.blockAt b.row.offset b.row.len with
    | none =>
      have hnone := List.find?_eq_none.mp hfind b hb
      simp at hnone
    | some c =>
      have hc : c.row.offset = b.row.offset ∧ c.row.len = b.row.len := by
        simpa using List.find?_some hfind
      rw [offset_unique ho.offsets (List.mem_of_find?_eq_some hfind) hb hc.1]
  unfold ReaderEnv.rawBlock
  rw [hfetch]
  change (match o.blockAt b.row.offset b.row.len with | none => _ | some b => _) = _
  rw [hat]

/-- A block of a planned layer is the layer's own, from cache or not. -/
theorem block_computes (hone : OneObject env ds all) (hsub : ∀ d ∈ ds, d ∈ all) (hd : d ∈ ds)
    (hfetch : env.fetch d = .ok o) (ho : o.Rising) {row : LayerBlock}
    (hrow : row ∈ o.footer.blocks) :
    Computes (Caches env all) (env.block d row) (env.rawBlock d row) := by
  obtain ⟨b, hb, rfl⟩ : ∃ b ∈ o.blocks, b.row = row := by
    rw [ho.rows] at hrow
    exact List.mem_map.mp hrow
  have hraw := rawBlock_of_row hfetch ho hb
  rw [hraw]
  unfold ReaderEnv.block
  refine Computes.get fun rd hrd => ?_
  obtain ⟨hcache, hhit⟩ := hrd.blocks.get d.name b.row.offset
  cases hget : rd.blocks.get d.name b.row.offset with
  | mk hit blocks =>
    rw [hget] at hcache hhit
    have hset : Computes (Caches env all)
        (set { rd with blocks := blocks } : ReadM PUnit) (.ok ⟨⟩) :=
      Computes.set ⟨hrd.footers, hcache⟩
    refine hset.bind (g := fun _ => .ok b) fun _ _ => ?_
    cases hit with
    | some c =>
      obtain ⟨d', hd', hname, o', ho', hc, hoff⟩ := hhit c rfl
      have hsame := (hone d hd d' hd' hname.symm).1
      rw [hfetch, ho'] at hsame
      cases hsame
      rw [offset_unique ho.offsets hb hc hoff.symm]
      exact Computes.pure
    | none =>
      have hlift : Computes (Caches env all) (ReaderEnv.block.liftExcept (env.fetch d))
          (.ok o) := by
        rw [hfetch]
        exact Computes.pure
      refine hlift.bind (g := fun _ => .ok b) fun a ha => ?_
      cases ha
      unfold ReaderEnv.rawBlock at hraw
      rw [hfetch] at hraw
      change (match o.blockAt b.row.offset b.row.len with | none => _ | some b => _) = _
        at hraw
      cases hat : o.blockAt b.row.offset b.row.len with
      | none =>
        rw [hat] at hraw
        cases hraw
      | some c =>
        rw [hat] at hraw
        obtain rfl := Except.ok.inj hraw
        have hput : Computes (Caches env all)
            (modify fun rd : LayerReader =>
              { rd with blocks := rd.blocks.put d.name c.row.offset c } : ReadM PUnit)
            (.ok ⟨⟩) :=
          Computes.modify fun rd hrd => ⟨hrd.footers,
            hrd.blocks.put ⟨d, hsub d hd, rfl, o, hfetch, hb, rfl⟩⟩
        exact hput.bind (g := fun _ => .ok c) fun _ _ => Computes.pure

theorem pageIn_computes (hone : OneObject env ds all) (hsub : ∀ d ∈ ds, d ∈ all) (hd : d ∈ ds)
    (hfetch : env.fetch d = .ok o) (ho : o.Rising) (key : LayerKey) :
    ∀ rows : List LayerBlock, (∀ row ∈ rows, row ∈ o.footer.blocks) →
      Computes (Caches env all) (env.pageIn d key rows) (env.rawPageIn d key rows) := by
  intro rows
  induction rows with
  | nil => exact fun _ => Computes.pure
  | cons row rows ih =>
    intro hrows
    unfold ReaderEnv.pageIn ReaderEnv.rawPageIn
    refine (block_computes hone hsub hd hfetch ho (hrows row List.mem_cons_self)).bind
      fun b _ => ?_
    cases hdec : decodeImageBlock b row with
    | error e => exact Computes.throw
    | ok es =>
      dsimp only
      cases hfind : es.find? fun e => e.key = key with
      | some e => exact Computes.pure
      | none => exact ih fun r hr => hrows r (.tail _ hr)

theorem recordsIn_computes (hone : OneObject env ds all) (hsub : ∀ d ∈ ds, d ∈ all) (hd : d ∈ ds)
    (hfetch : env.fetch d = .ok o) (ho : o.Rising) (key : LayerKey) (floor ceil : Lsn) :
    ∀ (rows : List LayerBlock) (merged : OrdMap Lsn (List UInt8)),
      (∀ row ∈ rows, row ∈ o.footer.blocks) →
      Computes (Caches env all) (env.recordsIn d key floor ceil rows merged)
        (env.rawRecordsIn d key floor ceil rows merged) := by
  intro rows
  induction rows with
  | nil => exact fun _ _ => Computes.pure
  | cons row rows ih =>
    intro merged hrows
    unfold ReaderEnv.recordsIn ReaderEnv.rawRecordsIn
    refine (block_computes hone hsub hd hfetch ho (hrows row List.mem_cons_self)).bind
      fun b _ => ?_
    cases hdec : decodeDeltaBlock b row with
    | error e => exact Computes.throw
    | ok es => exact ih _ fun r hr => hrows r (.tail _ hr)

/-- The objects of a store are as their builders leave them. -/
def ReaderEnv.Rising (env : ReaderEnv) : Prop :=
  ∀ key o, env.objects key = some o → o.Rising

theorem ReaderEnv.Rising.fetch (h : env.Rising) (hfetch : env.fetch d = .ok o) : o.Rising := by
  unfold ReaderEnv.fetch at hfetch
  cases hkey : env.objectKey d with
  | error e =>
    rw [hkey] at hfetch
    cases hfetch
  | ok key =>
    rw [hkey] at hfetch
    cases hobj : env.objects key with
    | none =>
      simp only [hobj] at hfetch
      cases hfetch
    | some o' =>
      simp only [hobj] at hfetch
      exact Except.ok.inj hfetch ▸ h key o' hobj

theorem baseIn_computes (hris : env.Rising) (hone : OneObject env ds all) (hsub : ∀ d ∈ ds, d ∈ all)
    (hpt : ∀ d ∈ all, d.AtOneLsn) (key : LayerKey) : ∀ ls : List LayerDesc, (∀ d ∈ ls, d ∈ ds) →
      Computes (Caches env all) (env.baseIn key ls) (env.rawBaseIn key ls) := by
  intro ls
  induction ls with
  | nil => exact fun _ => Computes.pure
  | cons d ls ih =>
    intro hls
    have hd := hls d List.mem_cons_self
    have hrest := ih fun x hx => hls x (.tail _ hx)
    unfold ReaderEnv.baseIn ReaderEnv.rawBaseIn
    refine (footer_computes hone hsub hpt hd).bind fun f hf => ?_
    obtain ⟨o, hfetch, rfl⟩ := rawFooter_ok hf
    split
    · refine (pageIn_computes hone hsub hd hfetch (hris.fetch hfetch) key _
        fun row hrow => BlockIndex.mem_of_mem_locate hrow).bind fun page _ => ?_
      cases page with
      | some page => exact Computes.pure
      | none => exact hrest
    · exact hrest

theorem mergeIn_computes (hris : env.Rising) (hone : OneObject env ds all)
    (hsub : ∀ d ∈ ds, d ∈ all) (hpt : ∀ d ∈ all, d.AtOneLsn) (key : LayerKey) (floor lsn : Lsn) :
    ∀ (ls : List LayerDesc) (merged : OrdMap Lsn (List UInt8)), (∀ d ∈ ls, d ∈ ds) →
      Computes (Caches env all) (env.mergeIn key floor lsn ls merged)
        (env.rawMergeIn key floor lsn ls merged) := by
  intro ls
  induction ls with
  | nil => exact fun _ _ => Computes.pure
  | cons d ls ih =>
    intro merged hls
    have hd := hls d List.mem_cons_self
    have hrest := fun merged => ih merged fun x hx => hls x (.tail _ hx)
    unfold ReaderEnv.mergeIn ReaderEnv.rawMergeIn
    refine (footer_computes hone hsub hpt hd).bind fun f hf => ?_
    obtain ⟨o, hfetch, rfl⟩ := rawFooter_ok hf
    split
    · exact (recordsIn_computes hone hsub hd hfetch (hris.fetch hfetch) key floor _ _ merged
        fun row hrow => BlockIndex.mem_of_mem_locate hrow).bind fun merged' _ => hrest merged'
    · exact hrest merged

theorem reconstruct_computes (hris : env.Rising) {map : LayerMap} (mem : Memtable) (key : LayerKey)
    (lsn : Lsn) (hone : OneObject env (map.planned key lsn) (map.planned key lsn ++ all))
    (hpt : ∀ d ∈ map.planned key lsn ++ all, d.AtOneLsn) :
    Computes (Caches env (map.planned key lsn ++ all)) (env.reconstruct map mem key lsn)
      (env.rawReconstruct map mem key lsn) := by
  have hsub : ∀ d ∈ map.planned key lsn, d ∈ map.planned key lsn ++ all :=
    fun d hd => List.mem_append_left _ hd
  unfold ReaderEnv.reconstruct ReaderEnv.rawReconstruct
  refine (baseIn_computes hris hone hsub hpt key _
    fun d hd => List.mem_append_left _ hd).bind fun base _ => ?_
  refine (mergeIn_computes hris hone hsub hpt key _ lsn _ _ fun d hd =>
    List.mem_append_right _ (List.mem_of_mem_filter hd)).bind fun merged _ => Computes.pure

end Reads

/-! ## Every run -/

section Runs

open Total

/-- The objects are as built, the layers planned on are accepted ones, and
the caches hold what is of them. -/
structure CachedReader.Sound (s : CachedReader) : Prop where
  rising : s.plain.env.Rising
  map : ∃ layers, LayerMap.new layers = .ok s.plain.map
  atOneLsn : ∀ d ∈ s.planned, d.AtOneLsn
  caches : Caches s.plain.env s.planned s.reader

theorem LayerMap.planned_atOneLsn {layers : List LayerDesc} {map : LayerMap}
    (h : LayerMap.new layers = .ok map) {key : LayerKey} {lsn : Lsn} {d : LayerDesc}
    (hd : d ∈ map.planned key lsn) : d.AtOneLsn := by
  obtain ⟨hwf, rfl⟩ := LayerMap.new_ok h
  rcases List.mem_append.mp hd with hd | hd
  · have hmem := ((LayerMap.mem_plan_images h).mp hd).1
    exact (hwf d hmem).2.2
  · unfold LayerMap.plan at hd
    rw [List.mem_insertionSort,
      LayerMap.mem_hits fun l hl => (hwf l (List.mem_of_mem_filter hl)).1] at hd
    exact (hwf d (List.mem_of_mem_filter hd.1)).2.2

variable {env env' : ReaderEnv} {ds all : List LayerDesc} {d : LayerDesc}

theorem Caches.mono {rd : LayerReader} (h : Caches env ds rd) (hsub : ∀ d ∈ ds, d ∈ all)
    (hfetch : ∀ d o, env.fetch d = .ok o → env'.fetch d = .ok o) : Caches env' all rd where
  footers n f hf := by
    obtain ⟨d, hd, hname, hraw⟩ := h.footers n f hf
    obtain ⟨o, ho, -⟩ := rawFooter_ok hraw
    refine ⟨d, hsub d hd, hname, ?_⟩
    unfold ReaderEnv.rawFooter at hraw ⊢
    rw [hfetch d o ho]
    rw [ho] at hraw
    exact hraw
  blocks e he := by
    obtain ⟨d, hd, hname, o, ho, hb⟩ := h.blocks e he
    exact ⟨d, hsub d hd, hname, o, hfetch d o ho, hb⟩

theorem PlainReader.land_fetch {p : PlainReader} {key : (String × Nat) × LayerName} {o o' : LayerObj}
    (h : p.env.fetch d = .ok o') : (p.land key o).env.fetch d = .ok o' := by
  have hkey : (p.land key o).env.objectKey d = p.env.objectKey d := rfl
  unfold ReaderEnv.fetch at h ⊢
  rw [hkey]
  cases hk : p.env.objectKey d with
  | error e =>
    rw [hk] at h
    cases h
  | ok k =>
    simp only [hk] at h ⊢
    cases hobj : p.env.objects k with
    | none =>
      rw [hobj] at h
      cases h
    | some o₁ =>
      have hland : (p.land key o).env.objects k = some o₁ := by
        simp [PlainReader.land, hobj]
      rw [hobj] at h
      rw [hland]
      exact h

theorem PlainReader.land_rising {p : PlainReader} (h : p.env.Rising)
    (key : (String × Nat) × LayerName) {o : LayerObj} (ho : o.Rising) :
    (p.land key o).env.Rising := by
  intro k o' hobj
  dsimp only [PlainReader.land] at hobj
  split at hobj
  · cases hk : p.env.objects k with
    | none =>
      rw [hk] at hobj
      exact Option.some.inj hobj ▸ ho
    | some o₁ =>
      rw [hk] at hobj
      exact h k o' (hk.trans hobj)
  · exact h k o' hobj

/-- What is forgotten of the caches is what is forgotten of the plans. -/
theorem Caches.forget {rd : LayerReader} (h : Caches env ds rd) (map : LayerMap) :
    Caches env (ds.filter fun d => d.name ∈ map.layers.map LayerDesc.name)
      (rd.forgetUnnamed map) where
  footers n f hf := by
    obtain ⟨hf, hn⟩ := List.mem_filter.mp hf
    obtain ⟨d, hd, rfl, hraw⟩ := h.footers n f hf
    exact ⟨d, List.mem_filter.mpr ⟨hd, hn⟩, rfl, hraw⟩
  blocks e he := by
    obtain ⟨he, hn⟩ := List.mem_filter.mp he
    obtain ⟨d, hd, hname, hb⟩ := h.blocks e he
    refine ⟨d, List.mem_filter.mpr ⟨hd, ?_⟩, hname, hb⟩
    rw [hname]
    exact hn

theorem CachedReader.Sound.read {s : CachedReader} (h : s.Sound) (mem : Memtable) (key : LayerKey)
    (lsn : Lsn) (hok : s.Allowed (.read mem key lsn)) : (s.read mem key lsn).Sound
      ∧ (s.read mem key lsn).plain
        = s.plain.answer (s.plain.env.rawReconstruct s.plain.map mem key lsn) := by
  obtain ⟨layers, hmap⟩ := h.map
  have hpt : ∀ d ∈ s.plain.map.planned key lsn ++ s.planned, d.AtOneLsn := by
    intro d hd
    rcases List.mem_append.mp hd with hd | hd
    · exact LayerMap.planned_atOneLsn hmap hd
    · exact h.atOneLsn d hd
  have hcaches : Caches s.plain.env (s.plain.map.planned key lsn ++ s.planned) s.reader :=
    h.caches.mono (fun d hd => List.mem_append_right _ hd) fun _ _ ho => ho
  obtain ⟨rd, hexec, hrd⟩ :=
    reconstruct_computes h.rising mem key lsn hok hpt s.reader hcaches
  unfold CachedReader.read
  rw [hexec]
  exact ⟨⟨h.rising, ⟨layers, hmap⟩, hpt, hrd⟩, rfl⟩

/-- A step of the cached reader is a step of the plain one. -/
theorem CachedReader.Sound.next {s s' : CachedReader} {op : ReaderOp} (h : s.Sound)
    (hok : s.Allowed op) (hn : s.next op = some s') :
    s'.Sound ∧ s.plain.next op = some s'.plain := by
  cases op with
  | land key o =>
    cases hn
    exact ⟨⟨PlainReader.land_rising h.rising key hok, h.map, h.atOneLsn,
      h.caches.mono (fun _ hd => hd) fun _ _ ho => PlainReader.land_fetch ho⟩, rfl⟩
  | swap layers =>
    cases hn
    refine ⟨?_, rfl⟩
    dsimp only [PlainReader.swap]
    cases hmap : LayerMap.new layers with
    | error e => exact h
    | ok map => exact ⟨h.rising, ⟨layers, hmap⟩, h.atOneLsn, h.caches⟩
  | read mem key lsn =>
    cases hn
    obtain ⟨hs, hplain⟩ := h.read mem key lsn hok
    exact ⟨hs, congrArg some hplain.symm⟩
  | forget layers =>
    cases hn
    unfold CachedReader.forget
    cases hmap : LayerMap.new layers with
    | error e => exact ⟨h, rfl⟩
    | ok map =>
      exact ⟨⟨h.rising, h.map, fun d hd => h.atOneLsn d (List.mem_of_mem_filter hd),
        h.caches.forget map⟩, rfl⟩

theorem CachedReader.new_sound {env : ReaderEnv} (h : env.Rising) (budget : Nat) :
    (CachedReader.new env budget).Sound where
  rising := h
  map := ⟨[], rfl⟩
  atOneLsn := nofun
  caches := ⟨nofun, nofun⟩

/-- Over every sequence of landings, swaps, reads and forgets whose layers
have no empty block and whose reads plan on one object for a name, the
reader with its caches answers as the reader without them. -/
theorem caches_transparent {env : ReaderEnv} (henv : env.Rising) (budget : Nat)
    {ops : List ReaderOp} {s : CachedReader}
    (hm : Trace.Meets CachedReader.next CachedReader.Allowed (CachedReader.new env budget) ops)
    (hr : Trace.run CachedReader.next (CachedReader.new env budget) ops = some s) :
    Trace.run PlainReader.next (PlainReader.new env) ops = some s.plain := by
  have hstep : ∀ s op s', CachedReader.Sound s → s.Allowed op → s.next op = some s' →
      s'.Sound ∧ s.plain.next op = some s'.plain := fun _ _ _ h hok hn => h.next hok hn
  exact Trace.guarded_simulation hstep (CachedReader.new_sound henv budget) hm hr

/-- A tenant's store before anything landed. -/
def emptyEnv : ReaderEnv := { sampleEnv with objects := fun _ => none }

/-- The tenant's layer lands and is read cold, from the caches, and again
after it was forgotten. -/
def ownOps : List ReaderOp :=
  (sampleObj ownEntries).toOption.toList.map
      (fun o => .land (("t", 0), .delta sampleKey sampleKey 10 30) o)
    ++ [.swap [sampleDesc ownEntries none none], .read Memtable.new sampleKey 40,
      .read Memtable.new sampleKey 15, .forget [], .read Memtable.new sampleKey 40]

/-- The records of what was answered. -/
def PlainReader.records (p : PlainReader) : List (Option (List (Lsn × List UInt8))) :=
  p.answers.map fun r => r.toOption.map Reconstruction.records

theorem caches_transparent_own :
    ∃ s, Trace.run CachedReader.next (CachedReader.new emptyEnv 100) ownOps = some s
      ∧ s.plain.records
        = [some [(10, [1]), (30, [3])], some [(10, [1])], some [(10, [1]), (30, [3])]]
      ∧ Trace.run PlainReader.next (PlainReader.new emptyEnv) ownOps = some s.plain := by
  have henv : emptyEnv.Rising := nofun
  have hrun : (Trace.run CachedReader.next (CachedReader.new emptyEnv 100) ownOps).map
      (fun s => s.plain.records)
        = some [some [(10, [1]), (30, [3])], some [(10, [1])], some [(10, [1]), (30, [3])]] := by
    decide +kernel
  have hm : Trace.Meets CachedReader.next CachedReader.Allowed (CachedReader.new emptyEnv 100)
      ownOps := by
    decide +kernel
  obtain ⟨s, hs, hans⟩ := Option.map_eq_some_iff.mp hrun
  exact ⟨s, hs, hans, caches_transparent henv 100 hm hs⟩

/-- The map of a branch names the tenant's layer and the one of its parent
that has the same name: the parent's is read from what is cached of the
tenant's, and its record at 20 is missed. -/
theorem cached_owner_differs :
    ∃ s p, Trace.run CachedReader.next (CachedReader.new sampleEnv 100)
        [.swap (twoOwners.map Prod.fst), .read Memtable.new sampleKey 40] = some s
      ∧ Trace.run PlainReader.next (PlainReader.new sampleEnv)
        [.swap (twoOwners.map Prod.fst), .read Memtable.new sampleKey 40] = some p
      ∧ s.plain.records = [some [(10, [1]), (30, [3])]]
      ∧ p.records = [some [(10, [1]), (20, [2]), (30, [3])]]
      ∧ s.plain.answers ≠ p.answers := by
  have hcached : (Trace.run CachedReader.next (CachedReader.new sampleEnv 100)
      [.swap (twoOwners.map Prod.fst), .read Memtable.new sampleKey 40]).map
        (fun s => s.plain.records) = some [some [(10, [1]), (30, [3])]] := by
    decide +kernel
  have hplain : (Trace.run PlainReader.next (PlainReader.new sampleEnv)
      [.swap (twoOwners.map Prod.fst), .read Memtable.new sampleKey 40]).map
        PlainReader.records = some [some [(10, [1]), (20, [2]), (30, [3])]] := by
    decide +kernel
  obtain ⟨s, hs, hsr⟩ := Option.map_eq_some_iff.mp hcached
  obtain ⟨p, hp, hpr⟩ := Option.map_eq_some_iff.mp hplain
  refine ⟨s, p, hs, hp, hsr, hpr, fun heq => ?_⟩
  have hrec : s.plain.records = p.records := congrArg (List.map _) heq
  rw [hsr, hpr] at hrec
  exact absurd hrec (by decide)

end Runs

end Zou
