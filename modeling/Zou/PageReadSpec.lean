import Zou.LayerSpec
import Zou.PageRead

/-!
# The read path is brute force

What a set of layers and a memtable hold for a key at a read point, without
plans, filters, blocks or caches, and that the reader finds exactly that
when the layers it asks see in each other's footers and blocks what they
would in their own, as they do where layers of equal names are one object.
The caches are an invariant of every read: what they hold under a name shows
a key as the object of every layer of that name does.
-/

namespace Zou

/-- What a layer was built from. -/
inductive LayerBody where
  | delta (es : List DeltaEntry)
  | image (lsn : Lsn) (es : List ImageEntry)
  deriving DecidableEq, Repr

def LayerBody.build (stored : BlockBody → Nat) (crc : Nat → List UInt8 → Nat) (target : Nat) :
    LayerBody → Except LayerBuildError LayerObj
  | .delta es => buildDelta stored crc es target
  | .image lsn es => buildImage stored crc es lsn target

/-! ## Brute force -/

section BruteForce

variable (layers : List (LayerDesc × LayerBody)) (mem : Memtable) (key : LayerKey) (lsn : Lsn)

/-- An image that holds the key, not above the read point or its cut. -/
def ImageAt (b : Lsn) (page : List UInt8) : Prop :=
  ∃ d es, (d, LayerBody.image b es) ∈ layers ∧ (⟨key, page⟩ : ImageEntry) ∈ es ∧ b ≤ d.clamp lsn

/-- A record of the key not above the read point or the cut of its layer. -/
def RecordAt (l : Lsn) (record : List UInt8) : Prop :=
  (∃ d es, (d, LayerBody.delta es) ∈ layers ∧ (⟨key, l, record⟩ : DeltaEntry) ∈ es
      ∧ l ≤ d.clamp lsn)
    ∨ ((⟨key, l, record⟩ : DeltaEntry) ∈ mem.iter ∧ l ≤ lsn)

/-- The page of the newest image that holds the key, and every record above
it, ascending, each lsn once. -/
structure Reconstruction.Exact (r : Reconstruction) : Prop where
  base : (r.base = none ∧ r.baseLsn = none ∧ ∀ b page, ¬ ImageAt layers key lsn b page)
    ∨ ∃ page b, r.base = some page ∧ r.baseLsn = some b ∧ ImageAt layers key lsn b page
      ∧ ∀ b' page', ImageAt layers key lsn b' page' → b' ≤ b
  ascending : r.records.Pairwise fun a b => a.1 < b.1
  sound : ∀ l record, (l, record) ∈ r.records →
    RecordAt layers mem key lsn l record ∧ r.baseLsn.getD 0 < l
  complete : ∀ l record, RecordAt layers mem key lsn l record → r.baseLsn.getD 0 < l →
    ∃ record', (l, record') ∈ r.records

end BruteForce

/-! ## The caches -/

namespace BlockCache

/-- What the cache holds. -/
def All (P : LayerName → Nat → StoredBlock → Prop) (c : BlockCache) : Prop :=
  ∀ e ∈ c.blocks, P e.1.1 e.1.2 e.2.block

variable {P : LayerName → Nat → StoredBlock → Prop} {c : BlockCache}

theorem All.lookup {name : LayerName} {offset : Nat} {e : Cached} (h : c.All P)
    (hl : c.blocks.lookup (name, offset) = some e) : P name offset e.block := by
  obtain ⟨l₁, l₂, heq, -⟩ := List.lookup_eq_some_iff.mp hl
  exact h ((name, offset), e) (by rw [heq]; simp)

theorem All.get (h : c.All P) (name : LayerName) (offset : Nat) :
    (c.get name offset).2.All P ∧ ∀ b, (c.get name offset).1 = some b → P name offset b := by
  unfold BlockCache.get
  cases hl : c.blocks.lookup (name, offset) with
  | none => exact ⟨h, nofun⟩
  | some e =>
    have he := h.lookup hl
    refine ⟨fun x hx => ?_, fun b hb => Option.some.inj hb ▸ he⟩
    rcases List.mem_cons.mp hx with rfl | hx
    · exact he
    · exact h x (List.mem_of_mem_filter hx)

theorem All.evict (h : c.All P) : c.evict.All P := by
  have main : ∀ (es : List ((LayerName × Nat) × Cached)) (c : BlockCache), c.All P →
      (evictLoop (c.budget - c.budget / 4) es c).All P := by
    have loop : ∀ (target : Nat) (es : List ((LayerName × Nat) × Cached)) (c : BlockCache),
        c.All P → (evictLoop target es c).All P := by
      intro target es
      induction es with
      | nil => exact fun c h => h
      | cons e es ih =>
        intro c h
        rw [evictLoop]
        split
        · exact h
        · exact ih _ fun x hx => h x (List.mem_of_mem_filter hx)
    exact fun es c => loop _ es c
  exact main _ c h

theorem All.put {name : LayerName} {offset : Nat} {b : StoredBlock} (h : c.All P)
    (hb : P name offset b) : (c.put name offset b).All P := by
  unfold BlockCache.put
  split
  · exact h
  · have hput : BlockCache.All P { c with
        clock := c.clock + 1
        blocks := ((name, offset), ⟨b, c.clock + 1⟩)
          :: c.blocks.filter fun x => x.1 ≠ (name, offset)
        bytes := c.bytes + b.row.len
          - ((c.blocks.lookup (name, offset)).map fun e => e.block.row.len).getD 0 } := by
      intro x hx
      rcases List.mem_cons.mp hx with rfl | hx
      · exact hb
      · exact h x (List.mem_of_mem_filter hx)
    dsimp only
    split
    · exact hput.evict
    · exact hput

end BlockCache

/-! ## The layers of a read -/

/-- The layers are in the store where the reader looks for them, built by
the builders, and described by their footers. -/
structure Serves (env : ReaderEnv) (stored : BlockBody → Nat)
    (layers : List (LayerDesc × LayerBody)) : Prop where
  stored_pos : ∀ b, 0 < stored b
  built : ∀ d body, (d, body) ∈ layers → ∃ target o, target ≤ layerBlockTarget
    ∧ body.build stored env.crc target = .ok o ∧ env.fetch d = .ok o
    ∧ d.kind = o.footer.kind ∧ d.minKey = o.footer.minKey ∧ d.maxKey = o.footer.maxKey
    ∧ d.minLsn = o.footer.minLsn ∧ d.maxLsn = o.footer.maxLsn ∧ d.size = o.size

/-- Layers of one name are one object. -/
def SameNameSameObject (env : ReaderEnv) (layers : List (LayerDesc × LayerBody)) : Prop :=
  ∀ x ∈ layers, ∀ y ∈ layers, x.1.name = y.1.name → env.fetch x.1 = env.fetch y.1

/-- The caches hold nothing under the name of a layer that the layer does
not hold. -/
structure Coherent (env : ReaderEnv) (layers : List (LayerDesc × LayerBody)) (rd : LayerReader) :
    Prop where
  footers : ∀ n f, (n, f) ∈ rd.footers → ∀ x ∈ layers, x.1.name = n →
    ∀ o, env.fetch x.1 = .ok o → f = o.footer
  blocks : rd.blocks.All fun n off b => ∀ x ∈ layers, x.1.name = n →
    ∀ o, env.fetch x.1 = .ok o → b ∈ o.blocks ∧ b.row.offset = off

theorem coherent_new (env : ReaderEnv) (layers : List (LayerDesc × LayerBody)) (budget : Nat) :
    Coherent env layers ⟨[], BlockCache.new budget⟩ where
  footers := nofun
  blocks := nofun

/-- What may be cached under a name. -/
structure Shelf where
  footer : LayerName → LayerFooter → Prop
  block : LayerName → Nat → StoredBlock → Prop

/-- The caches hold nothing else. -/
structure Shelf.Bounds (sh : Shelf) (rd : LayerReader) : Prop where
  footers : ∀ n f, (n, f) ∈ rd.footers → sh.footer n f
  blocks : rd.blocks.All sh.block

theorem Shelf.bounds_new (sh : Shelf) (budget : Nat) : sh.Bounds ⟨[], BlockCache.new budget⟩ where
  footers := nofun
  blocks := nofun

/-- A footer shows a key as another one does: the filter says the same and,
where it says yes, the same rows are located. -/
def LayerFooter.ShowsAs (crc : Nat → List UInt8 → Nat) (f g : LayerFooter) (key : LayerKey) : Prop :=
  f.mayContain crc key = g.mayContain crc key
    ∧ (g.mayContain crc key = true → f.locate key = g.locate key)

/-- A read of the key looks at the block. -/
structure LayerObj.Looked (crc : Nat → List UInt8 → Nat) (o : LayerObj) (key : LayerKey)
    (b : StoredBlock) : Prop where
  may : o.footer.mayContain crc key = true
  mem : b ∈ o.blocks
  row : b.row ∈ o.footer.locate key

/-- What a read of the key puts on the shelf of a layer's object is allowed
there, and what it finds there shows the key as the object does. -/
structure Shelf.Shows (sh : Shelf) (env : ReaderEnv) (key : LayerKey) (d : LayerDesc)
    (o : LayerObj) : Prop where
  footer : sh.footer d.name o.footer
  block : ∀ b, o.Looked env.crc key b → sh.block d.name b.row.offset b
  reads : ∀ f, sh.footer d.name f → f.ShowsAs env.crc o.footer key
  hits : ∀ b c, o.Looked env.crc key b → sh.block d.name b.row.offset c → c = b

open Total

section Reads

variable {env : ReaderEnv} {stored : BlockBody → Nat} {layers : List (LayerDesc × LayerBody)}
  {d : LayerDesc} {body : LayerBody} {o : LayerObj}

theorem offset_unique {bs : List StoredBlock}
    (h : bs.Pairwise fun a b => a.row.offset < b.row.offset) {a b : StoredBlock} (ha : a ∈ bs)
    (hb : b ∈ bs) (heq : a.row.offset = b.row.offset) : a = b := by
  induction bs with
  | nil => cases ha
  | cons c bs ih =>
    obtain ⟨hc, hbs⟩ := List.pairwise_cons.mp h
    rcases List.mem_cons.mp ha with rfl | ha'
    · rcases List.mem_cons.mp hb with rfl | hb'
      · rfl
      · exact absurd heq (Nat.ne_of_lt (hc b hb'))
    · rcases List.mem_cons.mp hb with rfl | hb'
      · exact absurd heq.symm (Nat.ne_of_lt (hc a ha'))
      · exact ih hbs ha' hb'

theorem fetch_returns {I : LayerReader → Prop} (ho : env.fetch d = .ok o) :
    Returns I (ReaderEnv.block.liftExcept (env.fetch d)) (· = o) := by
  rw [ho]
  exact Returns.pure rfl

variable {sh : Shelf} {key : LayerKey}

theorem block_returns (hshows : sh.Shows env key d o) (ho : env.fetch d = .ok o) {b : StoredBlock}
    (hb : o.Looked env.crc key b) (hat : o.blockAt b.row.offset b.row.len = some b) :
    Returns sh.Bounds (env.block d b.row) (· = b) := by
  unfold ReaderEnv.block
  refine Returns.get.bind fun rd hrd => ?_
  obtain ⟨hcache, hhit⟩ := hrd.blocks.get d.name b.row.offset
  cases hget : rd.blocks.get d.name b.row.offset with
  | mk hit blocks =>
    rw [hget] at hcache hhit
    refine (Returns.set ⟨hrd.footers, hcache⟩).bind fun _ _ => ?_
    cases hit with
    | some c => exact Returns.pure (hshows.hits b c hb (hhit c rfl))
    | none =>
      refine (fetch_returns ho).bind ?_
      rintro o' rfl
      rw [hat]
      exact (Returns.modify fun rd hrd => ⟨hrd.footers, hrd.blocks.put (hshows.block b hb)⟩).bind
        fun _ _ => Returns.pure rfl

theorem footer_returns (hshows : sh.Shows env key d o) (ho : env.fetch d = .ok o)
    (hfit : o.size = d.size ∧ o.footer.kind = d.kind ∧ o.footer.minKey = d.minKey
      ∧ o.footer.maxKey = d.maxKey ∧ o.footer.minLsn = d.minLsn ∧ o.footer.maxLsn = d.maxLsn) :
    Returns sh.Bounds (env.footer d) fun f => f.ShowsAs env.crc o.footer key := by
  unfold ReaderEnv.footer
  refine Returns.get.bind fun rd hrd => ?_
  cases hl : rd.footers.lookup d.name with
  | some f =>
    obtain ⟨l₁, l₂, heq, -⟩ := List.lookup_eq_some_iff.mp hl
    have hmem : (d.name, f) ∈ rd.footers := by
      rw [heq]
      simp
    exact Returns.pure (hshows.reads f (hrd.footers d.name f hmem))
  | none =>
    refine (fetch_returns ho).bind ?_
    rintro o' rfl
    obtain ⟨hsize, hkind, hmin, hmax, hlo, hhi⟩ := hfit
    rw [if_neg (not_not.mpr hsize), if_neg (by simp [hkind, hmin, hmax, hlo, hhi])]
    refine (Returns.modify fun rd hrd => ⟨?_, hrd.blocks⟩).bind
      fun _ _ => Returns.pure ⟨rfl, fun _ => rfl⟩
    intro n f hf
    rcases List.mem_cons.mp hf with heq | hf
    · obtain ⟨rfl, rfl⟩ := Prod.mk.inj heq
      exact hshows.footer
    · exact hrd.footers n f hf

/-! ## What the object of a layer holds -/

/-- The object behind a descriptor holds a page for the key. -/
def HasPage (env : ReaderEnv) (d : LayerDesc) (key : LayerKey) (page : List UInt8) : Prop :=
  ∃ o, env.fetch d = .ok o ∧ ∃ b ∈ o.blocks, ∃ run, b.body = .image run
    ∧ (⟨key, page⟩ : ImageEntry) ∈ run

/-- The object behind a descriptor holds a record of the key. -/
def HasRecord (env : ReaderEnv) (d : LayerDesc) (key : LayerKey) (l : Lsn) (record : List UInt8) :
    Prop :=
  ∃ o, env.fetch d = .ok o ∧ ∃ b ∈ o.blocks, ∃ run, b.body = .delta run
    ∧ (⟨key, l, record⟩ : DeltaEntry) ∈ run

/-- A descriptor agrees with the footer of its object. -/
def Fits (d : LayerDesc) (o : LayerObj) : Prop :=
  o.size = d.size ∧ o.footer.kind = d.kind ∧ o.footer.minKey = d.minKey
    ∧ o.footer.maxKey = d.maxKey ∧ o.footer.minLsn = d.minLsn ∧ o.footer.maxLsn = d.maxLsn

variable {es : List ImageEntry}

theorem Serves.image (hs : Serves env stored layers) {b : Lsn}
    (hd : (d, LayerBody.image b es) ∈ layers) :
    ∃ o, env.fetch d = .ok o ∧ o.Holds env.crc (imageFormat b) es ∧ Fits d o ∧ d.kind = .image
      ∧ d.minLsn = b := by
  obtain ⟨target, o, htarget, hbuild, ho, hk, h1, h2, h3, h4, h5⟩ := hs.built d _ hd
  obtain ⟨-, -, -, hkind, -, -, hlsn, -, -⟩ := buildLayer_ok hbuild
  refine ⟨o, ho, holds_of_build (imageFormat_lawful b) hs.stored_pos htarget hbuild,
    ⟨h5.symm, hk.symm, h1.symm, h2.symm, h3.symm, h4.symm⟩, hk.trans hkind, ?_⟩
  rw [h3]
  exact (Prod.mk.inj hlsn).1

theorem Serves.delta (hs : Serves env stored layers) {es : List DeltaEntry}
    (hd : (d, LayerBody.delta es) ∈ layers) :
    ∃ o, env.fetch d = .ok o ∧ o.Holds env.crc deltaFormat es ∧ Fits d o ∧ d.kind = .delta := by
  obtain ⟨target, o, htarget, hbuild, ho, hk, h1, h2, h3, h4, h5⟩ := hs.built d _ hd
  obtain ⟨-, -, -, hkind, -, -, -, -, -⟩ := buildLayer_ok hbuild
  exact ⟨o, ho, holds_of_build deltaFormat_lawful hs.stored_pos htarget hbuild,
    ⟨h5.symm, hk.symm, h1.symm, h2.symm, h3.symm, h4.symm⟩, hk.trans hkind⟩

variable {key : LayerKey}

theorem hasPage_iff (hs : Serves env stored layers) {b : Lsn}
    (hd : (d, LayerBody.image b es) ∈ layers) {page : List UInt8} :
    HasPage env d key page ↔ (⟨key, page⟩ : ImageEntry) ∈ es := by
  obtain ⟨o, ho, hh, -⟩ := hs.image hd
  constructor
  · rintro ⟨o', ho', b', hb', run, hbody, hmem⟩
    rw [ho] at ho'
    cases ho'
    obtain ⟨run', hbody', -, -, -, hrun⟩ := hh.runs b' hb'
    obtain rfl : run = run' := BlockBody.image.inj (hbody.symm.trans hbody')
    exact (hrun _ hmem).1
  · intro hmem
    obtain ⟨b', hb', run, hbody, her⟩ := hh.all _ hmem
    exact ⟨o, ho, b', hb', run, hbody, her⟩

theorem hasRecord_iff (hs : Serves env stored layers) {es : List DeltaEntry}
    (hd : (d, LayerBody.delta es) ∈ layers) {l : Lsn} {record : List UInt8} :
    HasRecord env d key l record ↔ (⟨key, l, record⟩ : DeltaEntry) ∈ es := by
  obtain ⟨o, ho, hh, -⟩ := hs.delta hd
  constructor
  · rintro ⟨o', ho', b', hb', run, hbody, hmem⟩
    rw [ho] at ho'
    cases ho'
    obtain ⟨run', hbody', -, -, -, hrun⟩ := hh.runs b' hb'
    obtain rfl : run = run' := BlockBody.delta.inj (hbody.symm.trans hbody')
    exact (hrun _ hmem).1
  · intro hmem
    obtain ⟨b', hb', run, hbody, her⟩ := hh.all _ hmem
    exact ⟨o, ho, b', hb', run, hbody, her⟩

/-! ## The loops -/

theorem looked_of_located {E : Type} {fmt : EntryFormat E} {es : List E}
    (hh : o.Holds env.crc fmt es) (hmay : o.footer.mayContain env.crc key = true) :
    ∀ row ∈ o.footer.locate key, ∃ b, o.Looked env.crc key b ∧ b.row = row := by
  intro row hrow
  obtain ⟨b, hb, rfl⟩ := hh.of_located hrow
  exact ⟨b, ⟨hmay, hb, hrow⟩, rfl⟩

/-- Located blocks of an image: a page of the key, or none of them has
one. -/
theorem pageIn_returns (hshows : sh.Shows env key d o) {at_ : Lsn}
    (ho : env.fetch d = .ok o) (hh : o.Holds env.crc (imageFormat at_) es) :
    ∀ rows : List LayerBlock, (∀ row ∈ rows, ∃ b, o.Looked env.crc key b ∧ b.row = row) →
      Returns sh.Bounds (env.pageIn d key rows) fun r =>
        (∀ page, r = some page → HasPage env d key page)
          ∧ (r = none → ∀ b ∈ o.blocks, b.row ∈ rows → ∀ run, b.body = .image run →
            ∀ e ∈ run, e.key ≠ key) := by
  intro rows
  induction rows with
  | nil =>
    intro _
    refine Returns.pure ⟨nofun, nofun⟩
  | cons row rows ih =>
    intro hrows
    obtain ⟨b, hb, rfl⟩ := hrows row List.mem_cons_self
    have hat := hh.blockAt hb.mem
    unfold ReaderEnv.pageIn
    refine (block_returns hshows ho hb hat).bind ?_
    rintro b' rfl
    obtain ⟨run, hdec, hbody, hrun⟩ := decodeImageBlock_ok hh hb.mem
    rw [hdec]
    dsimp only
    cases hfind : run.find? fun e => e.key = key with
    | some e =>
      have hkey : e.key = key := by simpa using List.find?_some hfind
      refine Returns.pure ⟨fun page hpage => ?_, nofun⟩
      obtain rfl := Option.some.inj hpage
      refine ⟨o, ho, b', hb.mem, run, hbody, ?_⟩
      rw [← hkey]
      exact List.mem_of_find?_eq_some hfind
    | none =>
      have hno := List.find?_eq_none.mp hfind
      refine (ih fun r hr => hrows r (.tail _ hr)).imp ?_
      rintro r ⟨hsome, hnone⟩
      refine ⟨hsome, fun hr c hc hrow run' hbody' e he => ?_⟩
      rcases List.mem_cons.mp hrow with heq | hrow
      · obtain rfl := offset_unique hh.offsets hc hb.mem (by rw [heq])
        obtain rfl : run = run' := BlockBody.image.inj (hbody.symm.trans hbody')
        have := hno e he
        simpa using this
      · exact hnone hr c hc hrow run' hbody' e he

/-- The images a read asks: one after the other until one holds the key. -/
def AskedImage (env : ReaderEnv) (key : LayerKey) : List LayerDesc → LayerDesc → Prop
  | [], _ => False
  | d :: ds, x => x = d ∨ (∀ page, ¬ HasPage env d key page) ∧ AskedImage env key ds x

theorem baseIn_returns (hs : Serves env stored layers) : ∀ ds : List LayerDesc,
    (∀ d ∈ ds, ∃ b es, (d, LayerBody.image b es) ∈ layers) →
    (∀ d, AskedImage env key ds d → ∀ o, env.fetch d = .ok o → sh.Shows env key d o) →
    ds.Pairwise (fun a b => b.minLsn ≤ a.minLsn) →
      Returns sh.Bounds (env.baseIn key ds) fun r =>
        (∀ page b, r = some (page, b) → (∃ d ∈ ds, HasPage env d key page ∧ d.minLsn = b)
            ∧ ∀ d ∈ ds, ∀ page', HasPage env d key page' → d.minLsn ≤ b)
          ∧ (r = none → ∀ d ∈ ds, ∀ page, ¬ HasPage env d key page) := by
  intro ds
  induction ds with
  | nil =>
    intro _ _ _
    exact Returns.pure ⟨nofun, nofun⟩
  | cons d ds ih =>
    intro hds hask hsorted
    obtain ⟨hd, hsorted'⟩ := List.pairwise_cons.mp hsorted
    obtain ⟨b, es, hmem⟩ := hds d List.mem_cons_self
    obtain ⟨o, ho, hh, hfit, -, rfl⟩ := hs.image hmem
    have hshows := hask d (.inl rfl) o ho
    -- Nothing in this image, so the rest of the list decides.
    have hskip : (∀ page, ¬ HasPage env d key page) →
        Returns sh.Bounds (env.baseIn key ds) fun r =>
          (∀ page b, r = some (page, b) →
              (∃ x ∈ d :: ds, HasPage env x key page ∧ x.minLsn = b)
                ∧ ∀ x ∈ d :: ds, ∀ page', HasPage env x key page' → x.minLsn ≤ b)
            ∧ (r = none → ∀ x ∈ d :: ds, ∀ page, ¬ HasPage env x key page) := by
      intro hno
      have hrest := ih (fun x hx => hds x (.tail _ hx))
        (fun x hx => hask x (.inr ⟨hno, hx⟩)) hsorted'
      refine hrest.imp ?_
      rintro r ⟨hsome, hnone⟩
      refine ⟨fun page c hr => ?_, fun hr x hx page => ?_⟩
      · obtain ⟨⟨x, hx, hp, hl⟩, hnew⟩ := hsome page c hr
        refine ⟨⟨x, .tail _ hx, hp, hl⟩, fun y hy page' hp' => ?_⟩
        rcases List.mem_cons.mp hy with rfl | hy
        · exact absurd hp' (hno page')
        · exact hnew y hy page' hp'
      · rcases List.mem_cons.mp hx with rfl | hx
        · exact hno page
        · exact hnone hr x hx page
    unfold ReaderEnv.baseIn
    refine (footer_returns hshows ho hfit).bind ?_
    rintro f ⟨hfilter, hlocate⟩
    rw [hfilter]
    by_cases hmay : o.footer.mayContain env.crc key = true
    · rw [if_pos hmay, hlocate hmay]
      refine (pageIn_returns hshows ho hh _ (looked_of_located hh hmay)).bind ?_
      rintro r ⟨hsome, hnone⟩
      cases r with
      | some page =>
        refine Returns.pure ⟨fun page' c hr => ?_, nofun⟩
        obtain ⟨rfl, rfl⟩ := Prod.mk.inj (Option.some.inj hr)
        refine ⟨⟨d, List.mem_cons_self, hsome page rfl, rfl⟩, fun x hx _ _ => ?_⟩
        rcases List.mem_cons.mp hx with rfl | hx
        · exact le_rfl
        · exact hd x hx
      | none =>
        refine hskip fun page hp => ?_
        have hpage := (hasPage_iff hs hmem).mp hp
        obtain ⟨c, hc, hloc, run, hbody, her⟩ := hh.located (imageFormat_lawful _) hpage
        exact hnone rfl c hc hloc run hbody _ her rfl
    · rw [if_neg hmay]
      refine hskip fun page hp => ?_
      have hfound : o.footer.mayContain env.crc key = true :=
        hh.filter ⟨key, page⟩ ((hasPage_iff hs hmem).mp hp)
      exact hmay hfound

/-- What the records of some blocks or layers make of a merge: nothing that
is not one of them, and every lsn of theirs. -/
def Merged (m m' : OrdMap Lsn (List UInt8)) (P : Lsn → List UInt8 → Prop) : Prop :=
  (∀ e ∈ m'.entries, e ∈ m.entries ∨ P e.1 e.2)
    ∧ ∀ l, ((∃ r, (l, r) ∈ m.entries) ∨ ∃ r, P l r) → ∃ r, (l, r) ∈ m'.entries

variable {m : OrdMap Lsn (List UInt8)}

theorem Merged.refl {P : Lsn → List UInt8 → Prop} (h : ∀ l r, ¬ P l r) : Merged m m P :=
  ⟨fun _ he => .inl he, fun l hl => hl.elim id fun ⟨r, hr⟩ => absurd hr (h l r)⟩

theorem Merged.trans {m₁ m₂ : OrdMap Lsn (List UInt8)} {P P₁ P₂ : Lsn → List UInt8 → Prop}
    (h₁ : Merged m m₁ P₁) (h₂ : Merged m₁ m₂ P₂) (h : ∀ l r, P l r ↔ P₁ l r ∨ P₂ l r) :
    Merged m m₂ P := by
  refine ⟨fun e he => ?_, fun l hl => ?_⟩
  · rcases h₂.1 e he with he | he
    · rcases h₁.1 e he with he | he
      · exact .inl he
      · exact .inr ((h _ _).mpr (.inl he))
    · exact .inr ((h _ _).mpr (.inr he))
  · rcases hl with hl | ⟨r, hr⟩
    · exact h₂.2 l (.inl (h₁.2 l (.inl hl)))
    · rcases (h l r).mp hr with hr | hr
      · exact h₂.2 l (.inl (h₁.2 l (.inr ⟨r, hr⟩)))
      · exact h₂.2 l (.inr ⟨r, hr⟩)

theorem Merged.congr {m m' : OrdMap Lsn (List UInt8)} {P P' : Lsn → List UInt8 → Prop}
    (h : Merged m m' P) (heq : ∀ l r, P l r ↔ P' l r) : Merged m m' P' := by
  obtain rfl : P = P' := funext fun l => funext fun r => propext (heq l r)
  exact h

theorem merged_foldl {α : Type} {k : α → Lsn} {v : α → List UInt8} {xs : List α} :
    Merged m (xs.foldl (fun m x => m.insert (k x) (v x)) m) fun l r =>
      ∃ x ∈ xs, k x = l ∧ v x = r := by
  refine ⟨fun e he => ?_, fun l hl => ?_⟩
  · rcases OrdMap.of_mem_foldl_insert he with he | ⟨x, hx, rfl⟩
    · exact .inl he
    · exact .inr ⟨x, hx, rfl, rfl⟩
  · refine OrdMap.key_foldl_insert ?_
    rcases hl with hl | ⟨r, x, hx, hk, -⟩
    · exact .inl hl
    · exact .inr ⟨x, hx, hk⟩

/-- The records of the key in some rows of an object. -/
def RowRecord (o : LayerObj) (rows : List LayerBlock) (key : LayerKey) (floor ceil l : Lsn)
    (r : List UInt8) : Prop :=
  (∃ b ∈ o.blocks, b.row ∈ rows ∧ ∃ run, b.body = .delta run
    ∧ (⟨key, l, r⟩ : DeltaEntry) ∈ run) ∧ floor < l ∧ l ≤ ceil

theorem recordsIn_returns (hshows : sh.Shows env key d o) {es : List DeltaEntry}
    (ho : env.fetch d = .ok o) (hh : o.Holds env.crc deltaFormat es) (floor ceil : Lsn) :
    ∀ (rows : List LayerBlock) (m : OrdMap Lsn (List UInt8)),
      (∀ row ∈ rows, ∃ b, o.Looked env.crc key b ∧ b.row = row) →
      Returns sh.Bounds (env.recordsIn d key floor ceil rows m) fun m' =>
        Merged m m' (RowRecord o rows key floor ceil) := by
  intro rows
  induction rows with
  | nil =>
    intro m _
    refine Returns.pure (Merged.refl ?_)
    rintro l r ⟨⟨b, -, hrow, -⟩, -⟩
    cases hrow
  | cons row rows ih =>
    intro m hrows
    obtain ⟨b, hb, rfl⟩ := hrows row List.mem_cons_self
    have hat := hh.blockAt hb.mem
    unfold ReaderEnv.recordsIn
    refine (block_returns hshows ho hb hat).bind ?_
    rintro b' rfl
    obtain ⟨run, hdec, hbody, -⟩ := decodeDeltaBlock_ok hh hb.mem
    rw [hdec]
    refine (ih _ fun r hr => hrows r (.tail _ hr)).imp fun m' hm' => ?_
    refine (merged_foldl (k := DeltaEntry.lsn) (v := DeltaEntry.record)).trans hm' ?_
    intro l r
    constructor
    · rintro ⟨⟨c, hc, hrow, run', hbody', hmem⟩, hlo, hhi⟩
      rcases List.mem_cons.mp hrow with heq | hrow
      · left
        obtain rfl := offset_unique hh.offsets hc hb.mem (by rw [heq])
        obtain rfl : run = run' := BlockBody.delta.inj (hbody.symm.trans hbody')
        exact ⟨_, List.mem_filter.mpr ⟨hmem, by simp [hlo, hhi]⟩, rfl, rfl⟩
      · exact .inr ⟨⟨c, hc, hrow, run', hbody', hmem⟩, hlo, hhi⟩
    · rintro (⟨e, he, rfl, rfl⟩ | ⟨⟨c, hc, hrow, rest⟩, hlo, hhi⟩)
      · rw [List.mem_filter, decide_eq_true_eq] at he
        obtain ⟨he, rfl, hlo, hhi⟩ := he
        exact ⟨⟨b', hb.mem, List.mem_cons_self, run, hbody, he⟩, hlo, hhi⟩
      · exact ⟨⟨c, hc, .tail _ hrow, rest⟩, hlo, hhi⟩

theorem mergeIn_returns (hs : Serves env stored layers) (floor lsn : Lsn) :
    ∀ (ds : List LayerDesc) (m : OrdMap Lsn (List UInt8)),
    (∀ d ∈ ds, ∃ es, (d, LayerBody.delta es) ∈ layers) →
    (∀ d ∈ ds, ∀ o, env.fetch d = .ok o → sh.Shows env key d o) →
      Returns sh.Bounds (env.mergeIn key floor lsn ds m) fun m' =>
        Merged m m' fun l r => ∃ d ∈ ds, HasRecord env d key l r ∧ floor < l ∧ l ≤ d.clamp lsn := by
  intro ds
  induction ds with
  | nil =>
    intro m _ _
    refine Returns.pure (Merged.refl ?_)
    rintro l r ⟨d, hd, -⟩
    cases hd
  | cons d ds ih =>
    intro m hds hask
    obtain ⟨es, hmem⟩ := hds d List.mem_cons_self
    obtain ⟨o, ho, hh, hfit, -⟩ := hs.delta hmem
    have hshows := hask d List.mem_cons_self o ho
    have hrest := fun m => ih m (fun x hx => hds x (.tail _ hx))
      fun x hx => hask x (.tail _ hx)
    unfold ReaderEnv.mergeIn
    refine (footer_returns hshows ho hfit).bind ?_
    rintro f ⟨hfilter, hlocate⟩
    rw [hfilter]
    by_cases hmay : o.footer.mayContain env.crc key = true
    · rw [if_pos hmay, hlocate hmay]
      have hrows := looked_of_located hh hmay
      refine (recordsIn_returns hshows ho hh floor (d.clamp lsn) _ m hrows).bind
        fun m₁ hm₁ => (hrest m₁).imp fun m₂ hm₂ => hm₁.trans hm₂ ?_
      intro l r
      constructor
      · rintro ⟨x, hx, hrec, hlo, hhi⟩
        rcases List.mem_cons.mp hx with rfl | hx
        · left
          have hes := (hasRecord_iff hs hmem).mp hrec
          obtain ⟨c, hc, hloc, run, hbody, her⟩ := hh.located deltaFormat_lawful hes
          exact ⟨⟨c, hc, hloc, run, hbody, her⟩, hlo, hhi⟩
        · exact .inr ⟨x, hx, hrec, hlo, hhi⟩
      · rintro (⟨⟨c, hc, -, run, hbody, her⟩, hlo, hhi⟩ | ⟨x, hx, rest⟩)
        · exact ⟨d, List.mem_cons_self, ⟨o, ho, c, hc, run, hbody, her⟩, hlo, hhi⟩
        · exact ⟨x, .tail _ hx, rest⟩
    · rw [if_neg hmay]
      refine (hrest m).imp fun m' hm' => hm'.congr fun l r => ?_
      constructor
      · rintro ⟨x, hx, rest⟩
        exact ⟨x, .tail _ hx, rest⟩
      · rintro ⟨x, hx, hrec, rest⟩
        rcases List.mem_cons.mp hx with rfl | hx
        · have hfound : o.footer.mayContain env.crc key = true :=
            hh.filter ⟨key, l, r⟩ ((hasRecord_iff hs hmem).mp hrec)
          exact absurd hfound hmay
        · exact ⟨x, hx, hrec, rest⟩

/-! ## The read -/

variable {lsn : Lsn}

theorem clamp_le_upto {d : LayerDesc} {u : Lsn} (h : d.upto = some u) : d.clamp lsn ≤ u := by
  simp [LayerDesc.clamp, h]

theorem Serves.map (hs : Serves env stored layers) :
    ∃ m, LayerMap.new (layers.map Prod.fst) = .ok m := by
  refine LayerMap.new_of_wf fun l hl => ?_
  obtain ⟨⟨d, body⟩, hmem, rfl⟩ := List.mem_map.mp hl
  cases body with
  | delta es =>
    obtain ⟨target, o, -, hbuild, -⟩ := hs.built d _ hmem
    obtain ⟨-, hne, -⟩ := buildLayer_ok hbuild
    obtain ⟨o, -, hh, ⟨-, -, h1, h2, h3, h4⟩, hk⟩ := hs.delta hmem
    obtain ⟨e, he⟩ := List.exists_mem_of_ne_nil es hne
    have hkeys := hh.keys e he
    have hlsns := hh.lsns e he
    rw [h1, h2] at hkeys
    rw [h3, h4] at hlsns
    refine ⟨le_trans hkeys.1 hkeys.2, Nat.le_trans hlsns.1 hlsns.2, fun h => ?_⟩
    rw [hk] at h
    cases h
  | image b es =>
    obtain ⟨target, o, -, hbuild, -, -, -, -, h3', h4', -⟩ := hs.built d _ hmem
    obtain ⟨-, hne, -, -, -, -, hlsn, -, -⟩ := buildLayer_ok hbuild
    obtain ⟨o, -, hh, ⟨-, -, h1, h2, -, -⟩, -⟩ := hs.image hmem
    obtain ⟨e, he⟩ := List.exists_mem_of_ne_nil es hne
    have hkeys := hh.keys e he
    rw [h1, h2] at hkeys
    obtain ⟨hlo, hhi⟩ := Prod.mk.inj hlsn
    have heq : d.minLsn = d.maxLsn := by rw [h3', h4', hlo, hhi]
    exact ⟨le_trans hkeys.1 hkeys.2, Nat.le_of_eq heq, fun _ => heq⟩

variable {map : LayerMap}

/-- The images of a plan that hold the key are the images brute force
finds. -/
theorem imageAt_iff (hs : Serves env stored layers)
    (hmap : LayerMap.new (layers.map Prod.fst) = .ok map) {b : Lsn} {page : List UInt8} :
    ImageAt layers key lsn b page
      ↔ ∃ d ∈ (map.plan key lsn).images, HasPage env d key page ∧ d.minLsn = b := by
  constructor
  · rintro ⟨d, es, hmem, hpage, hcut⟩
    obtain ⟨o, -, hh, ⟨-, -, h1, h2, -, -⟩, hk, rfl⟩ := hs.image hmem
    have hkeys := hh.keys _ hpage
    rw [h1, h2] at hkeys
    refine ⟨d, (LayerMap.mem_plan_images hmap).mpr ?_, (hasPage_iff hs hmem).mpr hpage, rfl⟩
    exact ⟨List.mem_map.mpr ⟨_, hmem, rfl⟩, hk, hkeys.1, hkeys.2, hcut⟩
  · rintro ⟨d, hd, hpage, rfl⟩
    obtain ⟨hd, hk, -, -, hcut⟩ := (LayerMap.mem_plan_images hmap).mp hd
    obtain ⟨⟨d, body⟩, hmem, rfl⟩ := List.mem_map.mp hd
    cases body with
    | delta es =>
      obtain ⟨o, -, -, -, hk'⟩ := hs.delta hmem
      rw [hk'] at hk
      cases hk
    | image b es =>
      obtain ⟨-, -, -, -, -, rfl⟩ := hs.image hmem
      exact ⟨d, es, hmem, (hasPage_iff hs hmem).mp hpage, hcut⟩

/-- The records of the planned deltas and the memtable above the floor are
the records brute force finds there. -/
theorem recordAt_iff (hs : Serves env stored layers)
    (hmap : LayerMap.new (layers.map Prod.fst) = .ok map) {mem : Memtable} {floor l : Lsn}
    {r : List UInt8} : RecordAt layers mem key lsn l r ∧ floor < l
      ↔ (∃ d ∈ (map.plan key lsn).above floor,
          HasRecord env d key l r ∧ floor < l ∧ l ≤ d.clamp lsn)
        ∨ ∃ x ∈ mem.recordsFor key floor lsn, x.1 = l ∧ x.2 = r := by
  constructor
  · rintro ⟨⟨d, es, hmem, hrec, hcut⟩ | ⟨hrec, hle⟩, hlo⟩
    · left
      obtain ⟨o, -, hh, ⟨-, -, h1, h2, h3, h4⟩, hk⟩ := hs.delta hmem
      have hkeys := hh.keys _ hrec
      have hlsns := hh.lsns _ hrec
      rw [h1, h2] at hkeys
      rw [h3, h4] at hlsns
      have hlsns' : d.minLsn ≤ l ∧ l ≤ d.maxLsn := hlsns
      refine ⟨d, (LayerMap.mem_plan_above hmap).mpr ?_, (hasRecord_iff hs hmem).mpr hrec, hlo, hcut⟩
      refine ⟨List.mem_map.mpr ⟨_, hmem, rfl⟩, hk, hkeys.1, hkeys.2,
        Nat.le_trans hlsns'.1 hcut, Nat.lt_of_lt_of_le hlo hlsns'.2, fun u hu => ?_⟩
      exact Nat.lt_of_lt_of_le hlo (Nat.le_trans hcut (clamp_le_upto hu))
    · exact .inr ⟨(l, r), Memtable.mem_recordsFor.mpr ⟨hrec, hlo, hle⟩, rfl, rfl⟩
  · rintro (⟨d, hd, hrec, hlo, hcut⟩ | ⟨⟨l', r'⟩, hx, rfl, rfl⟩)
    · refine ⟨.inl ?_, hlo⟩
      obtain ⟨hd, hk, -⟩ := (LayerMap.mem_plan_above hmap).mp hd
      obtain ⟨⟨d, body⟩, hmem, rfl⟩ := List.mem_map.mp hd
      cases body with
      | image b es =>
        obtain ⟨o, -, -, -, hk', -⟩ := hs.image hmem
        rw [hk'] at hk
        cases hk
      | delta es => exact ⟨d, es, hmem, (hasRecord_iff hs hmem).mp hrec, hcut⟩
    · obtain ⟨hmem, hlo, hle⟩ := Memtable.mem_recordsFor.mp hx
      exact ⟨.inr ⟨hmem, hle⟩, hlo⟩

/-- The lsn above which records count: of the newest image, or zero. -/
def BaseAt (layers : List (LayerDesc × LayerBody)) (key : LayerKey) (lsn floor : Lsn) : Prop :=
  (∃ page, ImageAt layers key lsn floor page
      ∧ ∀ b page', ImageAt layers key lsn b page' → b ≤ floor)
    ∨ (floor = 0 ∧ ∀ b page, ¬ ImageAt layers key lsn b page)

/-- The layers a read asks: the images of the plan until one holds the key,
and the deltas of the plan above it. -/
def Asked (env : ReaderEnv) (layers : List (LayerDesc × LayerBody)) (map : LayerMap)
    (key : LayerKey) (lsn : Lsn) (d : LayerDesc) : Prop :=
  AskedImage env key (map.plan key lsn).images d
    ∨ ∃ floor, BaseAt layers key lsn floor ∧ d ∈ (map.plan key lsn).above floor

theorem AskedImage.mem {ds : List LayerDesc} (h : AskedImage env key ds d) : d ∈ ds := by
  induction ds with
  | nil => cases h
  | cons x ds ih =>
    rcases h with rfl | ⟨-, h⟩
    · exact List.mem_cons_self
    · exact .tail _ (ih h)

theorem asked_mem (hmap : LayerMap.new (layers.map Prod.fst) = .ok map)
    (h : Asked env layers map key lsn d) : ∃ body, (d, body) ∈ layers := by
  have hd : d ∈ layers.map Prod.fst := by
    rcases h with h | ⟨floor, -, h⟩
    · exact ((LayerMap.mem_plan_images hmap).mp h.mem).1
    · exact ((LayerMap.mem_plan_above hmap).mp h).1
  obtain ⟨⟨d, body⟩, hmem, rfl⟩ := List.mem_map.mp hd
  exact ⟨body, hmem⟩

theorem Serves.offsets (hs : Serves env stored layers) (hd : (d, body) ∈ layers)
    (ho : env.fetch d = .ok o) : o.blocks.Pairwise fun a b => a.row.offset < b.row.offset := by
  cases body with
  | delta es =>
    obtain ⟨o', ho', hh, -⟩ := hs.delta hd
    cases ho.symm.trans ho'
    exact hh.offsets
  | image b es =>
    obtain ⟨o', ho', hh, -⟩ := hs.image hd
    cases ho.symm.trans ho'
    exact hh.offsets

theorem reconstruct_shows (hs : Serves env stored layers)
    (hmap : LayerMap.new (layers.map Prod.fst) = .ok map) (mem : Memtable) (lsn : Lsn)
    (hask : ∀ d, Asked env layers map key lsn d → ∀ o, env.fetch d = .ok o → sh.Shows env key d o) :
    Returns sh.Bounds (env.reconstruct map mem key lsn) fun r => r.Exact layers mem key lsn := by
  have himages : ∀ d ∈ (map.plan key lsn).images,
      ∃ b es, (d, LayerBody.image b es) ∈ layers := by
    intro d hd
    obtain ⟨hd, hk, -⟩ := (LayerMap.mem_plan_images hmap).mp hd
    obtain ⟨⟨d, body⟩, hmem, rfl⟩ := List.mem_map.mp hd
    cases body with
    | image b es => exact ⟨b, es, hmem⟩
    | delta es =>
      obtain ⟨o, -, -, -, hk'⟩ := hs.delta hmem
      rw [hk'] at hk
      cases hk
  have hdeltas : ∀ floor, ∀ d ∈ (map.plan key lsn).above floor,
      ∃ es, (d, LayerBody.delta es) ∈ layers := by
    intro floor d hd
    obtain ⟨hd, hk, -⟩ := (LayerMap.mem_plan_above hmap).mp hd
    obtain ⟨⟨d, body⟩, hmem, rfl⟩ := List.mem_map.mp hd
    cases body with
    | delta es => exact ⟨es, hmem⟩
    | image b es =>
      obtain ⟨o, -, -, -, hk', -⟩ := hs.image hmem
      rw [hk'] at hk
      cases hk
  unfold ReaderEnv.reconstruct
  refine (baseIn_returns hs _ himages (fun d hd => hask d (.inl hd))
    LayerMap.plan_images_sorted).bind fun base ⟨hsome, hnone⟩ => ?_
  have hbase : BaseAt layers key lsn ((base.map Prod.snd).getD 0) := by
    cases base with
    | none =>
      refine .inr ⟨rfl, fun b page himg => ?_⟩
      obtain ⟨d, hd, hp, -⟩ := (imageAt_iff hs hmap).mp himg
      exact hnone rfl d hd page hp
    | some out =>
      obtain ⟨page, b⟩ := out
      obtain ⟨⟨d, hd, hp, hl⟩, hnew⟩ := hsome page b rfl
      refine .inl ⟨page, (imageAt_iff hs hmap).mpr ⟨d, hd, hp, hl⟩, fun b' page' himg => ?_⟩
      obtain ⟨d', hd', hp', rfl⟩ := (imageAt_iff hs hmap).mp himg
      exact hnew d' hd' page' hp'
  refine (mergeIn_returns hs _ lsn _ OrdMap.empty (hdeltas _)
    fun d hd => hask d (.inr ⟨_, hbase, hd⟩)).bind fun merged hmerged => Returns.pure ?_
  generalize hfloor : (base.map Prod.snd).getD 0 = floor at hmerged ⊢
  have hmem : Merged merged
      ((mem.recordsFor key floor lsn).foldl (fun m r => m.insert r.1 r.2) merged)
      fun l r => ∃ x ∈ mem.recordsFor key floor lsn, x.1 = l ∧ x.2 = r := merged_foldl
  have hall := hmerged.trans hmem fun l r => recordAt_iff hs hmap
  refine ⟨?_, OrdMap.sorted _, fun l r hr => ?_, fun l r hr hlo => ?_⟩
  · cases base with
    | none =>
      refine .inl ⟨rfl, rfl, fun b page himg => ?_⟩
      obtain ⟨d, hd, hp, -⟩ := (imageAt_iff hs hmap).mp himg
      exact hnone rfl d hd page hp
    | some out =>
      obtain ⟨page, b⟩ := out
      obtain ⟨⟨d, hd, hp, hl⟩, hnew⟩ := hsome page b rfl
      refine .inr ⟨page, b, rfl, rfl, (imageAt_iff hs hmap).mpr ⟨d, hd, hp, hl⟩, ?_⟩
      intro b' page' himg
      obtain ⟨d', hd', hp', rfl⟩ := (imageAt_iff hs hmap).mp himg
      exact hnew d' hd' page' hp'
  · rcases hall.1 (l, r) hr with h | h
    · cases h
    · dsimp only
      rw [hfloor]
      exact h
  · dsimp only at hlo
    rw [hfloor] at hlo
    exact hall.2 l (.inr ⟨r, hr, hlo⟩)

/-- Where layers of one name are one object, the caches of a coherent reader
serve every read. -/
theorem reconstruct_returns (hs : Serves env stored layers) (hsame : SameNameSameObject env layers)
    (hmap : LayerMap.new (layers.map Prod.fst) = .ok map) (mem : Memtable) (key : LayerKey)
    (lsn : Lsn) : Returns (Coherent env layers) (env.reconstruct map mem key lsn)
      fun r => r.Exact layers mem key lsn := by
  let sh : Shelf :=
    ⟨fun n f => ∀ x ∈ layers, x.1.name = n → ∀ o, env.fetch x.1 = .ok o → f = o.footer,
      fun n off b => ∀ x ∈ layers, x.1.name = n → ∀ o, env.fetch x.1 = .ok o →
        b ∈ o.blocks ∧ b.row.offset = off⟩
  have hbounds : Coherent env layers = sh.Bounds :=
    funext fun rd => propext ⟨fun h => ⟨h.footers, h.blocks⟩, fun h => ⟨h.footers, h.blocks⟩⟩
  rw [hbounds]
  refine reconstruct_shows hs hmap mem lsn fun d hd o ho => ?_
  obtain ⟨body, hmem⟩ := asked_mem hmap hd
  have hoffsets := hs.offsets hmem ho
  have hshared : ∀ x ∈ layers, x.1.name = d.name → ∀ o', env.fetch x.1 = .ok o' → o = o' := by
    intro x hx hname o' ho'
    have heq := hsame x hx (d, body) hmem hname
    rw [ho, ho'] at heq
    cases heq
    rfl
  refine ⟨fun x hx hname o' ho' => ?_, fun b hb x hx hname o' ho' => ?_, fun f hf => ?_,
    fun b c hb hc => ?_⟩
  · rw [hshared x hx hname o' ho']
  · rw [← hshared x hx hname o' ho']
    exact ⟨hb.mem, rfl⟩
  · rw [hf (d, body) hmem rfl o ho]
    exact ⟨rfl, fun _ => rfl⟩
  · obtain ⟨hmemc, hoff⟩ := hc (d, body) hmem rfl o ho
    exact offset_unique hoffsets hmemc hb.mem hoff

theorem Reconstruction.Exact.absent {r : Reconstruction} {mem : Memtable} (h : r.Exact layers mem key lsn)
    (himg : ∀ b page, ¬ ImageAt layers key lsn b page)
    (hrec : ∀ l record, RecordAt layers mem key lsn l record → l = 0) :
    r.base = none ∧ r.records = [] := by
  constructor
  · rcases h.base with ⟨hb, -⟩ | ⟨page, b, -, -, hat, -⟩
    · exact hb
    · exact absurd hat (himg b page)
  · rw [List.eq_nil_iff_forall_not_mem]
    rintro ⟨l, record⟩ hmem
    obtain ⟨hat, hlo⟩ := h.sound l record hmem
    rw [hrec l record hat] at hlo
    exact absurd hlo (Nat.not_lt_zero _)

/-- What a read of the key leaves in the caches of a layer shows another key
as the other layer's own object does. -/
structure Alike (env : ReaderEnv) (key : LayerKey) (o : LayerObj) (k : LayerKey) (o' : LayerObj) :
    Prop where
  footer : o.footer.ShowsAs env.crc o'.footer k
  block : ∀ b b', o.Looked env.crc key b → o'.Looked env.crc k b' → b'.row.offset = b.row.offset →
    b = b'

/-- What may be cached for a set of reads, keys in layers: under a name what
shows every one of its keys as the layer's own object does. -/
def shelfOf (env : ReaderEnv) (reads : LayerDesc → LayerKey → Prop) : Shelf where
  footer n f := ∀ d k, reads d k → d.name = n → ∀ o, env.fetch d = .ok o →
    f.ShowsAs env.crc o.footer k
  block n off b := ∀ d k, reads d k → d.name = n → ∀ o, env.fetch d = .ok o →
    ∀ b', o.Looked env.crc k b' → b'.row.offset = off → b = b'

/-- Layers built by the builders, of any owner and cut, a memtable, a key
and a read point: the reader returns the newest image's page and exactly
the records above it, whatever its caches hold for a set of reads with this
one in it, and leaves them so, as long as what this read puts there under a
name shows those reads what their own layers do. -/
theorem reconstruct_exact (hs : Serves env stored layers) (mem : Memtable) (key : LayerKey)
    (lsn : Lsn) : ∃ map, LayerMap.new (layers.map Prod.fst) = .ok map
      ∧ ∀ reads : LayerDesc → LayerKey → Prop,
        (∀ d, Asked env layers map key lsn d → reads d key
          ∧ ∀ d' k, reads d' k → d'.name = d.name → ∀ o o', env.fetch d = .ok o →
            env.fetch d' = .ok o' → Alike env key o k o') →
        ∀ rd, (shelfOf env reads).Bounds rd → ∃ r rd',
          exec (env.reconstruct map mem key lsn) rd = (.ok r, rd')
            ∧ (shelfOf env reads).Bounds rd' ∧ r.Exact layers mem key lsn
            ∧ ((∀ b page, ¬ ImageAt layers key lsn b page) →
              (∀ l record, RecordAt layers mem key lsn l record → l = 0) →
              r.base = none ∧ r.records = []) := by
  obtain ⟨map, hmap⟩ := hs.map
  refine ⟨map, hmap, fun reads hreads rd hrd => ?_⟩
  have hshows : ∀ d, Asked env layers map key lsn d → ∀ o, env.fetch d = .ok o →
      (shelfOf env reads).Shows env key d o := by
    intro d hd o ho
    obtain ⟨hself, hothers⟩ := hreads d hd
    exact ⟨fun d' k hk hname o' ho' => (hothers d' k hk hname o o' ho ho').footer,
      fun b hb d' k hk hname o' ho' b' hb' hoff =>
        (hothers d' k hk hname o o' ho ho').block b b' hb hb' hoff,
      fun f hf => hf d key hself rfl o ho,
      fun b c hb hc => hc d key hself rfl o ho b hb rfl⟩
  obtain ⟨r, rd', hexec, hrd', hr⟩ := reconstruct_shows hs hmap mem lsn hshows rd hrd
  exact ⟨r, rd', hexec, hrd', hr, fun himg hrec => hr.absent himg hrec⟩

end Reads

/-! ## Two owners, one name -/

section Samples

def sampleKey : LayerKey := LayerKey.page 1 2 3 0 5

/-- A layer a tenant flushed. -/
def ownEntries : List DeltaEntry := [⟨sampleKey, 10, [1]⟩, ⟨sampleKey, 30, [3]⟩]

/-- A layer of its parent over the same keys and lsns. -/
def parentEntries : List DeltaEntry :=
  [⟨sampleKey, 10, [1]⟩, ⟨sampleKey, 20, [2]⟩, ⟨sampleKey, 30, [3]⟩]

def sampleObj (es : List DeltaEntry) : Except LayerBuildError LayerObj :=
  buildDelta (fun _ => 1) (fun _ _ => 0) es layerBlockTarget

def sampleDesc (es : List DeltaEntry) (owner : Option String) (upto : Option Lsn) : LayerDesc :=
  match sampleObj es with
  | .ok o => { LayerDesc.fromFooter o.footer o.size with owner := owner, upto := upto }
  | .error _ => LayerDesc.delta sampleKey sampleKey 0 0

def sampleEnv : ReaderEnv where
  objects k :=
    if k = (("t", 0), .delta sampleKey sampleKey 10 30) then (sampleObj ownEntries).toOption
    else if k = (("p", 0), .delta sampleKey sampleKey 10 30) then
      (sampleObj parentEntries).toOption
    else none
  crc := fun _ _ => 0
  own := ("t", 0)
  tenant := some "t"
  shard := some 0

theorem sample_serves {env : ReaderEnv} (hcrc : env.crc = fun _ _ => 0)
    {layers : List (LayerDesc × LayerBody)}
    (h : ∀ x ∈ layers, ∃ es owner upto, x = (sampleDesc es owner upto, .delta es)
      ∧ (sampleObj es).toOption.isSome = true
      ∧ (env.fetch (sampleDesc es owner upto)).toOption = (sampleObj es).toOption) :
    Serves env (fun _ => 1) layers where
  stored_pos _ := Nat.one_pos
  built d body hmem := by
    obtain ⟨es, owner, upto, heq, hsome, hfetch⟩ := h _ hmem
    obtain ⟨rfl, rfl⟩ := Prod.mk.inj heq
    cases hobj : sampleObj es with
    | error e =>
      rw [hobj] at hsome
      cases hsome
    | ok o =>
      have hkind := (buildLayer_ok hobj).2.2.2.1
      have hok : env.fetch (sampleDesc es owner upto) = .ok o := by
        rw [hobj] at hfetch
        cases hf : env.fetch (sampleDesc es owner upto) with
        | error e =>
          rw [hf] at hfetch
          cases hfetch
        | ok o' =>
          rw [hf] at hfetch
          exact congrArg _ (Option.some.inj hfetch)
      refine ⟨layerBlockTarget, o, le_rfl, by rw [hcrc]; exact hobj, hok, ?_⟩
      have hdesc : sampleDesc es owner upto
          = { LayerDesc.fromFooter o.footer o.size with owner := owner, upto := upto } := by
        unfold sampleDesc
        rw [hobj]
      rw [hdesc]
      exact ⟨rfl, rfl, rfl, rfl, rfl, rfl⟩

/-- The tenant's layer and its parent's, which it inherits up to 25. -/
def twoOwners : List (LayerDesc × LayerBody) :=
  [(sampleDesc ownEntries none none, .delta ownEntries),
    (sampleDesc parentEntries (some "p") (some 25), .delta parentEntries)]

theorem twoOwners_serves : Serves sampleEnv (fun _ => 1) twoOwners := by
  refine sample_serves rfl fun x hx => ?_
  rcases List.mem_cons.mp hx with rfl | hx
  · exact ⟨ownEntries, none, none, rfl, by decide +kernel, by decide +kernel⟩
  · rw [List.mem_singleton] at hx
    exact ⟨parentEntries, some "p", some 25, hx, by decide +kernel, by decide +kernel⟩

/-- A layer of the tenant's own over another key. -/
def otherEntries : List DeltaEntry := [⟨LayerKey.page 1 2 3 0 6, 5, [9]⟩]

def threeEnv : ReaderEnv := { sampleEnv with
  objects := fun k =>
    if k = (("t", 0), (sampleDesc otherEntries none none).name) then
      (sampleObj otherEntries).toOption
    else sampleEnv.objects k }

def threeLayers : List (LayerDesc × LayerBody) :=
  (sampleDesc otherEntries none none, .delta otherEntries) :: twoOwners

/-- A read of the other key asks neither of the two layers of one name. -/
theorem reconstruct_exact_other :
    ∃ map r rd', LayerMap.new (threeLayers.map Prod.fst) = .ok map
      ∧ exec (threeEnv.reconstruct map Memtable.new (LayerKey.page 1 2 3 0 6) 40)
          ⟨[], BlockCache.new 100⟩ = (.ok r, rd')
      ∧ r.Exact threeLayers Memtable.new (LayerKey.page 1 2 3 0 6) 40 ∧ (5, [9]) ∈ r.records := by
  have hs : Serves threeEnv (fun _ => 1) threeLayers := by
    refine sample_serves rfl fun x hx => ?_
    rcases List.mem_cons.mp hx with rfl | hx
    · exact ⟨otherEntries, none, none, rfl, by decide +kernel, by decide +kernel⟩
    rcases List.mem_cons.mp hx with rfl | hx
    · exact ⟨ownEntries, none, none, rfl, by decide +kernel, by decide +kernel⟩
    · exact ⟨parentEntries, some "p", some 25, List.mem_singleton.mp hx, by decide +kernel,
        by decide +kernel⟩
  obtain ⟨map, hmap, hread⟩ := reconstruct_exact hs Memtable.new (LayerKey.page 1 2 3 0 6) 40
  have hcovers : ∀ d ∈ threeLayers.map Prod.fst, d.minKey ≤ LayerKey.page 1 2 3 0 6 →
      LayerKey.page 1 2 3 0 6 ≤ d.maxKey → d = sampleDesc otherEntries none none := by
    decide +kernel
  have hone : ∀ d, Asked threeEnv threeLayers map (LayerKey.page 1 2 3 0 6) 40 d →
      d = sampleDesc otherEntries none none := by
    rintro d (hd | ⟨floor, -, hd⟩)
    · obtain ⟨hd, -, hlo, hhi, -⟩ := (LayerMap.mem_plan_images hmap).mp hd.mem
      exact hcovers d hd hlo hhi
    · obtain ⟨hd, -, hlo, hhi, -⟩ := (LayerMap.mem_plan_above hmap).mp hd
      exact hcovers d hd hlo hhi
  have hoffsets : ∀ o, threeEnv.fetch (sampleDesc otherEntries none none) = .ok o →
      o.blocks.Pairwise fun a b => a.row.offset < b.row.offset :=
    fun o ho => hs.offsets List.mem_cons_self ho
  obtain ⟨r, rd', hexec, -, hr, -⟩ := hread
    (fun d k => d = sampleDesc otherEntries none none ∧ k = LayerKey.page 1 2 3 0 6)
    (fun d hd => by
      obtain rfl := hone d hd
      refine ⟨⟨rfl, rfl⟩, ?_⟩
      rintro d' k ⟨rfl, rfl⟩ - o o' ho ho'
      cases ho.symm.trans ho'
      exact ⟨⟨rfl, fun _ => rfl⟩, fun b b' hb hb' hoff =>
        offset_unique (hoffsets o ho) hb.mem hb'.mem hoff.symm⟩)
    ⟨[], BlockCache.new 100⟩ (Shelf.bounds_new _ 100)
  refine ⟨map, r, rd', hmap, hexec, hr, ?_⟩
  have hbase : r.baseLsn.getD 0 = 0 := by
    rcases hr.base with ⟨-, hnone, -⟩ | ⟨page, b, -, -, ⟨d, es, hmem, -⟩, -⟩
    · rw [hnone]
      rfl
    · simp [threeLayers, twoOwners] at hmem
  have hat : RecordAt threeLayers Memtable.new (LayerKey.page 1 2 3 0 6) 40 5 [9] :=
    .inl ⟨_, _, List.mem_cons_self, List.mem_singleton.mpr rfl, by decide +kernel⟩
  obtain ⟨record, hmem⟩ := hr.complete 5 [9] hat (by rw [hbase]; decide)
  obtain ⟨⟨d, es, hlayer, hentry, -⟩ | ⟨hentry, -⟩, -⟩ := hr.sound 5 record hmem
  · obtain rfl : record = [9] := by
      simp [threeLayers, twoOwners] at hlayer
      rcases hlayer with ⟨-, rfl⟩ | ⟨-, rfl⟩ | ⟨-, rfl⟩
      · simpa [otherEntries] using hentry
      · simp [ownEntries, sampleKey, LayerKey.page] at hentry
      · simp [parentEntries, sampleKey, LayerKey.page] at hentry
    exact hmem
  · cases hentry

/-- A fresh reader takes the footer and the block of the tenant's layer for
those of the parent's layer of the same name and misses the record at
20. -/
theorem reconstruct_misses_owner :
    Serves sampleEnv (fun _ => 1) twoOwners
      ∧ ∃ map r rd', LayerMap.new (twoOwners.map Prod.fst) = .ok map
        ∧ exec (sampleEnv.reconstruct map Memtable.new sampleKey 40) ⟨[], BlockCache.new 100⟩
          = (.ok r, rd')
        ∧ RecordAt twoOwners Memtable.new sampleKey 40 20 [2]
        ∧ r.baseLsn = none ∧ r.records = [(10, [1]), (30, [3])]
        ∧ ¬ r.Exact twoOwners Memtable.new sampleKey 40 := by
  refine ⟨twoOwners_serves, ?_⟩
  obtain ⟨map, hmap⟩ := twoOwners_serves.map
  have hread : ((exec (sampleEnv.reconstruct
        ⟨twoOwners.map Prod.fst, LayerMap.build ((twoOwners.map Prod.fst).filter (·.kind = .image)),
          LayerMap.build ((twoOwners.map Prod.fst).filter (·.kind = .delta))⟩
        Memtable.new sampleKey 40) ⟨[], BlockCache.new 100⟩).1.toOption.map
          fun r => (r.baseLsn, r.records))
      = some (none, [(10, [1]), (30, [3])]) := by
    decide +kernel
  obtain ⟨-, rfl⟩ := LayerMap.new_ok hmap
  cases hexec : exec (sampleEnv.reconstruct
      ⟨twoOwners.map Prod.fst, LayerMap.build ((twoOwners.map Prod.fst).filter (·.kind = .image)),
        LayerMap.build ((twoOwners.map Prod.fst).filter (·.kind = .delta))⟩
      Memtable.new sampleKey 40) ⟨[], BlockCache.new 100⟩ with
  | mk out rd' =>
    rw [hexec] at hread
    cases out with
    | error e => cases hread
    | ok r =>
      obtain ⟨hlsn, hrecs⟩ := Prod.mk.inj (Option.some.inj hread)
      have hat : RecordAt twoOwners Memtable.new sampleKey 40 20 [2] := by
        refine .inl ⟨_, _, .tail _ (List.mem_singleton.mpr rfl), ?_, ?_⟩
        · decide
        · decide +kernel
      refine ⟨_, r, rd', hmap, hexec, hat, hlsn, hrecs, fun h => ?_⟩
      have hlo : r.baseLsn.getD 0 < 20 := by
        rw [hlsn]
        decide
      obtain ⟨record, hmem⟩ := h.complete 20 [2] hat hlo
      rw [hrecs] at hmem
      simp at hmem

end Samples

end Zou
