import Zou.Compact
import Zou.FlushSafety
import Zou.PageReadSpec

/-!
# What layers show of a key

The pages and records of the objects behind some descriptors, as a view of
one key at a read point. A read through built layers finds exactly what
the view holds, and the cursors of a pass come back with the entries the
objects were built from.
-/

namespace Zou

open Store Total History

/-! ## Built layers -/

/-- A descriptor of an object that a builder made and that is where the
reader looks for it. -/
def LayerDesc.Built (env : ReaderEnv) (stored : BlockBody → Nat) (d : LayerDesc) : Prop :=
  ∃ (body : LayerBody) (target : Nat) (o : LayerObj), target ≤ layerBlockTarget
    ∧ body.build stored env.crc target = .ok o ∧ env.fetch d = .ok o
    ∧ d.kind = o.footer.kind ∧ d.minKey = o.footer.minKey ∧ d.maxKey = o.footer.maxKey
    ∧ d.minLsn = o.footer.minLsn ∧ d.maxLsn = o.footer.maxLsn ∧ d.size = o.size

/-- What a read point sees of a key through some layers. -/
def viewOf (env : ReaderEnv) (ds : List LayerDesc) (key : LayerKey) (lsn : Lsn) :
    View (List UInt8) (List UInt8) where
  page b page := ∃ d ∈ ds, HasPage env d key page ∧ d.minLsn = b ∧ b ≤ d.clamp lsn
  record l record := ∃ d ∈ ds, HasRecord env d key l record ∧ l ≤ d.clamp lsn

/-- A reconstruction as a base and the records above it. -/
def Reconstruction.reading (r : Reconstruction) : Reading (List UInt8) (List UInt8) :=
  ⟨match r.base, r.baseLsn with
    | some page, some b => some (b, page)
    | _, _ => none, r.records⟩

section Views

variable {env : ReaderEnv} {stored : BlockBody → Nat} {ds : List LayerDesc} {d : LayerDesc}
  {key : LayerKey} {lsn : Lsn}

theorem exists_layers (h : ∀ d ∈ ds, d.Built env stored) :
    ∃ layers : List (LayerDesc × LayerBody), layers.map Prod.fst = ds
      ∧ ∀ d body, (d, body) ∈ layers → ∃ target o, target ≤ layerBlockTarget
        ∧ body.build stored env.crc target = .ok o ∧ env.fetch d = .ok o
        ∧ d.kind = o.footer.kind ∧ d.minKey = o.footer.minKey ∧ d.maxKey = o.footer.maxKey
        ∧ d.minLsn = o.footer.minLsn ∧ d.maxLsn = o.footer.maxLsn ∧ d.size = o.size := by
  induction ds with
  | nil => exact ⟨[], rfl, nofun⟩
  | cons d ds ih =>
    obtain ⟨layers, hmap, hall⟩ := ih fun d hd => h d (.tail _ hd)
    obtain ⟨body, hbody⟩ := h d List.mem_cons_self
    refine ⟨(d, body) :: layers, by rw [List.map_cons, hmap], fun d' body' hmem => ?_⟩
    rcases List.mem_cons.mp hmem with heq | hmem
    · obtain ⟨rfl, rfl⟩ := Prod.mk.inj heq
      exact hbody
    · exact hall d' body' hmem

variable {layers : List (LayerDesc × LayerBody)}

theorem imageAt_view (hs : Serves env stored layers) {b : Lsn} {page : List UInt8} :
    ImageAt layers key lsn b page ↔ (viewOf env (layers.map Prod.fst) key lsn).page b page := by
  constructor
  · rintro ⟨d, es, hmem, hes, hle⟩
    obtain ⟨o, -, -, -, -, hlsn⟩ := hs.image hmem
    exact ⟨d, List.mem_map.mpr ⟨_, hmem, rfl⟩, (hasPage_iff hs hmem).mpr hes, hlsn, hle⟩
  · rintro ⟨d, hd, hp, hlsn, hle⟩
    obtain ⟨⟨d', body⟩, hmem, rfl⟩ := List.mem_map.mp hd
    cases body with
    | delta es =>
      -- A delta object has no page.
      obtain ⟨o, ho, hh, -⟩ := hs.delta hmem
      obtain ⟨o', ho', b', hb', run, hbody, -⟩ := hp
      rw [ho] at ho'
      cases ho'
      obtain ⟨run', hbody', -⟩ := hh.runs b' hb'
      rw [hbody] at hbody'
      cases hbody'
    | image at_ es =>
      obtain ⟨o, -, -, -, -, hlsn'⟩ := hs.image hmem
      obtain rfl : at_ = b := hlsn'.symm.trans hlsn
      exact ⟨d', es, hmem, (hasPage_iff hs hmem).mp hp, hle⟩

theorem recordAt_view (hs : Serves env stored layers) {l : Lsn} {record : List UInt8} :
    RecordAt layers Memtable.new key lsn l record
      ↔ (viewOf env (layers.map Prod.fst) key lsn).record l record := by
  constructor
  · rintro (⟨d, es, hmem, hes, hle⟩ | ⟨hmem, -⟩)
    · exact ⟨d, List.mem_map.mpr ⟨_, hmem, rfl⟩, (hasRecord_iff hs hmem).mpr hes, hle⟩
    · cases hmem
  · rintro ⟨d, hd, hp, hle⟩
    obtain ⟨⟨d', body⟩, hmem, rfl⟩ := List.mem_map.mp hd
    cases body with
    | delta es => exact .inl ⟨d', es, hmem, (hasRecord_iff hs hmem).mp hp, hle⟩
    | image at_ es =>
      obtain ⟨o, ho, hh, -⟩ := hs.image hmem
      obtain ⟨o', ho', b', hb', run, hbody, -⟩ := hp
      rw [ho] at ho'
      cases ho'
      obtain ⟨run', hbody', -⟩ := hh.runs b' hb'
      rw [hbody] at hbody'
      cases hbody'

theorem Reconstruction.Exact.found (hs : Serves env stored layers) {r : Reconstruction}
    (h : r.Exact layers Memtable.new key lsn) :
    Found (viewOf env (layers.map Prod.fst) key lsn) r.reading := by
  have hfloor : r.reading.floor = r.baseLsn.getD 0 := by
    unfold Reading.floor Reconstruction.reading
    rcases h.base with ⟨hb, hl, -⟩ | ⟨page, b, hb, hl, -⟩
    · rw [hb, hl]
      rfl
    · rw [hb, hl]
      rfl
  refine ⟨fun b page hbase => ?_, fun hbase b page hp => ?_, h.ascending, fun l record hm => ?_,
    fun l record hr hl => ?_⟩
  · unfold Reconstruction.reading at hbase
    rcases h.base with ⟨hb, hl, -⟩ | ⟨page', b', hb, hl, hat, hmax⟩
    · rw [hb, hl] at hbase
      cases hbase
    · rw [hb, hl] at hbase
      cases hbase
      exact ⟨(imageAt_view hs).mp hat, fun b' p' hp' => hmax b' p' ((imageAt_view hs).mpr hp')⟩
  · unfold Reconstruction.reading at hbase
    rcases h.base with ⟨-, -, hnone⟩ | ⟨page', b', hb, hl, -⟩
    · exact hnone b page ((imageAt_view hs).mpr hp)
    · rw [hb, hl] at hbase
      cases hbase
  · obtain ⟨hat, hl⟩ := h.sound l record hm
    exact ⟨(recordAt_view hs).mp hat, hfloor ▸ hl⟩
  · exact h.complete l record ((recordAt_view hs).mpr hr) (hfloor ▸ hl)

theorem Reconstruction.Exact.base_eq {r : Reconstruction}
    (h : r.Exact layers Memtable.new key lsn) : r.reading.base.map Prod.snd = r.base := by
  unfold Reconstruction.reading
  rcases h.base with ⟨hb, hl, -⟩ | ⟨page, b, hb, hl, -⟩
  · rw [hb, hl]
    rfl
  · rw [hb, hl]
    rfl

/-- What a read through the layers finds, whatever the caches hold. -/
def Finds (env : ReaderEnv) (ds : List LayerDesc) (key : LayerKey) (lsn : Lsn)
    (r : Reconstruction) : Prop :=
  Found (viewOf env ds key lsn) r.reading ∧ r.reading.base.map Prod.snd = r.base

theorem reconstruct_finds (hstored : ∀ b, 0 < stored b) (hbuilt : ∀ d ∈ ds, d.Built env stored)
    (hsame : ∀ x ∈ ds, ∀ y ∈ ds, x.name = y.name → env.fetch x = env.fetch y) :
    ∃ map, LayerMap.new ds = .ok map ∧ ∃ I : LayerReader → Prop,
      (∀ budget, I ⟨[], BlockCache.new budget⟩)
        ∧ ∀ key lsn, Returns I (env.reconstruct map Memtable.new key lsn) (Finds env ds key lsn) := by
  obtain ⟨layers, rfl, hall⟩ := exists_layers hbuilt
  have hs : Serves env stored layers := ⟨hstored, hall⟩
  have hsame' : SameNameSameObject env layers := by
    intro x hx y hy hname
    exact hsame x.1 (List.mem_map_of_mem hx) y.1 (List.mem_map_of_mem hy) hname
  obtain ⟨map, hmap⟩ := hs.map
  refine ⟨map, hmap, Coherent env layers, coherent_new env layers, fun key lsn => ?_⟩
  exact (reconstruct_returns hs hsame' hmap Memtable.new key lsn).imp
    fun r hr => ⟨hr.found hs, hr.base_eq⟩

end Views

/-! ## What an object holds of a key -/

section Objects

variable {env : ReaderEnv} {stored : BlockBody → Nat} {d : LayerDesc} {key : LayerKey}

/-- A layer has an entry of the key. -/
def HasKey (env : ReaderEnv) (d : LayerDesc) (key : LayerKey) : Prop :=
  (∃ page, HasPage env d key page) ∨ ∃ l record, HasRecord env d key l record

theorem LayerDesc.Built.cases (h : d.Built env stored) (hstored : ∀ b, 0 < stored b) :
    (∃ o es, env.fetch d = .ok o ∧ o.Holds env.crc deltaFormat es ∧ Zou.Fits d o
        ∧ d.kind = .delta ∧ es ≠ [])
      ∨ ∃ o es, env.fetch d = .ok o ∧ o.Holds env.crc (imageFormat d.minLsn) es ∧ Zou.Fits d o
        ∧ d.kind = .image ∧ d.minLsn = d.maxLsn ∧ es ≠ [] := by
  obtain ⟨body, hbody⟩ := h
  have hs : Serves env stored [(d, body)] := by
    refine ⟨hstored, fun d' body' hmem => ?_⟩
    obtain ⟨rfl, rfl⟩ := Prod.mk.inj (List.mem_singleton.mp hmem)
    exact hbody
  obtain ⟨target, o', -, hbuild, ho', -, -, -, hlo, hhi, -⟩ := hbody
  cases body with
  | delta es =>
    obtain ⟨o, ho, hh, hf, hk⟩ := hs.delta (List.mem_singleton.mpr rfl)
    exact .inl ⟨o, es, ho, hh, hf, hk, (buildLayer_ok hbuild).2.1⟩
  | image b es =>
    obtain ⟨o, ho, hh, hf, hk, rfl⟩ := hs.image (List.mem_singleton.mpr rfl)
    obtain ⟨-, -, -, -, -, -, hb, -⟩ := buildLayer_ok hbuild
    obtain ⟨h1, h2⟩ := Prod.mk.inj hb
    exact .inr ⟨o, es, ho, hh, hf, hk, by rw [hhi, h2], (buildLayer_ok hbuild).2.1⟩

theorem LayerDesc.Built.record (h : d.Built env stored) (hstored : ∀ b, 0 < stored b) {l : Lsn}
    {record : List UInt8} (hr : HasRecord env d key l record) :
    d.kind = .delta ∧ d.minKey ≤ key ∧ key ≤ d.maxKey ∧ d.minLsn ≤ l ∧ l ≤ d.maxLsn
      ∧ ∃ o, env.fetch d = .ok o ∧ o.footer.mayContain env.crc key = true := by
  obtain ⟨o', ho', b, hb, run, hbody, hmem⟩ := hr
  rcases h.cases hstored with ⟨o, es, ho, hh, ⟨-, -, h1, h2, h3, h4⟩, hk, -⟩ | ⟨o, es, ho, hh, -⟩
  · rw [ho] at ho'
    obtain rfl := Except.ok.inj ho'
    obtain ⟨run', hbody', -, -, -, hrun⟩ := hh.runs b hb
    obtain rfl : run = run' := BlockBody.delta.inj (hbody.symm.trans hbody')
    have hes := (hrun _ hmem).1
    have hkeys := hh.keys _ hes
    have hlsns := hh.lsns _ hes
    have hfilter := hh.filter _ hes
    rw [h1, h2] at hkeys
    rw [h3, h4] at hlsns
    exact ⟨hk, hkeys.1, hkeys.2, hlsns.1, hlsns.2, o, ho, hfilter⟩
  · rw [ho] at ho'
    cases ho'
    obtain ⟨run', hbody', -⟩ := hh.runs b hb
    rw [hbody] at hbody'
    cases hbody'

theorem LayerDesc.Built.page (h : d.Built env stored) (hstored : ∀ b, 0 < stored b)
    {page : List UInt8} (hp : HasPage env d key page) :
    d.kind = .image ∧ d.minKey ≤ key ∧ key ≤ d.maxKey ∧ d.minLsn = d.maxLsn
      ∧ ∃ o, env.fetch d = .ok o ∧ o.footer.mayContain env.crc key = true := by
  obtain ⟨o', ho', b, hb, run, hbody, hmem⟩ := hp
  rcases h.cases hstored with ⟨o, es, ho, hh, -⟩ | ⟨o, es, ho, hh, ⟨-, -, h1, h2, -, -⟩, hk, heq, -⟩
  · rw [ho] at ho'
    cases ho'
    obtain ⟨run', hbody', -⟩ := hh.runs b hb
    rw [hbody] at hbody'
    cases hbody'
  · rw [ho] at ho'
    obtain rfl := Except.ok.inj ho'
    obtain ⟨run', hbody', -, -, -, hrun⟩ := hh.runs b hb
    obtain rfl : run = run' := BlockBody.image.inj (hbody.symm.trans hbody')
    have hes := (hrun _ hmem).1
    have hkeys := hh.keys _ hes
    have hfilter := hh.filter _ hes
    rw [h1, h2] at hkeys
    exact ⟨hk, hkeys.1, hkeys.2, heq, o, ho, hfilter⟩

theorem LayerDesc.Built.hasKey (h : d.Built env stored) (hstored : ∀ b, 0 < stored b)
    (hk : HasKey env d key) : d.minKey ≤ key ∧ key ≤ d.maxKey
      ∧ ∃ o, env.fetch d = .ok o ∧ o.footer.mayContain env.crc key = true := by
  rcases hk with ⟨page, hp⟩ | ⟨l, record, hr⟩
  · obtain ⟨-, h1, h2, -, h3⟩ := h.page hstored hp
    exact ⟨h1, h2, h3⟩
  · obtain ⟨-, h1, h2, -, -, h3⟩ := h.record hstored hr
    exact ⟨h1, h2, h3⟩

/-! ### Cursors -/

variable {o : LayerObj}

theorem mem_readRows {E : Type} {decode : StoredBlock → LayerBlock → Except LayerDecodeError (List E)} {e : E} : ∀ {rows : List LayerBlock} {es : List E},
    readRows decode o rows = .ok es →
      (e ∈ es ↔ ∃ row ∈ rows, ∃ b run, o.blockAt row.offset row.len = some b
        ∧ decode b row = .ok run ∧ e ∈ run) := by
  intro rows
  induction rows with
  | nil =>
    intro es h
    cases h
    simp
  | cons row rows ih =>
    intro es h
    unfold readRows at h
    cases hb : o.blockAt row.offset row.len with
    | none =>
      rw [hb] at h
      cases h
    | some b =>
      cases hd : decode b row with
      | error err =>
        rw [hb] at h
        dsimp only at h
        rw [hd] at h
        cases h
      | ok run =>
        cases hrest : readRows decode o rows with
        | error err =>
          rw [hb] at h
          dsimp only at h
          rw [hd, hrest] at h
          cases h
        | ok rest =>
          rw [hb] at h
          dsimp only at h
          rw [hd, hrest] at h
          cases h
          rw [List.mem_append, ih hrest]
          constructor
          · rintro (he | ⟨row', hrow', hrest'⟩)
            · exact ⟨row, List.mem_cons_self, b, run, hb, hd, he⟩
            · exact ⟨row', .tail _ hrow', hrest'⟩
          · rintro ⟨row', hrow', b', run', hb', hd', he⟩
            rcases List.mem_cons.mp hrow' with rfl | hrow'
            · rw [hb] at hb'
              cases hb'
              rw [hd] at hd'
              cases hd'
              exact .inl he
            · exact .inr ⟨row', hrow', b', run', hb', hd', he⟩

theorem mem_deltaCursor {crc : Nat → List UInt8 → Nat} {es es' : List DeltaEntry}
    (hh : o.Holds crc deltaFormat es) (h : deltaCursor o = .ok es') {e : DeltaEntry} :
    e ∈ es' ↔ e ∈ es := by
  unfold deltaCursor at h
  split at h
  · cases h
  · cases hr : readRows decodeDeltaBlock o o.footer.blocks with
    | error err =>
      rw [hr] at h
      cases h
    | ok out =>
      rw [hr] at h
      dsimp only at h
      split at h
      · cases h
        rw [mem_readRows hr, hh.rows]
        constructor
        · rintro ⟨row, hrow, b', run, hb', hd, he⟩
          obtain ⟨b, hb, rfl⟩ := List.mem_map.mp hrow
          rw [hh.blockAt hb] at hb'
          cases hb'
          obtain ⟨run', hd', -, hin⟩ := decodeDeltaBlock_ok hh hb
          rw [hd] at hd'
          cases hd'
          exact hin e he
        · intro he
          obtain ⟨b, hb, run, hbody, her⟩ := hh.all e he
          obtain ⟨run', hd', hbody', -⟩ := decodeDeltaBlock_ok hh hb
          obtain rfl : run = run' := BlockBody.delta.inj (hbody.symm.trans hbody')
          exact ⟨b.row, List.mem_map_of_mem hb, b, run, hh.blockAt hb, hd', her⟩
      · cases h

theorem mem_imageCursor {crc : Nat → List UInt8 → Nat} {lsn : Lsn}
    {es es' : List ImageEntry} (hh : o.Holds crc (imageFormat lsn) es)
    (h : imageCursor o = .ok es') {e : ImageEntry} : e ∈ es' ↔ e ∈ es := by
  unfold imageCursor at h
  split at h
  · cases h
  · rw [mem_readRows h, hh.rows]
    constructor
    · rintro ⟨row, hrow, b', run, hb', hd, he⟩
      obtain ⟨b, hb, rfl⟩ := List.mem_map.mp hrow
      rw [hh.blockAt hb] at hb'
      cases hb'
      obtain ⟨run', hd', -, hin⟩ := decodeImageBlock_ok hh hb
      rw [hd] at hd'
      cases hd'
      exact hin e he
    · intro he
      obtain ⟨b, hb, run, hbody, her⟩ := hh.all e he
      obtain ⟨run', hd', hbody', -⟩ := decodeImageBlock_ok hh hb
      obtain rfl : run = run' := BlockBody.image.inj (hbody.symm.trans hbody')
      exact ⟨b.row, List.mem_map_of_mem hb, b, run, hh.blockAt hb, hd', her⟩

theorem LayerDesc.Built.mem_cursorKeys (h : d.Built env stored) (hstored : ∀ b, 0 < stored b) (ho : env.fetch d = .ok o) {keys : List LayerKey}
    (hc : Compactor.cursorKeys d.kind o = .ok keys) : key ∈ keys ↔ HasKey env d key := by
  unfold Compactor.cursorKeys at hc
  rcases h.cases hstored with ⟨o', es, ho', hh, -, hkind, -⟩ | ⟨o', es, ho', hh, -, hkind, -, -⟩
  · rw [ho] at ho'
    cases ho'
    rw [hkind] at hc
    cases hcur : deltaCursor o with
    | error e =>
      rw [hcur] at hc
      cases hc
    | ok es' =>
      rw [hcur] at hc
      cases hc
      constructor
      · intro hmem
        obtain ⟨⟨k, l, record⟩, he, rfl⟩ := List.mem_map.mp hmem
        obtain ⟨b, hb, run, hbody, her⟩ := hh.all _ ((mem_deltaCursor hh hcur).mp he)
        exact .inr ⟨l, record, o, ho, b, hb, run, hbody, her⟩
      · rintro (⟨page, hp⟩ | ⟨l, record, o', ho', b, hb, run, hbody, hmem⟩)
        · rw [(h.page hstored hp).1] at hkind
          cases hkind
        · rw [ho] at ho'
          cases ho'
          obtain ⟨run', hbody', -, -, -, hrun⟩ := hh.runs b hb
          obtain rfl : run = run' := BlockBody.delta.inj (hbody.symm.trans hbody')
          exact List.mem_map.mpr ⟨_, (mem_deltaCursor hh hcur).mpr (hrun _ hmem).1, rfl⟩
  · rw [ho] at ho'
    cases ho'
    rw [hkind] at hc
    cases hcur : imageCursor o with
    | error e =>
      rw [hcur] at hc
      cases hc
    | ok es' =>
      rw [hcur] at hc
      cases hc
      constructor
      · intro hmem
        obtain ⟨⟨k, page⟩, he, rfl⟩ := List.mem_map.mp hmem
        obtain ⟨b, hb, run, hbody, her⟩ := hh.all _ ((mem_imageCursor hh hcur).mp he)
        exact .inl ⟨page, o, ho, b, hb, run, hbody, her⟩
      · rintro (⟨page, o', ho', b, hb, run, hbody, hmem⟩ | ⟨l, record, hr⟩)
        · rw [ho] at ho'
          cases ho'
          obtain ⟨run', hbody', -, -, -, hrun⟩ := hh.runs b hb
          obtain rfl : run = run' := BlockBody.image.inj (hbody.symm.trans hbody')
          exact List.mem_map.mpr ⟨_, (mem_imageCursor hh hcur).mpr (hrun _ hmem).1, rfl⟩
        · rw [(h.record hstored hr).1] at hkind
          cases hkind

end Objects

/-! ## Cutting images -/

namespace Compactor

section Cut

variable {I : LayerReader → Prop} {svc : PageService} {map : LayerMap} {ds : List LayerDesc}
  {at_ : Lsn}

/-- Each page was built from what a read finds, and each key has one or is
bare. -/
theorem cutPages_ensures
    (hread : ∀ key, Returns I (svc.env.reconstruct map Memtable.new key at_)
      (Finds svc.env ds key at_)) : ∀ keys : List LayerKey,
    Ensures I (cutPages svc map at_ keys) fun out =>
      (∀ e ∈ out.1, e.key ∈ keys ∧ ∃ r, Finds svc.env ds e.key at_ r
          ∧ svc.build false e.key r.base r.records = .ok (some e.page))
        ∧ (∀ k ∈ keys, k ∈ out.2 ∨ ∃ e ∈ out.1, e.key = k) := by
  intro keys
  induction keys with
  | nil => exact Ensures.pure ⟨nofun, nofun⟩
  | cons key keys ih =>
    unfold cutPages
    refine Ensures.bind ((hread key).ensures.adapt _) fun r hr => ?_
    cases hb : svc.build false key r.base r.records with
    | error e => exact Ensures.throw
    | ok page =>
      cases page with
      | none =>
        refine Ensures.bind ih fun out ⟨hes, hall⟩ => Ensures.pure ⟨fun e he => ?_, fun k hk => ?_⟩
        · obtain ⟨hmem, hrest⟩ := hes e he
          exact ⟨.tail _ hmem, hrest⟩
        · rcases List.mem_cons.mp hk with rfl | hk
          · exact .inl List.mem_cons_self
          · exact (hall k hk).imp_left fun h => .tail _ h
      | some page =>
        refine Ensures.bind ih fun out ⟨hes, hall⟩ => Ensures.pure ⟨fun e he => ?_, fun k hk => ?_⟩
        · rcases List.mem_cons.mp he with rfl | he
          · exact ⟨List.mem_cons_self, r, hr, hb⟩
          · obtain ⟨hmem, hrest⟩ := hes e he
            exact ⟨.tail _ hmem, hrest⟩
        · rcases List.mem_cons.mp hk with rfl | hk
          · exact .inr ⟨_, List.mem_cons_self, rfl⟩
          · refine (hall k hk).imp_right ?_
            rintro ⟨e, he, hk⟩
            exact ⟨e, .tail _ he, hk⟩

/-- The fork a size key is a size of. -/
def forkKey (key : LayerKey) : LayerKey := LayerKey.relsize key.spc key.db key.rel key.fork

/-- Each size was folded from what a read finds, and each fork has one or
nothing is found of it. -/
theorem cutSizes_ensures
    (hread : ∀ key, Returns I (svc.env.reconstruct map Memtable.new key at_)
      (Finds svc.env ds key at_)) : ∀ keys : List LayerKey,
    Ensures I (cutSizes svc map at_ keys) fun es =>
      (∀ e ∈ es, e.key ∈ keys ∧ ∃ r n, Finds svc.env ds (forkKey e.key) at_ r
          ∧ PageService.relSize r.base r.records = .ok (some n) ∧ e.page = SizeRec.image n)
        ∧ ∀ k ∈ keys, (∃ e ∈ es, e.key = k) ∨ ∃ r, Finds svc.env ds (forkKey k) at_ r
          ∧ PageService.relSize r.base r.records = .ok none := by
  intro keys
  induction keys with
  | nil => exact Ensures.pure ⟨nofun, nofun⟩
  | cons key keys ih =>
    unfold cutSizes
    refine Ensures.bind ((hread _).ensures.adapt _) fun r hr => ?_
    cases hb : PageService.relSize r.base r.records with
    | error e => exact Ensures.throw
    | ok n =>
      cases n with
      | none =>
        refine fun s hs a s' hex => ?_
        obtain ⟨hs', hes, hall⟩ := ih s hs a s' hex
        refine ⟨hs', fun e he => ?_, fun k hk => ?_⟩
        · obtain ⟨hmem, hrest⟩ := hes e he
          exact ⟨.tail _ hmem, hrest⟩
        · rcases List.mem_cons.mp hk with rfl | hk
          · exact .inr ⟨r, hr, hb⟩
          · exact hall k hk
      | some n =>
        refine Ensures.bind ih fun es ⟨hes, hall⟩ => Ensures.pure ⟨fun e he => ?_, fun k hk => ?_⟩
        · rcases List.mem_cons.mp he with rfl | he
          · exact ⟨List.mem_cons_self, r, n, hr, hb, rfl⟩
          · obtain ⟨hmem, hrest⟩ := hes e he
            exact ⟨.tail _ hmem, hrest⟩
        · rcases List.mem_cons.mp hk with rfl | hk
          · exact .inl ⟨_, List.mem_cons_self, rfl⟩
          · refine (hall k hk).imp_left ?_
            rintro ⟨e, he, hk⟩
            exact ⟨e, .tail _ he, hk⟩

end Cut

theorem cutImages_flatten (full : List ImageEntry → Bool) : ∀ es cur : List ImageEntry,
    (cutImages full cur es).flatten = cur ++ es := by
  intro es
  induction es with
  | nil =>
    intro cur
    unfold cutImages
    cases cur <;> simp
  | cons e es ih =>
    intro cur
    unfold cutImages
    split
    · rw [List.flatten_cons, ih]
      simp
    · rw [ih]
      simp

theorem buildImages_ok {c : Compactor} {at_ : Lsn} : ∀ {runs : List (List ImageEntry)}
    {os : List LayerObj}, c.buildImages at_ runs = .ok os →
      (∀ o ∈ os, ∃ es ∈ runs, buildImage c.codec.stored c.codec.crc es at_ c.codec.target = .ok o)
        ∧ ∀ es ∈ runs, ∃ o ∈ os,
          buildImage c.codec.stored c.codec.crc es at_ c.codec.target = .ok o := by
  intro runs
  induction runs with
  | nil =>
    intro os h
    cases h
    exact ⟨nofun, nofun⟩
  | cons run runs ih =>
    intro os h
    unfold buildImages at h
    cases hb : buildImage c.codec.stored c.codec.crc run at_ c.codec.target with
    | error e =>
      rw [hb] at h
      cases h
    | ok o =>
      cases hrest : c.buildImages at_ runs with
      | error e =>
        rw [hb] at h
        rw [hrest] at h
        cases h
      | ok rest =>
        rw [hb] at h
        rw [hrest] at h
        cases h
        obtain ⟨h1, h2⟩ := ih hrest
        refine ⟨fun o' ho' => ?_, fun es hes => ?_⟩
        · rcases List.mem_cons.mp ho' with rfl | ho'
          · exact ⟨run, List.mem_cons_self, hb⟩
          · obtain ⟨es, hes, hbuild⟩ := h1 o' ho'
            exact ⟨es, .tail _ hes, hbuild⟩
        · rcases List.mem_cons.mp hes with rfl | hes
          · exact ⟨o, List.mem_cons_self, hb⟩
          · obtain ⟨o', ho', hbuild⟩ := h2 es hes
            exact ⟨o', .tail _ ho', hbuild⟩

end Compactor

end Zou
