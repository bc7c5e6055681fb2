import Zou.FlushSafety
import Zou.PageServe

/-!
# What a view holds

A read gets a map and a memtable. Every record of its keys that was parsed
when it was dispatched is in one of the two, also after it has missed a
layer and takes the map published by then, as long as no thread publishes
a manifest it loaded before a flush that the published map already has.

The invariant counts, for every map in sight (the manifest's, the
published one, each one loaded and not yet published), how many of the
flushed records were listed when it was loaded, and says that it has at
least those.
-/

namespace Zou

open Store

/-- An image object holds a page of the key. -/
def LayerObj.Images (o : LayerObj) (key : LayerKey) : Prop :=
  ∃ b ∈ o.blocks, ∃ run, b.body = .image run ∧ ∃ x ∈ run, x.key = key

section Layers

variable {tenant : String} {shard : Nat} {objs objs' : List (ShardKey × ShardObj)}
  {ds ds' : List LayerDesc} {at_ at' : Lsn} {e : DeltaEntry}

/-- A read at `at_` through the layers finds the record, or an image of its
key that it went into. -/
def Contained (tenant : String) (shard : Nat) (objs : List (ShardKey × ShardObj))
    (ds : List LayerDesc) (at_ : Lsn) (e : DeltaEntry) : Prop :=
  InLayers tenant shard objs ds e
    ∨ ∃ d ∈ ds, d.kind = .image ∧ e.lsn ≤ d.minLsn ∧ d.minLsn ≤ d.clamp at_
      ∧ ∃ o, get objs (.layer (d.owner.getD tenant) shard d.name) = some (.layer o)
        ∧ o.Images e.key

theorem clamp_mono (d : LayerDesc) (h : at_ ≤ at') : d.clamp at_ ≤ d.clamp at' := by
  unfold LayerDesc.clamp
  cases d.upto with
  | none => exact h
  | some u => exact le_min (min_le_left u at_) (le_trans (min_le_right u at_) h)

theorem Contained.mono (h : Contained tenant shard objs ds at_ e) (hobjs : LayersStay objs objs')
    (hds : ∀ d ∈ ds, d ∈ ds') (hat : at_ ≤ at') : Contained tenant shard objs' ds' at' e := by
  rcases h with hin | ⟨d, hd, hkind, hle, hclamp, o, ho, himg⟩
  · exact .inl (hin.mono hobjs hds)
  · exact .inr ⟨d, hds d hd, hkind, hle, Nat.le_trans hclamp (clamp_mono d hat), o,
      hobjs _ _ _ _ ho, himg⟩

theorem stageOutput_stay (o : LayerObj) : LayersStay objs (stageOutput tenant shard objs o) := by
  unfold stageOutput
  cases hget : get objs (.layer tenant shard o.name) with
  | some b => exact fun _ _ _ _ h => h
  | none =>
    intro t n k b hb
    have hne : ShardKey.layer t n k ≠ .layer tenant shard o.name := by
      intro heq
      rw [heq, hget] at hb
      cases hb
    rw [get_cons_ne hne]
    exact hb

theorem stageOutput_manifest (o : LayerObj) (n : Nat) :
    get (stageOutput tenant shard objs o) (.manifest n) = get objs (.manifest n) := by
  unfold stageOutput
  split
  · rw [get_cons_ne (by simp)]
  · rfl

/-- The manifest a commit starts from is the one that is published. -/
theorem Published.manifestOf (h : Published shard objs ds) :
    (manifestOf shard objs).format ≤ pageShardFormat
      ∧ PageShardManifest.descs (manifestOf shard objs).layers = .ok ds := by
  unfold Zou.manifestOf
  rcases h with ⟨hget, hds⟩ | ⟨m, hget, hfmt, hds, -⟩
  · rw [hget, hds]
    exact ⟨Nat.le_succ 1, rfl⟩
  · rw [hget]
    exact ⟨hfmt, hds⟩

theorem swapLayers_format (m : PageShardManifest) (retire : List LayerName)
    (add : List LayerEntry) (covers : Option Nat) (horizon : Option Lsn) :
    (m.swapLayers retire add covers horizon).format = m.format := by
  rw [PageShardManifest.swapLayers_eq]

/-- A reload that succeeds, whatever else fails, is the manifest's map. -/
theorem reloadMap_ok {w w' : World ShardKey ShardObj} {map : LayerMap}
    (hp : Published shard w.objs ds) (h : PageServer.reloadMap shard w = (.ok map, w')) :
    map.layers = ds := by
  unfold PageServer.reloadMap PageShardManifest.load at h
  obtain ⟨w₁, -, hread | hread⟩ := read_cases FlushError.store
    (fun objs => get objs (ShardKey.manifest shard)) w
  · rcases hp with ⟨hget, -⟩ | ⟨m, hget, hfmt, hds, hwf⟩
    · rw [Prog.bind_apply, Prog.bind_ok hread, hget] at h
      cases h
    · rw [Prog.bind_apply, Prog.bind_ok hread, hget] at h
      dsimp only at h
      rw [if_neg (Nat.not_lt.mpr hfmt)] at h
      obtain ⟨map', hmap, hlayers⟩ := layerMap_ok hds hwf
      dsimp only [Prog.pure_apply, Prog.lift_apply] at h
      rw [hmap] at h
      cases h
      exact hlayers
  · rw [Prog.bind_apply, Prog.bind_error hread] at h
    cases h

end Layers

namespace Serving

variable {codec : LayerCodec} {tenant : String} {crc32c : List UInt8 → Nat} {s s' : Serving}

/-- Positions a read is or would be served at. -/
def Reads (s : Serving) (at_ : Lsn) : Prop :=
  at_ = s.server.ingest.applied ∨ ∃ j ∈ s.jobs, j.at_ = at_

/-- The layers hold the first `k` flushed records, for every read there
is. -/
def Good (tenant : String) (s : Serving) (k : Nat) (ds : List LayerDesc) : Prop :=
  k ≤ s.flushed.length ∧ ∀ at_, s.Reads at_ → ∀ e ∈ s.flushed.take k, e.lsn ≤ at_ →
    Contained tenant s.shard s.server.objs ds at_ e

/-- What a job's pair holds, with `map` for its map. -/
def Complete (tenant : String) (crc32c : List UInt8 → Nat) (s : Serving) (j : Job)
    (map : LayerMap) : Prop :=
  ∀ rec ∈ j.log, rec.lsn ≤ j.at_ → ∀ key ∈ ShardIngest.keys rec, key ∈ j.keys →
    shardOf crc32c key s.server.ingest.cfg.shardCount = s.shard →
      ∃ e, e.key = key ∧ e.lsn = rec.lsn ∧ (key.kind = 0 → e.record = rec.bytes)
        ∧ (e ∈ j.mem.iter ∨ Contained tenant s.shard s.server.objs map.layers j.at_ e)

/-- A driver that has just anchored, with no read on its way. -/
structure Anchored (s : Serving) : Prop where
  server : s.server.Anchored
  point : s.point = .idle
  jobs : s.jobs = []
  reloads : s.reloads = []
  flushed : s.flushed = []
  reflected : s.reflected = 0

/-- A flush of records meets no failed operation and no oversized record,
and the name of its layer is free, or has the same object and is not
listed for another owner; a commit of a compaction keeps what the layers
hold for every read there is; and a reader publishes no manifest that it
loaded before a flush which the published map has. -/
def StepOk (codec : LayerCodec) (tenant : String) (s : Serving) : ServeStep → Prop
  | .flush acks => s.server.ingest.mem.isEmpty = false →
      (∀ a ∈ acks, a = Store.Ack.reply)
        ∧ (∀ e ∈ s.server.ingest.mem.iter, e.record.length ≤ maxRecordLen)
        ∧ ∀ o, buildDelta codec.stored codec.crc s.server.ingest.mem.iter codec.target = .ok o →
          get s.server.objs (.layer tenant s.shard o.name) = none
            ∨ get s.server.objs (.layer tenant s.shard o.name) = some (.layer o)
  | .publish acks => (∀ a ∈ acks, a = Store.Ack.reply)
      ∧ ∀ entry entries, s.point = .staged entry entries →
        ∀ l ∈ (manifestOf s.shard s.server.objs).layers, l.name = entry.name →
          l.owner = none ∧ l.upto = none
  | .load acks => ∀ a ∈ acks, a = Store.Ack.reply
  | .reswap reload => ∀ r, s.reloads[reload]? = some r → s.reflected ≤ r.2
  | .commit retire add covers horizon =>
    ∃ ds', PageShardManifest.descs
        ((manifestOf s.shard s.server.objs).swapLayers retire add covers horizon).layers = .ok ds'
      ∧ (∀ d ∈ ds', d.Wf)
      ∧ ∀ ds, Published s.shard s.server.objs ds → ∀ at_, s.Reads at_ → ∀ e, e.lsn ≤ at_ →
        Contained tenant s.shard s.server.objs ds at_ e →
          Contained tenant s.shard s.server.objs ds' at_ e
  | _ => True

/-- What holds at a point of a flush. -/
def PointOk (tenant : String) (s : Serving) : FlushPoint → Prop
  | .idle => s.reflected = s.flushed.length
  | .staged entry entries => ∃ o d, entry.name = o.name
      ∧ get s.server.objs (.layer tenant s.shard o.name) = some (.layer o)
      ∧ (∀ e ∈ entries, o.Contains e ∧ e.lsn < s.server.ingest.applied)
      ∧ entry.desc = .ok d ∧ d.owner = none ∧ d.upto = none ∧ d.Wf
  | .listed => get s.server.objs (.manifest s.shard) ≠ none
  | .loaded map => Good tenant s s.flushed.length map.layers

/-- A record of the job is in its memtable, or was flushed and listed
before the map it took was loaded. -/
def JobOk (tenant : String) (crc32c : List UInt8 → Nat) (s : Serving) (j : Job) : Prop :=
  ∀ rec ∈ j.log, ∀ key ∈ ShardIngest.keys rec, key ∈ j.keys →
    shardOf crc32c key s.server.ingest.cfg.shardCount = s.shard →
      ∃ e, e.key = key ∧ e.lsn = rec.lsn ∧ (key.kind = 0 → e.record = rec.bytes)
        ∧ (e ∈ j.mem.iter ∨ (e ∈ s.flushed.take s.reflected ∧ e.lsn ≤ j.at_
          ∧ Contained tenant s.shard s.server.objs j.map.layers j.at_ e))

structure Inv (tenant : String) (crc32c : List UInt8 → Nat) (s : Serving) : Prop where
  ledger : PageServer.Ledger crc32c s.server fun e => e ∈ s.point.pending ∨ e ∈ s.flushed
  below : ∀ e ∈ s.flushed, e.lsn < s.server.ingest.applied
  manifest : ∃ ds, Published s.shard s.server.objs ds ∧ Good tenant s s.flushed.length ds
  published : Good tenant s s.reflected s.server.map.layers
  reloads : ∀ r ∈ s.reloads, Good tenant s r.2 r.1.layers
  point : PointOk tenant s s.point
  jobs : ∀ j ∈ s.jobs, JobOk tenant crc32c s j

/-! ## Steps that keep what there is -/

/-- A step from `s` to `s'` that takes nothing from a layer, a manifest or
the flushed records, and brings no read that is below the records it
has. -/
structure Extends (s s' : Serving) : Prop where
  cfg : s'.server.ingest.cfg = s.server.ingest.cfg
  objs : LayersStay s.server.objs s'.server.objs
  flushed : ∃ es, s'.flushed = s.flushed ++ es
  reads : ∀ at_, s'.Reads at_ → ∀ e ∈ s.flushed, e.lsn ≤ at_ →
    ∃ at₀, at₀ ≤ at_ ∧ s.Reads at₀ ∧ e.lsn ≤ at₀

theorem Extends.shard (h : Extends s s') : s'.shard = s.shard := congrArg IngestConfig.shard h.cfg

theorem Extends.take (h : Extends s s') {k k' : Nat} (hk : k ≤ s.flushed.length) (hk' : k ≤ k')
    {e : DeltaEntry} (he : e ∈ s.flushed.take k) : e ∈ s'.flushed.take k' := by
  obtain ⟨es, hes⟩ := h.flushed
  rw [hes]
  have hsame : (s.flushed ++ es).take k = s.flushed.take k := List.take_append_of_le_length hk
  rw [← hsame] at he
  exact (List.take_subset_take_left _ hk') he

theorem Good.extend {k : Nat} {ds : List LayerDesc} (h : Good tenant s k ds) (hx : Extends s s') :
    Good tenant s' k ds := by
  obtain ⟨es, hes⟩ := hx.flushed
  refine ⟨?_, fun at_ hat e he hle => ?_⟩
  · rw [hes, List.length_append]
    exact Nat.le_trans h.1 (Nat.le_add_right ..)
  · have he' : e ∈ s.flushed.take k := by
      rw [hes, List.take_append_of_le_length h.1] at he
      exact he
    obtain ⟨at₀, hle₀, hat₀, hel⟩ := hx.reads at_ hat e (List.mem_of_mem_take he') hle
    rw [hx.shard]
    exact (h.2 at₀ hat₀ e he' hel).mono hx.objs (fun _ hd => hd) hle₀

theorem JobOk.extend {j : Job} (h : JobOk tenant crc32c s j) (hx : Extends s s')
    (hk : s.reflected ≤ s.flushed.length) (hk' : s.reflected ≤ s'.reflected) :
    JobOk tenant crc32c s' j := by
  intro rec hr key hkey hj hshard
  rw [hx.shard, hx.cfg] at hshard
  obtain ⟨e, h1, h2, h3, h4⟩ := h rec hr key hkey hj hshard
  refine ⟨e, h1, h2, h3, h4.imp_right ?_⟩
  rintro ⟨hmem, hle, hin⟩
  rw [hx.shard]
  exact ⟨hx.take hk hk' hmem, hle, hin.mono hx.objs (fun _ hd => hd) le_rfl⟩

theorem PointOk.extend {pt : FlushPoint} (h : PointOk tenant s pt) (hx : Extends s s')
    (hflushed : s'.flushed = s.flushed) (hreflected : s'.reflected = s.reflected)
    (happ : s'.server.ingest.applied = s.server.ingest.applied)
    (hman : get s.server.objs (.manifest s.shard) ≠ none →
      get s'.server.objs (.manifest s.shard) ≠ none) : PointOk tenant s' pt := by
  cases pt with
  | idle => exact hreflected.trans (h.trans (congrArg List.length hflushed.symm))
  | staged entry entries =>
    obtain ⟨o, d, hname, hobj, hentries, hrest⟩ := h
    refine ⟨o, d, hname, ?_, ?_, hrest⟩
    · rw [hx.shard]
      exact hx.objs _ _ _ _ hobj
    · rw [happ]
      exact hentries
  | listed =>
    unfold PointOk
    rw [hx.shard]
    exact hman h
  | loaded map =>
    unfold PointOk
    rw [hflushed]
    exact Good.extend h hx

theorem extends_of_same (hcfg : s'.server.ingest.cfg = s.server.ingest.cfg)
    (happ : s'.server.ingest.applied = s.server.ingest.applied)
    (hobjs : LayersStay s.server.objs s'.server.objs)
    (hflushed : ∃ es, s'.flushed = s.flushed ++ es) (hjobs : ∀ j ∈ s'.jobs, j ∈ s.jobs) :
    Extends s s' := by
  refine ⟨hcfg, hobjs, hflushed, fun at_ hat e _ hle => ⟨at_, le_rfl, ?_, hle⟩⟩
  rcases hat with rfl | ⟨j, hj, rfl⟩
  · exact .inl happ
  · exact .inr ⟨j, hjobs j hj, rfl⟩

theorem ledger_congr {v v' : PageServer} {P P' : DeltaEntry → Prop}
    (h : PageServer.Ledger crc32c v P) (hingest : v'.ingest = v.ingest) (hlog : v'.log = v.log)
    (hfrozen : v'.frozen = v.frozen) (hP : ∀ e, P e → P' e) : PageServer.Ledger crc32c v' P' := by
  refine ⟨by rw [hingest]; exact h.base, ?_, ?_, ?_⟩
  · rw [hingest, hfrozen]
    exact h.below
  · rw [hingest, hlog]
    exact h.logged
  · intro rec hr key hk hshard
    rw [hingest] at hshard
    rw [hlog] at hr
    obtain ⟨e, h1, h2, h3, h4⟩ := h.held rec hr key hk hshard
    rw [hingest]
    exact ⟨e, h1, h2, h3, h4.imp_right (hP e)⟩

/-! ## The driver's steps -/

theorem Anchored.inv (h : s.Anchored) : Inv tenant crc32c s := by
  have hgood : ∀ ds, Good tenant s 0 ds := by
    intro ds
    exact ⟨Nat.zero_le _, nofun⟩
  have hlen : s.flushed.length = 0 := by rw [h.flushed]; rfl
  refine ⟨h.server.ledger, ?_, ⟨_, h.server.published, ?_⟩, ?_, ?_, ?_, ?_⟩
  · rw [h.flushed]
    exact nofun
  · rw [hlen]
    exact hgood _
  · rw [h.reflected]
    exact hgood _
  · rw [h.reloads]
    exact nofun
  · rw [h.point]
    exact h.reflected.trans hlen.symm
  · rw [h.jobs]
    exact nofun

theorem Inv.apply (h : Inv tenant crc32c s) (hidle : s.point = .idle)
    (hrun : s.server.frozen = false) (frames : List Frame2) :
    Inv tenant crc32c { s with server := s.server.apply crc32c frames } := by
  obtain ⟨hobjs, hmap, hcfg, hle⟩ := PageServer.apply_frame crc32c h.ledger.base frames
  have hx : Extends s { s with server := s.server.apply crc32c frames } := by
    refine ⟨hcfg, ?_, ⟨[], (List.append_nil _).symm⟩, fun at_ hat e he hel => ?_⟩
    · dsimp only
      rw [hobjs]
      exact fun _ _ _ _ ho => ho
    · rcases hat with rfl | ⟨j, hj, rfl⟩
      · exact ⟨s.server.ingest.applied, hle, .inl rfl, Nat.le_of_lt (h.below e he)⟩
      · exact ⟨j.at_, le_rfl, .inr ⟨j, hj, rfl⟩, hel⟩
  obtain ⟨ds, hp, hgood⟩ := h.manifest
  refine ⟨h.ledger.apply hrun frames, ?_, ⟨ds, ?_, hgood.extend hx⟩, ?_, ?_, ?_, ?_⟩
  · exact fun e he => Nat.lt_of_lt_of_le (h.below e he) hle
  · rw [hx.shard]
    rw [hobjs]
    exact hp
  · dsimp only
    rw [hmap]
    exact h.published.extend hx
  · exact fun r hr => (h.reloads r hr).extend hx
  · have hpoint := h.point
    rw [hidle] at hpoint
    rw [hidle]
    exact hpoint
  · exact fun j hj => (h.jobs j hj).extend hx h.published.1 le_rfl

variable {acks : List Store.Ack}

theorem Inv.flush (h : Inv tenant crc32c s) (hidle : s.point = .idle)
    (hrun : s.server.frozen = false) (hok : StepOk codec tenant s (.flush acks)) :
    Inv tenant crc32c (s.flush codec tenant acks) := by
  unfold Serving.flush
  by_cases hempty : s.server.ingest.mem.isEmpty = true
  · rw [if_pos hempty]
    exact h
  · rw [if_neg hempty]
    obtain ⟨hacks, hsize, hname⟩ := hok (by simpa using hempty)
    have hne : s.server.ingest.mem.iter ≠ [] := by
      intro hnil
      refine hempty ?_
      have hent : s.server.ingest.mem.entries.entries = [] := List.map_eq_nil_iff.mp hnil
      simp [Memtable.isEmpty, hent]
    obtain ⟨o, hbuild⟩ := buildDelta_iter codec hne hsize
    have hw : World.Faultless (⟨s.server.objs, acks⟩ : World ShardKey ShardObj) := hacks
    obtain ⟨w', hput, -, hobj, hadds⟩ := putDelta_faultless hw hbuild (hname o hbuild)
    obtain ⟨d, hdesc, hown, hupto, hwf⟩ := buildDelta_desc hbuild
    simp only [Memtable.drainSorted, hput]
    generalize hs' : ({ s with
      server := { s.server with
        objs := w'.objs, ingest := { s.server.ingest with mem := Memtable.new } }
      point := .staged ⟨o.name, o.size, none, none⟩ s.server.ingest.mem.iter } : Serving) = s'
    have hx : Extends s s' := by
      subst hs'
      exact extends_of_same rfl rfl hadds.stay ⟨[], (List.append_nil _).symm⟩ fun _ hj => hj
    obtain ⟨ds, hp, hgood⟩ := h.manifest
    subst hs'
    refine ⟨h.ledger.drain rfl rfl fun e he => ?_, h.below,
      ⟨ds, hadds.published hp, hgood.extend hx⟩, h.published.extend hx,
      fun r hr => (h.reloads r hr).extend hx, ?_,
      fun j hj => (h.jobs j hj).extend hx h.published.1 le_rfl⟩
    · rw [hidle] at he
      rcases he with hm | hnil | hf
      · exact .inl hm
      · cases hnil
      · exact .inr hf
    · refine ⟨o, d, rfl, hobj, fun e he => ⟨(buildDelta_contains hbuild).1 e he, ?_⟩, hdesc, hown,
        hupto, hwf⟩
      exact h.ledger.below hrun e he

theorem Inv.publish (h : Inv tenant crc32c s) {entry : LayerEntry} {entries : List DeltaEntry}
    (hpoint : s.point = .staged entry entries) (hok : StepOk codec tenant s (.publish acks)) :
    Inv tenant crc32c (s.publish entry entries acks) := by
  obtain ⟨hacks, hforeign⟩ := hok
  obtain ⟨o, d, hname, hobj, hentries, hdesc, hown, hupto, hwf⟩ : PointOk tenant s
      (.staged entry entries) := hpoint ▸ h.point
  obtain ⟨ds, hp, hgood⟩ := h.manifest
  have hw : World.Faultless (⟨s.server.objs, acks⟩ : World ShardKey ShardObj) := hacks
  obtain ⟨w', m, ds', hpub, -, hobjs, hfmt, hds', hwf', hold, x, hxmem, hxname, hxown⟩ :=
    publish_faultless s.server.ingest.applied hw hp hdesc hwf
  unfold Serving.publish
  rw [hpub]
  dsimp only
  have hstay : LayersStay s.server.objs w'.objs := by
    rw [hobjs]
    exact layersStay_manifest _ _ _
  have hnew : ∀ e ∈ entries, InLayers tenant s.shard w'.objs ds' e := by
    intro e he
    refine inLayers_of_listed hxmem (hxname.trans hname) ?_ (hstay _ _ _ _ hobj) (hentries e he).1
    rcases hxown with rfl | hxds
    · exact ⟨hown, hupto⟩
    · obtain ⟨l, hl, hldesc⟩ := of_mem_descs hp.manifestOf.2 hxds
      obtain ⟨hln, hlo, hlu⟩ := desc_fields hldesc
      obtain ⟨ho, hu⟩ := hforeign entry entries hpoint l hl (hln.symm.trans hxname)
      exact ⟨hlo.trans ho, hlu.trans hu⟩
  generalize hs' : ({ s with
    server := { s.server with objs := w'.objs }
    point := .listed
    flushed := s.flushed ++ entries } : Serving) = s'
  have hx : Extends s s' := by
    subst hs'
    exact extends_of_same rfl rfl hstay ⟨entries, rfl⟩ fun _ hj => hj
  have hgood' : Good tenant s' s'.flushed.length ds' := by
    refine ⟨le_rfl, fun at_ hat e he hel => ?_⟩
    rw [List.take_length] at he
    have hsplit : e ∈ s.flushed ++ entries := by
      subst hs'
      exact he
    rcases List.mem_append.mp hsplit with hf | hn
    · have hext := (hgood.extend hx).2 at_ hat e ?_ hel
      · exact hext.mono (fun _ _ _ _ ho => ho) hold le_rfl
      · refine hx.take le_rfl le_rfl ?_
        rw [List.take_length]
        exact hf
    · left
      subst hs'
      exact hnew e hn
  subst hs'
  refine ⟨ledger_congr h.ledger rfl rfl rfl fun e he => ?_, fun e he => ?_,
    ⟨ds', .inr ⟨m, ?_, hfmt, hds', hwf'⟩, hgood'⟩, h.published.extend hx,
    fun r hr => (h.reloads r hr).extend hx, ?_,
    fun j hj => (h.jobs j hj).extend hx h.published.1 le_rfl⟩
  · rw [hpoint] at he
    rcases he with hpend | hf
    · exact .inr (List.mem_append_right _ hpend)
    · exact .inr (List.mem_append_left _ hf)
  · rcases List.mem_append.mp he with hf | hn
    · exact h.below e hf
    · exact (hentries e hn).2
  · rw [hobjs]
    exact get_cons_self ..
  · change get w'.objs (.manifest s.shard) ≠ none
    rw [hobjs, get_cons_self]
    simp

theorem Inv.load (h : Inv tenant crc32c s) (hpoint : s.point = .listed)
    (hok : StepOk codec tenant s (.load acks)) : Inv tenant crc32c (s.load acks) := by
  have hsome : PointOk tenant s .listed := hpoint ▸ h.point
  obtain ⟨ds, hp, hgood⟩ := h.manifest
  obtain ⟨m, hget, hfmt, hds, hwf⟩ := hp.resolve_left fun hnone => hsome hnone.1
  have hw : World.Faultless (⟨s.server.objs, acks⟩ : World ShardKey ShardObj) := hok
  obtain ⟨map, w', hreload, -, hlayers⟩ := PageServer.reloadMap_faultless hw hget hfmt hds hwf
  unfold Serving.load
  rw [hreload]
  refine ⟨ledger_congr h.ledger rfl rfl rfl fun e he => ?_, h.below, ⟨ds, hp, hgood⟩, h.published,
    h.reloads, ?_, h.jobs⟩
  · rw [hpoint] at he
    exact he
  · change Good tenant s s.flushed.length map.layers
    rw [hlayers]
    exact hgood

theorem Inv.swap (h : Inv tenant crc32c s) {map : LayerMap} (hpoint : s.point = .loaded map) :
    Inv tenant crc32c { s with
      server := { s.server with map := map }, point := .idle, reflected := s.flushed.length } := by
  have hgood : PointOk tenant s (.loaded map) := hpoint ▸ h.point
  have hx : Extends s { s with
      server := { s.server with map := map }, point := .idle, reflected := s.flushed.length } :=
    extends_of_same rfl rfl (fun _ _ _ _ ho => ho) ⟨[], (List.append_nil _).symm⟩ fun _ hj => hj
  refine ⟨ledger_congr h.ledger rfl rfl rfl fun e he => ?_, h.below, h.manifest, hgood, h.reloads,
    rfl, fun j hj => (h.jobs j hj).extend hx h.published.1 h.published.1⟩
  rw [hpoint] at he
  exact he

theorem Inv.dispatch (h : Inv tenant crc32c s) (hidle : s.point = .idle) (keys : List LayerKey)
    (pooled : Bool) : Inv tenant crc32c (s.dispatch keys pooled) := by
  have hreads : s.server.ingest.applied = 0 ∨ s.readAt = s.server.ingest.applied := by
    unfold readAt
    by_cases h0 : s.server.ingest.applied = 0
    · exact .inl h0
    · exact .inr (if_neg h0)
  have hx : Extends s (s.dispatch keys pooled) := by
    refine ⟨rfl, fun _ _ _ _ ho => ho, ⟨[], (List.append_nil _).symm⟩, fun at_ hat e he hel => ?_⟩
    rcases hat with rfl | ⟨j, hj, rfl⟩
    · exact ⟨_, le_rfl, .inl rfl, hel⟩
    · rcases List.mem_append.mp hj with hj | hj
      · exact ⟨_, le_rfl, .inr ⟨j, hj, rfl⟩, hel⟩
      · cases List.mem_singleton.mp hj
        dsimp only at hel ⊢
        rcases hreads with h0 | heq
        · have hlt := h.below e he
          rw [h0] at hlt
          exact absurd hlt (Nat.not_lt_zero _)
        · rw [heq] at hel ⊢
          exact ⟨_, le_rfl, .inl rfl, hel⟩
  obtain ⟨ds, hp, hgood⟩ := h.manifest
  have hlen : PointOk tenant s .idle := hidle ▸ h.point
  refine ⟨h.ledger, h.below, ⟨ds, hp, hgood.extend hx⟩, h.published.extend hx,
    fun r hr => (h.reloads r hr).extend hx, ?_, fun j hj => ?_⟩
  · change PointOk tenant (s.dispatch keys pooled) s.point
    rw [hidle]
    exact hlen
  rcases List.mem_append.mp hj with hj | hj
  · exact (h.jobs j hj).extend hx h.published.1 le_rfl
  · cases List.mem_singleton.mp hj
    intro rec hr key hkey hj hshard
    obtain ⟨e, h1, h2, h3, h4⟩ := h.ledger.held rec hr key hkey hshard
    obtain ⟨hpos, hlt⟩ := h.ledger.logged rec hr
    have hat : s.readAt = s.server.ingest.applied := by
      refine hreads.resolve_left fun h0 => ?_
      rw [h0] at hlt
      exact absurd hlt (Nat.not_lt_zero _)
    have hel : e.lsn ≤ s.readAt := by
      rw [h2, hat]
      exact Nat.le_of_lt hlt
    refine ⟨e, h1, h2, h3, ?_⟩
    rw [hidle] at h4
    rcases h4 with hm | hnil | hf
    · left
      cases pooled with
      | false => exact hm
      | true => exact Memtable.mem_subset hm (by rw [h1]; exact hj) (by rw [h2]; exact hpos) hel
    · cases hnil
    · have htake : e ∈ s.flushed.take s.reflected := by
        rw [hlen, List.take_length]
        exact hf
      refine .inr ⟨htake, hel, ?_⟩
      rw [hat]
      exact h.published.2 _ (.inl rfl) e htake (by rw [← hat]; exact hel)

/-! ## The other threads' steps -/

theorem Inv.reply (h : Inv tenant crc32c s) (job : Nat) :
    Inv tenant crc32c { s with jobs := s.jobs.eraseIdx job } := by
  have hjobs : ∀ j ∈ s.jobs.eraseIdx job, j ∈ s.jobs := fun j hj => List.mem_of_mem_eraseIdx hj
  have hx : Extends s { s with jobs := s.jobs.eraseIdx job } :=
    extends_of_same rfl rfl (fun _ _ _ _ ho => ho) ⟨[], (List.append_nil _).symm⟩ hjobs
  obtain ⟨ds, hp, hgood⟩ := h.manifest
  refine ⟨h.ledger, h.below, ⟨ds, hp, hgood.extend hx⟩, h.published.extend hx,
    fun r hr => (h.reloads r hr).extend hx, h.point.extend hx rfl rfl rfl fun hne => hne,
    fun j hj => (h.jobs j (hjobs j hj)).extend hx h.published.1 le_rfl⟩

theorem Inv.reload (h : Inv tenant crc32c s) {job : Nat}
    (hstep : s.reload job acks = some s') : Inv tenant crc32c s' := by
  unfold Serving.reload at hstep
  obtain ⟨ds, hp, hgood⟩ := h.manifest
  split at hstep
  · cases hstep
  · split at hstep
    · split at hstep
      · cases hstep
        exact h
      · rename_i map w hr
        cases hstep
        refine ⟨h.ledger, h.below, ⟨ds, hp, hgood⟩, h.published, fun r hmem => ?_, h.point, h.jobs⟩
        rcases List.mem_append.mp hmem with hmem | hmem
        · exact h.reloads r hmem
        · cases List.mem_singleton.mp hmem
          rw [reloadMap_ok hp hr]
          exact hgood
    · cases hstep

theorem Inv.reswap (h : Inv tenant crc32c s) {reload : Nat}
    (hok : StepOk codec tenant s (.reswap reload)) (hstep : s.reswap reload = some s') :
    Inv tenant crc32c s' := by
  unfold Serving.reswap at hstep
  obtain ⟨⟨map, listed⟩, hget, rfl⟩ := Option.map_eq_some_iff.mp hstep
  have hle := hok _ hget
  have hgood := h.reloads _ (List.mem_of_getElem? hget)
  have hx : Extends s { s with
      server := { s.server with map := map }
      reloads := s.reloads.eraseIdx reload
      reflected := listed } :=
    extends_of_same rfl rfl (fun _ _ _ _ ho => ho) ⟨[], (List.append_nil _).symm⟩ fun _ hj => hj
  refine ⟨ledger_congr h.ledger rfl rfl rfl fun _ he => he, h.below, h.manifest, hgood,
    fun r hr => h.reloads r (List.mem_of_mem_eraseIdx hr), ?_,
    fun j hj => (h.jobs j hj).extend hx h.published.1 hle⟩
  have hpoint := h.point
  cases hpt : s.point with
  | idle =>
    -- All that was flushed is in what was loaded.
    rw [hpt] at hpoint
    exact Nat.le_antisymm hgood.1 (Nat.le_trans (Nat.le_of_eq hpoint.symm) hle)
  | staged entry entries =>
    rw [hpt] at hpoint
    exact hpoint
  | listed =>
    rw [hpt] at hpoint
    exact hpoint
  | loaded map =>
    rw [hpt] at hpoint
    exact hpoint

/-- A change of the store that keeps its layers: the manifest has to hold
what was flushed. -/
theorem Inv.store (h : Inv tenant crc32c s) {objs : List (ShardKey × ShardObj)}
    (hobjs : LayersStay s.server.objs objs)
    (hman : get s.server.objs (.manifest s.shard) ≠ none → get objs (.manifest s.shard) ≠ none)
    (hgood : ∃ ds, Published s.shard objs ds
      ∧ Good tenant { s with server := { s.server with objs := objs } } s.flushed.length ds) :
    Inv tenant crc32c { s with server := { s.server with objs := objs } } := by
  have hx : Extends s { s with server := { s.server with objs := objs } } :=
    extends_of_same rfl rfl hobjs ⟨[], (List.append_nil _).symm⟩ fun _ hj => hj
  refine ⟨ledger_congr h.ledger rfl rfl rfl fun _ he => he, h.below, hgood, h.published.extend hx,
    fun r hr => (h.reloads r hr).extend hx, h.point.extend hx rfl rfl rfl hman,
    fun j hj => (h.jobs j hj).extend hx h.published.1 le_rfl⟩

theorem Inv.stage (h : Inv tenant crc32c s) (o : LayerObj) : Inv tenant crc32c { s with
      server := { s.server with objs := stageOutput tenant s.shard s.server.objs o } } := by
  obtain ⟨ds, hp, hgood⟩ := h.manifest
  refine h.store (stageOutput_stay o) (fun hne => ?_) ⟨ds, ?_, ?_⟩
  · rw [stageOutput_manifest]
    exact hne
  · unfold Published
    rw [stageOutput_manifest]
    exact hp
  · exact hgood.extend (extends_of_same rfl rfl (stageOutput_stay o)
      ⟨[], (List.append_nil _).symm⟩ fun _ hj => hj)

theorem Inv.commit (h : Inv tenant crc32c s) {retire : List LayerName} {add : List LayerEntry}
    {covers : Option Nat} {horizon : Option Lsn}
    (hok : StepOk codec tenant s (.commit retire add covers horizon)) :
    Inv tenant crc32c { s with server := { s.server with
      objs := commitSwap s.shard s.server.objs retire add covers horizon } } := by
  obtain ⟨ds, hp, hgood⟩ := h.manifest
  obtain ⟨ds', hds', hwf, hkeep⟩ := hok
  have hstay : LayersStay s.server.objs
      (commitSwap s.shard s.server.objs retire add covers horizon) := layersStay_manifest _ _ _
  refine h.store hstay (fun _ => ?_) ⟨ds', .inr ⟨_, get_cons_self .., ?_, hds', hwf⟩, ?_⟩
  · unfold commitSwap
    rw [get_cons_self]
    simp
  · rw [swapLayers_format]
    exact hp.manifestOf.1
  · refine ⟨le_rfl, fun at_ hat e he hel => ?_⟩
    exact (hkeep ds hp at_ hat e hel (hgood.2 at_ hat e he hel)).mono hstay (fun _ hd => hd)
      le_rfl

theorem inv_next (s : Serving) (l : ServeStep) (s' : Serving) (h : Inv tenant crc32c s)
    (hok : StepOk codec tenant s l) (hstep : next codec tenant crc32c s l = some s') :
    Inv tenant crc32c s' := by
  unfold next at hstep
  split at hstep
  case h_1 frames hidle =>
    by_cases hf : s.server.frozen = true
    · rw [if_pos hf] at hstep
      cases hstep
    · rw [if_neg hf] at hstep
      cases hstep
      exact h.apply hidle (by simpa using hf) frames
  case h_2 acks hidle =>
    by_cases hf : s.server.frozen = true
    · rw [if_pos hf] at hstep
      cases hstep
    · rw [if_neg hf] at hstep
      cases hstep
      exact h.flush hidle (by simpa using hf) hok
  case h_3 acks entry entries hpoint =>
    cases hstep
    exact h.publish hpoint hok
  case h_4 acks hpoint =>
    cases hstep
    exact h.load hpoint hok
  case h_5 map hpoint =>
    cases hstep
    exact h.swap hpoint
  case h_6 keys pooled hidle =>
    cases hstep
    exact h.dispatch hidle keys pooled
  case h_7 job =>
    cases hstep
    exact h.reply job
  case h_8 job acks => exact h.reload hstep
  case h_9 reload => exact h.reswap hok hstep
  case h_10 o =>
    cases hstep
    exact h.stage o
  case h_11 retire add covers horizon =>
    cases hstep
    exact h.commit hok
  case h_12 name =>
    split at hstep
    · cases hstep
    · cases hstep
      exact ⟨h.ledger, h.below, h.manifest, h.published, h.reloads, h.point, h.jobs⟩
  case h_13 => cases hstep

theorem JobOk.complete {j : Job} (h : JobOk tenant crc32c s j) {map : LayerMap}
    (hmap : ∀ e ∈ s.flushed.take s.reflected, e.lsn ≤ j.at_ →
      Contained tenant s.shard s.server.objs j.map.layers j.at_ e →
        Contained tenant s.shard s.server.objs map.layers j.at_ e) :
    Complete tenant crc32c s j map := by
  intro rec hr _ key hkey hj hshard
  obtain ⟨e, h1, h2, h3, h4⟩ := h rec hr key hkey hj hshard
  exact ⟨e, h1, h2, h3, h4.imp_right fun ⟨hf, hle, hin⟩ => hmap e hf hle hin⟩

/-- In every run whose steps meet the condition, every read has a pair that
holds every record of its keys up to where it is served, and still has one
with the map that is published when it retries; and between flushes the
published map holds everything that was flushed. -/
theorem views_complete {s₀ s : Serving} {ls : List ServeStep} (hstart : s₀.Anchored)
    (hok : Trace.Meets (next codec tenant crc32c) (StepOk codec tenant) s₀ ls)
    (hrun : Trace.run (next codec tenant crc32c) s₀ ls = some s) :
    (∀ j ∈ s.jobs, Complete tenant crc32c s j j.map ∧ Complete tenant crc32c s j s.server.map)
      ∧ (s.point = .idle → ∀ e ∈ s.flushed, Contained tenant s.shard s.server.objs
          s.server.map.layers s.server.ingest.applied e) := by
  have h : Inv tenant crc32c s := Trace.guarded_invariant inv_next hstart.inv hok hrun
  refine ⟨fun j hj => ⟨?_, ?_⟩, fun hidle e he => ?_⟩
  · exact (h.jobs j hj).complete fun e _ _ hin => hin
  · exact (h.jobs j hj).complete fun e hf hle _ => h.published.2 _ (.inr ⟨j, hj, rfl⟩) e hf hle
  · have hlen : PointOk tenant s .idle := hidle ▸ h.point
    refine h.published.2 _ (.inl rfl) e ?_ (Nat.le_of_lt (h.below e he))
    rw [hlen, List.take_length]
    exact he

open PageServer (plainCodec)

/-- A delta object of a few records. -/
def sampleDelta (es : List DeltaEntry) : LayerObj :=
  match buildDelta plainCodec.stored plainCodec.crc es plainCodec.target with
  | .ok o => o
  | .error _ => ⟨⟨.delta, LayerKey.page 0 0 0 0 0, LayerKey.page 0 0 0 0 0, 0, 0, 0, [],
      ⟨[]⟩⟩, [], 0⟩

def firstEntry : DeltaEntry := ⟨LayerKey.page 1 2 3 0 5, 2, [1]⟩

def secondEntry : DeltaEntry := ⟨LayerKey.page 1 2 3 0 5, 4, [2]⟩

/-- Two old layers of a page, and what a compaction makes of them. -/
def oldA : LayerObj := sampleDelta [firstEntry]

def oldB : LayerObj := sampleDelta [secondEntry]

def merged : LayerObj := sampleDelta [firstEntry, secondEntry]

def sampleEntry (o : LayerObj) : LayerEntry := ⟨o.name, o.size, none, none⟩

def sampleDesc (o : LayerObj) : LayerDesc := LayerDesc.fromFooter o.footer o.size

def twoManifest : PageShardManifest :=
  ⟨1, 0, 8, [sampleEntry oldA, sampleEntry oldB], none, none⟩

/-- A driver anchored at 8 on a manifest of the two. -/
def twoLayers : Serving :=
  ⟨⟨[(.manifest 0, .shard twoManifest),
      (.layer "t" 0 oldA.name, .layer oldA), (.layer "t" 0 oldB.name, .layer oldB)],
    ShardIngest.new ⟨7, 0, 1⟩ 8,
    ⟨[sampleDesc oldA, sampleDesc oldB], .nil, LayerMap.build [sampleDesc oldA, sampleDesc oldB]⟩,
    false, []⟩, .idle, [], [], [], [], 0⟩

theorem twoLayers_anchored : twoLayers.Anchored := by
  refine ⟨⟨⟨⟨7, 0, 1⟩, 8, rfl⟩, rfl, rfl, .inr ⟨_, rfl, by decide, ?_, ?_⟩⟩, rfl, rfl, rfl, rfl,
    rfl⟩
  · decide +kernel
  · unfold LayerDesc.Wf
    decide +kernel

theorem contains_of_bodies {o : LayerObj} {run : List DeltaEntry} {e : DeltaEntry}
    (h : o.blocks.map (·.body) = [.delta run]) : o.Contains e ↔ e ∈ run := by
  constructor
  · rintro ⟨b, hb, run', hbody, he⟩
    have hmem : BlockBody.delta run' ∈ o.blocks.map (·.body) := List.mem_map.mpr ⟨b, hb, hbody⟩
    rw [h] at hmem
    cases List.mem_singleton.mp hmem
    exact he
  · intro he
    obtain ⟨b, hb, hbody⟩ := List.mem_map.mp (h ▸ List.mem_singleton_self (BlockBody.delta run))
    exact ⟨b, hb, run, hbody, he⟩

theorem merged_bodies : merged.blocks.map (·.body) = [.delta [firstEntry, secondEntry]] := by
  decide +kernel

/-- What the steps ask where no operation fails, the names of flushed layers
are free and the two layers are merged. -/
def Plainly (s : Serving) : ServeStep → Prop
  | .flush acks => acks = [] ∧ (∀ e ∈ s.server.ingest.mem.iter, e.record.length ≤ maxRecordLen)
      ∧ ∀ o ∈ (buildDelta plainCodec.stored plainCodec.crc s.server.ingest.mem.iter
          plainCodec.target).toOption, get s.server.objs (.layer "t" s.shard o.name) = none
  | .publish acks => acks = []
      ∧ ∀ l ∈ (manifestOf s.shard s.server.objs).layers, l.owner = none ∧ l.upto = none
  | .load acks => acks = []
  | .reswap _ => ∀ r ∈ s.reloads, s.reflected ≤ r.2
  | .commit retire add covers horizon =>
    (retire, add, covers, horizon) = ([oldA.name, oldB.name], [sampleEntry merged], none, none)
      ∧ (s.shard, manifestOf s.shard s.server.objs) = (0, twoManifest)
      ∧ ∀ o ∈ [oldA, oldB, merged], get s.server.objs (.layer "t" 0 o.name) = some (.layer o)
  | _ => True

instance (s : Serving) : ∀ l, Decidable (Plainly s l)
  | .flush _ | .publish _ | .load _ | .reswap _ | .commit .. => by unfold Plainly; infer_instance
  | .apply _ | .swap | .dispatch .. | .reply _ | .reload .. | .stage _ | .collect _ => isTrue trivial

/-- The commit keeps both records. -/
theorem merge_keeps {s : Serving} {ds : List LayerDesc} {at_ : Lsn} {e : DeltaEntry}
    (hmanifest : manifestOf s.shard s.server.objs = twoManifest) (hshard : s.shard = 0)
    (hobjs : ∀ o ∈ [oldA, oldB, merged], get s.server.objs (.layer "t" 0 o.name) = some (.layer o))
    (hds : Published s.shard s.server.objs ds) (h : Contained "t" s.shard s.server.objs ds at_ e) :
    Contained "t" s.shard s.server.objs [sampleDesc merged] at_ e := by
  have hdescs := hds.manifestOf.2
  have hold : PageShardManifest.descs twoManifest.layers
      = .ok [sampleDesc oldA, sampleDesc oldB] := by
    decide +kernel
  rw [hmanifest, hold] at hdescs
  cases hdescs
  rw [hshard] at h ⊢
  have hmem : e ∈ [firstEntry, secondEntry] := by
    rcases h with ⟨d, hd, -, o, ho, hin⟩ | ⟨d, hd, himage, -⟩
    · rcases List.mem_cons.mp hd with rfl | hd
      · cases (hobjs oldA (by simp)).symm.trans ho
        have hbodies : oldA.blocks.map (·.body) = [.delta [firstEntry]] := by decide +kernel
        exact List.mem_cons.mpr (.inl (List.mem_singleton.mp
          ((contains_of_bodies hbodies).mp hin)))
      · cases List.mem_singleton.mp hd
        cases (hobjs oldB (by simp)).symm.trans ho
        have hbodies : oldB.blocks.map (·.body) = [.delta [secondEntry]] := by decide +kernel
        exact .tail _ ((contains_of_bodies hbodies).mp hin)
    · have hkinds : ∀ d ∈ [sampleDesc oldA, sampleDesc oldB], d.kind ≠ .image := by
        decide +kernel
      exact absurd himage (hkinds d hd)
  exact .inl ⟨sampleDesc merged, List.mem_singleton_self _, nofun, merged,
    hobjs merged (by simp), (contains_of_bodies merged_bodies).mpr hmem⟩

theorem stepOk_plainly {s : Serving} {l : ServeStep} (h : Plainly s l) :
    StepOk plainCodec "t" s l := by
  cases l with
  | flush acks =>
    obtain ⟨rfl, hlens, hfree⟩ := h
    exact fun _ => ⟨nofun, hlens, fun o ho => .inl (hfree o (by rw [ho]; rfl))⟩
  | publish acks =>
    obtain ⟨rfl, hplain⟩ := h
    exact ⟨nofun, fun _ _ _ l hl _ => hplain l hl⟩
  | load acks =>
    cases h
    exact nofun
  | reswap reload => exact fun r hr => h r (List.mem_of_getElem? hr)
  | commit retire add covers horizon =>
    obtain ⟨hargs, hstate, hobjs⟩ := h
    cases hargs
    obtain ⟨hshard, hmanifest⟩ := Prod.mk.inj hstate
    refine ⟨[sampleDesc merged], ?_, ?_, fun ds hds _ _ e _ => merge_keeps hmanifest hshard hobjs hds⟩
    · rw [hmanifest]
      decide +kernel
    · unfold LayerDesc.Wf
      decide +kernel
  | _ => trivial

/-- A compaction merges the layers under a read, whose reader loads the
manifest and publishes it; then a record is applied, flushed and read. -/
def mergedAndServed : List ServeStep :=
  [.dispatch [LayerKey.page 1 2 3 0 5] true, .stage merged,
    .commit [oldA.name, oldB.name] [sampleEntry merged] none none, .collect oldA.name,
    .reload 0 [], .reswap 0, .reply 0, .apply [⟨7, 8, ShardIngest.initRecord⟩], .flush [],
    .publish [], .load [], .swap, .dispatch [LayerKey.page 1 2 3 0 5] true]

theorem views_complete_merged :
    ∃ s j, Trace.run (next plainCodec "t" fun _ => 0) twoLayers mergedAndServed = some s
      ∧ s.jobs = [j] ∧ j.log.length = 1 ∧ j.mem.iter = [] ∧ j.map.layers.length = 2
      ∧ Complete "t" (fun _ => 0) s j j.map := by
  have hrun : (Trace.run (next plainCodec "t" fun _ => 0) twoLayers mergedAndServed).map
      (fun s => s.jobs.map fun j => (j.log.length, j.mem.iter, j.map.layers.length))
        = some [(1, [], 2)] := by
    decide +kernel
  have hplain : Trace.Meets (next plainCodec "t" fun _ => 0) Plainly twoLayers mergedAndServed := by
    decide +kernel
  obtain ⟨s, hs, hproj⟩ := Option.map_eq_some_iff.mp hrun
  obtain ⟨j, hjobs, hj⟩ := List.map_eq_singleton_iff.mp hproj
  simp only [Prod.mk.injEq] at hj
  exact ⟨s, j, hs, hjobs, hj.1, hj.2.1, hj.2.2, ((views_complete twoLayers_anchored
    (Trace.meets_mono (fun _ _ => stepOk_plainly) hplain) hs).1 j (hjobs ▸ List.mem_singleton_self j)).1⟩

/-- A read misses a layer that a compaction retired, and its reader loads
the manifest; the driver flushes a record and publishes the map that has
it; then the reader publishes the one it loaded. The next read of the page
gets a map and a memtable without the record. -/
theorem stale_swap_loses :
    twoLayers.Anchored
      ∧ ∃ s j, Trace.run (next plainCodec "t" fun _ => 0) twoLayers
          [.dispatch [LayerKey.page 1 2 3 0 5] true, .stage merged,
            .commit [oldA.name, oldB.name] [sampleEntry merged] none none, .collect oldA.name,
            .reload 0 [], .reply 0, .apply [⟨7, 8, ShardIngest.initRecord⟩], .flush [], .publish [],
            .load [], .swap, .reswap 0, .dispatch [LayerKey.page 1 2 3 0 5] true] = some s
        ∧ s.jobs = [j] ∧ ¬ Complete "t" (fun _ => 0) s j j.map := by
  refine ⟨twoLayers_anchored, ?_⟩
  have hrun : (Trace.run (next plainCodec "t" fun _ => 0) twoLayers
      [.dispatch [LayerKey.page 1 2 3 0 5] true, .stage merged,
        .commit [oldA.name, oldB.name] [sampleEntry merged] none none, .collect oldA.name,
        .reload 0 [], .reply 0, .apply [⟨7, 8, ShardIngest.initRecord⟩], .flush [], .publish [],
        .load [], .swap, .reswap 0, .dispatch [LayerKey.page 1 2 3 0 5] true]).any
        (fun s => decide (s.jobs.map (fun j => (j.log, j.keys, j.at_))
            = [([⟨8, 56, 0, 0, 0, ShardIngest.initRecord⟩], [LayerKey.page 1 2 3 0 5], 56)]
          ∧ s.jobs.map (fun j => (j.mem.iter, j.map.layers)) = [([], [sampleDesc merged])]
          ∧ s.server.ingest.cfg = ⟨7, 0, 1⟩
          ∧ get s.server.objs (.layer "t" 0 merged.name) = some (.layer merged))) = true := by
    decide +kernel
  obtain ⟨s, hs, hproj⟩ := (Option.any_eq_true _ _).mp hrun
  rw [decide_eq_true_eq] at hproj
  obtain ⟨hjobs, hjobs', hcfg, hobj⟩ := hproj
  obtain ⟨j, hj, hview⟩ := List.map_eq_singleton_iff.mp hjobs
  rw [hj] at hjobs'
  simp only [Prod.mk.injEq] at hview
  obtain ⟨hlog, hkeys, hat⟩ := hview
  obtain ⟨hmem, hmap⟩ := Prod.mk.inj (List.cons.inj hjobs').1
  refine ⟨s, j, hs, hj, fun h => ?_⟩
  have hshard : s.shard = 0 := congrArg IngestConfig.shard hcfg
  obtain ⟨e, -, hlsn, -, hm | hin⟩ := h ⟨8, 56, 0, 0, 0, ShardIngest.initRecord⟩
    (by rw [hlog]; exact List.mem_singleton.mpr rfl) (by rw [hat]; decide)
    (LayerKey.page 1 2 3 0 5) (by decide +kernel) (by rw [hkeys]; exact List.mem_singleton.mpr rfl)
    (by rw [hshard, hcfg]; rfl)
  · rw [hmem] at hm
    cases hm
  · rw [hmap, hshard] at hin
    have hkind : (sampleDesc merged).kind = .delta := by decide +kernel
    have hkey : ShardKey.layer ((sampleDesc merged).owner.getD "t") 0 (sampleDesc merged).name
        = .layer "t" 0 merged.name := rfl
    rcases hin with ⟨d, hd, -, o, ho, he⟩ | ⟨d, hd, himg, -⟩
    · cases List.mem_singleton.mp hd
      rw [hkey, hobj] at ho
      cases ho
      have hlsns : ∀ e ∈ [firstEntry, secondEntry], e.lsn ≠ 8 := by decide
      exact hlsns e ((contains_of_bodies merged_bodies).mp he) hlsn
    · cases List.mem_singleton.mp hd
      rw [hkind] at himg
      cases himg

end Serving

end Zou
