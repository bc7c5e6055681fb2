import Zou.Flush
import Zou.IngestFraming
import Zou.LayerSpec

/-!
# What a flush loses

Every record the driver parsed is in the memtable or in a layer that the
manifest and the map name, as long as no flush of records meets a failed
operation, an oversized record or a name that is taken. The invariant
keeps the map equal to the manifest, and everything in the memtable below
the watermark, so that a later parse overwrites nothing.
-/

namespace Zou

open Store WalStream

/-! ## Building what the memtable held -/

theorem validate_of_sorted {E : Type} {fmt : EntryFormat E} : ∀ {es : List E} {last : Option E},
    (last.toList ++ es).Pairwise (fmt.before · ·) → (∀ e ∈ es, fmt.check e = .ok ()) →
      validate fmt last es = .ok () := by
  intro es
  induction es with
  | nil => exact fun _ _ => rfl
  | cons e es ih =>
    intro last hpw hcheck
    have hlast : ¬ (last.any fun p => ! fmt.before p e) = true := by
      cases last with
      | none => simp
      | some p =>
        have hpe : fmt.before p e = true :=
          (List.pairwise_cons.mp hpw).1 e List.mem_cons_self
        simp [hpe]
    rw [validate, if_neg hlast, hcheck e List.mem_cons_self]
    refine ih ?_ fun x hx => hcheck x (.tail _ hx)
    cases last with
    | none => exact hpw
    | some p => exact (List.pairwise_cons.mp hpw).2

/-- The entries of a memtable build, unless one is too large. -/
theorem buildDelta_iter (codec : LayerCodec) {mem : Memtable} (hne : mem.iter ≠ [])
    (hsize : ∀ e ∈ mem.iter, e.record.length ≤ maxRecordLen) :
    ∃ o, buildDelta codec.stored codec.crc mem.iter codec.target = .ok o := by
  have hv : validate deltaFormat none mem.iter = .ok () := by
    refine validate_of_sorted ?_ fun e he => ?_
    · refine (Memtable.iter_pairwise mem).imp fun h => ?_
      simpa [deltaFormat] using h
    · have hle := hsize e he
      simp only [deltaFormat, if_neg (Nat.not_lt.mpr hle)]
  cases hes : mem.iter with
  | nil => exact absurd hes hne
  | cons e es =>
    rw [hes] at hv
    unfold buildDelta buildLayer
    rw [hv]
    exact ⟨_, rfl⟩

/-- A delta object holds a record. -/
def LayerObj.Contains (o : LayerObj) (e : DeltaEntry) : Prop :=
  ∃ b ∈ o.blocks, ∃ run, b.body = .delta run ∧ e ∈ run

/-- Bounds a layer map takes. -/
def LayerDesc.Wf (d : LayerDesc) : Prop :=
  d.minKey ≤ d.maxKey ∧ d.minLsn ≤ d.maxLsn ∧ (d.kind = .image → d.minLsn = d.maxLsn)

theorem buildDelta_contains {codec : LayerCodec} {es : List DeltaEntry} {o : LayerObj}
    (h : buildDelta codec.stored codec.crc es codec.target = .ok o) :
    (∀ e ∈ es, o.Contains e) ∧ ∃ d, LayerDesc.parse o.name o.size = .ok d ∧ d.name = o.name
      ∧ d.owner = none ∧ d.upto = none ∧ d.Wf := by
  have hh := holds_of_build deltaFormat_lawful codec.stored_pos codec.target_le h
  obtain ⟨-, hne, -, hkind, -⟩ := buildLayer_ok h
  obtain ⟨e, he⟩ := List.exists_mem_of_ne_nil es hne
  have hkeys := hh.keys e he
  have hlsns := hh.lsns e he
  refine ⟨fun e he => hh.all e he, ?_⟩
  have hname : o.name = .delta o.footer.minKey o.footer.maxKey o.footer.minLsn o.footer.maxLsn := by
    unfold LayerObj.name LayerDesc.name LayerDesc.fromFooter
    rw [hkind]
  rw [hname]
  refine ⟨_, rfl, rfl, rfl, rfl, le_trans hkeys.1 hkeys.2, Nat.le_trans hlsns.1 hlsns.2, ?_⟩
  nofun

/-! ## What an ingest call does -/

namespace ShardIngest

variable {crc32c : List UInt8 → Nat}

theorem extendAll_frame {fs : List Frame2} {o : Option IngestError} :
    ∀ {s s' : ShardIngest}, s.extendAll fs = (s', o) →
      s'.cfg = s.cfg ∧ s'.mem = s.mem ∧ s'.applied = s.applied ∧ s'.bufBase = s.bufBase := by
  induction fs with
  | nil =>
    intro s s' h
    obtain rfl := (Prod.mk.inj h).1
    exact ⟨rfl, rfl, rfl, rfl⟩
  | cons f fs ih =>
    intro s s' h
    have hone : ∀ s₁, s.extend f = .ok s₁ → s₁.cfg = s.cfg ∧ s₁.mem = s.mem
        ∧ s₁.applied = s.applied ∧ s₁.bufBase = s.bufBase := by
      intro s₁ h
      unfold extend at h
      split at h
      · cases h
        exact ⟨rfl, rfl, rfl, rfl⟩
      · split at h
        · cases h
          exact ⟨rfl, rfl, rfl, rfl⟩
        · split at h
          · cases h
          · cases h
            exact ⟨rfl, rfl, rfl, rfl⟩
    unfold extendAll at h
    cases hf : s.extend f with
    | error e =>
      rw [hf] at h
      obtain rfl := (Prod.mk.inj h).1
      exact ⟨rfl, rfl, rfl, rfl⟩
    | ok s₁ =>
      rw [hf] at h
      obtain ⟨h1, h2, h3, h4⟩ := hone s₁ hf
      obtain ⟨h5, h6, h7, h8⟩ := ih h
      exact ⟨h5.trans h1, h6.trans h2, h7.trans h3, h8.trans h4⟩

theorem indexAll_writes {cfg : IngestConfig} {R : List WalRecord} : ∀ {mem : Memtable},
    ∃ R' : List WalRecord, (∀ r ∈ R', r ∈ R)
      ∧ (indexAll crc32c cfg mem R).1 = mem.insertAll (R'.flatMap (writes crc32c cfg)) := by
  induction R with
  | nil => exact fun {mem} => ⟨[], fun r hr => hr, rfl⟩
  | cons r R ih =>
    intro mem
    rw [indexAll_cons]
    cases hrec : indexRecord crc32c cfg mem r with
    | error c => exact ⟨[], nofun, rfl⟩
    | ok mem₁ =>
      obtain ⟨R', hsub, heq⟩ := @ih mem₁
      refine ⟨r :: R', fun x hx => ?_, ?_⟩
      · rcases List.mem_cons.mp hx with rfl | hx
        · exact List.mem_cons_self
        · exact .tail _ (hsub x hx)
      · dsimp only
        rw [heq, List.flatMap_cons, Memtable.insertAll_append, ← indexRecord_eq hrec]

variable {s : ShardIngest}

theorem exists_buffered (h : s.bufBase = s.applied) :
    ∃ S : WalStream, Buffered S (s.applied + s.buf.length) s := by
  obtain ⟨S, hS⟩ := exists_bytes s.applied s.buf
  refine ⟨S, h, ?_⟩
  rw [Nat.add_sub_cancel_left, hS]

theorem Buffered.read {S : WalStream} {hi : Nat} (h : Buffered S hi s) :
    WalWindow.readRecords ⟨s.bufBase, s.buf⟩ s.applied none = S.walkTo hi s.applied := by
  have hwin : (⟨s.bufBase, s.buf⟩ : WalWindow) = S.window s.applied hi := by
    rw [h.base, h.buf]
    rfl
  rw [hwin, readRecords_window]

/-- What a call without an error leaves. -/
structure Applied (crc32c : List UInt8 → Nat) (R : List WalRecord) (s s' : ShardIngest) : Prop where
  cfg : s'.cfg = s.cfg
  base : s'.bufBase = s'.applied
  mem : s'.mem = s.mem.insertAll (R.flatMap (writes crc32c s.cfg))
  le : s.applied ≤ s'.applied
  lsns : ∀ rec ∈ R, s.applied ≤ rec.lsn ∧ rec.lsn < s'.applied ∧ 0 < rec.lsn
  sorted : R.Pairwise fun a b => a.lsn < b.lsn
  rest : WalWindow.readRecords ⟨s'.bufBase, s'.buf⟩ s'.applied none = .ok ([], s'.applied)

theorem applyFrames_ok {s' : ShardIngest} {frames : List Frame2} (hbase : s.bufBase = s.applied)
    (h : s.applyFrames crc32c frames = (s', none)) : Applied crc32c (s.parsed frames) s s' := by
  unfold applyFrames at h
  unfold parsed
  cases hx : s.extendAll frames with
  | mk s₁ o =>
    rw [hx] at h
    obtain ⟨hcfg, hmem, happ, hbb⟩ := extendAll_frame hx
    cases o with
    | some e => cases h
    | none =>
      obtain ⟨S, hb⟩ := exists_buffered (hbb.trans (hbase.trans happ.symm))
      have hread := hb.read
      dsimp only at h ⊢
      by_cases hempty : s₁.buf.isEmpty = true
      · have hsame : s₁ = s' := by
          rw [parseAvailable, if_pos hempty] at h
          exact (Prod.mk.inj h).1
        have hnil : s₁.buf = [] := List.isEmpty_iff.mp hempty
        subst hsame
        rw [if_pos hempty]
        refine ⟨hcfg, hb.base, hmem, Nat.le_of_eq happ.symm, nofun,
          List.Pairwise.nil, ?_⟩
        rw [hread, hnil]
        exact walkTo_stop le_rfl
      · rw [if_neg hempty]
        cases hw : S.walkTo (s₁.applied + s₁.buf.length) s₁.applied with
        | error e =>
          rw [parseAvailable, if_neg hempty, hread, hw] at h
          cases h
        | ok out =>
          obtain ⟨R, r⟩ := out
          rw [hread, hw]
          cases hix : indexAll crc32c s₁.cfg s₁.mem R with
          | mk mem c =>
            cases c with
            | some c =>
              rw [parseAvailable, if_neg hempty, hread, hw] at h
              dsimp only at h
              rw [hix] at h
              cases h
            | none =>
              rw [parseAvailable_spec hb hw hix] at h
              obtain rfl := (Prod.mk.inj h).1
              obtain ⟨hle, hlsn, hpw⟩ := walkTo_lsns hw
              rw [hcfg, hmem] at hix
              rw [happ] at hle hlsn
              refine ⟨hcfg, rfl, indexAll_eq hix, hle, hlsn, hpw, ?_⟩
              have hb' : Buffered S (s₁.applied + s₁.buf.length)
                  { s₁ with
                    mem := mem, applied := r, bufBase := r
                    buf := S.bytes r (s₁.applied + s₁.buf.length - r) } := ⟨rfl, rfl⟩
              rw [hb'.read]
              exact walkTo_rest hw

/-- What a call with an error leaves: nothing below the watermark is
gone. -/
theorem applyFrames_error {s' : ShardIngest} {frames : List Frame2} {e : IngestError}
    (hbase : s.bufBase = s.applied) (h : s.applyFrames crc32c frames = (s', some e)) :
    s'.cfg = s.cfg ∧ s'.applied = s.applied ∧ s'.bufBase = s.bufBase
      ∧ ∀ x ∈ s.mem.iter, x.lsn < s.applied → x ∈ s'.mem.iter := by
  unfold applyFrames at h
  cases hx : s.extendAll frames with
  | mk s₁ o =>
    rw [hx] at h
    obtain ⟨hcfg, hmem, happ, hbb⟩ := extendAll_frame hx
    cases o with
    | some e' =>
      obtain rfl := (Prod.mk.inj h).1
      exact ⟨hcfg, happ, hbb, fun x hx _ => by rw [hmem]; exact hx⟩
    | none =>
      dsimp only at h
      unfold parseAvailable at h
      obtain ⟨S, hb⟩ := exists_buffered (hbb.trans (hbase.trans happ.symm))
      rw [hb.read] at h
      split at h
      · cases h
      · cases hw : S.walkTo (s₁.applied + s₁.buf.length) s₁.applied with
        | error e' =>
          rw [hw] at h
          obtain rfl := (Prod.mk.inj h).1
          exact ⟨hcfg, happ, hbb, fun x hx _ => by rw [← hmem] at hx; exact hx⟩
        | ok out =>
          obtain ⟨R, r⟩ := out
          rw [hw] at h
          dsimp only at h
          obtain ⟨R', hsub, hw'⟩ := @indexAll_writes crc32c s₁.cfg R s₁.mem
          cases hix : indexAll crc32c s₁.cfg s₁.mem R with
          | mk mem c =>
            rw [hix] at h hw'
            cases c with
            | none => cases h
            | some c =>
              obtain rfl := (Prod.mk.inj h).1
              refine ⟨hcfg, happ, hbb, fun x hx hlt => ?_⟩
              have hmem' : mem = s₁.mem.insertAll (R'.flatMap (writes crc32c s₁.cfg)) := hw'
              rw [hmem']
              refine Memtable.mem_insertAll_of_mem (by rw [hmem]; exact hx) ?_
              rintro w hwr ⟨-, hl⟩
              obtain ⟨rec, hrec, hwrec⟩ := List.mem_flatMap.mp hwr
              have h1 := (mem_writes hwrec).1
              have h2 := ((walkTo_lsns hw).2.1 rec (hsub rec hrec)).1
              rw [hl, h1] at hlt
              rw [happ] at h2
              exact absurd hlt (Nat.not_lt.mpr h2)

end ShardIngest

/-! ## The manifest and its descriptors -/

variable {l : LayerEntry}

theorem desc_fields {d : LayerDesc} (h : l.desc = .ok d) :
    d.name = l.name ∧ d.owner = l.owner ∧ d.upto = l.upto := by
  unfold LayerEntry.desc LayerDesc.parse at h
  cases hn : l.name with
  | malformed text =>
    rw [hn] at h
    cases h
  | delta a b c e =>
    rw [hn] at h
    cases h
    exact ⟨rfl, rfl, rfl⟩
  | image a b c =>
    rw [hn] at h
    cases h
    exact ⟨rfl, rfl, rfl⟩

theorem descs_cons {ls : List LayerEntry} {ds : List LayerDesc}
    (h : PageShardManifest.descs (l :: ls) = .ok ds) :
    ∃ d ds', l.desc = .ok d ∧ PageShardManifest.descs ls = .ok ds' ∧ ds = d :: ds' := by
  unfold PageShardManifest.descs at h
  cases hd : l.desc with
  | error e =>
    rw [hd] at h
    cases h
  | ok d =>
    cases hds : PageShardManifest.descs ls with
    | error e =>
      rw [hd, hds] at h
      cases h
    | ok ds' =>
      rw [hd, hds] at h
      cases h
      exact ⟨d, ds', rfl, rfl, rfl⟩

theorem descs_append {d : LayerDesc} (hd : l.desc = .ok d) :
    ∀ {ls : List LayerEntry} {ds : List LayerDesc}, PageShardManifest.descs ls = .ok ds →
      PageShardManifest.descs (ls ++ [l]) = .ok (ds ++ [d]) := by
  intro ls
  induction ls with
  | nil =>
    intro ds h
    cases h
    simp only [List.nil_append, PageShardManifest.descs, hd]
  | cons a ls ih =>
    intro ds h
    obtain ⟨x, xs, hx, hxs, rfl⟩ := descs_cons h
    simp only [List.cons_append, PageShardManifest.descs, hx, ih hxs]

theorem mem_descs : ∀ {ls : List LayerEntry} {ds : List LayerDesc} {l : LayerEntry},
    PageShardManifest.descs ls = .ok ds → l ∈ ls → ∃ d ∈ ds, l.desc = .ok d := by
  intro ls
  induction ls with
  | nil =>
    nofun
  | cons a ls ih =>
    intro ds l h hl
    obtain ⟨x, xs, hx, hxs, rfl⟩ := descs_cons h
    rcases List.mem_cons.mp hl with rfl | hl
    · exact ⟨x, List.mem_cons_self, hx⟩
    · obtain ⟨d, hd, heq⟩ := ih hxs hl
      exact ⟨d, .tail _ hd, heq⟩

theorem of_mem_descs : ∀ {ls : List LayerEntry} {ds : List LayerDesc} {d : LayerDesc},
    PageShardManifest.descs ls = .ok ds → d ∈ ds → ∃ l ∈ ls, l.desc = .ok d := by
  intro ls
  induction ls with
  | nil =>
    intro ds d h hd
    cases h
    cases hd
  | cons a ls ih =>
    intro ds d h hd
    obtain ⟨x, xs, hx, hxs, rfl⟩ := descs_cons h
    rcases List.mem_cons.mp hd with rfl | hd
    · exact ⟨a, List.mem_cons_self, hx⟩
    · obtain ⟨l, hl, heq⟩ := ih hxs hd
      exact ⟨l, .tail _ hl, heq⟩

section Manifest

variable {tenant : String} {shard : Nat}

/-- The manifest lists the layers `ds`, or there is none yet. -/
def Published (shard : Nat) (objs : List (ShardKey × ShardObj)) (ds : List LayerDesc) : Prop :=
  (get objs (.manifest shard) = none ∧ ds = [])
    ∨ ∃ m, get objs (.manifest shard) = some (.shard m) ∧ m.format ≤ pageShardFormat
      ∧ PageShardManifest.descs m.layers = .ok ds ∧ ∀ d ∈ ds, d.Wf

/-- A record is in one of the layers, below its cut. -/
def InLayers (tenant : String) (shard : Nat) (objs : List (ShardKey × ShardObj))
    (ds : List LayerDesc) (e : DeltaEntry) : Prop :=
  ∃ d ∈ ds, (∀ u, d.upto = some u → e.lsn ≤ u)
    ∧ ∃ o, get objs (.layer (d.owner.getD tenant) shard d.name) = some (.layer o) ∧ o.Contains e

variable {w : World ShardKey ShardObj} {ds : List LayerDesc}

theorem load_faultless (hw : w.Faultless) (hp : Published shard w.objs ds) :
    ∃ w' om, PageShardManifest.load shard w = (.ok om, w') ∧ w'.objs = w.objs ∧ w'.Faultless
      ∧ (om = none → ds = []) ∧ (∀ m, om = some m → get w.objs (.manifest shard) = some (.shard m)
        ∧ m.format ≤ pageShardFormat ∧ PageShardManifest.descs m.layers = .ok ds) := by
  obtain ⟨w', hread, hobjs, hw'⟩ : ∃ w', (read FlushError.store (fun objs =>
      get objs (ShardKey.manifest shard)) : ShardProg _) w
        = (.ok (get w.objs (.manifest shard)), w') ∧ w'.objs = w.objs ∧ w'.Faultless :=
    read_faultless hw
  unfold PageShardManifest.load
  rw [Prog.bind_ok hread]
  rcases hp with ⟨hget, hds⟩ | ⟨m, hget, hfmt, hdescs, -⟩
  · rw [hget]
    exact ⟨w', none, rfl, hobjs, hw', fun _ => hds, nofun⟩
  · rw [hget]
    dsimp only
    rw [if_neg (Nat.not_lt.mpr hfmt)]
    refine ⟨w', some m, rfl, hobjs, hw', nofun, fun m' hm => ?_⟩
    cases hm
    exact ⟨rfl, hfmt, hdescs⟩

theorem layerMap_ok {m : PageShardManifest} (hd : PageShardManifest.descs m.layers = .ok ds)
    (hwf : ∀ d ∈ ds, d.Wf) : ∃ map, m.layerMap = .ok map ∧ map.layers = ds := by
  obtain ⟨map, hmap⟩ := LayerMap.new_of_wf hwf
  refine ⟨map, ?_, ?_⟩
  · simp only [PageShardManifest.layerMap, hd, hmap]
  · rw [(LayerMap.new_ok hmap).2]

theorem publishLayer_descs {m : PageShardManifest} {l : LayerEntry} {d : LayerDesc} {upto : Lsn}
    (hm : PageShardManifest.descs m.layers = .ok ds) (hl : l.desc = .ok d) :
    ∃ ds', PageShardManifest.descs (m.publishLayer l upto).layers = .ok ds'
      ∧ (∀ x ∈ ds, x ∈ ds') ∧ (∀ x ∈ ds', x ∈ ds ∨ x = d)
      ∧ ∃ x ∈ ds', x.name = l.name ∧ (x = d ∨ x ∈ ds) := by
  unfold PageShardManifest.publishLayer PageShardManifest.list
  by_cases hany : m.layers.any (fun x => decide (x.name = l.name)) = true
  · rw [if_pos hany]
    obtain ⟨x, hx, hname⟩ := List.any_eq_true.mp hany
    obtain ⟨y, hy, hdesc⟩ := mem_descs hm hx
    have hyname : y.name = l.name := (desc_fields hdesc).1.trans (by simpa using hname)
    exact ⟨ds, hm, fun _ h => h, fun _ h => .inl h, y, hy, hyname, .inr hy⟩
  · rw [if_neg hany]
    refine ⟨ds ++ [d], descs_append hl hm, fun x hx => List.mem_append_left _ hx, fun x hx => ?_, ?_⟩
    · rcases List.mem_append.mp hx with hx | hx
      · exact .inl hx
      · exact .inr (List.mem_singleton.mp hx)
    · exact ⟨d, List.mem_append_right _ (List.mem_singleton.mpr rfl), (desc_fields hl).1, .inl rfl⟩

/-- Nothing but `k` changed, and `k` was free or has what it had. -/
def OnlyAdds (objs objs' : List (ShardKey × ShardObj)) (k : ShardKey) : Prop :=
  ∀ k', get objs' k' ≠ get objs k' → k' = k ∧ get objs k' = none

variable {o : LayerObj}

theorem adoptLayer_faultless (hw : w.Faultless)
    (hfree : get w.objs (.layer tenant shard o.name) = none
      ∨ get w.objs (.layer tenant shard o.name) = some (.layer o)) :
    ∃ w', adoptLayer tenant shard o w = (.ok (), w') ∧ w'.Faultless
      ∧ get w'.objs (.layer tenant shard o.name) = some (.layer o)
      ∧ OnlyAdds w.objs w'.objs (.layer tenant shard o.name) := by
  obtain ⟨w', hw', hput⟩ : ∃ w' : World ShardKey ShardObj, w'.Faultless
      ∧ ((get w.objs (.layer tenant shard o.name) = none
          ∧ (putIfAbsent .store .exists_ (.layer tenant shard o.name) (.layer o) : ShardProg Unit) w
            = (.ok (), w') ∧ w'.objs = (.layer tenant shard o.name, .layer o) :: w.objs)
        ∨ (get w.objs (.layer tenant shard o.name) ≠ none
          ∧ (putIfAbsent .store .exists_ (.layer tenant shard o.name) (.layer o) : ShardProg Unit) w
            = (.error .exists_, w') ∧ w'.objs = w.objs)) := putIfAbsent_faultless hw
  unfold adoptLayer
  rcases hput with ⟨hnone, hput, hobjs⟩ | ⟨hsome, hput, hobjs⟩
  · rw [hput]
    refine ⟨w', rfl, hw', by rw [hobjs, get_cons_self], fun k hk => ?_⟩
    by_cases hk' : k = .layer tenant shard o.name
    · exact ⟨hk', hk' ▸ hnone⟩
    · rw [hobjs, get_cons_ne hk'] at hk
      exact absurd rfl hk
  · rw [hput]
    refine ⟨w', rfl, hw', ?_, fun k hk => absurd (by rw [hobjs]) hk⟩
    rw [hobjs]
    exact hfree.resolve_left hsome

/-- The objects of layers that are there stay. -/
def LayersStay (objs objs' : List (ShardKey × ShardObj)) : Prop :=
  ∀ t n k o, get objs (.layer t n k) = some (.layer o) → get objs' (.layer t n k) = some (.layer o)

variable {objs objs' : List (ShardKey × ShardObj)}

theorem OnlyAdds.stay {k : ShardKey} (h : OnlyAdds objs objs' k) : LayersStay objs objs' := by
  intro t n name o ho
  by_contra hne
  have hchanged := h _ fun heq => hne (heq.trans ho)
  rw [ho] at hchanged
  cases hchanged.2

theorem OnlyAdds.published
    {t : String} {n : Nat} {name : LayerName} (h : OnlyAdds objs objs' (.layer t n name))
    (hp : Published shard objs ds) : Published shard objs' ds := by
  have hsame : get objs' (.manifest shard) = get objs (.manifest shard) := by
    by_contra hne
    exact absurd (h _ hne).1 (by simp)
  unfold Published
  rw [hsame]
  exact hp

variable {codec : LayerCodec}

theorem putDelta_faultless
    {entries : List DeltaEntry} (hw : w.Faultless)
    (hbuild : buildDelta codec.stored codec.crc entries codec.target = .ok o)
    (hfree : get w.objs (.layer tenant shard o.name) = none
      ∨ get w.objs (.layer tenant shard o.name) = some (.layer o)) :
    ∃ w', ShardIngest.putDelta codec tenant shard entries w
        = (.ok ⟨o.name, o.size, none, none⟩, w')
      ∧ w'.Faultless ∧ get w'.objs (.layer tenant shard o.name) = some (.layer o)
      ∧ OnlyAdds w.objs w'.objs (.layer tenant shard o.name) := by
  obtain ⟨w', hadopt, hw', hobj, hadds⟩ := adoptLayer_faultless hw hfree
  refine ⟨w', ?_, hw', hobj, hadds⟩
  unfold ShardIngest.putDelta
  rw [hbuild]
  dsimp only
  rw [Prog.bind_ok hadopt]
  rfl

theorem publish_faultless {l : LayerEntry} {d : LayerDesc} (upto : Lsn) (hw : w.Faultless)
    (hp : Published shard w.objs ds) (hl : l.desc = .ok d) (hd : d.Wf) :
    ∃ w' m ds', PageShardManifest.publish shard l upto w = (.ok m, w') ∧ w'.Faultless
      ∧ w'.objs = (.manifest shard, .shard m) :: w.objs
      ∧ m.format ≤ pageShardFormat ∧ PageShardManifest.descs m.layers = .ok ds'
      ∧ (∀ x ∈ ds', x.Wf) ∧ (∀ x ∈ ds, x ∈ ds')
      ∧ ∃ x ∈ ds', x.name = l.name ∧ (x = d ∨ x ∈ ds) := by
  obtain ⟨w₁, om, hload, hobjs₁, hw₁, hnone, hsome⟩ := load_faultless hw hp
  have hm0 : (om.getD (PageShardManifest.new shard)).format ≤ pageShardFormat
      ∧ PageShardManifest.descs (om.getD (PageShardManifest.new shard)).layers = .ok ds := by
    cases om with
    | none =>
      rw [hnone rfl]
      exact ⟨Nat.le_succ 1, rfl⟩
    | some m => exact (hsome m rfl).2
  generalize hmdef : om.getD (PageShardManifest.new shard) = m₀ at hm0
  obtain ⟨ds', hds', hold, hnew, hlisted⟩ : ∃ ds',
      PageShardManifest.descs (m₀.publishLayer l upto).layers = .ok ds' ∧ _ :=
    publishLayer_descs hm0.2 hl
  obtain ⟨w₂, hput, hobjs₂, hw₂⟩ : ∃ w₂, (put FlushError.store (ShardKey.manifest shard)
      (.shard (m₀.publishLayer l upto)) : ShardProg Unit) w₁ = (.ok (), w₂)
        ∧ w₂.objs = (.manifest shard, .shard (m₀.publishLayer l upto)) :: w₁.objs
        ∧ w₂.Faultless := put_faultless hw₁
  refine ⟨w₂, m₀.publishLayer l upto, ds', ?_, hw₂, by rw [hobjs₂, hobjs₁], ?_, hds', ?_, hold,
    hlisted⟩
  · unfold PageShardManifest.publish
    rw [Prog.bind_ok hload, hmdef, Prog.bind_ok hput]
    rfl
  · unfold PageShardManifest.publishLayer PageShardManifest.list
    split
    · exact hm0.1
    · exact hm0.1
  · intro x hx
    rcases hnew x hx with hx | rfl
    · rcases hp with ⟨-, hds⟩ | ⟨m, -, -, -, hwf⟩
      · rw [hds] at hx
        cases hx
      · exact hwf x hx
    · exact hd

theorem InLayers.mono {ds' : List LayerDesc}
    {e : DeltaEntry} (h : InLayers tenant shard objs ds e) (hobjs : LayersStay objs objs')
    (hds : ∀ d ∈ ds, d ∈ ds') : InLayers tenant shard objs' ds' e := by
  obtain ⟨d, hd, hcut, o, ho, he⟩ := h
  exact ⟨d, hds d hd, hcut, o, hobjs _ _ _ _ ho, he⟩

theorem layersStay_manifest (objs : List (ShardKey × ShardObj)) (n : Nat) (b : ShardObj) :
    LayersStay objs ((.manifest n, b) :: objs) := by
  intro t n' k o ho
  rw [get_cons_ne (by simp)]
  exact ho

/-- An entry of the shard's own object puts the object's records in the
layers. -/
theorem inLayers_of_listed {x : LayerDesc} {e : DeltaEntry} (hx : x ∈ ds) (hname : x.name = o.name)
    (hown : x.owner = none ∧ x.upto = none)
    (ho : get objs (.layer tenant shard o.name) = some (.layer o)) (he : o.Contains e) :
    InLayers tenant shard objs ds e := by
  refine ⟨x, hx, fun u hu => ?_, o, ?_, he⟩
  · rw [hown.2] at hu
    cases hu
  · rw [hown.1, hname]
    exact ho

theorem buildDelta_desc {es : List DeltaEntry}
    (h : buildDelta codec.stored codec.crc es codec.target = .ok o) :
    ∃ d, (⟨o.name, o.size, none, none⟩ : LayerEntry).desc = .ok d ∧ d.owner = none
      ∧ d.upto = none ∧ d.Wf := by
  obtain ⟨-, d, hparse, -, hown, hupto, hwf⟩ := buildDelta_contains h
  refine ⟨{ d with owner := none, upto := none }, ?_, rfl, rfl, hwf⟩
  unfold LayerEntry.desc
  rw [hparse]
  rfl

/-- A flush of entries that build, without a fault: what was listed still
is, and what was drained is in a layer that is listed. -/
theorem flushEntries_faultless {entries : List DeltaEntry} (applied : Lsn)
    (hw : w.Faultless) (hp : Published shard w.objs ds)
    (hbuild : buildDelta codec.stored codec.crc entries codec.target = .ok o)
    (hfree : get w.objs (.layer tenant shard o.name) = none
      ∨ get w.objs (.layer tenant shard o.name) = some (.layer o))
    (hown : ∀ d ∈ ds, d.name = o.name → d.owner = none ∧ d.upto = none) :
    ∃ w' entry ds', ShardIngest.flushEntries codec tenant shard applied entries w = (.ok entry, w')
      ∧ w'.Faultless ∧ (∃ m, get w'.objs (.manifest shard) = some (.shard m)
        ∧ m.format ≤ pageShardFormat ∧ PageShardManifest.descs m.layers = .ok ds'
        ∧ ∀ d ∈ ds', d.Wf)
      ∧ (∀ e, InLayers tenant shard w.objs ds e → InLayers tenant shard w'.objs ds' e)
      ∧ ∀ e ∈ entries, InLayers tenant shard w'.objs ds' e := by
  obtain ⟨w₁, hput, hw₁, hobj, hadds⟩ := putDelta_faultless hw hbuild hfree
  obtain ⟨d, hdesc, hdown, hdupto, hdwf⟩ := buildDelta_desc hbuild
  obtain ⟨w₂, m, ds', hpub, hw₂, hobjs₂, hfmt, hds', hwf, hold, x, hx, hxname, hxown⟩ :=
    publish_faultless applied hw₁ (hadds.published hp) hdesc hdwf
  have hstay : LayersStay w₁.objs w₂.objs := by
    rw [hobjs₂]
    exact layersStay_manifest _ _ _
  refine ⟨w₂, ⟨o.name, o.size, none, none⟩, ds', ?_, hw₂, ⟨m, ?_, hfmt, hds', hwf⟩, fun e he => ?_,
    fun e he => ?_⟩
  · unfold ShardIngest.flushEntries
    rw [Prog.bind_ok hput, Prog.bind_ok hpub]
    rfl
  · rw [hobjs₂, get_cons_self]
  · exact he.mono (fun t n k b hb => hstay t n k b (hadds.stay t n k b hb)) hold
  · refine inLayers_of_listed hx hxname ?_ (hstay _ _ _ _ hobj) ((buildDelta_contains hbuild).1 e he)
    rcases hxown with rfl | hxds
    · exact ⟨hdown, hdupto⟩
    · exact hown x hxds hxname

end Manifest

/-! ## The driver -/

namespace PageServer

variable {codec : LayerCodec} {tenant : String} {crc32c : List UInt8 → Nat}

/-- Every parsed record, under each of its keys of the shard, is somewhere
that `P` says. -/
def Holds (crc32c : List UInt8 → Nat) (s : PageServer) (P : DeltaEntry → Prop) : Prop :=
  ∀ rec ∈ s.log, ∀ key ∈ ShardIngest.keys rec,
    shardOf crc32c key s.ingest.cfg.shardCount = s.ingest.cfg.shard →
      ∃ e, e.key = key ∧ e.lsn = rec.lsn ∧ (key.kind = 0 → e.record = rec.bytes) ∧ P e

/-- In the memtable or in a layer the manifest names. -/
def Kept (tenant : String) (s : PageServer) (e : DeltaEntry) : Prop :=
  e ∈ s.ingest.mem.iter
    ∨ ∃ m ds, get s.objs (.manifest s.ingest.cfg.shard) = some (.shard m)
      ∧ PageShardManifest.descs m.layers = .ok ds
      ∧ InLayers tenant s.ingest.cfg.shard s.objs ds e

/-- In the memtable or in a layer the published map names: what a read sees. -/
def Seen (tenant : String) (s : PageServer) (e : DeltaEntry) : Prop :=
  e ∈ s.ingest.mem.iter ∨ InLayers tenant s.ingest.cfg.shard s.objs s.map.layers e

/-- A driver that has just anchored on the manifest. -/
structure Anchored (s : PageServer) : Prop where
  fresh : ∃ cfg start, s.ingest = ShardIngest.new cfg start
  log : s.log = []
  running : s.frozen = false
  published : Published s.ingest.cfg.shard s.objs s.map.layers

/-- A flush of records meets no failed operation and no oversized record,
and the name of its layer is free, or has the same object and is not
listed for another owner. -/
def StepOk (codec : LayerCodec) (tenant : String) (s : PageServer) : ServerStep → Prop
  | .apply _ => True
  | .flush acks => s.ingest.mem.isEmpty = false →
      (∀ a ∈ acks, a = Store.Ack.reply)
        ∧ (∀ e ∈ s.ingest.mem.iter, e.record.length ≤ maxRecordLen)
        ∧ ∀ o, buildDelta codec.stored codec.crc s.ingest.mem.iter codec.target = .ok o →
          (get s.objs (.layer tenant s.ingest.cfg.shard o.name) = none
            ∨ get s.objs (.layer tenant s.ingest.cfg.shard o.name) = some (.layer o))
          ∧ ∀ d ∈ s.map.layers, d.name = o.name → d.owner = none ∧ d.upto = none

/-- The watermark is where the next parse starts, what is in the memtable
lies below it, and every parsed record is in the memtable or where `P`
says. -/
structure Ledger (crc32c : List UInt8 → Nat) (s : PageServer) (P : DeltaEntry → Prop) : Prop where
  base : s.ingest.bufBase = s.ingest.applied
  below : s.frozen = false → ∀ e ∈ s.ingest.mem.iter, e.lsn < s.ingest.applied
  logged : ∀ rec ∈ s.log, 0 < rec.lsn ∧ rec.lsn < s.ingest.applied
  held : Holds crc32c s fun e => e ∈ s.ingest.mem.iter ∨ P e

variable {s : PageServer} {P : DeltaEntry → Prop}

theorem Anchored.ledger (h : s.Anchored) : Ledger crc32c s P := by
  obtain ⟨⟨cfg, start, hi⟩, hlog, -, -⟩ := h
  refine ⟨by rw [hi]; rfl, fun _ e he => ?_, fun rec hr => ?_, fun rec hr => ?_⟩
  · rw [hi] at he
    cases he
  · rw [hlog] at hr
    cases hr
  · rw [hlog] at hr
    cases hr

theorem apply_frame (crc32c : List UInt8 → Nat)
    (hbase : s.ingest.bufBase = s.ingest.applied) (frames : List Frame2) :
    (s.apply crc32c frames).objs = s.objs ∧ (s.apply crc32c frames).map = s.map
      ∧ (s.apply crc32c frames).ingest.cfg = s.ingest.cfg
      ∧ s.ingest.applied ≤ (s.apply crc32c frames).ingest.applied := by
  unfold PageServer.apply
  cases happ : s.ingest.applyFrames crc32c frames with
  | mk i o =>
    cases o with
    | some err =>
      obtain ⟨hcfg, hap, -⟩ := ShardIngest.applyFrames_error hbase happ
      exact ⟨rfl, rfl, hcfg, Nat.le_of_eq hap.symm⟩
    | none =>
      have ha := ShardIngest.applyFrames_ok hbase happ
      exact ⟨rfl, rfl, ha.cfg, ha.le⟩

theorem Ledger.apply (h : Ledger crc32c s P) (hrun : s.frozen = false) (frames : List Frame2) :
    Ledger crc32c (s.apply crc32c frames) P := by
  unfold PageServer.apply
  cases happ : s.ingest.applyFrames crc32c frames with
  | mk i o =>
    cases o with
    | some err =>
      obtain ⟨hcfg, hap, hbb, hmem⟩ := ShardIngest.applyFrames_error h.base happ
      refine ⟨by rw [hbb, hap]; exact h.base, nofun, fun rec hr => ?_, ?_⟩
      · dsimp only
        rw [hap]
        exact h.logged rec hr
      · intro rec hr key hk hshard
        rw [hcfg] at hshard
        obtain ⟨e, he, hl, hb, hseen⟩ := h.held rec hr key hk hshard
        refine ⟨e, he, hl, hb, hseen.imp_left fun hm => hmem e hm ?_⟩
        rw [hl]
        exact (h.logged rec hr).2
    | none =>
      have ha := ShardIngest.applyFrames_ok h.base happ
      refine ⟨ha.base, fun _ e he => ?_, fun rec hr => ?_, ?_⟩
      · dsimp only at he ⊢
        rw [ha.mem] at he
        rcases Memtable.of_mem_insertAll he with hold | hnew
        · exact Nat.lt_of_lt_of_le (h.below hrun e hold) ha.le
        · obtain ⟨rec, hrec, hw⟩ := List.mem_flatMap.mp hnew
          rw [(ShardIngest.mem_writes hw).1]
          exact (ha.lsns rec hrec).2.1
      · rcases List.mem_append.mp hr with hr | hr
        · exact ⟨(h.logged rec hr).1, Nat.lt_of_lt_of_le (h.logged rec hr).2 ha.le⟩
        · exact ⟨(ha.lsns rec hr).2.2, (ha.lsns rec hr).2.1⟩
      · intro rec hr key hk hshard
        rw [ha.cfg] at hshard
        rcases List.mem_append.mp hr with hr | hr
        · obtain ⟨e, he, hl, hb, hseen⟩ := h.held rec hr key hk hshard
          refine ⟨e, he, hl, hb, hseen.imp_left fun hm => ?_⟩
          rw [ha.mem]
          refine Memtable.mem_insertAll_of_mem hm ?_
          -- What this call writes lies at or above the old watermark.
          rintro w hw ⟨-, hwl⟩
          obtain ⟨rec', hrec', hw'⟩ := List.mem_flatMap.mp hw
          have h1 := (ShardIngest.mem_writes hw').1
          have h2 := (ha.lsns rec' hrec').1
          have h3 := h.below hrun e hm
          rw [hwl, h1] at h3
          exact absurd h3 (Nat.not_lt.mpr h2)
        · obtain ⟨w, hw, hwk, hwl⟩ := ShardIngest.writes_of_key hk hshard
          have hin : w ∈ (s.ingest.parsed frames).flatMap
              (ShardIngest.writes crc32c s.ingest.cfg) := List.mem_flatMap.mpr ⟨rec, hr, hw⟩
          obtain ⟨e, he, hek, hel⟩ := Memtable.place_insertAll (m := s.ingest.mem)
            ⟨w, .inr hin, hwk, hwl⟩
          refine ⟨e, hek, hel, fun hkind => ?_, .inl (by rw [ha.mem]; exact he)⟩
          rcases Memtable.of_mem_insertAll he with hold | hnew
          · have h1 := h.below hrun e hold
            have h2 := (ha.lsns rec hr).1
            rw [hel] at h1
            exact absurd h1 (Nat.not_lt.mpr h2)
          · obtain ⟨rec', hrec', hw'⟩ := List.mem_flatMap.mp hnew
            obtain ⟨h1, -, -, hbytes⟩ := ShardIngest.mem_writes hw'
            obtain rfl := ShardIngest.lsn_unique ha.sorted hr hrec' (hel.symm.trans h1)
            exact hbytes (by rw [hek]; exact hkind)

theorem Ledger.drain {s' : PageServer} {P' : DeltaEntry → Prop} (h : Ledger crc32c s P)
    (hingest : s'.ingest = { s.ingest with mem := Memtable.new }) (hlog : s'.log = s.log)
    (hP : ∀ e, e ∈ s.ingest.mem.iter ∨ P e → P' e) : Ledger crc32c s' P' := by
  refine ⟨by rw [hingest]; exact h.base, fun _ e he => ?_, fun rec hr => ?_, ?_⟩
  · rw [hingest] at he
    cases he
  · rw [hingest]
    rw [hlog] at hr
    exact h.logged rec hr
  · intro rec hr key hk hshard
    rw [hingest] at hshard
    rw [hlog] at hr
    obtain ⟨e, he, hl, hb, hin⟩ := h.held rec hr key hk hshard
    exact ⟨e, he, hl, hb, .inr (hP e hin)⟩

structure Inv (tenant : String) (crc32c : List UInt8 → Nat) (s : PageServer) : Prop where
  ledger : Ledger crc32c s (InLayers tenant s.ingest.cfg.shard s.objs s.map.layers)
  published : Published s.ingest.cfg.shard s.objs s.map.layers
  rest : s.frozen = false →
    WalWindow.readRecords ⟨s.ingest.bufBase, s.ingest.buf⟩ s.ingest.applied none
      = .ok ([], s.ingest.applied)

theorem Anchored.inv (h : s.Anchored) : Inv tenant crc32c s := by
  refine ⟨h.ledger, h.published, fun _ => ?_⟩
  obtain ⟨⟨cfg, start, hi⟩, -, -, -⟩ := h
  rw [hi]
  simp [ShardIngest.new, WalWindow.readRecords, WalWindow.end_, WalWindow.walk]

theorem Inv.apply (h : Inv tenant crc32c s) (hrun : s.frozen = false)
    (frames : List Frame2) : Inv tenant crc32c (s.apply crc32c frames) := by
  obtain ⟨hobjs, hmap, hcfg, -⟩ := apply_frame crc32c h.ledger.base frames
  refine ⟨?_, ?_, fun hf => ?_⟩
  · rw [hobjs, hmap, hcfg]
    exact h.ledger.apply hrun frames
  · rw [hobjs, hmap, hcfg]
    exact h.published
  · unfold PageServer.apply at hf ⊢
    cases happ : s.ingest.applyFrames crc32c frames with
    | mk i o =>
      rw [happ] at hf
      cases o with
      | some err => cases hf
      | none => exact (ShardIngest.applyFrames_ok h.ledger.base happ).rest

theorem reloadMap_faultless {shard : Nat} {w : World ShardKey ShardObj} {m : PageShardManifest}
    {ds : List LayerDesc} (hw : w.Faultless) (hget : get w.objs (.manifest shard) = some (.shard m))
    (hfmt : m.format ≤ pageShardFormat) (hds : PageShardManifest.descs m.layers = .ok ds)
    (hwf : ∀ d ∈ ds, d.Wf) :
    ∃ map w', reloadMap shard w = (.ok map, w') ∧ w'.objs = w.objs ∧ map.layers = ds := by
  obtain ⟨w', om, hload, hobjs, -, -, hsome⟩ :=
    load_faultless hw (.inr ⟨m, hget, hfmt, hds, hwf⟩)
  obtain ⟨map, hmap, hlayers⟩ := layerMap_ok hds hwf
  refine ⟨map, w', ?_, hobjs, hlayers⟩
  unfold reloadMap
  rw [Prog.bind_ok hload]
  cases om with
  | none =>
    -- The load found the manifest that is there.
    unfold PageShardManifest.load at hload
    obtain ⟨w₁, hread, -, -⟩ : ∃ w₁, (read FlushError.store (fun objs =>
        get objs (ShardKey.manifest shard)) : ShardProg _) w
          = (.ok (get w.objs (.manifest shard)), w₁) ∧ w₁.objs = w.objs ∧ w₁.Faultless :=
      read_faultless hw
    rw [Prog.bind_ok hread, hget] at hload
    dsimp only at hload
    rw [if_neg (Nat.not_lt.mpr hfmt)] at hload
    cases hload
  | some m' =>
    have hm := (hsome m' rfl).1
    rw [hget] at hm
    cases hm
    dsimp only
    rw [hmap]
    rfl

theorem Inv.flush (h : Inv tenant crc32c s) (hrun : s.frozen = false)
    {acks : List Store.Ack} (hok : StepOk codec tenant s (.flush acks)) :
    Inv tenant crc32c (s.flushIfDue codec tenant acks) := by
  unfold flushIfDue ShardIngest.flush
  by_cases hempty : s.ingest.mem.isEmpty = true
  · rw [if_pos hempty]
    exact h
  · rw [if_neg hempty]
    obtain ⟨hacks, hsize, hname⟩ := hok (by simpa using hempty)
    have hne : s.ingest.mem.iter ≠ [] := by
      intro hnil
      refine hempty ?_
      have hent : s.ingest.mem.entries.entries = [] := List.map_eq_nil_iff.mp hnil
      simp [Memtable.isEmpty, hent]
    obtain ⟨o, hbuild⟩ := buildDelta_iter codec hne hsize
    obtain ⟨hfree, hown⟩ := hname o hbuild
    have hw : World.Faultless (⟨s.objs, acks⟩ : World ShardKey ShardObj) := hacks
    obtain ⟨w', entry, ds', hflush, hw', ⟨m, hget, hfmt, hds, hwf⟩, hold, hnew⟩ :=
      flushEntries_faultless s.ingest.applied hw h.published hbuild hfree hown
    obtain ⟨map, w'', hreload, hobjs, hlayers⟩ := reloadMap_faultless hw' hget hfmt hds hwf
    simp only [Memtable.drainSorted, hflush, Except.map, hreload]
    refine ⟨h.ledger.drain rfl rfl fun e he => ?_, ?_, fun _ => h.rest hrun⟩
    · dsimp only
      rw [hobjs, hlayers]
      rcases he with hm | hin
      · exact hnew e hm
      · exact hold e hin
    · refine .inr ⟨m, ?_, hfmt, ?_, ?_⟩
      · dsimp only
        rw [hobjs]
        exact hget
      · dsimp only
        rw [hlayers]
        exact hds
      · dsimp only
        rw [hlayers]
        exact hwf

theorem inv_next (s : PageServer) (l : ServerStep) (s' : PageServer) (h : Inv tenant crc32c s)
    (hok : StepOk codec tenant s l) (hstep : next codec tenant crc32c s l = some s') :
    Inv tenant crc32c s' := by
  unfold next at hstep
  by_cases hf : s.frozen = true
  · rw [if_pos hf] at hstep
    cases hstep
  · rw [if_neg hf] at hstep
    have hrun : s.frozen = false := by simpa using hf
    cases l with
    | apply frames =>
      cases hstep
      exact h.apply hrun frames
    | flush acks =>
      cases hstep
      exact h.flush hrun hok

/-- In every run whose flushes meet the condition, every parsed record is
in the memtable or in a layer the manifest names, every request that is
covered is served from a map and a memtable that hold all of them, and,
unless an apply failed, nothing complete that was received is not
parsed. -/
theorem flush_keeps_records {s₀ s : PageServer} {ls : List ServerStep} (hstart : s₀.Anchored)
    (hok : Trace.Meets (next codec tenant crc32c) (StepOk codec tenant) s₀ ls)
    (hrun : Trace.run (next codec tenant crc32c) s₀ ls = some s) : Holds crc32c s (Kept tenant s)
      ∧ (∀ lsn since durableSeen probed,
          covered lsn since s.ingest.seen durableSeen probed = true →
            Holds crc32c s (Seen tenant s))
      ∧ (s.frozen = false →
          WalWindow.readRecords ⟨s.ingest.bufBase, s.ingest.buf⟩ s.ingest.applied none
            = .ok ([], s.ingest.applied)) := by
  have h : Inv tenant crc32c s := Trace.guarded_invariant inv_next hstart.inv hok hrun
  refine ⟨fun rec hr key hk hshard => ?_, fun _ _ _ _ _ => h.ledger.held, h.rest⟩
  obtain ⟨e, he, hl, hb, hseen⟩ := h.ledger.held rec hr key hk hshard
  refine ⟨e, he, hl, hb, ?_⟩
  rcases hseen with hm | hin
  · exact .inl hm
  · rcases h.published with ⟨-, hnil⟩ | ⟨m, hget, -, hds, -⟩
    · rw [hnil] at hin
      obtain ⟨d, hd, -⟩ := hin
      cases hd
    · exact .inr ⟨m, _, hget, hds, hin⟩

/-- A block as its entries and a byte in front, nothing compressed. -/
def plainLen : BlockBody → Nat
  | .delta es => (es.map deltaFormat.size).sum + 1
  | .image es => (es.map (imageFormat 0).size).sum + 1

theorem plainLen_pos (b : BlockBody) : 0 < plainLen b := by
  cases b <;> exact Nat.succ_pos _

def plainCodec : LayerCodec :=
  ⟨plainLen, fun _ _ => 0, layerBlockTarget, plainLen_pos, le_rfl⟩

/-- A driver of a shard with no manifest, anchored at 8. -/
def freshServer : PageServer :=
  ⟨[], ShardIngest.new ⟨7, 0, 1⟩ 8, ⟨[], .nil, .nil⟩, false, []⟩

theorem freshServer_anchored : freshServer.Anchored :=
  ⟨⟨⟨7, 0, 1⟩, 8, rfl⟩, rfl, rfl, .inl ⟨rfl, rfl⟩⟩

/-- One record, applied and flushed. -/
theorem flush_keeps_records_fresh :
    ∃ s, Trace.run (next plainCodec "t" fun _ => 0) freshServer
        [.apply [⟨7, 8, ShardIngest.initRecord⟩], .flush []] = some s
      ∧ s.ingest.mem.iter = [] ∧ s.log.length = 1
      ∧ Holds (fun _ => 0) s (Kept "t" s) := by
  have hrun : (Trace.run (next plainCodec "t" fun _ => 0) freshServer
      [.apply [⟨7, 8, ShardIngest.initRecord⟩], .flush []]).map
        (fun s => (s.ingest.mem.iter, s.log.length)) = some ([], 1) := by
    decide +kernel
  obtain ⟨s, hs, hproj⟩ := Option.map_eq_some_iff.mp hrun
  obtain ⟨hmem, hlog⟩ := Prod.mk.inj hproj
  refine ⟨s, hs, hmem, hlog, (flush_keeps_records freshServer_anchored ?_ hs).1⟩
  refine ⟨trivial, fun s₁ h₁ => ⟨fun _ => ⟨nofun, ?_, fun o _ => ⟨?_, ?_⟩⟩, ?_⟩⟩
  · cases h₁
    decide +kernel
  · cases h₁
    have hobjs : (freshServer.apply (fun _ => 0) [⟨7, 8, ShardIngest.initRecord⟩]).objs = [] := by
      decide +kernel
    rw [hobjs]
    exact .inl rfl
  · cases h₁
    have hmap : (freshServer.apply (fun _ => 0)
        [⟨7, 8, ShardIngest.initRecord⟩]).map.layers = [] := by
      decide +kernel
    rw [hmap]
    exact nofun
  · exact fun _ _ => trivial

/-- The put of the layer fails: the record is parsed, the driver still
serves what it saw, and the record is nowhere. -/
theorem failed_flush_loses :
    freshServer.Anchored
      ∧ ∃ s, Trace.run (next plainCodec "t" fun _ => 0) freshServer
          [.apply [⟨7, 8, ShardIngest.initRecord⟩], .flush [.fail]] = some s
        ∧ covered 50 0 s.ingest.seen 0 false = true
        ∧ ¬ Holds (fun _ => 0) s (Kept "t" s) ∧ ¬ Holds (fun _ => 0) s (Seen "t" s) := by
  refine ⟨freshServer_anchored, ?_⟩
  have hrun : (Trace.run (next plainCodec "t" fun _ => 0) freshServer
      [.apply [⟨7, 8, ShardIngest.initRecord⟩], .flush [.fail]]).map
        (fun s => ((s.log, s.ingest.cfg, s.ingest.seen),
          s.ingest.mem.iter.length, s.objs.length, s.map.layers.length))
      = some (([⟨8, 56, 0, 0, 0, ShardIngest.initRecord⟩], ⟨7, 0, 1⟩, 56), 0, 0, 0) := by
    decide +kernel
  obtain ⟨s, hs, hproj⟩ := Option.map_eq_some_iff.mp hrun
  simp only [Prod.mk.injEq, List.length_eq_zero_iff] at hproj
  obtain ⟨⟨hlog, hcfg, hseen⟩, hmem, hobjs, hmap⟩ := hproj
  have hrec : (⟨8, 56, 0, 0, 0, ShardIngest.initRecord⟩ : WalRecord) ∈ s.log := by
    rw [hlog]
    exact List.mem_singleton.mpr rfl
  have hkey : LayerKey.page 1 2 3 0 5
      ∈ ShardIngest.keys ⟨8, 56, 0, 0, 0, ShardIngest.initRecord⟩ := by
    decide +kernel
  have hshard : shardOf (fun _ => 0) (LayerKey.page 1 2 3 0 5) s.ingest.cfg.shardCount
      = s.ingest.cfg.shard := by
    rw [hcfg]
    rfl
  refine ⟨s, hs, by rw [hseen]; rfl, fun h => ?_, fun h => ?_⟩
  · obtain ⟨e, -, -, -, hm | ⟨m, ds, hget, -⟩⟩ := h _ hrec _ hkey hshard
    · rw [hmem] at hm
      cases hm
    · rw [hobjs] at hget
      cases hget
  · obtain ⟨e, -, -, -, hm | ⟨d, hd, -⟩⟩ := h _ hrec _ hkey hshard
    · rw [hmem] at hm
      cases hm
    · rw [hmap] at hd
      cases hd

end PageServer

end Zou
