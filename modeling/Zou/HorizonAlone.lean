import Zou.HorizonFor
import Zou.HorizonSafety

/-!
# A merge to a horizon run alone

Nothing else touches the shard between the steps of the pass. So the layers
it loads are those of the manifest it cuts under, and what can still go
wrong is the put of an output: `stage_output` adopts an object that has the
name, and the name says no more than the first and the last key and the
cut.
-/

namespace Zou

open Store History

namespace Merging

variable {c : Compactor} {wal : LayerKey → Lsn → List UInt8} {s s' : Merging}

/-- The condition on a step: it is one of the pass, and an output that it
stages finds its name free or taken by itself. -/
def Alone (c : Compactor) (s : Merging) : MergeStep → Prop
  | .pass => match s.point with
      | .staging _ _ (o :: _) => Free c s o
      | _ => True
  | _ => False

instance (c : Compactor) (s : Merging) : ∀ l, Decidable (Alone c s l)
  | .pass =>
    match h : s.point with
    | .staging _ _ (o :: _) => decidable_of_iff (Free c s o) (by simp only [Alone, h])
    | .staging _ _ [] => isTrue (by simp only [Alone, h])
    | .listed _ => isTrue (by simp only [Alone, h])
    | .start => isTrue (by simp only [Alone, h])
    | .naming _ _ _ _ => isTrue (by simp only [Alone, h])
    | .done _ => isTrue (by simp only [Alone, h])
  | .flush _ _ => isFalse id
  | .advance _ => isFalse id

/-- What a pass that runs alone has kept since it started. -/
structure Kept (c : Compactor) (wal : LayerKey → Lsn → List UInt8) (s₀ s : Merging) : Prop where
  inv : Inv c wal s
  listed : ∀ descs, s.point = .listed descs → ∀ d ∈ s.reference, d ∈ descs
  stay : LayersStay s₀.objs s.objs
  reference : s.reference = s₀.reference
  shard : s.shard = s₀.shard
  manifest : s.manifest = s₀.manifest

/-- A step of the pass adds objects and changes no layer. -/
theorem pass_keeps (h : s.pass c = some s') : LayersStay s.objs s'.objs
    ∧ s'.reference = s.reference ∧ s'.shard = s.shard ∧ s'.manifest = s.manifest := by
  have hsame : LayersStay s.objs s.objs := fun _ _ _ _ ho => ho
  unfold pass at h
  split at h
  · split at h
    · cases h
      exact ⟨hsame, rfl, rfl, rfl⟩
    · cases h
      exact ⟨hsame, rfl, rfl, rfl⟩
  · split at h
    · cases h
      exact ⟨hsame, rfl, rfl, rfl⟩
    · cases h
      exact ⟨hsame, rfl, rfl, rfl⟩
    · split at h
      · cases h
        exact ⟨hsame, rfl, rfl, rfl⟩
      · cases h
        exact ⟨hsame, rfl, rfl, rfl⟩
      · cases h
        exact ⟨hsame, rfl, rfl, rfl⟩
  · cases h
    exact ⟨stageOutput_stay _, rfl, rfl, rfl⟩
  · cases h
    exact ⟨layersStay_manifest s.objs s.shard _, rfl, rfl, rfl⟩
  · cases h
    exact ⟨layersStay_manifest s.objs s.shard _, rfl, rfl, rfl⟩
  · cases h

theorem pass_listed (h : Inv c wal s) (hstep : s.pass c = some s') {descs : List LayerDesc}
    (hpoint : s'.point = .listed descs) : ∀ d ∈ s'.reference, d ∈ descs := by
  cases hpt : s.point with
  | start =>
    have hbare : planOf s.point = none := by rw [hpt]; rfl
    unfold pass at hstep
    rw [hpt] at hstep
    dsimp only at hstep
    split at hstep
    · obtain rfl := Option.some.inj hstep
      cases hpoint
    · rename_i descs' floor hload
      cases hstep
      cases hpoint
      obtain ⟨live, hl⟩ := h.lists
      rw [(outs_bare hbare).1, (outs_bare hbare).2] at hl
      obtain ⟨-, hin⟩ := loadServingDescs_own h.shard hl.listed hload
      exact fun d hd => hin d ((hl.kept d hd).resolve_right List.not_mem_nil)
  | listed descs' =>
    unfold pass at hstep
    rw [hpt] at hstep
    dsimp only at hstep
    split at hstep
    · obtain rfl := Option.some.inj hstep
      cases hpoint
    · cases hstep
      cases hpoint
    · split at hstep
      · cases hstep
        cases hpoint
      · cases hstep
        cases hpoint
      · cases hstep
        cases hpoint
  | staging plan staged todo =>
    unfold pass at hstep
    rw [hpt] at hstep
    cases todo with
    | nil =>
      cases hstep
      cases hpoint
    | cons o todo =>
      cases hstep
      cases hpoint
  | naming plan staged o todo =>
    unfold pass at hstep
    rw [hpt] at hstep
    cases hstep
    cases hpoint
  | done plan =>
    unfold pass at hstep
    rw [hpt] at hstep
    cases hstep

theorem kept_next (hexact : ∀ shard objs, (c.service shard objs).ExactRedo) {s₀ : Merging}
    (s : Merging) (l : MergeStep) (s' : Merging) (h : Kept c wal s₀ s) (hok : Alone c s l)
    (hstep : s.next c wal l = some s') : Kept c wal s₀ s' := by
  cases l with
  | pass =>
    obtain ⟨hstay, href, hshard, hmanifest⟩ := pass_keeps hstep
    have hok' : StepOk c s .pass := by
      cases hpt : s.point with
      | listed descs =>
        simp only [StepOk, hpt]
        exact fun d hd => .inl (h.listed descs hpt d hd)
      | staging plan staged todo =>
        unfold Alone at hok
        rw [hpt] at hok
        cases todo with
        | nil => simp only [StepOk, hpt]
        | cons o todo =>
          simp only [StepOk, hpt]
          exact hok
      | _ => simp only [StepOk, hpt]
    exact ⟨h.inv.pass (hexact _ _) hok' hstep, fun descs => pass_listed h.inv hstep,
      fun t n k o ho => hstay t n k o (h.stay t n k o ho), href.trans h.reference,
      hshard.trans h.shard, hmanifest.trans h.manifest⟩
  | flush entries upto => exact hok.elim
  | advance lsn => exact hok.elim

theorem Start.kept (h : Start c wal s) : Kept c wal s s :=
  ⟨h.inv, fun descs hpt => (by rw [h.point] at hpt; cases hpt), fun _ _ _ _ ho => ho, rfl, rfl, rfl⟩

/-- A layer shows a key at some position. -/
def Shows (env : ReaderEnv) (d : LayerDesc) (key : LayerKey) : Prop :=
  (∃ page, HasPage env d key page) ∨ ∃ l record, 0 < l ∧ HasRecord env d key l record

theorem not_silent {env : ReaderEnv} {stored : BlockBody → Nat} (hstored : ∀ b, 0 < stored b)
    {ds : List LayerDesc} {d : LayerDesc} {key : LayerKey} {at_ : Lsn} (hd : d ∈ ds)
    (hbuilt : d.Built env stored) (hclamp : d.clamp at_ = at_) (hmax : d.maxLsn ≤ at_)
    (hkey : Shows env d key) : ¬ Compactor.Silent env ds at_ key := by
  rintro ⟨x, hx, hbase, hrecords⟩
  rcases hkey with ⟨page, hp⟩ | ⟨l, record, hpos, hr⟩
  · obtain ⟨-, -, -, heq, -⟩ := hbuilt.page hstored hp
    refine hx.bare hbase d.minLsn page ⟨d, hd, hp, rfl, ?_⟩
    rw [hclamp, heq]
    exact hmax
  · obtain ⟨-, -, -, -, hle, -⟩ := hbuilt.record hstored hr
    have hfloor : x.floor < l := by
      rw [Reading.floor, hbase]
      exact hpos
    obtain ⟨r', hr'⟩ := hx.complete l record
      ⟨d, hd, hr, by rw [hclamp]; exact Nat.le_trans hle hmax⟩ hfloor
    rw [hrecords] at hr'
    cases hr'

/-- What a layer that is gone shows of a key of the shard, an image at its
end or above holds. -/
theorem Inv.covered (h : Inv c wal s) {live : List LayerDesc}
    (hl : Lists c s (outs s.point) (retired s.point) live) {d : LayerDesc} (hd : d ∈ s.reference)
    (hgone : d ∉ live) {key : LayerKey} (hkeep : c.keep s.shard s.manifest key = true)
    (hkey : Shows (s.env c) d key) :
    ∃ d' ∈ live, ∃ page, HasPage (s.env c) d' key page ∧ d.maxLsn ≤ d'.minLsn
      ∧ d'.minLsn ≤ s.own.horizon.getD 0 := by
  have hn : d.name ∈ retired s.point := (hl.kept d hd).resolve_left hgone
  cases hplan : planOf s.point with
  | none =>
    rw [(outs_bare hplan).2] at hn
    cases hn
  | some plan =>
    obtain ⟨descs, hp⟩ := h.plans plan hplan
    obtain ⟨hret, houts, hle⟩ := h.retired_ok hplan _ hn
    obtain ⟨hin, hmax, hcov⟩ := hp.of_retired h.sound hd hret
    have hbuilt := h.sound.built d hd
    have hhas : HasKey (s.env c) d key := hkey.imp id fun ⟨l, r, _, hr⟩ => ⟨l, r, hr⟩
    rcases hcov key hkeep hhas with ⟨o, ho, es, hbuild, e, he, rfl⟩ | hs
    · obtain ⟨hmin, hpage⟩ := hasPage_desc c.codec.stored_pos c.codec.target_le hbuild
        (hl.stored o (houts o ho)) e.key e.page
      refine ⟨o.desc, hl.named o (houts o ho), e.page, hpage.mpr he, ?_, ?_⟩
      · rw [hmin]
        exact hmax
      · rw [hmin]
        exact hle
    · refine absurd hs (not_silent c.codec.stored_pos hin hbuilt ?_ hmax hkey)
      have hupto : d.upto = none := (h.sound.own d hd).2 (hp.owned d hd)
      rw [LayerDesc.clamp, hupto]
      rfl

/-- Run alone, the pass changes no read of a key of the shard at or above
the horizon, and retires a layer only with an image of every key of the
shard that the layer shows; and the horizon that `horizon_for` chooses is
at or below every checkpoint of the live manifest and of every snapshot
taken within the retention. -/
theorem merge_alone_keeps_reads {s₀ s : Merging} {ls : List MergeStep} (hstart : Start c wal s₀)
    (hexact : (c.service s₀.shard s₀.objs).ExactRedo)
    (halone : Trace.Meets (next c wal) (Alone c) s₀ ls)
    (hrun : Trace.run (next c wal) s₀ ls = some s) :
    (∃ live, PageShardManifest.descs s.own.layers = .ok live
      ∧ (∀ key lsn, c.keep s₀.shard s₀.manifest key = true → s.own.horizon.getD 0 ≤ lsn →
          ∃ a, s₀.read c s₀.reference key lsn = some a ∧ s.read c live key lsn = some a)
      ∧ ∀ d ∈ s₀.reference, d ∉ live → ∀ key, c.keep s₀.shard s₀.manifest key = true →
          Shows (s₀.env c) d key → ∃ d' ∈ live, ∃ page, HasPage (s.env c) d' key page
            ∧ d.maxLsn ≤ d'.minLsn ∧ d'.minLsn ≤ s.own.horizon.getD 0)
    ∧ ∀ (α E : Type) (fromJson : α → Except E Manifest) (objs : List Char → Option α)
        (live : Option α) (snapshots : List (List Char)) (nowUnix retentionSecs : Nat)
        (horizon : Lsn),
        horizonFor fromJson objs live snapshots nowUnix retentionSecs = .ok horizon →
        (∃ data m, live = some data ∧ fromJson data = .ok m
          ∧ ∀ c ∈ m.checkpoints, horizon ≤ c.lsn)
        ∧ ∀ dir epoch unix, unix < 2 ^ 64 → nowUnix - unix < retentionSecs →
          manifestHistory dir epoch unix ∈ snapshots →
          ∀ data m, objs (manifestHistory dir epoch unix) = some data → fromJson data = .ok m →
            ∀ c ∈ m.checkpoints, horizon ≤ c.lsn := by
  have hexact' : ∀ shard objs, (c.service shard objs).ExactRedo := fun _ _ =>
    ⟨hexact.resumes, hexact.unstamped, hexact.restamped⟩
  have h : Kept c wal s₀ s :=
    Trace.guarded_invariant (kept_next hexact') hstart.kept halone hrun
  have henv : s.env c = readerEnv c.tenant c.codec.crc s₀.shard s.objs := by rw [← h.shard]; rfl
  have hbuilt₀ := hstart.sound.built
  obtain ⟨live, hl⟩ := h.inv.lists
  obtain ⟨hlive, hsame⟩ := h.inv.live_built hl
  refine ⟨⟨live, hl.listed, fun key lsn hkeep hlsn => ?_, fun d hd hgone key hkeep hkey => ?_⟩, ?_⟩
  · obtain ⟨x₀, hx₀, hread₀⟩ := read_found hbuilt₀ (fun x hx y hy hname => by
      rw [hstart.sound.names x hx y hy hname]) key lsn
    obtain ⟨x', hx', hread'⟩ := read_found hlive hsame key lsn
    have hx : Found (viewOf (s.env c) s.reference key lsn) x₀ := by
      rw [henv, h.reference, viewOf_stay h.stay hbuilt₀ lsn]
      exact hx₀
    rw [← h.shard, ← h.manifest] at hkeep
    exact ⟨_, hread₀, hread'.trans (congrArg some (h.inv.agree hl hlsn hkeep hx hx').symm)⟩
  · rw [← h.shard, ← h.manifest] at hkeep
    have hd' : d ∈ s.reference := h.reference ▸ hd
    refine h.inv.covered hl hd' hgone hkeep ?_
    rw [henv]
    refine hkey.imp (fun ⟨p, hp⟩ => ⟨p, ?_⟩) fun ⟨l, r, hpos, hr⟩ => ⟨l, r, hpos, ?_⟩
    · exact (hasPage_stay h.stay (hbuilt₀ d hd)).mpr hp
    · exact (hasRecord_stay h.stay (hbuilt₀ d hd)).mpr hr
  · intro α E fromJson objs live' snapshots nowUnix retentionSecs horizon hfor
    obtain ⟨hnow, hall⟩ := horizonFor_le hfor
    refine ⟨hnow, fun dir epoch unix hunix hage hmem => hall _ hmem ?_⟩
    rw [inRetention, snapshotStamp_manifestHistory dir epoch hunix, Option.any_some,
      Bool.not_eq_true', decide_eq_false_iff_not]
    exact Nat.not_le.mpr hage

open PageServer (plainCodec)

/-- The pass over the one layer, to its end. -/
theorem merge_alone_keeps_reads_oneLayer :
    ∃ s live, Trace.run (next sampleCompactor sizeLog) oneLayer (List.replicate 5 .pass) = some s
      ∧ PageShardManifest.descs s.own.layers = .ok live
      ∧ ∃ a, oneLayer.read sampleCompactor oneLayer.reference sizeKey 7 = some a
        ∧ s.read sampleCompactor live sizeKey 7 = some a := by
  have hrun : (Trace.run (next sampleCompactor sizeLog) oneLayer (List.replicate 5 .pass)).any
      (fun s => decide (s.own.horizon = some 3)) = true := by
    decide +kernel
  obtain ⟨s, hs, hproj⟩ := (Option.any_eq_true _ _).mp hrun
  rw [decide_eq_true_eq] at hproj
  obtain ⟨⟨live, hlive, hread, -⟩, -⟩ := merge_alone_keeps_reads oneLayer_start
    (sampleCompactor_exact _ _) (by decide +kernel) hs
  exact ⟨s, live, hs, hlive, hread sizeKey 7 (by decide +kernel) (by rw [hproj]; decide)⟩

def pageAt (n : Nat) : LayerKey := LayerKey.page 1 2 3 0 n

def onesPage : List UInt8 := List.replicate pageImageLen 1

/-- An image object of a few pages. -/
def onesImage (blocks : List Nat) (at_ : Lsn) : LayerObj :=
  match buildImage plainCodec.stored plainCodec.crc (blocks.map fun n => ⟨pageAt n, onesPage⟩) at_
      plainCodec.target with
  | .ok o => o
  | .error _ => sizeDelta

/-- A shard flushed up to 8 with an image of three pages at 3, and with one
of the first and the last of them at 7, as a compaction of records of these
two cuts it. -/
def twoImages : Merging :=
  let old := onesImage [0, 1, 2] 3
  let new := onesImage [0, 2] 7
  ⟨[(.manifest 0, .shard ⟨1, 0, 8, [old.entry, new.entry], none, none⟩),
      (.layer "t" 0 old.name, .layer old), (.layer "t" 0 new.name, .layer new)],
    Manifest.new "t" 17, 0, 100, .start, [old.desc, new.desc]⟩

theorem twoImages_start : Start sampleCompactor sizeLog twoImages := by
  have hok : ∀ x ∈ [([0, 1, 2], 3), ([0, 2], 7)],
      (buildImage plainCodec.stored plainCodec.crc (x.1.map fun n => ⟨pageAt n, onesPage⟩) x.2
        plainCodec.target).isOk = true := by
    decide +kernel
  have hbuild : ∀ blocks at_, (blocks, at_) ∈ [([0, 1, 2], 3), ([0, 2], 7)] →
      buildImage plainCodec.stored plainCodec.crc (blocks.map fun n => ⟨pageAt n, onesPage⟩) at_
        plainCodec.target = .ok (onesImage blocks at_) := by
    intro blocks at_ hin
    have h := hok (blocks, at_) hin
    unfold onesImage
    split
    · assumption
    · rename_i e he
      rw [he] at h
      cases h
  have hobj : ∀ blocks at_, (blocks, at_) ∈ [([0, 1, 2], 3), ([0, 2], 7)] →
      get twoImages.objs (.layer "t" 0 (onesImage blocks at_).name)
        = some (.layer (onesImage blocks at_)) := by
    have hnames : (onesImage [0, 1, 2] 3).name ≠ (onesImage [0, 2] 7).name := by decide +kernel
    intro blocks at_ hin
    rcases List.mem_cons.mp hin with heq | hin
    · cases heq
      rw [twoImages, get_cons_ne (by nofun), get_cons_self]
    · cases List.mem_singleton.mp hin
      rw [twoImages, get_cons_ne (by nofun), get_cons_ne (fun h => hnames (ShardKey.layer.inj h).2.2.symm),
        get_cons_self]
  have href : ∀ d ∈ twoImages.reference, ∃ blocks at_,
      (blocks, at_) ∈ [([0, 1, 2], 3), ([0, 2], 7)] ∧ d = (onesImage blocks at_).desc := by
    intro d hd
    rcases List.mem_cons.mp hd with rfl | hd
    · exact ⟨[0, 1, 2], 3, List.mem_cons_self, rfl⟩
    · obtain rfl := List.mem_singleton.mp hd
      exact ⟨[0, 2], 7, .tail _ List.mem_cons_self, rfl⟩
  have hbuilt : ∀ d ∈ twoImages.reference,
      d.Built (twoImages.env sampleCompactor) plainCodec.stored := by
    intro d hd
    obtain ⟨blocks, at_, hin, rfl⟩ := href d hd
    have hb := hbuild blocks at_ hin
    have ho := hobj blocks at_ hin
    exact built_desc (.image at_ _) plainCodec.target_le hb ho
  have hpage : ∀ d ∈ twoImages.reference, ∀ key p,
      HasPage (twoImages.env sampleCompactor) d key p → p = onesPage ∧ key.kind = keyPage := by
    intro d hd key p hp
    obtain ⟨blocks, at_, hin, rfl⟩ := href d hd
    have hb := hbuild blocks at_ hin
    have ho := hobj blocks at_ hin
    have hmem := (hasPage_desc plainCodec.stored_pos plainCodec.target_le hb ho key p).2.mp hp
    obtain ⟨n, -, heq⟩ := List.mem_map.mp hmem
    cases heq
    exact ⟨rfl, rfl⟩
  have hkinds : ∀ d ∈ twoImages.reference, d.kind = .image := by decide +kernel
  have hnone : ∀ d ∈ twoImages.reference, ∀ key l r,
      ¬ HasRecord (twoImages.env sampleCompactor) d key l r := by
    intro d hd key l r hr
    have hkind := ((hbuilt d hd).record plainCodec.stored_pos hr).1
    rw [hkinds d hd] at hkind
    cases hkind
  refine ⟨rfl, by decide, by decide +kernel, hbuilt, fun d hd key l r hr => ?_,
    fun d hd key hk hkind => ?_, fun d hd d' hd' key p p' hp hp' _ => ?_, fun d hd => ?_,
    by decide +kernel⟩
  · exact absurd hr (hnone d hd key l r)
  · rcases hk with ⟨p, hp⟩ | ⟨l, r, hr⟩
    · rw [(hpage d hd key p hp).2] at hkind
      cases hkind
    · exact absurd hr (hnone d hd key l r)
  · rw [(hpage d hd key p hp).1, (hpage d' hd' key p' hp').1]
    exact fun _ => rfl
  · obtain ⟨blocks, at_, -, rfl⟩ := href d hd
    exact ⟨rfl, fun _ => rfl⟩

/-- The first byte of a page that was read. -/
def Answer.firstByte : Answer → Option UInt8
  | .page (.ok (some page)) => page.head?
  | _ => none

/-- The image of the pass has the name of the image at 7, which it adopts
in its place and lists with the size of its own: the page between the two
is in no layer when the image at 3 is retired, and a read that comes to the
adopted object finds it of another size and fails. -/
theorem named_image_adopted :
    Start sampleCompactor sizeLog twoImages
      ∧ (sampleCompactor.service twoImages.shard twoImages.objs).ExactRedo
      ∧ (∀ n ∈ [0, 1, 2], sampleCompactor.keep twoImages.shard twoImages.manifest (pageAt n) = true
        ∧ (twoImages.read sampleCompactor twoImages.reference (pageAt n) 7).bind Answer.firstByte
          = some 1)
      ∧ ∃ s live, Trace.run (next sampleCompactor sizeLog) twoImages (List.replicate 5 .pass)
          = some s
        ∧ PageShardManifest.descs s.own.layers = .ok live ∧ s.own.horizon = some 7
        ∧ ∀ n ∈ [0, 1, 2], s.read sampleCompactor live (pageAt n) 7 = none := by
  refine ⟨twoImages_start, sampleCompactor_exact _ _, by decide +kernel, ?_⟩
  have hrun : (Trace.run (next sampleCompactor sizeLog) twoImages (List.replicate 5 .pass)).any
      (fun s => s.own.horizon = some 7 ∧
        (PageShardManifest.descs s.own.layers).toOption.any fun live =>
          ∀ n ∈ [0, 1, 2], s.read sampleCompactor live (pageAt n) 7 = none) = true := by
    decide +kernel
  obtain ⟨s, hs, hproj⟩ := (Option.any_eq_true _ _).mp hrun
  rw [decide_eq_true_eq] at hproj
  obtain ⟨hhor, hlive⟩ := hproj
  obtain ⟨live, hl, hread⟩ := (Option.any_eq_true _ _).mp hlive
  rw [decide_eq_true_eq] at hread
  refine ⟨s, live, hs, ?_, hhor, hread⟩
  cases hd : PageShardManifest.descs s.own.layers with
  | error e =>
    rw [hd] at hl
    cases hl
  | ok ds =>
    rw [hd] at hl
    cases hl
    rfl

end Merging

end Zou
