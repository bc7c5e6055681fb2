import Zou.CompactSpec
import Zou.Horizon
import Zou.PageServeSafety

/-!
# A merge next to flushes

Whatever the ingester publishes while a merge runs, a read at or above the
horizon answers after every step what the layers that were listed before
the merge and the published ones answer, as long as no layer published
between the merge's two loads reaches down to the cut and objects find
their names free or taken by the same object.

The invariant is about one list of layers, the reference. What the plan
knows (`Planned`) is that it saw all of it up to the cut, and what the
manifest lists (`Lists`) is the reference, less what was retired, with the
outputs.
-/

namespace Zou

open Store Total History

namespace Compactor

variable {c : Compactor} {shard : Nat} {objs : List (ShardKey × ShardObj)} {manifest : Manifest}
  {own : PageShardManifest} {descs : List LayerDesc} {horizon : Lsn} {plan : MergePlan}

/-! ## The plan -/

theorem mergeCut_some {at_ : Lsn} (h : mergeCut own descs horizon = some at_) :
    at_ = min horizon (imageCut own.diskConsistentLsn) ∧ 0 < at_
      ∧ (∀ d ∈ descs, d.home = none ∧ d.owner = none)
      ∧ ∀ h₀, own.horizon = some h₀ → h₀ < at_ := by
  unfold mergeCut at h
  split at h
  · cases h
  · rename_i hown
    dsimp only at h
    split at h
    · cases h
    · rename_i hcut
      have hat : at_ = min horizon (imageCut own.diskConsistentLsn) := by
        split at h
        · cases h
        · split at h
          · cases h
          · exact (Option.some.inj h).symm
        · exact (Option.some.inj h).symm
      rw [not_or] at hcut
      refine ⟨hat, by rw [hat]; exact Nat.pos_of_ne_zero hcut.1, fun d hd => ?_, fun h₀ hh => ?_⟩
      · have hd' : ¬ (d.home.isSome || d.owner.isSome) = true := fun hyes =>
          hown (List.any_eq_true.mpr ⟨d, hd, hyes⟩)
        simpa using hd'
      · by_contra hle
        refine hcut.2 ?_
        rw [hh, Option.any_some, decide_eq_true_eq, ← hat]
        exact Nat.le_of_not_lt hle

theorem mergePlan_cut (h : c.mergePlan shard objs manifest own descs horizon = .ok (some plan)) :
    ∃ at_, mergeCut own descs horizon = some at_ := by
  unfold mergePlan at h
  cases hcut : mergeCut own descs horizon with
  | none =>
    rw [hcut] at h
    cases h
  | some at_ => exact ⟨at_, rfl⟩

variable {env : ReaderEnv}

theorem keysBelow_ok {stored : BlockBody → Nat} (hstored : ∀ b, 0 < stored b)
    {keep : LayerKey → Bool} : ∀ {ds : List LayerDesc} {keys : List LayerKey}
    {footers : List LayerFooter}, (∀ d ∈ ds, d.Built env stored) →
    keysBelow env keep ds = .ok (keys, footers) →
      (∀ x ∈ ds.zip footers, ∃ o, env.fetch x.1 = .ok o ∧ x.2 = o.footer)
        ∧ ∀ key, key ∈ keys ↔ keep key = true ∧ ∃ d ∈ ds, HasKey env d key := by
  intro ds
  induction ds with
  | nil =>
    intro keys footers _ h
    cases h
    exact ⟨nofun, fun key => ⟨nofun, fun ⟨_, d, hd, _⟩ => by
      cases hd⟩⟩
  | cons d ds ih =>
    intro keys footers hbuilt h
    have hd := hbuilt d List.mem_cons_self
    unfold keysBelow at h
    cases ho : env.fetch d with
    | error e =>
      rw [ho] at h
      cases h
    | ok o =>
      rw [ho] at h
      dsimp only at h
      cases hc : cursorKeys d.kind o with
      | error e =>
        rw [hc] at h
        cases h
      | ok ks =>
        rw [hc] at h
        cases hrest : keysBelow env keep ds with
        | error e =>
          rw [hrest] at h
          cases h
        | ok out =>
          obtain ⟨rest, fs⟩ := out
          rw [hrest] at h
          cases h
          obtain ⟨hz, hk⟩ := ih (fun d hd => hbuilt d (.tail _ hd)) hrest
          refine ⟨fun x hx => ?_, fun key => ?_⟩
          · rw [List.zip_cons_cons] at hx
            rcases List.mem_cons.mp hx with rfl | hx
            · exact ⟨o, ho, rfl⟩
            · exact hz x hx
          · rw [List.mem_append, List.mem_filter, hd.mem_cursorKeys hstored ho hc, hk]
            constructor
            · rintro (⟨hkey, hkeep⟩ | ⟨hkeep, d', hd', hkey⟩)
              · exact ⟨hkeep, d, List.mem_cons_self, hkey⟩
              · exact ⟨hkeep, d', .tail _ hd', hkey⟩
            · rintro ⟨hkeep, d', hd', hkey⟩
              rcases List.mem_cons.mp hd' with rfl | hd'
              · exact .inl ⟨hkey, hkeep⟩
              · exact .inr ⟨hkeep, d', hd', hkey⟩

theorem fetch_of_name {x y : LayerDesc} (hx : x.home = none ∧ x.owner = none)
    (hy : y.home = none ∧ y.owner = none) (hname : x.name = y.name) : env.fetch x = env.fetch y := by
  unfold ReaderEnv.fetch ReaderEnv.objectKey
  rw [if_pos ⟨hx.2, hx.1⟩, if_pos ⟨hy.2, hy.1⟩, hname]

/-- A page of an output stands for what the layers hold of its key up to
the cut. -/
def CutFrom (svc : PageService) (ds : List LayerDesc) (at_ : Lsn) (e : ImageEntry) : Prop :=
  ∃ x, Found (viewOf svc.env ds e.key at_) x
    ∧ Resumes (svc.answer e.key) (x.base.map Prod.snd) x.records e.page

/-- The layers hold nothing of the key up to the cut. -/
def Silent (env : ReaderEnv) (ds : List LayerDesc) (at_ : Lsn) (key : LayerKey) : Prop :=
  ∃ x, Found (viewOf env ds key at_) x ∧ x.base = none ∧ x.records = []

/-- What a plan is worth. -/
structure Planned (c : Compactor) (shard : Nat) (objs : List (ShardKey × ShardObj))
    (manifest : Manifest) (descs : List LayerDesc) (plan : MergePlan) : Prop where
  outputs : ∀ o ∈ plan.outputs, ∃ es,
    buildImage c.codec.stored c.codec.crc es plan.horizon c.codec.target = .ok o
      ∧ ∀ e ∈ es, CutFrom (c.service shard objs) descs plan.horizon e
  retired : ∀ n ∈ plan.retire, ∃ d ∈ descs, d.name = n ∧ d.maxLsn ≤ plan.horizon
    ∧ ∀ key, c.keep shard manifest key = true →
      HasKey (readerEnv c.tenant c.codec.crc shard objs) d key →
        (∃ o ∈ plan.outputs, ∃ es,
          buildImage c.codec.stored c.codec.crc es plan.horizon c.codec.target = .ok o
            ∧ ∃ e ∈ es, e.key = key)
        ∨ Silent (readerEnv c.tenant c.codec.crc shard objs) descs plan.horizon key

theorem relSize_none {base : Option (List UInt8)} {rs : List (Lsn × List UInt8)}
    (h : PageService.relSize base rs = .ok none) : base = none ∧ rs = [] := by
  unfold PageService.relSize at h
  split at h
  · assumption
  · split at h
    · cases h
    · cases h

theorem cutKeys_ensures {I : LayerReader → Prop} {svc : PageService} {map : LayerMap}
    {ds : List LayerDesc} {at_ : Lsn} {keys : List LayerKey}
    (hexact : svc.ExactRedo)
    (hsizes : ∀ key ∈ keys, key.kind = keyRelsize → key.block = 0)
    (hread : ∀ key, Returns I (svc.env.reconstruct map Memtable.new key at_)
      (Finds svc.env ds key at_)) :
    Ensures I (cutKeys svc map at_ keys) fun out =>
      (∀ e ∈ out.1 ++ out.2.2, CutFrom svc ds at_ e)
        ∧ ∀ k ∈ keys, k.kind = keyPage ∨ k.kind = keyRelsize →
          k ∈ out.2.1 ∨ (∃ e ∈ out.1 ++ out.2.2, e.key = k) ∨ Silent svc.env ds at_ k := by
  have hfork : ∀ key ∈ keys, key.kind = keyRelsize → forkKey key = key := by
    intro key hk hkind
    have hblock := hsizes key hk hkind
    obtain ⟨kind, spc, db, rel, fork, block⟩ := key
    obtain rfl : kind = 1 := hkind
    obtain rfl : block = 0 := hblock
    rfl
  unfold cutKeys
  refine Ensures.bind (cutPages_ensures hread _) fun pages ⟨hpages, hbare⟩ => ?_
  refine Ensures.bind (cutSizes_ensures hread _) fun sizes ⟨hes, hsilent⟩ => Ensures.pure ?_
  refine ⟨fun e he => ?_, fun k hk hkind => ?_⟩
  · rcases List.mem_append.mp he with he | he
    · obtain ⟨hkey, r, hr, hb⟩ := hpages e he
      have hkind : e.key.kind = keyPage := by
        have := (List.mem_filter.mp hkey).2
        simpa using this
      refine ⟨r.reading, hr.1, fun rs' => ?_⟩
      unfold PageService.answer
      rw [if_neg (by rw [hkind]; decide), if_neg (by rw [hkind]; decide), hr.2]
      exact congrArg Answer.page (PageService.build_resumes hexact hb rs')
    · obtain ⟨hkey, r, n, hr, hb, hpage⟩ := hes e he
      obtain ⟨hkey, hkind⟩ := List.mem_filter.mp hkey
      have hkind : e.key.kind = keyRelsize := by simpa using hkind
      rw [hfork e.key hkey hkind] at hr
      refine ⟨r.reading, hr.1, fun rs' => ?_⟩
      unfold PageService.answer
      rw [if_pos hkind, if_pos hkind, hr.2, hpage]
      exact congrArg Answer.size (PageService.relSize_resumes hb rs')
  · rcases hkind with hkind | hkind
    · rcases hbare k (List.mem_filter.mpr ⟨hk, by simpa using hkind⟩) with hb | ⟨e, he, heq⟩
      · exact .inl hb
      · exact .inr (.inl ⟨e, List.mem_append_left _ he, heq⟩)
    · rcases hsilent k (List.mem_filter.mpr ⟨hk, by simpa using hkind⟩) with ⟨e, he, heq⟩ | ⟨r, hr, hb⟩
      · exact .inr (.inl ⟨e, List.mem_append_right _ he, heq⟩)
      · obtain ⟨hbase, hrecs⟩ := relSize_none hb
        rw [hfork k hk hkind] at hr
        refine .inr (.inr ⟨r.reading, hr.1, ?_, hrecs⟩)
        have hmap := hr.2
        rw [hbase] at hmap
        exact Option.map_eq_none_iff.mp hmap

theorem not_hasKey_of_holdsAny {stored : BlockBody → Nat}
    (hstored : ∀ b, 0 < stored b) {d : LayerDesc} (hd : d.Built env stored) {o : LayerObj}
    (ho : env.fetch d = .ok o) {keys : List LayerKey} {key : LayerKey} (hkey : key ∈ keys)
    (h : holdsAny env.crc keys d o.footer = false) : ¬ HasKey env d key := by
  intro hk
  obtain ⟨hlo, hhi, o', ho', hmay⟩ := hd.hasKey hstored hk
  rw [ho] at ho'
  cases ho'
  have hyes : holdsAny env.crc keys d o.footer = true := by
    refine List.any_eq_true.mpr ⟨key, hkey, ?_⟩
    rw [decide_eq_true hlo, decide_eq_true hhi, hmay]
    rfl
  rw [h] at hyes
  cases hyes

theorem mergePlan_ok (hbuilt : ∀ d ∈ descs, d.Built (readerEnv c.tenant c.codec.crc shard objs)
      c.codec.stored)
    (hexact : (c.service shard objs).ExactRedo)
    (hsizes : ∀ d ∈ descs, ∀ key, HasKey (readerEnv c.tenant c.codec.crc shard objs) d key →
      key.kind = keyRelsize → key.block = 0)
    (h : c.mergePlan shard objs manifest own descs horizon = .ok (some plan)) :
    plan.horizon = min horizon (imageCut own.diskConsistentLsn) ∧ 0 < plan.horizon
      ∧ (∀ d ∈ descs, d.home = none ∧ d.owner = none)
      ∧ (∀ h₀, own.horizon = some h₀ → h₀ < plan.horizon)
      ∧ Planned c shard objs manifest descs plan := by
  unfold mergePlan at h
  cases hcut : mergeCut own descs horizon with
  | none =>
    rw [hcut] at h
    cases h
  | some at_ =>
    rw [hcut] at h
    dsimp only at h
    obtain ⟨hat, hpos, howned, hhor⟩ := mergeCut_some hcut
    generalize hbelow : descs.filter (fun d => decide (d.maxLsn ≤ at_)) = below at h
    have hbelow' : ∀ d, d ∈ below ↔ d ∈ descs ∧ d.maxLsn ≤ at_ := by
      intro d
      rw [← hbelow, List.mem_filter, decide_eq_true_eq]
    cases hkeys : keysBelow (c.service shard objs).env (c.keep shard manifest) below with
    | error e =>
      rw [hkeys] at h
      cases h
    | ok out =>
      obtain ⟨keys, footers⟩ := out
      rw [hkeys] at h
      dsimp only at h
      obtain ⟨hfooters, hmem⟩ := keysBelow_ok c.codec.stored_pos
        (fun d hd => hbuilt d ((hbelow' d).mp hd).1) hkeys
      generalize hsorted : keys.dedup.insertionSort (fun a b => a ≤ b) = sorted at h
      have hsorted' : ∀ k, k ∈ sorted ↔ k ∈ keys := by
        intro k
        rw [← hsorted, List.mem_insertionSort, List.mem_dedup]
      -- All layers are the shard's own, so a name is an object.
      obtain ⟨map, hmap, I, hI, hread⟩ : ∃ map, LayerMap.new descs = .ok map ∧ _ :=
        reconstruct_finds c.codec.stored_pos hbuilt fun x hx y hy hname =>
          fetch_of_name (howned x hx) (howned y hy) hname
      rw [hmap] at h
      dsimp only at h
      have hsizes' : ∀ key ∈ sorted, key.kind = keyRelsize → key.block = 0 := by
        intro key hk hkind
        obtain ⟨-, d, hd, hkey⟩ := (hmem key).mp ((hsorted' key).mp hk)
        exact hsizes d ((hbelow' d).mp hd).1 key hkey hkind
      have hens : Ensures I (cutKeys (c.service shard objs) map at_ sorted) _ :=
        cutKeys_ensures hexact hsizes' fun key => hread key at_
      cases hex : exec (cutKeys (c.service shard objs) map at_ sorted)
          ⟨[], BlockCache.new c.blockBudget⟩ with
      | mk r rd =>
        rw [hex] at h
        cases r with
        | error e => cases h
        | ok out =>
          obtain ⟨pages, bare, sizes⟩ := out
          obtain ⟨-, hpages, hall⟩ := hens _ (hI _) _ _ hex
          dsimp only at h hpages hall
          cases himg : c.buildImages at_ (cutImages c.imageFull [] (pages ++ sizes)) with
          | error e =>
            rw [himg] at h
            cases h
          | ok outputs =>
            rw [himg] at h
            cases h
            obtain ⟨hfrom, hevery⟩ := buildImages_ok himg
            have hflat := cutImages_flatten c.imageFull (pages ++ sizes) []
            rw [List.nil_append] at hflat
            refine ⟨hat, hpos, howned, hhor, fun o ho => ?_, fun n hn => ?_⟩
            · obtain ⟨es, hes, hbuild⟩ := hfrom o ho
              refine ⟨es, hbuild, fun e he => hpages e ?_⟩
              rw [← hflat]
              exact List.mem_flatten.mpr ⟨es, hes, he⟩
            · obtain ⟨⟨d, f⟩, hfree, rfl⟩ := List.mem_map.mp hn
              obtain ⟨howns, hno⟩ := List.mem_filter.mp hfree
              rw [Bool.not_eq_true'] at hno
              have hzip := (List.mem_filter.mp howns).1
              obtain ⟨o, ho, rfl⟩ := hfooters (d, f) hzip
              obtain ⟨hd, hle⟩ := (hbelow' d).mp (List.of_mem_zip hzip).1
              refine ⟨d, hd, rfl, hle, fun key hkeep hkey => ?_⟩
              have hin : key ∈ sorted := (hsorted' key).mpr
                ((hmem key).mpr ⟨hkeep, d, (hbelow' d).mpr ⟨hd, hle⟩, hkey⟩)
              have hnot : ∀ k ∈ bare ++ sorted.filter
                  (fun k => k.kind ≠ keyPage ∧ k.kind ≠ keyRelsize), k ≠ key := by
                rintro k hk rfl
                exact not_hasKey_of_holdsAny c.codec.stored_pos (hbuilt d hd) ho hk hno hkey
              have hkind : key.kind = keyPage ∨ key.kind = keyRelsize := by
                by_contra hno
                rw [not_or] at hno
                refine hnot key (List.mem_append_right _ (List.mem_filter.mpr ⟨hin, ?_⟩)) rfl
                simpa using hno
              rcases hall key hin hkind with hb | ⟨e, he, rfl⟩ | hs
              · exact absurd rfl (hnot key (List.mem_append_left _ hb))
              · rw [← hflat] at he
                obtain ⟨es, hes, he⟩ := List.mem_flatten.mp he
                obtain ⟨o', ho', hbuild⟩ := hevery es hes
                exact .inl ⟨o', ho', es, hbuild, e, he, rfl⟩
              · exact .inr hs

end Compactor

/-! ## Stores that keep their layers -/

section Stay

variable {tenant : String} {crc : Nat → List UInt8 → Nat} {shard : Nat}
  {objs objs' : List (ShardKey × ShardObj)} {stored : BlockBody → Nat} {d : LayerDesc}
  {key : LayerKey}

theorem fetch_stay (hstay : LayersStay objs objs') {o : LayerObj}
    (h : (readerEnv tenant crc shard objs).fetch d = .ok o) :
    (readerEnv tenant crc shard objs').fetch d = .ok o := by
  unfold ReaderEnv.fetch at h ⊢
  cases hk : (readerEnv tenant crc shard objs).objectKey d with
  | error e =>
    rw [hk] at h
    cases h
  | ok k =>
    have hk' : (readerEnv tenant crc shard objs').objectKey d = .ok k := hk
    rw [hk] at h
    rw [hk']
    obtain ⟨⟨t, n⟩, name⟩ := k
    dsimp only [readerEnv] at h ⊢
    cases hg : get objs (.layer t n name) with
    | none =>
      rw [hg] at h
      cases h
    | some b =>
      rw [hg] at h
      cases b with
      | shard m => cases h
      | layer o' =>
        cases h
        rw [hstay t n name _ hg]

theorem LayerDesc.Built.stay (hstay : LayersStay objs objs')
    (h : d.Built (readerEnv tenant crc shard objs) stored) :
    d.Built (readerEnv tenant crc shard objs') stored := by
  obtain ⟨body, target, o, ht, hb, ho, hrest⟩ := h
  exact ⟨body, target, o, ht, hb, fetch_stay hstay ho, hrest⟩

theorem hasPage_stay (hstay : LayersStay objs objs')
    (h : d.Built (readerEnv tenant crc shard objs) stored) {page : List UInt8} :
    HasPage (readerEnv tenant crc shard objs') d key page
      ↔ HasPage (readerEnv tenant crc shard objs) d key page := by
  obtain ⟨-, -, o, -, -, ho, -⟩ := h
  constructor
  · rintro ⟨o', ho', hrest⟩
    rw [fetch_stay hstay ho] at ho'
    cases ho'
    exact ⟨o, ho, hrest⟩
  · rintro ⟨o', ho', hrest⟩
    exact ⟨o', fetch_stay hstay ho', hrest⟩

theorem hasRecord_stay (hstay : LayersStay objs objs')
    (h : d.Built (readerEnv tenant crc shard objs) stored) {l : Lsn} {record : List UInt8} :
    HasRecord (readerEnv tenant crc shard objs') d key l record
      ↔ HasRecord (readerEnv tenant crc shard objs) d key l record := by
  obtain ⟨-, -, o, -, -, ho, -⟩ := h
  constructor
  · rintro ⟨o', ho', hrest⟩
    rw [fetch_stay hstay ho] at ho'
    cases ho'
    exact ⟨o, ho, hrest⟩
  · rintro ⟨o', ho', hrest⟩
    exact ⟨o', fetch_stay hstay ho', hrest⟩

theorem hasKey_stay (hstay : LayersStay objs objs')
    (h : d.Built (readerEnv tenant crc shard objs) stored) :
    HasKey (readerEnv tenant crc shard objs') d key
      ↔ HasKey (readerEnv tenant crc shard objs) d key := by
  unfold HasKey
  simp only [hasPage_stay hstay h, hasRecord_stay hstay h]

theorem viewOf_stay (hstay : LayersStay objs objs') {ds : List LayerDesc}
    (h : ∀ d ∈ ds, d.Built (readerEnv tenant crc shard objs) stored) (lsn : Lsn) :
    viewOf (readerEnv tenant crc shard objs') ds key lsn
      = viewOf (readerEnv tenant crc shard objs) ds key lsn := by
  unfold viewOf
  congr 1
  · funext b page
    refine propext (exists_congr fun d => and_congr_right fun hd => ?_)
    rw [hasPage_stay hstay (h d hd)]
  · funext l record
    refine propext (exists_congr fun d => and_congr_right fun hd => ?_)
    rw [hasRecord_stay hstay (h d hd)]

end Stay

namespace Compactor

theorem Planned.stay {c : Compactor} {shard : Nat} {objs objs' : List (ShardKey × ShardObj)}
    {manifest : Manifest} {descs : List LayerDesc} {plan : MergePlan}
    (h : Planned c shard objs manifest descs plan) (hstay : LayersStay objs objs')
    (hbuilt : ∀ d ∈ descs, d.Built (readerEnv c.tenant c.codec.crc shard objs) c.codec.stored) :
    Planned c shard objs' manifest descs plan := by
  refine ⟨fun o ho => ?_, fun n hn => ?_⟩
  · obtain ⟨es, hb, hes⟩ := h.outputs o ho
    refine ⟨es, hb, fun e he => ?_⟩
    obtain ⟨x, hx, hres⟩ := hes e he
    refine ⟨x, ?_, hres⟩
    change Found (viewOf (readerEnv c.tenant c.codec.crc shard objs') descs e.key plan.horizon) x
    rw [viewOf_stay hstay hbuilt]
    exact hx
  · obtain ⟨d, hd, hname, hle, hkeys⟩ := h.retired n hn
    refine ⟨d, hd, hname, hle, fun key hkeep hkey => ?_⟩
    rcases hkeys key hkeep ((hasKey_stay hstay (hbuilt d hd)).mp hkey) with hout | ⟨x, hx, hrest⟩
    · exact .inl hout
    · refine .inr ⟨x, ?_, hrest⟩
      rw [viewOf_stay hstay hbuilt]
      exact hx

end Compactor

/-! ## What a commit lists -/

/-- A commit dropped the entries of some names and listed some objects of
the shard's own, those whose name is listed already under that entry. -/
structure Relists (ls ls' : List LayerEntry) (retire : List LayerName) (add : List LayerObj) :
    Prop where
  source : ∀ e ∈ ls', (e ∈ ls ∧ e.name ∉ retire) ∨ ∃ o ∈ add, e = o.entry
  kept : ∀ e ∈ ls, e.name ∉ retire → e ∈ ls'
  named : ∀ o ∈ add, ∃ e ∈ ls', e.name = o.name

theorem list_layers {m : PageShardManifest} {o : LayerObj} :
    Relists m.layers (m.list o.entry).layers [] [o] := by
  unfold PageShardManifest.list
  split
  · rename_i hany
    obtain ⟨e, he, hname⟩ := List.any_eq_true.mp hany
    refine ⟨fun e he => .inl ⟨he, List.not_mem_nil⟩, fun e he _ => he, fun o' ho' => ?_⟩
    cases List.mem_singleton.mp ho'
    exact ⟨e, he, of_decide_eq_true hname⟩
  · refine ⟨fun e he => ?_, fun e he _ => List.mem_append_left _ he, fun o' ho' => ?_⟩
    · rcases List.mem_append.mp he with he | he
      · exact .inl ⟨he, List.not_mem_nil⟩
      · exact .inr ⟨o, List.mem_singleton.mpr rfl, List.mem_singleton.mp he⟩
    · obtain rfl := List.mem_singleton.mp ho'
      exact ⟨o'.entry, List.mem_append_right _ (List.mem_singleton.mpr rfl), rfl⟩

theorem list_all_layers : ∀ {add : List LayerObj} {m : PageShardManifest},
    Relists m.layers ((add.map LayerObj.entry).foldl PageShardManifest.list m).layers [] add := by
  intro add
  induction add with
  | nil =>
    intro m
    exact ⟨fun e he => .inl ⟨he, List.not_mem_nil⟩, fun e he _ => he, nofun⟩
  | cons o add ih =>
    intro m
    have hone := list_layers (m := m) (o := o)
    have hrest := ih (m := m.list o.entry)
    rw [List.map_cons, List.foldl_cons]
    refine ⟨fun e he => ?_, fun e he hn => hrest.kept e (hone.kept e he hn) hn, fun o' ho' => ?_⟩
    · rcases hrest.source e he with ⟨he, -⟩ | ⟨o', ho', rfl⟩
      · rcases hone.source e he with hold | ⟨o', ho', rfl⟩
        · exact .inl hold
        · obtain rfl := List.mem_singleton.mp ho'
          exact .inr ⟨o', List.mem_cons_self, rfl⟩
      · exact .inr ⟨o', .tail _ ho', rfl⟩
    · rcases List.mem_cons.mp ho' with rfl | ho'
      · obtain ⟨e, he, hname⟩ := hone.named o' (List.mem_singleton.mpr rfl)
        exact ⟨e, hrest.kept e he List.not_mem_nil, hname⟩
      · exact hrest.named o' ho'

theorem swapLayers_layers {m : PageShardManifest} {retire : List LayerName} {add : List LayerObj}
    {covers : Option Nat} {horizon : Option Lsn} :
    Relists m.layers (m.swapLayers retire (add.map LayerObj.entry) covers horizon).layers retire
      add := by
  have hall : Relists (m.layers.filter fun l => ¬ l.name ∈ retire)
      (m.swapLayers retire (add.map LayerObj.entry) covers horizon).layers [] add :=
    list_all_layers (m := { m with layers := m.layers.filter fun l => ¬ l.name ∈ retire })
  refine ⟨fun e he => ?_, fun e he hn => ?_, hall.named⟩
  · refine (hall.source e he).imp_left fun ⟨he, _⟩ => ?_
    obtain ⟨he, hn⟩ := List.mem_filter.mp he
    exact ⟨he, by simpa using hn⟩
  · exact hall.kept e (List.mem_filter.mpr ⟨he, by simpa using hn⟩) List.not_mem_nil

theorem swapLayers_dcl (m : PageShardManifest) (retire : List LayerName) (add : List LayerEntry)
    (covers : Option Nat) (horizon : Option Lsn) :
    (m.swapLayers retire add covers horizon).diskConsistentLsn = m.diskConsistentLsn := by
  rw [PageShardManifest.swapLayers_eq]

theorem descs_of_all : ∀ {ls : List LayerEntry}, (∀ e ∈ ls, ∃ d, e.desc = .ok d) →
    ∃ ds, PageShardManifest.descs ls = .ok ds := by
  intro ls
  induction ls with
  | nil => exact fun _ => ⟨[], rfl⟩
  | cons e ls ih =>
    intro h
    obtain ⟨d, hd⟩ := h e List.mem_cons_self
    obtain ⟨ds, hds⟩ := ih fun e he => h e (.tail _ he)
    exact ⟨d :: ds, by simp only [PageShardManifest.descs, hd, hds]⟩

/-- The descriptors after a commit. A name that an added object finds taken
has to belong to its own descriptor. -/
theorem Relists.descs {ls ls' : List LayerEntry} {retire : List LayerName} {add : List LayerObj}
    {ds : List LayerDesc} (h : Relists ls ls' retire add)
    (hds : PageShardManifest.descs ls = .ok ds) (hadd : ∀ o ∈ add, o.entry.desc = .ok o.desc)
    (htaken : ∀ o ∈ add, ∀ d, d ∈ ds ∨ (∃ o' ∈ add, d = o'.desc) → d.name = o.name → d = o.desc) :
    ∃ ds', PageShardManifest.descs ls' = .ok ds'
      ∧ (∀ d ∈ ds', (d ∈ ds ∧ d.name ∉ retire) ∨ ∃ o ∈ add, d = o.desc)
      ∧ (∀ d ∈ ds, d.name ∉ retire → d ∈ ds') ∧ ∀ o ∈ add, o.desc ∈ ds' := by
  have hsource : ∀ e ∈ ls', ∃ d, e.desc = .ok d
      ∧ ((d ∈ ds ∧ d.name ∉ retire) ∨ ∃ o ∈ add, d = o.desc) := by
    intro e he
    rcases h.source e he with ⟨he, hn⟩ | ⟨o, ho, rfl⟩
    · obtain ⟨d, hd, hdesc⟩ := mem_descs hds he
      exact ⟨d, hdesc, .inl ⟨hd, by rw [(desc_fields hdesc).1]; exact hn⟩⟩
    · exact ⟨o.desc, hadd o ho, .inr ⟨o, ho, rfl⟩⟩
  obtain ⟨ds', hds'⟩ := descs_of_all fun e he => (hsource e he).imp fun d hd => hd.1
  have hof : ∀ d ∈ ds', (d ∈ ds ∧ d.name ∉ retire) ∨ ∃ o ∈ add, d = o.desc := by
    intro d hd
    obtain ⟨e, he, hdesc⟩ := of_mem_descs hds' hd
    obtain ⟨d', hdesc', hsrc⟩ := hsource e he
    rw [hdesc] at hdesc'
    cases hdesc'
    exact hsrc
  refine ⟨ds', hds', hof, fun d hd hn => ?_, fun o ho => ?_⟩
  · obtain ⟨e, he, hdesc⟩ := of_mem_descs hds hd
    obtain ⟨d', hd', hdesc'⟩ := mem_descs hds' (h.kept e he (by rw [← (desc_fields hdesc).1]; exact hn))
    rw [hdesc] at hdesc'
    cases hdesc'
    exact hd'
  · obtain ⟨e, he, hname⟩ := h.named o ho
    obtain ⟨d, hd, hdesc⟩ := mem_descs hds' he
    have hd' : d ∈ ds ∨ ∃ o' ∈ add, d = o'.desc := (hof d hd).imp_left And.left
    rw [← htaken o ho d hd' ((desc_fields hdesc).1.trans hname)]
    exact hd

/-! ## The layers a merge loads -/

variable {objs : List (ShardKey × ShardObj)} {shard : Nat}

theorem servingFrom_own {live : List LayerDesc}
    (hlive : ∀ m, loadManifest objs shard = .ok (some m) →
      PageShardManifest.descs m.layers = .ok live) : ∀ {ss : List Nat} {ds : List LayerDesc},
    servingFrom objs shard ss = .ok ds →
      (∀ d ∈ ds, d.home = none → d ∈ live)
        ∧ (shard ∈ ss → ∀ m, loadManifest objs shard = .ok (some m) → ∀ d ∈ live, d ∈ ds) := by
  intro ss
  induction ss with
  | nil =>
    intro ds h
    cases h
    exact ⟨nofun, nofun⟩
  | cons n ss ih =>
    intro ds h
    unfold servingFrom at h
    cases hload : loadManifest objs n with
    | error e =>
      rw [hload] at h
      cases h
    | ok om =>
      rw [hload] at h
      cases om with
      | none =>
        obtain ⟨h1, h2⟩ := ih h
        refine ⟨h1, fun hs m hm => h2 ?_ m hm⟩
        rcases List.mem_cons.mp hs with rfl | hs
        · rw [hm] at hload
          cases hload
        · exact hs
      | some m =>
        dsimp only at h
        cases hm : PageShardManifest.descs m.layers with
        | error e =>
          rw [hm] at h
          cases h
        | ok l =>
          rw [hm] at h
          cases hrest : servingFrom objs shard ss with
          | error e =>
            rw [hrest] at h
            cases h
          | ok rest =>
            rw [hrest] at h
            cases h
            obtain ⟨h1, h2⟩ := ih hrest
            by_cases hn : n = shard
            · subst hn
              rw [hlive m hload] at hm
              cases hm
              rw [if_pos rfl]
              refine ⟨fun d hd hhome => ?_, fun _ _ _ d hd => List.mem_append_left _ hd⟩
              rcases List.mem_append.mp hd with hd | hd
              · exact hd
              · exact h1 d hd hhome
            · rw [if_neg hn]
              refine ⟨fun d hd hhome => ?_, fun hs m' hm' d hd => ?_⟩
              · rcases List.mem_append.mp hd with hd | hd
                · obtain ⟨d', -, rfl⟩ := List.mem_map.mp hd
                  cases hhome
                · exact h1 d hd hhome
              · refine List.mem_append_right _ (h2 ?_ m' hm' d hd)
                exact (List.mem_cons.mp hs).resolve_left fun heq => hn heq.symm

theorem shard_mem_servingShards {count : Nat} (h : shard < count) (history : List ShardChange) :
    shard ∈ servingShards shard count history := by
  unfold servingShards
  rw [List.mem_insertionSort, List.mem_dedup, List.mem_flatMap]
  refine ⟨count, List.mem_dedup.mpr List.mem_cons_self, ?_⟩
  rw [if_pos le_rfl, Nat.mod_eq_of_lt h]
  exact List.mem_singleton.mpr rfl

theorem manifestOf_load {m : PageShardManifest}
    (h : loadManifest objs shard = .ok (some m)) : manifestOf shard objs = m := by
  unfold loadManifest at h
  unfold manifestOf
  split at h
  · cases h
  · cases h
  · rename_i m' hget
    rw [hget]
    split at h
    · cases h
    · cases h
      rfl

/-- Of the shard's own layers a load brings all, and no others without a
home. -/
theorem loadServingDescs_own {manifest : Manifest}
    {live ds : List LayerDesc} {floor : Lsn} (hshard : shard < manifest.shards)
    (hlive : PageShardManifest.descs (manifestOf shard objs).layers = .ok live)
    (h : loadServingDescs objs manifest shard = .ok (ds, floor)) :
    (∀ d ∈ ds, d.home = none → d ∈ live) ∧ ∀ d ∈ live, d ∈ ds := by
  have hlive' : ∀ m, loadManifest objs shard = .ok (some m) →
      PageShardManifest.descs m.layers = .ok live := fun m hm => manifestOf_load hm ▸ hlive
  have hnone : loadManifest objs shard = .ok none → live = [] := by
    intro hload
    unfold loadManifest at hload
    split at hload
    · rename_i hget
      unfold manifestOf at hlive
      rw [hget] at hlive
      cases hlive
      rfl
    · cases hload
    · split at hload
      · cases hload
      · cases hload
  unfold loadServingDescs at h
  cases hload : loadManifest objs shard with
  | error e =>
    rw [hload] at h
    cases h
  | ok om =>
    rw [hload] at h
    dsimp only at h
    split at h
    · rename_i m hm
      obtain rfl : om = some m := (Option.filter_eq_some_iff.mp hm).1
      rw [hlive' m hload] at h
      cases h
      exact ⟨fun d hd _ => hd, fun d hd => hd⟩
    · cases hs : servingFrom objs shard
          (servingShards shard manifest.shards manifest.shardHistory) with
      | error e =>
        rw [hs] at h
        cases h
      | ok ds' =>
        rw [hs] at h
        cases h
        obtain ⟨h1, h2⟩ := servingFrom_own hlive' hs
        refine ⟨h1, fun d hd => ?_⟩
        cases om with
        | none =>
          rw [hnone hload] at hd
          cases hd
        | some m => exact h2 (shard_mem_servingShards hshard _) m hload d hd

/-! ## Objects of the shard's own -/

section Own

variable {tenant : String} {crc : Nat → List UInt8 → Nat} {shard : Nat}
  {objs : List (ShardKey × ShardObj)} {stored : BlockBody → Nat} {d : LayerDesc} {o : LayerObj}

theorem fetch_own (ho : get objs (.layer tenant shard o.name) = some (.layer o))
    (hown : d.home = none ∧ d.owner = none) (hname : d.name = o.name) :
    (readerEnv tenant crc shard objs).fetch d = .ok o := by
  unfold ReaderEnv.fetch ReaderEnv.objectKey
  rw [if_pos ⟨hown.2, hown.1⟩]
  dsimp only [readerEnv]
  rw [hname, ho]

/-- The only descriptor an object of the shard's own has without a cut. -/
theorem LayerDesc.Built.eq_desc (h : d.Built (readerEnv tenant crc shard objs) stored)
    (ho : get objs (.layer tenant shard o.name) = some (.layer o))
    (hown : d.home = none ∧ d.owner = none) (hcut : d.upto = none) (hname : d.name = o.name) :
    d = o.desc := by
  obtain ⟨body, target, o', -, -, ho', h1, h2, h3, h4, h5, h6⟩ := h
  rw [fetch_own ho hown hname] at ho'
  cases ho'
  obtain ⟨kind, minKey, maxKey, minLsn, maxLsn, size, owner, upto, home⟩ := d
  obtain ⟨rfl, rfl⟩ : home = none ∧ owner = none := hown
  obtain rfl : upto = none := hcut
  dsimp only at h1 h2 h3 h4 h5 h6
  rw [h1, h2, h3, h4, h5, h6]
  rfl

theorem built_desc (body : LayerBody) {target : Nat} (htarget : target ≤ layerBlockTarget)
    (hbuild : body.build stored crc target = .ok o)
    (ho : get objs (.layer tenant shard o.name) = some (.layer o)) :
    o.desc.Built (readerEnv tenant crc shard objs) stored :=
  ⟨body, target, o, htarget, hbuild, fetch_own ho ⟨rfl, rfl⟩ rfl, rfl, rfl, rfl, rfl, rfl, rfl⟩

theorem LayerDesc.Built.entry_desc (h : o.desc.Built (readerEnv tenant crc shard objs) stored)
    (hstored : ∀ b, 0 < stored b) : o.entry.desc = .ok o.desc := by
  have hshape : o.footer.kind = .delta
      ∨ (o.footer.kind = .image ∧ o.footer.minLsn = o.footer.maxLsn) := by
    rcases h.cases hstored with ⟨-, -, -, -, -, hk, -⟩ | ⟨-, -, -, -, -, hk, heq, -⟩
    · exact .inl hk
    · exact .inr ⟨hk, heq⟩
  unfold LayerEntry.desc LayerObj.entry LayerObj.desc LayerObj.name LayerDesc.fromFooter LayerDesc.name
  rcases hshape with hk | ⟨hk, heq⟩
  · rw [hk]
    rfl
  · rw [hk, ← heq]
    rfl

theorem hasPage_desc {at_ : Lsn} {es : List ImageEntry} {target : Nat} (hstored : ∀ b, 0 < stored b)
    (htarget : target ≤ layerBlockTarget) (hbuild : buildImage stored crc es at_ target = .ok o)
    (ho : get objs (.layer tenant shard o.name) = some (.layer o)) (key : LayerKey)
    (page : List UInt8) : o.desc.minLsn = at_
      ∧ (HasPage (readerEnv tenant crc shard objs) o.desc key page
        ↔ (⟨key, page⟩ : ImageEntry) ∈ es) := by
  have hs : Serves (readerEnv tenant crc shard objs) stored [(o.desc, .image at_ es)] := by
    refine ⟨hstored, fun d body hmem => ?_⟩
    obtain ⟨rfl, rfl⟩ := Prod.mk.inj (List.mem_singleton.mp hmem)
    exact ⟨target, o, htarget, hbuild, fetch_own ho ⟨rfl, rfl⟩ rfl, rfl, rfl, rfl, rfl, rfl, rfl⟩
  obtain ⟨-, -, -, -, -, hlsn⟩ := hs.image (List.mem_singleton.mpr rfl)
  exact ⟨hlsn, hasPage_iff hs (List.mem_singleton.mpr rfl)⟩

theorem hasRecord_desc {es : List DeltaEntry} {target : Nat} (hstored : ∀ b, 0 < stored b)
    (htarget : target ≤ layerBlockTarget) (hbuild : buildDelta stored crc es target = .ok o)
    (ho : get objs (.layer tenant shard o.name) = some (.layer o)) {key : LayerKey} {l : Lsn}
    {record : List UInt8} : HasRecord (readerEnv tenant crc shard objs) o.desc key l record
      ↔ (⟨key, l, record⟩ : DeltaEntry) ∈ es := by
  have hs : Serves (readerEnv tenant crc shard objs) stored [(o.desc, .delta es)] := by
    refine ⟨hstored, fun d body hmem => ?_⟩
    obtain ⟨rfl, rfl⟩ := Prod.mk.inj (List.mem_singleton.mp hmem)
    exact ⟨target, o, htarget, hbuild, fetch_own ho ⟨rfl, rfl⟩ rfl, rfl, rfl, rfl, rfl, rfl, rfl⟩
  exact hasRecord_iff hs (List.mem_singleton.mpr rfl)

end Own

namespace Merging

variable {c : Compactor} {wal : LayerKey → Lsn → List UInt8} {s s' : Merging}

/-! ## The invariant -/

def env (c : Compactor) (s : Merging) : ReaderEnv := readerEnv c.tenant c.codec.crc s.shard s.objs

def answer (c : Compactor) (s : Merging) (key : LayerKey) :
    Option (List UInt8) → List (Lsn × List UInt8) → Answer := (c.service s.shard s.objs).answer key

/-- The layers of the reference hold records of the log, and pages of one
lsn that are the same, each under a name of its own. -/
structure Sound (c : Compactor) (wal : LayerKey → Lsn → List UInt8) (s : Merging) : Prop where
  built : ∀ d ∈ s.reference, d.Built (s.env c) c.codec.stored
  record : ∀ d ∈ s.reference, ∀ key l record, HasRecord (s.env c) d key l record →
    record = wal key l
  size : ∀ d ∈ s.reference, ∀ key, HasKey (s.env c) d key → key.kind = keyRelsize → key.block = 0
  page : ∀ d ∈ s.reference, ∀ d' ∈ s.reference, ∀ key p p', HasPage (s.env c) d key p →
    HasPage (s.env c) d' key p' → d.minLsn = d'.minLsn → Same (s.answer c key) p p'
  own : ∀ d ∈ s.reference, d.home = none ∧ (d.owner = none → d.upto = none)
  names : ∀ d ∈ s.reference, ∀ d' ∈ s.reference, d.name = d'.name → d = d'

/-- The manifest lists the reference, less what was retired, and some
outputs. -/
structure Lists (c : Compactor) (s : Merging) (outs : List LayerObj) (retired : List LayerName)
    (live : List LayerDesc) : Prop where
  listed : PageShardManifest.descs s.own.layers = .ok live
  source : ∀ d ∈ live, d ∈ s.reference ∨ ∃ o ∈ outs, d = o.desc
  kept : ∀ d ∈ s.reference, d ∈ live ∨ d.name ∈ retired
  named : ∀ o ∈ outs, o.desc ∈ live
  stored : ∀ o ∈ outs, get s.objs (.layer c.tenant s.shard o.name) = some (.layer o)

/-- The plan saw every layer of the reference up to its cut. -/
structure Plans (c : Compactor) (s : Merging) (descs : List LayerDesc)
    (plan : Compactor.MergePlan) : Prop where
  seen : ∀ d ∈ descs, d ∈ s.reference
  unseen : ∀ d ∈ s.reference, d ∈ descs ∨ plan.horizon < d.minLsn
  owned : ∀ d ∈ s.reference, d.owner = none
  below : plan.horizon < s.own.diskConsistentLsn
  planned : Compactor.Planned c s.shard s.objs s.manifest descs plan

section Reads

variable {descs live : List LayerDesc} {plan : Compactor.MergePlan} {outs : List LayerObj}
  {retired : List LayerName} {key : LayerKey} {lsn : Lsn}

theorem Sound.agrees (h : Sound c wal s) (key : LayerKey) (lsn : Lsn) {ds : List LayerDesc}
    (hds : ∀ d ∈ ds, d ∈ s.reference) : Agrees (s.answer c key) (viewOf (s.env c) ds key lsn) := by
  refine ⟨fun l r r' hr hr' => ?_, fun b p p' hp hp' => ?_⟩
  · obtain ⟨d, hd, hrec, -⟩ := hr
    obtain ⟨d', hd', hrec', -⟩ := hr'
    rw [h.record d (hds d hd) key l r hrec, h.record d' (hds d' hd') key l r' hrec']
  · obtain ⟨d, hd, hpage, hb, -⟩ := hp
    obtain ⟨d', hd', hpage', hb', -⟩ := hp'
    exact h.page d (hds d hd) d' (hds d' hd') key p p' hpage hpage' (hb.trans hb'.symm)

theorem Sound.clamp (h : Sound c wal s) {d : LayerDesc} (hd : d ∈ s.reference)
    (hown : d.owner = none) (lsn : Lsn) : d.clamp lsn = lsn := by
  unfold LayerDesc.clamp
  rw [(h.own d hd).2 hown]
  rfl

/-- The pages an output shows: those that stand for what the plan saw. -/
theorem Plans.output (hplan : Plans c s descs plan) {o : LayerObj} (ho : o ∈ plan.outputs)
    (hobj : get s.objs (.layer c.tenant s.shard o.name) = some (.layer o)) {page : List UInt8}
    (hp : HasPage (s.env c) o.desc key page) :
    o.desc.minLsn = plan.horizon ∧ ∃ x, Found (viewOf (s.env c) descs key plan.horizon) x
      ∧ Resumes (s.answer c key) (x.base.map Prod.snd) x.records page := by
  obtain ⟨es, hbuild, hes⟩ := hplan.planned.outputs o ho
  obtain ⟨hlsn, hiff⟩ := hasPage_desc c.codec.stored_pos c.codec.target_le hbuild hobj key page
  exact ⟨hlsn, hes _ (hiff.mp hp)⟩

theorem Plans.cut_page (hplan : Plans c s descs plan) (h : Sound c wal s) (hle : plan.horizon ≤ lsn)
    {b : Lsn} {p : List UInt8} : (viewOf (s.env c) descs key plan.horizon).page b p
      ↔ (viewOf (s.env c) s.reference key lsn).page b p ∧ b ≤ plan.horizon := by
  constructor
  · rintro ⟨d, hd, hp, hb, hclamp⟩
    have hmem := hplan.seen d hd
    rw [h.clamp hmem (hplan.owned d hmem)] at hclamp
    refine ⟨⟨d, hmem, hp, hb, ?_⟩, hclamp⟩
    rw [h.clamp hmem (hplan.owned d hmem)]
    exact Nat.le_trans hclamp hle
  · rintro ⟨⟨d, hd, hp, hb, -⟩, hle'⟩
    rcases hplan.unseen d hd with hmem | hlt
    · refine ⟨d, hmem, hp, hb, ?_⟩
      rw [h.clamp hd (hplan.owned d hd)]
      exact hle'
    · rw [hb] at hlt
      exact absurd hle' (Nat.not_le.mpr hlt)

variable {r : List UInt8}

theorem Plans.cut_record (hplan : Plans c s descs plan) (h : Sound c wal s)
    (hle : plan.horizon ≤ lsn) {l : Lsn} : (viewOf (s.env c) descs key plan.horizon).record l r
      ↔ (viewOf (s.env c) s.reference key lsn).record l r ∧ l ≤ plan.horizon := by
  constructor
  · rintro ⟨d, hd, hr, hclamp⟩
    have hmem := hplan.seen d hd
    rw [h.clamp hmem (hplan.owned d hmem)] at hclamp
    refine ⟨⟨d, hmem, hr, ?_⟩, hclamp⟩
    rw [h.clamp hmem (hplan.owned d hmem)]
    exact Nat.le_trans hclamp hle
  · rintro ⟨⟨d, hd, hr, -⟩, hle'⟩
    rcases hplan.unseen d hd with hmem | hlt
    · refine ⟨d, hmem, hr, ?_⟩
      rw [h.clamp hd (hplan.owned d hd)]
      exact hle'
    · obtain ⟨-, -, -, hlo, -, -⟩ := (h.built d hd).record c.codec.stored_pos hr
      exact absurd hle' (Nat.not_le.mpr (Nat.lt_of_lt_of_le hlt hlo))

/-- A layer of the reference whose name was retired is a layer the plan
saw, up to the cut. -/
theorem Plans.of_retired (hplan : Plans c s descs plan) (h : Sound c wal s) {d : LayerDesc}
    (hd : d ∈ s.reference) (hn : d.name ∈ plan.retire) : d ∈ descs ∧ d.maxLsn ≤ plan.horizon
      ∧ ∀ key, c.keep s.shard s.manifest key = true → HasKey (s.env c) d key →
        (∃ o ∈ plan.outputs, ∃ es,
          buildImage c.codec.stored c.codec.crc es plan.horizon c.codec.target = .ok o
            ∧ ∃ e ∈ es, e.key = key)
        ∨ Compactor.Silent (s.env c) descs plan.horizon key := by
  obtain ⟨d', hd', hname, hle, hkeys⟩ := hplan.planned.retired d.name hn
  obtain rfl := h.names d' (hplan.seen d' hd') d hd hname
  exact ⟨hd', hle, hkeys⟩

/-- Any page of the live layers at the cut stands for what the plan saw. -/
theorem Lists.like (hl : Lists c s outs retired live) (hplan : Plans c s descs plan)
    (h : Sound c wal s) (houts : ∀ o ∈ outs, o ∈ plan.outputs) (hle : plan.horizon ≤ lsn)
    {x : Reading (List UInt8) (List UInt8)} {p q : List UInt8}
    (hx : Found (viewOf (s.env c) descs key plan.horizon) x)
    (hq : Resumes (s.answer c key) (x.base.map Prod.snd) x.records q)
    (hp : (viewOf (s.env c) live key lsn).page plan.horizon p) : Same (s.answer c key) p q := by
  have hagrees := h.agrees key plan.horizon hplan.seen
  obtain ⟨d, hd, hp, hb, -⟩ := hp
  rcases hl.source d hd with hmem | ⟨o, ho, rfl⟩
  · -- The plan saw this page, and no record above it.
    have hpage : (viewOf (s.env c) descs key plan.horizon).page plan.horizon p := by
      refine (hplan.cut_page h hle).mpr ⟨⟨d, hmem, hp, hb, ?_⟩, le_rfl⟩
      rw [h.clamp hmem (hplan.owned d hmem)]
      exact hle
    cases hbase : x.base with
    | none => exact absurd hpage (hx.bare hbase _ _)
    | some bp =>
      obtain ⟨b, p₀⟩ := bp
      obtain ⟨hp₀, hmax⟩ := hx.newest b p₀ hbase
      have hb' : b = plan.horizon :=
        Nat.le_antisymm ((hplan.cut_page h hle).mp hp₀).2 (hmax _ _ hpage)
      subst hb'
      have hfloor : x.floor = plan.horizon := by
        unfold Reading.floor
        rw [hbase]
        rfl
      have hnil : x.records = [] := by
        refine List.eq_nil_iff_forall_not_mem.mpr fun ⟨l, r⟩ hr => ?_
        obtain ⟨hrec, hlt⟩ := hx.sound l r hr
        have hle' := ((hplan.cut_record h hle).mp hrec).2
        rw [hfloor] at hlt
        exact Nat.not_le.mpr hlt hle'
      intro rs
      have hres := hq rs
      rw [hbase, hnil] at hres
      exact (hagrees.page _ p p₀ hpage hp₀ rs).trans hres
  · -- Another output, cut from the same layers.
    obtain ⟨-, x', hx', hp'⟩ := hplan.output (houts o ho) (hl.stored o ho) hp
    intro rs
    calc s.answer c key (some p) rs
        = s.answer c key (x'.base.map Prod.snd) (x'.records ++ rs) := (hp' rs).symm
      _ = s.answer c key (x.base.map Prod.snd) (x.records ++ rs) :=
          eval_append hx' hx hagrees (fun b p hp => ⟨p, hp, fun _ => rfl⟩)
            (fun b p hp => ⟨p, hp, fun _ => rfl⟩) (fun _ _ _ => .rfl) rs
      _ = s.answer c key (some q) rs := hq rs

theorem Plans.output_built (hplan : Plans c s descs plan) {o : LayerObj} (ho : o ∈ plan.outputs)
    (hobj : get s.objs (.layer c.tenant s.shard o.name) = some (.layer o)) :
    o.desc.Built (s.env c) c.codec.stored := by
  obtain ⟨es, hbuild, -⟩ := hplan.planned.outputs o ho
  exact built_desc (.image plan.horizon es) c.codec.target_le hbuild hobj

theorem Plans.output_record (hplan : Plans c s descs plan) {o : LayerObj} (ho : o ∈ plan.outputs)
    (hobj : get s.objs (.layer c.tenant s.shard o.name) = some (.layer o)) {l : Lsn} : ¬ HasRecord (s.env c) o.desc key l r := by
  intro hr
  have hkind := ((hplan.output_built ho hobj).record c.codec.stored_pos hr).1
  obtain ⟨es, hbuild, -⟩ := hplan.planned.outputs o ho
  obtain ⟨-, -, -, himage, -⟩ := buildLayer_ok hbuild
  rw [show o.desc.kind = o.footer.kind from rfl, himage] at hkind
  cases hkind

/-- The records of the live layers are the reference's, less those of
retired layers. -/
theorem Lists.record (hl : Lists c s outs retired live) (hplan : Plans c s descs plan)
    (houts : ∀ o ∈ outs, o ∈ plan.outputs) {l : Lsn}
    (hlow : ∀ d ∈ s.reference, d.name ∈ retired → HasRecord (s.env c) d key l r → False) :
    (viewOf (s.env c) live key lsn).record l r
      ↔ (viewOf (s.env c) s.reference key lsn).record l r := by
  constructor
  · rintro ⟨d, hd, hr, hclamp⟩
    rcases hl.source d hd with hmem | ⟨o, ho, rfl⟩
    · exact ⟨d, hmem, hr, hclamp⟩
    · exact absurd hr (hplan.output_record (houts o ho) (hl.stored o ho))
  · rintro ⟨d, hd, hr, hclamp⟩
    rcases hl.kept d hd with hmem | hn
    · exact ⟨d, hmem, hr, hclamp⟩
    · exact (hlow d hd hn hr).elim

theorem Lists.page (hl : Lists c s outs retired live) {b : Lsn} {p : List UInt8}
    (hlow : ∀ d ∈ s.reference, d.name ∈ retired → HasPage (s.env c) d key p → d.minLsn = b → False)
    (hout : ∀ o ∈ outs, HasPage (s.env c) o.desc key p → o.desc.minLsn = b → b ≤ lsn → False) :
    (viewOf (s.env c) live key lsn).page b p
      ↔ (viewOf (s.env c) s.reference key lsn).page b p := by
  constructor
  · rintro ⟨d, hd, hp, hb, hclamp⟩
    rcases hl.source d hd with hmem | ⟨o, ho, rfl⟩
    · exact ⟨d, hmem, hp, hb, hclamp⟩
    · exact (hout o ho hp hb hclamp).elim
  · rintro ⟨d, hd, hp, hb, hclamp⟩
    rcases hl.kept d hd with hmem | hn
    · exact ⟨d, hmem, hp, hb, hclamp⟩
    · exact (hlow d hd hn hp hb).elim

theorem Lists.agree (hl : Lists c s outs retired live) (hplan : Plans c s descs plan)
    (h : Sound c wal s) (houts : ∀ o ∈ outs, o ∈ plan.outputs)
    (hret : ∀ n ∈ retired, n ∈ plan.retire ∧ (∀ o ∈ plan.outputs, o ∈ outs) ∧ plan.horizon ≤ lsn)
    (hkeep : c.keep s.shard s.manifest key = true) {x x' : Reading (List UInt8) (List UInt8)}
    (hx : Found (viewOf (s.env c) s.reference key lsn) x)
    (hx' : Found (viewOf (s.env c) live key lsn) x') :
    x.eval (s.answer c key) = x'.eval (s.answer c key) := by
  have hagrees := h.agrees key lsn fun d (hd : d ∈ s.reference) => hd
  by_cases himg : plan.horizon ≤ lsn ∧ ∃ o ∈ outs, ∃ q, HasPage (s.env c) o.desc key q
  · obtain ⟨hle, o, ho, q, hq⟩ := himg
    obtain ⟨hlsn, x₀, hx₀, hres⟩ := hplan.output (houts o ho) (hl.stored o ho) hq
    refine eval_fold hx hx' hx₀ hagrees (fun b p => hplan.cut_page h hle)
      (fun l r => hplan.cut_record h hle) hres (fun b p hlt => ?_) (fun l r hlt => ?_)
      ⟨o.desc, hl.named o ho, hq, hlsn, hle⟩ fun p hp => hl.like hplan h houts hle hx₀ hres hp
    · refine hl.page (fun d hd hn hp hb => ?_) fun o ho hp hb _ => ?_
      · obtain ⟨-, hmax, -⟩ := hplan.of_retired h hd (hret _ hn).1
        obtain ⟨-, -, -, heq, -⟩ := (h.built d hd).page c.codec.stored_pos hp
        rw [← heq, hb] at hmax
        exact Nat.not_le.mpr hlt hmax
      · rw [(hplan.output (houts o ho) (hl.stored o ho) hp).1] at hb
        exact Nat.ne_of_lt hlt hb
    · refine hl.record hplan houts fun d hd hn hr => ?_
      obtain ⟨-, hmax, -⟩ := hplan.of_retired h hd (hret _ hn).1
      obtain ⟨-, -, -, -, hhi, -⟩ := (h.built d hd).record c.codec.stored_pos hr
      exact Nat.not_le.mpr hlt (Nat.le_trans hhi hmax)
  · -- The outputs show nothing of the key, so a retired layer that held it is silent.
    have hsilent : ∀ d ∈ s.reference, d.name ∈ retired → HasKey (s.env c) d key →
        d ∈ descs ∧ d.maxLsn ≤ plan.horizon ∧ plan.horizon ≤ lsn
          ∧ Compactor.Silent (s.env c) descs plan.horizon key := by
      intro d hd hn hk
      obtain ⟨hmem, hmax, hkeys⟩ := hplan.of_retired h hd (hret _ hn).1
      obtain ⟨-, hall, hle⟩ := hret _ hn
      rcases hkeys key hkeep hk with ⟨o, ho, es, hbuild, e, he, rfl⟩ | hs
      · refine absurd ⟨hle, o, hall o ho, e.page, ?_⟩ himg
        exact (hasPage_desc c.codec.stored_pos c.codec.target_le hbuild (hl.stored o (hall o ho)) e.key
          e.page).2.mpr he
      · exact ⟨hmem, hmax, hle, hs⟩
    have hpages : ∀ b p, (viewOf (s.env c) live key lsn).page b p
        ↔ (viewOf (s.env c) s.reference key lsn).page b p := by
      refine fun b p => hl.page (fun d hd hn hp hb => ?_) fun o ho hp hb hle => ?_
      · obtain ⟨hmem, hmax, hle, y, hy, hbase, -⟩ := hsilent d hd hn (.inl ⟨p, hp⟩)
        obtain ⟨-, -, -, heq, -⟩ := (h.built d hd).page c.codec.stored_pos hp
        refine hy.bare hbase b p ⟨d, hmem, hp, hb, ?_⟩
        rw [h.clamp hd (hplan.owned d hd), ← hb, heq]
        exact hmax
      · rw [(hplan.output (houts o ho) (hl.stored o ho) hp).1] at hb
        exact himg ⟨hb.symm ▸ hle, o, ho, p, hp⟩
    refine eval_congr hx hx' hagrees (fun b p hp => ⟨p, (hpages b p).mpr hp, fun _ => rfl⟩)
      (fun b p hp => ⟨p, (hpages b p).mp hp, fun _ => rfl⟩) fun l r hpos => ?_
    refine (hl.record hplan houts fun d hd hn hr => ?_).symm
    obtain ⟨hmem, hmax, hle, y, hy, hbase, hnil⟩ := hsilent d hd hn (.inr ⟨l, r, hr⟩)
    obtain ⟨-, -, -, -, hhi, -⟩ := (h.built d hd).record c.codec.stored_pos hr
    have hfloor : y.floor = 0 := by
      unfold Reading.floor
      rw [hbase]
      rfl
    obtain ⟨r', hr'⟩ := hy.complete l r ⟨d, hmem, hr, by
      rw [h.clamp hd (hplan.owned d hd)]
      exact Nat.le_trans hhi hmax⟩ (by rw [hfloor]; exact hpos)
    rw [hnil] at hr'
    cases hr'

end Reads

/-! ## Stores that keep their layers -/

section Steps

variable {objs : List (ShardKey × ShardObj)} {pt : MergePoint} {descs live : List LayerDesc}
  {plan : Compactor.MergePlan} {outs : List LayerObj} {retired : List LayerName} {o : LayerObj}

theorem Sound.stay (h : Sound c wal s) (hstay : LayersStay s.objs objs) :
    Sound c wal { s with objs := objs, point := pt } where
  built d hd := (h.built d hd).stay hstay
  record d hd key l r hr := h.record d hd key l r ((hasRecord_stay hstay (h.built d hd)).mp hr)
  size d hd key hk := h.size d hd key ((hasKey_stay hstay (h.built d hd)).mp hk)
  page d hd d' hd' key p p' hp hp' := h.page d hd d' hd' key p p'
    ((hasPage_stay hstay (h.built d hd)).mp hp) ((hasPage_stay hstay (h.built d' hd')).mp hp')
  own := h.own
  names := h.names

theorem Plans.stay (h : Plans c s descs plan) (hs : Sound c wal s) (hstay : LayersStay s.objs objs)
    (hdcl : s.own.diskConsistentLsn ≤ (manifestOf s.shard objs).diskConsistentLsn) :
    Plans c { s with objs := objs, point := pt } descs plan where
  seen := h.seen
  unseen := h.unseen
  owned := h.owned
  below := Nat.lt_of_lt_of_le h.below hdcl
  planned := h.planned.stay hstay fun d hd => hs.built d (h.seen d hd)

theorem Lists.stay (h : Lists c s outs retired live) (hstay : LayersStay s.objs objs)
    (hlayers : (manifestOf s.shard objs).layers = s.own.layers) :
    Lists c { s with objs := objs, point := pt } outs retired live where
  listed := by
    unfold own
    rw [hlayers]
    exact h.listed
  source := h.source
  kept := h.kept
  named := h.named
  stored o ho := hstay _ _ _ _ (h.stored o ho)

theorem manifestOf_edit (shard : Nat) (f : PageShardManifest → PageShardManifest) :
    manifestOf shard (commitEdit shard objs f) = f (manifestOf shard objs) := by
  unfold commitEdit
  conv_lhs => unfold manifestOf
  rw [get_cons_self]
  rfl

theorem manifestOf_stage (tenant : String) (shard : Nat) :
    manifestOf shard (stageOutput tenant shard objs o) = manifestOf shard objs := by
  unfold manifestOf
  rw [stageOutput_manifest]

theorem get_stage {tenant : String} {shard : Nat}
    (hfree : get objs (.layer tenant shard o.name) = none
      ∨ get objs (.layer tenant shard o.name) = some (.layer o)) :
    get (stageOutput tenant shard objs o) (.layer tenant shard o.name) = some (.layer o) := by
  unfold stageOutput
  rcases hfree with hnone | hsome
  · rw [hnone]
    rw [get_cons_self]
  · rw [hsome]
    rw [hsome]

theorem commitEdit_stay (shard : Nat) (f : PageShardManifest → PageShardManifest) :
    LayersStay objs (commitEdit shard objs f) := layersStay_manifest objs shard _

/-- An added object finds its name free or under its own descriptor. -/
theorem Lists.taken (h : Lists c s outs retired live) (hs : Sound c wal s)
    (houts : ∀ o ∈ outs, o.desc.Built (s.env c) c.codec.stored)
    (ho : get s.objs (.layer c.tenant s.shard o.name) = some (.layer o)) {d : LayerDesc}
    (hd : d ∈ live) (hown : d.owner = none) (hname : d.name = o.name) : d = o.desc := by
  rcases h.source d hd with hmem | ⟨o', ho', rfl⟩
  · obtain ⟨hhome, hcut⟩ := hs.own d hmem
    exact (hs.built d hmem).eq_desc ho ⟨hhome, hown⟩ (hcut hown) hname
  · exact (houts o' ho').eq_desc ho ⟨rfl, rfl⟩ rfl hname

/-! ## Steps of the merge -/

theorem Lists.commit {retire : List LayerName} {add outs' : List LayerObj}
    {f : PageShardManifest → PageShardManifest} (h : Lists c s outs [] live) (hs : Sound c wal s)
    (hplan : Plans c s descs plan) (houts : ∀ o ∈ outs, o ∈ plan.outputs)
    (hadd : ∀ o ∈ add, o ∈ plan.outputs)
    (hobjs : ∀ o ∈ add, get s.objs (.layer c.tenant s.shard o.name) = some (.layer o))
    (hf : Relists s.own.layers (f s.own).layers retire add)
    (hall : ∀ o ∈ outs, o.desc.name ∈ retire → o ∈ add)
    (hmem : ∀ o, o ∈ outs' ↔ o ∈ outs ∨ o ∈ add) :
    ∃ live', Lists c { s with objs := commitEdit s.shard s.objs f, point := pt } outs' retire
      live' := by
  have hbuilt : ∀ o ∈ outs, o.desc.Built (s.env c) c.codec.stored := fun o ho =>
    hplan.output_built (houts o ho) (h.stored o ho)
  have haddBuilt : ∀ o ∈ add, o.desc.Built (s.env c) c.codec.stored := fun o ho =>
    hplan.output_built (hadd o ho) (hobjs o ho)
  have howned : ∀ d ∈ live, d.owner = none := by
    intro d hd
    rcases h.source d hd with hmem | ⟨o, ho, rfl⟩
    · exact hplan.owned d hmem
    · rfl
  obtain ⟨live', hlisted, hsource, hkept, hnamed⟩ := hf.descs h.listed
    (fun o ho => (haddBuilt o ho).entry_desc c.codec.stored_pos) fun o ho d hd hname => by
      rcases hd with hd | ⟨o', ho', rfl⟩
      · exact h.taken hs hbuilt (hobjs o ho) hd (howned d hd) hname
      · exact (haddBuilt o' ho').eq_desc (hobjs o ho) ⟨rfl, rfl⟩ rfl hname
  refine ⟨live', ?_, fun d hd => ?_, fun d hd => ?_, fun o ho => ?_, fun o ho => ?_⟩
  · unfold own
    rw [manifestOf_edit]
    exact hlisted
  · rcases hsource d hd with ⟨hd, -⟩ | ⟨o, ho, rfl⟩
    · rcases h.source d hd with hmem | ⟨o, ho, rfl⟩
      · exact .inl hmem
      · exact .inr ⟨o, (hmem o).mpr (.inl ho), rfl⟩
    · exact .inr ⟨o, (hmem o).mpr (.inr ho), rfl⟩
  · rcases h.kept d hd with hd | hn
    · by_cases hn : d.name ∈ retire
      · exact .inr hn
      · exact .inl (hkept d hd hn)
    · cases hn
  · rcases (hmem o).mp ho with ho | ho
    · by_cases hn : o.desc.name ∈ retire
      · exact hnamed o (hall o ho hn)
      · exact hkept o.desc (h.named o ho) hn
    · exact hnamed o ho
  · refine commitEdit_stay s.shard f _ _ _ _ ?_
    rcases (hmem o).mp ho with ho | ho
    · exact h.stored o ho
    · exact hobjs o ho

/-! ## Flushes -/

theorem Sound.append (h : Sound c wal s) (hbuilt : o.desc.Built (s.env c) c.codec.stored)
    (hkind : o.footer.kind = .delta)
    (hrec : ∀ key l r, HasRecord (s.env c) o.desc key l r →
      r = wal key l ∧ (key.kind = keyRelsize → key.block = 0))
    (hnames : ∀ d ∈ s.reference, d.name = o.name → d = o.desc) :
    Sound c wal { s with reference := s.reference ++ [o.desc] } := by
  have hno : ∀ key p, ¬ HasPage (s.env c) o.desc key p := by
    intro key p hp
    have himg := (hbuilt.page c.codec.stored_pos hp).1
    rw [show o.desc.kind = o.footer.kind from rfl, hkind] at himg
    cases himg
  have hmem : ∀ d ∈ s.reference ++ [o.desc], d ∈ s.reference ∨ d = o.desc := fun d hd =>
    (List.mem_append.mp hd).imp_right List.mem_singleton.mp
  refine ⟨fun d hd => ?_, fun d hd key l r hr => ?_, fun d hd key hk => ?_,
    fun d hd d' hd' key p p' hp hp' => ?_, fun d hd => ?_, fun d hd d' hd' hname => ?_⟩
  · rcases hmem d hd with hd | rfl
    · exact h.built d hd
    · exact hbuilt
  · rcases hmem d hd with hd | rfl
    · exact h.record d hd key l r hr
    · exact (hrec key l r hr).1
  · rcases hmem d hd with hd | rfl
    · exact h.size d hd key hk
    · rcases hk with ⟨p, hp⟩ | ⟨l, r, hr⟩
      · exact absurd hp (hno key p)
      · exact (hrec key l r hr).2
  · rcases hmem d hd with hd | rfl
    · rcases hmem d' hd' with hd' | rfl
      · exact h.page d hd d' hd' key p p' hp hp'
      · exact absurd hp' (hno key p')
    · exact absurd hp (hno key p)
  · rcases hmem d hd with hd | rfl
    · exact h.own d hd
    · exact ⟨rfl, fun _ => rfl⟩
  · rcases hmem d hd with hd | rfl
    · rcases hmem d' hd' with hd' | rfl
      · exact h.names d hd d' hd' hname
      · exact hnames d hd hname
    · rcases hmem d' hd' with hd' | rfl
      · exact (hnames d' hd' hname.symm).symm
      · rfl

/-- A published layer is listed, whatever the merge has listed or
retired. -/
theorem Lists.publish {upto : Lsn} (h : Lists c s outs retired live) (hs : Sound c wal s)
    (houts : ∀ o ∈ outs, o.desc.Built (s.env c) c.codec.stored)
    (hbuilt : o.desc.Built (s.env c) c.codec.stored)
    (hobj : get s.objs (.layer c.tenant s.shard o.name) = some (.layer o))
    (hown : ∀ d ∈ live, d.name = o.name → d.owner = none) : ∃ live', Lists c { s with
      objs := commitEdit s.shard s.objs fun m => m.publishLayer o.entry upto
      reference := s.reference ++ [o.desc] } outs retired live' := by
  obtain ⟨live', hlisted, hsource, hkept, hnamed⟩ :=
    (list_layers : Relists s.own.layers (s.own.list o.entry).layers [] [o]).descs h.listed
      (fun o' ho' => by
        cases List.mem_singleton.mp ho'
        exact hbuilt.entry_desc c.codec.stored_pos)
      (fun o' ho' d hd hname => by
        cases List.mem_singleton.mp ho'
        rcases hd with hd | ⟨o'', ho'', rfl⟩
        · exact h.taken hs houts hobj hd (hown d hd hname) hname
        · rw [List.mem_singleton.mp ho''])
  have hadded : o.desc ∈ live' := hnamed o (List.mem_singleton.mpr rfl)
  refine ⟨live', ?_, fun d hd => ?_, fun d hd => ?_, fun o' ho' => ?_, fun o' ho' => ?_⟩
  · unfold own
    rw [manifestOf_edit]
    exact hlisted
  · rcases hsource d hd with ⟨hd, -⟩ | ⟨o', ho', rfl⟩
    · exact (h.source d hd).imp_left (List.mem_append_left _)
    · cases List.mem_singleton.mp ho'
      exact .inl (List.mem_append_right _ (List.mem_singleton.mpr rfl))
  · rcases List.mem_append.mp hd with hd | hd
    · exact (h.kept d hd).imp_left fun hd => hkept d hd List.not_mem_nil
    · rw [List.mem_singleton.mp hd]
      exact .inl hadded
  · exact hkept _ (h.named o' ho') List.not_mem_nil
  · exact commitEdit_stay s.shard (fun m => m.publishLayer o.entry upto) _ _ _ _ (h.stored o' ho')

theorem Plans.publish {upto : Lsn} (h : Plans c s descs plan) (hs : Sound c wal s)
    (hlsn : s.own.diskConsistentLsn ≤ o.footer.minLsn) : Plans c { s with
      objs := commitEdit s.shard s.objs fun m => m.publishLayer o.entry upto
      reference := s.reference ++ [o.desc] } descs plan := by
  refine ⟨fun d hd => List.mem_append_left _ (h.seen d hd), fun d hd => ?_, fun d hd => ?_, ?_, ?_⟩
  · rcases List.mem_append.mp hd with hd | hd
    · exact h.unseen d hd
    · rw [List.mem_singleton.mp hd]
      exact .inr (Nat.lt_of_lt_of_le h.below hlsn)
  · rcases List.mem_append.mp hd with hd | hd
    · exact h.owned d hd
    · rw [List.mem_singleton.mp hd]
      rfl
  · unfold own
    rw [manifestOf_edit]
    exact Nat.lt_of_lt_of_le h.below (Nat.le_max_left ..)
  · exact h.planned.stay (commitEdit_stay s.shard fun m => m.publishLayer o.entry upto)
      fun d hd => hs.built d (h.seen d hd)

end Steps

/-! ## Runs -/

/-- The outputs that are listed. -/
def outs : MergePoint → List LayerObj
  | .staging _ staged _ => staged
  | .naming _ staged _ _ => staged
  | .done (some plan) => plan.outputs
  | _ => []

/-- The names that were retired. -/
def retired : MergePoint → List LayerName
  | .done (some plan) => plan.retire
  | _ => []

def planOf : MergePoint → Option Compactor.MergePlan
  | .staging plan _ _ => some plan
  | .naming plan _ _ _ => some plan
  | .done plan => plan
  | _ => none

/-- What the merge knows where it is. -/
def PointOk (c : Compactor) (s : Merging) : MergePoint → Prop
  | .listed descs => (∀ d ∈ descs, d.home = none → d ∈ s.reference)
      ∧ ∀ d ∈ s.reference, d ∈ descs ∨ d.owner = none
  | .staging plan staged todo => plan.outputs = staged ++ todo
  | .naming plan staged o todo => plan.outputs = staged ++ o :: todo
      ∧ get s.objs (.layer c.tenant s.shard o.name) = some (.layer o)
  | .done (some plan) => plan.retire ≠ [] → plan.horizon ≤ s.own.horizon.getD 0
  | _ => True

structure Inv (c : Compactor) (wal : LayerKey → Lsn → List UInt8) (s : Merging) : Prop where
  shard : s.shard < s.manifest.shards
  sound : Sound c wal s
  plans : ∀ plan, planOf s.point = some plan → ∃ descs, Plans c s descs plan
  lists : ∃ live, Lists c s (outs s.point) (retired s.point) live
  point : PointOk c s s.point

/-- An object finds its name free, or taken by itself. -/
def Free (c : Compactor) (s : Merging) (o : LayerObj) : Prop :=
  get s.objs (.layer c.tenant s.shard o.name) = none
    ∨ get s.objs (.layer c.tenant s.shard o.name) = some (.layer o)

/-- The condition on a step: when the merge settles on its cut, every layer
that it has not loaded lies above it; an output finds its name free or
taken by itself, and so does the layer of a flush, of which the manifest
lists no other tenant's. -/
def StepOk (c : Compactor) (s : Merging) : MergeStep → Prop
  | .pass => match s.point with
      | .listed descs => ∀ d ∈ s.reference,
          d ∈ descs ∨ min s.horizon (imageCut s.own.diskConsistentLsn) < d.minLsn
      | .staging _ _ (o :: _) => Free c s o
      | _ => True
  | .flush entries _ => match buildDelta c.codec.stored c.codec.crc entries c.codec.target with
      | .ok o => Free c s o ∧ ∀ e ∈ s.own.layers, e.name = o.name → e.owner = none
      | .error _ => True
  | .advance _ => True

instance (c : Compactor) (s : Merging) (o : LayerObj) : Decidable (Free c s o) :=
  inferInstanceAs (Decidable (_ ∨ _))

instance (c : Compactor) (s : Merging) : ∀ l, Decidable (StepOk c s l)
  | .pass =>
    match h : s.point with
    | .listed descs => decidable_of_iff (∀ d ∈ s.reference,
        d ∈ descs ∨ min s.horizon (imageCut s.own.diskConsistentLsn) < d.minLsn)
        (by simp only [StepOk, h])
    | .staging _ _ (o :: _) => decidable_of_iff (Free c s o) (by simp only [StepOk, h])
    | .staging _ _ [] => isTrue (by simp only [StepOk, h])
    | .start => isTrue (by simp only [StepOk, h])
    | .naming _ _ _ _ => isTrue (by simp only [StepOk, h])
    | .done _ => isTrue (by simp only [StepOk, h])
  | .flush entries _ =>
    match h : buildDelta c.codec.stored c.codec.crc entries c.codec.target with
    | .ok o => decidable_of_iff (Free c s o ∧ ∀ e ∈ s.own.layers, e.name = o.name → e.owner = none)
        (by simp only [StepOk, h])
    | .error _ => isTrue (by simp only [StepOk, h])
  | .advance _ => isTrue trivial

theorem outs_planned {plan : Compactor.MergePlan} (h : PointOk c s s.point)
    (hplan : planOf s.point = some plan) : ∀ o ∈ outs s.point, o ∈ plan.outputs := by
  intro o ho
  cases hpt : s.point with
  | start =>
    rw [hpt] at hplan
    cases hplan
  | listed descs =>
    rw [hpt] at hplan
    cases hplan
  | staging p staged todo =>
    rw [hpt] at hplan ho h
    obtain rfl := Option.some.inj hplan
    have heq : p.outputs = staged ++ todo := h
    rw [heq]
    exact List.mem_append_left _ ho
  | naming p staged o' todo =>
    rw [hpt] at hplan ho h
    cases hplan
    rw [h.1]
    exact List.mem_append_left _ ho
  | done p =>
    rw [hpt] at hplan ho
    cases p with
    | none => cases ho
    | some p =>
      cases hplan
      exact ho

theorem outs_bare (hplan : planOf s.point = none) : outs s.point = [] ∧ retired s.point = [] := by
  cases hpt : s.point with
  | start => exact ⟨rfl, rfl⟩
  | listed descs => exact ⟨rfl, rfl⟩
  | staging p staged todo =>
    rw [hpt] at hplan
    cases hplan
  | naming p staged o todo =>
    rw [hpt] at hplan
    cases hplan
  | done p =>
    cases p with
    | none => exact ⟨rfl, rfl⟩
    | some p =>
      rw [hpt] at hplan
      cases hplan

theorem Inv.outs_built (h : Inv c wal s) :
    ∀ o ∈ outs s.point, o.desc.Built (s.env c) c.codec.stored := by
  intro o ho
  obtain ⟨live, hl⟩ := h.lists
  cases hplan : planOf s.point with
  | none =>
    rw [(outs_bare hplan).1] at ho
    cases ho
  | some plan =>
    obtain ⟨descs, hp⟩ := h.plans plan hplan
    exact hp.output_built (outs_planned h.point hplan o ho) (hl.stored o ho)

/-- A step that changes neither the layers of the manifest nor where the
merge is. -/
theorem Inv.keep {objs : List (ShardKey × ShardObj)} (h : Inv c wal s)
    (hstay : LayersStay s.objs objs)
    (hdcl : s.own.diskConsistentLsn ≤ (manifestOf s.shard objs).diskConsistentLsn)
    (hlayers : (manifestOf s.shard objs).layers = s.own.layers)
    (hhorizon : (manifestOf s.shard objs).horizon = s.own.horizon) :
    Inv c wal { s with objs := objs } := by
  obtain ⟨live, hl⟩ := h.lists
  refine ⟨h.shard, h.sound.stay hstay, fun plan hplan => ?_, ⟨live, hl.stay hstay hlayers⟩, ?_⟩
  · obtain ⟨descs, hp⟩ := h.plans plan hplan
    exact ⟨descs, hp.stay h.sound hstay hdcl⟩
  · have hpoint := h.point
    cases hpt : s.point with
    | start => trivial
    | listed descs =>
      rw [hpt] at hpoint
      exact hpoint
    | staging p staged todo =>
      rw [hpt] at hpoint
      exact hpoint
    | naming p staged o todo =>
      rw [hpt] at hpoint
      exact ⟨hpoint.1, hstay _ _ _ _ hpoint.2⟩
    | done p =>
      rw [hpt] at hpoint
      cases p with
      | none => trivial
      | some p =>
        intro hne
        unfold own
        rw [hhorizon]
        exact hpoint hne

/-- A reference layer of the name of a flushed object is the object's. -/
theorem Inv.eq_desc {o : LayerObj} (h : Inv c wal s)
    (hobj : get s.objs (.layer c.tenant s.shard o.name) = some (.layer o))
    (hown : ∀ e ∈ s.own.layers, e.name = o.name → e.owner = none) :
    ∀ d ∈ s.reference, d.name = o.name → d = o.desc := by
  intro d hd hname
  obtain ⟨live, hl⟩ := h.lists
  have howner : d.owner = none := by
    cases hplan : planOf s.point with
    | some plan =>
      obtain ⟨descs, hp⟩ := h.plans plan hplan
      exact hp.owned d hd
    | none =>
      rcases hl.kept d hd with hmem | hn
      · obtain ⟨e, he, hdesc⟩ := of_mem_descs hl.listed hmem
        obtain ⟨h1, h2, -⟩ := desc_fields hdesc
        rw [h2]
        exact hown e he (h1.symm.trans hname)
      · rw [(outs_bare hplan).2] at hn
        cases hn
  obtain ⟨hhome, hcut⟩ := h.sound.own d hd
  exact (h.sound.built d hd).eq_desc hobj ⟨hhome, howner⟩ (hcut howner) hname

theorem list_horizon (m : PageShardManifest) (e : LayerEntry) : (m.list e).horizon = m.horizon := by
  rw [PageShardManifest.list_eq]

theorem PointOk.publish {pt : MergePoint} {o : LayerObj} {upto : Lsn} (h : PointOk c s pt) :
    PointOk c { s with
      objs := commitEdit s.shard s.objs fun m => m.publishLayer o.entry upto
      reference := s.reference ++ [o.desc] } pt := by
  cases pt with
  | start => trivial
  | listed descs =>
    refine ⟨fun d hd hhome => List.mem_append_left _ (h.1 d hd hhome), fun d hd => ?_⟩
    rcases List.mem_append.mp hd with hd | hd
    · exact h.2 d hd
    · rw [List.mem_singleton.mp hd]
      exact .inr rfl
  | staging p staged todo => exact h
  | naming p staged o' todo =>
    exact ⟨h.1, commitEdit_stay s.shard (fun m => m.publishLayer o.entry upto) _ _ _ _ h.2⟩
  | done p =>
    cases p with
    | none => trivial
    | some p =>
      intro hne
      unfold own
      rw [manifestOf_edit]
      have hhorizon : (s.own.publishLayer o.entry upto).horizon = s.own.horizon :=
        list_horizon s.own o.entry
      change p.horizon ≤ (s.own.publishLayer o.entry upto).horizon.getD 0
      rw [hhorizon]
      exact h hne

theorem minLsn_ge {entries : List DeltaEntry} {o : LayerObj} {a upto : Lsn}
    (hbuild : buildDelta c.codec.stored c.codec.crc entries c.codec.target = .ok o)
    (hupto : upto ≤ u64Max) (hlsn : ∀ e ∈ entries, a ≤ e.lsn ∧ e.lsn < upto) :
    a ≤ o.footer.minLsn := by
  obtain ⟨-, hne, -, -, -, -, hbounds, -⟩ := buildLayer_ok hbuild
  obtain ⟨e, he⟩ := List.exists_mem_of_ne_nil _ hne
  obtain ⟨hlo, hhi⟩ := hlsn e he
  rw [(Prod.mk.inj hbounds).1]
  refine le_foldl_min (fun e he => (hlsn e he).1) ?_
  exact Nat.le_trans hlo (Nat.le_of_lt (Nat.lt_of_lt_of_le hhi hupto))

theorem Inv.flush {entries : List DeltaEntry} {upto : Lsn} (h : Inv c wal s)
    (hok : StepOk c s (.flush entries upto)) (hstep : s.flush c wal entries upto = some s') :
    Inv c wal s' := by
  unfold Merging.flush at hstep
  split at hstep
  · rename_i hguard
    obtain ⟨hupto, hentries⟩ := hguard
    cases hbuild : buildDelta c.codec.stored c.codec.crc entries c.codec.target with
    | error e =>
      rw [hbuild] at hstep
      cases hstep
    | ok o =>
      rw [hbuild] at hstep
      cases hstep
      unfold StepOk at hok
      dsimp only at hok
      rw [hbuild] at hok
      obtain ⟨hfree, hown⟩ := hok
      have hobj := get_stage hfree
      have hstage : manifestOf s.shard (stageOutput c.tenant s.shard s.objs o)
          = manifestOf s.shard s.objs := manifestOf_stage c.tenant s.shard
      have h₁ : Inv c wal { s with objs := stageOutput c.tenant s.shard s.objs o } :=
        h.keep (stageOutput_stay o) (Nat.le_of_eq (by rw [hstage]; rfl)) (by rw [hstage]; rfl)
          (by rw [hstage]; rfl)
      generalize stageOutput c.tenant s.shard s.objs o = objs at hobj hstage h₁
      have hmanifest : manifestOf s.shard objs = s.own := hstage
      have hbuilt : o.desc.Built (readerEnv c.tenant c.codec.crc s.shard objs) c.codec.stored :=
        built_desc (.delta entries) c.codec.target_le hbuild hobj
      have hkind : o.footer.kind = .delta := (buildLayer_ok hbuild).2.2.2.1
      have hnames := h₁.eq_desc hobj fun e he => hown e (hmanifest ▸ he)
      have hsound := h₁.sound.append hbuilt hkind (fun key l r hr => by
        have he := (hasRecord_desc c.codec.stored_pos c.codec.target_le hbuild hobj).mp hr
        exact ⟨(hentries _ he).2.2.1, (hentries _ he).2.2.2⟩) hnames
      have hlsn : (manifestOf s.shard objs).diskConsistentLsn ≤ o.footer.minLsn := by
        rw [hmanifest]
        exact minLsn_ge hbuild hupto fun e he => ⟨(hentries e he).1, (hentries e he).2.1⟩
      obtain ⟨live, hl⟩ := h₁.lists
      refine ⟨h.shard, hsound.stay (commitEdit_stay s.shard _), fun plan hplan => ?_, ?_, ?_⟩
      · obtain ⟨descs, hp⟩ := h₁.plans plan hplan
        exact ⟨descs, hp.publish h₁.sound hlsn⟩
      · refine hl.publish h₁.sound h₁.outs_built hbuilt hobj fun d hd hname => ?_
        obtain ⟨e, he, hdesc⟩ := of_mem_descs hl.listed hd
        obtain ⟨h1, h2, -⟩ := desc_fields hdesc
        rw [h2]
        exact hown e (hmanifest ▸ he) (h1.symm.trans hname)
      · exact h₁.point.publish
  · cases hstep

theorem Inv.advance {lsn : Lsn} (h : Inv c wal s)
    (hstep : s.next c wal (.advance lsn) = some s') : Inv c wal s' := by
  dsimp only [next] at hstep
  split at hstep
  · cases hstep
    exact h
  · cases hstep
    refine h.keep (commitEdit_stay s.shard _) ?_ ?_ ?_
    · rw [manifestOf_edit]
      exact Nat.le_max_left ..
    · rw [manifestOf_edit]
      rfl
    · rw [manifestOf_edit]
      rfl

theorem Inv.point_bare {pt : MergePoint} (h : Inv c wal s) (hbare : planOf s.point = none)
    (hpt : planOf pt = none) (hok : PointOk c s pt) : Inv c wal { s with point := pt } := by
  obtain ⟨live, hl⟩ := h.lists
  rw [(outs_bare hbare).1, (outs_bare hbare).2] at hl
  have hout : outs pt = [] ∧ retired pt = [] := outs_bare (s := { s with point := pt }) hpt
  refine ⟨h.shard, h.sound.stay fun _ _ _ _ ho => ho, fun plan hplan => ?_, ⟨live, ?_⟩, ?_⟩
  · rw [show planOf pt = some plan from hplan] at hpt
    cases hpt
  · change Lists c { s with point := pt } (outs pt) (retired pt) live
    rw [hout.1, hout.2]
    exact hl.stay (fun _ _ _ _ ho => ho) rfl
  · cases pt with
    | start => trivial
    | listed descs => exact hok
    | staging p staged todo => cases hpt
    | naming p staged o todo => cases hpt
    | done p =>
      cases p with
      | none => trivial
      | some p => cases hpt

theorem Inv.plan {descs : List LayerDesc} {m : PageShardManifest} {plan : Compactor.MergePlan}
    (h : Inv c wal s) (hexact : (c.service s.shard s.objs).ExactRedo)
    (hpoint : s.point = .listed descs) (hok : StepOk c s .pass)
    (hload : loadManifest s.objs s.shard = .ok (some m))
    (hplan : c.mergePlan s.shard s.objs s.manifest m descs s.horizon = .ok (some plan)) :
    Plans c s descs plan := by
  have hpt := h.point
  rw [hpoint] at hpt
  obtain rfl : s.own = m := manifestOf_load hload
  obtain ⟨at_, hcut⟩ := Compactor.mergePlan_cut hplan
  obtain ⟨-, -, hown, -⟩ := Compactor.mergeCut_some hcut
  have hseen : ∀ d ∈ descs, d ∈ s.reference := fun d hd => hpt.1 d hd (hown d hd).1
  obtain ⟨heq, hpos, -, -, hplanned⟩ := Compactor.mergePlan_ok
    (fun d hd => h.sound.built d (hseen d hd)) hexact
    (fun d hd key hk => h.sound.size d (hseen d hd) key hk) hplan
  have hunseen : ∀ d ∈ s.reference,
      d ∈ descs ∨ min s.horizon (imageCut s.own.diskConsistentLsn) < d.minLsn := by
    unfold StepOk at hok
    rw [hpoint] at hok
    exact hok
  refine ⟨hseen, fun d hd => ?_, fun d hd => ?_, ?_, hplanned⟩
  · rw [heq]
    exact hunseen d hd
  · rcases hpt.2 d hd with hmem | hnone
    · exact (hown d hmem).2
    · exact hnone
  · rw [heq] at hpos ⊢
    have hle : min s.horizon (imageCut s.own.diskConsistentLsn) ≤ s.own.diskConsistentLsn - 1 :=
      Nat.min_le_right ..
    exact Nat.lt_of_le_of_lt hle (Nat.sub_one_lt fun hzero => by
      rw [hzero] at hle hpos
      exact Nat.not_lt.mpr hle hpos)

theorem Inv.stage {plan : Compactor.MergePlan} {staged todo : List LayerObj} {o : LayerObj}
    (h : Inv c wal s) (hpoint : s.point = .staging plan staged (o :: todo)) (hfree : Free c s o) :
    Inv c wal { s with
      objs := stageOutput c.tenant s.shard s.objs o
      point := .naming plan staged o todo } := by
  have hout := h.point
  obtain ⟨live, hl⟩ := h.lists
  obtain ⟨descs, hp⟩ := h.plans plan (by rw [hpoint]; rfl)
  rw [hpoint] at hout hl
  have hmanifest : manifestOf s.shard (stageOutput c.tenant s.shard s.objs o) = s.own :=
    manifestOf_stage c.tenant s.shard
  refine ⟨h.shard, h.sound.stay (stageOutput_stay o), fun p hp' => ?_,
    ⟨live, hl.stay (stageOutput_stay o) (by rw [hmanifest])⟩, hout, get_stage hfree⟩
  cases hp'
  exact ⟨descs, hp.stay h.sound (stageOutput_stay o) (Nat.le_of_eq (by rw [hmanifest]))⟩

theorem Inv.name {plan : Compactor.MergePlan} {staged todo : List LayerObj} {o : LayerObj}
    (h : Inv c wal s) (hpoint : s.point = .naming plan staged o todo) : Inv c wal { s with
      objs := commitEdit s.shard s.objs fun m => m.swapLayers [] [o.entry] none none
      point := .staging plan (staged ++ [o]) todo } := by
  have hout := h.point
  obtain ⟨live, hl⟩ := h.lists
  obtain ⟨descs, hp⟩ := h.plans plan (by rw [hpoint]; rfl)
  rw [hpoint] at hout hl
  obtain ⟨houts, hobj⟩ := hout
  refine ⟨h.shard, h.sound.stay (commitEdit_stay s.shard _), fun p hp' => ?_, ?_, ?_⟩
  · cases hp'
    refine ⟨descs, hp.stay h.sound (commitEdit_stay s.shard _) (Nat.le_of_eq ?_)⟩
    rw [manifestOf_edit, swapLayers_dcl]
    rfl
  · refine hl.commit h.sound hp (fun o' ho' => ?_) (fun o' ho' => ?_) (fun o' ho' => ?_)
      (swapLayers_layers : Relists s.own.layers
        (s.own.swapLayers [] ([o].map LayerObj.entry) none none).layers [] [o])
      nofun fun o' => List.mem_append
    · rw [houts]
      exact List.mem_append_left _ ho'
    · rw [houts, List.mem_singleton.mp ho']
      exact List.mem_append_right _ List.mem_cons_self
    · rw [List.mem_singleton.mp ho']
      exact hobj
  · change plan.outputs = staged ++ [o] ++ todo
    rw [houts, List.append_assoc]
    rfl

theorem Inv.retire {plan : Compactor.MergePlan} {staged : List LayerObj} (h : Inv c wal s)
    (hpoint : s.point = .staging plan staged []) : Inv c wal { s with
      objs := commitEdit s.shard s.objs fun m =>
        m.swapLayers plan.retire (staged.map LayerObj.entry) none
          (if plan.retire = [] then none else some plan.horizon)
      point := .done (some plan) } := by
  have hout := h.point
  obtain ⟨live, hl⟩ := h.lists
  obtain ⟨descs, hp⟩ := h.plans plan (by rw [hpoint]; rfl)
  rw [hpoint] at hout hl
  have houts : plan.outputs = staged := hout.trans (List.append_nil _)
  refine ⟨h.shard, h.sound.stay (commitEdit_stay s.shard _), fun p hp' => ?_, ?_, fun hne => ?_⟩
  · cases hp'
    refine ⟨descs, hp.stay h.sound (commitEdit_stay s.shard _) (Nat.le_of_eq ?_)⟩
    rw [manifestOf_edit, swapLayers_dcl]
    rfl
  · have hall : ∀ o ∈ staged, o ∈ plan.outputs := fun o ho => houts ▸ ho
    refine hl.commit h.sound hp hall hall hl.stored swapLayers_layers (fun o ho _ => ho) fun o => ?_
    change o ∈ plan.outputs ↔ o ∈ staged ∨ o ∈ staged
    rw [houts, or_self]
  · unfold own
    rw [manifestOf_edit, if_neg hne]
    cases hhor : (manifestOf s.shard s.objs).horizon with
    | none =>
      dsimp only [PageShardManifest.swapLayers]
      rw [hhor]
      exact le_rfl
    | some h₀ =>
      dsimp only [PageShardManifest.swapLayers]
      rw [hhor]
      exact Nat.le_max_right ..

theorem Inv.pass (h : Inv c wal s) (hexact : (c.service s.shard s.objs).ExactRedo)
    (hok : StepOk c s .pass) (hstep : s.pass c = some s') : Inv c wal s' := by
  unfold Merging.pass at hstep
  cases hpoint : s.point with
  | start =>
    have hbare : planOf s.point = none := by rw [hpoint]; rfl
    rw [hpoint] at hstep
    dsimp only at hstep
    split at hstep
    · obtain rfl := Option.some.inj hstep
      exact h.point_bare hbare rfl trivial
    · rename_i descs floor hload
      cases hstep
      obtain ⟨live, hl⟩ := h.lists
      rw [(outs_bare hbare).1, (outs_bare hbare).2] at hl
      obtain ⟨h1, h2⟩ := loadServingDescs_own h.shard hl.listed hload
      refine h.point_bare hbare rfl ⟨fun d hd hhome => ?_, fun d hd => .inl ?_⟩
      · exact (hl.source d (h1 d hd hhome)).resolve_right fun ⟨o, ho, _⟩ => by cases ho
      · exact h2 d ((hl.kept d hd).resolve_right List.not_mem_nil)
  | listed descs =>
    have hbare : planOf s.point = none := by rw [hpoint]; rfl
    rw [hpoint] at hstep
    dsimp only at hstep
    split at hstep
    · obtain rfl := Option.some.inj hstep
      exact h.point_bare hbare rfl trivial
    · cases hstep
      exact h.point_bare hbare rfl trivial
    · rename_i m hload
      split at hstep
      · cases hstep
        exact h.point_bare hbare rfl trivial
      · cases hstep
        exact h.point_bare hbare rfl trivial
      · rename_i plan hplan
        cases hstep
        have hp := h.plan hexact hpoint hok hload hplan
        obtain ⟨live, hl⟩ := h.lists
        rw [(outs_bare hbare).1, (outs_bare hbare).2] at hl
        refine ⟨h.shard, h.sound.stay fun _ _ _ _ ho => ho, fun p hp' => ?_, ⟨live, ?_⟩, rfl⟩
        · cases hp'
          exact ⟨descs, hp.stay h.sound (fun _ _ _ _ ho => ho) le_rfl⟩
        · exact hl.stay (fun _ _ _ _ ho => ho) rfl
  | staging plan staged todo =>
    rw [hpoint] at hstep
    cases todo with
    | nil =>
      cases hstep
      exact h.retire hpoint
    | cons o todo =>
      cases hstep
      unfold StepOk at hok
      rw [hpoint] at hok
      exact h.stage hpoint hok
  | naming plan staged o todo =>
    rw [hpoint] at hstep
    cases hstep
    exact h.name hpoint
  | done plan =>
    rw [hpoint] at hstep
    cases hstep

theorem inv_next (hexact : ∀ shard objs, (c.service shard objs).ExactRedo) (s : Merging)
    (l : MergeStep) (s' : Merging) (h : Inv c wal s) (hok : StepOk c s l)
    (hstep : s.next c wal l = some s') : Inv c wal s' := by
  cases l with
  | pass => exact h.pass (hexact _ _) hok hstep
  | flush entries upto => exact h.flush hok hstep
  | advance lsn => exact h.advance hstep

/-- A merge of a shard about to start: the manifest lists the reference. -/
structure Start (c : Compactor) (wal : LayerKey → Lsn → List UInt8) (s : Merging) : Prop where
  point : s.point = .start
  shard : s.shard < s.manifest.shards
  listed : PageShardManifest.descs s.own.layers = .ok s.reference
  sound : Sound c wal s

theorem Start.inv (h : Start c wal s) : Inv c wal s := by
  refine ⟨h.shard, h.sound, fun plan hplan => ?_, ⟨s.reference, ?_⟩, ?_⟩
  · rw [h.point] at hplan
    cases hplan
  · rw [h.point]
    exact ⟨h.listed, fun d hd => .inl hd, fun d hd => .inl hd, nofun,
      nofun⟩
  · rw [h.point]
    trivial

theorem Inv.retired_ok (h : Inv c wal s) {plan : Compactor.MergePlan}
    (hplan : planOf s.point = some plan) : ∀ n ∈ retired s.point, n ∈ plan.retire
      ∧ (∀ o ∈ plan.outputs, o ∈ outs s.point) ∧ plan.horizon ≤ s.own.horizon.getD 0 := by
  intro n hn
  have hpoint := h.point
  cases hpt : s.point with
  | done p =>
    rw [hpt] at hplan hn hpoint
    cases p with
    | none => cases hplan
    | some p =>
      cases hplan
      exact ⟨hn, fun o ho => ho, hpoint (List.ne_nil_of_mem hn)⟩
  | _ =>
    rw [hpt] at hn
    cases hn

theorem Inv.live_built (h : Inv c wal s) {live : List LayerDesc}
    (hl : Lists c s (outs s.point) (retired s.point) live) :
    (∀ d ∈ live, d.Built (s.env c) c.codec.stored)
      ∧ ∀ x ∈ live, ∀ y ∈ live, x.name = y.name → (s.env c).fetch x = (s.env c).fetch y := by
  refine ⟨fun d hd => ?_, fun x hx y hy hname => ?_⟩
  · rcases hl.source d hd with hmem | ⟨o, ho, rfl⟩
    · exact h.sound.built d hmem
    · exact h.outs_built o ho
  · cases hplan : planOf s.point with
    | none =>
      rw [(outs_bare hplan).1] at hl
      have hmem : ∀ d ∈ live, d ∈ s.reference := fun d hd =>
        (hl.source d hd).resolve_right fun ⟨o, ho, _⟩ => by cases ho
      rw [h.sound.names x (hmem x hx) y (hmem y hy) hname]
    | some plan =>
      obtain ⟨descs, hp⟩ := h.plans plan hplan
      have hown : ∀ d ∈ live, d.home = none ∧ d.owner = none := by
        intro d hd
        rcases hl.source d hd with hmem | ⟨o, -, rfl⟩
        · exact ⟨(h.sound.own d hmem).1, hp.owned d hmem⟩
        · exact ⟨rfl, rfl⟩
      exact Compactor.fetch_of_name (hown x hx) (hown y hy) hname

theorem Inv.agree (h : Inv c wal s) {live : List LayerDesc}
    (hl : Lists c s (outs s.point) (retired s.point) live) {key : LayerKey} {lsn : Lsn}
    (hlsn : s.own.horizon.getD 0 ≤ lsn) (hkeep : c.keep s.shard s.manifest key = true)
    {x x' : Reading (List UInt8) (List UInt8)} (hx : Found (viewOf (s.env c) s.reference key lsn) x)
    (hx' : Found (viewOf (s.env c) live key lsn) x') :
    x.eval (s.answer c key) = x'.eval (s.answer c key) := by
  cases hplan : planOf s.point with
  | some plan =>
    obtain ⟨descs, hp⟩ := h.plans plan hplan
    refine hl.agree hp h.sound (outs_planned h.point hplan) (fun n hn => ?_) hkeep hx hx'
    obtain ⟨h1, h2, h3⟩ := h.retired_ok hplan n hn
    exact ⟨h1, h2, Nat.le_trans h3 hlsn⟩
  | none =>
    -- The merge has committed nothing.
    rw [(outs_bare hplan).1, (outs_bare hplan).2] at hl
    have hmem : ∀ d, d ∈ live ↔ d ∈ s.reference := fun d =>
      ⟨fun hd => (hl.source d hd).resolve_right fun ⟨o, ho, _⟩ => (by cases ho),
        fun hd => (hl.kept d hd).resolve_right List.not_mem_nil⟩
    have hview : viewOf (s.env c) live key lsn = viewOf (s.env c) s.reference key lsn := by
      unfold viewOf
      simp only [hmem]
    rw [hview] at hx'
    exact eval_congr hx hx' (h.sound.agrees key lsn fun d hd => hd)
      (fun b p hp => ⟨p, hp, fun _ => rfl⟩) (fun b p hp => ⟨p, hp, fun _ => rfl⟩)
      fun _ _ _ => .rfl

/-- A read of a key through some layers, from cold caches, and nothing where
it fails. -/
def read (c : Compactor) (s : Merging) (ds : List LayerDesc) (key : LayerKey) (lsn : Lsn) :
    Option Answer :=
  match LayerMap.new ds with
  | .error _ => none
  | .ok map =>
    match (exec ((s.env c).reconstruct map Memtable.new key lsn)
        ⟨[], BlockCache.new c.blockBudget⟩).1 with
    | .error _ => none
    | .ok r => some (s.answer c key r.base r.records)

theorem read_found {ds : List LayerDesc} (hbuilt : ∀ d ∈ ds, d.Built (s.env c) c.codec.stored)
    (hsame : ∀ x ∈ ds, ∀ y ∈ ds, x.name = y.name → (s.env c).fetch x = (s.env c).fetch y)
    (key : LayerKey) (lsn : Lsn) : ∃ x, Found (viewOf (s.env c) ds key lsn) x
      ∧ s.read c ds key lsn = some (x.eval (s.answer c key)) := by
  obtain ⟨map, hmap, I, hI, hread⟩ := reconstruct_finds c.codec.stored_pos hbuilt hsame
  obtain ⟨r, rd, hr, -, hx, hbase⟩ := hread key lsn _ (hI c.blockBudget)
  refine ⟨r.reading, hx, ?_⟩
  unfold read Reading.eval
  rw [hmap]
  dsimp only
  rw [hr, hbase]
  rfl

/-- In every run whose steps meet the condition, whatever is flushed
between the steps of the merge: every record above the horizon of a layer
that was there before or was flushed since is in a live layer, and a read
of a key of the shard at or above the horizon is answered alike by the
live layers and by those. -/
theorem merge_keeps_reads {s₀ s : Merging} {ls : List MergeStep} (hstart : Start c wal s₀)
    (hexact : (c.service s₀.shard s₀.objs).ExactRedo)
    (hok : Trace.Meets (next c wal) (StepOk c) s₀ ls)
    (hrun : Trace.run (next c wal) s₀ ls = some s) :
    ∃ live, PageShardManifest.descs s.own.layers = .ok live
      ∧ (∀ d ∈ s.reference, ∀ key l r, HasRecord (s.env c) d key l r → s.own.horizon.getD 0 < l →
          ∃ d' ∈ live, HasRecord (s.env c) d' key l r)
      ∧ ∀ key lsn, c.keep s.shard s.manifest key = true → s.own.horizon.getD 0 ≤ lsn →
          ∃ a, s.read c s.reference key lsn = some a ∧ s.read c live key lsn = some a := by
  have hexact' : ∀ shard objs, (c.service shard objs).ExactRedo := fun _ _ =>
    ⟨hexact.resumes, hexact.unstamped, hexact.restamped⟩
  have h : Inv c wal s := Trace.guarded_invariant (inv_next hexact') hstart.inv hok hrun
  obtain ⟨live, hl⟩ := h.lists
  refine ⟨live, hl.listed, fun d hd key l r hr hlt => ?_, fun key lsn hkeep hlsn => ?_⟩
  · rcases hl.kept d hd with hmem | hn
    · exact ⟨d, hmem, hr⟩
    · cases hplan : planOf s.point with
      | none =>
        rw [(outs_bare hplan).2] at hn
        cases hn
      | some plan =>
        obtain ⟨descs, hp⟩ := h.plans plan hplan
        obtain ⟨hret, -, hle⟩ := h.retired_ok hplan _ hn
        obtain ⟨-, hmax, -⟩ := hp.of_retired h.sound hd hret
        obtain ⟨-, -, -, -, hhi, -⟩ := (h.sound.built d hd).record c.codec.stored_pos hr
        exact absurd (Nat.le_trans hhi (Nat.le_trans hmax hle)) (Nat.not_le.mpr hlt)
  · obtain ⟨hbuilt, hsame⟩ := h.live_built hl
    obtain ⟨x, hx, hread⟩ := read_found h.sound.built (fun x hx y hy hname => by
      rw [h.sound.names x hx y hy hname]) key lsn
    obtain ⟨x', hx', hread'⟩ := read_found hbuilt hsame key lsn
    exact ⟨_, hread, by rw [hread', h.agree hl hlsn hkeep hx hx']⟩

open PageServer (plainCodec)

/-! ### A run that meets the condition, and one that does not -/

def sizeKey : LayerKey := LayerKey.relsize 1 2 3 0

/-- A log that sets a fork to as many blocks as the position says. -/
def sizeLog (_ : LayerKey) (l : Lsn) : List UInt8 := (SizeRec.set l).encode

def sampleCompactor : Compactor :=
  ⟨"t", plainCodec, fun _ => 0, none, fun _ p => p, fun _ => none, fun _ _ => false,
    fun _ => false, 100⟩

def sizeDelta : LayerObj := Serving.sampleDelta [⟨sizeKey, 2, sizeLog sizeKey 2⟩]

/-- A shard flushed up to 4, with one layer. -/
def oneLayer : Merging :=
  ⟨[(.manifest 0, .shard ⟨1, 0, 4, [sizeDelta.entry], none, none⟩),
      (.layer "t" 0 sizeDelta.name, .layer sizeDelta)],
    Manifest.new "t" 17, 0, 100, .start, [sizeDelta.desc]⟩

theorem sampleCompactor_exact (shard : Nat) (objs : List (ShardKey × ShardObj)) :
    (sampleCompactor.service shard objs).ExactRedo :=
  ⟨nofun, nofun, fun _ _ => rfl⟩

theorem oneLayer_start : Start sampleCompactor sizeLog oneLayer := by
  have hbuild : buildDelta plainCodec.stored plainCodec.crc [⟨sizeKey, 2, sizeLog sizeKey 2⟩]
      plainCodec.target = .ok sizeDelta := by
    decide +kernel
  have hobj : get oneLayer.objs (.layer "t" 0 sizeDelta.name) = some (.layer sizeDelta) := by
    decide +kernel
  have hbuilt : sizeDelta.desc.Built (oneLayer.env sampleCompactor) plainCodec.stored :=
    built_desc (.delta [⟨sizeKey, 2, sizeLog sizeKey 2⟩]) plainCodec.target_le hbuild hobj
  have hrec : ∀ key l r, HasRecord (oneLayer.env sampleCompactor) sizeDelta.desc key l r →
      key = sizeKey ∧ l = 2 ∧ r = sizeLog sizeKey 2 := by
    intro key l r hr
    have hmem := List.mem_singleton.mp
      ((hasRecord_desc plainCodec.stored_pos plainCodec.target_le hbuild hobj).mp hr)
    cases hmem
    exact ⟨rfl, rfl, rfl⟩
  have hno : ∀ key p, ¬ HasPage (oneLayer.env sampleCompactor) sizeDelta.desc key p := by
    intro key p hp
    have hkind := (hbuilt.page plainCodec.stored_pos hp).1
    have hdelta : sizeDelta.desc.kind = .delta := by decide +kernel
    rw [hdelta] at hkind
    cases hkind
  refine ⟨rfl, by decide, by decide +kernel, fun d hd => ?_, fun d hd key l r hr => ?_,
    fun d hd key hk hkind => ?_, fun d hd d' hd' key p p' hp => ?_, fun d hd => ?_,
    fun d hd d' hd' _ => ?_⟩
  · cases List.mem_singleton.mp hd
    exact hbuilt
  · cases List.mem_singleton.mp hd
    obtain ⟨rfl, rfl, rfl⟩ := hrec key l r hr
    rfl
  · cases List.mem_singleton.mp hd
    rcases hk with ⟨p, hp⟩ | ⟨l, r, hr⟩
    · exact absurd hp (hno key p)
    · obtain ⟨rfl, -⟩ := hrec key l r hr
      rfl
  · cases List.mem_singleton.mp hd
    exact absurd hp (hno key p)
  · cases List.mem_singleton.mp hd
    exact ⟨rfl, fun _ => rfl⟩
  · rw [List.mem_singleton.mp hd, List.mem_singleton.mp hd']

/-- A flush after the merge has its cut. -/
theorem merge_keeps_reads_late_flush :
    ∃ s live, Trace.run (next sampleCompactor sizeLog) oneLayer
        [.pass, .pass, .flush [⟨sizeKey, 5, sizeLog sizeKey 5⟩] 8, .pass, .pass, .pass] = some s
      ∧ PageShardManifest.descs s.own.layers = .ok live
      ∧ ∃ a, s.read sampleCompactor s.reference sizeKey 7 = some a
        ∧ s.read sampleCompactor live sizeKey 7 = some a := by
  have hrun : (Trace.run (next sampleCompactor sizeLog) oneLayer
      [.pass, .pass, .flush [⟨sizeKey, 5, sizeLog sizeKey 5⟩] 8, .pass, .pass, .pass]).any
        (fun s => decide (s.own.horizon = some 3
          ∧ sampleCompactor.keep s.shard s.manifest sizeKey = true)) = true := by
    decide +kernel
  obtain ⟨s, hs, hproj⟩ := (Option.any_eq_true _ _).mp hrun
  rw [decide_eq_true_eq] at hproj
  obtain ⟨hhorizon, hkeep⟩ := hproj
  obtain ⟨live, hlive, -, hread⟩ := merge_keeps_reads oneLayer_start (sampleCompactor_exact _ _)
    (by decide +kernel) hs
  exact ⟨s, live, hs, hlive, hread sizeKey 7 hkeep (by rw [hhorizon]; decide)⟩

/-- A flush between the merge's load of its layers and its load of the
flush point: the merge stamps an image at a cut above the flushed record,
which it has not seen, and reads at the new horizon miss the record. -/
theorem early_flush_lost :
    Start sampleCompactor sizeLog oneLayer
      ∧ (sampleCompactor.service oneLayer.shard oneLayer.objs).ExactRedo
      ∧ ∃ s live, Trace.run (next sampleCompactor sizeLog) oneLayer
          [.pass, .flush [⟨sizeKey, 5, sizeLog sizeKey 5⟩] 8, .pass, .pass, .pass, .pass] = some s
        ∧ PageShardManifest.descs s.own.layers = .ok live
        ∧ sampleCompactor.keep s.shard s.manifest sizeKey = true ∧ s.own.horizon = some 7
        ∧ s.read sampleCompactor s.reference sizeKey 7 = some (.size (.ok (some 5)))
        ∧ s.read sampleCompactor live sizeKey 7 = some (.size (.ok (some 2))) := by
  refine ⟨oneLayer_start, sampleCompactor_exact _ _, ?_⟩
  have hrun : (Trace.run (next sampleCompactor sizeLog) oneLayer
      [.pass, .flush [⟨sizeKey, 5, sizeLog sizeKey 5⟩] 8, .pass, .pass, .pass, .pass]).any
        (fun s => decide (sampleCompactor.keep s.shard s.manifest sizeKey = true
          ∧ s.own.horizon = some 7
          ∧ s.read sampleCompactor s.reference sizeKey 7 = some (.size (.ok (some 5)))
          ∧ (PageShardManifest.descs s.own.layers).toOption.any (fun live =>
              decide (s.read sampleCompactor live sizeKey 7 = some (.size (.ok (some 2))))) = true))
        = true := by
    decide +kernel
  obtain ⟨s, hs, hproj⟩ := (Option.any_eq_true _ _).mp hrun
  rw [decide_eq_true_eq] at hproj
  obtain ⟨hkeep, hhorizon, href, hlive⟩ := hproj
  obtain ⟨live, hl, hread⟩ := (Option.any_eq_true _ _).mp hlive
  rw [decide_eq_true_eq] at hread
  have hdescs : PageShardManifest.descs s.own.layers = .ok live := by
    cases hd : PageShardManifest.descs s.own.layers with
    | error e =>
      rw [hd] at hl
      cases hl
    | ok l =>
      rw [hd] at hl
      cases hl
      rfl
  exact ⟨s, live, hs, hdescs, hkeep, hhorizon, href, hread⟩

end Merging

end Zou
