import Zou.BranchSafety
import Zou.PageReadSpec
import Zou.Site

/-!
# A branch reads what its parent read

A child's shard manifests hold its parent's layers under their owners,
with a cut. What a cut layer holds at a read point is what the layer holds
at the smaller of the read point and the cut, and cuts of cuts are one
cut, so a child at any read point is its parent at the branch point or
below, through any number of branches. Steps of other tenants write
neither the child's documents nor over a layer that is there.

A child does not inherit its parent's coverage claims. Where one of them
keeps an ancestor shard's layers out of the parent's reads, the child
reads them.
-/

namespace Zou

open Store Total

/-! ## Cutting a layer -/

/-- What a child inherits of a layer. -/
def LayerDesc.cut (src : String) (at_ : Lsn) (d : LayerDesc) : Option LayerDesc :=
  if d.minLsn > at_ then none
  else some { d with
    owner := inherit src d.owner
    upto := if d.maxLsn > at_ ∨ d.upto.isSome then some (d.upto.elim at_ (min · at_)) else d.upto }

section Cut

variable {src src' : String} {at_ at' : Lsn} {e : LayerEntry}

theorem desc_inherit (src : String) (at_ : Lsn) {d : LayerDesc} (h : e.desc = .ok d) :
    (inheritLayer src at_ e = .ok none ∧ d.cut src at_ = none)
      ∨ ∃ e' d', inheritLayer src at_ e = .ok (some e') ∧ e'.desc = .ok d'
          ∧ d.cut src at_ = some d' := by
  unfold LayerEntry.desc at h
  cases hp : LayerDesc.parse e.name e.size with
  | error x =>
    rw [hp] at h
    cases h
  | ok d₀ =>
    rw [hp] at h
    obtain rfl : { d₀ with owner := e.owner, upto := e.upto } = d := Except.ok.inj h
    by_cases hpast : d₀.minLsn > at_
    · left
      refine ⟨?_, if_pos hpast⟩
      rw [inheritLayer, hp]
      exact congrArg Except.ok (if_pos hpast)
    · right
      refine ⟨{ e with
          owner := inherit src e.owner
          upto := if d₀.maxLsn > at_ ∨ e.upto.isSome then some (e.upto.elim at_ (min · at_))
            else e.upto }, _, ?_, ?_, if_neg hpast⟩
      · rw [inheritLayer, hp]
        exact congrArg Except.ok (if_neg hpast)
      · rw [LayerEntry.desc, hp]
        rfl

theorem inherit_parse {o : Option LayerEntry}
    (h : inheritLayer src at_ e = .ok o) : ∃ d, e.desc = .ok d := by
  unfold inheritLayer at h
  cases hp : LayerDesc.parse e.name e.size with
  | error x =>
    rw [hp] at h
    cases h
  | ok d₀ =>
    refine ⟨{ d₀ with owner := e.owner, upto := e.upto }, ?_⟩
    rw [LayerEntry.desc, hp]
    rfl

theorem descs_cons_of {es : List LayerEntry} {d : LayerDesc} {ds : List LayerDesc}
    (h : e.desc = .ok d) (hs : PageShardManifest.descs es = .ok ds) :
    PageShardManifest.descs (e :: es) = .ok (d :: ds) := by
  unfold PageShardManifest.descs
  rw [h, hs]

theorem descs_mapM : ∀ {es : List LayerEntry} {os : List (Option LayerEntry)},
    es.mapM (inheritLayer src at_) = .ok os →
      ∃ ds, PageShardManifest.descs es = .ok ds
        ∧ PageShardManifest.descs (os.filterMap id) = .ok (ds.filterMap (LayerDesc.cut src at_)) := by
  intro es
  induction es with
  | nil =>
    intro os h
    cases h
    exact ⟨[], rfl, rfl⟩
  | cons e es ih =>
    intro os h
    rw [List.mapM_cons] at h
    cases ho : inheritLayer src at_ e with
    | error x =>
      rw [ho] at h
      cases h
    | ok o =>
      rw [ho] at h
      cases hrest : es.mapM (inheritLayer src at_) with
      | error x =>
        rw [hrest] at h
        cases h
      | ok os' =>
        rw [hrest] at h
        cases h
        obtain ⟨ds, hds, hcut⟩ := ih hrest
        obtain ⟨d, hd⟩ := inherit_parse ho
        refine ⟨d :: ds, descs_cons_of hd hds, ?_⟩
        rcases desc_inherit src at_ hd with ⟨hi, hnone⟩ | ⟨e', d', hi, hd', hsome⟩
        · obtain rfl : none = o := Except.ok.inj (hi.symm.trans ho)
          rw [List.filterMap_cons_none hnone]
          exact hcut
        · obtain rfl : some e' = o := Except.ok.inj (hi.symm.trans ho)
          rw [List.filterMap_cons_some hsome]
          exact descs_cons_of hd' hcut

theorem cutShard_ok {parent child : PageShardManifest} (h : cutShard src at_ parent = .ok child) :
    child.shard = parent.shard ∧ child.covers = none ∧ child.format = pageShardFormat
      ∧ ∃ ds, PageShardManifest.descs parent.layers = .ok ds
        ∧ PageShardManifest.descs child.layers = .ok (ds.filterMap (LayerDesc.cut src at_)) := by
  unfold cutShard at h
  cases hm : parent.layers.mapM (inheritLayer src at_) with
  | error x =>
    rw [hm] at h
    cases h
  | ok os =>
    rw [hm] at h
    cases h
    exact ⟨rfl, rfl, rfl, descs_mapM hm⟩

theorem cut_cut (d : LayerDesc) :
    (d.cut src at_).bind (LayerDesc.cut src' at') = d.cut src (min at_ at') := by
  unfold LayerDesc.cut
  by_cases h1 : d.minLsn > at_
  · have h2 : d.minLsn > min at_ at' := lt_of_le_of_lt (min_le_left _ _) h1
    rw [if_pos h1, if_pos h2]
    rfl
  · rw [if_neg h1, Option.bind_some]
    by_cases h2 : d.minLsn > at'
    · have h3 : d.minLsn > min at_ at' := lt_of_le_of_lt (min_le_right _ _) h2
      rw [if_pos h2, if_pos h3]
    · have h3 : ¬ d.minLsn > min at_ at' := not_lt.mpr (le_min (not_lt.mp h1) (not_lt.mp h2))
      rw [if_neg h2, if_neg h3]
      congr 2
      cases hu : d.upto with
      | some u => simp [min_assoc]
      | none =>
        by_cases h4 : d.maxLsn > at_
        · have h5 : d.maxLsn > min at_ at' := lt_of_le_of_lt (min_le_left _ _) h4
          simp [h4, h5]
        · by_cases h5 : d.maxLsn > at'
          · have h6 : d.maxLsn > min at_ at' := lt_of_le_of_lt (min_le_right _ _) h5
            have h7 : min at_ at' = at' := min_eq_right (le_trans (le_of_lt h5) (not_lt.mp h4))
            simp [h4, h5, h7]
          · have h6 : ¬ d.maxLsn > min at_ at' :=
              not_lt.mpr (le_min (not_lt.mp h4) (not_lt.mp h5))
            simp [h4, h5, h6]

theorem filterMap_cut (ds : List LayerDesc) :
    (ds.filterMap (LayerDesc.cut src at_)).filterMap (LayerDesc.cut src' at')
      = ds.filterMap (LayerDesc.cut src (min at_ at')) := by
  rw [List.filterMap_filterMap]
  congr 1
  funext d
  exact cut_cut d

end Cut

/-! ## A branch that returns -/

section Branch

variable {B : Type} {c : Codec B} {src dst : String} {at_ : Lsn} {w w' : World Key B}

theorem copyShards_cons_ok {n : Nat} {ns : List Nat}
    (h : copyShards c src dst at_ (n :: ns) w = (.ok (), w')) :
    ∃ w₁, copyShards c src dst at_ ns w₁ = (.ok (), w')
      ∧ ((copyOf c w.objs src at_ n = .ok none ∧ w₁.objs = w.objs)
        ∨ ∃ p, copyOf c w.objs src at_ n = .ok (some p)
            ∧ w₁.objs = copyWrite c dst p :: w.objs) := by
  obtain ⟨r, w₁, hload, hrest⟩ := Prog.of_bind_ok h
  obtain ⟨w₂, hobjs, ⟨r', hr, hload'⟩ | ⟨e, herr⟩⟩ := loadShard_cases c src n w
  · rw [hload'] at hload
    cases hload
    cases r with
    | none => exact ⟨w₁, hrest, .inl ⟨by simp only [copyOf, hr], hobjs⟩⟩
    | some parent =>
      obtain ⟨child, w₃, hlift, hput⟩ := Prog.of_bind_ok hrest
      obtain ⟨u, w₄, hput, hrest⟩ := Prog.of_bind_ok hput
      cases hcut : cutShard src at_ parent with
      | error e =>
        rw [hcut] at hlift
        cases hlift
      | ok child' =>
        rw [hcut] at hlift
        cases hlift
        refine ⟨w₄, hrest, .inr ⟨(parent.shard, child), by simp only [copyOf, hr, hcut], ?_⟩⟩
        obtain ⟨w₅, ⟨hok, hw⟩ | ⟨hbad, -⟩⟩ := put_cases BranchError.store
          (.shard dst parent.shard) (c.encode child) w₁
        · rw [hok] at hput
          cases hput
          rw [hw, hobjs]
          rfl
        · rw [hbad] at hput
          cases hput
  · rw [herr] at hload
    cases hload

variable {objs : List (Key × B)}

/-- What a second pass that returns leaves: a copy of every shard it was
given, and nothing else. -/
theorem copyShards_ok (hnamed : ShardsNamed c objs src) :
    ∀ {ns : List Nat} {w w' : World Key B}, ns.Nodup →
      (∀ n ∈ ns, get w.objs (.shard src n) = get objs (.shard src n)) →
      copyShards c src dst at_ ns w = (.ok (), w') →
      (∀ n ∈ ns, (copyOf c objs src at_ n = .ok none
          ∧ get w'.objs (.shard dst n) = get w.objs (.shard dst n))
        ∨ ∃ p, copyOf c objs src at_ n = .ok (some p)
          ∧ get w'.objs (.shard dst n) = some (c.encode p.2))
      ∧ ∀ k, (∀ n ∈ ns, k ≠ .shard dst n) → get w'.objs k = get w.objs k := by
  intro ns
  induction ns with
  | nil =>
    intro w w' _ _ h
    cases h
    exact ⟨nofun, fun k _ => rfl⟩
  | cons n ns ih =>
    intro w w' hnd hsame h
    obtain ⟨hn, hnd'⟩ := List.nodup_cons.mp hnd
    have hsame₀ := hsame n List.mem_cons_self
    obtain ⟨w₁, hrest, hturn⟩ := copyShards_cons_ok h
    rw [copyOf_congr hsame₀] at hturn
    -- What the turn did to any other key.
    have hother : ∀ k, k ≠ .shard dst n → get w₁.objs k = get w.objs k := by
      intro k hk
      rcases hturn with ⟨-, hobjs⟩ | ⟨p, hp, hobjs⟩
      · rw [hobjs]
      · have hkey : k ≠ .shard dst p.1 := by rwa [copyOf_fst hnamed hp]
        rw [hobjs]
        exact get_cons_ne hkey
    have hsame' : ∀ n' ∈ ns, get w₁.objs (.shard src n') = get objs (.shard src n') := by
      intro n' hn'
      have hne : n' ≠ n := fun heq => hn (heq ▸ hn')
      rw [hother _ fun h => hne (by injection h)]
      exact hsame n' (.tail _ hn')
    obtain ⟨hcopies, hkeep⟩ := ih hnd' hsame' hrest
    have hfirst : get w'.objs (.shard dst n) = get w₁.objs (.shard dst n) := by
      refine hkeep _ fun n' hn' heq => ?_
      injection heq with _ heq
      exact hn (heq ▸ hn')
    refine ⟨fun n' hn' => ?_, fun k hk => ?_⟩
    · rcases List.mem_cons.mp hn' with rfl | hn'
      · rcases hturn with ⟨hnone, hobjs⟩ | ⟨p, hp, hobjs⟩
        · exact .inl ⟨hnone, by rw [hfirst, hobjs]⟩
        · refine .inr ⟨p, hp, ?_⟩
          rw [hfirst, hobjs, ← copyOf_fst hnamed hp]
          exact get_cons_self ..
      · have hne : n' ≠ n := fun heq => hn (heq ▸ hn')
        have hn₁ : get w₁.objs (.shard dst n') = get w.objs (.shard dst n') :=
          hother _ fun h => hne (by injection h)
        rw [← hn₁]
        exact hcopies n' hn'
    · rw [hkeep k fun n' hn' => hk n' (.tail _ hn')]
      exact hother k (hk n List.mem_cons_self)

theorem mem_of_get {k : Key} {b : B} (h : get objs k = some b) : (k, b) ∈ objs := by
  obtain ⟨l₁, l₂, heq, -⟩ := List.lookup_eq_some_iff.mp h
  rw [heq]
  exact List.mem_append_right _ List.mem_cons_self

theorem mem_shardKeys {n : Nat} {shards : Nat}
    (h : get objs (.shard src n) ≠ none) : n ∈ shardKeys src shards objs := by
  obtain ⟨b, hb⟩ := Option.ne_none_iff_exists'.mp h
  unfold shardKeys
  rw [List.mem_insertionSort, List.mem_dedup]
  refine List.mem_append_left _ (List.mem_filterMap.mpr ⟨(.shard src n, b), mem_of_get hb, ?_⟩)
  simp

/-- What a branch that returns found and left: the parent's manifest, an
unused name, and under it the child's manifest and the cut copies. -/
structure Branched (c : Codec B) (src dst : String) (atLsn : Option Lsn) (now : Nat)
    (child : Manifest) (objs objs' : List (Key × B)) : Prop where
  parent : ∃ data parent, get objs (.manifest src) = some data ∧ c.fromJson data = .ok parent
    ∧ childOf parent src dst atLsn now = .ok child
  unused : get objs (.manifest dst) = none
  manifest : get objs' (.manifest dst) = some (c.toJson child)
  copies : ∀ n, (copyOf c objs src (branchPoint child) n = .ok none
      ∧ get objs' (.shard dst n) = get objs (.shard dst n))
    ∨ ∃ p, copyOf c objs src (branchPoint child) n = .ok (some p)
      ∧ get objs' (.shard dst n) = some (c.encode p.2)
  others : ∀ k, k.tenant ≠ dst → get objs' k = get objs k

theorem currentManifest_ok {parent : Manifest} (h : currentManifest c src w = (.ok parent, w')) :
    ∃ data, get w.objs (.manifest src) = some data ∧ c.fromJson data = .ok parent
      ∧ w'.objs = w.objs := by
  obtain ⟨data?, w₁, hget, hjson⟩ := Prog.of_bind_ok h
  obtain ⟨rfl, hobjs⟩ := of_read_ok hget
  cases hdata : get w.objs (.manifest src) with
  | none =>
    rw [hdata] at hjson
    cases hjson
  | some data =>
    rw [hdata] at hjson
    have hjson : (Prog.lift ((c.fromJson data).mapError .manifest) : BranchM B Manifest) w₁
        = (.ok parent, w') := hjson
    refine ⟨data, rfl, ?_⟩
    cases hfrom : c.fromJson data with
    | error e =>
      rw [hfrom] at hjson
      cases hjson
    | ok parent' =>
      rw [hfrom] at hjson
      cases hjson
      exact ⟨rfl, hobjs⟩

theorem branchShards_ok {shards : Nat} (hnamed : ShardsNamed c w.objs src)
    (h : branchShards c src dst at_ shards w = (.ok (), w')) :
    (∀ n, (copyOf c w.objs src at_ n = .ok none
        ∧ get w'.objs (.shard dst n) = get w.objs (.shard dst n))
      ∨ ∃ p, copyOf c w.objs src at_ n = .ok (some p)
        ∧ get w'.objs (.shard dst n) = some (c.encode p.2))
    ∧ ∀ k, (∀ n, k ≠ .shard dst n) → get w'.objs k = get w.objs k := by
  obtain ⟨keys, w₁, hlist, hrest⟩ := Prog.of_bind_ok h
  obtain ⟨rfl, hobjs₁⟩ := of_read_ok hlist
  obtain ⟨u, w₂, hcheck, hcopy⟩ := Prog.of_bind_ok hrest
  have hobjs₂ : w₂.objs = w.objs := by
    have hro := (checkHorizons_readOnly c src at_ (shardKeys src shards w.objs)).objs w₁
    rw [hcheck] at hro
    exact hro.trans hobjs₁
  obtain ⟨hcopies, hkeep⟩ := copyShards_ok hnamed (shardKeys_nodup src shards w.objs)
    (fun n _ => by rw [hobjs₂]) hcopy
  rw [hobjs₂] at hcopies hkeep
  refine ⟨fun n => ?_, fun k hk => hkeep k fun n _ => hk n⟩
  by_cases hmem : n ∈ shardKeys src shards w.objs
  · exact hcopies n hmem
  · have habsent : get w.objs (.shard src n) = none := by
      by_contra hne
      exact hmem (mem_shardKeys hne)
    refine .inl ⟨by simp only [copyOf, shardAt, habsent], hkeep _ fun n' hn' heq => ?_⟩
    injection heq with _ heq
    exact hmem (heq ▸ hn')

theorem branch_ok {atLsn : Option Lsn} {now : Nat} {child : Manifest}
    (hnamed : ShardsNamed c w.objs src) (h : branch c src dst atLsn now w = (.ok child, w')) :
    Branched c src dst atLsn now child w.objs w'.objs := by
  obtain ⟨parent, w₁, hcur, hland⟩ := Prog.of_bind_ok h
  obtain ⟨data, hdata, hfrom, hobjs₁⟩ := currentManifest_ok hcur
  obtain ⟨child', w₂, hchild, hbody⟩ := Prog.of_bind_ok hland
  cases hof : childOf parent src dst atLsn now with
  | error e =>
    rw [hof] at hchild
    cases hchild
  | ok child'' =>
    rw [hof] at hchild
    cases hchild
    obtain ⟨u, w₃, hshards, hrest⟩ := Prog.of_bind_ok hbody
    obtain ⟨u', w₄, hpub, hret⟩ := Prog.of_bind_ok hrest
    cases hret
    obtain ⟨hcopies, hkeep⟩ := branchShards_ok (hobjs₁ ▸ hnamed) hshards
    rw [hobjs₁] at hcopies hkeep
    obtain ⟨hnone, hobjs'⟩ := of_putIfAbsent_ok hpub
    rw [hkeep _ fun n h => by cases h] at hnone
    refine ⟨⟨data, parent, hdata, hfrom, hof⟩, hnone, ?_, fun n => ?_, fun k hk => ?_⟩
    · rw [hobjs']
      exact get_cons_self ..
    · have hn : get w'.objs (.shard dst n) = get w₃.objs (.shard dst n) := by
        rw [hobjs']
        exact get_cons_ne nofun
      rw [hn]
      exact hcopies n
    · rw [hobjs', get_cons_ne fun h => hk (by rw [h]; rfl)]
      exact hkeep k fun n h => hk (by rw [h]; rfl)

end Branch

/-! ## Descent -/

section Descent

variable {B : Type} {c : Codec B}

/-- What the json library promises of documents it wrote. -/
structure Codec.Lawful (c : Codec B) : Prop where
  shard : ∀ m, c.parseShard (c.encode m) = some m
  peek : ∀ m, c.peek (c.toJson m) = some ⟨m.format, false, false⟩
  parse : ∀ m, c.parse (c.toJson m) = some m
  format : ∀ data p m, c.peek data = some p → c.parse data = some m → p.format = m.format

theorem Codec.Lawful.fromJson_format (hc : c.Lawful) {data : B} {m : Manifest}
    (h : c.fromJson data = .ok m) : m.format ≤ manifestFormat := by
  unfold Codec.fromJson at h
  split at h
  · cases h
  · rename_i p hp
    split at h
    · cases h
    · rename_i hle
      split at h
      · cases h
      · split at h
        · cases h
        · rename_i m' hm
          cases h
          rw [← hc.format data p m hp hm]
          exact not_lt.mp hle

theorem Codec.Lawful.fromJson_toJson (hc : c.Lawful) {m : Manifest}
    (h : m.format ≤ manifestFormat) : c.fromJson (c.toJson m) = .ok m := by
  unfold Codec.fromJson
  rw [hc.peek]
  dsimp only
  rw [if_neg (not_lt.mpr h), if_neg (by simp), hc.parse]

theorem Codec.Lawful.decode_encode (hc : c.Lawful) {m : PageShardManifest}
    (h : m.format = pageShardFormat) : c.decode (c.encode m) = .ok m := by
  unfold Codec.decode
  rw [hc.shard]
  dsimp only
  rw [if_neg (not_lt.mpr h.le)]

theorem of_map_ok {ε α β : Type} {f : α → β} {x : Except ε α} {b : β} (h : x.map f = .ok b) :
    ∃ a, x = .ok a ∧ f a = b := by
  cases x with
  | error e => cases h
  | ok a => exact ⟨a, rfl, Except.ok.inj h⟩

theorem childOf_ok {parent child : Manifest} {src dst : String} {atLsn : Option Lsn} {now : Nat}
    (h : childOf parent src dst atLsn now = .ok child) :
    child.shards = parent.shards ∧ child.shardHistory = parent.shardHistory
      ∧ child.format = max (Manifest.new dst parent.pg.version).format parent.format := by
  unfold childOf at h
  split at h
  · cases h
  · obtain ⟨p, -, rfl⟩ := of_map_ok h
    exact ⟨rfl, rfl, rfl⟩

/-- Nothing is left under the new name of a shard the source does not
have. -/
def Vacant (docs : List (Key × B)) (src dst : String) : Prop :=
  ∀ n, get docs (.shard src n) = none → get docs (.shard dst n) = none

/-- Site `s` is reached from `s₀` with tenant `t` a branch of `t₀`, or a
branch of such a branch, cut at `a`, and no step since that wrote the
documents of `t`. -/
inductive Derived (c : Codec B) (s₀ : Site B) (t₀ : String) : Site B → String → Lsn → Prop
  | branch {dst : String} {atLsn : Option Lsn} {now : Nat} {child : Manifest} {acks : List Store.Ack}
      {w : World Key B} (hnamed : ShardsNamed c s₀.docs t₀) (hvacant : Vacant s₀.docs t₀ dst)
      (h : Zou.branch c t₀ dst atLsn now ⟨s₀.docs, acks⟩ = (.ok child, w)) :
      Derived c s₀ t₀ ⟨w.objs, s₀.layers⟩ dst (branchPoint child)
  | step {s : Site B} {t : String} {a : Lsn} (hd : Derived c s₀ t₀ s t a) (l : SiteStep B)
      (hl : l.writes ≠ some t) : Derived c s₀ t₀ (s.next c l) t a
  | nest {s : Site B} {t dst : String} {a : Lsn} {atLsn : Option Lsn} {now : Nat}
      {child : Manifest} {acks : List Store.Ack} {w : World Key B} (hd : Derived c s₀ t₀ s t a)
      (hnamed : ShardsNamed c s.docs t) (hvacant : Vacant s.docs t dst)
      (h : Zou.branch c t dst atLsn now ⟨s.docs, acks⟩ = (.ok child, w)) :
      Derived c s₀ t₀ ⟨w.objs, s.layers⟩ dst (min a (branchPoint child))

/-- The documents of `t` are those of `t₀`, cut at `a`, and no layer is
gone. -/
structure Carries (c : Codec B) (s₀ : Site B) (t₀ : String) (parent : Manifest) (s : Site B)
    (t : String) (a : Lsn) : Prop where
  manifest : ∃ m, s.manifestAt c t = .ok m ∧ m.format ≤ manifestFormat
    ∧ m.shards = parent.shards ∧ m.shardHistory = parent.shardHistory
  shards : ∀ n, (s₀.loadShardOf c t₀ n = .ok none ∧ s.loadShardOf c t n = .ok none)
    ∨ ∃ m₀ ds m, s₀.loadShardOf c t₀ n = .ok (some m₀)
      ∧ PageShardManifest.descs m₀.layers = .ok ds
      ∧ s.loadShardOf c t n = .ok (some m) ∧ m.covers = none
      ∧ PageShardManifest.descs m.layers = .ok (ds.filterMap (LayerDesc.cut t₀ a))
  layers : ∀ k o, get s₀.layers k = some o → get s.layers k = some o

theorem load_of_copyOf {s : Site B} {t : String} {at_ : Lsn} {n : Nat}
    {o : Option (Nat × PageShardManifest)} (h : copyOf c s.docs t at_ n = .ok o) :
    (o = none ∧ s.loadShardOf c t n = .ok none ∧ get s.docs (.shard t n) = none)
      ∨ ∃ m child, o = some (m.shard, child) ∧ s.loadShardOf c t n = .ok (some m)
          ∧ cutShard t at_ m = .ok child := by
  unfold copyOf shardAt at h
  unfold Site.loadShardOf
  cases hget : get s.docs (.shard t n) with
  | none =>
    rw [hget] at h
    cases h
    exact .inl ⟨rfl, rfl, rfl⟩
  | some data =>
    rw [hget] at h
    dsimp only at h ⊢
    cases hdec : c.decode data with
    | error e =>
      rw [hdec] at h
      cases h
    | ok m =>
      rw [hdec] at h
      dsimp only [Except.mapError, Except.map] at h
      cases hcut : cutShard t at_ m with
      | error e =>
        rw [hcut] at h
        cases h
      | ok child =>
        rw [hcut] at h
        cases h
        exact .inr ⟨m, child, rfl, rfl, hcut⟩

section Steps

variable {s₀ s : Site B} {t₀ t dst : String} {a : Lsn} {parent child : Manifest}
  {atLsn : Option Lsn} {now : Nat} {objs : List (Key × B)}

theorem branched_carries (hc : c.Lawful) (hvacant : Vacant s.docs t dst)
    (hb : Branched c t dst atLsn now child s.docs objs) {m : Manifest}
    (hm : s.manifestAt c t = .ok m) : Carries c s t m ⟨objs, s.layers⟩ dst (branchPoint child) where
  manifest := by
    obtain ⟨data, m', hdata, hfrom, hof⟩ := hb.parent
    have heq : m' = m := by
      rw [Site.manifestAt, hdata] at hm
      dsimp only at hm
      rw [hfrom] at hm
      exact Except.ok.inj hm
    subst heq
    obtain ⟨hsh, hhist, hfmt⟩ := childOf_ok hof
    have hle : child.format ≤ manifestFormat := by
      rw [hfmt]
      exact max_le (Nat.le_of_ble_eq_true rfl) (hc.fromJson_format hfrom)
    refine ⟨child, ?_, hle, hsh, hhist⟩
    rw [Site.manifestAt, hb.manifest]
    dsimp only
    rw [hc.fromJson_toJson hle]
    rfl
  shards := by
    intro n
    rcases hb.copies n with ⟨hcopy, hget⟩ | ⟨p, hcopy, hget⟩
    · obtain ⟨-, hload, hnone⟩ | ⟨m, child, ho, -⟩ := load_of_copyOf hcopy
      · refine .inl ⟨hload, ?_⟩
        rw [Site.loadShardOf, hget, hvacant n hnone]
      · cases ho
    · obtain ⟨ho, -⟩ | ⟨m, child, ho, hload, hcut⟩ := load_of_copyOf hcopy
      · cases ho
      · cases ho
        obtain ⟨-, hcov, hfmt, ds, hds, hds'⟩ := cutShard_ok hcut
        refine .inr ⟨m, ds, child, hload, hds, ?_, hcov, hds'⟩
        rw [Site.loadShardOf, hget]
        dsimp only
        rw [hc.decode_encode hfmt]
        rfl
  layers := fun k o h => h

theorem get_commit_ne {n : Nat} {edit : ShardEdit} {k : Key} (h : k.tenant ≠ t) :
    get (s.commit c t n edit).docs k = get s.docs k := by
  have hne : k ≠ .shard t n := fun heq => h (by rw [heq]; rfl)
  unfold Site.commit
  split
  · rfl
  · split
    · rfl
    · exact get_cons_ne hne

variable {l : SiteStep B}

theorem next_docs (hl : l.writes ≠ some t) {k : Key} (hk : k.tenant = t) :
    get (s.next c l).docs k = get s.docs k := by
  cases l with
  | put u n o =>
    unfold Site.next
    dsimp only
    split <;> rfl
  | commit u n edit => exact get_commit_ne fun h => hl (by rw [← hk, h]; rfl)
  | doc key data => exact get_cons_ne fun h => hl (by rw [← hk, h]; rfl)

theorem next_layers {k : (String × Nat) × LayerName} {o : LayerObj}
    (h : get s.layers k = some o) : get (s.next c l).layers k = some o := by
  cases l with
  | put u n o' =>
    unfold Site.next
    dsimp only
    split
    · exact h
    · rename_i hnone
      have hne : k ≠ ((u, n), o'.name) := by
        rintro rfl
        rw [h] at hnone
        cases hnone
      exact (get_cons_ne hne).trans h
  | commit u n edit =>
    show get (s.commit c u n edit).layers k = some o
    unfold Site.commit
    split
    · exact h
    · split <;> exact h
  | doc key data => exact h

theorem Carries.step (h : Carries c s₀ t₀ parent s t a)
    (hl : l.writes ≠ some t) : Carries c s₀ t₀ parent (s.next c l) t a where
  manifest := by
    obtain ⟨m, hm, hrest⟩ := h.manifest
    refine ⟨m, ?_, hrest⟩
    rw [← hm, Site.manifestAt, Site.manifestAt, next_docs hl rfl]
  shards := by
    intro n
    have hload : (s.next c l).loadShardOf c t n = s.loadShardOf c t n := by
      rw [Site.loadShardOf, Site.loadShardOf, next_docs hl rfl]
    rw [hload]
    exact h.shards n
  layers := fun k o hk => next_layers (h.layers k o hk)

/-- A branch of what carries the parent's documents carries them, cut
again. -/
theorem Carries.nest {a' : Lsn} {m : Manifest} {s' : Site B} (h : Carries c s₀ t₀ parent s t a)
    (hm : s.manifestAt c t = .ok m) (h' : Carries c s t m s' dst a') :
    Carries c s₀ t₀ parent s' dst (min a a') where
  manifest := by
    obtain ⟨m₁, hm₁, -, hsh₁, hhist₁⟩ := h.manifest
    obtain rfl : m₁ = m := Except.ok.inj (hm₁.symm.trans hm)
    obtain ⟨m₂, hm₂, hfmt, hsh₂, hhist₂⟩ := h'.manifest
    exact ⟨m₂, hm₂, hfmt, hsh₂.trans hsh₁, hhist₂.trans hhist₁⟩
  shards := by
    intro n
    rcases h.shards n with ⟨h₀, h₁⟩ | ⟨m₀, ds, m₁, h₀, hds, h₁, -, hcut₁⟩
    · rcases h'.shards n with ⟨-, h₂⟩ | ⟨m₁', ds', m₂, h₁', -⟩
      · exact .inl ⟨h₀, h₂⟩
      · rw [h₁] at h₁'
        cases h₁'
    · rcases h'.shards n with ⟨h₁', -⟩ | ⟨m₁', ds', m₂, h₁', hds', h₂, hcov, hcut₂⟩
      · rw [h₁] at h₁'
        cases h₁'
      · rw [h₁] at h₁'
        cases h₁'
        rw [hcut₁] at hds'
        cases hds'
        rw [filterMap_cut] at hcut₂
        exact .inr ⟨m₀, ds, m₂, h₀, hds, h₂, hcov, hcut₂⟩
  layers := fun k o hk => h'.layers k o (h.layers k o hk)

theorem Branched.manifestAt (hb : Branched c t dst atLsn now child s.docs objs) :
    ∃ m, s.manifestAt c t = .ok m := by
  obtain ⟨data, m, hdata, hfrom, -⟩ := hb.parent
  refine ⟨m, ?_⟩
  rw [Site.manifestAt, hdata]
  dsimp only
  rw [hfrom]
  rfl

end Steps

/-- Every descendant carries the documents of the tenant it descends
from, cut at the smallest of the branch points. -/
theorem Derived.carries (hc : c.Lawful) {s₀ s : Site B} {t₀ t : String} {a : Lsn}
    {parent : Manifest} (hp : s₀.manifestAt c t₀ = .ok parent) (h : Derived c s₀ t₀ s t a) :
    Carries c s₀ t₀ parent s t a := by
  induction h with
  | branch hnamed hvacant h => exact branched_carries hc hvacant (branch_ok hnamed h) hp
  | step hd l hl ih => exact ih.step hl
  | nest hd hnamed hvacant h ih =>
    obtain ⟨m, hm⟩ := (branch_ok hnamed h).manifestAt
    exact ih.nest hm (branched_carries hc hvacant (branch_ok hnamed h) hm)

end Descent

/-! ## What a cut set of layers holds -/

section Layers

variable {env env' : ReaderEnv} {stored : BlockBody → Nat} {layers : List (LayerDesc × LayerBody)}
  {src : String} {a : Lsn}

/-- Layers that hold a key at the same lsn hold the same bytes. -/
structure Agree (layers : List (LayerDesc × LayerBody)) : Prop where
  images : ∀ d es d' es' b key page page', (d, LayerBody.image b es) ∈ layers →
    (d', LayerBody.image b es') ∈ layers → (⟨key, page⟩ : ImageEntry) ∈ es →
    (⟨key, page'⟩ : ImageEntry) ∈ es' → page = page'
  deltas : ∀ d es d' es' key l record record', (d, LayerBody.delta es) ∈ layers →
    (d', LayerBody.delta es') ∈ layers → (⟨key, l, record⟩ : DeltaEntry) ∈ es →
    (⟨key, l, record'⟩ : DeltaEntry) ∈ es' → record = record'

/-- The layers of a child, with what they hold. -/
def cutLayers (src : String) (a : Lsn) (layers : List (LayerDesc × LayerBody)) :
    List (LayerDesc × LayerBody) :=
  layers.filterMap fun x => (x.1.cut src a).map fun d => (d, x.2)

theorem mem_cutLayers {x : LayerDesc × LayerBody} :
    x ∈ cutLayers src a layers ↔ ∃ d, (d, x.2) ∈ layers ∧ d.cut src a = some x.1 := by
  obtain ⟨d', body⟩ := x
  rw [cutLayers, List.mem_filterMap]
  constructor
  · rintro ⟨⟨d, body'⟩, hmem, hx⟩
    obtain ⟨d'', hcut, heq⟩ := Option.map_eq_some_iff.mp hx
    cases heq
    exact ⟨d, hmem, hcut⟩
  · rintro ⟨d, hmem, hcut⟩
    exact ⟨(d, body), hmem, by rw [hcut]; rfl⟩

theorem map_fst_cutLayers (layers : List (LayerDesc × LayerBody)) :
    (cutLayers src a layers).map Prod.fst
      = (layers.map Prod.fst).filterMap (LayerDesc.cut src a) := by
  rw [cutLayers, List.map_filterMap, List.filterMap_map]
  congr 1
  funext x
  cases h : x.1.cut src a <;> simp [h]

variable {d d' : LayerDesc}

theorem cut_some (h : d.cut src a = some d') :
    d.minLsn ≤ a ∧ d'.kind = d.kind ∧ d'.minKey = d.minKey ∧ d'.maxKey = d.maxKey
      ∧ d'.minLsn = d.minLsn ∧ d'.maxLsn = d.maxLsn ∧ d'.size = d.size ∧ d'.home = d.home
      ∧ d'.owner = some (d.owner.getD src) := by
  unfold LayerDesc.cut at h
  split at h
  · cases h
  · rename_i hle
    cases h
    exact ⟨not_lt.mp hle, rfl, rfl, rfl, rfl, rfl, rfl, rfl, rfl⟩

theorem cut_name (h : d.cut src a = some d') : d'.name = d.name := by
  obtain ⟨-, hk, h1, h2, h3, h4, -⟩ := cut_some h
  unfold LayerDesc.name
  rw [hk, h1, h2, h3, h4]

variable {l lsn : Lsn}

theorem le_clamp_cut (h : d.cut src a = some d')
    (hl : l ≤ d.maxLsn) : l ≤ d'.clamp lsn ↔ l ≤ d.clamp (min lsn a) := by
  unfold LayerDesc.cut at h
  split at h
  · cases h
  · cases h
    unfold LayerDesc.clamp
    cases hu : d.upto with
    | some u =>
      simp only [Option.isSome_some, or_true, if_true, Option.elim_some, le_min_iff]
      tauto
    | none =>
      by_cases hpast : d.maxLsn > a
      · simp only [hpast, true_or, if_true, Option.elim_some, Option.elim_none, le_min_iff]
        tauto
      · have hla : l ≤ a := le_trans hl (not_lt.mp hpast)
        simp only [hpast, Option.isSome_none, Bool.false_eq_true, or_self, if_false,
          Option.elim_none, le_min_iff, hla, and_true]

theorem exists_cut (src : String) (hlo : d.minLsn ≤ l)
    (hl : l ≤ d.clamp (min lsn a)) : ∃ d', d.cut src a = some d' := by
  have hla : l ≤ a := by
    refine le_trans hl (le_trans ?_ (min_le_right lsn a))
    unfold LayerDesc.clamp
    cases d.upto with
    | some u => exact min_le_right _ _
    | none => exact le_refl _
  unfold LayerDesc.cut
  rw [if_neg (not_lt.mpr (le_trans hlo hla))]
  exact ⟨_, rfl⟩

variable {key : LayerKey}

theorem imageAt_cut (hs : Serves env stored layers) {b : Lsn}
    {page : List UInt8} : ImageAt (cutLayers src a layers) key lsn b page
      ↔ ImageAt layers key (min lsn a) b page := by
  have hmax : ∀ {d es}, (d, LayerBody.image b es) ∈ layers → d.minLsn = b ∧ b ≤ d.maxLsn := by
    intro d es hmem
    obtain ⟨target, o, -, hbuild, -, -, -, -, h3, h4, -⟩ := hs.built d _ hmem
    obtain ⟨-, -, -, -, -, -, hlsn, -, -⟩ := buildLayer_ok hbuild
    obtain ⟨hlo, hhi⟩ := Prod.mk.inj hlsn
    exact ⟨by rw [h3, hlo], by rw [h4, hhi]⟩
  constructor
  · rintro ⟨d', es, hmem, hpage, hle⟩
    obtain ⟨d, hmem, hcut⟩ := mem_cutLayers.mp hmem
    exact ⟨d, es, hmem, hpage, (le_clamp_cut hcut (hmax hmem).2).mp hle⟩
  · rintro ⟨d, es, hmem, hpage, hle⟩
    obtain ⟨d', hcut⟩ := exists_cut src (hmax hmem).1.le hle
    exact ⟨d', es, mem_cutLayers.mpr ⟨d, hmem, hcut⟩, hpage,
      (le_clamp_cut hcut (hmax hmem).2).mpr hle⟩

theorem recordAt_cut (hs : Serves env stored layers)
    {record : List UInt8} : RecordAt (cutLayers src a layers) Memtable.new key lsn l record
      ↔ RecordAt layers Memtable.new key (min lsn a) l record := by
  have hlsns : ∀ {d es}, (d, LayerBody.delta es) ∈ layers →
      (⟨key, l, record⟩ : DeltaEntry) ∈ es → d.minLsn ≤ l ∧ l ≤ d.maxLsn := by
    intro d es hmem hrec
    obtain ⟨o, -, hh, ⟨-, -, -, -, h3, h4⟩, -⟩ := hs.delta hmem
    have hl := hh.lsns _ hrec
    rw [h3, h4] at hl
    exact hl
  constructor
  · rintro (⟨d', es, hmem, hrec, hle⟩ | ⟨hmem, -⟩)
    · obtain ⟨d, hmem, hcut⟩ := mem_cutLayers.mp hmem
      exact .inl ⟨d, es, hmem, hrec, (le_clamp_cut hcut (hlsns hmem hrec).2).mp hle⟩
    · cases hmem
  · rintro (⟨d, es, hmem, hrec, hle⟩ | ⟨hmem, -⟩)
    · obtain ⟨d', hcut⟩ := exists_cut src (hlsns hmem hrec).1 hle
      exact .inl ⟨d', es, mem_cutLayers.mpr ⟨d, hmem, hcut⟩, hrec,
        (le_clamp_cut hcut (hlsns hmem hrec).2).mpr hle⟩
    · cases hmem

theorem Agree.image_unique (h : Agree layers) {b : Lsn} {page page' : List UInt8}
    (hp : ImageAt layers key lsn b page) (hp' : ImageAt layers key lsn b page') : page = page' := by
  obtain ⟨d, es, hmem, hpage, -⟩ := hp
  obtain ⟨d', es', hmem', hpage', -⟩ := hp'
  exact h.images d es d' es' b key page page' hmem hmem' hpage hpage'

theorem Agree.record_unique (h : Agree layers)
    {record record' : List UInt8} (hr : RecordAt layers Memtable.new key lsn l record)
    (hr' : RecordAt layers Memtable.new key lsn l record') : record = record' := by
  rcases hr with ⟨d, es, hmem, hrec, -⟩ | ⟨hmem, -⟩
  · rcases hr' with ⟨d', es', hmem', hrec', -⟩ | ⟨hmem', -⟩
    · exact h.deltas d es d' es' key l record record' hmem hmem' hrec hrec'
    · cases hmem'
  · cases hmem

theorem exact_unique {layers' : List (LayerDesc × LayerBody)} {lsn' : Lsn}
    {r r' : Reconstruction} (hagree : Agree layers)
    (himg : ∀ b page, ImageAt layers' key lsn' b page ↔ ImageAt layers key lsn b page)
    (hrec : ∀ l record, RecordAt layers' Memtable.new key lsn' l record
      ↔ RecordAt layers Memtable.new key lsn l record)
    (hr : r.Exact layers Memtable.new key lsn) (hr' : r'.Exact layers' Memtable.new key lsn') :
    r'.base = r.base ∧ r'.baseLsn = r.baseLsn ∧ r'.records = r.records := by
  have hbase : r'.base = r.base ∧ r'.baseLsn = r.baseLsn := by
    rcases hr.base with ⟨hb, hl, hno⟩ | ⟨page, b, hb, hl, hat, hmax⟩
    · rcases hr'.base with ⟨hb', hl', -⟩ | ⟨page', b', -, -, hat', -⟩
      · rw [hb, hb', hl, hl']
        exact ⟨rfl, rfl⟩
      · exact absurd ((himg b' page').mp hat') (hno b' page')
    · rcases hr'.base with ⟨-, -, hno'⟩ | ⟨page', b', hb', hl', hat', hmax'⟩
      · exact absurd ((himg b page).mpr hat) (hno' b page)
      · have heq : b' = b := le_antisymm (hmax b' page' ((himg b' page').mp hat'))
          (hmax' b page ((himg b page).mpr hat))
        subst heq
        have hpage := hagree.image_unique hat ((himg b' page').mp hat')
        rw [hb, hb', hl, hl', hpage]
        exact ⟨rfl, rfl⟩
  refine ⟨hbase.1, hbase.2, History.ascending_ext hr'.ascending hr.ascending ?_⟩
  rintro ⟨l, record⟩
  constructor
  · intro hmem
    obtain ⟨hat, hlo⟩ := hr'.sound l record hmem
    rw [hbase.2] at hlo
    obtain ⟨record', hmem'⟩ := hr.complete l record ((hrec l record).mp hat) hlo
    rwa [hagree.record_unique ((hrec l record).mp hat) (hr.sound l record' hmem').1]
  · intro hmem
    obtain ⟨hat, hlo⟩ := hr.sound l record hmem
    rw [← hbase.2] at hlo
    obtain ⟨record', hmem'⟩ := hr'.complete l record ((hrec l record).mpr hat) hlo
    rwa [hagree.record_unique hat ((hrec l record').mp (hr'.sound l record' hmem').1)]

end Layers

/-! ## Reading a descendant -/

section Reads

variable {B : Type} {c : Codec B} {crc : Nat → List UInt8 → Nat} {crc32c : List UInt8 → Nat}
  {stored : BlockBody → Nat} {s₀ s : Site B} {t₀ t : String} {parent : Manifest} {a : Lsn}
  {shard : Nat}

/-- The claim of a covered shard hides no layer of another shard it would
serve from. -/
def HidesNothing (c : Codec B) (s : Site B) (t : String) (m : Manifest) (shard : Nat) : Prop :=
  ∀ own, s.loadShardOf c t shard = .ok (some own) → own.covered m.shards = true →
    ∀ n ∈ servingShards shard m.shards m.shardHistory, n ≠ shard →
      ∀ other, s.loadShardOf c t n = .ok (some other) → other.layers = []

theorem servingShards_nodup (shard count : Nat) (history : List ShardChange) :
    (servingShards shard count history).Nodup := by
  unfold servingShards
  rw [(List.perm_insertionSort ..).nodup_iff]
  exact List.nodup_dedup _

theorem mem_servingShards (crc32c : List UInt8 → Nat) (key : LayerKey) (count : Nat)
    (history : List ShardChange) : shardOf crc32c key count
      ∈ servingShards (shardOf crc32c key count) count history := by
  unfold servingShards
  rw [List.mem_insertionSort, List.mem_dedup]
  refine List.mem_flatMap.mpr ⟨count, List.mem_dedup.mpr List.mem_cons_self, ?_⟩
  rw [if_pos le_rfl, List.mem_singleton]
  unfold shardOf pageShard
  by_cases h : count = 0
  · subst h
    simp [Nat.mod_one]
  · rw [max_eq_left (Nat.one_le_iff_ne_zero.mpr h), Nat.mod_mod]

theorem filterMap_cut_home (src : String) (n : Nat) (ds : List LayerDesc) :
    (ds.map fun d => { d with home := some n }).filterMap (LayerDesc.cut src a)
      = (ds.filterMap (LayerDesc.cut src a)).map fun d => { d with home := some n } := by
  rw [List.filterMap_map, List.map_filterMap]
  congr 1
  funext d
  unfold LayerDesc.cut
  show (if d.minLsn > a then none else _) = _
  split <;> rfl

theorem servingFromBy_cut (h : Carries c s₀ t₀ parent s t a) :
    ∀ {ss : List Nat} {ds : List LayerDesc},
      servingFromBy (s₀.loadShardOf c t₀) shard ss = .ok ds →
      servingFromBy (s.loadShardOf c t) shard ss = .ok (ds.filterMap (LayerDesc.cut t₀ a)) := by
  intro ss
  induction ss with
  | nil =>
    intro ds hds
    cases hds
    rfl
  | cons n ss ih =>
    intro ds hds
    rw [servingFromBy] at hds ⊢
    rcases h.shards n with ⟨h₀, h₁⟩ | ⟨m₀, ds₀, m, h₀, hds₀, h₁, -, hcut⟩
    · rw [h₀] at hds
      rw [h₁]
      exact ih hds
    · rw [h₀] at hds
      rw [h₁]
      dsimp only at hds ⊢
      rw [hds₀] at hds
      rw [hcut]
      cases hrest : servingFromBy (s₀.loadShardOf c t₀) shard ss with
      | error e =>
        rw [hrest] at hds
        cases hds
      | ok rest =>
        rw [hrest] at hds
        cases hds
        rw [ih hrest]
        dsimp only
        rw [List.filterMap_append]
        split
        · rfl
        · rw [filterMap_cut_home]

/-- Where the other shards list nothing, the lineage is the shard's own
layers. -/
theorem servingFromBy_own {load : Nat → Except PageShardError (Option PageShardManifest)}
    {own : PageShardManifest} {ds : List LayerDesc} (hown : load shard = .ok (some own))
    (hds : PageShardManifest.descs own.layers = .ok ds) : ∀ {ss : List Nat}, ss.Nodup →
      (∀ n ∈ ss, n ≠ shard → load n = .ok none ∨ ∃ m, load n = .ok (some m) ∧ m.layers = []) →
      servingFromBy load shard ss = .ok (if shard ∈ ss then ds else []) := by
  intro ss
  induction ss with
  | nil => exact fun _ _ => rfl
  | cons n ss ih =>
    intro hnd hempty
    obtain ⟨hn, hnd'⟩ := List.nodup_cons.mp hnd
    have hrest := ih hnd' fun n' hn' => hempty n' (.tail _ hn')
    rw [servingFromBy]
    by_cases heq : n = shard
    · subst heq
      rw [if_neg hn] at hrest
      rw [hown]
      dsimp only
      rw [hds, hrest]
      simp
    · have hiff : shard ∈ n :: ss ↔ shard ∈ ss := by
        rw [List.mem_cons]
        exact ⟨fun h => h.elim (fun h => absurd h.symm heq) id, .inr⟩
      rcases hempty n List.mem_cons_self heq with hnone | ⟨m, hm, hnil⟩
      · rw [hnone]
        rw [hrest]
        simp only [hiff]
      · rw [hm]
        simp only [hnil, hrest, PageShardManifest.descs, hiff, List.map_nil, ite_self,
          List.nil_append]

theorem servingDescsBy_cut (h : Carries c s₀ t₀ parent s t a) {m : Manifest}
    (hsh : m.shards = parent.shards) (hhist : m.shardHistory = parent.shardHistory)
    (hmem : shard ∈ servingShards shard parent.shards parent.shardHistory)
    (hclaims : HidesNothing c s₀ t₀ parent shard) {ds : List LayerDesc} {floor : Lsn}
    (hds : servingDescsBy (s₀.loadShardOf c t₀) parent shard = .ok (ds, floor)) :
    ∃ floor', servingDescsBy (s.loadShardOf c t) m shard
      = .ok (ds.filterMap (LayerDesc.cut t₀ a), floor') := by
  have hlineage : servingFromBy (s₀.loadShardOf c t₀) shard
      (servingShards shard parent.shards parent.shardHistory) = .ok ds := by
    unfold servingDescsBy at hds
    cases hown : s₀.loadShardOf c t₀ shard with
    | error e =>
      rw [hown] at hds
      cases hds
    | ok own =>
      rw [hown] at hds
      dsimp only at hds
      cases hfilter : own.filter (·.covered parent.shards) with
      | none =>
        rw [hfilter] at hds
        dsimp only at hds
        cases hfrom : servingFromBy (s₀.loadShardOf c t₀) shard
            (servingShards shard parent.shards parent.shardHistory) with
        | error e =>
          rw [hfrom] at hds
          cases hds
        | ok ds' =>
          rw [hfrom] at hds
          cases hds
          rfl
      | some own' =>
        rw [hfilter] at hds
        dsimp only at hds
        obtain ⟨rfl, hcov⟩ := Option.filter_eq_some_iff.mp hfilter
        cases hdescs : PageShardManifest.descs own'.layers with
        | error e =>
          rw [hdescs] at hds
          cases hds
        | ok ds' =>
          rw [hdescs] at hds
          cases hds
          rw [servingFromBy_own hown hdescs (servingShards_nodup ..), if_pos hmem]
          intro n hn hne
          rcases h.shards n with ⟨h₀, -⟩ | ⟨m₀, ds₀, m, h₀, -⟩
          · exact .inl h₀
          · exact .inr ⟨m₀, h₀, hclaims own' hown hcov n hn hne m₀ h₀⟩
  have hcut := servingFromBy_cut h hlineage
  unfold servingDescsBy
  rw [hsh, hhist]
  rcases h.shards shard with ⟨-, h₁⟩ | ⟨m₀, ds₀, own, -, -, h₁, hcov, -⟩
  · rw [h₁]
    dsimp only [Option.filter_none]
    rw [hcut]
    exact ⟨_, rfl⟩
  · have hfilter : (some own).filter (·.covered parent.shards) = none := by
      simp [PageShardManifest.covered, hcov]
    rw [h₁]
    dsimp only
    rw [hfilter]
    dsimp only
    rw [hcut]
    exact ⟨_, rfl⟩

theorem objectKey_env (s : Site B) (t : String) (shard : Nat) (d : LayerDesc) :
    (s.env crc t shard).objectKey d = .ok ((d.owner.getD t, d.home.getD shard), d.name) := by
  unfold ReaderEnv.objectKey
  split
  · rename_i hnone
    rw [hnone.1, hnone.2]
    rfl
  · cases d.owner <;> cases d.home <;> rfl

/-- A descendant fetches an inherited layer from where its ancestor did. -/
theorem fetch_cut (h : Carries c s₀ t₀ parent s t a) {d d' : LayerDesc} {o : LayerObj}
    (hcut : d.cut t₀ a = some d') (hf : (s₀.env crc t₀ shard).fetch d = .ok o) :
    (s.env crc t shard).fetch d' = .ok o := by
  obtain ⟨-, -, -, -, -, -, -, hhome, howner⟩ := cut_some hcut
  unfold ReaderEnv.fetch at hf ⊢
  rw [objectKey_env] at hf ⊢
  rw [howner, hhome, cut_name hcut]
  dsimp only [Option.getD_some] at hf ⊢
  cases hget : get s₀.layers ((d.owner.getD t₀, d.home.getD shard), d.name) with
  | none =>
    have hobj : (s₀.env crc t₀ shard).objects ((d.owner.getD t₀, d.home.getD shard), d.name)
        = none := hget
    rw [hobj] at hf
    cases hf
  | some o' =>
    have hobj₀ : (s₀.env crc t₀ shard).objects ((d.owner.getD t₀, d.home.getD shard), d.name)
        = some o' := hget
    have hobj : (s.env crc t shard).objects ((d.owner.getD t₀, d.home.getD shard), d.name)
        = some o' := h.layers _ _ hget
    rw [hobj₀] at hf
    rw [hobj]
    exact hf

variable {layers : List (LayerDesc × LayerBody)}

theorem serves_cut (h : Carries c s₀ t₀ parent s t a)
    (hs : Serves (s₀.env crc t₀ shard) stored layers) :
    Serves (s.env crc t shard) stored (cutLayers t₀ a layers) where
  stored_pos := hs.stored_pos
  built := by
    intro d' body hmem
    obtain ⟨d, hmem, hcut⟩ := mem_cutLayers.mp hmem
    obtain ⟨-, h1, h2, h3, h4, h5, h6, -, -⟩ := cut_some hcut
    obtain ⟨target, o, htarget, hbuild, hf, hrest⟩ := hs.built d body hmem
    refine ⟨target, o, htarget, hbuild, fetch_cut h hcut hf, ?_⟩
    rw [h1, h2, h3, h4, h5, h6]
    exact hrest

theorem sameName_cut (h : Carries c s₀ t₀ parent s t a)
    (hs : Serves (s₀.env crc t₀ shard) stored layers)
    (hn : SameNameSameObject (s₀.env crc t₀ shard) layers) :
    SameNameSameObject (s.env crc t shard) (cutLayers t₀ a layers) := by
  rintro ⟨d', body⟩ hx ⟨e', body'⟩ hy hname
  obtain ⟨d, hd, hcutd⟩ := mem_cutLayers.mp hx
  obtain ⟨e, he, hcute⟩ := mem_cutLayers.mp hy
  rw [cut_name hcutd, cut_name hcute] at hname
  obtain ⟨-, o, -, -, hfd, -⟩ := hs.built d body hd
  obtain ⟨-, o', -, -, hfe, -⟩ := hs.built e body' he
  have hsame : (Except.ok o : Except ReadError LayerObj) = .ok o' := by
    rw [← hfd, ← hfe]
    exact hn _ hd _ he hname
  rw [fetch_cut h hcutd hfd, fetch_cut h hcute hfe, hsame]

/-- What the tenant a branch is made of holds for a key: the layers its
shard serves, built by the builders, layers of one name the same object,
layers at one lsn the same bytes, and no layer hidden by a claim. -/
structure Readable (c : Codec B) (crc : Nat → List UInt8 → Nat) (crc32c : List UInt8 → Nat)
    (stored : BlockBody → Nat) (s : Site B) (t : String) (key : LayerKey) (m : Manifest)
    (layers : List (LayerDesc × LayerBody)) : Prop where
  manifest : s.manifestAt c t = .ok m
  listed : ∃ floor, servingDescsBy (s.loadShardOf c t) m (shardOf crc32c key m.shards)
    = .ok (layers.map Prod.fst, floor)
  serves : Serves (s.env crc t (shardOf crc32c key m.shards)) stored layers
  names : SameNameSameObject (s.env crc t (shardOf crc32c key m.shards)) layers
  agree : Agree layers
  claims : HidesNothing c s t m (shardOf crc32c key m.shards)

theorem read_returns {m : Manifest} {key : LayerKey}
    {floor : Lsn} (budget : Nat) (hm : s.manifestAt c t = .ok m)
    (hlisted : servingDescsBy (s.loadShardOf c t) m (shardOf crc32c key m.shards)
      = .ok (layers.map Prod.fst, floor))
    (hs : Serves (s.env crc t (shardOf crc32c key m.shards)) stored layers)
    (hn : SameNameSameObject (s.env crc t (shardOf crc32c key m.shards)) layers) (lsn : Lsn) :
    ∃ r, s.read c crc crc32c budget t key lsn = .ok r
      ∧ r.Exact layers Memtable.new key lsn := by
  obtain ⟨map, hmap⟩ := hs.map
  obtain ⟨r, rd, hexec, -, hr⟩ := reconstruct_returns hs hn hmap Memtable.new key lsn
    ⟨[], BlockCache.new budget⟩ (coherent_new _ _ budget)
  refine ⟨r, ?_, hr⟩
  unfold Site.read
  rw [hm]
  show (Except.mapError SiteError.shard (servingDescsBy (s.loadShardOf c t) m
    (shardOf crc32c key m.shards)) >>= _) = _
  rw [hlisted]
  show (Except.mapError SiteError.map (LayerMap.new (layers.map Prod.fst)) >>= _) = _
  rw [hmap]
  show Except.mapError SiteError.read (exec _ _).1 = _
  rw [hexec]
  rfl

/-- A descendant reads at every point what the tenant it descends from
read, when the first branch was made, at the smaller of that point and
every branch point between them. -/
theorem branch_reads (hc : c.Lawful) {key : LayerKey} {layers : List (LayerDesc × LayerBody)}
    (hp : Readable c crc crc32c stored s₀ t₀ key parent layers) (hd : Derived c s₀ t₀ s t a)
    (budget : Nat) (lsn : Lsn) : ∃ r r₀, s.read c crc crc32c budget t key lsn = .ok r
      ∧ s₀.read c crc crc32c budget t₀ key (min lsn a) = .ok r₀
      ∧ r.base = r₀.base ∧ r.baseLsn = r₀.baseLsn ∧ r.records = r₀.records := by
  have hcarries := hd.carries hc hp.manifest
  obtain ⟨m, hm, -, hsh, hhist⟩ := hcarries.manifest
  obtain ⟨floor₀, hlisted₀⟩ := hp.listed
  obtain ⟨floor, hlisted⟩ := servingDescsBy_cut hcarries hsh hhist
    (mem_servingShards crc32c key parent.shards parent.shardHistory) hp.claims hlisted₀
  rw [← map_fst_cutLayers] at hlisted
  obtain ⟨r₀, hparent, hr₀⟩ := read_returns budget hp.manifest hlisted₀ hp.serves
    hp.names (min lsn a)
  have hserves := serves_cut hcarries hp.serves
  have hnames := sameName_cut hcarries hp.serves hp.names
  rw [← hsh] at hlisted hserves hnames
  obtain ⟨r, hread, hr⟩ := read_returns budget hm hlisted hserves hnames lsn
  refine ⟨r, r₀, hread, hparent, ?_⟩
  exact exact_unique hp.agree (fun b page => imageAt_cut hp.serves)
    (fun l record => recordAt_cut hp.serves) hr₀ hr

end Reads

/-! ## A claim that is not inherited -/

section Samples

theorem docCodec_lawful : docCodec.Lawful where
  shard _ := rfl
  peek _ := rfl
  parse _ := rfl
  format := by
    rintro (m | m) p m' hp hm
    · cases hp
      cases hm
      rfl
    · cases hp

/-- A layer object under a prefix, and its entry. -/
def objAt (t : String) (n : Nat) (r : Except LayerBuildError LayerObj) :
    List (((String × Nat) × LayerName) × LayerObj) :=
  r.toOption.toList.map fun o => (((t, n), o.name), o)

def entryOf (r : Except LayerBuildError LayerObj) : List LayerEntry :=
  r.toOption.toList.map fun o => ⟨o.name, o.size, none, none⟩

/-- A tenant of one shard with a delta, to be branched below its end. -/
def plainSite : Site (Manifest ⊕ PageShardManifest) where
  docs := [
    (.manifest "prod", .inl { Manifest.new "prod" 18 with
      checkpoints := [⟨"f1", 20, .full, none⟩] }),
    (.shard "prod" 0, .inr { PageShardManifest.new 0 with
      diskConsistentLsn := 31, layers := entryOf (sampleObj ownEntries) })]
  layers := objAt "prod" 0 (sampleObj ownEntries)

theorem fetch_of_object {env : ReaderEnv} {d : LayerDesc} {key : (String × Nat) × LayerName}
    {o : LayerObj} (hk : env.objectKey d = .ok key) (ho : env.objects key = some o) :
    env.fetch d = .ok o := by
  simp only [ReaderEnv.fetch, hk, ho]

def plainManifest : Manifest :=
  { Manifest.new "prod" 18 with checkpoints := [⟨"f1", 20, .full, none⟩] }

theorem plainSite_readable :
    Readable docCodec (fun _ _ => 0) (fun _ => 0) (fun _ => 1) plainSite "prod" sampleKey
      plainManifest [(sampleDesc ownEntries none none, .delta ownEntries)] where
  manifest := rfl
  listed := by
    have hlist : (servingDescsBy (plainSite.loadShardOf docCodec "prod") plainManifest 0).toOption
        = some ([sampleDesc ownEntries none none], 31) := by decide +kernel
    refine ⟨31, ?_⟩
    show servingDescsBy (plainSite.loadShardOf docCodec "prod") plainManifest 0 = _
    cases h : servingDescsBy (plainSite.loadShardOf docCodec "prod") plainManifest 0 with
    | error e =>
      rw [h] at hlist
      cases hlist
    | ok out =>
      rw [h] at hlist
      exact congrArg Except.ok (Option.some.inj hlist)
  serves := by
    refine ⟨fun _ => Nat.one_pos, fun d body hmem => ?_⟩
    obtain ⟨rfl, rfl⟩ := Prod.mk.inj (List.mem_singleton.mp hmem)
    have hsome : (sampleObj ownEntries).toOption.isSome = true := by decide +kernel
    cases hobj : sampleObj ownEntries with
    | error e =>
      rw [hobj] at hsome
      cases hsome
    | ok o =>
      have hdesc : sampleDesc ownEntries none none
          = { LayerDesc.fromFooter o.footer o.size with owner := none, upto := none } := by
        unfold sampleDesc
        rw [hobj]
      have hget : get plainSite.layers (("prod", 0), o.name) = some o := by
        show get (objAt "prod" 0 (sampleObj ownEntries)) _ = _
        rw [hobj]
        exact get_cons_self ..
      refine ⟨layerBlockTarget, o, le_rfl, hobj, ?_, ?_⟩
      · rw [hdesc]
        exact fetch_of_object (objectKey_env ..) hget
      · rw [hdesc]
        exact ⟨rfl, rfl, rfl, rfl, rfl, rfl⟩
  names := by
    intro x hx y hy _
    rw [List.mem_singleton] at hx hy
    rw [hx, hy]
  agree := by
    refine ⟨fun d es d' es' b key page page' hmem => ?_,
      fun d es d' es' key l record record' hmem hmem' hrec hrec' => ?_⟩
    · cases List.mem_singleton.mp hmem
    · cases List.mem_singleton.mp hmem
      cases List.mem_singleton.mp hmem'
      simp only [ownEntries, List.mem_cons, DeltaEntry.mk.injEq, List.not_mem_nil, or_false]
        at hrec hrec'
      rcases hrec with ⟨-, rfl, rfl⟩ | ⟨-, rfl, rfl⟩
      · simp_all
      · simp_all
  claims := by
    intro own hown hcov
    cases hown
    cases hcov

def plainBranch : Manifest :=
  { Manifest.new "child" 18 with
    checkpoints := [⟨"f1", 20, .full, some "prod"⟩]
    branchOf := some ⟨"prod", 20⟩
    publishedUnix := some 1000 }

/-- The child of a branch at 20, after a commit of its parent. -/
def plainChild : Site (Manifest ⊕ PageShardManifest) :=
  (Site.mk (branch docCodec "prod" "child" none 1000 ⟨plainSite.docs, []⟩).2.objs
    plainSite.layers).next docCodec (.commit "prod" 0 (.advance 90))

theorem plainChild_derived : Derived docCodec plainSite "prod" plainChild "child" 20 := by
  have hnamed : ShardsNamed docCodec plainSite.docs "prod" := by
    intro n parent h
    cases n with
    | zero =>
      cases h
      rfl
    | succ n => cases h
  have hvacant : Vacant plainSite.docs "prod" "child" := fun n _ => rfl
  have hrun : branch docCodec "prod" "child" none 1000 ⟨plainSite.docs, []⟩
      = (.ok plainBranch, (branch docCodec "prod" "child" none 1000 ⟨plainSite.docs, []⟩).2) := rfl
  exact Derived.step (Derived.branch hnamed hvacant hrun) (.commit "prod" 0 (.advance 90))
    (by decide)

/-- The branch at 20 reads at 60 what its parent reads at 20. -/
theorem branch_reads_child :
    docCodec.Lawful
      ∧ Readable docCodec (fun _ _ => 0) (fun _ => 0) (fun _ => 1) plainSite "prod" sampleKey
          plainManifest [(sampleDesc ownEntries none none, .delta ownEntries)]
      ∧ Derived docCodec plainSite "prod" plainChild "child" 20
      ∧ ∃ r r₀, plainChild.read docCodec (fun _ _ => 0) (fun _ => 0) 100 "child" sampleKey 60
            = .ok r
          ∧ plainSite.read docCodec (fun _ _ => 0) (fun _ => 0) 100 "prod" sampleKey (min 60 20)
            = .ok r₀
          ∧ r.base = r₀.base ∧ r.baseLsn = r₀.baseLsn ∧ r.records = r₀.records :=
  ⟨docCodec_lawful, plainSite_readable, plainChild_derived,
    branch_reads docCodec_lawful plainSite_readable plainChild_derived 100 60⟩

/-- The image of one page at an lsn. -/
def pageImage (page : List UInt8) (lsn : Lsn) : LayerObj :=
  let row : LayerBlock :=
    ⟨sampleKey, sampleKey, layerHeaderLen, 1, keyEncodedLen + pageImageLen, 1⟩
  let bloom := Bloom.fromHashes [Bloom.hash (fun _ _ => 0) sampleKey]
  { footer := ⟨.image, sampleKey, sampleKey, lsn, lsn, 1, [row], bloom⟩
    blocks := [⟨row, .image [⟨sampleKey, page⟩]⟩]
    size := layerHeaderLen + 1 + (2 * keyEncodedLen + 28 + 61 + 4 + bloom.bits.length / 8) + 12 }

theorem pageImage_built {page : List UInt8} (h : page.length = pageImageLen) (lsn : Lsn) :
    buildImage (fun _ => 1) (fun _ _ => 0) [⟨sampleKey, page⟩] lsn layerBlockTarget
      = .ok (pageImage page lsn) := by
  have hvalid : validate (imageFormat lsn) none [⟨sampleKey, page⟩] = .ok () := by
    simp [validate, imageFormat, h]
  unfold buildImage buildLayer
  rw [hvalid]
  rfl

/-- A tenant split in two. Shard 1 has the key and covers it by itself,
with an image at 30. Shard 0 keeps the key for its descendants and has put
it as it was at the split into an image of its own at 40. -/
def claimSite : Site (Manifest ⊕ PageShardManifest) where
  docs := [
    (.manifest "prod", .inl { Manifest.new "prod" 18 with
      format := 3
      shards := 2
      shardHistory := [⟨1, 2, 20, 0⟩]
      checkpoints := [⟨"f1", 50, .full, none⟩] }),
    (.shard "prod" 0, .inr { PageShardManifest.new 0 with
      diskConsistentLsn := 41
      layers := entryOf (.ok (pageImage (List.replicate pageImageLen 0) 40))
      covers := some 2 }),
    (.shard "prod" 1, .inr { PageShardManifest.new 1 with
      diskConsistentLsn := 41
      layers := entryOf (.ok (pageImage (List.replicate pageImageLen 1) 30))
      covers := some 2 })]
  layers := objAt "prod" 0 (.ok (pageImage (List.replicate pageImageLen 0) 40))
    ++ objAt "prod" 1 (.ok (pageImage (List.replicate pageImageLen 1) 30))

/-- The child of `claimSite` at its checkpoint takes the page shard 0 kept
for its base, where its parent takes its own. -/
theorem branch_reads_hidden :
    (∀ b lsn, buildImage (fun _ => 1) (fun _ _ => 0) [⟨sampleKey, List.replicate pageImageLen b⟩]
        lsn layerBlockTarget = .ok (pageImage (List.replicate pageImageLen b) lsn))
      ∧ ∃ child w, branch docCodec "prod" "child" none 1000 ⟨claimSite.docs, []⟩ = (.ok child, w)
        ∧ branchPoint child = 50
        ∧ ((claimSite.read docCodec (fun _ _ => 0) (fun _ => 1) 100 "prod" sampleKey
              (min 60 50)).toOption.map fun r => (r.base.map List.head?, r.baseLsn))
            = some (some (some 1), some 30)
        ∧ (((Site.mk w.objs claimSite.layers).read docCodec (fun _ _ => 0) (fun _ => 1) 100 "child"
              sampleKey 60).toOption.map fun r => (r.base.map List.head?, r.baseLsn))
            = some (some (some 0), some 40) := by
  have hrun : branch docCodec "prod" "child" none 1000 ⟨claimSite.docs, []⟩
      = (.ok { Manifest.new "child" 18 with
          format := 3
          shards := 2
          shardHistory := [⟨1, 2, 20, 0⟩]
          checkpoints := [⟨"f1", 50, .full, some "prod"⟩]
          branchOf := some ⟨"prod", 50⟩
          publishedUnix := some 1000 },
        (branch docCodec "prod" "child" none 1000 ⟨claimSite.docs, []⟩).2) := rfl
  exact ⟨fun b lsn => pageImage_built List.length_replicate lsn, _, _, hrun, rfl,
    by decide +kernel, by decide +kernel⟩

end Samples

end Zou
