import Zou.Branch
import Zou.Shards

/-!
# What a failed branch leaves at its destination

`branch` promises that its one commit point is the tenant manifest and
that nothing serves the child before it. Both hold for a fresh
destination. For a destination that is a live tenant the shard manifests
are overwritten before the commit point refuses, so a failed call leaves
the tenant's objects alone exactly when every shard manifest the call
would write over one the tenant serves from is there already.
-/

namespace Zou

variable {B : Type} {c : Codec B} {src dst : String} {at_ : Lsn}

/-! ## Reads -/

/-- What a faultless `PageShardManifest::load` returns. -/
def shardAt (c : Codec B) (objs : List (Key × B)) (tenant : String) (n : Nat) :
    Except BranchError (Option PageShardManifest) :=
  match Store.get objs (.shard tenant n) with
  | none => .ok none
  | some data => (c.decode data).map some |>.mapError .shard

variable {objs objs' : List (Key × B)} {n : Nat}

theorem shardAt_congr {t : String}
    (h : Store.get objs' (.shard t n) = Store.get objs (.shard t n)) :
    shardAt c objs' t n = shardAt c objs t n := by
  unfold shardAt
  rw [h]

theorem getObj_readOnly (k : Key) : Store.ReadOnly (getObj k : BranchM B (Option B)) :=
  Store.ReadOnly.read _ _

theorem loadShard_readOnly (c : Codec B) (t : String) (n : Nat) :
    Store.ReadOnly (loadShard c t n) :=
  (getObj_readOnly _).bind fun r => by
    cases r with
    | none => exact Store.ReadOnly.pure _
    | some data => exact Store.ReadOnly.lift _

theorem currentManifest_readOnly (c : Codec B) (src : String) :
    Store.ReadOnly (currentManifest c src) :=
  (getObj_readOnly _).bind fun r => by
    cases r with
    | none => exact Store.ReadOnly.throw _
    | some data => exact Store.ReadOnly.lift _

theorem snapshotAt_readOnly (c : Codec B) (src : String) (unixTs : Nat) :
    Store.ReadOnly (snapshotAt c src unixTs) :=
  (Store.ReadOnly.read _ _).bind fun keys => by
    cases newestAt unixTs keys with
    | none => exact Store.ReadOnly.throw _
    | some key =>
      exact (getObj_readOnly _).bind fun r => by
        cases r with
        | none => exact Store.ReadOnly.throw _
        | some data => exact Store.ReadOnly.lift _

theorem checkHorizons_readOnly (c : Codec B) (src : String) (at_ : Lsn) :
    ∀ ns : List Nat, Store.ReadOnly (checkHorizons c src at_ ns) := by
  intro ns
  induction ns with
  | nil => exact Store.ReadOnly.pure _
  | cons n ns ih =>
    exact (loadShard_readOnly c src n).bind fun _ => (Store.ReadOnly.lift _).bind fun _ => ih

variable {w : Store.World Key B}

theorem loadShard_quiet {t : String} (h : w.acks = []) :
    loadShard c t n w = (shardAt c w.objs t n, w) := by
  have hget : (getObj (.shard t n) : BranchM B (Option B)) w
      = (.ok (Store.get w.objs (.shard t n)), w) := Store.read_nil h
  unfold loadShard shardAt
  rw [Store.Prog.bind_ok hget]
  cases Store.get w.objs (.shard t n) <;> rfl

theorem loadShard_cases (c : Codec B) (t : String) (n : Nat) (w : Store.World Key B) :
    ∃ w', w'.objs = w.objs
      ∧ ((∃ r, shardAt c w.objs t n = .ok r ∧ loadShard c t n w = (.ok r, w'))
        ∨ ∃ e, loadShard c t n w = (.error e, w')) := by
  obtain ⟨w', hobjs, ⟨r, hr, hok⟩ | herr⟩ := (loadShard_readOnly c t n).cases w
  · rw [loadShard_quiet rfl] at hr
    exact ⟨w', hobjs, .inl ⟨r, hr, hok⟩⟩
  · exact ⟨w', hobjs, .inr herr⟩

/-! ## The second pass -/

/-- The child's copy of shard `n`, with the number it is stored under. -/
def copyOf (c : Codec B) (objs : List (Key × B)) (src : String) (at_ : Lsn) (n : Nat) :
    Except BranchError (Option (Nat × PageShardManifest)) :=
  match shardAt c objs src n with
  | .error e => .error e
  | .ok none => .ok none
  | .ok (some parent) =>
    match cutShard src at_ parent with
    | .error e => .error (.shard e)
    | .ok child => .ok (some (parent.shard, child))

/-- The shard manifests the second pass writes, in order, up to the first
shard it cannot read or cut. -/
def copies (c : Codec B) (objs : List (Key × B)) (src : String) (at_ : Lsn) :
    List Nat → List (Nat × PageShardManifest)
  | [] => []
  | n :: ns =>
    match copyOf c objs src at_ n with
    | .error _ => []
    | .ok none => copies c objs src at_ ns
    | .ok (some p) => p :: copies c objs src at_ ns

/-- The put of one copy. -/
def copyWrite (c : Codec B) (dst : String) (p : Nat × PageShardManifest) : Key × B :=
  (.shard dst p.1, c.encode p.2)

/-- Every shard manifest of the tenant is stored under its own number,
which is where every writer of one puts it. -/
def ShardsNamed (c : Codec B) (objs : List (Key × B)) (tenant : String) : Prop :=
  ∀ n parent, shardAt c objs tenant n = .ok (some parent) → parent.shard = n

theorem copyOf_congr (h : Store.get objs' (.shard src n) = Store.get objs (.shard src n)) :
    copyOf c objs' src at_ n = copyOf c objs src at_ n := by
  unfold copyOf
  rw [shardAt_congr h]

theorem copyOf_fst {p : Nat × PageShardManifest} (hnamed : ShardsNamed c objs src)
    (h : copyOf c objs src at_ n = .ok (some p)) : p.1 = n := by
  unfold copyOf at h
  split at h
  · cases h
  · cases h
  · rename_i parent hparent
    split at h
    · cases h
    · cases h
      exact hnamed n parent hparent

theorem copies_sublist (hnamed : ShardsNamed c objs src) :
    ∀ ns : List Nat, ((copies c objs src at_ ns).map Prod.fst).Sublist ns := by
  intro ns
  induction ns with
  | nil => exact List.Sublist.slnil
  | cons n ns ih =>
    unfold copies
    split
    · exact List.nil_sublist _
    · exact ih.cons n
    · rename_i p hp
      rw [List.map_cons, copyOf_fst hnamed hp]
      exact ih.cons_cons n

/-- One turn of the second pass: it ends the pass, skips a shard that is
not there, or writes its copy. -/
theorem copyShards_cons (c : Codec B) (src dst : String) (at_ : Lsn) (n : Nat) (ns : List Nat)
    (w : Store.World Key B) : ∃ w' ws, w'.objs = ws ++ w.objs
      ∧ (∀ x ∈ ws, ∃ p, copyOf c w.objs src at_ n = .ok (some p) ∧ x = copyWrite c dst p)
      ∧ ((∃ e, copyShards c src dst at_ (n :: ns) w = (.error e, w'))
        ∨ (∃ o, copyOf c w.objs src at_ n = .ok o)
          ∧ copyShards c src dst at_ (n :: ns) w = copyShards c src dst at_ ns w') := by
  rw [copyShards]
  have hquiet : ∀ x ∈ ([] : List (Key × B)), ∃ p, copyOf c w.objs src at_ n = .ok (some p)
      ∧ x = copyWrite c dst p := nofun
  obtain ⟨w', hobjs, ⟨r, hr, hok⟩ | ⟨e, herr⟩⟩ := loadShard_cases c src n w
  · rw [Store.Prog.bind_ok hok]
    cases r with
    | none =>
      have hcopy : copyOf c w.objs src at_ n = .ok none := by simp only [copyOf, hr]
      exact ⟨w', [], hobjs, hquiet, .inr ⟨⟨none, hcopy⟩, rfl⟩⟩
    | some parent =>
      dsimp only
      cases hcut : cutShard src at_ parent with
      | error e => exact ⟨w', [], hobjs, hquiet, .inl ⟨_, rfl⟩⟩
      | ok child =>
        have hcopy : copyOf c w.objs src at_ n = .ok (some (parent.shard, child)) := by
          simp only [copyOf, hr, hcut]
        have hlift : (Store.Prog.lift (Except.mapError .shard (.ok child)) :
            BranchM B PageShardManifest) w' = (.ok child, w') := rfl
        have hwrite : ∀ x ∈ [copyWrite c dst (parent.shard, child)],
            ∃ p, copyOf c w.objs src at_ n = .ok (some p) ∧ x = copyWrite c dst p :=
          fun x hx => ⟨_, hcopy, List.mem_singleton.mp hx⟩
        rw [Store.Prog.bind_ok hlift]
        obtain ⟨w'', ⟨hput, hw⟩ | ⟨hput, hw⟩⟩ := Store.put_cases BranchError.store
          (.shard dst parent.shard) (c.encode child) w'
        · rw [Store.Prog.bind_ok hput]
          exact ⟨w'', _, hw.trans (by rw [hobjs]; rfl), hwrite, .inr ⟨⟨_, hcopy⟩, rfl⟩⟩
        · rw [Store.Prog.bind_error hput]
          rcases hw with hw | hw
          · exact ⟨w'', _, hw.trans (by rw [hobjs]; rfl), hwrite, .inl ⟨_, rfl⟩⟩
          · exact ⟨w'', [], hw.trans hobjs, hquiet, .inl ⟨_, rfl⟩⟩
  · exact ⟨w', [], hobjs, hquiet, .inl ⟨_, Store.Prog.bind_error herr⟩⟩

variable {ws : List (Key × B)}

/-- A write of one turn leaves the shards still to be read as they were,
also when a tenant is branched onto itself. -/
theorem get_turn {n' : Nat} (hnamed : ShardsNamed c objs src) (hne : n' ≠ n)
    (hsame : Store.get objs' (.shard src n) = Store.get objs (.shard src n))
    (hws : ∀ x ∈ ws, ∃ p, copyOf c objs' src at_ n = .ok (some p) ∧ x = copyWrite c dst p) :
    Store.get (ws ++ objs') (.shard src n') = Store.get objs' (.shard src n') := by
  refine Store.get_append_of_not_mem fun b hb => ?_
  obtain ⟨p, hp, hx⟩ := hws _ hb
  rw [copyOf_congr hsame] at hp
  have hfst : p.1 = n := copyOf_fst hnamed hp
  have hkey : Key.shard src n' = .shard dst p.1 := congrArg Prod.fst hx
  injection hkey with _ hn
  exact hne (hn.trans hfst)

/-- The second pass writes copies and nothing else, whatever fails. -/
theorem copyShards_writes (hnamed : ShardsNamed c objs src) :
    ∀ {ns : List Nat} {w : Store.World Key B}, ns.Nodup →
      (∀ n ∈ ns, Store.get w.objs (.shard src n) = Store.get objs (.shard src n)) →
      ∃ ws, (copyShards c src dst at_ ns w).2.objs = ws ++ w.objs
        ∧ ∀ x ∈ ws, ∃ p ∈ copies c objs src at_ ns, x = copyWrite c dst p := by
  intro ns
  induction ns with
  | nil => exact fun _ _ => ⟨[], rfl, nofun⟩
  | cons n ns ih =>
    intro w hnd hsame
    obtain ⟨hn, hnd'⟩ := List.nodup_cons.mp hnd
    have hsame₀ := hsame n List.mem_cons_self
    obtain ⟨w', ws, hobjs, hws, hend⟩ := copyShards_cons c src dst at_ n ns w
    have hhead : ∀ x ∈ ws, ∃ p ∈ copies c objs src at_ (n :: ns), x = copyWrite c dst p := by
      intro x hx
      obtain ⟨p, hp, rfl⟩ := hws x hx
      rw [copyOf_congr hsame₀] at hp
      exact ⟨p, by simp only [copies, hp, List.mem_cons_self], rfl⟩
    rcases hend with ⟨e, he⟩ | ⟨⟨o, ho⟩, hrest⟩
    · exact ⟨ws, by rw [he]; exact hobjs, hhead⟩
    · have hsame' : ∀ n' ∈ ns, Store.get w'.objs (.shard src n')
          = Store.get objs (.shard src n') := by
        intro n' hn'
        have hne : n' ≠ n := by rintro rfl; exact hn hn'
        rw [hobjs, get_turn hnamed hne hsame₀ hws]
        exact hsame n' (.tail _ hn')
      obtain ⟨ws', hobjs', hws'⟩ := ih hnd' hsame'
      refine ⟨ws' ++ ws, by rw [hrest, hobjs', hobjs, List.append_assoc], ?_⟩
      intro x hx
      rcases List.mem_append.mp hx with htail | hhd
      · obtain ⟨p, hp, rfl⟩ := hws' x htail
        rw [copyOf_congr hsame₀] at ho
        refine ⟨p, ?_, rfl⟩
        cases o with
        | none => simpa only [copies, ho] using hp
        | some q => simpa only [copies, ho] using List.mem_cons_of_mem q hp
      · exact hhead x hhd

/-- Without faults it writes all of them. -/
theorem copyShards_nil (hnamed : ShardsNamed c objs src) (dst : String) (at_ : Lsn) :
    ∀ {ns : List Nat} {w : Store.World Key B}, w.acks = [] → ns.Nodup →
      (∀ n ∈ ns, Store.get w.objs (.shard src n) = Store.get objs (.shard src n)) →
      (copyShards c src dst at_ ns w).2 =
        ⟨((copies c objs src at_ ns).map (copyWrite c dst)).reverse ++ w.objs, []⟩ := by
  intro ns
  induction ns with
  | nil =>
    intro w hnil _ _
    obtain ⟨objs', acks⟩ := w
    obtain rfl : acks = [] := hnil
    rfl
  | cons n ns ih =>
    intro w hnil hnd hsame
    obtain ⟨hn, hnd'⟩ := List.nodup_cons.mp hnd
    have hsame₀ := hsame n List.mem_cons_self
    have hload : loadShard c src n w = (shardAt c objs src n, w) := by
      rw [loadShard_quiet hnil, shardAt_congr hsame₀]
    have hsame' : ∀ n' ∈ ns, Store.get w.objs (.shard src n')
        = Store.get objs (.shard src n') := fun n' h' => hsame n' (.tail _ h')
    unfold copyShards
    cases hr : shardAt c objs src n with
    | error e =>
      have hcopy : copyOf c objs src at_ n = .error e := by simp only [copyOf, hr]
      rw [hr] at hload
      rw [Store.Prog.bind_error hload]
      simp only [copies, hcopy, List.map_nil, List.reverse_nil, List.nil_append, ← hnil]
    | ok r =>
      rw [hr] at hload
      rw [Store.Prog.bind_ok hload]
      cases r with
      | none =>
        have hcopy : copyOf c objs src at_ n = .ok none := by simp only [copyOf, hr]
        simp only [copies, hcopy]
        exact ih hnil hnd' hsame'
      | some parent =>
        cases hcut : cutShard src at_ parent with
        | error e =>
          have hcopy : copyOf c objs src at_ n = .error (.shard e) := by
            simp only [copyOf, hr, hcut]
          have hlift : (Store.Prog.lift (Except.mapError .shard (.error e)) :
              BranchM B PageShardManifest) w = (.error (.shard e), w) := rfl
          dsimp only
          rw [hcut, Store.Prog.bind_error hlift]
          simp only [copies, hcopy, List.map_nil, List.reverse_nil, List.nil_append,
            ← hnil]
        | ok child =>
          have hcopy : copyOf c objs src at_ n = .ok (some (parent.shard, child)) := by
            simp only [copyOf, hr, hcut]
          have hlift : (Store.Prog.lift (Except.mapError .shard (.ok child)) :
              BranchM B PageShardManifest) w = (.ok child, w) := rfl
          dsimp only
          rw [hcut, Store.Prog.bind_ok hlift, Store.Prog.bind_ok (Store.put_nil hnil)]
          have hws : ∀ x ∈ [copyWrite c dst (parent.shard, child)],
              ∃ p, copyOf c w.objs src at_ n = .ok (some p) ∧ x = copyWrite c dst p :=
            fun x hx => ⟨_, (copyOf_congr hsame₀).trans hcopy, List.mem_singleton.mp hx⟩
          have hrest := ih (w := ⟨copyWrite c dst (parent.shard, child) :: w.objs, w.acks⟩)
            hnil hnd' fun n' hn' => by
              have hne : n' ≠ n := by rintro rfl; exact hn hn'
              exact (get_turn hnamed hne hsame₀ hws).trans (hsame' n' hn')
          refine hrest.trans ?_
          simp only [copies, hcopy, List.map_cons, List.reverse_cons, List.append_assoc,
            List.singleton_append]

/-! ## The destination -/

/-- An object of a live tenant. A shard manifest belongs to the tenant
when a shard of the current count serves from it; under a manifest this
binary cannot read, every one does. -/
def Belongs (c : Codec B) (objs : List (Key × B)) (dst : String) (k : Key) : Prop :=
  k.tenant = dst ∧ ∃ data, Store.get objs (.manifest dst) = some data
    ∧ ∀ n, k = .shard dst n → ∀ m, c.fromJson data = .ok m →
        ∃ s, s < m.shards ∧ n ∈ servingShards s m.shards m.shardHistory

/-- Every object that belonged to the destination has the bytes it had. -/
def Unharmed (c : Codec B) (objs objs' : List (Key × B)) (dst : String) : Prop :=
  ∀ k, Belongs c objs dst k → Store.get objs' k = Store.get objs k

/-- A branch of `parent` onto `dst` that gets past its checks writes over
no shard manifest of the destination, save where the cut copy is what the
destination holds already. -/
def Harmless (c : Codec B) (objs : List (Key × B)) (src dst : String) (atLsn : Option Lsn)
    (now : Nat) (parent : Manifest) : Prop :=
  ∀ child, childOf parent src dst atLsn now = .ok child →
    (checkHorizons c src (branchPoint child) (shardKeys src parent.shards objs) ⟨objs, []⟩).1
      = .ok () →
    ∀ p ∈ copies c objs src (branchPoint child) (shardKeys src parent.shards objs),
      Belongs c objs dst (.shard dst p.1) → Store.get objs (.shard dst p.1) = some (c.encode p.2)

theorem shardKeys_nodup (src : String) (shards : Nat) (objs : List (Key × B)) :
    (shardKeys src shards objs).Nodup := by
  unfold shardKeys
  rw [(List.perm_insertionSort _ _).nodup_iff]
  exact List.nodup_dedup _

/-- Copies go under shard keys, so the destination's manifest is as it
was. -/
theorem get_manifest_append {ps : List (Nat × PageShardManifest)}
    (h : ∀ x ∈ ws, ∃ p ∈ ps, x = copyWrite c dst p) :
    Store.get (ws ++ objs) (.manifest dst) = Store.get objs (.manifest dst) := by
  refine Store.get_append_of_not_mem fun b hb => ?_
  obtain ⟨p, -, hx⟩ := h _ hb
  cases hx

theorem unharmed_append {ps : List (Nat × PageShardManifest)}
    (h : ∀ x ∈ ws, ∃ p ∈ ps, x = copyWrite c dst p)
    (hps : ∀ p ∈ ps, Belongs c objs dst (.shard dst p.1) →
      Store.get objs (.shard dst p.1) = some (c.encode p.2)) :
    Unharmed c objs (ws ++ objs) dst := by
  intro k hk
  rcases Store.get_append_cases ws objs k with hsame | ⟨b, hb, hget⟩
  · exact hsame
  · obtain ⟨p, hp, hx⟩ := h _ hb
    cases hx
    rw [hget, hps p hp hk]

theorem unharmed_of_absent
    (h : Store.get objs (.manifest dst) = none) : Unharmed c objs objs' dst := by
  intro k hk
  obtain ⟨data, hdata, -⟩ := hk.2
  rw [h] at hdata
  cases hdata

/-! ## Whole calls, whatever fails -/

theorem branchShards_writes (hnamed : ShardsNamed c w.objs src) (dst : String) (at_ : Lsn)
    (shards : Nat) : ∃ ws, (branchShards c src dst at_ shards w).2.objs = ws ++ w.objs
      ∧ (ws ≠ [] →
          (checkHorizons c src at_ (shardKeys src shards w.objs) ⟨w.objs, []⟩).1 = .ok ())
      ∧ ∀ x ∈ ws, ∃ p ∈ copies c w.objs src at_ (shardKeys src shards w.objs),
          x = copyWrite c dst p := by
  unfold branchShards
  have hquiet : ∀ x ∈ ([] : List (Key × B)), ∃ p ∈ copies c w.objs src at_
      (shardKeys src shards w.objs), x = copyWrite c dst p := nofun
  obtain ⟨w₁, hobjs₁, ⟨keys, hkeys, hlist⟩ | ⟨e, he⟩⟩ :=
    (Store.ReadOnly.read BranchError.store (shardKeys src shards)).cases w
  · obtain rfl : shardKeys src shards w.objs = keys := by
      rw [Store.read_nil rfl] at hkeys
      exact Except.ok.inj hkeys
    rw [Store.Prog.bind_ok hlist]
    obtain ⟨w₂, hobjs₂, ⟨u, hok, hchk⟩ | ⟨e, he⟩⟩ :=
      (checkHorizons_readOnly c src at_ (shardKeys src shards w.objs)).cases w₁
    · have hobjs : w₂.objs = w.objs := hobjs₂.trans hobjs₁
      have hq : w₁.quiet = ⟨w.objs, []⟩ := congrArg (Store.World.mk · []) hobjs₁
      rw [hq] at hok
      obtain ⟨ws, hws, hmem⟩ := copyShards_writes hnamed
        (shardKeys_nodup src shards w.objs) (w := w₂) fun n _ => by rw [hobjs]
      rw [Store.Prog.bind_ok hchk]
      exact ⟨ws, hws.trans (by rw [hobjs]), fun _ => hok, hmem⟩
    · rw [Store.Prog.bind_error he]
      exact ⟨[], hobjs₂.trans hobjs₁, fun h => absurd rfl h, hquiet⟩
  · rw [Store.Prog.bind_error he]
    exact ⟨[], hobjs₁, fun h => absurd rfl h, hquiet⟩

variable {atLsn : Option Lsn} {now : Nat} {parent : Manifest}

theorem landChild_harmless (hnamed : ShardsNamed c w.objs src)
    (hharm : Harmless c w.objs src dst atLsn now parent) :
    Unharmed c w.objs (landChild c src dst atLsn now parent w).2.objs dst := by
  unfold landChild
  cases hchild : childOf parent src dst atLsn now with
  | error e => exact fun k _ => rfl
  | ok child =>
    have hlift : (Store.Prog.lift (.ok child) : BranchM B Manifest) w = (.ok child, w) := rfl
    rw [Store.Prog.bind_ok hlift]
    obtain ⟨ws, hws, hpast, hmem⟩ :=
      branchShards_writes hnamed dst (branchPoint child) parent.shards
    have hun : Unharmed c w.objs (ws ++ w.objs) dst := by
      by_cases hnil : ws = []
      · subst hnil
        exact fun k _ => rfl
      · exact unharmed_append hmem fun p hp hb => hharm child hchild (hpast hnil) p hp hb
    cases hrun : branchShards c src dst (branchPoint child) parent.shards w with
    | mk r w' =>
      rw [hrun] at hws
      cases r with
      | error e =>
        rw [Store.Prog.bind_error hrun, hws]
        exact hun
      | ok u =>
        rw [Store.Prog.bind_ok hrun, Store.Prog.bind_pure_snd]
        have hman : Store.get w'.objs (.manifest dst) = Store.get w.objs (.manifest dst) :=
          (congrArg (Store.get · _) hws).trans (get_manifest_append hmem)
        -- The commit point lands on an empty key or changes nothing.
        rcases Store.putIfAbsent_cases BranchError.store (.destinationExists dst)
          (.manifest dst) (c.toJson child) w' with hsame | ⟨hnone, -⟩
        · exact fun k hk => (congrArg (Store.get · k) (hsame.trans hws)).trans (hun k hk)
        · exact unharmed_of_absent (hman.symm.trans hnone)

/-! ## Whole calls without faults -/

theorem copies_nodup (hnamed : ShardsNamed c objs src) (dst : String)
    {ns : List Nat} (hnd : ns.Nodup) :
    ((((copies c objs src at_ ns).map (copyWrite c dst)).reverse).map Prod.fst).Nodup := by
  have hkeys : ((copies c objs src at_ ns).map (copyWrite c dst)).map Prod.fst
      = ((copies c objs src at_ ns).map Prod.fst).map (Key.shard dst) := by
    rw [List.map_map, List.map_map]
    rfl
  rw [List.map_reverse, List.nodup_reverse, hkeys]
  refine List.Nodup.map ?_ ((copies_sublist hnamed ns).nodup hnd)
  intro n n' h
  injection h

/-- Onto a live tenant, a branch that gets past its checks writes every
copy and then fails: at a shard it cannot cut, or at the commit point. -/
theorem landChild_live
    {child : Manifest} {data : B} (hnamed : ShardsNamed c objs src)
    (hlive : Store.get objs (.manifest dst) = some data)
    (hchild : childOf parent src dst atLsn now = .ok child)
    (hchk : (checkHorizons c src (branchPoint child) (shardKeys src parent.shards objs)
      ⟨objs, []⟩).1 = .ok ()) :
    ∃ e, landChild c src dst atLsn now parent ⟨objs, []⟩ = (.error e,
      ⟨((copies c objs src (branchPoint child) (shardKeys src parent.shards objs)).map
        (copyWrite c dst)).reverse ++ objs, []⟩) := by
  have hlift : (Store.Prog.lift (.ok child) : BranchM B Manifest) ⟨objs, []⟩
      = (.ok child, ⟨objs, []⟩) := rfl
  have hlist : (Store.read BranchError.store (shardKeys src parent.shards) :
      BranchM B (List Nat)) ⟨objs, []⟩
      = (.ok (shardKeys src parent.shards objs), ⟨objs, []⟩) := Store.read_nil rfl
  have hfirst : checkHorizons c src (branchPoint child) (shardKeys src parent.shards objs)
      ⟨objs, []⟩ = (.ok (), ⟨objs, []⟩) :=
    Prod.ext hchk ((checkHorizons_readOnly c src _ _).quiet ⟨objs, []⟩)
  have hsecond := copyShards_nil hnamed dst (branchPoint child) (w := ⟨objs, []⟩) rfl
    (shardKeys_nodup src parent.shards objs) fun _ _ => rfl
  have hshards : branchShards c src dst (branchPoint child) parent.shards ⟨objs, []⟩
      = copyShards c src dst (branchPoint child) (shardKeys src parent.shards objs)
        ⟨objs, []⟩ := by
    unfold branchShards
    rw [Store.Prog.bind_ok hlist, Store.Prog.bind_ok hfirst]
  unfold landChild
  rw [hchild, Store.Prog.bind_ok hlift]
  cases hrun : copyShards c src dst (branchPoint child) (shardKeys src parent.shards objs)
      ⟨objs, []⟩ with
  | mk r w' =>
    rw [hrun] at hsecond hshards
    cases r with
    | error e =>
      rw [Store.Prog.bind_error hshards]
      exact ⟨e, Prod.ext rfl hsecond⟩
    | ok u =>
      rw [Store.Prog.bind_ok hshards]
      have hmem : ∀ x ∈ ((copies c objs src (branchPoint child)
          (shardKeys src parent.shards objs)).map (copyWrite c dst)).reverse,
          ∃ p ∈ copies c objs src (branchPoint child) (shardKeys src parent.shards objs),
            x = copyWrite c dst p := by
        intro x hx
        obtain ⟨p, hp, rfl⟩ := List.mem_map.mp (List.mem_reverse.mp hx)
        exact ⟨p, hp, rfl⟩
      obtain rfl : _ = w' := hsecond.symm
      have hpub : publishChild c dst child ⟨_ ++ objs, []⟩
          = (.error (.destinationExists dst), ⟨_ ++ objs, []⟩) :=
        Store.putIfAbsent_some rfl ((get_manifest_append hmem).trans hlive)
      exact ⟨_, Store.Prog.bind_error hpub⟩

theorem harmless_of_unharmed (hnamed : ShardsNamed c objs src)
    (h : ∀ e w', landChild c src dst atLsn now parent ⟨objs, []⟩ = (.error e, w') →
      Unharmed c objs w'.objs dst) : Harmless c objs src dst atLsn now parent := by
  intro child hchild hchk p hp hb
  obtain ⟨data, hlive, -⟩ := hb.2
  obtain ⟨e, hrun⟩ := landChild_live hnamed hlive hchild hchk
  have hsame := h e _ hrun _ hb
  have hput : copyWrite c dst p ∈ ((copies c objs src (branchPoint child)
      (shardKeys src parent.shards objs)).map (copyWrite c dst)).reverse :=
    List.mem_reverse.mpr (List.mem_map_of_mem hp)
  have hnew : Store.get (_ ++ objs) (.shard dst p.1) = some (c.encode p.2) :=
    Store.get_append_of_mem
      (copies_nodup hnamed dst (shardKeys_nodup src parent.shards objs)) hput
  exact hsame.symm.trans hnew

/-- Both calls are a read of the parent state and then `landChild`. -/
theorem unharmed_iff_harmless
    {x : BranchM B Manifest} (hx : Store.ReadOnly x) (hnamed : ShardsNamed c objs src) :
    (∀ acks e w', (x >>= landChild c src dst atLsn now) ⟨objs, acks⟩ = (.error e, w') →
        Unharmed c objs w'.objs dst)
      ↔ ∀ parent, (x ⟨objs, []⟩).1 = .ok parent →
          Harmless c objs src dst atLsn now parent := by
  constructor
  · intro h parent hparent
    refine harmless_of_unharmed hnamed fun e w' hrun => h [] e w' ?_
    have hread : x ⟨objs, []⟩ = (.ok parent, ⟨objs, []⟩) := Prod.ext hparent (hx.quiet ⟨objs, []⟩)
    rw [Store.Prog.bind_ok hread, hrun]
  · intro h acks e w' hrun
    obtain ⟨w₁, hobjs, ⟨parent, hparent, hread⟩ | ⟨e', hread⟩⟩ := hx.cases ⟨objs, acks⟩
    · rw [Store.Prog.bind_ok hread] at hrun
      obtain rfl : w₁.objs = objs := hobjs
      have hun := landChild_harmless hnamed (h parent hparent)
      rw [hrun] at hun
      exact hun
    · rw [Store.Prog.bind_error hread] at hrun
      cases hrun
      intro k _
      rw [hobjs]

/-- A failed branch, or a failed materialization, leaves every object
that belonged to the destination with the bytes it had, whatever store
operation fails, exactly when the call is refused before its first write
or every shard manifest it would write over one of the destination's is
there already. -/
theorem branch_unharmed_iff {objs : List (Key × B)} (hnamed : ShardsNamed c objs src)
    (dst : String) (atLsn : Option Lsn) (unixTs now : Nat) :
    ((∀ acks e w', branch c src dst atLsn now ⟨objs, acks⟩ = (.error e, w') →
        Unharmed c objs w'.objs dst)
      ↔ ∀ parent, (currentManifest c src ⟨objs, []⟩).1 = .ok parent →
          Harmless c objs src dst atLsn now parent)
    ∧ ((∀ acks e w', materializeAt c src dst unixTs now ⟨objs, acks⟩ = (.error e, w') →
        Unharmed c objs w'.objs dst)
      ↔ ∀ parent, (snapshotAt c src unixTs ⟨objs, []⟩).1 = .ok parent →
          Harmless c objs src dst none now parent) :=
  ⟨unharmed_iff_harmless (currentManifest_readOnly c src) hnamed,
    unharmed_iff_harmless (snapshotAt_readOnly c src unixTs) hnamed⟩

/-! ## A live destination -/

/-- A codec whose bytes are the documents. -/
def docCodec : Codec (Manifest ⊕ PageShardManifest) where
  toJson := .inl
  peek
    | .inl m => some ⟨m.format, false, false⟩
    | .inr _ => none
  parse
    | .inl m => some m
    | .inr _ => none
  encode := .inr
  parseShard
    | .inl _ => none
    | .inr m => some m

/-- Two tenants of one shard each, both flushed, at different points. -/
def twoTenants : List (Key × (Manifest ⊕ PageShardManifest)) :=
  [(.manifest "prod", .inl { Manifest.new "prod" 18 with
      checkpoints := [⟨"f1", 256, .full, none⟩] }),
   (.shard "prod" 0, .inr { PageShardManifest.new 0 with diskConsistentLsn := 768 }),
   (.manifest "live", .inl (Manifest.new "live" 18)),
   (.shard "live" 0, .inr { PageShardManifest.new 0 with diskConsistentLsn := 4096 })]

theorem twoTenants_named : ShardsNamed docCodec twoTenants "prod" := by
  intro n parent h
  cases n with
  | zero =>
    cases h
    rfl
  | succ n => cases h

theorem twoTenants_live : Belongs docCodec twoTenants "live" (.shard "live" 0) := by
  refine ⟨rfl, _, rfl, fun n hn m hm => ⟨0, ?_, ?_⟩⟩
  · cases hm
    decide
  · cases hm
    cases hn
    decide

/-- Branching onto a live tenant is refused, and by then its shard
manifest is the source's. -/
theorem branch_clobbers_live :
    ¬ ∀ e w', branch docCodec "prod" "live" none 1000 ⟨twoTenants, []⟩ = (.error e, w') →
      Unharmed docCodec twoTenants w'.objs "live" := by
  intro h
  have hun := h (.destinationExists "live") _ rfl (.shard "live" 0) twoTenants_live
  revert hun
  decide

/-- Onto a name nobody uses, no failure harms anything. -/
theorem branch_unharmed_fresh :
    ShardsNamed docCodec twoTenants "prod"
      ∧ ∀ acks e w', branch docCodec "prod" "child" none 1000 ⟨twoTenants, acks⟩
          = (.error e, w') → Unharmed docCodec twoTenants w'.objs "child" := by
  refine ⟨twoTenants_named, ?_⟩
  refine (branch_unharmed_iff twoTenants_named "child" none 0 1000).1.mpr ?_
  intro parent _ child _ _ p _ hb
  obtain ⟨data, hdata, -⟩ := hb.2
  cases hdata

end Zou
