import Mathlib.Data.List.Chain
import Zou.Reshard
import Zou.ShardEras

/-!
# Lineages over whole histories of resizes

Splits, merges and prunes of the lineage come in any order, each over the
shard manifests of its moment, between updates that leave the shards
alone. The lineage they leave is a chain of eras from one power of two to
the next, all within the ceiling, so no cast of `serving_shards` loses
anything. Where an era ends, a shard that has nothing of its own resumes at
or below every shard of it.
-/

namespace Zou

open Trace

/-- One update of the tenant manifest. -/
inductive ManifestStep where
  | split (objs : List (ShardKey × ShardObj)) (unix : Nat)
  | merge (objs : List (ShardKey × ShardObj)) (unix : Nat)
  | prune (objs : List (ShardKey × ShardObj))
  /-- A lease, a checkpoint or anything else. -/
  | other (m : Manifest)

def reshard (m : Manifest) : ManifestStep → Option Manifest
  | .split objs unix => (split objs m unix).toOption
  | .merge objs unix => (merge objs m unix).toOption
  | .prune objs => (pruneLineage objs m).toOption.join
  | .other m' => if m'.shards = m.shards ∧ m'.shardHistory = m.shardHistory then some m' else none

/-- Each era begins where the one before ended, the last one is the current
one, and counts are doubled or halved within the ceiling. -/
structure ShardLineage (m : Manifest) : Prop where
  count : PowerOfTwo m.shards
  ceiling : m.shards ≤ maxPageShards
  chain : m.shardHistory.IsChain fun a b => a.to = b.frm
  last : ∀ c ∈ m.shardHistory.getLast?, c.to = m.shards
  eras : ∀ c ∈ m.shardHistory, PowerOfTwo c.frm ∧ PowerOfTwo c.to
    ∧ c.frm ≤ maxPageShards ∧ c.to ≤ maxPageShards ∧ (c.to = c.frm * 2 ∨ c.frm = c.to * 2)

variable {crc32c : List UInt8 → Nat} {key : LayerKey} {m m' : Manifest}
  {objs : List (ShardKey × ShardObj)}

/-! ## One update -/

/-- Everything a resize can do. -/
theorem change_ok {grow : Bool} {unix : Nat} (h : change objs m grow unix = .ok m') :
    ∃ at_, eraFloor objs m = .ok at_
      ∧ m'.shardHistory = m.shardHistory ++ [⟨m.shards, m'.shards, at_, unix⟩]
      ∧ if grow then m.shards < maxPageShards ∧ m'.shards = m.shards * 2
        else 2 ≤ m.shards ∧ m'.shards = m.shards / 2 := by
  unfold change at h
  split at h
  · cases h
  · rename_i hceiling
    split at h
    · cases h
    · rename_i hfloor
      cases hat : eraFloor objs m with
      | error e => rw [hat] at h; cases h
      | ok at_ =>
        rw [hat] at h
        cases h
        cases grow with
        | true => exact ⟨at_, rfl, rfl, not_le.mp fun hle => hceiling ⟨rfl, hle⟩, rfl⟩
        | false => exact ⟨at_, rfl, rfl, not_lt.mp fun hlt => hfloor ⟨by decide, hlt⟩, rfl⟩

theorem pruneLineage_ok (h : pruneLineage objs m = .ok (some m')) :
    m' = m ∧ m.shardHistory = [] ∨ m' = { m with shardHistory := [] } := by
  unfold pruneLineage at h
  split at h
  · rename_i hnil
    exact .inl ⟨(Option.some.inj (Except.ok.inj h)).symm, hnil⟩
  · split at h
    · cases h
    · exact .inr (Option.some.inj (Except.ok.inj h)).symm
    · cases h

theorem ShardLineage.change {grow : Bool} {unix : Nat} (h : ShardLineage m)
    (hc : change objs m grow unix = .ok m') : ShardLineage m' := by
  obtain ⟨at_, -, hhist, hcount⟩ := change_ok hc
  obtain ⟨a, ha⟩ := h.count
  have hnew : PowerOfTwo m'.shards ∧ m'.shards ≤ maxPageShards
      ∧ (m'.shards = m.shards * 2 ∨ m.shards = m'.shards * 2) := by
    cases grow with
    | true =>
      obtain ⟨hlt, heq⟩ := hcount
      have hexp : a < 12 := (Nat.pow_lt_pow_iff_right (by decide)).mp (ha ▸ hlt)
      have hpow : m'.shards = 2 ^ (a + 1) := by rw [heq, ha, Nat.pow_succ]
      refine ⟨⟨a + 1, hpow⟩, ?_, .inl heq⟩
      rw [hpow]
      exact (Nat.pow_le_pow_iff_right (by decide)).mpr (show a + 1 ≤ 12 from hexp)
    | false =>
      obtain ⟨hle, heq⟩ := hcount
      cases a with
      | zero => rw [ha] at hle; exact absurd hle (by decide)
      | succ a =>
        have hhalf : m'.shards = 2 ^ a := by
          rw [heq, ha, Nat.pow_succ, Nat.mul_div_cancel _ (by decide)]
        exact ⟨⟨a, hhalf⟩, heq ▸ (Nat.div_le_self ..).trans h.ceiling,
          .inr (by rw [ha, hhalf, Nat.pow_succ])⟩
  refine ⟨hnew.1, hnew.2.1, ?_, fun c hcl => ?_, fun c hmem => ?_⟩
  · rw [hhist]
    refine List.isChain_append.mpr ⟨h.chain, List.isChain_singleton _, fun x hx y hy => ?_⟩
    cases hy
    exact h.last x hx
  · rw [hhist, List.getLast?_concat] at hcl
    cases hcl
    rfl
  · rw [hhist] at hmem
    rcases List.mem_append.mp hmem with hmem | hmem
    · exact h.eras c hmem
    · rw [List.mem_singleton.mp hmem]
      exact ⟨h.count, hnew.1, h.ceiling, hnew.2.1, hnew.2.2⟩

theorem ShardLineage.reshard {l : ManifestStep} (h : ShardLineage m) (hn : reshard m l = some m') :
    ShardLineage m' := by
  have hok : ∀ {r : Except ShardError Manifest}, r.toOption = some m' → r = .ok m' := by
    intro r hr
    cases r with
    | error e => cases hr
    | ok x => rw [Option.some.inj hr]
  cases l with
  | split objs unix => exact h.change (hok hn)
  | merge objs unix => exact h.change (hok hn)
  | prune objs =>
    have hr : pruneLineage objs m = .ok (some m') := by
      simp only [Zou.reshard] at hn
      cases hp : pruneLineage objs m with
      | error e => rw [hp] at hn; cases hn
      | ok o => rw [hp] at hn; exact congrArg _ hn
    rcases pruneLineage_ok hr with ⟨rfl, -⟩ | rfl
    · exact h
    · exact ⟨h.count, h.ceiling, List.isChain_nil, nofun,
        nofun⟩
  | other x =>
    obtain ⟨⟨hs, hh⟩, heq⟩ := Option.ite_none_right_eq_some.mp hn
    cases heq
    exact ⟨hs ▸ h.count, hs ▸ h.ceiling, hh ▸ h.chain, hh ▸ hs ▸ h.last, hh ▸ h.eras⟩

/-! ## What a shard serves and where it resumes -/

/-- The owner of a key in an era is among the shards its owner of now
serves from. -/
theorem era_mem_servingShards {count n : Nat} {history : List ShardChange} (hc : PowerOfTwo count)
    (hn : PowerOfTwo n) (hera : ∃ c ∈ history, n = c.frm ∨ n = c.to) :
    shardOf crc32c key n ∈ servingShards (shardOf crc32c key count) count history := by
  unfold servingShards
  rw [List.mem_insertionSort, List.mem_dedup, List.mem_flatMap]
  refine ⟨n, ?_, ?_⟩
  · rw [List.mem_dedup]
    obtain ⟨c, hmem, heq⟩ := hera
    exact .tail _ (List.mem_flatMap.mpr ⟨c, hmem, by simpa using heq⟩)
  · split
    · rename_i hle
      rw [shardOf_mod hn.pos hc.pos (hn.dvd_of_le hc hle)]
      exact List.mem_singleton_self _
    · rename_i hle
      have hdvd := hc.dvd_of_le hn (Nat.le_of_not_le hle)
      refine List.mem_map.mpr ⟨shardOf crc32c key n / count, ?_, ?_⟩
      · rw [List.mem_range, shardOf_eq hn.pos]
        exact Nat.div_lt_div_of_lt_of_dvd hdvd (Nat.mod_lt _ hn.pos)
      · rw [← shardOf_mod hc.pos hn.pos hdvd, Nat.mul_comm]
        exact Nat.mod_add_div ..

theorem eraFloorOf_le {ss : List Nat} {floor : Option Lsn} (h : eraFloorOf objs m ss = .ok floor) :
    ∀ s ∈ ss, ∃ own f, loadManifest objs s = .ok own ∧ floor = some f
      ∧ f ≤ resumeFloor m (own.map PageShardManifest.diskConsistentLsn) := by
  induction ss generalizing floor with
  | nil => exact nofun
  | cons s ss ih =>
    unfold eraFloorOf at h
    split at h
    · cases h
    · rename_i own hload
      split at h
      · cases h
      · rename_i rest hrest
        cases h
        intro s' hs'
        rcases List.mem_cons.mp hs' with rfl | hs'
        · refine ⟨own, _, hload, rfl, ?_⟩
          cases rest with
          | none => exact le_refl _
          | some r => exact min_le_left ..
        · obtain ⟨own', f, hload', rfl, hle⟩ := ih hrest s' hs'
          exact ⟨own', _, hload', rfl, (min_le_right ..).trans hle⟩

theorem change_resumes {grow : Bool} {unix : Nat} (h : change objs m grow unix = .ok m') {s : Nat}
    (hs : s < m.shards) : ∃ own, loadManifest objs s = .ok own
      ∧ resumeFloor m' none ≤ resumeFloor m (own.map PageShardManifest.diskConsistentLsn) := by
  obtain ⟨at_, hat, hhist, -⟩ := change_ok h
  unfold eraFloor at hat
  split at hat
  · cases hat
  · rename_i floor hfloor
    cases hat
    obtain ⟨own, f, hload, rfl, hle⟩ := eraFloorOf_le hfloor s (List.mem_range.mpr hs)
    refine ⟨own, hload, ?_⟩
    unfold resumeFloor
    rw [hhist, List.getLast?_concat]
    exact hle

/-- Over every history of resizes and prunes of a tenant that began with
one shard: the lineage is a chain of doublings and halvings that ends at
the current count, serving sets are computed without loss and hold the
owner of every key in every era, and the next resize lets no shard resume
above a shard of the era it ends. -/
theorem resizes_serve {m₀ : Manifest} {ls : List ManifestStep} (h0 : m₀.shards = 1)
    (hh : m₀.shardHistory = []) (hr : run reshard m₀ ls = some m) : ShardLineage m
      ∧ (∀ crc32c key, let shard := shardOf16 crc32c key m.shards
        servingShards16 shard m.shards m.shardHistory
            = some (servingShards shard m.shards m.shardHistory)
          ∧ ∀ c ∈ m.shardHistory, ∀ n, n = c.frm ∨ n = c.to →
            shardOf16 crc32c key n ∈ servingShards shard m.shards m.shardHistory)
      ∧ ∀ objs grow unix m', change objs m grow unix = .ok m' → ∀ s < m.shards,
        ∃ own, loadManifest objs s = .ok own
          ∧ resumeFloor m' none ≤ resumeFloor m (own.map PageShardManifest.diskConsistentLsn) := by
  have hl : ShardLineage m := run_invariant (fun _ _ _ => ShardLineage.reshard)
    ⟨⟨0, h0⟩, h0 ▸ by decide, hh ▸ List.isChain_nil, by simp [hh], by simp [hh]⟩ hr
  have hsmall : ∀ {n}, n ≤ maxPageShards → n < 2 ^ 16 := fun h => lt_of_le_of_lt h (by decide)
  refine ⟨hl, fun crc32c key => ?_, fun objs grow unix m' hc s hs => change_resumes hc hs⟩
  have hown : ∀ {n}, PowerOfTwo n → n ≤ maxPageShards →
      shardOf crc32c key n < n ∧ shardOf16 crc32c key n = shardOf crc32c key n := by
    intro n hn hle
    have hlt : shardOf crc32c key n < n := by
      rw [shardOf_eq hn.pos]
      exact Nat.mod_lt _ hn.pos
    exact ⟨hlt, Nat.mod_eq_of_lt (hlt.trans (hsmall hle))⟩
  obtain ⟨hlt, heq⟩ := hown hl.count hl.ceiling
  refine ⟨servingShards16_eq (heq ▸ hlt) hl.count (hsmall hl.ceiling) fun c hc => ?_,
    fun c hc n hn => ?_⟩
  · obtain ⟨hfrm, hto, hf, ht, -⟩ := hl.eras c hc
    exact ⟨hfrm, hto, hsmall hf, hsmall ht⟩
  · obtain ⟨hfrm, hto, hf, ht, -⟩ := hl.eras c hc
    have hpow : PowerOfTwo n ∧ n ≤ maxPageShards := by
      rcases hn with rfl | rfl
      · exact ⟨hfrm, hf⟩
      · exact ⟨hto, ht⟩
    rw [heq, (hown hpow.1 hpow.2).2]
    exact era_mem_servingShards hl.count hpow.1 ⟨c, hc, hn⟩

/-- Two splits and a merge of a tenant without shard manifests. -/
theorem resizes_serve_two : ∃ m, run reshard (.new "t" 17) [.split [] 1, .split [] 2, .merge [] 3]
    = some m ∧ ShardLineage m ∧ m.shards = 2 := by
  have hr : run reshard (.new "t" 17) [.split [] 1, .split [] 2, .merge [] 3] = some _ := rfl
  exact ⟨_, hr, (resizes_serve rfl rfl hr).1, rfl⟩

end Zou
