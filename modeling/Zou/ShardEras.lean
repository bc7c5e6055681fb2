import Mathlib.Data.Nat.Prime.Basic
import Zou.Shards

/-!
# Serving shards over every era

A shard number is a u16 and a count is a u32. `shard_of` casts its
remainder down, and `serving_shards` casts a count before it takes the
remainder by it, so a count of 65536 divides by zero there. With a smaller
current count it returns, whatever counts the history went through, and the
shard that owned a key in any of them is in the set.
-/

namespace Zou

/-- `shard_of`, with its cast. -/
def shardOf16 (crc32c : List UInt8 → Nat) (key : LayerKey) (count : Nat) : Nat :=
  shardOf crc32c key count % 2 ^ 16

/-- The shards of the era at count `m`, where neither remainder nor quotient
is by zero. -/
def eraShards16 (shard count m : Nat) : Option (List Nat) :=
  if m ≤ count then
    if m % 2 ^ 16 = 0 then none else some [shard % (m % 2 ^ 16)]
  else if count = 0 then none
  else some ((List.range (m / count)).map fun i => (shard + i * count % 2 ^ 16) % 2 ^ 16)

/-- `serving_shards` in its own widths. -/
def servingShards16 (shard count : Nat) (history : List ShardChange) : Option (List Nat) :=
  let counts := (count :: history.flatMap fun c => [c.frm, c.to]).dedup
  (counts.mapM (eraShards16 shard count)).map fun eras =>
    eras.flatten.dedup.insertionSort (· ≤ ·)

def PowerOfTwo (m : Nat) : Prop := ∃ a, m = 2 ^ a

variable {crc32c : List UInt8 → Nat} {key : LayerKey} {count m : Nat}

theorem PowerOfTwo.dvd_of_le (hm : PowerOfTwo m) (hc : PowerOfTwo count) (h : m ≤ count) :
    m ∣ count := by
  obtain ⟨a, rfl⟩ := hm
  obtain ⟨b, rfl⟩ := hc
  exact Nat.pow_dvd_pow 2 ((Nat.pow_le_pow_iff_right (by decide)).mp h)

theorem PowerOfTwo.pos (hm : PowerOfTwo m) : 0 < m := by
  obtain ⟨a, rfl⟩ := hm
  exact Nat.two_pow_pos a

theorem shardOf_eq (h : 0 < count) : shardOf crc32c key count
    = crc32c (toLe32 key.rel ++ toLe32 (key.block / 2 ^ 14)) % count := by
  rw [shardOf, pageShard, max_eq_left (show 1 ≤ count from h)]

theorem shardOf_mod (hm : 0 < m) (hc : 0 < count) (h : m ∣ count) :
    shardOf crc32c key count % m = shardOf crc32c key m := by
  rw [shardOf_eq hm, shardOf_eq hc, Nat.mod_mod_of_dvd _ h]

theorem shardOf16_mod (hc : PowerOfTwo count) (h : m ∣ count) :
    shardOf16 crc32c key m = shardOf16 crc32c key count % m := by
  have hm : 0 < m := Nat.pos_of_dvd_of_pos h hc.pos
  have hpow : PowerOfTwo m := by
    obtain ⟨b, rfl⟩ := hc
    obtain ⟨a, -, rfl⟩ := (Nat.dvd_prime_pow Nat.prime_two).mp h
    exact ⟨a, rfl⟩
  unfold shardOf16
  rw [← shardOf_mod hm hc.pos h]
  rcases Nat.le_total m (2 ^ 16) with hle | hle
  · have hdvd := hpow.dvd_of_le ⟨16, rfl⟩ hle
    have hlt : shardOf crc32c key count % m < 2 ^ 16 := lt_of_lt_of_le (Nat.mod_lt _ hm) hle
    rw [Nat.mod_eq_of_lt hlt, Nat.mod_mod_of_dvd _ hdvd]
  · have hdvd := PowerOfTwo.dvd_of_le ⟨16, rfl⟩ hpow hle
    have hlt : shardOf crc32c key count % 2 ^ 16 < m :=
      lt_of_lt_of_le (Nat.mod_lt _ (Nat.two_pow_pos 16)) hle
    rw [Nat.mod_mod_of_dvd _ hdvd, Nat.mod_eq_of_lt hlt]

/-- An era's shards are there, and the one that owned the key is one of
them. -/
theorem mem_eraShards16 (crc32c : List UInt8 → Nat) (key : LayerKey) (hc : PowerOfTwo count) (hlt : count < 2 ^ 16) (hm : PowerOfTwo m) :
    ∃ out, eraShards16 (shardOf16 crc32c key count) count m = some out
      ∧ shardOf16 crc32c key m ∈ out := by
  unfold eraShards16
  by_cases hle : m ≤ count
  · have hm16 : m % 2 ^ 16 = m := Nat.mod_eq_of_lt (lt_of_le_of_lt hle hlt)
    rw [if_pos hle, hm16, if_neg hm.pos.ne']
    refine ⟨_, rfl, List.mem_singleton.mpr ?_⟩
    exact shardOf16_mod hc (hm.dvd_of_le hc hle)
  · have hdvd := hc.dvd_of_le hm (Nat.le_of_not_le hle)
    rw [if_neg hle, if_neg hc.pos.ne']
    refine ⟨_, rfl, List.mem_map.mpr ⟨shardOf crc32c key m / count, ?_, ?_⟩⟩
    · rw [List.mem_range, shardOf_eq hm.pos]
      exact Nat.div_lt_div_of_lt_of_dvd hdvd (Nat.mod_lt _ hm.pos)
    · -- The owner is its fold and a multiple of the count.
      have hown : shardOf crc32c key count
          + shardOf crc32c key m / count * count = shardOf crc32c key m := by
        rw [← shardOf_mod hc.pos hm.pos hdvd, Nat.mul_comm]
        exact Nat.mod_add_div ..
      have hsmall : shardOf crc32c key count < 2 ^ 16 := by
        rw [shardOf_eq hc.pos]
        exact lt_trans (Nat.mod_lt _ hc.pos) hlt
      unfold shardOf16
      rw [Nat.mod_eq_of_lt hsmall, Nat.add_mod_mod, hown]

theorem mapM_some_of_forall {α β : Type} {f : α → Option β} : ∀ {xs : List α},
    (∀ x ∈ xs, ∃ y, f x = some y) →
      ∃ ys, xs.mapM f = some ys ∧ ∀ x ∈ xs, ∀ y, f x = some y → y ∈ ys := by
  intro xs
  induction xs with
  | nil => exact fun _ => ⟨[], rfl, nofun⟩
  | cons x xs ih =>
    intro h
    obtain ⟨y, hy⟩ := h x List.mem_cons_self
    obtain ⟨ys, hys, hall⟩ := ih fun x' hx' => h x' (.tail _ hx')
    refine ⟨y :: ys, by simp [List.mapM_cons, hy, hys], fun x' hx' y' hy' => ?_⟩
    rcases List.mem_cons.mp hx' with rfl | hx'
    · cases hy.symm.trans hy'
      exact List.mem_cons_self
    · exact .tail _ (hall x' hx' y' hy')

theorem servingShards16_eq {shard : Nat} {history : List ShardChange} (hs : shard < count)
    (hc : PowerOfTwo count) (hlt : count < 2 ^ 16)
    (hhist : ∀ c ∈ history, PowerOfTwo c.frm ∧ PowerOfTwo c.to ∧ c.frm < 2 ^ 16 ∧ c.to < 2 ^ 16) :
    servingShards16 shard count history = some (servingShards shard count history) := by
  have hera : ∀ m, PowerOfTwo m → m < 2 ^ 16 → eraShards16 shard count m
      = some (if m ≤ count then [shard % m]
        else (List.range (m / count)).map fun i => shard + i * count) := by
    intro m hm hm16
    unfold eraShards16
    rw [Nat.mod_eq_of_lt hm16, if_neg hm.pos.ne', if_neg hc.pos.ne']
    by_cases hle : m ≤ count
    · rw [if_pos hle, if_pos hle]
    · rw [if_neg hle, if_neg hle]
      refine congrArg some (List.map_congr_left fun i hi => ?_)
      have hi' : i + 1 ≤ m / count := List.mem_range.mp hi
      have hsum : (i + 1) * count ≤ m :=
        (Nat.mul_le_mul_right _ hi').trans (Nat.div_mul_le_self m count)
      rw [Nat.add_mul, Nat.one_mul] at hsum
      rw [Nat.mod_eq_of_lt (show i * count < 2 ^ 16 by omega),
        Nat.mod_eq_of_lt (show shard + i * count < 2 ^ 16 by omega)]
  have hmap : ∀ ms : List Nat, (∀ m ∈ ms, PowerOfTwo m ∧ m < 2 ^ 16) →
      ms.mapM (eraShards16 shard count) = some (ms.map fun m => if m ≤ count then [shard % m]
        else (List.range (m / count)).map fun i => shard + i * count) := by
    intro ms
    induction ms with
    | nil => exact fun _ => rfl
    | cons m ms ih =>
      intro h
      obtain ⟨hm, hm16⟩ := h m List.mem_cons_self
      rw [List.mapM_cons, hera m hm hm16, ih fun m' hm' => h m' (.tail _ hm')]
      rfl
  unfold servingShards16 servingShards
  dsimp only
  rw [hmap _ fun m hm => ?_]
  · rfl
  · rw [List.mem_dedup, List.mem_cons, List.mem_flatMap] at hm
    rcases hm with rfl | ⟨c, hc', hm⟩
    · exact ⟨hc, hlt⟩
    · obtain ⟨h1, h2, h3, h4⟩ := hhist c hc'
      rcases List.mem_cons.mp hm with rfl | hm
      · exact ⟨h1, h3⟩
      · rw [List.mem_singleton.mp hm]
        exact ⟨h2, h4⟩

/-- While the current count is a u16, a shard serves from the shards that
owned its keys in every era of a history of powers of two; and folding is
the remainder, at any count. -/
theorem serving_shards_cover {history : List ShardChange} (hc : PowerOfTwo count)
    (hhist : ∀ c ∈ history, PowerOfTwo c.frm ∧ PowerOfTwo c.to) : (count < 2 ^ 16 → ∃ out,
        servingShards16 (shardOf16 crc32c key count) count history = some out
        ∧ shardOf16 crc32c key count ∈ out
        ∧ ∀ c ∈ history, shardOf16 crc32c key c.frm ∈ out ∧ shardOf16 crc32c key c.to ∈ out)
      ∧ ∀ m, m ∣ count → shardOf16 crc32c key m = shardOf16 crc32c key count % m := by
  refine ⟨fun hlt => ?_, fun m => shardOf16_mod hc⟩
  have hmem : ∀ m, m ∈ (count :: history.flatMap fun c => [c.frm, c.to]).dedup
      ↔ m = count ∨ ∃ c ∈ history, m = c.frm ∨ m = c.to := by
    intro m
    simp [List.mem_dedup]
  have hpow : ∀ m ∈ (count :: history.flatMap fun c => [c.frm, c.to]).dedup, PowerOfTwo m := by
    intro m hm
    rcases (hmem m).mp hm with rfl | ⟨c, hc', rfl | rfl⟩
    · exact hc
    · exact (hhist c hc').1
    · exact (hhist c hc').2
  obtain ⟨eras, heras, hall⟩ := mapM_some_of_forall fun m hm =>
    (mem_eraShards16 crc32c key hc hlt (hpow m hm)).imp fun out h => h.1
  have howner : ∀ m ∈ (count :: history.flatMap fun c => [c.frm, c.to]).dedup,
      shardOf16 crc32c key m ∈ eras.flatten.dedup.insertionSort (· ≤ ·) := by
    intro m hm
    obtain ⟨out, hout, hin⟩ := mem_eraShards16 crc32c key hc hlt (hpow m hm)
    rw [List.mem_insertionSort, List.mem_dedup]
    exact List.mem_flatten.mpr ⟨out, hall m hm out hout, hin⟩
  refine ⟨_, by rw [servingShards16, heras]; rfl, howner _ ((hmem _).mpr (.inl rfl)),
    fun c hc' => ⟨howner _ ((hmem _).mpr (.inr ⟨c, hc', .inl rfl⟩)),
      howner _ ((hmem _).mpr (.inr ⟨c, hc', .inr rfl⟩))⟩⟩

/-- A tenant of two shards that had eight once and four since. -/
def eightOnce : List ShardChange := [⟨4, 8, 0, 0⟩, ⟨8, 4, 0, 0⟩, ⟨4, 2, 0, 0⟩]

theorem serving_shards_cover_eightOnce :
    ∃ out, servingShards16 (shardOf16 (fun _ => 5) (.page 1663 5 90 0 0) 2) 2 eightOnce = some out
      ∧ 5 ∈ out := by
  have htwo : PowerOfTwo 2 := ⟨1, rfl⟩
  have hfour : PowerOfTwo 4 := ⟨2, rfl⟩
  have height : PowerOfTwo 8 := ⟨3, rfl⟩
  have hhist : ∀ c ∈ eightOnce, PowerOfTwo c.frm ∧ PowerOfTwo c.to := by
    intro c hc
    simp only [eightOnce, List.mem_cons, List.not_mem_nil, or_false] at hc
    rcases hc with rfl | rfl | rfl
    · exact ⟨hfour, height⟩
    · exact ⟨height, hfour⟩
    · exact ⟨hfour, htwo⟩
  obtain ⟨out, hout, -, hall⟩ := (serving_shards_cover htwo hhist).1 (by decide)
  exact ⟨out, hout, (hall ⟨4, 8, 0, 0⟩ List.mem_cons_self).2⟩

/-- At 65536 shards the call does not return. -/
theorem serving_shards_divides_by_zero :
    ¬ ∀ (crc32c : List UInt8 → Nat) (key : LayerKey) (count : Nat) (history : List ShardChange),
      PowerOfTwo count → (∀ c ∈ history, PowerOfTwo c.frm ∧ PowerOfTwo c.to) →
      ∃ out, servingShards16 (shardOf16 crc32c key count) count history = some out
        ∧ ∀ c ∈ history, shardOf16 crc32c key c.frm ∈ out ∧ shardOf16 crc32c key c.to ∈ out := by
  intro h
  obtain ⟨out, hout, -⟩ := h (fun _ => 0) (.page 1663 5 90 0 0) (2 ^ 16) [] ⟨16, rfl⟩
    nofun
  have hnone : eraShards16 (shardOf16 (fun _ => 0) (.page 1663 5 90 0 0) (2 ^ 16)) (2 ^ 16)
      (2 ^ 16) = none := by
    unfold eraShards16
    rw [if_pos le_rfl, Nat.mod_self, if_pos rfl]
  have hcounts : (2 ^ 16 :: ([] : List ShardChange).flatMap fun c => [c.frm, c.to]).dedup
      = [2 ^ 16] := List.dedup_eq_self.mpr (List.nodup_singleton _)
  rw [servingShards16, hcounts, List.mapM_cons, hnone] at hout
  cases hout

end Zou
