import Zou.Lib.Ranking
import Zou.Placement

/-!
# What a roster change moves

`rank` is a stable ranking by score, so a node that leaves leaves a gap in
it and a node that joins takes one place, and the others keep their order.
A pin is looked up in the roster first, and one that names a node that is
not there counts for nothing.
-/

namespace Zou

namespace ShardMap

variable (score : String → String → Nat → Nat)

/-- The map without a node. Its pins stay. -/
def without (m : ShardMap) (id : String) : ShardMap :=
  { m with nodes := m.nodes.filter fun n => n.id ≠ id }

/-- The node a pin puts the shard on. -/
def pinned (m : ShardMap) (tenantRef : String) (shard : Nat) : Option Node :=
  (m.pins.find? fun p => p.tenant = tenantRef ∧ p.shard = shard).bind fun p =>
    m.nodes.find? fun n => n.id = p.node

/-- The node ranked right after `id`. -/
def nextRanked (m : ShardMap) (tenantRef : String) (shard : Nat) (id : String) : Option Node :=
  ((m.rank score tenantRef shard).dropWhile fun n => n.id ≠ id).find? fun n => n.id ≠ id

variable {score} {m : ShardMap} {tenantRef : String} {shard : Nat}

theorem nodeFor_eq : m.nodeFor score tenantRef shard
    = (m.pinned tenantRef shard).or (m.rank score tenantRef shard).head? := rfl

/-- A node ranks before another when it scores at least as high. -/
def Beats (score : String → String → Nat → Nat) (tenantRef : String) (shard : Nat)
    (a b : Node) : Prop :=
  score b.id tenantRef shard ≤ score a.id tenantRef shard

instance : DecidableRel (Beats score tenantRef shard) := fun _ _ => Nat.decLe _ _

theorem beats_total (a b : Node) :
    Beats score tenantRef shard a b ∨ Beats score tenantRef shard b a := Nat.le_total _ _

theorem beats_trans (a b c : Node) (h : Beats score tenantRef shard a b)
    (h' : Beats score tenantRef shard b c) : Beats score tenantRef shard a c := Nat.le_trans h' h

theorem rank_eq : m.rank score tenantRef shard
    = m.nodes.insertionSort (Beats score tenantRef shard) :=
  Ranking.mergeSort_eq beats_total beats_trans m.nodes

theorem rank_without (id : String) : (m.without id).rank score tenantRef shard
    = (m.rank score tenantRef shard).filter fun n => n.id ≠ id := by
  rw [rank_eq, rank_eq]
  exact Ranking.insertionSort_filter beats_total beats_trans _ m.nodes

variable {id : String}

theorem pinned_without : (m.without id).pinned tenantRef shard
    = (m.pinned tenantRef shard).filter fun n => n.id ≠ id := by
  unfold pinned without
  cases m.pins.find? fun p => p.tenant = tenantRef ∧ p.shard = shard with
  | none => rfl
  | some p =>
    dsimp only [Option.bind_some]
    by_cases hid : p.node = id
    · -- The pinned node is the one that left.
      have hout : (m.nodes.filter fun n => n.id ≠ id).find? (fun n => n.id = p.node) = none := by
        rw [List.find?_eq_none]
        intro n hn
        have hne := (List.mem_filter.mp hn).2
        simpa [hid] using hne
      have hin : ∀ q, m.nodes.find? (fun n => decide (n.id = p.node)) = some q → q.id = id := by
        intro q hq
        have := List.find?_some hq
        rw [decide_eq_true_eq] at this
        rw [this, hid]
      rw [hout]
      cases hq : m.nodes.find? fun n => decide (n.id = p.node) with
      | none => rfl
      | some q => simp [Option.filter, hin q hq]
    · rw [List.find?_filter]
      have hsame : (fun n : Node =>
            decide (decide (n.id ≠ id) = true ∧ decide (n.id = p.node) = true))
          = fun n => decide (n.id = p.node) := by
        funext n
        by_cases hn : n.id = p.node
        · simp [hn, hid]
        · simp [hn]
      rw [hsame]
      cases hq : m.nodes.find? fun n => decide (n.id = p.node) with
      | none => rfl
      | some q =>
        have hq' := List.find?_some hq
        rw [decide_eq_true_eq] at hq'
        simp [Option.filter, hq', hid]

theorem nodeFor_without_of_ne {q : Node} (h : m.nodeFor score tenantRef shard = some q)
    (hq : q.id ≠ id) : (m.without id).nodeFor score tenantRef shard = some q := by
  rw [nodeFor_eq] at h ⊢
  rw [pinned_without, rank_without]
  cases hp : m.pinned tenantRef shard with
  | some n =>
    rw [hp] at h
    obtain rfl : n = q := Option.some.inj h
    simp [Option.filter, hq]
  | none =>
    rw [hp, Option.none_or] at h
    rw [Option.filter_none, Option.none_or, List.head?_filter]
    obtain ⟨rest, hrank⟩ : ∃ rest, m.rank score tenantRef shard = q :: rest := by
      cases hr : m.rank score tenantRef shard with
      | nil =>
        rw [hr] at h
        cases h
      | cons a rest =>
        rw [hr] at h
        obtain rfl : a = q := Option.some.inj h
        exact ⟨rest, rfl⟩
    rw [hrank, List.find?_cons_of_pos (by simpa using hq)]

theorem nodeFor_without_of_eq {q : Node} (h : m.nodeFor score tenantRef shard = some q)
    (hq : q.id = id) : (m.without id).nodeFor score tenantRef shard
      = (m.rank score tenantRef shard).find? fun n => n.id ≠ id := by
  rw [nodeFor_eq] at h ⊢
  rw [pinned_without, rank_without, List.head?_filter]
  cases hp : m.pinned tenantRef shard with
  | some n =>
    rw [hp] at h
    obtain rfl : n = q := Option.some.inj h
    simp [Option.filter, hq]
  | none => rfl

theorem nextRanked_of_head {q : Node} (h : (m.rank score tenantRef shard).head? = some q)
    (hq : q.id = id) : m.nextRanked score tenantRef shard id
      = (m.rank score tenantRef shard).find? fun n => n.id ≠ id := by
  unfold nextRanked
  cases hr : m.rank score tenantRef shard with
  | nil => rfl
  | cons a rest =>
    rw [hr] at h
    obtain rfl : a = q := Option.some.inj h
    rw [List.dropWhile_cons_of_neg (by simp [hq])]

/-- A node that joins, anywhere in the roster, serves what it serves and
the rest stays. -/
theorem nodeFor_insert (n : Node) (as bs : List Node) {before after : ShardMap}
    (hb : before.nodes = as ++ bs) (ha : after.nodes = as ++ n :: bs)
    (hpins : after.pins = before.pins) :
    after.nodeFor score tenantRef shard = before.nodeFor score tenantRef shard
      ∨ after.nodeFor score tenantRef shard = some n := by
  obtain ⟨xs, ys, hxs, hys⟩ :=
    Ranking.insertionSort_insert (r := Beats score tenantRef shard) beats_total beats_trans n as bs
  rw [nodeFor_eq, nodeFor_eq, rank_eq, rank_eq, ha, hb, hxs, hys]
  have hpin : after.pinned tenantRef shard = before.pinned tenantRef shard
      ∨ after.pinned tenantRef shard = some n := by
    unfold pinned
    rw [hpins, ha, hb]
    cases before.pins.find? fun p => p.tenant = tenantRef ∧ p.shard = shard with
    | none => exact .inl rfl
    | some p =>
      dsimp only [Option.bind_some]
      rw [List.find?_append, List.find?_append, List.find?_cons]
      cases as.find? fun n => decide (n.id = p.node) with
      | some q => exact .inl rfl
      | none =>
        cases decide (n.id = p.node) with
        | true => exact .inr rfl
        | false => exact .inl rfl
  rcases hpin with hpin | hpin
  · rw [hpin]
    cases before.pinned tenantRef shard with
    | some q => exact .inl rfl
    | none =>
      cases xs with
      | nil => exact .inr rfl
      | cons x xs => exact .inl rfl
  · exact .inr (by rw [hpin]; rfl)

/-- A node that leaves moves only its own shards: one the hash gave it goes
to the node ranked next, one a pin gave it to the best of the others. A
node that joins moves shards onto itself only. -/
theorem roster_moves (score : String → String → Nat → Nat) (m : ShardMap) (tenantRef : String)
    (shard : Nat) :
    (∀ id, (m.without id).nodeFor score tenantRef shard ≠ m.nodeFor score tenantRef shard →
        ∃ q, m.nodeFor score tenantRef shard = some q ∧ q.id = id)
      ∧ (∀ id q, m.nodeFor score tenantRef shard = some q → q.id = id →
        (m.without id).nodeFor score tenantRef shard
          = if (m.pinned tenantRef shard).isSome
            then (m.rank score tenantRef shard).find? fun n => n.id ≠ id
            else m.nextRanked score tenantRef shard id)
      ∧ ∀ n as bs, m.nodes = as ++ bs →
        ({ m with nodes := as ++ n :: bs }).nodeFor score tenantRef shard
            ≠ m.nodeFor score tenantRef shard →
          ({ m with nodes := as ++ n :: bs }).nodeFor score tenantRef shard = some n := by
  refine ⟨fun id hne => ?_, fun id q hserved hq => ?_, fun n as bs hnodes hne => ?_⟩
  · cases hserved : m.nodeFor score tenantRef shard with
    | none =>
      rw [hserved] at hne
      refine absurd ?_ hne
      rw [nodeFor_eq, Option.or_eq_none_iff] at hserved ⊢
      rw [pinned_without, rank_without, hserved.1, List.head?_eq_none_iff.mp hserved.2]
      exact ⟨rfl, rfl⟩
    | some q =>
      refine ⟨q, rfl, ?_⟩
      by_contra hid
      exact hne ((nodeFor_without_of_ne hserved hid).trans hserved.symm)
  · rw [nodeFor_without_of_eq hserved hq]
    cases hp : m.pinned tenantRef shard with
    | some p => rfl
    | none =>
      rw [nodeFor_eq, hp, Option.none_or] at hserved
      exact (nextRanked_of_head hserved hq).symm
  · have hcases : ({ m with nodes := as ++ n :: bs }).nodeFor score tenantRef shard
          = m.nodeFor score tenantRef shard
        ∨ ({ m with nodes := as ++ n :: bs }).nodeFor score tenantRef shard = some n :=
      nodeFor_insert n as bs hnodes rfl rfl
    rcases hcases with hsame | hnew
    · exact absurd hsame hne
    · exact hnew

/-- A shard pinned to the second of three nodes. -/
def pinnedMap : ShardMap :=
  { ShardMap.empty with
    nodes := [⟨"a", ""⟩, ⟨"b", ""⟩, ⟨"c", ""⟩]
    pins := [⟨"t", 0, "b"⟩] }

/-- When the pinned node leaves, its shard goes to the first of the
ranking and not to the node after it. -/
theorem pinned_moves_to_the_best :
    ¬ ∀ (score : String → String → Nat → Nat) (m : ShardMap) (tenantRef : String) (shard : Nat)
      (id : String) (q : Node), m.nodeFor score tenantRef shard = some q → q.id = id →
        (m.without id).nodeFor score tenantRef shard = m.nextRanked score tenantRef shard id := by
  intro h
  have hpin : pinnedMap.nodeFor (fun _ _ _ => 0) "t" 0 = some ⟨"b", ""⟩ := by decide
  have heq := h (fun _ _ _ => 0) pinnedMap "t" 0 "b" ⟨"b", ""⟩ hpin rfl
  rw [nodeFor_without_of_eq hpin rfl, nextRanked, rank_eq] at heq
  revert heq
  decide

end ShardMap

end Zou
