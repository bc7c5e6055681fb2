import Mathlib.Algebra.Order.Ring.Nat

/-!
# Looking for the next number

A search that walks up from a number, or down from one, so far and no
further, and what it finds for another property than the one it looks at.
-/

namespace Search

/-- The first number from `n` on that passes, of so many. -/
def up (p : Int → Bool) : Nat → Int → Option Int
  | 0, _ => none
  | fuel + 1, n => if p n then some n else up p fuel (n + 1)

/-- The last number up to `n` that passes, of so many. -/
def down (p : Int → Bool) : Nat → Int → Option Int
  | 0, _ => none
  | fuel + 1, n => if p n then some n else down p fuel (n - 1)

/-- The first number from `n` on with a property. -/
def IsFirst (q : Int → Prop) (n m : Int) : Prop :=
  n ≤ m ∧ q m ∧ ∀ k, n ≤ k → k < m → ¬ q k

/-- The last number up to `n` with a property. -/
def IsLast (q : Int → Prop) (n m : Int) : Prop :=
  m ≤ n ∧ q m ∧ ∀ k, k ≤ n → m < k → ¬ q k

variable {p : Int → Bool} {n : Int} {fuel : Nat}

theorem up_eq_some {m : Int} :
    up p fuel n = some m ↔ m < n + fuel ∧ IsFirst (fun k => p k = true) n m := by
  induction fuel generalizing n with
  | zero =>
    constructor
    · nofun
    · rintro ⟨hlt, hle, -⟩
      omega
  | succ fuel ih =>
    rw [up]
    by_cases hp : p n = true
    · rw [if_pos hp]
      constructor
      · intro h
        cases h
        exact ⟨by omega, Int.le_refl _, hp, fun k hle hlt => by omega⟩
      · rintro ⟨-, hle, -, hbefore⟩
        rcases Int.lt_or_eq_of_le hle with hlt | rfl
        · exact absurd hp (hbefore n (Int.le_refl _) hlt)
        · rfl
    · rw [if_neg hp, ih]
      constructor
      · rintro ⟨hlt, hle, hm, hbefore⟩
        refine ⟨by omega, by omega, hm, fun k hk hkm => ?_⟩
        rcases Int.lt_or_eq_of_le hk with hlt | rfl
        · exact hbefore k (by omega) hkm
        · exact hp
      · rintro ⟨hlt, hle, hm, hbefore⟩
        have hne : n ≠ m := fun heq => hp (heq ▸ hm)
        exact ⟨by omega, by omega, hm, fun k hk hkm => hbefore k (by omega) hkm⟩

theorem up_eq_none :
    up p fuel n = none ↔ ∀ k, n ≤ k → k < n + fuel → ¬ p k = true := by
  induction fuel generalizing n with
  | zero => exact ⟨fun _ k hle hlt => by omega, fun _ => rfl⟩
  | succ fuel ih =>
    rw [up]
    by_cases hp : p n = true
    · rw [if_pos hp]
      exact ⟨nofun, fun h => absurd hp (h n (Int.le_refl _) (by omega))⟩
    · rw [if_neg hp, ih]
      constructor
      · intro h k hle hlt
        rcases Int.lt_or_eq_of_le hle with hgt | rfl
        · exact h k (by omega) (by omega)
        · exact hp
      · exact fun h k hle hlt => h k (by omega) (by omega)

/-- Down is up on the other side of zero. -/
theorem down_eq (p : Int → Bool) (fuel : Nat) (n : Int) :
    down p fuel n = (up (fun k => p (-k)) fuel (-n)).map fun k => -k := by
  induction fuel generalizing n with
  | zero => rfl
  | succ fuel ih =>
    rw [down, up, Int.neg_neg]
    by_cases hp : p n = true
    · rw [if_pos hp, if_pos hp, Option.map_some, Int.neg_neg]
    · rw [if_neg hp, if_neg hp, ih, Int.neg_sub, Int.sub_eq_add_neg, Int.add_comm 1]

theorem down_eq_some {m : Int} :
    down p fuel n = some m ↔ n - fuel < m ∧ IsLast (fun k => p k = true) n m := by
  rw [down_eq, Option.map_eq_some_iff]
  constructor
  · rintro ⟨k, hk, rfl⟩
    obtain ⟨hlt, hle, hp, hbefore⟩ := up_eq_some.mp hk
    refine ⟨by omega, by omega, hp, fun j hj hjk => ?_⟩
    have hback : ¬ p (- -j) = true := hbefore (-j) (by omega) (by omega)
    rwa [Int.neg_neg] at hback
  · rintro ⟨hlt, hle, hp, hafter⟩
    have hback : p (- -m) = true := by rwa [Int.neg_neg]
    exact ⟨-m, up_eq_some.mpr ⟨by omega, by omega, hback,
      fun k hk hkm => hafter (-k) (by omega) (by omega)⟩, Int.neg_neg m⟩

theorem down_eq_none :
    down p fuel n = none ↔ ∀ k, k ≤ n → n - fuel < k → ¬ p k = true := by
  rw [down_eq, Option.map_eq_none_iff, up_eq_none]
  constructor
  · intro h k hle hlt
    have hback := h (-k) (by omega) (by omega)
    rwa [Int.neg_neg] at hback
  · exact fun h k hle hlt => h (-k) (by omega) (by omega)

variable {q : Int → Prop}

/-- A property that a number from `n` on has, one has first. -/
theorem exists_first {k : Int} (hk : n ≤ k) (hq : q k) : ∃ m, IsFirst q n m ∧ m ≤ k := by
  have hfirst : ∀ i : Nat, ∀ k, k = n + i → q k → ∃ m, IsFirst q n m ∧ m ≤ k := by
    intro i
    induction i using Nat.strongRecOn with
    | ind i ih =>
      rintro k rfl hq
      by_cases hbefore : ∃ j, n ≤ j ∧ j < n + i ∧ q j
      · obtain ⟨j, hj, hlt, hqj⟩ := hbefore
        obtain ⟨m, hm, hle⟩ := ih (j - n).toNat (by omega) j (by omega) hqj
        exact ⟨m, hm, by omega⟩
      · refine ⟨n + i, ⟨by omega, hq, fun j hj hlt hqj => ?_⟩, Int.le_refl _⟩
        exact hbefore ⟨j, hj, hlt, hqj⟩
  exact hfirst (k - n).toNat k (by omega) hq

theorem isLast_neg {m : Int} : IsLast q n (-m) ↔ IsFirst (fun k => q (-k)) (-n) m := by
  constructor
  · rintro ⟨hle, hq, hafter⟩
    exact ⟨by omega, hq, fun k hk hkm => hafter (-k) (by omega) (by omega)⟩
  · rintro ⟨hle, hq, hbefore⟩
    refine ⟨by omega, hq, fun k hk hmk hqk => ?_⟩
    have hback : ¬ q (- -k) := hbefore (-k) (by omega) (by omega)
    rw [Int.neg_neg] at hback
    exact hback hqk

theorem exists_last {k : Int} (hk : k ≤ n) (hq : q k) : ∃ m, IsLast q n m ∧ k ≤ m := by
  have hback : q (- -k) := by rwa [Int.neg_neg]
  obtain ⟨m, hfirst, hle⟩ := exists_first (q := fun j => q (-j)) (n := -n) (by omega) hback
  exact ⟨-m, isLast_neg.mpr hfirst, by omega⟩

/-! ## A search for another property -/

/-- A search takes what has a property and more. It finds the first with the
property where no stray comes in front of it, and where one beyond the reach
has some that the search takes within. -/
theorem up_finds (hsub : ∀ k, q k → p k = true) : ((∀ m, up p fuel n = some m → IsFirst q n m)
        ∧ (up p fuel n = none → ∀ k, n ≤ k → ¬ q k))
      ↔ (∀ m, n ≤ m → m < n + fuel → p m = true → ¬ q m → ∃ k, n ≤ k ∧ k < m ∧ q k)
        ∧ ∀ m, n + fuel ≤ m → q m → ∃ k, n ≤ k ∧ k < n + fuel ∧ p k = true := by
  constructor
  · rintro ⟨hsome, hnone⟩
    refine ⟨fun m hle hlt hp hq => ?_, fun m hm hq => ?_⟩
    · cases hup : up p fuel n with
      | none => exact absurd hp (up_eq_none.mp hup m hle hlt)
      | some j =>
        obtain ⟨hjn, hqj, -⟩ := hsome j hup
        obtain ⟨-, -, -, hfirst⟩ := up_eq_some.mp hup
        have hjm : j ≤ m := Int.not_lt.mp fun h => hfirst m hle h hp
        have hne : j ≠ m := fun heq => hq (heq ▸ hqj)
        exact ⟨j, hjn, by omega, hqj⟩
    · cases hup : up p fuel n with
      | none => exact absurd hq (hnone hup m (by omega))
      | some j =>
        obtain ⟨hlt, hle, hp, -⟩ := up_eq_some.mp hup
        exact ⟨j, hle, hlt, hp⟩
  · rintro ⟨hstray, hbeyond⟩
    refine ⟨fun m hup => ?_, fun hup k hk hq => ?_⟩
    · obtain ⟨hlt, hle, hp, hbefore⟩ := up_eq_some.mp hup
      have hnot : ∀ k, n ≤ k → k < m → ¬ q k := fun k hk hkm hq => hbefore k hk hkm (hsub k hq)
      refine ⟨hle, Classical.byContradiction fun hq => ?_, hnot⟩
      obtain ⟨k, hk, hkm, hqk⟩ := hstray m hle hlt hp hq
      exact hnot k hk hkm hqk
    · have hno := up_eq_none.mp hup
      rcases Int.lt_or_le k (n + fuel) with hlt | hge
      · exact hno k hk hlt (hsub k hq)
      · obtain ⟨j, hj, hlt, hp⟩ := hbeyond k hge hq
        exact hno j hj hlt hp

theorem down_finds (hsub : ∀ k, q k → p k = true) : ((∀ m, down p fuel n = some m → IsLast q n m)
        ∧ (down p fuel n = none → ∀ k, k ≤ n → ¬ q k))
      ↔ (∀ m, m ≤ n → n - fuel < m → p m = true → ¬ q m → ∃ k, m < k ∧ k ≤ n ∧ q k)
        ∧ ∀ m, m ≤ n - fuel → q m → ∃ k, k ≤ n ∧ n - fuel < k ∧ p k = true := by
  constructor
  · rintro ⟨hsome, hnone⟩
    refine ⟨fun m hle hlt hp hq => ?_, fun m hm hq => ?_⟩
    · cases hdown : down p fuel n with
      | none => exact absurd hp (down_eq_none.mp hdown m hle hlt)
      | some j =>
        obtain ⟨hjn, hqj, -⟩ := hsome j hdown
        obtain ⟨-, -, -, hlast⟩ := down_eq_some.mp hdown
        have hmj : m ≤ j := Int.not_lt.mp fun h => hlast m hle h hp
        have hne : j ≠ m := fun heq => hq (heq ▸ hqj)
        exact ⟨j, by omega, hjn, hqj⟩
    · cases hdown : down p fuel n with
      | none => exact absurd hq (hnone hdown m (by omega))
      | some j =>
        obtain ⟨hlt, hle, hp, -⟩ := down_eq_some.mp hdown
        exact ⟨j, hle, hlt, hp⟩
  · rintro ⟨hstray, hbeyond⟩
    refine ⟨fun m hdown => ?_, fun hdown k hk hq => ?_⟩
    · obtain ⟨hlt, hle, hp, hafter⟩ := down_eq_some.mp hdown
      have hnot : ∀ k, k ≤ n → m < k → ¬ q k := fun k hk hkm hq => hafter k hk hkm (hsub k hq)
      refine ⟨hle, Classical.byContradiction fun hq => ?_, hnot⟩
      obtain ⟨k, hmk, hk, hqk⟩ := hstray m hle hlt hp hq
      exact hnot k hk hmk hqk
    · have hno := down_eq_none.mp hdown
      rcases Int.lt_or_le (n - fuel) k with hlt | hge
      · exact hno k hk hlt (hsub k hq)
      · obtain ⟨j, hj, hlt, hp⟩ := hbeyond k hge hq
        exact hno j hj hlt hp

end Search
