import Zou.Lib.IntervalTree

/-!
# A sparse index over sorted runs

A sorted sequence cut into runs, with the first and the last key of each
run in a row of an index. The rows that may hold a key are a stretch of
the index: those not entirely below it, up to the first that is entirely
above.
-/

namespace BlockIndex

variable {ρ K : Type} [LinearOrder K] (first last : ρ → K)

/-- The rows whose key range covers `key`. The source finds the start of
the stretch by bisection, which on rows in key order is a scan. -/
def locate (rows : List ρ) (key : K) : List ρ :=
  (rows.dropWhile fun r => last r < key).takeWhile fun r => first r ≤ key

variable {first last} {rows : List ρ}

theorem mem_of_mem_locate {key : K} {r : ρ} (h : r ∈ locate first last rows key) : r ∈ rows :=
  (List.dropWhile_sublist _).mem ((List.takeWhile_sublist _).mem h)

variable {p : ρ → Bool}

theorem mem_dropWhile_of_not {r : ρ} (hr : p r = false) : ∀ {rows : List ρ},
    r ∈ rows → r ∈ rows.dropWhile p := by
  intro rows
  induction rows with
  | nil => exact fun h => h
  | cons a rows ih =>
    intro h
    rw [List.dropWhile_cons]
    split
    · rename_i ha
      rcases List.mem_cons.mp h with rfl | h
      · rw [hr] at ha
        cases ha
      · exact ih h
    · exact h

/-- A row that covers the key is located. -/
theorem mem_locate {key : K} {r : ρ} (hsorted : rows.Pairwise fun a b => first a ≤ first b)
    (h : r ∈ rows) (hlo : first r ≤ key) (hhi : key ≤ last r) : r ∈ locate first last rows key := by
  have hdrop : r ∈ rows.dropWhile fun r => decide (last r < key) :=
    mem_dropWhile_of_not (by simpa using hhi) h
  have hsorted' := hsorted.sublist (List.dropWhile_sublist fun r => decide (last r < key))
  unfold locate
  rw [IntervalTree.takeWhile_of_sorted hsorted', List.mem_filter, decide_eq_true_eq]
  exact ⟨hdrop, hlo⟩

/-! On rows in key order the stretch is the rows that cover the key. -/

theorem dropWhile_eq_filter : ∀ {rows : List ρ},
    rows.Pairwise (fun a b => p b = true → p a = true) →
    rows.dropWhile p = rows.filter fun r => ! p r := by
  intro rows
  induction rows with
  | nil => exact fun _ => rfl
  | cons a rows ih =>
    intro h
    obtain ⟨ha, hrows⟩ := List.pairwise_cons.mp h
    rw [List.dropWhile_cons, List.filter_cons]
    cases hpa : p a with
    | true => simpa using ih hrows
    | false =>
      have hall : ∀ b ∈ rows, (! p b) = true := by
        intro b hb
        cases hpb : p b with
        | true => exact absurd (ha b hb hpb) (by simp [hpa])
        | false => rfl
      simp [List.filter_eq_self.mpr hall]

theorem takeWhile_eq_filter : ∀ {rows : List ρ},
    rows.Pairwise (fun a b => p b = true → p a = true) →
    rows.takeWhile p = rows.filter p := by
  intro rows
  induction rows with
  | nil => exact fun _ => rfl
  | cons a rows ih =>
    intro h
    obtain ⟨ha, hrows⟩ := List.pairwise_cons.mp h
    rw [List.takeWhile_cons, List.filter_cons]
    cases hpa : p a with
    | true => simp [ih hrows]
    | false =>
      have hnone : rows.filter p = [] := by
        rw [List.filter_eq_nil_iff]
        intro b hb hpb
        rw [ha b hb hpb] at hpa
        cases hpa
      simp [hnone]

theorem locate_eq_filter {key : K}
    (hsorted : rows.Pairwise fun a b => first a ≤ first b ∧ last a ≤ last b) :
    locate first last rows key = rows.filter fun r => first r ≤ key ∧ key ≤ last r := by
  have hdrop : rows.dropWhile (fun r => decide (last r < key))
      = rows.filter fun r => ! decide (last r < key) := by
    refine dropWhile_eq_filter (hsorted.imp fun {a b} h hb => ?_)
    exact decide_eq_true (lt_of_le_of_lt h.2 (of_decide_eq_true hb))
  have hsub := hsorted.sublist (List.filter_sublist (p := fun r => ! decide (last r < key)))
  have htake := takeWhile_eq_filter (p := fun r => decide (first r ≤ key))
    (hsub.imp fun {a b} h hb => decide_eq_true (le_trans h.1 (of_decide_eq_true hb)))
  rw [locate, hdrop, htake, List.filter_filter]
  refine List.filter_congr fun r _ => ?_
  by_cases h1 : first r ≤ key <;> by_cases h2 : key ≤ last r <;>
    simp [h1, h2, not_lt.mpr, not_le.mp]

end BlockIndex
