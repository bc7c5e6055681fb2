import Mathlib.Algebra.Order.Ring.Nat
import Mathlib.Data.List.Sort

/-!
# Stabbing a set of intervals

The centered interval tree over a linear order: a node keeps the intervals
that hold its center, sorted both ways, and the rest go left and right. A
stab reads one of the two sorted lists up to the first interval that does
not hold the point and goes down one side.

The center is the lower end of one of the intervals, so both sides are
smaller and the number of intervals is fuel enough.
-/

namespace IntervalTree

variable {α K : Type} [LinearOrder K]

/-- In a list sorted by `f`, a prefix test on `f` is a filter. -/
theorem takeWhile_of_sorted {f : α → K} {k : K} : ∀ {l : List α},
    l.Pairwise (fun a b => f a ≤ f b) →
      l.takeWhile (fun a => f a ≤ k) = l.filter fun a => f a ≤ k := by
  intro l
  induction l with
  | nil => exact fun _ => rfl
  | cons a l ih =>
    intro h
    obtain ⟨ha, hl⟩ := List.pairwise_cons.mp h
    by_cases hk : f a ≤ k
    · rw [List.takeWhile_cons_of_pos (by simpa using hk),
        List.filter_cons_of_pos (by simpa using hk), ih hl]
    · have hnone : l.filter (fun b => decide (f b ≤ k)) = [] := by
        rw [List.filter_eq_nil_iff]
        intro b hb hbk
        exact hk (le_trans (ha b hb) (of_decide_eq_true hbk))
      rw [List.takeWhile_cons_of_neg (by simpa using hk),
        List.filter_cons_of_neg (by simpa using hk), hnone]

/-- The same for a list sorted the other way. -/
theorem takeWhile_of_sorted_ge {f : α → K} {k : K} {l : List α}
    (h : l.Pairwise (fun a b => f b ≤ f a)) :
    l.takeWhile (fun a => k ≤ f a) = l.filter fun a => k ≤ f a :=
  takeWhile_of_sorted (K := Kᵒᵈ) (f := fun a => OrderDual.toDual (f a))
    (k := OrderDual.toDual k) h

inductive Tree (α K : Type) where
  | nil
  | node (center : K) (byMin byMax : List α) (left right : Tree α K)

section

variable (lo hi : α → K)

def sortMin (xs : List α) : List α := xs.insertionSort fun a b => lo a ≤ lo b

def sortMax (xs : List α) : List α := xs.insertionSort fun a b => hi b ≤ hi a

theorem sortMin_pairwise (xs : List α) : (sortMin lo xs).Pairwise fun a b => lo a ≤ lo b := by
  have : Std.Total (fun a b : α => lo a ≤ lo b) := ⟨fun a b => le_total (lo a) (lo b)⟩
  have : IsTrans α (fun a b => lo a ≤ lo b) := ⟨fun _ _ _ h h' => le_trans h h'⟩
  exact List.pairwise_insertionSort _ _

theorem sortMax_pairwise (xs : List α) : (sortMax hi xs).Pairwise fun a b => hi b ≤ hi a := by
  have : Std.Total (fun a b : α => hi b ≤ hi a) := ⟨fun a b => le_total (hi b) (hi a)⟩
  have : IsTrans α (fun a b => hi b ≤ hi a) := ⟨fun _ _ _ h h' => le_trans h' h⟩
  exact List.pairwise_insertionSort _ _

@[simp] theorem mem_sortMin {xs : List α} {x : α} : x ∈ sortMin lo xs ↔ x ∈ xs :=
  List.mem_insertionSort _

def build : Nat → List α → Tree α K
  | 0, _ => .nil
  | fuel + 1, xs =>
    let ys := sortMin lo xs
    match ys[ys.length / 2]? with
    | none => .nil
    | some mid =>
      let here := ys.filter fun x => ¬ hi x < lo mid ∧ ¬ lo mid < lo x
      .node (lo mid) (sortMin lo here) (sortMax hi here)
        (build fuel (ys.filter fun x => hi x < lo mid))
        (build fuel (ys.filter fun x => ¬ hi x < lo mid ∧ lo mid < lo x))

/-- Every interval of the tree that holds the point. -/
def stab (key : K) : Tree α K → List α
  | .nil => []
  | .node center byMin byMax left right =>
    if key < center then byMin.takeWhile (fun x => lo x ≤ key) ++ stab key left
    else if center < key then byMax.takeWhile (fun x => key ≤ hi x) ++ stab key right
    else byMin

variable {lo hi}

theorem length_filter_lt {p : α → Bool} {xs : List α} {x : α} (hx : x ∈ xs) (hp : p x = false) :
    (xs.filter p).length < xs.length := by
  refine Nat.lt_of_le_of_ne (List.length_filter_le _ _) fun h => ?_
  have hall := List.length_filter_eq_length_iff.mp h x hx
  rw [hp] at hall
  cases hall

/-- A filter in two parts. -/
theorem perm_filter_or {p u v : α → Bool} {xs : List α}
    (h : ∀ x ∈ xs, p x = true ↔ u x = true ∨ v x = true) (hd : ∀ x ∈ xs, u x = true → v x = false) :
    (xs.filter u ++ xs.filter v).Perm (xs.filter p) := by
  have hu : xs.filter u = (xs.filter p).filter u := by
    rw [List.filter_filter]
    refine List.filter_congr fun x hx => ?_
    cases hux : u x with
    | false => rfl
    | true => rw [(h x hx).mpr (.inl hux)]; rfl
  have hv : xs.filter v = (xs.filter p).filter fun x => !u x := by
    rw [List.filter_filter]
    refine List.filter_congr fun x hx => ?_
    cases hux : u x with
    | true => exact hd x hx hux
    | false =>
      have hpv : p x = true ↔ v x = true := (h x hx).trans (or_iff_right (by rw [hux]; simp))
      exact (Bool.eq_iff_iff.mpr hpv.symm).trans (Bool.true_and _).symm
  rw [hu, hv]
  exact List.filter_append_perm ..

/-- A stab finds the intervals that hold the point, each as often as it is
there. -/
theorem perm_stab_build (key : K) : ∀ {n : Nat} {xs : List α}, xs.length ≤ n →
    (∀ x ∈ xs, lo x ≤ hi x) →
      (stab lo hi key (build lo hi n xs)).Perm
        (xs.filter fun x => lo x ≤ key ∧ key ≤ hi x) := by
  intro n
  induction n with
  | zero =>
    intro xs hn _
    obtain rfl : xs = [] := List.eq_nil_of_length_eq_zero (Nat.le_zero.mp hn)
    exact .refl _
  | succ n ih =>
    intro xs hn hwf
    have hperm : (sortMin lo xs).Perm xs := List.perm_insertionSort _ _
    have hys : (sortMin lo xs).length ≤ n + 1 := hperm.length_eq ▸ hn
    have hwfy : ∀ y ∈ sortMin lo xs, lo y ≤ hi y := fun y hy => hwf y ((mem_sortMin lo).mp hy)
    refine List.Perm.trans ?_ (hperm.filter _)
    rw [build]
    generalize sortMin lo xs = ys at *
    cases hmid : ys[ys.length / 2]? with
    | none =>
      have hlen : ys.length ≤ ys.length / 2 := List.getElem?_eq_none_iff.mp hmid
      obtain rfl : ys = [] := List.eq_nil_of_length_eq_zero (by omega)
      exact .refl _
    | some mid =>
      have hmem : mid ∈ ys := List.mem_of_getElem? hmid
      have hmidhi : ¬ hi mid < lo mid := not_lt.mpr (hwfy mid hmem)
      have hleft : (ys.filter fun x => decide (hi x < lo mid)).length ≤ n := by
        have := length_filter_lt (p := fun x => decide (hi x < lo mid)) hmem
          (by simpa using hmidhi)
        omega
      have hright : (ys.filter fun x =>
          decide (¬ hi x < lo mid ∧ lo mid < lo x)).length ≤ n := by
        have := length_filter_lt (p := fun x => decide (¬ hi x < lo mid ∧ lo mid < lo x)) hmem
          (by simp)
        omega
      have hl := ih hleft fun y hy => hwfy y (List.mem_of_mem_filter hy)
      have hr := ih hright fun y hy => hwfy y (List.mem_of_mem_filter hy)
      rw [List.filter_filter] at hl hr
      rw [stab]
      by_cases hlt : key < lo mid
      · rw [if_pos hlt, takeWhile_of_sorted (sortMin_pairwise lo _)]
        refine (((List.perm_insertionSort _ _).filter _).append hl).trans ?_
        rw [List.filter_filter]
        refine perm_filter_or (fun x hx => ?_) fun x hx => ?_
        · simp only [Bool.and_eq_true, decide_eq_true_eq, not_lt]
          constructor
          · rintro ⟨hle, hge⟩
            by_cases hcut : hi x < lo mid
            · exact .inr ⟨⟨hle, hge⟩, hcut⟩
            · exact .inl ⟨hle, not_lt.mp hcut, le_trans hle (le_of_lt hlt)⟩
          · rintro (⟨hle, hge, -⟩ | ⟨h, -⟩)
            · exact ⟨hle, le_trans (le_of_lt hlt) hge⟩
            · exact h
        · simp only [Bool.and_eq_true, decide_eq_true_eq]
          rintro ⟨-, hcut, -⟩
          simp [hcut]
      · rw [if_neg hlt]
        by_cases hgt : lo mid < key
        · rw [if_pos hgt, takeWhile_of_sorted_ge (sortMax_pairwise hi _)]
          refine (((List.perm_insertionSort _ _).filter _).append hr).trans ?_
          rw [List.filter_filter]
          refine perm_filter_or (fun x hx => ?_) fun x hx => ?_
          · simp only [Bool.and_eq_true, decide_eq_true_eq, not_lt]
            constructor
            · rintro ⟨hle, hge⟩
              have hhi : lo mid ≤ hi x := le_trans (le_of_lt hgt) hge
              by_cases hcut : lo mid < lo x
              · exact .inr ⟨⟨hle, hge⟩, hhi, hcut⟩
              · exact .inl ⟨hge, hhi, not_lt.mp hcut⟩
            · rintro (⟨hge, -, hle⟩ | ⟨h, -⟩)
              · exact ⟨le_trans hle (le_of_lt hgt), hge⟩
              · exact h
          · simp only [Bool.and_eq_true, decide_eq_true_eq]
            rintro ⟨-, -, hcut⟩
            simp [hcut]
        · obtain rfl : key = lo mid := le_antisymm (not_lt.mp hgt) (not_lt.mp hlt)
          rw [if_neg hgt]
          refine (List.perm_insertionSort _ _).trans (List.Perm.of_eq ?_)
          refine List.filter_congr fun x _ => ?_
          simp only [not_lt]
          exact decide_eq_decide.mpr and_comm

/-- A stab finds exactly the intervals that hold the point. -/
theorem mem_stab_build {key : K} {n : Nat} {xs : List α} (hn : xs.length ≤ n)
    (hwf : ∀ x ∈ xs, lo x ≤ hi x) {x : α} :
    x ∈ stab lo hi key (build lo hi n xs) ↔ x ∈ xs ∧ lo x ≤ key ∧ key ≤ hi x := by
  rw [(perm_stab_build key hn hwf).mem_iff, List.mem_filter, decide_eq_true_eq]

/-! ## The recursion without fuel -/

variable (lo hi) in
/-- The tree the recursion makes of a list, where it comes to an end. -/
inductive Builds : List α → Tree α K → Prop
  | nil : Builds [] .nil
  | node {xs : List α} {mid : α} {left right : Tree α K}
      (hmid : (sortMin lo xs)[(sortMin lo xs).length / 2]? = some mid)
      (hleft : Builds ((sortMin lo xs).filter fun x => hi x < lo mid) left)
      (hright : Builds ((sortMin lo xs).filter fun x => ¬ hi x < lo mid ∧ lo mid < lo x) right) :
      Builds xs (.node (lo mid)
        (sortMin lo ((sortMin lo xs).filter fun x => ¬ hi x < lo mid ∧ ¬ lo mid < lo x))
        (sortMax hi ((sortMin lo xs).filter fun x => ¬ hi x < lo mid ∧ ¬ lo mid < lo x))
        left right)

/-- It comes to an end on every list of intervals, equal and nested ones
included. -/
theorem builds_build : ∀ {n : Nat} {xs : List α}, xs.length ≤ n → (∀ x ∈ xs, lo x ≤ hi x) →
    Builds lo hi xs (build lo hi n xs) := by
  intro n
  induction n with
  | zero =>
    intro xs hn _
    obtain rfl : xs = [] := List.eq_nil_of_length_eq_zero (Nat.le_zero.mp hn)
    exact Builds.nil
  | succ n ih =>
    intro xs hn hwf
    have hperm : (sortMin lo xs).Perm xs := List.perm_insertionSort _ _
    have hys : (sortMin lo xs).length ≤ n + 1 := hperm.length_eq ▸ hn
    have hwfy : ∀ y ∈ sortMin lo xs, lo y ≤ hi y := fun y hy => hwf y ((mem_sortMin lo).mp hy)
    rw [build]
    cases hmid : (sortMin lo xs)[(sortMin lo xs).length / 2]? with
    | none =>
      have hlen := List.getElem?_eq_none_iff.mp hmid
      have hnil : xs.length = 0 := by rw [← hperm.length_eq]; omega
      obtain rfl : xs = [] := List.eq_nil_of_length_eq_zero hnil
      exact Builds.nil
    | some mid =>
      have hmem : mid ∈ sortMin lo xs := List.mem_of_getElem? hmid
      have hmidhi : ¬ hi mid < lo mid := not_lt.mpr (hwfy mid hmem)
      refine Builds.node hmid (ih ?_ fun y hy => hwfy y (List.mem_of_mem_filter hy))
        (ih ?_ fun y hy => hwfy y (List.mem_of_mem_filter hy))
      · have := length_filter_lt (p := fun x => decide (hi x < lo mid)) hmem
          (by simpa using hmidhi)
        omega
      · have := length_filter_lt (p := fun x => decide (¬ hi x < lo mid ∧ lo mid < lo x)) hmem
          (by simp)
        omega

end

end IntervalTree
