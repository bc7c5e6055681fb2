import Mathlib.Data.List.Sort

/-!
# Stable rankings

A list ranked by a total preorder, equal elements in the order they were
listed. Elements taken out of a list are taken out of its ranking, and one
more element goes into the ranking at one place: the others keep their
order either way.
-/

namespace Ranking

variable {α : Type} {r : α → α → Prop} [DecidableRel r] {a : α} {xs ys : List α}

theorem orderedInsert_append_of_forall (h : ∀ x ∈ xs, ¬ r a x) (ys : List α) :
    (xs ++ ys).orderedInsert r a = xs ++ ys.orderedInsert r a := by
  induction xs with
  | nil => rfl
  | cons x xs ih =>
    rw [List.cons_append, List.orderedInsert_cons, if_neg (h x List.mem_cons_self),
      ih fun x' hx' => h x' (.tail _ hx'), List.cons_append]

theorem orderedInsert_append_of_mem {x : α} (hx : x ∈ xs) (h : r a x) (ys : List α) :
    (xs ++ ys).orderedInsert r a = xs.orderedInsert r a ++ ys := by
  induction xs with
  | nil => cases hx
  | cons x' xs ih =>
    rw [List.cons_append, List.orderedInsert_cons, List.orderedInsert_cons]
    by_cases hr : r a x'
    · rw [if_pos hr, if_pos hr]
      rfl
    · rw [if_neg hr, if_neg hr]
      rcases List.mem_cons.mp hx with rfl | hx
      · exact absurd h hr
      · rw [ih hx, List.cons_append]

theorem orderedInsert_of_forall (h : ∀ y ∈ ys, r a y) : ys.orderedInsert r a = a :: ys := by
  cases ys with
  | nil => rfl
  | cons y ys => rw [List.orderedInsert_cons, if_pos (h y List.mem_cons_self)]

variable (htotal : ∀ a b, r a b ∨ r b a) (htrans : ∀ a b c, r a b → r b c → r a c)

include htotal htrans in
theorem pairwise_insertionSort (l : List α) : (l.insertionSort r).Pairwise r := by
  have : Std.Total r := ⟨htotal⟩
  have : IsTrans α r := ⟨htrans⟩
  exact List.pairwise_insertionSort r l

include htotal htrans in
/-- The library's stable sort inserts one element after the other. -/
theorem mergeSort_eq (l : List α) : l.mergeSort (fun a b => decide (r a b)) = l.insertionSort r := by
  have htrans' : ∀ a b c : α, decide (r a b) = true → decide (r b c) = true →
      decide (r a c) = true := by
    intro a b c hab hbc
    exact decide_eq_true (htrans a b c (of_decide_eq_true hab) (of_decide_eq_true hbc))
  have htotal' : ∀ a b : α, (decide (r a b) || decide (r b a)) = true := by
    intro a b
    rw [Bool.or_eq_true, decide_eq_true_eq, decide_eq_true_eq]
    exact htotal a b
  induction l with
  | nil => exact List.mergeSort_nil
  | cons a l ih =>
    obtain ⟨xs, ys, hcons, hl, hxs⟩ := List.mergeSort_cons htrans' htotal' a l
    have hsorted := List.pairwise_mergeSort htrans' htotal' (a :: l)
    rw [hcons, List.pairwise_append, List.pairwise_cons] at hsorted
    have hys : ∀ y ∈ ys, r a y := fun y hy => of_decide_eq_true (hsorted.2.1.1 y hy)
    rw [hcons, List.insertionSort_cons, ← ih, hl,
      orderedInsert_append_of_forall (fun x hx => by simpa using hxs x hx),
      orderedInsert_of_forall hys]

include htotal htrans in
/-- Elements taken out. -/
theorem insertionSort_filter (p : α → Bool) (l : List α) :
    (l.filter p).insertionSort r = (l.insertionSort r).filter p := by
  induction l with
  | nil => rfl
  | cons a l ih =>
    have hsorted := pairwise_insertionSort htotal htrans l
    rw [List.insertionSort_cons]
    generalize l.insertionSort r = ranked at *
    -- Where `a` goes: after what is strictly better, before the rest.
    obtain ⟨xs, ys, rfl, hxs, hys⟩ : ∃ xs ys, ranked = xs ++ ys ∧ (∀ x ∈ xs, ¬ r a x)
        ∧ ∀ y ∈ ys, r a y := by
      clear ih
      induction ranked with
      | nil => exact ⟨[], [], rfl, by simp, by simp⟩
      | cons x ranked ih' =>
        obtain ⟨hx, hrest⟩ := List.pairwise_cons.mp hsorted
        by_cases hr : r a x
        · refine ⟨[], x :: ranked, rfl, by simp, fun y hy => ?_⟩
          rcases List.mem_cons.mp hy with rfl | hy
          · exact hr
          · exact htrans _ _ _ hr (hx y hy)
        · obtain ⟨xs, ys, rfl, hxs, hys⟩ := ih' hrest
          refine ⟨x :: xs, ys, rfl, fun y hy => ?_, hys⟩
          rcases List.mem_cons.mp hy with rfl | hy
          · exact hr
          · exact hxs y hy
    rw [orderedInsert_append_of_forall hxs, orderedInsert_of_forall hys, List.filter_append]
    rw [List.filter_append] at ih
    cases hp : p a with
    | false =>
      rw [List.filter_cons_of_neg (by simp [hp]), List.filter_cons_of_neg (by simp [hp]), ih]
    | true =>
      rw [List.filter_cons_of_pos hp, List.filter_cons_of_pos hp, List.insertionSort_cons, ih,
        orderedInsert_append_of_forall fun x hx => hxs x (List.mem_of_mem_filter hx),
        orderedInsert_of_forall fun y hy => hys y (List.mem_of_mem_filter hy)]

include htotal htrans in
/-- One more element. -/
theorem insertionSort_insert (n : α) (as bs : List α) : ∃ xs ys,
    (as ++ n :: bs).insertionSort r = xs ++ n :: ys
      ∧ (as ++ bs).insertionSort r = xs ++ ys := by
  induction as with
  | nil =>
    have hsorted := pairwise_insertionSort htotal htrans bs
    rw [List.nil_append, List.nil_append, List.insertionSort_cons]
    generalize bs.insertionSort r = ranked at *
    clear hsorted
    induction ranked with
    | nil => exact ⟨[], [], rfl, rfl⟩
    | cons x ranked ih =>
      rw [List.orderedInsert_cons]
      by_cases hr : r n x
      · exact ⟨[], x :: ranked, by rw [if_pos hr]; rfl, rfl⟩
      · obtain ⟨xs, ys, h, rfl⟩ := ih
        exact ⟨x :: xs, ys, by rw [if_neg hr, h]; rfl, rfl⟩
  | cons a as ih =>
    obtain ⟨xs, ys, h, h'⟩ := ih
    have hsorted := pairwise_insertionSort htotal htrans (as ++ n :: bs)
    rw [List.cons_append, List.cons_append, List.insertionSort_cons, List.insertionSort_cons, h,
      h']
    rw [h, List.pairwise_append, List.pairwise_cons] at hsorted
    by_cases hin : ∃ x ∈ xs, r a x
    · obtain ⟨x, hx, hr⟩ := hin
      exact ⟨xs.orderedInsert r a, ys, orderedInsert_append_of_mem hx hr _,
        orderedInsert_append_of_mem hx hr _⟩
    · have hout : ∀ x ∈ xs, ¬ r a x := fun x hx hr => hin ⟨x, hx, hr⟩
      rw [orderedInsert_append_of_forall hout, orderedInsert_append_of_forall hout,
        List.orderedInsert_cons]
      by_cases hr : r a n
      · have hys : ∀ y ∈ ys, r a y := fun y hy => htrans _ _ _ hr (hsorted.2.1.1 y hy)
        refine ⟨xs ++ [a], ys, ?_, ?_⟩
        · rw [if_pos hr, List.append_assoc]
          rfl
        · rw [orderedInsert_of_forall hys, List.append_assoc]
          rfl
      · exact ⟨xs, ys.orderedInsert r a, by rw [if_neg hr], rfl⟩

end Ranking
