import Zou.Lib.OrdMap
import Mathlib.Data.List.Destutter
import Mathlib.Data.List.Sort
import Mathlib.Data.Prod.Lex

/-!
# The smallest value under each key

A list of keyed values stands for the smallest value of each key. Two ways
of computing them agree: sorting the list and keeping the first entry of
every key, and folding it into a map that keeps the smaller value. The
fold may be taken in pieces, each reduced on its own first.
-/

namespace OrdMap

variable {K V : Type} [LinearOrder K] [LinearOrder V]

/-- `e` is the entry of its key with the smallest value. -/
def Least (L : List (K × V)) (e : K × V) : Prop := e ∈ L ∧ ∀ v, (e.1, v) ∈ L → e.2 ≤ v

/-- Keep the smaller of the value under a key and `v`. -/
def lower (m : OrdMap K V) (k : K) (v : V) : OrdMap K V :=
  m.insert k (match m.get? k with
    | some w => min w v
    | none => v)

/-- The list in ascending order with the first entry of every key kept. -/
def sortedFirsts (xs : List (K × V)) : List (K × V) :=
  (xs.insertionSort fun a b => toLex a ≤ toLex b).destutter fun a b => a.1 ≠ b.1

variable {L : List (K × V)}

theorem exists_least {k : K} {v : V} (h : (k, v) ∈ L) : ∃ w, w ≤ v ∧ Least L (k, w) := by
  induction L generalizing v with
  | nil => cases h
  | cons d L ih =>
    obtain ⟨a, b⟩ := d
    by_cases hrest : ∃ w, (k, w) ∈ L
    · obtain ⟨w, hw⟩ := hrest
      obtain ⟨u, hu, hmem, hle⟩ := ih hw
      by_cases hab : a = k ∧ b < u
      · obtain ⟨rfl, hlt⟩ := hab
        refine ⟨b, ?_, List.mem_cons_self, fun x hx => ?_⟩
        · rcases List.mem_cons.mp h with heq | hmem'
          · exact le_of_eq (Prod.mk.inj heq).2.symm
          · exact le_of_lt (lt_of_lt_of_le hlt (hle v hmem'))
        · rcases List.mem_cons.mp hx with heq | hmem'
          · exact le_of_eq (Prod.mk.inj heq).2.symm
          · exact le_of_lt (lt_of_lt_of_le hlt (hle x hmem'))
      · have hall : ∀ x, (k, x) ∈ (a, b) :: L → u ≤ x := by
          intro x hx
          rcases List.mem_cons.mp hx with heq | hmem'
          · obtain ⟨rfl, rfl⟩ := Prod.mk.inj heq
            exact not_lt.mp fun hlt => hab ⟨rfl, hlt⟩
          · exact hle x hmem'
        exact ⟨u, hall v h, .tail _ hmem, hall⟩
    · have hhead : ∀ x, (k, x) ∈ (a, b) :: L → (k, x) = (a, b) := by
        intro x hx
        rcases List.mem_cons.mp hx with heq | hmem'
        · exact heq
        · exact absurd ⟨x, hmem'⟩ hrest
      refine ⟨v, le_refl v, h, fun x hx => ?_⟩
      exact le_of_eq (Prod.mk.inj ((hhead v h).trans (hhead x hx).symm)).2

/-- A list may be replaced by its least entries. -/
theorem least_append_congr {xs ys : List (K × V)} (h : ∀ e, e ∈ ys ↔ Least xs e) (e : K × V) :
    Least (L ++ ys) e ↔ Least (L ++ xs) e := by
  have hbelow : ∀ v, (e.1, v) ∈ xs → ∃ w, w ≤ v ∧ (e.1, w) ∈ ys := by
    intro v hv
    obtain ⟨w, hw, hleast⟩ := exists_least hv
    exact ⟨w, hw, (h _).mpr hleast⟩
  constructor
  · rintro ⟨hmem, hle⟩
    refine ⟨?_, fun v hv => ?_⟩
    · rcases List.mem_append.mp hmem with hl | hy
      · exact List.mem_append_left _ hl
      · exact List.mem_append_right _ ((h e).mp hy).1
    · rcases List.mem_append.mp hv with hl | hx
      · exact hle v (List.mem_append_left _ hl)
      · obtain ⟨w, hw, hy⟩ := hbelow v hx
        exact le_trans (hle w (List.mem_append_right _ hy)) hw
  · rintro ⟨hmem, hle⟩
    refine ⟨?_, fun v hv => ?_⟩
    · rcases List.mem_append.mp hmem with hl | hx
      · exact List.mem_append_left _ hl
      · exact List.mem_append_right _
          ((h e).mpr ⟨hx, fun v hv => hle v (List.mem_append_right _ hv)⟩)
    · rcases List.mem_append.mp hv with hl | hy
      · exact hle v (List.mem_append_left _ hl)
      · exact hle v (List.mem_append_right _ ((h _).mp hy).1)

theorem get?_lower (m : OrdMap K V) (k : K) (v : V) (k' : K) :
    (m.lower k v).get? k' = if k' = k then some (match m.get? k with
      | some w => min w v
      | none => v) else m.get? k' := get?_insert ..

theorem mem_lower {m : OrdMap K V} (h : ∀ e, e ∈ m.entries ↔ Least L e) (k : K) (v : V)
    (e : K × V) : e ∈ (m.lower k v).entries ↔ Least (L ++ [(k, v)]) e := by
  obtain ⟨a, b⟩ := e
  unfold lower
  rw [mem_insert]
  by_cases ha : a = k
  · subst ha
    cases hg : m.get? a with
    | none =>
      have hno : ∀ w, (a, w) ∉ L := by
        intro w hw
        obtain ⟨u, -, hu⟩ := exists_least hw
        rw [get?_eq_some.mpr ((h _).mpr hu)] at hg
        cases hg
      constructor
      · rintro (heq | ⟨hne, -⟩)
        · cases heq
          refine ⟨List.mem_append_right _ (List.mem_singleton_self _), fun w hw => ?_⟩
          rcases List.mem_append.mp hw with hl | hs
          · exact absurd hl (hno w)
          · exact le_of_eq (Prod.mk.inj (List.mem_singleton.mp hs)).2.symm
        · exact absurd rfl hne
      · rintro ⟨hmem, -⟩
        rcases List.mem_append.mp hmem with hl | hs
        · exact absurd hl (hno b)
        · exact .inl (List.mem_singleton.mp hs)
    | some w =>
      obtain ⟨hw, hle⟩ := (h _).mp (get?_eq_some.mp hg)
      have hall : ∀ x, (a, x) ∈ L ++ [(a, v)] → min w v ≤ x := by
        intro x hx
        rcases List.mem_append.mp hx with hl | hs
        · exact le_trans (min_le_left _ _) (hle x hl)
        · cases List.mem_singleton.mp hs
          exact min_le_right _ _
      have hmin : (a, min w v) ∈ L ++ [(a, v)] := by
        rcases le_total w v with hwv | hwv
        · rw [min_eq_left hwv]
          exact List.mem_append_left _ hw
        · rw [min_eq_right hwv]
          exact List.mem_append_right _ (List.mem_singleton_self _)
      constructor
      · rintro (heq | ⟨hne, -⟩)
        · cases heq
          exact ⟨hmin, hall⟩
        · exact absurd rfl hne
      · rintro ⟨hmem, hleast⟩
        exact .inl (Prod.ext rfl (le_antisymm (hleast _ hmin) (hall b hmem)))
  · have hne : ∀ x, (a, x) ∈ L ++ [(k, v)] ↔ (a, x) ∈ L := by
      intro x
      simp [ha]
    simp only [Least, hne, ne_eq, ha, not_false_eq_true, true_and, Prod.mk.injEq, false_and,
      false_or]
    exact h (a, b)

/-- Folding a list into a map of least entries. -/
theorem mem_foldl_lower {xs : List (K × V)} : ∀ {m : OrdMap K V} {L : List (K × V)},
    (∀ e, e ∈ m.entries ↔ Least L e) →
    ∀ e, e ∈ (xs.foldl (fun m x => m.lower x.1 x.2) m).entries ↔ Least (L ++ xs) e := by
  induction xs with
  | nil =>
    intro m L h e
    rw [List.append_nil]
    exact h e
  | cons x xs ih =>
    intro m L h e
    have hstep := ih (mem_lower h x.1 x.2) e
    rw [List.append_assoc] at hstep
    exact hstep

/-! ## The first entries of a sorted list -/

section

variable {L : List (K × V)}

theorem fst_le_of_sorted {a b : K × V} (h : toLex a ≤ toLex b) : a.1 ≤ b.1 := by
  rcases Prod.Lex.toLex_le_toLex.mp h with hlt | ⟨heq, -⟩
  · exact le_of_lt hlt
  · exact le_of_eq heq

theorem snd_le_of_sorted {a b : K × V} (h : toLex a ≤ toLex b) (heq : b.1 = a.1) : a.2 ≤ b.2 := by
  rcases Prod.Lex.toLex_le_toLex.mp h with hlt | ⟨-, hle⟩
  · exact absurd heq (ne_of_gt hlt)
  · exact hle

variable {A : Type}

theorem mem_destutter'_ne [DecidableEq A] {l : List A} {x : A} : ∀ {a : A},
    x ∈ l.destutter' (· ≠ ·) a ↔ x ∈ a :: l := by
  induction l with
  | nil => simp
  | cons b l ih =>
    intro a
    by_cases hab : a ≠ b
    · rw [List.destutter'_cons_pos l (R := fun a b : A => a ≠ b) hab, List.mem_cons, ih,
        ← List.mem_cons]
    · rw [List.destutter'_cons_neg l (R := fun a b : A => a ≠ b) hab, ih,
        Decidable.not_not.mp hab]
      simp

/-- Dropping repetitions drops no element. -/
theorem mem_destutter_ne [DecidableEq A] {l : List A} {x : A} :
    x ∈ l.destutter (· ≠ ·) ↔ x ∈ l := by
  cases l with
  | nil => rfl
  | cons a l => exact mem_destutter'_ne

theorem mem_destutter'_least {d : K × V} :
    (d :: L).Pairwise (fun a b => toLex a ≤ toLex b) → ∀ e : K × V,
      e ∈ L.destutter' (fun a b => a.1 ≠ b.1) d ↔ Least (d :: L) e := by
  induction L generalizing d with
  | nil =>
    intro _ e
    rw [List.destutter'_nil, List.mem_singleton]
    constructor
    · rintro rfl
      refine ⟨List.mem_singleton_self _, fun v hv => ?_⟩
      exact le_of_eq (Prod.mk.inj (List.mem_singleton.mp hv)).2.symm
    · exact fun h => List.mem_singleton.mp h.1
  | cons c L ih =>
    intro hs e
    obtain ⟨hd, hcL⟩ := List.pairwise_cons.mp hs
    obtain ⟨hc, hL⟩ := List.pairwise_cons.mp hcL
    by_cases hdc : d.1 ≠ c.1
    · rw [List.destutter'_cons_pos L (R := fun a b : K × V => a.1 ≠ b.1) hdc, List.mem_cons, ih hcL]
      -- Every later key is above the first one.
      have hlt : ∀ x ∈ c :: L, d.1 < x.1 := by
        intro x hx
        have h1 : d.1 < c.1 :=
          lt_of_le_of_ne (fst_le_of_sorted (hd c List.mem_cons_self)) hdc
        rcases List.mem_cons.mp hx with rfl | hx
        · exact h1
        · exact lt_of_lt_of_le h1 (fst_le_of_sorted (hc x hx))
      constructor
      · rintro (rfl | ⟨hmem, hle⟩)
        · refine ⟨List.mem_cons_self, fun v hv => ?_⟩
          rcases List.mem_cons.mp hv with heq | hv
          · exact le_of_eq (congrArg Prod.snd heq).symm
          · exact absurd (hlt _ hv) (lt_irrefl _)
        · refine ⟨.tail _ hmem, fun v hv => ?_⟩
          rcases List.mem_cons.mp hv with heq | hv
          · exact absurd (congrArg Prod.fst heq) (ne_of_gt (hlt e hmem))
          · exact hle v hv
      · rintro ⟨hmem, hle⟩
        rcases List.mem_cons.mp hmem with rfl | hmem
        · exact .inl rfl
        · exact .inr ⟨hmem, fun v hv => hle v (.tail _ hv)⟩
    · have heq : c.1 = d.1 := (Decidable.not_not.mp hdc).symm
      have hle : d.2 ≤ c.2 := snd_le_of_sorted (hd c List.mem_cons_self) heq
      rw [List.destutter'_cons_neg L (R := fun a b : K × V => a.1 ≠ b.1) hdc, ih (List.pairwise_cons.mpr
        ⟨fun x hx => hd x (.tail _ hx), hL⟩)]
      constructor
      · rintro ⟨hmem, hleast⟩
        refine ⟨?_, fun v hv => ?_⟩
        · rcases List.mem_cons.mp hmem with rfl | hmem
          · exact List.mem_cons_self
          · exact .tail _ (.tail _ hmem)
        · rcases List.mem_cons.mp hv with rfl | hv
          · exact hleast _ List.mem_cons_self
          · rcases List.mem_cons.mp hv with rfl | hv
            · refine le_trans (hleast d.2 ?_) hle
              exact List.mem_cons.mpr (.inl (Prod.ext heq rfl))
            · exact hleast v (.tail _ hv)
      · rintro ⟨hmem, hleast⟩
        have hrest : ∀ v, (e.1, v) ∈ d :: L → e.2 ≤ v := by
          intro v hv
          rcases List.mem_cons.mp hv with rfl | hv
          · exact hleast _ List.mem_cons_self
          · exact hleast v (.tail _ (.tail _ hv))
        refine ⟨?_, hrest⟩
        rcases List.mem_cons.mp hmem with rfl | hmem
        · exact List.mem_cons_self
        · rcases List.mem_cons.mp hmem with rfl | hmem
          · -- The second entry of a key is least only if it repeats the first.
            have hsnd : e.2 = d.2 :=
              le_antisymm (hleast d.2 (List.mem_cons.mpr (.inl (Prod.ext heq rfl)))) hle
            exact List.mem_cons.mpr (.inl (Prod.ext heq hsnd))
          · exact .tail _ hmem

theorem mem_destutter_least (hs : L.Pairwise fun a b => toLex a ≤ toLex b) (e : K × V) :
    e ∈ L.destutter (fun a b => a.1 ≠ b.1) ↔ Least L e := by
  cases L with
  | nil => simp [Least]
  | cons d L => exact mem_destutter'_least hs e

theorem destutter'_sorted {d : K × V} : (d :: L).Pairwise (fun a b => toLex a ≤ toLex b) →
      (L.destutter' (fun a b => a.1 ≠ b.1) d).Pairwise fun a b => a.1 < b.1 := by
  induction L generalizing d with
  | nil => exact fun _ => List.pairwise_singleton _ _
  | cons c L ih =>
    intro hs
    obtain ⟨hd, hcL⟩ := List.pairwise_cons.mp hs
    obtain ⟨hc, hL⟩ := List.pairwise_cons.mp hcL
    by_cases hdc : d.1 ≠ c.1
    · rw [List.destutter'_cons_pos L (R := fun a b : K × V => a.1 ≠ b.1) hdc]
      refine List.pairwise_cons.mpr ⟨fun x hx => ?_, ih hcL⟩
      have h1 : d.1 < c.1 :=
        lt_of_le_of_ne (fst_le_of_sorted (hd c List.mem_cons_self)) hdc
      rcases List.mem_cons.mp ((List.destutter'_sublist _ _ _).subset hx) with rfl | hx
      · exact h1
      · exact lt_of_lt_of_le h1 (fst_le_of_sorted (hc x hx))
    · rw [List.destutter'_cons_neg L (R := fun a b : K × V => a.1 ≠ b.1) hdc]
      exact ih (List.pairwise_cons.mpr ⟨fun x hx => hd x (.tail _ hx), hL⟩)

theorem mem_sortedFirsts (xs : List (K × V)) (e : K × V) : e ∈ sortedFirsts xs ↔ Least xs e := by
  have hs : (xs.insertionSort fun a b => toLex a ≤ toLex b).Pairwise
      fun a b => toLex a ≤ toLex b := List.pairwise_insertionSort _ _
  rw [sortedFirsts, mem_destutter_least hs]
  simp only [Least, List.mem_insertionSort]

theorem sortedFirsts_sorted (xs : List (K × V)) :
    (sortedFirsts xs).Pairwise fun a b => a.1 < b.1 := by
  have hs : (xs.insertionSort fun a b => toLex a ≤ toLex b).Pairwise
      fun a b => toLex a ≤ toLex b := List.pairwise_insertionSort _ _
  unfold sortedFirsts
  cases hl : xs.insertionSort fun a b => toLex a ≤ toLex b with
  | nil => exact List.Pairwise.nil
  | cons d L => exact destutter'_sorted (hl ▸ hs)

theorem pairwise_lt_of_chain [PartialOrder A] {l : List A} (h : l.Pairwise (· ≤ ·))
    (hc : l.IsChain (· ≠ ·)) : l.Pairwise (· < ·) := by
  induction l with
  | nil => exact List.Pairwise.nil
  | cons a l ih =>
    obtain ⟨ha, hl⟩ := List.pairwise_cons.mp h
    have htail := ih hl hc.tail
    refine List.pairwise_cons.mpr ⟨fun x hx => ?_, htail⟩
    cases l with
    | nil => cases hx
    | cons b l =>
      have hab : a < b :=
        lt_of_le_of_ne (ha b List.mem_cons_self) (List.isChain_cons_cons.mp hc).1
      rcases List.mem_cons.mp hx with rfl | hx
      · exact hab
      · exact lt_trans hab ((List.pairwise_cons.mp htail).1 x hx)

/-- A sorted list without its repetitions is strictly sorted. -/
theorem destutter_ne_sorted [PartialOrder A] [DecidableEq A] {l : List A}
    (h : l.Pairwise (· ≤ ·)) : (l.destutter (· ≠ ·)).Pairwise (· < ·) :=
  pairwise_lt_of_chain (h.sublist (List.destutter_sublist _ l)) (List.isChain_destutter _ l)

/-- A map of least entries is the sorted list with the first entry of each
key kept. -/
theorem entries_eq_sortedFirsts {m : OrdMap K V} {xs : List (K × V)}
    (h : ∀ e, e ∈ m.entries ↔ Least xs e) : m.entries = sortedFirsts xs := by
  refine List.Pairwise.eq_of_mem_iff m.sorted (sortedFirsts_sorted xs) fun e => ?_
  rw [h e, mem_sortedFirsts]

end

end OrdMap
