import Mathlib.Algebra.Order.Ring.Nat

/-!
# Ordered maps as sorted association lists

A finite map over a linear order, kept as its entries in strictly
ascending key order, so that iterating it is reading the list and two
maps with the same entries are equal. Inserting at an occupied key
replaces the value.
-/

structure OrdMap (K V : Type) [LinearOrder K] where
  entries : List (K × V)
  sorted : entries.Pairwise fun a b => a.1 < b.1

namespace OrdMap

variable {K V : Type} [LinearOrder K]

def empty : OrdMap K V := ⟨[], List.Pairwise.nil⟩

def insertList (k : K) (v : V) : List (K × V) → List (K × V)
  | [] => [(k, v)]
  | e :: es =>
    if k < e.1 then (k, v) :: e :: es
    else if e.1 < k then e :: insertList k v es
    else (k, v) :: es

variable {k : K} {es : List (K × V)} {v : V} {e : K × V}

theorem mem_insertList_of_lt (h : e ∈ insertList k v es) : e = (k, v) ∨ e ∈ es := by
  induction es with
  | nil => exact .inl (List.mem_singleton.mp h)
  | cons d es ih =>
    simp only [insertList] at h
    split at h
    · rcases List.mem_cons.mp h with rfl | hmem
      · exact .inl rfl
      · exact .inr hmem
    · split at h
      · rcases List.mem_cons.mp h with rfl | hmem
        · exact .inr List.mem_cons_self
        · rcases ih hmem with rfl | hmem'
          · exact .inl rfl
          · exact .inr (.tail _ hmem')
      · rcases List.mem_cons.mp h with rfl | hmem
        · exact .inl rfl
        · exact .inr (.tail _ hmem)

theorem insertList_sorted (h : es.Pairwise fun a b => a.1 < b.1) :
    (insertList k v es).Pairwise fun a b => a.1 < b.1 := by
  induction es with
  | nil => exact List.pairwise_singleton _ _
  | cons d es ih =>
    obtain ⟨hd, hes⟩ := List.pairwise_cons.mp h
    simp only [insertList]
    split
    · rename_i hlt
      refine List.pairwise_cons.mpr ⟨?_, h⟩
      intro e he
      rcases List.mem_cons.mp he with rfl | hmem
      · exact hlt
      · exact lt_trans hlt (hd e hmem)
    · split
      · rename_i hgt
        refine List.pairwise_cons.mpr ⟨?_, ih hes⟩
        intro e he
        rcases mem_insertList_of_lt he with rfl | hmem
        · exact hgt
        · exact hd e hmem
      · rename_i h1 h2
        have heq : d.1 = k := le_antisymm (not_lt.mp h1) (not_lt.mp h2)
        refine List.pairwise_cons.mpr ⟨?_, hes⟩
        intro e he
        exact heq ▸ hd e he

def insert (m : OrdMap K V) (k : K) (v : V) : OrdMap K V :=
  ⟨insertList k v m.entries, insertList_sorted m.sorted⟩

variable {m : OrdMap K V}

/-- A map holds one value under a key. -/
theorem value_unique {v' : V} (h : (k, v) ∈ m.entries) (h' : (k, v') ∈ m.entries) : v = v' := by
  obtain ⟨es, hs⟩ := m
  dsimp only at h h'
  induction es with
  | nil => cases h
  | cons d es ih =>
    obtain ⟨hd, hes⟩ := List.pairwise_cons.mp hs
    rcases List.mem_cons.mp h with rfl | hmem
    · rcases List.mem_cons.mp h' with heq | hmem'
      · exact (Prod.mk.inj heq).2.symm
      · exact absurd (hd _ hmem') (lt_irrefl _)
    · rcases List.mem_cons.mp h' with rfl | hmem'
      · exact absurd (hd _ hmem) (lt_irrefl _)
      · exact ih hes hmem hmem'

theorem mem_insertList (hs : es.Pairwise fun a b => a.1 < b.1) :
    e ∈ insertList k v es ↔ e = (k, v) ∨ (e.1 ≠ k ∧ e ∈ es) := by
  induction es with
  | nil => simp [insertList]
  | cons d es ih =>
    obtain ⟨hd, hes⟩ := List.pairwise_cons.mp hs
    simp only [insertList]
    split
    · rename_i hlt
      have hne : ∀ e' ∈ d :: es, e'.1 ≠ k := by
        intro e' he' heq
        rcases List.mem_cons.mp he' with rfl | hmem
        · exact absurd heq (ne_of_gt hlt)
        · exact absurd heq (ne_of_gt (lt_trans hlt (hd e' hmem)))
      rw [List.mem_cons]
      exact or_congr .rfl ⟨fun h => ⟨hne e h, h⟩, fun h => h.2⟩
    · split
      · rename_i hgt
        rw [List.mem_cons, ih hes, List.mem_cons]
        constructor
        · rintro (rfl | heq | ⟨hne, hmem⟩)
          · exact .inr ⟨ne_of_lt hgt, .inl rfl⟩
          · exact .inl heq
          · exact .inr ⟨hne, .inr hmem⟩
        · rintro (heq | ⟨hne, rfl | hmem⟩)
          · exact .inr (.inl heq)
          · exact .inl rfl
          · exact .inr (.inr ⟨hne, hmem⟩)
      · rename_i h1 h2
        have heq : d.1 = k := le_antisymm (not_lt.mp h1) (not_lt.mp h2)
        rw [List.mem_cons, List.mem_cons]
        constructor
        · rintro (h | hmem)
          · exact .inl h
          · exact .inr ⟨fun h => absurd (hd e hmem) (by rw [heq, h]; exact lt_irrefl _),
              .inr hmem⟩
        · rintro (h | ⟨hne, rfl | hmem⟩)
          · exact .inl h
          · exact absurd heq hne
          · exact .inr hmem

/-- What a map holds after an insert. -/
theorem mem_insert :
    e ∈ (m.insert k v).entries ↔ e = (k, v) ∨ (e.1 ≠ k ∧ e ∈ m.entries) :=
  mem_insertList m.sorted

/-- Two lists in strictly ascending key order with the same entries are one. -/
theorem ascending_ext {a b : List (K × V)} (ha : a.Pairwise fun x y => x.1 < y.1)
    (hb : b.Pairwise fun x y => x.1 < y.1) (h : ∀ e, e ∈ a ↔ e ∈ b) : a = b := by
  have hnodup : ∀ {l : List (K × V)}, (l.Pairwise fun x y => x.1 < y.1) → l.Nodup := by
    intro l hl
    refine hl.imp ?_
    rintro x y hlt rfl
    exact lt_irrefl _ hlt
  have hperm := (List.perm_ext_iff_of_nodup (hnodup ha) (hnodup hb)).mpr h
  refine hperm.eq_of_pairwise (fun x y _ _ hxy hyx => ?_) ha hb
  exact absurd (lt_trans hxy hyx) (lt_irrefl _)

/-- Two maps with the same entries are one. -/
theorem ext_mem {m' : OrdMap K V} (h : ∀ e, e ∈ m.entries ↔ e ∈ m'.entries) : m = m' := by
  obtain ⟨es, hs⟩ := m
  obtain ⟨es', hs'⟩ := m'
  obtain rfl := ascending_ext hs hs' h
  rfl

/-- Inserting at a free key adds an entry. -/
theorem insertList_perm (h : ∀ e ∈ es, e.1 ≠ k) : (insertList k v es).Perm ((k, v) :: es) := by
  induction es with
  | nil => exact .refl _
  | cons d es ih =>
    simp only [insertList]
    split
    · exact .refl _
    · split
      · exact (List.Perm.cons d (ih fun e he => h e (.tail _ he))).trans
          (List.Perm.swap _ _ _)
      · rename_i h1 h2
        exact absurd (le_antisymm (not_lt.mp h1) (not_lt.mp h2)) (h d List.mem_cons_self)

theorem insertList_length_le (es : List (K × V)) : (insertList k v es).length ≤ es.length + 1 := by
  induction es with
  | nil => exact le_rfl
  | cons d es ih =>
    simp only [insertList]
    split
    · exact le_rfl
    · split
      · exact Nat.succ_le_succ ih
      · exact Nat.le_succ _

/-- Inserting the values of a list in turn: what is there afterwards was
there or comes from the list. -/
theorem of_mem_foldl_insert {α : Type} {k : α → K} {v : α → V} {xs : List α} :
    ∀ {m : OrdMap K V}, e ∈ (xs.foldl (fun m x => m.insert (k x) (v x)) m).entries →
      e ∈ m.entries ∨ ∃ x ∈ xs, e = (k x, v x) := by
  induction xs with
  | nil => exact fun h => .inl h
  | cons x xs ih =>
    intro m h
    rcases ih h with h | ⟨y, hy, rfl⟩
    · rcases mem_insert.mp h with rfl | ⟨-, h⟩
      · exact .inr ⟨x, List.mem_cons_self, rfl⟩
      · exact .inl h
    · exact .inr ⟨y, .tail _ hy, rfl⟩

/-- A key that was there or is in the list is there afterwards. -/
theorem key_foldl_insert {α : Type} {k : α → K} {v : α → V} {a : K} {xs : List α} :
    ∀ {m : OrdMap K V}, ((∃ b, (a, b) ∈ m.entries) ∨ ∃ x ∈ xs, k x = a) →
      ∃ b, (a, b) ∈ (xs.foldl (fun m x => m.insert (k x) (v x)) m).entries := by
  induction xs with
  | nil =>
    rintro m (h | ⟨x, hx, -⟩)
    · exact h
    · cases hx
  | cons x xs ih =>
    intro m h
    refine ih ?_
    by_cases ha : a = k x
    · exact .inl ⟨v x, mem_insert.mpr (.inl (by rw [ha]))⟩
    · rcases h with ⟨b, hb⟩ | ⟨y, hy, rfl⟩
      · exact .inl ⟨b, mem_insert.mpr (.inr ⟨ha, hb⟩)⟩
      · rcases List.mem_cons.mp hy with rfl | hy
        · exact absurd rfl ha
        · exact .inr ⟨y, hy, rfl⟩

/-- The value under a key. -/
def get? (m : OrdMap K V) (k : K) : Option V := (m.entries.find? fun e => e.1 = k).map Prod.snd

theorem get?_eq_some :
    m.get? k = some v ↔ (k, v) ∈ m.entries := by
  constructor
  · intro h
    obtain ⟨e, he, rfl⟩ := Option.map_eq_some_iff.mp h
    have hk : e.1 = k := by simpa using List.find?_some he
    exact hk ▸ List.mem_of_find?_eq_some he
  · intro h
    unfold get?
    cases hf : m.entries.find? fun e => e.1 = k with
    | none =>
      have hno := List.find?_eq_none.mp hf (k, v) h
      simp at hno
    | some e =>
      have hk : e.1 = k := by simpa using List.find?_some hf
      have he : (k, e.2) ∈ m.entries := hk ▸ List.mem_of_find?_eq_some hf
      exact congrArg some (value_unique he h)

/-- The value of the first entry with a key. -/
def lookupList (k : K) : List (K × V) → Option V
  | [] => none
  | e :: es => if e.1 = k then some e.2 else lookupList k es

theorem get?_eq_lookupList (m : OrdMap K V) (k : K) : m.get? k = lookupList k m.entries := by
  unfold get?
  induction m.entries with
  | nil => rfl
  | cons e es ih =>
    by_cases h : e.1 = k
    · simp [lookupList, h]
    · rw [List.find?_cons_of_neg (by simpa using h), ih, lookupList, if_neg h]

theorem lookupList_eq_none (h : ∀ e ∈ es, e.1 ≠ k) : lookupList k es = none := by
  induction es with
  | nil => rfl
  | cons e es ih =>
    rw [lookupList, if_neg (h e List.mem_cons_self)]
    exact ih fun e he => h e (.tail _ he)

/-- The weight of some entries, each by its value. -/
def weight (f : V → Nat) (es : List (K × V)) : Nat := es.foldr (fun e n => f e.2 + n) 0

/-- An insert adds the weight of its value and takes away that of the value
it replaces. -/
theorem weight_insertList (f : V → Nat) (v : V) (hs : es.Pairwise fun a b => a.1 < b.1) :
    weight f (insertList k v es) + ((lookupList k es).map f).getD 0 = weight f es + f v := by
  induction es with
  | nil => simp [weight, insertList, lookupList]
  | cons d es ih =>
    obtain ⟨hd, hes⟩ := List.pairwise_cons.mp hs
    have hrest := ih hes
    simp only [weight] at hrest
    rw [insertList]
    split
    · rename_i hlt
      have hnone : lookupList k (d :: es) = none := by
        refine lookupList_eq_none fun e he heq => ?_
        rcases List.mem_cons.mp he with rfl | hmem
        · exact absurd heq (ne_of_gt hlt)
        · exact absurd heq (ne_of_gt (lt_trans hlt (hd e hmem)))
      simp only [hnone, weight, List.foldr_cons, Option.map_none, Option.getD_none]
      omega
    · split
      · rename_i hgt
        simp only [lookupList, if_neg (ne_of_lt hgt), weight, List.foldr_cons]
        omega
      · rename_i h1 h2
        have heq : d.1 = k := le_antisymm (not_lt.mp h1) (not_lt.mp h2)
        simp only [lookupList, if_pos heq, weight, List.foldr_cons, Option.map_some,
          Option.getD_some]
        omega

theorem get?_eq_none :
    m.get? k = none ↔ ∀ v, (k, v) ∉ m.entries := by
  constructor
  · intro h v hv
    rw [get?_eq_some.mpr hv] at h
    cases h
  · intro h
    cases hg : m.get? k with
    | none => rfl
    | some v => exact absurd (get?_eq_some.mp hg) (h v)

@[simp] theorem get?_empty (k : K) : (empty : OrdMap K V).get? k = none := rfl

/-- What is under a key after an insert. -/
theorem get?_insert (m : OrdMap K V) (k : K) (v : V) (k' : K) :
    (m.insert k v).get? k' = if k' = k then some v else m.get? k' := by
  split
  · rename_i heq
    subst heq
    exact get?_eq_some.mpr (mem_insert.mpr (.inl rfl))
  · rename_i hne
    have hkeep : ∀ u, (m.insert k v).get? k' = some u ↔ m.get? k' = some u := by
      intro u
      rw [get?_eq_some, get?_eq_some, mem_insert]
      constructor
      · rintro (heq | ⟨-, hmem⟩)
        · exact absurd (congrArg Prod.fst heq) hne
        · exact hmem
      · exact fun hmem => .inr ⟨hne, hmem⟩
    exact Option.ext hkeep

/-- A map rebuilt from its entries is the same map. -/
theorem get?_rebuild (m : OrdMap K V) (k : K) :
    (m.entries.foldl (fun m e => m.insert e.1 e.2) empty).get? k = m.get? k := by
  cases h : m.get? k with
  | some v =>
    have hmem := get?_eq_some.mp h
    obtain ⟨u, hu⟩ := key_foldl_insert (k := Prod.fst) (v := Prod.snd) (m := empty)
      (.inr ⟨(k, v), hmem, rfl⟩)
    rcases of_mem_foldl_insert hu with hnil | ⟨e, he, heq⟩
    · cases hnil
    · obtain rfl : u = v := value_unique (by rw [heq]; exact he) hmem
      exact get?_eq_some.mpr hu
  | none =>
    cases hf : (m.entries.foldl (fun m e => m.insert e.1 e.2) empty).get? k with
    | none => rfl
    | some u =>
      rcases of_mem_foldl_insert (get?_eq_some.mp hf) with hnil | ⟨e, he, heq⟩
      · cases hnil
      · rw [get?_eq_some.mpr (show (k, u) ∈ m.entries by rw [heq]; exact he)] at h
        cases h

/-- The map without a key. -/
def remove (m : OrdMap K V) (k : K) : OrdMap K V :=
  ⟨m.entries.filter (·.1 ≠ k), m.sorted.sublist (List.filter_sublist ..)⟩

theorem get?_remove (m : OrdMap K V) (k k' : K) :
    (m.remove k).get? k' = if k' = k then none else m.get? k' := by
  split
  · rename_i h
    subst h
    rw [get?_eq_none]
    intro e he
    simpa using (List.mem_filter.mp he).2
  · rename_i h
    cases hg : m.get? k' with
    | none =>
      rw [get?_eq_none] at hg ⊢
      exact fun e he => hg e (List.mem_filter.mp he).1
    | some v =>
      rw [get?_eq_some] at hg ⊢
      exact List.mem_filter.mpr ⟨hg, by simpa using h⟩

theorem get?_foldl_remove (ks : List K) (m : OrdMap K V) (k : K) :
    (ks.foldl remove m).get? k = if k ∈ ks then none else m.get? k := by
  induction ks generalizing m with
  | nil => rfl
  | cons a ks ih =>
    rw [List.foldl_cons, ih, get?_remove]
    by_cases ha : k = a
    · rw [if_pos ha, ite_self, if_pos (List.mem_cons.mpr (.inl ha))]
    · rw [if_neg ha]
      simp only [List.mem_cons, ha, false_or]

theorem remove_of_none (h : m.get? k = none) : m.remove k = m := by
  have hkeep : m.entries.filter (·.1 ≠ k) = m.entries := by
    rw [List.filter_eq_self]
    intro e he
    simp only [decide_eq_true_eq]
    rintro rfl
    exact get?_eq_none.mp h e.2 he
  obtain ⟨es, hs⟩ := m
  unfold remove
  congr

/-- The value under a key changed, where there is one. -/
def adjust (m : OrdMap K V) (k : K) (f : V → V) : OrdMap K V :=
  match m.get? k with
  | some v => m.insert k (f v)
  | none => m

theorem get?_adjust (m : OrdMap K V) (k : K) (f : V → V) (k' : K) :
    (m.adjust k f).get? k' = if k' = k then (m.get? k).map f else m.get? k' := by
  unfold adjust
  cases hk : m.get? k with
  | none =>
    by_cases heq : k' = k
    · rw [if_pos heq, heq]
      exact hk
    · exact (if_neg heq).symm
  | some v => exact get?_insert m k (f v) k'

/-- The entries whose value passes. -/
def retain (m : OrdMap K V) (p : V → Bool) : OrdMap K V :=
  ⟨m.entries.filter fun e => p e.2, m.sorted.sublist (List.filter_sublist ..)⟩

theorem get?_retain (m : OrdMap K V) (p : V → Bool) (k : K) :
    (m.retain p).get? k = (m.get? k).filter p := by
  refine Option.ext fun v => ?_
  rw [get?_eq_some, Option.filter_eq_some_iff, get?_eq_some]
  exact List.mem_filter

theorem entries_eq_nil : m.entries = [] ↔ ∀ k, m.get? k = none := by
  constructor
  · intro h k
    rw [get?_eq_none]
    intro v hv
    rw [h] at hv
    cases hv
  · intro h
    cases hm : m.entries with
    | nil => rfl
    | cons e es =>
      have hsome := get?_eq_some.mpr (show (e.1, e.2) ∈ m.entries by
        rw [hm]
        exact List.mem_cons_self)
      rw [h e.1] at hsome
      cases hsome

end OrdMap
