import Zou.Lib.OrdMap

/-!
# Indexes of drawers

An index files elements under a key: an ordered map from keys to drawers,
where an element with no key is not filed and no drawer is empty. What a
drawer is stays open: it holds a set of elements, and it says whether it is
empty. A list is one, and an index of drawers is one again, so an index of
indexes needs no rule of its own.

`Filed` says that a map is the index of a set. Filing an element and
taking it out keep it, whichever way the map is changed, as long as it
reads as it should at every key.
-/

/-- Something that holds a set of elements. -/
structure Drawer (E X : Type) where
  empty : X
  isEmpty : X → Bool
  Holds : (E → Prop) → X → Prop
  holds_empty : Holds (fun _ => False) empty
  isEmpty_iff : ∀ {S x}, Holds S x → (isEmpty x = true ↔ ∀ e, ¬ S e)

namespace Drawer

variable {E X K : Type}

/-- A list holds its elements, each once. -/
def list (E : Type) : Drawer E (List E) where
  empty := []
  isEmpty := List.isEmpty
  Holds S es := es.Nodup ∧ ∀ e, e ∈ es ↔ S e
  holds_empty := ⟨List.nodup_nil, fun e => by simp⟩
  isEmpty_iff := by
    intro S es h
    rw [List.isEmpty_iff]
    constructor
    · rintro rfl e he
      exact List.not_mem_nil ((h.2 e).mpr he)
    · intro hno
      exact List.eq_nil_iff_forall_not_mem.mpr fun e he => hno e ((h.2 e).mp he)

variable (drawer : Drawer E X)

theorem Holds.congr {drawer : Drawer E X} {S T : E → Prop} {x : X} (h : drawer.Holds S x)
    (hST : ∀ e, S e ↔ T e) : drawer.Holds T x :=
  funext (fun e => propext (hST e)) ▸ h

/-- The elements of `S` that are filed under `k`. -/
def Under (r : E → Option K) (S : E → Prop) (k : K) (e : E) : Prop := S e ∧ r e = some k

/-- A map that is the index of `S` under the reading `r`. -/
def Filed [LinearOrder K] (r : E → Option K) (S : E → Prop) (m : OrdMap K X) : Prop :=
  ∀ k, match m.get? k with
    | none => ∀ e, ¬ Under r S k e
    | some x => drawer.Holds (Under r S k) x ∧ ∃ e, Under r S k e

section

variable {drawer}
variable [LinearOrder K] {r : E → Option K} {S : E → Prop} {m m' : OrdMap K X}

theorem Filed.get_none (h : drawer.Filed r S m) {k : K} (hk : m.get? k = none) {e : E}
    (he : S e) : r e ≠ some k := by
  have hat := h k
  rw [hk] at hat
  exact fun hr => hat e ⟨he, hr⟩

theorem Filed.get_some (h : drawer.Filed r S m) {k : K} {x : X} (hk : m.get? k = some x) :
    drawer.Holds (Under r S k) x ∧ ∃ e, Under r S k e := by
  have hat := h k
  rw [hk] at hat
  exact hat

/-- What stands at a key, an empty drawer where nothing does. -/
theorem Filed.at (h : drawer.Filed r S m) (k : K) :
    drawer.Holds (Under r S k) ((m.get? k).getD drawer.empty) := by
  cases hk : m.get? k with
  | none =>
    refine drawer.holds_empty.congr fun e => ⟨False.elim, ?_⟩
    rintro ⟨he, hr⟩
    exact h.get_none hk he hr
  | some x => exact (h.get_some hk).1

theorem Filed.of_get (h : ∀ k, m.get? k = none → ∀ e, ¬ Under r S k e)
    (h' : ∀ k x, m.get? k = some x → drawer.Holds (Under r S k) x ∧ ∃ e, Under r S k e) :
    drawer.Filed r S m := by
  intro k
  cases hk : m.get? k with
  | none => exact h k hk
  | some x => exact h' k x hk

theorem Filed.of_get_eq (h : drawer.Filed r S m) (hget : ∀ k, m'.get? k = m.get? k) :
    drawer.Filed r S m' := by
  intro k
  rw [hget]
  exact h k

theorem filed_empty : drawer.Filed r (fun _ => False) (OrdMap.empty : OrdMap K X) :=
  fun _ _ he => he.1

/-- An element that is not filed changes nothing. -/
theorem Filed.unfiled {T : E → Prop} (h : drawer.Filed r S m)
    (hST : ∀ e, r e ≠ none → (S e ↔ T e)) : drawer.Filed r T m := by
  have hunder : ∀ k e, Under r S k e ↔ Under r T k e := by
    intro k e
    refine and_congr_left fun hr => hST e ?_
    rw [hr]
    exact Option.some_ne_none k
  refine .of_get (fun k hk e he => h.get_none hk ((hunder k e).mpr he).1 he.2) fun k x hk => ?_
  obtain ⟨hx, e, he⟩ := h.get_some hk
  exact ⟨hx.congr (hunder k), e, (hunder k e).mp he⟩

/-- A map changed at one key, where its drawer is told of the change. -/
theorem Filed.change {T : E → Prop} {k : K} (h : drawer.Filed r S m)
    (hST : ∀ e, r e ≠ some k → (S e ↔ T e)) (hoff : ∀ k', k' ≠ k → m'.get? k' = m.get? k')
    (hnone : m'.get? k = none → ∀ e, ¬ Under r T k e)
    (hsome : ∀ x, m'.get? k = some x → drawer.Holds (Under r T k) x ∧ ∃ e, Under r T k e) :
    drawer.Filed r T m' := by
  have hunder : ∀ k', k' ≠ k → ∀ e, Under r S k' e ↔ Under r T k' e := by
    intro k' hne e
    refine and_congr_left fun hr => hST e ?_
    rw [hr]
    exact fun heq => hne (Option.some.inj heq)
  refine .of_get (fun k' hk e he => ?_) fun k' x hk => ?_
  · by_cases heq : k' = k
    · subst heq
      exact hnone hk e he
    · rw [hoff k' heq] at hk
      exact h.get_none hk ((hunder k' heq e).mpr he).1 he.2
  · by_cases heq : k' = k
    · subst heq
      exact hsome x hk
    · rw [hoff k' heq] at hk
      obtain ⟨hx, e, he⟩ := h.get_some hk
      exact ⟨hx.congr (hunder k' heq), e, (hunder k' heq e).mp he⟩

theorem Filed.entries_eq_nil (h : drawer.Filed r S m) : m.entries = [] ↔ ∀ e, S e → r e = none := by
  rw [OrdMap.entries_eq_nil]
  constructor
  · intro hm e he
    cases hr : r e with
    | none => rfl
    | some k => exact absurd hr (h.get_none (hm k) he)
  · intro hno k
    cases hk : m.get? k with
    | none => rfl
    | some x =>
      obtain ⟨-, e, he, hr⟩ := h.get_some hk
      rw [hno e he] at hr
      cases hr

end

/-! ## Filing and taking out -/

section

variable {drawer}
variable [LinearOrder K] {r : E → Option K} {S : E → Prop} {m : OrdMap K X}

/-- Change the drawer of a key, an empty one where there is none. -/
def file (drawer : Drawer E X) (m : OrdMap K X) (k : K) (add : X → X) : OrdMap K X :=
  m.insert k (add ((m.get? k).getD drawer.empty))

/-- Change the drawer of a key if there is one, and drop it when it is empty. -/
def unfile (drawer : Drawer E X) (m : OrdMap K X) (k : K) (remove : X → X) : OrdMap K X :=
  match m.get? k with
  | none => m
  | some x => if drawer.isEmpty (remove x) then m.remove k else m.insert k (remove x)

theorem Filed.file {k : K} {e : E} {add : X → X} (h : drawer.Filed r S m) (hr : r e = some k)
    (hadd : ∀ x, drawer.Holds (Under r S k) x →
      drawer.Holds (Under r (fun e' => S e' ∨ e' = e) k) (add x)) :
    drawer.Filed r (fun e' => S e' ∨ e' = e) (drawer.file m k add) := by
  have hget : (drawer.file m k add).get? k = some (add ((m.get? k).getD drawer.empty)) := by
    rw [Drawer.file, OrdMap.get?_insert, if_pos rfl]
  refine h.change (k := k) (fun e' hne => ?_) (fun k' hne => ?_) (fun hk => ?_) fun x hx => ?_
  · refine ⟨.inl, fun hor => hor.resolve_right ?_⟩
    rintro rfl
    exact hne hr
  · rw [Drawer.file, OrdMap.get?_insert, if_neg hne]
  · rw [hget] at hk
    cases hk
  · rw [hget] at hx
    cases hx
    exact ⟨hadd _ (h.at k), e, .inr rfl, hr⟩

theorem Filed.unfile {k : K} {out : E → Prop} {remove : X → X} (h : drawer.Filed r S m)
    (hout : ∀ e, S e → out e → r e = some k)
    (hremove : ∀ x, drawer.Holds (Under r S k) x →
      drawer.Holds (Under r (fun e => S e ∧ ¬ out e) k) (remove x)) :
    drawer.Filed r (fun e => S e ∧ ¬ out e) (drawer.unfile m k remove) := by
  have hST : ∀ e, r e ≠ some k → (S e ↔ S e ∧ ¬ out e) :=
    fun e hne => ⟨fun he => ⟨he, fun ho => hne (hout e he ho)⟩, And.left⟩
  unfold Drawer.unfile
  cases hk : m.get? k with
  | none =>
    refine h.change hST (fun _ _ => rfl) (fun _ e he => h.get_none hk he.1.1 he.2) fun x hx => ?_
    rw [hk] at hx
    cases hx
  | some x =>
    have hx := hremove x (h.get_some hk).1
    dsimp only
    split
    · rename_i hempty
      refine h.change hST (fun k' hne => ?_) (fun _ => (drawer.isEmpty_iff hx).mp hempty) fun y hy => ?_
      · rw [OrdMap.get?_remove, if_neg hne]
      · rw [OrdMap.get?_remove, if_pos rfl] at hy
        cases hy
    · rename_i hfull
      refine h.change hST (fun k' hne => ?_) (fun hno => ?_) fun y hy => ?_
      · rw [OrdMap.get?_insert, if_neg hne]
      · rw [OrdMap.get?_insert, if_pos rfl] at hno
        cases hno
      · rw [OrdMap.get?_insert, if_pos rfl] at hy
        cases hy
        refine ⟨hx, Classical.not_forall_not.mp fun hno => hfull ?_⟩
        exact (drawer.isEmpty_iff hx).mpr hno

end

/-! ## Lists as drawers -/

section

variable {S : E → Prop} {es : List E}

theorem list_add {e : E} (h : (list E).Holds S es) (he : ¬ S e) :
    (list E).Holds (fun e' => S e' ∨ e' = e) (es ++ [e]) := by
  obtain ⟨hnodup, hmem⟩ := h
  refine ⟨?_, fun e' => ?_⟩
  · rw [List.nodup_append]
    refine ⟨hnodup, List.pairwise_singleton _ e, fun a ha b hb => ?_⟩
    rw [List.mem_singleton.mp hb]
    rintro rfl
    exact he ((hmem a).mp ha)
  · rw [List.mem_append, List.mem_singleton, hmem]

theorem list_remove {out : E → Bool} (h : (list E).Holds S es) :
    (list E).Holds (fun e => S e ∧ ¬ out e = true) (es.filter fun e => !out e) := by
  obtain ⟨hnodup, hmem⟩ := h
  refine ⟨hnodup.filter _, fun e => ?_⟩
  rw [List.mem_filter, hmem]
  simp

/-- The drawer of all elements with a key taken out of a list. -/
theorem list_retain [LinearOrder K] {r : E → Option K} {m : OrdMap K (List E)} {k : K}
    (out : E → Bool) (h : (list E).Filed r S m) (hout : ∀ e, S e → out e = true → r e = some k) :
    (list E).Filed r (fun e => S e ∧ ¬ out e = true)
      ((m.adjust k fun es => es.filter fun e => !out e).retain fun es => !es.isEmpty) := by
  have hkept : ∀ k', (m.get? k').filter (fun es => !es.isEmpty) = m.get? k' := by
    intro k'
    cases hk : m.get? k' with
    | none => rfl
    | some es =>
      obtain ⟨hes, hex⟩ := h.get_some hk
      have hfull : ¬ es.isEmpty = true := fun hno => by
        obtain ⟨e, he⟩ := hex
        exact ((list E).isEmpty_iff hes).mp hno e he
      simp [Option.filter, hfull]
  refine (h.unfile hout fun es hes => (list_remove hes).congr fun e => and_right_comm).of_get_eq
    fun k' => ?_
  rw [OrdMap.get?_retain, OrdMap.get?_adjust]
  unfold Drawer.unfile
  cases hk : m.get? k with
  | none =>
    split
    · rename_i heq
      rw [heq]
      exact hk.symm
    · exact hkept k'
  | some es =>
    dsimp only
    split
    · rename_i heq
      split
      · rename_i hempty
        rw [OrdMap.get?_remove, if_pos heq]
        simp only [list] at hempty
        simp [Option.filter, hempty]
      · rename_i hfull
        rw [OrdMap.get?_insert, if_pos heq]
        simp only [list] at hfull
        simp [Option.filter, hfull]
    · rename_i hne
      rw [hkept]
      split
      · rw [OrdMap.get?_remove, if_neg hne]
      · rw [OrdMap.get?_insert, if_neg hne]

end

end Drawer
