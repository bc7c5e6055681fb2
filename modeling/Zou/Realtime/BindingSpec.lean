import Mathlib.Data.List.Nodup
import Mathlib.Order.Fin.Basic
import Zou.Lib.Drawer
import Zou.Realtime.Binding

/-!
# The index of subscriptions is a plain scan

Every layer of the index is a drawer: the lists under a value, the points of
a column, the list of an event, the lists of a table. Each holds the entries
it should after any adds and removes, so a lookup finds what walking every
binding held would have found.
-/

namespace Zou.Realtime

open Drawer

/-- Taking an id out of a set of entries. -/
def Without (T : Entry → Prop) (id : Nat) (e : Entry) : Prop := T e ∧ e.id ≠ id

/-- Putting an entry into one. -/
def With (T : Entry → Prop) (entry : Entry) (e : Entry) : Prop := T e ∨ e = entry

/-! ## Lists of entries -/

section Buckets

variable {K : Type} {r : Entry → Option K} {T : Entry → Prop} {entry : Entry} {id : Nat}

theorem under_with {k : K} (hr : r entry = some k) (e : Entry) :
    Under r (With T entry) k e ↔ Under r T k e ∨ e = entry := by
  unfold Under With
  constructor
  · rintro ⟨he | he, hk⟩
    · exact .inl ⟨he, hk⟩
    · exact .inr he
  · rintro (⟨he, hk⟩ | rfl)
    · exact ⟨.inl he, hk⟩
    · exact ⟨.inr rfl, hr⟩

theorem under_without {k : K} (e : Entry) :
    Under r (Without T id) k e ↔ Without (Under r T k) id e := and_right_comm

theorem entries_add {es : List Entry} (h : (Drawer.list Entry).Holds T es) (hnew : ¬ T entry) :
    (Drawer.list Entry).Holds (With T entry) (es ++ [entry]) := list_add h hnew

theorem entries_remove {es : List Entry} (h : (Drawer.list Entry).Holds T es) :
    (Drawer.list Entry).Holds (Without T id) (es.filter fun e => !decide (e.id = id)) :=
  (list_remove h).congr fun e => by simp [Without]

variable [LinearOrder K] {held : OrdMap K (List Entry)}

theorem filed_push {k : K} (h : (Drawer.list Entry).Filed r T held) (hnew : ¬ T entry)
    (hr : r entry = some k) : (Drawer.list Entry).Filed r (With T entry) (push held k entry) :=
  h.file hr fun _ hes => (entries_add hes fun hu => hnew hu.1).congr fun e =>
    (under_with hr e).symm

theorem filed_drop {k : K} (h : (Drawer.list Entry).Filed r T held)
    (hid : ∀ e, T e → e.id = id → r e = some k) :
    (Drawer.list Entry).Filed r (Without T id) (dropFrom held k id) := by
  have hretain := list_retain (fun e => decide (e.id = id)) h fun e he ho =>
    hid e he (of_decide_eq_true ho)
  simp only [decide_eq_true_eq] at hretain
  exact hretain

theorem filed_skip (h : (Drawer.list Entry).Filed r T held) (hr : r entry = none) :
    (Drawer.list Entry).Filed r (With T entry) held := by
  refine h.unfiled fun e hne => ⟨.inl, ?_⟩
  rintro (he | rfl)
  · exact he
  · exact absurd hr hne

theorem filed_miss (h : (Drawer.list Entry).Filed r T held)
    (hid : ∀ e, T e → e.id = id → r e = none) : (Drawer.list Entry).Filed r (Without T id) held :=
  h.unfiled fun e hne => ⟨fun he => ⟨he, fun heq => hne (hid e he heq)⟩, And.left⟩

end Buckets

/-! ## Points -/

/-- A reading of the value an entry can be looked up by. -/
def reads {K : Type} (g : String → Option K) (e : Entry) : Option K :=
  (point e.binding).bind fun filter => g filter.value

section Points

variable (parseF64 : String → Option F64) {T : Entry → Prop} {points : Points}

/-- Points that hold a set of entries, every one by each of its readings. -/
structure PointsHold (T : Entry → Prop) (points : Points) : Prop where
  point : ∀ e, T e → (point e.binding).isSome
  ints : (Drawer.list Entry).Filed (reads parseI128) T points.ints
  reals : (Drawer.list Entry).Filed (reads (real parseF64)) T points.reals
  truths : ∀ b, (Drawer.list Entry).Holds (Under (reads truth) T b) (points.truths b)
  texts : (Drawer.list Entry).Filed (reads some) T points.texts

variable {parseF64}

theorem reads_some {e : Entry} (h : (point e.binding).isSome) : reads some e ≠ none := by
  obtain ⟨filter, hf⟩ := Option.isSome_iff_exists.mp h
  rw [reads, hf]
  exact Option.some_ne_none _

theorem points_isEmpty (h : PointsHold parseF64 T points) : points.isEmpty = true ↔ ∀ e, ¬ T e := by
  unfold Points.isEmpty
  simp only [Bool.and_eq_true, List.isEmpty_iff]
  constructor
  · rintro ⟨-, htexts⟩ e he
    exact reads_some (h.point e he) (h.texts.entries_eq_nil.mp htexts e he)
  · intro hno
    have hbucket : ∀ b, points.truths b = [] := fun b =>
      List.isEmpty_iff.mp (((Drawer.list Entry).isEmpty_iff (h.truths b)).mpr fun e he => hno e he.1)
    refine ⟨⟨⟨?_, ?_⟩, hbucket false, hbucket true⟩, ?_⟩
    · exact h.ints.entries_eq_nil.mpr fun e he => absurd he (hno e)
    · exact h.reals.entries_eq_nil.mpr fun e he => absurd he (hno e)
    · exact h.texts.entries_eq_nil.mpr fun e he => absurd he (hno e)

variable (parseF64) in
def pointsDrawer : Drawer Entry Points where
  empty := Points.empty
  isEmpty := Points.isEmpty
  Holds := PointsHold parseF64
  holds_empty := by
    refine ⟨fun e he => he.elim, filed_empty, filed_empty, fun b => ?_, filed_empty⟩
    exact (Drawer.list Entry).holds_empty.congr fun e => ⟨False.elim, fun he => he.1⟩
  isEmpty_iff := points_isEmpty

theorem PointsHold.congr {S : Entry → Prop} (h : PointsHold parseF64 S points)
    (hST : ∀ e, S e ↔ T e) : PointsHold parseF64 T points :=
  @Holds.congr Entry Points (pointsDrawer parseF64) S T points h hST

theorem points_add {entry : Entry} {filter : Filter} (h : PointsHold parseF64 T points)
    (hnew : ¬ T entry) (hpoint : Realtime.point entry.binding = some filter) :
    PointsHold parseF64 (With T entry) (points.add parseF64 filter.value entry) := by
  have hreads : ∀ {K : Type} (g : String → Option K), reads g entry = g filter.value := by
    intro K g
    rw [reads, hpoint, Option.bind_some]
  refine ⟨?_, ?_, ?_, fun b => ?_, filed_push h.texts hnew (hreads some)⟩
  · rintro e (he | rfl)
    · exact h.point e he
    · rw [hpoint]
      rfl
  · unfold Points.add
    cases hr : parseI128 filter.value with
    | none => exact filed_skip h.ints ((hreads _).trans hr)
    | some k => exact filed_push h.ints hnew ((hreads _).trans hr)
  · unfold Points.add
    cases hr : real parseF64 filter.value with
    | none => exact filed_skip h.reals ((hreads _).trans hr)
    | some k => exact filed_push h.reals hnew ((hreads _).trans hr)
  · have hother : truth filter.value ≠ some b →
        (Drawer.list Entry).Holds (Under (reads truth) (With T entry) b) (points.truths b) := by
      intro hne
      refine (h.truths b).congr fun e => and_congr_left fun hb => ⟨.inl, ?_⟩
      rintro (he | rfl)
      · exact he
      · exact absurd ((hreads truth).symm.trans hb) hne
    unfold Points.add
    cases hr : truth filter.value with
    | none => exact hother (by rw [hr]; exact nofun)
    | some k =>
      by_cases hb : b = k
      · subst hb
        show (Drawer.list Entry).Holds _ (Function.update points.truths b _ b)
        rw [Function.update_self]
        exact (entries_add (h.truths b) fun hu => hnew hu.1).congr fun e =>
          (under_with ((hreads _).trans hr) e).symm
      · show (Drawer.list Entry).Holds _ (Function.update points.truths k _ b)
        rw [Function.update_of_ne hb]
        exact hother (by rw [hr]; exact fun heq => hb (Option.some.inj heq).symm)

theorem points_remove {id : Nat} {filter : Filter} (h : PointsHold parseF64 T points)
    (hid : ∀ e, T e → e.id = id → Realtime.point e.binding = some filter) :
    PointsHold parseF64 (Without T id) (points.remove parseF64 id filter.value) := by
  have hreads : ∀ {K : Type} (g : String → Option K) e, T e → e.id = id →
      reads g e = g filter.value := by
    intro K g e he heq
    rw [reads, hid e he heq, Option.bind_some]
  refine ⟨fun e he => h.point e he.1, ?_, ?_, fun b => ?_, filed_drop h.texts (hreads some)⟩
  · unfold Points.remove
    cases hr : parseI128 filter.value with
    | none => exact filed_miss h.ints fun e he heq => (hreads _ e he heq).trans hr
    | some k => exact filed_drop h.ints fun e he heq => (hreads _ e he heq).trans hr
  · unfold Points.remove
    cases hr : real parseF64 filter.value with
    | none => exact filed_miss h.reals fun e he heq => (hreads _ e he heq).trans hr
    | some k => exact filed_drop h.reals fun e he heq => (hreads _ e he heq).trans hr
  · have hother : truth filter.value ≠ some b →
        (Drawer.list Entry).Holds (Under (reads truth) (Without T id) b) (points.truths b) := by
      intro hne
      refine (h.truths b).congr fun e => and_congr_left fun hb => ⟨fun he => ⟨he, fun heq => ?_⟩,
        And.left⟩
      exact hne ((hreads truth e he heq).symm.trans hb)
    unfold Points.remove
    cases hr : truth filter.value with
    | none => exact hother (by rw [hr]; exact nofun)
    | some k =>
      by_cases hb : b = k
      · subst hb
        show (Drawer.list Entry).Holds _ (Function.update points.truths b _ b)
        rw [Function.update_self]
        exact (entries_remove (h.truths b)).congr fun e => (under_without e).symm
      · show (Drawer.list Entry).Holds _ (Function.update points.truths k _ b)
        rw [Function.update_of_ne hb]
        exact hother (by rw [hr]; exact fun heq => hb (Option.some.inj heq).symm)

end Points

/-! ## The list of an event -/

def pointColumn (e : Entry) : Option String := (point e.binding).map Filter.column

section EventLists

variable {parseF64 : String → Option F64} {T : Entry → Prop} {l : EventList}

variable (parseF64) in
structure ListHold (T : Entry → Prop) (l : EventList) : Prop where
  eq : (pointsDrawer parseF64).Filed pointColumn T l.eq
  rest : (Drawer.list Entry).Holds (fun e => T e ∧ point e.binding = none) l.rest

theorem list_isEmpty (h : ListHold parseF64 T l) : l.isEmpty = true ↔ ∀ e, ¬ T e := by
  unfold EventList.isEmpty
  rw [Bool.and_eq_true, List.isEmpty_iff (l := l.eq.entries), h.eq.entries_eq_nil]
  constructor
  · rintro ⟨hrest, heq⟩ e he
    cases hp : point e.binding with
    | none => exact ((Drawer.list Entry).isEmpty_iff h.rest).mp hrest e ⟨he, hp⟩
    | some filter =>
      have hcolumn := heq e he
      rw [pointColumn, hp] at hcolumn
      cases hcolumn
  · intro hno
    refine ⟨((Drawer.list Entry).isEmpty_iff h.rest).mpr fun e he => hno e he.1, ?_⟩
    exact fun e he => absurd he (hno e)

variable (parseF64) in
def eventDrawer : Drawer Entry EventList where
  empty := EventList.empty
  isEmpty := EventList.isEmpty
  Holds := ListHold parseF64
  holds_empty := ⟨filed_empty, (Drawer.list Entry).holds_empty.congr fun _ =>
    ⟨False.elim, fun he => he.1⟩⟩
  isEmpty_iff := list_isEmpty

theorem ListHold.congr {S : Entry → Prop} (h : ListHold parseF64 S l)
    (hST : ∀ e, S e ↔ T e) : ListHold parseF64 T l :=
  @Holds.congr Entry EventList (eventDrawer parseF64) S T l h hST

theorem list_entry_add {entry : Entry} (h : ListHold parseF64 T l) (hnew : ¬ T entry) :
    ListHold parseF64 (With T entry) (l.add parseF64 entry) := by
  unfold EventList.add
  cases hp : point entry.binding with
  | none =>
    have hcolumn : pointColumn entry = none := by
      rw [pointColumn, hp]
      rfl
    refine ⟨h.eq.unfiled fun e hne => ⟨.inl, ?_⟩, ?_⟩
    · rintro (he | rfl)
      · exact he
      · exact absurd hcolumn hne
    · refine (entries_add h.rest fun he => hnew he.1).congr fun e => ?_
      unfold With
      constructor
      · rintro (⟨he, hn⟩ | rfl)
        · exact ⟨.inl he, hn⟩
        · exact ⟨.inr rfl, hp⟩
      · rintro ⟨he | rfl, hn⟩
        · exact .inl ⟨he, hn⟩
        · exact .inr rfl
  | some filter =>
    have hcolumn : pointColumn entry = some filter.column := by
      rw [pointColumn, hp]
      rfl
    have hfile : (pointsDrawer parseF64).Filed pointColumn (With T entry)
        ((pointsDrawer parseF64).file l.eq filter.column fun points =>
          points.add parseF64 filter.value entry) :=
      h.eq.file hcolumn fun points hpoints =>
        (points_add hpoints (fun hu => hnew hu.1) hp).congr fun e => (under_with hcolumn e).symm
    refine ⟨hfile, h.rest.congr fun e => ?_⟩
    · refine and_congr_left fun hn => ⟨.inl, ?_⟩
      rintro (he | rfl)
      · exact he
      · rw [hp] at hn
        cases hn

theorem updatePoints_eq (eq : OrdMap String Points) (column : String) (f : Points → Points) :
    updatePoints eq column f = (pointsDrawer parseF64).unfile eq column f := by
  unfold updatePoints Drawer.unfile
  cases eq.get? column <;> rfl

theorem list_entry_remove {id : Nat} {binding : Binding} (h : ListHold parseF64 T l)
    (hid : ∀ e, T e → e.id = id → e.binding = binding) :
    ListHold parseF64 (Without T id) (l.remove parseF64 id binding) := by
  unfold EventList.remove
  cases hp : point binding with
  | none =>
    refine ⟨h.eq.unfiled fun e hne => ⟨fun he => ⟨he, fun heq => hne ?_⟩, And.left⟩, ?_⟩
    · rw [pointColumn, hid e he heq, hp]
      rfl
    · exact (entries_remove h.rest).congr fun _ => and_right_comm
  | some filter =>
    have hunfile : (pointsDrawer parseF64).Filed pointColumn (Without T id)
        ((pointsDrawer parseF64).unfile l.eq filter.column fun points =>
          points.remove parseF64 id filter.value) := by
      refine h.eq.unfile (fun e he (heq : e.id = id) => ?_) fun points hpoints => ?_
      · rw [pointColumn, hid e he heq, hp]
        rfl
      have hremove : PointsHold parseF64 (Without (Under pointColumn T filter.column) id)
          (points.remove parseF64 id filter.value) := by
        refine points_remove hpoints fun e he heq => ?_
        rw [hid e he.1 heq, hp]
      exact hremove.congr fun e => (under_without e).symm
    refine ⟨?_, h.rest.congr fun e => ?_⟩
    · show (pointsDrawer parseF64).Filed _ _ (updatePoints l.eq filter.column _)
      rw [updatePoints_eq]
      exact hunfile
    · refine and_congr_left fun hn => ⟨fun he => ⟨he, fun heq => ?_⟩, And.left⟩
      rw [hid e he heq, hp] at hn
      cases hn

end EventLists

/-! ## The lists of a table -/

section Tables

variable {parseF64 : String → Option F64} {T : Entry → Prop} {lists : Lists}

theorem wants_nodup (wants : Wants) : wants.lists.Nodup := by cases wants <;> decide

theorem each_at {ats : List (Fin 3)} (hats : ats.Nodup) (f : EventList → EventList)
    (at' : Fin 3) : lists.each ats f at' = if at' ∈ ats then f (lists at') else lists at' := by
  induction ats generalizing lists with
  | nil => rfl
  | cons a ats ih =>
    obtain ⟨ha, hats⟩ := List.nodup_cons.mp hats
    rw [Lists.each, List.foldl_cons]
    refine (ih hats).trans ?_
    by_cases heq : at' = a
    · subst heq
      rw [if_neg ha, if_pos List.mem_cons_self, Function.update_self]
    · rw [Function.update_of_ne heq]
      simp only [List.mem_cons, heq, false_or]

variable (parseF64) in
/-- Lists that hold a set of entries, every one in the lists of its events. -/
def ListsHold (T : Entry → Prop) (lists : Lists) : Prop :=
  ∀ at', ListHold parseF64 (fun e => T e ∧ at' ∈ e.binding.wants.lists) (lists at')

theorem lists_isEmpty (h : ListsHold parseF64 T lists) : lists.isEmpty = true ↔ ∀ e, ¬ T e := by
  have hat : lists.isEmpty = true ↔ ∀ at', (lists at').isEmpty = true := by
    simp [Lists.isEmpty]
  rw [hat]
  constructor
  · intro hall e he
    have hsome : ∃ at', at' ∈ e.binding.wants.lists := by
      cases e.binding.wants
      · exact ⟨0, by decide⟩
      · exact ⟨1, by decide⟩
      · exact ⟨2, by decide⟩
      · exact ⟨0, by decide⟩
    obtain ⟨at', hin⟩ := hsome
    exact (list_isEmpty (h at')).mp (hall at') e ⟨he, hin⟩
  · exact fun hno at' => (list_isEmpty (h at')).mpr fun e he => hno e he.1

variable (parseF64) in
def listsDrawer : Drawer Entry Lists where
  empty := Lists.empty
  isEmpty := Lists.isEmpty
  Holds := ListsHold parseF64
  holds_empty := fun _ => (eventDrawer parseF64).holds_empty.congr fun _ =>
    ⟨False.elim, fun he => he.1⟩
  isEmpty_iff := lists_isEmpty

theorem lists_add {entry : Entry} (h : ListsHold parseF64 T lists) (hnew : ¬ T entry) :
    ListsHold parseF64 (With T entry)
      (lists.each entry.binding.wants.lists fun l => l.add parseF64 entry) := by
  intro at'
  rw [each_at (wants_nodup _)]
  split
  · rename_i hin
    refine (list_entry_add (h at') fun he => hnew he.1).congr fun e => ?_
    unfold With
    constructor
    · rintro (⟨he, hat⟩ | rfl)
      · exact ⟨.inl he, hat⟩
      · exact ⟨.inr rfl, hin⟩
    · rintro ⟨he | rfl, hat⟩
      · exact .inl ⟨he, hat⟩
      · exact .inr rfl
  · rename_i hout
    refine (h at').congr fun e => ?_
    refine and_congr_left fun hat => ⟨.inl, ?_⟩
    rintro (he | rfl)
    · exact he
    · exact absurd hat hout

theorem lists_remove {id : Nat} {binding : Binding} (h : ListsHold parseF64 T lists)
    (hid : ∀ e, T e → e.id = id → e.binding = binding) : ListsHold parseF64 (Without T id)
      (lists.each binding.wants.lists fun l => l.remove parseF64 id binding) := by
  intro at'
  rw [each_at (wants_nodup _)]
  split
  · exact (list_entry_remove (h at') fun e he => hid e he.1).congr fun _ => and_right_comm
  · rename_i hout
    refine (h at').congr fun e => ?_
    refine and_congr_left fun hat => ⟨fun he => ⟨he, fun heq => hout ?_⟩, And.left⟩
    rw [← hid e he heq]
    exact hat

end Tables

/-! ## The whole index -/

/-- The bindings held under an id. -/
def Held (placed : OrdMap Nat Binding) (e : Entry) : Prop := placed.get? e.id = some e.binding

def tableKey (e : Entry) : Option (String ×ₗ String) :=
  e.binding.table.map fun table => toLex (e.binding.schema, table)

def schemaKey (e : Entry) : Option String :=
  if e.binding.table = none then some e.binding.schema else none

section Index

variable {parseF64 : String → Option F64} {subs : Subscriptions}

variable (parseF64) in
/-- Every binding held is filed where a change would look for it. -/
structure Indexed (subs : Subscriptions) : Prop where
  tables : (listsDrawer parseF64).Filed tableKey (Held subs.placed) subs.tables
  schemas : (listsDrawer parseF64).Filed schemaKey (Held subs.placed) subs.schemas

theorem indexed_new : Indexed parseF64 Subscriptions.new := by
  have hnone : ∀ e, Held Subscriptions.new.placed e ↔ False := by
    intro e
    unfold Held Subscriptions.new
    rw [OrdMap.get?_empty]
    simp
  have hset : Held Subscriptions.new.placed = fun _ => False :=
    funext fun e => propext (hnone e)
  exact ⟨by rw [hset]; exact filed_empty, by rw [hset]; exact filed_empty⟩

theorem takeOut_eq {K : Type} [LinearOrder K] (held : OrdMap K Lists) (k : K) (id : Nat)
    (binding : Binding) : Subscriptions.takeOut parseF64 held k id binding =
      (listsDrawer parseF64).unfile held k fun lists =>
        lists.each binding.wants.lists fun l => l.remove parseF64 id binding := by
  unfold Subscriptions.takeOut Drawer.unfile
  cases held.get? k <;> rfl

section Change

variable {K : Type} [LinearOrder K] {r : Entry → Option K} {T : Entry → Prop}
  {held : OrdMap K Lists} {id : Nat} {binding : Binding} {entry : Entry} {k : K}

theorem filed_takeOut (h : (listsDrawer parseF64).Filed r T held)
    (hid : ∀ e, T e → e.id = id → e.binding = binding ∧ r e = some k) :
    (listsDrawer parseF64).Filed r (Without T id)
      (Subscriptions.takeOut parseF64 held k id binding) := by
  rw [takeOut_eq]
  refine h.unfile (fun e he (heq : e.id = id) => (hid e he heq).2) fun lists hlists => ?_
  exact fun at' => (lists_remove hlists (fun e he heq => (hid e he.1 heq).1) at').congr fun e =>
    and_congr_left fun _ => (under_without e).symm

theorem filed_putIn (h : (listsDrawer parseF64).Filed r T held) (hnew : ¬ T entry)
    (hr : r entry = some k) : (listsDrawer parseF64).Filed r (With T entry)
      (Subscriptions.putIn parseF64 held k entry) := by
  have hfile : (listsDrawer parseF64).Filed r (With T entry) ((listsDrawer parseF64).file held k
      fun lists => lists.each entry.binding.wants.lists fun l => l.add parseF64 entry) := by
    refine h.file hr fun lists hlists at' => ?_
    exact (lists_add hlists (fun hu => hnew hu.1) at').congr fun e =>
      and_congr_left fun _ => (under_with hr e).symm
  exact hfile

end Change

theorem held_remove {placed : OrdMap Nat Binding} (id : Nat) :
    Held (placed.remove id) = Without (Held placed) id := by
  funext e
  unfold Held Without
  rw [OrdMap.get?_remove]
  by_cases heq : e.id = id
  · simp [heq]
  · simp [heq]

theorem held_insert {placed : OrdMap Nat Binding} {id : Nat} {binding : Binding}
    (h : placed.get? id = none) :
    Held (placed.insert id binding) = With (Held placed) ⟨id, binding⟩ := by
  funext e
  unfold Held With
  rw [OrdMap.get?_insert]
  by_cases heq : e.id = id
  · rw [if_pos heq, eq_iff_iff]
    constructor
    · intro hb
      refine .inr ?_
      obtain ⟨i, b⟩ := e
      cases hb
      cases heq
      rfl
    · rintro (he | rfl)
      · have hnone : placed.get? e.id = some e.binding := he
        rw [heq, h] at hnone
        cases hnone
      · rfl
  · rw [if_neg heq, eq_iff_iff]
    refine ⟨.inl, ?_⟩
    rintro (he | rfl)
    · exact he
    · exact absurd rfl heq

theorem placed_remove (id : Nat) : (subs.remove parseF64 id).placed = subs.placed.remove id := by
  unfold Subscriptions.remove
  cases hg : subs.placed.get? id with
  | none => exact (OrdMap.remove_of_none hg).symm
  | some binding =>
    dsimp only
    cases binding.table <;> rfl

theorem Indexed.remove (h : Indexed parseF64 subs) (id : Nat) :
    Indexed parseF64 (subs.remove parseF64 id) := by
  cases hg : subs.placed.get? id with
  | none =>
    have hsame : subs.remove parseF64 id = subs := by
      unfold Subscriptions.remove
      rw [hg]
    rw [hsame]
    exact h
  | some binding =>
    have hid : ∀ e, Held subs.placed e → e.id = id → e.binding = binding := by
      intro e he heq
      rw [Held, heq, hg] at he
      exact (Option.some.inj he).symm
    obtain ⟨htables, hschemas⟩ := h
    have hheld : Held (subs.remove parseF64 id).placed = Without (Held subs.placed) id := by
      rw [placed_remove, held_remove]
    refine ⟨?_, ?_⟩
    · rw [hheld]
      unfold Subscriptions.remove
      rw [hg]
      dsimp only
      cases hb : binding.table with
      | none =>
        refine htables.unfiled fun e hne => ⟨fun he => ⟨he, fun heq => hne ?_⟩, And.left⟩
        rw [tableKey, hid e he heq, hb]
        rfl
      | some table =>
        refine filed_takeOut htables fun e he heq => ⟨hid e he heq, ?_⟩
        rw [tableKey, hid e he heq, hb]
        rfl
    · rw [hheld]
      unfold Subscriptions.remove
      rw [hg]
      dsimp only
      cases hb : binding.table with
      | none =>
        refine filed_takeOut hschemas fun e he heq => ⟨hid e he heq, ?_⟩
        rw [schemaKey, hid e he heq, if_pos hb]
      | some table =>
        refine hschemas.unfiled fun e hne => ⟨fun he => ⟨he, fun heq => hne ?_⟩, And.left⟩
        rw [schemaKey, hid e he heq, hb]
        rfl

theorem placed_add (id : Nat) (binding : Binding) : (subs.add parseF64 id binding).placed =
      (subs.remove parseF64 id).placed.insert id binding := by
  unfold Subscriptions.add
  cases binding.table <;> rfl

theorem Indexed.add (h : Indexed parseF64 subs) (id : Nat) (binding : Binding) :
    Indexed parseF64 (subs.add parseF64 id binding) := by
  obtain ⟨htables, hschemas⟩ := h.remove id
  have hfree : (subs.remove parseF64 id).placed.get? id = none := by
    rw [placed_remove, OrdMap.get?_remove, if_pos rfl]
  have hnew : ¬ Held (subs.remove parseF64 id).placed ⟨id, binding⟩ := by
    intro he
    rw [Held, hfree] at he
    cases he
  have hheld : Held (subs.add parseF64 id binding).placed =
      With (Held (subs.remove parseF64 id).placed) ⟨id, binding⟩ := by
    rw [placed_add, held_insert hfree]
  refine ⟨?_, ?_⟩
  · rw [hheld]
    unfold Subscriptions.add
    cases hb : binding.table with
    | none =>
      refine htables.unfiled fun e hne => ⟨.inl, ?_⟩
      rintro (he | rfl)
      · exact he
      · refine absurd ?_ hne
        rw [tableKey, hb]
        rfl
    | some table =>
      refine filed_putIn htables hnew ?_
      rw [tableKey, hb]
      rfl
  · rw [hheld]
    unfold Subscriptions.add
    cases hb : binding.table with
    | none => exact filed_putIn hschemas hnew (if_pos hb)
    | some table =>
      refine hschemas.unfiled fun e hne => ⟨.inl, ?_⟩
      rintro (he | rfl)
      · exact he
      · refine absurd ?_ hne
        rw [schemaKey, hb]
        rfl

end Index

/-! ## What a lookup finds -/

/-- The ids of a set of entries, each entry once. -/
def Finds (ids : List Nat) (T : Entry → Prop) : Prop :=
  ∃ es : List Entry, ids = es.map Entry.id ∧ es.Nodup ∧ ∀ e, e ∈ es ↔ T e

theorem Finds.nil {T : Entry → Prop} (h : ∀ e, ¬ T e) : Finds [] T :=
  ⟨[], rfl, List.nodup_nil, fun e => by simp [h e]⟩

theorem Finds.of_holds {T : Entry → Prop} {es : List Entry}
    (h : (Drawer.list Entry).Holds T es) : Finds (es.map Entry.id) T := ⟨es, rfl, h.1, h.2⟩

theorem Finds.congr {ids : List Nat} {S T : Entry → Prop} (h : Finds ids S)
    (hST : ∀ e, S e ↔ T e) : Finds ids T := by
  obtain ⟨es, hids, hnodup, hmem⟩ := h
  exact ⟨es, hids, hnodup, fun e => (hmem e).trans (hST e)⟩

theorem Finds.append {ids ids' : List Nat} {S T : Entry → Prop} (h : Finds ids S)
    (h' : Finds ids' T) (hdisj : ∀ e, S e → ¬ T e) : Finds (ids ++ ids') fun e => S e ∨ T e := by
  obtain ⟨es, rfl, hnodup, hmem⟩ := h
  obtain ⟨es', rfl, hnodup', hmem'⟩ := h'
  refine ⟨es ++ es', (List.map_append ..).symm, ?_, fun e => ?_⟩
  · refine List.nodup_append.mpr ⟨hnodup, hnodup', ?_⟩
    rintro a ha b hb rfl
    exact hdisj a ((hmem a).mp ha) ((hmem' a).mp hb)
  · rw [List.mem_append, hmem, hmem']

theorem Finds.flatMap {α : Type} {xs : List α} {f : α → List Nat} {R : α → Entry → Prop}
    (h : ∀ x ∈ xs, Finds (f x) (R x)) (hdisj : xs.Pairwise fun x y => ∀ e, R x e → ¬ R y e) :
    Finds (xs.flatMap f) fun e => ∃ x ∈ xs, R x e := by
  induction xs with
  | nil => exact Finds.nil fun e ⟨x, hx, _⟩ => List.not_mem_nil hx
  | cons x xs ih =>
    obtain ⟨hx, hxs⟩ := List.pairwise_cons.mp hdisj
    have htail := ih (fun y hy => h y (.tail _ hy)) hxs
    rw [List.flatMap_cons]
    refine ((h x List.mem_cons_self).append htail ?_).congr fun e => ?_
    · intro e he hex
      obtain ⟨y, hy, hye⟩ := hex
      exact hx y hy e he hye
    · simp [List.mem_cons]

section Lookup

variable {parseF64 : String → Option F64} {T : Entry → Prop}

theorem finds_reading {K : Type} {g : String → Option K} (value : String)
    {found : K → List Entry} (h : ∀ k, (Drawer.list Entry).Holds (Under (reads g) T k) (found k)) :
    Finds ((((g value).map found).getD []).map Entry.id) fun e => T e ∧
      ∃ filter k, point e.binding = some filter ∧ g value = some k ∧ g filter.value = some k := by
  cases hg : g value with
  | none =>
    refine Finds.nil fun e he => ?_
    obtain ⟨-, filter, k, -, hk, -⟩ := he
    cases hk
  | some k =>
    refine (Finds.of_holds (h k)).congr fun e => and_congr_right fun _ => ?_
    unfold reads
    constructor
    · intro hb
      obtain ⟨filter, hf, hk⟩ := Option.bind_eq_some_iff.mp hb
      exact ⟨filter, k, hf, rfl, hk⟩
    · rintro ⟨filter, k', hf, hk, hk'⟩
      cases hk
      rw [hf]
      exact hk'

theorem bind_get {K : Type} [LinearOrder K] (m : OrdMap K (List Entry)) (o : Option K) :
    ((o.bind m.get?).getD []).map Entry.id =
      ((o.map fun k => (m.get? k).getD []).getD []).map Entry.id := by
  cases o <;> rfl

/-- Equal in the column's own type is one reading being the same. -/
def Same {K : Type} (g : String → Option K) (value against : String) : Prop :=
  ∃ k, g value = some k ∧ g against = some k

section Compare

variable {oid : UInt32} (value against : String)

theorem compare_int (hint : oid ∈ integers) :
    Compare.compare parseF64 oid value against = some .eq ↔ Same parseI128 value against := by
  unfold Compare.compare Same
  rw [if_pos hint]
  cases parseI128 value with
  | none => simp
  | some x =>
    cases parseI128 against with
    | none => simp
    | some y => simpa using eq_comm

theorem compare_double (hint : oid ∉ integers) (hdouble : oid ∈ doubles) :
    Compare.compare parseF64 oid value against = some .eq ↔
      Same (real parseF64) value against := by
  unfold Compare.compare Same real
  rw [if_neg hint, if_pos hdouble]
  cases parseF64 value with
  | none => simp
  | some x =>
    cases parseF64 against with
    | none => simp
    | some y =>
      show x.partialCmp y = some .eq ↔ _
      rw [F64.partialCmp_eq]
      cases hx : x.isNan <;> cases hy : y.isNan <;> simp [Option.filter, hx, hy, eq_comm]

theorem compare_bool (hint : oid ∉ integers) (hdouble : oid ∉ doubles) (hbool : oid = 16) :
    Compare.compare parseF64 oid value against = some .eq ↔ Same truth value against := by
  unfold Compare.compare Same
  rw [if_neg hint, if_neg hdouble, if_pos hbool]
  cases truth value with
  | none => simp
  | some a =>
    cases truth against with
    | none => simp
    | some b => cases a <;> cases b <;> decide

theorem compare_text (hint : oid ∉ integers) (hdouble : oid ∉ doubles) (hbool : oid ≠ 16) :
    Compare.compare parseF64 oid value against = some .eq ↔ Same some value against := by
  unfold Compare.compare Same
  rw [if_neg hint, if_neg hdouble, if_neg hbool]
  rw [Option.some_inj, compare_eq_iff_eq]
  exact ⟨fun h => ⟨value, rfl, congrArg some h.symm⟩,
    fun h => by
      obtain ⟨k, hv, ha⟩ := h
      exact Option.some.inj (hv.trans ha.symm)⟩

end Compare

/-- Whether an entry is an equality that a value passes. -/
def Hits (parseF64 : String → Option F64) (oid : UInt32) (value : String) (e : Entry) : Prop :=
  ∃ filter, point e.binding = some filter ∧
    Compare.compare parseF64 oid value filter.value = some .eq

/-- The map a column's type calls for has what the comparison finds equal. -/
theorem points_matching {points : Points} (h : PointsHold parseF64 T points) (oid : UInt32)
    (value : String) :
    Finds (points.matching parseF64 oid value) fun e => T e ∧ Hits parseF64 oid value e := by
  have hread : ∀ {K : Type} {g : String → Option K} {e : Entry},
      (∀ against, Compare.compare parseF64 oid value against = some .eq ↔
        Same g value against) →
      ((∃ filter k, point e.binding = some filter ∧ g value = some k ∧
        g filter.value = some k) ↔ Hits parseF64 oid value e) := by
    intro K g e hsame
    refine exists_congr fun filter => ?_
    rw [hsame, Same, exists_and_left]
  unfold Points.matching
  by_cases hint : oid ∈ integers
  · rw [if_pos hint, bind_get]
    exact (finds_reading value h.ints.at).congr fun e => and_congr_right fun _ =>
      hread fun against => compare_int value against hint
  · rw [if_neg hint]
    by_cases hdouble : oid ∈ doubles
    · rw [if_pos hdouble, bind_get]
      exact (finds_reading value h.reals.at).congr fun e => and_congr_right fun _ =>
        hread fun against => compare_double value against hint hdouble
    · rw [if_neg hdouble]
      by_cases hbool : oid = 16
      · rw [if_pos hbool]
        exact (finds_reading value h.truths).congr fun e => and_congr_right fun _ =>
          hread fun against => compare_bool value against hint hdouble hbool
      · rw [if_neg hbool]
        exact (finds_reading (g := some) value h.texts.at).congr fun e =>
          and_congr_right fun _ => hread fun against => compare_text value against hint hdouble hbool

/-- Whether a binding's filter lets a row pass. -/
def passes (parseF64 : String → Option F64) (binding : Binding) (relation : Relation)
    (cells : List Cell) : Bool :=
  match binding.filter with
  | some filter => filter.passes parseF64 relation cells
  | none => true

theorem any_eq (how : Option Ordering) : how.any (Compare.holds .eq) = true ↔ how = some .eq := by
  rcases how with _ | _ | _ | _ <;> decide

theorem passes_point {binding : Binding} {filter : Filter} {relation : Relation}
    {cells : List Cell} (hp : point binding = some filter) :
    passes parseF64 binding relation cells = true ↔ ∃ oid value,
      textAt relation cells filter.column = some (oid, value) ∧
        Compare.compare parseF64 oid value filter.value = some .eq := by
  obtain ⟨hfilter, heq⟩ := Option.filter_eq_some_iff.mp hp
  have heq : filter.compare = .eq := of_decide_eq_true heq
  unfold passes Filter.passes
  rw [hfilter]
  dsimp only
  rw [heq]
  cases textAt relation cells filter.column with
  | none => simp
  | some x =>
    obtain ⟨oid, value⟩ := x
    refine (any_eq _).trans ?_
    simp

theorem list_matching {l : EventList} (h : ListHold parseF64 T l) (relation : Relation)
    (cells : List Cell) : Finds (l.matching parseF64 relation cells) fun e =>
      T e ∧ passes parseF64 e.binding relation cells = true := by
  have hrest : Finds ((l.rest.filter fun e => passes parseF64 e.binding relation cells).map
      Entry.id) fun e => (T e ∧ point e.binding = none) ∧
        passes parseF64 e.binding relation cells = true := by
    refine ⟨_, rfl, h.rest.1.filter _, fun e => ?_⟩
    rw [List.mem_filter, h.rest.2]
  have hdisj : l.eq.entries.Pairwise fun x y => ∀ e,
      Under pointColumn T x.1 e ∧ passes parseF64 e.binding relation cells = true →
      ¬ (Under pointColumn T y.1 e ∧ passes parseF64 e.binding relation cells = true) := by
    refine l.eq.sorted.imp fun hlt e hx hy => ?_
    have hsame := hx.1.2.symm.trans hy.1.2
    exact absurd (Option.some.inj hsame) (ne_of_lt hlt)
  refine (hrest.append (Finds.flatMap (fun x hx => ?_) hdisj) ?_).congr fun e => ?_
  · obtain ⟨hpoints, -⟩ := h.eq.get_some (OrdMap.get?_eq_some.mpr hx)
    have hunder : ∀ e, pointColumn e = some x.1 →
        ∃ filter, point e.binding = some filter ∧ filter.column = x.1 :=
      fun e he => Option.map_eq_some_iff.mp he
    cases ht : textAt relation cells x.1 with
    | none =>
      refine Finds.nil fun e he => ?_
      obtain ⟨filter, hf, hc⟩ := hunder e he.1.2
      obtain ⟨oid, value, htext, -⟩ := (passes_point hf).mp he.2
      rw [hc, ht] at htext
      cases htext
    | some y =>
      obtain ⟨oid, value⟩ := y
      refine (points_matching hpoints oid value).congr fun e => and_congr_right fun he => ?_
      obtain ⟨filter, hf, hc⟩ := hunder e he.2
      rw [passes_point hf, hc, ht]
      unfold Hits
      constructor
      · rintro ⟨filter', hf', hcmp⟩
        rw [hf] at hf'
        cases hf'
        exact ⟨oid, value, rfl, hcmp⟩
      · rintro ⟨oid', value', heq, hcmp⟩
        cases heq
        exact ⟨filter, hf, hcmp⟩
  · rintro e ⟨⟨-, hnone⟩, -⟩ ⟨x, -, ⟨-, hc⟩, -⟩
    rw [pointColumn, hnone] at hc
    cases hc
  · constructor
    · rintro (⟨⟨he, -⟩, hpass⟩ | ⟨x, -, ⟨he, -⟩, hpass⟩)
      · exact ⟨he, hpass⟩
      · exact ⟨he, hpass⟩
    · rintro ⟨he, hpass⟩
      cases hc : pointColumn e with
      | none => exact .inl ⟨⟨he, Option.map_eq_none_iff.mp hc⟩, hpass⟩
      | some column =>
        refine .inr ?_
        cases hg : l.eq.get? column with
        | none => exact absurd hc (h.eq.get_none hg he)
        | some points => exact ⟨(column, points), OrdMap.get?_eq_some.mp hg, ⟨he, hc⟩, hpass⟩

end Lookup

/-! ## Runs -/

/-- What a caller does to the index. -/
inductive SubOp where
  | add (id : Nat) (binding : Binding)
  | remove (id : Nat)

section Runs

variable (parseF64 : String → Option F64)

def SubOp.apply (subs : Subscriptions) : SubOp → Subscriptions
  | .add id binding => subs.add parseF64 id binding
  | .remove id => subs.remove parseF64 id

def runSubs (ops : List SubOp) : Subscriptions :=
  ops.foldl (SubOp.apply parseF64) Subscriptions.new

/-- The same on the bindings held. -/
def SubOp.held (held : OrdMap Nat Binding) : SubOp → OrdMap Nat Binding
  | .add id binding => (held.remove id).insert id binding
  | .remove id => held.remove id

/-- The bindings held: the last one added under each id and not removed. -/
def heldAfter (ops : List SubOp) : OrdMap Nat Binding := ops.foldl SubOp.held OrdMap.empty

/-- Whether an event is the one of a change, or any. -/
def Wants.covers : Wants → Op → Bool
  | .any, _ => true
  | .insert, op => op = .insert
  | .update, op => op = .update
  | .delete, op => op = .delete

/-- Whether a binding asked for a change. -/
def wanted (change : Change) (binding : Binding) : Bool :=
  binding.schema = change.relation.schema
    && (binding.table = none || binding.table = some change.relation.table)
    && binding.wants.covers change.op
    && passes parseF64 binding change.relation (Subscriptions.cellsOf change)

/-- Walk every binding held, in the order of the ids. -/
def scan (held : OrdMap Nat Binding) (change : Change) : List Nat :=
  (held.entries.filter fun x => wanted parseF64 change x.2).map Prod.fst

variable {parseF64} {subs : Subscriptions}

theorem run_indexed (ops : List SubOp) :
    Indexed parseF64 (runSubs parseF64 ops) ∧ (runSubs parseF64 ops).placed = heldAfter ops := by
  have hall : ∀ (ops : List SubOp) (subs : Subscriptions) (held : OrdMap Nat Binding),
      Indexed parseF64 subs → subs.placed = held →
      Indexed parseF64 (ops.foldl (SubOp.apply parseF64) subs) ∧
        (ops.foldl (SubOp.apply parseF64) subs).placed = ops.foldl SubOp.held held := by
    intro ops
    induction ops with
    | nil => exact fun _ _ h hp => ⟨h, hp⟩
    | cons op ops ih =>
      intro subs held h hp
      rw [List.foldl_cons, List.foldl_cons]
      cases op with
      | add id binding =>
        refine ih _ _ (h.add id binding) ?_
        show (subs.add parseF64 id binding).placed = (held.remove id).insert id binding
        rw [placed_add, placed_remove, hp]
      | remove id =>
        refine ih _ _ (h.remove id) ?_
        show (subs.remove parseF64 id).placed = held.remove id
        rw [placed_remove, hp]
  exact hall ops _ _ indexed_new rfl

theorem listOf_mem (wants : Wants) (op : Op) :
    listOf op ∈ wants.lists ↔ wants.covers op = true := by
  cases wants <;> cases op <;> decide

theorem lists_matching {K : Type} [LinearOrder K] {r : Entry → Option K} {T : Entry → Prop}
    {held : OrdMap K Lists} (h : (listsDrawer parseF64).Filed r T held) (k : K) (change : Change) :
    Finds (match held.get? k with
        | some lists => (lists (listOf change.op)).matching parseF64 change.relation
            (Subscriptions.cellsOf change)
        | none => []) fun e => Under r T k e ∧ e.binding.wants.covers change.op = true ∧
      passes parseF64 e.binding change.relation (Subscriptions.cellsOf change) = true := by
  cases hg : held.get? k with
  | none => exact Finds.nil fun e he => h.get_none hg he.1.1 he.1.2
  | some lists =>
    refine (list_matching ((h.get_some hg).1 _) _ _).congr fun e => ?_
    rw [and_assoc, listOf_mem]

theorem matching_finds (h : Indexed parseF64 subs) (change : Change) :
    ∃ ids, subs.matching parseF64 change = ids.mergeSort ∧
      Finds ids fun e => Held subs.placed e ∧ wanted parseF64 change e.binding = true := by
  refine ⟨_, rfl, ?_⟩
  refine (((lists_matching h.tables _ change).append (lists_matching h.schemas _ change) ?_).congr
    fun e => ?_)
  · rintro e ⟨⟨-, ht⟩, -⟩ ⟨⟨-, hs⟩, -⟩
    unfold tableKey at ht
    unfold schemaKey at hs
    split at hs
    · rename_i hnone
      rw [hnone] at ht
      cases ht
    · cases hs
  · unfold Under tableKey schemaKey wanted
    simp only [Bool.and_eq_true, Bool.or_eq_true, decide_eq_true_eq]
    cases hb : e.binding.table with
    | none => simp; tauto
    | some table => simp [Prod.ext_iff]; tauto

theorem finds_sorted {held : OrdMap Nat Binding} {ids : List Nat} {p : Binding → Bool}
    (h : Finds ids fun e => Held held e ∧ p e.binding = true) :
    ids.mergeSort = (held.entries.filter fun x => p x.2).map Prod.fst := by
  obtain ⟨es, rfl, hnodup, hmem⟩ := h
  have hids : (es.map Entry.id).Nodup := by
    refine List.Nodup.map_on (fun x hx y hy heq => ?_) hnodup
    obtain ⟨hx, -⟩ := (hmem x).mp hx
    obtain ⟨hy, -⟩ := (hmem y).mp hy
    have hb : x.binding = y.binding := by
      rw [Held, heq] at hx
      exact Option.some.inj (hx.symm.trans hy)
    obtain ⟨i, b⟩ := x
    cases heq
    cases hb
    rfl
  have hscan : ((held.entries.filter fun x => p x.2).map Prod.fst).Pairwise (· < ·) :=
    List.pairwise_map.mpr (held.sorted.filter _)
  have hperm : (es.map Entry.id).Perm ((held.entries.filter fun x => p x.2).map Prod.fst) := by
    refine (List.perm_ext_iff_of_nodup hids (hscan.imp fun hlt => ne_of_lt hlt)).mpr fun i => ?_
    simp only [List.mem_map, List.mem_filter, hmem, Held, OrdMap.get?_eq_some]
    constructor
    · rintro ⟨e, ⟨he, hp⟩, rfl⟩
      exact ⟨(e.id, e.binding), ⟨he, hp⟩, rfl⟩
    · rintro ⟨x, ⟨hx, hp⟩, rfl⟩
      exact ⟨⟨x.1, x.2⟩, ⟨hx, hp⟩, rfl⟩
  have hsorted : ((es.map Entry.id).mergeSort).Pairwise (· ≤ ·) :=
    (@List.pairwise_mergeSort Nat (fun a b => decide (a ≤ b)) (by simp; omega) (by simp; omega)
      _).imp fun hle => of_decide_eq_true hle
  exact ((List.mergeSort_perm _ _).trans hperm).eq_of_pairwise
    (fun a b _ _ => le_antisymm) hsorted (hscan.imp le_of_lt)

/-- One equality is looked up by exactly the values that compare equal. -/
theorem points_lookup {entry : Entry} {filter : Filter} (hp : point entry.binding = some filter)
    (oid : UInt32) (value : String) :
    (Points.empty.add parseF64 filter.value entry).matching parseF64 oid value =
      if Compare.compare parseF64 oid value filter.value = some .eq then [entry.id] else [] := by
  have hone := points_add (pointsDrawer parseF64).holds_empty (fun h : False => h) hp
  obtain ⟨es, hids, hnodup, hmem⟩ := points_matching hone oid value
  have hhits : Hits parseF64 oid value entry ↔
      Compare.compare parseF64 oid value filter.value = some .eq := by
    simp [Hits, hp]
  have hof : ∀ e ∈ es, e = entry := fun e he => ((hmem e).mp he).1.resolve_left id
  refine hids.trans ?_
  split
  · rename_i heq
    have hin : entry ∈ es := (hmem entry).mpr ⟨.inr rfl, hhits.mpr heq⟩
    have hperm : es.Perm [entry] := (List.perm_ext_iff_of_nodup hnodup
      (List.pairwise_singleton _ _)).mpr fun e => ⟨fun he => List.mem_singleton.mpr (hof e he),
        fun he => List.mem_singleton.mp he ▸ hin⟩
    rw [List.perm_singleton.mp hperm]
    rfl
  · rename_i hne
    have hnil : es = [] := List.eq_nil_iff_forall_not_mem.mpr fun e he => by
      have hhit := ((hmem e).mp he).2
      rw [hof e he] at hhit
      exact hne (hhits.mp hhit)
    rw [hnil]
    rfl

variable (parseF64) in
/-- The index is a plain scan: whatever was added and removed, a change
matches the bindings held that asked for it, in the order of their ids; a
value is looked up as the comparison finds it equal; and when nothing is
held nothing is left of the index. -/
theorem index_is_scan (ops : List SubOp) :
    (∀ change, (runSubs parseF64 ops).matching parseF64 change =
      scan parseF64 (heldAfter ops) change) ∧
    (∀ entry filter oid value, point entry.binding = some filter →
      (Points.empty.add parseF64 filter.value entry).matching parseF64 oid value =
        if Compare.compare parseF64 oid value filter.value = some .eq then [entry.id] else []) ∧
    ((heldAfter ops).entries = [] → (runSubs parseF64 ops).tables.entries = [] ∧
      (runSubs parseF64 ops).schemas.entries = [] ∧ (runSubs parseF64 ops).placed.entries = []) := by
  obtain ⟨hindexed, hplaced⟩ := @run_indexed parseF64 ops
  refine ⟨fun change => ?_, fun _ _ oid value hp => points_lookup hp oid value, fun hempty => ?_⟩
  · obtain ⟨ids, hmatching, hfinds⟩ := matching_finds hindexed change
    rw [hmatching, scan, ← hplaced]
    exact finds_sorted hfinds
  · have hno : ∀ e, ¬ Held (runSubs parseF64 ops).placed e := by
      intro e he
      rw [hplaced, Held, OrdMap.get?_eq_some, hempty] at he
      cases he
    refine ⟨hindexed.tables.entries_eq_nil.mpr fun e he => absurd he (hno e),
      hindexed.schemas.entries_eq_nil.mpr fun e he => absurd he (hno e), ?_⟩
    rw [hplaced, hempty]

end Runs

def sevens : Binding :=
  { wants := .any, schema := "public", table := some "todos"
    filter := some { column := "id", compare := .eq, value := "007" } }

theorem index_is_scan_sevens :
    (Points.empty.add (fun _ => none) "007" ⟨1, sevens⟩).matching (fun _ => none) 23 "7" = [1] ∧
    (runSubs (fun _ => none) [.add 1 sevens, .remove 1]).tables.entries = [] := by
  have hclaim := index_is_scan (fun _ => none) [.add 1 sevens, .remove 1]
  refine ⟨?_, (hclaim.2.2 (by decide)).1⟩
  have hlookup := hclaim.2.1 ⟨1, sevens⟩ { column := "id", compare := .eq, value := "007" } 23 "7" rfl
  rw [if_pos (by decide)] at hlookup
  exact hlookup

end Zou.Realtime
