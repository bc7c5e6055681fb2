import Zou.Rest.ViewKeys

/-!
# What views inherit

`Reaches` is the relation behind it: from a named column of a view, by one
step or more, to a column of some relation. A view holds a key under a list
of names where each name reaches its column of the key, and `derive` and
`primaryKeys` give it that key then and not otherwise.
-/

namespace Zou.Rest

variable (origins : List Char → List Origin) (views : List ViewRow) (schema : String)

/-- One step back. -/
def Step (a b : TableColumn) : Prop := b ∈ stepsFrom origins views a

/-- A named column of the schema's view `i` comes, by any number of steps,
from a column. -/
def Reaches (i : Nat) (name : String) (key : TableColumn) : Prop :=
  ∃ view attnum, views[i]? = some view ∧ view.schema = schema
    ∧ view.column attnum = some name
    ∧ Relation.TransGen (Step origins views) (view.oid, attnum) key

/-- A view holds the whole of a key under these names, in the key's order. -/
def Holds (i : Nat) (table : Int) (attnums : List Int) (columns : List String) : Prop :=
  attnums ≠ []
    ∧ List.Forall₂ (fun attnum name => Reaches origins views schema i name (table, attnum))
      attnums columns

/-- A view holds every column of a key. -/
def Owns (i : Nat) (pk : PkRow) : Prop :=
  pk.attnums ≠ []
    ∧ ∀ attnum ∈ pk.attnums, ∃ name, Reaches origins views schema i name (pk.oid, attnum)

/-- The rows of a key: with a view on its table's side, with one on the
other, with one on each. A table end is one of the schema. -/
inductive Derived (key : KeyRow) : FkRow → Prop
  | ontoTable {i : Nat} {columns : List String} :
      Holds origins views schema i key.oid key.attnums columns → key.refSchema = schema →
      Derived key (key.between (nameOf views i) columns key.refTable key.refColumns)
  | ontoView {i j : Nat} {columns refColumns : List String} :
      Holds origins views schema i key.oid key.attnums columns →
      Holds origins views schema j key.refOid key.refAttnums refColumns →
      Derived key (key.between (nameOf views i) columns (nameOf views j) refColumns)
  | ofTable {j : Nat} {refColumns : List String} :
      key.schema = schema → Holds origins views schema j key.refOid key.refAttnums refColumns →
      Derived key (key.between key.table key.columns (nameOf views j) refColumns)

/-- The columns view `i` is given for the primary keys it holds: the first
name of each of their columns, in the view's own order, and so the whole of
those keys and of no other. -/
structure Inherits (pks : List PkRow) (i : Nat) (columns : List String) : Prop where
  ordered : columns.Pairwise fun name name' =>
    ∃ a b, position views i name = some a ∧ position views i name' = some b ∧ a < b
  named : ∀ name, name ∈ columns ↔ ∃ pk ∈ pks, Owns origins views schema i pk
    ∧ ∃ attnum ∈ pk.attnums,
      (heldAs (back origins views schema) i (pk.oid, attnum)).head? = some name
  whole : ∀ pk ∈ pks, Owns origins views schema i pk ↔ pk.attnums ≠ []
    ∧ ∀ attnum ∈ pk.attnums, ∃ name ∈ columns,
      Reaches origins views schema i name (pk.oid, attnum)

variable {origins views schema}

/-! ## The trace -/

theorem stepsFrom_targets {a b : TableColumn} (h : b ∈ stepsFrom origins views a) :
    b ∈ targets origins views := by
  obtain ⟨o, ho, hb⟩ := List.mem_filterMap.mp h
  obtain ⟨-, hb⟩ := Option.ite_none_right_eq_some.mp hb
  cases hb
  unfold stepsOf at ho
  cases hfind : views.reverse.find? (·.oid = a.1) with
  | none =>
    rw [hfind] at ho
    cases ho
  | some view =>
    rw [hfind] at ho
    have hview : view ∈ views := List.mem_reverse.mp (List.mem_of_find?_eq_some hfind)
    exact List.mem_flatMap.mpr ⟨view, hview, List.mem_map.mpr ⟨o, ho, rfl⟩⟩

theorem traced_spec (origin : Origin) :
    Loop.Returns (Worklist.turn (stepsFrom origins views)) (traceStart origin)
        (traced origins views origin)
      ∧ ∀ key, key ∈ traced origins views origin ↔
        Relation.ReflTransGen (Step origins views) (origin.table, origin.tableColumn) key := by
  have huniv : ∀ x ∈ (origin.table, origin.tableColumn) :: targets origins views,
      ∀ y ∈ stepsFrom origins views x,
        y ∈ (origin.table, origin.tableColumn) :: targets origins views :=
    fun _ _ _ hy => .tail _ (stepsFrom_targets hy)
  have hfuel : ((origin.table, origin.tableColumn) :: targets origins views).length
      < (targets origins views).length + 2 := Nat.lt_succ_self _
  exact Worklist.run_spec List.mem_cons_self huniv hfuel

variable {key : TableColumn}

theorem mem_stepsFrom {view attnum : Int} :
    Step origins views (view, attnum) key ↔ ∃ origin ∈ stepsOf origins views view,
      origin.column = attnum ∧ key = (origin.table, origin.tableColumn) := by
  unfold Step stepsFrom
  rw [List.mem_filterMap]
  constructor
  · rintro ⟨o, ho, h⟩
    obtain ⟨hc, h⟩ := Option.ite_none_right_eq_some.mp h
    exact ⟨o, ho, hc, (Option.some.inj h).symm⟩
  · rintro ⟨o, ho, hc, rfl⟩
    exact ⟨o, ho, if_pos hc⟩

variable {i : Nat} {name : String}

theorem mem_landedOn :
    (i, name) ∈ landedOn (back origins views schema) key ↔
      Reaches origins views schema i name key := by
  have hback : (i, name) ∈ landedOn (back origins views schema) key ↔
      (key, (i, name)) ∈ back origins views schema := by
    unfold landedOn
    rw [List.mem_filterMap]
    constructor
    · rintro ⟨⟨landed, from_⟩, he, h⟩
      obtain ⟨hkey, h⟩ := Option.ite_none_right_eq_some.mp h
      cases h
      exact hkey ▸ he
    · exact fun h => ⟨_, h, if_pos rfl⟩
  rw [hback]
  unfold back
  rw [List.mem_flatMap]
  constructor
  · rintro ⟨⟨view, j⟩, hview, h⟩
    have hview := List.mem_zipIdx_iff_getElem?.mp hview
    dsimp only at h
    split at h
    · cases h
    · rename_i hschema
      obtain ⟨origin, horigin, h⟩ := List.mem_flatMap.mp h
      split at h
      · cases h
      · rename_i n hname
        obtain ⟨landed, hlanded, heq⟩ := List.mem_map.mp h
        obtain ⟨rfl, rfl, rfl⟩ : landed = key ∧ j = i ∧ n = name := by simpa using heq
        refine ⟨view, origin.column, hview, Decidable.not_not.mp hschema, hname, ?_⟩
        refine Relation.TransGen.head'_iff.mpr ⟨(origin.table, origin.tableColumn), ?_,
          ((traced_spec origin).2 _).mp hlanded⟩
        exact mem_stepsFrom.mpr ⟨origin, horigin, rfl, rfl⟩
  · rintro ⟨view, attnum, hview, hschema, hname, htrans⟩
    obtain ⟨b, hstep, hrest⟩ := Relation.TransGen.head'_iff.mp htrans
    obtain ⟨origin, horigin, rfl, rfl⟩ := mem_stepsFrom.mp hstep
    refine ⟨(view, i), List.mem_zipIdx_iff_getElem?.mpr hview, ?_⟩
    dsimp only
    rw [if_neg (not_not_intro hschema)]
    refine List.mem_flatMap.mpr ⟨origin, horigin, ?_⟩
    rw [hname]
    exact List.mem_map.mpr ⟨key, ((traced_spec origin).2 _).mpr hrest, rfl⟩

theorem mem_heldAs :
    name ∈ heldAs (back origins views schema) i key ↔ Reaches origins views schema i name key := by
  rw [← mem_landedOn]
  unfold heldAs
  simp

/-! ## Ends -/

variable {columns : List String}

theorem mem_spread {each : List (List String)} :
    columns ∈ spread each ↔ List.Forall₂ (fun names name => name ∈ names) each columns := by
  have hfold : ∀ (each : List (List String)) (init : List (List String)) (columns : List String),
      columns ∈ each.foldl (fun out names =>
          out.flatMap fun soFar => names.map fun name => soFar ++ [name]) init
        ↔ ∃ front ∈ init, ∃ rest, columns = front ++ rest
          ∧ List.Forall₂ (fun names name => name ∈ names) each rest := by
    intro each
    induction each with
    | nil =>
      intro init columns
      constructor
      · exact fun h => ⟨columns, h, [], (List.append_nil _).symm, .nil⟩
      · rintro ⟨front, hf, rest, rfl, h⟩
        cases h
        rwa [List.append_nil]
    | cons names each ih =>
      intro init columns
      rw [List.foldl_cons, ih]
      constructor
      · rintro ⟨front, hf, rest, rfl, h⟩
        obtain ⟨soFar, hs, hf⟩ := List.mem_flatMap.mp hf
        obtain ⟨name, hn, rfl⟩ := List.mem_map.mp hf
        exact ⟨soFar, hs, name :: rest, by simp, .cons hn h⟩
      · rintro ⟨front, hf, rest, rfl, h⟩
        cases h with
        | cons hn h =>
          rename_i name rest
          exact ⟨front ++ [name], List.mem_flatMap.mpr ⟨front, hf, List.mem_map.mpr
            ⟨name, hn, rfl⟩⟩, rest, by simp, h⟩
  unfold spread
  rw [hfold]
  simp

theorem exists_of_forall₂ {α β : Type} {R : α → β → Prop} {as : List α} {bs : List β} {a : α}
    (h : List.Forall₂ R as bs) (ha : a ∈ as) : ∃ b ∈ bs, R a b := by
  induction h with
  | nil => cases ha
  | cons hab _ ih =>
    rcases List.mem_cons.mp ha with rfl | ha
    · exact ⟨_, List.mem_cons_self, hab⟩
    · obtain ⟨b, hb, hr⟩ := ih ha
      exact ⟨b, .tail _ hb, hr⟩

theorem mem_ends {table : Int} {attnums : List Int} :
    (i, columns) ∈ ends (back origins views schema) table attnums ↔
      Holds origins views schema i table attnums columns := by
  have heach : List.Forall₂ (fun names name => name ∈ names)
      (attnums.map fun attnum => heldAs (back origins views schema) i (table, attnum)) columns
      ↔ List.Forall₂ (fun attnum name => Reaches origins views schema i name (table, attnum))
        attnums columns := by
    rw [List.forall₂_map_left_iff]
    constructor
    · exact fun h => h.imp fun _ _ hn => mem_heldAs.mp hn
    · exact fun h => h.imp fun _ _ hn => mem_heldAs.mpr hn
  unfold ends
  dsimp only
  rw [List.mem_flatMap]
  constructor
  · rintro ⟨view, hview, h⟩
    split at h
    · cases h
    · obtain ⟨columns', hspread, heq⟩ := List.mem_map.mp h
      obtain ⟨rfl, rfl⟩ : view = i ∧ columns' = columns := by simpa using heq
      refine ⟨fun hnil => ?_, heach.mp (mem_spread.mp hspread)⟩
      rw [hnil] at hview
      cases hview
  · rintro ⟨hne, h⟩
    refine ⟨i, ?_, ?_⟩
    · cases h with
      | nil => exact absurd rfl hne
      | cons hn _ =>
        refine Worklist.mem_pushes.mpr (.inr (List.mem_flatMap.mpr
          ⟨_, List.mem_cons_self, List.mem_map.mpr ⟨_, mem_landedOn.mpr hn, rfl⟩⟩))
    · have hall := heach.mpr h
      rw [if_neg]
      · exact List.mem_map.mpr ⟨columns, mem_spread.mpr hall, rfl⟩
      · -- a column without a name has no way round
        intro hany
        obtain ⟨names, hnames, hempty⟩ := List.any_eq_true.mp hany
        obtain rfl := List.isEmpty_iff.mp hempty
        obtain ⟨n, -, hn⟩ := exists_of_forall₂ hall hnames
        cases hn

/-! ## Foreign keys -/

theorem derived_iff {key : KeyRow} {row : FkRow} : Derived origins views schema key row ↔
    (∃ i columns, Holds origins views schema i key.oid key.attnums columns
      ∧ key.refSchema = schema
      ∧ row = key.between (nameOf views i) columns key.refTable key.refColumns)
    ∨ (∃ i columns j refColumns, Holds origins views schema i key.oid key.attnums columns
      ∧ Holds origins views schema j key.refOid key.refAttnums refColumns
      ∧ row = key.between (nameOf views i) columns (nameOf views j) refColumns)
    ∨ ∃ j refColumns, key.schema = schema
      ∧ Holds origins views schema j key.refOid key.refAttnums refColumns
      ∧ row = key.between key.table key.columns (nameOf views j) refColumns := by
  constructor
  · intro h
    cases h with
    | ontoTable hold hschema => exact .inl ⟨_, _, hold, hschema, rfl⟩
    | ontoView hold hold' => exact .inr (.inl ⟨_, _, _, _, hold, hold', rfl⟩)
    | ofTable hschema hold => exact .inr (.inr ⟨_, _, hschema, hold, rfl⟩)
  · rintro (⟨i, columns, hold, hschema, rfl⟩ | ⟨i, columns, j, refColumns, hold, hold', rfl⟩ |
      ⟨j, refColumns, hschema, hold, rfl⟩)
    · exact .ontoTable hold hschema
    · exact .ontoView hold hold'
    · exact .ofTable hschema hold

theorem mem_derive {keys : List KeyRow} {row : FkRow} : row ∈ derive origins schema views keys ↔
      ∃ key ∈ keys, Derived origins views schema key row := by
  have hkey : ∀ key : KeyRow,
      (row ∈ (deriveKey schema views (back origins views schema) key).1
        ↔ ∃ i columns, Holds origins views schema i key.oid key.attnums columns
          ∧ key.refSchema = schema
          ∧ row = key.between (nameOf views i) columns key.refTable key.refColumns)
      ∧ (row ∈ (deriveKey schema views (back origins views schema) key).2
        ↔ (∃ i columns j refColumns, Holds origins views schema i key.oid key.attnums columns
          ∧ Holds origins views schema j key.refOid key.refAttnums refColumns
          ∧ row = key.between (nameOf views i) columns (nameOf views j) refColumns)
        ∨ ∃ j refColumns, key.schema = schema
          ∧ Holds origins views schema j key.refOid key.refAttnums refColumns
          ∧ row = key.between key.table key.columns (nameOf views j) refColumns) := by
    intro key
    constructor
    · simp only [deriveKey, List.mem_flatMap, Prod.exists, mem_ends]
      constructor
      · rintro ⟨i, columns, hold, h⟩
        split at h
        · rename_i hschema
          exact ⟨i, columns, hold, hschema, List.mem_singleton.mp h⟩
        · cases h
      · rintro ⟨i, columns, hold, hschema, rfl⟩
        refine ⟨i, columns, hold, ?_⟩
        rw [if_pos hschema]
        exact List.mem_singleton.mpr rfl
    · simp only [deriveKey, List.mem_append, List.mem_flatMap, List.mem_map, Prod.exists, mem_ends]
      refine or_congr ?_ ?_
      · constructor
        · rintro ⟨i, columns, hold, j, refColumns, hold', rfl⟩
          exact ⟨i, columns, j, refColumns, hold, hold', rfl⟩
        · rintro ⟨i, columns, j, refColumns, hold, hold', rfl⟩
          exact ⟨i, columns, hold, j, refColumns, hold', rfl⟩
      · split
        · rename_i hschema
          constructor
          · exact nofun
          · rintro ⟨_, _, hs, -⟩
            exact absurd hs hschema
        · rename_i hschema
          simp only [List.mem_map, Prod.exists, mem_ends]
          constructor
          · rintro ⟨j, refColumns, hold, rfl⟩
            exact ⟨j, refColumns, Decidable.not_not.mp hschema, hold, rfl⟩
          · rintro ⟨j, refColumns, -, hold, rfl⟩
            exact ⟨j, refColumns, hold, rfl⟩
  unfold derive
  rw [List.mem_append, List.mem_flatMap, List.mem_flatMap, ← exists_or]
  refine exists_congr fun key => ?_
  rw [← and_or_left, (hkey key).1, (hkey key).2, derived_iff]

/-! ## Primary keys -/

theorem head?_spread {each : List (List String)} (h : (spread each).head? = some columns) :
    List.Forall₂ (fun names name => names.head? = some name) each columns := by
  have hfold : ∀ (each : List (List String)) (init : List (List String)) (columns : List String),
      (each.foldl (fun out names =>
          out.flatMap fun soFar => names.map fun name => soFar ++ [name]) init).head?
            = some columns →
        ∃ front, init.head? = some front ∧ ∃ rest, columns = front ++ rest
          ∧ List.Forall₂ (fun names name => names.head? = some name) each rest := by
    intro each
    induction each with
    | nil => exact fun init columns h => ⟨columns, h, [], (List.append_nil _).symm, .nil⟩
    | cons names each ih =>
      intro init columns h
      rw [List.foldl_cons] at h
      obtain ⟨front, hf, rest, rfl, hrest⟩ := ih _ _ h
      cases init with
      | nil => cases hf
      | cons soFar init =>
        cases names with
        | nil =>
          rw [List.flatMap_eq_nil_iff.mpr fun _ _ => List.map_nil] at hf
          cases hf
        | cons name names =>
          obtain rfl : soFar ++ [name] = front := by simpa using hf
          exact ⟨soFar, rfl, name :: rest, by simp, .cons rfl hrest⟩
  obtain ⟨front, hf, rest, rfl, hrest⟩ := hfold each [[]] columns h
  obtain rfl : [] = front := Option.some.inj hf
  exact hrest

/-- A view's first way round of a key. -/
def firstEnd (back : List (TableColumn × ViewColumn)) (i : Nat) (pk : PkRow) :
    Option (List String) :=
  ((ends back pk.oid pk.attnums).find? (·.1 = i)).map Prod.snd

theorem firstEnd_spec {back : List (TableColumn × ViewColumn)} {pk : PkRow} (h : firstEnd back i pk = some columns) :
    (i, columns) ∈ ends back pk.oid pk.attnums
      ∧ List.Forall₂ (fun attnum name => (heldAs back i (pk.oid, attnum)).head? = some name)
        pk.attnums columns := by
  obtain ⟨⟨j, columns'⟩, hfind, rfl⟩ := Option.map_eq_some_iff.mp h
  obtain rfl : j = i := by simpa using List.find?_some hfind
  refine ⟨List.mem_of_find?_eq_some hfind, ?_⟩
  unfold ends at hfind
  dsimp only at hfind
  rw [List.find?_flatMap] at hfind
  obtain ⟨view, -, hview⟩ := List.exists_of_findSome?_eq_some hfind
  split at hview
  · cases hview
  · obtain ⟨columns'', -, heq⟩ := List.mem_map.mp (List.mem_of_find?_eq_some hview)
    obtain ⟨rfl, rfl⟩ : view = j ∧ columns'' = columns' := by simpa using heq
    rw [List.find?_map] at hview
    obtain ⟨c, hc, heq⟩ := Option.map_eq_some_iff.mp hview
    obtain rfl : c = columns'' := (Prod.mk.inj heq).2
    have hhead : (spread (pk.attnums.map fun attnum =>
        heldAs back view (pk.oid, attnum))).head? = some c := by
      rw [← hc]
      cases spread (pk.attnums.map fun attnum => heldAs back view (pk.oid, attnum)) <;> simp
    exact List.forall₂_map_left_iff.mp (head?_spread hhead)

theorem exists_of_forall₂_right {α β : Type} {R : α → β → Prop} {as : List α} {bs : List β} {b : β}
    (h : List.Forall₂ R as bs) (hb : b ∈ bs) : ∃ a ∈ as, R a b :=
  exists_of_forall₂ h.flip hb

theorem forall₂_exists {α β : Type} {R : α → β → Prop} {as : List α}
    (h : ∀ a ∈ as, ∃ b, R a b) : ∃ bs, List.Forall₂ R as bs := by
  induction as with
  | nil => exact ⟨[], .nil⟩
  | cons a as ih =>
    obtain ⟨b, hb⟩ := h a List.mem_cons_self
    obtain ⟨bs, hbs⟩ := ih fun a' ha' => h a' (.tail _ ha')
    exact ⟨b :: bs, .cons hb hbs⟩

/-- A view has a way round of the keys it holds every column of. -/
theorem firstEnd_isSome {pk : PkRow} :
    (∃ columns, firstEnd (back origins views schema) i pk = some columns)
      ↔ Owns origins views schema i pk := by
  constructor
  · rintro ⟨columns, h⟩
    obtain ⟨hne, hold⟩ := mem_ends.mp (firstEnd_spec h).1
    refine ⟨hne, fun attnum ha => ?_⟩
    obtain ⟨name, -, hname⟩ := exists_of_forall₂ hold ha
    exact ⟨name, hname⟩
  · rintro ⟨hne, hall⟩
    obtain ⟨columns, hcolumns⟩ := forall₂_exists hall
    have hmem : (i, columns) ∈ ends (back origins views schema) pk.oid pk.attnums :=
      mem_ends.mpr ⟨hne, hcolumns⟩
    unfold firstEnd
    cases hfind : (ends (back origins views schema) pk.oid pk.attnums).find? (·.1 = i) with
    | some e => exact ⟨e.2, rfl⟩
    | none => exact absurd (List.find?_eq_none.mp hfind _ hmem) (by simp)

theorem takeEnds_get? (es : List (Nat × List String)) (s : List Nat × OrdMap Nat (List String)) :
    (es.foldl takeEnd s).2.get? i =
      if i ∈ s.1 then s.2.get? i
      else ((es.find? (·.1 = i)).map fun e =>
        e.2.foldl Worklist.push ((s.2.get? i).getD [])).or (s.2.get? i) := by
  induction es generalizing s with
  | nil => simp
  | cons e es ih =>
    rw [List.foldl_cons, ih]
    unfold takeEnd
    by_cases htaken : e.1 ∈ s.1
    · rw [if_pos htaken]
      by_cases hi : e.1 = i
      · rw [if_pos (hi ▸ htaken), if_pos (hi ▸ htaken)]
      · rw [List.find?_cons_of_neg (by simpa using hi)]
    · rw [if_neg htaken]
      by_cases hi : e.1 = i
      · subst hi
        rw [if_pos (List.mem_append_right _ (List.mem_singleton.mpr rfl)), if_neg htaken,
          List.find?_cons_of_pos (by simp), OrdMap.get?_insert, if_pos rfl]
        rfl
      · rw [List.find?_cons_of_neg (by simpa using hi), OrdMap.get?_insert,
          if_neg (Ne.symm hi)]
        simp [Ne.symm hi]

/-- The first ways round of a view, key by key. -/
def firstEnds (back : List (TableColumn × ViewColumn)) (i : Nat) (pks : List PkRow) :
    List (List String) :=
  pks.filterMap (firstEnd back i)

theorem takeKeys_get? {back : List (TableColumn × ViewColumn)} (pks : List PkRow)
    (found : OrdMap Nat (List String)) : (pks.foldl (takeKey back) found).get? i =
      if firstEnds back i pks = [] then found.get? i
      else some ((firstEnds back i pks).flatten.foldl Worklist.push ((found.get? i).getD [])) := by
  induction pks generalizing found with
  | nil => rfl
  | cons pk pks ih =>
    have htake : (takeKey back found pk).get? i =
        ((firstEnd back i pk).map fun columns =>
          columns.foldl Worklist.push ((found.get? i).getD [])).or (found.get? i) := by
      unfold takeKey firstEnd
      rw [takeEnds_get?, if_neg (by simp), Option.map_map]
      rfl
    rw [List.foldl_cons, ih, htake]
    unfold firstEnds
    cases hfirst : firstEnd back i pk with
    | none =>
      rw [List.filterMap_cons_none hfirst]
      rfl
    | some columns =>
      rw [List.filterMap_cons_some hfirst, if_neg (List.cons_ne_nil _ _), List.flatten_cons,
        List.foldl_append]
      dsimp only [Option.map_some, Option.some_or, Option.getD_some]
      split
      · rename_i hnil
        rw [hnil]
        rfl
      · rfl

/-! ## In the view's order -/

theorem position_inj {a : Nat} {name' : String} (h : position views i name = some a)
    (h' : position views i name' = some a) : name = name' := by
  unfold position at h h'
  cases hview : views[i]? with
  | none =>
    rw [hview] at h
    cases h
  | some view =>
    rw [hview] at h h'
    obtain ⟨ha, hname, -⟩ := List.findIdx?_eq_some_iff_getElem.mp h
    obtain ⟨_, hname', -⟩ := List.findIdx?_eq_some_iff_getElem.mp h'
    rw [← of_decide_eq_true hname, of_decide_eq_true hname']

theorem Reaches.position
    (h : Reaches origins views schema i name key) : ∃ a, position views i name = some a := by
  obtain ⟨view, attnum, hview, -, hname, -⟩ := h
  obtain ⟨j, -, hj⟩ := Option.bind_eq_some_iff.mp hname
  have hmem : name ∈ view.columns := List.mem_of_getElem? hj
  unfold Rest.position
  rw [hview]
  cases hfind : view.columns.findIdx? (· = name) with
  | some a => exact ⟨a, hfind⟩
  | none => simpa using List.findIdx?_eq_none_iff.mp hfind name hmem

theorem mem_inColumnOrder :
    name ∈ inColumnOrder views i columns ↔ name ∈ columns :=
  List.mem_mergeSort

theorem pairwise_inColumnOrder (hnodup : columns.Nodup)
    (hall : ∀ name ∈ columns, ∃ a, position views i name = some a) :
    (inColumnOrder views i columns).Pairwise fun name name' =>
      ∃ a b, position views i name = some a ∧ position views i name' = some b ∧ a < b := by
  have hnodup' : (inColumnOrder views i columns).Nodup :=
    (List.mergeSort_perm columns _).nodup_iff.mpr hnodup
  refine (List.Pairwise.and hnodup' (List.pairwise_mergeSort ?trans ?total columns)).imp_of_mem ?_
  case trans =>
    intro a b c hab hbc
    cases ha : position views i a <;> cases hb : position views i b <;>
      cases hc : position views i c <;> simp_all
    omega
  case total =>
    intro a b
    cases ha : position views i a <;> cases hb : position views i b <;> simp_all
    omega
  rintro name name' hname hname' ⟨hne, hle⟩
  obtain ⟨a, ha⟩ := hall name (mem_inColumnOrder.mp hname)
  obtain ⟨b, hb⟩ := hall name' (mem_inColumnOrder.mp hname')
  rw [ha, hb] at hle
  have hne' : a ≠ b := by
    rintro rfl
    exact hne (position_inj ha hb)
  exact ⟨a, b, ha, hb, Nat.lt_of_le_of_ne (of_decide_eq_true hle) hne'⟩

variable {pks : List PkRow}

/-- The map of views and columns the primary keys are read out of. -/
theorem found_spec
    (h : (i, columns) ∈ (pks.foldl (takeKey (back origins views schema)) .empty).entries) :
    columns.Nodup ∧ ∀ name, name ∈ columns ↔ ∃ pk ∈ pks, Owns origins views schema i pk
      ∧ ∃ attnum ∈ pk.attnums,
        (heldAs (back origins views schema) i (pk.oid, attnum)).head? = some name := by
  have hget := OrdMap.get?_eq_some.mpr h
  rw [takeKeys_get?] at hget
  split at hget
  · cases hget
  · cases hget
    refine ⟨Worklist.nodup_pushes List.nodup_nil, fun name => ?_⟩
    rw [Worklist.mem_pushes]
    constructor
    · rintro (hnil | hmem)
      · cases hnil
      · obtain ⟨columns, hcolumns, hname⟩ := List.mem_flatten.mp hmem
        obtain ⟨pk, hpk, hfirst⟩ := List.mem_filterMap.mp hcolumns
        obtain ⟨attnum, ha, hhead⟩ := exists_of_forall₂_right (firstEnd_spec hfirst).2 hname
        exact ⟨pk, hpk, firstEnd_isSome.mp ⟨columns, hfirst⟩, attnum, ha, hhead⟩
    · rintro ⟨pk, hpk, howns, attnum, ha, hhead⟩
      obtain ⟨columns, hfirst⟩ := firstEnd_isSome.mpr howns
      obtain ⟨name', hname', hhead'⟩ := exists_of_forall₂ (firstEnd_spec hfirst).2 ha
      obtain rfl : name = name' := Option.some.inj (hhead.symm.trans hhead')
      exact .inr (List.mem_flatten.mpr
        ⟨columns, List.mem_filterMap.mpr ⟨pk, hpk, hfirst⟩, hname'⟩)

theorem exists_found :
    (∃ columns, (i, columns) ∈ (pks.foldl (takeKey (back origins views schema)) .empty).entries)
      ↔ ∃ pk ∈ pks, Owns origins views schema i pk := by
  have hfirst : (∃ pk ∈ pks, Owns origins views schema i pk)
      ↔ firstEnds (back origins views schema) i pks ≠ [] := by
    constructor
    · rintro ⟨pk, hpk, howns⟩
      obtain ⟨columns, hfirst⟩ := firstEnd_isSome.mpr howns
      exact List.ne_nil_of_mem (List.mem_filterMap.mpr ⟨pk, hpk, hfirst⟩)
    · intro hne
      obtain ⟨columns, hmem⟩ := List.exists_mem_of_ne_nil _ hne
      obtain ⟨pk, hpk, hfirst⟩ := List.mem_filterMap.mp hmem
      exact ⟨pk, hpk, firstEnd_isSome.mp ⟨columns, hfirst⟩⟩
  rw [hfirst]
  constructor
  · rintro ⟨columns, hmem⟩ hnil
    have hget := OrdMap.get?_eq_some.mpr hmem
    rw [takeKeys_get?, if_pos hnil] at hget
    cases hget
  · intro hne
    exact ⟨_, OrdMap.get?_eq_some.mp ((takeKeys_get? pks _).trans (if_neg hne))⟩

theorem inherits_inColumnOrder
    (h : (i, columns) ∈ (pks.foldl (takeKey (back origins views schema)) .empty).entries) :
    Inherits origins views schema pks i (inColumnOrder views i columns) := by
  obtain ⟨hnodup, hnamed⟩ := found_spec h
  have hreach : ∀ {attnum : Int} {pk : PkRow} {name : String},
      (heldAs (back origins views schema) i (pk.oid, attnum)).head? = some name →
        Reaches origins views schema i name (pk.oid, attnum) :=
    fun hhead => mem_heldAs.mp (List.mem_of_head? hhead)
  refine ⟨pairwise_inColumnOrder hnodup fun name hname => ?_, fun name => ?_, fun pk hpk => ?_⟩
  · obtain ⟨pk, -, -, attnum, -, hhead⟩ := (hnamed name).mp hname
    exact (hreach hhead).position
  · rw [mem_inColumnOrder, hnamed]
  · constructor
    · rintro ⟨hne, hall⟩
      refine ⟨hne, fun attnum ha => ?_⟩
      obtain ⟨name, hname⟩ := hall attnum ha
      -- the first of the names is among the columns
      cases hheld : heldAs (back origins views schema) i (pk.oid, attnum) with
      | nil =>
        have hmem := mem_heldAs.mpr hname
        rw [hheld] at hmem
        cases hmem
      | cons first rest =>
        have hhead : (heldAs (back origins views schema) i (pk.oid, attnum)).head? =
            some first := by
          rw [hheld]
          rfl
        exact ⟨first, mem_inColumnOrder.mpr
          ((hnamed first).mpr ⟨pk, hpk, ⟨hne, hall⟩, attnum, ha, hhead⟩), hreach hhead⟩
    · rintro ⟨hne, hall⟩
      refine ⟨hne, fun attnum ha => ?_⟩
      obtain ⟨name, -, hname⟩ := hall attnum ha
      exact ⟨name, hname⟩

/-! ## Main result -/

/-- Tracing ends with what steps lead to. A key of at least one column is
given to views where the whole of it is reached and each end can be named:
a foreign key under every combination of names, a primary key under the
first names. -/
theorem view_keys (origins : List Char → List Origin) (schema : String) (views : List ViewRow) :
    (∀ origin, Loop.Returns (Worklist.turn (stepsFrom origins views)) (traceStart origin)
        (traced origins views origin)
      ∧ ∀ key, key ∈ traced origins views origin ↔
        Relation.ReflTransGen (Step origins views) (origin.table, origin.tableColumn) key)
    ∧ (∀ keys row, row ∈ derive origins schema views keys ↔
        ∃ key ∈ keys, Derived origins views schema key row)
    ∧ ∀ pks, ∃ found : List (Nat × List String),
        primaryKeys origins schema views pks = found.map (fun e => (nameOf views e.1, e.2))
        ∧ (found.Pairwise fun e e' => e.1 < e'.1)
        ∧ (∀ i, (∃ columns, (i, columns) ∈ found) ↔ ∃ pk ∈ pks, Owns origins views schema i pk)
        ∧ ∀ e ∈ found, Inherits origins views schema pks e.1 e.2 := by
  refine ⟨traced_spec, fun keys row => mem_derive, fun pks => ?_⟩
  have hsorted := (pks.foldl (takeKey (back origins views schema)) .empty).sorted
  refine ⟨(pks.foldl (takeKey (back origins views schema)) .empty).entries.map fun e =>
    (e.1, inColumnOrder views e.1 e.2), ?_, List.pairwise_map.mpr hsorted, fun i => ?_, ?_⟩
  · rw [List.map_map]
    rfl
  · rw [← exists_found]
    constructor
    · rintro ⟨columns, hmem⟩
      obtain ⟨e, he, heq⟩ := List.mem_map.mp hmem
      obtain ⟨rfl, -⟩ := Prod.mk.inj heq
      exact ⟨e.2, he⟩
    · rintro ⟨columns, hmem⟩
      exact ⟨_, List.mem_map.mpr ⟨_, hmem, rfl⟩⟩
  · intro e he
    obtain ⟨e', he', rfl⟩ := List.mem_map.mp he
    exact inherits_inColumnOrder he'

/-- A view of `t`'s first column. -/
def overTable : ViewRow := ⟨1, "api", "v", [1], ["id"], []⟩

/-- A key between two tables of another schema, of these columns. -/
def hiddenKey (attnums : List Int) : KeyRow :=
  ⟨"k", "private", "t", 2, attnums, [], "private", "u", 3, attnums, [], false, false⟩

/-- The view reaches the whole of the key and there is no row: the other
end is a table of another schema, and a key of no columns is on no view. -/
theorem reached_without_row :
    (List.Forall₂ (fun attnum name =>
          Reaches (fun _ => [⟨1, 2, 1⟩]) [overTable] "api" 0 name (2, attnum)) [1] ["id"]
        ∧ derive (fun _ => [⟨1, 2, 1⟩]) "api" [overTable] [hiddenKey [1]] = [])
      ∧ List.Forall₂ (fun attnum name =>
          Reaches (fun _ => [⟨1, 2, 1⟩]) [overTable] "api" 0 name (2, attnum)) [] []
        ∧ derive (fun _ => [⟨1, 2, 1⟩]) "api" [overTable] [hiddenKey []] = []
        ∧ primaryKeys (fun _ => [⟨1, 2, 1⟩]) "api" [overTable] [⟨2, []⟩] = [] := by
  refine ⟨⟨.cons ⟨overTable, 1, rfl, rfl, rfl, .single ?_⟩ .nil, by decide⟩, .nil, by decide,
    by decide⟩
  exact List.mem_singleton.mpr rfl

end Zou.Rest
