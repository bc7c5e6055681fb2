import Zou.Rest.ViewTreePrint

/-!
# What is read of a target list

A field's name may stand behind a colon in a word before it, and then the
reader takes that for the field, with nothing in it. An origin is lost with
one of its three numbers, a junk entry kept with its mark lost, and all of
the entries are lost with the list itself.
-/

namespace Zou.Rest

namespace ViewTree

open Fuel

/-- Whether a word before the first field of that name leaves one behind. -/
def shadowedIn (name : Text) : List (Text × Node) → Bool
  | [] => false
  | (n, value) :: fields =>
    decide (n ≠ name) && ((shadows value).any (·.1 = name) || shadowedIn name fields)

def Node.shadowed (name : Text) : Node → Bool
  | .named _ fields => shadowedIn name fields
  | _ => false

/-- The origin an entry of a target list has: none where it is junk or
comes from no column. -/
def wanted (entry : Node) : Option Origin :=
  match entry.number "resno".toList, entry.number "resorigtbl".toList,
    entry.number "resorigcol".toList with
  | some column, some table, some tableColumn =>
    if entry.number "resjunk".toList = some 1 ∨ table = 0 then none
    else some ⟨column, table, tableColumn⟩
  | _, _, _ => none

/-- An entry as postgres fills it in: its attribute numbers are small. -/
structure IsEntry (entry : Node) : Prop where
  tag : entry.tag = some "TARGETENTRY".toList
  column : ∃ i, entry.number "resno".toList = some i ∧ -2 ^ 31 ≤ i ∧ i < 2 ^ 31
  table : ∃ i, entry.number "resorigtbl".toList = some i
  tableColumn : ∃ i, entry.number "resorigcol".toList = some i ∧ -2 ^ 31 ≤ i ∧ i < 2 ^ 31
  junk : entry.number "resjunk".toList = some 0 ∨ entry.number "resjunk".toList = some 1

/-- The target list is one: entries of different numbers. -/
def Numbered (root : Node) : Prop :=
  (∀ entry ∈ targetList root, IsEntry entry)
    ∧ (targetList root).Pairwise fun a b => a.number "resno".toList ≠ b.number "resno".toList

/-- Whether one of the numbers an origin is made of is shadowed. -/
def hidden (entry : Node) : Bool :=
  entry.shadowed "resno".toList || entry.shadowed "resorigtbl".toList
    || entry.shadowed "resorigcol".toList

/-- An entry that comes from a column is read as it is: no number of it is
shadowed, or it is junk and is not taken for anything else. -/
def EntryClear (entry : Node) : Prop :=
  entry.number "resorigtbl".toList = some 0
    ∨ if entry.number "resjunk".toList = some 1
      then entry.shadowed "resjunk".toList = true → hidden entry = true
      else hidden entry = false

/-- The list is not shadowed and its entries are clear, or nothing in it is
wanted. -/
def Clear (root : Node) : Prop :=
  ∀ query, root.find "QUERY".toList = some query →
    if query.shadowed "targetList".toList
    then ∀ entry ∈ targetList root, wanted entry = none
    else ∀ entry ∈ targetList root, EntryClear entry

/-! ## Fields -/

theorem find?_shadows {value : Node} {name : Text} : (shadows value).find? (·.1 = name) =
      if (shadows value).any (·.1 = name) then some (name, .word []) else none := by
  split
  · rename_i hany
    obtain ⟨e, he, hname⟩ := List.any_eq_true.mp hany
    cases hfind : (shadows value).find? (·.1 = name) with
    | none => exact absurd hname (List.find?_eq_none.mp hfind e he)
    | some e' =>
      have hmem := List.mem_of_find?_eq_some hfind
      have hname' : e'.1 = name := by simpa using List.find?_some hfind
      cases value with
      | word text =>
        obtain ⟨piece, -, rfl⟩ := List.mem_map.mp hmem
        obtain rfl : piece = name := hname'
        rfl
      | list items => cases hmem
      | named tag fields => cases hmem
  · rename_i hany
    exact List.find?_eq_none.mpr fun e he hname =>
      hany (List.any_eq_true.mpr ⟨e, he, hname⟩)

theorem find?_misreadFields (fields : List (Text × Node)) (name : Text) :
    ((misreadFields fields).find? (·.1 = name)).map Prod.snd =
      if shadowedIn name fields then some (.word [])
      else ((fields.find? (·.1 = name)).map Prod.snd).map misread := by
  induction fields with
  | nil => rfl
  | cons f fields ih =>
    obtain ⟨n, value⟩ := f
    rw [misreadFields, shadowedIn]
    by_cases hn : n = name
    · rw [List.find?_cons_of_pos (by simpa using hn), List.find?_cons_of_pos (by simpa using hn)]
      simp [hn]
    · rw [List.find?_cons_of_neg (by simpa using hn), List.find?_cons_of_neg (by simpa using hn),
        List.find?_append, find?_shadows]
      by_cases hany : (shadows value).any (·.1 = name) = true
      · rw [if_pos hany, hany]
        simp [hn]
      · rw [if_neg hany, Option.none_or, ih, Bool.eq_false_iff.mpr hany]
        simp [hn]

/-- A field of what is read: the field's, or nothing where it is shadowed. -/
theorem field_misread (node : Node) (name : Text) : (misread node).field name =
      if node.shadowed name then some (.word []) else (node.field name).map misread := by
  cases node with
  | word text => rfl
  | list items => rfl
  | named tag fields => exact find?_misreadFields fields name

theorem tag_misread (node : Node) : (misread node).tag = node.tag := by
  cases node <;> rfl

theorem misreadItems_eq (items : List Node) : misreadItems items = items.map misread := by
  induction items with
  | nil => rfl
  | cons item items ih => rw [misreadItems, ih, List.map_cons]

theorem items_misread (node : Node) : (misread node).items = node.items.map misread := by
  cases node with
  | word text => rfl
  | list items => exact misreadItems_eq items
  | named tag fields => rfl

mutual

theorem find_misread (tag : Text) (node : Node) :
    (misread node).find tag = (node.find tag).map misread := by
  match node with
  | .word text => rfl
  | .list items => exact findIn_misread tag items
  | .named t fields =>
    rw [misread, Node.find, Node.find]
    split <;> rfl

theorem findIn_misread (tag : Text) (items : List Node) :
    Node.findIn tag (misreadItems items) = (Node.findIn tag items).map misread := by
  match items with
  | [] => rfl
  | item :: items =>
    rw [misreadItems, Node.findIn, Node.findIn, find_misread tag item, findIn_misread tag items]
    cases item.find tag <;> rfl

end

/-! ## Numbers -/

theorem parseI64_colon {text : Text} {i : Int} (h : Node.parseI64 text = some i) : ':' ∉ text := by
  obtain ⟨hdigits, -⟩ := Option.ite_none_left_eq_some.mp h
  rw [not_or, not_not] at hdigits
  have hall := List.all_eq_true.mp hdigits.2
  intro hmem
  split at hall
  · rename_i hsign
    cases text with
    | nil => cases hmem
    | cons c text =>
      rcases List.mem_cons.mp hmem with rfl | hmem
      · simp at hsign
      · exact absurd (hall _ hmem) (by decide)
  · exact absurd (hall _ hmem) (by decide)

/-- A number is read as it is, or as nothing where it is shadowed. -/
theorem number_misread {node : Node} {name : Text} {i : Int} (h : node.number name = some i) :
    (misread node).number name = if node.shadowed name then none else some i := by
  unfold Node.number at h ⊢
  obtain ⟨value, hfield, hvalue⟩ := Option.bind_eq_some_iff.mp h
  rw [field_misread, hfield]
  by_cases hshadow : node.shadowed name = true
  · rw [if_pos hshadow, if_pos hshadow]
    rfl
  · rw [if_neg hshadow, if_neg hshadow, Option.map_some, Option.bind_some]
    cases value with
    | list items => cases hvalue
    | named tag fields => cases hvalue
    | word text =>
      have hcolon : ':' ∉ text := by
        dsimp only at hvalue
        split at hvalue
        · rename_i htrue
          rw [htrue]
          decide
        · split at hvalue
          · rename_i hfalse
            rw [hfalse]
            decide
          · exact parseI64_colon hvalue
      have htake : text.takeWhile (· ≠ ':') = text := by
        rw [List.takeWhile_eq_self_iff]
        intro c hc
        have hne : c ≠ ':' := by
          rintro rfl
          exact hcolon hc
        simpa using hne
      rw [misread, htake]
      exact hvalue

/-! ## Entries -/

theorem asI32_eq {i : Int} (h : -2 ^ 31 ≤ i ∧ i < 2 ^ 31) : asI32 i = i :=
  Int.bmod_eq_of_le (by omega) (by omega)

/-- An entry's print is read as the entry exactly where it is clear. -/
theorem origin_misread {entry : Node} (h : IsEntry entry) :
    origin (misread entry) = wanted entry ↔ EntryClear entry := by
  obtain ⟨column, hcolumn, hcolumn32⟩ := h.column
  obtain ⟨table, htable⟩ := h.table
  obtain ⟨tableColumn, htableColumn, htableColumn32⟩ := h.tableColumn
  obtain ⟨junk, hjunk, hjunk01⟩ : ∃ junk, entry.number "resjunk".toList = some junk
      ∧ (junk = 0 ∨ junk = 1) := by
    rcases h.junk with hjunk | hjunk
    · exact ⟨0, hjunk, .inl rfl⟩
    · exact ⟨1, hjunk, .inr rfl⟩
  unfold origin wanted EntryClear hidden
  rw [tag_misread, h.tag, number_misread hcolumn, number_misread htable,
    number_misread htableColumn, number_misread hjunk, hcolumn, htable, htableColumn, hjunk]
  rcases hjunk01 with rfl | rfl <;>
  cases entry.shadowed "resjunk".toList <;> cases entry.shadowed "resno".toList <;>
    cases entry.shadowed "resorigtbl".toList <;> cases entry.shadowed "resorigcol".toList <;>
    by_cases hzero : table = 0 <;>
    simp [hzero, asI32_eq hcolumn32, asI32_eq htableColumn32]

theorem column_of_origin {entry : Node} {o : Origin} (h : IsEntry entry)
    (ho : wanted entry = some o ∨ origin (misread entry) = some o) :
    entry.number "resno".toList = some o.column := by
  obtain ⟨column, hcolumn, hcolumn32⟩ := h.column
  obtain ⟨table, htable⟩ := h.table
  obtain ⟨tableColumn, htableColumn, -⟩ := h.tableColumn
  rw [hcolumn]
  rcases ho with ho | ho
  · unfold wanted at ho
    rw [hcolumn, htable, htableColumn] at ho
    obtain ⟨-, ho⟩ := Option.ite_none_left_eq_some.mp ho
    cases ho
    rfl
  · unfold origin at ho
    obtain ⟨-, ho⟩ := Option.ite_none_left_eq_some.mp ho
    rw [number_misread hcolumn, number_misread htable, number_misread htableColumn] at ho
    split at ho
    · rename_i column' table' tableColumn' hcolumn' _ _
      obtain ⟨-, hcolumn'⟩ := Option.ite_none_left_eq_some.mp hcolumn'
      cases hcolumn'
      obtain ⟨-, ho⟩ := Option.ite_none_left_eq_some.mp ho
      cases ho
      exact congrArg some (asI32_eq hcolumn32).symm
    · cases ho

/-- Where the values of two functions tell which element they are of, the
lists of them agree where the functions do. -/
theorem filterMap_eq_iff {α β κ : Type} {f g : α → Option β} {key : α → κ} {k : β → κ} {xs : List α}
    (hdistinct : xs.Pairwise fun a b => key a ≠ key b)
    (hkey : ∀ x ∈ xs, ∀ b, f x = some b ∨ g x = some b → key x = k b) :
    xs.filterMap f = xs.filterMap g ↔ ∀ x ∈ xs, f x = g x := by
  induction xs with
  | nil => simp
  | cons x xs ih =>
    obtain ⟨hx, hxs⟩ := List.pairwise_cons.mp hdistinct
    have hrest := ih hxs fun y hy => hkey y (.tail _ hy)
    have hhead := hkey x List.mem_cons_self
    rw [List.forall_mem_cons, ← hrest]
    -- a value only one of them has at the head is of no other element
    have hno : ∀ {b} {h : α → Option β}, key x = k b →
        (∀ y ∈ xs, h y = some b → key y = k b) → b ∉ xs.filterMap h := by
      intro b h hb hall hmem
      obtain ⟨y, hy, heq⟩ := List.mem_filterMap.mp hmem
      exact hx y hy (hb.trans (hall y hy heq).symm)
    have hall : ∀ y ∈ xs, ∀ b, f y = some b ∨ g y = some b → key y = k b :=
      fun y hy => hkey y (.tail _ hy)
    cases hf : f x with
    | none =>
      cases hg : g x with
      | none =>
        rw [List.filterMap_cons_none hf, List.filterMap_cons_none hg]
        simp
      | some b =>
        rw [List.filterMap_cons_none hf, List.filterMap_cons_some hg]
        refine ⟨fun heq => ?_, fun h => by cases h.1⟩
        refine absurd ?_ (hno (hhead b (.inr hg)) fun y hy h => hall y hy b (.inl h))
        rw [heq]
        exact List.mem_cons_self
    | some b =>
      cases hg : g x with
      | none =>
        rw [List.filterMap_cons_some hf, List.filterMap_cons_none hg]
        refine ⟨fun heq => ?_, fun h => by cases h.1⟩
        refine absurd ?_ (hno (hhead b (.inl hf)) fun y hy h => hall y hy b (.inr h))
        rw [← heq]
        exact List.mem_cons_self
      | some b' =>
        rw [List.filterMap_cons_some hf, List.filterMap_cons_some hg, List.cons.injEq,
          Option.some.injEq]

/-! ## The target list -/

theorem targetList_misread {root query : Node} (h : root.find "QUERY".toList = some query) :
    targetList (misread root) =
      if query.shadowed "targetList".toList then [] else (targetList root).map misread := by
  unfold targetList
  rw [find_misread, h, Option.map_some, Option.bind_some, Option.bind_some, field_misread]
  by_cases hshadow : query.shadowed "targetList".toList = true
  · rw [if_pos hshadow, if_pos hshadow]
    rfl
  · rw [if_neg hshadow, if_neg hshadow]
    cases query.field "targetList".toList with
    | none => rfl
    | some list => exact items_misread list

theorem origins_misread {root : Node} (h : Numbered root) :
    (targetList (misread root)).filterMap origin = (targetList root).filterMap wanted
      ↔ Clear root := by
  unfold Clear
  cases hfind : root.find "QUERY".toList with
  | none =>
    have hnone : ∀ n : Node, n.find "QUERY".toList = none → targetList n = [] := by
      intro n hn
      unfold targetList
      rw [hn]
      rfl
    have hfind' : (misread root).find "QUERY".toList = none := by
      rw [find_misread, hfind]
      rfl
    rw [hnone _ hfind', hnone _ hfind]
    exact iff_of_true rfl nofun
  | some query =>
    rw [targetList_misread hfind]
    have hquery : (∀ query', some query = some query' →
        if query'.shadowed "targetList".toList
        then ∀ entry ∈ targetList root, wanted entry = none
        else ∀ entry ∈ targetList root, EntryClear entry) ↔
        if query.shadowed "targetList".toList
        then ∀ entry ∈ targetList root, wanted entry = none
        else ∀ entry ∈ targetList root, EntryClear entry := by
      constructor
      · exact fun hall => hall query rfl
      · rintro hall query' heq
        cases heq
        exact hall
    rw [hquery]
    by_cases hshadow : query.shadowed "targetList".toList = true
    · rw [if_pos hshadow, if_pos hshadow, List.filterMap_nil, eq_comm,
        List.filterMap_eq_nil_iff]
    · rw [if_neg hshadow, if_neg hshadow, List.filterMap_map]
      have hiff := filterMap_eq_iff (f := origin ∘ misread) (g := wanted) (k := fun o : Origin =>
        some o.column) h.2 fun x hx o ho => column_of_origin (h.1 x hx) ho.symm
      rw [hiff]
      exact forall₂_congr fun entry hmem => origin_misread (h.1 entry hmem)

/-! ## Main result -/

/-- The reader of view trees ends on the texts it is not stuck in, on the
prints where no word in a list has a colon; and it returns the origins in
the outermost query's target list where those are clear. -/
theorem view_trees (text : Text) (t : Tree) :
    ((∃ fuel, (origins fuel text).isSome) ↔ stuck text = false)
      ∧ ((∃ fuel, (origins fuel t.print).isSome) ↔ colonListed false t.value = false)
      ∧ (Numbered t.value →
        ((∃ fuel, origins fuel t.print = some ((targetList t.value).filterMap wanted))
          ↔ colonListed false t.value = false ∧ Clear t.value)) := by
  have hbreaks : Breaks [] := nofun
  refine ⟨origins_ends_iff text, ?_, fun hnumbered => ?_⟩
  · rw [origins_ends_iff, stuck_print]
  · constructor
    · rintro ⟨fuel, hfuel⟩
      have hends : colonListed false t.value = false := by
        rw [← stuck_print, ← origins_ends_iff]
        exact ⟨fuel, by rw [hfuel]; rfl⟩
      have hread := read_print t hends hbreaks
      rw [List.append_nil] at hread
      have heq := (comes_origins hread).of_eq hfuel
      exact ⟨hends, (origins_misread hnumbered).mp (Option.some.inj heq)⟩
    · rintro ⟨hends, hclear⟩
      have hread := read_print t hends hbreaks
      rw [List.append_nil] at hread
      obtain ⟨fuel, hfuel⟩ := (comes_origins hread).2
      refine ⟨fuel, (hfuel fuel le_rfl).trans ?_⟩
      rw [← (origins_misread hnumbered).mpr hclear]
      rfl

def label (text : Text) (h : text.all fun c => !guards c && c ≠ ':') : Label :=
  ⟨text, fun c hc => by simpa using List.all_eq_true.mp h c hc⟩

/-- A word nothing in which needs a backslash. -/
def bare (text : Text) (hne : text ≠ []) (h : text.all (!guards ·)) : Tree :=
  .word ⟨text.pmap (fun c hc => ⟨c, false, hc⟩)
      fun c hc => by simpa using List.all_eq_true.mp h c hc,
    fun hnil => hne (List.pmap_eq_nil_iff.mp hnil)⟩

def entryTree (resno resname resorigcol resjunk : Tree) : Tree :=
  .node (label "TARGETENTRY".toList (by decide)) [(label "resno".toList (by decide), resno),
    (label "resname".toList (by decide), resname),
    (label "resorigtbl".toList (by decide), bare ['9'] (by decide) (by decide)),
    (label "resorigcol".toList (by decide), resorigcol),
    (label "resjunk".toList (by decide), resjunk)]

def false_ : Tree := bare "false".toList (by decide) (by decide)

/-- A query of two columns of a table, the first under a name with a colon,
with the junk one it is ordered by between them. -/
def twoColumns : Tree :=
  .list [.node (label "QUERY".toList (by decide)) [(label "targetList".toList (by decide), .list
    [entryTree (bare ['1'] (by decide) (by decide)) (bare "a:b".toList (by decide) (by decide))
      (bare ['4'] (by decide) (by decide)) false_,
     entryTree (bare ['2'] (by decide) (by decide)) (bare ['s'] (by decide) (by decide))
      (bare ['7'] (by decide) (by decide)) (bare "true".toList (by decide) (by decide)),
     entryTree (bare ['3'] (by decide) (by decide)) (bare ['c'] (by decide) (by decide))
      (bare ['5'] (by decide) (by decide)) false_])]]

theorem view_trees_twoColumns :
    (∃ fuel, origins fuel twoColumns.print = some ((targetList twoColumns.value).filterMap wanted))
      ∧ (targetList twoColumns.value).filterMap wanted = [⟨1, 9, 4⟩, ⟨3, 9, 5⟩] := by
  have hentries : ∀ e ∈ targetList twoColumns.value, IsEntry e := by
    intro e he
    rcases List.mem_cons.mp he with rfl | he
    · exact ⟨rfl, ⟨1, by decide +kernel, by decide⟩, ⟨9, by decide +kernel⟩,
        ⟨4, by decide +kernel, by decide⟩, .inl (by decide +kernel)⟩
    rcases List.mem_cons.mp he with rfl | he
    · exact ⟨rfl, ⟨2, by decide +kernel, by decide⟩, ⟨9, by decide +kernel⟩,
        ⟨7, by decide +kernel, by decide⟩, .inr (by decide +kernel)⟩
    · rw [List.mem_singleton.mp he]
      exact ⟨rfl, ⟨3, by decide +kernel, by decide⟩, ⟨9, by decide +kernel⟩,
        ⟨5, by decide +kernel, by decide⟩, .inl (by decide +kernel)⟩
  have hclear : Clear twoColumns.value := by
    intro query hquery
    cases hquery
    rw [if_neg (by decide +kernel)]
    unfold EntryClear
    decide +kernel
  exact ⟨((view_trees [] twoColumns).2.2 ⟨hentries, by decide +kernel⟩).mpr
    ⟨by decide +kernel, hclear⟩, by decide +kernel⟩

/-- A column of the table behind a view is called `a:b`, and its list of
names stops the reader for good; a column of the view is called
`x:resorigtbl`, and its origin is lost. -/
theorem names_with_colons :
    (∀ fuel, origins fuel ("(\x7bQUERY :rtable (\x7bALIAS :colnames (\"a:b\")\x7d) ".toList
        ++ ":targetList (\x7bTARGETENTRY :resno 1 :resname v :resorigtbl 9 ".toList
        ++ ":resorigcol 1 :resjunk false\x7d)\x7d)".toList) = none)
      ∧ origins 40 (("(\x7bQUERY :targetList (\x7bTARGETENTRY :resno 1 ".toList
        ++ ":resname x:resorigtbl :resorigtbl 9 :resorigcol 1 ".toList)
        ++ ":resjunk false\x7d)\x7d)".toList) = some [] := by
  constructor
  · intro fuel
    rcases read_spec ("(\x7bQUERY :rtable (\x7bALIAS :colnames (\"a:b\")\x7d) ".toList
        ++ ":targetList (\x7bTARGETENTRY :resno 1 :resname v :resorigtbl 9 ".toList
        ++ ":resorigcol 1 :resjunk false\x7d)\x7d)".toList) with ⟨hstuck, -⟩ | ⟨-, hnone⟩
    · exact absurd hstuck (by decide +kernel)
    · exact (comes_origins hnone).eq_none fuel
  · decide +kernel

end ViewTree

end Zou.Rest
