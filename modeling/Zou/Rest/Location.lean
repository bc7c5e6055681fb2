import Zou.Rest.QuerySpec
import Zou.Rest.FilterRoundTrip

/-!
# Where a written row is found

A write that returns nothing but headers answers with the `Location` of its
row: the table, and one filter for each column of the primary key, percent
encoded and nothing else. `parse_query` reads that query back, and a column
whose name is a word of the query string, is dotted or has to be quoted is
read as something else. `location_names` says which names survive: those
that a key of a query string names bare.

Going forward every pair is read as its filter. Going back, the lengths of
the column names decide: a pair never adds a longer name than its key, and
adds one as long only where the key is the name.
-/

namespace Zou.Rest

open Scanner

/-! ## The header -/

/-- A value of a key column, as json has it. -/
inductive KeyValue where
  | null
  | string (s : Text)
  /-- A number by its digits. -/
  | number (digits : Text)
  | bool (b : Bool)

namespace KeyValue

def text : KeyValue → Text
  | .null => "null".toList
  | .string s => s
  | .number digits => digits
  | .bool true => "true".toList
  | .bool false => "false".toList

/-- The filter a value is found by. -/
def filter : KeyValue → Text
  | .null => "is.null".toList
  | v => "eq.".toList ++ v.text

/-- The test that filter is to be read as. -/
def op : KeyValue → Op
  | .null => .is
  | _ => .eq

end KeyValue

/-- The query of the header, what stands behind the table's name and a
question mark: a pair for each column of the key. -/
def locationQuery (pk : List Text) (row : Text → KeyValue) : Text :=
  ['&'].intercalate (pk.map fun col => escapeQuery col ++ '=' :: escapeQuery (row col).filter)

/-! ## What it is to name the row -/

/-- The condition on a key column. -/
def keyCond (row : Text → KeyValue) (col : Text) : Cond :=
  ⟨⟨[], col, []⟩, false, (row col).op, none, none, .lit (row col).text⟩

/-- The root filter on a key column. -/
def keyTest (row : Text → KeyValue) (col : Text) : Route × Node := ([], .cond (keyCond row col))

variable {Item Term : Type}

/-- Nothing but filters. -/
structure Given.Plain (s : Given Item Term) : Prop where
  select : s.select = none
  onConflict : s.onConflict = none
  columns : s.columns = none
  order : s.order = []
  limits : s.limits = []
  offsets : s.offsets = []

/-- The query is read as a root filter for each key column and as nothing
else. -/
def NamesRow (repair : List UInt8 → Text) (g : Grammars Item Term) (all : List Item)
    (pk : List Text) (row : Text → KeyValue) : Prop :=
  ∃ s q, given repair g (locationQuery pk row) = some s ∧ s.Plain
    ∧ parseQuery repair g all (locationQuery pk row) = .ok q
    ∧ q.filters.Perm (pk.map (keyTest row))

/-- The keys of a query string that are no columns, and the words that are
logic groups. -/
def queryWords : List Text :=
  ["apikey".toList, "select".toList, "on_conflict".toList, "columns".toList, "order".toList,
    "limit".toList, "offset".toList, "or".toList, "and".toList]

/-- A column that a key of a query string names bare. -/
structure PlainColumn (col : Text) : Prop where
  ne_nil : col ≠ []
  bare : Bare nameBreak col
  trimmed : trim col = col
  word : col ∉ queryWords

/-! ## Reading a plain column -/

variable {col : Text}

theorem PlainColumn.no_dot (h : PlainColumn col) : '.' ∉ col := by
  intro hdot
  have hbreak := h.bare.1 '.' hdot
  exact absurd hbreak (by decide)

theorem PlainColumn.segment (h : PlainColumn col) :
    parseSegment.run col = some (⟨col, [], false⟩, []) := by
  have hquote : col.head? ≠ some '"' := by
    intro hhead
    have hbreak := h.bare.1 '"' (List.mem_of_mem_head? hhead)
    exact absurd hbreak (by decide)
  have hname : segmentName.run col = some ((col, false), []) := by
    have hscan := scanName_bare h.bare (NameEnds.nil _)
    rw [List.append_nil] at hscan
    unfold segmentName
    rw [bind_run (run_peek _), if_neg hquote, bind_run hscan, h.trimmed]
    rfl
  have hpath : parseJsonPath.run [] = some ([], []) :=
    parseJsonPath_write (PathEnds.nil []) (.inl rfl)
  unfold parseSegment
  rw [bind_run hname]
  dsimp only
  rw [if_neg h.ne_nil, bind_run hpath]
  rfl

theorem PlainColumn.key (h : PlainColumn col) : parseKey col = some (.field ⟨[], col, []⟩) := by
  have hlogic : Seg.logic ⟨col, [], false⟩ = none := by
    have hor : col ≠ "or".toList := fun heq => h.word (heq ▸ by decide)
    have hand : col ≠ "and".toList := fun heq => h.word (heq ▸ by decide)
    unfold Seg.logic
    rw [if_neg (by simp), if_neg hor, if_neg hand]
  unfold parseKey
  rw [parseSegments_last h.segment, Option.bind_some]
  unfold keyOf
  simp only [List.getLast?_singleton, List.dropLast_singleton, hlogic]
  rfl

theorem KeyValue.op_ne_in (v : KeyValue) : v.op ≠ .in := by
  cases v <;> exact nofun

theorem KeyValue.text_of_is {v : KeyValue} (h : v.op = .is) : v.text ∈ isValues := by
  cases v with
  | null => decide
  | string s => cases h
  | number digits => cases h
  | bool b => cases h

theorem keyCond_fits (row : Text → KeyValue) (col : Text) : (keyCond row col).Fits :=
  ⟨ModifierFits.bare, Value.Fits.lit _ (row col).op_ne_in rfl KeyValue.text_of_is⟩

theorem writeRhs_keyCond (row : Text → KeyValue) (col : Text) :
    writeRhs (keyCond row col) true = (row col).filter := by
  unfold keyCond
  cases row col with
  | null => rfl
  | string s => rfl
  | number digits => rfl
  | bool b => rfl

theorem PlainColumn.pair (h : PlainColumn col) (row : Text → KeyValue) :
    parsePair col (row col).filter = some (.filter (keyCond row col)) := by
  have hends : ValueEnds false [] := rfl
  have hrhs := parseCondRhs_write (keyCond_fits row col) hends
  rw [List.append_nil, Bool.not_false, writeRhs_keyCond] at hrhs
  unfold parsePair
  rw [h.key]
  dsimp only
  rw [show (⟨[], col, []⟩ : Field) = (keyCond row col).field from rfl, hrhs]
  rfl

variable {key : Text}

theorem rsplit_of_no_dot (h : '.' ∉ key) : Given.rsplit key = ([], key) := if_neg h

theorem PlainColumn.take (h : PlainColumn col) (g : Grammars Item Term) (s : Given Item Term)
    (row : Text → KeyValue) : s.takePair g col (row col).filter =
      some { s with filters := s.filters ++ [keyTest row col] } := by
  have hword : ∀ w ∈ queryWords, col ≠ w := fun w hw heq => h.word (heq ▸ hw)
  have hwords := hword
  unfold queryWords at hwords
  simp only [List.forall_mem_cons] at hwords
  obtain ⟨hapikey, hselect, hconflict, hcolumns, horder, hlimit, hoffset, -⟩ := hwords
  unfold Given.takePair
  rw [rsplit_of_no_dot h.no_dot, if_neg hapikey]
  rw [if_neg fun hand => hselect hand.1, if_neg fun hand => hconflict hand.1,
    if_neg fun hand => hcolumns hand.1, if_neg horder, if_neg hlimit, if_neg hoffset]
  unfold Given.takeFilter
  rw [h.pair row]
  rfl

/-! ## How long the names are that a key gives -/

variable {s r : Text}

theorem unquote_length {a : Text} (h : unquote s = some (a, r)) :
    a.length + r.length < s.length := by
  induction s using unquote.induct generalizing a with
  | case1 => cases h
  | case2 s =>
    cases h
    simp
  | case3 => cases h
  | case4 c s ih =>
    obtain ⟨x, hx, heq⟩ := Option.map_eq_some_iff.mp h
    cases heq
    have hlt := ih hx
    simp only [List.length_cons]
    omega
  | case5 c s h₁ h₂ h₃ ih =>
    rw [unquote] at h
    · obtain ⟨x, hx, heq⟩ := Option.map_eq_some_iff.mp h
      cases heq
      have hlt := ih hx
      simp only [List.length_cons]
      omega
    all_goals assumption

/-- A segment is not longer than its text, and as long only where it is the
text. -/
theorem segmentName_length {n : Text} {quoted : Bool}
    (h : segmentName.run s = some ((n, quoted), r)) :
    n.length + r.length ≤ s.length ∧ (n.length + r.length = s.length →
      s = n ++ r ∧ quoted = false ∧ Bare nameBreak n ∧ trim n = n) := by
  rw [segmentName, bind_run (run_peek s)] at h
  split at h
  · rename_i hhead
    obtain ⟨m, t, hscan, h⟩ := bind_eq_some.mp h
    cases h
    cases s with
    | nil => cases hhead
    | cons c s =>
      cases hhead
      rw [scanQuoted_run] at hscan
      have hlt := unquote_length hscan
      simp only [List.length_cons]
      exact ⟨by omega, fun heq => by omega⟩
  · obtain ⟨m, t, hscan, h⟩ := bind_eq_some.mp h
    cases h
    have happ := (readUntil_spec hscan).1
    have hbare := scanName_spec hscan
    have hle := List.IsInfix.length_le <| trim_infix m
    subst happ
    rw [List.length_append]
    refine ⟨by omega, fun heq => ?_⟩
    have htrim : trim m = m := List.IsInfix.eq_of_length ( trim_infix m) (by omega)
    rw [htrim]
    exact ⟨rfl, rfl, hbare, htrim⟩

theorem parseSegment_length {seg : Seg} (h : parseSegment.run s = some (seg, r))
    (hpath : seg.path = []) :
    seg.name.length + r.length ≤ s.length ∧ (seg.name.length + r.length = s.length →
      s = seg.name ++ r ∧ seg.quoted = false ∧ Bare nameBreak seg.name
        ∧ trim seg.name = seg.name) := by
  obtain ⟨⟨n, quoted⟩, t, hname, h⟩ := bind_eq_some.mp h
  dsimp only at h
  by_cases hn : n = []
  · rw [if_pos hn, fail_bind] at h
    cases h
  · rw [if_neg hn] at h
    obtain ⟨path, t', hrun, h⟩ := bind_eq_some.mp h
    cases h
    obtain rfl := (parseJsonPath_spec hrun).2 hpath
    exact segmentName_length hname

theorem parseSegments_ne_nil {segs : List Seg}
    (h : parseSegments.run s = some (segs, r)) : segs ≠ [] := by
  rw [parseSegments_eq] at h
  obtain ⟨seg, t, -, h⟩ := bind_eq_some.mp h
  obtain ⟨b, t', -, h⟩ := bind_eq_some.mp h
  cases b with
  | true =>
    rw [if_pos rfl] at h
    by_cases hp : seg.path ≠ []
    · rw [if_pos hp, fail_bind] at h
      cases h
    · rw [if_neg hp] at h
      obtain ⟨segs', t'', -, h⟩ := bind_eq_some.mp h
      cases h
      exact List.cons_ne_nil _ _
  | false =>
    obtain ⟨b, t'', -, h⟩ := bind_eq_some.mp h
    cases b with
    | true =>
      cases h
      exact List.cons_ne_nil _ _
    | false => cases h

theorem parseSegments_single {seg : Seg}
    (h : parseSegments.run s = some ([seg], r)) : parseSegment.run s = some (seg, []) := by
  rw [parseSegments_eq] at h
  obtain ⟨seg', t, hseg, h⟩ := bind_eq_some.mp h
  obtain ⟨b, t', heat, h⟩ := bind_eq_some.mp h
  cases b with
  | true =>
    rw [if_pos rfl] at h
    by_cases hp : seg'.path ≠ []
    · rw [if_pos hp, fail_bind] at h
      cases h
    · rw [if_neg hp] at h
      obtain ⟨segs, t'', hmore, h⟩ := bind_eq_some.mp h
      cases h
      exact absurd rfl (parseSegments_ne_nil hmore)
  | false =>
    obtain ⟨b, t'', hdone, h⟩ := bind_eq_some.mp h
    cases b with
    | false => cases h
    | true =>
      cases h
      rcases eat_cases heat with ⟨hb, -⟩ | ⟨-, rfl, -⟩
      · cases hb
      · cases t' with
        | nil => exact hseg
        | cons c t' => cases hdone

theorem embedNames_nil {segs : List Seg} (h : embedNames segs = some []) : segs = [] := by
  cases segs with
  | nil => rfl
  | cons seg segs =>
    rw [embedNames, List.mapM_cons] at h
    obtain ⟨n, -, h⟩ := Option.bind_eq_some_iff.mp h
    obtain ⟨ns, -, h⟩ := Option.bind_eq_some_iff.mp h
    cases h

/-- What reads as a column of the root is one segment and no logic word. -/
theorem parseKey_root {f : Field} (h : parseKey key = some (.field f))
    (hembed : f.embed = []) : ∃ seg, parseSegment.run key = some (seg, []) ∧ seg.logic = none
      ∧ f = ⟨[], seg.name, seg.path⟩ := by
  obtain ⟨⟨segs, r⟩, hsegs, h⟩ := Option.bind_eq_some_iff.mp h
  unfold keyOf at h
  cases hlast : segs.getLast? with
  | none =>
    simp only [hlast] at h
    cases h
  | some last =>
    simp only [hlast] at h
    cases hlogic : last.logic with
    | some op =>
      simp only [hlogic] at h
      obtain ⟨embed, -, h⟩ := Option.map_eq_some_iff.mp h
      cases h
    | none =>
      simp only [hlogic] at h
      obtain ⟨embed, hnames, h⟩ := Option.map_eq_some_iff.mp h
      cases h
      obtain rfl : embed = [] := hembed
      have hone : segs = [last] := by
        have happ := List.dropLast_append_getLast? last hlast
        rw [embedNames_nil hnames, List.nil_append] at happ
        exact happ.symm
      rw [hone] at hsegs
      exact ⟨last, parseSegments_single hsegs, hlogic, rfl⟩

/-- A key that is no word of the query string and names a column bare. -/
def NamesItself (key : Text) : Prop :=
  key ≠ [] ∧ Bare nameBreak key ∧ trim key = key ∧ key ≠ "or".toList ∧ key ≠ "and".toList

theorem parseKey_length {f : Field} (h : parseKey key = some (.field f))
    (hembed : f.embed = []) (hpath : f.path = []) :
    f.column.length ≤ key.length ∧ (f.column.length = key.length → NamesItself key) := by
  obtain ⟨seg, hseg, hlogic, rfl⟩ := parseKey_root h hembed
  obtain ⟨hle, heq⟩ := parseSegment_length hseg hpath
  refine ⟨hle, fun hlen => ?_⟩
  obtain ⟨hkey, hquoted, hbare, htrim⟩ := heq hlen
  rw [List.append_nil] at hkey
  have hword : ¬ (seg.quoted = true ∨ seg.path ≠ []) := by
    rw [hquoted]
    simpa using hpath
  unfold Seg.logic at hlogic
  rw [if_neg hword] at hlogic
  rw [hkey]
  refine ⟨parseSegment_spec hseg, hbare, htrim, fun hor => ?_, fun hand => ?_⟩
  · rw [if_pos hor] at hlogic
    cases hlogic
  · rw [if_neg (by rw [hand]; decide), if_pos hand] at hlogic
    cases hlogic

/-- The column a root filter tests, and no name for any other filter. -/
def testName : Route × Node → Text
  | ([], .cond c) => if c.field.embed = [] ∧ c.field.path = [] then c.field.column else []
  | _ => []

theorem parseKey_ne_nil {k : Key} (h : parseKey key = some k) : key ≠ [] := by
  rintro rfl
  cases h

variable {s' : Given Item Term}

/-- The filter of a pair tests no longer a name than its key, and as long a
one only where the key is the name. -/
theorem takeFilter_length {s : Given Item Term} {value : Text}
    (h : s.takeFilter key value = some s') : ∃ n, s' = { s with filters := s.filters ++ [n] }
      ∧ (testName n).length ≤ key.length
      ∧ ((testName n).length = key.length → NamesItself key) := by
  obtain ⟨parsed, hparsed, rfl⟩ := Option.map_eq_some_iff.mp h
  unfold parsePair at hparsed
  cases hkey : parseKey key with
  | none =>
    rw [hkey] at hparsed
    cases hparsed
  | some k =>
    have hnil : ([] : Text).length ≤ key.length
        ∧ (([] : Text).length = key.length → NamesItself key) :=
      ⟨Nat.zero_le _, fun hlen =>
        absurd (List.eq_nil_of_length_eq_zero hlen.symm) (parseKey_ne_nil hkey)⟩
    rw [hkey] at hparsed
    cases k with
    | field f =>
      obtain ⟨⟨c, r⟩, hrun, rfl⟩ := Option.map_eq_some_iff.mp hparsed
      obtain rfl := (parseCondRhs_spec hrun).1
      refine ⟨([], .cond c), rfl, ?_⟩
      unfold testName
      dsimp only
      by_cases hroot : c.field.embed = [] ∧ c.field.path = []
      · rw [if_pos hroot]
        exact parseKey_length hkey hroot.1 hroot.2
      · rw [if_neg hroot]
        exact hnil
    | logic embed op negated =>
      obtain ⟨⟨kids, r⟩, -, rfl⟩ := Option.map_eq_some_iff.mp hparsed
      refine ⟨(embed, .group op negated kids), rfl, ?_⟩
      have hname : testName (embed, .group op negated kids) = [] := by
        cases embed <;> rfl
      rw [hname]
      exact hnil

theorem NamesItself.no_dot (h : NamesItself key) : '.' ∉ key := by
  intro hdot
  have hbreak := h.2.1.1 '.' hdot
  exact absurd hbreak (by decide)

/-- Filters that a query is left with, and the names they test. -/
def Adds (s s' : Given Item Term) (names : Text) (plain : Prop) : Prop :=
  s.Plain ∧ ∃ added, s'.filters = s.filters ++ added
    ∧ (added.flatMap testName).length ≤ names.length
    ∧ ((added.flatMap testName).length = names.length → plain)

variable {g : Grammars Item Term}

theorem takePair_adds {s : Given Item Term} {value : Text} (h : s.takePair g key value = some s')
    (hplain : s'.Plain) : Adds s s' key (PlainColumn key) := by
  unfold Given.takePair at h
  split at h
  · rename_i hapikey
    cases h
    refine ⟨hplain, [], (List.append_nil _).symm, Nat.zero_le _, fun hlen => ?_⟩
    rw [hapikey] at hlen
    exact absurd hlen (by decide)
  rename_i hapikey
  dsimp only at h
  split at h
  · obtain ⟨items, -, rfl⟩ := Option.map_eq_some_iff.mp h
    cases hplain.select
  rename_i hselect
  split at h
  · obtain ⟨names, -, rfl⟩ := Option.map_eq_some_iff.mp h
    cases hplain.onConflict
  rename_i hconflict
  split at h
  · obtain ⟨names, -, rfl⟩ := Option.map_eq_some_iff.mp h
    cases hplain.columns
  rename_i hcolumns
  split at h
  · obtain ⟨terms, -, rfl⟩ := Option.map_eq_some_iff.mp h
    exact absurd hplain.order (by simp)
  rename_i horder
  split at h
  · obtain ⟨n, -, rfl⟩ := Option.map_eq_some_iff.mp h
    exact absurd hplain.limits (by simp)
  rename_i hlimit
  split at h
  · obtain ⟨n, -, rfl⟩ := Option.map_eq_some_iff.mp h
    exact absurd hplain.offsets (by simp)
  rename_i hoffset
  obtain ⟨n, rfl, hle, heq⟩ := takeFilter_length h
  refine ⟨⟨hplain.1, hplain.2, hplain.3, hplain.4, hplain.5, hplain.6⟩, [n], rfl, ?_⟩
  rw [List.flatMap_singleton]
  refine ⟨hle, fun hlen => ?_⟩
  have hself := heq hlen
  have hno := rsplit_of_no_dot hself.no_dot
  obtain ⟨hne, hbare, htrim, hor, hand⟩ := hself
  refine ⟨hne, hbare, htrim, ?_⟩
  rw [hno] at hselect hconflict hcolumns horder hlimit hoffset
  simp only [and_true] at hselect hconflict hcolumns
  unfold queryWords
  simp only [List.mem_cons, List.not_mem_nil, or_false, not_or]
  exact ⟨hapikey, hselect, hconflict, hcolumns, horder, hlimit, hoffset, hor, hand⟩

theorem fold_adds {pairs : List (Text × Text)} {s : Given Item Term}
    (h : pairs.foldlM (fun s pair => s.takePair g pair.1 pair.2) s = some s') (hplain : s'.Plain) :
    Adds s s' (pairs.flatMap Prod.fst) (∀ pair ∈ pairs, PlainColumn pair.1) := by
  induction pairs generalizing s with
  | nil =>
    cases h
    exact ⟨hplain, [], (List.append_nil _).symm, le_rfl, nofun⟩
  | cons pair pairs ih =>
    rw [List.foldlM_cons] at h
    obtain ⟨s₁, hfirst, hrest⟩ := Option.bind_eq_some_iff.mp h
    obtain ⟨hplain₁, rest, hfilters, hle, heq⟩ := ih hrest
    obtain ⟨hplain₀, added, hadded, hle₀, heq₀⟩ := takePair_adds hfirst hplain₁
    refine ⟨hplain₀, added ++ rest, ?_, ?_, fun hlen => ?_⟩
    · rw [hfilters, hadded, List.append_assoc]
    · rw [List.flatMap_append, List.flatMap_cons, List.length_append, List.length_append]
      omega
    · rw [List.flatMap_append, List.flatMap_cons, List.length_append,
        List.length_append] at hlen
      exact List.forall_mem_cons.mpr ⟨heq₀ (by omega), heq (by omega)⟩

/-! ## The header names the row -/

theorem given_location (repair : List UInt8 → Text) (g : Grammars Item Term) (pk : List Text)
    (row : Text → KeyValue) : given repair g (locationQuery pk row) =
      (pk.map fun col => (col, (row col).filter)).foldlM
        (fun s pair => s.takePair g pair.1 pair.2) Given.nothing := by
  have hwrite : locationQuery pk row =
      ['&'].intercalate ((pk.map fun col => (col, (row col).filter)).map writePair) := by
    rw [List.map_map]
    rfl
  rw [given, hwrite, pairsOf_write]

variable {pk : List Text}

theorem fold_plain (h : ∀ col ∈ pk, PlainColumn col) (row : Text → KeyValue) (s : Given Item Term) :
    (pk.map fun col => (col, (row col).filter)).foldlM
        (fun s pair => s.takePair g pair.1 pair.2) s =
      some { s with filters := s.filters ++ pk.map (keyTest row) } := by
  induction pk generalizing s with
  | nil => simp
  | cons col pk ih =>
    obtain ⟨hcol, hpk⟩ := List.forall_mem_cons.mp h
    rw [List.map_cons, List.foldlM_cons, hcol.take g s row, Option.bind_eq_bind, Option.bind_some,
      ih hpk]
    simp

/-- A header that names its row has plain columns in it: no name is left to
be any longer than it was read. -/
theorem NamesRow.plain {repair : List UInt8 → Text} {all : List Item} {row : Text → KeyValue} (h : NamesRow repair g all pk row) :
    ∀ col ∈ pk, PlainColumn col := by
  obtain ⟨s, q, hs, hplain, hq, hperm⟩ := h
  have hfilters : q.filters = s.filters := by
    rw [parseQuery, hs] at hq
    dsimp only [Given.window] at hq
    split at hq
    · cases hq
    · cases hq
      rfl
  rw [given_location] at hs
  obtain ⟨-, added, hadded, -, heq⟩ := fold_adds hs hplain
  have hsame : added.Perm (pk.map (keyTest row)) := by
    rw [hfilters, hadded] at hperm
    exact hperm
  have hnames : (pk.map (keyTest row)).flatMap testName = pk.flatten := by
    rw [List.flatMap_map, ← List.flatMap_id]
    rfl
  have hkeys : (pk.map fun col => (col, (row col).filter)).flatMap Prod.fst = pk.flatten := by
    rw [List.flatMap_map, ← List.flatMap_id]
    rfl
  have hlen := (hsame.flatMap_right testName).length_eq
  rw [hnames, ← hkeys] at hlen
  intro col hcol
  exact heq hlen _ (List.mem_map_of_mem hcol)

theorem names_of_plain {repair : List UInt8 → Text} {all : List Item} (h : ∀ col ∈ pk, PlainColumn col) (row : Text → KeyValue) :
    NamesRow repair g all pk row := by
  have hs := fold_plain (g := g) h row Given.nothing
  rw [← given_location repair] at hs
  refine ⟨_, ⟨all, none, none, pk.map (keyTest row), [], [], []⟩, hs,
    ⟨rfl, rfl, rfl, rfl, rfl, rfl⟩, ?_, .refl _⟩
  rw [parseQuery, hs]
  rfl

/-- The header names its row where, and only where, a query string names
each of the key's columns bare. -/
theorem location_names (repair : List UInt8 → Text) (g : Grammars Item Term) (all : List Item)
    (pk : List Text) (row : Text → KeyValue) :
    NamesRow repair g all pk row ↔ ∀ col ∈ pk, PlainColumn col :=
  ⟨NamesRow.plain, fun h => names_of_plain h row⟩

/-- A key column with a dot in its name is read as a column of another
table. -/
theorem dotted_column_lost : ¬ @NamesRow Unit Unit (fun _ => [])
    ⟨fun _ => none, fun _ => none, fun _ => none⟩ [] ["a.b".toList] fun _ => .number ['1'] := by
  intro h
  have hplain := h.plain _ (List.mem_singleton.mpr rfl)
  exact hplain.no_dot (by decide)

end Zou.Rest
