import Zou.Rest.Body
import Zou.Rest.QuerySpec

/-!
# What an update binds

The cut agrees with the grammar of json: a piece of a text leaves the scan
where it found it, in no string and as deep as before, so nothing inside an
element ends it. The count is of 32 bits, which is enough up to a nesting
of 2^32 and no further, and a good deal more than a reader of json accepts.
From the cut, the text an update binds reads as the first row.
-/

namespace Zou.Rest

open JsonText (Tree Piece Document Spells Blank StringBody IsNumber Starts space wordChar)

/-! ## What the scan steps over -/

/-- A character that is nothing to the scan outside of strings. -/
def Quiet (c : Char) : Prop :=
  c ≠ '"' ∧ c ≠ '[' ∧ c ≠ ']' ∧ c ≠ '\x7b' ∧ c ≠ '\x7d' ∧ c ≠ ','

variable {c : Char}

theorem quiet_of {p : Char → Bool} (h : ("\"[]\x7b\x7d,".toList.any p) = false)
    (hc : p c = true) : Quiet c := by
  have hne : ∀ d ∈ "\"[]\x7b\x7d,".toList, c ≠ d := by
    rintro d hd rfl
    exact List.any_eq_false.mp h c hd hc
  exact ⟨hne _ (by decide), hne _ (by decide), hne _ (by decide), hne _ (by decide),
    hne _ (by decide), hne _ (by decide)⟩

variable {s : Text}

theorem quiet_word (h : ∀ c ∈ s, wordChar c = true) : ∀ c ∈ s, Quiet c :=
  fun c hc => quiet_of (by decide) (h c hc)

theorem quiet_blank (h : Blank s) : ∀ c ∈ s, Quiet c :=
  fun c hc => quiet_of (by decide) (h c hc)

theorem elementOf_cons (depth : Nat) (inString escaped : Bool) (c : Char) (s : Text) :
    elementOf depth inString escaped (c :: s) =
      if inString then
        if escaped then c :: elementOf depth true false s
        else if c = '\\' then c :: elementOf depth true true s
        else if c = '"' then c :: elementOf depth false escaped s
        else c :: elementOf depth true escaped s
      else if c = '"' then c :: elementOf depth true escaped s
      else if c = '[' ∨ c = '\x7b' then c :: elementOf ((depth + 1) % 2 ^ 32) false escaped s
      else if (c = ']' ∨ c = '\x7d' ∨ c = ',') ∧ depth = 0 then []
      else if c = ']' ∨ c = '\x7d' then c :: elementOf (depth - 1) false escaped s
      else c :: elementOf depth false escaped s :=
  rfl

theorem elementOf_quiet (h : ∀ c ∈ s, Quiet c) (depth : Nat) (r : Text) :
    elementOf depth false false (s ++ r) = s ++ elementOf depth false false r := by
  induction s with
  | nil => rfl
  | cons c s ih =>
    obtain ⟨⟨hquote, hopen, hclose, hbrace, hend, hcomma⟩, hs⟩ := List.forall_mem_cons.mp h
    rw [List.cons_append, elementOf_cons]
    simp only [Bool.false_eq_true, if_false, hquote, hopen, hclose, hbrace, hend, hcomma,
      or_self, false_and]
    rw [ih hs, List.cons_append]

theorem elementOf_string (h : StringBody s) (depth : Nat) (r : Text) :
    elementOf depth true false (s ++ '"' :: r) = s ++ '"' :: elementOf depth false false r := by
  induction h with
  | nil => rfl
  | plain hquote hback hcontrol h ih =>
    rw [List.cons_append, elementOf_cons, if_pos rfl, if_neg Bool.false_ne_true, if_neg hback,
      if_neg hquote, ih, List.cons_append]
  | escape hc h ih =>
    rw [List.cons_append, List.cons_append, elementOf_cons, if_pos rfl, if_neg Bool.false_ne_true,
      if_pos rfl, elementOf_cons, if_pos rfl, if_pos rfl, ih]
    rfl
  | unicode hhex h ih =>
    obtain ⟨ha, hb, hc, hd⟩ := hhex
    have hplain : ∀ {c : Char}, JsonText.hexDigit c = true → c ≠ '"' ∧ c ≠ '\\' := by
      intro c hc
      constructor <;> rintro rfl <;> exact absurd hc (by decide)
    have hstep : ∀ {c : Char}, JsonText.hexDigit c = true → ∀ t : Text,
        elementOf depth true false (c :: t) = c :: elementOf depth true false t := by
      intro c hc t
      obtain ⟨hquote, hback⟩ := hplain hc
      rw [elementOf_cons, if_pos rfl, if_neg Bool.false_ne_true, if_neg hback, if_neg hquote]
    rw [List.cons_append, List.cons_append, elementOf_cons, if_pos rfl, if_neg Bool.false_ne_true,
      if_pos rfl, elementOf_cons, if_pos rfl, if_pos rfl]
    simp only [List.cons_append]
    rw [hstep ha, hstep hb, hstep hc, hstep hd, ih]

theorem elementOf_quote (depth : Nat) (r : Text) :
    elementOf depth false false ('"' :: r) = '"' :: elementOf depth true false r := by
  rw [elementOf_cons, if_neg Bool.false_ne_true, if_pos rfl]

theorem elementOf_open (hc : c = '[' ∨ c = '\x7b') {depth : Nat}
    (hdepth : depth + 1 < 2 ^ 32) (r : Text) :
    elementOf depth false false (c :: r) = c :: elementOf (depth + 1) false false r := by
  have hquote : c ≠ '"' := by
    rcases hc with rfl | rfl <;> decide
  rw [elementOf_cons, if_neg Bool.false_ne_true, if_neg hquote, if_pos hc, Nat.mod_eq_of_lt hdepth]

theorem elementOf_close (hc : c = ']' ∨ c = '\x7d') (depth : Nat) (r : Text) :
    elementOf (depth + 1) false false (c :: r) = c :: elementOf depth false false r := by
  have hother : c ≠ '"' ∧ ¬ (c = '[' ∨ c = '\x7b') := by
    rcases hc with rfl | rfl <;> decide
  rw [elementOf_cons, if_neg Bool.false_ne_true, if_neg hother.1, if_neg hother.2,
    if_neg fun h => Nat.succ_ne_zero _ h.2, if_pos hc, Nat.add_sub_cancel]

theorem elementOf_comma {depth : Nat} (h : 1 ≤ depth) (r : Text) :
    elementOf depth false false (',' :: r) = ',' :: elementOf depth false false r := by
  rw [elementOf_cons, if_neg Bool.false_ne_true, if_neg (by decide), if_neg (by decide),
    if_neg fun hzero => Nat.ne_of_gt h hzero.2, if_neg (by decide)]

theorem elementOf_colon (depth : Nat) (r : Text) :
    elementOf depth false false (':' :: r) = ':' :: elementOf depth false false r := by
  rw [elementOf_cons, if_neg Bool.false_ne_true, if_neg (by decide), if_neg (by decide),
    if_neg fun h => absurd h.1 (by decide), if_neg (by decide)]

theorem elementOf_end (hc : c = ']' ∨ c = ',') (r : Text) :
    elementOf 0 false false (c :: r) = [] := by
  rcases hc with rfl | rfl <;> rfl

theorem enclosed_append (a b : Char) (m r : Text) : a :: (m ++ [b]) ++ r = a :: (m ++ b :: r) := by
  simp

/-- How deep the scan has to be for the separators of a piece. -/
def Piece.least : Piece → Nat
  | .tree _ => 0
  | _ => 1

variable {n : Nat}

theorem elementOf_spells {p : Piece} (h : Spells n p s) {depth : Nat}
    (hleast : Piece.least p ≤ depth) (hdepth : depth + n < 2 ^ 32) (r : Text) :
    elementOf depth false false (s ++ r) = s ++ elementOf depth false false r := by
  induction h generalizing depth r with
  | null => exact elementOf_quiet (quiet_word JsonText.nullText_word.2) depth r
  | bool n b => exact elementOf_quiet (quiet_word (JsonText.boolText_word b).2) depth r
  | number n h => exact elementOf_quiet (quiet_word h.word.2) depth r
  | string n h =>
    rw [enclosed_append, enclosed_append, elementOf_quote,
      elementOf_string h]
  | emptyArray n h =>
    rw [enclosed_append, enclosed_append,
      elementOf_open (.inl rfl) (by omega), elementOf_quiet (quiet_blank h),
      elementOf_close (.inl rfl)]
  | array h ih =>
    rw [enclosed_append, enclosed_append,
      elementOf_open (.inl rfl) (by omega), ih (Nat.succ_le_succ (Nat.zero_le _)) (by omega),
      elementOf_close (.inl rfl)]
  | emptyObject n h =>
    rw [enclosed_append, enclosed_append,
      elementOf_open (.inr rfl) (by omega), elementOf_quiet (quiet_blank h),
      elementOf_close (.inr rfl)]
  | object h ih =>
    rw [enclosed_append, enclosed_append,
      elementOf_open (.inr rfl) (by omega), ih (Nat.succ_le_succ (Nat.zero_le _)) (by omega),
      elementOf_close (.inr rfl)]
  | item hbefore h hafter ih =>
    rw [List.append_assoc, List.append_assoc, elementOf_quiet (quiet_blank hbefore),
      ih (Nat.zero_le _) hdepth, elementOf_quiet (quiet_blank hafter)]
    simp only [List.append_assoc]
  | items h hrest ih ihrest =>
    rw [List.append_assoc, List.cons_append, ih hleast hdepth, elementOf_comma hleast,
      ihrest hleast hdepth]
    simp only [List.append_assoc, List.cons_append]
  | field hbefore hk hmiddle h ih =>
    simp only [List.append_assoc, List.cons_append]
    rw [elementOf_quiet (quiet_blank hbefore), elementOf_quote, elementOf_string hk,
      elementOf_quiet (quiet_blank hmiddle), elementOf_colon, ih hleast hdepth]
  | fields h hrest ih ihrest =>
    rw [List.append_assoc, List.cons_append, ih hleast hdepth, elementOf_comma hleast,
      ihrest hleast hdepth]
    simp only [List.append_assoc, List.cons_append]

/-! ## The first element -/

theorem trimStart_blank {t : Text} (hs : Blank s) (ht : Starts t) : trimStart (s ++ t) = t := by
  obtain ⟨c, r, rfl, hc⟩ := ht
  unfold trimStart
  rw [List.dropWhile_append_of_pos hs, List.dropWhile_cons_of_neg (by simp [hc])]

theorem trimEnd_blank {t : Text} (hs : Starts s.reverse) (ht : Blank t) : trimEnd (s ++ t) = s := by
  have hrev : Blank t.reverse := fun c hc => ht c (List.mem_reverse.mp hc)
  have htrim := trimStart_blank hrev hs
  unfold trimEnd
  rw [List.reverse_append]
  exact (congrArg List.reverse htrim).trans (List.reverse_reverse s)

/-- A text spells an array, its first element nested so deep and the others
so deep at the most, and this is the text of the first element. -/
inductive ArrayText (n m : Nat) : List Tree → Option Text → Text → Prop
  | empty {front inside back : Text} (hfront : Blank front) (hinside : Blank inside)
      (hback : Blank back) :
      ArrayText n m [] none (front ++ '[' :: (inside ++ ']' :: back))
  | one {t : Tree} {front before e after back : Text} (hfront : Blank front)
      (hbefore : Blank before) (h : Spells n (.tree t) e) (hafter : Blank after)
      (hback : Blank back) :
      ArrayText n m [t] (some e) (front ++ '[' :: (before ++ (e ++ (after ++ ']' :: back))))
  | more {t : Tree} {ts : List Tree} {front before e after rest back : Text}
      (hfront : Blank front) (hbefore : Blank before) (h : Spells n (.tree t) e)
      (hafter : Blank after) (hrest : Spells m (.items ts) rest) (hback : Blank back) :
      ArrayText n m (t :: ts) (some e)
        (front ++ '[' :: (before ++ (e ++ (after ++ ',' :: (rest ++ ']' :: back)))))

variable {ts : List Tree}

/-- Every text of an array is one with a first element or without. -/
theorem exists_arrayText {raw : Text}
    (h : Document n (.array ts) raw) : ∃ first, ArrayText n n ts first raw := by
  cases h with
  | item hfront h hback =>
    cases h with
    | emptyArray n h =>
      refine ⟨none, ?_⟩
      simp only [List.cons_append, List.append_assoc, List.nil_append]
      exact .empty hfront h hback
    | @array n _ _ h =>
      cases h with
      | @item _ _ before e after hbefore h hafter =>
        have harray := ArrayText.one (m := n + 1) hfront hbefore (h.mono (Nat.le_succ n))
          hafter hback
        refine ⟨some e, ?_⟩
        simpa only [List.cons_append, List.append_assoc, List.nil_append] using harray
      | items h hrest =>
        cases h with
        | @item _ _ before e after hbefore h hafter =>
          have harray := ArrayText.more hfront hbefore (h.mono (Nat.le_succ n)) hafter
            (hrest.mono (Nat.le_succ n)) hback
          refine ⟨some e, ?_⟩
          simpa only [List.cons_append, List.append_assoc, List.nil_append] using harray
        | items h hrest => exact absurd hrest (by rintro ⟨⟩)
  | items h hrest => exact absurd hrest (by rintro ⟨⟩)

variable {first : Option Text}

theorem ArrayText.document {m : Nat} {raw : Text}
    (h : ArrayText n m ts first raw) : Document (max n m + 1) (.array ts) raw := by
  unfold Document
  cases h with
  | empty hfront hinside hback =>
    have hitem := Spells.item hfront (.emptyArray (max n m) hinside) hback
    simpa only [List.cons_append, List.append_assoc, List.nil_append] using hitem
  | one hfront hbefore h hafter hback =>
    have hone := Spells.item hbefore (h.mono (Nat.le_max_left n m)) hafter
    have hitem := Spells.item hfront (.array hone) hback
    simpa only [List.cons_append, List.append_assoc, List.nil_append] using hitem
  | more hfront hbefore h hafter hrest hback =>
    have hone := Spells.item hbefore (h.mono (Nat.le_max_left n m)) hafter
    have hitem := Spells.item hfront
      (.array (hone.items (hrest.mono (Nat.le_max_right n m)))) hback
    simpa only [List.cons_append, List.append_assoc, List.nil_append] using hitem

theorem firstElement_cons {front inside : Text} (hfront : Blank front) :
    firstElement (front ++ '[' :: inside) =
      if trimEnd (elementOf 0 false false (trimStart inside)) = [] then none
      else some (trimEnd (elementOf 0 false false (trimStart inside))) := by
  unfold firstElement
  rw [trimStart_blank hfront ⟨'[', _, rfl, rfl⟩]
  rfl

variable {t : Tree}

theorem firstElement_some {front before e after rest : Text}
    (hfront : Blank front) (hbefore : Blank before) (h : Spells n (.tree t) e)
    (hafter : Blank after) (hc : c = ']' ∨ c = ',') (hn : n < 2 ^ 32) :
    firstElement (front ++ '[' :: (before ++ (e ++ (after ++ c :: rest)))) = some e := by
  obtain ⟨hstart, hend, -⟩ := h.ends
  have hinside : Starts (e ++ (after ++ c :: rest)) := by
    obtain ⟨d, r, rfl, hd⟩ := hstart
    exact ⟨d, _, rfl, hd⟩
  have hne : e ≠ [] := by
    obtain ⟨d, r, rfl, -⟩ := hstart
    exact List.cons_ne_nil _ _
  rw [firstElement_cons hfront, trimStart_blank hbefore hinside,
    elementOf_spells h (Nat.zero_le _) (by omega), elementOf_quiet (quiet_blank hafter), elementOf_end hc, List.append_nil,
    trimEnd_blank hend hafter, if_neg hne]

theorem ArrayText.firstElement {m : Nat} {raw : Text}
    (h : ArrayText n m ts first raw) (hn : n < 2 ^ 32) : firstElement raw = first := by
  cases h with
  | empty hfront hinside hback =>
    rw [firstElement_cons hfront, trimStart_blank hinside ⟨']', _, rfl, rfl⟩,
      elementOf_end (.inl rfl)]
    rfl
  | one hfront hbefore h hafter hback =>
    exact firstElement_some hfront hbefore h hafter (.inl rfl) hn
  | more hfront hbefore h hafter hrest hback =>
    exact firstElement_some hfront hbefore h hafter (.inr rfl) hn

/-! ## Too deep a nesting -/

theorem elementOf_opens (k : Nat) {depth : Nat} (h : depth < 2 ^ 32) (r : Text) :
    elementOf depth false false (List.replicate k '[' ++ r) =
      List.replicate k '[' ++ elementOf ((depth + k) % 2 ^ 32) false false r := by
  induction k generalizing depth with
  | zero =>
    rw [Nat.add_zero, Nat.mod_eq_of_lt h]
    rfl
  | succ k ih =>
    rw [List.replicate_succ, List.cons_append, elementOf_cons, if_neg Bool.false_ne_true,
      if_neg (by decide), if_pos (.inl rfl), ih (Nat.mod_lt _ (by decide)), Nat.mod_add_mod,
      Nat.add_right_comm, List.cons_append, Nat.add_assoc depth k 1]

/-- Empty arrays in one another. -/
def nested : Nat → Text
  | 0 => []
  | k + 1 => '[' :: (nested k ++ [']'])

def nestedTree : Nat → Tree
  | 0 => .array []
  | k + 1 => .array [nestedTree k]

theorem spells_nested (k : Nat) : Spells (k + 1) (.tree (nestedTree k)) (nested (k + 1)) := by
  induction k with
  | zero => exact .emptyArray 0 JsonText.blank_nil
  | succ k ih => exact .array ih.document

theorem nested_eq (k : Nat) : nested k = List.replicate k '[' ++ List.replicate k ']' := by
  induction k with
  | zero => rfl
  | succ k ih =>
    rw [nested, ih, List.append_assoc, ← List.replicate_succ', List.replicate_succ]
    rfl

/-- Where the count comes around to zero, the first closing bracket ends
the element. -/
theorem firstElement_nested {k : Nat} (h : (k + 1) % 2 ^ 32 = 0) :
    firstElement ('[' :: (nested (k + 1) ++ [']'])) ≠ some (nested (k + 1)) := by
  intro heq
  have hcut : elementOf 0 false false (trimStart (nested (k + 1) ++ [']'])) =
      List.replicate (k + 1) '[' := by
    have hstart : trimStart (nested (k + 1) ++ [']']) = nested (k + 1) ++ [']'] :=
      trimStart_blank JsonText.blank_nil ⟨'[', _, rfl, rfl⟩
    have hclose : elementOf 0 false false (List.replicate (k + 1) ']' ++ [']']) = [] := by
      rw [List.replicate_succ, List.cons_append, elementOf_end (.inl rfl)]
    rw [hstart, nested_eq, List.append_assoc, elementOf_opens (k + 1) (by decide), Nat.zero_add, h,
      hclose, List.append_nil]
  have hfirst : firstElement ([] ++ '[' :: (nested (k + 1) ++ [']'])) = _ :=
    firstElement_cons JsonText.blank_nil
  rw [List.nil_append, heq, hcut] at hfirst
  split at hfirst
  · cases hfirst
  · have hle : (trimEnd (List.replicate (k + 1) '[')).length ≤ k + 1 := by
      unfold trimEnd
      rw [List.length_reverse]
      refine Nat.le_trans (List.dropWhile_suffix _).length_le ?_
      rw [List.length_reverse, List.length_replicate]
    have hlen := congrArg List.length (Option.some.inj hfirst)
    rw [nested_eq, List.length_append, List.length_replicate, List.length_replicate] at hlen
    omega

/-! ## What a reader of json reads -/

/-- What the numbers and the strings of a text denote, nothing where a
number is out of range or an escape is no character. -/
structure Words where
  number : Text → Option Realtime.Number
  string : Text → Option String

mutual

/-- The value of a tree. -/
def treeValue (w : Words) : Tree → Option Realtime.Value
  | .null => some .null
  | .bool b => some (.bool b)
  | .number s => (w.number s).map .number
  | .string s => (w.string s).map .string
  | .array ts => (treeValues w ts).map .array
  | .object fs => (treeFields w [] fs).map .object

def treeValues (w : Words) : List Tree → Option (List Realtime.Value)
  | [] => some []
  | t :: ts =>
    match treeValue w t, treeValues w ts with
    | some v, some vs => some (v :: vs)
    | _, _ => none

/-- A key that comes twice keeps its place and takes the later value. -/
def treeFields (w : Words) (m : Realtime.Map) : List (Text × Tree) → Option Realtime.Map
  | [] => some m
  | (k, t) :: fs =>
    match w.string k, treeValue w t with
    | some k, some v => treeFields w (Realtime.Map.insert m k v) fs
    | _, _ => none

end

/-- A text is json for a value, and not nested deeper than `serde_json`
reads. -/
def Denotes (w : Words) (s : Text) (v : Realtime.Value) : Prop :=
  ∃ t, Document 127 t s ∧ treeValue w t = some v

theorem sentAnArray_document (h : Document n t s) : sentAnArray s = t.isArray := by
  cases h with
  | item hbefore h hafter =>
    obtain ⟨⟨c, r, rfl, hc⟩, -, hhead⟩ := h.ends
    unfold sentAnArray
    rw [List.cons_append, trimStart_blank hbefore ⟨c, _, rfl, hc⟩]
    rw [Bool.eq_iff_iff, decide_eq_true_iff, ← hhead]
    rfl
  | items h hrest => exact absurd hrest (by rintro ⟨⟩)

variable {w : Words}

theorem rowsOf_not_array {v : Realtime.Value}
    (h : treeValue w t = some v) (ht : t.isArray = false) : rowsOf v = (false, [v]) := by
  cases t with
  | null => cases h; rfl
  | bool b => cases h; rfl
  | number s =>
    obtain ⟨n, -, rfl⟩ := Option.map_eq_some_iff.mp h
    rfl
  | string s =>
    obtain ⟨n, -, rfl⟩ := Option.map_eq_some_iff.mp h
    rfl
  | array ts => cases ht
  | object fs =>
    obtain ⟨m, -, rfl⟩ := Option.map_eq_some_iff.mp h
    rfl

theorem treeValues_cons {vs : List Realtime.Value} (h : treeValues w (t :: ts) = some vs) :
    ∃ v vs', vs = v :: vs' ∧ treeValue w t = some v := by
  rw [treeValues] at h
  split at h
  · rename_i v vs' hv hvs
    exact ⟨v, vs', (Option.some.inj h).symm, hv⟩
  · cases h

variable {r : Readers} {bytes : List UInt8} {columns : Option (List String)} {body : Written}

theorem bodyRows_json (h : bodyRows r .json bytes columns = .ok body) :
    ∃ text v, r.json text = some v ∧ body.raw = some text ∧ body.rows = (rowsOf v).2 := by
  unfold bodyRows at h
  dsimp only at h
  split at h
  · cases h
  · rename_i text htext
    split at h
    · cases h
    · rename_i v hv
      refine ⟨text, v, hv, ?_⟩
      split at h
      · cases h
        exact ⟨rfl, rfl⟩
      · split at h
        · cases h
        · cases h
          exact ⟨rfl, rfl⟩

/-- What is made of a json text that came with these columns. -/
def bound (cols : List String) (text : Text) : List String × Text :=
  if sentAnArray text then ((firstElement text).map fun e => (cols, e)).getD ([], "null".toList)
  else (cols, text)

theorem updatePayload_json {text : Text} (h : bodyRows r .json bytes columns = .ok body)
    (hraw : body.raw = some text) :
    updatePayload r .json bytes columns = .ok (bound body.cols text) := by
  unfold updatePayload bound
  rw [h, Except.map, hraw]
  cases hsent : sentAnArray text with
  | false => simp [hsent]
  | true =>
    cases hfirst : firstElement text with
    | none => simp [hsent, hfirst]
    | some e => simp [hsent, hfirst]

theorem bound_array {cols : List String} {m : Nat} {text : Text} {vs : List Realtime.Value}
    (h : ArrayText n m ts first text) (hn : n ≤ 127) (hsent : sentAnArray text = true)
    (hvs : treeValues w ts = some vs) : (vs = [] → bound cols text = ([], "null".toList))
      ∧ ∀ row rows, vs = row :: rows →
        (bound cols text).1 = cols ∧ Denotes w (bound cols text).2 row := by
  have hcut := h.firstElement (by omega)
  unfold bound
  rw [if_pos hsent, hcut]
  have hsome : ∀ {t ts e}, Spells n (.tree t) e → treeValues w (t :: ts) = some vs →
      (vs = [] → (cols, e) = ([], "null".toList))
        ∧ ∀ row rows, vs = row :: rows → cols = cols ∧ Denotes w e row := by
    intro t ts e he hvs
    obtain ⟨v, vs', rfl, hv⟩ := treeValues_cons hvs
    refine ⟨nofun, fun row rows hcons => ?_⟩
    obtain ⟨rfl, -⟩ := List.cons.inj hcons
    exact ⟨rfl, t, (he.mono hn).document, hv⟩
  cases h with
  | empty hfront hinside hback =>
    cases hvs
    exact ⟨fun _ => rfl, nofun⟩
  | one hfront hbefore h hafter hback => exact hsome h hvs
  | more hfront hbefore h hafter hrest hback => exact hsome h hvs

theorem updatePayload_first (hr : ∀ s v, r.json s = some v → Denotes w s v)
    (h : bodyRows r .json bytes columns = .ok body) :
    ∃ out, updatePayload r .json bytes columns = .ok out
      ∧ (body.rows = [] → out = ([], "null".toList))
      ∧ ∀ row rows, body.rows = row :: rows → out.1 = body.cols ∧ Denotes w out.2 row := by
  obtain ⟨text, v, hv, hraw, hrows⟩ := bodyRows_json h
  obtain ⟨t, hdoc, hvalue⟩ := hr text v hv
  have hsent := sentAnArray_document hdoc
  refine ⟨_, updatePayload_json h hraw, ?_⟩
  rw [hrows]
  cases harray : t.isArray with
  | false =>
    rw [harray] at hsent
    have hbound : bound body.cols text = (body.cols, text) := by
      unfold bound
      rw [hsent, if_neg Bool.false_ne_true]
    rw [rowsOf_not_array hvalue harray, hbound]
    refine ⟨nofun, fun row rows hcons => ?_⟩
    obtain ⟨rfl, -⟩ := List.cons.inj hcons
    exact ⟨rfl, t, hdoc, hvalue⟩
  | true =>
    rw [harray] at hsent
    cases t with
    | array ts =>
      obtain ⟨vs, hvs, rfl⟩ := Option.map_eq_some_iff.mp hvalue
      obtain ⟨first, hfirst⟩ := exists_arrayText hdoc
      exact bound_array hfirst le_rfl hsent hvs
    | null => cases harray
    | bool b => cases harray
    | number s => cases harray
    | string s => cases harray
    | object fs => cases harray

/-- Every text of a json array has a first element or none, and where that
is nested less than 2^32 deep the cut is its text. A json body is bound
as a text of its first row. -/
theorem first_element_cut :
    (∀ n ts raw, Document n (.array ts) raw → ∃ first, ArrayText n n ts first raw)
      ∧ (∀ n m ts first raw, ArrayText n m ts first raw → n < 2 ^ 32 → firstElement raw = first)
      ∧ ∀ (r : Readers) (w : Words), (∀ s v, r.json s = some v → Denotes w s v) →
        ∀ bytes columns body, bodyRows r .json bytes columns = .ok body →
          ∃ out, updatePayload r .json bytes columns = .ok out
            ∧ (body.rows = [] → out = ([], "null".toList))
            ∧ ∀ row rows, body.rows = row :: rows → out.1 = body.cols ∧ Denotes w out.2 row :=
  ⟨fun _ _ _ => exists_arrayText, fun _ _ _ _ _ => ArrayText.firstElement,
    fun _ _ hr _ _ _ => updatePayload_first hr⟩

/-- Two rows, the first with brackets and an escaped quote in a string. -/
def twoRows : Text := "[ \x7b\"a\":\"]\\\"[\"\x7d ,\x7b\"a\":1\x7d]".toList

def firstRow : Text := "\x7b\"a\":\"]\\\"[\"\x7d".toList

theorem twoRows_array : ArrayText 1 1
    [.object [(['a'], .string "]\\\"[".toList)], .object [(['a'], .number ['1'])]]
    (some firstRow) twoRows := by
  have hspace : Blank [' '] := List.forall_mem_singleton.mpr rfl
  have hdigit : JsonText.Digits ['1'] := ⟨by decide, List.forall_mem_singleton.mpr rfl⟩
  have hone : IsNumber ['1'] :=
    ⟨[], ['1'], [], [], rfl, .inl rfl, hdigit, nofun, .none, .none⟩
  have hkey : StringBody ['a'] := .plain (by decide) (by decide) (by decide) .nil
  have hquoted : StringBody "]\\\"[".toList :=
    .plain (by decide) (by decide) (by decide)
      (.escape (by decide) (.plain (by decide) (by decide) (by decide) .nil))
  have hfirst : Spells 0 (.fields [(['a'], .string "]\\\"[".toList)])
      ([] ++ '"' :: (['a'] ++ '"' :: ([] ++ ':' :: '"' :: ("]\\\"[".toList ++ ['"'])))) :=
    .field JsonText.blank_nil hkey JsonText.blank_nil (Spells.string 0 hquoted).document
  have hsecond : Spells 0 (.fields [(['a'], .number ['1'])])
      ([] ++ '"' :: (['a'] ++ '"' :: ([] ++ ':' :: ['1']))) :=
    .field JsonText.blank_nil hkey JsonText.blank_nil (Spells.number 0 hone).document
  exact .more JsonText.blank_nil hspace (.object hfirst) hspace (Spells.object hsecond).document
    JsonText.blank_nil

/-- Reads digits as they are, and strings without their escapes. -/
def rowWords : Words := ⟨fun s => if s = ['1'] then some (.posInt 1) else none,
  fun s => some (String.ofList (s.filter (· ≠ '\\')))⟩

def rowValues : List Realtime.Value :=
  [.object [("a", .string "]\"[")], .object [("a", .number (.posInt 1))]]

def rowReaders : Readers where
  json s := if s = twoRows then some (.array rowValues) else none
  csv _ := .error .csv
  form _ := []
  write _ := []

theorem twoRows_denotes (s : Text) (v : Realtime.Value) (h : rowReaders.json s = some v) :
    Denotes rowWords s v := by
  obtain ⟨rfl, hv⟩ := Option.ite_none_right_eq_some.mp h
  cases hv
  exact ⟨_, twoRows_array.document.mono (by decide), rfl⟩

theorem fromUtf8_utf8 (s : Text) : fromUtf8 (utf8 s) = some s := by
  unfold fromUtf8
  rw [utf8_eq, List.utf8Decode?_utf8Encode]
  rfl

/-- Of the two rows the first is cut out whole, and bound with its column. -/
theorem first_element_two : firstElement twoRows = some firstRow
    ∧ ∃ out, updatePayload rowReaders .json (utf8 twoRows) none = .ok out ∧ out.1 = ["a"]
      ∧ Denotes rowWords out.2 (.object [("a", .string "]\"[")]) := by
  have hcut := first_element_cut.2.1 _ _ _ _ _ twoRows_array (by decide)
  have hbody : bodyRows rowReaders .json (utf8 twoRows) none =
      .ok ⟨["a"], rowValues, some twoRows⟩ := by
    unfold bodyRows
    rw [fromUtf8_utf8]
    rfl
  obtain ⟨out, hout, -, hrow⟩ := first_element_cut.2.2 _ _ twoRows_denotes _ _ _ hbody
  exact ⟨hcut, out, hout, hrow _ _ rfl⟩

theorem nested_array (k : Nat) : ArrayText (k + 1) 0 [nestedTree k] (some (nested (k + 1)))
    ('[' :: (nested (k + 1) ++ [']'])) :=
  .one JsonText.blank_nil JsonText.blank_nil (spells_nested k) JsonText.blank_nil
    JsonText.blank_nil

/-- Nested 2^32 deep, the first element of a json array is cut in the
middle. -/
theorem nested_element_cut : ∃ k, k + 1 = 2 ^ 32
    ∧ Document (max (k + 1) 0 + 1) (.array [nestedTree k]) ('[' :: (nested (k + 1) ++ [']']))
    ∧ ArrayText (k + 1) 0 [nestedTree k] (some (nested (k + 1))) ('[' :: (nested (k + 1) ++ [']']))
    ∧ firstElement ('[' :: (nested (k + 1) ++ [']'])) ≠ some (nested (k + 1)) := by
  have hne : (2 : Nat) ^ 32 ≠ 0 := by decide
  obtain ⟨k, hk⟩ := Nat.exists_eq_succ_of_ne_zero hne
  have hzero : (k + 1) % 2 ^ 32 = 0 := by rw [← Nat.succ_eq_add_one, ← hk, Nat.mod_self]
  exact ⟨k, hk.symm, (nested_array k).document, nested_array k, firstElement_nested hzero⟩

end Zou.Rest
