import Zou.Lib.Utf8
import Zou.Realtime.PayloadSpec

/-!
# Array literals

The print of an array by postgres: braces, a delimiter between elements,
quotes around an element that is empty, the word null, or holds a character
of the syntax or a blank, and a backslash in front of a quote or a backslash
in it. Reading inverts it, whatever the elements are and however deep the
array is, for every delimiter that is none of the signs of the syntax that
reading tries it against.
-/

namespace Zou.Realtime

open Scanner

/-! ## The print -/

inductive Literal where
  | null
  | text (s : String)
  | array (xs : List Literal)

namespace Literal

/-- `array_isspace`. -/
def isSpace (b : UInt8) : Bool := (9 ≤ b && b ≤ 13) || b = 32

def needsQuotes (delim : UInt8) (s : String) : Bool :=
  s = "" || s.toLower = "null" || (asBytes s).any fun b =>
    b = QUOTE || b = BACKSLASH || b = BRACE || b = UNBRACE || b = delim || isSpace b

def escape (bs : List UInt8) : List UInt8 :=
  bs.flatMap fun b => if b = QUOTE ∨ b = BACKSLASH then [BACKSLASH, b] else [b]

def quoted (s : String) : List UInt8 := QUOTE :: (escape (asBytes s) ++ [QUOTE])

mutual

/-- `array_out` of an element or of an array. -/
def print (delim : UInt8) : Literal → List UInt8
  | .null => asBytes "NULL"
  | .text s => if needsQuotes delim s then quoted s else asBytes s
  | .array xs => BRACE :: prints delim xs

/-- What stands behind the brace that opens an array. -/
def prints (delim : UInt8) : List Literal → List UInt8
  | [] => [UNBRACE]
  | x :: xs => print delim x ++ printMore delim xs

/-- What stands behind an element. -/
def printMore (delim : UInt8) : List Literal → List UInt8
  | [] => [UNBRACE]
  | x :: xs => delim :: (print delim x ++ printMore delim xs)

end

mutual

/-- The json of an array, where `conv` makes a value of an element. -/
def json (conv : String → Value) : Literal → Value
  | .null => .null
  | .text s => conv s
  | .array xs => .array (jsons conv xs)

def jsons (conv : String → Value) : List Literal → List Value
  | [] => []
  | x :: xs => json conv x :: jsons conv xs

end

mutual

def hasNull : Literal → Bool
  | .null => true
  | .text _ => false
  | .array xs => anyNull xs

def anyNull : List Literal → Bool
  | [] => false
  | x :: xs => hasNull x || anyNull xs

end

end Literal

/-! ## Bytes of characters -/

def bytesOf (cs : List Char) : List UInt8 := cs.flatMap String.utf8EncodeChar

theorem asBytes_ofList (cs : List Char) : asBytes (String.ofList cs) = bytesOf cs := by
  unfold asBytes
  rw [String.toByteArray_ofList, List.utf8Encode, List.data_toByteArray]
  rfl

theorem utf8EncodeChar_ne {c : Char} {b n : UInt8} (hn : n.toNat < 128)
    (hc : c ≠ Char.ofNat n.toNat) (h : b ∈ String.utf8EncodeChar c) : b ≠ n := by
  rintro rfl
  exact hc (Utf8.mem_utf8EncodeChar h hn).2

namespace Literal

/-! ## Quoted elements -/

/-- A character that is escaped. -/
def special (c : Char) : Bool := c = '"' || c = '\\'

theorem escape_append (a b : List UInt8) : escape (a ++ b) = escape a ++ escape b :=
  List.flatMap_append

theorem escape_plain {bs : List UInt8} (h : ∀ b ∈ bs, b ≠ QUOTE ∧ b ≠ BACKSLASH) :
    escape bs = bs := by
  induction bs with
  | nil => rfl
  | cons b bs ih =>
    obtain ⟨hb, hbs⟩ := List.forall_mem_cons.mp h
    have hone : escape (b :: bs) = [b] ++ escape bs := by
      rw [escape, List.flatMap_cons, if_neg (not_or.mpr hb)]
      rfl
    rw [hone, ih hbs]
    rfl

theorem bytes_plain {cs : List Char} (h : ∀ c ∈ cs, special c = false) :
    ∀ b ∈ bytesOf cs, b ≠ QUOTE ∧ b ≠ BACKSLASH := by
  intro b hb
  obtain ⟨c, hc, hbc⟩ := List.mem_flatMap.mp hb
  have hplain := h c hc
  simp only [special, Bool.or_eq_false_iff, decide_eq_false_iff_not] at hplain
  exact ⟨utf8EncodeChar_ne (by decide) hplain.1 hbc, utf8EncodeChar_ne (by decide) hplain.2 hbc⟩

/-- A special character is its one byte, and comes out with a backslash in
front. -/
theorem escape_special {c : Char} (h : special c = true) :
    ∃ b, escape (String.utf8EncodeChar c) = [BACKSLASH, b] ∧ Char.ofNat b.toNat = c := by
  simp only [special, Bool.or_eq_true, decide_eq_true_eq] at h
  rcases h with rfl | rfl
  · exact ⟨QUOTE, by decide, by decide⟩
  · exact ⟨BACKSLASH, by decide, by decide⟩

theorem plain_split (cs : List Char) :
    ∃ first rest, cs = first ++ rest ∧ (∀ c ∈ first, special c = false)
      ∧ ∀ c ds, rest = c :: ds → special c = true := by
  refine ⟨cs.takeWhile (!special ·), cs.dropWhile (!special ·),
    (List.takeWhile_append_dropWhile).symm, fun c hc => ?_, fun c ds h => ?_⟩
  · have hall := List.all_eq_true.mp (List.all_takeWhile (p := (!special ·)) (l := cs)) c hc
    simpa using hall
  · have hhead := List.head?_dropWhile_not (fun c => !special c) cs
    rw [h] at hhead
    simpa using hhead

theorem escape_stops {cs : List Char} (h : ∀ c ds, cs = c :: ds → special c = true)
    (r : List UInt8) : quoteStop (escape (bytesOf cs) ++ QUOTE :: r) = true := by
  cases cs with
  | nil => rfl
  | cons c cs =>
    obtain ⟨b, hb, -⟩ := escape_special (h c cs rfl)
    rw [bytesOf, List.flatMap_cons, escape_append, hb]
    rfl

theorem quoted_run (cs : List Char) (r : List UInt8) :
    (fix quotedTurn).run (escape (bytesOf cs) ++ QUOTE :: r) = some (String.ofList cs, r) := by
  induction hn : cs.length using Nat.strongRecOn generalizing cs with
  | ind n ih =>
    rw [quoted_eq]
    cases cs with
    | nil => rfl
    | cons c cs =>
      rw [List.length_cons] at hn
      by_cases hc : special c = true
      · obtain ⟨b, hescape, hb⟩ := escape_special hc
        have hsplit : escape (bytesOf (c :: cs)) ++ QUOTE :: r
            = BACKSLASH :: b :: (escape (bytesOf cs) ++ QUOTE :: r) := by
          rw [bytesOf, List.flatMap_cons, escape_append, hescape]
          rfl
        have hrest := ih cs.length (by omega) cs rfl
        rw [hsplit]
        simp only [quotedTurn, run_bind, run_peek, List.head?_cons, Option.bind_some,
          if_pos, run_advance, List.drop_succ_cons, List.drop_zero, hrest, run_pure, hb]
        rw [String.ofList_cons]
      · -- the run of plain characters is read whole
        obtain ⟨first, rest, hsplit, hplain, hstop⟩ := plain_split (c :: cs)
        have hne : first ≠ [] := by
          rintro rfl
          rw [List.nil_append] at hsplit
          exact hc (hstop c cs hsplit.symm)
        have hbytes := bytes_plain hplain
        have hnil : bytesOf first ≠ [] := by
          obtain ⟨d, ds, rfl⟩ := List.exists_cons_of_ne_nil hne
          rw [bytesOf, List.flatMap_cons]
          exact List.append_ne_nil_of_left_ne_nil String.utf8EncodeChar_ne_nil _
        obtain ⟨b, bs, hb⟩ := List.exists_cons_of_ne_nil hnil
        have hbplain := hbytes b (hb ▸ List.mem_cons_self)
        have hlen : rest.length < n := by
          have hlength := congrArg List.length hsplit
          have hpos := List.length_pos_of_ne_nil hne
          rw [List.length_append, List.length_cons] at hlength
          omega
        have hread : (readUntil quoteStop).run
            (bytesOf first ++ (escape (bytesOf rest) ++ QUOTE :: r))
            = some (bytesOf first, escape (bytesOf rest) ++ QUOTE :: r) := by
          refine run_readUntil_eq (fun t hne ht => ?_) (.inr (escape_stops hstop r))
          obtain ⟨x, xs, rfl⟩ := List.exists_cons_of_ne_nil hne
          have hx := hbytes x (ht.subset List.mem_cons_self)
          simp [quoteStop, hx.1, hx.2]
        have hescape : escape (bytesOf (first ++ rest)) ++ QUOTE :: r
            = bytesOf first ++ (escape (bytesOf rest) ++ QUOTE :: r) := by
          rw [bytesOf, List.flatMap_append, escape_append, List.append_assoc]
          exact congrArg (· ++ _) (escape_plain hbytes)
        rw [hsplit, hescape]
        have hpeek : (bytesOf first ++ (escape (bytesOf rest) ++ QUOTE :: r)).head?
            = some b := by
          rw [hb]
          rfl
        simp only [quotedTurn, run_bind, run_peek, hpeek, Option.bind_some,
          if_neg hbplain.1, if_neg hbplain.2, hread,
          fromUtf8_iff.mpr (asBytes_ofList first).symm, ih rest.length hlen rest rfl, run_pure]
        rw [String.ofList_append]

/-! ## Elements -/

/-- What is behind an element ends it. -/
def Ends (delim : UInt8) (r : List UInt8) : Prop :=
  ∃ b t, r = b :: t ∧ (b = delim ∨ b = UNBRACE)

variable {delim : UInt8} {conv : String → Value} {r : List UInt8}

theorem element_bare {s : String} (hquote : (asBytes s).head? ≠ some QUOTE)
    (hbare : ∀ b ∈ asBytes s, b ≠ delim ∧ b ≠ UNBRACE) (hr : Ends delim r) :
    (element delim).run (asBytes s ++ r) = some ((s, false), r)
      ∨ (asBytes s = [] ∧ r.head? = some QUOTE) := by
  obtain ⟨b, t, rfl, hb⟩ := hr
  by_cases hempty : asBytes s = [] ∧ b = QUOTE
  · exact .inr ⟨hempty.1, congrArg some hempty.2⟩
  refine .inl ?_
  have hhead : (asBytes s ++ b :: t).head? ≠ some QUOTE := by
    cases hs : asBytes s with
    | nil =>
      intro heq
      exact hempty ⟨hs, Option.some.inj heq⟩
    | cons x xs =>
      rw [hs] at hquote
      exact hquote
  have hread : (readUntil fun r => r.head?.any fun b => b = delim ∨ b = UNBRACE).run
      (asBytes s ++ b :: t) = some (asBytes s, b :: t) := by
    refine run_readUntil_eq (fun u hne hu => ?_) (.inr ?_)
    · obtain ⟨x, xs, rfl⟩ := List.exists_cons_of_ne_nil hne
      have hx := hbare x (hu.subset List.mem_cons_self)
      simp [hx.1, hx.2]
    · simpa using hb
  unfold element
  rw [run_bind, run_peek, Option.bind_some, if_neg hhead, bind_run hread,
    fromUtf8_iff.mpr rfl]
  rfl

theorem element_quoted (s : String) (r : List UInt8) :
    (element delim).run (quoted s ++ r) = some ((s, true), r) := by
  have hbytes : asBytes s = bytesOf s.toList := by rw [← asBytes_ofList, String.ofList_toList]
  have hquoted : quoted s ++ r = QUOTE :: (escape (bytesOf s.toList) ++ QUOTE :: r) := by
    rw [quoted, hbytes, List.cons_append, List.append_assoc]
    rfl
  have hrun := quoted_run s.toList r
  rw [String.ofList_toList] at hrun
  rw [hquoted]
  simp only [element, run_bind, run_peek, List.head?_cons, Option.bind_some, if_pos, run_advance,
    List.drop_succ_cons, List.drop_zero, hrun, run_pure]

theorem bare_of_needsQuotes {s : String} (h : needsQuotes delim s = false) :
    s ≠ "" ∧ s.toLower ≠ "null"
      ∧ ∀ b ∈ asBytes s, b ≠ QUOTE ∧ b ≠ BRACE ∧ b ≠ UNBRACE ∧ b ≠ delim := by
  unfold needsQuotes at h
  simp only [Bool.or_eq_false_iff, decide_eq_false_iff_not, List.any_eq_false, Bool.or_eq_true,
    decide_eq_true_eq, not_or] at h
  obtain ⟨⟨hempty, hnull⟩, hbytes⟩ := h
  refine ⟨hempty, hnull, fun b hb => ?_⟩
  obtain ⟨⟨⟨⟨⟨hquote, -⟩, hbrace⟩, hunbrace⟩, hdelim⟩, -⟩ := hbytes b hb
  exact ⟨hquote, hbrace, hunbrace, hdelim⟩

theorem asBytes_ne_nil {s : String} (h : s ≠ "") : asBytes s ≠ [] := by
  intro hnil
  have hsome := fromUtf8_iff.mpr hnil.symm
  have hempty : fromUtf8 [] = some "" := fromUtf8_iff.mpr rfl
  rw [hempty] at hsome
  exact h (Option.some.inj hsome).symm

/-- An element is read back, a null too where the delimiter is none of its
letters. -/
theorem item_text (s : String) (hr : Ends delim r) (more : Scanner UInt8 (List Value)) :
    (item delim conv more).run (print delim (.text s) ++ r) = some (conv s, r) := by
  rw [print]
  unfold item
  by_cases hquotes : needsQuotes delim s = true
  · rw [if_pos hquotes]
    have hhead : (quoted s ++ r).head? ≠ some BRACE := by
      change some QUOTE ≠ some BRACE
      decide
    rw [run_bind, run_peek, Option.bind_some, if_neg hhead, bind_run (element_quoted s r)]
    rfl
  · rw [if_neg hquotes]
    obtain ⟨hne, hnull, hbytes⟩ := bare_of_needsQuotes (eq_false_of_ne_true hquotes)
    obtain ⟨b, bs, hb⟩ := List.exists_cons_of_ne_nil (asBytes_ne_nil hne)
    have hfirst := hbytes b (hb ▸ List.mem_cons_self)
    have hhead : (asBytes s ++ r).head? = some b := by
      rw [hb]
      rfl
    have hquote : (asBytes s).head? ≠ some QUOTE := by
      rw [hb]
      exact fun heq => hfirst.1 (Option.some.inj heq)
    have hread := (element_bare hquote (fun x hx => ⟨(hbytes x hx).2.2.2, (hbytes x hx).2.2.1⟩)
      hr).resolve_right fun h => asBytes_ne_nil hne h.1
    rw [run_bind, run_peek, Option.bind_some, hhead,
      if_neg fun heq => hfirst.2.1 (Option.some.inj heq), bind_run hread, run_pure]
    simp only [itemOf, Bool.not_false, Bool.true_and, decide_eq_true_eq, if_neg hnull]

theorem item_null (hnull : delim ∉ asBytes "NULL") (hr : Ends delim r)
    (more : Scanner UInt8 (List Value)) :
    (item delim conv more).run (print delim .null ++ r) = some (.null, r) := by
  have hbytes : asBytes "NULL" = [78, 85, 76, 76] := by decide
  have hhead : (asBytes "NULL" ++ r).head? = some 78 := by
    rw [hbytes]
    rfl
  have hread := (@element_bare delim r "NULL" (by decide)
    (fun x hx => ⟨fun heq => hnull (heq ▸ hx), by
      rintro rfl
      rw [hbytes] at hx
      exact absurd hx (by decide)⟩) hr).resolve_right fun h => absurd h.1 (by decide)
  have hlower : "NULL".toLower = "null" := by decide +kernel
  rw [print]
  unfold item
  have hother : ¬ (some 78 : Option UInt8) = some BRACE := by decide
  rw [run_bind, run_peek, Option.bind_some, hhead, if_neg hother, bind_run hread, run_pure]
  simp only [itemOf, Bool.not_false, Bool.true_and, decide_eq_true_eq, if_pos hlower]

/-! ## Arrays -/

theorem printMore_ends (delim : UInt8) (xs : List Literal) (r : List UInt8) :
    Ends delim (printMore delim xs ++ r) := by
  cases xs with
  | nil => exact ⟨UNBRACE, r, by rw [printMore]; rfl, .inr rfl⟩
  | cons x xs =>
    exact ⟨delim, print delim x ++ printMore delim xs ++ r, by rw [printMore]; rfl, .inl rfl⟩

theorem print_head (delim : UInt8) (x : Literal) (r : List UInt8) :
    (print delim x ++ r).head? ≠ some UNBRACE := by
  cases x with
  | null =>
    have hbytes : asBytes "NULL" = [78, 85, 76, 76] := by decide
    rw [print, hbytes]
    change ¬ (some 78 : Option UInt8) = some UNBRACE
    decide
  | text s =>
    rw [print]
    by_cases hquotes : needsQuotes delim s = true
    · rw [if_pos hquotes]
      change ¬ (some QUOTE : Option UInt8) = some UNBRACE
      decide
    · rw [if_neg hquotes]
      obtain ⟨hne, -, hbytes⟩ := bare_of_needsQuotes (eq_false_of_ne_true hquotes)
      obtain ⟨b, bs, hb⟩ := List.exists_cons_of_ne_nil (asBytes_ne_nil hne)
      have hfirst := hbytes b (hb ▸ List.mem_cons_self)
      rw [hb]
      exact fun heq => hfirst.2.2.1 (Option.some.inj heq)
  | array xs =>
    rw [print]
    change ¬ (some BRACE : Option UInt8) = some UNBRACE
    decide

variable (conv)

mutual

theorem item_print (hdelim : delim ≠ UNBRACE) (x : Literal)
    (hnull : delim ∉ asBytes "NULL" ∨ x.hasNull = false) (r : List UInt8) (hr : Ends delim r) :
    (item delim conv (fix (itemsTurn delim conv))).run (print delim x ++ r)
      = some (x.json conv, r) := by
  match x with
  | .null =>
    have hletters : delim ∉ asBytes "NULL" := hnull.resolve_right (by rw [hasNull]; decide)
    rw [json]
    exact item_null hletters hr _
  | .text s =>
    rw [json]
    exact item_text s hr _
  | .array xs =>
    have harray : (item delim conv (fix (itemsTurn delim conv))).run
        (print delim (.array xs) ++ r)
        = (items delim conv).run (print delim (.array xs) ++ r) := by
      rw [print]
      rfl
    rw [harray]
    rw [hasNull] at hnull
    exact items_print hdelim xs hnull r
  termination_by sizeOf x

theorem items_print (hdelim : delim ≠ UNBRACE) (xs : List Literal)
    (hnull : delim ∉ asBytes "NULL" ∨ anyNull xs = false) (r : List UInt8) :
    (items delim conv).run (print delim (.array xs) ++ r)
      = some ((Literal.array xs).json conv, r) := by
  match xs with
  | [] =>
    rw [print, prints, json, jsons]
    rfl
  | x :: xs =>
    have hbody : print delim (.array (x :: xs)) ++ r
        = BRACE :: (print delim x ++ (printMore delim xs ++ r)) := by
      rw [print, prints, List.cons_append, List.append_assoc]
    have hhead := print_head delim x (printMore delim xs ++ r)
    rw [hbody, items, itemsWith, bind_run (expect_self BRACE _), bind_run (eat_neg hhead),
      if_neg Bool.false_ne_true, bind_run (more_print hdelim x xs hnull r), json, jsons]
    rfl
  termination_by sizeOf xs

theorem more_print (hdelim : delim ≠ UNBRACE) (x : Literal) (xs : List Literal)
    (hnull : delim ∉ asBytes "NULL" ∨ anyNull (x :: xs) = false) (r : List UInt8) :
    (fix (itemsTurn delim conv)).run (print delim x ++ (printMore delim xs ++ r))
      = some (x.json conv :: jsons conv xs, r) := by
  have hends := printMore_ends delim xs r
  have hboth : delim ∉ asBytes "NULL" ∨ x.hasNull = false ∧ anyNull xs = false :=
    hnull.imp_right fun h => by
      rw [anyNull, Bool.or_eq_false_iff] at h
      exact h
  have hitem := item_print hdelim x (hboth.imp_right And.left) (printMore delim xs ++ r) hends
  have hturn := (congrFun (congrArg Scanner.run (items_eq delim conv))
    (print delim x ++ (printMore delim xs ++ r))).trans (bind_run hitem _)
  rw [hturn]
  match xs with
  | [] =>
    have hother : ¬ UNBRACE = delim := fun heq => hdelim heq.symm
    rw [printMore, jsons]
    simp only [run_bind, run_peek, List.cons_append, List.nil_append, List.head?_cons,
      Option.bind_some, if_neg hother, if_pos, run_advance, List.drop_succ_cons, List.drop_zero,
      run_pure]
  | y :: ys =>
    have hmore := more_print hdelim y ys (hboth.imp_right And.right) r
    rw [printMore, jsons]
    simp only [run_bind, run_peek, List.cons_append, List.append_assoc, List.head?_cons,
      Option.bind_some, if_pos, run_advance, List.drop_succ_cons, List.drop_zero, hmore,
      run_pure]
  termination_by sizeOf x + sizeOf xs
  decreasing_by
    · have hpos : 0 < sizeOf xs := by cases xs <;> simp
      omega
    · simp only [List.cons.sizeOf_spec]
      omega

end

/-- The dimensions in front of an array, as in `[0:1][2:4]=`: what is read past
is up to the first equals sign. -/
def IsBounds (b : List UInt8) : Prop :=
  b = [] ∨ ∃ dims, b = 91 :: (dims ++ [61]) ∧ 61 ∉ dims

theorem arrayBody_bounds {b : List UInt8} (hb : IsBounds b) (xs : List Literal) :
    arrayBody (b ++ print delim (.array xs)) = some (print delim (.array xs)) := by
  rcases hb with rfl | ⟨dims, rfl, hdims⟩
  · rw [print]
    rfl
  · have hdrop : (91 :: (dims ++ [61]) ++ print delim (.array xs)).dropWhile (· ≠ 61)
        = 61 :: print delim (.array xs) := by
      have happ : (91 :: (dims ++ [61]) ++ print delim (.array xs))
          = (91 :: dims) ++ 61 :: print delim (.array xs) := by simp
      have hall : ∀ x ∈ (91 :: dims : List UInt8), decide (x ≠ 61) = true := by
        intro x hx
        rcases List.mem_cons.mp hx with rfl | hx
        · decide
        · exact decide_eq_true fun heq => hdims (heq ▸ hx)
      rw [happ, List.dropWhile_append_of_pos hall]
      exact List.dropWhile_cons_of_neg (by decide)
    have hfirst : (91 :: (dims ++ [61]) ++ print delim (.array xs)).head? = some 91 := rfl
    unfold arrayBody
    rw [if_pos hfirst, hdrop]

end Literal

theorem items_array {delim : UInt8} {conv : String → Value} {s r : List UInt8} {v : Value}
    (h : (items delim conv).run s = some (v, r)) : ∃ vs, v = .array vs := by
  obtain ⟨-, r₁, -, h⟩ := bind_eq_some.mp h
  obtain ⟨b, r₂, -, h⟩ := bind_eq_some.mp h
  cases b with
  | true =>
    cases h
    exact ⟨[], rfl⟩
  | false =>
    obtain ⟨vs, r₃, -, h⟩ := bind_eq_some.mp h
    cases h
    exact ⟨vs, rfl⟩

/-- What an array literal is made of: the array it prints, and for any text an
array that took all of it or the text itself. -/
theorem array_literals (serde : Serde) (types : Types) (elem : UInt32) :
    (∀ (text : String) (bounds : List UInt8) (xs : List Literal), Literal.IsBounds bounds →
        (((types.get elem).map Kind.delim).getD 44 ≠ UNBRACE ∨ xs = []) →
        (((types.get elem).map Kind.delim).getD 44 ∉ asBytes "NULL" ∨ Literal.anyNull xs = false) →
        asBytes text
          = bounds ++ Literal.print (((types.get elem).map Kind.delim).getD 44) (.array xs) →
        value serde types text (.array elem)
          = (Literal.array xs).json fun s => value serde types s (types.shape elem))
      ∧ ∀ text, value serde types text (.array elem) = .string text
        ∨ ∃ body vs, arrayBody (asBytes text) = some body
          ∧ (items (((types.get elem).map Kind.delim).getD 44)
            fun s => value serde types s (types.shape elem)).run body = some (.array vs, [])
          ∧ value serde types text (.array elem) = .array vs := by
  constructor
  · intro text bounds xs hbounds hdelim hnull htext
    rw [value_array]
    unfold array
    rw [htext, Literal.arrayBody_bounds hbounds]
    dsimp only
    have hrun : (items (((types.get elem).map Kind.delim).getD 44)
          fun s => value serde types s (types.shape elem)).run
        (Literal.print (((types.get elem).map Kind.delim).getD 44) (.array xs))
        = some ((Literal.array xs).json fun s => value serde types s (types.shape elem), []) := by
      rcases hdelim with hdelim | rfl
      · have hread := Literal.items_print (fun s => value serde types s (types.shape elem))
          hdelim xs hnull []
        rwa [List.append_nil] at hread
      · rw [Literal.print, Literal.prints, Literal.json, Literal.jsons]
        rfl
    rw [hrun]
  · intro text
    rw [value_array]
    unfold array
    cases hbody : arrayBody (asBytes text) with
    | none => exact .inl rfl
    | some body =>
      dsimp only
      split
      · rename_i v hrun
        obtain ⟨vs, rfl⟩ := items_array hrun
        exact .inr ⟨body, vs, rfl, hrun, rfl⟩
      · exact .inl rfl

/-- A type of text whose delimiter is a letter of the word null. -/
def letterTypes : Types := ⟨fun _ => some ⟨"letter", .text, 78⟩⟩

def noSerde : Serde := ⟨fun _ => none, fun _ => none⟩

/-- The null of an array with such a delimiter is read as two elements. -/
theorem null_split :
    asBytes "\x7bNULL\x7d" = Literal.print 78 (.array [.null])
      ∧ value noSerde letterTypes "\x7bNULL\x7d" (.array 0)
        ≠ (Literal.array [.null]).json
          fun s => value noSerde letterTypes s (letterTypes.shape 0) := by
  have hprint : asBytes "\x7bNULL\x7d" = Literal.print 78 (.array [.null]) := by
    rw [Literal.print, Literal.prints, Literal.print, Literal.printMore]
    decide
  refine ⟨hprint, fun heq => ?_⟩
  have hbytes : asBytes "\x7bNULL\x7d" = BRACE :: (asBytes "" ++ [78, 85, 76, 76, UNBRACE]) := by
    decide
  have hrest : ([85, 76, 76, UNBRACE] : List UInt8) = asBytes "ULL" ++ [UNBRACE] := by decide
  have hnil : asBytes "" = [] := by decide
  have hletters : asBytes "ULL" = [85, 76, 76] := by decide
  generalize hconv : (fun s => value noSerde letterTypes s (letterTypes.shape 0)) = conv at heq
  have hfirst : (element 78).run (asBytes "" ++ [78, 85, 76, 76, UNBRACE])
      = some (("", false), [78, 85, 76, 76, UNBRACE]) :=
    (Literal.element_bare (by decide) (fun b hb => by
      rw [hnil] at hb
      cases hb) ⟨78, _, rfl, .inl rfl⟩).resolve_right (by decide)
  have hsecond : (element 78).run ([85, 76, 76, UNBRACE])
      = some (("ULL", false), [UNBRACE]) := by
    rw [hrest]
    refine (Literal.element_bare (by decide) (fun b hb => ?_)
      ⟨UNBRACE, _, rfl, .inr rfl⟩).resolve_right (by decide)
    rw [hletters] at hb
    simp only [List.mem_cons, List.not_mem_nil, or_false] at hb
    rcases hb with rfl | rfl | rfl <;> decide
  have hmore : (fix (itemsTurn 78 conv)).run [85, 76, 76, UNBRACE]
      = some ([itemOf conv ("ULL", false)], []) := by
    have hitem : (item 78 conv (fix (itemsTurn 78 conv))).run [85, 76, 76, UNBRACE]
        = some (itemOf conv ("ULL", false), [UNBRACE]) := by
      rw [item, run_bind, run_peek, Option.bind_some, if_neg (by decide), bind_run hsecond,
        run_pure]
    rw [items_eq, itemsTurn, bind_run hitem]
    rfl
  have hrun : (items 78 conv).run (asBytes "\x7bNULL\x7d")
      = some (.array [itemOf conv ("", false), itemOf conv ("ULL", false)], []) := by
    have hitem : (item 78 conv (fix (itemsTurn 78 conv))).run
        (asBytes "" ++ [78, 85, 76, 76, UNBRACE])
        = some (itemOf conv ("", false), [78, 85, 76, 76, UNBRACE]) := by
      rw [item, run_bind, run_peek, Option.bind_some, if_neg (by decide), bind_run hfirst,
        run_pure]
    have hturn : (fix (itemsTurn 78 conv)).run (asBytes "" ++ [78, 85, 76, 76, UNBRACE])
        = some ([itemOf conv ("", false), itemOf conv ("ULL", false)], []) := by
      rw [items_eq, itemsTurn, bind_run hitem]
      simp only [run_bind, run_peek, List.head?_cons, Option.bind_some, if_pos, run_advance,
        List.drop_succ_cons, List.drop_zero, hmore, run_pure]
    rw [hbytes, items, itemsWith, bind_run (expect_self BRACE _),
      bind_run (eat_neg (by decide)), if_neg Bool.false_ne_true, bind_run hturn, run_pure]
  rw [value_array, hconv, array] at heq
  have hbody : arrayBody (asBytes "\x7bNULL\x7d") = some (asBytes "\x7bNULL\x7d") := by decide
  have hdelim : ((letterTypes.get 0).map Kind.delim).getD 44 = 78 := rfl
  rw [hbody, hdelim] at heq
  dsimp only at heq
  rw [hrun, Literal.json, Literal.jsons, Literal.jsons] at heq
  dsimp only at heq
  have hlength := congrArg (fun v => v.items.length) heq
  simp [Value.items] at hlength

/-- The array of a word and a null, printed with a comma. -/
theorem array_literals_pair :
    value noSerde ⟨fun _ => none⟩ "\x7ba,NULL\x7d" (.array 0)
      = (Literal.array [.text "a", .null]).json
        fun s => value noSerde ⟨fun _ => none⟩ s .text := by
  refine (array_literals noSerde ⟨fun _ => none⟩ 0).1 _ [] [.text "a", .null] (.inl rfl)
    (.inl (by decide)) (.inl (by decide)) ?_
  rw [List.nil_append, Literal.print, Literal.prints, Literal.print, Literal.printMore,
    Literal.print, Literal.printMore]
  decide +kernel

end Zou.Realtime
