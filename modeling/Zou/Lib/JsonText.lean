import Mathlib.Algebra.Order.Ring.Nat

/-!
# Json texts

The grammar of json as a relation between a text and the tree it spells.
A tree keeps its numbers and the insides of its strings as they are
written; what they denote is for a reader to say. One relation goes over
the pieces of a text, a value, the items of an array and the fields of an
object, each with how deep it is nested at the most, so that an induction
over a text is one induction.
-/

namespace Zou.JsonText

/-- Insignificant whitespace. -/
def space (c : Char) : Bool := c = ' ' || c = '\t' || c = '\n' || c = '\r'

def Blank (s : List Char) : Prop := ∀ c ∈ s, space c = true

def Digits (s : List Char) : Prop := s ≠ [] ∧ ∀ c ∈ s, c.isDigit = true

/-- A fraction, or none. -/
inductive Fraction : List Char → Prop
  | none : Fraction []
  | some {ds : List Char} (h : Digits ds) : Fraction ('.' :: ds)

/-- An exponent, or none. -/
inductive Exponent : List Char → Prop
  | none : Exponent []
  | some {e : Char} {sign ds : List Char} (he : e = 'e' ∨ e = 'E')
      (hsign : sign = [] ∨ sign = ['+'] ∨ sign = ['-']) (h : Digits ds) :
      Exponent (e :: (sign ++ ds))

/-- A number, without a zero in front. -/
structure IsNumber (s : List Char) : Prop where
  parts : ∃ sign int fraction exponent, s = sign ++ (int ++ (fraction ++ exponent))
    ∧ (sign = [] ∨ sign = ['-']) ∧ Digits int ∧ (int.head? = some '0' → int = ['0'])
    ∧ Fraction fraction ∧ Exponent exponent

def hexDigit (c : Char) : Bool :=
  c.isDigit || ('a' ≤ c && c ≤ 'f') || ('A' ≤ c && c ≤ 'F')

/-- What may stand between the quotes of a string. -/
inductive StringBody : List Char → Prop
  | nil : StringBody []
  | plain {c : Char} {s : List Char} (hquote : c ≠ '"') (hback : c ≠ '\\')
      (hcontrol : 0x20 ≤ c.toNat) (h : StringBody s) : StringBody (c :: s)
  | escape {c : Char} {s : List Char} (hc : c ∈ "\"\\/bfnrt".toList) (h : StringBody s) :
      StringBody ('\\' :: c :: s)
  | unicode {a b c d : Char} {s : List Char}
      (hhex : hexDigit a ∧ hexDigit b ∧ hexDigit c ∧ hexDigit d) (h : StringBody s) :
      StringBody ('\\' :: 'u' :: a :: b :: c :: d :: s)

/-- What a text says, with its numbers and strings as written. -/
inductive Tree where
  | null
  | bool (b : Bool)
  | number (s : List Char)
  | string (body : List Char)
  | array (ts : List Tree)
  | object (fs : List (List Char × Tree))

/-- A piece of a text. -/
inductive Piece where
  | tree (t : Tree)
  | items (ts : List Tree)
  | fields (fs : List (List Char × Tree))

def boolText (b : Bool) : List Char := if b then "true".toList else "false".toList

/-- A text spells a piece and is nested so deep at the most. The items of an
array have their whitespace around them, and so has the value of a field. -/
inductive Spells : Nat → Piece → List Char → Prop
  | null (n : Nat) : Spells n (.tree .null) "null".toList
  | bool (n : Nat) (b : Bool) : Spells n (.tree (.bool b)) (boolText b)
  | number (n : Nat) {s : List Char} (h : IsNumber s) : Spells n (.tree (.number s)) s
  | string (n : Nat) {s : List Char} (h : StringBody s) :
      Spells n (.tree (.string s)) ('"' :: (s ++ ['"']))
  | emptyArray (n : Nat) {s : List Char} (h : Blank s) :
      Spells (n + 1) (.tree (.array [])) ('[' :: (s ++ [']']))
  | array {n : Nat} {ts : List Tree} {s : List Char} (h : Spells n (.items ts) s) :
      Spells (n + 1) (.tree (.array ts)) ('[' :: (s ++ [']']))
  | emptyObject (n : Nat) {s : List Char} (h : Blank s) :
      Spells (n + 1) (.tree (.object [])) ('\x7b' :: (s ++ ['\x7d']))
  | object {n : Nat} {fs : List (List Char × Tree)} {s : List Char}
      (h : Spells n (.fields fs) s) :
      Spells (n + 1) (.tree (.object fs)) ('\x7b' :: (s ++ ['\x7d']))
  | item {n : Nat} {t : Tree} {before s after : List Char} (hbefore : Blank before)
      (h : Spells n (.tree t) s) (hafter : Blank after) :
      Spells n (.items [t]) (before ++ (s ++ after))
  | items {n : Nat} {t : Tree} {ts : List Tree} {s rest : List Char}
      (h : Spells n (.items [t]) s) (hrest : Spells n (.items ts) rest) :
      Spells n (.items (t :: ts)) (s ++ ',' :: rest)
  | field {n : Nat} {k : List Char} {t : Tree} {before middle s : List Char}
      (hbefore : Blank before) (hk : StringBody k) (hmiddle : Blank middle)
      (h : Spells n (.items [t]) s) :
      Spells n (.fields [(k, t)]) (before ++ '"' :: (k ++ '"' :: (middle ++ ':' :: s)))
  | fields {n : Nat} {f : List Char × Tree} {fs : List (List Char × Tree)} {s rest : List Char}
      (h : Spells n (.fields [f]) s) (hrest : Spells n (.fields fs) rest) :
      Spells n (.fields (f :: fs)) (s ++ ',' :: rest)

/-- A whole text: a value and whitespace around it. -/
def Document (n : Nat) (t : Tree) (s : List Char) : Prop := Spells n (.items [t]) s

theorem blank_nil : Blank [] := nofun

variable {s : List Char}

/-- A value is a whole text. -/
theorem Spells.document {n : Nat} {t : Tree} (h : Spells n (.tree t) s) : Document n t s := by
  have hitem : Spells n (.items [t]) ([] ++ (s ++ [])) := .item blank_nil h blank_nil
  rwa [List.nil_append, List.append_nil] at hitem

theorem Spells.mono {n m : Nat} {p : Piece} (h : Spells n p s) (hle : n ≤ m) : Spells m p s := by
  induction h generalizing m with
  | null => exact .null m
  | bool n b => exact .bool m b
  | number n h => exact .number m h
  | string n h => exact .string m h
  | emptyArray n h =>
    obtain ⟨m, rfl⟩ := Nat.exists_eq_add_of_lt hle
    exact .emptyArray _ h
  | array h ih =>
    obtain ⟨m, rfl⟩ := Nat.exists_eq_add_of_lt hle
    exact .array (ih (Nat.le_add_right _ _))
  | emptyObject n h =>
    obtain ⟨m, rfl⟩ := Nat.exists_eq_add_of_lt hle
    exact .emptyObject _ h
  | object h ih =>
    obtain ⟨m, rfl⟩ := Nat.exists_eq_add_of_lt hle
    exact .object (ih (Nat.le_add_right _ _))
  | item hbefore h hafter ih => exact .item hbefore (ih hle) hafter
  | items h hrest ih ihrest => exact .items (ih hle) (ihrest hle)
  | field hbefore hk hmiddle h ih => exact .field hbefore hk hmiddle (ih hle)
  | fields h hrest ih ihrest => exact .fields (ih hle) (ihrest hle)

/-! ## Where a value starts and ends -/

/-- What null, the two booleans and numbers are made of. -/
def wordChar (c : Char) : Bool := c.isAlphanum || c ∈ ['-', '+', '.']

theorem wordChar_of_digit {c : Char} (h : c.isDigit = true) : wordChar c = true := by
  simp [wordChar, Char.isAlphanum, h]

theorem Digits.word (h : Digits s) : ∀ c ∈ s, wordChar c = true :=
  fun c hc => wordChar_of_digit (h.2 c hc)

theorem Fraction.word (h : Fraction s) : ∀ c ∈ s, wordChar c = true := by
  cases h with
  | none => exact nofun
  | some hds => exact List.forall_mem_cons.mpr ⟨by decide, hds.word⟩

theorem Exponent.word (h : Exponent s) : ∀ c ∈ s, wordChar c = true := by
  cases h with
  | none => exact nofun
  | some he hsign hds =>
    refine List.forall_mem_cons.mpr ⟨?_, fun c hc => ?_⟩
    · rcases he with rfl | rfl <;> decide
    · rcases List.mem_append.mp hc with hc | hc
      · rcases hsign with rfl | rfl | rfl
        · cases hc
        · cases List.mem_singleton.mp hc
          decide
        · cases List.mem_singleton.mp hc
          decide
      · exact hds.word c hc

theorem IsNumber.word (h : IsNumber s) : s ≠ [] ∧ ∀ c ∈ s, wordChar c = true := by
  obtain ⟨sign, int, fraction, exponent, rfl, hsign, hint, -, hfraction, hexponent⟩ := h.parts
  constructor
  · intro hnil
    exact hint.1 (List.append_eq_nil_iff.mp (List.append_eq_nil_iff.mp hnil).2).1
  · intro c hc
    rcases List.mem_append.mp hc with hc | hc
    · rcases hsign with rfl | rfl
      · cases hc
      · cases List.mem_singleton.mp hc
        decide
    rcases List.mem_append.mp hc with hc | hc
    · exact hint.word c hc
    rcases List.mem_append.mp hc with hc | hc
    · exact hfraction.word c hc
    · exact hexponent.word c hc

theorem boolText_word (b : Bool) : boolText b ≠ [] ∧ ∀ c ∈ boolText b, wordChar c = true := by
  have hall : boolText b ≠ [] ∧ (boolText b).all wordChar = true := by
    cases b <;> decide
  exact ⟨hall.1, List.all_eq_true.mp hall.2⟩

theorem nullText_word : "null".toList ≠ [] ∧ ∀ c ∈ "null".toList, wordChar c = true := by
  have hall : "null".toList ≠ [] ∧ "null".toList.all wordChar = true := by decide
  exact ⟨hall.1, List.all_eq_true.mp hall.2⟩

/-- A text that starts with something else than whitespace. -/
def Starts (s : List Char) : Prop := ∃ c r, s = c :: r ∧ space c = false

theorem space_of_word {c : Char} (h : wordChar c = true) : space c = false := by
  refine eq_false_of_ne_true fun hs => ?_
  simp only [space, Bool.or_eq_true, decide_eq_true_eq] at hs
  rcases hs with ((rfl | rfl) | rfl) | rfl <;> exact absurd h (by decide)

theorem starts_word (h : s ≠ [] ∧ ∀ c ∈ s, wordChar c = true) :
    Starts s ∧ Starts s.reverse ∧ s.head? ≠ some '[' := by
  obtain ⟨hne, hall⟩ := h
  have hstarts : ∀ r : List Char, r ≠ [] → (∀ c ∈ r, wordChar c = true) → Starts r := by
    intro r hr hchars
    obtain ⟨c, r, rfl⟩ := List.exists_cons_of_ne_nil hr
    exact ⟨c, r, rfl, space_of_word (hchars c List.mem_cons_self)⟩
  refine ⟨hstarts s hne hall, hstarts _ (by simpa using hne) fun c hc => ?_, fun hhead => ?_⟩
  · exact hall c (List.mem_reverse.mp hc)
  · exact absurd (hall _ (List.mem_of_mem_head? hhead)) (by decide)

theorem starts_between {a b : Char} (ha : space a = false) (hb : space b = false)
    (m : List Char) : Starts (a :: (m ++ [b])) ∧ Starts (a :: (m ++ [b])).reverse :=
  ⟨⟨a, _, rfl, ha⟩, b, m.reverse ++ [a], by simp, hb⟩

def Tree.isArray : Tree → Bool
  | .array _ => true
  | _ => false

/-- A value neither starts nor ends with whitespace, and starts with a
square bracket only where it is an array. -/
theorem Spells.ends {n : Nat} {t : Tree} (h : Spells n (.tree t) s) :
    Starts s ∧ Starts s.reverse ∧ (s.head? = some '[' ↔ t.isArray = true) := by
  cases h with
  | null =>
    obtain ⟨hstart, hend, hhead⟩ := starts_word nullText_word
    exact ⟨hstart, hend, fun h => absurd h hhead, nofun⟩
  | bool n b =>
    obtain ⟨hstart, hend, hhead⟩ := starts_word (boolText_word b)
    exact ⟨hstart, hend, fun h => absurd h hhead, nofun⟩
  | number n h =>
    obtain ⟨hstart, hend, hhead⟩ := starts_word h.word
    exact ⟨hstart, hend, fun h => absurd h hhead, nofun⟩
  | string n h =>
    obtain ⟨hstart, hend⟩ := starts_between (a := '"') (b := '"') rfl rfl _
    exact ⟨hstart, hend, nofun, nofun⟩
  | emptyArray n h =>
    obtain ⟨hstart, hend⟩ := starts_between (a := '[') (b := ']') rfl rfl _
    exact ⟨hstart, hend, fun _ => rfl, fun _ => rfl⟩
  | array h =>
    obtain ⟨hstart, hend⟩ := starts_between (a := '[') (b := ']') rfl rfl _
    exact ⟨hstart, hend, fun _ => rfl, fun _ => rfl⟩
  | emptyObject n h =>
    obtain ⟨hstart, hend⟩ := starts_between (a := '\x7b') (b := '\x7d') rfl rfl _
    exact ⟨hstart, hend, nofun, nofun⟩
  | object h =>
    obtain ⟨hstart, hend⟩ := starts_between (a := '\x7b') (b := '\x7d') rfl rfl _
    exact ⟨hstart, hend, nofun, nofun⟩

end Zou.JsonText
