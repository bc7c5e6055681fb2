import Mathlib.Data.List.TakeWhile
import Zou.Rest.ViewTreeSpec

/-!
# Trees as postgres prints them

A tree is printed with whitespace, brackets, braces and backslashes behind
backslashes and colons as they are. `misread` is what the reader makes of
the print: a colon inside a word of a list stops it for good, and inside a
field's value it ends the word and begins another field, under the rest of
the word's name and with nothing in it.
-/

namespace Zou.Rest

namespace ViewTree

open Fuel

/-! ## Printing -/

/-- What the printer puts a backslash before. -/
def guards (c : Char) : Bool := isWhitespace c || c ∈ ['(', ')', '\x7b', '\x7d', '\\']

/-- A character of a printed token. -/
structure Glyph where
  char : Char
  guarded : Bool
  printed : if guarded then char ≠ ':' else guards char = false

def Glyph.print (g : Glyph) : Text := if g.guarded then ['\\', g.char] else [g.char]

/-- A printed token. -/
structure Token where
  glyphs : List Glyph
  nonempty : glyphs ≠ []

def Token.text (t : Token) : Text := t.glyphs.map Glyph.char

def printGlyphs (gs : List Glyph) : Text := gs.flatMap Glyph.print

/-- A type or the name of a field. -/
structure Label where
  text : Text
  plain : ∀ c ∈ text, guards c = false ∧ c ≠ ':'

inductive Tree where
  | word (token : Token)
  | list (items : List Tree)
  | node (tag : Label) (fields : List (Label × Tree))

namespace Tree

mutual

/-- The node a tree is. -/
def value : Tree → Node
  | .word token => .word token.text
  | .list items => .list (values items)
  | .node tag fields => .named tag.text (fieldValues fields)

def values : List Tree → List Node
  | [] => []
  | t :: ts => t.value :: values ts

def fieldValues : List (Label × Tree) → List (Text × Node)
  | [] => []
  | (name, t) :: fs => (name.text, t.value) :: fieldValues fs

end

mutual

def print : Tree → Text
  | .word token => printGlyphs token.glyphs
  | .list items => '(' :: ((printItems items).tail ++ [')'])
  | .node tag fields => '\x7b' :: (tag.text ++ printFields fields ++ ['\x7d'])

/-- Each item behind a space. -/
def printItems : List Tree → Text
  | [] => []
  | t :: ts => ' ' :: (t.print ++ printItems ts)

def printFields : List (Label × Tree) → Text
  | [] => []
  | (name, t) :: fs => ' ' :: ':' :: (name.text ++ ' ' :: (t.print ++ printFields fs))

end

end Tree

/-! ## Colons -/

mutual

/-- Whether a word that is directly in a list has a colon, anywhere in a
node that is itself in a list or not. -/
def colonListed (listed : Bool) : Node → Bool
  | .word text => listed && text.contains ':'
  | .list items => colonsListed items
  | .named _ fields => colonFields fields

def colonsListed : List Node → Bool
  | [] => false
  | item :: items => colonListed true item || colonsListed items

def colonFields : List (Text × Node) → Bool
  | [] => false
  | (_, value) :: fields => colonListed false value || colonFields fields

end

/-- What stands behind each colon of a word, up to the next. -/
def laterPieces : Text → List Text
  | [] => []
  | c :: chars =>
    if c = ':' then chars.takeWhile (· ≠ ':') :: laterPieces chars else laterPieces chars

/-- The fields a field's value leaves behind it. -/
def shadows : Node → List (Text × Node)
  | .word text => (laterPieces text).map (·, .word [])
  | _ => []

mutual

/-- What the reader makes of a node's print. -/
def misread : Node → Node
  | .word text => .word (text.takeWhile (· ≠ ':'))
  | .list items => .list (misreadItems items)
  | .named tag fields => .named tag (misreadFields fields)

def misreadItems : List Node → List Node
  | [] => []
  | item :: items => misread item :: misreadItems items

def misreadFields : List (Text × Node) → List (Text × Node)
  | [] => []
  | (name, value) :: fields => (name, misread value) :: (shadows value ++ misreadFields fields)

end

/-! ## What a print holds -/

variable {chars rest r : Text} {top : Bracket} {stack : List Bracket} {gs : List Glyph}

theorem not_ends {c : Char} (h : guards c = false) (hcolon : c ≠ ':') : ends c = false := by
  simp only [guards, Bool.or_eq_false_iff, List.mem_cons, List.not_mem_nil, or_false,
    decide_eq_false_iff_not, not_or] at h
  simp [ends, h, hcolon]

theorem not_slash {c : Char} (h : guards c = false) : c ≠ '\\' := by
  rintro rfl
  revert h
  decide

theorem balks_label {text : Text} (h : ∀ c ∈ text, guards c = false ∧ c ≠ ':') (rest : Text) :
    balks (top :: stack) (text ++ rest) = balks (top :: stack) rest := by
  induction text with
  | nil => rfl
  | cons c text ih =>
    obtain ⟨hc, hcolon⟩ := h c List.mem_cons_self
    have hends := not_ends hc hcolon
    rw [List.cons_append, balks_plain (not_slash hc) (by
      intro hmem
      simp [ends, hmem] at hends), ih fun c' hc' => h c' (.tail _ hc')]

theorem balks_space (rest : Text) :
    balks (top :: stack) (' ' :: rest) = balks (top :: stack) rest :=
  balks_plain (by decide) (by decide) ..

theorem balks_colon (rest : Text) : balks (top :: stack) (':' :: rest) =
    (decide (top = .paren) || balks (top :: stack) rest) := by
  rw [balks.eq_def]
  rfl

theorem printGlyphs_cons (g : Glyph) (gs : List Glyph) (rest : Text) :
    printGlyphs (g :: gs) ++ rest = g.print ++ (printGlyphs gs ++ rest) := by
  simp [printGlyphs]

theorem Glyph.print_colon {g : Glyph} (h : g.char = ':') : g.print = [':'] := by
  have hprinted := g.printed
  unfold Glyph.print
  by_cases hg : g.guarded = true
  · rw [if_pos hg] at hprinted
    exact absurd h hprinted
  · rw [if_neg hg, h]

theorem balks_glyphs (gs : List Glyph) (rest : Text) :
    balks (top :: stack) (printGlyphs gs ++ rest) =
      ((decide (top = .paren) && (gs.map Glyph.char).contains ':')
        || balks (top :: stack) rest) := by
  induction gs with
  | nil => simp [printGlyphs]
  | cons g gs ih =>
    have hprinted := g.printed
    rw [printGlyphs_cons]
    unfold Glyph.print
    by_cases hg : g.guarded = true
    · rw [if_pos hg] at hprinted ⊢
      have hslash : balks (top :: stack) (['\\', g.char] ++ (printGlyphs gs ++ rest)) =
          balks (top :: stack) (printGlyphs gs ++ rest) := by
        rw [balks.eq_def]
        rfl
      have hne : (':' == g.char) = false := beq_eq_false_iff_ne.mpr hprinted.symm
      rw [hslash, ih, List.map_cons, List.contains_cons, hne, Bool.false_or]
    · rw [if_neg hg] at hprinted ⊢
      rw [List.singleton_append]
      by_cases hcolon : g.char = ':'
      · rw [hcolon, balks_colon, ih, List.map_cons, hcolon]
        cases decide (top = Bracket.paren) <;> simp
      · have hends := not_ends hprinted hcolon
        have hne : (':' == g.char) = false := beq_eq_false_iff_ne.mpr (Ne.symm hcolon)
        rw [balks_plain (not_slash hprinted) (by
          intro hmem
          simp [ends, hmem] at hends), ih, List.map_cons, List.contains_cons, hne,
          Bool.false_or]

theorem balks_tail (items : List Tree) (rest : Text) :
    balks (top :: stack) ((Tree.printItems items).tail ++ rest) =
      balks (top :: stack) (Tree.printItems items ++ rest) := by
  cases items with
  | nil => rfl
  | cons t ts => exact (balks_space _).symm

mutual

theorem balks_print (t : Tree) (top : Bracket) (stack : List Bracket) (rest : Text) :
    balks (top :: stack) (t.print ++ rest) =
      (colonListed (decide (top = .paren)) t.value || balks (top :: stack) rest) := by
  match t with
  | .word token => exact balks_glyphs token.glyphs rest
  | .list items =>
    have hopen : balks (top :: stack) ((Tree.list items).print ++ rest) =
        balks (.paren :: top :: stack) ((Tree.printItems items).tail ++ ')' :: rest) := by
      rw [Tree.print, balks.eq_def, List.cons_append, List.append_assoc]
      rfl
    have hclose : balks (.paren :: top :: stack) (')' :: rest) = balks (top :: stack) rest := by
      rw [balks.eq_def]
      rfl
    rw [hopen, balks_tail, balks_items items, hclose]
    rfl
  | .node tag fields =>
    have hopen : balks (top :: stack) ((Tree.node tag fields).print ++ rest) =
        balks (.brace :: top :: stack)
          (tag.text ++ (Tree.printFields fields ++ '\x7d' :: rest)) := by
      rw [Tree.print, balks.eq_def, List.cons_append, List.append_assoc, List.append_assoc]
      rfl
    have hclose : balks (.brace :: top :: stack) ('\x7d' :: rest) =
        balks (top :: stack) rest := by
      rw [balks.eq_def]
      rfl
    rw [hopen, balks_label tag.plain, balks_fields fields, hclose]
    rfl

theorem balks_items (items : List Tree) (stack : List Bracket) (rest : Text) :
    balks (.paren :: stack) (Tree.printItems items ++ rest) =
      (colonsListed (Tree.values items) || balks (.paren :: stack) rest) := by
  match items with
  | [] => rfl
  | t :: ts =>
    rw [Tree.printItems, List.cons_append, balks_space, List.append_assoc, balks_print t,
      balks_items ts, Tree.values, colonsListed, Bool.or_assoc]
    rfl

theorem balks_fields (fields : List (Label × Tree)) (stack : List Bracket) (rest : Text) :
    balks (.brace :: stack) (Tree.printFields fields ++ rest) =
      (colonFields (Tree.fieldValues fields) || balks (.brace :: stack) rest) := by
  match fields with
  | [] => rfl
  | (name, t) :: fs =>
    rw [Tree.printFields, List.cons_append, balks_space, List.cons_append, balks_colon,
      List.append_assoc, balks_label name.plain, List.cons_append, balks_space,
      List.append_assoc, balks_print t, balks_fields fs, Tree.fieldValues, colonFields,
      Bool.or_assoc]
    rfl

end

theorem skip_cons {c : Char} (h : isWhitespace c = false) (chars : Text) :
    skip (c :: chars) = c :: chars :=
  List.dropWhile_cons_of_neg (by simp [h])

theorem head_glyphs (token : Token) (rest : Text) :
    ∃ c chars, printGlyphs token.glyphs ++ rest = c :: chars ∧ isWhitespace c = false
      ∧ c ≠ '(' ∧ c ≠ ')' ∧ c ≠ '\x7b' := by
  obtain ⟨gs, hne⟩ := token
  cases gs with
  | nil => exact absurd rfl hne
  | cons g gs =>
    have hprinted := g.printed
    rw [printGlyphs_cons]
    unfold Glyph.print
    by_cases hg : g.guarded = true
    · rw [if_pos hg]
      exact ⟨_, _, rfl, by decide, by decide, by decide, by decide⟩
    · rw [if_neg hg] at hprinted ⊢
      simp only [guards, Bool.or_eq_false_iff, List.mem_cons, List.not_mem_nil, or_false,
        decide_eq_false_iff_not, not_or] at hprinted
      exact ⟨g.char, _, rfl, hprinted.1, hprinted.2.1, hprinted.2.2.1, hprinted.2.2.2.1⟩

/-- The reader gets through a printed tree where no word in a list has a
colon. -/
theorem stuck_print (t : Tree) : stuck t.print = colonListed false t.value := by
  have hend : t.print = t.print ++ [] := (List.append_nil _).symm
  match t with
  | .word token =>
    obtain ⟨c, chars, hcons, hspace, hparen, -, hbrace⟩ := head_glyphs token []
    have hprint : (Tree.word token).print = c :: chars := by
      rw [hend]
      exact hcons
    unfold stuck
    rw [hprint, skip_cons hspace]
    dsimp only
    rw [if_neg hparen, if_neg hbrace]
    rfl
  | .list items =>
    have hbal : stuck (Tree.list items).print =
        balks [.paren] ((Tree.printItems items).tail ++ [')']) := rfl
    have hclose : balks [.paren] [')'] = false := by decide
    rw [hbal, balks_tail, balks_items, hclose, Bool.or_false]
    rfl
  | .node tag fields =>
    have hbal : stuck (Tree.node tag fields).print =
        balks [.brace] (tag.text ++ Tree.printFields fields ++ ['\x7d']) := rfl
    have hclose : balks [.brace] ['\x7d'] = false := by decide
    rw [hbal, List.append_assoc, balks_label tag.plain, balks_fields, hclose, Bool.or_false]
    rfl

/-! ## What a print is read as -/

/-- What ends a word follows. -/
def Breaks (rest : Text) : Prop := ∀ c ∈ rest.head?, ends c = true

theorem word_breaks (h : Breaks rest) : word rest = ([], rest) := by
  cases rest with
  | nil => rfl
  | cons c rest => exact word_stop (h c rfl) rest

theorem word_label {text : Text} (h : ∀ c ∈ text, guards c = false ∧ c ≠ ':')
    (hrest : Breaks rest) : word (text ++ rest) = (text, rest) := by
  induction text with
  | nil => exact word_breaks hrest
  | cons c text ih =>
    obtain ⟨hc, hcolon⟩ := h c List.mem_cons_self
    rw [List.cons_append, word_cons (not_slash hc) (not_ends hc hcolon),
      ih fun c' hc' => h c' (.tail _ hc')]
    rfl

theorem word_glyphs (gs : List Glyph) (hrest : Breaks rest) :
    word (printGlyphs gs ++ rest) = ((gs.map Glyph.char).takeWhile (· ≠ ':'),
      printGlyphs (gs.dropWhile (·.char ≠ ':')) ++ rest) := by
  induction gs with
  | nil => exact word_breaks hrest
  | cons g gs ih =>
    have hprinted := g.printed
    by_cases hcolon : g.char = ':'
    · have htake : ((g :: gs).map Glyph.char).takeWhile (· ≠ ':') = [] := by simp [hcolon]
      have hdrop : (g :: gs).dropWhile (·.char ≠ ':') = g :: gs := by simp [hcolon]
      rw [htake, hdrop, printGlyphs_cons, g.print_colon hcolon]
      exact word_stop (by decide) _
    · have htake : ((g :: gs).map Glyph.char).takeWhile (· ≠ ':') =
          g.char :: (gs.map Glyph.char).takeWhile (· ≠ ':') := by simp [hcolon]
      have hdrop : (g :: gs).dropWhile (·.char ≠ ':') = gs.dropWhile (·.char ≠ ':') := by
        simp [hcolon]
      rw [htake, hdrop, printGlyphs_cons]
      unfold Glyph.print
      by_cases hg : g.guarded = true
      · rw [if_pos hg]
        show word ('\\' :: g.char :: (printGlyphs gs ++ rest)) = _
        rw [word_slash, ih]
        rfl
      · rw [if_neg hg] at hprinted ⊢
        rw [List.singleton_append, word_cons (not_slash hprinted) (not_ends hprinted hcolon), ih]
        rfl

theorem read_space (chars : Text) : (read · (' ' :: chars)) = (read · chars) := by
  funext n
  cases n <;> rfl

theorem items_space (out : List Node) (chars : Text) :
    (items · out (' ' :: chars)) = (items · out chars) := by
  funext n
  cases n <;> rfl

theorem items_tail (out : List Node) (ts : List Tree) (rest : Text) :
    (items · out ((Tree.printItems ts).tail ++ rest)) =
      (items · out (Tree.printItems ts ++ rest)) := by
  cases ts with
  | nil => rfl
  | cons t ts => exact (items_space ..).symm

theorem fields_skip (tag : Text) (named : List (Text × Node)) (chars : Text) :
    (fields · tag named (skip chars)) = (fields · tag named chars) := by
  have hskip : skip (skip chars) = skip chars := by
    cases h : skip chars with
    | nil => rfl
    | cons c rest => exact skip_skip h
  funext n
  cases n with
  | zero => rfl
  | succ n => simp only [fields, hskip]

/-- What follows in a node: another field, or its end. -/
def Follows (rest : Text) : Prop :=
  Breaks rest ∧ ∃ c chars, skip rest = c :: chars ∧ (c = ':' ∨ c = '\x7d')

theorem Follows.read (h : Follows rest) :
    Comes (ViewTree.read · rest) (some (some (.word []), skip rest)) := by
  obtain ⟨-, c, chars, hskip, hc⟩ := h
  have hcomes : Comes (ViewTree.read · rest)
      (some (some (.word (word (c :: chars)).1), (word (c :: chars)).2)) := by
    rcases hc with rfl | rfl <;> exact comes_read_word hskip (by decide) (by decide)
  have hends : ends c = true := by rcases hc with rfl | rfl <;> decide
  rw [word_stop hends, ← hskip] at hcomes
  exact hcomes

/-- Behind the first colon of a field's value each piece is the name of a
field with nothing in it. -/
theorem comes_pieces {o : Option (Option Node × Text)} {tag : Text} (hrest : Follows rest)
    (gs : List Glyph) : ∀ {named : List (Text × Node)},
    Comes (fields · tag
      (named ++ (laterPieces (gs.map Glyph.char)).map (·, .word [])) rest) o →
    Comes (fields · tag named (printGlyphs (gs.dropWhile (·.char ≠ ':')) ++ rest)) o := by
  induction gs with
  | nil =>
    intro named h
    rw [show laterPieces (([] : List Glyph).map Glyph.char) = [] from rfl, List.map_nil,
      List.append_nil] at h
    exact h
  | cons g gs ih =>
    intro named h
    by_cases hcolon : g.char = ':'
    · have hdrop : (g :: gs).dropWhile (·.char ≠ ':') = g :: gs := by simp [hcolon]
      have hlater : laterPieces ((g :: gs).map Glyph.char) =
          (gs.map Glyph.char).takeWhile (· ≠ ':') :: laterPieces (gs.map Glyph.char) := by
        rw [List.map_cons, laterPieces, if_pos hcolon]
      have hword := word_glyphs gs hrest.1
      rw [hlater, List.map_cons, ← List.singleton_append, ← List.append_assoc] at h
      -- the piece is a name, and the value behind it is an empty word
      have hread : Comes (ViewTree.read · (word (printGlyphs gs ++ rest)).2)
          (some (some (.word []), skip (word (printGlyphs gs ++ rest)).2)) := by
        rw [hword]
        cases hdrop : gs.dropWhile (·.char ≠ ':') with
        | nil => exact hrest.read
        | cons g' gs' =>
          have hcolon' : g'.char = ':' := by
            have hnot := List.head?_dropWhile_not (fun g : Glyph => decide (g.char ≠ ':')) gs
            rw [hdrop] at hnot
            simpa using hnot
          have hcons : printGlyphs (g' :: gs') ++ rest =
              ':' :: (printGlyphs gs' ++ rest) := by
            rw [printGlyphs_cons, g'.print_colon hcolon']
            rfl
          refine Follows.read ⟨?_, ':', printGlyphs gs' ++ rest, ?_, .inl rfl⟩
          · rw [hcons]
            intro c hc
            obtain rfl : ':' = c := by simpa using hc
            decide
          · rw [hcons]
            exact skip_cons (by decide) _
      rw [hdrop, printGlyphs_cons, g.print_colon hcolon, List.singleton_append]
      refine comes_fields_field (skip_cons (by decide) _) hread ?_
      show Comes (fun n => fields n tag _ (skip (word (printGlyphs gs ++ rest)).2)) o
      rw [fields_skip, hword]
      exact ih h
    · have hdrop : (g :: gs).dropWhile (·.char ≠ ':') = gs.dropWhile (·.char ≠ ':') := by
        simp [hcolon]
      have hlater : laterPieces ((g :: gs).map Glyph.char) = laterPieces (gs.map Glyph.char) := by
        rw [List.map_cons, laterPieces, if_neg hcolon]
      rw [hdrop]
      rw [hlater] at h
      exact ih h

/-- What of a print is left when its tree is read. -/
def leftover : Tree → Text
  | .word token => printGlyphs (token.glyphs.dropWhile (·.char ≠ ':'))
  | _ => []

theorem leftover_nil {t : Tree} (h : colonListed true t.value = false) : leftover t = [] := by
  match t with
  | .word token =>
    have hnone : token.text.contains ':' = false := h
    have hdrop : token.glyphs.dropWhile (·.char ≠ ':') = [] := by
      rw [List.dropWhile_eq_nil_iff]
      intro g hg
      have hne : g.char ≠ ':' := by
        rintro hcolon
        rw [← Bool.not_eq_true, List.contains_iff_mem] at hnone
        exact hnone (List.mem_map.mpr ⟨g, hg, hcolon⟩)
      simpa using hne
    rw [leftover, hdrop]
    rfl
  | .list items => rfl
  | .node tag fields => rfl

theorem colonListed_mono {listed : Bool} {n : Node} (h : colonListed listed n = false) :
    colonListed false n = false := by
  cases n with
  | word text => rfl
  | list items => exact h
  | named tag fields => exact h

theorem head_print (t : Tree) (rest : Text) :
    ∃ c chars, t.print ++ rest = c :: chars ∧ isWhitespace c = false ∧ c ≠ ')' := by
  match t with
  | .word token =>
    obtain ⟨c, chars, hcons, hspace, -, hclose, -⟩ := head_glyphs token rest
    exact ⟨c, chars, hcons, hspace, hclose⟩
  | .list items => exact ⟨'(', _, rfl, by decide, by decide⟩
  | .node tag fields => exact ⟨'\x7b', _, rfl, by decide, by decide⟩

theorem follows_fields (fs : List (Label × Tree)) (rest : Text) :
    Follows (Tree.printFields fs ++ '\x7d' :: rest) := by
  cases fs with
  | nil =>
    refine ⟨fun c hc => ?_, '\x7d', rest, skip_cons (by decide) _, .inr rfl⟩
    obtain rfl : '\x7d' = c := by simpa [Tree.printFields] using hc
    decide
  | cons f fs =>
    refine ⟨fun c hc => ?_, ':', _, rfl, .inl rfl⟩
    obtain rfl : ' ' = c := by simpa [Tree.printFields] using hc
    decide

theorem breaks_items (ts : List Tree) (rest : Text) :
    Breaks (Tree.printItems ts ++ ')' :: rest) := by
  intro c hc
  cases ts with
  | nil =>
    obtain rfl : ')' = c := by simpa [Tree.printItems] using hc
    decide
  | cons t ts =>
    obtain rfl : ' ' = c := by simpa [Tree.printItems] using hc
    decide

mutual

theorem read_print (t : Tree) (hcolon : colonListed false t.value = false) {rest : Text}
    (hrest : Breaks rest) :
    Comes (read · (t.print ++ rest)) (some (some (misread t.value), leftover t ++ rest)) := by
  match t with
  | .word token =>
    obtain ⟨c, chars, hcons, hspace, hparen, -, hbrace⟩ := head_glyphs token rest
    have hcomes := comes_read_word (skip_cons hspace chars) hparen hbrace
    rw [← hcons, word_glyphs _ hrest] at hcomes
    exact hcomes
  | .list ts =>
    have hprint : (Tree.list ts).print ++ rest =
        '(' :: ((Tree.printItems ts).tail ++ ')' :: rest) := by
      rw [Tree.print, List.cons_append, List.append_assoc]
      rfl
    rw [hprint]
    refine comes_read_list (skip_cons (by decide) _) ?_
    rw [items_tail]
    exact items_print ts hcolon rest []
  | .node tag fs =>
    have hprint : (Tree.node tag fs).print ++ rest =
        '\x7b' :: (tag.text ++ (Tree.printFields fs ++ '\x7d' :: rest)) := by
      rw [Tree.print, List.cons_append, List.append_assoc, List.append_assoc]
      rfl
    rw [hprint]
    refine comes_read_node (skip_cons (by decide) _) ?_
    rw [word_label tag.plain (follows_fields fs rest).1]
    exact fields_print fs hcolon rest tag.text []

theorem items_print (ts : List Tree) (hcolon : colonsListed (Tree.values ts) = false) (rest : Text)
    (out : List Node) : Comes (items · out (Tree.printItems ts ++ ')' :: rest))
      (some (some (.list (out ++ misreadItems (Tree.values ts))), rest)) := by
  match ts with
  | [] =>
    rw [Tree.values, misreadItems, List.append_nil]
    exact comes_items_close (skip_cons (by decide) _)
  | t :: ts =>
    obtain ⟨ht, hts⟩ := Bool.or_eq_false_iff.mp hcolon
    have hbreaks := breaks_items ts rest
    obtain ⟨c, chars, hcons, hspace, hclose⟩ := head_print t
      (Tree.printItems ts ++ ')' :: rest)
    have hread := read_print t (colonListed_mono ht) hbreaks
    rw [leftover_nil ht, List.nil_append, hcons] at hread
    have hmore := items_print ts hts rest (out ++ [misread t.value])
    rw [List.append_assoc, List.singleton_append] at hmore
    rw [Tree.printItems, List.cons_append, List.append_assoc, items_space, hcons]
    refine comes_items_item (skip_cons hspace chars) hclose hread ?_
    exact hmore

theorem fields_print (fs : List (Label × Tree)) (hcolon : colonFields (Tree.fieldValues fs) = false)
    (rest tag : Text) (named : List (Text × Node)) :
    Comes (fields · tag named (Tree.printFields fs ++ '\x7d' :: rest))
      (some (some (.named tag (named ++ misreadFields (Tree.fieldValues fs))), rest)) := by
  match fs with
  | [] =>
    rw [Tree.fieldValues, misreadFields, List.append_nil]
    exact comes_fields_close (skip_cons (by decide) _)
  | (name, t) :: fs =>
    obtain ⟨ht, hfs⟩ := Bool.or_eq_false_iff.mp hcolon
    have hfollows := follows_fields fs rest
    have hread := read_print t ht hfollows.1
    rw [← read_space] at hread
    have hbreaks : Breaks (' ' :: (t.print ++ (Tree.printFields fs ++ '\x7d' :: rest))) := by
      intro c hc
      obtain rfl : ' ' = c := by simpa using hc
      decide
    have hmore := fields_print fs hfs rest tag
      (named ++ (name.text, misread t.value) :: shadows t.value)
    have hprint : Tree.printFields ((name, t) :: fs) ++ '\x7d' :: rest =
        ' ' :: ':' :: (name.text ++
          ' ' :: (t.print ++ (Tree.printFields fs ++ '\x7d' :: rest))) := by
      simp [Tree.printFields]
    rw [hprint]
    refine comes_fields_field (skip_cons (c := ':') (by decide) _) (by
      rw [word_label name.plain hbreaks]
      exact hread) ?_
    rw [word_label name.plain hbreaks]
    show Comes (fun n => fields n tag _ _) _
    have hall : named ++ misreadFields (Tree.fieldValues ((name, t) :: fs)) =
        named ++ (name.text, misread t.value) :: shadows t.value
          ++ misreadFields (Tree.fieldValues fs) := by
      simp [Tree.fieldValues, misreadFields]
    rw [hall]
    -- a word leaves what stands behind its first colon
    match t with
    | .word token =>
      refine comes_pieces hfollows token.glyphs ?_
      rw [List.append_assoc]
      exact hmore
    | .list items => exact hmore
    | .node tag' fs' => exact hmore

end

end ViewTree

end Zou.Rest
