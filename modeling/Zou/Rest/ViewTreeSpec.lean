import Zou.Lib.Fuel
import Zou.Rest.ViewTree

/-!
# Which trees the reader gets through

In a list nothing takes a colon or a closing brace, and in a node nothing
takes a closing parenthesis: the loop there asks for one more thing, is
given an empty word and is where it was. `balks` follows a text with a
stack of the brackets open in it and says whether that comes up, and a
text comes to an end where it does not.
-/

namespace Zou.Rest

namespace ViewTree

open Fuel

inductive Bracket where
  | paren
  | brace
  deriving DecidableEq

/-- Whether the text, behind the brackets that are open, holds a character
its bracket has no use for before the outermost of them closes. -/
def balks : List Bracket → Text → Bool
  | [], _ => false
  | _ :: _, [] => false
  | top :: open_, c :: chars =>
    if c = '\\' then
      match chars with
      | [] => false
      | _ :: chars => balks (top :: open_) chars
    else if c = '(' then balks (.paren :: top :: open_) chars
    else if c = '\x7b' then balks (.brace :: top :: open_) chars
    else if c = ')' then top = .brace || balks open_ chars
    else if c = '\x7d' then top = .paren || balks open_ chars
    else if c = ':' then top = .paren || balks (top :: open_) chars
    else balks (top :: open_) chars

/-- Whether the reader is stuck in a text. -/
def stuck (text : Text) : Bool :=
  match skip text with
  | [] => false
  | c :: chars =>
    if c = '(' then balks [.paren] chars
    else if c = '\x7b' then balks [.brace] chars
    else false

/-! ## Words and spaces -/

@[simp] theorem balks_nil (stack : List Bracket) : balks stack [] = false := by
  cases stack <;> rfl

@[simp] theorem balks_closed (chars : Text) : balks [] chars = false := by
  cases chars <;> rfl

theorem ends_slash : ends '\\' = false := by decide

variable {c : Char}

theorem balks_plain (hslash : c ≠ '\\')
    (hc : c ∉ ['(', ')', '\x7b', '\x7d', ':']) (top : Bracket) (stack : List Bracket)
    (chars : Text) : balks (top :: stack) (c :: chars) = balks (top :: stack) chars := by
  simp only [List.mem_cons, List.not_mem_nil, or_false, not_or] at hc
  obtain ⟨h1, h2, h3, h4, h5⟩ := hc
  rw [balks.eq_def]
  dsimp only
  rw [if_neg hslash, if_neg h1, if_neg h3, if_neg h2, if_neg h4, if_neg h5]

theorem balks_skip (top : Bracket) (stack : List Bracket) (chars : Text) :
    balks (top :: stack) (skip chars) = balks (top :: stack) chars := by
  induction chars with
  | nil => rfl
  | cons c chars ih =>
    unfold skip at ih ⊢
    by_cases h : isWhitespace c = true
    · have hslash : c ≠ '\\' := by
        rintro rfl
        revert h
        decide
      have hc : c ∉ ['(', ')', '\x7b', '\x7d', ':'] := by
        simp only [List.mem_cons, List.not_mem_nil, or_false]
        rintro (rfl | rfl | rfl | rfl | rfl) <;>
        · revert h
          decide
      rw [List.dropWhile_cons_of_pos h, ih, balks_plain hslash hc]
    · rw [List.dropWhile_cons_of_neg h]

theorem word_cons (hslash : c ≠ '\\') (hends : ends c = false) (chars : Text) :
    word (c :: chars) = (word chars).map (c :: ·) id := by
  rw [word.eq_def]
  dsimp only
  rw [if_neg hslash, hends]
  rfl

theorem word_stop (hends : ends c = true) (chars : Text) :
    word (c :: chars) = ([], c :: chars) := by
  have hslash : c ≠ '\\' := by
    rintro rfl
    rw [ends_slash] at hends
    cases hends
  rw [word.eq_def]
  dsimp only
  rw [if_neg hslash, if_pos hends]

theorem word_slash (d : Char) (chars : Text) :
    word ('\\' :: d :: chars) = (word chars).map (d :: ·) id := by
  rw [word, if_pos rfl]

theorem balks_word (top : Bracket) (stack : List Bracket) (chars : Text) :
    balks (top :: stack) (word chars).2 = balks (top :: stack) chars := by
  fun_induction word chars with
  | case1 => rfl
  | case2 => rfl
  | case3 c chars ih =>
    rw [balks, if_pos rfl]
    exact ih
  | case4 c chars hslash hends => rfl
  | case5 c chars hslash hends ih =>
    have hc : c ∉ ['(', ')', '\x7b', '\x7d', ':'] := by
      intro hmem
      exact hends (by simp [ends, hmem])
    rw [balks_plain hslash hc]
    exact ih

theorem word_length (chars : Text) : (word chars).2.length ≤ chars.length := by
  fun_induction word chars with
  | case1 => exact le_rfl
  | case2 => exact Nat.zero_le _
  | case3 c chars ih => exact Nat.le_succ_of_le (Nat.le_succ_of_le ih)
  | case4 c chars hslash hends => exact le_rfl
  | case5 c chars hslash hends ih => exact Nat.le_succ_of_le ih

/-- A word takes what it begins with, unless that ends it. -/
theorem word_lt (h : ends c = false) (chars : Text) :
    (word (c :: chars)).2.length < (c :: chars).length := by
  by_cases hslash : c = '\\'
  · subst hslash
    cases chars with
    | nil => exact Nat.zero_lt_one
    | cons d chars => exact Nat.lt_succ_of_le (Nat.le_succ_of_le (word_length chars))
  · rw [word_cons hslash h]
    exact Nat.lt_succ_of_le (word_length chars)

theorem skip_length (chars : Text) : (skip chars).length ≤ chars.length :=
  (List.dropWhile_sublist _).length_le

theorem skip_head {chars rest : Text} (h : skip chars = c :: rest) : isWhitespace c = false := by
  have hhead := List.head?_dropWhile_not isWhitespace chars
  unfold skip at h
  rw [h] at hhead
  simpa using hhead

theorem skip_skip {chars rest : Text} (h : skip chars = c :: rest) : skip (c :: rest) = c :: rest :=
  List.dropWhile_cons_of_neg (by simp [skip_head h])

/-! ## What comes of the reader -/

/-- What one more reading makes of what comes of another. -/
def Then (o : Option (Option Node × Text)) (go : Node → Text → Nat → Option (Option Node × Text))
    (o' : Option (Option Node × Text)) : Prop :=
  match o with
  | none => o' = none
  | some (none, rest) => o' = some (none, rest)
  | some (some node, rest) => Comes (go node rest) o'

theorem comes_orEnd {f : Nat → Option (Option Node × Text)} {o o' : Option (Option Node × Text)}
    {go : Node → Text → Nat → Option (Option Node × Text)} (hf : Comes f o) (h : Then o go o') :
    Comes (fun n => (f n).bind fun r => orEnd r fun node chars => go node chars n) o' := by
  match o with
  | none =>
    obtain rfl : o' = none := h
    exact hf.bind_none
  | some (none, rest) =>
    obtain rfl : o' = some (none, rest) := h
    exact hf.bind ⟨fun _ => .inr rfl, 0, fun _ _ => rfl⟩
  | some (some node, rest) => exact hf.bind h

variable {chars rest : Text} {c : Char} {o o' : Option (Option Node × Text)} {out : List Node}
  {tag : Text} {named : List (Text × Node)}

theorem comes_read_nil (h : skip chars = []) : Comes (read · chars) (some (none, [])) :=
  .now rfl fun n => by simp only [read_succ, h]

theorem comes_read_list (h : skip chars = '(' :: rest) (hi : Comes (items · [] rest) o) :
    Comes (read · chars) o :=
  .succ rfl (fun n => by simp only [read_succ, h, if_true]) hi

theorem comes_read_node (h : skip chars = '\x7b' :: rest)
    (hf : Comes (fields · (word rest).1 [] (word rest).2) o) : Comes (read · chars) o :=
  .succ rfl (fun n => by simp [read_succ, h]) hf

theorem comes_read_word (h : skip chars = c :: rest) (hparen : c ≠ '(') (hbrace : c ≠ '\x7b') :
    Comes (read · chars) (some (some (.word (word (c :: rest)).1), (word (c :: rest)).2)) :=
  .now rfl fun n => by simp only [read_succ, h, if_neg hparen, if_neg hbrace]

theorem comes_items_nil (h : skip chars = []) :
    Comes (items · out chars) (some (some (.list out), [])) :=
  .now rfl fun n => by simp only [items_succ, h]

theorem comes_items_close (h : skip chars = ')' :: rest) :
    Comes (items · out chars) (some (some (.list out), rest)) :=
  .now rfl fun n => by simp only [items_succ, h, if_true]

theorem comes_items_item (h : skip chars = c :: rest) (hc : c ≠ ')')
    (hr : Comes (read · (c :: rest)) o)
    (ht : Then o (fun item chars n => items n (out ++ [item]) chars) o') :
    Comes (items · out chars) o' :=
  .succ rfl (fun n => by simp only [items_succ, h, if_neg hc]) (comes_orEnd hr ht)

theorem comes_fields_nil (h : skip chars = []) :
    Comes (fields · tag named chars) (some (some (.named tag named), [])) :=
  .now rfl fun n => by simp only [fields_succ, h]

theorem comes_fields_close (h : skip chars = '\x7d' :: rest) :
    Comes (fields · tag named chars) (some (some (.named tag named), rest)) :=
  .now rfl fun n => by simp only [fields_succ, h, if_true]

theorem comes_fields_field (h : skip chars = ':' :: rest) (hr : Comes (read · (word rest).2) o)
    (ht : Then o (fun value chars n => fields n tag (named ++ [((word rest).1, value)]) chars) o') :
    Comes (fields · tag named chars) o' :=
  .succ rfl (fun n => by simp [fields_succ, h]) (comes_orEnd hr ht)

theorem comes_fields_other (h : skip chars = c :: rest) (hbrace : c ≠ '\x7d') (hcolon : c ≠ ':')
    (hr : Comes (read · (c :: rest)) o)
    (ht : Then o (fun _ chars n => fields n tag named chars) o') :
    Comes (fields · tag named chars) o' :=
  .succ rfl (fun n => by simp only [fields_succ, h, if_neg hbrace, if_neg hcolon]) (comes_orEnd hr ht)

/-! ## Loops that stand still -/

theorem read_still {fuel : Nat} (h : skip (c :: rest) = c :: rest) (hends : ends c = true)
    (hparen : c ≠ '(') (hbrace : c ≠ '\x7b') :
    read (fuel + 1) (c :: rest) = some (some (.word []), c :: rest) := by
  simp only [read_succ, h, if_neg hparen, if_neg hbrace, word_stop hends]

theorem items_stuck (hc : c = '\x7d' ∨ c = ':') (n : Nat) :
    ∀ {out chars}, skip chars = c :: rest → items n out chars = none := by
  induction n with
  | zero => exact fun _ => rfl
  | succ n ih =>
    intro out chars h
    have hne : c ≠ ')' ∧ c ≠ '(' ∧ c ≠ '\x7b' ∧ ends c = true := by
      rcases hc with rfl | rfl <;> decide
    obtain ⟨h1, h2, h3, h4⟩ := hne
    simp only [items_succ, h, if_neg h1]
    cases n with
    | zero => rfl
    | succ n =>
      rw [read_still (skip_skip h) h4 h2 h3]
      exact ih (skip_skip h)

theorem fields_stuck (n : Nat) :
    ∀ {tag named chars}, skip chars = ')' :: rest → fields n tag named chars = none := by
  induction n with
  | zero => exact fun _ => rfl
  | succ n ih =>
    intro tag named chars h
    have h1 : (')' : Char) ≠ '\x7d' := by decide
    have h2 : (')' : Char) ≠ ':' := by decide
    simp only [fields_succ, h, if_neg h1, if_neg h2]
    cases n with
    | zero => rfl
    | succ n =>
      rw [read_still (skip_skip h) (by decide) (by decide) (by decide)]
      exact ih (skip_skip h)

/-! ## How the reader goes through a text -/

/-- The reader comes to an end within `k` characters of the end of the text
and the brackets open then are `after`, or to none and the text balks. -/
def Goes (f : Nat → Option (Option Node × Text)) (before after : List Bracket → List Bracket)
    (chars : Text) (k : Nat) : Prop :=
  (∃ r rest, Comes f (some (r, rest)) ∧ rest.length ≤ k ∧ (r = none → rest = [])
      ∧ ∀ stack, balks (before stack) chars = balks (after stack) rest)
    ∨ Comes f none ∧ ∀ stack, balks (before stack) chars = true

variable {f F : Nat → Option (Option Node × Text)}
  {before before' mid after : List Bracket → List Bracket} {chars' : Text} {k k' : Nat}

theorem Goes.of (h : Goes f before after chars k) (hr : ∀ {o}, Comes f o → Comes F o) (hk : k ≤ k')
    (hb : ∀ stack, balks (before' stack) chars' = balks (before stack) chars) :
    Goes F before' after chars' k' := by
  rcases h with ⟨r, rest, hc, hlen, hnone, hbal⟩ | ⟨hc, hbal⟩
  · exact .inl ⟨r, rest, hr hc, Nat.le_trans hlen hk, hnone,
      fun stack => (hb stack).trans (hbal stack)⟩
  · exact .inr ⟨hr hc, fun stack => (hb stack).trans (hbal stack)⟩

theorem Goes.under (h : Goes f before after chars k) (top : Bracket) :
    Goes f (fun stack => before (top :: stack)) (fun stack => after (top :: stack)) chars k := by
  rcases h with ⟨r, rest, hc, hlen, hnone, hbal⟩ | ⟨hc, hbal⟩
  · exact .inl ⟨r, rest, hc, hlen, hnone, fun stack => hbal (top :: stack)⟩
  · exact .inr ⟨hc, fun stack => hbal (top :: stack)⟩

theorem Goes.andThen (go : Node → Text → Nat → Option (Option Node × Text)) (k' : Nat)
    (hf : Goes f before mid chars k)
    (hgo : ∀ node rest, rest.length ≤ k → Goes (go node rest) mid after rest k')
    (hr : ∀ {o o'}, Comes f o → Then o go o' → Comes F o') : Goes F before after chars k' := by
  rcases hf with ⟨r, rest, hc, hlen, hnone, hbal⟩ | ⟨hc, hbal⟩
  · cases r with
    | none =>
      obtain rfl := hnone rfl
      refine .inl ⟨none, [], hr hc rfl, Nat.zero_le _, fun _ => rfl, fun stack => ?_⟩
      rw [hbal, balks_nil, balks_nil]
    | some node =>
      rcases hgo node rest hlen with ⟨r, rest', hc', hlen', hnone', hbal'⟩ | ⟨hc', hbal'⟩
      · exact .inl ⟨r, rest', hr hc hc', hlen', hnone',
          fun stack => (hbal stack).trans (hbal' stack)⟩
      · exact .inr ⟨hr hc hc', fun stack => (hbal stack).trans (hbal' stack)⟩
  · exact .inr ⟨hr hc rfl, hbal⟩

/-- Both loops go through every text of at most that length. -/
def GoThrough (k : Nat) : Prop :=
  ∀ chars : Text, chars.length ≤ k →
    (∀ out, Goes (items · out chars) (.paren :: ·) id chars chars.length)
      ∧ ∀ tag named, Goes (fields · tag named chars) (.brace :: ·) id chars chars.length

theorem goes_read (hall : GoThrough k) (top : Bracket) (hlen : chars.length ≤ k + 1) :
    ∃ k' ≤ chars.length, (∀ c rest, skip chars = c :: rest → c ∉ [')', '\x7d', ':'] →
        k' < chars.length)
      ∧ Goes (read · chars) (top :: ·) (top :: ·) chars k' := by
  have hskip : ∀ stack, balks (top :: stack) chars = balks (top :: stack) (skip chars) :=
    fun stack => (balks_skip top stack chars).symm
  cases h : skip chars with
  | nil =>
    refine ⟨0, Nat.zero_le _, nofun, .inl
      ⟨none, [], comes_read_nil h, le_rfl, fun _ => rfl, fun stack => ?_⟩⟩
    rw [hskip, h]
  | cons c rest =>
    have hrest : rest.length + 1 ≤ chars.length := by
      have hle := skip_length chars
      rwa [h] at hle
    by_cases hparen : c = '('
    · subst hparen
      refine ⟨rest.length, by omega, fun _ _ _ _ => by omega, ?_⟩
      refine (((hall rest (by omega)).1 []).under top).of (comes_read_list h) le_rfl
        fun stack => ?_
      rw [hskip, h, balks.eq_def]
      rfl
    · by_cases hbrace : c = '\x7b'
      · subst hbrace
        have hword := word_length rest
        refine ⟨(word rest).2.length, by omega, fun _ _ _ _ => by omega, ?_⟩
        refine (((hall (word rest).2 (by omega)).2 _ _).under top).of (comes_read_node h)
          le_rfl fun stack => ?_
        rw [hskip, h, balks_word, balks.eq_def]
        rfl
      · have hcomes := comes_read_word h hparen hbrace
        refine ⟨(word (c :: rest)).2.length, Nat.le_trans (word_length _) hrest, ?_,
          .inl ⟨_, _, hcomes, le_rfl, nofun, fun stack => ?_⟩⟩
        · intro c' rest' heq hc
          obtain ⟨rfl, rfl⟩ := List.cons.inj heq
          have hends : ends c = false := by
            simp only [List.mem_cons, List.not_mem_nil, or_false, not_or] at hc
            simp [ends, skip_head h, hparen, hbrace, hc.1, hc.2.1, hc.2.2]
          exact Nat.lt_of_lt_of_le (word_lt hends rest) hrest
        · rw [hskip, h, balks_word]

theorem goes_items (hall : GoThrough k) (hlen : chars.length ≤ k + 1) (out : List Node) :
    Goes (items · out chars) (.paren :: ·) id chars chars.length := by
  have hskip : ∀ stack, balks (.paren :: stack) chars = balks (.paren :: stack) (skip chars) :=
    fun stack => (balks_skip .paren stack chars).symm
  have hle := skip_length chars
  cases h : skip chars with
  | nil =>
    refine .inl ⟨_, _, comes_items_nil h, Nat.zero_le _, nofun,
      fun stack => ?_⟩
    rw [hskip, h, balks_nil, balks_nil]
  | cons c rest =>
    rw [h, List.length_cons] at hle
    by_cases hclose : c = ')'
    · subst hclose
      refine .inl ⟨_, _, comes_items_close h, by omega, nofun,
        fun stack => ?_⟩
      rw [hskip, h, balks.eq_def]
      rfl
    · by_cases hstuck : c = '\x7d' ∨ c = ':'
      · refine .inr ⟨.hangs fun n => items_stuck hstuck n h, fun stack => ?_⟩
        rw [hskip, h, balks.eq_def]
        rcases hstuck with rfl | rfl <;> rfl
      · have hc : c ∉ [')', '\x7d', ':'] := by
          simp only [List.mem_cons, List.not_mem_nil, or_false, not_or] at hstuck ⊢
          exact ⟨hclose, hstuck⟩
        have hcons : (c :: rest).length ≤ k + 1 := Nat.le_trans hle hlen
        obtain ⟨k', -, hlt, hread⟩ := goes_read hall .paren hcons
        have hk' : k' < rest.length + 1 := hlt c rest (skip_skip h) hc
        refine (hread.andThen (fun item chars n => items n (out ++ [item]) chars)
          chars.length (fun item rest' hrest' => ?_)
          (comes_items_item h hclose)).of id le_rfl fun stack => ?_
        · exact ((hall rest' (by omega)).1 _).of id (by omega) fun _ => rfl
        · rw [hskip, h]

theorem goes_fields (hall : GoThrough k) (hlen : chars.length ≤ k + 1) (tag : Text)
    (named : List (Text × Node)) :
    Goes (fields · tag named chars) (.brace :: ·) id chars chars.length := by
  have hskip : ∀ stack, balks (.brace :: stack) chars = balks (.brace :: stack) (skip chars) :=
    fun stack => (balks_skip .brace stack chars).symm
  have hle := skip_length chars
  cases h : skip chars with
  | nil =>
    refine .inl ⟨_, _, comes_fields_nil h, Nat.zero_le _, nofun,
      fun stack => ?_⟩
    rw [hskip, h, balks_nil, balks_nil]
  | cons c rest =>
    rw [h, List.length_cons] at hle
    by_cases hclose : c = '\x7d'
    · subst hclose
      refine .inl ⟨_, _, comes_fields_close h, by omega, nofun,
        fun stack => ?_⟩
      rw [hskip, h, balks.eq_def]
      rfl
    · by_cases hcolon : c = ':'
      · subst hcolon
        have hword := word_length rest
        have hlen' : (word rest).2.length ≤ k + 1 := by omega
        obtain ⟨k', hk', -, hread⟩ := goes_read hall .brace hlen'
        refine (hread.andThen
          (fun value chars n => fields n tag (named ++ [((word rest).1, value)]) chars)
          chars.length (fun value rest' hrest' => ?_)
          (comes_fields_field h)).of id le_rfl fun stack => ?_
        · exact ((hall rest' (by omega)).2 _ _).of id (by omega) fun _ => rfl
        · rw [hskip, h, balks_word, balks.eq_def]
          rfl
      · by_cases hstuck : c = ')'
        · subst hstuck
          refine .inr ⟨.hangs fun n => fields_stuck n h, fun stack => ?_⟩
          rw [hskip, h, balks.eq_def]
          rfl
        · have hc : c ∉ [')', '\x7d', ':'] := by
            simp only [List.mem_cons, List.not_mem_nil, or_false, not_or]
            exact ⟨hstuck, hclose, hcolon⟩
          have hcons : (c :: rest).length ≤ k + 1 := Nat.le_trans hle hlen
          obtain ⟨k', -, hlt, hread⟩ := goes_read hall .brace hcons
          have hk' : k' < rest.length + 1 := hlt c rest (skip_skip h) hc
          refine (hread.andThen (fun _ chars n => fields n tag named chars)
            chars.length (fun _ rest' hrest' => ?_)
            (comes_fields_other h hclose hcolon)).of id le_rfl fun stack => ?_
          · exact ((hall rest' (by omega)).2 _ _).of id (by omega) fun _ => rfl
          · rw [hskip, h]

theorem goThrough (k : Nat) : GoThrough k := by
  induction k with
  | zero =>
    intro chars hlen
    obtain rfl := List.length_eq_zero_iff.mp (Nat.le_zero.mp hlen)
    constructor
    · exact fun out => .inl ⟨_, _, comes_items_nil rfl, le_rfl,
        nofun, fun stack => (balks_nil _).trans (balks_nil _).symm⟩
    · exact fun tag named => .inl ⟨_, _, comes_fields_nil rfl, le_rfl,
        nofun, fun stack => (balks_nil _).trans (balks_nil _).symm⟩
  | succ k ih => exact fun chars hlen => ⟨goes_items ih hlen, goes_fields ih hlen⟩

/-! ## Main result on texts -/

/-- A text is read to an end unless the reader is stuck in it, and then no
fuel is enough. -/
theorem read_spec (text : Text) : (stuck text = false ∧ ∃ v, Comes (read · text) (some v))
      ∨ stuck text = true ∧ Comes (read · text) none := by
  unfold stuck
  cases h : skip text with
  | nil => exact .inl ⟨rfl, _, comes_read_nil h⟩
  | cons c rest =>
    dsimp only
    by_cases hparen : c = '('
    · subst hparen
      rw [if_pos rfl]
      rcases (goThrough rest.length rest le_rfl).1 [] with
        ⟨r, rest', hc, -, -, hbal⟩ | ⟨hc, hbal⟩
      · exact .inl ⟨(hbal []).trans (balks_closed _), _, comes_read_list h hc⟩
      · exact .inr ⟨hbal [], comes_read_list h hc⟩
    · rw [if_neg hparen]
      by_cases hbrace : c = '\x7b'
      · subst hbrace
        rw [if_pos rfl]
        rcases (goThrough _ (word rest).2 le_rfl).2 (word rest).1 [] with
          ⟨r, rest', hc, -, -, hbal⟩ | ⟨hc, hbal⟩
        · refine .inl ⟨?_, _, comes_read_node h hc⟩
          rw [← balks_word]
          exact (hbal []).trans (balks_closed _)
        · refine .inr ⟨?_, comes_read_node h hc⟩
          rw [← balks_word]
          exact hbal []
      · rw [if_neg hbrace]
        exact .inl ⟨rfl, _, comes_read_word h hparen hbrace⟩

theorem comes_origins {text : Text} {o : Option (Option Node × Text)} (h : Comes (read · text) o) :
    Comes (origins · text)
      (o.map fun r => (targetList (r.1.getD (.word []))).filterMap origin) := by
  have hmap := (h.map fun r => r.1.getD (.word [])).map fun root =>
    (targetList root).filterMap origin
  rw [Option.map_map] at hmap
  exact hmap

theorem origins_ends_iff (text : Text) :
    (∃ fuel, (origins fuel text).isSome) ↔ stuck text = false := by
  rcases read_spec text with ⟨hstuck, v, hc⟩ | ⟨hstuck, hc⟩
  · rw [(comes_origins hc).isSome_iff, hstuck]
    simp
  · rw [(comes_origins hc).isSome_iff, hstuck]
    simp

end ViewTree

end Zou.Rest
