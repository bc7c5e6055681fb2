import Zou.GcLock
import Zou.Lib.Base64
import Zou.Rest.BodySpec

/-!
# The metadata of an upload

The header is names with a base64 value behind a space, between commas. A
head hands it back with a `cacheControl` on the end where nobody sent one.
What is read of a header has names that are written the way they are read,
so reading what is handed back gives the same list, and it is handed back
the same from then on.
-/

namespace Zou.Tus

open GcLock (isWhitespace trimText splitOnce_none mem_trimText)
open Rest (Text utf8 fromUtf8)

def cacheControl : Text := "cacheControl".toList

def noCache : Text := "no-cache".toList

section Model

variable (base64 : Base64)

/-- A pair of the header, nothing where it is blank. -/
def pairIn (pair : Text) : Option (Text × Text) :=
  let pair := trimText pair
  if pair = [] then none
  else
    let (name, value) := match splitOnce ' ' pair with
      | some (name, value) => (trimText name, trimText value)
      | none => (pair, [])
    some (name, ((base64.decode value).bind fromUtf8).getD [])

def metadataIn (header : Text) : List (Text × Text) :=
  (header.splitOn ',').filterMap (pairIn base64)

/-- The metadata with the `cacheControl` that nobody sent. -/
def withCache (pairs : List (Text × Text)) : List (Text × Text) :=
  if pairs.any (·.1 = cacheControl) then pairs else pairs ++ [(cacheControl, noCache)]

def writtenPair (pair : Text × Text) : Text :=
  pair.1 ++ ' ' :: base64.encode (utf8 pair.2)

def writtenMetadata (pairs : List (Text × Text)) : Text :=
  [','].intercalate ((withCache pairs).map (writtenPair base64))

end Model

/-! ## Trimming -/

/-- A text that starts and ends with no blank. -/
def Trimmed (s : Text) : Prop :=
  (∀ c, s.head? = some c → isWhitespace c = false)
    ∧ ∀ c, s.getLast? = some c → isWhitespace c = false

theorem dropWhile_head {s : Text} (h : ∀ c, s.head? = some c → isWhitespace c = false) :
    s.dropWhile isWhitespace = s := by
  cases s with
  | nil => rfl
  | cons c s =>
    have hc := h c rfl
    exact List.dropWhile_cons_of_neg (by rw [hc]; exact Bool.false_ne_true)

theorem trimText_of_trimmed {s : Text} (h : Trimmed s) : trimText s = s := by
  unfold trimText
  rw [dropWhile_head h.1, dropWhile_head, List.reverse_reverse]
  intro c hc
  rw [List.head?_reverse] at hc
  exact h.2 c hc

theorem head_dropWhile {s : Text} {c : Char}
    (h : (s.dropWhile isWhitespace).head? = some c) : isWhitespace c = false := by
  have hnot := List.head?_dropWhile_not isWhitespace s
  rw [h] at hnot
  simpa using hnot

theorem trimmed_trimText (s : Text) : Trimmed (trimText s) := by
  unfold trimText
  constructor
  · intro c hc
    rw [List.head?_reverse] at hc
    -- the last of what is left of the reverse is the last of the reverse
    have hsuffix := List.dropWhile_suffix (l := (s.dropWhile isWhitespace).reverse) isWhitespace
    obtain ⟨front, hfront⟩ := hsuffix
    have hlast : (s.dropWhile isWhitespace).reverse.getLast? = some c := by
      rw [← hfront, List.getLast?_append, hc]
      rfl
    rw [List.getLast?_reverse] at hlast
    exact head_dropWhile hlast
  · intro c hc
    rw [List.getLast?_reverse] at hc
    exact head_dropWhile hc

/-! ## Names -/

/-- A name that is read as it is written. -/
structure IsName (name : Text) : Prop where
  ne_nil : name ≠ []
  comma : ',' ∉ name
  blank : ' ' ∉ name
  trimmed : Trimmed name

/-- Trimming the front of a trimmed text leaves its first character. -/
theorem isName_of_pair {pair name value : Text} (hpair : Trimmed pair) (hcomma : ',' ∉ pair)
    (h : splitOnce ' ' pair = some (name, value)) : IsName (trimText name) := by
  obtain ⟨rfl, hblank⟩ := splitOnce_spec h
  have hfirst : ∀ c, name.head? = some c → isWhitespace c = false := by
    intro c hc
    refine hpair.1 c ?_
    rw [List.head?_append, hc]
    rfl
  have hne : name ≠ [] := by
    rintro rfl
    have hspace := hpair.1 ' ' rfl
    revert hspace
    decide
  refine ⟨?_, fun hmem => hcomma (List.mem_append_left _ (mem_trimText hmem)),
    fun hmem => hblank (mem_trimText hmem), trimmed_trimText name⟩
  obtain ⟨c, cs, rfl⟩ := List.exists_cons_of_ne_nil hne
  intro hnil
  unfold trimText at hnil
  rw [dropWhile_head hfirst, List.reverse_eq_nil_iff, List.dropWhile_eq_nil_iff] at hnil
  have hwhite := hnil c (List.mem_reverse.mpr List.mem_cons_self)
  rw [hfirst c rfl] at hwhite
  cases hwhite

theorem pairIn_name {base64 : Base64} {pair : Text} {p : Text × Text} (hcomma : ',' ∉ pair)
    (h : pairIn base64 pair = some p) : IsName p.1 := by
  have htrim := trimmed_trimText pair
  have hcomma' : ',' ∉ trimText pair := fun hmem => hcomma (mem_trimText hmem)
  unfold pairIn at h
  dsimp only at h
  split at h
  · cases h
  · rename_i hne
    cases h
    split
    · rename_i name value hsplit
      exact isName_of_pair htrim hcomma' hsplit
    · rename_i hsplit
      exact ⟨hne, hcomma', not_mem_of_splitOnce hsplit, htrim⟩

/-- What is read of a header has names that are read as they are written. -/
theorem metadataIn_names (base64 : Base64) (header : Text) :
    ∀ p ∈ metadataIn base64 header, IsName p.1 := by
  intro p hp
  obtain ⟨pair, hpair, hin⟩ := List.mem_filterMap.mp hp
  exact pairIn_name (not_mem_splitOn ',' header pair hpair) hin

/-! ## Reading what is written -/

theorem sign_range {c : Char} (h : Base64.isSign c = true) : 33 ≤ c.toNat ∧ c.toNat ≤ 122 := by
  simp only [Base64.isSign, Bool.or_eq_true, decide_eq_true_eq] at h
  rcases h with ((h | rfl) | rfl) | rfl
  · delta Char.isAlphanum Char.isAlpha Char.isUpper Char.isLower Char.isDigit at h
    simp only [Bool.or_eq_true, Bool.and_eq_true, decide_eq_true_eq,
      UInt32.le_iff_toNat_le] at h
    change ((65 ≤ c.toNat ∧ c.toNat ≤ 90) ∨ 97 ≤ c.toNat ∧ c.toNat ≤ 122)
      ∨ 48 ≤ c.toNat ∧ c.toNat ≤ 57 at h
    omega
  all_goals decide

theorem sign_marks {c : Char} (h : Base64.isSign c = true) :
    isWhitespace c = false ∧ c ≠ ',' ∧ c ≠ ' ' := by
  have hrange := sign_range h
  have hne : ∀ d : Char, Base64.isSign d = false → c ≠ d := by
    rintro d hd rfl
    rw [hd] at h
    cases h
  refine ⟨?_, hne ',' (by decide), hne ' ' (by decide)⟩
  unfold isWhitespace
  simp
  omega

theorem encode_trimmed (base64 : Base64) (bytes : List UInt8) : Trimmed (base64.encode bytes) := by
  constructor
  · intro c hc
    exact (sign_marks (base64.encode_signs bytes c (List.mem_of_head? hc))).1
  · intro c hc
    exact (sign_marks (base64.encode_signs bytes c (List.mem_of_getLast? hc))).1

theorem trimText_blank {s : Text} (hne : s ≠ []) (h : Trimmed s) : trimText (s ++ [' ']) = s := by
  have hhead : ∀ c, (s ++ [' ']).head? = some c → isWhitespace c = false := by
    intro c hc
    obtain ⟨d, ds, rfl⟩ := List.exists_cons_of_ne_nil hne
    exact h.1 c hc
  have hlast : ∀ c, s.reverse.head? = some c → isWhitespace c = false := by
    intro c hc
    rw [List.head?_reverse] at hc
    exact h.2 c hc
  have hblank : isWhitespace ' ' = true := by decide
  unfold trimText
  rw [dropWhile_head hhead, List.reverse_append, List.reverse_singleton, List.singleton_append,
    List.dropWhile_cons_of_pos hblank, dropWhile_head hlast, List.reverse_reverse]

theorem trimmed_around {a b : Text} (ha : a ≠ []) (hb : b ≠ []) (hatrim : Trimmed a)
    (hbtrim : Trimmed b) (c : Char) : Trimmed (a ++ c :: b) := by
  obtain ⟨d, ds, rfl⟩ := List.exists_cons_of_ne_nil ha
  refine ⟨hatrim.1, fun e he => hbtrim.2 e ?_⟩
  rw [List.getLast?_append, List.getLast?_cons] at he
  obtain ⟨last, hlast⟩ := Option.isSome_iff_exists.mp (List.getLast?_isSome.mpr hb)
  rw [hlast] at he ⊢
  exact he

theorem pairIn_written (base64 : Base64) {name : Text} (h : IsName name) (value : Text) :
    pairIn base64 (writtenPair base64 (name, value)) = some (name, value) := by
  have hdecode : ((base64.decode (base64.encode (utf8 value))).bind fromUtf8).getD [] = value := by
    rw [base64.decode_encode, Option.bind_some, Rest.fromUtf8_utf8]
    rfl
  have htrimmed := encode_trimmed base64 (utf8 value)
  unfold pairIn writtenPair
  by_cases hempty : base64.encode (utf8 value) = []
  · -- an empty value leaves a blank at the end, which the trim takes
    rw [hempty, trimText_blank h.ne_nil h.trimmed, if_neg h.ne_nil, splitOnce_none h.blank]
    dsimp only
    rw [hempty] at hdecode
    rw [hdecode]
  · have hpair := trimmed_around h.ne_nil hempty h.trimmed htrimmed ' '
    have hne : name ++ ' ' :: base64.encode (utf8 value) ≠ [] := by simp
    rw [trimText_of_trimmed hpair, if_neg hne, splitOnce_append h.blank]
    dsimp only
    rw [trimText_of_trimmed h.trimmed, trimText_of_trimmed htrimmed, hdecode]

theorem writtenPair_comma (base64 : Base64) {p : Text × Text} (h : IsName p.1) :
    ',' ∉ writtenPair base64 p := by
  intro hmem
  rcases List.mem_append.mp hmem with hmem | hmem
  · exact h.comma hmem
  · rcases List.mem_cons.mp hmem with heq | hmem
    · exact absurd heq (by decide)
    · exact (sign_marks (base64.encode_signs _ _ hmem)).2.1 rfl

theorem cacheControl_name : IsName cacheControl := by
  refine ⟨by decide, by decide, by decide, ?_, ?_⟩
  · intro c hc
    cases hc
    decide
  · intro c hc
    cases hc
    decide

theorem withCache_names {pairs : List (Text × Text)} (h : ∀ p ∈ pairs, IsName p.1) :
    ∀ p ∈ withCache pairs, IsName p.1 := by
  intro p hp
  unfold withCache at hp
  split at hp
  · exact h p hp
  · rcases List.mem_append.mp hp with hp | hp
    · exact h p hp
    · cases List.mem_singleton.mp hp
      exact cacheControl_name

/-- Once it is there it is not added again. -/
theorem withCache_idem (pairs : List (Text × Text)) :
    withCache (withCache pairs) = withCache pairs := by
  have hany : (withCache pairs).any (·.1 = cacheControl) = true := by
    unfold withCache
    split
    · assumption
    · rw [List.any_append]
      simp
  rw [withCache, if_pos hany]

theorem metadataIn_written (base64 : Base64) {pairs : List (Text × Text)}
    (h : ∀ p ∈ pairs, IsName p.1) :
    metadataIn base64 (writtenMetadata base64 pairs) = withCache pairs := by
  have hnames := withCache_names h
  have hne : withCache pairs ≠ [] := by
    unfold withCache
    split
    · rintro rfl
      contradiction
    · simp
  have hsep : ∀ l ∈ (withCache pairs).map (writtenPair base64), ',' ∉ l := by
    intro l hl
    obtain ⟨p, hp, rfl⟩ := List.mem_map.mp hl
    exact writtenPair_comma base64 (hnames p hp)
  have hread : ∀ p ∈ withCache pairs, (pairIn base64 ∘ writtenPair base64) p = some p :=
    fun p hp => pairIn_written base64 (hnames p hp) p.2
  unfold metadataIn writtenMetadata
  rw [List.splitOn_intercalate ',' hsep (by simpa using hne), List.filterMap_map,
    List.filterMap_congr hread, List.filterMap_some]

/-- What is handed back reads as what was sent, with the `cacheControl` that
nobody sent, and is handed back the same from then on. -/
theorem metadata_survives (base64 : Base64) :
    (∀ h, metadataIn base64 (writtenMetadata base64 (metadataIn base64 h))
          = withCache (metadataIn base64 h)
        ∧ writtenMetadata base64
            (metadataIn base64 (writtenMetadata base64 (metadataIn base64 h)))
          = writtenMetadata base64 (metadataIn base64 h))
      ∧ ∀ pairs, (∀ p ∈ pairs, IsName p.1) →
        metadataIn base64 (writtenMetadata base64 pairs) = withCache pairs := by
  refine ⟨fun h => ?_, fun pairs hnames => metadataIn_written base64 hnames⟩
  have hread := metadataIn_written base64 (metadataIn_names base64 h)
  refine ⟨hread, ?_⟩
  rw [hread, writtenMetadata, withCache_idem]
  rfl

/-- An empty value, and a value with a comma and a blank. -/
theorem metadata_survives_empty :
    metadataIn Base64.standard (writtenMetadata Base64.standard
        [(cacheControl, []), (cacheControl, "a, b".toList)])
      = [(cacheControl, []), (cacheControl, "a, b".toList)] := by
  refine (metadata_survives Base64.standard).2 _ ?_
  intro p hp
  rcases List.mem_cons.mp hp with rfl | hp
  · exact cacheControl_name
  · cases List.mem_singleton.mp hp
    exact cacheControl_name

end Zou.Tus
