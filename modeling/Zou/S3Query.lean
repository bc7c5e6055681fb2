import Mathlib.Data.Char
import Mathlib.Data.List.Lex
import Zou.HorizonFor
import Zou.Lib.OrdMap
import Zou.Lib.Outcome
import Zou.Lib.Utf8
import Zou.Rest.Query

/-!
# The query string of an S3 request

A value is decoded a byte at a time. A percent sign with two bytes behind
it cuts the two out of the text, which panics where the cut is inside a
character, and hands them to the parser of hexadecimal numbers, which also
takes a plus and one digit. On every other text the value is what percent
decoding makes of it, and no other text decodes so.
-/

namespace Zou.S3

open Rest (Text utf8 hexVal)

/-! ## Decoding -/

/-- `str::is_char_boundary` in front of these bytes of a text. -/
def isCharBoundary (rest : List UInt8) : Bool :=
  rest.head?.all fun b => b.toNat < 0x80 || 0xC0 ≤ b.toNat

/-- `u8::from_str_radix` of two bytes, in base 16. -/
def fromStrRadix (hi lo : UInt8) : Option UInt8 :=
  if hi = 43 then hexVal lo
  else match hexVal hi, hexVal lo with
    | some hi, some lo => some (hi * 16 + lo)
    | _, _ => none

/-- The bytes `decoded` pushes. -/
def decodedBytes : List UInt8 → Outcome Unit (List UInt8)
  | [] => .ok []
  | b :: hi :: lo :: rest =>
    if b = 43 then (decodedBytes (hi :: lo :: rest)).bind fun out => .ok (32 :: out)
    else if b = 37 then
      if isCharBoundary (hi :: lo :: rest) && isCharBoundary rest then
        match fromStrRadix hi lo with
        | some byte => (decodedBytes rest).bind fun out => .ok (byte :: out)
        | none => (decodedBytes (hi :: lo :: rest)).bind fun out => .ok (37 :: out)
      else .panicked
    else (decodedBytes (hi :: lo :: rest)).bind fun out => .ok (b :: out)
  | b :: bytes => (decodedBytes bytes).bind fun out => .ok ((if b = 43 then 32 else b) :: out)

/-- A percent encoded value, as itself. -/
def decoded (value : Text) : Outcome Unit Text :=
  (decodedBytes (utf8 value)).bind fun out => .ok (Utf8.lossy out)

/-- The pairs of a query string. -/
def pairsOf (query : Text) : List (Text × Text) :=
  ((query.splitOn '&').filter (· ≠ [])).map fun pair => (splitOnce '=' pair).getD (pair, [])

/-- Insert the pairs in turn, each value decoded. -/
def insertAll : List (Text × Text) → OrdMap Text Text → Outcome Unit (OrdMap Text Text)
  | [], asked => .ok asked
  | (name, value) :: pairs, asked =>
    (decoded value).bind fun value => insertAll pairs (asked.insert name value)

/-- The query string taken apart, with the values decoded. -/
def queryOf (query : Text) : Outcome Unit (OrdMap Text Text) := insertAll (pairsOf query) .empty

/-! ## What a value stands for -/

/-- A percent encoded value read as one: a plus is a space, a percent sign
and two hexadecimal digits a byte, and every other byte itself. -/
def reading (value : Text) : Text := Utf8.lossy (Rest.decodeBytes (utf8 value))

/-- No cut behind a percent sign is inside a character. -/
def cuttable : List UInt8 → Bool
  | b :: hi :: lo :: rest => (b ≠ 37 || isCharBoundary rest) && cuttable (hi :: lo :: rest)
  | _ => true

/-- And no percent sign is before a plus and a digit. -/
def unsigned : List UInt8 → Bool
  | b :: hi :: lo :: rest =>
    !(b = 37 && hi = 43 && (hexVal lo).isSome) && unsigned (hi :: lo :: rest)
  | _ => true

def plain (value : Text) : Bool := cuttable (utf8 value) && unsigned (utf8 value)

/-! ## Cuts in a text -/

/-- Behind every ASCII byte of a text a character starts. -/
def Cut (bytes : List UInt8) : Prop :=
  ∀ pre b rest, bytes = pre ++ b :: rest → b.toNat < 0x80 → isCharBoundary rest = true

variable {b : UInt8} {bytes : List UInt8}

theorem Cut.tail (h : Cut (b :: bytes)) : Cut bytes := by
  intro pre c rest heq hc
  exact h (b :: pre) c rest (by rw [heq, List.cons_append]) hc

theorem Cut.head (h : Cut (b :: bytes)) (hb : b.toNat < 0x80) :
    isCharBoundary bytes = true := h [] b bytes rfl hb

theorem isCharBoundary_utf8 (s : Text) : isCharBoundary (utf8 s) = true := by
  cases s with
  | nil => rfl
  | cons c s =>
    obtain ⟨b, bytes, heq, hb⟩ := Utf8.utf8EncodeChar_cons c
    unfold utf8
    rw [List.flatMap_cons, heq]
    show (b.toNat < 0x80 || 0xC0 ≤ b.toNat : Bool) = true
    rw [Bool.or_eq_true, decide_eq_true_eq, decide_eq_true_eq]
    exact hb

theorem cut_utf8 (s : Text) : Cut (utf8 s) := by
  induction s with
  | nil =>
    intro pre b rest heq
    cases pre <;> cases heq
  | cons c s ih =>
    intro pre b rest heq hb
    have heq : String.utf8EncodeChar c ++ utf8 s = pre ++ b :: rest := heq
    rcases List.append_eq_append_iff.mp heq with ⟨mid, -, hs⟩ | ⟨mid, hc, hrest⟩
    · exact ih mid b rest hs hb
    · cases mid with
      | nil => exact ih [] b rest hrest.symm hb
      | cons d mid =>
        -- the byte is of the character, so it is all of it
        obtain ⟨rfl, htail⟩ := List.cons.inj hrest
        have hmem : b ∈ String.utf8EncodeChar c := by
          rw [hc]
          simp
        have hone := (Utf8.mem_utf8EncodeChar hmem hb).1
        have hlen := congrArg List.length (hone.symm.trans hc)
        simp only [List.length_append, List.length_cons, List.length_nil] at hlen
        obtain rfl : mid = [] := List.eq_nil_of_length_eq_zero (by omega)
        rw [htail]
        exact isCharBoundary_utf8 s

/-! ## What the loop pushes -/

/-- What was pushed has a byte of one digit where the reading has a percent
sign. -/
def Strays (out right : List UInt8) : Prop :=
  ∃ pre v q r, out = pre ++ v :: q ∧ right = pre ++ 37 :: r ∧ v.toNat < 16

/-- What becomes of some bytes of a text. -/
def Follows (bytes : List UInt8) : Prop :=
  if cuttable bytes then ∃ out, decodedBytes bytes = .ok out
    ∧ if unsigned bytes then out = Rest.decodeBytes bytes else Strays out (Rest.decodeBytes bytes)
  else decodedBytes bytes = .panicked

theorem Strays.cons {out right : List UInt8} (h : Strays out right) (c : UInt8) :
    Strays (c :: out) (c :: right) := by
  obtain ⟨pre, v, q, r, rfl, rfl, hv⟩ := h
  exact ⟨c :: pre, v, q, r, rfl, rfl, hv⟩

theorem Follows.push {bytes' : List UInt8} {c : UInt8} (h : Follows bytes')
    (hdecoded : decodedBytes bytes = (decodedBytes bytes').bind fun out => .ok (c :: out))
    (hright : Rest.decodeBytes bytes = c :: Rest.decodeBytes bytes')
    (hcut : cuttable bytes = cuttable bytes') (hunsigned : unsigned bytes = unsigned bytes') :
    Follows bytes := by
  unfold Follows at h ⊢
  rw [hcut, hunsigned, hdecoded, hright]
  split at h
  · rename_i hc
    obtain ⟨out, hout, hsame⟩ := h
    rw [if_pos hc, hout]
    refine ⟨c :: out, rfl, ?_⟩
    split at hsame
    · rename_i hu
      rw [if_pos hu, hsame]
    · rename_i hu
      rw [if_neg hu]
      exact hsame.cons c
  · rename_i hc
    rw [if_neg hc, h]
    rfl

theorem hexVal_lt {v : UInt8} (h : hexVal b = some v) : v.toNat < 16 := by
  have hall : ∀ n < 256, (hexVal (UInt8.ofNat n)).all fun v => v.toNat < 16 := by decide +kernel
  have hb := hall b.toNat b.toNat_lt
  rw [UInt8.ofNat_toNat, h] at hb
  simpa using hb

theorem hexVal_ne {v : UInt8} (h : hexVal b = some v) : b ≠ 37 ∧ b ≠ 43 := by
  constructor
  · rintro rfl
    cases h
  · rintro rfl
    cases h

theorem digits_eq {h l : UInt8} (hh : h.toNat < 16) (hl : l.toNat < 16) :
    h <<< 4 ||| l = h * 16 + l := by
  have hall : ∀ n < 16, ∀ m < 16,
      UInt8.ofNat n <<< 4 ||| UInt8.ofNat m = UInt8.ofNat n * 16 + UInt8.ofNat m := by decide
  have hboth := hall h.toNat hh l.toNat hl
  rwa [UInt8.ofNat_toNat, UInt8.ofNat_toNat] at hboth

theorem cuttable_cons (hb : b ≠ 37) (bytes : List UInt8) :
    cuttable (b :: bytes) = cuttable bytes := by
  match bytes with
  | [] => rfl
  | [_] => rfl
  | hi :: lo :: rest => simp [cuttable, hb]

theorem unsigned_cons (hb : b ≠ 37) (bytes : List UInt8) :
    unsigned (b :: bytes) = unsigned bytes := by
  match bytes with
  | [] => rfl
  | [_] => rfl
  | hi :: lo :: rest => simp [unsigned, hb]

/-- A byte that is no percent sign is pushed, a plus as a space. -/
theorem push_other (hb : b ≠ 37) (bytes : List UInt8) : decodedBytes (b :: bytes)
        = (decodedBytes bytes).bind (fun out => .ok ((if b = 43 then 32 else b) :: out))
      ∧ Rest.decodeBytes (b :: bytes) = (if b = 43 then 32 else b) :: Rest.decodeBytes bytes := by
  match bytes with
  | [] => exact ⟨rfl, rfl⟩
  | [_] => exact ⟨rfl, rfl⟩
  | hi :: lo :: rest =>
    rw [decodedBytes, Rest.decodeBytes]
    by_cases hplus : b = 43
    · rw [if_pos hplus, if_pos hplus, if_pos hplus]
      exact ⟨rfl, rfl⟩
    · rw [if_neg hplus, if_neg hplus, if_neg hb, if_neg hb, if_neg hplus]
      exact ⟨rfl, rfl⟩

theorem push_percent {hi lo : UInt8} {rest : List UInt8}
    (hstart : isCharBoundary (hi :: lo :: rest) = true) (hend : isCharBoundary rest = true)
    (hradix : fromStrRadix hi lo = none) : decodedBytes (37 :: hi :: lo :: rest)
        = (decodedBytes (hi :: lo :: rest)).bind (fun out => .ok (37 :: out))
      ∧ Rest.decodeBytes (37 :: hi :: lo :: rest) = 37 :: Rest.decodeBytes (hi :: lo :: rest) := by
  constructor
  · rw [decodedBytes, if_neg (by decide), if_pos rfl, hstart, hend, hradix]
    rfl
  · rw [Rest.decodeBytes, if_neg (by decide), if_pos rfl]
    unfold fromStrRadix at hradix
    split at hradix
    · rename_i hplus
      rw [hplus]
      rfl
    · cases hhi : hexVal hi with
      | none => rfl
      | some h =>
        cases hlo : hexVal lo with
        | none => rfl
        | some l =>
          rw [hhi, hlo] at hradix
          cases hradix

theorem Follows.other (h : Follows bytes) (hb : b ≠ 37) : Follows (b :: bytes) := by
  obtain ⟨hdecoded, hright⟩ := push_other hb bytes
  exact h.push hdecoded hright (cuttable_cons hb bytes) (unsigned_cons hb bytes)

theorem Follows.parsed {hi lo byte : UInt8} {rest : List UInt8} (h : Follows rest)
    (hstart : isCharBoundary (hi :: lo :: rest) = true) (hend : isCharBoundary rest = true)
    (hradix : fromStrRadix hi lo = some byte) : Follows (37 :: hi :: lo :: rest) := by
  have hdecoded : decodedBytes (37 :: hi :: lo :: rest)
      = (decodedBytes rest).bind fun out => .ok (byte :: out) := by
    rw [decodedBytes, if_neg (by decide), if_pos rfl, hstart, hend, hradix]
    rfl
  unfold fromStrRadix at hradix
  split at hradix
  · -- a plus and one digit, which is no percent encoding
    rename_i hplus
    subst hplus
    have hlo := (hexVal_ne hradix).1
    have hcut : cuttable (37 :: 43 :: lo :: rest) = cuttable rest := by
      rw [cuttable, hend, cuttable_cons (by decide), cuttable_cons hlo]
      rfl
    have hunsigned : unsigned (37 :: 43 :: lo :: rest) = false := by
      rw [unsigned, hradix]
      rfl
    unfold Follows at h ⊢
    rw [hcut, hunsigned, hdecoded]
    split at h
    · rename_i hc
      obtain ⟨out, hout, -⟩ := h
      rw [if_pos hc, hout]
      exact ⟨byte :: out, rfl, [], byte, out, _, rfl, rfl, hexVal_lt hradix⟩
    · rename_i hc
      rw [if_neg hc, h]
      rfl
  · cases hhi : hexVal hi with
    | none =>
      rw [hhi] at hradix
      cases hradix
    | some x =>
      cases hlo : hexVal lo with
      | none =>
        rw [hhi, hlo] at hradix
        cases hradix
      | some y =>
        rw [hhi, hlo] at hradix
        cases hradix
        refine h.push hdecoded ?_ ?_ ?_
        · rw [Rest.decodeBytes, if_neg (by decide), if_pos rfl, hhi, hlo]
          dsimp only
          rw [digits_eq (hexVal_lt hhi) (hexVal_lt hlo)]
        · rw [cuttable, hend, cuttable_cons (hexVal_ne hhi).1, cuttable_cons (hexVal_ne hlo).1]
          rfl
        · rw [unsigned, decide_eq_false (hexVal_ne hhi).2, unsigned_cons (hexVal_ne hhi).1,
            unsigned_cons (hexVal_ne hlo).1]
          rfl

/-- What becomes of the bytes of a text, whatever they are. -/
theorem follows : ∀ bytes : List UInt8, Cut bytes → Follows bytes
  | [], _ => ⟨[], rfl, rfl⟩
  | [b], h => by
      have htail := follows [] h.tail
      by_cases hb : b = 37
      · subst hb
        exact htail.push rfl rfl rfl rfl
      · exact htail.other hb
  | [b, c], h => by
      have htail := follows [c] h.tail
      by_cases hb : b = 37
      · subst hb
        exact htail.push rfl rfl rfl rfl
      · exact htail.other hb
  | b :: hi :: lo :: rest, h => by
      have htail := follows (hi :: lo :: rest) h.tail
      by_cases hb : b = 37
      · subst hb
        have hstart := h.head (by decide)
        cases hend : isCharBoundary rest with
        | false =>
          have hcut : cuttable (37 :: hi :: lo :: rest) = false := by
            rw [cuttable, hend]
            rfl
          unfold Follows
          rw [hcut, decodedBytes, if_neg (by decide), if_pos rfl, hend, Bool.and_false]
          rfl
        | true =>
          cases hradix : fromStrRadix hi lo with
          | some byte => exact (follows rest h.tail.tail.tail).parsed hstart hend hradix
          | none =>
            obtain ⟨hdecoded, hright⟩ := push_percent hstart hend hradix
            refine htail.push hdecoded hright ?_ ?_
            · rw [cuttable, hend]
              rfl
            · have hnot : (decide ((37 : UInt8) = 37) && decide (hi = 43)
                  && (hexVal lo).isSome) = false := by
                by_cases hplus : hi = 43
                · unfold fromStrRadix at hradix
                  rw [if_pos hplus] at hradix
                  rw [hradix]
                  exact Bool.and_false _
                · rw [decide_eq_false hplus]
                  rfl
              rw [unsigned, hnot]
              rfl
      · exact htail.other hb

/-! ## Values and queries -/

theorem decoded_cut {value : Text} (h : cuttable (utf8 value) = true) :
    ∃ text, decoded value = .ok text := by
  have hfollows := follows (utf8 value) (cut_utf8 value)
  unfold Follows at hfollows
  rw [if_pos h] at hfollows
  obtain ⟨out, hout, -⟩ := hfollows
  unfold decoded
  rw [hout]
  exact ⟨_, rfl⟩

theorem decoded_panics {value : Text} (h : cuttable (utf8 value) = false) :
    decoded value = .panicked := by
  have hfollows := follows (utf8 value) (cut_utf8 value)
  unfold Follows at hfollows
  rw [h] at hfollows
  unfold decoded
  rw [hfollows]
  rfl

/-- A byte below 16 where a percent sign should be shows in the text. -/
theorem Strays.lossy {out right : List UInt8} (h : Strays out right) :
    Utf8.lossy out ≠ Utf8.lossy right := by
  obtain ⟨pre, v, q, r, rfl, rfl, hv⟩ := h
  rw [Utf8.lossy_ascii (by omega), Utf8.lossy_ascii (by decide)]
  intro heq
  have hchar := (List.cons.inj (List.append_cancel_left heq)).1
  have hall : ∀ n < 16, Char.ofNat n ≠ Char.ofNat (37 : UInt8).toNat := by decide
  exact hall v.toNat hv hchar

/-- A value decodes to its reading exactly when it is plain. -/
theorem decoded_iff (value : Text) : decoded value = .ok (reading value) ↔ plain value = true := by
  have hfollows := follows (utf8 value) (cut_utf8 value)
  unfold Follows at hfollows
  unfold decoded reading plain
  split at hfollows
  · rename_i hc
    obtain ⟨out, hout, hsame⟩ := hfollows
    rw [hout, hc, Bool.true_and]
    split at hsame
    · rename_i hu
      rw [hu, hsame]
      exact ⟨fun _ => rfl, fun _ => rfl⟩
    · rename_i hu
      refine ⟨fun heq => absurd (Outcome.ok.inj heq) hsame.lossy, fun hp => absurd hp hu⟩
  · rename_i hc
    rw [hfollows]
    refine ⟨nofun, fun hp => ?_⟩
    rw [Bool.and_eq_true] at hp
    exact absurd hp.1 hc

theorem insertAll_iff (pairs : List (Text × Text)) : ∀ asked : OrdMap Text Text,
    (∃ m, insertAll pairs asked = .ok m) ↔ ∀ p ∈ pairs, cuttable (utf8 p.2) = true := by
  induction pairs with
  | nil => exact fun asked => ⟨fun _ _ hp => (List.not_mem_nil hp).elim, fun _ => ⟨asked, rfl⟩⟩
  | cons p pairs ih =>
    intro asked
    rw [List.forall_mem_cons, insertAll]
    cases hc : cuttable (utf8 p.2) with
    | false =>
      rw [decoded_panics hc]
      constructor
      · rintro ⟨m, hm⟩
        cases hm
      · rintro ⟨hno, -⟩
        cases hno
    | true =>
      obtain ⟨text, htext⟩ := decoded_cut hc
      rw [htext]
      refine (ih _).trans ⟨fun h => ⟨rfl, h⟩, fun h => h.2⟩

theorem insertAll_plain (pairs : List (Text × Text)) (h : ∀ p ∈ pairs, plain p.2 = true) :
    ∀ asked : OrdMap Text Text,
      insertAll pairs asked = .ok (pairs.foldl (fun m p => m.insert p.1 (reading p.2)) asked) := by
  induction pairs with
  | nil => exact fun asked => rfl
  | cons p pairs ih =>
    intro asked
    obtain ⟨hp, hpairs⟩ := List.forall_mem_cons.mp h
    rw [insertAll, (decoded_iff p.2).mpr hp]
    exact ih hpairs _

/-- A value decodes to its reading exactly when it is plain, and a query is
taken apart without a panic exactly when no value of it is cut inside a
character; where all are plain it is the map of the readings. -/
theorem query_decoding (value query : List Char) :
    (decoded value = .ok (reading value) ↔ plain value = true)
      ∧ ((∃ m, queryOf query = .ok m) ↔ ∀ p ∈ pairsOf query, cuttable (utf8 p.2) = true)
      ∧ ((∀ p ∈ pairsOf query, plain p.2 = true) →
          queryOf query = .ok ((pairsOf query).foldl (fun m p => m.insert p.1 (reading p.2))
            .empty)) :=
  ⟨decoded_iff value, insertAll_iff (pairsOf query) _,
    fun h => insertAll_plain (pairsOf query) h _⟩

/-- Escapes, a plus that is a space and a percent sign that is itself. -/
theorem query_decoding_escapes :
    queryOf "prefix=a%2Fb+c&x=5%".toList
      = .ok ((OrdMap.empty.insert "prefix".toList "a/b c".toList).insert "x".toList
          "5%".toList) :=
  (query_decoding [] "prefix=a%2Fb+c&x=5%".toList).2.2 (by decide +kernel)

/-- A percent sign in front of a character of three bytes panics, and one in
front of a plus and a digit takes them for a byte. -/
theorem percent_panics :
    queryOf "prefix=%€".toList = .panicked
      ∧ ¬ ∀ value, decoded value = .ok (reading value) := by
  have hpairs : pairsOf "prefix=%€".toList = [("prefix".toList, "%€".toList)] := by
    decide +kernel
  have hcut : cuttable (utf8 "%€".toList) = false := by decide +kernel
  refine ⟨?_, fun h => ?_⟩
  · unfold queryOf
    rw [hpairs, insertAll, decoded_panics hcut]
    rfl
  have hplus : plain "%+4".toList = true := (decoded_iff _).mp (h _)
  revert hplus
  decide +kernel

end Zou.S3
