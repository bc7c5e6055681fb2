import Mathlib.Algebra.Order.Ring.Nat

/-!
# Base64

A base64 encoding is a text for every string of bytes that decodes to it and
is made of letters, digits and three signs. `standard` is the one with
padding whose last bits are zero.
-/

namespace Base64

/-- A character an encoding is made of. -/
def isSign (c : Char) : Bool := c.isAlphanum || c = '+' || c = '/' || c = '='

end Base64

structure Base64 where
  encode : List UInt8 → List Char
  decode : List Char → Option (List UInt8)
  decode_encode : ∀ bytes, decode (encode bytes) = some bytes
  encode_signs : ∀ bytes, ∀ c ∈ encode bytes, Base64.isSign c = true

namespace Base64

def digit (n : Nat) : Char :=
  if n < 26 then Char.ofNat (n + 65)
  else if n < 52 then Char.ofNat (n + 71)
  else if n < 62 then Char.ofNat (n - 4)
  else if n = 62 then '+' else '/'

def value (c : Char) : Option Nat :=
  if c.isUpper then some (c.toNat - 65)
  else if c.isLower then some (c.toNat - 71)
  else if c.isDigit then some (c.toNat + 4)
  else if c = '+' then some 62
  else if c = '/' then some 63
  else none

def encodeText : List UInt8 → List Char
  | [] => []
  | [a] => [digit (a.toNat / 4), digit (a.toNat % 4 * 16), '=', '=']
  | [a, b] => [digit (a.toNat / 4), digit (a.toNat % 4 * 16 + b.toNat / 16),
      digit (b.toNat % 16 * 4), '=']
  | a :: b :: c :: rest => digit (a.toNat / 4) :: digit (a.toNat % 4 * 16 + b.toNat / 16)
      :: digit (b.toNat % 16 * 4 + c.toNat / 64) :: digit (c.toNat % 64) :: encodeText rest

def decodeText : List Char → Option (List UInt8)
  | [] => some []
  | [a, b, '=', '='] => (value a).bind fun a => (value b).bind fun b =>
    if b % 16 = 0 then some [UInt8.ofNat (a * 4 + b / 16)] else none
  | [a, b, c, '='] => (value a).bind fun a => (value b).bind fun b => (value c).bind fun c =>
    if c % 4 = 0 then
      some [UInt8.ofNat (a * 4 + b / 16), UInt8.ofNat (b % 16 * 16 + c / 4)]
    else none
  | a :: b :: c :: d :: rest => (value a).bind fun a => (value b).bind fun b =>
    (value c).bind fun c => (value d).bind fun d => (decodeText rest).map fun bytes =>
      UInt8.ofNat (a * 4 + b / 16) :: UInt8.ofNat (b % 16 * 16 + c / 4)
        :: UInt8.ofNat (c % 4 * 64 + d) :: bytes
  | _ => none

theorem value_digit {n : Nat} (h : n < 64) : value (digit n) = some n := by
  have hall : ∀ m < 64, value (digit m) = some m := by decide
  exact hall n h

theorem digit_sign {n : Nat} (h : n < 64) : isSign (digit n) = true ∧ digit n ≠ '=' := by
  have hall : ∀ m < 64, isSign (digit m) = true ∧ digit m ≠ '=' := by decide
  exact hall n h

theorem ofNat_eq {n : Nat} {b : UInt8} (h : n = b.toNat) : UInt8.ofNat n = b := by
  rw [h, UInt8.ofNat_toNat]

theorem decodeText_encodeText (bytes : List UInt8) :
    decodeText (encodeText bytes) = some bytes := by
  induction bytes using encodeText.induct with
  | case1 => rfl
  | case2 a =>
    have ha := a.toNat_lt
    rw [encodeText, decodeText, value_digit (by omega), value_digit (by omega)]
    simp only [Option.bind_some]
    rw [if_pos (by omega), ofNat_eq (b := a) (by omega)]
  | case3 a b =>
    have ha := a.toNat_lt
    have hb := b.toNat_lt
    have hthird := (digit_sign (n := b.toNat % 16 * 4) (by omega)).2
    rw [encodeText, decodeText, value_digit (by omega), value_digit (by omega),
      value_digit (by omega)]
    · simp only [Option.bind_some]
      rw [if_pos (by omega), ofNat_eq (b := a) (by omega), ofNat_eq (b := b) (by omega)]
    · exact hthird
  | case4 a b c rest ih =>
    have ha := a.toNat_lt
    have hb := b.toNat_lt
    have hc := c.toNat_lt
    have hfourth := (digit_sign (n := c.toNat % 64) (by omega)).2
    rw [encodeText, decodeText, value_digit (by omega), value_digit (by omega),
      value_digit (by omega), value_digit (by omega), ih]
    · simp only [Option.bind_some, Option.map_some]
      rw [ofNat_eq (b := a) (by omega), ofNat_eq (b := b) (by omega),
        ofNat_eq (b := c) (by omega)]
    · intro _ heq
      exact absurd heq hfourth
    · intro heq
      exact absurd heq hfourth

theorem encodeText_signs (bytes : List UInt8) : ∀ c ∈ encodeText bytes, isSign c = true := by
  have heq : isSign '=' = true := by decide
  induction bytes using encodeText.induct with
  | case1 =>
    nofun
  | case2 a =>
    have ha := a.toNat_lt
    rw [encodeText]
    simp only [List.forall_mem_cons]
    exact ⟨(digit_sign (by omega)).1, (digit_sign (by omega)).1, heq, heq, by simp⟩
  | case3 a b =>
    have ha := a.toNat_lt
    have hb := b.toNat_lt
    rw [encodeText]
    simp only [List.forall_mem_cons]
    exact ⟨(digit_sign (by omega)).1, (digit_sign (by omega)).1, (digit_sign (by omega)).1, heq,
      by simp⟩
  | case4 a b c rest ih =>
    have ha := a.toNat_lt
    have hb := b.toNat_lt
    have hc := c.toNat_lt
    rw [encodeText]
    simp only [List.forall_mem_cons]
    exact ⟨(digit_sign (by omega)).1, (digit_sign (by omega)).1, (digit_sign (by omega)).1,
      (digit_sign (by omega)).1, ih⟩

/-- With padding. -/
def standard : Base64 := ⟨encodeText, decodeText, decodeText_encodeText, encodeText_signs⟩

example : encodeText [110, 111, 45, 99, 97, 99, 104, 101] = "bm8tY2FjaGU=".toList := by decide

end Base64
