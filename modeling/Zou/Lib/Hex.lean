import Mathlib.Algebra.Order.Ring.Nat
import Mathlib.Data.List.Induction

/-!
# Numbers in hexadecimal digits

`fixed w n` is `n` in `w` lower case digits, padded with zeros, as a
formatter prints a number that fits its field. `fromStrRadix` is the parser
of an unsigned type of some bits: it takes digits of either case and a
leading plus. What it reads is printed back exactly where the text is
`Plain`, and texts of one width compare as their numbers do.
-/

namespace Hex

/-- The lower case digit of a value below 16. -/
def digit (d : Nat) : Char := if d < 10 then Char.ofNat (48 + d) else Char.ofNat (87 + d)

/-- The value of a digit of either case. -/
def value (c : Char) : Option Nat :=
  if '0' ≤ c ∧ c ≤ '9' then some (c.toNat - 48)
  else if 'a' ≤ c ∧ c ≤ 'f' then some (c.toNat - 87)
  else if 'A' ≤ c ∧ c ≤ 'F' then some (c.toNat - 55)
  else none

/-- `n` in `w` digits. -/
def fixed : Nat → Nat → List Char
  | 0, _ => []
  | w + 1, n => fixed w (n / 16) ++ [digit (n % 16)]

/-- The value of the digits, behind those that gave `acc`. -/
def digits (acc : Nat) : List Char → Option Nat
  | [] => some acc
  | c :: cs => (value c).bind fun d => digits (16 * acc + d) cs

/-- `from_str_radix` at radix 16 of an unsigned type of `bits` bits. -/
def fromStrRadix (bits : Nat) (s : List Char) : Option Nat :=
  let ds := if s.head? = some '+' then s.tail else s
  if ds = [] then none else (digits 0 ds).filter (· < 2 ^ bits)

/-- A character a printed name has: no plus and no upper case digit. -/
def plainChar (c : Char) : Bool := c ≠ '+' && !('A' ≤ c && c ≤ 'F')

def Plain (s : List Char) : Prop := ∀ c ∈ s, plainChar c = true

/-! ## Digits -/

variable {d : Nat}

theorem value_digit (h : d < 16) : value (digit d) = some d := by
  revert d
  decide

theorem plainChar_digit (h : d < 16) : plainChar (digit d) = true := by
  revert d
  decide

theorem ascii_digit (h : d < 16) : (digit d).toNat < 128 := by
  revert d
  decide

theorem digit_ne_dash (h : d < 16) : digit d ≠ '-' := by
  revert d
  decide

theorem digit_lt_digit {e : Nat} (hd : d < 16) (he : e < 16) : digit d < digit e ↔ d < e := by
  have h : ∀ d < 16, ∀ e < 16, digit d < digit e ↔ d < e := by decide
  exact h d hd e he

variable {c : Char}

/-- The three ranges of digits, by code point. -/
theorem value_cases (h : value c = some d) : (48 ≤ c.toNat ∧ c.toNat ≤ 57 ∧ d = c.toNat - 48)
      ∨ (97 ≤ c.toNat ∧ c.toNat ≤ 102 ∧ d = c.toNat - 87)
      ∨ (('A' ≤ c ∧ c ≤ 'F') ∧ 65 ≤ c.toNat ∧ c.toNat ≤ 70 ∧ d = c.toNat - 55) := by
  have hle : ∀ a b : Char, a ≤ b ↔ a.toNat ≤ b.toNat := fun a b => Char.le_def
  unfold value at h
  split at h
  · rename_i hrange
    exact .inl ⟨(hle ..).mp hrange.1, (hle ..).mp hrange.2, (Option.some.inj h).symm⟩
  · split at h
    · rename_i hrange
      exact .inr (.inl ⟨(hle ..).mp hrange.1, (hle ..).mp hrange.2, (Option.some.inj h).symm⟩)
    · obtain ⟨hrange, h⟩ := Option.ite_none_right_eq_some.mp h
      exact .inr (.inr ⟨hrange, (hle ..).mp hrange.1, (hle ..).mp hrange.2,
        (Option.some.inj h).symm⟩)

theorem value_range (h : value c = some d) : d < 16 ∧ c.toNat < 128 := by
  rcases value_cases h with h | h | ⟨-, h⟩ <;> omega

/-- A digit in plain spelling is the one its value has. -/
theorem digit_of_value (h : value c = some d) (hp : plainChar c = true) : digit d = c := by
  rcases value_cases h with ⟨h1, h2, rfl⟩ | ⟨h1, h2, rfl⟩ | ⟨hupper, -⟩
  · rw [digit, if_pos (by omega), show 48 + (c.toNat - 48) = c.toNat by omega, Char.ofNat_toNat]
  · rw [digit, if_neg (by omega), show 87 + (c.toNat - 87) = c.toNat by omega, Char.ofNat_toNat]
  · simp [plainChar, hupper.1, hupper.2] at hp

theorem length_fixed (w n : Nat) : (fixed w n).length = w := by
  induction w generalizing n with
  | zero => rfl
  | succ w ih => rw [fixed, List.length_append, ih, List.length_singleton]

/-! A row of fields, read at an offset. -/

variable {w n : Nat}

@[simp] theorem drop_fixed {w n at_ : Nat} {s : List Char} (h : w ≤ at_) :
    (fixed w n ++ s).drop at_ = s.drop (at_ - w) := by
  rw [List.drop_append, length_fixed, List.drop_eq_nil_of_le (by rwa [length_fixed]),
    List.nil_append]

@[simp] theorem take_fixed {w n : Nat} {s : List Char} : (fixed w n ++ s).take w = fixed w n :=
  List.take_left' (length_fixed w n)

@[simp] theorem take_fixed_last {w n : Nat} : (fixed w n).take w = fixed w n :=
  List.take_of_length_le (Nat.le_of_eq (length_fixed w n))

theorem mem_fixed (h : c ∈ fixed w n) : ∃ d, d < 16 ∧ c = digit d := by
  induction w generalizing n with
  | zero => cases h
  | succ w ih =>
    rcases List.mem_append.mp h with h | h
    · exact ih h
    · exact ⟨n % 16, Nat.mod_lt _ (by decide), List.mem_singleton.mp h⟩

theorem plain_fixed (w n : Nat) : Plain (fixed w n) := by
  intro c hc
  obtain ⟨d, hd, rfl⟩ := mem_fixed hc
  exact plainChar_digit hd

variable {s : List Char}

theorem plain_append {t : List Char} : Plain (s ++ t) ↔ Plain s ∧ Plain t := by
  simp only [Plain, List.mem_append, or_imp, forall_and]

/-- Joined with something plain, plain texts and no others are plain. -/
theorem plain_intercalate {sep : List Char} (hsep : Plain sep) :
    ∀ parts : List (List Char), Plain (sep.intercalate parts) ↔ ∀ p ∈ parts, Plain p := by
  intro parts
  induction parts with
  | nil => simp [Plain]
  | cons p parts ih =>
    cases parts with
    | nil => simp
    | cons q parts =>
      rw [List.intercalate_cons_cons, plain_append, plain_append, ih, List.forall_mem_cons]
      simp [hsep]

/-! ## Reading -/

theorem digits_append (xs ys : List Char) (acc : Nat) :
    digits acc (xs ++ ys) = (digits acc xs).bind fun a => digits a ys := by
  induction xs generalizing acc with
  | nil => rfl
  | cons c cs ih =>
    rw [List.cons_append, digits, digits, Option.bind_assoc]
    exact congrArg _ (funext fun d => ih _)

theorem digits_fixed (h : n < 16 ^ w) (acc : Nat) :
    digits acc (fixed w n) = some (acc * 16 ^ w + n) := by
  induction w generalizing n with
  | zero =>
    have hn : n = 0 := by omega
    rw [fixed, digits, hn]
    simp
  | succ w ih =>
    have hdiv : n / 16 < 16 ^ w := by
      rw [Nat.pow_succ] at h
      omega
    rw [fixed, digits_append, ih hdiv, Option.bind_some, digits,
      value_digit (Nat.mod_lt _ (by decide)), Option.bind_some, digits, Nat.pow_succ]
    have hassoc := Nat.mul_assoc acc (16 ^ w) 16
    congr 1
    omega

/-- Digits in plain spelling are the ones their value is printed in. -/
theorem fixed_of_digits (hp : Plain s) :
    ∀ {n : Nat}, digits 0 s = some n → fixed s.length n = s := by
  induction s using List.reverseRecOn with
  | nil => exact fun _ => rfl
  | append_singleton s c ih =>
    intro n h
    rw [digits_append] at h
    obtain ⟨a, ha, h⟩ := Option.bind_eq_some_iff.mp h
    obtain ⟨d, hd, h⟩ := Option.bind_eq_some_iff.mp h
    cases h
    obtain ⟨hlt, -⟩ := value_range hd
    have hdigit := digit_of_value hd (hp c (by simp))
    have hfront := ih (fun c hc => hp c (List.mem_append_left _ hc)) ha
    rw [List.length_append, List.length_singleton, fixed,
      show (16 * a + d) / 16 = a by omega, show (16 * a + d) % 16 = d by omega, hfront, hdigit]

/-! ## Fields -/

theorem head_fixed : (fixed w n).head? ≠ some '+' := by
  intro h
  have hp := plain_fixed w n '+' (List.mem_of_mem_head? h)
  exact absurd hp (by decide)

/-- A printed field reads back. -/
theorem fromStrRadix_fixed {bits : Nat} (hw : w ≠ 0) (h : n < 16 ^ w) (hb : n < 2 ^ bits) :
    fromStrRadix bits (fixed w n) = some n := by
  have hne : fixed w n ≠ [] := by
    intro hnil
    have hlen := length_fixed w n
    rw [hnil] at hlen
    exact hw hlen.symm
  unfold fromStrRadix
  rw [if_neg head_fixed, if_neg hne, digits_fixed h, Nat.zero_mul, Nat.zero_add]
  simp [hb]

/-- A field that was read is the printed one where its spelling is plain. -/
theorem fixed_eq_iff {bits : Nat} (h : fromStrRadix bits s = some n) :
    fixed s.length n = s ↔ Plain s := by
  constructor
  · intro heq
    rw [← heq]
    exact plain_fixed _ _
  · intro hp
    unfold fromStrRadix at h
    have hhead : s.head? ≠ some '+' := fun hh =>
      absurd (hp '+' (List.mem_of_mem_head? hh)) (by decide)
    rw [if_neg hhead] at h
    obtain ⟨-, h⟩ := Option.ite_none_left_eq_some.mp h
    exact fixed_of_digits hp (Option.eq_some_of_filter_eq_some h)

theorem digits_range : ∀ {acc n : Nat}, digits acc s = some n →
    n < (acc + 1) * 16 ^ s.length ∧ ∀ c ∈ s, c.toNat < 128 := by
  induction s with
  | nil =>
    intro acc n h
    cases h
    exact ⟨by simp, fun c hc => absurd hc List.not_mem_nil⟩
  | cons c cs ih =>
    intro acc n h
    obtain ⟨d, hd, h⟩ := Option.bind_eq_some_iff.mp h
    obtain ⟨hlt, hascii⟩ := ih h
    obtain ⟨hd16, hc⟩ := value_range hd
    refine ⟨?_, fun c' hc' => ?_⟩
    · refine Nat.lt_of_lt_of_le hlt ?_
      rw [List.length_cons, Nat.pow_succ, Nat.mul_comm (16 ^ cs.length), ← Nat.mul_assoc]
      exact Nat.mul_le_mul_right _ (by omega)
    · rcases List.mem_cons.mp hc' with rfl | hc'
      · exact hc
      · exact hascii c' hc'

/-- What a field reads as is within its digits and its type. -/
theorem fromStrRadix_range {bits : Nat} (h : fromStrRadix bits s = some n) :
    n < 2 ^ bits ∧ n < 16 ^ s.length ∧ ∀ c ∈ s, c.toNat < 128 := by
  unfold fromStrRadix at h
  obtain ⟨-, h⟩ := Option.ite_none_left_eq_some.mp h
  obtain ⟨h, hbits⟩ := (Option.filter_eq_some_iff ..).mp h
  obtain ⟨hlt, hascii⟩ := digits_range h
  rw [Nat.zero_add, Nat.one_mul] at hlt
  refine ⟨of_decide_eq_true hbits, ?_⟩
  split at hlt
  · rename_i hplus
    cases s with
    | nil => cases hplus
    | cons c cs =>
      obtain rfl : c = '+' := Option.some.inj hplus
      rw [if_pos hplus] at hascii
      refine ⟨Nat.lt_of_lt_of_le hlt (Nat.pow_le_pow_right (by decide) (Nat.le_succ _)), ?_⟩
      intro c' hc'
      rcases List.mem_cons.mp hc' with rfl | hc'
      · decide
      · exact hascii c' hc'
  · rename_i hplus
    rw [if_neg hplus] at hascii
    exact ⟨hlt, hascii⟩

/-! ## Order -/

theorem append_lt_append {α : Type} [LT α] {a b s t : List α} (h : a.length = b.length) :
    a ++ s < b ++ t ↔ a < b ∨ a = b ∧ s < t := by
  induction a generalizing b with
  | nil =>
    obtain rfl := List.eq_nil_of_length_eq_zero h.symm
    simp
  | cons x a ih =>
    cases b with
    | nil => cases h
    | cons y b =>
      rw [List.cons_append, List.cons_append, List.cons_lt_cons_iff, List.cons_lt_cons_iff,
        ih (Nat.succ.inj h), List.cons.injEq]
      tauto

theorem fixed_inj {m : Nat} (hn : n < 16 ^ w) (hm : m < 16 ^ w)
    (h : fixed w n = fixed w m) : n = m := by
  have hd := digits_fixed hn 0
  rw [h, digits_fixed hm 0] at hd
  simpa using hd.symm

/-- Fields of one width compare as their numbers. -/
theorem fixed_lt_fixed : ∀ {n m : Nat}, n < 16 ^ w → m < 16 ^ w →
    (fixed w n < fixed w m ↔ n < m) := by
  induction w with
  | zero =>
    intro n m hn hm
    have hn0 : n = 0 := by omega
    have hm0 : m = 0 := by omega
    simp [fixed, hn0, hm0]
  | succ w ih =>
    intro n m hn hm
    rw [Nat.pow_succ] at hn hm
    have hn' : n / 16 < 16 ^ w := by omega
    have hm' : m / 16 < 16 ^ w := by omega
    have hlen : (fixed w (n / 16)).length = (fixed w (m / 16)).length := by
      rw [length_fixed, length_fixed]
    have heq : fixed w (n / 16) = fixed w (m / 16) ↔ n / 16 = m / 16 :=
      ⟨fixed_inj hn' hm', fun h => by rw [h]⟩
    rw [fixed, fixed, append_lt_append hlen, ih hn' hm', heq, List.cons_lt_cons_iff,
      digit_lt_digit (Nat.mod_lt _ (by decide)) (Nat.mod_lt _ (by decide))]
    simp
    omega

end Hex
