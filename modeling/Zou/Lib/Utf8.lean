import Mathlib.Algebra.Order.Ring.Nat

/-!
# Reading bytes as text, with repairs

The machine that reads UTF-8 one byte at a time: how many continuation
bytes it still wants, the bounds of the next one, and the value so far. A
byte that cannot go on ends what was begun, which then reads as U+FFFD, and
is looked at again as a first byte. An ASCII byte always starts afresh, so
the reading splits at it.
-/

namespace Utf8

structure State where
  wanted : Nat
  lower : Nat
  upper : Nat
  value : Nat
  deriving DecidableEq, Repr

def start : State := ⟨0, 0x80, 0xBF, 0⟩

def replacement : Char := '\uFFFD'

/-- What a byte above ASCII begins. -/
def lead (b : Nat) : Option State :=
  if 0xC2 ≤ b ∧ b ≤ 0xDF then some ⟨1, 0x80, 0xBF, b - 0xC0⟩
  else if b = 0xE0 then some ⟨2, 0xA0, 0xBF, b - 0xE0⟩
  else if b = 0xED then some ⟨2, 0x80, 0x9F, b - 0xE0⟩
  else if 0xE1 ≤ b ∧ b ≤ 0xEF then some ⟨2, 0x80, 0xBF, b - 0xE0⟩
  else if b = 0xF0 then some ⟨3, 0x90, 0xBF, b - 0xF0⟩
  else if b = 0xF4 then some ⟨3, 0x80, 0x8F, b - 0xF0⟩
  else if 0xF1 ≤ b ∧ b ≤ 0xF3 then some ⟨3, 0x80, 0xBF, b - 0xF0⟩
  else none

/-- A first byte: the characters it gives and the state behind it. -/
def first (b : Nat) : List Char × State :=
  if b < 0x80 then ([Char.ofNat b], start)
  else match lead b with
    | some s => ([], s)
    | none => ([replacement], start)

/-- The characters a byte gives and the state behind it. -/
def step (s : State) (b : Nat) : List Char × State :=
  if s.wanted = 0 then first b
  else if s.lower ≤ b ∧ b ≤ s.upper then
    let value := s.value * 64 + (b - 0x80)
    if s.wanted = 1 then ([Char.ofNat value], start)
    else ([], ⟨s.wanted - 1, 0x80, 0xBF, value⟩)
  else (replacement :: (first b).1, (first b).2)

def lossyFrom : State → List UInt8 → List Char
  | s, [] => if s.wanted = 0 then [] else [replacement]
  | s, b :: bytes => (step s b.toNat).1 ++ lossyFrom (step s b.toNat).2 bytes

/-- `String::from_utf8_lossy`. -/
def lossy (bytes : List UInt8) : List Char := lossyFrom start bytes

/-! ## Splitting at an ASCII byte -/

/-- A state that takes no ASCII byte for a continuation. -/
def State.Above (s : State) : Prop := 0x80 ≤ s.lower

variable {b : Nat} {s : State}

theorem lead_above (h : lead b = some s) : s.Above := by
  unfold lead at h
  repeat' split at h
  all_goals try
    cases h
    exact Nat.le_of_ble_eq_true rfl
  cases h

theorem first_above (b : Nat) : (first b).2.Above := by
  unfold first
  split
  · exact le_rfl
  · cases h : lead b with
    | none => exact le_rfl
    | some s => exact lead_above h

theorem step_above (s : State) (b : Nat) : (step s b).2.Above := by
  unfold step
  split
  · exact first_above b
  · split
    · dsimp only
      split <;> exact le_rfl
    · exact first_above b

variable {a : UInt8}

/-- An ASCII byte ends what was begun and reads as itself. -/
theorem step_ascii (hs : s.Above) (ha : a.toNat < 0x80) :
    step s a.toNat = (lossyFrom s [] ++ [Char.ofNat a.toNat], start) := by
  have hfirst : first a.toNat = ([Char.ofNat a.toNat], start) := if_pos ha
  unfold step
  rw [hfirst, lossyFrom]
  split
  · rfl
  · rw [if_neg]
    · rfl
    · unfold State.Above at hs
      omega

theorem lossyFrom_ascii (ha : a.toNat < 0x80) (rest : List UInt8) :
    ∀ (bytes : List UInt8) {s : State}, s.Above →
      lossyFrom s (bytes ++ a :: rest)
        = lossyFrom s bytes ++ Char.ofNat a.toNat :: lossyFrom start rest
  | [], s, hs => by
      rw [List.nil_append]
      show (step s a.toNat).1 ++ lossyFrom (step s a.toNat).2 rest = _
      rw [step_ascii hs ha, List.append_assoc]
      rfl
  | b :: bytes, s, hs => by
      show (step s b.toNat).1 ++ lossyFrom (step s b.toNat).2 (bytes ++ a :: rest)
        = (step s b.toNat).1 ++ lossyFrom (step s b.toNat).2 bytes
          ++ Char.ofNat a.toNat :: lossyFrom start rest
      rw [lossyFrom_ascii ha rest bytes (step_above s b.toNat), List.append_assoc]

theorem lossy_ascii (ha : a.toNat < 0x80) (bytes rest : List UInt8) :
    lossy (bytes ++ a :: rest) = lossy bytes ++ Char.ofNat a.toNat :: lossy rest :=
  lossyFrom_ascii ha rest bytes le_rfl

/-! ## Reading what was written -/

/-- An ascii byte in the bytes of a character is all of them. -/
theorem mem_utf8EncodeChar {c : Char} {b : UInt8} (h : b ∈ String.utf8EncodeChar c)
    (hb : b.toNat < 128) : String.utf8EncodeChar c = [b] ∧ c = Char.ofNat b.toNat := by
  have hlong : ∀ n : Nat, 128 ≤ n → n < 256 → b ≠ UInt8.ofNat n := by
    rintro n hlo hhi rfl
    rw [UInt8.toNat_ofNat', Nat.mod_eq_of_lt hhi] at hb
    omega
  unfold String.utf8EncodeChar at h ⊢
  dsimp only at h ⊢
  split at h
  · rename_i hle
    cases List.mem_singleton.mp h
    rw [if_pos hle, UInt8.toNat_ofNat', Nat.mod_eq_of_lt (by omega)]
    exact ⟨rfl, (Char.ofNat_toNat c).symm⟩
  · exfalso
    split at h
    · simp only [List.mem_cons, List.not_mem_nil, or_false] at h
      rcases h with h | h
      all_goals exact hlong _ (by omega) (by omega) h
    · split at h
      · simp only [List.mem_cons, List.not_mem_nil, or_false] at h
        rcases h with h | h | h
        all_goals exact hlong _ (by omega) (by omega) h
      · simp only [List.mem_cons, List.not_mem_nil, or_false] at h
        rcases h with h | h | h | h
        all_goals exact hlong _ (by omega) (by omega) h

/-- The bytes of a character start with one that continues nothing. -/
theorem utf8EncodeChar_cons (c : Char) :
    ∃ b bytes, String.utf8EncodeChar c = b :: bytes ∧ (b.toNat < 0x80 ∨ 0xC0 ≤ b.toNat) := by
  unfold String.utf8EncodeChar
  dsimp only
  split
  · refine ⟨_, _, rfl, .inl ?_⟩
    rw [UInt8.toNat_ofNat', Nat.mod_eq_of_lt (by omega)]
    omega
  · split
    · refine ⟨_, _, rfl, .inr ?_⟩
      rw [UInt8.toNat_ofNat', Nat.mod_eq_of_lt (by omega)]
      omega
    · split
      · refine ⟨_, _, rfl, .inr ?_⟩
        rw [UInt8.toNat_ofNat', Nat.mod_eq_of_lt (by omega)]
        omega
      · refine ⟨_, _, rfl, .inr ?_⟩
        rw [UInt8.toNat_ofNat', Nat.mod_eq_of_lt (by omega)]
        omega

theorem step_more (hwanted : 1 < s.wanted) (hlower : s.lower ≤ b) (hupper : b ≤ s.upper) :
    step s b = ([], ⟨s.wanted - 1, 0x80, 0xBF, s.value * 64 + (b - 0x80)⟩) := by
  unfold step
  rw [if_neg (by omega), if_pos ⟨hlower, hupper⟩]
  rw [if_neg (by omega)]

theorem step_last (hwanted : s.wanted = 1) (hlower : s.lower ≤ b) (hupper : b ≤ s.upper) :
    step s b = ([Char.ofNat (s.value * 64 + (b - 0x80))], start) := by
  unfold step
  rw [if_neg (by omega), if_pos ⟨hlower, hupper⟩]
  rw [if_pos hwanted]

theorem step_lead (hb : 0x80 ≤ b) (h : lead b = some s) : step start b = ([], s) := by
  unfold step first
  rw [if_pos (show start.wanted = 0 from rfl), if_neg (by omega), h]

/-- The first byte of three admits the second. -/
theorem lead_three {c : Nat} (hb : 0xE0 ≤ b) (hb' : b ≤ 0xEF) (hc : 0x80 ≤ c) (hc' : c ≤ 0xBF)
    (hshort : b = 0xE0 → 0xA0 ≤ c) (hsurrogate : b = 0xED → c ≤ 0x9F) :
    ∃ s, lead b = some s ∧ s.wanted = 2 ∧ s.value = b - 0xE0 ∧ s.lower ≤ c ∧ c ≤ s.upper := by
  unfold lead
  rw [if_neg (by omega)]
  split
  · exact ⟨_, rfl, rfl, rfl, hshort ‹_›, hc'⟩
  · split
    · exact ⟨_, rfl, rfl, rfl, hc, hsurrogate ‹_›⟩
    · rw [if_pos (by omega)]
      exact ⟨_, rfl, rfl, rfl, hc, hc'⟩

/-- The first byte of four admits the second. -/
theorem lead_four {c : Nat} (hb : 0xF0 ≤ b) (hb' : b ≤ 0xF4) (hc : 0x80 ≤ c) (hc' : c ≤ 0xBF)
    (hshort : b = 0xF0 → 0x90 ≤ c) (hlarge : b = 0xF4 → c ≤ 0x8F) :
    ∃ s, lead b = some s ∧ s.wanted = 3 ∧ s.value = b - 0xF0 ∧ s.lower ≤ c ∧ c ≤ s.upper := by
  unfold lead
  rw [if_neg (by omega), if_neg (by omega), if_neg (by omega), if_neg (by omega)]
  split
  · exact ⟨_, rfl, rfl, rfl, hshort ‹_›, hc'⟩
  · split
    · exact ⟨_, rfl, rfl, rfl, hc, hlarge ‹_›⟩
    · rw [if_pos (by omega)]
      exact ⟨_, rfl, rfl, rfl, hc, hc'⟩

/-- The bytes of a character read as the character. -/
theorem lossyFrom_encode (c : Char) (rest : List UInt8) :
    lossyFrom start (String.utf8EncodeChar c ++ rest) = c :: lossyFrom start rest := by
  have hvalid : c.toNat < 0xD800 ∨ (0xDFFF < c.toNat ∧ c.toNat < 0x110000) := c.valid
  have hval : c.val.toNat = c.toNat := rfl
  have hchar : ∀ n, n = c.toNat → Char.ofNat n = c := by
    rintro n rfl
    exact Char.ofNat_toNat c
  unfold String.utf8EncodeChar
  dsimp only
  rw [hval]
  generalize c.toNat = v at *
  split
  · rw [List.singleton_append, lossyFrom, UInt8.toNat_ofNat', Nat.mod_eq_of_lt (by omega)]
    unfold step first
    rw [if_pos (show start.wanted = 0 from rfl), if_pos (by omega), hchar v rfl]
    rfl
  · split
    · have hlead : lead (v / 64 % 32 + 0xC0) = some ⟨1, 0x80, 0xBF, v / 64 % 32 + 0xC0 - 0xC0⟩ := by
        unfold lead
        rw [if_pos (by omega)]
      simp only [List.cons_append, List.nil_append, lossyFrom, UInt8.toNat_ofNat']
      rw [Nat.mod_eq_of_lt (a := v / 64 % 32 + 0xC0) (by omega),
        Nat.mod_eq_of_lt (a := v % 64 + 0x80) (by omega), step_lead (by omega) hlead]
      rw [step_last rfl (by dsimp only; omega) (by dsimp only; omega)]
      dsimp only
      rw [hchar _ (by omega)]
      rfl
    · split
      · obtain ⟨s, hlead, hwanted, hvalue, hlower, hupper⟩ :=
          lead_three (b := v / 4096 % 16 + 0xE0) (c := v / 64 % 64 + 0x80) (by omega) (by omega)
            (by omega) (by omega) (by omega) (by omega)
        simp only [List.cons_append, List.nil_append, lossyFrom, UInt8.toNat_ofNat']
        rw [Nat.mod_eq_of_lt (a := v / 4096 % 16 + 0xE0) (by omega),
          Nat.mod_eq_of_lt (a := v / 64 % 64 + 0x80) (by omega),
          Nat.mod_eq_of_lt (a := v % 64 + 0x80) (by omega), step_lead (by omega) hlead]
        rw [step_more (by omega) hlower hupper]
        rw [step_last (by dsimp only; omega) (by dsimp only; omega) (by dsimp only; omega)]
        dsimp only
        rw [hchar _ (by omega)]
        rfl
      · obtain ⟨s, hlead, hwanted, hvalue, hlower, hupper⟩ :=
          lead_four (b := v / 262144 % 8 + 0xF0) (c := v / 4096 % 64 + 0x80) (by omega) (by omega)
            (by omega) (by omega) (by omega) (by omega)
        simp only [List.cons_append, List.nil_append, lossyFrom, UInt8.toNat_ofNat']
        rw [Nat.mod_eq_of_lt (a := v / 262144 % 8 + 0xF0) (by omega),
          Nat.mod_eq_of_lt (a := v / 4096 % 64 + 0x80) (by omega),
          Nat.mod_eq_of_lt (a := v / 64 % 64 + 0x80) (by omega),
          Nat.mod_eq_of_lt (a := v % 64 + 0x80) (by omega), step_lead (by omega) hlead]
        rw [step_more (by omega) hlower hupper]
        rw [step_more (by dsimp only; omega) (by dsimp only; omega) (by dsimp only; omega)]
        rw [step_last (by dsimp only; omega) (by dsimp only; omega) (by dsimp only; omega)]
        dsimp only
        rw [hchar _ (by omega)]
        rfl

/-- The bytes of a text read as the text. -/
theorem lossy_encode (s : List Char) : lossy (s.flatMap String.utf8EncodeChar) = s := by
  induction s with
  | nil => rfl
  | cons c s ih =>
    rw [List.flatMap_cons]
    exact (lossyFrom_encode c _).trans (congrArg (c :: ·) ih)

end Utf8
