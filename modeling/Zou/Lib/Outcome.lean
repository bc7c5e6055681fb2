import Zou.Lib.Bytes

/-!
# Code that indexes a buffer

The result of code that reads a buffer it does not trust: a value, an error
it reports, or a panic, which is what an index or a range out of bounds is.
`Meets x Q` says that `x` does not panic and that what it returns, if it
returns, has `Q`. A decoder is a sequence of checks and reads, and the
rules below follow its text: a check leaves its negation behind, and a read
asks for its bounds.
-/

inductive Outcome (ε α : Type) where
  | ok (a : α)
  | err (e : ε)
  | panicked
  deriving DecidableEq, Repr

namespace Outcome

variable {ε α β : Type}

def bind (x : Outcome ε α) (f : α → Outcome ε β) : Outcome ε β :=
  match x with
  | ok a => f a
  | err e => err e
  | panicked => panicked

instance : Monad (Outcome ε) where
  pure := ok
  bind := bind

@[simp] theorem pure_eq (a : α) : (pure a : Outcome ε α) = ok a := rfl

@[simp] theorem ok_bind (a : α) (f : α → Outcome ε β) : (ok a >>= f) = f a := rfl

@[simp] theorem err_bind (e : ε) (f : α → Outcome ε β) : (err e >>= f) = err e := rfl

@[simp] theorem panicked_bind (f : α → Outcome ε β) :
    ((panicked : Outcome ε α) >>= f) = panicked := rfl

instance : LawfulMonad (Outcome ε) := LawfulMonad.mk' _
  (fun x => by cases x <;> rfl) (fun _ _ => rfl) (fun x _ _ => by cases x <;> rfl)

variable {x : Outcome ε α}

/-- A sequence that returns has a first part that returned. -/
theorem bind_eq_ok {f : α → Outcome ε β} {b : β} :
    (x >>= f) = ok b ↔ ∃ a, x = ok a ∧ f a = ok b := by
  cases x with
  | ok a => simp only [ok_bind, ok.injEq, exists_eq_left']
  | err e => simp only [err_bind, reduceCtorEq, false_and, exists_false]
  | panicked => simp only [panicked_bind, reduceCtorEq, false_and, exists_false]

/-- Report `e` when `c` holds. -/
def reject (c : Prop) [Decidable c] (e : ε) : Outcome ε Unit := if c then err e else ok ()

@[simp] theorem reject_neg {c : Prop} [Decidable c] {e : ε} (h : ¬ c) : reject c e = ok () :=
  if_neg h

@[simp] theorem reject_eq_ok {c : Prop} [Decidable c] {e : ε} {u : Unit} :
    reject c e = ok u ↔ ¬ c := by
  rw [reject]
  split
  · simp only [reduceCtorEq, not_true_eq_false, *]
  · simp only [not_false_eq_true, *]

/-- `n` values read one behind the other, and what is left. -/
def many (parse : List UInt8 → Outcome ε (α × List UInt8)) :
    Nat → List UInt8 → Outcome ε (List α × List UInt8)
  | 0, b => pure ([], b)
  | n + 1, b => do
      let (x, b) ← parse b
      let (xs, b) ← many parse n b
      pure (x :: xs, b)

theorem many_bytes {parse : List UInt8 → Outcome ε (α × List UInt8)} {bytes : α → List UInt8}
    {xs : List α} (h : ∀ x ∈ xs, ∀ rest, parse (bytes x ++ rest) = ok (x, rest))
    (rest : List UInt8) : many parse xs.length (xs.flatMap bytes ++ rest) = ok (xs, rest) := by
  induction xs with
  | nil => rfl
  | cons x xs ih =>
    rw [List.flatMap_cons, List.append_assoc, List.length_cons, many,
      h x List.mem_cons_self, ok_bind]
    simp only [ih fun y hy => h y (List.mem_cons_of_mem x hy), ok_bind, pure_eq]

/-! ## Reads -/

/-- `b[lo..hi]`. -/
def range (b : List UInt8) (lo hi : Nat) : Outcome ε (List UInt8) :=
  if lo ≤ hi ∧ hi ≤ b.length then ok (Bytes.slice b lo (hi - lo)) else panicked

/-- `b[i]`. -/
def index (b : List UInt8) (i : Nat) : Outcome ε UInt8 :=
  match b[i]? with
  | some x => ok x
  | none => panicked

variable {b : List UInt8} {lo hi : Nat}

theorem range_eq (h : lo ≤ hi) (hb : hi ≤ b.length) :
    (range b lo hi : Outcome ε _) = ok (Bytes.slice b lo (hi - lo)) :=
  if_pos ⟨h, hb⟩

/-- A range that is all of a part of the buffer. -/
theorem range_part {a x : List UInt8} (ha : a.length = lo)
    (hx : lo + x.length = hi) : (range (a ++ (x ++ b)) lo hi : Outcome ε _) = ok x := by
  rw [range_eq (by omega) (by simp only [List.length_append]; omega),
    Bytes.slice_skip (by omega), ha, Nat.sub_self, Bytes.slice_head (by omega)]

theorem range_split {buf a x : List UInt8} (h : buf = a ++ (x ++ b))
    (ha : a.length = lo) (hx : lo + x.length = hi) : (range buf lo hi : Outcome ε _) = ok x := by
  rw [h, range_part ha hx]

/-! A buffer that starts with a field. -/

@[simp] theorem range_le_skip {w n lo hi : Nat} {b : List UInt8} (h : w ≤ lo) (hlo : lo ≤ hi) :
    (range (Bytes.le w n ++ b) lo hi : Outcome ε _) = range b (lo - w) (hi - w) := by
  rw [range, range, Bytes.slice_le_skip h, List.length_append, Bytes.length_le]
  congr 1
  · exact propext (by omega)
  · rw [show hi - w - (lo - w) = hi - lo by omega]

@[simp] theorem range_le_head {w n : Nat} {b : List UInt8} :
    (range (Bytes.le w n ++ b) 0 w : Outcome ε _) = ok (Bytes.le w n) := by
  rw [range_eq (Nat.zero_le w) (by simp), Nat.sub_zero, Bytes.slice_le_head]

@[simp] theorem range_le_all {w n : Nat} :
    (range (Bytes.le w n) 0 w : Outcome ε _) = ok (Bytes.le w n) := by
  rw [range_eq (Nat.zero_le w) (by simp), Nat.sub_zero, Bytes.slice_le]

@[simp] theorem range_cons_skip {x : UInt8} {lo hi : Nat} {b : List UInt8} (h : 1 ≤ lo)
    (hlo : lo ≤ hi) : (range (x :: b) lo hi : Outcome ε _) = range b (lo - 1) (hi - 1) := by
  have hslice : Bytes.slice (x :: b) lo (hi - lo) = Bytes.slice b (lo - 1) (hi - lo) :=
    Bytes.slice_skip (a := [x]) h
  rw [range, range, hslice, List.length_cons]
  congr 1
  · exact propext (by omega)
  · rw [show hi - 1 - (lo - 1) = hi - lo by omega]

@[simp] theorem index_le_skip {w n i : Nat} {b : List UInt8} (h : w ≤ i) :
    (index (Bytes.le w n ++ b) i : Outcome ε _) = index b (i - w) := by
  rw [index, index, List.getElem?_append_right (by rwa [Bytes.length_le]), Bytes.length_le]

@[simp] theorem index_head {x : UInt8} {b : List UInt8} :
    (index (x :: b) 0 : Outcome ε _) = ok x := rfl

/-! ## What a decoder meets -/

def Meets (x : Outcome ε α) (Q : α → Prop) : Prop :=
  match x with
  | ok a => Q a
  | err _ => True
  | panicked => False

variable {P Q : α → Prop} {R : β → Prop}

theorem Meets.ok {a : α} (h : Q a) : Meets (Outcome.ok a : Outcome ε α) Q := h

theorem Meets.err {e : ε} : Meets (Outcome.err e : Outcome ε α) Q := trivial

theorem Meets.mono (hx : Meets x P) (h : ∀ a, P a → Q a) : Meets x Q := by
  cases x with
  | ok a => exact h a hx
  | err e => trivial
  | panicked => exact hx.elim

theorem Meets.bind {f : α → Outcome ε β} (hx : Meets x P)
    (hf : ∀ a, P a → Meets (f a) R) : Meets (x >>= f) R := by
  cases x with
  | ok a => exact hf a hx
  | err e => trivial
  | panicked => exact hx.elim

theorem Meets.of_ok (hx : Meets x Q) {a : α} (h : x = Outcome.ok a) : Q a := by
  rw [h] at hx
  exact hx

theorem Meets.ne_panicked (hx : Meets x Q) : x ≠ panicked := by
  intro h
  rw [h] at hx
  exact hx

theorem Meets.reject {c : Prop} [Decidable c] {e : ε} {f : Unit → Outcome ε β}
    (h : ¬ c → Meets (f ()) R) : Meets (Outcome.reject c e >>= f) R := by
  by_cases hc : c
  · rw [Outcome.reject, if_pos hc]
    exact Meets.err
  · rw [reject_neg hc]
    exact h hc

theorem Meets.range {f : List UInt8 → Outcome ε β} (h : lo ≤ hi) (hb : hi ≤ b.length)
    (hf : Meets (f (Bytes.slice b lo (hi - lo))) R) : Meets (Outcome.range b lo hi >>= f) R := by
  rw [range_eq h hb]
  exact hf

theorem Meets.index {i : Nat} {f : UInt8 → Outcome ε β} (h : i < b.length)
    (hf : ∀ x, b[i]? = some x → Meets (f x) R) : Meets (Outcome.index b i >>= f) R := by
  have hx := List.getElem?_eq_getElem h
  rw [Outcome.index, hx]
  exact hf _ hx

/-- What each value meets, they all do. `I` is what the buffer keeps. -/
theorem Meets.many {parse : List UInt8 → Outcome ε (α × List UInt8)} {I : List UInt8 → Prop}
    (h : ∀ b, I b → Meets (parse b) fun r => Q r.1 ∧ I r.2) (n : Nat) (hb : I b) :
    Meets (Outcome.many parse n b) fun r => (∀ x ∈ r.1, Q x) ∧ I r.2 := by
  induction n generalizing b with
  | zero => exact Meets.ok ⟨nofun, hb⟩
  | succ n ih =>
    refine Meets.bind (h b hb) fun r hr => Meets.bind (ih hr.2) fun rs hrs => Meets.ok ?_
    exact ⟨List.forall_mem_cons.mpr ⟨hr.1, hrs.1⟩, hrs.2⟩

end Outcome
