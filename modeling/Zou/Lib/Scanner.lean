import Mathlib.Algebra.Order.Ring.Nat
import Mathlib.Data.List.Infix

/-!
# Scanners of the front of a list

A scanner reads a value off the front of a list and leaves the rest, or it
fails. What it leaves is a suffix of what it was given, which is a field, so
a recursion that goes on behind something read goes on with a shorter list.

`fix` ties such a recursion. `Contracts` says that the body asks for itself
on shorter lists only, and `fix_eq` is then the recursion equation; `bind`
and its relatives show it along the body. `fix_induct` is the induction
over a successful run: a fact about what a scanner returns holds of the
recursion when the body carries it over.
-/

structure Scanner (σ α : Type) where
  run : List σ → Option (α × List σ)
  suffix : ∀ {s a r}, run s = some (a, r) → r <:+ s

namespace Scanner

variable {σ α β : Type} {p : Scanner σ α}

theorem ext_run {q : Scanner σ α} (h : ∀ s, p.run s = q.run s) : p = q := by
  cases p
  cases q
  obtain rfl := funext h
  rfl

instance : Monad (Scanner σ) where
  pure a := ⟨fun s => some (a, s), by
    intro s b r h
    cases h
    exact List.suffix_rfl⟩
  bind p f := ⟨fun s => (p.run s).bind fun x => (f x.1).run x.2, by
    intro s b r h
    obtain ⟨x, hp, hf⟩ := Option.bind_eq_some_iff.mp h
    exact ((f x.1).suffix hf).trans (p.suffix hp)⟩

@[simp] theorem run_pure (a : α) (s : List σ) : (pure a : Scanner σ α).run s = some (a, s) := rfl

theorem run_bind (p : Scanner σ α) (f : α → Scanner σ β) (s : List σ) :
    (p >>= f).run s = (p.run s).bind fun x => (f x.1).run x.2 := rfl

variable {s r : List σ}

/-- Go on behind what `p` read. -/
theorem bind_run {a : α} (h : p.run s = some (a, r))
    (f : α → Scanner σ β) : (p >>= f).run s = (f a).run r := by
  rw [run_bind, h, Option.bind_some]

theorem bind_none (h : p.run s = none) (f : α → Scanner σ β) : (p >>= f).run s = none := by
  rw [run_bind, h, Option.bind_none]

variable {f : α → Scanner σ β}

theorem bind_eq_some {t : List σ} {b : β} : (p >>= f).run s = some (b, t) ↔
      ∃ a r, p.run s = some (a, r) ∧ (f a).run r = some (b, t) := by
  rw [run_bind, Option.bind_eq_some_iff]
  constructor
  · rintro ⟨⟨a, r⟩, hp, hf⟩
    exact ⟨a, r, hp, hf⟩
  · rintro ⟨a, r, hp, hf⟩
    exact ⟨(a, r), hp, hf⟩

instance : LawfulMonad (Scanner σ) :=
  LawfulMonad.mk' _
    (by
      intro α p
      refine ext_run fun s => ?_
      show (p.run s).bind (fun x => some (x.1, x.2)) = _
      cases p.run s <;> rfl)
    (fun _ _ => rfl)
    (by
      intro α β γ p f g
      refine ext_run fun s => ?_
      show ((p.run s).bind _).bind _ = (p.run s).bind _
      cases p.run s <;> rfl)

/-! ## Primitives -/

def fail : Scanner σ α := ⟨fun _ => none, nofun⟩

@[simp] theorem fail_bind (f : α → Scanner σ β) : (fail : Scanner σ α) >>= f = fail := rfl

/-- What is left to read. -/
def rest : Scanner σ (List σ) := ⟨fun s => some (s, s), by
  intro s a r h
  cases h
  exact List.suffix_rfl⟩

@[simp] theorem run_rest (s : List σ) : (rest : Scanner σ (List σ)).run s = some (s, s) := rfl

def peek : Scanner σ (Option σ) := do return (← rest).head?

@[simp] theorem run_peek (s : List σ) :
    (peek : Scanner σ (Option σ)).run s = some (s.head?, s) := rfl

def done : Scanner σ Bool := do return (← rest).isEmpty

/-- Step over `n` elements. -/
def advance (n : Nat) : Scanner σ Unit := ⟨fun s => some ((), s.drop n), by
  intro s a r h
  cases h
  exact List.drop_suffix n s⟩

@[simp] theorem run_advance (n : Nat) (s : List σ) :
    (advance n : Scanner σ Unit).run s = some ((), s.drop n) := rfl

def takeRest : Scanner σ (List σ) := ⟨fun s => some (s, []), by
  intro s a r h
  cases h
  exact List.nil_suffix⟩

@[simp] theorem run_takeRest (s : List σ) :
    (takeRest : Scanner σ (List σ)).run s = some (s, []) := rfl

/-- The reading of `p` where it succeeds, and nothing read where it fails. -/
def attempt (p : Scanner σ α) : Scanner σ (Option α) := ⟨fun s => match p.run s with
    | some (a, r) => some (some a, r)
    | none => some (none, s), by
  intro s a r h
  cases hp : p.run s with
  | none =>
    rw [hp] at h
    cases h
    exact List.suffix_rfl
  | some x =>
    obtain ⟨b, t⟩ := x
    rw [hp] at h
    cases h
    exact p.suffix hp⟩

theorem attempt_run {a : α} (h : p.run s = some (a, r)) : (attempt p).run s = some (some a, r) := by
  simp only [attempt, h]

theorem attempt_none (h : p.run s = none) : (attempt p).run s = some (none, s) := by
  simp only [attempt, h]

/-- Read up to where `stop` holds of what is left. -/
def spanUntil (stop : List σ → Bool) : List σ → List σ × List σ
  | [] => ([], [])
  | c :: s => if stop (c :: s) then ([], c :: s) else
      ((c :: (spanUntil stop s).1), (spanUntil stop s).2)

theorem spanUntil_append (stop : List σ → Bool) (s : List σ) :
    (spanUntil stop s).1 ++ (spanUntil stop s).2 = s := by
  induction s with
  | nil => rfl
  | cons c s ih =>
    unfold spanUntil
    split
    · rfl
    · rw [List.cons_append, ih]

def readUntil (stop : List σ → Bool) : Scanner σ (List σ) :=
  ⟨fun s => some (spanUntil stop s), by
    intro s a r h
    have hsplit := spanUntil_append stop s
    rw [Option.some.inj h] at hsplit
    exact ⟨a, hsplit⟩⟩

theorem run_readUntil (stop : List σ → Bool) (s : List σ) :
    (readUntil stop).run s = some (spanUntil stop s) := rfl

/-- Where reading stops: at the end, or where `stop` says so. -/
def StopsAt (stop : List σ → Bool) (r : List σ) : Prop := r = [] ∨ stop r = true

variable {stop : List σ → Bool}

/-- `s` is read whole when `stop` holds nowhere in it and does behind it. -/
theorem spanUntil_eq (hs : ∀ t, t ≠ [] → t <:+ s → stop (t ++ r) = false) (hr : StopsAt stop r) :
    spanUntil stop (s ++ r) = (s, r) := by
  induction s with
  | nil =>
    cases r with
    | nil => rfl
    | cons c r => rw [List.nil_append, spanUntil, if_pos (hr.resolve_left (List.cons_ne_nil _ _))]
  | cons c s ih =>
    have hc : stop (c :: (s ++ r)) = false := hs (c :: s) (List.cons_ne_nil _ _) List.suffix_rfl
    have ht := ih fun t hne h => hs t hne (h.trans (List.suffix_cons c s))
    rw [List.cons_append, spanUntil, hc, if_neg Bool.false_ne_true, ht]

theorem run_readUntil_eq (hs : ∀ t, t ≠ [] → t <:+ s → stop (t ++ r) = false)
    (hr : StopsAt stop r) : (readUntil stop).run (s ++ r) = some (s, r) := by
  rw [run_readUntil, spanUntil_eq hs hr]

/-- What was read has no stop in it, and there is one behind it. -/
theorem spanUntil_spec (stop : List σ → Bool) (s : List σ) :
    (∀ t, t ≠ [] → t <:+ (spanUntil stop s).1 → stop (t ++ (spanUntil stop s).2) = false)
      ∧ StopsAt stop (spanUntil stop s).2 := by
  induction s with
  | nil =>
    refine ⟨?_, .inl rfl⟩
    intro t hne h
    exact absurd (List.suffix_nil.mp h) hne
  | cons c s ih =>
    unfold spanUntil
    split
    · rename_i hc
      refine ⟨?_, .inr hc⟩
      intro t hne h
      exact absurd (List.suffix_nil.mp h) hne
    · rename_i hc
      refine ⟨?_, ih.2⟩
      intro t hne h
      rcases List.suffix_cons_iff.mp h with rfl | h
      · rw [List.cons_append, spanUntil_append]
        exact eq_false_of_ne_true hc
      · exact ih.1 t hne h

theorem readUntil_spec {a : List σ} (h : (readUntil stop).run s = some (a, r)) :
    s = a ++ r ∧ (∀ t, t ≠ [] → t <:+ a → stop (t ++ r) = false) ∧ StopsAt stop r := by
  have hspan : spanUntil stop s = (a, r) := Option.some.inj h
  have happ := spanUntil_append stop s
  have hspec := spanUntil_spec stop s
  rw [hspan] at happ hspec
  exact ⟨happ.symm, hspec⟩

/-! ## Tokens -/

section Tokens

variable [DecidableEq σ]

/-- Take a word that stands at the front. -/
def eatStr (w : List σ) : Scanner σ Bool :=
  ⟨fun s => if w <+: s then some (true, s.drop w.length) else some (false, s), by
    intro s a r h
    split at h
    · cases h
      exact List.drop_suffix _ s
    · cases h
      exact List.suffix_rfl⟩

def eat (c : σ) : Scanner σ Bool := eatStr [c]

def expect (c : σ) : Scanner σ Unit := do
  if ← eat c then return ()
  fail

variable {s : List σ}

@[simp] theorem eatStr_self (w r : List σ) : (eatStr w).run (w ++ r) = some (true, r) := by
  show (if w <+: w ++ r then _ else _) = _
  rw [if_pos (List.prefix_append w r), List.drop_left]

theorem eatStr_neg {w : List σ} (h : ¬ w <+: s) : (eatStr w).run s = some (false, s) := if_neg h

variable {r : List σ}

theorem eatStr_cases {w : List σ} {b : Bool} (h : (eatStr w).run s = some (b, r)) :
    b = true ∧ s = w ++ r ∨ b = false ∧ r = s ∧ ¬ w <+: s := by
  have h : (if w <+: s then some (true, s.drop w.length) else some (false, s)) = some (b, r) := h
  split at h
  · rename_i hw
    obtain ⟨t, rfl⟩ := hw
    cases h
    exact .inl ⟨rfl, by rw [List.drop_left]⟩
  · rename_i hw
    cases h
    exact .inr ⟨rfl, rfl, hw⟩

@[simp] theorem eat_self (c : σ) (r : List σ) : (eat c).run (c :: r) = some (true, r) :=
  eatStr_self [c] r

theorem eat_neg {c : σ} (h : s.head? ≠ some c) : (eat c).run s = some (false, s) := by
  refine eatStr_neg fun hp => h ?_
  obtain ⟨t, rfl⟩ := hp
  rfl

theorem eat_cases {c : σ} {b : Bool} (h : (eat c).run s = some (b, r)) :
    b = true ∧ s = c :: r ∨ b = false ∧ r = s ∧ s.head? ≠ some c := by
  rcases eatStr_cases h with h | ⟨hb, hr, hn⟩
  · exact .inl h
  · refine .inr ⟨hb, hr, fun hh => hn ?_⟩
    cases s with
    | nil => cases hh
    | cons d s =>
      obtain rfl : d = c := Option.some.inj hh
      exact ⟨s, rfl⟩

@[simp] theorem expect_self (c : σ) (r : List σ) : (expect c).run (c :: r) = some ((), r) := by
  rw [expect, bind_run (eat_self c r)]
  rfl

theorem expect_eq {c : σ} (h : (expect c).run s = some ((), r)) : s = c :: r := by
  obtain ⟨b, t, he, ht⟩ := bind_eq_some.mp h
  rcases eat_cases he with ⟨rfl, rfl⟩ | ⟨rfl, -, -⟩
  · cases ht
    rfl
  · cases ht

end Tokens

/-! ## Recursion -/

/-- Two scanners do the same on lists shorter than `n`. -/
def Alike (n : Nat) (p q : Scanner σ α) : Prop := ∀ s : List σ, s.length < n → p.run s = q.run s

theorem Alike.refl (n : Nat) (p : Scanner σ α) : Alike n p p := fun _ _ => rfl

theorem Alike.bind {n : Nat} {q : Scanner σ α} {g : α → Scanner σ β} (hp : Alike n p q)
    (hf : ∀ a, Alike n (f a) (g a)) : Alike n (p >>= f) (q >>= g) := by
  intro s hs
  rw [run_bind, run_bind, ← hp s hs]
  cases hr : p.run s with
  | none => rfl
  | some x => exact hf x.1 x.2 (Nat.lt_of_le_of_lt (p.suffix hr).length_le hs)

/-- Behind something read the lists are shorter. -/
theorem Alike.behind {n : Nat} {g : α → Scanner σ β}
    (hp : ∀ s a r, p.run s = some (a, r) → Alike n (f a) (g a) ∧ r.length < s.length
      ∨ f a = g a) : Alike (n + 1) (p >>= f) (p >>= g) := by
  intro s hs
  rw [run_bind, run_bind]
  cases hr : p.run s with
  | none => rfl
  | some x =>
    rcases hp s x.1 x.2 hr with ⟨hf, hlt⟩ | heq
    · exact hf x.2 (by omega)
    · show (f x.1).run x.2 = (g x.1).run x.2
      rw [heq]

/-- The body of a recursion that asks for itself on shorter lists only. -/
def Contracts (F : Scanner σ α → Scanner σ α) : Prop :=
  ∀ n p q, Alike n p q → Alike (n + 1) (F p) (F q)

/-- As many turns as the list is long, and one. -/
def fix (F : Scanner σ α → Scanner σ α) : Scanner σ α :=
  ⟨fun s => (F^[s.length + 1] fail).run s, fun h => (F^[_] fail).suffix h⟩

variable {F : Scanner σ α → Scanner σ α}

theorem Contracts.iterate (h : Contracts F) (n : Nat) :
    ∀ k l, n ≤ k → n ≤ l → Alike n (F^[k] fail) (F^[l] fail) := by
  induction n with
  | zero =>
    intro k l _ _ s hs
    exact absurd hs (Nat.not_lt_zero _)
  | succ n ih =>
    intro k l hk hl
    obtain ⟨k, rfl⟩ := Nat.exists_eq_add_of_le' (Nat.le_trans (Nat.succ_pos n) hk)
    obtain ⟨l, rfl⟩ := Nat.exists_eq_add_of_le' (Nat.le_trans (Nat.succ_pos n) hl)
    rw [Function.iterate_succ_apply', Function.iterate_succ_apply']
    exact h n _ _ (ih k l (by omega) (by omega))

/-- The recursion equation. -/
theorem fix_eq (h : Contracts F) : fix F = F (fix F) := by
  refine ext_run fun s => ?_
  show (F^[s.length + 1] fail).run s = _
  rw [Function.iterate_succ_apply']
  refine h s.length _ _ (fun t ht => ?_) s (Nat.lt_succ_self _)
  exact h.iterate (t.length + 1) _ _ (by omega) (by omega) t (Nat.lt_succ_self _)

/-- What the body carries over holds of every reading of the recursion. -/
theorem fix_induct {P : List σ → α → List σ → Prop}
    (hF : ∀ p : Scanner σ α, (∀ s a r, p.run s = some (a, r) → P s a r) →
      ∀ s a r, (F p).run s = some (a, r) → P s a r) :
    ∀ {s a r}, (fix F).run s = some (a, r) → P s a r := by
  intro s a r h
  have hall : ∀ n s a r, (F^[n] fail).run s = some (a, r) → P s a r := by
    intro n
    induction n with
    | zero =>
      nofun
    | succ n ih =>
      rw [Function.iterate_succ_apply']
      exact hF _ ih
  exact hall _ s a r h

end Scanner
