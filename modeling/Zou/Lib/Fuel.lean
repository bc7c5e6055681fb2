import Mathlib.Algebra.Order.Ring.Nat

/-!
# Functions on fuel

A recursion that nothing bounds is a function of its fuel, `none` where the
fuel runs out. `Comes f o` says what comes of it: with some value, every
run that does not run out has it and there is fuel enough for it; with
`none`, no fuel is enough. The rules build this along the body of the
recursion, so a run is followed without counting its fuel.
-/

namespace Fuel

variable {α β : Type} {f g : Nat → Option β} {o o' : Option β}

/-- What comes of a recursion, whatever the fuel. -/
def Comes (f : Nat → Option β) (o : Option β) : Prop :=
  (∀ n, f n = none ∨ f n = o) ∧ ∃ n, ∀ m, n ≤ m → f m = o

/-- Some fuel is enough for a value, and no fuel for none. -/
theorem Comes.isSome_iff (h : Comes f o) : (∃ n, (f n).isSome) ↔ o.isSome := by
  constructor
  · rintro ⟨n, hn⟩
    rcases h.1 n with hnone | heq
    · rw [hnone] at hn
      cases hn
    · rwa [heq] at hn
  · intro ho
    obtain ⟨n, hn⟩ := h.2
    exact ⟨n, by rwa [hn n (Nat.le_refl n)]⟩

/-- A value that comes out with some fuel is what comes of it. -/
theorem Comes.of_eq {n : Nat} {b : β} (h : Comes f o) (hn : f n = some b) : o = some b := by
  rcases h.1 n with hnone | heq
  · rw [hnone] at hn
    cases hn
  · rw [← heq, hn]

theorem Comes.hangs (h : ∀ n, f n = none) : Comes f none :=
  ⟨fun n => .inl (h n), 0, fun m _ => h m⟩

theorem Comes.eq_none (h : Comes f none) (n : Nat) : f n = none := (h.1 n).elim id id

/-! ## Rules -/

/-- A body that asks for nothing more. -/
theorem Comes.now (h0 : f 0 = none) (h : ∀ n, f (n + 1) = o) : Comes f o := by
  refine ⟨fun n => ?_, 1, fun m hm => ?_⟩
  · cases n with
    | zero => exact .inl h0
    | succ n => exact .inr (h n)
  · obtain ⟨m, rfl⟩ := Nat.exists_eq_add_of_le' hm
    exact h m

/-- A body with a unit less. -/
theorem Comes.succ (h0 : f 0 = none) (h : ∀ n, f (n + 1) = g n) (hg : Comes g o) : Comes f o := by
  obtain ⟨hall, n, hn⟩ := hg
  refine ⟨fun n => ?_, n + 1, fun m hm => ?_⟩
  · cases n with
    | zero => exact .inl h0
    | succ n =>
      rw [h]
      exact hall n
  · obtain ⟨m, rfl⟩ := Nat.exists_eq_add_of_le' (Nat.le_trans (Nat.le_add_left 1 n) hm)
    rw [h]
    exact hn m (Nat.le_of_succ_le_succ hm)

variable {p : Nat → Option α}

/-- One recursion after the other. -/
theorem Comes.bind {k : α → Nat → Option β} {a : α}
    (hp : Comes p (some a)) (hk : Comes (k a) o) : Comes (fun n => (p n).bind fun x => k x n) o := by
  obtain ⟨hpall, n, hn⟩ := hp
  obtain ⟨hkall, n', hn'⟩ := hk
  refine ⟨fun m => ?_, max n n', fun m hm => ?_⟩
  · dsimp only
    rcases hpall m with h | h
    · rw [h]
      exact .inl rfl
    · rw [h]
      exact hkall m
  · dsimp only
    rw [hn m (Nat.le_trans (Nat.le_max_left ..) hm)]
    exact hn' m (Nat.le_trans (Nat.le_max_right ..) hm)

theorem Comes.bind_none {k : α → Nat → Option β} (hp : Comes p none) :
    Comes (fun n => (p n).bind fun x => k x n) none :=
  .hangs fun n => by
    rw [hp.eq_none]
    rfl

theorem Comes.map {q : Option α} (h : α → β) (hp : Comes p q) :
    Comes (fun n => (p n).map h) (q.map h) := by
  obtain ⟨hall, n, hn⟩ := hp
  refine ⟨fun m => ?_, n, fun m hm => congrArg (Option.map h) (hn m hm)⟩
  dsimp only
  rcases hall m with heq | heq
  · rw [heq]
    exact .inl rfl
  · exact .inr (congrArg (Option.map h) heq)

end Fuel
