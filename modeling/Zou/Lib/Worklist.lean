import Mathlib.Algebra.Order.Ring.Nat
import Mathlib.Data.List.Nodup
import Mathlib.Data.List.Perm.Subperm
import Zou.Lib.Loop

/-!
# Worklists that take each thing once

A list grows while it is read: the thing at the cursor is asked what comes
next, and what is not in the list yet goes to its end. Where all that can
come next is among finitely many things the cursor reaches the end, and the
list holds what can be reached from the first thing and nothing else.
-/

namespace Worklist

variable {α : Type} {next : α → List α} {start : α} {univ : List α}

/-! ## The list and its cursor -/

/-- What holds of the list and the cursor between two turns. -/
structure Inv (next : α → List α) (start : α) (univ : List α) (s : List α × Nat) : Prop where
  first : start ∈ s.1
  nodup : s.1.Nodup
  within : ∀ x ∈ s.1, x ∈ univ
  cursor : s.2 ≤ s.1.length
  reached : ∀ x ∈ s.1, Relation.ReflTransGen (fun x y => y ∈ next x) start x
  closed : ∀ i x, i < s.2 → s.1[i]? = some x → ∀ y ∈ next x, y ∈ s.1

theorem Inv.init (h : start ∈ univ) : Inv next start univ ([start], 0) where
  first := List.mem_singleton.mpr rfl
  nodup := List.nodup_singleton start
  within x hx := by rwa [List.mem_singleton.mp hx]
  cursor := Nat.zero_le _
  reached x hx := by
    cases List.mem_singleton.mp hx
    exact .refl
  closed i x hi := absurd hi (Nat.not_lt_zero i)

/-- A list without repetitions is no longer than what it is taken from. -/
theorem Inv.length_le {s : List α × Nat} (hi : Inv next start univ s) : s.1.length ≤ univ.length :=
  (hi.nodup.subperm hi.within).length_le

variable [DecidableEq α]

/-! ## The loop -/

/-- At the end, unless it is in there. -/
def push (out : List α) (x : α) : List α := if x ∈ out then out else out ++ [x]

/-- One turn: a list and the cursor in it. -/
def turn (next : α → List α) (s : List α × Nat) : List α ⊕ (List α × Nat) :=
  match s.1[s.2]? with
  | none => .inl s.1
  | some x => .inr ((next x).foldl push s.1, s.2 + 1)

/-- The loop with fuel. -/
def run (next : α → List α) : Nat → List α × Nat → List α
  | 0, s => s.1
  | fuel + 1, s => (turn next s).elim id (run next fuel)

/-! ## Pushes -/

theorem mem_push {out : List α} {x y : α} : y ∈ push out x ↔ y ∈ out ∨ y = x := by
  unfold push
  split
  · rename_i h
    refine ⟨.inl, fun hy => ?_⟩
    rcases hy with hy | rfl
    · exact hy
    · exact h
  · simp

theorem nodup_push {out : List α} {x : α} (h : out.Nodup) : (push out x).Nodup := by
  unfold push
  split
  · exact h
  · rename_i hx
    exact List.nodup_append.mpr ⟨h, List.nodup_singleton x, fun a ha b hb => by
      cases List.mem_singleton.mp hb
      exact fun hab => hx (hab ▸ ha)⟩

theorem exists_push (out : List α) (x : α) : ∃ more, push out x = out ++ more := by
  unfold push
  split
  · exact ⟨[], (List.append_nil _).symm⟩
  · exact ⟨[x], rfl⟩

theorem mem_pushes {xs out : List α} {y : α} : y ∈ xs.foldl push out ↔ y ∈ out ∨ y ∈ xs := by
  induction xs generalizing out with
  | nil => simp
  | cons x xs ih => rw [List.foldl_cons, ih, mem_push, List.mem_cons, or_assoc]

theorem nodup_pushes {xs out : List α} (h : out.Nodup) : (xs.foldl push out).Nodup := by
  induction xs generalizing out with
  | nil => exact h
  | cons x xs ih => exact ih (nodup_push h)

theorem exists_pushes (xs out : List α) : ∃ more, xs.foldl push out = out ++ more := by
  induction xs generalizing out with
  | nil => exact ⟨[], (List.append_nil _).symm⟩
  | cons x xs ih =>
    obtain ⟨more, h⟩ := exists_push out x
    obtain ⟨more', h'⟩ := ih (push out x)
    exact ⟨more ++ more', by rw [List.foldl_cons, h', h, List.append_assoc]⟩

/-! ## Turns -/

theorem Inv.again {s s' : List α × Nat} (huniv : ∀ x ∈ univ, ∀ y ∈ next x, y ∈ univ)
    (hi : Inv next start univ s) (ht : turn next s = .inr s') :
    Inv next start univ s' ∧ s'.2 = s.2 + 1 := by
  unfold turn at ht
  split at ht
  · cases ht
  · rename_i x hx
    cases ht
    have hmem : x ∈ s.1 := List.mem_of_getElem? hx
    obtain ⟨more, hmore⟩ := exists_pushes (next x) s.1
    have hlen : s.2 < s.1.length := (List.getElem?_eq_some_iff.mp hx).1
    refine ⟨⟨mem_pushes.mpr (.inl hi.first), nodup_pushes hi.nodup, ?_, ?_, ?_, ?_⟩, rfl⟩
    · intro y hy
      rcases mem_pushes.mp hy with hy | hy
      · exact hi.within y hy
      · exact huniv x (hi.within x hmem) y hy
    · dsimp only
      rw [hmore, List.length_append]
      omega
    · intro y hy
      rcases mem_pushes.mp hy with hy | hy
      · exact hi.reached y hy
      · exact (hi.reached x hmem).tail hy
    · intro i z hlt hz y hy
      rcases Nat.lt_or_ge i s.2 with hlt' | hge
      · rw [hmore, List.getElem?_append_left (by omega)] at hz
        exact mem_pushes.mpr (.inl (hi.closed i z hlt' hz y hy))
      · obtain rfl : i = s.2 := Nat.le_antisymm (Nat.le_of_lt_succ hlt) hge
        rw [hmore, List.getElem?_append_left hlen, hx] at hz
        cases hz
        exact mem_pushes.mpr (.inr hy)

/-- The loop ends, with fuel for a turn a thing, and its list is what can
be reached. -/
theorem run_spec (hstart : start ∈ univ) (huniv : ∀ x ∈ univ, ∀ y ∈ next x, y ∈ univ) {fuel : Nat}
    (hfuel : univ.length < fuel) :
    Loop.Returns (turn next) ([start], 0) (run next fuel ([start], 0))
      ∧ ∀ x, x ∈ run next fuel ([start], 0)
        ↔ Relation.ReflTransGen (fun x y => y ∈ next x) start x := by
  have hall : ∀ (fuel : Nat) (s : List α × Nat), Inv next start univ s →
      univ.length < fuel + s.2 →
      Loop.Returns (turn next) s (run next fuel s)
        ∧ ∀ x, x ∈ run next fuel s ↔ Relation.ReflTransGen (fun x y => y ∈ next x) start x := by
    intro fuel
    induction fuel with
    | zero =>
      intro s hi hlt
      have hle := hi.cursor
      have hlen := hi.length_le
      omega
    | succ fuel ih =>
      intro s hi hlt
      rw [run]
      cases ht : turn next s with
      | inr s' =>
        obtain ⟨hi', hcursor⟩ := hi.again huniv ht
        obtain ⟨hret, hmem⟩ := ih s' hi' (by omega)
        exact ⟨.again ht hret, hmem⟩
      | inl out =>
        refine ⟨.leave ht, fun x => ?_⟩
        unfold turn at ht
        split at ht
        · rename_i hnone
          cases ht
          have hend : s.1.length ≤ s.2 := List.getElem?_eq_none_iff.mp hnone
          -- the cursor has passed everything, so the list is closed
          refine ⟨hi.reached x, fun hx => ?_⟩
          induction hx with
          | refl => exact hi.first
          | tail _ hstep ihx =>
            obtain ⟨i, hi'⟩ := List.mem_iff_getElem?.mp ihx
            have hlt : i < s.1.length := (List.getElem?_eq_some_iff.mp hi').1
            exact hi.closed i _ (by omega) hi' _ hstep
        · cases ht
  exact hall fuel _ (.init hstart) (by omega)

end Worklist
