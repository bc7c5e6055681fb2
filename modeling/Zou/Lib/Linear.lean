import Mathlib.Data.List.Nodup

/-!
# Histories with one linearization point a call

A sequential specification says what an operation makes of a state and
what it answers. `Legal` is a sequential history that follows it. A book
keeps the calls of any number of threads beside a system: a call is begun,
committed to an answer at most once, and returns what it was committed to
or gives up without. `Book.Ok` is what keeping it that way comes to, and
each of the three operations preserves it.
-/

namespace Linear

variable {S O R : Type}

/-! ## Sequential histories -/

/-- The history answers as the specification does, and leads from the one
state to the other. -/
def Legal (spec : S → O → S × R) : S → List (O × R) → S → Prop
  | s, [], s' => s' = s
  | s, x :: xs, s' => (spec s x.1).2 = x.2 ∧ Legal spec (spec s x.1).1 xs s'

variable {spec : S → O → S × R} {xs : List (O × R)}

theorem Legal.append {s s₁ s₂ : S} {ys : List (O × R)}
    (h : Legal spec s xs s₁) (h' : Legal spec s₁ ys s₂) : Legal spec s (xs ++ ys) s₂ := by
  induction xs generalizing s with
  | nil =>
    obtain rfl : s₁ = s := h
    exact h'
  | cons x xs ih => exact ⟨h.1, ih h.2⟩

theorem Legal.split {s s₂ : S} {ys : List (O × R)}
    (h : Legal spec s (xs ++ ys) s₂) : ∃ s₁, Legal spec s xs s₁ ∧ Legal spec s₁ ys s₂ := by
  induction xs generalizing s with
  | nil => exact ⟨s, rfl, h⟩
  | cons x xs ih =>
    obtain ⟨s₁, h₁, h₂⟩ := ih h.2
    exact ⟨s₁, ⟨h.1, h₁⟩, h₂⟩

theorem Legal.snoc {s s₁ s₂ : S} {o : O} {r : R} (h : Legal spec s xs s₁)
    (hstep : spec s₁ o = (s₂, r)) : Legal spec s (xs ++ [(o, r)]) s₂ :=
  h.append ⟨by rw [hstep], by rw [hstep]; rfl⟩

/-! ## Books -/

/-- A call is its position in `calls`. `current` is the call of a thread,
with what it was committed to. -/
structure Book (O R : Type) where
  calls : List O
  log : List (Nat × O × R)
  returned : List (Nat × Option R)
  current : Nat → Option (Nat × O × Option R)

namespace Book

def empty : Book O R := ⟨[], [], [], fun _ => none⟩

/-- The operations and answers of the log. -/
def history (b : Book O R) : List (O × R) := b.log.map Prod.snd

def begun (b : Book O R) (t : Nat) (o : O) : Book O R :=
  { b with
    calls := b.calls ++ [o]
    current := Function.update b.current t (some (b.calls.length, o, none)) }

def commit (b : Book O R) (t : Nat) (r : R) : Book O R :=
  match b.current t with
  | some (c, o, _) => { b with
      log := b.log ++ [(c, o, r)]
      current := Function.update b.current t (some (c, o, some r)) }
  | none => b

/-- The call of `t` returns `r`, or gives up. -/
def finish (b : Book O R) (t : Nat) (r : Option R) : Book O R :=
  match b.current t with
  | some (c, _, _) => { b with
      returned := b.returned ++ [(c, r)]
      current := Function.update b.current t none }
  | none => b

/-- A call is committed at most once, and what returned is what it was
committed to. -/
structure Ok (b : Book O R) : Prop where
  logged : ∀ x ∈ b.log, b.calls[x.1]? = some x.2.1
  once : (b.log.map Prod.fst).Nodup
  opened : ∀ t c o r, b.current t = some (c, o, r) → b.calls[c]? = some o
  committed : ∀ t c o r, b.current t = some (c, o, some r) → (c, o, r) ∈ b.log
  pending : ∀ t c o, b.current t = some (c, o, none) → c ∉ b.log.map Prod.fst
  apart : ∀ t t' c o o' r r', b.current t = some (c, o, r) → b.current t' = some (c, o', r') →
    t = t'
  answered : ∀ c r, (c, some r) ∈ b.returned → ∃ o, (c, o, r) ∈ b.log
  gaveUp : ∀ c, (c, none) ∈ b.returned → c ∉ b.log.map Prod.fst
  closed : ∀ c r, (c, r) ∈ b.returned → c < b.calls.length ∧ ∀ t o r', b.current t ≠ some (c, o, r')

theorem ok_empty : (empty : Book O R).Ok where
  logged x h := by cases h
  once := List.nodup_nil
  opened t c o r h := by cases h
  committed t c o r h := by cases h
  pending t c o h := by cases h
  apart t t' c o o' r r' h := by cases h
  answered c r h := by cases h
  gaveUp c h := by cases h
  closed c r h := by cases h

variable {b : Book O R} {t c : Nat} {o : O} {r : Option R}

theorem Ok.call_lt (h : b.Ok) (hc : b.current t = some (c, o, r)) : c < b.calls.length :=
  (List.getElem?_eq_some_iff.mp (h.opened t c o r hc)).1

theorem Ok.logged_lt (h : b.Ok) {x : Nat × O × R} (hx : x ∈ b.log) : x.1 < b.calls.length :=
  (List.getElem?_eq_some_iff.mp (h.logged x hx)).1

theorem getElem?_snoc {l : List O} {o' : O} (h : l[c]? = some o) : (l ++ [o'])[c]? = some o := by
  rw [List.getElem?_append_left (List.getElem?_eq_some_iff.mp h).1]
  exact h

theorem Ok.begun (h : b.Ok) (t : Nat) (o : O) : (b.begun t o).Ok := by
  have hcur : ∀ u, (b.begun t o).current u
      = if u = t then some (b.calls.length, o, none) else b.current u :=
    fun u => Function.update_apply ..
  have hcalls : (b.begun t o).calls = b.calls ++ [o] := rfl
  refine ⟨fun x hx => getElem?_snoc (h.logged x hx), h.once, ?_, ?_, ?_, ?_, h.answered, h.gaveUp,
    ?_⟩
  · intro u c o' r hc
    rw [hcur] at hc
    rw [hcalls]
    split at hc
    · cases hc
      exact List.getElem?_concat_length
    · exact getElem?_snoc (h.opened u c o' r hc)
  · intro u c o' r hc
    rw [hcur] at hc
    split at hc
    · cases hc
    · exact h.committed u c o' r hc
  · intro u c o' hc hin
    rw [hcur] at hc
    split at hc
    · cases hc
      obtain ⟨x, hx, heq⟩ := List.mem_map.mp hin
      exact Nat.lt_irrefl _ (heq ▸ h.logged_lt hx)
    · exact h.pending u c o' hc hin
  · intro u u' c o' o'' r r' hc hc'
    rw [hcur] at hc hc'
    split at hc
    · rename_i hu
      split at hc'
      · rename_i hu'
        rw [hu, hu']
      · cases hc
        exact absurd (h.call_lt hc') (Nat.lt_irrefl _)
    · split at hc'
      · cases hc'
        exact absurd (h.call_lt hc) (Nat.lt_irrefl _)
      · exact h.apart u u' c o' o'' r r' hc hc'
  · intro c r hc
    obtain ⟨hlt, hopen⟩ := h.closed c r hc
    refine ⟨?_, ?_⟩
    · rw [hcalls, List.length_append]
      exact Nat.lt_succ_of_lt hlt
    · intro u o' r' hu
      rw [hcur] at hu
      split at hu
      · cases hu
        exact Nat.lt_irrefl _ hlt
      · exact hopen u o' r' hu

theorem commit_eq {r : R} {r₀ : Option R}
    (hc : b.current t = some (c, o, r₀)) : b.commit t r = { b with
      log := b.log ++ [(c, o, r)]
      current := Function.update b.current t (some (c, o, some r)) } := by
  rw [commit, hc]

theorem finish_eq {r₀ : Option R} (hc : b.current t = some (c, o, r₀)) : b.finish t r = { b with
      returned := b.returned ++ [(c, r)]
      current := Function.update b.current t none } := by
  rw [finish, hc]

theorem Ok.commit (h : b.Ok)
    (hc : b.current t = some (c, o, none)) (r : R) : (b.commit t r).Ok := by
  have hcur : ∀ u, (b.commit t r).current u
      = if u = t then some (c, o, some r) else b.current u := by
    rw [commit_eq hc]
    exact fun u => Function.update_apply ..
  have hlog : (b.commit t r).log = b.log ++ [(c, o, r)] := by rw [commit_eq hc]
  have hcalls : (b.commit t r).calls = b.calls := by rw [commit_eq hc]
  have hret : (b.commit t r).returned = b.returned := by rw [commit_eq hc]
  -- The call of another thread is another call.
  have hne : ∀ {u c' o' r'}, u ≠ t → b.current u = some (c', o', r') → c' ≠ c := by
    rintro u c' o' r' hu hcu rfl
    exact hu (h.apart u t _ _ _ _ _ hcu hc)
  refine ⟨?_, ?_, ?_, ?_, ?_, ?_, ?_, ?_, ?_⟩
  · intro x hx
    rw [hlog] at hx
    rw [hcalls]
    rcases List.mem_append.mp hx with hold | hnew
    · exact h.logged x hold
    · cases List.mem_singleton.mp hnew
      exact h.opened t c o none hc
  · rw [hlog, List.map_append]
    refine List.nodup_append.mpr ⟨h.once, List.nodup_singleton _, ?_⟩
    intro c' hin c'' hin' heq
    obtain rfl := List.mem_singleton.mp hin'
    exact h.pending t _ o hc (heq ▸ hin)
  · intro u c' o' r' hu
    rw [hcur] at hu
    rw [hcalls]
    split at hu
    · cases hu
      exact h.opened t c o none hc
    · exact h.opened u c' o' r' hu
  · intro u c' o' r' hu
    rw [hcur] at hu
    rw [hlog]
    split at hu
    · cases hu
      exact List.mem_append_right _ (List.mem_singleton.mpr rfl)
    · exact List.mem_append_left _ (h.committed u c' o' r' hu)
  · intro u c' o' hu hin
    rw [hcur] at hu
    split at hu
    · cases hu
    · rename_i hut
      rw [hlog, List.map_append] at hin
      rcases List.mem_append.mp hin with hold | hnew
      · exact h.pending u c' o' hu hold
      · exact hne hut hu (List.mem_singleton.mp hnew)
  · intro u u' c' o' o'' r' r'' hu hu'
    rw [hcur] at hu hu'
    split at hu
    · rename_i hut
      split at hu'
      · rename_i hut'
        rw [hut, hut']
      · rename_i hut'
        cases hu
        exact absurd rfl (hne hut' hu')
    · rename_i hut
      split at hu'
      · cases hu'
        exact absurd rfl (hne hut hu)
      · exact h.apart u u' c' o' o'' r' r'' hu hu'
  · intro c' r' hr
    rw [hret] at hr
    rw [hlog]
    obtain ⟨o', ho'⟩ := h.answered c' r' hr
    exact ⟨o', List.mem_append_left _ ho'⟩
  · intro c' hr hin
    rw [hret] at hr
    rw [hlog, List.map_append] at hin
    rcases List.mem_append.mp hin with hold | hnew
    · exact h.gaveUp c' hr hold
    · cases List.mem_singleton.mp hnew
      exact (h.closed _ none hr).2 t o none hc
  · intro c' r' hr
    rw [hret] at hr
    rw [hcalls]
    refine ⟨(h.closed c' r' hr).1, fun u o' r'' hu => ?_⟩
    rw [hcur] at hu
    split at hu
    · cases hu
      exact (h.closed _ r' hr).2 t o none hc
    · exact (h.closed c' r' hr).2 u o' r'' hu

theorem Ok.finish (h : b.Ok) (hc : b.current t = some (c, o, r)) : (b.finish t r).Ok := by
  have hcur : ∀ {u c' o' r'}, (b.finish t r).current u = some (c', o', r') →
      u ≠ t ∧ b.current u = some (c', o', r') := by
    intro u c' o' r' hu
    rw [finish_eq hc] at hu
    have hu : Function.update b.current t none u = some (c', o', r') := hu
    rw [Function.update_apply] at hu
    split at hu
    · cases hu
    · rename_i hne
      exact ⟨hne, hu⟩
  have hlog : (b.finish t r).log = b.log := by rw [finish_eq hc]
  have hcalls : (b.finish t r).calls = b.calls := by rw [finish_eq hc]
  have hret : (b.finish t r).returned = b.returned ++ [(c, r)] := by rw [finish_eq hc]
  refine ⟨by rw [hlog, hcalls]; exact h.logged, by rw [hlog]; exact h.once,
    fun u c' o' r' hu => by rw [hcalls]; exact h.opened u c' o' r' (hcur hu).2,
    fun u c' o' r' hu => by rw [hlog]; exact h.committed u c' o' r' (hcur hu).2,
    fun u c' o' hu => by rw [hlog]; exact h.pending u c' o' (hcur hu).2,
    fun u u' c' o' o'' r' r'' hu hu' => h.apart u u' c' o' o'' r' r'' (hcur hu).2 (hcur hu').2,
    ?_, ?_, ?_⟩
  · intro c' r' hr
    rw [hret] at hr
    rcases List.mem_append.mp hr with hold | hnew
    · obtain ⟨o', ho'⟩ := h.answered c' r' hold
      exact ⟨o', hlog ▸ ho'⟩
    · cases List.mem_singleton.mp hnew
      exact ⟨o, hlog ▸ h.committed t c o r' hc⟩
  · intro c' hr
    rw [hret] at hr
    rw [hlog]
    rcases List.mem_append.mp hr with hold | hnew
    · exact h.gaveUp c' hold
    · cases List.mem_singleton.mp hnew
      exact h.pending t c o hc
  · intro c' r' hr
    rw [hret] at hr
    rcases List.mem_append.mp hr with hold | hnew
    · obtain ⟨hlt, hopen⟩ := h.closed c' r' hold
      exact ⟨hcalls ▸ hlt, fun u o' r'' hu => hopen u o' r'' (hcur hu).2⟩
    · cases List.mem_singleton.mp hnew
      refine ⟨hcalls ▸ h.call_lt hc, fun u o' r'' hu => ?_⟩
      obtain ⟨hne, hu'⟩ := hcur hu
      exact hne (h.apart u t c o' o r'' r hu' hc)

end Book

end Linear
