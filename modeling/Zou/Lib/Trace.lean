/-!
# Runs of a partial step function

A system is a state type `S`, a type `L` of labels (who moves, and how
the environment answers) and a partial step function
`next : S → L → Option S`: `none` says the label is not enabled. A run
is a list of labels, oldest first, and `run` executes it, so a concrete
schedule is checked by evaluation.

Two rules carry every statement over runs. `run_invariant` is the plain
one: what one step preserves, a run preserves. `guarded_invariant` is
the conditional one: `Meets ok` says that every step of the run was
taken in a state where `ok` allowed it, and only such steps have to
preserve the invariant. `guarded_simulation` maps such a run to a run of
another system. `logged` puts a history beside the state: what each step
answers, oldest first.
-/

namespace Trace

variable {S L : Type}

/-- Execute a schedule, oldest label first. -/
def run (next : S → L → Option S) : S → List L → Option S
  | s, [] => some s
  | s, l :: ls => (next s l).bind fun s' => run next s' ls

@[simp] theorem run_nil (next : S → L → Option S) (s : S) : run next s [] = some s := rfl

theorem run_cons (next : S → L → Option S) (s : S) (l : L) (ls : List L) :
    run next s (l :: ls) = (next s l).bind fun s' => run next s' ls := rfl

variable {next : S → L → Option S} {s : S} {ls : List L}

theorem run_cons_some {s' : S} {l : L} (h : run next s (l :: ls) = some s') :
    ∃ s₁, next s l = some s₁ ∧ run next s₁ ls = some s' := by
  rw [run_cons] at h
  exact Option.bind_eq_some_iff.mp h

theorem run_append {ls' : List L} :
    run next s (ls ++ ls') = (run next s ls).bind fun s' => run next s' ls' := by
  induction ls generalizing s with
  | nil => rfl
  | cons l ls ih =>
    rw [List.cons_append, run_cons, run_cons, Option.bind_assoc]
    exact congrArg _ (funext fun s' => ih)

/-- Every step of the schedule is taken in a state where `ok` allows
its label. -/
def Meets (next : S → L → Option S) (ok : S → L → Prop) : S → List L → Prop
  | _, [] => True
  | s, l :: ls => ok s l ∧ ∀ s', next s l = some s' → Meets next ok s' ls

/-- A concrete schedule is checked step by step. -/
instance decidableMeets (next : S → L → Option S) (ok : S → L → Prop)
    [∀ s l, Decidable (ok s l)] : ∀ (s : S) (ls : List L), Decidable (Meets next ok s ls)
  | _, [] => isTrue trivial
  | s, l :: ls =>
    match h : next s l with
    | none => decidable_of_iff (ok s l)
        ⟨fun hl => ⟨hl, fun s' hs => by rw [h] at hs; cases hs⟩, fun hm => hm.1⟩
    | some s₁ =>
      have := decidableMeets next ok s₁ ls
      decidable_of_iff (ok s l ∧ Meets next ok s₁ ls)
        ⟨fun hl => ⟨hl.1, fun s' hs => by rw [h] at hs; cases hs; exact hl.2⟩,
          fun hm => ⟨hm.1, hm.2 s₁ h⟩⟩

variable {ok : S → L → Prop}

/-- An allowed run in two parts. -/
theorem meets_append {ls' : List L} : ∀ {s : S}, Meets next ok s (ls ++ ls') ↔ Meets next ok s ls
      ∧ ∀ s', run next s ls = some s' → Meets next ok s' ls' := by
  induction ls with
  | nil =>
    intro s
    refine ⟨fun h => ⟨trivial, fun s' hs => ?_⟩, fun h => h.2 s rfl⟩
    cases hs
    exact h
  | cons l ls ih =>
    intro s
    constructor
    · intro h
      refine ⟨⟨h.1, fun s₁ h₁ => (ih.mp (h.2 s₁ h₁)).1⟩, fun s' hr => ?_⟩
      obtain ⟨s₁, h₁, h₂⟩ := run_cons_some hr
      exact (ih.mp (h.2 s₁ h₁)).2 s' h₂
    · rintro ⟨h, h'⟩
      refine ⟨h.1, fun s₁ h₁ => ih.mpr ⟨h.2 s₁ h₁, fun s' hr => h' s' ?_⟩⟩
      rw [run_cons, h₁]
      exact hr

theorem meets_mono {ok' : S → L → Prop} (h : ∀ s l, ok s l → ok' s l) :
    ∀ {ls : List L} {s : S}, Meets next ok s ls → Meets next ok' s ls
  | [], _, _ => trivial
  | l :: _, s, hm => ⟨h s l hm.1, fun s' hs => meets_mono h (hm.2 s' hs)⟩

theorem meets_and {ok' : S → L → Prop} :
    ∀ {ls : List L} {s : S}, Meets next ok s ls → Meets next ok' s ls →
      Meets next (fun s l => ok s l ∧ ok' s l) s ls
  | [], _, _, _ => trivial
  | _ :: _, _, h, h' => ⟨⟨h.1, h'.1⟩, fun s' hs => meets_and (h.2 s' hs) (h'.2 s' hs)⟩

/-- A run is allowed where all its labels are, in any state. -/
theorem meets_of_forall {ok : L → Prop} :
    ∀ {ls : List L} {s : S}, (∀ l ∈ ls, ok l) → Meets next (fun _ l => ok l) s ls := by
  intro ls
  induction ls with
  | nil => exact fun _ => trivial
  | cons l ls ih =>
    exact fun h => ⟨h l List.mem_cons_self,
      fun s' _ => ih fun l' hl' => h l' (.tail _ hl')⟩

variable {Inv : S → Prop}

/-- What every allowed step preserves, every allowed run preserves. -/
theorem guarded_invariant (hstep : ∀ s l s', Inv s → ok s l → next s l = some s' → Inv s') :
    ∀ {ls : List L} {s s' : S}, Inv s → Meets next ok s ls →
      run next s ls = some s' → Inv s' := by
  intro ls
  induction ls with
  | nil =>
    intro s s' hs _ hr
    cases hr
    exact hs
  | cons l ls ih =>
    intro s s' hs hm hr
    obtain ⟨s₁, h1, h2⟩ := run_cons_some hr
    exact ih (hstep s l s₁ hs hm.1 h1) (hm.2 s₁ h1) h2

/-- A run whose steps are allowed is a run of the system it is mapped to. -/
theorem guarded_simulation {S' : Type} {next' : S' → L → Option S'} {f : S → S'}
    (hstep : ∀ s l s', Inv s → ok s l → next s l = some s' → Inv s' ∧ next' (f s) l = some (f s')) :
    ∀ {ls : List L} {s s' : S}, Inv s → Meets next ok s ls →
      run next s ls = some s' → run next' (f s) ls = some (f s') := by
  intro ls
  induction ls with
  | nil =>
    intro s s' _ _ hr
    cases hr
    rfl
  | cons l ls ih =>
    intro s s' hs hm hr
    obtain ⟨s₁, h1, h2⟩ := run_cons_some hr
    obtain ⟨hs₁, hf⟩ := hstep s l s₁ hs hm.1 h1
    rw [run_cons, hf]
    exact ih hs₁ (hm.2 s₁ h1) h2

/-- What every step preserves, every run preserves. -/
theorem run_invariant (hstep : ∀ s l s', Inv s → next s l = some s' → Inv s') {s' : S} (hs : Inv s)
    (hr : run next s ls = some s') : Inv s' := by
  have hall : ∀ (ls : List L) (s : S), Meets next (fun _ _ => True) s ls := by
    intro ls
    induction ls with
    | nil => intro _; trivial
    | cons l ls ih => intro s; exact ⟨trivial, fun s' _ => ih s'⟩
  exact guarded_invariant (fun s l s' h _ => hstep s l s' h) hs (hall ls s) hr

/-! ## Properties of every state -/

/-- Every state of the run has `P`, the first and the last included. -/
def Always (next : S → L → Option S) (P : S → Prop) : S → List L → Prop
  | s, [] => P s
  | s, l :: ls => P s ∧ ∀ s', next s l = some s' → Always next P s' ls

theorem Always.first {P : S → Prop} (h : Always next P s ls) : P s := by
  cases ls with
  | nil => exact h
  | cons l ls => exact h.1

/-- Where a step leaves `P` in force exactly when `ok` allows it, a run
has `P` throughout exactly when all its steps are allowed. -/
theorem always_iff_meets {P : S → Prop} (hinv : ∀ s l s', Inv s → next s l = some s' → Inv s')
    (hstep : ∀ s l s', Inv s → P s → next s l = some s' → (P s' ↔ ok s l)) :
    ∀ {ls : List L} {s s' : S}, Inv s → P s → run next s ls = some s' →
      (Always next P s ls ↔ Meets next ok s ls) := by
  intro ls
  induction ls with
  | nil => exact fun _ hp _ => ⟨fun _ => trivial, fun _ => hp⟩
  | cons l ls ih =>
    intro s s' hi hp hr
    obtain ⟨s₁, h1, h2⟩ := run_cons_some hr
    have hi₁ := hinv s l s₁ hi h1
    have honly : ∀ {Q : S → Prop}, Q s₁ → ∀ s₂, next s l = some s₂ → Q s₂ := by
      intro Q hq s₂ hn
      cases h1.symm.trans hn
      exact hq
    constructor
    · intro h
      have h₁ := h.2 s₁ h1
      exact ⟨(hstep s l s₁ hi hp h1).mp h₁.first, honly ((ih hi₁ h₁.first h2).mp h₁)⟩
    · intro h
      have hp₁ := (hstep s l s₁ hi hp h1).mpr h.1
      exact ⟨hp, honly ((ih hi₁ hp₁ h2).mpr (h.2 s₁ h1))⟩

/-! ## Histories -/

variable {O : Type}

/-- The system with what its steps answer written down beside it. -/
def logged (next : S → L → Option S) (out : S → L → List O) : S × List O → L → Option (S × List O)
  | (s, log), l => (next s l).map fun s' => (s', log ++ out s l)

theorem logged_some {out : S → L → List O} {log : List O}
    {l : L} {p : S × List O} (h : logged next out (s, log) l = some p) :
    ∃ s', next s l = some s' ∧ p = (s', log ++ out s l) := by
  obtain ⟨s', hn, rfl⟩ := Option.map_eq_some_iff.mp h
  exact ⟨s', hn, rfl⟩

/-- The history of the labels is the schedule. -/
theorem run_labels :
    ∀ (ls : List L) (s : S) (log : List L),
      run (logged next fun _ l => [l]) (s, log) ls
        = (run next s ls).map fun s' => (s', log ++ ls) := by
  intro ls
  induction ls with
  | nil => intro s log; simp
  | cons l ls ih =>
    intro s log
    rw [run_cons, run_cons, logged]
    cases next s l with
    | none => rfl
    | some s' => simp [ih]

end Trace
