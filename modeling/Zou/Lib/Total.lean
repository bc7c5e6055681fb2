/-!
# Programs that return under an invariant

Programs over a state with errors, `ExceptT ε (StateM σ)`: the state is
kept when an error is thrown. `Returns I x Q` says that from every state
with `I` the program returns a value with `Q` and leaves a state with `I`.
It is the triple that also excludes errors, with the rules of a sequence;
`Ensures I x Q` is the one that allows them. `Computes I x r` says that the
outcome, a value or an error, is `r` from every such state.
-/

namespace Total

variable {ε σ α β : Type}

abbrev Prog (ε σ α : Type) := ExceptT ε (StateM σ) α

/-- Run a program from a state. -/
def exec (x : Prog ε σ α) (s : σ) : Except ε α × σ := x.run.run s

/-- The program returns, with `Q`, and keeps `I`. -/
def Returns (I : σ → Prop) (x : Prog ε σ α) (Q : α → Prop) : Prop :=
  ∀ s, I s → ∃ a s', exec x s = (.ok a, s') ∧ I s' ∧ Q a

variable {I : σ → Prop} {Q : α → Prop} {R : β → Prop}

theorem Returns.pure {a : α} (h : Q a) : Returns I (Pure.pure a : Prog ε σ α) Q :=
  fun s hs => ⟨a, s, rfl, hs, h⟩

theorem exec_bind (x : Prog ε σ α) (f : α → Prog ε σ β) (s : σ) :
    exec (x >>= f) s = match exec x s with
      | (.ok a, s') => exec (f a) s'
      | (.error e, s') => (.error e, s') := by
  unfold exec
  change (ExceptT.run (x >>= f)).run s = _
  rw [ExceptT.run_bind, StateT.run_bind]
  cases h : (ExceptT.run x).run s with
  | mk r s' => cases r <;> rfl

variable {x : Prog ε σ α} {f : α → Prog ε σ β}

theorem Returns.bind (hx : Returns I x Q)
    (hf : ∀ a, Q a → Returns I (f a) R) : Returns I (x >>= f) R := by
  intro s hs
  obtain ⟨a, s₁, hx, hs₁, ha⟩ := hx s hs
  obtain ⟨b, s₂, hf, hs₂, hb⟩ := hf a ha s₁ hs₁
  refine ⟨b, s₂, ?_, hs₂, hb⟩
  rw [exec_bind, hx]
  exact hf

theorem Returns.imp {Q' : α → Prop} (hx : Returns I x Q)
    (h : ∀ a, Q a → Q' a) : Returns I x Q' := by
  intro s hs
  obtain ⟨a, s', hx, hs', ha⟩ := hx s hs
  exact ⟨a, s', hx, hs', h a ha⟩

theorem Returns.get : Returns I (MonadState.get : Prog ε σ σ) I :=
  fun s hs => ⟨s, s, rfl, hs, hs⟩

theorem Returns.set {s' : σ} (h : I s') :
    Returns I (MonadStateOf.set s' : Prog ε σ PUnit) fun _ => True :=
  fun _ _ => ⟨⟨⟩, s', rfl, h, trivial⟩

theorem Returns.modify {f : σ → σ} (h : ∀ s, I s → I (f s)) :
    Returns I (MonadStateOf.modifyGet fun s => (PUnit.unit, f s) : Prog ε σ PUnit) fun _ => True :=
  fun s hs => ⟨⟨⟩, f s, rfl, h s hs, trivial⟩

/-! ## Programs whose outcome does not depend on the state -/

/-- The program ends in `r` from every state with `I`, and keeps `I`. -/
def Computes (I : σ → Prop) (x : Prog ε σ α) (r : Except ε α) : Prop :=
  ∀ s, I s → ∃ s', exec x s = (r, s') ∧ I s'

theorem Computes.pure {a : α} : Computes I (Pure.pure a : Prog ε σ α) (.ok a) :=
  fun s hs => ⟨s, rfl, hs⟩

theorem Computes.throw {e : ε} : Computes I (throw e : Prog ε σ α) (.error e) :=
  fun s hs => ⟨s, rfl, hs⟩

theorem Computes.bind {r : Except ε α} {g : α → Except ε β} (hx : Computes I x r)
    (hf : ∀ a, r = .ok a → Computes I (f a) (g a)) : Computes I (x >>= f) (r >>= g) := by
  intro s hs
  obtain ⟨s₁, hx, hs₁⟩ := hx s hs
  cases r with
  | error e => exact ⟨s₁, by rw [exec_bind, hx]; rfl, hs₁⟩
  | ok a =>
    obtain ⟨s₂, hf, hs₂⟩ := hf a rfl s₁ hs₁
    exact ⟨s₂, by rw [exec_bind, hx]; exact hf, hs₂⟩

/-- What is read from the state may be used, as long as the outcome does
not depend on it. -/
theorem Computes.get {f : σ → Prog ε σ β} {r : Except ε β}
    (hf : ∀ s, I s → Computes I (f s) r) : Computes I (MonadState.get >>= f) r := by
  intro s hs
  obtain ⟨s', hf, hs'⟩ := hf s hs s hs
  exact ⟨s', by rw [exec_bind]; exact hf, hs'⟩

theorem Computes.set {s' : σ} (h : I s') :
    Computes I (MonadStateOf.set s' : Prog ε σ PUnit) (.ok ⟨⟩) :=
  fun _ _ => ⟨s', rfl, h⟩

theorem Computes.modify {f : σ → σ} (h : ∀ s, I s → I (f s)) :
    Computes I (MonadStateOf.modifyGet fun s => (PUnit.unit, f s) : Prog ε σ PUnit) (.ok ⟨⟩) :=
  fun s hs => ⟨f s, rfl, h s hs⟩

/-! ## Programs that may throw -/

/-- If the program returns, it is with `Q`, and it keeps `I`. -/
def Ensures (I : σ → Prop) (x : Prog ε σ α) (Q : α → Prop) : Prop :=
  ∀ s, I s → ∀ a s', exec x s = (.ok a, s') → I s' ∧ Q a

theorem Returns.ensures (hx : Returns I x Q) : Ensures I x Q := by
  intro s hs a s' h
  obtain ⟨a', s₁, hx, hs₁, ha⟩ := hx s hs
  rw [hx] at h
  cases h
  exact ⟨hs₁, ha⟩

theorem Ensures.pure {a : α} (h : Q a) : Ensures I (Pure.pure a : Prog ε σ α) Q :=
  (Returns.pure h).ensures

theorem Ensures.throw {e : ε} : Ensures I (throw e : Prog ε σ α) Q := by
  nofun

theorem Ensures.bind (hx : Ensures I x Q)
    (hf : ∀ a, Q a → Ensures I (f a) R) : Ensures I (x >>= f) R := by
  intro s hs b s' h
  rw [exec_bind] at h
  cases hex : exec x s with
  | mk r s₁ =>
    rw [hex] at h
    cases r with
    | error e => cases h
    | ok a =>
      obtain ⟨hs₁, ha⟩ := hx s hs a s₁ hex
      exact hf a ha s₁ hs₁ b s' h

/-- Renaming errors. -/
theorem Ensures.adapt {ε' : Type} (g : ε → ε') (hx : Ensures I x Q) :
    Ensures I (ExceptT.adapt g x : Prog ε' σ α) Q := by
  intro s hs a s' h
  have hrun : exec (ExceptT.adapt g x : Prog ε' σ α) s = match exec x s with
      | (.ok a, s') => (.ok a, s')
      | (.error e, s') => (.error (g e), s') := by
    unfold exec
    change (StateT.run (Except.mapError g <$> ExceptT.run x) s) = _
    rw [StateT.run_map]
    cases h : (ExceptT.run x).run s with
    | mk r s' => cases r <;> rfl
  rw [hrun] at h
  cases hex : exec x s with
  | mk r s₁ =>
    rw [hex] at h
    cases r with
    | error e => cases h
    | ok b =>
      cases h
      exact hx s hs _ _ hex

end Total
