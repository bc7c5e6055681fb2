/-!
# Loops that return

A loop is a turn function: from a state it either leaves with a result or
goes on from a new state. `Returns turn s r` says the loop entered in `s`
leaves with `r` after finitely many turns, with no bound on them. A
function that runs the loop with fuel computes this result when a measure
falls with every turn and the fuel covers it.
-/

namespace Loop

variable {σ ρ : Type} {turn : σ → ρ ⊕ σ}

/-- Leave with the error, go on from the value. -/
def orLeave {ε α : Type} : Except ε σ → Except ε α ⊕ σ
  | .error e => .inl (.error e)
  | .ok s => .inr s

/-- The loop entered in a state leaves with a result. -/
inductive Returns (turn : σ → ρ ⊕ σ) : σ → ρ → Prop
  | leave {s : σ} {r : ρ} (h : turn s = .inl r) : Returns turn s r
  | again {s s' : σ} {r : ρ} (h : turn s = .inr s') (rest : Returns turn s' r) : Returns turn s r

/-- `run` runs the loop with fuel: a turn for each unit of it. The measure
of a state with `I` falls with every turn that goes on, and at zero the
loop is left with what `run` returns without fuel. -/
structure Fuelled (turn : σ → ρ ⊕ σ) (run : Nat → σ → ρ) (I : σ → Prop) (μ : σ → Nat) : Prop where
  zero : ∀ {s : σ}, I s → μ s = 0 → turn s = .inl (run 0 s)
  succ : ∀ (fuel : Nat) (s : σ), run (fuel + 1) s = (turn s).elim id (run fuel)
  again : ∀ {s s' : σ}, I s → turn s = .inr s' → I s' ∧ μ s' < μ s

/-- With fuel for the measure `run` returns what the loop does. -/
theorem Fuelled.returns {run : Nat → σ → ρ} {I : σ → Prop} {μ : σ → Nat}
    (h : Fuelled turn run I μ) : ∀ {fuel : Nat} {s : σ}, I s → μ s ≤ fuel →
    Returns turn s (run fuel s) := by
  intro fuel
  induction fuel with
  | zero => exact fun hs hμ => .leave (h.zero hs (by omega))
  | succ fuel ih =>
    intro s hs hμ
    rw [h.succ]
    cases ht : turn s with
    | inl r => exact .leave ht
    | inr s' =>
      obtain ⟨hs', hlt⟩ := h.again hs ht
      exact .again ht (ih hs' (by omega))

end Loop
