/-!
# Clients of a shared store

A client is a program that sends requests and goes on with what it is
answered: `Prog Q R E α` returns an `α` or fails with an `E`, and the answer
to a request `q` has type `R q`. Nothing is said of the store, so one
program has two readings. `advance` executes one request of a client, which
is a step of a system where clients take turns; `eval` runs a client to its
end on a store that answers at once.

`Safe` is the triple for the first reading. The other clients may move the
store between any two requests, but only up a preorder `le` on which what is
known of the store is stable; in exchange the client moves it up that order
too.
-/

namespace Client

inductive Prog (Q : Type) (R : Q → Type) (E α : Type) : Type where
  | done (a : α)
  | fail (e : E)
  | ask (q : Q) (k : R q → Prog Q R E α)

namespace Prog

variable {Q : Type} {R : Q → Type} {E E' α β : Type}

def bind : Prog Q R E α → (α → Prog Q R E β) → Prog Q R E β
  | done a, f => f a
  | fail e, _ => fail e
  | ask q k, f => ask q fun r => (k r).bind f

instance : Monad (Prog Q R E) where
  pure := done
  bind := bind

/-- One request. -/
def request (q : Q) : Prog Q R E (R q) := ask q done

/-- The error as a value. -/
def attempt : Prog Q R E α → Prog Q R E' (Except E α)
  | done a => done (.ok a)
  | fail e => done (.error e)
  | ask q k => ask q fun r => (k r).attempt

def mapErr (f : E → E') : Prog Q R E α → Prog Q R E' α
  | done a => done a
  | fail e => fail (f e)
  | ask q k => ask q fun r => (k r).mapErr f

/-- The client at a store that takes its requests among others. -/
def through {Q' : Type} {R' : Q' → Type} (f : Q → Q') (g : ∀ q, R' (f q) → R q) :
    Prog Q R E α → Prog Q' R' E α
  | done a => done a
  | fail e => fail e
  | ask q k => ask (f q) fun r => (k (g q r)).through f g

/-! ## Executions -/

variable {G W : Type}

/-- The next request, which `w` says how the store treats. -/
def advance (exec : G → (q : Q) → W → Option (G × R q)) :
    Prog Q R E α → G → W → Option (Prog Q R E α × G)
  | ask q k, g, w => (exec g q w).map fun x => (k x.2, x.1)
  | _, _, _ => none

theorem advance_some {exec : G → (q : Q) → W → Option (G × R q)} {p p' : Prog Q R E α} {g g' : G}
    {w : W} (h : p.advance exec g w = some (p', g')) :
    ∃ q k r, p = ask q k ∧ exec g q w = some (g', r) ∧ p' = k r := by
  cases p with
  | done a => cases h
  | fail e => cases h
  | ask q k =>
    obtain ⟨⟨g₁, r⟩, hx, heq⟩ := Option.map_eq_some_iff.mp h
    obtain ⟨rfl, rfl⟩ := Prod.mk.inj heq
    exact ⟨q, k, r, rfl, hx, rfl⟩

/-- The whole program, alone with the store. -/
def eval (answer : G → (q : Q) → G × R q) : Prog Q R E α → G → G × Except E α
  | done a, g => (g, .ok a)
  | fail e, g => (g, .error e)
  | ask q k, g => (k (answer g q).2).eval answer (answer g q).1

section Eval

variable {answer : G → (q : Q) → G × R q}

theorem eval_bind (p : Prog Q R E α) (f : α → Prog Q R E β) (g : G) :
    (p >>= f).eval answer g = match p.eval answer g with
      | (g', .ok a) => (f a).eval answer g'
      | (g', .error e) => (g', .error e) := by
  induction p generalizing g with
  | done a => rfl
  | fail e => rfl
  | ask q k ih => exact ih (answer g q).2 (answer g q).1

theorem eval_bind_ok {p : Prog Q R E α} {g g' : G} {a : α} (h : p.eval answer g = (g', .ok a))
    (f : α → Prog Q R E β) : (p >>= f).eval answer g = (f a).eval answer g' := by
  rw [eval_bind, h]

theorem eval_bind_error {p : Prog Q R E α} {g g' : G} {e : E} (h : p.eval answer g = (g', .error e))
    (f : α → Prog Q R E β) : (p >>= f).eval answer g = (g', .error e) := by
  rw [eval_bind, h]

@[simp] theorem eval_mapErr (f : E → E') (p : Prog Q R E α) (g : G) :
    (p.mapErr f).eval answer g = ((p.eval answer g).1, (p.eval answer g).2.mapError f) := by
  induction p generalizing g with
  | done a => rfl
  | fail e => rfl
  | ask q k ih => exact ih (answer g q).2 (answer g q).1

@[simp] theorem eval_attempt (p : Prog Q R E α) (g : G) :
    (p.attempt : Prog Q R E' (Except E α)).eval answer g
      = ((p.eval answer g).1, .ok (p.eval answer g).2) := by
  induction p generalizing g with
  | done a => rfl
  | fail e => rfl
  | ask q k ih => exact ih (answer g q).2 (answer g q).1

/-- Where the store behind answers those requests, and answers them as the
smaller store does. -/
theorem eval_through {Q' G' : Type} {R' : Q' → Type} {f : Q → Q'} {g : ∀ q, R' (f q) → R q}
    {answer' : G' → (q : Q') → G' × R' q} (view : G' → G) (set : G' → G → G')
    (hset : ∀ s, set s (view s) = s) (hsetset : ∀ s a b, set (set s a) b = set s b)
    (hview : ∀ s a, view (set s a) = a)
    (hanswer : ∀ s q, (answer' s (f q)).1 = set s (answer (view s) q).1
      ∧ g q (answer' s (f q)).2 = (answer (view s) q).2) (p : Prog Q R E α) (s : G') :
    (p.through f g).eval answer' s
      = (set s (p.eval answer (view s)).1, (p.eval answer (view s)).2) := by
  induction p generalizing s with
  | done a => exact congrArg (·, _) (hset s).symm
  | fail e => exact congrArg (·, _) (hset s).symm
  | ask q k ih =>
    obtain ⟨hs, hr⟩ := hanswer s q
    refine (ih _ _).trans ?_
    rw [hs, hr, hview, hsetset]
    rfl

end Eval

/-! ## What a client may send and how it may fail -/

/-- Every request satisfies `P` and every failure `F`, whatever is answered. -/
def Within (P : Q → Prop) (F : E → Prop) : Prog Q R E α → Prop
  | done _ => True
  | fail e => F e
  | ask q k => P q ∧ ∀ r, (k r).Within P F

section Within

variable {P : Q → Prop} {F : E → Prop}

theorem Within.request {q : Q} (h : P q) : (Prog.request q : Prog Q R E (R q)).Within P F :=
  ⟨h, fun _ => trivial⟩

variable {p : Prog Q R E α}

theorem Within.bind {f : α → Prog Q R E β} (h : p.Within P F)
    (hf : ∀ a, (f a).Within P F) : (p >>= f).Within P F := by
  induction p with
  | done a => exact hf a
  | fail e => exact h
  | ask q k ih => exact ⟨h.1, fun r => ih r (h.2 r)⟩

theorem Within.mapErr {F' : E' → Prop} {f : E → E'} (hF : ∀ e, F e → F' (f e))
    (h : p.Within P F) : (p.mapErr f).Within P F' := by
  induction p with
  | done a => trivial
  | fail e => exact hF e h
  | ask q k ih => exact ⟨h.1, fun r => ih r (h.2 r)⟩

theorem Within.through {Q' : Type} {R' : Q' → Type} {P' : Q' → Prop} {f : Q → Q'}
    {g : ∀ q, R' (f q) → R q} (hP : ∀ q, P q → P' (f q)) (h : p.Within P F) :
    (p.through f g).Within P' F := by
  induction p with
  | done a => trivial
  | fail e => exact h
  | ask q k ih => exact ⟨hP q h.1, fun r => ih _ (h.2 _)⟩

theorem Within.eval {answer : G → (q : Q) → G × R q} {g : G} {e : E}
    (h : p.Within P F) (heval : (p.eval answer g).2 = .error e) : F e := by
  induction p generalizing g with
  | done a => cases heval
  | fail e' =>
    cases heval
    exact h
  | ask q k ih => exact ih _ (h.2 _) heval

end Within

/-! ## A client among others that do as they like -/

/-- An execution between whose requests the others leave the store as they
like: the stores before and after each request, oldest first, and how the
client ends. -/
def Runs (exec : G → (q : Q) → W → Option (G × R q)) : Prog Q R E α → List (G × G) →
    Except E α → Prop
  | done a, log, res => log = [] ∧ res = .ok a
  | fail e, log, res => log = [] ∧ res = .error e
  | ask q k, log, res => ∃ g w g' r log', exec g q w = some (g', r) ∧ log = (g, g') :: log'
      ∧ (k r).Runs exec log' res

section Runs

variable {exec : G → (q : Q) → W → Option (G × R q)} {log : List (G × G)} {p : Prog Q R E α}

theorem Runs.bind {f : α → Prog Q R E β} {res : Except E β} (h : (p >>= f).Runs exec log res) :
    ∃ log₁ log₂ r, log = log₁ ++ log₂ ∧ p.Runs exec log₁ r
      ∧ ((∃ a, r = .ok a ∧ (f a).Runs exec log₂ res)
        ∨ ∃ e, r = .error e ∧ log₂ = [] ∧ res = .error e) := by
  induction p generalizing log with
  | done a => exact ⟨[], log, .ok a, rfl, ⟨rfl, rfl⟩, .inl ⟨a, rfl, h⟩⟩
  | fail e => exact ⟨[], log, .error e, rfl, ⟨rfl, rfl⟩, .inr ⟨e, rfl, h.1, h.2⟩⟩
  | ask q k ih =>
    obtain ⟨g, w, g', r, log', hx, rfl, hk⟩ := h
    obtain ⟨log₁, log₂, res₁, rfl, hp, hf⟩ := ih r hk
    exact ⟨(g, g') :: log₁, log₂, res₁, rfl, ⟨g, w, g', r, log₁, hx, rfl, hp⟩, hf⟩

/-- What requests of a kind do not touch, a client that sends only these
does not. -/
theorem Runs.keeps {P : Q → Prop} {F : E → Prop} {K : G → G → Prop}
    (hK : ∀ g q w g' r, P q → exec g q w = some (g', r) → K g g')
    {res : Except E α} (hp : p.Within P F) (h : p.Runs exec log res) : ∀ x ∈ log, K x.1 x.2 := by
  induction p generalizing log with
  | done a =>
    rw [h.1]
    exact nofun
  | fail e =>
    rw [h.1]
    exact nofun
  | ask q k ih =>
    obtain ⟨g, w, g', r, log', hx, rfl, hk⟩ := h
    intro x hmem
    rcases List.mem_cons.mp hmem with rfl | hmem
    · exact hK g q w g' r hp.1 hx
    · exact ih r (hp.2 r) hk x hmem

end Runs

end Prog

/-! ## Clients among others -/

/-- A store that clients share: how requests are executed, which of them
are allowed, what always holds of the store, and the order it moves up. -/
structure Shared (Q : Type) (R : Q → Type) (G W : Type) where
  exec : G → (q : Q) → W → Option (G × R q)
  ok : G → Q → Prop
  inv : G → Prop
  le : G → G → Prop
  refl : ∀ g, le g g
  trans : ∀ {g₁ g₂ g₃}, le g₁ g₂ → le g₂ g₃ → le g₁ g₃

namespace Prog

variable {Q : Type} {R : Q → Type} {E E' α β G W : Type} {S : Shared Q R G W}

/-- The client, wherever the others have moved the store to, keeps the
invariant, moves it up, and returns only with `post`. -/
def Safe (S : Shared Q R G W) (post : α → G → Prop) : Prog Q R E α → G → Prop
  | done a, g => ∀ g', S.inv g' → S.le g g' → post a g'
  | fail _, _ => True
  | ask q k, g => ∀ g' w g'' r, S.inv g' → S.le g g' → S.ok g' q →
      S.exec g' q w = some (g'', r) → S.inv g'' ∧ S.le g' g'' ∧ (k r).Safe S post g''

variable {post : α → G → Prop} {p : Prog Q R E α} {g : G}

theorem Safe.mono {g' : G} (h : p.Safe S post g) (hle : S.le g g') : p.Safe S post g' := by
  cases p with
  | done a => exact fun g₁ hinv h₁ => h g₁ hinv (S.trans hle h₁)
  | fail e => trivial
  | ask q k => exact fun g₁ w g₂ r hinv h₁ => h g₁ w g₂ r hinv (S.trans hle h₁)

theorem Safe.imp {post' : α → G → Prop} (h : p.Safe S post g)
    (himp : ∀ a g, post a g → post' a g) : p.Safe S post' g := by
  induction p generalizing g with
  | done a => exact fun g' hinv hle => himp a g' (h g' hinv hle)
  | fail e => trivial
  | ask q k ih =>
    intro g₁ w g₂ r hinv hle hok hx
    obtain ⟨hinv', hle', hk⟩ := h g₁ w g₂ r hinv hle hok hx
    exact ⟨hinv', hle', ih r hk⟩

theorem Safe.bind {post' : β → G → Prop} {f : α → Prog Q R E β} (h : p.Safe S post g)
    (hf : ∀ a g, S.inv g → post a g → (f a).Safe S post' g) : (p >>= f).Safe S post' g := by
  induction p generalizing g with
  | done a =>
    -- what `post` gives holds in every later store, and so does what `f` needs
    have hlater : ∀ g', S.inv g' → S.le g g' → (f a).Safe S post' g' :=
      fun g' hinv hle => hf a g' hinv (h g' hinv hle)
    change (f a).Safe S post' g
    cases hfa : f a with
    | done b =>
      intro g' hinv hle
      have hb := hlater g' hinv hle
      rw [hfa] at hb
      exact hb g' hinv (S.refl g')
    | fail e => trivial
    | ask q k =>
      intro g' w g'' r hinv hle hok hx
      have hb := hlater g' hinv hle
      rw [hfa] at hb
      exact hb g' w g'' r hinv (S.refl g') hok hx
  | fail e => trivial
  | ask q k ih =>
    intro g₁ w g₂ r hinv hle hok hx
    obtain ⟨hinv', hle', hk⟩ := h g₁ w g₂ r hinv hle hok hx
    exact ⟨hinv', hle', ih r hk⟩

/-- The frame rule: what is stable and holds at the start holds at the
end. -/
theorem Safe.frame {K : G → Prop} (hK : ∀ g g', S.le g g' → K g → K g') (h : p.Safe S post g) (hk : K g) :
    p.Safe S (fun a g => K g ∧ post a g) g := by
  induction p generalizing g with
  | done a => exact fun g' hinv hle => ⟨hK g g' hle hk, h g' hinv hle⟩
  | fail e => trivial
  | ask q k ih =>
    intro g₁ w g₂ r hinv hle hok hx
    obtain ⟨hinv', hle', hprog⟩ := h g₁ w g₂ r hinv hle hok hx
    exact ⟨hinv', hle', ih r hprog (hK g₁ g₂ hle' (hK g g₁ hle hk))⟩

theorem Safe.mapErr {f : E → E'} (h : p.Safe S post g) : (p.mapErr f).Safe S post g := by
  induction p generalizing g with
  | done a => exact h
  | fail e => trivial
  | ask q k ih =>
    intro g₁ w g₂ r hinv hle hok hx
    obtain ⟨hinv', hle', hk⟩ := h g₁ w g₂ r hinv hle hok hx
    exact ⟨hinv', hle', ih r hk⟩

theorem Safe.attempt (h : p.Safe S post g) :
    (p.attempt : Prog Q R E' (Except E α)).Safe S (fun r g => ∀ a, r = .ok a → post a g) g := by
  induction p generalizing g with
  | done a =>
    intro g' hinv hle b hb
    cases hb
    exact h g' hinv hle
  | fail e =>
    nofun
  | ask q k ih =>
    intro g₁ w g₂ r hinv hle hok hx
    obtain ⟨hinv', hle', hk⟩ := h g₁ w g₂ r hinv hle hok hx
    exact ⟨hinv', hle', ih r hk⟩

/-- A request that keeps the invariant and moves the store up. -/
theorem Safe.request {q : Q} {post : R q → G → Prop}
    (h : ∀ g' w g'' r, S.inv g' → S.le g g' → S.ok g' q → S.exec g' q w = some (g'', r) →
      S.inv g'' ∧ S.le g' g'' ∧ ∀ g₃, S.inv g₃ → S.le g'' g₃ → post r g₃) :
    (Prog.request q : Prog Q R E (R q)).Safe S post g :=
  fun g' w g'' r hinv hle hok hx => h g' w g'' r hinv hle hok hx

/-- One step of the client. -/
theorem Safe.advance {p' : Prog Q R E α} {g' : G} {w : W} (h : p.Safe S post g) (hinv : S.inv g)
    (hok : ∀ q k, p = ask q k → S.ok g q) (hstep : p.advance S.exec g w = some (p', g')) :
    S.inv g' ∧ S.le g g' ∧ p'.Safe S post g' := by
  obtain ⟨q, k, r, rfl, hx, rfl⟩ := advance_some hstep
  exact h g w g' r hinv (S.refl g) (hok q k rfl) hx

/-- What a client that is done returned. -/
theorem Safe.result {a : α}
    (h : (done a : Prog Q R E α).Safe S post g) (hinv : S.inv g) : post a g :=
  h g hinv (S.refl g)

end Prog

end Client
