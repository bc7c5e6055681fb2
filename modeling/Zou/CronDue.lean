import Zou.CronSpec

/-!
# The rounds of the ticker

A round reads what each active job was last fired for, asks `when` for each
in turn, and claims an occurrence by moving `fired_for` forward; the claim
is the insert. A job that has no row yet gets one for now. After its eighth
claim a round stops.

A run is a sequence of rounds as one job sees them: every round comes with
the other active jobs there are, ahead of it and behind it by their ids,
and with what those were last fired for.
-/

namespace Zou

namespace Cron

/-- What a job is called and how it is run are left out. -/
structure Job where
  id : Int
  schedule : Text
  deriving DecidableEq

/-- `zou.cron_run`. -/
abbrev FiredFor := Int → Option Int

def atOnce : Nat := 8

/-- The insert that leaves a row that is there alone. -/
def firstSeen (fired : FiredFor) (id now : Int) : FiredFor :=
  match fired id with
  | none => Function.update fired id (some now)
  | some _ => fired

/-- The insert that moves `fired_for` forward only, and whether it did. -/
def claim (fired : FiredFor) (id occurrence : Int) : Bool × FiredFor :=
  match fired id with
  | none => (true, Function.update fired id (some occurrence))
  | some last =>
    if last < occurrence then (true, Function.update fired id (some occurrence))
    else (false, fired)

/-- Where a round is: whether it has stopped, what it claimed and what is
recorded. -/
structure Progress where
  stopped : Bool
  claimed : List (Job × Int)
  fired : FiredFor

section Round

variable (rows : FiredFor) (now : Int) (waking : Bool)

/-- A job of a round; `rows` is what the query at its start found. -/
def look (job : Job) (p : Progress) : Outcome Unit Progress :=
  match parse job.schedule with
  | .panicked => .panicked
  | .err _ => pure p
  | .ok schedule =>
    match rows job.id with
    | none => pure { p with fired := firstSeen p.fired job.id now }
    | some last => do
      let due ← when schedule last now waking
      match due with
      | none => pure p
      | some occurrence =>
        let (taken, fired) := claim p.fired job.id occurrence
        let claimed := if taken then p.claimed ++ [(job, occurrence)] else p.claimed
        pure ⟨claimed.length = atOnce, claimed, fired⟩

/-- The jobs of a round one after the other, until it stops. -/
def walk : List Job → Progress → Outcome Unit Progress
  | [], p => pure p
  | job :: jobs, p => do
    let p ← look rows now waking job p
    if p.stopped then pure p else walk jobs p

end Round

/-- The jobs this node is now the one running, each with the occurrence it
is running for, and what is recorded then. -/
def due (now : Int) (waking : Bool) (jobs : List Job) (fired : FiredFor) :
    Outcome Unit (List (Job × Int) × FiredFor) := do
  let p ← walk fired now waking jobs ⟨false, [], fired⟩
  pure (p.claimed, p.fired)

/-! ## Rounds as a job sees them -/

/-- The times a timestamp of the database can be, 4713 BC to 294276 AD. -/
def IsStamp (t : Int) : Prop := -210866803200 ≤ t ∧ t < 9224318016000

instance (t : Int) : Decidable (IsStamp t) := inferInstanceAs (Decidable (_ ∧ _))

/-- A round that comes to a job. -/
structure Round (job : Job) where
  now : Int
  waking : Bool
  ahead : List Job
  behind : List Job
  fired : FiredFor
  ahead_lt : ∀ j ∈ ahead, j.id < job.id
  behind_gt : ∀ j ∈ behind, job.id < j.id
  now_stamp : IsStamp now
  fired_stamp : ∀ id t, fired id = some t → IsStamp t

/-- The rows of a round, by id. -/
def Round.jobs {job : Job} (r : Round job) : List Job := r.ahead ++ job :: r.behind

/-- What a round found recorded for a job, what it claimed and what it left
recorded. -/
structure Turn where
  now : Int
  last : Int
  claimed : List (Job × Int)
  next : Int
  deriving DecidableEq

def Turn.claim (t : Turn) (job : Job) : Option Int :=
  (t.claimed.find? (·.1.id = job.id)).map (·.2)

/-- A round had made all its claims before it came to the job. -/
def Turn.Crowded (t : Turn) (job : Job) : Prop :=
  atOnce ≤ (t.claimed.filter (·.1.id < job.id)).length

def Round.turn {job : Job} (r : Round job) (last : Int) : Outcome Unit Turn := do
  let (claimed, fired) ← due r.now r.waking r.jobs (Function.update r.fired job.id (some last))
  pure ⟨r.now, last, claimed, (fired job.id).getD last⟩

/-- Rounds from a recorded `fired_for` on. -/
def turns {job : Job} : Int → List (Round job) → Outcome Unit (List Turn)
  | _, [] => pure []
  | last, r :: rs => do
    let t ← r.turn last
    let ts ← turns t.next rs
    pure (t :: ts)

/-! ## A round that is made of two -/

theorem walk_append (rows : FiredFor) (now : Int) (waking : Bool) (xs ys : List Job)
    (p : Progress) (hp : p.stopped = false) :
    walk rows now waking (xs ++ ys) p = walk rows now waking xs p >>= fun q =>
      if q.stopped then pure q else walk rows now waking ys q := by
  induction xs generalizing p with
  | nil =>
    change walk rows now waking ys p = if p.stopped then pure p else walk rows now waking ys p
    rw [hp, if_neg Bool.false_ne_true]
  | cons x xs ih =>
    rw [List.cons_append, walk, walk, bind_assoc]
    congr 1
    funext q
    by_cases hq : q.stopped = true
    · simp only [hq, if_true, Outcome.pure_eq, Outcome.ok_bind]
    · rw [if_neg hq, if_neg hq]
      exact ih q (eq_false_of_ne_true hq)

end Cron

end Zou
