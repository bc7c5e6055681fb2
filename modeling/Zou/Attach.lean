import Mathlib.Data.List.Sort
import Zou.Lib.OrdMap
import Zou.Lib.Trace

/-!
# Attached tenants

A node keeps the tenants it has brought up in a map of slots, and two
budgets take slots out of it again: `enforce` when there are too many and
`sweep` when one has not been asked for lately. A call of `hold` finds or
makes its tenant's slot under the map's lock, marks it used and counts
itself busy in it, both without the lock, attaches the tenant unless the
slot's cell is filled, enforces the ceiling, and picks up a deployment.
What it returns keeps it busy until it is dropped.

A lock section, an atomic update and a backend call are a step each, and
any number of calls take theirs in any order. Clocks are arguments. The
backend hears of `up` and `down` in the order of `events`, which nobody
keeps. A slot that has left the map lives on in the calls that have it.
-/

namespace Zou

/-- What `hold` reads of a registry entry. -/
structure HoldEntry (R : Type) where
  tenantRef : R
  deployed : Nat
  deriving DecidableEq, Repr

/-- The cell an attach is built in. A failed attach leaves it empty. -/
inductive UpCell where
  | empty
  | building
  | up
  deriving DecidableEq, Repr

structure AttachSlot where
  cell : UpCell
  used : Nat
  busy : Nat
  deployed : Nat
  refreshing : Bool
  deriving DecidableEq, Repr

/-- A slot as `slot` makes it. -/
def AttachSlot.new : AttachSlot := ⟨.empty, 0, 0, 0, false⟩

/-- Nobody is inside it. -/
def AttachSlot.free (s : AttachSlot) : Bool := s.busy = 0

/-- What a call that has its slot does next. -/
inductive Stage where
  | use
  | mark
  | attach
  /-- `backend.up` is running. -/
  | building
  | enforce
  | compare
  | lock
  | compareAgain
  /-- `backend.refresh` is running. -/
  | refresh
  /-- `hold` has returned and the caller works. -/
  | held
  /-- `hold` has failed and lets go. -/
  | leaving
  deriving DecidableEq, Repr

/-- A call of `hold`, until what it returned is dropped. -/
inductive HoldCall (R : Type) where
  | lookup (e : HoldEntry R)
  | live (e : HoldEntry R) (slot : Nat) (stage : Stage)
  | done
  deriving DecidableEq, Repr

/-- What the backend hears and says. -/
inductive BackendEvent (R : Type) where
  | upCalled (tenantRef : R)
  | upDone (tenantRef : R) (ok : Bool)
  | down (tenantRef : R)
  deriving DecidableEq, Repr

/-- How a backend call ends. An attach may also fail after `backend.up`
is done, when the router is not built. -/
inductive BackendEnd where
  | ok
  | failed
  | unrouted
  deriving DecidableEq, Repr

structure Attached (R : Type) [LinearOrder R] where
  slots : OrdMap R Nat
  /-- The slots made so far, in and out of the map. -/
  arena : Nat → AttachSlot
  made : Nat
  calls : List (HoldCall R)
  events : List (BackendEvent R)
  /-- Sweeps that have yet to enforce the ceiling. -/
  swept : Nat

/-- A call begins or takes its next step, what it returned is dropped, and
a sweep takes its two lock sections. -/
inductive AttachLabel (R : Type) where
  | hold (e : HoldEntry R)
  | step (i now : Nat) (r : BackendEnd)
  | drop (i : Nat)
  | sweep (now : Nat)
  | enforce

namespace Attached

variable {R : Type} [LinearOrder R]

def setSlot (s : Attached R) (k : Nat) (f : AttachSlot → AttachSlot) : Attached R :=
  { s with arena := Function.update s.arena k (f (s.arena k)) }

def setCall (s : Attached R) (i : Nat) (c : HoldCall R) : Attached R :=
  { s with calls := s.calls.set i c }

def hear (s : Attached R) (ev : BackendEvent R) : Attached R :=
  { s with events := s.events ++ [ev] }

/-- `slot`: the tenant's slot, made unless it is there. -/
def slot (s : Attached R) (tenantRef : R) : Attached R × Nat :=
  match s.slots.get? tenantRef with
  | some k => (s, k)
  | none => ({ s with
      slots := s.slots.insert tenantRef s.made
      arena := Function.update s.arena s.made .new
      made := s.made + 1 }, s.made)

/-! ## Budgets -/

/-- Take a tenant out of the map and stop its database. -/
def evict (s : Attached R) (tenantRef : R) : Attached R :=
  { s with slots := s.slots.remove tenantRef }.hear (.down tenantRef)

/-- The order eviction goes by. -/
def usedBefore (a b : Nat × R) : Prop := a.1 < b.1 ∨ (a.1 = b.1 ∧ a.2 ≤ b.2)

instance : DecidableRel (usedBefore (R := R)) := fun a b =>
  inferInstanceAs (Decidable (a.1 < b.1 ∨ (a.1 = b.1 ∧ a.2 ≤ b.2)))

/-- The free tenants over the ceiling, oldest use first. -/
def overCeiling (max : Nat) (s : Attached R) : List R :=
  if s.slots.entries.length ≤ max then [] else
  let free := s.slots.entries.filter fun p => (s.arena p.2).free
  let byUse := (free.map fun p => ((s.arena p.2).used, p.1)).insertionSort usedBefore
  (byUse.take (s.slots.entries.length - max)).map Prod.snd

/-- One removal of `enforce`, which asks once more whether it is free. -/
def evictFree (s : Attached R) (tenantRef : R) : Attached R :=
  if (s.slots.get? tenantRef).any fun k => !(s.arena k).free then s else s.evict tenantRef

def enforce (max : Nat) (s : Attached R) : Attached R := (overCeiling max s).foldl evictFree s

/-- The free tenants nobody has asked for since the cutoff. -/
def stale (idle now : Nat) (s : Attached R) : List R :=
  (s.slots.entries.filter fun p =>
    (s.arena p.2).used < now - idle ∧ (s.arena p.2).free).map Prod.fst

/-- The lock section of `sweep`. -/
def sweep (idle now : Nat) (s : Attached R) : Attached R := (stale idle now s).foldl evict s

/-! ## Calls -/

/-- The next step of call `i`, which has slot `k`. -/
def advance (max : Nat) (s : Attached R) (i : Nat) (e : HoldEntry R) (k now : Nat)
    (r : BackendEnd) (st : Stage) : Option (Attached R) :=
  let sl := s.arena k
  let goto (s : Attached R) (st : Stage) := s.setCall i (.live e k st)
  match st with
  | .use => some (goto (s.setSlot k fun sl => { sl with used := now }) .mark)
  | .mark => some (goto (s.setSlot k fun sl => { sl with busy := sl.busy + 1 }) .attach)
  | .attach => match sl.cell with
      | .up => some (goto s .enforce)
      | .building => none
      | .empty => some (goto ((s.setSlot k fun sl =>
        { sl with cell := .building, deployed := e.deployed }).hear (.upCalled e.tenantRef))
        .building)
  | .building => match r with
      | .ok => some (goto ((s.setSlot k fun sl => { sl with cell := .up }).hear
          (.upDone e.tenantRef true)) .enforce)
      | .failed => some (goto ((s.setSlot k fun sl => { sl with cell := .empty }).hear
          (.upDone e.tenantRef false)) .leaving)
      | .unrouted => some (goto ((s.setSlot k fun sl => { sl with cell := .empty }).hear
          (.upDone e.tenantRef true)) .leaving)
  | .enforce => some (goto (s.enforce max) .compare)
  | .compare => some (goto s (if sl.deployed = e.deployed then .held else .lock))
  | .lock => if sl.refreshing then none
      else some (goto (s.setSlot k fun sl => { sl with refreshing := true }) .compareAgain)
  | .compareAgain =>
    if sl.deployed = e.deployed then
      some (goto (s.setSlot k fun sl => { sl with refreshing := false }) .held)
    else some (goto s .refresh)
  | .refresh => match r with
      | .ok => some (goto (s.setSlot k fun sl =>
        { sl with deployed := e.deployed, refreshing := false }) .held)
      | _ => some (goto (s.setSlot k fun sl => { sl with refreshing := false }) .leaving)
  | .held | .leaving => none

def next (max idle : Nat) (s : Attached R) : AttachLabel R → Option (Attached R)
  | .hold e => some { s with calls := s.calls ++ [.lookup e] }
  | .step i now r => match s.calls[i]? with
      | some (.lookup e) =>
        let (s', k) := s.slot e.tenantRef
        some (s'.setCall i (.live e k .use))
      | some (.live e k st) => s.advance max i e k now r st
      | _ => none
  | .drop i => match s.calls[i]? with
      | some (.live _ k .held) | some (.live _ k .leaving) =>
        some ((s.setSlot k fun sl => { sl with busy := sl.busy - 1 }).setCall i .done)
      | _ => none
  | .sweep now => some { s.sweep idle now with swept := s.swept + 1 }
  | .enforce => if s.swept = 0 then none else some { s.enforce max with swept := s.swept - 1 }

/-- A node that has just started. -/
def new : Attached R := ⟨.empty, fun _ => .new, 0, [], [], 0⟩

end Attached

/-! ## What the backend knows -/

inductive BackendState where
  | down
  | coming
  | up
  deriving DecidableEq, Repr

/-- Where the events leave a tenant's database. -/
def backendState {R : Type} [DecidableEq R] (tenantRef : R) (events : List (BackendEvent R)) :
    BackendState :=
  events.foldl (fun st ev => match ev with
    | .upCalled r => if r = tenantRef then .coming else st
    | .upDone r ok => if r = tenantRef then (if ok then .up else .down) else st
    | .down r => if r = tenantRef then .down else st) .down

end Zou
