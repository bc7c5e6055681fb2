import Mathlib.Data.List.Basic
import Zou.Lib.OrdMap
import Zou.Lib.Trace

/-!
# The reader of a project's changes

Who is listening, the loop that owns the tap, and a join that waits for it.
The loop is one step at a time: what it does between two locks, or two
awaits, anyone else may do something in between. A change is its place in
the order of the commits. What a binding asks for is the index's answer,
and what an asker may see of a change the policies'; both are parameters.
The catalog and the policies are asked over a connection that may fail, and
then the subscriber is told nothing about the change.
-/

namespace Zou.Reader

/-- How far behind a subscriber may fall before it is dropped. -/
def QUEUE : Nat := 256

/-- How far behind a link may fall before its node is told there is a gap. -/
def CHANGES : Nat := 4096

inductive Heard where
  | change (ids : List Nat) (n : Nat)
  | gap

/-- Where one subscriber's changes go: a queue of its own, or the one its
link shares. -/
inductive To where
  | own
  | link (k : Nat)
  deriving DecidableEq

/-- The one queue every subscriber on one link shares. -/
structure Shared where
  queue : List (Nat × Heard)
  behind : Bool

structure Listener (A : Type) where
  asker : A
  sendTo : To
  queue : List Heard
  bindings : List Nat

structure Sub (B : Type) where
  listener : Nat
  binding : B

inductive Tapped where
  | waiting
  | «open»
  | failed
  deriving DecidableEq

/-- A tap sees what is committed while it is open, from `cursor` on. -/
structure Tap where
  cursor : Nat
  dead : Bool

/-- Where the loop is. -/
inductive Phase where
  /-- At the top. -/
  | check
  /-- Nobody is listening, and the tap is about to go. -/
  | idle
  /-- It went, and nobody has been told. -/
  | idled
  | parked
  | opening
  /-- There is a tap, and nobody has been told. -/
  | opened
  | troubled
  | failing
  | polling
  /-- The poll failed, and the gap is about to be told. -/
  | stopped
  /-- It is told, and the tap is about to go. -/
  | gapped
  /-- It went, and nobody has been told. -/
  | dropped
  | delivering (batch : List Nat)
  deriving DecidableEq

/-- What became of a binding: who asked, when the join was answered, and
when it was unbound, as the number of commits before. -/
structure Join (A B : Type) where
  listener : Nat
  asker : A
  binding : B
  /-- Its join found the tap open. -/
  seen : Bool
  answered : Option Nat
  unbound : Option Nat

structure Handing where
  listener : Nat
  ids : List Nat
  n : Nat

structure State (A B C : Type) where
  log : List C
  next : Nat
  /-- The index, with the owner of each binding. -/
  subs : OrdMap Nat (Sub B)
  listeners : OrdMap Nat (Listener A)
  links : Nat → Shared
  tapped : Tapped
  phase : Phase
  tap : Option Tap
  told : Bool
  joins : Nat → Option (Join A B)
  /-- What was put in a queue. -/
  handed : List Handing
  /-- Who was told there is a gap, and the last id there was then. -/
  gaps : List (Nat × Nat)

section

variable {A B C : Type}

def start : State A B C :=
  { log := [], next := 0, subs := OrdMap.empty, listeners := OrdMap.empty
    links := fun _ => ⟨[], false⟩, tapped := .waiting, phase := .check, tap := none, told := false
    joins := fun _ => none, handed := [], gaps := [] }

/-! ## Who is listening -/

/-- A subscriber that is finished, and everything it asked for. -/
def hungUp (s : State A B C) (l : Nat) : State A B C :=
  match s.listeners.get? l with
  | none => s
  | some who =>
    { s with listeners := s.listeners.remove l, subs := who.bindings.foldl OrdMap.remove s.subs }

def bind (s : State A B C) (l : Nat) (binding : B) : State A B C :=
  match s.listeners.get? l with
  | none => s
  | some who =>
    let id := s.next + 1
    { s with
      next := id
      subs := s.subs.insert id ⟨l, binding⟩
      listeners := s.listeners.insert l { who with bindings := who.bindings ++ [id] }
      joins := Function.update s.joins id (some ⟨l, who.asker, binding, false, none, none⟩) }

/-- The index and the listener's own list forget the binding. -/
def unbind (s : State A B C) (id : Nat) : State A B C :=
  let join := (s.joins id).map fun j => { j with unbound := some (j.unbound.getD s.log.length) }
  let s := { s with joins := Function.update s.joins id join }
  match s.subs.get? id with
  | none => s
  | some sub =>
    { s with
      subs := s.subs.remove id
      listeners := s.listeners.adjust sub.listener fun who =>
        { who with bindings := who.bindings.filter (· ≠ id) } }

/-- How many subscribers have asked for something. -/
def listening (s : State A B C) : Nat :=
  (s.listeners.entries.filter fun x => !x.2.bindings.isEmpty).length

/-- Put a message in the queue it is for, if it fits. -/
def trySend (s : State A B C) (l : Nat) (who : Listener A) (heard : Heard) : Option (State A B C) :=
  match who.sendTo with
  | .own =>
    if who.queue.length < QUEUE then
      some { s with listeners := s.listeners.insert l { who with queue := who.queue ++ [heard] } }
    else none
  | .link k =>
    if (s.links k).queue.length < CHANGES then
      let shared := { s.links k with queue := (s.links k).queue ++ [(l, heard)] }
      some { s with links := Function.update s.links k shared }
    else none

/-- One that is behind: a subscriber of its own is dropped, and a link's end
tells every socket on it. -/
def refuse (s : State A B C) (l : Nat) (who : Listener A) : State A B C :=
  match who.sendTo with
  | .own => hungUp s l
  | .link k =>
    { s with
      links := Function.update s.links k { s.links k with behind := true }
      gaps := s.gaps ++ (s.listeners.entries.filter fun x => x.2.sendTo = .link k).map
        fun x => (x.1, s.next) }

def hand (n : Nat) (s : State A B C) (owed : Nat × List Nat) : State A B C :=
  match s.listeners.get? owed.1 with
  | none => s
  | some who =>
    match trySend s owed.1 who (.change owed.2 n) with
    | some s => { s with handed := s.handed ++ [⟨owed.1, owed.2, n⟩] }
    | none => refuse s owed.1 who

def tell (s : State A B C) (l : Nat) : State A B C :=
  match s.listeners.get? l with
  | none => s
  | some who =>
    match trySend s l who .gap with
    | some s => { s with gaps := s.gaps ++ [(l, s.next)] }
    | none => refuse s l who

/-- Tell every subscriber that what they have is not everything. -/
def gap (s : State A B C) : State A B C := (s.listeners.entries.map Prod.fst).foldl tell s

section Deliver

variable (asked : B → C → Bool) (visible : A → C → Bool)

/-- The bindings of one subscriber that asked for a change, ascending. -/
def ids (s : State A B C) (l : Nat) (c : C) : List Nat :=
  (s.subs.entries.filter fun x => decide (x.2.listener = l) && asked x.2.binding c).map Prod.fst

/-- Who is owed one change. Of the subscribers in `failed`, nobody could
find out what they may see. -/
def owed (failed : List Nat) (s : State A B C) (c : C) : List (Nat × List Nat) :=
  s.listeners.entries.filterMap fun x =>
    if (ids asked s x.1 c).isEmpty || failed.contains x.1 || !visible x.2.asker c then none
    else some (x.1, ids asked s x.1 c)

def deliver (failed : List Nat) (s : State A B C) (n : Nat) : State A B C :=
  match s.log[n]? with
  | none => s
  | some c => (owed asked visible failed s c).foldl (hand n) s

end Deliver

/-! ## Steps -/

inductive Act (A B C : Type) where
  | listen (asker : A) (sendTo : To)
  | bind (l : Nat) (binding : B)
  /-- `tapping` returns because the tap is open. -/
  | tapping (id : Nat)
  | reply (id : Nat)
  | unbind (id : Nat)
  | hungUp (l : Nat)
  /-- A socket reads its queue, and a link drains its own and asks whether
  it is behind. -/
  | hear (l : Nat)
  | drain (k : Nat)
  | behind (k : Nat)
  | commit (c : C)
  /-- The tap's connection goes. -/
  | fail
  /-- The loop goes on: whether a tap could be opened, and how much a poll
  brings. -/
  | step (ok : Bool) (count : Nat)
  /-- It hands over a change whose check fails for some. -/
  | unchecked (failed : List Nat)

variable (asked : B → C → Bool) (visible : A → C → Bool)

def turn (s : State A B C) (ok : Bool) (count : Nat) : Option (State A B C) :=
  match s.phase with
  | .check =>
    if listening s = 0 then some { s with phase := .idle }
    else some { s with phase := if s.tap.isSome then .polling else .opening }
  | .idle => some { s with tap := none, told := false, phase := .idled }
  | .idled => some { s with tapped := .waiting, phase := .parked }
  | .parked => if 0 < listening s then some { s with phase := .check } else none
  | .opening =>
    if ok then some { s with tap := some ⟨s.log.length, false⟩, told := false, phase := .opened }
    else some { s with phase := .troubled }
  | .opened => some { s with tapped := .open, phase := .polling }
  | .troubled =>
    if s.told then some { s with phase := .failing }
    else some (gap { s with told := true, phase := .failing })
  | .failing => some { s with tapped := .failed, phase := .check }
  | .polling =>
    match s.tap with
    | none => none
    | some tap =>
      if tap.dead then some { s with phase := .stopped }
      else
        let read := min count (s.log.length - tap.cursor)
        if read = 0 then some { s with phase := .check }
        else some { s with
          tap := some { tap with cursor := tap.cursor + read }
          phase := .delivering (List.range' tap.cursor read) }
  | .stopped => some (gap { s with told := true, phase := .gapped })
  | .gapped => some { s with tap := none, phase := .dropped }
  | .dropped => some { s with tapped := .waiting, phase := .check }
  | .delivering [] => some { s with phase := .check }
  | .delivering (n :: batch) => some (deliver asked visible [] { s with phase := .delivering batch } n)

def next (s : State A B C) : Act A B C → Option (State A B C)
  | .listen asker sendTo =>
    let id := s.next + 1
    some { s with next := id, listeners := s.listeners.insert id ⟨asker, sendTo, [], []⟩ }
  | .bind l binding => some (bind s l binding)
  | .tapping id =>
    match s.joins id with
    | none => none
    | some j =>
      if s.tapped = .open then
        some { s with joins := Function.update s.joins id (some { j with seen := true }) }
      else none
  | .reply id =>
    match s.joins id with
    | none => none
    | some j =>
      if j.seen ∧ j.answered = none then
        let j := { j with answered := some s.log.length }
        some { s with joins := Function.update s.joins id (some j) }
      else none
  | .unbind id => some (unbind s id)
  | .hungUp l => some (hungUp s l)
  | .hear l =>
    some { s with listeners := s.listeners.adjust l fun who =>
      { who with queue := who.queue.tail } }
  | .drain k =>
    let shared := { s.links k with queue := (s.links k).queue.tail }
    some { s with links := Function.update s.links k shared }
  | .behind k =>
    some { s with links := Function.update s.links k { s.links k with behind := false } }
  | .commit c => some { s with log := s.log ++ [c] }
  | .fail => some { s with tap := s.tap.map fun tap => { tap with dead := true } }
  | .step ok count => turn asked visible s ok count
  | .unchecked failed =>
    match s.phase with
    | .delivering (n :: batch) =>
      some (deliver asked visible failed { s with phase := .delivering batch } n)
    | _ => none

/-! ## What is promised -/

/-- The subscriber was told there is a gap since it asked, or has no queue. -/
def Excused (s : State A B C) (id : Nat) (j : Join A B) : Prop :=
  (∃ x ∈ s.gaps, x.1 = j.listener ∧ id ≤ x.2) ∨ s.listeners.get? j.listener = none

/-- The loop has still to hand a change over. -/
def Ahead (s : State A B C) (n : Nat) : Prop :=
  (∃ tap, s.tap = some tap ∧ tap.cursor ≤ n) ∨ ∃ batch, s.phase = .delivering batch ∧ n ∈ batch

/-- A change that a binding asked for and its asker may see, committed
between the answer to its join and its unbinding. -/
def Owes (s : State A B C) (j : Join A B) (n : Nat) : Prop :=
  (∃ a, j.answered = some a ∧ a ≤ n) ∧ (∀ u, j.unbound = some u → n < u) ∧
    ∃ c, s.log[n]? = some c ∧ asked j.binding c = true ∧ visible j.asker c = true

def Handed (s : State A B C) (id : Nat) (j : Join A B) (n : Nat) : Prop :=
  ∃ h ∈ s.handed, h.listener = j.listener ∧ id ∈ h.ids ∧ h.n = n

/-- No change is left behind, and what is handed over is in order. -/
structure Promise (s : State A B C) : Prop where
  heard : ∀ id j, s.joins id = some j → ∀ n, Owes asked visible s j n →
    Handed s id j n ∨ Excused s id j ∨ Ahead s n
  order : (s.handed.map Handing.n).Pairwise (· ≤ ·)

/-- The loop has made up its mind to let its tap go, and the joins can
still read that there is one. -/
def Phase.Leaving : Phase → Prop
  | .idle | .idled | .gapped | .dropped => True
  | _ => False

/-- What is left of a batch. -/
def Phase.batch : Phase → List Nat
  | .delivering batch => batch
  | _ => []

/-- A join does not find a tap open that is being let go, unless it was told
of the gap, nothing is unbound while a change for it is unread, and no check
fails for a subscriber that is owed the change. -/
def Sound (s : State A B C) : Act A B C → Prop
  | .tapping id => s.phase.Leaving → ∀ j, s.joins id = some j → Excused s id j
  | .unbind id => ∀ j, s.joins id = some j → ∀ n, Owes asked visible s j n → ¬ Ahead s n
  | .unchecked failed => ∀ n, s.phase.batch.head? = some n → ∀ x ∈ s.subs.entries,
    x.2.listener ∈ failed → ∀ j, s.joins x.1 = some j → Owes asked visible s j n → Excused s x.1 j
  | _ => True

end

end Zou.Reader
