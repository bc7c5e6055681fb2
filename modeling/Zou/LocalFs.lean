import Zou.Lib.Linear
import Zou.Lib.Trace

/-!
# The local filesystem store

One key of the store on a filesystem that makes hard links. A thread takes
one filesystem call a step, and threads of any number of processes take
theirs in any order; a process may crash, and its threads then take no
step more. Tmp files are private, so that making one changes nothing
another thread can see.

The lock of the key is a directory with its holder's stamp in it, and a
waiter that finds it expired removes it inside a second lock directory,
the breaker. What a `stat` says of a directory's age, whether the pid of
a dead process has been handed out again, and when a thread gives up on a
lock are the environment's: the `yes` of a step.

`book` are the calls with what they were decided to answer, which nobody
keeps.
-/

namespace Zou

inductive FsOp (C V : Type) where
  | get
  | putIfAbsent (data : C)
  | putIfMatch (data : C) (expected : Option V)
  | put (data : C)
  | delete
  deriving DecidableEq, Repr

inductive FsResult (C V : Type) where
  | value (found : Option (C × V))
  | written (version : V)
  | deleted
  | alreadyExists
  | conflict
  deriving DecidableEq, Repr

/-- The name of one acquisition: the pid and a number of its own. -/
structure FsStamp where
  pid : Nat
  n : Nat
  deriving DecidableEq, Repr

/-- A lock directory, with the thread that made it and the stamps in it. -/
structure LockDir where
  maker : Nat
  stamps : List FsStamp
  deriving DecidableEq, Repr

/-- The next filesystem call of a thread. -/
inductive FsStage (C V : Type) where
  | read
  /-- `publish`, with its tmp file and its link to come. -/
  | absentTmp
  | link
  | unlinkTmp (r : FsResult C V)
  /-- `KeyLock::acquire`, about to make the lock directory. -/
  | mkdir
  | stamp (st : FsStamp)
  /-- `lock_expired`, by age and then by who stamped it. -/
  | stat
  | list
  /-- `break_stale_lock`, about to make the breaker directory. -/
  | breaker
  | restat
  | relist
  /-- `remove_dir_all` of the lock: what is in it, those away, the
  directory away. -/
  | clear
  | unlinkAll (stamps : List FsStamp)
  | rmdirLock
  | rmdirBreaker
  /-- The breaker directory is there already. -/
  | statBreaker
  | clearBreaker
  | wait
  /-- Inside the lock. -/
  | readKey (st : FsStamp)
  | tmp (st : FsStamp)
  | stillMine (st : FsStamp)
  | rename (st : FsStamp)
  | unlinkKey (st : FsStamp)
  /-- Dropping the lock. -/
  | unstamp (st : FsStamp) (r : FsResult C V)
  | rmdir (st : FsStamp) (r : FsResult C V)
  | settle (st : FsStamp) (r : FsResult C V)
  | leave (r : FsResult C V)
  deriving DecidableEq, Repr

inductive FsPc (C V : Type) where
  | idle
  | run (op : FsOp C V) (st : FsStage C V)
  deriving DecidableEq, Repr

structure LocalFs (C V : Type) where
  file : Option C
  lock : Option LockDir
  /-- The thread that made the breaker directory. -/
  breaker : Option Nat
  /-- Stamps handed out so far. -/
  stamps : Nat
  dead : Nat → Bool
  pcs : Nat → FsPc C V
  book : Linear.Book (FsOp C V) (FsResult C V)

inductive FsLabel (C V : Type) where
  | call (t : Nat) (op : FsOp C V)
  | step (t : Nat) (yes : Bool)
  | crash (pid : Nat)

namespace LocalFs

variable {C V : Type}

def goto (s : LocalFs C V) (t : Nat) (op : FsOp C V) (st : FsStage C V) : LocalFs C V :=
  { s with pcs := Function.update s.pcs t (.run op st) }

/-- The answer of the call of `t` is decided. -/
def decide_ (s : LocalFs C V) (t : Nat) (r : FsResult C V) : LocalFs C V :=
  { s with book := s.book.commit t r }

/-- The call of `t` returns, or gives up on the lock. -/
def finish (s : LocalFs C V) (t : Nat) (r : Option (FsResult C V)) : LocalFs C V :=
  { s with pcs := Function.update s.pcs t .idle, book := s.book.finish t r }

/-- `lock_owner_dead`, of the stamps it found: there are some and all their
processes are dead, none of which has its pid in use again. -/
def ownerDead (s : LocalFs C V) (yes : Bool) : Bool :=
  yes && (s.lock.any fun d => d.stamps ≠ [] && d.stamps.all fun st => s.dead st.pid)

/-- The lock directory without a stamp. -/
def unlinked (d : LockDir) (st : FsStamp) : LockDir := { d with stamps := d.stamps.erase st }

/-- `rmdir` of the lock directory, which fails on one that is not empty. -/
def rmdirOk (s : LocalFs C V) : Bool := s.lock.any fun d => d.stamps = []

/-- Where a call begins. -/
def start : FsOp C V → FsStage C V
  | .get => .read
  | .putIfAbsent _ => .absentTmp
  | _ => .mkdir

/-- What the holder of the lock does first. -/
def enter (st : FsStamp) : FsOp C V → FsStage C V
  | .putIfMatch _ _ => .readKey st
  | .delete => .unlinkKey st
  | _ => .tmp st

variable [DecidableEq V] (proc : Nat → Nat) (ver : C → V)

/-- The next filesystem call of `t`, done. -/
def act (s : LocalFs C V) (t : Nat) (yes : Bool) (op : FsOp C V) :
    FsStage C V → Option (LocalFs C V)
  | .read => match op with
      | .get =>
        let r := .value (s.file.map fun c => (c, ver c))
        some ((s.decide_ t r).goto t op (.leave r))
      | _ => none
  | .absentTmp => some (s.goto t op .link)
  | .link => match op, s.file with
      | .putIfAbsent c, none =>
        let r := .written (ver c)
        some (({ s with file := some c }.decide_ t r).goto t op (.unlinkTmp r))
      | .putIfAbsent _, some _ =>
        some ((s.decide_ t .alreadyExists).goto t op (.unlinkTmp .alreadyExists))
      | _, _ => none
  | .unlinkTmp r => some (s.goto t op (.leave r))
  | .mkdir => match s.lock with
      | none => some ({ s with lock := some ⟨t, []⟩, stamps := s.stamps + 1 }.goto t op
          (.stamp ⟨proc t, s.stamps⟩))
      | some _ => some (s.goto t op .stat)
  | .stamp st =>
    let stamped (d : LockDir) : LockDir := { d with stamps := d.stamps ++ [st] }
    some ({ s with lock := s.lock.map stamped }.goto t op (enter st op))
  | .stat => some (s.goto t op (if yes && s.lock.isSome then .breaker else .list))
  | .list => some (s.goto t op (if s.ownerDead yes then .breaker else .wait))
  | .breaker => match s.breaker with
      | none => some ({ s with breaker := some t }.goto t op .restat)
      | some _ => some (s.goto t op .statBreaker)
  | .restat => some (s.goto t op (if yes && s.lock.isSome then .clear else .relist))
  | .relist => some (s.goto t op (if s.ownerDead yes then .clear else .rmdirBreaker))
  | .clear => some (s.goto t op (.unlinkAll ((s.lock.map LockDir.stamps).getD [])))
  | .unlinkAll [] => some (s.goto t op .rmdirLock)
  | .unlinkAll (st :: rest) =>
    some ({ s with lock := s.lock.map (unlinked · st) }.goto t op (.unlinkAll rest))
  | .rmdirLock =>
    some ((if s.rmdirOk then { s with lock := none } else s).goto t op .rmdirBreaker)
  | .rmdirBreaker => some ({ s with breaker := none }.goto t op .wait)
  | .statBreaker => some (s.goto t op (if yes && s.breaker.isSome then .clearBreaker else .wait))
  | .clearBreaker => some ({ s with breaker := none }.goto t op .wait)
  | .wait => some (if yes then s.finish t none else s.goto t op .mkdir)
  | .readKey st => match op with
      | .putIfMatch _ expected =>
        if s.file.map ver = expected then some (s.goto t op (.tmp st))
        else some ((s.decide_ t .conflict).goto t op (.unstamp st .conflict))
      | _ => none
  | .tmp st => match op with
      | .putIfMatch _ _ => some (s.goto t op (.stillMine st))
      | _ => some (s.goto t op (.rename st))
  | .stillMine st =>
    if s.lock.any fun d => st ∈ d.stamps then some (s.goto t op (.rename st))
    else some ((s.decide_ t .conflict).goto t op (.unstamp st .conflict))
  | .rename st => match op with
      | .putIfMatch c _ | .put c =>
        let r := .written (ver c)
        some (({ s with file := some c }.decide_ t r).goto t op (.unstamp st r))
      | _ => none
  | .unlinkKey st => match op with
      | .delete =>
        some (({ s with file := none }.decide_ t .deleted).goto t op (.unstamp st .deleted))
      | _ => none
  | .unstamp st r =>
    some ({ s with lock := s.lock.map (unlinked · st) }.goto t op (.rmdir st r))
  | .rmdir st r =>
    some (if s.rmdirOk then { s with lock := none }.goto t op (.leave r)
      else s.goto t op (.settle st r))
  | .settle st r =>
    let another := s.lock.any fun d => d.stamps.any (· ≠ st)
    some (s.goto t op (if yes || another || s.lock.isNone then .leave r else .unstamp st r))
  | .leave r => some (s.finish t (some r))

def next (s : LocalFs C V) : FsLabel C V → Option (LocalFs C V)
  | .call t op => match s.pcs t with
      | .idle => if s.dead (proc t) then none else
          some ({ s with book := s.book.begun t op }.goto t op (start op))
      | _ => none
  | .step t yes => match s.pcs t with
      | .run op st => if s.dead (proc t) then none else s.act proc ver t yes op st
      | .idle => none
  | .crash pid => some { s with dead := Function.update s.dead pid true }

end LocalFs

/-- What an operation of a compare-and-swap store makes of an object and
answers. -/
def FsOp.spec {C V : Type} [DecidableEq V] (ver : C → V) (file : Option C) :
    FsOp C V → Option C × FsResult C V
  | .get => (file, .value (file.map fun c => (c, ver c)))
  | .putIfAbsent c => if file.isNone then (some c, .written (ver c)) else (file, .alreadyExists)
  | .putIfMatch c expected =>
    if file.map ver = expected then (some c, .written (ver c)) else (file, .conflict)
  | .put c => (some c, .written (ver c))
  | .delete => (none, .deleted)

end Zou
