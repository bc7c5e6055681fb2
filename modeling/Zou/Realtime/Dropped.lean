import Mathlib.Algebra.Order.Ring.Nat
import Zou.Lib.Trace

/-!
# What a dropped link held

The table of links that dropped, the holding loops that end into it, and the
timers that give back what nobody came for. A timer is not tied to what it
was started for: it takes whatever its link has when it fires. Every ending
of a loop has a number of its own, and what became of it is written down,
with the time a timer released it and the time it was put.
-/

namespace Zou.Dropped

open Trace

/-- How long what a link left is kept, in seconds. -/
def GRACE : Nat := 30

/-- What a link that dropped left behind. -/
structure Kept where
  ashore : Nat
  /-- Which ending of a loop put it. -/
  ending : Nat
  put : Nat
  deriving DecidableEq

/-- A task sleeping for the grace before it asks for a link again. -/
structure Timer where
  link : Nat
  ending : Nat
  started : Nat
  deriving DecidableEq

inductive How where
  /-- Taken by a hello that carries on. -/
  | resumed
  /-- Taken by a hello that went again mid replay, and kept once more. -/
  | again (ending : Nat)
  /-- Given back because the link dropped again under the same name. -/
  | displaced
  /-- Given back by a hello that cannot carry on. -/
  | refused
  /-- Given back at once, by a link with no name. -/
  | nameless
  /-- Given back by a timer. -/
  | expired (put fired : Nat)
  deriving DecidableEq

/-- What became of an ending. -/
structure Fate where
  ending : Nat
  ashore : Nat
  how : How
  deriving DecidableEq

def Fate.released (f : Fate) : Bool :=
  match f.how with
  | .resumed | .again _ => false
  | .displaced | .refused | .nameless | .expired .. => true

structure State where
  now : Nat
  held : Nat → Option Kept
  timers : List Timer
  /-- The holding loops, by what they hold and the name of their link. -/
  loops : List (Nat × Nat)
  /-- How many were made, and how many loops ended. -/
  ashores : Nat
  endings : Nat
  fates : List Fate

def start : State :=
  { now := 0, held := fun _ => none, timers := [], loops := [], ashores := 0, endings := 0
    fates := [] }

/-- A sleep ends at its time or after it, so a timer that may fire may wait. -/
inductive Act where
  | tick (seconds : Nat)
  /-- A hello: whether what is kept reaches back far enough for it, and
  whether everything owed went down the connection. -/
  | hello (link : Nat) (replayable carried : Bool)
  | drop (i : Nat)
  | fire (i : Nat)
  deriving DecidableEq

/-- The fate of what a link holds, if it holds anything. -/
def fated (held : Option Kept) (how : Kept → How) : List Fate :=
  match held with
  | some kept => [⟨kept.ending, kept.ashore, how kept⟩]
  | none => []

/-- Hold what a link left behind, and start its timer. -/
def keep (s : State) (link ashore : Nat) : State :=
  { s with
    held := Function.update s.held link (some ⟨ashore, s.endings, s.now⟩)
    timers := s.timers ++ [⟨link, s.endings, s.now⟩]
    endings := s.endings + 1
    fates := s.fates ++ fated (s.held link) fun _ => .displaced }

def take (s : State) (link : Nat) (how : Kept → How) : State :=
  { s with
    held := Function.update s.held link none
    fates := s.fates ++ fated (s.held link) how }

/-- A new loop with nothing in it, if its hello went down. -/
def fresh (s : State) (link : Nat) (carried : Bool) : State :=
  if carried then { s with loops := s.loops ++ [(s.ashores, link)], ashores := s.ashores + 1 }
  else s

def greeted (s : State) (link : Nat) (replayable carried : Bool) : State :=
  if link = 0 then fresh s link carried
  else
    match s.held link with
    | none => fresh s link carried
    | some kept =>
      if replayable then
        if carried then
          let s := take s link fun _ => .resumed
          { s with loops := s.loops ++ [(kept.ashore, link)] }
        else keep (take s link fun _ => .again s.endings) link kept.ashore
      else fresh (take s link fun _ => .refused) link carried

/-- A loop ends. -/
def ended (s : State) (ashore link : Nat) : State :=
  if link = 0 then
    { s with endings := s.endings + 1, fates := s.fates ++ [⟨s.endings, ashore, .nameless⟩] }
  else keep s link ashore

def next (s : State) : Act → Option State
  | .tick seconds => some { s with now := s.now + seconds }
  | .hello link replayable carried => some (greeted s link replayable carried)
  | .drop i =>
    match s.loops[i]? with
    | none => none
    | some l => some (ended { s with loops := s.loops.eraseIdx i } l.1 l.2)
  | .fire i =>
    match s.timers[i]? with
    | none => none
    | some t =>
      if t.started + GRACE ≤ s.now then
        let s := { s with timers := s.timers.eraseIdx i }
        some (take s t.link fun kept => .expired kept.put s.now)
      else none

/-! ## What is promised -/

/-- Where an ending with an Ashore is: held, or with its fate written down. -/
def Traced (s : State) (ending ashore : Nat) : Prop :=
  (∃ f ∈ s.fates, f.ending = ending ∧ f.ashore = ashore) ∨
    ∃ link kept, s.held link = some kept ∧ kept.ending = ending ∧ kept.ashore = ashore

/-- Every ending has one fate or is held, one that was kept once more is
traced under its later number, and nothing becomes of an Ashore that was
given back. -/
structure Accounted (s : State) : Prop where
  once : (s.fates.map Fate.ending).Nodup
  waiting : ∀ link kept, s.held link = some kept → kept.ending ∉ s.fates.map Fate.ending
  all : ∀ ending < s.endings, ∃ ashore, Traced s ending ashore
  again : ∀ f ∈ s.fates, ∀ ending, f.how = .again ending →
    f.ending < ending ∧ Traced s ending f.ashore
  settled : s.timers = [] → ∀ link, s.held link = none
  released : s.fates.Pairwise fun f g => f.released = true → g.ashore ≠ f.ashore

/-- What a timer released was put a grace before it fired. -/
def OnTime (s : State) : Prop :=
  ∀ f ∈ s.fates, ∀ put fired, f.how = .expired put fired → put + GRACE ≤ fired

/-- A timer that fires finds what it was started for, or nothing. -/
def Own (s : State) : Act → Prop
  | .fire i => ∀ t, s.timers[i]? = some t → ∀ kept, s.held t.link = some kept →
      kept.ending = t.ending
  | _ => True

end Zou.Dropped
