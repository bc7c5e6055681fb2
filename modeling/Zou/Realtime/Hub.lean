import Mathlib.Data.String.Basic
import Zou.Lib.OrdMap
import Zou.Lib.Trace
import Zou.Realtime.Json

/-!
# Presence

The hub keeps, for each topic, the receivers of its channel and who is on
it. A track or an untrack changes the map under one lock and sends its diff
under another, so a call stands between the two. A client is a socket that
carries a topic, is sent the state of it, and then folds every diff it is
sent into its copy.
-/

namespace Zou.Hub

open Realtime

/-- How many messages a slow socket may fall behind. -/
def BACKLOG : Nat := 256

/-- One socket's presence on one topic. -/
structure Meta where
  key : String
  phxRef : String
  payload : Value

/-- The payload with the ref in it. -/
def Meta.asJson (m : Meta) : Value :=
  let fields := match m.payload with
    | .object fields => fields
    | _ => []
  .object (Map.insert fields "phx_ref" (.string m.phxRef))

/-- A presence object: the metas of each key. -/
abbrev Presence := OrdMap String (List Value)

inductive Sent where
  | broadcast
  /-- A change to a topic's presence, rendered by `entry`. -/
  | diff (joined left : Option Meta)

/-- One half of a diff. -/
def entry : Option Meta → List (String × List Value)
  | some m => [(m.key, [m.asJson])]
  | none => []

/-- A call whose map change is made and whose diff is not sent yet. -/
structure Sending where
  topic : String
  joined : Option Meta
  left : Option Meta

structure State where
  /-- Who holds a receiver of each topic's channel. -/
  topics : OrdMap String (List Nat)
  presence : OrdMap String (OrdMap Nat Meta)
  /-- Every meta made. The counter hands each ref out once. -/
  made : List Meta
  /-- The call each socket is in. -/
  calls : OrdMap Nat Sending
  /-- What the client's receiver holds, from when it carries the topic. -/
  queue : Option (List Sent)
  lagged : Bool
  copy : Option Presence

def start : State :=
  { topics := OrdMap.empty, presence := OrdMap.empty, made := [], calls := OrdMap.empty
    queue := none, lagged := false, copy := none }

/-! ## The hub -/

def carry (topics : OrdMap String (List Nat)) (who : Nat) (topic : String) :
    OrdMap String (List Nat) :=
  topics.insert topic (((topics.get? topic).getD []).insert who)

/-- A receiver goes. The channel stays until a send or a release finds it empty. -/
def drop (topics : OrdMap String (List Nat)) (who : Nat) (topic : String) :
    OrdMap String (List Nat) :=
  topics.adjust topic fun holders => holders.erase who

/-- What was put replaces what was there. -/
def putOn (presence : OrdMap String (OrdMap Nat Meta)) (topic : String) (who : Nat) (m : Meta) :
    OrdMap String (OrdMap Nat Meta) :=
  presence.insert topic (((presence.get? topic).getD OrdMap.empty).insert who m)

def takeOff (presence : OrdMap String (OrdMap Nat Meta)) (topic : String) (who : Nat) :
    OrdMap String (OrdMap Nat Meta) :=
  match presence.get? topic with
  | none => presence
  | some on =>
    let on := on.remove who
    if on.entries.isEmpty then presence.remove topic else presence.insert topic on

/-- What a socket tracks on a topic. -/
def tracked (presence : OrdMap String (OrdMap Nat Meta)) (topic : String) (who : Nat) :
    Option Meta :=
  (presence.get? topic).bind fun on => on.get? who

def push (out : Presence) (m : Meta) : Presence :=
  out.insert m.key (((out.get? m.key).getD []) ++ [m.asJson])

/-- Everyone on a topic. -/
def state (presence : OrdMap String (OrdMap Nat Meta)) (topic : String) : Presence :=
  match presence.get? topic with
  | none => OrdMap.empty
  | some on => (on.entries.map Prod.snd).foldl push OrdMap.empty

/-- A receiver that is the backlog behind loses the oldest it holds. -/
def receive (s : State) (sent : Sent) : State :=
  match s.queue with
  | none => s
  | some q =>
    if q.length < BACKLOG then { s with queue := some (q ++ [sent]) }
    else { s with queue := some (q.tail ++ [sent]), lagged := true }

/-- Hand something to everyone on its topic. -/
def send (room : String) (s : State) (topic : String) (sent : Sent) : State :=
  match s.topics.get? topic with
  | none => s
  | some [] => { s with topics := s.topics.remove topic }
  | some (_ :: _) => if topic = room then receive s sent else s

def released (s : State) (topic : String) : State :=
  match s.topics.get? topic with
  | some [] =>
    { s with topics := s.topics.remove topic, presence := s.presence.remove topic }
  | _ => s

/-! ## The client -/

def refOf (v : Value) : Option String := (v.get "phx_ref").bind Value.asStr

def arrive (copy : Presence) (e : String × List Value) : Presence :=
  let arriving := e.2.map refOf
  copy.insert e.1 ((((copy.get? e.1).getD []).filter fun v => refOf v ∉ arriving) ++ e.2)

def depart (copy : Presence) (e : String × List Value) : Presence :=
  let leaving := e.2.map refOf
  match copy.get? e.1 with
  | none => copy
  | some metas =>
    let metas := metas.filter fun v => refOf v ∉ leaving
    if metas.isEmpty then copy.remove e.1 else copy.insert e.1 metas

/-- Fold what was sent into a copy. -/
def apply (copy : Presence) : Sent → Presence
  | .broadcast => copy
  | .diff joined left => (entry left).foldl depart ((entry joined).foldl arrive copy)

/-! ## Steps -/

inductive Act where
  | carry (who : Nat) (topic : String)
  | drop (who : Nat) (topic : String)
  /-- The first half of a track, with a number of the counter. -/
  | track (who : Nat) (topic : String) (key : Option String) (payload : Value) (number : Nat)
  /-- The first half of an untrack. -/
  | untrack (who : Nat) (topic : String)
  /-- The second half of either. -/
  | send (who : Nat)
  | released (topic : String)
  | fan (topic : String)
  /-- The client carries the room, takes its state, and reads on. -/
  | watch
  | take
  | read

section

variable (me : Nat) (room : String)

def next (s : State) : Act → Option State
  | .carry who topic => some { s with topics := carry s.topics who topic }
  | .drop who topic =>
    if who = me ∧ topic = room ∧ s.queue.isSome then none
    else some { s with topics := drop s.topics who topic }
  | .track who topic key payload number =>
    if (s.calls.get? who).isSome ∨ ∃ m ∈ s.made, m.phxRef = toString number then none
    else
      let m : Meta := ⟨key.getD (toString who), toString number, payload⟩
      some { s with
        presence := putOn s.presence topic who m
        made := m :: s.made
        calls := s.calls.insert who ⟨topic, some m, tracked s.presence topic who⟩ }
  | .untrack who topic =>
    if (s.calls.get? who).isSome then none
    else
      match tracked s.presence topic who with
      | none => some s
      | some gone =>
        some { s with
          presence := takeOff s.presence topic who
          calls := s.calls.insert who ⟨topic, none, some gone⟩ }
  | .send who =>
    match s.calls.get? who with
    | none => none
    | some call =>
      let s := { s with calls := s.calls.remove who }
      some (send room s call.topic (.diff call.joined call.left))
  | .released topic => some (released s topic)
  | .fan topic => some (send room s topic .broadcast)
  | .watch =>
    if s.queue.isSome then none
    else some { s with topics := carry s.topics me room, queue := some [] }
  | .take =>
    if s.queue.isSome ∧ s.copy.isNone then some { s with copy := some (state s.presence room) }
    else none
  | .read =>
    match s.queue, s.copy with
    | some (sent :: q), some copy => some { s with queue := some q, copy := some (apply copy sent) }
    | _, _ => none

/-! ## What is promised -/

/-- Two presence objects with the same metas under the same keys, in any order. -/
def Same (a b : Presence) : Prop :=
  ∀ key, (a.get? key = none ↔ b.get? key = none) ∧
    ((a.get? key).getD []).Perm ((b.get? key).getD [])

/-- Whether a socket holds a receiver of a topic. -/
def Holds (s : State) (who : Nat) (topic : String) : Prop :=
  ∃ holders, s.topics.get? topic = some holders ∧ who ∈ holders

/-- A socket tracks the room while it carries it. -/
def Carrying (s : State) : Act → Prop
  | .track who topic .. => topic = room → Holds s who room
  | .drop who topic => topic = room → s.calls.get? who = none
  | _ => True

/-- Nobody carries the room but the client. -/
def Alone (_ : State) : Act → Prop
  | .carry _ topic => topic ≠ room
  | _ => True

end

end Zou.Hub
