import Zou.Realtime.Payload

/-!
# Broadcasts

A broadcast comes up a socket as bytes, with five one byte lengths in front
of its names, or as json text, and goes down as bytes with three one byte
lengths. `decode` reads the first, `fromFrame` makes the same shape of the
second, and `encode` writes what the other clients are sent.

A session takes a push of a channel it has joined, holds it to the budget
for a payload, writes the sender its own copy where it asked for one, and
fans it out, now or once a policy has been asked. Texts go down as frames
here; their print is left to the parameter.
-/

namespace Zou.Broadcast

open Realtime

/-! ## Frames -/

structure Frame where
  joinRef : Option String
  reference : Option String
  topic : String
  event : String
  payload : Value

/-- The json library: its readers, and its print with sorted keys. -/
structure Json where
  fromSlice : List UInt8 → Option Value
  fromStr : String → Option Value
  text : Value → String

namespace Frame

def reply (to' : Frame) (status : String) (response : Value) : Frame where
  joinRef := to'.joinRef
  reference := to'.reference
  topic := to'.topic
  event := "phx_reply"
  payload := .object [("status", .string status), ("response", response)]

def ok (to' : Frame) : Frame := to'.reply "ok" (.object [])

def error (to' : Frame) (reason : String) : Frame :=
  to'.reply "error" (.object [("reason", .string reason)])

/-- The application's event name. -/
def eventName (f : Frame) : Option String := (f.payload.get "event").bind Value.asStr

/-- The fields of a push that are its own. -/
def extra (f : Frame) : Map :=
  match f.payload with
  | .object m => m.filter fun e => e.1 ≠ "type" && e.1 ≠ "event" && e.1 ≠ "payload"
  | _ => []

/-- The extra fields as text, nothing when there are none. -/
def metaText (j : Json) (f : Frame) : String :=
  match f.extra with
  | [] => ""
  | m => j.text (.object m)

end Frame

/-! ## The binary encoding -/

inductive Encoding where
  | binary
  | json
  deriving DecidableEq

def Encoding.byte : Encoding → UInt8
  | .binary => 0
  | .json => 1

def Encoding.ofByte (b : UInt8) : Option Encoding :=
  if b = 0 then some .binary else if b = 1 then some .json else none

def userBroadcastPush : UInt8 := 3

def userBroadcast : UInt8 := 4

structure BinaryBroadcast where
  joinRef : String
  reference : String
  topic : String
  event : String
  «meta» : String
  encoding : Encoding
  payload : List UInt8
  deriving DecidableEq

/-- The next name, of so many bytes, and what is behind it. -/
def takeName (n : Nat) (bytes : List UInt8) : Option (String × List UInt8) :=
  if n ≤ bytes.length then (fromUtf8 (bytes.take n)).map fun s => (s, bytes.drop n) else none

namespace BinaryBroadcast

def decode (bytes : List UInt8) : Option BinaryBroadcast :=
  match bytes with
  | kind :: joinRefLen :: refLen :: topicLen :: eventLen :: metaLen :: enc :: names =>
    if kind ≠ userBroadcastPush then none
    else
      (Encoding.ofByte enc).bind fun encoding =>
      (takeName joinRefLen.toNat names).bind fun (joinRef, names) =>
      (takeName refLen.toNat names).bind fun (reference, names) =>
      (takeName topicLen.toNat names).bind fun (topic, names) =>
      (takeName eventLen.toNat names).bind fun (event, names) =>
      (takeName metaLen.toNat names).map fun (metaText, payload) =>
        ⟨joinRef, reference, topic, event, metaText, encoding, payload⟩
  | _ => none

/-- `len as u8`. -/
def lenByte (s : String) : UInt8 := UInt8.ofNat (asBytes s).length

def encode (p : BinaryBroadcast) : List UInt8 :=
  [userBroadcast, lenByte p.topic, lenByte p.event, lenByte p.meta, p.encoding.byte]
    ++ asBytes p.topic ++ asBytes p.event ++ asBytes p.meta ++ p.payload

/-- The same broadcast as a text frame. -/
def asFrame (j : Json) (p : BinaryBroadcast) : Option Frame :=
  match p.encoding with
  | .binary => none
  | .json => (j.fromSlice p.payload).map fun payload =>
    let body : Map :=
      [("type", .string "broadcast"), ("event", .string p.event), ("payload", payload)]
    let body := match (if p.meta = "" then none else j.fromStr p.meta) with
      | some m => body.insert "meta" m
      | none => body
    ⟨none, none, p.topic, "broadcast", .object body⟩

/-- A push that arrived as json. -/
def fromFrame (j : Json) (f : Frame) : Option BinaryBroadcast :=
  f.eventName.map fun event =>
    ⟨f.joinRef.getD "", f.reference.getD "", f.topic, event, f.metaText j, .json,
      asBytes (j.text ((f.payload.get "payload").getD (.object [])))⟩

end BinaryBroadcast

/-! ## Sessions -/

inductive Vsn where
  | v1
  | v2
  deriving DecidableEq

structure Config where
  broadcastSelf : Bool
  broadcastAck : Bool
  «private» : Bool

structure Grant where
  broadcast : Bool
  presence : Bool

/-- A push on its way to the other members of a room. -/
structure Fanout where
  topic : String
  push : BinaryBroadcast

inductive Action where
  | text (f : Frame)
  | binary (bytes : List UInt8)
  | fan (f : Fanout)
  /-- Whether the socket may broadcast on the topic. -/
  | ask (topic : String)

/-- What a push of a socket meets: the version it speaks, the channels it
has joined, what the write policies of the private ones have said, and the
kilobytes of a payload. -/
structure Session where
  vsn : Vsn
  channels : String → Option Config
  rights : String → Option (Option Grant)
  payloadSizeKb : Nat

def nameOf (topic : String) : String :=
  match "realtime:".toList.isPrefixOf topic.toList with
  | true => String.ofList (topic.toList.drop 9)
  | false => topic

def room (topic : String) («private» : Bool) : String :=
  if «private» then "private:" ++ topic else topic

def topicOf (room : String) : String :=
  match "private:".toList.isPrefixOf room.toList with
  | true => String.ofList (room.toList.drop 8)
  | false => room

namespace Session

variable (j : Json) (s : Session)

def payloadBytes : Option Nat :=
  if s.payloadSizeKb = 0 then none else some (s.payloadSizeKb * 1000 + 500)

def tooBig (p : BinaryBroadcast) : Bool :=
  match s.payloadBytes with
  | none => false
  | some allowed => allowed < p.payload.length + (asBytes p.event).length

def oversized (asked : Frame) (ack : Bool) : List Action :=
  if ack then [.text (asked.reply "error" (.string "payload_size_exceeded"))] else []

/-- The topic the socket is on that a room is for. -/
def onRoom (r : String) : Option String :=
  let topic := topicOf r
  match s.channels topic with
  | none => none
  | some config => if room topic config.private = r then some topic else none

def broadcastDown (fan : Fanout) : Option Action :=
  match s.onRoom fan.topic with
  | none => none
  | some _ =>
    match s.vsn with
    | .v2 => some (.binary fan.push.encode)
    | .v1 => (fan.push.asFrame j).map .text

/-- What is done now, and what is held until a policy has been asked. -/
def gated (topic : String) (asked : Frame) (actions : List Action) : List Action × List Action :=
  match s.rights topic with
  | none => (actions, [])
  | some writes =>
    match writes.map (·.broadcast) with
    | some true => (actions, [])
    | some false =>
      ([.text (asked.error
        ("You do not have permissions to write to this Channel topic: " ++ nameOf topic))], [])
    | none => ([.ask topic], actions)

/-- The sender's own copy, everyone else's, and the answer. -/
def sends (config : Config) (asked : Frame) (push : BinaryBroadcast) : List Action :=
  let fan : Fanout := ⟨room asked.topic config.private, push⟩
  (if config.broadcastSelf then (s.broadcastDown j fan).toList else [])
    ++ [.fan fan] ++ if config.broadcastAck then [.text asked.ok] else []

/-- A push of a channel that is joined. -/
def pushed (config : Config) (asked : Frame) (push : BinaryBroadcast) : List Action × List Action :=
  if s.tooBig push then (oversized asked config.broadcastAck, [])
  else s.gated asked.topic asked (s.sends j config asked push)

def binary (bytes : List UInt8) : List Action × List Action :=
  match BinaryBroadcast.decode bytes with
  | none => ([], [])
  | some push =>
    let asked : Frame :=
      ⟨some push.joinRef, some push.reference, push.topic, "broadcast", .object []⟩
    match s.channels push.topic with
    | none => ([.text (asked.error "this socket has not joined that topic")], [])
    | some config => s.pushed j config asked push

/-- A frame whose event is `broadcast`. -/
def broadcast (f : Frame) : List Action × List Action :=
  match s.channels f.topic with
  | none => ([.text (f.error "this socket has not joined that topic")], [])
  | some config =>
    match BinaryBroadcast.fromFrame j f with
    | none => ([.text (f.error "a broadcast carries an event name and a payload")], [])
    | some push => s.pushed j config f push

end Session

end Zou.Broadcast
