import Zou.Realtime.Broadcast
import Zou.Realtime.PayloadSpec

/-!
# What a broadcast says on the wire

A push is read where its bytes are laid out as its header says, and every
byte of it is accounted for. What goes down is read back by its own layout
where its topic, its event and its extra fields fit a byte of length each.
They do for a push that came up as bytes. A push that came up as text has no
such bound.
-/

namespace Zou.Broadcast

open Realtime

/-! ## Names -/

theorem takeName_iff {n : Nat} {bytes rest : List UInt8} {s : String} :
    takeName n bytes = some (s, rest) ↔ bytes = asBytes s ++ rest ∧ (asBytes s).length = n := by
  unfold takeName
  constructor
  · intro h
    split at h
    · rename_i hle
      obtain ⟨s', hs', heq⟩ := Option.map_eq_some_iff.mp h
      cases heq
      rw [fromUtf8_iff] at hs'
      rw [← hs', List.take_append_drop, List.length_take, Nat.min_eq_left hle]
      exact ⟨rfl, rfl⟩
    · cases h
  · rintro ⟨rfl, rfl⟩
    rw [if_pos (by rw [List.length_append]; omega), List.take_left, List.drop_left,
      fromUtf8_iff.mpr rfl]
    rfl

theorem encoding_iff {b : UInt8} {e : Encoding} : Encoding.ofByte b = some e ↔ b = e.byte := by
  unfold Encoding.ofByte
  constructor
  · intro h
    split at h
    · cases h
      assumption
    · split at h
      · cases h
        assumption
      · cases h
  · rintro rfl
    cases e <;> rfl

/-! ## What is read -/

/-- A name fits a byte of length. -/
def Short (s : String) : Prop := (asBytes s).length < 256

theorem lenByte_short {s : String} (h : Short s) :
    (BinaryBroadcast.lenByte s).toNat = (asBytes s).length := by
  unfold BinaryBroadcast.lenByte
  rw [UInt8.toNat_ofNat', Nat.mod_eq_of_lt h]

theorem eq_lenByte {b : UInt8} {s : String} (h : (asBytes s).length = b.toNat) :
    b = BinaryBroadcast.lenByte s ∧ Short s := by
  refine ⟨?_, ?_⟩
  · unfold BinaryBroadcast.lenByte
    rw [h, UInt8.ofNat_toNat]
  · unfold Short
    rw [h]
    exact b.toNat_lt

namespace BinaryBroadcast

/-- Each name of a push fits the length in front of it. -/
structure Fits (p : BinaryBroadcast) : Prop where
  joinRef : Short p.joinRef
  reference : Short p.reference
  topic : Short p.topic
  event : Short p.event
  «meta» : Short p.meta

/-- A push as a client lays it out. -/
def layout (p : BinaryBroadcast) : List UInt8 :=
  userBroadcastPush :: lenByte p.joinRef :: lenByte p.reference :: lenByte p.topic
    :: lenByte p.event :: lenByte p.meta :: p.encoding.byte
    :: (asBytes p.joinRef ++ (asBytes p.reference ++ (asBytes p.topic
      ++ (asBytes p.event ++ (asBytes p.meta ++ p.payload)))))

theorem decode_iff {bytes : List UInt8} {p : BinaryBroadcast} :
    decode bytes = some p ↔ p.Fits ∧ bytes = p.layout := by
  constructor
  · intro h
    unfold decode at h
    split at h
    · split at h
      · cases h
      · rename_i hkind
        obtain ⟨encoding, hencoding, h⟩ := Option.bind_eq_some_iff.mp h
        obtain ⟨⟨joinRef, _⟩, hjoinRef, h⟩ := Option.bind_eq_some_iff.mp h
        obtain ⟨⟨reference, _⟩, href, h⟩ := Option.bind_eq_some_iff.mp h
        obtain ⟨⟨topic, _⟩, htopic, h⟩ := Option.bind_eq_some_iff.mp h
        obtain ⟨⟨event, _⟩, hevent, h⟩ := Option.bind_eq_some_iff.mp h
        obtain ⟨⟨metaText, payload⟩, hmeta, h⟩ := Option.map_eq_some_iff.mp h
        dsimp only at hjoinRef href htopic hevent hmeta h
        obtain rfl := h
        obtain ⟨rfl, hlen₁⟩ := takeName_iff.mp hjoinRef
        obtain ⟨rfl, hlen₂⟩ := takeName_iff.mp href
        obtain ⟨rfl, hlen₃⟩ := takeName_iff.mp htopic
        obtain ⟨rfl, hlen₄⟩ := takeName_iff.mp hevent
        obtain ⟨rfl, hlen₅⟩ := takeName_iff.mp hmeta
        obtain ⟨rfl, hshort₁⟩ := eq_lenByte hlen₁
        obtain ⟨rfl, hshort₂⟩ := eq_lenByte hlen₂
        obtain ⟨rfl, hshort₃⟩ := eq_lenByte hlen₃
        obtain ⟨rfl, hshort₄⟩ := eq_lenByte hlen₄
        obtain ⟨rfl, hshort₅⟩ := eq_lenByte hlen₅
        obtain rfl := encoding_iff.mp hencoding
        obtain rfl := Decidable.not_not.mp hkind
        exact ⟨⟨hshort₁, hshort₂, hshort₃, hshort₄, hshort₅⟩, rfl⟩
    · cases h
  · rintro ⟨hfits, rfl⟩
    have hread : ∀ {s : String}, Short s → ∀ rest,
        takeName (lenByte s).toNat (asBytes s ++ rest) = some (s, rest) :=
      fun hs rest => takeName_iff.mpr ⟨rfl, (lenByte_short hs).symm⟩
    unfold decode layout
    dsimp only
    rw [if_neg (not_not_intro rfl), encoding_iff.mpr rfl, Option.bind_some,
      hread hfits.joinRef, Option.bind_some, hread hfits.reference, Option.bind_some,
      hread hfits.topic, Option.bind_some, hread hfits.event, Option.bind_some,
      hread hfits.meta]
    rfl

end BinaryBroadcast

/-! ## What goes down -/

/-- What a client reads of a broadcast. -/
structure Heard where
  topic : String
  event : String
  «meta» : String
  encoding : Encoding
  payload : List UInt8
  deriving DecidableEq

/-- Reading by the layout of what goes down: the kind, three lengths, the
encoding, three names and the payload. -/
def hear (bytes : List UInt8) : Option Heard :=
  match bytes with
  | kind :: topicLen :: eventLen :: metaLen :: enc :: names =>
    if kind ≠ userBroadcast then none
    else
      (Encoding.ofByte enc).bind fun encoding =>
      (takeName topicLen.toNat names).bind fun (topic, names) =>
      (takeName eventLen.toNat names).bind fun (event, names) =>
      (takeName metaLen.toNat names).map fun (metaText, payload) =>
        ⟨topic, event, metaText, encoding, payload⟩
  | _ => none

/-- The push as the one who hears it should. -/
def BinaryBroadcast.heard (p : BinaryBroadcast) : Heard :=
  ⟨p.topic, p.event, p.meta, p.encoding, p.payload⟩

/-- A push is read back exactly where its three names fit. -/
theorem hear_encode_iff (p : BinaryBroadcast) :
    hear p.encode = some p.heard ↔ Short p.topic ∧ Short p.event ∧ Short p.meta := by
  have hencode : p.encode = userBroadcast :: BinaryBroadcast.lenByte p.topic
      :: BinaryBroadcast.lenByte p.event :: BinaryBroadcast.lenByte p.meta :: p.encoding.byte
      :: (asBytes p.topic ++ (asBytes p.event ++ (asBytes p.meta ++ p.payload))) := by
    simp [BinaryBroadcast.encode]
  unfold hear
  rw [hencode]
  dsimp only
  rw [if_neg (not_not_intro rfl), encoding_iff.mpr rfl, Option.bind_some]
  constructor
  · intro h
    obtain ⟨⟨topic, _⟩, htopic, h⟩ := Option.bind_eq_some_iff.mp h
    obtain ⟨⟨event, _⟩, hevent, h⟩ := Option.bind_eq_some_iff.mp h
    obtain ⟨⟨metaText, payload⟩, hmeta, h⟩ := Option.map_eq_some_iff.mp h
    obtain ⟨htopicEq, heventEq, hmetaEq, -, -⟩ := Heard.mk.inj h
    refine ⟨?_, ?_, ?_⟩
    · rw [← htopicEq]
      exact (eq_lenByte (takeName_iff.mp htopic).2).2
    · rw [← heventEq]
      exact (eq_lenByte (takeName_iff.mp hevent).2).2
    · rw [← hmetaEq]
      exact (eq_lenByte (takeName_iff.mp hmeta).2).2
  · rintro ⟨htopic, hevent, hmeta⟩
    have hread : ∀ {s : String}, Short s → ∀ rest,
        takeName (BinaryBroadcast.lenByte s).toNat (asBytes s ++ rest) = some (s, rest) :=
      fun hs rest => takeName_iff.mpr ⟨rfl, (lenByte_short hs).symm⟩
    rw [hread htopic, Option.bind_some, hread hevent, Option.bind_some, hread hmeta]
    rfl

/-! ## What a session lets through -/

namespace Session

variable {j : Json} {s : Session}

/-- A push that is let through is fanned as it is, and nothing else is written
down the socket as bytes. -/
structure Carries (p : BinaryBroadcast) (actions : List Action) : Prop where
  fan : ∀ fan, Action.fan fan ∈ actions → fan.push = p
  binary : ∀ bytes, Action.binary bytes ∈ actions → bytes = p.encode

theorem broadcastDown_carries {fan : Fanout} {a : Action} (h : s.broadcastDown j fan = some a) :
    (∃ f, a = .text f) ∨ a = .binary fan.push.encode := by
  unfold broadcastDown at h
  split at h
  · cases h
  · split at h
    · cases h
      exact .inr rfl
    · obtain ⟨f, -, rfl⟩ := Option.map_eq_some_iff.mp h
      exact .inl ⟨f, rfl⟩

theorem Carries.texts {p : BinaryBroadcast} {actions : List Action}
    (h : ∀ a ∈ actions, ∃ f, a = .text f) : Carries p actions := by
  refine ⟨fun fan hfan => ?_, fun bytes hbytes => ?_⟩
  · obtain ⟨f, hf⟩ := h _ hfan
    cases hf
  · obtain ⟨f, hf⟩ := h _ hbytes
    cases hf

theorem sends_carries (config : Config) (asked : Frame) (p : BinaryBroadcast) :
    Carries p (s.sends j config asked p) := by
  have hcases : ∀ a ∈ s.sends j config asked p, (∃ f, a = .text f) ∨ a = .binary p.encode
      ∨ ∃ topic, a = .fan ⟨topic, p⟩ := by
    intro a ha
    rcases List.mem_append.mp ha with ha | ha
    · rcases List.mem_append.mp ha with ha | ha
      · split at ha
        · rcases broadcastDown_carries (Option.mem_toList.mp ha) with htext | hbinary
          · exact .inl htext
          · exact .inr (.inl hbinary)
        · cases ha
      · exact .inr (.inr ⟨_, List.mem_singleton.mp ha⟩)
    · split at ha
      · exact .inl ⟨_, List.mem_singleton.mp ha⟩
      · cases ha
  constructor
  · intro fan hfan
    rcases hcases _ hfan with ⟨f, hf⟩ | hf | ⟨topic, hf⟩ <;> cases hf
    rfl
  · intro bytes hbytes
    rcases hcases _ hbytes with ⟨f, hf⟩ | hf | ⟨topic, hf⟩ <;> cases hf
    rfl

theorem gated_carries {p : BinaryBroadcast} {actions : List Action} (topic : String)
    (asked : Frame) (h : Carries p actions) :
    Carries p ((s.gated topic asked actions).1 ++ (s.gated topic asked actions).2) := by
  unfold gated
  split
  · rw [List.append_nil]
    exact h
  · split
    · rw [List.append_nil]
      exact h
    · exact .texts fun a ha => ⟨_, List.mem_singleton.mp ha⟩
    · refine ⟨fun fan hfan => ?_, fun bytes hbytes => ?_⟩
      · exact h.fan fan ((List.mem_cons.mp hfan).resolve_left (by simp))
      · exact h.binary bytes ((List.mem_cons.mp hbytes).resolve_left (by simp))

theorem pushed_carries (config : Config) (asked : Frame) (p : BinaryBroadcast) :
    Carries p ((s.pushed j config asked p).1 ++ (s.pushed j config asked p).2) := by
  unfold pushed
  split
  · refine .texts fun a ha => ?_
    unfold oversized at ha
    split at ha
    · exact ⟨_, List.mem_singleton.mp (List.append_nil _ ▸ ha)⟩
    · cases ha
  · exact gated_carries _ _ (sends_carries config asked p)

/-- What a session makes of bytes it is sent is the push they decode to. -/
theorem binary_carries (bytes : List UInt8) :
    ((∀ a ∈ (s.binary j bytes).1 ++ (s.binary j bytes).2, ∃ f, a = .text f))
      ∨ ∃ p, BinaryBroadcast.decode bytes = some p
        ∧ Carries p ((s.binary j bytes).1 ++ (s.binary j bytes).2) := by
  unfold binary
  split
  · exact .inl nofun
  · rename_i p hp
    split
    · exact .inl fun a ha => ⟨_, List.mem_singleton.mp ha⟩
    · exact .inr ⟨p, hp, pushed_carries _ _ p⟩

theorem broadcast_carries (f : Frame) :
    ((∀ a ∈ (s.broadcast j f).1 ++ (s.broadcast j f).2, ∃ f', a = .text f'))
      ∨ ∃ p, BinaryBroadcast.fromFrame j f = some p
        ∧ Carries p ((s.broadcast j f).1 ++ (s.broadcast j f).2) := by
  unfold broadcast
  split
  · exact .inl fun a ha => ⟨_, List.mem_singleton.mp ha⟩
  · split
    · exact .inl fun a ha => ⟨_, List.mem_singleton.mp ha⟩
    · rename_i p hp
      exact .inr ⟨p, hp, pushed_carries _ _ p⟩

end Session

/-- The bytes a session writes down a socket are those of the push that came
up. -/
theorem Session.writes_encode {j : Json} {s : Session} {out : List UInt8} :
    (∀ bytes, Action.binary out ∈ (s.binary j bytes).1 ++ (s.binary j bytes).2 →
        ∃ p, BinaryBroadcast.decode bytes = some p ∧ out = p.encode)
      ∧ ∀ f, Action.binary out ∈ (s.broadcast j f).1 ++ (s.broadcast j f).2 →
        ∃ p, BinaryBroadcast.fromFrame j f = some p ∧ out = p.encode := by
  constructor
  · intro bytes hout
    rcases Session.binary_carries bytes with htexts | ⟨p, hp, hcarries⟩
    · obtain ⟨f, hf⟩ := htexts _ hout
      cases hf
    · exact ⟨p, hp, hcarries.binary out hout⟩
  · intro f hout
    rcases Session.broadcast_carries f with htexts | ⟨p, hp, hcarries⟩
    · obtain ⟨f, hf⟩ := htexts _ hout
      cases hf
    · exact ⟨p, hp, hcarries.binary out hout⟩

/-- What came up as bytes goes down readable, and what came up as text does
exactly where its topic, event and extra fields are below 256 bytes each; a
push is taken exactly where its bytes are laid out as its header says. -/
theorem broadcasts_survive (j : Json) :
    (∀ bytes p, BinaryBroadcast.decode bytes = some p ↔ p.Fits ∧ bytes = p.layout)
      ∧ (∀ bytes p, BinaryBroadcast.decode bytes = some p → hear p.encode = some p.heard)
      ∧ (∀ f p, BinaryBroadcast.fromFrame j f = some p →
        (hear p.encode = some p.heard
          ↔ Short f.topic ∧ (∀ e, f.eventName = some e → Short e) ∧ Short (f.metaText j)))
      ∧ ∀ (s : Session) bytes out,
        Action.binary out ∈ (s.binary j bytes).1 ++ (s.binary j bytes).2 →
          ∃ p, BinaryBroadcast.decode bytes = some p ∧ hear out = some p.heard := by
  have hbytes : ∀ bytes p, BinaryBroadcast.decode bytes = some p →
      hear p.encode = some p.heard := by
    intro bytes p h
    obtain ⟨hfits, -⟩ := BinaryBroadcast.decode_iff.mp h
    exact (hear_encode_iff p).mpr ⟨hfits.topic, hfits.event, hfits.meta⟩
  refine ⟨fun bytes p => BinaryBroadcast.decode_iff, hbytes, fun f p h => ?_,
    fun s bytes out hout => ?_⟩
  · obtain ⟨event, hevent, rfl⟩ := Option.map_eq_some_iff.mp h
    rw [hear_encode_iff]
    refine and_congr_right fun _ => and_congr_left fun _ =>
      ⟨fun hshort e he => ?_, fun hshort => ?_⟩
    · rw [hevent] at he
      exact Option.some.inj he ▸ hshort
    · exact hshort event hevent
  · obtain ⟨p, hp, rfl⟩ := Session.writes_encode.1 bytes hout
    exact ⟨p, hp, hbytes bytes p hp⟩

/-- A print of an empty object is all that is asked. -/
def emptyJson : Json := ⟨fun _ => none, fun _ => none, fun _ => "\x7b\x7d"⟩

/-- A public channel of a name of 256 bytes. -/
def longTopic : String := "realtime:" ++ String.ofList (List.replicate 247 'a')

def openSession : Session := ⟨.v2, fun _ => some ⟨false, false, false⟩, fun _ => none, 3000⟩

def longPush : Frame :=
  ⟨none, some "1", longTopic, "broadcast", .object [("event", .string "e")]⟩

/-- The session fans the push out, and the length in front of its topic is
zero. -/
theorem long_topic_lost :
    ∃ p, Action.fan ⟨longTopic, p⟩ ∈ (openSession.broadcast emptyJson longPush).1
      ∧ hear p.encode ≠ some p.heard := by
  refine ⟨⟨"", "1", longTopic, "e", "", .json, asBytes "\x7b\x7d"⟩, ?_, fun h => ?_⟩
  · exact List.mem_singleton_self _
  · have hlong : (asBytes longTopic).length = 256 := by decide +kernel
    have hshort : (asBytes longTopic).length < 256 := ((hear_encode_iff _).mp h).1
    omega

end Zou.Broadcast
