import Zou.Realtime.HubSpec

/-!
# A copy that follows the diffs

A meta that left does not come back, and the diff that says so is sent
after the one it joined in. So what a copy lacks is on its way, and what it
has too much is too, whatever was queued when the state was taken. The
exception is a room that is let go while a track is under way: its presence
is forgotten and its diff still goes out. A socket that carries what it
tracks keeps the room from being let go, and so does a room that only the
client carries.
-/

namespace Zou.Hub

open Realtime Trace

/-! ## Diffs on their way -/

def Sent.Joins (sent : Sent) (m : Meta) : Prop := ∃ left, sent = .diff (some m) left

def Sent.Leaves (sent : Sent) (m : Meta) : Prop := ∃ joined, sent = .diff joined (some m)

theorem Copies.apply {copy : Presence} {S : Meta → Prop} (h : Copies copy S) (sent : Sent)
    (href : ∀ m m', S m' ∨ sent.Joins m' → sent.Joins m ∨ sent.Leaves m →
      m'.phxRef = m.phxRef → m' = m) :
    Copies (Hub.apply copy sent) fun m => (S m ∨ sent.Joins m) ∧ ¬ sent.Leaves m := by
  cases sent with
  | broadcast =>
    refine h.congr fun m => ⟨fun hS => ⟨.inl hS, ?_⟩, fun hS => hS.1.resolve_right ?_⟩
    · rintro ⟨_, hno⟩
      cases hno
    · rintro ⟨_, hno⟩
      cases hno
  | diff joined left =>
    have hjoins : ∀ m, (Sent.diff joined left).Joins m ↔ joined = some m := fun m =>
      ⟨fun ⟨_, heq⟩ => (Sent.diff.inj heq).1, fun heq => ⟨left, heq ▸ rfl⟩⟩
    have hleaves : ∀ m, (Sent.diff joined left).Leaves m ↔ left = some m := fun m =>
      ⟨fun ⟨_, heq⟩ => (Sent.diff.inj heq).2, fun heq => ⟨joined, heq ▸ rfl⟩⟩
    simp only [hjoins, hleaves] at href ⊢
    have harrived : Copies ((entry joined).foldl Hub.arrive copy)
        fun m => S m ∨ joined = some m := by
      cases joined with
      | none => exact h.congr fun m => ⟨.inl, fun hS => hS.resolve_right (by simp)⟩
      | some m =>
        refine (h.arrive fun m' hS => href m m' (.inl hS) (.inl rfl)).congr fun m' => ?_
        exact or_congr_right ⟨fun heq => congrArg some heq.symm, fun heq => (Option.some.inj heq).symm⟩
    cases left with
    | none => exact harrived.congr fun m => ⟨fun hS => ⟨hS, by simp⟩, And.left⟩
    | some m =>
      refine (harrived.depart fun m' hS => href m m' hS (.inr rfl)).congr fun m' => ?_
      exact and_congr_right fun _ => not_congr
        ⟨fun heq => congrArg some heq.symm, fun heq => (Option.some.inj heq).symm⟩

section

variable {me : Nat} {room : String} {s s' : State}

/-- What the client was sent and did not read. -/
def unread (s : State) : List Sent := s.queue.getD []

variable (room) in
/-- The diffs of the room that the client did not fold in: unread, or about to be sent. -/
def Pending (s : State) (sent : Sent) : Prop :=
  sent ∈ unread s ∨ ∃ who call, s.calls.get? who = some call ∧ call.topic = room ∧
    sent = .diff call.joined call.left

variable (me room) in
structure Inv (s : State) : Prop where
  /-- A ref is of one meta. -/
  refs : ∀ m ∈ s.made, ∀ m' ∈ s.made, m.phxRef = m'.phxRef → m = m'
  made : ∀ m, On s.presence room m → m ∈ s.made
  one : ∀ who who' m, tracked s.presence room who = some m →
    tracked s.presence room who' = some m → who = who'
  /-- A meta is on the topic until its socket's call is back. -/
  joined : ∀ who call m, s.calls.get? who = some call → call.topic = room → call.joined = some m →
    tracked s.presence room who = some m
  joins : ∀ sent m, Pending room s sent → sent.Joins m → m ∈ s.made ∧ ¬ sent.Leaves m
  leaves : ∀ sent m, Pending room s sent → sent.Leaves m → m ∈ s.made ∧ ¬ On s.presence room m
  /-- A leave is not before the join of the same meta. -/
  order : (unread s).Pairwise fun d d' => ∀ m, d.Leaves m → ¬ d'.Joins m
  watched : s.queue.isSome → Holds s me room
  /-- What joins in the queue and is gone leaves later. -/
  gone : ∀ sent ∈ unread s, ∀ m, sent.Joins m →
    On s.presence room m ∨ ∃ later, Pending room s later ∧ later.Leaves m
  copied : ∀ copy, s.copy = some copy → ∃ S, Copies copy S ∧ (∀ m, S m → m ∈ s.made) ∧
    (∀ m, On s.presence room m → S m ∨ ∃ sent, Pending room s sent ∧ sent.Joins m) ∧
    (∀ m, S m → On s.presence room m ∨ ∃ sent, Pending room s sent ∧ sent.Leaves m)
  taken : s.copy.isSome → s.queue.isSome

theorem inv_start : Inv me room start := by
  constructor <;> simp [start, unread, Pending, On, tracked]

/-- A step that changes neither the presence, the calls, the queue nor the copy. -/
theorem Inv.topics (h : Inv me room s) {topics : OrdMap String (List Nat)}
    (hwatched : s.queue.isSome → Holds { s with topics } me room) : Inv me room { s with topics } :=
  { h with watched := hwatched }

theorem Inv.calls (h : Inv me room s) {calls : OrdMap Nat Sending}
    (hsub : ∀ who call, calls.get? who = some call → s.calls.get? who = some call)
    (hkeep : s.queue = none ∨
      ∀ who call, s.calls.get? who = some call → call.topic = room → calls.get? who = some call) :
    Inv me room { s with calls } := by
  have hless : ∀ sent, Pending room { s with calls } sent → Pending room s sent := by
    rintro sent (hsent | ⟨who, call, hcall, heq⟩)
    · exact .inl hsent
    · exact .inr ⟨who, call, hsub who call hcall, heq⟩
  have hmore : s.queue.isSome → ∀ sent, Pending room s sent →
      Pending room { s with calls } sent := by
    rintro hwatched sent (hsent | ⟨who, call, hcall, htopic, heq⟩)
    · exact .inl hsent
    · rcases hkeep with hnone | hkeep
      · rw [hnone] at hwatched
        cases hwatched
      · exact .inr ⟨who, call, hkeep who call hcall htopic, htopic, heq⟩
  refine { h with joined := fun who call m hcall => h.joined who call m (hsub who call hcall)
                  joins := fun sent m hsent => h.joins sent m (hless sent hsent)
                  leaves := fun sent m hsent => h.leaves sent m (hless sent hsent)
                  gone := fun sent hsent m hjoins => ?_
                  copied := fun copy hcopy => ?_ }
  · have hwatched : s.queue.isSome := by
      cases hq : s.queue with
      | none =>
        unfold unread at hsent
        rw [hq] at hsent
        cases hsent
      | some q => rfl
    exact (h.gone sent hsent m hjoins).imp_right fun ⟨later, hlater, hleaves⟩ =>
      ⟨later, hmore hwatched later hlater, hleaves⟩
  · obtain ⟨S, hcopies, hmade, hon, hoff⟩ := h.copied copy hcopy
    have hwatched := h.taken (Option.isSome_iff_exists.mpr ⟨copy, hcopy⟩)
    refine ⟨S, hcopies, hmade, fun m hm => ?_, fun m hm => ?_⟩
    · exact (hon m hm).imp_right fun ⟨sent, hsent, hjoins⟩ =>
        ⟨sent, hmore hwatched sent hsent, hjoins⟩
    · exact (hoff m hm).imp_right fun ⟨sent, hsent, hleaves⟩ =>
        ⟨sent, hmore hwatched sent hsent, hleaves⟩

variable {q : List Sent} {sent : Sent} {calls : OrdMap Nat Sending}

theorem Inv.queued (h : Inv me room s) (hq : s.queue = some q)
    (hsub : ∀ who call, calls.get? who = some call → s.calls.get? who = some call)
    (hkeep : ∀ who call, s.calls.get? who = some call → call.topic = room → calls.get? who = some call ∨
      sent = .diff call.joined call.left)
    (hsent : ∀ m, sent.Joins m ∨ sent.Leaves m → Pending room s sent)
    (hjoins : ∀ m, sent.Joins m → On s.presence room m) :
    Inv me room { s with calls, queue := some (q ++ [sent]) } := by
  have hunread : unread s = q := by
    unfold unread
    rw [hq]
    rfl
  have hmem : ∀ d, d ∈ unread { s with calls, queue := some (q ++ [sent]) } ↔
      d ∈ unread s ∨ d = sent := by
    intro d
    rw [hunread]
    unfold unread
    rw [Option.getD_some, List.mem_append, List.mem_singleton]
  have hless : ∀ d, Pending room { s with calls, queue := some (q ++ [sent]) } d →
      ∀ m, d.Joins m ∨ d.Leaves m → Pending room s d := by
    rintro d (hd | ⟨who, call, hcall, heq⟩) m hm
    · rcases (hmem d).mp hd with hd | rfl
      · exact .inl hd
      · exact hsent m hm
    · exact .inr ⟨who, call, hsub who call hcall, heq⟩
  have hmore : ∀ d, Pending room s d →
      Pending room { s with calls, queue := some (q ++ [sent]) } d := by
    rintro d (hd | ⟨who, call, hcall, htopic, rfl⟩)
    · exact .inl ((hmem d).mpr (.inl hd))
    · rcases hkeep who call hcall htopic with hcall | heq
      · exact .inr ⟨who, call, hcall, htopic, rfl⟩
      · exact .inl ((hmem _).mpr (.inr heq.symm))
  refine { h with joined := fun who call m hcall => h.joined who call m (hsub who call hcall)
                  joins := fun d m hd hm => h.joins d m (hless d hd m (.inl hm)) hm
                  leaves := fun d m hd hm => h.leaves d m (hless d hd m (.inr hm)) hm
                  order := ?_
                  watched := fun _ => h.watched (by rw [hq]; rfl)
                  gone := fun d hd m hm => ?_
                  copied := fun copy hcopy => ?_
                  taken := fun _ => rfl }
  · show (q ++ [sent]).Pairwise _
    rw [List.pairwise_append]
    refine ⟨hunread ▸ h.order, List.pairwise_singleton _ _, fun d hd d' hd' m hleaves hjoin => ?_⟩
    rw [List.mem_singleton.mp hd'] at hjoin
    exact (h.leaves d m (.inl (hunread ▸ hd)) hleaves).2 (hjoins m hjoin)
  · rcases (hmem d).mp hd with hd | rfl
    · exact (h.gone d hd m hm).imp_right fun ⟨later, hlater, hleaves⟩ =>
        ⟨later, hmore later hlater, hleaves⟩
    · exact .inl (hjoins m hm)
  · obtain ⟨S, hcopies, hmade, hon, hoff⟩ := h.copied copy hcopy
    refine ⟨S, hcopies, hmade, fun m hm => ?_, fun m hm => ?_⟩
    · exact (hon m hm).imp_right fun ⟨d, hd, hm⟩ => ⟨d, hmore d hd, hm⟩
    · exact (hoff m hm).imp_right fun ⟨d, hd, hm⟩ => ⟨d, hmore d hd, hm⟩

variable {topic t : String} {who : Nat}

theorem holds_removed (hg : s.topics.get? topic = some []) (h : Holds s who t) :
    Holds { s with topics := s.topics.remove topic } who t := by
  obtain ⟨holders, hholders, hwho⟩ := h
  refine ⟨holders, ?_, hwho⟩
  rw [OrdMap.get?_remove, if_neg]
  · exact hholders
  · rintro rfl
    cases hg.symm.trans hholders
    cases hwho

/-- A send that the client does not hear changes the channels at most. -/
theorem send_topics (s : State) (sent : Sent)
    (h : topic ≠ room ∨ s.queue = none) : ∃ topics, send room s topic sent = { s with topics } ∧
      ∀ who t, Holds s who t → Holds { s with topics } who t := by
  unfold send
  cases hg : s.topics.get? topic with
  | none => exact ⟨s.topics, rfl, fun _ _ => id⟩
  | some holders =>
    cases holders with
    | nil =>
      exact ⟨s.topics.remove topic, rfl, fun _ _ => holds_removed hg⟩
    | cons a holders =>
      refine ⟨s.topics, ?_, fun _ _ => id⟩
      dsimp only
      split
      · rename_i htopic
        have hnone := h.resolve_left fun hne => hne htopic
        show receive s sent = s
        unfold receive
        rw [hnone]
      · rfl

theorem send_receive (hholds : Holds s me room) (sent : Sent) :
    send room s room sent = receive s sent := by
  obtain ⟨holders, hholders, hme⟩ := hholds
  unfold send
  rw [hholders]
  cases holders with
  | nil => cases hme
  | cons a holders => exact if_pos rfl

theorem get?_called (hcalls : calls.get? who = none) {call call' : Sending} {w : Nat} :
    (calls.insert who call).get? w = some call' ↔
      (w = who ∧ call' = call) ∨ calls.get? w = some call' := by
  rw [OrdMap.get?_insert]
  split
  · rename_i heq
    rw [heq, hcalls, Option.some.injEq]
    exact ⟨fun h => .inl ⟨rfl, h.symm⟩, fun h => (h.resolve_right nofun).2.symm⟩
  · rename_i hne
    exact ⟨.inr, fun h => h.resolve_left fun heq => hne heq.1⟩

variable {presence : OrdMap String (OrdMap Nat Meta)} {made : List Meta} {joined left : Option Meta}

/-- A call that begins is about to send its diff. -/
theorem pending_called (hcalls : s.calls.get? who = none) (call : Sending) (d : Sent) :
    Pending room { s with presence, made, calls := s.calls.insert who call } d ↔
      Pending room s d ∨ (call.topic = room ∧ d = .diff call.joined call.left) := by
  constructor
  · rintro (hd | ⟨w, call', hw, heq⟩)
    · exact .inl (.inl hd)
    · rcases (get?_called hcalls).mp hw with ⟨rfl, rfl⟩ | hw
      · exact .inr heq
      · exact .inl (.inr ⟨w, call', hw, heq⟩)
  · rintro ((hd | ⟨w, call', hw, heq⟩) | heq)
    · exact .inl hd
    · exact .inr ⟨w, call', (get?_called hcalls).mpr (.inr hw), heq⟩
    · exact .inr ⟨who, call, (get?_called hcalls).mpr (.inl ⟨rfl, rfl⟩), heq⟩

theorem Inv.refs_made (h : Inv me room s) (hmade : ∀ m, m ∈ made ↔ m ∈ s.made ∨ joined = some m)
    (hnew : ∀ m, joined = some m → ∀ m' ∈ s.made, m'.phxRef ≠ m.phxRef) :
    ∀ m ∈ made, ∀ m' ∈ made, m.phxRef = m'.phxRef → m = m' := by
  intro m hm m' hm' heq
  rcases (hmade m).mp hm with hm | hm <;> rcases (hmade m').mp hm' with hm' | hm'
  · exact h.refs m hm m' hm' heq
  · exact absurd heq (hnew m' hm' m hm)
  · exact absurd heq.symm (hnew m hm m' hm')
  · exact Option.some.inj (hm.symm.trans hm')

/-- One socket's meta in place of another. -/
theorem Inv.on_changed (h : Inv me room s) (hleft : left = tracked s.presence room who)
    (htracked : ∀ w, tracked presence room w = if w = who then joined else tracked s.presence room w)
    (m : Meta) : On presence room m ↔ joined = some m ∨ (On s.presence room m ∧ left ≠ some m) := by
  constructor
  · rintro ⟨w, hw⟩
    rw [htracked] at hw
    split at hw
    · exact .inl hw
    · rename_i hne
      refine .inr ⟨⟨w, hw⟩, fun heq => hne (h.one w who m hw ?_)⟩
      rw [← hleft]
      exact heq
  · rintro (hjoined | ⟨⟨w, hw⟩, hne⟩)
    · exact ⟨who, by rw [htracked, if_pos rfl, hjoined]⟩
    · refine ⟨w, ?_⟩
      rw [htracked, if_neg]
      · exact hw
      · rintro rfl
        exact hne (hleft.trans hw)

theorem Inv.changed (h : Inv me room s)
    (hcalls : s.calls.get? who = none) (hleft : left = tracked s.presence room who)
    (htracked : ∀ w, tracked presence room w = if w = who then joined else tracked s.presence room w)
    (hmade : ∀ m, m ∈ made ↔ m ∈ s.made ∨ joined = some m)
    (hnew : ∀ m, joined = some m → ∀ m' ∈ s.made, m'.phxRef ≠ m.phxRef) :
    Inv me room
      { s with presence, made
               calls := s.calls.insert who ⟨room, joined, left⟩ } := by
  have hfresh : ∀ m, joined = some m → m ∉ s.made := fun m hm hmem => hnew m hm m hmem rfl
  have hon := h.on_changed hleft htracked
  have hpending : ∀ d, Pending room
      { s with presence, made
               calls := s.calls.insert who ⟨room, joined, left⟩ } d ↔
        Pending room s d ∨ d = .diff joined left := fun d => by
    rw [pending_called hcalls, and_iff_right rfl]
  have hleaves : ∀ m, left = some m → On s.presence room m :=
    fun m hm => ⟨who, hleft.symm.trans hm⟩
  refine { refs := h.refs_made hmade hnew, made := fun m hm => ?_, one := fun w w' m hw hw' => ?_
           joined := fun w call m hw htopic hm => ?_, joins := fun d m hd hm => ?_
           leaves := fun d m hd hm => ?_, order := h.order, watched := h.watched
           gone := fun d hd m hm => ?_, copied := fun copy hcopy => ?_, taken := h.taken }
  · exact (hmade m).mpr (((hon m).mp hm).symm.imp_left fun hm => h.made m hm.1)
  · rw [htracked] at hw hw'
    split at hw <;> split at hw'
    · rename_i h₁ h₂
      exact h₁.trans h₂.symm
    · exact absurd (h.made m ⟨w', hw'⟩) (hfresh m hw)
    · exact absurd (h.made m ⟨w, hw⟩) (hfresh m hw')
    · exact h.one w w' m hw hw'
  · dsimp only
    rw [htracked]
    rcases (get?_called hcalls).mp hw with ⟨rfl, rfl⟩ | hcall
    · rw [if_pos rfl]
      exact hm
    · rw [if_neg]
      · exact h.joined w call m hcall htopic hm
      · rintro rfl
        cases hcalls.symm.trans hcall
  · rcases (hpending d).mp hd with hd | rfl
    · obtain ⟨hmem, hno⟩ := h.joins d m hd hm
      exact ⟨(hmade m).mpr (.inl hmem), hno⟩
    · obtain ⟨l, heq⟩ := hm
      obtain ⟨hjoined, -⟩ := Sent.diff.inj heq
      refine ⟨(hmade m).mpr (.inr hjoined), ?_⟩
      rintro ⟨_, heq⟩
      exact hfresh m hjoined (h.made m (hleaves m (Sent.diff.inj heq).2))
  · dsimp only
    rw [hon]
    rcases (hpending d).mp hd with hd | rfl
    · obtain ⟨hmem, hno⟩ := h.leaves d m hd hm
      refine ⟨(hmade m).mpr (.inl hmem), ?_⟩
      rintro (hjoined | ⟨hmon, -⟩)
      · exact hfresh m hjoined hmem
      · exact hno hmon
    · obtain ⟨_, heq⟩ := hm
      have hmleft := (Sent.diff.inj heq).2
      have hmem := h.made m (hleaves m hmleft)
      refine ⟨(hmade m).mpr (.inl hmem), ?_⟩
      rintro (hjoined | ⟨-, hne⟩)
      · exact hfresh m hjoined hmem
      · exact hne hmleft
  · dsimp only
    rw [hon]
    by_cases hl : left = some m
    · exact .inr ⟨_, (hpending _).mpr (.inr rfl), joined, by rw [hl]⟩
    · rcases h.gone d hd m hm with hmon | ⟨later, hlater, hlm⟩
      · exact .inl (.inr ⟨hmon, hl⟩)
      · exact .inr ⟨later, (hpending later).mpr (.inl hlater), hlm⟩
  · obtain ⟨S, hcopies, hSmade, hin, hout⟩ := h.copied copy hcopy
    refine ⟨S, hcopies, fun m hm => (hmade m).mpr (.inl (hSmade m hm)), fun m hm => ?_,
      fun m hm => ?_⟩
    · rcases (hon m).mp hm with hjoined | ⟨hmon, -⟩
      · exact .inr ⟨_, (hpending _).mpr (.inr rfl), left, by rw [hjoined]⟩
      · exact (hin m hmon).imp_right fun ⟨d, hd, hdm⟩ => ⟨d, (hpending d).mpr (.inl hd), hdm⟩
    · dsimp only
      rw [hon]
      by_cases hl : left = some m
      · exact .inr ⟨_, (hpending _).mpr (.inr rfl), joined, by rw [hl]⟩
      · rcases hout m hm with hmon | ⟨d, hd, hdm⟩
        · exact .inl (.inr ⟨hmon, hl⟩)
        · exact .inr ⟨d, (hpending d).mpr (.inl hd), hdm⟩

theorem Inv.other (h : Inv me room s)
    (hcalls : s.calls.get? who = none) (htopic : topic ≠ room)
    (htracked : ∀ w, tracked presence room w = tracked s.presence room w)
    (hmade : ∀ m, m ∈ made ↔ m ∈ s.made ∨ joined = some m)
    (hnew : ∀ m, joined = some m → ∀ m' ∈ s.made, m'.phxRef ≠ m.phxRef) : Inv me room
      { s with presence, made
               calls := s.calls.insert who ⟨topic, joined, left⟩ } := by
  have hpending : ∀ d, Pending room
      { s with presence, made
               calls := s.calls.insert who ⟨topic, joined, left⟩ } d ↔
        Pending room s d := fun d => by
    rw [pending_called hcalls, or_iff_left fun heq => htopic heq.1]
  have hon : ∀ m, On presence room m ↔ On s.presence room m := fun m =>
    exists_congr fun w => by rw [htracked]
  have hmore : ∀ m, m ∈ s.made → m ∈ made := fun m hm => (hmade m).mpr (.inl hm)
  refine { refs := h.refs_made hmade hnew, made := fun m hm => hmore m (h.made m ((hon m).mp hm))
           one := fun w w' m hw hw' => ?_, joined := fun w call m hw hroom hm => ?_
           joins := fun d m hd hm => ?_, leaves := fun d m hd hm => ?_, order := h.order
           watched := h.watched, gone := fun d hd m hm => ?_, copied := fun copy hcopy => ?_
           taken := h.taken }
  · rw [htracked] at hw hw'
    exact h.one w w' m hw hw'
  · dsimp only
    rw [htracked]
    rcases (get?_called hcalls).mp hw with ⟨-, rfl⟩ | hw
    · exact absurd hroom htopic
    · exact h.joined w call m hw hroom hm
  · obtain ⟨hmem, hno⟩ := h.joins d m ((hpending d).mp hd) hm
    exact ⟨hmore m hmem, hno⟩
  · obtain ⟨hmem, hno⟩ := h.leaves d m ((hpending d).mp hd) hm
    exact ⟨hmore m hmem, fun hmon => hno ((hon m).mp hmon)⟩
  · refine (h.gone d hd m hm).imp (hon m).mpr ?_
    rintro ⟨later, hlater, hleaves⟩
    exact ⟨later, (hpending later).mpr hlater, hleaves⟩
  · obtain ⟨S, hcopies, hSmade, hin, hout⟩ := h.copied copy hcopy
    refine ⟨S, hcopies, fun m hm => hmore m (hSmade m hm), fun m hm => ?_, fun m hm => ?_⟩
    · refine (hin m ((hon m).mp hm)).imp_right ?_
      rintro ⟨d, hd, hdm⟩
      exact ⟨d, (hpending d).mpr hd, hdm⟩
    · refine (hout m hm).imp (hon m).mpr ?_
      rintro ⟨d, hd, hdm⟩
      exact ⟨d, (hpending d).mpr hd, hdm⟩

variable (room) in
/-- When the room's channel has no receiver, nobody is in the middle of a track. -/
def Quiet (s : State) : Prop :=
  s.topics.get? room = some [] →
    ∀ who call, s.calls.get? who = some call → call.topic = room → call.joined = none

theorem Inv.released (h : Inv me room s) (hquiet : Quiet room s) (topic : String) :
    Inv me room (Hub.released s topic) := by
  unfold Hub.released
  split
  · rename_i hg
    by_cases htopic : topic = room
    · subst htopic
      have hnone : s.queue = none := by
        cases hq : s.queue with
        | none => rfl
        | some q =>
          obtain ⟨holders, hholders, hme⟩ := h.watched (by rw [hq]; rfl)
          cases hg.symm.trans hholders
          cases hme
      have hunread : unread s = [] := by
        unfold unread
        rw [hnone]
        rfl
      have hoff : ∀ w, tracked (s.presence.remove topic) topic w = none := by
        intro w
        rw [tracked_remove, if_pos rfl]
      have hon : ∀ m, ¬ On (s.presence.remove topic) topic m := by
        rintro m ⟨w, hw⟩
        rw [hoff] at hw
        cases hw
      refine { h with made := fun m hm => absurd hm (hon m), one := fun w w' m hw => ?_
                      joined := fun w call m hw hroom hm => ?_
                      leaves := fun d m hd hm => ⟨(h.leaves d m hd hm).1, hon m⟩
                      watched := fun hq => ?_, gone := fun d hd => ?_
                      copied := fun copy hcopy => ?_ }
      · dsimp only at hw
        rw [hoff] at hw
        cases hw
      · rw [hquiet hg w call hw hroom] at hm
        cases hm
      · rw [hnone] at hq
        cases hq
      · have hd : d ∈ unread s := hd
        rw [hunread] at hd
        cases hd
      · have hq := h.taken (Option.isSome_iff_exists.mpr ⟨copy, hcopy⟩)
        rw [hnone] at hq
        cases hq
    · have htracked : ∀ w, tracked (s.presence.remove topic) room w = tracked s.presence room w := by
        intro w
        rw [tracked_remove, if_neg fun heq => htopic heq.symm]
      have hon : ∀ m, On (s.presence.remove topic) room m ↔ On s.presence room m := fun m =>
        exists_congr fun w => by rw [htracked]
      refine { h with made := fun m hm => h.made m ((hon m).mp hm), one := fun w w' m hw hw' => ?_
                      joined := fun w call m hw hroom hm => ?_
                      leaves := fun d m hd hm => ⟨(h.leaves d m hd hm).1, fun hmon =>
                        (h.leaves d m hd hm).2 ((hon m).mp hmon)⟩
                      watched := fun hq => holds_removed hg (h.watched hq)
                      gone := fun d hd m hm => (h.gone d hd m hm).imp_left (hon m).mpr
                      copied := fun copy hcopy => ?_ }
      · dsimp only at hw hw'
        rw [htracked] at hw hw'
        exact h.one w w' m hw hw'
      · dsimp only
        rw [htracked]
        exact h.joined w call m hw hroom hm
      · obtain ⟨S, hcopies, hSmade, hin, hout⟩ := h.copied copy hcopy
        exact ⟨S, hcopies, hSmade, fun m hm => hin m ((hon m).mp hm),
          fun m hm => (hout m hm).imp_left (hon m).mpr⟩
  · exact h

theorem Inv.read (h : Inv me room s) {copy : Presence}
    (hq : s.queue = some (sent :: q)) (hcopy : s.copy = some copy) :
    Inv me room { s with queue := some q, copy := some (apply copy sent) } := by
  have hunread : unread s = sent :: q := by
    unfold unread
    rw [hq]
    rfl
  have hin : sent ∈ unread s := hunread ▸ List.mem_cons_self
  have hmem : ∀ d, d ∈ q → d ∈ unread s := fun d hd => hunread ▸ .tail _ hd
  have hless : ∀ d, Pending room { s with queue := some q, copy := some (apply copy sent) } d →
      Pending room s d := fun d hd => hd.imp_left (hmem d)
  have hmore : ∀ d, Pending room s d →
      Pending room { s with queue := some q, copy := some (apply copy sent) } d ∨ d = sent := by
    rintro d (hd | hd)
    · rw [hunread] at hd
      exact (List.mem_cons.mp hd).symm.imp_left .inl
    · exact .inl (.inr hd)
  have horder := List.pairwise_cons.mp (hunread ▸ h.order)
  refine { h with joins := fun d m hd => h.joins d m (hless d hd)
                  leaves := fun d m hd => h.leaves d m (hless d hd)
                  order := horder.2
                  watched := fun _ => h.watched (by rw [hq]; rfl)
                  gone := fun d hd m hm => ?_
                  copied := fun copy' hcopy' => ?_
                  taken := fun _ => rfl }
  · refine (h.gone d (hmem d hd) m hm).imp_right ?_
    rintro ⟨later, hlater, hleaves⟩
    rcases hmore later hlater with hlater | rfl
    · exact ⟨later, hlater, hleaves⟩
    · exact absurd hm (horder.1 d hd m hleaves)
  · cases hcopy'
    obtain ⟨S, hcopies, hSmade, hon, hoff⟩ := h.copied copy hcopy
    have hmade : ∀ m, S m ∨ sent.Joins m → m ∈ s.made := fun m hm =>
      hm.elim (hSmade m) fun hm => (h.joins sent m (.inl hin) hm).1
    refine ⟨_, hcopies.apply sent fun m m' hm' hm heq => ?_, fun m hm => hmade m hm.1,
      fun m hm => ?_, ?_⟩
    · refine h.refs m' (hmade m' hm') m ?_ heq
      exact hm.elim (fun hm => hmade m (.inr hm)) fun hm => (h.leaves sent m (.inl hin) hm).1
    · have hstays : ¬ sent.Leaves m := fun hleaves => (h.leaves sent m (.inl hin) hleaves).2 hm
      rcases hon m hm with hS | ⟨d, hd, hjoins⟩
      · exact .inl ⟨.inl hS, hstays⟩
      · rcases hmore d hd with hd | rfl
        · exact .inr ⟨d, hd, hjoins⟩
        · exact .inl ⟨.inr hjoins, hstays⟩
    · rintro m ⟨hm, hstays⟩
      have hleft : On s.presence room m ∨ ∃ d, Pending room s d ∧ d.Leaves m :=
        hm.elim (hoff m) (h.gone sent hin m)
      refine hleft.imp_right ?_
      rintro ⟨d, hd, hleaves⟩
      rcases hmore d hd with hd | rfl
      · exact ⟨d, hd, hleaves⟩
      · exact absurd hleaves hstays

theorem holds_carry (who : Nat) (topic : String) {w : Nat} (h : Holds s w t ∨ w = who ∧ t = topic) :
    Holds { s with topics := carry s.topics who topic } w t := by
  unfold Holds carry
  rw [OrdMap.get?_insert]
  by_cases ht : t = topic
  · subst ht
    rw [if_pos rfl]
    refine ⟨_, rfl, List.mem_insert_iff.mpr ?_⟩
    rcases h with ⟨holders, hholders, hw⟩ | ⟨hw, -⟩
    · rw [hholders]
      exact .inr hw
    · exact .inl hw
  · rw [if_neg ht]
    exact h.resolve_right fun h => ht h.2

theorem holds_drop (who : Nat) (topic : String) {w : Nat} (h : Holds s w t)
    (hne : ¬ (w = who ∧ t = topic)) : Holds { s with topics := drop s.topics who topic } w t := by
  obtain ⟨holders, hholders, hw⟩ := h
  unfold Holds drop
  rw [OrdMap.get?_adjust]
  by_cases ht : t = topic
  · subst ht
    rw [if_pos rfl, hholders]
    exact ⟨_, rfl, (List.mem_erase_of_ne fun heq => hne ⟨heq, rfl⟩).mpr hw⟩
  · rw [if_neg ht]
    exact ⟨holders, hholders, hw⟩

theorem Inv.watch (h : Inv me room s) (hq : s.queue = none) :
    Inv me room { s with topics := carry s.topics me room, queue := some [] } := by
  have hunread : unread s = [] := by
    unfold unread
    rw [hq]
    rfl
  have hpending : ∀ d, Pending room s d →
      Pending room { s with topics := carry s.topics me room, queue := some [] } d := by
    rintro d (hd | hd)
    · rw [hunread] at hd
      cases hd
    · exact .inr hd
  have hless : ∀ d, Pending room { s with topics := carry s.topics me room, queue := some [] } d →
      Pending room s d := fun d hd => hd.imp_left nofun
  refine { h with joins := fun d m hd => h.joins d m (hless d hd)
                  leaves := fun d m hd => h.leaves d m (hless d hd)
                  order := List.Pairwise.nil
                  watched := fun _ => ?_
                  gone := nofun
                  copied := fun copy hcopy => ?_
                  taken := fun _ => rfl }
  · exact holds_carry me room (.inr ⟨rfl, rfl⟩)
  · have htaken := h.taken (Option.isSome_iff_exists.mpr ⟨copy, hcopy⟩)
    rw [hq] at htaken
    cases htaken

theorem Inv.take (h : Inv me room s) (hq : s.queue.isSome) :
    Inv me room { s with copy := some (state s.presence room) } :=
  { h with
    copied := fun _ hcopy =>
      ⟨On s.presence room, Option.some.inj hcopy ▸ copies_state h.one, h.made, fun _ => .inl,
        fun _ => .inl⟩
    taken := fun _ => hq }

/-- What the client's receiver is handed, unless it lags. -/
theorem Inv.receive (h : Inv me room s) (hq : s.queue = some q)
    (hsub : ∀ who call, calls.get? who = some call → s.calls.get? who = some call)
    (hkeep : ∀ who call, s.calls.get? who = some call → call.topic = room → calls.get? who = some call ∨
      sent = .diff call.joined call.left)
    (hsent : ∀ m, sent.Joins m ∨ sent.Leaves m → Pending room s sent)
    (hjoins : ∀ m, sent.Joins m → On s.presence room m) :
    (receive { s with calls } sent).lagged = true ∨
      Inv me room (Hub.receive { s with calls } sent) := by
  unfold Hub.receive
  rw [hq]
  dsimp only
  split
  · exact .inr (h.queued hq hsub hkeep hsent hjoins)
  · exact .inl rfl

theorem Inv.fan (h : Inv me room s) (topic : String) :
    (send room s topic .broadcast).lagged = true ∨ Inv me room (send room s topic .broadcast) := by
  by_cases hheard : topic ≠ room ∨ s.queue = none
  · obtain ⟨topics, heq, hholds⟩ := send_topics s .broadcast hheard
    rw [heq]
    exact .inr (h.topics fun hq => hholds me room (h.watched hq))
  · obtain ⟨htopic, hq⟩ := not_or.mp hheard
    obtain ⟨q, hq⟩ := Option.ne_none_iff_exists'.mp hq
    rw [not_not.mp htopic, send_receive (h.watched (by rw [hq]; rfl))]
    refine h.receive hq (fun _ _ => id) (fun _ _ hcall _ => .inl hcall) ?_ ?_
    · rintro m (⟨_, hno⟩ | ⟨_, hno⟩) <;> cases hno
    · rintro m ⟨_, hno⟩
      cases hno

theorem Inv.send (h : Inv me room s) {who : Nat} {call : Sending}
    (hcall : s.calls.get? who = some call) {s₁ : State}
    (hs₁ : s₁ = Hub.send room { s with calls := s.calls.remove who } call.topic
      (.diff call.joined call.left)) :
    s₁.lagged = true ∨ Inv me room s₁ := by
  subst hs₁
  have hsub : ∀ w c, (s.calls.remove who).get? w = some c → s.calls.get? w = some c := by
    intro w c hw
    by_cases heq : w = who
    · subst heq
      rw [OrdMap.get?_remove, if_pos rfl] at hw
      cases hw
    · rwa [OrdMap.get?_remove, if_neg heq] at hw
  have hkeep : ∀ w c, s.calls.get? w = some c → w ≠ who → (s.calls.remove who).get? w = some c :=
    fun w c hw hne => by rw [OrdMap.get?_remove, if_neg hne, hw]
  by_cases hheard : call.topic ≠ room ∨ s.queue = none
  · obtain ⟨topics, heq, hholds⟩ := send_topics
      { s with calls := s.calls.remove who } (.diff call.joined call.left) hheard
    rw [heq]
    have hcalls : Inv me room { s with calls := s.calls.remove who } := by
      refine h.calls hsub (hheard.symm.imp_right fun htopic w c hw hroom => hkeep w c hw ?_)
      rintro rfl
      cases hcall.symm.trans hw
      exact htopic hroom
    exact .inr (hcalls.topics fun hq => hholds me room (h.watched hq))
  · obtain ⟨htopic, hq⟩ := not_or.mp hheard
    obtain ⟨q, hq⟩ := Option.ne_none_iff_exists'.mp hq
    have htopic := not_not.mp htopic
    have hholds : Holds { s with calls := s.calls.remove who } me room :=
      h.watched (by rw [hq]; rfl)
    rw [htopic, send_receive hholds]
    refine h.receive hq hsub (fun w c hw hroom => ?_) (fun m _ => ?_) fun m hm => ?_
    · by_cases heq : w = who
      · subst heq
        cases hcall.symm.trans hw
        exact .inr rfl
      · exact .inl (hkeep w c hw heq)
    · exact .inr ⟨who, call, hcall, htopic, rfl⟩
    · obtain ⟨_, heq⟩ := hm
      exact ⟨who, h.joined who call m hcall htopic (Sent.diff.inj heq).1⟩

variable {a : Act}

theorem inv_next (hquiet : Quiet room s) (h : Inv me room s)
    (hnext : next me room s a = some s') : s'.lagged = true ∨ Inv me room s' := by
  cases a with
  | carry who topic =>
    cases hnext
    exact .inr (h.topics fun hq => holds_carry who topic (.inl (h.watched hq)))
  | drop who topic =>
    obtain ⟨hmay, heq⟩ := Option.ite_none_left_eq_some.mp hnext
    cases heq
    refine .inr (h.topics fun hq => holds_drop who topic (h.watched hq) ?_)
    rintro ⟨rfl, rfl⟩
    exact hmay ⟨rfl, rfl, hq⟩
  | track who topic key payload number =>
    obtain ⟨hmay, heq⟩ := Option.ite_none_left_eq_some.mp hnext
    obtain ⟨hidle, hnumber⟩ := not_or.mp hmay
    cases heq
    have hcalls := Option.not_isSome_iff_eq_none.mp hidle
    have hnew : ∀ m, some (Meta.mk (key.getD (toString who)) (toString number) payload) = some m →
        ∀ m' ∈ s.made, m'.phxRef ≠ m.phxRef := by
      intro m hm m' hm' hsame
      cases hm
      exact hnumber ⟨m', hm', hsame⟩
    have hmade : ∀ m, m ∈ ⟨key.getD (toString who), toString number, payload⟩ :: s.made ↔
        m ∈ s.made ∨
          some (Meta.mk (key.getD (toString who)) (toString number) payload) = some m := by
      intro m
      rw [List.mem_cons, or_comm, Option.some.injEq, eq_comm]
    by_cases htopic : topic = room
    · subst htopic
      refine .inr (h.changed hcalls rfl (fun w => ?_) hmade hnew)
      rw [tracked_putOn]
      by_cases hw : w = who
      · rw [if_pos ⟨rfl, hw⟩, if_pos hw]
      · rw [if_neg fun heq => hw heq.2, if_neg hw]
    · refine .inr (h.other hcalls htopic (fun w => ?_) hmade hnew)
      rw [tracked_putOn, if_neg fun heq => htopic heq.1.symm]
  | untrack who topic =>
    obtain ⟨hidle, heq⟩ := Option.ite_none_left_eq_some.mp hnext
    have hcalls := Option.not_isSome_iff_eq_none.mp hidle
    cases hgone : tracked s.presence topic who with
    | none =>
      rw [hgone] at heq
      cases heq
      exact .inr h
    | some gone =>
      rw [hgone] at heq
      cases heq
      have hmade : ∀ m, m ∈ s.made ↔ m ∈ s.made ∨ none = some m := fun m => by simp
      by_cases htopic : topic = room
      · subst htopic
        refine .inr (h.changed hcalls hgone.symm (fun w => ?_) hmade nofun)
        rw [tracked_takeOff]
        by_cases hw : w = who
        · rw [if_pos ⟨rfl, hw⟩, if_pos hw]
        · rw [if_neg fun heq => hw heq.2, if_neg hw]
      · refine .inr (h.other hcalls htopic (fun w => ?_) hmade nofun)
        rw [tracked_takeOff, if_neg fun heq => htopic heq.1.symm]
  | send who =>
    simp only [next] at hnext
    cases hcall : s.calls.get? who with
    | none =>
      rw [hcall] at hnext
      cases hnext
    | some call =>
      rw [hcall] at hnext
      exact h.send hcall (Option.some.inj hnext).symm
  | released topic =>
    cases hnext
    exact .inr (h.released hquiet topic)
  | fan topic =>
    cases hnext
    exact h.fan topic
  | watch =>
    obtain ⟨hoff, heq⟩ := Option.ite_none_left_eq_some.mp hnext
    cases heq
    exact .inr (h.watch (Option.not_isSome_iff_eq_none.mp hoff))
  | take =>
    obtain ⟨⟨hq, -⟩, heq⟩ := Option.ite_none_right_eq_some.mp hnext
    cases heq
    exact .inr (h.take hq)
  | read =>
    simp only [next] at hnext
    split at hnext
    · rename_i sent q copy hq hcopy
      cases hnext
      exact .inr (h.read hq hcopy)
    · cases hnext

theorem lagged_send (s : State) (topic : String) (sent : Sent) (h : s.lagged = true) :
    (send room s topic sent).lagged = true := by
  unfold send receive
  split
  · exact h
  · exact h
  · split
    · split
      · exact h
      · split
        · exact h
        · rfl
    · exact h

theorem lagged_next (h : s.lagged = true) (hnext : next me room s a = some s') :
    s'.lagged = true := by
  cases a with
  | carry who topic => exact Option.some.inj hnext ▸ h
  | drop who topic =>
    obtain ⟨-, heq⟩ := Option.ite_none_left_eq_some.mp hnext
    exact Option.some.inj heq ▸ h
  | track who topic key payload number =>
    obtain ⟨-, heq⟩ := Option.ite_none_left_eq_some.mp hnext
    exact Option.some.inj heq ▸ h
  | untrack who topic =>
    obtain ⟨-, heq⟩ := Option.ite_none_left_eq_some.mp hnext
    cases hgone : tracked s.presence topic who with
    | none =>
      rw [hgone] at heq
      exact Option.some.inj heq ▸ h
    | some gone =>
      rw [hgone] at heq
      exact Option.some.inj heq ▸ h
  | send who =>
    simp only [next] at hnext
    cases hcall : s.calls.get? who with
    | none =>
      rw [hcall] at hnext
      cases hnext
    | some call =>
      rw [hcall] at hnext
      cases hnext
      exact lagged_send _ _ _ h
  | released topic =>
    cases hnext
    unfold released
    split <;> exact h
  | fan topic =>
    cases hnext
    exact lagged_send _ _ _ h
  | watch =>
    obtain ⟨-, heq⟩ := Option.ite_none_left_eq_some.mp hnext
    exact Option.some.inj heq ▸ h
  | take =>
    obtain ⟨-, heq⟩ := Option.ite_none_right_eq_some.mp hnext
    exact Option.some.inj heq ▸ h
  | read =>
    simp only [next] at hnext
    split at hnext
    · exact Option.some.inj hnext ▸ h
    · cases hnext

/-! ## Where a room is carried -/

theorem receive_topics (s : State) (sent : Sent) : (receive s sent).topics = s.topics := by
  unfold receive
  split
  · rfl
  · split <;> rfl

theorem receive_isSome (s : State) (sent : Sent) :
    (receive s sent).queue.isSome = s.queue.isSome := by
  unfold receive
  cases hq : s.queue with
  | none => exact congrArg Option.isSome hq
  | some q =>
    dsimp only
    split <;> rfl

variable (room) in
theorem send_cases (s : State) (topic : String) (sent : Sent) :
    (send room s topic sent).calls = s.calls ∧
      (send room s topic sent).queue.isSome = s.queue.isSome ∧
      ((send room s topic sent).topics = s.topics ∨
        s.topics.get? topic = some [] ∧
          (send room s topic sent).topics = s.topics.remove topic) := by
  have hcalls : ∀ s : State, (receive s sent).calls = s.calls := by
    intro s
    unfold receive
    split
    · rfl
    · split <;> rfl
  unfold send
  cases hg : s.topics.get? topic with
  | none => exact ⟨rfl, rfl, .inl rfl⟩
  | some holders =>
    cases holders with
    | nil => exact ⟨rfl, rfl, .inr ⟨rfl, rfl⟩⟩
    | cons a holders =>
      dsimp only
      split
      · exact ⟨hcalls s, receive_isSome s sent, .inl (receive_topics s sent)⟩
      · exact ⟨rfl, rfl, .inl rfl⟩

theorem holds_send (h : Holds s who t) : Holds (send room s topic sent) who t := by
  unfold Holds
  rcases (send_cases room s topic sent).2.2 with heq | ⟨hg, heq⟩
  · rw [heq]
    exact h
  · rw [heq]
    exact holds_removed hg h

variable (room) in
/-- Whoever is in the middle of a track holds a receiver. -/
def Held (s : State) : Prop :=
  ∀ who call, s.calls.get? who = some call → call.topic = room → call.joined.isSome →
    Holds s who room

theorem Held.quiet (h : Held room s) : Quiet room s := by
  intro hg who call hcall htopic
  by_contra hjoined
  obtain ⟨holders, hholders, hwho⟩ := h who call hcall htopic (Option.isSome_iff_ne_none.mpr hjoined)
  cases hg.symm.trans hholders
  cases hwho

theorem held_next (h : Held room s) (hok : Carrying room s a)
    (hnext : next me room s a = some s') : Held room s' := by
  cases a with
  | carry who topic =>
    cases hnext
    exact fun w call hw htopic hj => holds_carry who topic (.inl (h w call hw htopic hj))
  | drop who topic =>
    obtain ⟨-, heq⟩ := Option.ite_none_left_eq_some.mp hnext
    cases heq
    intro w call hw htopic hj
    refine holds_drop who topic (h w call hw htopic hj) ?_
    rintro ⟨rfl, rfl⟩
    exact Option.some_ne_none _ (hw.symm.trans (hok rfl))
  | track who topic key payload number =>
    obtain ⟨-, heq⟩ := Option.ite_none_left_eq_some.mp hnext
    cases heq
    intro w call hw htopic hj
    rw [OrdMap.get?_insert] at hw
    split at hw
    · rename_i heq
      cases hw
      rw [heq]
      exact hok htopic
    · exact h w call hw htopic hj
  | untrack who topic =>
    obtain ⟨-, heq⟩ := Option.ite_none_left_eq_some.mp hnext
    cases hgone : tracked s.presence topic who with
    | none =>
      rw [hgone] at heq
      exact Option.some.inj heq ▸ h
    | some gone =>
      rw [hgone] at heq
      cases heq
      intro w call hw htopic hj
      rw [OrdMap.get?_insert] at hw
      split at hw
      · cases hw
        cases hj
      · exact h w call hw htopic hj
  | send who =>
    simp only [next] at hnext
    cases hcall : s.calls.get? who with
    | none =>
      rw [hcall] at hnext
      cases hnext
    | some call =>
      rw [hcall] at hnext
      cases hnext
      intro w c hw htopic hj
      rw [(send_cases _ _ _ _).1, OrdMap.get?_remove] at hw
      split at hw
      · cases hw
      · exact holds_send (h w c hw htopic hj)
  | released topic =>
    cases hnext
    unfold released
    split
    · rename_i hg
      exact fun w call hw htopic hj => holds_removed hg (h w call hw htopic hj)
    · exact h
  | fan topic =>
    cases hnext
    intro w call hw htopic hj
    rw [(send_cases _ _ _ _).1] at hw
    exact holds_send (h w call hw htopic hj)
  | watch =>
    obtain ⟨-, heq⟩ := Option.ite_none_left_eq_some.mp hnext
    cases heq
    exact fun w call hw htopic hj => holds_carry me room (.inl (h w call hw htopic hj))
  | take =>
    obtain ⟨-, heq⟩ := Option.ite_none_right_eq_some.mp hnext
    exact Option.some.inj heq ▸ h
  | read =>
    simp only [next] at hnext
    split at hnext
    · exact Option.some.inj hnext ▸ h
    · cases hnext

variable (me room) in
/-- The room is the client's, or nobody's. -/
def Own (s : State) : Prop :=
  s.topics.get? room = if s.queue.isSome then some [me] else none

theorem Own.quiet (h : Own me room s) : Quiet room s := by
  intro hg
  rw [h] at hg
  split at hg <;> cases hg

theorem Own.of_topics (h : Own me room s) {topics : OrdMap String (List Nat)}
    (hroom : topics.get? room = s.topics.get? room) : Own me room { s with topics } :=
  hroom.trans h

theorem own_send (h : Own me room s) (topic : String) (sent : Sent) :
    Own me room (send room s topic sent) := by
  obtain ⟨-, hqueue, htopics⟩ := send_cases room s topic sent
  unfold Own
  rw [hqueue]
  rcases htopics with heq | ⟨hg, heq⟩
  · rw [heq]
    exact h
  · rw [heq, OrdMap.get?_remove, if_neg]
    · exact h
    · rintro rfl
      rw [h] at hg
      split at hg <;> cases hg

theorem own_next (h : Own me room s) (hok : Alone room s a)
    (hnext : next me room s a = some s') : Own me room s' := by
  cases a with
  | carry who topic =>
    cases hnext
    refine h.of_topics ?_
    unfold carry
    rw [OrdMap.get?_insert, if_neg fun heq => hok heq.symm]
  | drop who topic =>
    obtain ⟨hmay, heq⟩ := Option.ite_none_left_eq_some.mp hnext
    cases heq
    refine h.of_topics ?_
    unfold drop
    rw [OrdMap.get?_adjust]
    split
    · rename_i htopic
      subst htopic
      rw [h]
      split
      · rename_i hq
        have hne : ¬ me = who := fun heq => hmay ⟨heq.symm, rfl, hq⟩
        rw [Option.map_some, List.erase_cons_tail (by simpa using hne)]
        rfl
      · rfl
    · rfl
  | track who topic key payload number =>
    obtain ⟨-, heq⟩ := Option.ite_none_left_eq_some.mp hnext
    exact Option.some.inj heq ▸ h
  | untrack who topic =>
    obtain ⟨-, heq⟩ := Option.ite_none_left_eq_some.mp hnext
    cases hgone : tracked s.presence topic who with
    | none =>
      rw [hgone] at heq
      exact Option.some.inj heq ▸ h
    | some gone =>
      rw [hgone] at heq
      exact Option.some.inj heq ▸ h
  | send who =>
    simp only [next] at hnext
    cases hcall : s.calls.get? who with
    | none =>
      rw [hcall] at hnext
      cases hnext
    | some call =>
      rw [hcall] at hnext
      cases hnext
      exact own_send (s := { s with calls := s.calls.remove who }) h _ _
  | released topic =>
    cases hnext
    unfold released
    split
    · rename_i hg
      refine Eq.trans ?_ h
      rw [OrdMap.get?_remove, if_neg]
      rintro rfl
      rw [h] at hg
      split at hg <;> cases hg
    · exact h
  | fan topic =>
    cases hnext
    exact own_send h topic _
  | watch =>
    obtain ⟨hoff, heq⟩ := Option.ite_none_left_eq_some.mp hnext
    cases heq
    unfold Own carry
    rw [OrdMap.get?_insert, if_pos rfl, h, if_neg hoff]
    rfl
  | take =>
    obtain ⟨-, heq⟩ := Option.ite_none_right_eq_some.mp hnext
    exact Option.some.inj heq ▸ h
  | read =>
    simp only [next] at hnext
    split at hnext
    · rename_i sent q copy hq hcopy
      cases hnext
      refine h.trans ?_
      rw [hq]
      rfl
    · cases hnext

theorem Inv.same (h : Inv me room s) (hback : s.calls.entries = []) (hread : s.queue = some [])
    {copy : Presence} (hcopy : s.copy = some copy) : Same copy (state s.presence room) := by
  have hnone : ∀ sent, ¬ Pending room s sent := by
    rintro sent (hsent | ⟨who, call, hcall, -⟩)
    · unfold unread at hsent
      rw [hread] at hsent
      cases hsent
    · rw [OrdMap.entries_eq_nil.mp hback who] at hcall
      cases hcall
  obtain ⟨S, hcopies, -, hon, hoff⟩ := h.copied copy hcopy
  refine hcopies.same (copies_state h.one) fun m => ⟨fun hS => ?_, fun hm => ?_⟩
  · refine (hoff m hS).resolve_right ?_
    rintro ⟨sent, hsent, -⟩
    exact hnone sent hsent
  · refine (hon m hm).resolve_right ?_
    rintro ⟨sent, hsent, -⟩
    exact hnone sent hsent

/-- A client that did not lag ends where the hub is. -/
theorem copy_converges {acts : List Act} {copy : Presence}
    (hcalls : Meets (next me room) (Carrying room) start acts ∨
      Meets (next me room) (Alone room) start acts)
    (hrun : run (next me room) start acts = some s) (hlag : s.lagged = false)
    (hback : s.calls.entries = []) (hread : s.queue = some []) (hcopy : s.copy = some copy) :
    Same copy (state s.presence room) := by
  have hstep : ∀ s a s', Quiet room s → s.lagged = true ∨ Inv me room s →
      next me room s a = some s' → s'.lagged = true ∨ Inv me room s' :=
    fun s a s' hquiet h hnext => h.elim (fun h => .inl (lagged_next h hnext)) fun h =>
      inv_next hquiet h hnext
  have hinv : s.lagged = true ∨ Inv me room s := by
    rcases hcalls with hcalls | hcalls
    · have hheld : ∀ s a s', Held room s ∧ (s.lagged = true ∨ Inv me room s) →
          Carrying room s a → next me room s a = some s' →
          Held room s' ∧ (s'.lagged = true ∨ Inv me room s') :=
        fun s a s' h hok hnext => ⟨held_next h.1 hok hnext, hstep s a s' h.1.quiet h.2 hnext⟩
      exact (guarded_invariant hheld ⟨fun _ _ hno => (by cases hno), .inr inv_start⟩
        hcalls hrun).2
    · have hown : ∀ s a s', Own me room s ∧ (s.lagged = true ∨ Inv me room s) →
          Alone room s a → next me room s a = some s' →
          Own me room s' ∧ (s'.lagged = true ∨ Inv me room s') :=
        fun s a s' h hok hnext => ⟨own_next h.1 hok hnext, hstep s a s' h.1.quiet h.2 hnext⟩
      have hstart : Own me room start := rfl
      exact (guarded_invariant hown ⟨hstart, .inr inv_start⟩ hcalls hrun).2
  refine (hinv.resolve_left fun hlagged => ?_).same hback hread hcopy
  rw [hlag] at hlagged
  cases hlagged

end

theorem holds_iff (s : State) (who : Nat) (topic : String) :
    Holds s who topic ↔ who ∈ (s.topics.get? topic).getD [] := by
  constructor
  · rintro ⟨holders, hholders, hwho⟩
    rw [hholders]
    exact hwho
  · intro h
    cases hg : s.topics.get? topic with
    | none =>
      rw [hg] at h
      cases h
    | some holders =>
      rw [hg] at h
      exact ⟨holders, hg, h⟩

instance decidableHolds (s : State) (who : Nat) (topic : String) : Decidable (Holds s who topic) :=
  decidable_of_iff _ (holds_iff s who topic).symm

instance decidableCarrying (room : String) (s : State) : ∀ a, Decidable (Carrying room s a)
  | .track who topic .. => inferInstanceAs (Decidable (topic = room → Holds s who room))
  | .drop who topic =>
    decidable_of_iff (topic = room → (s.calls.get? who).isNone = true)
      (imp_congr_right fun _ => Option.isNone_iff_eq_none)
  | .carry .. | .untrack .. | .send _ | .released _ | .fan _ | .watch | .take | .read =>
    inferInstanceAs (Decidable True)

/-- The state is taken between the halves of a move, with a join queued. -/
def moving : List Act :=
  [.carry 1 "room", .watch, .track 1 "room" (some "u") (.object []) 0, .send 1,
    .track 1 "room" (some "v") (.object []) 1, .take, .send 1, .read, .read]

theorem copy_converges_moving :
    ∃ s copy, run (next 0 "room") start moving = some s ∧ s.copy = some copy ∧
      copy.entries.map Prod.fst = ["v"] ∧ Same copy (state s.presence "room") := by
  have hfacts : (run (next 0 "room") start moving).map (fun s =>
      (s.lagged, s.calls.entries.isEmpty, s.queue.map List.isEmpty,
        s.copy.map fun copy => copy.entries.map Prod.fst)) =
      some (false, true, some true, some ["v"]) := by decide +kernel
  obtain ⟨s, hs, heq⟩ := Option.map_eq_some_iff.mp hfacts
  obtain ⟨hlag, hback, hqueue, hkeys⟩ : s.lagged = false ∧ s.calls.entries.isEmpty = true ∧
      s.queue.map List.isEmpty = some true ∧
      (s.copy.map fun copy => copy.entries.map Prod.fst) = some ["v"] := by
    simpa only [Prod.mk.injEq] using heq
  obtain ⟨q, hq, hempty⟩ := Option.map_eq_some_iff.mp hqueue
  obtain ⟨copy, hcopy, hkeys⟩ := Option.map_eq_some_iff.mp hkeys
  rw [List.isEmpty_iff.mp hempty] at hq
  exact ⟨s, copy, hs, hcopy, hkeys, copy_converges (.inl (by decide +kernel)) hs hlag
    (List.isEmpty_iff.mp hback) hq hcopy⟩

end Zou.Hub
