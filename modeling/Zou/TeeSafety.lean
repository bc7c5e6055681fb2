import Zou.Tee

/-!
# What a subscription receives

The events of a subscription (received, in a receive's hand, queued) are
the windows the publisher is through with, less those that match nothing,
up to the one it was cut at. `SubInv` says this of one subscription, with
the bytes it is charged, and `Inv` says where the publisher is in between.
-/

namespace Zou

open Wire (Frame2)

/-! ## The stream of a subscription -/

namespace TeeFilter

variable (crc32c : List UInt8 → Nat) (filter : TeeFilter)

/-- What a filter makes of a window. -/
def deliver (w : Nat × List Frame2) : Option TeeEvent :=
  if w.2.filter (filter.matches crc32c) = [] then none
  else some (.window w.1 (w.2.filter (filter.matches crc32c)))

def deliverable (ws : List (Nat × List Frame2)) : List TeeEvent :=
  ws.filterMap (filter.deliver crc32c)

/-- The matching frames of the windows before the first of the rest, which
matches, and a `Lagged` that names it. -/
def CutAt (ws : List (Nat × List Frame2)) (evs : List TeeEvent) : Prop :=
  ∃ ws₁ w ws₂, ws = ws₁ ++ w :: ws₂ ∧ w.2.filter (filter.matches crc32c) ≠ []
    ∧ evs = filter.deliverable crc32c ws₁ ++ [.lagged w.1]

/-- The matching frames of a prefix of the windows, in order, and then at
most one `Lagged`. -/
def Delivered (ws : List (Nat × List Frame2)) (evs : List TeeEvent) : Prop :=
  (∃ ws₁ ws₂, ws = ws₁ ++ ws₂ ∧ evs = filter.deliverable crc32c ws₁)
    ∨ filter.CutAt crc32c ws evs

variable {crc32c : List UInt8 → Nat} {filter : TeeFilter} {ws ws' : List (Nat × List Frame2)}
  {evs evs' : List TeeEvent}

theorem deliverable_snoc (w : Nat × List Frame2) : filter.deliverable crc32c (ws ++ [w])
    = filter.deliverable crc32c ws ++ (filter.deliver crc32c w).toList := by
  unfold deliverable
  rw [List.filterMap_append]
  cases h : filter.deliver crc32c w with
  | none => simp [h]
  | some ev => simp [h]

/-- Whoever has received a part of what is delivered has received what a
shorter prefix delivers. -/
theorem Delivered.of_append (h : filter.Delivered crc32c ws (evs ++ evs')) :
    filter.Delivered crc32c ws evs := by
  have hshort : ∀ {ws₁ rest}, filter.deliverable crc32c ws₁ = evs ++ rest →
      ∀ ws₂, filter.Delivered crc32c (ws₁ ++ ws₂) evs := by
    intro ws₁ rest heq ws₂
    obtain ⟨l₁, l₂, rfl, h₁, -⟩ := List.filterMap_eq_append_iff.mp heq
    exact .inl ⟨l₁, l₂ ++ ws₂, List.append_assoc .., h₁.symm⟩
  rcases h with ⟨ws₁, ws₂, rfl, heq⟩ | ⟨ws₁, w, ws₂, rfl, hw, heq⟩
  · exact hshort heq.symm ws₂
  · rcases List.append_eq_append_iff.mp heq with ⟨rest, hfront, -⟩ | ⟨rest, hevs, hlast⟩
    · exact hshort hfront (w :: ws₂)
    · -- all of the windows, and the marker or not
      cases rest with
      | nil =>
        rw [List.append_nil] at hevs
        have hall : filter.deliverable crc32c ws₁ = evs ++ [] := by rw [hevs, List.append_nil]
        exact hshort hall (w :: ws₂)
      | cons ev rest =>
        rw [List.cons_append, List.cons.injEq] at hlast
        obtain ⟨rfl, hnil⟩ := hlast
        obtain ⟨rfl, -⟩ := List.append_eq_nil_iff.mp hnil.symm
        exact .inr ⟨ws₁, w, ws₂, rfl, hw, hevs⟩

theorem CutAt.more (h : filter.CutAt crc32c ws evs) (ws' : List (Nat × List Frame2)) :
    filter.CutAt crc32c (ws ++ ws') evs := by
  obtain ⟨ws₁, w, ws₂, rfl, hw, heq⟩ := h
  exact ⟨ws₁, w, ws₂ ++ ws', by rw [List.append_assoc, List.cons_append], hw, heq⟩

theorem Delivered.more (h : filter.Delivered crc32c ws evs) (ws' : List (Nat × List Frame2)) :
    filter.Delivered crc32c (ws ++ ws') evs := by
  rcases h with ⟨ws₁, ws₂, rfl, heq⟩ | h
  · exact .inl ⟨ws₁, ws₂ ++ ws', List.append_assoc .., heq⟩
  · exact .inr (h.more ws')

end TeeFilter

/-! ## One subscription -/

/-- The bytes of the events on their way. -/
def queueBytes (evs : List TeeEvent) : Nat := evs.foldr (fun ev n => ev.bytes + n) 0

theorem queueBytes_append (evs evs' : List TeeEvent) :
    queueBytes (evs ++ evs') = queueBytes evs + queueBytes evs' := by
  induction evs with
  | nil => exact (Nat.zero_add _).symm
  | cons ev evs ih => simp only [queueBytes, List.cons_append, List.foldr_cons] at ih ⊢; omega

namespace SubEntry

/-- Its events, oldest first. -/
def stream (e : SubEntry) : List TeeEvent := e.received ++ e.hand.toList ++ e.queue

/-- What holds of a subscription that the publisher has charged for `owed`
bytes it has not sent yet. -/
structure Inv (crc32c : List UInt8 → Nat) (e : SubEntry) (owed : Nat) : Prop where
  within : e.used ≤ e.budget
  charged : e.dropped = false → e.used = queueBytes (e.hand.toList ++ e.queue) + owed
  whole : e.dropped = false → e.attached = true →
    e.stream = e.filter.deliverable crc32c e.seen
  cutAt : e.dropped = false → e.attached = false → e.filter.CutAt crc32c e.seen e.stream
  gone : e.dropped = true → e.hand = none ∧ e.filter.Delivered crc32c e.seen e.received

variable {crc32c : List UInt8 → Nat} {e e' : SubEntry} {owed : Nat}

theorem Inv.new (filter : TeeFilter) (budget since : Nat) :
    Inv crc32c (.new filter budget since) 0 where
  within := Nat.zero_le _
  charged _ := rfl
  whole _ _ := rfl
  cutAt _ h := by cases h
  gone h := by cases h

theorem Inv.delivered (hi : Inv crc32c e owed) : e.filter.Delivered crc32c e.seen e.received := by
  cases hd : e.dropped with
  | true => exact (hi.gone hd).2
  | false =>
    have hstream : e.filter.Delivered crc32c e.seen
        (e.received ++ (e.hand.toList ++ e.queue)) := by
      rw [← List.append_assoc]
      cases ha : e.attached with
      | true => exact .inl ⟨e.seen, [], (List.append_nil _).symm, hi.whole hd ha⟩
      | false => exact .inr (hi.cutAt hd ha)
    exact hstream.of_append

/-- What no step of a receiver changes. -/
structure Received (e e' : SubEntry) : Prop where
  filter : e'.filter = e.filter
  budget : e'.budget = e.budget
  used : e'.used ≤ e.used
  attached : e'.attached = e.attached
  seen : e'.seen = e.seen
  since : e'.since = e.since

theorem take_spec (hi : Inv crc32c e owed) (h : e.take = some e') :
    Inv crc32c e' owed ∧ Received e e' := by
  unfold SubEntry.take at h
  split at h
  · rename_i ev queue hhand hqueue
    obtain ⟨hlive, h⟩ := Option.ite_none_left_eq_some.mp h
    cases h
    have hstream : e.received ++ [ev] ++ queue = e.stream := by
      rw [stream, hhand, hqueue]
      simp
    have hbytes : queueBytes (e.hand.toList ++ e.queue) = queueBytes ([ev] ++ queue) := by
      rw [hhand, hqueue]
      rfl
    refine ⟨⟨hi.within, fun hd => ?_, fun hd ha => ?_, fun hd ha => ?_, fun hd => absurd hd hlive⟩,
      ⟨rfl, rfl, le_rfl, rfl, rfl, rfl⟩⟩
    · exact (hi.charged hd).trans (by rw [hbytes]; rfl)
    · exact hstream.trans (hi.whole hd ha)
    · have hcut := hi.cutAt hd ha
      rw [← hstream] at hcut
      exact hcut
  · cases h

theorem settle_spec (hi : Inv crc32c e owed) (h : e.settle = some e') :
    Inv crc32c e' owed ∧ Received e e' := by
  obtain ⟨ev, hhand, rfl⟩ := Option.map_eq_some_iff.mp h
  have hstream : e.received ++ [ev] ++ [] ++ e.queue = e.stream := by
    rw [stream, hhand]
    simp
  refine ⟨⟨Nat.le_trans (Nat.sub_le ..) hi.within, fun hd => ?_, fun hd ha => ?_,
    fun hd ha => ?_, fun hd => ?_⟩, ⟨rfl, rfl, Nat.sub_le .., rfl, rfl, rfl⟩⟩
  · have hc := hi.charged hd
    rw [hhand, queueBytes_append] at hc
    have hone : queueBytes (some ev).toList = ev.bytes := Nat.add_zero _
    change e.used - ev.bytes = queueBytes ([] ++ e.queue) + owed
    rw [List.nil_append]
    omega
  · exact hstream.trans (hi.whole hd ha)
  · have hcut := hi.cutAt hd ha
    rw [← hstream] at hcut
    exact hcut
  · -- a receive under way has its receiver
    rw [(hi.gone hd).1] at hhand
    cases hhand

theorem drop_spec (hi : Inv crc32c e owed) (h : e.drop = some e') :
    Inv crc32c e' owed ∧ Received e e' := by
  obtain ⟨hhand, h⟩ := Option.ite_none_left_eq_some.mp h
  cases h
  have hnone : e.hand = none := by simpa using hhand
  exact ⟨⟨hi.within, nofun, nofun, nofun,
    fun _ => ⟨hnone, hi.delivered⟩⟩, ⟨rfl, rfl, le_rfl, rfl, rfl, rfl⟩⟩

/-- The publisher is through with a window for a subscription that the tee
has let go of. -/
theorem Inv.passed (hi : Inv crc32c e owed) (ha : e.attached = false)
    (w : Nat × List Frame2) : Inv crc32c (e.passed w) owed where
  within := hi.within
  charged := hi.charged
  whole _ h := by
    rw [show (e.passed w).attached = e.attached from rfl, ha] at h
    cases h
  cutAt hd _ := (hi.cutAt hd ha).more [w]
  gone hd := ⟨(hi.gone hd).1, (hi.gone hd).2.more [w]⟩

end SubEntry

/-! ## The publisher at one subscription -/

/-- What a subscription has been charged for and not sent. -/
def VisitPc.owed : VisitPc → Nat
  | .send matching => eventBytes matching
  | _ => 0

/-- What the publisher knows about the attached subscription it is at. -/
def Publish.At (crc32c : List UInt8 → Nat) (p : Publish) (e : SubEntry) : Prop :=
  match p.pc with
  | .visit => True
  | .add matching => e.attached = true ∧ matching = e.matching crc32c p.frames ∧ matching ≠ []
      ∧ e.used + eventBytes matching ≤ e.budget
  | .send matching => e.attached = true ∧ matching = e.matching crc32c p.frames ∧ matching ≠ []
  | .cut => e.attached = true ∧ e.matching crc32c p.frames ≠ []

/-- A receiver gives bytes back and changes nothing the publisher knows. -/
theorem Publish.At.received {crc32c : List UInt8 → Nat} {p : Publish} {e e' : SubEntry}
    (h : p.At crc32c e) (hr : SubEntry.Received e e') : p.At crc32c e' := by
  have hm : e'.matching crc32c p.frames = e.matching crc32c p.frames := by
    unfold SubEntry.matching
    rw [hr.filter]
  unfold Publish.At at h ⊢
  split
  · trivial
  · rename_i matching heq
    rw [heq] at h
    obtain ⟨ha, hmatch, hne, hle⟩ := h
    have hused := hr.used
    rw [hr.attached, hm, hr.budget]
    exact ⟨ha, hmatch, hne, by omega⟩
  · rename_i matching heq
    rw [heq] at h
    rw [hr.attached, hm]
    exact h
  · rename_i heq
    rw [heq] at h
    rw [hr.attached, hm]
    exact h

theorem Tee.send_since (e : SubEntry) (ev : TeeEvent) : (e.send ev).since = e.since := by
  unfold SubEntry.send
  split <;> rfl

/-- The step lemma of the publisher at a subscription: it stays there, with
the window still to be seen, or goes on. -/
theorem visit_spec {crc32c : List UInt8 → Nat} {p : Publish} {e : SubEntry}
    (hi : e.Inv crc32c p.pc.owed) (hat : p.At crc32c e) (ha : e.attached = true) :
    (Tee.visit crc32c p e).1.since = e.since
      ∧ (match (Tee.visit crc32c p e).2 with
        | some pc => (Tee.visit crc32c p e).1.seen = e.seen
            ∧ (Tee.visit crc32c p e).1.Inv crc32c pc.owed
            ∧ Publish.At crc32c { p with pc } (Tee.visit crc32c p e).1
        | none => (Tee.visit crc32c p e).1.seen = e.seen ++ [(p.seq, p.frames)]
            ∧ (Tee.visit crc32c p e).1.Inv crc32c 0) := by
  obtain ⟨seq, frames, sub, pc⟩ := p
  cases pc with
  | visit =>
    simp only [Tee.visit]
    split
    · rename_i hnone
      refine ⟨rfl, rfl, hi.within, hi.charged, fun hd _ => ?_, fun _ hna => ?_,
        fun hd => ⟨(hi.gone hd).1, (hi.gone hd).2.more _⟩⟩
      · have hskip : e.filter.deliver crc32c (seq, frames) = none := if_pos hnone
        change e.stream = e.filter.deliverable crc32c (e.seen ++ [(seq, frames)])
        rw [TeeFilter.deliverable_snoc, hskip, Option.toList_none, List.append_nil]
        exact hi.whole hd ha
      · exact absurd ha (by rw [show e.attached = false from hna]; decide)
    · rename_i hsome
      split
      · exact ⟨rfl, rfl, hi, ha, hsome⟩
      · rename_i hroom
        exact ⟨rfl, rfl, hi, ha, rfl, hsome, Nat.le_of_not_lt hroom⟩
  | add matching =>
    obtain ⟨-, hmatch, hne, hle⟩ := hat
    refine ⟨rfl, rfl, ⟨hle, fun hd => ?_, hi.whole, hi.cutAt, hi.gone⟩, ha, hmatch, hne⟩
    have hc : e.used = queueBytes (e.hand.toList ++ e.queue) + 0 := hi.charged hd
    change e.used + eventBytes matching = queueBytes (e.hand.toList ++ e.queue)
      + eventBytes matching
    omega
  | send matching =>
    obtain ⟨-, hmatch, hne⟩ := hat
    refine ⟨Tee.send_since e _, ?_⟩
    by_cases hd : e.dropped = true
    · -- nobody is left to receive it, and the send says so
      simp only [Tee.visit, SubEntry.send, if_pos hd]
      exact ⟨rfl, hi.within, fun h => absurd (hd.symm.trans h) (by decide),
        fun h => absurd (hd.symm.trans h) (by decide),
        fun h => absurd (hd.symm.trans h) (by decide), fun _ => ⟨(hi.gone hd).1,
          (hi.gone hd).2.more _⟩⟩
    · have hlive : e.dropped = false := Bool.eq_false_iff.mpr hd
      have hc : e.used = queueBytes (e.hand.toList ++ e.queue) + eventBytes matching :=
        hi.charged hlive
      have hdeliver : e.filter.deliver crc32c (seq, frames)
          = some (.window seq matching) := by
        have hsome : e.matching crc32c frames ≠ [] := fun h => hne (hmatch.trans h)
        rw [hmatch]
        exact if_neg hsome
      simp only [Tee.visit, SubEntry.send, if_neg hd]
      refine ⟨rfl, hi.within, fun _ => ?_, fun _ _ => ?_, fun _ hna => ?_,
        fun h => absurd h hd⟩
      · change e.used = queueBytes (e.hand.toList ++ (e.queue ++ [.window seq matching])) + 0
        rw [← List.append_assoc, queueBytes_append]
        exact hc
      · change e.received ++ e.hand.toList ++ (e.queue ++ [.window seq matching])
          = e.filter.deliverable crc32c (e.seen ++ [(seq, frames)])
        rw [TeeFilter.deliverable_snoc, hdeliver, ← hi.whole hlive ha, ← List.append_assoc]
        rfl
      · have hna : (!e.dropped) = false := hna
        rw [hlive] at hna
        cases hna
  | cut =>
    obtain ⟨-, hne⟩ := hat
    refine ⟨Tee.send_since e _, ?_⟩
    by_cases hd : e.dropped = true
    · simp only [Tee.visit, SubEntry.send, if_pos hd]
      exact ⟨rfl, hi.within, fun h => absurd (hd.symm.trans h) (by decide),
        fun h => absurd (hd.symm.trans h) (by decide),
        fun h => absurd (hd.symm.trans h) (by decide), fun _ => ⟨(hi.gone hd).1,
          (hi.gone hd).2.more _⟩⟩
    · have hlive : e.dropped = false := Bool.eq_false_iff.mpr hd
      simp only [Tee.visit, SubEntry.send, if_neg hd]
      refine ⟨rfl, hi.within, fun _ => ?_, nofun, fun _ _ => ?_,
        fun h => absurd h hd⟩
      · change e.used = queueBytes (e.hand.toList ++ (e.queue ++ [.lagged seq])) + 0
        rw [← List.append_assoc, queueBytes_append]
        exact hi.charged hlive
      · refine ⟨e.seen, (seq, frames), [], rfl, hne, ?_⟩
        change e.received ++ e.hand.toList ++ (e.queue ++ [.lagged seq])
          = e.filter.deliverable crc32c e.seen ++ [.lagged seq]
        rw [← hi.whole hlive ha, ← List.append_assoc]
        rfl

/-! ## The tee -/

namespace Tee

/-- The window the publisher is not yet through with for subscription `i`. -/
def pending (job : Option Publish) (i : Nat) : List (Nat × List Frame2) :=
  match job with
  | some p => if p.sub ≤ i then [(p.seq, p.frames)] else []
  | none => []

/-- What subscription `i` has been charged for and not sent. -/
def owed (job : Option Publish) (i : Nat) : Nat :=
  match job with
  | some p => if p.sub = i then p.pc.owed else 0
  | none => 0

structure SubInv (crc32c : List UInt8 → Nat) (s : Tee) (i : Nat) (e : SubEntry) : Prop where
  since : e.since ≤ s.published.length
  windows : s.published.drop e.since = e.seen ++ pending s.publishing i
  sub : e.Inv crc32c (owed s.publishing i)
  here : ∀ p, s.publishing = some p → p.sub = i → p.At crc32c e

def Inv (crc32c : List UInt8 → Nat) (s : Tee) : Prop :=
  ∀ i e, s.subs[i]? = some e → SubInv crc32c s i e

variable {crc32c : List UInt8 → Nat} {s s' : Tee}

theorem inv_receiver {i : Nat} {f : SubEntry → Option SubEntry} (hi : Inv crc32c s)
    (hf : ∀ e e' n, e.Inv crc32c n → f e = some e' → e'.Inv crc32c n ∧ SubEntry.Received e e')
    (h : s.receiver i f = some s') : Inv crc32c s' := by
  obtain ⟨e, he, h⟩ := Option.bind_eq_some_iff.mp h
  obtain ⟨e', hfe, h⟩ := Option.bind_eq_some_iff.mp h
  cases h
  intro j x hx
  rw [List.getElem?_set] at hx
  split at hx
  · rename_i hij
    subst hij
    obtain ⟨-, hx⟩ := Option.ite_none_right_eq_some.mp hx
    cases hx
    have hsub := hi i e he
    obtain ⟨hinv, hrecv⟩ := hf e e' _ hsub.sub hfe
    refine ⟨?_, ?_, hinv, fun p hp hpi => (hsub.here p hp hpi).received hrecv⟩
    · rw [hrecv.since]
      exact hsub.since
    · rw [hrecv.since, hrecv.seen]
      exact hsub.windows
  · have hsub := hi j x hx
    exact ⟨hsub.since, hsub.windows, hsub.sub, hsub.here⟩

/-- The publisher moves on from a subscription, whose entry is `e'` now. -/
theorem inv_pass {p : Publish} {e e' : SubEntry} (hi : Inv crc32c s) (hp : s.publishing = some p)
    (he : s.subs[p.sub]? = some e) (hsince : e'.since = e.since)
    (hseen : e'.seen = e.seen ++ [(p.seq, p.frames)]) (hsub : e'.Inv crc32c 0) : Inv crc32c { s with
      subs := s.subs.set p.sub e'
      publishing := some { p with sub := p.sub + 1, pc := .visit } } := by
  have howed : ∀ j, owed (some { p with sub := p.sub + 1, pc := .visit }) j = 0 := fun j => by
    unfold owed
    dsimp only
    split <;> rfl
  intro j x hx
  rw [List.getElem?_set] at hx
  split at hx
  · rename_i hij
    subst hij
    obtain ⟨-, hx⟩ := Option.ite_none_right_eq_some.mp hx
    cases hx
    have hold := hi p.sub e he
    have hw := hold.windows
    rw [hp, pending, if_pos le_rfl] at hw
    refine ⟨?_, ?_, ?_, fun q hq _ => ?_⟩
    · rw [hsince]
      exact hold.since
    · dsimp only [pending]
      rw [hsince, hseen, hw, if_neg (by omega), List.append_nil]
    · dsimp only
      rw [howed]
      exact hsub
    · cases hq
      trivial
  · rename_i hij
    have hold := hi j x hx
    have hw := hold.windows
    have ho := hold.sub
    rw [hp] at hw ho
    refine ⟨hold.since, ?_, ?_, fun q hq _ => ?_⟩
    · dsimp only [pending] at hw ⊢
      rw [hw]
      by_cases hle : p.sub ≤ j
      · rw [if_pos hle, if_pos (by omega)]
      · rw [if_neg hle, if_neg (by omega)]
    · dsimp only
      rw [howed]
      rwa [owed, if_neg hij] at ho
    · cases hq
      trivial

theorem inv_stay {p : Publish} {e e' : SubEntry} {pc : VisitPc} (hi : Inv crc32c s)
    (hp : s.publishing = some p) (he : s.subs[p.sub]? = some e) (hsince : e'.since = e.since)
    (hseen : e'.seen = e.seen) (hsub : e'.Inv crc32c pc.owed)
    (hat : Publish.At crc32c { p with pc } e') : Inv crc32c { s with
      subs := s.subs.set p.sub e'
      publishing := some { p with pc } } := by
  intro j x hx
  rw [List.getElem?_set] at hx
  split at hx
  · rename_i hij
    subst hij
    obtain ⟨-, hx⟩ := Option.ite_none_right_eq_some.mp hx
    cases hx
    have hold := hi p.sub e he
    have hw := hold.windows
    rw [hp] at hw
    refine ⟨?_, ?_, ?_, fun q hq _ => ?_⟩
    · rw [hsince]
      exact hold.since
    · rw [hsince, hseen]
      exact hw
    · dsimp only [owed]
      rw [if_pos rfl]
      exact hsub
    · cases hq
      exact hat
  · rename_i hij
    have hold := hi j x hx
    have hw := hold.windows
    have ho := hold.sub
    rw [hp] at hw ho
    refine ⟨hold.since, hw, ?_, fun q hq hqj => ?_⟩
    · dsimp only [owed] at ho ⊢
      rw [if_neg hij] at ho ⊢
      exact ho
    · cases hq
      exact absurd hqj hij

theorem inv_advance {p : Publish} (hi : Inv crc32c s) (hp : s.publishing = some p) :
    Inv crc32c (advance crc32c s p) := by
  unfold advance
  split
  · -- it has been to all of them
    rename_i hnone
    intro j x hx
    have hold := hi j x hx
    have hlt : j < p.sub := by
      obtain ⟨hj, -⟩ := List.getElem?_eq_some_iff.mp hx
      exact Nat.lt_of_lt_of_le hj (List.getElem?_eq_none_iff.mp hnone)
    have hw := hold.windows
    have ho := hold.sub
    rw [hp] at hw ho
    refine ⟨hold.since, ?_, ?_, nofun⟩
    · rwa [pending, if_neg (Nat.not_le_of_lt hlt)] at hw
    · rwa [owed, if_neg (Nat.ne_of_gt hlt)] at ho
  · rename_i e he
    have hsub := hi p.sub e he
    have howed : owed s.publishing p.sub = p.pc.owed := by
      rw [hp]
      exact if_pos rfl
    split
    · rename_i ha
      have hinv := hsub.sub
      rw [howed] at hinv
      obtain ⟨hsince, hcase⟩ := visit_spec hinv (hsub.here p hp rfl) ha
      revert hsince hcase
      generalize visit crc32c p e = out
      obtain ⟨e', pc⟩ := out
      intro hsince hcase
      cases pc with
      | some pc => exact inv_stay hi hp he hsince hcase.1 hcase.2.1 hcase.2.2
      | none => exact inv_pass hi hp he hsince hcase.1 hcase.2
    · rename_i ha
      have hdetached : e.attached = false := Bool.eq_false_iff.mpr ha
      have hvisit : p.pc.owed = 0 := by
        have hat := hsub.here p hp rfl
        unfold Publish.At at hat
        split at hat
        · rename_i heq; rw [heq]; rfl
        · exact absurd hat.1 ha
        · exact absurd hat.1 ha
        · exact absurd hat.1 ha
      have hinv := hsub.sub
      rw [howed, hvisit] at hinv
      exact inv_pass hi hp he rfl rfl (hinv.passed hdetached _)

/-- The step lemma. -/
theorem inv_next {l : TeeStep} (hi : Inv crc32c s) (h : next crc32c s l = some s') :
    Inv crc32c s' := by
  cases l with
  | subscribe filter budget =>
    obtain ⟨hidle, h⟩ := Option.ite_none_left_eq_some.mp h
    cases h
    intro j x hx
    have hnone : s.publishing = none := by simpa using hidle
    rw [List.getElem?_append] at hx
    split at hx
    · have hold := hi j x hx
      exact ⟨hold.since, hold.windows, hold.sub, hold.here⟩
    · obtain rfl := List.mem_singleton.mp (List.mem_of_getElem? hx)
      have hpending : pending s.publishing j = [] := by rw [hnone]; rfl
      have howed : owed s.publishing j = 0 := by rw [hnone]; rfl
      refine ⟨le_rfl, ?_, ?_, fun q hq => ?_⟩
      · rw [hpending]
        exact List.drop_length
      · rw [howed]
        exact .new filter budget _
      · rw [hnone] at hq
        cases hq
  | publish seq frames =>
    obtain ⟨hidle, h⟩ := Option.ite_none_left_eq_some.mp h
    cases h
    intro j x hx
    have hnone : s.publishing = none := by simpa using hidle
    have hold := hi j x hx
    have hw := hold.windows
    have ho := hold.sub
    rw [hnone] at hw ho
    refine ⟨?_, ?_, ?_, fun q hq _ => ?_⟩
    · rw [List.length_append]
      exact Nat.le_trans hold.since (Nat.le_add_right ..)
    · have hw : s.published.drop x.since = x.seen ++ [] := hw
      rw [List.append_nil] at hw
      dsimp only [pending]
      rw [if_pos (Nat.zero_le _), List.drop_append_of_le_length hold.since, hw]
    · have hzero : owed (some ⟨seq, frames, 0, .visit⟩) j = 0 := by
        unfold owed
        dsimp only
        split <;> rfl
      dsimp only
      rw [hzero]
      exact ho
    · cases hq
      trivial
  | advance =>
    obtain ⟨p, hp, rfl⟩ := Option.map_eq_some_iff.mp h
    exact inv_advance hi hp
  | take i => exact inv_receiver hi (fun _ _ _ => SubEntry.take_spec) h
  | settle i => exact inv_receiver hi (fun _ _ _ => SubEntry.settle_spec) h
  | drop i => exact inv_receiver hi (fun _ _ _ => SubEntry.drop_spec) h

theorem inv_run {ls : List TeeStep} (hr : Trace.run (next crc32c) empty ls = some s) :
    Inv crc32c s :=
  Trace.run_invariant (fun _ _ _ hi hn => inv_next hi hn) (fun i e he => by cases he) hr

/-- What a subscription receives, over any run of publishers, receivers and
subscribers. The events its receives returned are the matching frames of a
prefix of the windows published since it subscribed, in order, and then at
most one `Lagged`, which names the first window of the rest, a matching
one. Nothing is lost on the way: when no publish is under way, what was
received, is in a receive's hand or is queued is all the windows, or up to
where the subscription was cut. The bytes it is charged are those on the
way to its receiver, and within its budget. -/
theorem tee_delivery {ls : List TeeStep} {i : Nat} {e : SubEntry}
    (hr : Trace.run (next crc32c) empty ls = some s) (he : s.subs[i]? = some e) :
    e.filter.Delivered crc32c (s.published.drop e.since) e.received
      ∧ e.used ≤ e.budget
      ∧ (e.dropped = false →
        e.used = queueBytes (e.hand.toList ++ e.queue) + owed s.publishing i
          ∧ (s.publishing = none →
            (e.attached = true →
              e.stream = e.filter.deliverable crc32c (s.published.drop e.since))
            ∧ (e.attached = false →
              e.filter.CutAt crc32c (s.published.drop e.since) e.stream))) := by
  have hsub := inv_run hr i e he
  refine ⟨?_, hsub.sub.within, fun hd => ⟨hsub.sub.charged hd, fun hidle => ?_⟩⟩
  · rw [hsub.windows]
    exact hsub.sub.delivered.more _
  · have hseen : s.published.drop e.since = e.seen := by
      rw [hsub.windows, hidle]
      exact List.append_nil _
    rw [hseen]
    exact ⟨hsub.sub.whole hd, hsub.sub.cutAt hd⟩

/-- A subscription with room for one frame, and two windows before its
receiver runs. -/
def twoWindows : List TeeStep :=
  let f : Frame2 := ⟨7, 1, 0, 10, true, true, [], []⟩
  [.subscribe (.tenant 7) 100, .publish 1 [f], .advance, .advance, .advance, .advance,
    .publish 2 [f], .advance, .take 0, .advance, .advance, .settle 0, .take 0, .settle 0]

/-- It receives the first window and is told of the second. -/
theorem tee_delivery_twoWindows :
    ∃ s e, Trace.run (next fun _ => 0) empty twoWindows = some s ∧ s.subs[0]? = some e
      ∧ e.received = [.window 1 [⟨7, 1, 0, 10, true, true, [], []⟩], .lagged 2]
      ∧ e.filter.Delivered (fun _ => 0) (s.published.drop e.since) e.received
      ∧ e.used = queueBytes [] + owed s.publishing 0 := by
  have hr : Trace.run (next fun _ => 0) empty twoWindows = some _ := rfl
  have hd := tee_delivery (i := 0) hr rfl
  exact ⟨_, _, hr, rfl, rfl, hd.1, (hd.2.2 rfl).1⟩

end Tee

end Zou
