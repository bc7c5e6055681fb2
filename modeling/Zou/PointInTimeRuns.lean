import Zou.PointInTime

/-!
# Which update a lookup returns

The snapshots of a run are those of its updates, each the first to land
under its epoch and second. Epochs go up with the swaps. Where the clocks
of the updates do too, the newest snapshot at or before a time is the one
under the epoch and second of the last update at or before it that has one.
-/

namespace Zou.PointInTime

open Sys

variable {V : Type} {content : V → Manifest}

/-! ## What a run publishes -/

/-- An update that changed the state, as its swap published it. -/
structure Update where
  epoch : Nat
  now : Nat
  manifest : Manifest
  deriving DecidableEq, Repr

/-- History copies carry no lease. -/
def Update.snapshot (u : Update) : Manifest := { u.manifest with lease := none }

inductive Event where
  | published (u : Update)
  /-- The snapshot of an update landed, or met one that was there. -/
  | recorded (u : Update)
  /-- The caller did not hear of the swap, or the snapshot's put failed. -/
  | missed (u : Update)
  deriving DecidableEq, Repr

def Event.update? : Event → Option Update
  | .published u => some u
  | _ => none

def Event.recorded? : Event → Option Update
  | .recorded u => some u
  | _ => none

def Event.missed? : Event → Option Update
  | .missed u => some u
  | _ => none

/-- The updates of a run, in the order of their swaps. -/
def updates (log : List Event) : List Update := log.filterMap Event.update?

def recorded (log : List Event) : List Update := log.filterMap Event.recorded?

def missed (log : List Event) : List Update := log.filterMap Event.missed?

/-- The update whose snapshot was the first to land under an epoch and second. -/
def firstAt (log : List Event) (epoch now : Nat) : Option Update :=
  (recorded log).find? fun u => u.epoch = epoch ∧ u.now = now

/-- The last update at or before a time under whose epoch and second a
snapshot landed. -/
def lastKept (log : List Event) (unixTs : Nat) : Option Update :=
  ((updates log).filter fun u => u.now ≤ unixTs && (firstAt log u.epoch u.now).isSome).getLast?

/-- A put that lands is heard. -/
def heard : Cell.Io V → Bool
  | .lost _ => false
  | _ => true

theorem heard_reply (tok : V) : heard (.reply tok) = true := rfl

theorem heard_lost (tok : V) : ¬heard (.lost tok) = true := Bool.false_ne_true

section

variable [DecidableEq V]

/-- What a step adds to the log. -/
def events (s : Sys V) : Label V → List Event
  | .put t io =>
    match s.pcs t with
    | .swap _ _ (.update now f) m v =>
      if lands io ∧ s.cell.map Prod.snd = some v ∧ publishes f m then
        let u : Update := ⟨m.epoch, now, updated f now m⟩
        if heard io then [.published u] else [.published u, .missed u]
      else []
    | _ => []
  | .snapshot t ack =>
    match s.pcs t with
    | .history _ h now =>
      let u : Update := ⟨h.manifest.epoch, now, h.manifest⟩
      if ack = .fail then [.missed u] else [.recorded u]
    | _ => []
  | _ => []

def nextLogged (content : V → Manifest) :
    Sys V × List Event → Label V → Option (Sys V × List Event) :=
  Trace.logged (next content) events

end

/-! ## The second of a holder's last snapshot -/

/-- The handle a call carries, until it has ended. -/
def carried : Pc V → Option (HeldLease V)
  | .renewSwap _ h _ _ => some h
  | .reread _ h _ => some h
  | .swap _ h _ _ _ => some h
  | .history _ h _ => some h
  | _ => none

/-- The snapshot that a thread is about to put, as a handle and its second. -/
def putting : Pc V → Option (HeldLease V × Nat)
  | .history _ h now => some (h, now)
  | _ => none

/-- A snapshot is there under the second that a handle remembers. -/
def Stamped (history : Nat × Nat → Option Manifest) (h : HeldLease V) : Prop :=
  h.lastHistoryUnix = 0 ∨ (history (h.epoch, h.lastHistoryUnix)).isSome

/-- The snapshot of an update is about to be put. -/
def Pending (s : Sys V) (u : Update) : Prop :=
  ∃ t h, putting (s.pcs t) = some (h, u.now) ∧ u = ⟨h.manifest.epoch, u.now, h.manifest⟩

structure Trail (s : Sys V) (log : List Event) : Prop where
  stored : ∀ u ∈ updates log, ∃ m v, s.cell = some (m, v) ∧ u.epoch ≤ m.epoch
  epochs : (updates log).Pairwise (·.epoch ≤ ·.epoch)
  puts : ∀ u ∈ recorded log, u ∈ updates log
  history : ∀ epoch now, s.history (epoch, now) = (firstAt log epoch now).map Update.snapshot
  pending : ∀ t h now, putting (s.pcs t) = some (h, now) →
    (⟨h.manifest.epoch, now, h.manifest⟩ : Update) ∈ updates log
  handles : ∀ h ∈ s.handles, Stamped s.history h
  pcs : ∀ t h, carried (s.pcs t) = some h → Stamped s.history h
  ended : ∀ u ∈ updates log, u.now = 0 ∨ (s.history (u.epoch, u.now)).isSome ∨ Pending s u
    ∨ u ∈ missed log

theorem Stamped.mono {history history' : Nat × Nat → Option Manifest} {h : HeldLease V}
    (hkept : ∀ key, (history key).isSome → (history' key).isSome) (hs : Stamped history h) :
    Stamped history' h :=
  hs.imp id (hkept _)

/-- The step takes the store no epoch back. -/
def Onward (s s' : Sys V) : Prop :=
  ∀ m v, s.cell = some (m, v) → ∃ m' v', s'.cell = some (m', v') ∧ m.epoch ≤ m'.epoch

variable {s s' : Sys V}

theorem Onward.of_eq (h : s'.cell = s.cell) : Onward s s' :=
  fun m v hcell => ⟨m, v, h.trans hcell, le_rfl⟩

variable {log : List Event}

theorem Trail.quiet (h : Trail s log) (hhistory : s'.history = s.history) (hcell : Onward s s')
    (hpcs : ∀ t, putting (s'.pcs t) = putting (s.pcs t))
    (hhandles : ∀ hl ∈ s'.handles, Stamped s.history hl)
    (hcarried : ∀ t hl, carried (s'.pcs t) = some hl → Stamped s.history hl) : Trail s' log where
  stored u hu := by
    obtain ⟨m, v, hm, hle⟩ := h.stored u hu
    obtain ⟨m', v', hm', hle'⟩ := hcell m v hm
    exact ⟨m', v', hm', Nat.le_trans hle hle'⟩
  epochs := h.epochs
  puts := h.puts
  history := by
    rw [hhistory]
    exact h.history
  pending t hl now hpc := h.pending t hl now ((hpcs t).symm.trans hpc)
  handles := by
    rw [hhistory]
    exact hhandles
  pcs := by
    rw [hhistory]
    exact hcarried
  ended u hu := by
    rw [hhistory]
    refine (h.ended u hu).imp id (Or.imp id (Or.imp (fun hp => ?_) id))
    obtain ⟨t, hl, hpc, heq⟩ := hp
    exact ⟨t, hl, (hpcs t).trans hpc, heq⟩

variable {t : Nat} {pc : Pc V}

theorem putting_goto (hpc : putting pc = putting (s.pcs t))
    (u : Nat) : putting ((s.goto t pc).pcs u) = putting (s.pcs u) := by
  by_cases hu : u = t
  · rw [hu, goto_pcs_self, hpc]
  · rw [goto_pcs_ne s pc hu]

variable {P : HeldLease V → Prop}

theorem carried_goto
    (hnew : ∀ hl, carried pc = some hl → P hl) (hold : ∀ u hl, carried (s.pcs u) = some hl → P hl) :
    ∀ u hl, carried ((s.goto t pc).pcs u) = some hl → P hl := by
  intro u hl hu
  by_cases heq : u = t
  · rw [heq, goto_pcs_self] at hu
    exact hnew hl hu
  · rw [goto_pcs_ne s pc heq] at hu
    exact hold u hl hu

theorem Trail.goto (h : Trail s log) (hpc : putting pc = putting (s.pcs t))
    (hcarried : ∀ hl, carried pc = some hl → Stamped s.history hl) : Trail (s.goto t pc) log :=
  h.quiet rfl (.of_eq rfl) (putting_goto hpc) h.handles (carried_goto hcarried h.pcs)

/-- What a call goes on to be puts no snapshot, with a handle of `P` or none. -/
structure Plain (P : HeldLease V → Prop) (pc : Pc V) : Prop where
  putting : putting pc = none
  carried : ∀ hl, carried pc = some hl → P hl

theorem plain_done (r : Except LeaseError Unit) : Plain P (.done r) := ⟨rfl, fun hl h => by cases h⟩

theorem plain_takeFailed (w : Option Wait) (e : LeaseError) : Plain P (takeFailed w e) := by
  unfold takeFailed
  split
  · split
    · exact plain_done _
    · exact ⟨rfl, fun hl h => by cases h⟩
  · split
    · exact plain_done _
    · exact ⟨rfl, fun hl h => by cases h⟩
  · exact plain_done _

theorem plain_start {c : Call} (h : s.start c = some pc) : Plain (· ∈ s.handles) pc := by
  cases c with
  | take a =>
    cases h
    exact ⟨rfl, fun hl h => by cases h⟩
  | takeover holder endpoint ttl limit now =>
    cases h
    exact ⟨rfl, fun hl h => by cases h⟩
  | through i op =>
    obtain ⟨hl, hget, rfl⟩ := Option.map_eq_some_iff.mp h
    have hcarried : ∀ hl', some hl = some hl' → hl' ∈ s.handles := by
      rintro hl' heq
      exact Option.some.inj heq ▸ List.mem_of_getElem? hget
    cases op with
    | renew ttl now =>
      dsimp only
      split
      · exact ⟨rfl, hcarried⟩
      · exact ⟨rfl, hcarried⟩
    | release => exact ⟨rfl, hcarried⟩
    | update now f => exact ⟨rfl, hcarried⟩

theorem plain_afterGet {cell : Option (Manifest × V)} {pc' : Pc V}
    (h : afterGet cell pc = some pc') :
    putting pc = none ∧ Plain (fun hl => carried pc = some hl) pc' := by
  cases pc with
  | takeGet a w =>
    cases h
    refine ⟨rfl, ?_⟩
    split
    · exact plain_takeFailed w _
    · split
      · exact plain_takeFailed w _
      · split
        · exact plain_takeFailed w _
        · exact ⟨rfl, fun hl h => by cases h⟩
  | reread i hl op =>
    cases h
    refine ⟨rfl, ?_⟩
    split
    · exact plain_done _
    · split
      · exact plain_done _
      · split
        · exact ⟨rfl, fun hl h => h⟩
        · exact plain_done _
  | _ => cases h

variable {m : Manifest} {v : V}

theorem plain_swapFailed (e : LeaseError) (h : request pc = some (m, v)) :
    putting pc = none ∧ Plain (fun hl => carried pc = some hl) (swapFailed e pc) := by
  cases pc with
  | takeSwap a w m₀ v₀ => exact ⟨rfl, plain_takeFailed w e⟩
  | renewSwap i hl ttl now =>
    refine ⟨rfl, ?_⟩
    dsimp only [swapFailed]
    split
    · exact ⟨rfl, fun hl h => h⟩
    · exact plain_done _
  | swap i hl op m₀ v₀ => exact ⟨rfl, plain_done _⟩
  | _ => cases h

theorem Trail.plain (h : Trail s log) (hold : putting (s.pcs t) = none)
    (hpc : Plain (Stamped s.history) pc) : Trail (s.goto t pc) log :=
  h.goto (hpc.putting.trans hold.symm) hpc.carried

@[simp] theorem updates_append (log es : List Event) :
    updates (log ++ es) = updates log ++ updates es := List.filterMap_append

@[simp] theorem recorded_append (log es : List Event) :
    recorded (log ++ es) = recorded log ++ recorded es := List.filterMap_append

@[simp] theorem missed_append (log es : List Event) :
    missed (log ++ es) = missed log ++ missed es := List.filterMap_append

theorem firstAt_append {es : List Event} (hes : recorded es = []) (epoch now : Nat) :
    firstAt (log ++ es) epoch now = firstAt log epoch now := by
  unfold firstAt
  rw [recorded_append, hes, List.append_nil]

theorem Trail.published {es : List Event} {m' : Manifest}
    {tok : V} {u : Update} (h : Trail s log) (hold : putting (s.pcs t) = none)
    (hcell : s.cell = some (m, v)) (hcell' : s'.cell = some (m', tok)) (hm : m'.epoch = m.epoch)
    (hu : u.epoch = m.epoch) (hhistory : s'.history = s.history) (hes : updates es = [u])
    (hrecorded : recorded es = []) (hpcs : ∀ w, w ≠ t → s'.pcs w = s.pcs w)
    (hput : ∀ hl now, putting (s'.pcs t) = some (hl, now) →
      u = ⟨hl.manifest.epoch, now, hl.manifest⟩)
    (hhandles : ∀ hl ∈ s'.handles, Stamped s.history hl)
    (hcarried : ∀ w hl, carried (s'.pcs w) = some hl → Stamped s.history hl)
    (hended : u.now = 0 ∨ (s.history (u.epoch, u.now)).isSome ∨ Pending s' u ∨ u ∈ missed es) :
    Trail s' (log ++ es) where
  stored w hw := by
    refine ⟨m', tok, hcell', ?_⟩
    rw [updates_append, hes, List.mem_append, List.mem_singleton] at hw
    rcases hw with hw | rfl
    · obtain ⟨m₀, v₀, hm₀, hle⟩ := h.stored w hw
      rw [hcell] at hm₀
      cases hm₀
      exact hm ▸ hle
    · rw [hm, hu]
  epochs := by
    rw [updates_append, hes]
    refine List.pairwise_append.mpr ⟨h.epochs, List.pairwise_singleton _ _, fun w hw x hx => ?_⟩
    obtain ⟨m₀, v₀, hm₀, hle⟩ := h.stored w hw
    rw [hcell] at hm₀
    cases hm₀
    rw [List.mem_singleton.mp hx, hu]
    exact hle
  puts w hw := by
    rw [recorded_append, hrecorded, List.append_nil] at hw
    rw [updates_append]
    exact List.mem_append_left _ (h.puts w hw)
  history epoch now := by
    rw [hhistory, firstAt_append hrecorded, h.history]
  pending w hl now hpc := by
    rw [updates_append, hes, List.mem_append, List.mem_singleton]
    by_cases hw : w = t
    · rw [hw] at hpc
      exact .inr (hput hl now hpc).symm
    · rw [hpcs w hw] at hpc
      exact .inl (h.pending w hl now hpc)
  handles := by
    rw [hhistory]
    exact hhandles
  pcs := by
    rw [hhistory]
    exact hcarried
  ended w hw := by
    rw [hhistory, missed_append]
    rw [updates_append, hes, List.mem_append, List.mem_singleton] at hw
    rcases hw with hw | rfl
    · refine (h.ended w hw).imp id (Or.imp id (Or.imp ?_ (List.mem_append_left _)))
      rintro ⟨x, hl, hpc, heq⟩
      refine ⟨x, hl, ?_, heq⟩
      rw [hpcs x, hpc]
      rintro rfl
      rw [hold] at hpc
      cases hpc
    · exact hended.imp id (Or.imp id (Or.imp id (List.mem_append_right _)))

variable {now : Nat}

theorem Trail.put {h₀ : HeldLease V}
    (h : Trail s log) (hpc : putting (s.pcs t) = some (h₀, now))
    (hhistory : s'.history = Function.update s.history (h₀.manifest.epoch, now)
      (some ((s.history (h₀.manifest.epoch, now)).getD { h₀.manifest with lease := none })))
    (hcell : s'.cell = s.cell) (hdone : putting (s'.pcs t) = none)
    (hpcs : ∀ w, w ≠ t → s'.pcs w = s.pcs w)
    (hhandles : ∀ hl ∈ s'.handles, Stamped s'.history hl)
    (hcarried : ∀ hl, carried (s'.pcs t) = some hl → Stamped s'.history hl) :
    Trail s' (log ++ [.recorded ⟨h₀.manifest.epoch, now, h₀.manifest⟩]) := by
  let u : Update := ⟨h₀.manifest.epoch, now, h₀.manifest⟩
  have hmem : u ∈ updates log := h.pending t h₀ now hpc
  have hes : updates [.recorded u] = [] := rfl
  have hkept : ∀ key, (s.history key).isSome → (s'.history key).isSome := by
    intro key hkey
    rw [hhistory, Function.update_apply]
    split
    · rfl
    · exact hkey
  have hhere : (s'.history (u.epoch, u.now)).isSome := by
    rw [hhistory, Function.update_self]
    rfl
  refine ⟨fun w hw => ?_, ?_, fun w hw => ?_, fun epoch now' => ?_, fun w hl now' hw => ?_,
    hhandles, fun w hl hw => ?_, fun w hw => ?_⟩
  · rw [updates_append, hes, List.append_nil] at hw
    rw [hcell]
    exact h.stored w hw
  · rw [updates_append, hes, List.append_nil]
    exact h.epochs
  · rw [updates_append, hes, List.append_nil]
    rw [recorded_append] at hw
    rcases List.mem_append.mp hw with hw | hw
    · exact h.puts w hw
    · exact List.mem_singleton.mp hw ▸ hmem
  · have hfirst : firstAt (log ++ [.recorded u]) epoch now'
        = (firstAt log epoch now').or (if u.epoch = epoch ∧ u.now = now' then some u else none) := by
      unfold firstAt
      have hone : recorded [.recorded u] = [u] := rfl
      rw [recorded_append, List.find?_append, hone, List.find?_singleton]
      simp only [decide_eq_true_eq]
    rw [hfirst, hhistory, Function.update_apply, h.history u.epoch u.now, h.history epoch now']
    by_cases hkey : u.epoch = epoch ∧ u.now = now'
    · obtain ⟨rfl, rfl⟩ := hkey
      rw [if_pos rfl, if_pos ⟨rfl, rfl⟩]
      cases firstAt log u.epoch u.now with
      | none => rfl
      | some w => rfl
    · rw [if_neg fun heq => hkey ⟨(Prod.mk.inj heq).1.symm, (Prod.mk.inj heq).2.symm⟩, if_neg hkey,
        Option.or_none]
  · rw [updates_append, hes, List.append_nil]
    by_cases hwt : w = t
    · rw [hwt, hdone] at hw
      cases hw
    · rw [hpcs w hwt] at hw
      exact h.pending w hl now' hw
  · by_cases hwt : w = t
    · exact hcarried hl (hwt ▸ hw)
    · rw [hpcs w hwt] at hw
      exact (h.pcs w hl hw).mono hkept
  · rw [updates_append, hes, List.append_nil] at hw
    rw [missed_append]
    refine (h.ended w hw).imp id fun hrest => ?_
    rcases hrest with hsome | ⟨x, hl, hx, heq⟩ | hmissed
    · exact .inl (hkept _ hsome)
    · by_cases hxt : x = t
      · -- The update whose snapshot this is.
        rw [hxt, hpc] at hx
        obtain ⟨rfl, hnow⟩ := Prod.mk.inj (Option.some.inj hx)
        have hwu : w = u := by rw [heq, ← hnow]
        exact .inl (hwu ▸ hhere)
      · exact .inr (.inl ⟨x, hl, by rw [hpcs x hxt, hx], heq⟩)
    · exact .inr (.inr (List.mem_append_left _ hmissed))

theorem Trail.lose {h₀ : HeldLease V} (h : Trail s log) (hpc : putting (s.pcs t) = some (h₀, now)) :
    Trail (s.goto t (.done (.ok ())))
      (log ++ [.missed ⟨h₀.manifest.epoch, now, h₀.manifest⟩]) := by
  let u : Update := ⟨h₀.manifest.epoch, now, h₀.manifest⟩
  have hes : updates [.missed u] = [] := rfl
  refine ⟨fun w hw => ?_, ?_, fun w hw => ?_, fun epoch now' => ?_, fun w hl now' hw => ?_,
    h.handles, ?_, fun w hw => ?_⟩
  · rw [updates_append, hes, List.append_nil] at hw
    exact h.stored w hw
  · rw [updates_append, hes, List.append_nil]
    exact h.epochs
  · rw [updates_append, hes, List.append_nil]
    rw [recorded_append] at hw
    exact h.puts w ((List.append_nil _).subst hw)
  · rw [firstAt_append rfl]
    exact h.history epoch now'
  · rw [updates_append, hes, List.append_nil]
    by_cases hwt : w = t
    · rw [hwt, goto_pcs_self] at hw
      cases hw
    · rw [goto_pcs_ne s _ hwt] at hw
      exact h.pending w hl now' hw
  · exact carried_goto (plain_done _).carried h.pcs
  · rw [updates_append, hes, List.append_nil] at hw
    rw [missed_append]
    refine (h.ended w hw).imp id (Or.imp id fun hrest => ?_)
    rcases hrest with ⟨x, hl, hx, heq⟩ | hmissed
    · by_cases hxt : x = t
      · rw [hxt, hpc] at hx
        obtain ⟨rfl, hnow⟩ := Prod.mk.inj (Option.some.inj hx)
        have hwu : w = u := by rw [heq, ← hnow]
        exact .inr (List.mem_append_right _ (hwu ▸ List.mem_cons_self))
      · exact .inl ⟨x, hl, by rw [goto_pcs_ne s _ hxt, hx], heq⟩
    · exact .inr (List.mem_append_left _ hmissed)

/-! ## Every step -/

variable [DecidableEq V]

omit [DecidableEq V] in
theorem Stamped.written {history : Nat × Nat → Option Manifest} {h : HeldLease V} (op : Op)
    (m : Manifest) (v : V) (hs : Stamped history h) : Stamped history (op.written h m v) := by
  cases op with
  | renew ttl now => exact hs
  | release => exact hs
  | update now f => exact hs

omit [DecidableEq V] in
theorem Trail.stampedSet (h : Trail s log) {i : Nat} {hl : HeldLease V}
    (hs : Stamped s.history hl) : ∀ x ∈ s.handles.set i hl, Stamped s.history x := by
  intro x hx
  rcases List.mem_or_eq_of_mem_set hx with hold | rfl
  · exact h.handles x hold
  · exact hs

variable {io : Cell.Io V}

section Update

variable {i : Nat} {hl : HeldLease V} {f : Mutation} {tok : V}

theorem events_update (hpc : s.pcs t = .swap i hl (.update now f) m v) (hcell : s.cell = some (m, v))
    (hlands : lands io = true) : events s (.put t io) = if publishes f m then
        if heard io then [.published ⟨m.epoch, now, updated f now m⟩]
        else [.published ⟨m.epoch, now, updated f now m⟩, .missed ⟨m.epoch, now, updated f now m⟩]
      else [] := by
  dsimp only [events]
  rw [hpc]
  dsimp only
  rw [hcell]
  by_cases hpub : publishes f m = true
  · rw [if_pos ⟨hlands, rfl, hpub⟩, if_pos hpub]
  · rw [if_neg fun hall => hpub hall.2.2, if_neg hpub]

/-- The caller hears, and puts a snapshot unless it has put one this second. -/
theorem Trail.updateHeard (h : Trail s log) (hpc : s.pcs t = .swap i hl (.update now f) m v)
    (hepoch : m.epoch = hl.epoch) (hcell : s.cell = some (m, v)) :
    Trail (landed { s with cell := some (updated f now m, tok) } t tok (s.pcs t))
      (log ++ events s (.put t (.reply tok))) := by
  have hold : putting (s.pcs t) = none := by
    rw [hpc]
    rfl
  have hstamped : Stamped s.history hl := h.pcs t hl (by rw [hpc]; rfl)
  let u : Update := ⟨m.epoch, now, updated f now m⟩
  let hl' := (Op.update now f).written hl (updated f now m) tok
  have hwritten : Stamped s.history hl' := hstamped.written _ _ _
  rw [events_update hpc hcell rfl, hpc]
  let next : Pc V := if publishes f m ∧ hl.lastHistoryUnix ≠ now then .history i hl' now
    else .done (.ok ())
  have hcarried : ∀ x, carried next = some x → Stamped s.history x := by
    intro x hx
    by_cases hput : publishes f m ∧ hl.lastHistoryUnix ≠ now
    · simp only [next, if_pos hput] at hx
      exact Option.some.inj hx ▸ hwritten
    · simp only [next, if_neg hput] at hx
      cases hx
  have hgoto : landed { s with cell := some (updated f now m, tok) } t tok
      (.swap i hl (.update now f) m v)
      = Sys.goto { s with cell := some (updated f now m, tok), handles := s.handles.set i hl' } t
        next := rfl
  rw [hgoto]
  by_cases hpub : publishes f m = true
  · rw [if_pos hpub, if_pos (heard_reply tok)]
    refine h.published (u := u) hold hcell rfl (updated_epoch f now m) rfl rfl rfl rfl
      (fun w hw => goto_pcs_ne _ _ hw) (fun x now' hx => ?_) (h.stampedSet hwritten)
      (carried_goto hcarried h.pcs) ?_
    · rw [goto_pcs_self] at hx
      by_cases hput : publishes f m ∧ hl.lastHistoryUnix ≠ now
      · simp only [next, if_pos hput, putting] at hx
        obtain ⟨rfl, rfl⟩ := Prod.mk.inj (Option.some.inj hx)
        exact congrArg (fun e => (⟨e, now, updated f now m⟩ : Update))
          (updated_epoch f now m).symm
      · simp only [next, if_neg hput, putting] at hx
        cases hx
    · by_cases hlast : hl.lastHistoryUnix = now
      · have hkey : (hl.epoch, hl.lastHistoryUnix) = (u.epoch, u.now) :=
          Prod.ext hepoch.symm hlast
        rcases hstamped with hzero | hsome
        · exact .inl (hlast.symm.trans hzero)
        · exact .inr (.inl (hkey ▸ hsome))
      · refine .inr (.inr (.inl ⟨t, hl', ?_, ?_⟩))
        · rw [goto_pcs_self]
          simp only [next, if_pos (And.intro hpub hlast), putting]
          rfl
        · exact congrArg (fun e => (⟨e, now, updated f now m⟩ : Update))
            (updated_epoch f now m).symm
  · rw [if_neg hpub, List.append_nil]
    have hnext : next = .done (.ok ()) := if_neg fun hput => hpub hput.1
    refine h.quiet rfl (fun m₀ v₀ hm₀ => ⟨updated f now m, tok, rfl, ?_⟩) (fun w => ?_)
      (h.stampedSet hwritten) (carried_goto hcarried h.pcs)
    · rw [hcell] at hm₀
      cases hm₀
      exact Nat.le_of_eq (updated_epoch f now m).symm
    · exact putting_goto (s := { s with
        cell := some (updated f now m, tok), handles := s.handles.set i hl' })
        (by rw [hnext, hold]; rfl) w

/-- The caller is told that the swap failed. -/
theorem Trail.updateLost (h : Trail s log) (hpc : s.pcs t = .swap i hl (.update now f) m v)
    (hcell : s.cell = some (m, v)) :
    Trail (Sys.goto { s with cell := some (updated f now m, tok) } t (swapFailed .store (s.pcs t)))
      (log ++ events s (.put t (.lost tok))) := by
  have hold : putting (s.pcs t) = none := by
    rw [hpc]
    rfl
  let u : Update := ⟨m.epoch, now, updated f now m⟩
  rw [events_update hpc hcell rfl, hpc]
  have hdone : swapFailed .store (.swap i hl (.update now f) m v) = .done (.error .store) := rfl
  rw [hdone]
  by_cases hpub : publishes f m = true
  · rw [if_pos hpub, if_neg (heard_lost tok)]
    refine h.published (u := u) hold hcell rfl (updated_epoch f now m) rfl rfl rfl rfl
      (fun w hw => goto_pcs_ne _ _ hw) (fun x now' hx => ?_) h.handles
      (carried_goto (plain_done _).carried h.pcs)
      (.inr (.inr (.inr List.mem_cons_self)))
    rw [goto_pcs_self] at hx
    cases hx
  · rw [if_neg hpub, List.append_nil]
    refine h.quiet rfl (fun m₀ v₀ hm₀ => ⟨updated f now m, tok, rfl, ?_⟩) (fun w => ?_)
      h.handles (carried_goto (plain_done _).carried h.pcs)
    · rw [hcell] at hm₀
      cases hm₀
      exact Nat.le_of_eq (updated_epoch f now m).symm
    · exact putting_goto (s := { s with cell := some (updated f now m, tok) })
        (by exact hold.symm) w

theorem Trail.update (h : Trail s log) (tok : V)
    (hpc : s.pcs t = .swap i hl (.update now f) m v) (hepoch : m.epoch = hl.epoch)
    (hcell : s.cell = some (m, v))
    (hs' : (io = .reply tok
          ∧ s' = landed { s with cell := some (updated f now m, tok) } t tok (s.pcs t))
        ∨ (io = .lost tok ∧ s' = Sys.goto { s with cell := some (updated f now m, tok) } t
          (swapFailed .store (s.pcs t)))) : Trail s' (log ++ events s (.put t io)) := by
  rcases hs' with ⟨rfl, rfl⟩ | ⟨rfl, rfl⟩
  · exact h.updateHeard hpc hepoch hcell
  · exact h.updateLost hpc hcell

end Update

omit [DecidableEq V] in
theorem Onward.put {m' : Manifest} {tok : V} (hcell : s.cell = some (m, v))
    (hcell' : s'.cell = some (m', tok)) (hle : m.epoch ≤ m'.epoch) : Onward s s' := by
  intro m₀ v₀ hm₀
  rw [hcell] at hm₀
  cases hm₀
  exact ⟨m', tok, hcell', hle⟩

omit [DecidableEq V] in
/-- A swap of a call that is no update lands and its caller hears. -/
theorem Trail.landed {tok : V} (hi : Inv content s) (h : Trail s log)
    (hreq : request (s.pcs t) = some (m, v)) (hcell : s.cell = some (content v, v))
    (hnot : ∀ i hl now f m₀ v₀, s.pcs t ≠ .swap i hl (.update now f) m₀ v₀) :
    Trail (Sys.landed { s with cell := some (m, tok) } t tok (s.pcs t)) log := by
  have hle := request_epoch (hi.pcs t) hreq
  have honward : ∀ {s' : Sys V}, s'.cell = some (m, tok) → Onward s s' :=
    fun hcell' => .put hcell hcell' hle
  cases hpc : s.pcs t with
  | takeSwap a w m₀ v₀ =>
    refine h.quiet rfl (honward rfl) (fun u => ?_) (fun x hx => ?_) ?_
    · exact putting_goto (s := { s with
        cell := some (m, tok), handles := s.handles ++ [a.heldLease m₀ tok]
        takes := s.takes ++ [(a.grant m₀).epoch] }) (by rw [hpc]; rfl) u
    · rcases List.mem_append.mp hx with hold | hnew
      · exact h.handles x hold
      · exact List.mem_singleton.mp hnew ▸ .inl rfl
    · exact carried_goto (plain_done _).carried h.pcs
  | renewSwap i hl ttl now =>
    have hstamped : Stamped s.history hl := h.pcs t hl (by rw [hpc]; rfl)
    refine h.quiet rfl (honward rfl) (fun u => ?_) ?_ ?_
    · exact putting_goto (s := { s with
        cell := some (m, tok)
        handles := s.handles.set i
          ((Op.renew ttl now).written hl (extendLease ttl now hl.manifest) tok) })
        (by rw [hpc]; rfl) u
    · exact h.stampedSet (hstamped.written _ _ _)
    · exact carried_goto (plain_done _).carried h.pcs
  | swap i hl op m₀ v₀ =>
    have hstamped : Stamped s.history hl := h.pcs t hl (by rw [hpc]; rfl)
    cases op with
    | update now f => exact absurd hpc (hnot i hl now f m₀ v₀)
    | renew ttl now =>
      refine h.quiet rfl (honward rfl) (fun u => ?_) ?_ ?_
      · exact putting_goto (s := { s with
          cell := some (m, tok)
          handles := s.handles.set i
            ((Op.renew ttl now).written hl ((Op.renew ttl now).edit m₀) tok) })
          (by rw [hpc]; rfl) u
      · exact h.stampedSet (hstamped.written _ _ _)
      · exact carried_goto (plain_done _).carried h.pcs
    | release =>
      refine h.quiet rfl (honward rfl) (fun u => ?_) ?_ ?_
      · exact putting_goto (s := { s with
          cell := some (m, tok)
          handles := s.handles.set i (Op.release.written hl (Op.release.edit m₀) tok) })
          (by rw [hpc]; rfl) u
      · exact h.stampedSet (hstamped.written _ _ _)
      · exact carried_goto (plain_done _).carried h.pcs
  | _ =>
    rw [hpc] at hreq
    cases hreq

theorem events_idle (hreq : request (s.pcs t) = some (m, v))
    (h : io = .fail ∨ s.cell.map Prod.snd ≠ some v) : events s (.put t io) = [] := by
  dsimp only [events]
  split
  · rename_i i hl now f m₀ v₀ hpc
    rw [hpc] at hreq
    cases hreq
    refine if_neg fun hall => ?_
    rcases h with rfl | hne
    · cases hall.1
    · exact hne hall.2.1
  · rfl

theorem events_not_update (hnot : ∀ i hl now f m₀ v₀, s.pcs t ≠ .swap i hl (.update now f) m₀ v₀) :
    events s (.put t io) = [] := by
  dsimp only [events]
  split
  · rename_i i hl now f m₀ v₀ hpc
    exact absurd hpc (hnot i hl now f m₀ v₀)
  · rfl

theorem Trail.begin {c : Call} (h : Trail s log)
    (hn : next content s (.begin t c) = some s') : Trail s' log := by
  have hstart : putting (s.pcs t) = none → (s.start c).map (s.goto t) = some s' →
      Trail s' log := by
    intro hold hr
    obtain ⟨pc, hpc, rfl⟩ := Option.map_eq_some_iff.mp hr
    have hplain := plain_start hpc
    exact h.plain hold ⟨hplain.putting, fun x hx => h.handles x (hplain.carried x hx)⟩
  simp only [next] at hn
  split at hn
  · rename_i heq
    exact hstart (by rw [heq]; rfl) hn
  · rename_i heq
    exact hstart (by rw [heq]; rfl) hn
  · cases hn

theorem Trail.clock (h : Trail s log)
    (hn : next content s (.clock t now) = some s') : Trail s' log := by
  simp only [next] at hn
  split at hn
  · rename_i w heq
    cases hn
    exact h.plain (by rw [heq]; rfl) ⟨rfl, fun x hx => by cases hx⟩
  · cases hn

theorem Trail.got {ok : Bool} (h : Trail s log)
    (hn : next content s (.get t ok) = some s') : Trail s' log := by
  simp only [next] at hn
  split at hn
  · obtain ⟨pc, hpc, rfl⟩ := Option.map_eq_some_iff.mp hn
    obtain ⟨hold, hplain⟩ := plain_afterGet hpc
    exact h.plain hold ⟨hplain.putting, fun x hx => h.pcs t x (hplain.carried x hx)⟩
  · obtain ⟨pc, hpc, rfl⟩ := Option.map_eq_some_iff.mp hn
    exact h.plain (plain_afterGet hpc).1 (plain_done _)

/-- A put: of an update, of another call, or one that changes nothing. -/
theorem Trail.putNext (h : Trail s log) (hi : Inv content s)
    (hn : next content s (.put t io) = some s') : Trail s' (log ++ events s (.put t io)) := by
  obtain ⟨⟨m, v⟩, hreq, hn⟩ := Option.bind_eq_some_iff.mp hn
  obtain ⟨⟨cell, r⟩, hput, hn⟩ := Option.bind_eq_some_iff.mp hn
  have hfailed : ∀ e, Plain (Stamped s.history) (swapFailed e (s.pcs t)) := by
    intro e
    obtain ⟨-, hplain⟩ := plain_swapFailed e hreq
    exact ⟨hplain.putting, fun x hx => h.pcs t x (hplain.carried x hx)⟩
  have hold : putting (s.pcs t) = none := (plain_swapFailed .store hreq).1
  rcases Cell.putIfMatch_swap hput with ⟨tok, hexp, rfl, htok, hr⟩ | ⟨rfl, hr, hidle⟩
  · obtain ⟨⟨m₀, v₀⟩, hcell, rfl⟩ := Option.map_eq_some_iff.mp hexp
    obtain rfl := hi.sound m₀ v₀ hcell
    by_cases hupdate : ∃ i hl now f m₀ v₁, s.pcs t = .swap i hl (.update now f) m₀ v₁
    · obtain ⟨i, hl', now, f, m₀, v₁, hpc⟩ := hupdate
      have hok := hi.pcs t
      rw [hpc] at hok hreq
      cases hreq
      refine h.update tok hpc hok.2.2 (hok.2.1 ▸ hcell) ?_
      rcases hr with ⟨rfl, rfl⟩ | ⟨rfl, rfl⟩
      · exact .inl ⟨rfl, (Option.some.inj hn).symm⟩
      · exact .inr ⟨rfl, (Option.some.inj hn).symm⟩
    · have hnot : ∀ i hl now f m₀ v₁, s.pcs t ≠ .swap i hl (.update now f) m₀ v₁ :=
        fun i hl' now f m₀ v₁ hpc => hupdate ⟨i, hl', now, f, m₀, v₁, hpc⟩
      rw [events_not_update hnot, List.append_nil]
      rcases hr with ⟨rfl, rfl⟩ | ⟨rfl, rfl⟩
      · cases hn
        exact h.landed hi hreq hcell hnot
      · cases hn
        refine h.quiet rfl (.put hcell rfl (request_epoch (hi.pcs t) hreq)) (fun u => ?_)
          h.handles (carried_goto (hfailed .store).carried h.pcs)
        exact putting_goto (s := { s with cell := some (m, tok) })
          ((hfailed .store).putting.trans hold.symm) u
  · rw [events_idle hreq hidle, List.append_nil]
    rcases hr with rfl | rfl
    · cases hn
      exact h.plain hold (hfailed .raced)
    · cases hn
      exact h.plain hold (hfailed .store)

theorem Trail.snapshotNext {ack : Ack}
    (h : Trail s log) (hi : Inv content s)
    (hn : next content s (.snapshot t ack) = some s') : Trail s' (log ++ events s (.snapshot t ack)) := by
  simp only [next] at hn
  split at hn
  · rename_i i h₀ now heq
    have hpc : putting (s.pcs t) = some (h₀, now) := by
      rw [heq]
      rfl
    have hok : HandleOk content s.takes h₀ := by
      have hall := hi.pcs t
      rw [heq] at hall
      exact hall
    have hstamped : Stamped s.history h₀ := h.pcs t h₀ (by rw [heq]; rfl)
    have hevents : events s (.snapshot t ack) = if ack = .fail
        then [.missed ⟨h₀.manifest.epoch, now, h₀.manifest⟩]
        else [.recorded ⟨h₀.manifest.epoch, now, h₀.manifest⟩] := by
      dsimp only [events]
      rw [heq]
    let wrote := Function.update s.history (h₀.manifest.epoch, now)
      (some ((s.history (h₀.manifest.epoch, now)).getD { h₀.manifest with lease := none }))
    have hkept : ∀ key, (s.history key).isSome → (wrote key).isSome := by
      intro key hkey
      simp only [wrote, Function.update_apply]
      split
      · rfl
      · exact hkey
    have hold : ∀ x ∈ s.handles, Stamped wrote x := fun x hx => (h.handles x hx).mono hkept
    cases hn
    rw [hevents]
    cases ack with
    | fail => exact h.lose hpc
    | lost =>
      refine h.put hpc rfl rfl ?_ (fun w hw => goto_pcs_ne _ _ hw) hold fun x hx => ?_
      · rw [if_neg (by decide), if_neg (by decide), goto_pcs_self]
        rfl
      · rw [if_neg (by decide), if_neg (by decide), goto_pcs_self] at hx
        cases hx
    | reply =>
      have hhere : Stamped wrote { h₀ with lastHistoryUnix := now } := by
        refine .inr ?_
        change (wrote (h₀.epoch, now)).isSome
        rw [← hok.epoch]
        simp only [wrote, Function.update_self]
        rfl
      refine h.put hpc rfl rfl ?_ (fun w hw => goto_pcs_ne _ _ hw) (fun x hx => ?_)
        fun x hx => ?_
      · rw [if_pos rfl, if_neg (by decide)]
        exact congrArg putting (goto_pcs_self ..)
      · rcases List.mem_or_eq_of_mem_set hx with hmem | rfl
        · exact hold x hmem
        · exact hhere
      · rw [if_pos rfl, if_neg (by decide)] at hx
        have hdone := congrArg carried (goto_pcs_self { s with history := wrote } t
          (.done (.ok ()) : Pc V))
        cases hdone.symm.trans hx
  · cases hn

theorem Trail.cloned {i : Nat} (h : Trail s log)
    (hn : next content s (.clone i) = some s') : Trail s' log := by
  obtain ⟨hl', hget, rfl⟩ := Option.map_eq_some_iff.mp hn
  refine h.quiet rfl (.of_eq rfl) (fun _ => rfl) (fun x hx => ?_) h.pcs
  rcases List.mem_append.mp hx with hmem | hnew
  · exact h.handles x hmem
  · exact h.handles x (List.mem_singleton.mp hnew ▸ List.mem_of_getElem? hget)

theorem trail_next {l : Label V} (hi : Inv content s)
    (h : Trail s log) (hl : ∀ f tok, l ≠ .publish f tok) (hn : next content s l = some s') :
    Trail s' (log ++ events s l) := by
  cases l with
  | begin t c => exact (List.append_nil log).symm ▸ h.begin hn
  | clock t now => exact (List.append_nil log).symm ▸ h.clock hn
  | get t ok => exact (List.append_nil log).symm ▸ h.got hn
  | put t io => exact h.putNext hi hn
  | snapshot t ack => exact h.snapshotNext hi hn
  | clone i => exact (List.append_nil log).symm ▸ h.cloned hn
  | publish f tok => exact absurd rfl (hl f tok)

/-! ## Whole runs -/

omit [DecidableEq V] in
theorem trail_start (h : Init content s) (hempty : s.history = fun _ => none) : Trail s [] where
  stored u hu := by cases hu
  epochs := List.Pairwise.nil
  puts u hu := by cases hu
  history epoch now := by
    rw [hempty]
    rfl
  pending t hl now hpc := by
    rw [h.pcs t] at hpc
    cases hpc
  handles hl hmem := by
    rw [h.handles] at hmem
    cases hmem
  pcs t hl hc := by
    rw [h.pcs t] at hc
    cases hc
  ended u hu := by cases hu

theorem trail_run {s₀ : Sys V} {ls : List (Label V)} (h0 : Init content s₀)
    (hempty : s₀.history = fun _ => none) (hcalls : ∀ f tok, Label.publish f tok ∉ ls)
    (hr : Trace.run (nextLogged content) (s₀, []) ls = some (s, log)) : Trail s log := by
  have hstep : ∀ (p : Sys V × List Event) l p', Inv content p.1 ∧ Trail p.1 p.2 →
      (∀ f tok, l ≠ Label.publish f tok) → nextLogged content p l = some p' →
      Inv content p'.1 ∧ Trail p'.1 p'.2 := by
    rintro p l p' ⟨hi, ht⟩ hl hn
    obtain ⟨s', hn', rfl⟩ := Trace.logged_some hn
    exact ⟨inv_next hi hn', trail_next hi ht hl hn'⟩
  have hmeets : ∀ (ls : List (Label V)) (p : Sys V × List Event),
      (∀ f tok, Label.publish f tok ∉ ls) →
      Trace.Meets (nextLogged content) (fun _ l => ∀ f tok, l ≠ .publish f tok) p ls := by
    intro ls
    induction ls with
    | nil => exact fun _ _ => trivial
    | cons l ls ih =>
      intro p hls
      refine ⟨fun f tok heq => hls f tok (heq ▸ List.mem_cons_self), fun p' _ => ih p' ?_⟩
      exact fun f tok hmem => hls f tok (.tail _ hmem)
  exact (Trace.guarded_invariant hstep ⟨h0.inv, trail_start h0 hempty⟩ (hmeets ls _ hcalls) hr).2

omit [DecidableEq V] in
theorem firstAt_spec {epoch : Nat} {w : Update}
    (h : firstAt log epoch now = some w) : w ∈ recorded log ∧ w.epoch = epoch ∧ w.now = now := by
  have hkey : decide (w.epoch = epoch ∧ w.now = now) = true :=
    List.find?_some (p := fun u : Update => decide (u.epoch = epoch ∧ u.now = now)) h
  exact ⟨List.mem_of_find?_eq_some h, of_decide_eq_true hkey⟩

/-- What a lookup is to find: the snapshot that was the first to land under
the epoch and second of the last update at or before the time that has one. -/
def pitr (log : List Event) (unixTs : Nat) : Except BranchError Manifest :=
  match (lastKept log unixTs).bind fun u => firstAt log u.epoch u.now with
  | none => .error (.noHistory unixTs)
  | some w => w.snapshot.fromJson.mapError .manifest

/-- In every run of calls on one manifest, whose updates have nondecreasing
clocks, a lookup finds the first snapshot under the epoch and second of the
last update at or before the time that has one. An update has one when its
call has ended, but for one in second zero, one whose caller did not hear of
the swap and one whose snapshot's put failed. -/
theorem snapshot_at_run {s₀ s : Sys V} {log : List Event} {ls : List (Label V)} {dir : List Char}
    {list : List (List Char)} {get : List Char → Option Manifest} (h0 : Init content s₀)
    (hempty : s₀.history = fun _ => none) (hcalls : ∀ f tok, Label.publish f tok ∉ ls)
    (hr : Trace.run (nextLogged content) (s₀, []) ls = some (s, log))
    (hclocks : (updates log).Pairwise (·.now ≤ ·.now))
    (hsizes : ∀ u ∈ updates log, u.epoch < 10 ^ 16 ∧ u.now < 2 ^ 64)
    (hlist : Listing s.history dir list get) :
    (∀ unixTs, snapshotAt dir list get unixTs = pitr log unixTs)
      ∧ ∀ u ∈ updates log, (firstAt log u.epoch u.now).isSome ∨ u.now = 0 ∨ Pending s u
        ∨ u ∈ missed log := by
  have ht := trail_run h0 hempty hcalls hr
  have hfirst : ∀ e t, s.history (e, t) ≠ none → ∃ w ∈ updates log,
      firstAt log e t = some w ∧ w.epoch = e ∧ w.now = t := by
    intro e t hsome
    rw [ht.history, ne_eq, Option.map_eq_none_iff] at hsome
    obtain ⟨w, hw⟩ := Option.ne_none_iff_exists'.mp hsome
    obtain ⟨hmem, he, hnow⟩ := firstAt_spec hw
    exact ⟨w, ht.puts w hmem, hw, he, hnow⟩
  have hkeys : ∀ e t, s.history (e, t) ≠ none → e < 10 ^ 16 ∧ t < 2 ^ 64 := by
    intro e t hsome
    obtain ⟨w, hmem, -, rfl, rfl⟩ := hfirst e t hsome
    exact hsizes w hmem
  constructor
  · intro unixTs
    let kept := (updates log).filter fun u =>
      u.now ≤ unixTs && (firstAt log u.epoch u.now).isSome
    have hin : ∀ e t, s.history (e, t) ≠ none → t ≤ unixTs →
        ∃ w ∈ kept, w.epoch = e ∧ w.now = t := by
      intro e t hsome hle
      obtain ⟨w, hmem, hw, rfl, rfl⟩ := hfirst e t hsome
      refine ⟨w, List.mem_filter.mpr ⟨hmem, ?_⟩, rfl, rfl⟩
      rw [hw, decide_eq_true hle]
      rfl
    unfold pitr lastKept
    cases hlast : kept.getLast? with
    | none =>
      have hnil : kept = [] := List.getLast?_eq_none_iff.mp hlast
      refine snapshotAt_none hlist hkeys fun e t hsome => Nat.lt_of_not_le fun hle => ?_
      obtain ⟨w, hw, -⟩ := hin e t hsome hle
      rw [hnil] at hw
      cases hw
    | some u =>
      obtain ⟨hmem, hu⟩ := List.mem_filter.mp (List.mem_of_getLast? hlast)
      rw [Bool.and_eq_true, decide_eq_true_eq, Option.isSome_iff_exists] at hu
      obtain ⟨hle, w, hw⟩ := hu
      have hhere : s.history (u.epoch, u.now) = some w.snapshot := by
        rw [ht.history, hw]
        rfl
      -- The last of the kept updates is of the latest second and, in it, epoch.
      have hmax : ∀ x ∈ kept, x.now ≤ u.now ∧ x.epoch ≤ u.epoch := by
        obtain ⟨before, hbefore⟩ := List.getLast?_eq_some_iff.mp hlast
        have hnows : kept.Pairwise (·.now ≤ ·.now) := hclocks.filter _
        have hepochs : kept.Pairwise (·.epoch ≤ ·.epoch) := ht.epochs.filter _
        rw [hbefore] at hnows hepochs ⊢
        intro x hx
        rcases List.mem_append.mp hx with hx | hx
        · exact ⟨(List.pairwise_append.mp hnows).2.2 x hx u List.mem_cons_self,
            (List.pairwise_append.mp hepochs).2.2 x hx u List.mem_cons_self⟩
        · rw [List.mem_singleton.mp hx]
          exact ⟨le_rfl, le_rfl⟩
      rw [Option.bind_some, hw]
      refine snapshotAt_newest hlist hkeys hhere hle fun e t hsome hle' => ?_
      obtain ⟨x, hx, rfl, rfl⟩ := hin e t hsome hle'
      exact hmax x hx
  · intro u hu
    rcases ht.ended u hu with hzero | hhere | hpending | hmissed
    · exact .inr (.inl hzero)
    · rw [ht.history, Option.isSome_map] at hhere
      exact .inl hhere
    · exact .inr (.inr (.inl hpending))
    · exact .inr (.inr (.inr hmissed))

/-! ## Two updates within one second -/

omit [DecidableEq V] in
theorem manifestHistory_inj {dir : List Char} {e e' t' : Nat}
    (h : manifestHistory dir e t = manifestHistory dir e' t') : (e, t) = (e', t') := by
  unfold manifestHistory at h
  simp only [List.append_assoc, List.cons_append, List.append_cancel_left_eq] at h
  have hsplit := congrArg (splitOnce '-') h
  rw [splitOnce_append (not_mem_padded rfl _), splitOnce_append (not_mem_padded rfl _)] at hsplit
  obtain ⟨hepoch, hrest⟩ := Prod.mk.inj (Option.some.inj hsplit)
  have hunix := List.append_cancel_right hrest
  have hvalue : ∀ {n n' : Nat}, padded n = padded n' → n = n' := by
    intro n n' heq
    rw [← ofDigitChars_padded n, heq, ofDigitChars_padded]
  exact Prod.ext (hvalue hepoch) (hvalue hunix)

theorem listing_one (dir : List Char) (e t : Nat) (m : Manifest) :
    Listing (Function.update (fun _ => none) (e, t) (some m)) dir [manifestHistory dir e t]
      (fun key => if key = manifestHistory dir e t then some m else none) where
  sorted := List.pairwise_singleton _ _
  mem key := by
    rw [List.mem_singleton]
    constructor
    · rintro rfl
      refine ⟨e, t, ?_, rfl⟩
      rw [Function.update_self]
      exact Option.some_ne_none m
    · rintro ⟨e', t', hsome, rfl⟩
      rw [Function.update_apply] at hsome
      split at hsome
      · rename_i heq
        cases heq
        rfl
      · exact absurd rfl hsome
  get e' t' := by
    rw [Function.update_apply]
    by_cases heq : (e', t') = (e, t)
    · cases heq
      rw [if_pos rfl, if_pos rfl]
    · rw [if_neg heq, if_neg fun hkey => heq (manifestHistory_inj hkey)]

def firstFold : Mutation := .publishCheckpoint ⟨"a", 100, .full, none⟩ 100

def secondFold : Mutation := .publishCheckpoint ⟨"b", 200, .delta, none⟩ 200

def taken : Manifest := alice.grant (Manifest.new "acme" 17)

def folded : Manifest := updated firstFold 1000 taken

def foldedTwice : Manifest := updated secondFold 1000 folded

/-- Alice acquires and publishes two checkpoints within one second. -/
def twoFolds : List (Label Manifest) :=
  [.begin 0 (.take alice), .get 0 true, .put 0 (.reply taken),
   .begin 0 (.through 0 (.update 1000 firstFold)), .get 0 true, .put 0 (.reply folded),
   .snapshot 0 .reply,
   .begin 0 (.through 0 (.update 1000 secondFold)), .get 0 true, .put 0 (.reply foldedTwice)]

def twoFoldsLog : List Event :=
  [.published ⟨1, 1000, folded⟩, .recorded ⟨1, 1000, folded⟩, .published ⟨1, 1000, foldedTwice⟩]

def acmeDir : List Char := "tenants/acme".toList

def acmeKeys : List (List Char) := [manifestHistory acmeDir 1 1000]

def acmeGet (key : List Char) : Option Manifest :=
  if key = manifestHistory acmeDir 1 1000 then some { folded with lease := none } else none

theorem run_twoFolds :
    ∃ s, Trace.run (nextLogged id) (fresh (Manifest.new "acme" 17), []) twoFolds
        = some (s, twoFoldsLog)
      ∧ s.history = Function.update (fun _ => none) (1, 1000)
        (some { folded with lease := none }) := by
  have hr : Trace.run (nextLogged id) (fresh (Manifest.new "acme" 17), []) twoFolds
      = some _ := rfl
  exact ⟨_, hr, rfl⟩

/-- A lookup an hour later finds the first of the two checkpoints only. -/
theorem snapshot_at_first_of_second :
    ∃ s, Trace.run (nextLogged id) (fresh (Manifest.new "acme" 17), []) twoFolds
        = some (s, twoFoldsLog)
      ∧ Listing s.history acmeDir acmeKeys acmeGet
      ∧ (updates twoFoldsLog).getLast? = some ⟨1, 1000, foldedTwice⟩
      ∧ snapshotAt acmeDir acmeKeys acmeGet 4600 = .ok { folded with lease := none }
      ∧ ({ folded with lease := none } : Manifest) ≠ { foldedTwice with lease := none } := by
  obtain ⟨s, hr, hhistory⟩ := run_twoFolds
  have hlist : Listing s.history acmeDir acmeKeys acmeGet := by
    rw [hhistory]
    exact listing_one ..
  have hone : ∀ e t, s.history (e, t) ≠ none → e = 1 ∧ t = 1000 := by
    intro e t hsome
    rw [hhistory, Function.update_apply] at hsome
    split at hsome
    · rename_i heq
      cases heq
      exact ⟨rfl, rfl⟩
    · exact absurd rfl hsome
  have hhere : s.history (1, 1000) = some { folded with lease := none } := by
    rw [hhistory, Function.update_self]
  refine ⟨s, hr, hlist, rfl, ?_, by decide⟩
  refine snapshotAt_newest hlist (fun e t hsome => ?_) hhere (by decide) fun e t hsome _ => ?_
  · obtain ⟨rfl, rfl⟩ := hone e t hsome
    exact ⟨by decide, by decide⟩
  · obtain ⟨rfl, rfl⟩ := hone e t hsome
    exact ⟨le_rfl, le_rfl⟩

theorem snapshot_at_run_twoFolds :
    ∃ s, Trace.run (nextLogged id) (fresh (Manifest.new "acme" 17), []) twoFolds
        = some (s, twoFoldsLog)
      ∧ (updates twoFoldsLog).map Update.now = [1000, 1000]
      ∧ ∀ unixTs, snapshotAt acmeDir acmeKeys acmeGet unixTs = pitr twoFoldsLog unixTs := by
  obtain ⟨s, hr, hhistory⟩ := run_twoFolds
  have hcalls : ∀ f tok, Label.publish f tok ∉ twoFolds := by
    intro f tok hmem
    simp [twoFolds] at hmem
  have hlist : Listing s.history acmeDir acmeKeys acmeGet := by
    rw [hhistory]
    exact listing_one ..
  exact ⟨s, hr, rfl,
    (snapshot_at_run (init_fresh _) rfl hcalls hr (by decide) (by decide) hlist).1⟩

end Zou.PointInTime
