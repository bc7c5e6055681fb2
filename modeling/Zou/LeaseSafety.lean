import Zou.Lease

/-!
# Lease safety

Fencing rests on two facts about every reachable state. A version token
stands for one manifest, so a swap lands over exactly the manifest its
caller last saw. And the stored epoch is at least the epoch of every take
that returned, so a manifest somebody saw before a later take is not the
stored one. `Inv` carries both, `inv_next` is the step lemma, and
`lease_safety` reads the protocol's promises off a whole run.
-/

namespace Zou

variable {V : Type} {content : V → Manifest}

/-! ## Edits -/

@[simp] theorem grant_body (a : TakeArgs) (m : Manifest) : (a.grant m).body = m.body := rfl

@[simp] theorem extendLease_body (ttl now : Nat) (m : Manifest) :
    (extendLease ttl now m).body = m.body := rfl

@[simp] theorem updated_epoch (f : Mutation) (now : Nat) (m : Manifest) :
    (updated f now m).epoch = m.epoch := by
  unfold updated
  split
  · exact f.epoch_eq m
  · exact f.epoch_eq m

@[simp] theorem Op.edit_epoch (op : Op) (m : Manifest) : (op.edit m).epoch = m.epoch := by
  cases op with
  | renew ttl now => rfl
  | release => rfl
  | update now f => exact updated_epoch f now m

theorem HeldLease.ours_epoch {h : HeldLease V} {m : Manifest} (ho : h.ours m = true) :
    m.epoch = h.epoch := by
  simp only [HeldLease.ours, Bool.and_eq_true, decide_eq_true_eq] at ho
  exact ho.2

/-! ## The invariant -/

/-- A handle's version stands for the manifest it carries, which is of
its own epoch, and a take returned that epoch. -/
structure HandleOk (content : V → Manifest) (takes : List Nat) (h : HeldLease V) : Prop where
  pinned : content h.version = h.manifest
  epoch : h.manifest.epoch = h.epoch
  taken : h.epoch ∈ takes

theorem HandleOk.mono {takes takes' : List Nat} {h : HeldLease V} (hsub : ∀ e ∈ takes, e ∈ takes')
    (hh : HandleOk content takes h) : HandleOk content takes' h :=
  ⟨hh.pinned, hh.epoch, hsub _ hh.taken⟩

/-- What a thread in flight knows. -/
def PcOk (content : V → Manifest) (takes : List Nat) : Pc V → Prop
  | .takeSwap _ _ m v => content v = m
  | .renewSwap _ h _ _ => HandleOk content takes h
  | .reread _ h _ => HandleOk content takes h
  | .swap _ h _ m v => HandleOk content takes h ∧ content v = m ∧ m.epoch = h.epoch
  | .history _ h _ => HandleOk content takes h
  | _ => True

theorem PcOk.mono {takes takes' : List Nat} {pc : Pc V} (hsub : ∀ e ∈ takes, e ∈ takes')
    (hp : PcOk content takes pc) : PcOk content takes' pc := by
  cases pc with
  | idle => trivial
  | clock w => trivial
  | takeGet a w => trivial
  | takeSwap a w m v => exact hp
  | renewSwap i h ttl now => exact HandleOk.mono hsub hp
  | reread i h op => exact HandleOk.mono hsub hp
  | swap i h op m v => exact ⟨HandleOk.mono hsub hp.1, hp.2⟩
  | history i h now => exact HandleOk.mono hsub hp
  | done r => trivial

namespace Sys

structure Inv (content : V → Manifest) (s : Sys V) : Prop where
  sound : Cell.Sound content s.cell
  stored : ∀ e ∈ s.takes, ∃ m v, s.cell = some (m, v) ∧ e ≤ m.epoch
  increasing : s.takes.Pairwise (· < ·)
  handles : ∀ h ∈ s.handles, HandleOk content s.takes h
  pcs : ∀ t, PcOk content s.takes (s.pcs t)

variable {s : Sys V}

theorem Init.inv (hi : Init content s) : Inv content s where
  sound := hi.sound
  stored e he := by rw [hi.takes] at he; cases he
  increasing := by rw [hi.takes]; exact List.Pairwise.nil
  handles h hh := by rw [hi.handles] at hh; cases hh
  pcs t := by rw [hi.pcs t]; trivial

/-! ## Steps that leave the cell alone -/

variable {t : Nat} {pc : Pc V}

theorem pcs_goto {P : Pc V → Prop}
    (hpc : P pc) (hs : ∀ u, P (s.pcs u)) : ∀ u, P ((s.goto t pc).pcs u) := by
  intro u
  simp only [goto, Function.update_apply]
  split
  · exact hpc
  · exact hs u

theorem Inv.goto (hi : Inv content s)
    (hpc : PcOk content s.takes pc) : Inv content (s.goto t pc) where
  sound := hi.sound
  stored := hi.stored
  increasing := hi.increasing
  handles := hi.handles
  pcs := pcs_goto hpc hi.pcs

theorem Inv.ended {r : Except LeaseError Unit} (hi : Inv content s) :
    Inv content (s.goto t (.done r)) :=
  hi.goto trivial

theorem Inv.setHandle {i : Nat} {h : HeldLease V} (hi : Inv content s)
    (hh : HandleOk content s.takes h) : Inv content { s with handles := s.handles.set i h } where
  sound := hi.sound
  stored := hi.stored
  increasing := hi.increasing
  handles h' hmem := by
    rcases List.mem_or_eq_of_mem_set hmem with hold | rfl
    · exact hi.handles h' hold
    · exact hh
  pcs := hi.pcs

theorem takeFailed_ok (takes : List Nat) (w : Option Wait) (e : LeaseError) :
    PcOk content takes (takeFailed w e) := by
  unfold takeFailed
  split
  · split <;> trivial
  · split <;> trivial
  · trivial

theorem start_ok {c : Call} (hi : Inv content s)
    (h : s.start c = some pc) : PcOk content s.takes pc := by
  cases c with
  | take a =>
    cases h
    trivial
  | takeover holder endpoint ttl limit now =>
    cases h
    trivial
  | through i op =>
    obtain ⟨hl, hget, rfl⟩ := Option.map_eq_some_iff.mp h
    have hok := hi.handles hl (List.mem_of_getElem? hget)
    cases op with
    | renew ttl now =>
      dsimp only
      split
      · exact hok
      · exact hok
    | release => exact hok
    | update now f => exact hok

variable {m : Manifest}

theorem fromJson_ok {m' : Manifest} (h : m.fromJson = .ok m') : m' = m := by
  unfold Manifest.fromJson at h
  split at h
  · cases h
  · exact (Except.ok.inj h).symm

variable {takes : List Nat}

theorem afterGet_ok {cell : Option (Manifest × V)} {pc' : Pc V} (hs : Cell.Sound content cell)
    (hpc : PcOk content takes pc) (h : afterGet cell pc = some pc') : PcOk content takes pc' := by
  cases pc with
  | takeGet a w =>
    cases h
    split
    · exact takeFailed_ok _ _ _
    · rename_i m v
      split
      · exact takeFailed_ok _ _ _
      · rename_i m' hm
        obtain rfl := fromJson_ok hm
        split
        · exact takeFailed_ok _ _ _
        · exact hs _ _ rfl
  | reread i hl op =>
    cases h
    split
    · trivial
    · rename_i m v
      split
      · trivial
      · rename_i m' hm
        obtain rfl := fromJson_ok hm
        split
        · rename_i hours
          exact ⟨hpc, hs _ _ rfl, HeldLease.ours_epoch hours⟩
        · trivial
  | _ => cases h

/-! ## The swap -/

variable {v : V}

/-- What a thread asks to swap in, against the manifest its token stands
for: the epoch goes up by one in a take and stays otherwise. -/
theorem request_epoch (hpc : PcOk content takes pc) (h : request pc = some (m, v)) :
    (content v).epoch ≤ m.epoch := by
  cases pc with
  | takeSwap a w m₀ v₀ =>
    cases h
    rw [hpc]
    exact Nat.le_succ _
  | renewSwap i hl ttl now =>
    cases h
    rw [hpc.pinned]
    exact le_rfl
  | swap i hl op m₀ v₀ =>
    cases h
    rw [hpc.2.1]
    exact Nat.le_of_eq (Op.edit_epoch op m₀).symm
  | _ => cases h

theorem swapFailed_ok (e : LeaseError)
    (hpc : PcOk content takes pc) : PcOk content takes (swapFailed e pc) := by
  cases pc with
  | takeSwap a w m v => exact takeFailed_ok _ _ _
  | renewSwap i hl ttl now =>
    dsimp only [swapFailed]
    split
    · exact hpc
    · trivial
  | _ => trivial

variable {tok : V}

/-- The cell after a swap that landed over what its token stands for. -/
theorem Inv.stored_swap (hi : Inv content s)
    (hcell : s.cell = some (content v, v)) (hle : (content v).epoch ≤ m.epoch) :
    ∀ e ∈ s.takes, ∃ m' v', some (m, tok) = some (m', v') ∧ e ≤ m'.epoch := by
  intro e he
  obtain ⟨m₀, v₀, h0, hle₀⟩ := hi.stored e he
  rw [hcell] at h0
  cases h0
  exact ⟨m, tok, rfl, Nat.le_trans hle₀ hle⟩

theorem Inv.swapped (hi : Inv content s) (hcell : s.cell = some (content v, v))
    (htok : content tok = m) (hle : (content v).epoch ≤ m.epoch) :
    Inv content { s with cell := some (m, tok) } where
  sound m' v' h := by cases h; exact htok
  stored := hi.stored_swap hcell hle
  increasing := hi.increasing
  handles := hi.handles
  pcs := hi.pcs

theorem Op.written_ok {op : Op} {h : HeldLease V} (hh : HandleOk content takes h)
    (hv : content v = m) (hm : m.epoch = h.epoch) : HandleOk content takes (op.written h m v) := by
  cases op with
  | renew ttl now => exact ⟨hv, hm, hh.taken⟩
  | release => exact hh
  | update now f => exact ⟨hv, hm, hh.taken⟩

theorem Inv.taken {a : TakeArgs} (hi : Inv content s) (htok : content tok = a.grant m)
    (hcell : s.cell = some (a.grant m, tok)) (hnew : ∀ e ∈ s.takes, e ≤ m.epoch) :
    Inv content { s with
      handles := s.handles ++ [a.heldLease m tok]
      takes := s.takes ++ [(a.grant m).epoch] } := by
  have hsub : ∀ e ∈ s.takes, e ∈ s.takes ++ [(a.grant m).epoch] :=
    fun e he => List.mem_append_left _ he
  refine ⟨hi.sound, ?_, ?_, ?_, fun t => PcOk.mono hsub (hi.pcs t)⟩
  · intro e he
    rcases List.mem_append.mp he with hold | hlast
    · exact hi.stored e hold
    · cases List.mem_singleton.mp hlast
      exact ⟨_, _, hcell, le_rfl⟩
  · refine List.pairwise_append.mpr ⟨hi.increasing, List.pairwise_singleton _ _, ?_⟩
    intro e he e' he'
    cases List.mem_singleton.mp he'
    exact Nat.lt_succ_of_le (hnew e he)
  · intro h hh
    rcases List.mem_append.mp hh with hold | hlast
    · exact HandleOk.mono hsub (hi.handles h hold)
    · cases List.mem_singleton.mp hlast
      exact ⟨htok, rfl, List.mem_append_right _ (List.mem_singleton.mpr rfl)⟩

/-- A swap of `t` landed over what its token stands for and `t` heard. -/
theorem Inv.landed (hi : Inv content s) (hreq : request (s.pcs t) = some (m, v))
    (hcell : s.cell = some (content v, v)) (htok : content tok = m) :
    Inv content (landed { s with cell := some (m, tok) } t tok (s.pcs t)) := by
  have hpc := hi.pcs t
  have hle := request_epoch hpc hreq
  have hsw := hi.swapped hcell htok hle
  revert hpc hreq
  cases s.pcs t with
  | takeSwap a w m₀ v₀ =>
    intro hreq hpc
    cases hreq
    obtain rfl : content v = m₀ := hpc
    refine (hsw.taken htok rfl fun e he => ?_).goto trivial
    obtain ⟨m', v', h', hle'⟩ := hi.stored e he
    rw [hcell] at h'
    cases h'
    exact hle'
  | renewSwap i hl ttl now =>
    intro hreq hpc
    cases hreq
    exact (hsw.setHandle (Op.written_ok hpc htok hpc.epoch)).goto trivial
  | swap i hl op m₀ v₀ =>
    intro hreq hpc
    cases hreq
    have hw : HandleOk content s.takes (op.written hl (op.edit m₀) tok) :=
      Op.written_ok hpc.1 htok ((Op.edit_epoch op m₀).trans hpc.2.2)
    refine (hsw.setHandle hw).goto ?_
    split
    · split
      · exact hw
      · trivial
    · trivial
  | _ => intro hreq _; cases hreq

/-! ## Calls through a superseded handle -/

end Sys

/-- The handle a call goes through, until its swap has landed. -/
def Pc.through : Pc V → Option (HeldLease V)
  | .renewSwap _ h _ _ => some h
  | .reread _ h _ => some h
  | .swap _ h _ _ _ => some h
  | _ => none

/-- A thread inside `take`, `renew` or `release`. -/
def Pc.isLeaseOp : Pc V → Bool
  | .clock _ | .takeGet _ _ | .takeSwap _ _ _ _ | .renewSwap _ _ _ _ => true
  | .reread _ _ (.update _ _) | .swap _ _ (.update _ _) _ _ => false
  | .reread _ _ _ | .swap _ _ _ _ _ => true
  | _ => false

namespace Sys

/-- A take that came later than the handle's own has returned. -/
def Superseded (s : Sys V) (h : HeldLease V) : Prop := ∃ e ∈ s.takes, h.epoch < e

variable {s : Sys V} {h : HeldLease V} {pc : Pc V}

/-- A call through a superseded handle asks for a swap the store does not
do: the manifest its token stands for is of the handle's epoch. -/
theorem Superseded.not_stored {m : Manifest} {v : V} (hi : Inv content s) (hsup : s.Superseded h)
    (hpc : PcOk content s.takes pc) (hth : pc.through = some h) (hreq : request pc = some (m, v)) :
    s.cell ≠ some (content v, v) := by
  have hep : (content v).epoch = h.epoch := by
    cases pc with
    | renewSwap i hl ttl now =>
      cases hth
      cases hreq
      rw [hpc.pinned, hpc.epoch]
    | swap i hl op m₀ v₀ =>
      cases hth
      cases hreq
      rw [hpc.2.1, hpc.2.2]
    | reread i hl op => cases hreq
    | _ => cases hth
  intro hcell
  obtain ⟨e, he, hlt⟩ := hsup
  obtain ⟨m', v', h', hle⟩ := hi.stored e he
  rw [hcell] at h'
  cases h'
  omega

variable {t : Nat}

@[simp] theorem goto_pcs_self (s : Sys V) (t : Nat) (pc : Pc V) : (s.goto t pc).pcs t = pc := by
  simp [goto]

theorem goto_pcs_ne (s : Sys V) {u : Nat} (pc : Pc V) (hne : u ≠ t) :
    (s.goto t pc).pcs u = s.pcs u := by
  simp [goto, hne]

theorem swapFailed_through (e : LeaseError) (hth : pc.through = some h) :
    (swapFailed e pc).through = some h ∨ ∃ e', swapFailed e pc = .done (.error e') := by
  cases pc with
  | renewSwap i hl ttl now =>
    dsimp only [swapFailed]
    split
    · exact .inl hth
    · exact .inr ⟨e, rfl⟩
  | reread i hl op => exact .inr ⟨e, rfl⟩
  | swap i hl op m v => exact .inr ⟨e, rfl⟩
  | _ => cases hth

theorem afterGet_through {cell : Option (Manifest × V)} {pc' : Pc V} (hth : pc.through = some h)
    (hget : afterGet cell pc = some pc') : pc'.through = some h ∨ ∃ e, pc' = .done (.error e) := by
  cases pc with
  | reread i hl op =>
    cases hget
    split
    · exact .inr ⟨_, rfl⟩
    · split
      · exact .inr ⟨_, rfl⟩
      · split
        · exact .inl hth
        · exact .inr ⟨_, rfl⟩
  | renewSwap i hl ttl now => cases hget
  | swap i hl op m v => cases hget
  | _ => cases hth

theorem landed_pcs_ne {u : Nat} {tok : V} (hne : u ≠ t) : (s.landed t tok pc).pcs u = s.pcs u := by
  cases pc with
  | takeSwap a w m v => exact goto_pcs_ne _ _ hne
  | renewSwap i hl ttl now => exact goto_pcs_ne _ _ hne
  | swap i hl op m v => exact goto_pcs_ne _ _ hne
  | _ => rfl

theorem landed_takes {tok : V} : ∃ es, (s.landed t tok pc).takes = s.takes ++ es := by
  cases pc with
  | takeSwap a w m v => exact ⟨[_], rfl⟩
  | _ => exact ⟨[], (List.append_nil _).symm⟩

theorem request_body {takes : List Nat} {m : Manifest} {v : V} (hpc : PcOk content takes pc)
    (hop : pc.isLeaseOp = true) (h : request pc = some (m, v)) : m.body = (content v).body := by
  cases pc with
  | takeSwap a w m₀ v₀ =>
    cases h
    rw [show content v = m₀ from hpc, grant_body]
  | renewSwap i hl ttl now =>
    cases h
    rw [hpc.pinned, extendLease_body]
  | swap i hl op m₀ v₀ =>
    cases h
    rw [hpc.2.1]
    cases op with
    | renew ttl now => rfl
    | release => rfl
    | update now f => cases hop
  | _ => cases h

theorem landed_cell {tok : V} : (s.landed t tok pc).cell = s.cell := by
  cases pc <;> rfl

/-! ## Every step -/

variable [DecidableEq V] {s' : Sys V}

/-- What a put can do to the system, with the end of the call that made
it left to `landed` and `swapFailed`. -/
theorem next_put {io : Cell.Io V} (hi : Inv content s) (h : next content s (.put t io) = some s') :
    ∃ m v, request (s.pcs t) = some (m, v)
      ∧ ((s.cell = some (content v, v) ∧ ∃ tok, content tok = m
            ∧ (s' = landed { s with cell := some (m, tok) } t tok (s.pcs t)
              ∨ s' = goto { s with cell := some (m, tok) } t (swapFailed .store (s.pcs t))))
          ∨ ∃ e, (e = .raced ∨ e = .store) ∧ s' = s.goto t (swapFailed e (s.pcs t))) := by
  obtain ⟨⟨m, v⟩, hreq, h⟩ := Option.bind_eq_some_iff.mp h
  obtain ⟨⟨cell, r⟩, hput, h⟩ := Option.bind_eq_some_iff.mp h
  refine ⟨m, v, hreq, ?_⟩
  rcases Cell.putIfMatch_cases hi.sound hput with
    ⟨tok, hcell, rfl, htok, rfl | rfl⟩ | ⟨rfl, rfl | rfl⟩
  · exact .inl ⟨hcell, tok, htok, .inl (Option.some.inj h).symm⟩
  · exact .inl ⟨hcell, tok, htok, .inr (Option.some.inj h).symm⟩
  · exact .inr ⟨.raced, .inl rfl, (Option.some.inj h).symm⟩
  · exact .inr ⟨.store, .inr rfl, (Option.some.inj h).symm⟩

variable {l : Label V}

theorem inv_next (hi : Inv content s) (h : next content s l = some s') : Inv content s' := by
  cases l with
  | begin t c =>
    have hstart : ∀ {r : Option (Sys V)}, r = (s.start c).map (s.goto t) →
        r = some s' → Inv content s' := by
      rintro r rfl hr
      obtain ⟨pc, hpc, rfl⟩ := Option.map_eq_some_iff.mp hr
      exact hi.goto (start_ok hi hpc)
    simp only [next] at h
    split at h
    · exact hstart rfl h
    · exact hstart rfl h
    · cases h
  | clock t now =>
    simp only [next] at h
    split at h
    · cases h
      exact hi.goto trivial
    · cases h
  | get t ok =>
    simp only [next] at h
    split at h
    · obtain ⟨pc, hpc, rfl⟩ := Option.map_eq_some_iff.mp h
      exact hi.goto (afterGet_ok hi.sound (hi.pcs t) hpc)
    · obtain ⟨pc, -, rfl⟩ := Option.map_eq_some_iff.mp h
      exact hi.goto trivial
  | put t io =>
    obtain ⟨m, v, hreq, ⟨hcell, tok, htok, rfl | rfl⟩ | ⟨e, -, rfl⟩⟩ := next_put hi h
    · exact hi.landed hreq hcell htok
    · exact (hi.swapped hcell htok (request_epoch (hi.pcs t) hreq)).goto
        (swapFailed_ok .store (hi.pcs t))
    · exact hi.goto (swapFailed_ok e (hi.pcs t))
  | snapshot t ack =>
    have hpc := hi.pcs t
    simp only [next] at h
    split at h
    · rename_i i hl now heq
      rw [heq] at hpc
      cases h
      have hhist : ∀ f, Inv content { s with history := f } := fun f =>
        ⟨hi.sound, hi.stored, hi.increasing, hi.handles, hi.pcs⟩
      have hok : HandleOk content s.takes { hl with lastHistoryUnix := now } :=
        ⟨hpc.pinned, hpc.epoch, hpc.taken⟩
      cases ack with
      | reply => exact (hhist _).ended.setHandle hok
      | lost => exact (hhist _).ended
      | fail => exact hi.ended
    · cases h
  | clone i =>
    obtain ⟨hl, hget, rfl⟩ := Option.map_eq_some_iff.mp h
    refine ⟨hi.sound, hi.stored, hi.increasing, fun h' hmem => ?_, hi.pcs⟩
    rcases List.mem_append.mp hmem with hold | hlast
    · exact hi.handles h' hold
    · cases List.mem_singleton.mp hlast
      exact hi.handles _ (List.mem_of_getElem? hget)
  | publish f tok =>
    simp only [next] at h
    split at h
    · rename_i m v hcell
      split at h
      · rename_i htok
        cases h
        have hm := hi.sound m v hcell
        subst hm
        exact hi.swapped hcell htok (Nat.le_of_eq (f.epoch_eq _).symm)
      · cases h
    · cases h

/-- A step of a thread whose call goes through a superseded handle. -/
theorem next_fenced (hi : Inv content s) (hth : (s.pcs t).through = some h) (hsup : s.Superseded h)
    (hl : l.thread = some t) (hn : next content s l = some s') : s'.cell = s.cell
      ∧ ((s'.pcs t).through = some h ∨ ∃ e, s'.pcs t = .done (.error e)) := by
  cases l with
  | begin u c =>
    cases hl
    simp only [next] at hn
    split at hn
    · rename_i heq; rw [heq] at hth; cases hth
    · rename_i heq; rw [heq] at hth; cases hth
    · cases hn
  | clock u now =>
    cases hl
    simp only [next] at hn
    split at hn
    · rename_i heq; rw [heq] at hth; cases hth
    · cases hn
  | get u ok =>
    cases hl
    simp only [next] at hn
    split at hn
    · obtain ⟨pc, hpc, rfl⟩ := Option.map_eq_some_iff.mp hn
      rw [goto_pcs_self]
      exact ⟨rfl, afterGet_through hth hpc⟩
    · obtain ⟨pc, -, rfl⟩ := Option.map_eq_some_iff.mp hn
      exact ⟨rfl, .inr ⟨.store, goto_pcs_self ..⟩⟩
  | put u io =>
    cases hl
    obtain ⟨m, v, hreq, ⟨hcell, -⟩ | ⟨e, -, rfl⟩⟩ := next_put hi hn
    · exact absurd hcell (hsup.not_stored hi (hi.pcs t) hth hreq)
    · rw [goto_pcs_self]
      exact ⟨rfl, swapFailed_through e hth⟩
  | snapshot u ack =>
    cases hl
    simp only [next] at hn
    split at hn
    · rename_i heq; rw [heq] at hth; cases hth
    · cases hn
  | clone i => cases hl
  | publish f tok => cases hl

theorem next_frame (hi : Inv content s) (hn : next content s l = some s') :
    (∀ u, l.thread ≠ some u → s'.pcs u = s.pcs u) ∧ ∃ es, s'.takes = s.takes ++ es := by
  have hgoto : ∀ {s₁ : Sys V} {t pc}, s₁.pcs = s.pcs → s₁.takes = s.takes →
      (∀ u, some t ≠ some u → (s₁.goto t pc).pcs u = s.pcs u)
        ∧ ∃ es, (s₁.goto t pc).takes = s.takes ++ es := by
    intro s₁ t pc hpcs htakes
    refine ⟨fun u hu => ?_, [], htakes.trans (List.append_nil _).symm⟩
    rw [goto_pcs_ne s₁ pc fun h => hu (congrArg some h.symm), hpcs]
  cases l with
  | begin t c =>
    simp only [next] at hn
    split at hn
    · obtain ⟨pc, -, rfl⟩ := Option.map_eq_some_iff.mp hn
      exact hgoto rfl rfl
    · obtain ⟨pc, -, rfl⟩ := Option.map_eq_some_iff.mp hn
      exact hgoto rfl rfl
    · cases hn
  | clock t now =>
    simp only [next] at hn
    split at hn
    · cases hn
      exact hgoto rfl rfl
    · cases hn
  | get t ok =>
    simp only [next] at hn
    split at hn
    · obtain ⟨pc, -, rfl⟩ := Option.map_eq_some_iff.mp hn
      exact hgoto rfl rfl
    · obtain ⟨pc, -, rfl⟩ := Option.map_eq_some_iff.mp hn
      exact hgoto rfl rfl
  | put t io =>
    obtain ⟨m, v, -, ⟨-, tok, -, rfl | rfl⟩ | ⟨e, -, rfl⟩⟩ := next_put hi hn
    · exact ⟨fun u hu => landed_pcs_ne fun h => hu (congrArg some h.symm), landed_takes⟩
    · exact hgoto rfl rfl
    · exact hgoto rfl rfl
  | snapshot t ack =>
    simp only [next] at hn
    split at hn
    · cases hn
      cases ack with
      | reply => exact hgoto rfl rfl
      | lost => exact hgoto rfl rfl
      | fail => exact hgoto rfl rfl
    · cases hn
  | clone i =>
    obtain ⟨hl, -, rfl⟩ := Option.map_eq_some_iff.mp hn
    exact ⟨fun u _ => rfl, [], (List.append_nil _).symm⟩
  | publish f tok =>
    simp only [next] at hn
    split at hn
    · split at hn
      · cases hn
        exact ⟨fun u _ => rfl, [], (List.append_nil _).symm⟩
      · cases hn
    · cases hn

/-- The call of `t` through `h` is fenced off: a later take has returned,
and the call has not landed or has ended in an error. -/
def Fenced (t : Nat) (h : HeldLease V) (s : Sys V) : Prop :=
  s.Superseded h ∧ ((s.pcs t).through = some h ∨ ∃ e, s.pcs t = .done (.error e))

theorem fenced_next (hi : Inv content s) (hf : Fenced t h s) (hb : ∀ c, l ≠ .begin t c)
    (hn : next content s l = some s') : Fenced t h s' := by
  obtain ⟨⟨e, he, hlt⟩, hpc⟩ := hf
  obtain ⟨hpcs, es, htakes⟩ := next_frame hi hn
  refine ⟨⟨e, htakes ▸ List.mem_append_left _ he, hlt⟩, ?_⟩
  by_cases hl : l.thread = some t
  · rcases hpc with hth | ⟨e', hdone⟩
    · exact (next_fenced hi hth ⟨e, he, hlt⟩ hl hn).2
    · -- A call that has ended moves only by beginning another one.
      exfalso
      cases l with
      | begin u c => cases hl; exact hb c rfl
      | clock u now => cases hl; simp [next, hdone] at hn
      | get u ok => cases hl; cases ok <;> simp [next, hdone, afterGet] at hn
      | put u io => cases hl; simp [next, hdone, request] at hn
      | snapshot u ack => cases hl; simp [next, hdone] at hn
      | clone i => cases hl
      | publish f tok => cases hl
  · rw [hpcs t hl]
    exact hpc

theorem fenced_run :
    ∀ {ls : List (Label V)} {s s' : Sys V}, Inv content s → Fenced t h s →
      (∀ c, Label.begin t c ∉ ls) → Trace.run (next content) s ls = some s' →
      Fenced t h s' := by
  intro ls
  induction ls with
  | nil =>
    intro s s' _ hf _ hr
    cases hr
    exact hf
  | cons l ls ih =>
    intro s s' hi hf hb hr
    obtain ⟨s₁, h1, h2⟩ := Trace.run_cons_some hr
    refine ih (inv_next hi h1) (fenced_next hi hf ?_ h1) ?_ h2
    · rintro c rfl
      exact hb c List.mem_cons_self
    · exact fun c hc => hb c (.tail _ hc)

/-- A step of a thread inside `take`, `renew` or `release` leaves every
other field of the stored manifest as it was. -/
theorem next_body (hi : Inv content s) (hl : l.thread = some t) (hop : (s.pcs t).isLeaseOp = true)
    (hn : next content s l = some s') :
    s'.cell.map (fun c => c.1.body) = s.cell.map fun c => c.1.body := by
  cases l with
  | begin u c =>
    simp only [next] at hn
    split at hn
    · obtain ⟨pc, -, rfl⟩ := Option.map_eq_some_iff.mp hn
      rfl
    · obtain ⟨pc, -, rfl⟩ := Option.map_eq_some_iff.mp hn
      rfl
    · cases hn
  | clock u now =>
    simp only [next] at hn
    split at hn
    · cases hn
      rfl
    · cases hn
  | get u ok =>
    simp only [next] at hn
    split at hn
    · obtain ⟨pc, -, rfl⟩ := Option.map_eq_some_iff.mp hn
      rfl
    · obtain ⟨pc, -, rfl⟩ := Option.map_eq_some_iff.mp hn
      rfl
  | put u io =>
    cases hl
    obtain ⟨m, v, hreq, ⟨hcell, tok, -, rfl | rfl⟩ | ⟨e, -, rfl⟩⟩ := next_put hi hn
    · rw [landed_cell, hcell]
      simp [request_body (hi.pcs t) hop hreq]
    · rw [hcell]
      simp [goto, request_body (hi.pcs t) hop hreq]
    · rfl
  | snapshot u ack =>
    cases hl
    simp only [next] at hn
    split at hn
    · rename_i heq; rw [heq] at hop; cases hop
    · cases hn
  | clone i => cases hl
  | publish f tok => cases hl

/-! ## Whole runs -/

/-- Lease safety over any interleaving. The epochs of successful takes
strictly increase and every handle carries one of them. Once a later take
has returned, a call through an earlier handle that has not landed never
does: none of its steps touches the stored manifest, and however the run
goes on the call ends in an error. And no step of `take`, `renew` or
`release` changes a field the lease does not own. -/
theorem lease_safety {s₀ s : Sys V} {ls : List (Label V)} (h0 : Init content s₀)
    (hr : Trace.run (next content) s₀ ls = some s) : s.takes.Pairwise (· < ·)
      ∧ (∀ h ∈ s.handles, h.epoch ∈ s.takes)
      ∧ (∀ t h, (s.pcs t).through = some h → s.Superseded h →
          (∀ l s', l.thread = some t → next content s l = some s' → s'.cell = s.cell)
          ∧ ∀ ls' s', (∀ c, Label.begin t c ∉ ls') →
              Trace.run (next content) s ls' = some s' →
              (s'.pcs t).through = some h ∨ ∃ e, s'.pcs t = .done (.error e))
      ∧ ∀ t l s', l.thread = some t → (s.pcs t).isLeaseOp = true →
          next content s l = some s' →
          s'.cell.map (fun c => c.1.body) = s.cell.map fun c => c.1.body := by
  have hi : Inv content s := Trace.run_invariant (fun _ _ _ => inv_next) h0.inv hr
  refine ⟨hi.increasing, fun h hh => (hi.handles h hh).taken, ?_, ?_⟩
  · intro t h hth hsup
    refine ⟨fun l s' hl hn => (next_fenced hi hth hsup hl hn).1, ?_⟩
    intro ls' s' hb hr'
    exact (fenced_run hi ⟨hsup, .inl hth⟩ hb hr').2
  · exact fun t l s' hl hop hn => next_body hi hl hop hn

/-- A store whose tokens are the contents themselves, as a content hash
makes them. -/
def fresh (m : Manifest) : Sys Manifest where
  cell := some (m, m)
  history _ := none
  handles := []
  pcs _ := .idle
  takes := []

def alice : TakeArgs := ⟨"alice", none, 15, 100, false⟩

def bob : TakeArgs := ⟨"bob", none, 15, 101, true⟩

/-- Alice acquires, Bob steals, and Alice begins to renew. -/
def stolen : List (Label Manifest) :=
  let m₀ := Manifest.new "acme" 17
  [.begin 0 (.take alice), .get 0 true, .put 0 (.reply (alice.grant m₀)),
   .begin 1 (.take bob), .get 1 true, .put 1 (.reply (bob.grant (alice.grant m₀))),
   .begin 0 (.through 0 (.renew 15 102))]

/-- The steal is in force and Alice's renewal is under way, so the run
meets every hypothesis of `lease_safety`. -/
theorem lease_safety_stolen :
    ∃ s h, Trace.run (next id) (fresh (Manifest.new "acme" 17)) stolen = some s
      ∧ s.takes = [1, 2] ∧ s.takes.Pairwise (· < ·)
      ∧ (s.pcs 0).through = some h ∧ s.Superseded h
      ∧ ∀ l s', l.thread = some 0 → next id s l = some s' → s'.cell = s.cell := by
  have h0 : Init id (fresh (Manifest.new "acme" 17)) :=
    ⟨fun m v h => by cases h; rfl, rfl, fun _ => rfl, rfl⟩
  have hr : Trace.run (next id) (fresh (Manifest.new "acme" 17)) stolen = some _ := rfl
  have hs := lease_safety h0 hr
  exact ⟨_, _, hr, rfl, hs.1, rfl, ⟨2, by decide, by decide⟩,
    (hs.2.2.1 0 _ rfl ⟨2, by decide, by decide⟩).1⟩

end Sys

end Zou
