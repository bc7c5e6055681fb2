import Zou.Attach

/-!
# Held tenants stay up

A slot in the map is as busy as there are calls marked in it, its cell is
building as long as one call builds it, and the backend has its tenant
in the state of its cell (`Inv`). An eviction keeps this when no call has
the slot: a marked one keeps the slot from being free, so the calls that
matter are those that have looked their slot up and not marked it yet.
-/

namespace Zou

open Trace

/-! ## The backend -/

section Backend

variable {R : Type} [DecidableEq R]

theorem backendState_upCalled (r r' : R) (evs : List (BackendEvent R)) :
    backendState r (evs ++ [.upCalled r']) = if r' = r then .coming else backendState r evs := by
  unfold backendState
  rw [List.foldl_append]
  rfl

theorem backendState_upDone (r r' : R) (evs : List (BackendEvent R)) (ok : Bool) :
    backendState r (evs ++ [.upDone r' ok])
      = if r' = r then (if ok then .up else .down) else backendState r evs := by
  unfold backendState
  rw [List.foldl_append]
  rfl

theorem backendState_down (r r' : R) (evs : List (BackendEvent R)) :
    backendState r (evs ++ [.down r']) = if r' = r then .down else backendState r evs := by
  unfold backendState
  rw [List.foldl_append]
  rfl

/-- The backend is asked for a tenant that is down. -/
def Single (evs : List (BackendEvent R)) : Prop :=
  ∀ pre r post, evs = pre ++ .upCalled r :: post → backendState r pre = .down

theorem single_nil : Single ([] : List (BackendEvent R)) := by
  intro pre r post h
  simp at h

theorem Single.snoc {evs : List (BackendEvent R)} {ev : BackendEvent R} (h : Single evs)
    (hev : ∀ r, ev = .upCalled r → backendState r evs = .down) : Single (evs ++ [ev]) := by
  intro pre r post heq
  rcases List.eq_nil_or_concat post with rfl | ⟨init, last, rfl⟩
  · obtain ⟨rfl, hlast⟩ := List.append_inj' heq rfl
    exact hev r (List.singleton_inj.mp hlast)
  · have heq' : evs ++ [ev] = (pre ++ .upCalled r :: init) ++ [last] := by simpa using heq
    exact h pre r init (List.append_inj' heq' rfl).1

end Backend

/-- The backend's side of a cell. -/
def UpCell.state : UpCell → BackendState
  | .empty => .down
  | .building => .coming
  | .up => .up

namespace Stage

/-- The call is counted busy. -/
def marked : Stage → Bool
  | .use | .mark => false
  | _ => true

/-- The call has found the cell filled. -/
def attached : Stage → Bool
  | .enforce | .compare | .lock | .compareAgain | .refresh | .held => true
  | _ => false

end Stage

namespace HoldCall

variable {R : Type}

/-- Is the call counted busy in slot `k`. -/
def marks (k : Nat) : HoldCall R → Bool
  | .live _ k' st => k' = k && st.marked
  | _ => false

def builds (k : Nat) : HoldCall R → Bool
  | .live _ k' st => k' = k && st = .building
  | _ => false

/-- The tenant of a call that has its slot and has not marked it. -/
def unmarked : HoldCall R → Option R
  | .live e _ .use | .live e _ .mark => some e.tenantRef
  | _ => none

end HoldCall

theorem countP_set_add {α : Type} {p : α → Bool} {l : List α} {i : Nat} {a b : α}
    (h : l[i]? = some a) : (l.set i b).countP p + (if p a then 1 else 0)
      = l.countP p + (if p b then 1 else 0) := by
  obtain ⟨hi, rfl⟩ := List.getElem?_eq_some_iff.mp h
  rw [List.countP_set hi]
  have hpos : p l[i] = true → 0 < l.countP p := fun hp =>
    List.countP_pos_iff.mpr ⟨l[i], List.getElem_mem hi, hp⟩
  by_cases hp : p l[i] = true
  · have := hpos hp
    simp only [hp, if_true]
    omega
  · simp only [hp]
    simp

namespace Attached

variable {R : Type} [LinearOrder R]

/-! ## The invariant -/

structure Inv (s : Attached R) : Prop where
  slotted : ∀ e k st, HoldCall.live e k st ∈ s.calls → s.slots.get? e.tenantRef = some k
  apart : ∀ r r' k, s.slots.get? r = some k → s.slots.get? r' = some k → r = r'
  made : ∀ r k, s.slots.get? r = some k → k < s.made
  unmade : ∀ k, s.made ≤ k → s.arena k = .new
  busy : ∀ k, (s.arena k).busy = s.calls.countP (HoldCall.marks k)
  building : ∀ k, s.calls.countP (HoldCall.builds k)
    = if (s.arena k).cell = .building then 1 else 0
  attached : ∀ e k st, HoldCall.live e k st ∈ s.calls → st.attached = true →
    (s.arena k).cell = .up
  backend : ∀ r, backendState r s.events
    = (s.slots.get? r).elim .down fun k => (s.arena k).cell.state
  single : Single s.events

theorem inv_new : Inv (new : Attached R) where
  slotted e k st h := by cases h
  apart r r' k h := by cases h
  made r k h := by cases h
  unmade k _ := rfl
  busy k := rfl
  building k := rfl
  attached e k st h := by cases h
  backend r := rfl
  single := single_nil

/-! ## Evictions -/

/-- No call has the slot of `r`. -/
def Unused (s : Attached R) (r : R) : Prop :=
  ∀ e k st, HoldCall.live e k st ∈ s.calls → e.tenantRef ≠ r

theorem evict_get (s : Attached R) (r r' : R) :
    (s.evict r).slots.get? r' = if r' = r then none else s.slots.get? r' :=
  OrdMap.get?_remove s.slots r r'

variable {s : Attached R} {r : R}

theorem Inv.evict (h : Inv s) (hr : Unused s r) : Inv (s.evict r) := by
  have hget : ∀ {r' k}, (s.evict r).slots.get? r' = some k → s.slots.get? r' = some k := by
    intro r' k hk
    rw [evict_get] at hk
    split at hk
    · cases hk
    · exact hk
  refine ⟨?_, fun r₁ r₂ k h₁ h₂ => h.apart r₁ r₂ k (hget h₁) (hget h₂),
    fun r' k hk => h.made r' k (hget hk), h.unmade, h.busy, h.building, h.attached, ?_, ?_⟩
  · intro e k st hc
    rw [evict_get, if_neg (hr e k st hc)]
    exact h.slotted e k st hc
  · intro r'
    show backendState r' (s.events ++ [.down r]) = _
    rw [backendState_down, evict_get]
    by_cases heq : r' = r
    · simp [heq]
    · have hne : r ≠ r' := fun hh => heq hh.symm
      simp only [hne, heq, if_false]
      exact h.backend r'
  · exact h.single.snoc nofun

/-- What `enforce` and `sweep` do: a list of tenants is evicted, or some
of it. -/
theorem Inv.evictAll {step : Attached R → R → Attached R}
    (hstep : ∀ s r, step s r = s ∨ step s r = s.evict r) :
    ∀ (rs : List R) {s : Attached R}, Inv s → (∀ r ∈ rs, Unused s r) →
      Inv (rs.foldl step s) ∧ (rs.foldl step s).calls = s.calls
        ∧ (rs.foldl step s).arena = s.arena := by
  intro rs
  induction rs with
  | nil => exact fun h _ => ⟨h, rfl, rfl⟩
  | cons r rs ih =>
    intro s h hrs
    have hrest : ∀ r' ∈ rs, Unused s r' := fun r' hr' => hrs r' (List.mem_cons_of_mem r hr')
    rw [List.foldl_cons]
    rcases hstep s r with heq | heq
    · rw [heq]
      exact ih h hrest
    · rw [heq]
      exact ih (h.evict (hrs r List.mem_cons_self)) hrest

theorem evictFree_cases (s : Attached R) (r : R) : s.evictFree r = s ∨ s.evictFree r = s.evict r := by
  unfold evictFree
  split
  · exact .inl rfl
  · exact .inr rfl

/-- The tenants a step evicts. -/
def evictees (max idle : Nat) (s : Attached R) : AttachLabel R → List R
  | .sweep now => stale idle now s
  | .enforce => overCeiling max s
  | .step i _ _ => match s.calls[i]? with
      | some (.live _ _ .enforce) => overCeiling max s
      | _ => []
  | _ => []

/-- A tenant a budget takes is in the map and nobody is in its slot. -/
def Free (s : Attached R) (r : R) : Prop := ∃ k, s.slots.get? r = some k ∧ (s.arena k).free = true

variable {max : Nat}

theorem free_of_overCeiling (h : r ∈ overCeiling max s) : Free s r := by
  unfold overCeiling at h
  split at h
  · cases h
  · obtain ⟨⟨used, r'⟩, hmem, rfl⟩ := List.mem_map.mp h
    have hsorted := List.mem_of_mem_take hmem
    rw [List.mem_insertionSort] at hsorted
    obtain ⟨⟨r', k⟩, hfree, heq⟩ := List.mem_map.mp hsorted
    cases heq
    obtain ⟨hin, hf⟩ := List.mem_filter.mp hfree
    exact ⟨k, OrdMap.get?_eq_some.mpr hin, hf⟩

variable {idle : Nat}

theorem free_of_stale {now : Nat} (h : r ∈ stale idle now s) : Free s r := by
  obtain ⟨⟨r', k⟩, hmem, rfl⟩ := List.mem_map.mp h
  obtain ⟨hin, hf⟩ := List.mem_filter.mp hmem
  simp only [decide_eq_true_eq] at hf
  exact ⟨k, OrdMap.get?_eq_some.mpr hin, hf.2⟩

theorem Inv.unused (h : Inv s) (hf : Free s r)
    (hnew : ∀ c ∈ s.calls, c.unmarked ≠ some r) : Unused s r := by
  intro e k st hc heq
  obtain ⟨k', hk', hfree⟩ := hf
  have hk : k' = k := by
    have hslot := h.slotted e k st hc
    rw [heq, hk'] at hslot
    exact Option.some.inj hslot
  subst hk
  have hnone : s.calls.countP (HoldCall.marks k') = 0 := by
    rw [← h.busy k']
    exact of_decide_eq_true hfree
  have hmark := List.countP_eq_zero.mp hnone _ hc
  have hun := hnew _ hc
  cases st with
  | use => exact hun (congrArg some heq)
  | mark => exact hun (congrArg some heq)
  | _ => simp [HoldCall.marks, Stage.marked] at hmark

/-! ## A call takes a step -/

/-- The state after a step of call `i` in its slot `k`. -/
def moved (s : Attached R) (i : Nat) (e : HoldEntry R) (k : Nat) (sl : AttachSlot) (st : Stage)
    (evs : List (BackendEvent R)) : Attached R :=
  { s with
    arena := Function.update s.arena k sl
    calls := s.calls.set i (.live e k st)
    events := evs }

/-- What a step of a call may do to its slot, with its stages before and
after. -/
structure Fits (s : Attached R) (e : HoldEntry R) (k : Nat) (st st' : Stage) (sl : AttachSlot)
    (evs : List (BackendEvent R)) : Prop where
  busy : sl.busy + (if st.marked then 1 else 0)
    = (s.arena k).busy + (if st'.marked then 1 else 0)
  builds : (if sl.cell = .building then 1 else 0) + (if st = .building then 1 else 0)
    = (if (s.arena k).cell = .building then 1 else 0) + (if st' = .building then 1 else 0)
  keeps : (s.arena k).cell = .up → sl.cell = .up
  attached : st'.attached = true → sl.cell = .up
  backend : backendState e.tenantRef evs = sl.cell.state
  others : ∀ r, r ≠ e.tenantRef → backendState r evs = backendState r s.events
  single : Single evs

variable {e : HoldEntry R} {k i : Nat} {st st' : Stage} {sl : AttachSlot}

theorem Inv.moved {evs : List (BackendEvent R)} (h : Inv s) (hc : s.calls[i]? = some (.live e k st))
    (hf : Fits s e k st st' sl evs) : Inv (s.moved i e k sl st' evs) := by
  have hmem := List.mem_of_getElem? hc
  have hslot := h.slotted e k st hmem
  have hmade := h.made _ _ hslot
  have harena : ∀ k', (s.moved i e k sl st' evs).arena k' = if k' = k then sl else s.arena k' :=
    fun k' => Function.update_apply ..
  refine ⟨?_, h.apart, h.made, ?_, ?_, ?_, ?_, ?_, hf.single⟩
  · intro e' k' st'' hm
    rcases List.mem_or_eq_of_mem_set hm with hold | heq
    · exact h.slotted e' k' st'' hold
    · cases heq
      exact hslot
  · intro k' hle
    have hle' : s.made ≤ k' := hle
    rw [harena, if_neg (by omega)]
    exact h.unmade k' hle'
  · intro k'
    have hcount := countP_set_add (p := HoldCall.marks k') (b := .live e k st') hc
    have hold := h.busy k'
    have hbusy := hf.busy
    rw [harena]
    show _ = (s.calls.set i (.live e k st')).countP (HoldCall.marks k')
    by_cases hk : k' = k
    · subst hk
      simp only [HoldCall.marks, decide_true, Bool.true_and] at hcount
      rw [if_pos rfl]
      omega
    · have hk' : ¬ k = k' := fun hh => hk hh.symm
      simp only [HoldCall.marks, hk', decide_false, Bool.false_and] at hcount
      rw [if_neg hk]
      simpa [hold] using hcount.symm
  · intro k'
    have hcount := countP_set_add (p := HoldCall.builds k') (b := .live e k st') hc
    have hold := h.building k'
    have hbuilds := hf.builds
    rw [harena]
    show (s.calls.set i (.live e k st')).countP (HoldCall.builds k') = _
    by_cases hk : k' = k
    · subst hk
      simp only [HoldCall.builds, decide_true, Bool.true_and, decide_eq_true_eq] at hcount
      rw [if_pos rfl]
      omega
    · have hk' : ¬ k = k' := fun hh => hk hh.symm
      simp only [HoldCall.builds, hk', decide_false, Bool.false_and] at hcount
      rw [if_neg hk, ← hold]
      simpa using hcount
  · intro e' k' st'' hm hat
    rw [harena]
    rcases List.mem_or_eq_of_mem_set hm with hin | heq
    · split
      · rename_i hk
        exact hf.keeps (hk ▸ h.attached e' k' st'' hin hat)
      · exact h.attached e' k' st'' hin hat
    · cases heq
      rw [if_pos rfl]
      exact hf.attached hat
  · intro r
    show backendState r evs = (s.slots.get? r).elim _ _
    by_cases hr : r = e.tenantRef
    · subst hr
      rw [hslot]
      show _ = ((s.moved i e k sl st' evs).arena k).cell.state
      rw [harena, if_pos rfl]
      exact hf.backend
    · rw [hf.others r hr, h.backend r]
      cases hget : s.slots.get? r with
      | none => rfl
      | some k' =>
        have hne : k' ≠ k := by
          rintro rfl
          exact hr (h.apart r _ k' hget hslot)
        show _ = ((s.moved i e k sl st' evs).arena k').cell.state
        rw [harena, if_neg hne]
        rfl

/-- A step that does not touch the cell and says nothing to the backend. -/
theorem Inv.fits (st' : Stage) (h : Inv s) (hc : HoldCall.live e k st ∈ s.calls) (hcell : sl.cell = (s.arena k).cell)
    (hbusy : sl.busy + (if st.marked then 1 else 0)
      = (s.arena k).busy + (if st'.marked then 1 else 0))
    (hb : st ≠ .building) (hb' : st' ≠ .building)
    (hat : st'.attached = true → st.attached = true ∨ (s.arena k).cell = .up) :
    Fits s e k st st' sl s.events where
  busy := hbusy
  builds := by rw [hcell, if_neg hb, if_neg hb']
  keeps hup := hcell.trans hup
  attached hs := by
    rw [hcell]
    exact (hat hs).elim (h.attached e k st hc) id
  backend := by
    rw [h.backend, h.slotted e k st hc, hcell]
    rfl
  others _ _ := rfl
  single := h.single

theorem moved_self (s : Attached R) (i : Nat) (e : HoldEntry R) (k : Nat) (st : Stage) :
    s.moved i e k (s.arena k) st s.events = s.setCall i (.live e k st) := by
  rw [moved, Function.update_eq_self]
  rfl

theorem Inv.passes (h : Inv s) (hc : s.calls[i]? = some (.live e k st))
    (hmark : st.marked = st'.marked) (hb : st ≠ .building) (hb' : st' ≠ .building)
    (hat : st'.attached = true → st.attached = true ∨ (s.arena k).cell = .up) :
    Inv (s.setCall i (.live e k st')) := by
  rw [← moved_self]
  exact h.moved hc (h.fits st' (List.mem_of_getElem? hc) rfl (by rw [hmark]) hb hb' hat)

/-- Where a call that builds is, its cell is building. -/
theorem Inv.cell_building (h : Inv s)
    (hc : HoldCall.live e k .building ∈ s.calls) : (s.arena k).cell = .building := by
  have hpos : 0 < s.calls.countP (HoldCall.builds k) :=
    List.countP_pos_iff.mpr ⟨_, hc, by simp [HoldCall.builds]⟩
  rw [h.building k] at hpos
  by_contra hne
  rw [if_neg hne] at hpos
  cases hpos

theorem backendState_other {r' : R} (evs : List (BackendEvent R)) {ev : BackendEvent R}
    (hne : r' ≠ r) (hev : ev = .upCalled r ∨ ∃ ok, ev = .upDone r ok) :
    backendState r' (evs ++ [ev]) = backendState r' evs := by
  have hne' : r ≠ r' := fun hh => hne hh.symm
  rcases hev with rfl | ⟨ok, rfl⟩
  · rw [backendState_upCalled, if_neg hne']
  · rw [backendState_upDone, if_neg hne']

theorem Inv.fits_done
    (ok : Bool) {cell : UpCell} (h : Inv s) (hc : HoldCall.live e k .building ∈ s.calls)
    (hst' : st' = if ok then .enforce else .leaving) (hcell : cell = if ok then .up else .empty) :
    Fits s e k .building st' { s.arena k with cell := cell }
      (s.events ++ [.upDone e.tenantRef ok]) := by
  have hbuild := h.cell_building hc
  refine ⟨?_, ?_, ?_, ?_, ?_, ?_, ?_⟩
  · rw [hst']
    cases ok <;> rfl
  · rw [hst', hcell, hbuild]
    cases ok <;> rfl
  · intro hup
    rw [hbuild] at hup
    cases hup
  · intro hat
    rw [hst'] at hat
    rw [hcell]
    cases ok with
    | true => rfl
    | false => cases hat
  · rw [backendState_upDone, if_pos rfl, hcell]
    cases ok <;> rfl
  · exact fun r hr => backendState_other _ hr (.inr ⟨ok, rfl⟩)
  · exact h.single.snoc nofun

theorem Inv.fits_called
    (h : Inv s) (hc : HoldCall.live e k .attach ∈ s.calls) (hempty : (s.arena k).cell = .empty)
    (hsl : sl = { s.arena k with cell := .building, deployed := e.deployed }) :
    Fits s e k .attach .building sl (s.events ++ [.upCalled e.tenantRef]) := by
  have hdown : backendState e.tenantRef s.events = .down := by
    rw [h.backend, h.slotted e k _ hc]
    show (s.arena k).cell.state = .down
    rw [hempty]
    rfl
  refine ⟨?_, ?_, ?_, ?_, ?_, ?_, ?_⟩
  · rw [hsl]
    rfl
  · rw [hsl, hempty]
    rfl
  · intro hup
    rw [hempty] at hup
    cases hup
  · nofun
  · rw [backendState_upCalled, hsl]
    simp [UpCell.state]
  · exact fun r hr => backendState_other _ hr (.inl rfl)
  · refine h.single.snoc fun r hev => ?_
    cases hev
    exact hdown

/-- A step evicts no tenant whose slot a call has looked up and not
marked, and no attach fails after `backend.up` is done. -/
def spares (max idle : Nat) (s : Attached R) (l : AttachLabel R) : Bool :=
  ((evictees max idle s l).all fun r => s.calls.all fun c => c.unmarked ≠ some r)
    && match l with
      | .step i _ .unrouted => match s.calls[i]? with
          | some (.live _ _ .building) => false
          | _ => true
      | _ => true

theorem Inv.enforced (h : Inv s)
    (hspare : ∀ r ∈ overCeiling max s, ∀ c ∈ s.calls, c.unmarked ≠ some r) :
    Inv (s.enforce max) ∧ (s.enforce max).calls = s.calls ∧ (s.enforce max).arena = s.arena :=
  Inv.evictAll evictFree_cases _ h fun r hr => h.unused (free_of_overCeiling hr) (hspare r hr)

theorem spares_evictees {l : AttachLabel R} (h : spares max idle s l = true) :
    ∀ r ∈ evictees max idle s l, ∀ c ∈ s.calls, c.unmarked ≠ some r := by
  intro r hr c hc
  have hall := List.all_eq_true.mp (Bool.and_eq_true .. |>.mp h).1 r hr
  simpa using List.all_eq_true.mp hall c hc

theorem Inv.advance {now : Nat} {s' : Attached R} {r : BackendEnd} (h : Inv s)
    (hc : s.calls[i]? = some (.live e k st)) (hok : spares max idle s (.step i now r) = true)
    (hn : s.advance max i e k now r st = some s') : Inv s' := by
  have hmem := List.mem_of_getElem? hc
  cases st with
  | use =>
    cases hn
    exact h.moved hc (h.fits .mark hmem rfl rfl nofun nofun nofun)
  | mark =>
    cases hn
    exact h.moved hc (h.fits .attach hmem rfl rfl nofun nofun nofun)
  | attach =>
    simp only [Attached.advance] at hn
    split at hn
    · rename_i hup
      cases hn
      exact h.passes hc rfl nofun nofun fun _ => .inr hup
    · cases hn
    · rename_i hempty
      cases hn
      exact h.moved hc (h.fits_called hmem hempty rfl)
  | building =>
    cases r with
    | ok =>
      cases hn
      exact h.moved hc (h.fits_done true hmem rfl rfl)
    | failed =>
      cases hn
      exact h.moved hc (h.fits_done false hmem rfl rfl)
    | unrouted => simp [spares, hc] at hok
  | enforce =>
    cases hn
    have hev : evictees max idle s (.step i now r) = overCeiling max s := by
      simp [evictees, hc]
    have hspare := spares_evictees hok
    rw [hev] at hspare
    obtain ⟨hinv, hcalls, harena⟩ := h.enforced hspare
    have hc' : (s.enforce max).calls[i]? = some (.live e k .enforce) := by
      rw [hcalls]
      exact hc
    exact hinv.passes hc' rfl nofun nofun fun _ => .inl rfl
  | compare =>
    cases hn
    split
    · exact h.passes hc rfl nofun nofun fun _ => .inl rfl
    · exact h.passes hc rfl nofun nofun fun _ => .inl rfl
  | lock =>
    simp only [Attached.advance] at hn
    split at hn
    · cases hn
    · cases hn
      exact h.moved hc (h.fits .compareAgain hmem rfl rfl nofun nofun fun _ => .inl rfl)
  | compareAgain =>
    simp only [Attached.advance] at hn
    split at hn
    · cases hn
      exact h.moved hc (h.fits .held hmem rfl rfl nofun nofun fun _ => .inl rfl)
    · cases hn
      exact h.passes hc rfl nofun nofun fun _ => .inl rfl
  | refresh =>
    simp only [Attached.advance] at hn
    split at hn
    · cases hn
      exact h.moved hc (h.fits .held hmem rfl rfl nofun nofun fun _ => .inl rfl)
    · cases hn
      exact h.moved hc (h.fits .leaving hmem rfl rfl nofun nofun nofun)
  | held => cases hn
  | leaving => cases hn

/-! ## Beginning and letting go -/

theorem Inv.begun (h : Inv s) : Inv { s with calls := s.calls ++ [.lookup e] } := by
  have hmem : ∀ e' k st, HoldCall.live e' k st ∈ s.calls ++ [.lookup e] →
      HoldCall.live e' k st ∈ s.calls := by
    intro e' k st hc
    rcases List.mem_append.mp hc with hold | hnew
    · exact hold
    · cases List.mem_singleton.mp hnew
  refine ⟨fun e' k st hc => h.slotted e' k st (hmem e' k st hc), h.apart, h.made, h.unmade, ?_, ?_,
    fun e' k st hc => h.attached e' k st (hmem e' k st hc), h.backend, h.single⟩
  · intro k
    rw [List.countP_append]
    exact h.busy k
  · intro k
    rw [List.countP_append]
    exact h.building k

/-- A call that does not touch its slot's cell and is counted nowhere. -/
theorem Inv.setCall {c c' : HoldCall R} (h : Inv s) (hc : s.calls[i]? = some c)
    (hslot : ∀ e k st, c' = .live e k st → s.slots.get? e.tenantRef = some k)
    (hmark : ∀ k, c'.marks k = c.marks k) (hbuild : ∀ k, c'.builds k = c.builds k)
    (hat : ∀ e k st, c' = .live e k st → st.attached = false) : Inv (s.setCall i c') := by
  refine ⟨?_, h.apart, h.made, h.unmade, ?_, ?_, ?_, h.backend, h.single⟩
  · intro e k st hm
    rcases List.mem_or_eq_of_mem_set hm with hold | heq
    · exact h.slotted e k st hold
    · exact hslot e k st heq.symm
  · intro k
    have hcount := countP_set_add (p := HoldCall.marks k) (b := c') hc
    rw [hmark k] at hcount
    exact (h.busy k).trans (Nat.add_right_cancel hcount).symm
  · intro k
    have hcount := countP_set_add (p := HoldCall.builds k) (b := c') hc
    rw [hbuild k] at hcount
    exact (Nat.add_right_cancel hcount).trans (h.building k)
  · intro e k st hm hst
    rcases List.mem_or_eq_of_mem_set hm with hold | heq
    · exact h.attached e k st hold hst
    · rw [hat e k st heq.symm] at hst
      cases hst

theorem Inv.slotMade (h : Inv s) (hnone : s.slots.get? r = none) : Inv { s with
      slots := s.slots.insert r s.made
      arena := Function.update s.arena s.made .new
      made := s.made + 1 } := by
  have hnew := h.unmade s.made le_rfl
  have harena : Function.update s.arena s.made .new = s.arena := by
    rw [← hnew, Function.update_eq_self]
  rw [harena]
  have hlt : ∀ {r' k}, s.slots.get? r' = some k → k ≠ s.made := fun hk =>
    Nat.ne_of_lt (h.made _ _ hk)
  refine ⟨?_, ?_, ?_, ?_, h.busy, h.building, h.attached, ?_, h.single⟩
  · intro e k st hc
    have hslot := h.slotted e k st hc
    have hne : e.tenantRef ≠ r := by
      intro heq
      rw [heq, hnone] at hslot
      cases hslot
    rw [OrdMap.get?_insert, if_neg hne]
    exact hslot
  · intro r₁ r₂ k h₁ h₂
    rw [OrdMap.get?_insert] at h₁ h₂
    split at h₁
    · split at h₂
      · rename_i hr₁ hr₂
        rw [hr₁, hr₂]
      · exact absurd (Option.some.inj h₁).symm (hlt h₂)
    · split at h₂
      · exact absurd (Option.some.inj h₂).symm (hlt h₁)
      · exact h.apart r₁ r₂ k h₁ h₂
  · intro r' k hk
    rw [OrdMap.get?_insert] at hk
    split at hk
    · cases hk
      exact Nat.lt_succ_self _
    · exact Nat.lt_succ_of_lt (h.made r' k hk)
  · intro k hle
    exact h.unmade k (Nat.le_of_succ_le hle)
  · intro r'
    rw [OrdMap.get?_insert, h.backend r']
    split
    · rename_i heq
      rw [heq, hnone]
      show BackendState.down = (s.arena s.made).cell.state
      rw [hnew]
      rfl
    · rfl

theorem Inv.found (h : Inv s) (hc : s.calls[i]? = some (.lookup e)) :
    Inv ((s.slot e.tenantRef).1.setCall i (.live e (s.slot e.tenantRef).2 .use)) := by
  have hmark : ∀ k k', (HoldCall.live e k' .use).marks k = (HoldCall.lookup e).marks k :=
    fun k k' => Bool.and_false _
  have hbuild : ∀ k k', (HoldCall.live e k' .use).builds k = (HoldCall.lookup e).builds k :=
    fun k k' => Bool.and_false _
  cases hget : s.slots.get? e.tenantRef with
  | some k =>
    have hslot : s.slot e.tenantRef = (s, k) := by
      rw [slot, hget]
    rw [hslot]
    refine h.setCall hc ?_ (fun k' => hmark k' k) (fun k' => hbuild k' k) ?_
    · intro e' k' st heq
      cases heq
      exact hget
    · intro e' k' st heq
      cases heq
      rfl
  | none =>
    have hslot : s.slot e.tenantRef = ({ s with
        slots := s.slots.insert e.tenantRef s.made
        arena := Function.update s.arena s.made .new
        made := s.made + 1 }, s.made) := by
      rw [slot, hget]
    rw [hslot]
    refine (h.slotMade hget).setCall hc ?_ (fun k' => hmark k' _) (fun k' => hbuild k' _) ?_
    · intro e' k' st heq
      cases heq
      exact (OrdMap.get?_insert ..).trans (if_pos rfl)
    · intro e' k' st heq
      cases heq
      rfl

theorem Inv.dropped (h : Inv s) (hc : s.calls[i]? = some (.live e k st)) (hmark : st.marked = true)
    (hb : st ≠ .building) :
    Inv ((s.setSlot k fun sl => { sl with busy := sl.busy - 1 }).setCall i .done) := by
  have hmem := List.mem_of_getElem? hc
  have hmade := h.made _ _ (h.slotted e k st hmem)
  have harena : ∀ k', ((s.setSlot k fun sl => { sl with busy := sl.busy - 1 }).setCall i .done).arena k'
      = if k' = k then { s.arena k with busy := (s.arena k).busy - 1 } else s.arena k' :=
    fun k' => Function.update_apply ..
  have hcell : ∀ k', (((s.setSlot k fun sl => { sl with busy := sl.busy - 1 }).setCall i
      .done).arena k').cell = (s.arena k').cell := by
    intro k'
    rw [harena]
    split
    · rename_i hk
      rw [hk]
    · rfl
  have hold : ∀ e' k' st', HoldCall.live e' k' st' ∈ s.calls.set i .done →
      HoldCall.live e' k' st' ∈ s.calls := by
    intro e' k' st' hm
    rcases List.mem_or_eq_of_mem_set hm with hin | heq
    · exact hin
    · cases heq
  refine ⟨fun e' k' st' hm => h.slotted e' k' st' (hold e' k' st' hm), h.apart, h.made, ?_, ?_, ?_,
    ?_, ?_, h.single⟩
  · intro k' hle
    have hle' : s.made ≤ k' := hle
    rw [harena, if_neg (by omega)]
    exact h.unmade k' hle'
  · intro k'
    have hcount := countP_set_add (p := HoldCall.marks k') (b := .done) hc
    have hbusy := h.busy k'
    rw [harena]
    show _ = (s.calls.set i .done).countP (HoldCall.marks k')
    by_cases hk : k' = k
    · subst hk
      simp only [HoldCall.marks, hmark, decide_true, Bool.and_self, if_true] at hcount
      rw [if_pos rfl]
      show (s.arena k').busy - 1 = _
      simp at hcount
      omega
    · have hk' : ¬ k = k' := fun hh => hk hh.symm
      simp only [HoldCall.marks, hk', decide_false, Bool.false_and] at hcount
      rw [if_neg hk]
      simpa [hbusy] using hcount.symm
  · intro k'
    have hcount := countP_set_add (p := HoldCall.builds k') (b := .done) hc
    rw [hcell, ← h.building k']
    show (s.calls.set i .done).countP (HoldCall.builds k') = _
    simpa [HoldCall.builds, hb] using hcount
  · intro e' k' st' hm hat
    rw [hcell]
    exact h.attached e' k' st' (hold e' k' st' hm) hat
  · intro r
    show backendState r s.events = (s.slots.get? r).elim _ _
    rw [h.backend r]
    cases s.slots.get? r with
    | none => rfl
    | some k' => exact congrArg UpCell.state (hcell k').symm

theorem inv_next {s' : Attached R} {l : AttachLabel R} (h : Inv s)
    (hok : spares max idle s l = true) (hn : next max idle s l = some s') : Inv s' := by
  have hspare := spares_evictees hok
  cases l with
  | hold e =>
    cases hn
    exact h.begun
  | step i now r =>
    simp only [next] at hn
    split at hn
    · rename_i e hc
      cases hn
      exact h.found hc
    · rename_i e k st hc
      exact h.advance hc hok hn
    · cases hn
  | drop i =>
    simp only [next] at hn
    split at hn
    · rename_i e k hc
      cases hn
      exact h.dropped hc rfl nofun
    · rename_i e k hc
      cases hn
      exact h.dropped hc rfl nofun
    · cases hn
  | sweep now =>
    cases hn
    have hall := Inv.evictAll (fun s r => .inr rfl) (stale idle now s) h
      fun r hr => h.unused (free_of_stale hr) (hspare r hr)
    obtain ⟨hinv, -⟩ := hall
    exact ⟨hinv.slotted, hinv.apart, hinv.made, hinv.unmade, hinv.busy, hinv.building,
      hinv.attached, hinv.backend, hinv.single⟩
  | enforce =>
    simp only [next] at hn
    split at hn
    · cases hn
    · cases hn
      obtain ⟨hinv, -⟩ := h.enforced hspare
      exact ⟨hinv.slotted, hinv.apart, hinv.made, hinv.unmade, hinv.busy, hinv.building,
        hinv.attached, hinv.backend, hinv.single⟩

/-- In every state of a run that evicts no tenant whose slot a call has
looked up and not marked yet, and in which no attach fails after
`backend.up` is done: a held tenant is up, the backend was only ever asked
for tenants that were down, and a tenant that is not in the map is down. -/
theorem held_stays_up {max idle : Nat} {s : Attached R} {ls : List (AttachLabel R)}
    (hok : Meets (next max idle) (fun s l => spares max idle s l = true) new ls)
    (hr : run (next max idle) new ls = some s) :
    (∀ e k, HoldCall.live e k .held ∈ s.calls → backendState e.tenantRef s.events = .up)
      ∧ Single s.events
      ∧ ∀ r, s.slots.get? r = none → backendState r s.events = .down := by
  have h : Inv s := guarded_invariant (fun _ _ _ => inv_next) inv_new hok hr
  refine ⟨?_, h.single, ?_⟩
  · intro e k hc
    rw [h.backend, h.slotted e k _ hc]
    show (s.arena k).cell.state = .up
    rw [h.attached e k _ hc rfl]
    rfl
  · intro r hr
    rw [h.backend, hr]
    rfl

/-- The steps of a call for a tenant nobody deployed to. -/
def attaching (i now : Nat) : List (AttachLabel Nat) := List.replicate 7 (.step i now .ok)

/-- With room for one tenant, the first is held and dropped, and the
second evicts it. -/
def evicted : List (AttachLabel Nat) :=
  .hold ⟨1, 0⟩ :: attaching 0 10 ++ .drop 0 :: .hold ⟨2, 0⟩ :: attaching 1 20

theorem held_stays_up_evicted :
    ∃ s, run (next 1 900) new evicted = some s
      ∧ s.events = [.upCalled 1, .upDone 1 true, .upCalled 2, .upDone 2 true, .down 1]
      ∧ s.calls = [.done, .live ⟨2, 0⟩ 1 .held]
      ∧ backendState 2 s.events = .up ∧ backendState 1 s.events = .down := by
  have hr : run (next 1 900) new evicted = some _ := rfl
  obtain ⟨hheld, -, hgone⟩ := held_stays_up (by decide) hr
  exact ⟨_, hr, rfl, rfl, hheld ⟨2, 0⟩ 1 (by decide), hgone 1 (by decide)⟩

/-- A second call finds the slot of a tenant that is up, and a sweep takes
the tenant before the call marks it. -/
def sweptAway : List (AttachLabel Nat) :=
  .hold ⟨1, 0⟩ :: attaching 0 10 ++ .drop 0 :: .hold ⟨1, 0⟩ :: .step 1 1000 .ok :: .sweep 1000
    :: List.replicate 5 (.step 1 1000 .ok)

/-- A first call makes its slot, another tenant's attach enforces a ceiling
of one, and then the first call and a third one attach the same tenant. -/
def madeTwice : List (AttachLabel Nat) :=
  .hold ⟨1, 0⟩ :: .step 0 10 .ok :: .hold ⟨2, 0⟩ :: attaching 1 20 ++ .drop 1
    :: List.replicate 4 (.step 0 30 .ok) ++ .hold ⟨1, 0⟩ :: List.replicate 4 (.step 2 40 .ok)

/-- In the first run `hold` has returned a tenant that was stopped before.
In the second `backend.up` is called for a tenant that is up. -/
theorem held_goes_down :
    (∃ s, run (next 5 900) new sweptAway = some s
        ∧ s.events = [.upCalled 1, .upDone 1 true, .down 1]
        ∧ s.calls = [.done, .live ⟨1, 0⟩ 0 .held] ∧ backendState 1 s.events = .down)
      ∧ ∃ s, run (next 1 900) new madeTwice = some s
        ∧ s.events = [.upCalled 2, .upDone 2 true, .down 1, .upCalled 1, .upDone 1 true, .upCalled 1]
        ∧ ¬ Single s.events := by
  have hr : run (next 5 900) new sweptAway = some _ := rfl
  have hr' : run (next 1 900) new madeTwice = some _ := rfl
  refine ⟨⟨_, hr, rfl, rfl, rfl⟩, _, hr', rfl, fun hsingle => ?_⟩
  have hdown := hsingle [.upCalled 2, .upDone 2 true, .down 1, .upCalled 1, .upDone 1 true] 1 [] rfl
  exact absurd hdown (by decide)

end Attached

end Zou
