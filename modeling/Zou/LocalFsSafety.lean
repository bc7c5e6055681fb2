import Mathlib.Algebra.Order.Ring.Nat
import Zou.LocalFs

/-!
# The locks of the local store

A live thread inside the lock has the lock directory to itself, a live
breaker the breaker directory, and one that clears the lock clears a dead
thread's (`Locks`). So under a compare that has passed the object changes
only by a link, which an absent object alone allows.

Two things can go wrong, and `sound` leaves them out of a step: a creation
by `put_if_match` renames over an object linked in since it read the key
absent, and a stale breaker is removed after another thread has removed it
and made its own.
-/

namespace Zou

open Trace

namespace FsStage

variable {C V : Type}

/-- What the call was decided to answer. -/
def result : FsStage C V → Option (FsResult C V)
  | .unlinkTmp r | .unstamp _ r | .rmdir _ r | .settle _ r | .leave r => some r
  | _ => none

/-- The stamps in the lock directory of a thread that is inside it. -/
def inside : FsStage C V → Option (List FsStamp)
  | .stamp _ | .rmdir _ _ => some []
  | .readKey st | .tmp st | .stillMine st | .rename st | .unlinkKey st | .unstamp st _ => some [st]
  | _ => none

/-- The thread is inside the breaker. -/
def breaking : FsStage C V → Bool
  | .restat | .relist | .clear | .unlinkAll _ | .rmdirLock | .rmdirBreaker => true
  | _ => false

/-- It has found the lock expired once more and removes it. -/
def clearing : FsStage C V → Bool
  | .clear | .unlinkAll _ | .rmdirLock => true
  | _ => false

/-- It has compared the versions and found them the same. -/
def compared : FsStage C V → Bool
  | .tmp _ | .stillMine _ | .rename _ => true
  | _ => false

/-- The stamp it is about to leave in the lock. -/
def pending : FsStage C V → Option FsStamp
  | .stamp st => some st
  | _ => none

/-- It has not got rid of its lock directory at the first try. -/
def settling : FsStage C V → Bool
  | .settle _ _ => true
  | _ => false

theorem inside_of_compared {st : FsStage C V} (h : st.compared = true) : st.inside ≠ none := by
  cases st with
  | tmp x => nofun
  | stillMine x => nofun
  | rename x => nofun
  | _ => cases h

theorem breaking_of_clearing {st : FsStage C V} (h : st.clearing = true) : st.breaking = true := by
  cases st with
  | clear => rfl
  | unlinkAll xs => rfl
  | rmdirLock => rfl
  | _ => cases h

end FsStage

namespace LocalFs

variable {C V : Type} {proc : Nat → Nat} {ver : C → V}

/-! ## The locks -/

/-- What a live thread knows of the key and its lock directories. -/
structure Knows (proc : Nat → Nat) (ver : C → V) (s : LocalFs C V) (t : Nat) (op : FsOp C V)
    (st : FsStage C V) : Prop where
  holds : ∀ sts, st.inside = some sts → s.lock = some ⟨t, sts⟩
  stamps : ∀ x, st.pending = some x → x.pid = proc t
  breaks : st.breaking = true → s.breaker = some t
  clears : st.clearing = true → ∃ d, s.lock = some d ∧ s.dead (proc d.maker) = true
  compared : ∀ c v, op = .putIfMatch c (some v) → st.compared = true → s.file.map ver = some v
  settled : st.settling = false

structure Locks (proc : Nat → Nat) (ver : C → V) (s : LocalFs C V) : Prop where
  threads : ∀ t op st, s.pcs t = .run op st → s.dead (proc t) = false → Knows proc ver s t op st
  stamped : ∀ d, s.lock = some d → ∀ x ∈ d.stamps, x.pid = proc d.maker

/-- No other live thread is inside the lock or clears it. -/
def Sole (proc : Nat → Nat) (s : LocalFs C V) (t : Nat) : Prop :=
  ∀ u op st, u ≠ t → s.pcs u = .run op st → s.dead (proc u) = false →
    st.inside = none ∧ st.clearing = false

variable {s : LocalFs C V}

theorem Locks.sole_of_free (h : Locks proc ver s) (hfree : s.lock = none)
    (t : Nat) : Sole proc s t := by
  intro u op st _ hu hlive
  have hk := h.threads u op st hu hlive
  refine ⟨?_, ?_⟩
  · cases hin : st.inside with
    | none => rfl
    | some sts =>
      have hl := hk.holds sts hin
      rw [hfree] at hl
      cases hl
  · cases hc : st.clearing with
    | false => rfl
    | true =>
      obtain ⟨d, hd, -⟩ := hk.clears hc
      rw [hfree] at hd
      cases hd

variable {t : Nat}

theorem Locks.sole_of_inside {sts : List FsStamp} (h : Locks proc ver s)
    (hlock : s.lock = some ⟨t, sts⟩) (ht : s.dead (proc t) = false) : Sole proc s t := by
  intro u op st hne hu hlive
  have hk := h.threads u op st hu hlive
  refine ⟨?_, ?_⟩
  · cases hin : st.inside with
    | none => rfl
    | some sts' =>
      have hl := hk.holds sts' hin
      rw [hlock] at hl
      cases hl
      exact absurd rfl hne
  · cases hc : st.clearing with
    | false => rfl
    | true =>
      obtain ⟨d, hd, hdead⟩ := hk.clears hc
      rw [hlock] at hd
      cases hd
      rw [ht] at hdead
      cases hdead

variable {op : FsOp C V} {st : FsStage C V}

theorem Locks.sole_of_clearing (h : Locks proc ver s) (hk : Knows proc ver s t op st)
    (hc : st.clearing = true) : Sole proc s t := by
  obtain ⟨d, hd, hdead⟩ := hk.clears hc
  have hmine : s.breaker = some t := hk.breaks (FsStage.breaking_of_clearing hc)
  intro u op' st' hne hu hlive
  have hk' := h.threads u op' st' hu hlive
  refine ⟨?_, ?_⟩
  · cases hin : st'.inside with
    | none => rfl
    | some sts =>
      have hl := hk'.holds sts hin
      rw [hd] at hl
      cases hl
      rw [hlive] at hdead
      cases hdead
  · cases hc' : st'.clearing with
    | false => rfl
    | true =>
      have hb : s.breaker = some u := hk'.breaks (FsStage.breaking_of_clearing hc')
      rw [hmine] at hb
      exact absurd (Option.some.inj hb).symm hne

variable {s' : LocalFs C V}

/-- What a thread knows stays so in a step of another one that leaves the
lock alone or is sole, leaves the breaker alone unless the thread is not
in it, and leaves a file that is there alone or is sole. -/
theorem Knows.frame {u : Nat} (h : Knows proc ver s u op st)
    (hdead : ∀ p, s.dead p = true → s'.dead p = true)
    (hlock : s'.lock = s.lock ∨ (st.inside = none ∧ st.clearing = false))
    (hbreaker : s'.breaker = s.breaker ∨ st.breaking = false)
    (hfile : (∀ v, s.file.map ver = some v → s'.file.map ver = some v) ∨ st.inside = none) :
    Knows proc ver s' u op st where
  holds sts hin := by
    rcases hlock with heq | ⟨hnone, -⟩
    · rw [heq]
      exact h.holds sts hin
    · rw [hnone] at hin
      cases hin
  stamps := h.stamps
  breaks hb := by
    rcases hbreaker with heq | hno
    · rw [heq]
      exact h.breaks hb
    · rw [hno] at hb
      cases hb
  clears hc := by
    rcases hlock with heq | ⟨-, hno⟩
    · obtain ⟨d, hd, hdd⟩ := h.clears hc
      exact ⟨d, heq.trans hd, hdead _ hdd⟩
    · rw [hno] at hc
      cases hc
  compared c v hop hcmp := by
    rcases hfile with hkeep | hno
    · exact hkeep v (h.compared c v hop hcmp)
    · exact absurd hno (FsStage.inside_of_compared hcmp)
  settled := h.settled

/-- A stage that asks nothing of the locks. -/
def FsStage.plain (st : FsStage C V) : Bool :=
  st.inside.isNone && st.pending.isNone && !st.breaking && !st.compared && !st.settling

theorem knows_plain (h : FsStage.plain st = true) : Knows proc ver s t op st := by
  simp only [FsStage.plain, Bool.and_eq_true, Option.isNone_iff_eq_none, Bool.not_eq_true'] at h
  obtain ⟨⟨⟨⟨hin, hp⟩, hb⟩, hc⟩, hs⟩ := h
  refine ⟨?_, ?_, ?_, ?_, ?_, hs⟩
  · intro sts hs
    rw [hin] at hs
    cases hs
  · intro x hx
    rw [hp] at hx
    cases hx
  · intro hb'
    rw [hb] at hb'
    cases hb'
  · intro hc'
    rw [FsStage.breaking_of_clearing hc'] at hb
    cases hb
  · intro c v _ hc'
    rw [hc] at hc'
    cases hc'

theorem knows_inside {sts : List FsStamp} (hin : st.inside = some sts)
    (hlock : s.lock = some ⟨t, sts⟩) (hp : ∀ x, st.pending = some x → x.pid = proc t)
    (hb : st.breaking = false) (hset : st.settling = false)
    (hc : ∀ c v, op = .putIfMatch c (some v) → st.compared = true → s.file.map ver = some v) :
    Knows proc ver s t op st where
  holds sts' hin' := by
    rw [hin] at hin'
    cases hin'
    exact hlock
  stamps := hp
  breaks hb' := by
    rw [hb] at hb'
    cases hb'
  clears hc' := by
    rw [FsStage.breaking_of_clearing hc'] at hb
    cases hb
  compared := hc
  settled := hset

theorem knows_breaking (hb : st.breaking = true) (hmine : s.breaker = some t)
    (hc : st.clearing = true → ∃ d, s.lock = some d ∧ s.dead (proc d.maker) = true) :
    Knows proc ver s t op st := by
  have hout : st.inside = none ∧ st.pending = none ∧ st.compared = false ∧ st.settling = false := by
    cases st <;> first | exact ⟨rfl, rfl, rfl, rfl⟩ | cases hb
  obtain ⟨hin, hp, hcmp, hset⟩ := hout
  refine ⟨?_, ?_, fun _ => hmine, hc, ?_, hset⟩
  · intro sts hs
    rw [hin] at hs
    cases hs
  · intro x hx
    rw [hp] at hx
    cases hx
  · intro c v _ hc'
    rw [hcmp] at hc'
    cases hc'

/-! ## One step -/

/-- Punctual: a lock or breaker directory is past the stale age only when
the thread that made it is dead. -/
def punctual (proc : Nat → Nat) (s : LocalFs C V) : FsLabel C V → Bool
  | .step t true => match s.pcs t with
      | .run _ .stat | .run _ .restat => s.lock.all fun d => s.dead (proc d.maker)
      | .run _ .statBreaker => s.breaker.all fun u => s.dead (proc u)
      | _ => true
  | _ => true

/-- Sound: a creation by `put_if_match` renames onto nothing, and a breaker
that is removed as stale is a dead thread's when it is removed. -/
def sound (proc : Nat → Nat) (s : LocalFs C V) : FsLabel C V → Bool
  | .step t _ => match s.pcs t with
      | .run (.putIfMatch _ none) (.rename _) => s.file.isNone
      | .run _ .clearBreaker => s.breaker.all fun u => s.dead (proc u)
      | _ => true
  | _ => true

/-- The state after a step of `t`, and what the others may rely on. -/
structure Stepped (proc : Nat → Nat) (ver : C → V) (s s' : LocalFs C V) (t : Nat)
    (pc : FsPc C V) : Prop where
  pcs : s'.pcs = Function.update s.pcs t pc
  dead : s'.dead = s.dead
  self : ∀ op st, pc = .run op st → Knows proc ver s' t op st
  lock : s'.lock = s.lock ∨ Sole proc s t
  breaker : s'.breaker = s.breaker ∨ ∀ u op st, u ≠ t → s.pcs u = .run op st →
    s.dead (proc u) = false → st.breaking = false
  file : (∀ v, s.file.map ver = some v → s'.file.map ver = some v) ∨ Sole proc s t
  stamped : ∀ d, s'.lock = some d → ∀ x ∈ d.stamps, x.pid = proc d.maker

theorem Stepped.locks {pc : FsPc C V} (h : Locks proc ver s)
    (hs : Stepped proc ver s s' t pc) : Locks proc ver s' := by
  refine ⟨?_, hs.stamped⟩
  intro u op st hu hlive
  rw [hs.pcs, Function.update_apply] at hu
  rw [hs.dead] at hlive
  split at hu
  · rename_i heq
    rw [heq]
    exact hs.self op st hu
  · rename_i hne
    refine (h.threads u op st hu hlive).frame (fun p hp => hs.dead ▸ hp) ?_ ?_ ?_
    · exact hs.lock.imp id fun hsole => hsole u op st hne hu hlive
    · exact hs.breaker.imp id fun hno => hno u op st hne hu hlive
    · exact hs.file.imp id fun hsole => (hsole u op st hne hu hlive).1

theorem stepped_quiet {pc : FsPc C V} (h : Locks proc ver s)
    (hpcs : s'.pcs = Function.update s.pcs t pc) (hdead : s'.dead = s.dead)
    (hlock : s'.lock = s.lock) (hbreaker : s'.breaker = s.breaker) (hfile : s'.file = s.file)
    (hself : ∀ op st, pc = .run op st → Knows proc ver s' t op st) : Stepped proc ver s s' t pc :=
  ⟨hpcs, hdead, hself, .inl hlock, .inl hbreaker, .inl fun v hv => by rw [hfile]; exact hv,
    by rw [hlock]; exact h.stamped⟩

theorem stepped_goto (h : Locks proc ver s) (hself : Knows proc ver s t op st) :
    Stepped proc ver s (s.goto t op st) t (.run op st) := by
  refine stepped_quiet h rfl rfl rfl rfl rfl fun op' st' heq => ?_
  cases heq
  exact ⟨hself.holds, hself.stamps, hself.breaks, hself.clears, hself.compared, hself.settled⟩

theorem Locks.ownerDead {yes : Bool} (h : Locks proc ver s)
    (hd : s.ownerDead yes = true) : ∃ d, s.lock = some d ∧ s.dead (proc d.maker) = true := by
  simp only [LocalFs.ownerDead, Bool.and_eq_true] at hd
  obtain ⟨d, hlock, hd⟩ := (Option.any_eq_true ..).mp hd.2
  simp only [ne_eq, decide_not, Bool.and_eq_true, Bool.not_eq_true', decide_eq_false_iff_not,
    List.all_eq_true] at hd
  obtain ⟨x, hx⟩ := List.exists_mem_of_ne_nil d.stamps hd.1
  refine ⟨d, hlock, ?_⟩
  rw [← h.stamped d hlock x hx]
  exact hd.2 x hx

theorem Locks.stamped_unlinked {x : FsStamp} (h : Locks proc ver s) :
    ∀ d, s.lock.map (unlinked · x) = some d → ∀ y ∈ d.stamps, y.pid = proc d.maker := by
  intro d hd y hy
  obtain ⟨d₀, hd₀, rfl⟩ := Option.map_eq_some_iff.mp hd
  exact h.stamped d₀ hd₀ y (List.mem_of_mem_erase hy)

/-- What a thread that goes on to `st` knows there. -/
theorem knows_run (h : Knows proc ver s t op st) :
    ∀ op' st', FsPc.run op st = .run op' st' → Knows proc ver s t op' st' := by
  intro op' st' heq
  cases heq
  exact h

/-- The breaker directory is not another live thread's. -/
theorem Locks.breaks_alone (h : Locks proc ver s)
    (hall : ∀ u, s.breaker = some u → u = t ∨ s.dead (proc u) = true) :
    ∀ u op st, u ≠ t → s.pcs u = .run op st → s.dead (proc u) = false → st.breaking = false := by
  intro u op st hne hu hlive
  cases hb : st.breaking with
  | false => rfl
  | true =>
    rcases hall u ((h.threads u op st hu hlive).breaks hb) with heq | hdead
    · exact absurd heq hne
    · exact absurd (hlive.symm.trans hdead) nofun

/-! ## One step of a live thread -/

section Act

variable {s s' : LocalFs C V} {t : Nat} {yes : Bool} {op : FsOp C V} {x : FsStamp}
  (h : Locks proc ver s)

include h

theorem goto_plain {st : FsStage C V} (hst : FsStage.plain st = true) :
    ∃ pc, Stepped proc ver s (s.goto t op st) t pc :=
  ⟨_, stepped_goto h (knows_plain hst)⟩

variable {r : FsResult C V}

/-- A thread inside the lock that goes on inside it, with or without its
answer decided. -/
theorem stepped_inside {st : FsStage C V} (hlock : s.lock = some ⟨t, [x]⟩)
    (hin : st.inside = some [x]) (hst : st.breaking = false ∧ st.compared = false
      ∧ st.settling = false ∧ st.pending = none) :
    ∃ pc, Stepped proc ver s ((s.decide_ t r).goto t op st) t pc := by
  obtain ⟨hb, hc, hset, hp⟩ := hst
  refine ⟨_, stepped_quiet h rfl rfl rfl rfl rfl (knows_run ?_)⟩
  refine knows_inside hin hlock ?_ hb hset ?_
  · rw [hp]
    nofun
  · rw [hc]
    nofun

/-- The object is another one, which the holder of the lock alone can have
made it. -/
theorem stepped_file {f : Option C} (hlive : s.dead (proc t) = false)
    (hlock : s.lock = some ⟨t, [x]⟩) :
    Stepped proc ver s (({ s with file := f }.decide_ t r).goto t op (.unstamp x r)) t
      (.run op (.unstamp x r)) :=
  ⟨rfl, rfl, knows_run (knows_inside rfl hlock nofun rfl rfl nofun), .inl rfl, .inl rfl,
    .inr (h.sole_of_inside hlock hlive), h.stamped⟩

variable [DecidableEq V]

theorem read_stepped (hn : s.act proc ver t yes op .read = some s') :
    ∃ pc, Stepped proc ver s s' t pc := by
  simp only [act] at hn
  split at hn
  · cases hn
    exact ⟨_, stepped_quiet h rfl rfl rfl rfl rfl (knows_run (knows_plain rfl))⟩
  · cases hn

theorem link_stepped (hn : s.act proc ver t yes op .link = some s') :
    ∃ pc, Stepped proc ver s s' t pc := by
  simp only [act] at hn
  split at hn
  · rename_i c hnone
    cases hn
    refine ⟨_, rfl, rfl, knows_run (knows_plain rfl), .inl rfl, .inl rfl,
      .inl fun v hv => ?_, h.stamped⟩
    rw [hnone] at hv
    cases hv
  · cases hn
    exact ⟨_, stepped_quiet h rfl rfl rfl rfl rfl (knows_run (knows_plain rfl))⟩
  · cases hn

theorem mkdir_stepped (hn : s.act proc ver t yes op .mkdir = some s') :
    ∃ pc, Stepped proc ver s s' t pc := by
  simp only [act] at hn
  split at hn
  · rename_i hfree
    cases hn
    refine ⟨_, rfl, rfl, knows_run ?_, .inr (h.sole_of_free hfree t), .inl rfl,
      .inl fun v hv => hv, ?_⟩
    · exact knows_inside rfl rfl (fun x hx => by cases hx; rfl) rfl rfl nofun
    · intro d hd x hx
      cases hd
      cases hx
  · cases hn
    exact goto_plain h rfl

theorem stamp_stepped (hlive : s.dead (proc t) = false) (hk : Knows proc ver s t op (.stamp x))
    (hn : s.act proc ver t yes op (.stamp x) = some s') : ∃ pc, Stepped proc ver s s' t pc := by
  cases hn
  have hmine := hk.holds [] rfl
  have hx := hk.stamps x rfl
  have hlock : (s.lock.map fun d => ({ d with stamps := d.stamps ++ [x] } : LockDir))
      = some ⟨t, [x]⟩ := by rw [hmine]; rfl
  refine ⟨_, rfl, rfl, knows_run ?_, .inr (h.sole_of_inside hmine hlive), .inl rfl,
    .inl fun v hv => hv, ?_⟩
  · have hin : (enter x op).inside = some [x] ∧ (enter x op).pending = none
        ∧ (enter x op).breaking = false ∧ (enter x op).settling = false := by
      cases op <;> exact ⟨rfl, rfl, rfl, rfl⟩
    refine knows_inside hin.1 hlock (fun y hy => ?_) hin.2.2.1 hin.2.2.2 ?_
    · rw [hin.2.1] at hy
      cases hy
    · intro c v hop hcmp
      rw [hop] at hcmp
      cases hcmp
  · intro d hd y hy
    cases hlock.symm.trans hd
    cases List.mem_singleton.mp hy
    exact hx

theorem breaker_stepped (hn : s.act proc ver t yes op .breaker = some s') :
    ∃ pc, Stepped proc ver s s' t pc := by
  simp only [act] at hn
  split at hn
  · rename_i hfree
    cases hn
    refine ⟨_, rfl, rfl, knows_run (knows_breaking rfl rfl nofun), .inl rfl,
      .inr (h.breaks_alone fun u hu => ?_), .inl fun v hv => hv, h.stamped⟩
    rw [hfree] at hu
    cases hu
  · cases hn
    exact goto_plain h rfl

theorem restat_stepped (hk : Knows proc ver s t op .restat) (hpc : s.pcs t = .run op .restat)
    (hp : punctual proc s (.step t yes) = true)
    (hn : s.act proc ver t yes op .restat = some s') : ∃ pc, Stepped proc ver s s' t pc := by
  cases hn
  have hmine := hk.breaks rfl
  split
  · rename_i hold
    simp only [Bool.and_eq_true] at hold
    obtain ⟨rfl, hd⟩ := hold
    obtain ⟨d, hd⟩ := Option.isSome_iff_exists.mp hd
    refine ⟨_, stepped_goto h (knows_breaking rfl hmine fun _ => ⟨d, hd, ?_⟩)⟩
    simpa [punctual, hpc, hd] using hp
  · exact ⟨_, stepped_goto h (knows_breaking rfl hmine nofun)⟩

theorem relist_stepped (hk : Knows proc ver s t op .relist)
    (hn : s.act proc ver t yes op .relist = some s') : ∃ pc, Stepped proc ver s s' t pc := by
  cases hn
  have hmine := hk.breaks rfl
  split
  · rename_i hdead
    exact ⟨_, stepped_goto h (knows_breaking rfl hmine fun _ => h.ownerDead hdead)⟩
  · exact ⟨_, stepped_goto h (knows_breaking rfl hmine nofun)⟩

theorem unlinkAll_stepped {xs : List FsStamp} (hk : Knows proc ver s t op (.unlinkAll xs))
    (hn : s.act proc ver t yes op (.unlinkAll xs) = some s') :
    ∃ pc, Stepped proc ver s s' t pc := by
  have hmine := hk.breaks rfl
  obtain ⟨d, hd, hdead⟩ := hk.clears rfl
  cases xs with
  | nil =>
    cases hn
    exact ⟨_, stepped_goto h (knows_breaking rfl hmine fun _ => ⟨d, hd, hdead⟩)⟩
  | cons x xs =>
    cases hn
    refine ⟨_, rfl, rfl, knows_run ?_, .inr (h.sole_of_clearing hk rfl), .inl rfl,
      .inl fun v hv => hv, h.stamped_unlinked⟩
    refine knows_breaking rfl hmine fun _ => ⟨unlinked d x, ?_, hdead⟩
    show s.lock.map (unlinked · x) = _
    rw [hd]
    rfl

theorem rmdirLock_stepped (hk : Knows proc ver s t op .rmdirLock)
    (hn : s.act proc ver t yes op .rmdirLock = some s') : ∃ pc, Stepped proc ver s s' t pc := by
  cases hn
  have hmine := hk.breaks rfl
  split
  · exact ⟨_, rfl, rfl, knows_run (knows_breaking rfl hmine nofun),
      .inr (h.sole_of_clearing hk rfl), .inl rfl, .inl fun v hv => hv, nofun⟩
  · exact ⟨_, stepped_goto h (knows_breaking rfl hmine nofun)⟩

theorem rmdirBreaker_stepped (hk : Knows proc ver s t op .rmdirBreaker)
    (hn : s.act proc ver t yes op .rmdirBreaker = some s') : ∃ pc, Stepped proc ver s s' t pc := by
  cases hn
  refine ⟨_, rfl, rfl, knows_run (knows_plain rfl), .inl rfl,
    .inr (h.breaks_alone fun u hu => .inl ?_), .inl fun v hv => hv, h.stamped⟩
  exact Option.some.inj (hu.symm.trans (hk.breaks rfl))

theorem clearBreaker_stepped (hpc : s.pcs t = .run op .clearBreaker)
    (hs : sound proc s (.step t yes) = true)
    (hn : s.act proc ver t yes op .clearBreaker = some s') : ∃ pc, Stepped proc ver s s' t pc := by
  cases hn
  refine ⟨_, rfl, rfl, knows_run (knows_plain rfl), .inl rfl,
    .inr (h.breaks_alone fun u hu => .inr ?_), .inl fun v hv => hv, h.stamped⟩
  simpa [sound, hpc, hu] using hs

theorem readKey_stepped (hlock : s.lock = some ⟨t, [x]⟩)
    (hn : s.act proc ver t yes op (.readKey x) = some s') : ∃ pc, Stepped proc ver s s' t pc := by
  simp only [act] at hn
  split at hn
  · rename_i c expected
    split at hn
    · rename_i hsame
      cases hn
      refine ⟨_, stepped_goto h (knows_inside rfl hlock nofun rfl rfl ?_)⟩
      intro c' v hop _
      cases hop
      exact hsame
    · cases hn
      exact stepped_inside h hlock rfl ⟨rfl, rfl, rfl, rfl⟩
  · cases hn

theorem tmp_stepped (hk : Knows proc ver s t op (.tmp x))
    (hn : s.act proc ver t yes op (.tmp x) = some s') : ∃ pc, Stepped proc ver s s' t pc := by
  have hlock := hk.holds [x] rfl
  simp only [act] at hn
  split at hn
  · cases hn
    exact ⟨_, stepped_goto h (knows_inside rfl hlock nofun rfl rfl
      fun c v hop _ => hk.compared c v hop rfl)⟩
  · cases hn
    exact ⟨_, stepped_goto h (knows_inside rfl hlock nofun rfl rfl
      fun c v hop _ => hk.compared c v hop rfl)⟩

theorem stillMine_stepped (hk : Knows proc ver s t op (.stillMine x))
    (hn : s.act proc ver t yes op (.stillMine x) = some s') : ∃ pc, Stepped proc ver s s' t pc := by
  have hlock := hk.holds [x] rfl
  simp only [act] at hn
  split at hn
  · cases hn
    exact ⟨_, stepped_goto h (knows_inside rfl hlock nofun rfl rfl
      fun c v hop _ => hk.compared c v hop rfl)⟩
  · cases hn
    exact stepped_inside h hlock rfl ⟨rfl, rfl, rfl, rfl⟩

theorem rename_stepped (hlive : s.dead (proc t) = false) (hlock : s.lock = some ⟨t, [x]⟩)
    (hn : s.act proc ver t yes op (.rename x) = some s') : ∃ pc, Stepped proc ver s s' t pc := by
  simp only [act] at hn
  split at hn
  · cases hn
    exact ⟨_, stepped_file h hlive hlock⟩
  · cases hn
    exact ⟨_, stepped_file h hlive hlock⟩
  · cases hn

theorem unlinkKey_stepped (hlive : s.dead (proc t) = false) (hlock : s.lock = some ⟨t, [x]⟩)
    (hn : s.act proc ver t yes op (.unlinkKey x) = some s') : ∃ pc, Stepped proc ver s s' t pc := by
  simp only [act] at hn
  split at hn
  · cases hn
    exact ⟨_, stepped_file h hlive hlock⟩
  · cases hn

theorem unstamp_stepped (hlive : s.dead (proc t) = false) (hlock : s.lock = some ⟨t, [x]⟩)
    (hn : s.act proc ver t yes op (.unstamp x r) = some s') : ∃ pc, Stepped proc ver s s' t pc := by
  cases hn
  have hgone : s.lock.map (unlinked · x) = some ⟨t, []⟩ := by
    rw [hlock]
    simp [unlinked]
  exact ⟨_, rfl, rfl, knows_run (knows_inside rfl hgone nofun rfl rfl nofun),
    .inr (h.sole_of_inside hlock hlive), .inl rfl, .inl fun v hv => hv, h.stamped_unlinked⟩

theorem rmdir_stepped (hlive : s.dead (proc t) = false) (hlock : s.lock = some ⟨t, []⟩)
    (hn : s.act proc ver t yes op (.rmdir x r) = some s') : ∃ pc, Stepped proc ver s s' t pc := by
  have hempty : s.rmdirOk = true := by
    rw [rmdirOk, hlock]
    rfl
  simp only [act, hempty, if_true] at hn
  cases hn
  exact ⟨_, rfl, rfl, knows_run (knows_plain rfl), .inr (h.sole_of_inside hlock hlive),
    .inl rfl, .inl fun v hv => hv, nofun⟩

/-- Every step of a live thread. -/
theorem act_stepped {st : FsStage C V} (hpc : s.pcs t = .run op st)
    (hlive : s.dead (proc t) = false) (hp : punctual proc s (.step t yes) = true)
    (hs : sound proc s (.step t yes) = true) (hn : s.act proc ver t yes op st = some s') :
    ∃ pc, Stepped proc ver s s' t pc := by
  have hk := h.threads t op st hpc hlive
  cases st with
  | read => exact read_stepped h hn
  | link => exact link_stepped h hn
  | mkdir => exact mkdir_stepped h hn
  | stamp x => exact stamp_stepped h hlive hk hn
  | breaker => exact breaker_stepped h hn
  | restat => exact restat_stepped h hk hpc hp hn
  | relist => exact relist_stepped h hk hn
  | clear =>
    cases hn
    exact ⟨_, stepped_goto h (knows_breaking rfl (hk.breaks rfl) fun _ => hk.clears rfl)⟩
  | unlinkAll xs => exact unlinkAll_stepped h hk hn
  | rmdirLock => exact rmdirLock_stepped h hk hn
  | rmdirBreaker => exact rmdirBreaker_stepped h hk hn
  | absentTmp | unlinkTmp r =>
    cases hn
    exact goto_plain h rfl
  | stat | list | statBreaker =>
    cases hn
    split <;> exact goto_plain h rfl
  | clearBreaker => exact clearBreaker_stepped h hpc hs hn
  | wait =>
    cases hn
    split
    · exact ⟨.idle, stepped_quiet h rfl rfl rfl rfl rfl nofun⟩
    · exact goto_plain h rfl
  | readKey x => exact readKey_stepped h (hk.holds [x] rfl) hn
  | tmp x => exact tmp_stepped h hk hn
  | stillMine x => exact stillMine_stepped h hk hn
  | rename x => exact rename_stepped h hlive (hk.holds [x] rfl) hn
  | unlinkKey x => exact unlinkKey_stepped h hlive (hk.holds [x] rfl) hn
  | unstamp x r => exact unstamp_stepped h hlive (hk.holds [x] rfl) hn
  | rmdir x r => exact rmdir_stepped h hlive (hk.holds [] rfl) hn
  | settle x r => cases hk.settled
  | leave r =>
    cases hn
    exact ⟨.idle, stepped_quiet h rfl rfl rfl rfl rfl nofun⟩

end Act

variable [DecidableEq V]

theorem locks_next {l : FsLabel C V} (h : Locks proc ver s) (hp : punctual proc s l = true)
    (hs : sound proc s l = true) (hn : next proc ver s l = some s') : Locks proc ver s' := by
  cases l with
  | call t op =>
    simp only [next] at hn
    split at hn
    · split at hn
      · cases hn
      · cases hn
        have hst : Stepped proc ver s
            ({ s with book := s.book.begun t op }.goto t op (start op)) t
            (.run op (start op)) := by
          refine stepped_quiet h rfl rfl rfl rfl rfl fun op' st' heq => ?_
          cases heq
          exact knows_plain (by cases op <;> rfl)
        exact hst.locks h
    · cases hn
  | step t yes =>
    simp only [next] at hn
    split at hn
    · rename_i op st hpc
      split at hn
      · cases hn
      · rename_i hlive
        obtain ⟨pc, hst⟩ := act_stepped h hpc (Bool.eq_false_of_not_eq_true hlive) hp hs hn
        exact hst.locks h
    · cases hn
  | crash pid =>
    cases hn
    have hold : ∀ p, s.dead p = true → Function.update s.dead pid true p = true := by
      intro p hp'
      rw [Function.update_apply]
      split
      · rfl
      · exact hp'
    refine ⟨?_, h.stamped⟩
    intro t op st hpc hlive
    refine (h.threads t op st hpc ?_).frame hold (.inl rfl) (.inl rfl) (.inl fun v hv => hv)
    cases hd : s.dead (proc t) with
    | false => rfl
    | true => exact absurd ((hold _ hd).symm.trans hlive) nofun

end LocalFs

end Zou
