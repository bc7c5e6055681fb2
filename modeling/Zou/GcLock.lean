import Mathlib.Data.List.TakeWhile
import Zou.DualMedia
import Zou.HorizonFor

/-!
# The lock of the collector

One sweep runs at a time: a lock object under the store's root, a line of
the holder and the second it expires, is taken with a conditional put and
given back at the end. Giving it back reads the object and then deletes it,
and the delete is not conditional.

Any number of sweepers share the store and a clock that only moves forward.
Each reads the clock and calls `lock`, whose requests and those of `unlock`
are steps of their own. A request is answered, lost after its effect, or
dropped; a sweeper may stop anywhere. The object is kept with the sweeper
that wrote it, which no store does, and what the releases removed is noted.
-/

namespace Zou

namespace GcLock

open Trace

/-! ## The line -/

/-- `char::is_whitespace`. -/
def isWhitespace (c : Char) : Bool :=
  [9, 10, 11, 12, 13, 32, 0x85, 0xA0, 0x1680, 0x2028, 0x2029, 0x202F, 0x205F, 0x3000].contains c.toNat
    || (0x2000 ≤ c.toNat && c.toNat ≤ 0x200A)

/-- `str::trim`. -/
def trimText (s : List Char) : List Char :=
  ((s.dropWhile isWhitespace).reverse.dropWhile isWhitespace).reverse

/-- The one lock line, or `none` if what is there is not one. -/
def held (text : List Char) : Option (List Char × Nat) := do
  let (holder, until_) ← splitOnce ' ' (trimText text)
  let until_ ← parseU64 until_
  pure (holder, until_)

/-- The line a sweeper writes. -/
def lockLine (holder : List Char) (until_ : Nat) : List Char :=
  holder ++ ' ' :: (Nat.toDigits 10 until_ ++ ['\n'])

/-! ## Sweepers -/

/-- The part of the policy `lock` reads. -/
structure LockPolicy where
  ttl : Nat
  force : Bool
  deriving DecidableEq, Repr

inductive LockPhase where
  | idle
  /-- The clock is read. -/
  | called (holder : List Char) (now : Nat) (policy : LockPolicy)
  /-- The object is read and may be taken. -/
  | taking (line : List Char) (until_ : Nat) (seen : Option (List Char)) (force : Bool)
  | holding (line : List Char) (until_ : Nat)
  /-- `unlock` read its own line. -/
  | releasing (line : List Char) (until_ : Nat)
  deriving DecidableEq, Repr

/-- The claim of a sweeper that has the lock, as it knows. -/
def LockPhase.claim : LockPhase → Option (List Char × Nat)
  | holding line until_ | releasing line until_ => some (line, until_)
  | _ => none

structure LockState where
  clock : Nat
  /-- The object's text and who wrote it. -/
  lock : Option (List Char × Option Nat)
  sweepers : Nat → LockPhase
  /-- What releases removed: who released, and who wrote what it removed. -/
  removed : List (Nat × Option Nat)

inductive LockStep where
  | tick (secs : Nat)
  | call (i : Nat) (holder : List Char) (policy : LockPolicy)
  | get (i : Nat) (wire : Wire)
  | put (i : Nat) (wire : Wire)
  | unlock (i : Nat) (wire : Wire)
  | delete (i : Nat) (wire : Wire)
  | stop (i : Nat)

/-- Whether `lock` leaves what it read to its holder. -/
def busy (now : Nat) (policy : LockPolicy) (seen : Option (List Char)) : Bool :=
  !policy.force && ((seen.bind held).any fun h => now < h.2)

namespace LockState

def text (s : LockState) : Option (List Char) := s.lock.map Prod.fst

def goto (s : LockState) (i : Nat) (phase : LockPhase) : LockState :=
  { s with sweepers := Function.update s.sweepers i phase }

/-- The put of `lock` is granted: a version is the content it was read
with. -/
def grants (s : LockState) (i : Nat) : Bool :=
  match s.sweepers i with
  | .taking _ _ seen _ => s.text = seen
  | _ => false

def next (s : LockState) : LockStep → Option LockState
  | .tick secs => some { s with clock := s.clock + secs }
  | .call i holder policy => match s.sweepers i with
      | .idle => some (s.goto i (.called holder s.clock policy))
      | _ => none
  | .get i wire => match s.sweepers i with
      | .called holder now policy =>
        if wire = .answered ∧ busy now policy s.text = false then
          let until_ := min (now + policy.ttl) (2 ^ 64 - 1)
          some (s.goto i (.taking (lockLine holder until_) until_ s.text policy.force))
        else some (s.goto i .idle)
      | _ => none
  | .put i wire => match s.sweepers i with
      | .taking line until_ _ _ =>
        if s.grants i = false ∨ wire = .dropped then some (s.goto i .idle)
        else
          let s := { s with lock := some (line, some i) }
          some (s.goto i (if wire = .answered then .holding line until_ else .idle))
      | _ => none
  | .unlock i wire => match s.sweepers i with
      | .holding line until_ =>
        if wire = .answered ∧ s.text = some line then some (s.goto i (.releasing line until_))
        else some (s.goto i .idle)
      | _ => none
  | .delete i wire => match s.sweepers i with
      | .releasing _ _ =>
        if wire = .dropped then some (s.goto i .idle)
        else
          let s := { s with
            lock := none
            removed := s.removed ++ (s.lock.map fun object => (i, Prod.snd object)).toList }
          some (s.goto i .idle)
      | _ => none
  | .stop i => some (s.goto i .idle)

/-- Nobody runs and nothing was released. The object may be anything. -/
def Fresh (s : LockState) : Prop := (∀ i, s.sweepers i = .idle) ∧ s.removed = []

/-- The sweeper has a claim that is not expired. -/
def Holds (s : LockState) (i : Nat) : Prop :=
  ∃ line until_, (s.sweepers i).claim = some (line, until_) ∧ s.clock < until_

/-- What a put that is granted asks for. Nobody is between the two requests
of a release; the line is not that of a claim somebody has; and if the
lock was forced or could not be read, nobody holds it. -/
def Taken (s : LockState) (i : Nat) : Prop :=
  ∀ line until_ seen force, s.sweepers i = .taking line until_ seen force → ∀ j ≠ i,
    (∀ line' until', s.sweepers j ≠ .releasing line' until')
      ∧ (∀ until', (s.sweepers j).claim ≠ some (line, until'))
      ∧ ((force = true ∨ ∃ t, seen = some t ∧ held t = none) → ¬ s.Holds j)

def Allowed (s : LockState) : LockStep → Prop
  | .put i wire => s.grants i = true → wire ≠ .dropped → s.Taken i
  | _ => True

end LockState

/-! ## What a line reads as -/

theorem digit_not_blank {c : Char} (h : c.isDigit = true) : isWhitespace c = false := by
  have hn : 48 ≤ c.toNat ∧ c.toNat ≤ 57 := by
    simp only [Char.isDigit, Bool.and_eq_true, decide_eq_true_eq] at h
    exact h
  unfold isWhitespace
  simp
  omega

variable {s : List Char}

theorem mem_trimText {c : Char} (h : c ∈ trimText s) : c ∈ s := by
  unfold trimText at h
  rw [List.mem_reverse] at h
  have hmem := (List.dropWhile_sublist isWhitespace).subset h
  rw [List.mem_reverse] at hmem
  exact (List.dropWhile_sublist isWhitespace).subset hmem

theorem parseU64_blank (h : ' ' ∈ s) : parseU64 s = none := by
  have hmem : ' ' ∈ (if s.head? = some '+' then s.tail else s) := by
    split
    · rename_i hhead
      cases s with
      | nil => cases h
      | cons c s =>
        cases hhead
        rcases List.mem_cons.mp h with heq | h
        · cases heq
        · exact h
    · exact h
  unfold parseU64
  rw [if_neg]
  rintro ⟨-, hall⟩
  cases List.all_eq_true.mp hall ' ' hmem

theorem splitOnce_none {sep : Char} (h : sep ∉ s) : splitOnce sep s = none := by
  have hdrop : s.dropWhile (fun c => decide (c ≠ sep)) = [] := by
    rw [List.dropWhile_eq_nil_iff]
    intro c hc
    rw [decide_eq_true_eq]
    rintro rfl
    exact h hc
  simp only [splitOnce, hdrop]

theorem trimEnd_digits (a : List Char) (n : Nat) :
    ((a ++ (Nat.toDigits 10 n ++ ['\n'])).reverse.dropWhile isWhitespace).reverse
      = a ++ Nat.toDigits 10 n := by
  have hrev : (a ++ (Nat.toDigits 10 n ++ ['\n'])).reverse
      = '\n' :: (a ++ Nat.toDigits 10 n).reverse := by simp
  rw [hrev, List.dropWhile_cons_of_pos (by decide)]
  have hstop : (a ++ Nat.toDigits 10 n).reverse.dropWhile isWhitespace
      = (a ++ Nat.toDigits 10 n).reverse := by
    rw [List.reverse_append]
    cases hd : (Nat.toDigits 10 n).reverse with
    | nil => exact absurd (List.reverse_eq_nil_iff.mp hd) Nat.toDigits_ne_nil
    | cons c rest =>
      have hc : c ∈ Nat.toDigits 10 n := by
        rw [← List.mem_reverse, hd]
        exact List.mem_cons_self
      have hdigit := Nat.isDigit_of_mem_toDigits (by decide) (by decide) hc
      exact List.dropWhile_cons_of_neg (by simp [digit_not_blank hdigit])
  rw [hstop, List.reverse_reverse]

theorem trimText_lockLine (holder : List Char) (n : Nat) :
    (holder.all isWhitespace = true ∧ trimText (lockLine holder n) = Nat.toDigits 10 n)
      ∨ trimText (lockLine holder n)
        = holder.dropWhile isWhitespace ++ ' ' :: Nat.toDigits 10 n := by
  unfold trimText lockLine
  by_cases hall : holder.all isWhitespace = true
  · refine .inl ⟨hall, ?_⟩
    have hdrop : (holder ++ ' ' :: (Nat.toDigits 10 n ++ ['\n'])).dropWhile isWhitespace
        = [] ++ (Nat.toDigits 10 n ++ ['\n']) := by
      rw [List.dropWhile_append_of_pos (List.all_eq_true.mp hall),
        List.dropWhile_cons_of_pos (by decide)]
      cases hd : Nat.toDigits 10 n with
      | nil => exact absurd hd Nat.toDigits_ne_nil
      | cons c rest =>
        have hc : c ∈ Nat.toDigits 10 n := hd ▸ List.mem_cons_self
        have hdigit := Nat.isDigit_of_mem_toDigits (by decide) (by decide) hc
        exact List.dropWhile_cons_of_neg (by simp [digit_not_blank hdigit])
    rw [hdrop, trimEnd_digits, List.nil_append]
  · refine .inr ?_
    have hdrop : (holder ++ ' ' :: (Nat.toDigits 10 n ++ ['\n'])).dropWhile isWhitespace
        = (holder.dropWhile isWhitespace ++ [' ']) ++ (Nat.toDigits 10 n ++ ['\n']) := by
      rw [List.dropWhile_append, if_neg]
      · simp
      · rw [List.isEmpty_iff, List.dropWhile_eq_nil_iff]
        exact fun h => hall (List.all_eq_true.mpr h)
    rw [hdrop, trimEnd_digits]
    simp

/-- A line reads as the second it was written with, or not at all. -/
theorem held_lockLine (holder : List Char) {until_ : Nat} (h : until_ < 2 ^ 64) :
    ∀ name u, held (lockLine holder until_) = some (name, u) → u = until_ := by
  have hdigits : ' ' ∉ Nat.toDigits 10 until_ := fun hc => by
    cases Nat.isDigit_of_mem_toDigits (by decide) (by decide) hc
  intro name u hheld
  unfold held at hheld
  rcases trimText_lockLine holder until_ with ⟨-, htrim⟩ | htrim
  · rw [htrim, splitOnce_none hdigits] at hheld
    cases hheld
  · rw [htrim] at hheld
    by_cases hblank : ' ' ∈ holder.dropWhile isWhitespace
    · obtain ⟨front, back, heq, hfront⟩ := List.eq_append_cons_of_mem hblank
      have hparse : parseU64 (back ++ ' ' :: Nat.toDigits 10 until_) = none :=
        parseU64_blank (by simp)
      rw [heq, List.append_assoc, List.cons_append, splitOnce_append hfront] at hheld
      simp only [Option.bind_eq_bind, Option.bind_some, hparse, Option.bind_none] at hheld
      cases hheld
    · rw [splitOnce_append hblank] at hheld
      simp only [Option.bind_eq_bind, Option.bind_some, parseU64_toDigits h] at hheld
      cases hheld
      rfl

/-! ## The invariant -/

namespace LockState

variable {s s' : LockState}

/-- A sweeper took its lock from one that had run out when it looked. -/
structure Inv (s : LockState) : Prop where
  own : ∀ {i line until_}, (s.sweepers i).claim = some (line, until_) → s.clock < until_ →
    s.lock = some (line, some i)
  releasing : ∀ {i line until_}, s.sweepers i = .releasing line until_ →
    s.lock = some (line, some i)
  written : ∀ {i line until_ w}, (s.sweepers i).claim = some (line, until_) →
    s.lock = some (line, w) → w = some i
  claimed : ∀ {i line until_}, (s.sweepers i).claim = some (line, until_) →
    ∀ name u, held line = some (name, u) → u = until_
  called : ∀ {i holder now policy}, s.sweepers i = .called holder now policy → now ≤ s.clock
  taking : ∀ {i line until_ seen force}, s.sweepers i = .taking line until_ seen force →
    (∀ name u, held line = some (name, u) → u = until_)
      ∧ (force = false → ∀ t name u, seen = some t → held t = some (name, u) → u ≤ s.clock)
  removed : ∀ {i w}, (i, w) ∈ s.removed → w = some i

theorem inv_fresh (h : Fresh s) : Inv s where
  own := fun {i line until_} hc => by
    rw [h.1 i] at hc
    cases hc
  releasing := fun {i line until_} hi => by
    rw [h.1 i] at hi
    cases hi
  written := fun {i line until_ w} hc => by
    rw [h.1 i] at hc
    cases hc
  claimed := fun {i line until_} hc => by
    rw [h.1 i] at hc
    cases hc
  called := fun {i holder now policy} hi => by
    rw [h.1 i] at hi
    cases hi
  taking := fun {i line until_ seen force} hi => by
    rw [h.1 i] at hi
    cases hi
  removed := fun {i w} hm => by
    rw [h.2] at hm
    cases hm

theorem sweepers_goto (s : LockState) (i : Nat) (phase : LockPhase) (j : Nat) :
    (s.goto i phase).sweepers j = if j = i then phase else s.sweepers j :=
  Function.update_apply ..

variable {i : Nat}

theorem Inv.goto (h : Inv s) {phase : LockPhase} (hclaim : phase.claim = none)
    (hcalled : ∀ holder now policy, phase = .called holder now policy → now ≤ s.clock)
    (htaking : ∀ line until_ seen force, phase = .taking line until_ seen force →
      (∀ name u, held line = some (name, u) → u = until_)
        ∧ (force = false → ∀ t name u, seen = some t → held t = some (name, u) → u ≤ s.clock)) :
    Inv (s.goto i phase) where
  own := fun {j line until_} hc hlt => by
    rw [sweepers_goto] at hc
    split at hc
    · rw [hclaim] at hc
      cases hc
    · exact h.own hc hlt
  releasing := fun {j line until_} hj => by
    rw [sweepers_goto] at hj
    split at hj
    · subst hj
      cases hclaim
    · exact h.releasing hj
  written := fun {j line until_ w} hc hlock => by
    rw [sweepers_goto] at hc
    split at hc
    · rw [hclaim] at hc
      cases hc
    · exact h.written hc hlock
  claimed := fun {j line until_} hc => by
    rw [sweepers_goto] at hc
    split at hc
    · rw [hclaim] at hc
      cases hc
    · exact h.claimed hc
  called := fun {j holder now policy} hj => by
    rw [sweepers_goto] at hj
    split at hj
    · exact hcalled holder now policy hj
    · exact h.called hj
  taking := fun {j line until_ seen force} hj => by
    rw [sweepers_goto] at hj
    split at hj
    · exact htaking line until_ seen force hj
    · exact h.taking hj
  removed := h.removed

theorem Inv.idle (h : Inv s) (i : Nat) : Inv (s.goto i .idle) :=
  h.goto rfl nofun nofun

theorem Inv.tick (h : Inv s) (secs : Nat) : Inv { s with clock := s.clock + secs } where
  own := fun hc hlt => h.own hc (Nat.lt_of_le_of_lt (Nat.le_add_right ..) hlt)
  releasing := h.releasing
  written := h.written
  claimed := h.claimed
  called := fun hi => Nat.le_trans (h.called hi) (Nat.le_add_right ..)
  taking := fun hi => ⟨(h.taking hi).1, fun hf t name u ht hu =>
    Nat.le_trans ((h.taking hi).2 hf t name u ht hu) (Nat.le_add_right ..)⟩
  removed := h.removed

theorem not_busy {now : Nat} {policy : LockPolicy} {seen : Option (List Char)}
    (h : busy now policy seen = false) (hf : policy.force = false) {t name : List Char} {u : Nat}
    (ht : seen = some t) (hu : held t = some (name, u)) : u ≤ now := by
  simpa [busy, hf, ht, hu] using h

variable {line : List Char}

theorem Inv.take (h : Inv s) {until_ : Nat} {seen : Option (List Char)} {force : Bool}
    (hi : s.sweepers i = .taking line until_ seen force) (hseen : s.text = seen) (ht : s.Taken i)
    {phase : LockPhase} (hphase : phase = .holding line until_ ∨ phase = .idle) :
    Inv (({ s with lock := some (line, some i) } : LockState).goto i phase) := by
  have hline := (h.taking hi).1
  have hexpired := (h.taking hi).2
  have hclaim : ∀ line' until', phase.claim = some (line', until') →
      line' = line ∧ until' = until_ := by
    intro line' until' hc
    rcases hphase with rfl | rfl
    · cases hc
      exact ⟨rfl, rfl⟩
    · cases hc
  exact {
    own := fun {j line' until'} hc hlt => by
      rw [sweepers_goto] at hc
      split at hc
      · rename_i hj
        subst hj
        obtain ⟨rfl, -⟩ := hclaim _ _ hc
        rfl
      · rename_i hj
        -- Somebody else holds it still, so what was read is that line.
        obtain ⟨-, -, hno⟩ := ht line until_ seen force hi j hj
        have hold : s.Holds j := ⟨line', until', hc, hlt⟩
        have htext : seen = some line' := by
          rw [← hseen, text, h.own hc hlt]
          rfl
        cases hread : held line' with
        | none => exact absurd hold (hno (.inr ⟨line', htext, hread⟩))
        | some pair =>
          obtain ⟨name, u⟩ := pair
          obtain rfl := h.claimed hc name u hread
          cases force with
          | true => exact absurd hold (hno (.inl rfl))
          | false =>
            have hle := hexpired rfl line' name u htext hread
            exact absurd hlt (Nat.not_lt.mpr hle)
    releasing := fun {j line' until'} hj => by
      rw [sweepers_goto] at hj
      split at hj
      · rcases hphase with rfl | rfl <;> cases hj
      · rename_i hne
        exact absurd hj ((ht line until_ seen force hi j hne).1 line' until')
    written := fun {j line' until' w} hc hlock => by
      rw [sweepers_goto] at hc
      cases hlock
      split at hc
      · rename_i hj
        rw [hj]
      · rename_i hne
        exact absurd hc ((ht line until_ seen force hi j hne).2.1 until')
    claimed := fun {j line' until'} hc => by
      rw [sweepers_goto] at hc
      split at hc
      · obtain ⟨rfl, rfl⟩ := hclaim _ _ hc
        exact hline
      · exact h.claimed hc
    called := fun {j holder now policy} hj => by
      rw [sweepers_goto] at hj
      split at hj
      · rcases hphase with rfl | rfl <;> cases hj
      · exact h.called hj
    taking := fun {j line' until' seen' force'} hj => by
      rw [sweepers_goto] at hj
      split at hj
      · rcases hphase with rfl | rfl <;> cases hj
      · exact h.taking hj
    removed := h.removed }

theorem Inv.release (h : Inv s) {until_ : Nat} (hi : s.sweepers i = .holding line until_)
    (htext : s.text = some line) : Inv (s.goto i (.releasing line until_)) := by
  have hclaim : (s.sweepers i).claim = some (line, until_) := by
    rw [hi]
    rfl
  have hkeep : ∀ j, ((s.goto i (.releasing line until_)).sweepers j).claim
      = (s.sweepers j).claim := by
    intro j
    rw [sweepers_goto]
    split
    · rename_i hj
      rw [hj, hclaim]
      rfl
    · rfl
  exact {
    own := fun {j line' until'} hc hlt => h.own (hkeep j ▸ hc) hlt
    releasing := fun {j line' until'} hj => by
      rw [sweepers_goto] at hj
      split at hj
      · rename_i heq
        cases hj
        rw [heq]
        cases hl : s.lock with
        | none =>
          rw [text, hl] at htext
          cases htext
        | some object =>
          obtain ⟨t, w⟩ := object
          rw [text, hl] at htext
          cases htext
          obtain rfl := h.written hclaim hl
          exact hl
      · exact h.releasing hj
    written := fun {j line' until' w} hc hlock => h.written (hkeep j ▸ hc) hlock
    claimed := fun {j line' until'} hc => h.claimed (hkeep j ▸ hc)
    called := fun {j holder now policy} hj => by
      rw [sweepers_goto] at hj
      split at hj
      · cases hj
      · exact h.called hj
    taking := fun {j line' until' seen' force'} hj => by
      rw [sweepers_goto] at hj
      split at hj
      · cases hj
      · exact h.taking hj
    removed := h.removed }

theorem Inv.delete (h : Inv s) {until_ : Nat} (hi : s.sweepers i = .releasing line until_) :
    Inv (({ s with
      lock := none
      removed := s.removed ++ (s.lock.map fun object => (i, Prod.snd object)).toList } :
        LockState).goto i .idle) := by
  have hlock := h.releasing hi
  exact {
    own := fun {j line' until'} hc hlt => by
      rw [sweepers_goto] at hc
      split at hc
      · cases hc
      · rename_i hne
        have hj := h.own hc hlt
        rw [hlock] at hj
        cases hj
        exact absurd rfl hne
    releasing := fun {j line' until'} hj => by
      rw [sweepers_goto] at hj
      split at hj
      · cases hj
      · rename_i hne
        have hj' := h.releasing hj
        rw [hlock] at hj'
        cases hj'
        exact absurd rfl hne
    written := nofun
    claimed := fun {j line' until'} hc => by
      rw [sweepers_goto] at hc
      split at hc
      · cases hc
      · exact h.claimed hc
    called := fun {j holder now policy} hj => by
      rw [sweepers_goto] at hj
      split at hj
      · cases hj
      · exact h.called hj
    taking := fun {j line' until' seen' force'} hj => by
      rw [sweepers_goto] at hj
      split at hj
      · cases hj
      · exact h.taking hj
    removed := fun {j w} hm => by
      rcases List.mem_append.mp hm with hm | hm
      · exact h.removed hm
      · rw [hlock] at hm
        cases List.mem_singleton.mp hm
        rfl }

theorem next_inv {l : LockStep} (h : Inv s) (ha : Allowed s l) (hn : next s l = some s') :
    Inv s' := by
  cases l with
  | tick secs =>
    cases hn
    exact h.tick secs
  | call i holder policy =>
    simp only [next] at hn
    split at hn
    · cases hn
      refine h.goto rfl (fun _ _ _ hp => ?_) nofun
      cases hp
      exact le_rfl
    · cases hn
  | get i wire =>
    simp only [next] at hn
    split at hn
    · rename_i holder now policy hi
      split at hn
      · rename_i hread
        cases hn
        refine h.goto rfl nofun fun line until_ seen force hp => ?_
        cases hp
        have hfits : min (now + policy.ttl) (2 ^ 64 - 1) < 2 ^ 64 := by omega
        refine ⟨held_lockLine holder hfits, fun hf t name u ht hu => ?_⟩
        exact Nat.le_trans (not_busy hread.2 hf ht hu) (h.called hi)
      · cases hn
        exact h.idle i
    · cases hn
  | put i wire =>
    simp only [next] at hn
    split at hn
    · rename_i line until_ seen force hi
      split at hn
      · cases hn
        exact h.idle i
      · rename_i hgo
        cases hn
        rw [not_or] at hgo
        have hgrants : s.grants i = true := by simpa using hgo.1
        have htaken : s.Taken i := ha hgrants hgo.2
        have hseen : s.text = seen := by
          unfold grants at hgrants
          rw [hi] at hgrants
          exact of_decide_eq_true hgrants
        refine h.take hi hseen htaken ?_
        by_cases hw : wire = .answered
        · exact .inl (if_pos hw)
        · exact .inr (if_neg hw)
    · cases hn
  | unlock i wire =>
    simp only [next] at hn
    split at hn
    · rename_i line until_ hi
      split at hn
      · rename_i hread
        cases hn
        exact h.release hi hread.2
      · cases hn
        exact h.idle i
    · cases hn
  | delete i wire =>
    simp only [next] at hn
    split at hn
    · rename_i line until_ hi
      split at hn
      · cases hn
        exact h.idle i
      · cases hn
        exact h.delete hi
    · cases hn
  | stop i =>
    cases hn
    exact h.idle i

/-- **One sweep at a time.** In a run whose granted puts meet `Taken`, no
release removes an object another sweeper wrote, and no two sweepers have a
claim that is not expired. -/
theorem gc_lock_excludes {s₀ s : LockState} {ls : List LockStep} (h₀ : Fresh s₀)
    (hm : Meets next Allowed s₀ ls) (hr : run next s₀ ls = some s) :
    (∀ i w, (i, w) ∈ s.removed → w = some i) ∧ ∀ i j, s.Holds i → s.Holds j → i = j := by
  have hstep : ∀ s l s', Inv s → Allowed s l → next s l = some s' → Inv s' :=
    fun s l s' h ha hn => next_inv h ha hn
  have hinv : Inv s := guarded_invariant hstep (inv_fresh h₀) hm hr
  refine ⟨fun i w hmem => hinv.removed hmem, ?_⟩
  rintro i j ⟨line, until_, hi, hlt⟩ ⟨line', until', hj, hlt'⟩
  have hboth := (hinv.own hi hlt).symm.trans (hinv.own hj hlt')
  cases hboth
  rfl

/-- A put that takes over a lock whose holder is not releasing it. -/
theorem taken_over {i j : Nat} {line line' : List Char} {until_ until' : Nat}
    {seen : Option (List Char)} (hi : s.sweepers i = .taking line until_ seen false)
    (hj : s.sweepers j = .holding line' until') (hrest : ∀ k, k ≠ i → k ≠ j → s.sweepers k = .idle)
    (hne : line' ≠ line) (hseen : ∀ t, seen = some t → held t ≠ none) : s.Taken i := by
  intro line₁ until₁ seen₁ force ht k hk
  rw [hi] at ht
  cases ht
  by_cases hkj : k = j
  · subst hkj
    rw [hj]
    refine ⟨nofun, fun until₂ hc => ?_, fun hforce => ?_⟩
    · exact hne (congrArg Prod.fst (Option.some.inj hc))
    · rcases hforce with hforce | ⟨t, ht, hnone⟩
      · cases hforce
      · exact absurd hnone (hseen t ht)
  · have hidle := hrest k hk hkj
    rw [hidle]
    refine ⟨nofun, nofun, fun _ hold => ?_⟩
    obtain ⟨line₂, until₂, hc, -⟩ := hold
    rw [hidle] at hc
    cases hc

theorem taken_alone (h : ∀ j ≠ i, s.sweepers j = .idle) : s.Taken i := by
  intro line until_ seen force _ j hj
  rw [h j hj]
  exact ⟨nofun, nofun, fun _ hold => by
    obtain ⟨line, until_, hc, -⟩ := hold
    rw [h j hj] at hc
    cases hc⟩

/-! ## Runs -/

def fresh : LockState := ⟨0, none, fun _ => .idle, []⟩

def nodeA : List Char := "a".toList
def nodeB : List Char := "b".toList
def nodeC : List Char := "c".toList

/-- A sweeper takes the lock for ten seconds. -/
def takeTen (i : Nat) (holder : List Char) : List LockStep :=
  [.call i holder ⟨10, false⟩, .get i .answered, .put i .answered]

/-- The first sweeper reads its own line and stalls; its lock runs out and
another sweeper takes it; the delete then removes that one, and a third
sweeper finds no lock. -/
def stalledRelease : List LockStep :=
  takeTen 0 nodeA ++ [.unlock 0 .answered, .tick 10] ++ takeTen 1 nodeB
    ++ [.delete 0 .answered] ++ takeTen 2 nodeC

theorem stalledRelease_removes :
    ∃ s, run next fresh stalledRelease = some s ∧ (0, some 1) ∈ s.removed
      ∧ s.Holds 1 ∧ s.Holds 2 := by
  refine ⟨_, rfl, by decide, ⟨lockLine nodeB 20, 20, ?_, by decide⟩,
    ⟨lockLine nodeC 20, 20, ?_, by decide⟩⟩
  · rfl
  · rfl

/-- The first sweeper's lock runs out and another one takes it over. A
third is sent away, the first reads a line that is not its own and leaves
it, and the second releases what it wrote. -/
def takeover : List LockStep :=
  takeTen 0 nodeA ++ [.tick 10] ++ takeTen 1 nodeB
    ++ [.call 2 nodeC ⟨10, false⟩, .get 2 .answered, .unlock 0 .answered, .unlock 1 .answered,
      .delete 1 .answered]

theorem gc_lock_excludes_takeover :
    ∃ s, run next fresh takeover = some s ∧ s.removed = [(1, some 1)]
      ∧ (∀ i w, (i, w) ∈ s.removed → w = some i) ∧ ∀ i j, s.Holds i → s.Holds j → i = j := by
  have hfresh : Fresh fresh := ⟨fun _ => rfl, rfl⟩
  have hm : Meets next Allowed fresh takeover := by
    refine ⟨trivial, fun s₁ h₁ => ⟨trivial, fun s₂ h₂ => ⟨fun _ _ => ?_, fun s₃ h₃ =>
      ⟨trivial, fun s₄ h₄ => ⟨trivial, fun s₅ h₅ => ⟨trivial, fun s₆ h₆ =>
      ⟨fun _ _ => ?_, fun s₇ _ => ⟨trivial, fun s₈ _ => ⟨trivial, fun s₉ _ =>
      ⟨trivial, fun _ _ => ⟨trivial, fun _ _ => ⟨trivial, fun _ _ => trivial⟩⟩⟩⟩⟩⟩⟩⟩⟩⟩⟩⟩
    all_goals
      cases h₁
      cases h₂
    · refine taken_alone fun j hj => ?_
      simp only [sweepers_goto, if_neg hj]
      rfl
    · cases h₃
      cases h₄
      cases h₅
      cases h₆
      refine @taken_over _ 1 0 (lockLine nodeB 20) (lockLine nodeA 10) 20 10
        (some (lockLine nodeA 10)) rfl rfl (fun k hk hk' => ?_) (by decide) ?_
      · simp only [sweepers_goto, if_neg hk, if_neg hk']
        rfl
      · intro t ht
        cases ht
        decide
  exact ⟨_, rfl, rfl, gc_lock_excludes hfresh hm rfl⟩

end LockState

end GcLock

end Zou
