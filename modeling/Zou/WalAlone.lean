import Zou.WalLineage

/-!
# A client alone with the media

What the clients of the chain compute in the express dual mode when nobody
else is active and every request is answered at once. The threads of
`put_quorum` are answered in the order they were started, so the hedge is
never needed.

The reads are pure: `present` of a seq is `presentOf` its three objects,
`fetch` is its owner, and `chain_head` ends on a seq whose successor is not
present.
-/

namespace Zou.Wal

open Client

/-- The oldest put in flight of a channel lands. -/
def Store.landFirst (g : Store) (c : Nat) : Store :=
  match g.launched.findIdx? (·.channel = c) with
  | some n => (g.land n .answered).getD g
  | none => g

/-- The next answer of a channel. -/
def Store.takeReply (g : Store) (c : Nat) : Store × Option (Except CasError Unit) :=
  match g.channels c with
  | r :: rest => ({ g with channels := Function.update g.channels c rest }, some r)
  | [] => (g, none)

/-- A request that is answered at once. -/
def Store.answer (g : Store) : (q : Request) → Store × q.Reply
  | .get m seq => (g, .ok (g.slots seq m))
  | .putIfAbsent m seq x => g.putIfAbsent m seq x .answered
  | .delete m seq => (g.setSlot seq m none, .ok ())
  | .load => (g, .ok g.manifest)
  | .putIfMatch next version => g.putIfMatch next version .answered
  | .channel => ({ g with nextChannel := g.nextChannel + 1 }, g.nextChannel)
  | .launch c m seq x => ({ g with launched := g.launched ++ [⟨c, m, seq, x⟩] }, ())
  | .receive c _ => (g.landFirst c).takeReply c

/-- What a crash of every process leaves: the objects and the manifest. -/
def Store.crashed (g : Store) : Store := ⟨g.slots, g.manifest, [], fun _ => [], 0⟩

/-! ## Reads -/

/-- `present` on the objects of a seq. -/
def presentOf (row : Medium → Option Segment) : Bool :=
  let a := (row .az1).map Segment.header
  let b := (row .az2).map Segment.header
  let s := (row .standard).map Segment.header
  if a.isSome ∧ a = b then true
  else if a = none ∧ b = none then false
  else decide (s.isSome ∧ (a = s ∨ b = s))

variable {g g' : Store}

theorem eval_lift {α : Type} (p : Media α) (g : Store) : (liftM p : Chain α).eval Store.answer g
      = ((p.eval Store.answer g).1, (p.eval Store.answer g).2.mapError .store) :=
  Prog.eval_mapErr ..

theorem eval_get (m : Medium) (seq : Nat) (g : Store) :
    (get m seq).eval Store.answer g = (g, .ok (g.slots seq m)) := rfl

theorem eval_loadManifest (g : Store) :
    (liftM loadManifest : Chain _).eval Store.answer g = (g, .ok g.manifest) := rfl

theorem eval_present (seq : Nat) (g : Store) :
    (liftM (present .expressDual seq) : Chain Bool).eval Store.answer g
      = (g, .ok (presentOf (g.slots seq))) := by
  rw [eval_lift]
  have h : (present .expressDual seq).eval Store.answer g = (g, .ok (presentOf (g.slots seq))) := by
    unfold present presentOf
    dsimp only
    rw [Prog.eval_bind_ok (eval_get .az1 seq g), Prog.eval_bind_ok (eval_get .az2 seq g)]
    split
    · rfl
    · split
      · rfl
      · rw [Prog.eval_bind_ok (eval_get .standard seq g)]
        rfl
  rw [h]
  rfl

theorem eval_fetch_media (seq : Nat) (g : Store) :
    (fetch .expressDual seq).eval Store.answer g = (g, .ok (g.owner .expressDual seq)) := by
  unfold fetch Store.owner fetchOf
  rw [Prog.eval_bind_ok (eval_get .az1 seq g), Prog.eval_bind_ok (eval_get .az2 seq g)]
  split
  · rfl
  · split
    · rfl
    · rw [Prog.eval_bind_ok (eval_get .standard seq g)]
      split
      · rfl
      · split <;> rfl

theorem eval_fetch (seq : Nat) (g : Store) :
    (liftM (fetch .expressDual seq) : Chain _).eval Store.answer g
      = (g, .ok (g.owner .expressDual seq)) := by
  rw [eval_lift, eval_fetch_media]
  rfl

theorem presentOf_of_owner {seq : Nat} {x : Segment} (h : g.owner .expressDual seq = some x) :
    presentOf (g.slots seq) = true := by
  obtain ⟨m, m', hne, hm, hm'⟩ := owner_eq_some.mp h
  unfold presentOf
  cases m <;> cases m' <;> first | exact absurd rfl hne | skip
  all_goals
    rw [hm, hm']
    simp

/-! ## The head -/

/-- A probe of the store is answered as `p` says. -/
def Probes (mode : DurabilityMode) (g : Store) (p : Nat → Bool) : Prop :=
  ∀ seq, (liftM (present mode seq) : Chain Bool).eval Store.answer g = (g, .ok (p seq))

section Probes

variable {mode : DurabilityMode} {p : Nat → Bool}

theorem Probes.window (h : Probes mode g p) (len first : Nat) :
    (probeWindow mode len first).eval Store.answer g
      = (g, .ok ((List.range' first len).map p)) := by
  induction len generalizing first with
  | zero => rfl
  | succ len ih =>
    unfold probeWindow
    rw [Prog.eval_bind_ok (h first), Prog.eval_bind_ok (ih (first + 1))]
    rfl

theorem Probes.bisect (h : Probes mode g p) : ∀ n lo hi, hi - lo ≤ n → lo < hi →
    p lo = true → p hi = false →
    ∃ lo', (bisect mode n lo hi).eval Store.answer g = (g, .ok lo') ∧ lo ≤ lo'
      ∧ p lo' = true ∧ p (lo' + 1) = false := by
  intro n
  induction n with
  | zero => exact fun lo hi hn hlt => absurd hn (by omega)
  | succ n ih =>
    intro lo hi hn hlt hlo hhi
    unfold Wal.bisect
    split
    · rw [Prog.eval_bind_ok (h _)]
      cases hmid : p (lo + (hi - lo) / 2) with
      | true =>
        obtain ⟨lo', heval, hle, hend⟩ :=
          ih (lo + (hi - lo) / 2) hi (by omega) (by omega) hmid hhi
        exact ⟨lo', heval, by omega, hend⟩
      | false =>
        obtain ⟨lo', heval, hle, hend⟩ :=
          ih lo (lo + (hi - lo) / 2) (by omega) (by omega) hlo hmid
        exact ⟨lo', heval, hle, hend⟩
    · obtain rfl : hi = lo + 1 := by omega
      exact ⟨lo, rfl, le_rfl, hlo, hhi⟩

theorem Probes.gallop (h : Probes mode g p) {n : Nat} (hfin : ∀ seq, n ≤ seq → p seq = false) :
    ∀ k lo step, n ≤ lo + k → 0 < step → p lo = true →
    ∃ lo' hi', (∀ fuel, k < fuel →
      (gallop mode fuel lo step).eval Store.answer g = (g, .ok (lo', hi')))
      ∧ lo ≤ lo' ∧ lo' < hi' ∧ p lo' = true ∧ p hi' = false := by
  intro k
  induction k with
  | zero =>
    intro lo step hn _ hlo
    rw [hfin lo (by omega)] at hlo
    cases hlo
  | succ k ih =>
    intro lo step hn hstep hlo
    cases hprobe : p (lo + step) with
    | true =>
      obtain ⟨lo', hi', heval, hle, hend⟩ :=
        ih (lo + step) (step * 2) (by omega) (by omega) hprobe
      refine ⟨lo', hi', fun fuel hfuel => ?_, by omega, hend⟩
      obtain ⟨fuel, rfl⟩ : ∃ f, fuel = f + 1 := ⟨fuel - 1, by omega⟩
      unfold Wal.gallop
      rw [Prog.eval_bind_ok (h _), hprobe]
      exact heval fuel (by omega)
    | false =>
      refine ⟨lo, lo + step, fun fuel hfuel => ?_, le_rfl, by omega, hlo, hprobe⟩
      obtain ⟨fuel, rfl⟩ : ∃ f, fuel = f + 1 := ⟨fuel - 1, by omega⟩
      unfold Wal.gallop
      rw [Prog.eval_bind_ok (h _), hprobe]
      rfl

/-- The search ends on a seq that is there with a successor that is not, and
the backscan of its window has the last word. -/
theorem Probes.chainHead (h : Probes mode g p) {n : Nat} (hfin : ∀ seq, n ≤ seq → p seq = false)
    {floor : Nat} (hfirst : p (floor + 1) = true) :
    ∃ lo base, base = max (floor + 1) (lo - maxInflight) ∧ floor + 1 ≤ lo ∧ p lo = true
      ∧ p (lo + 1) = false
      ∧ ∀ fuel, n + 1 ≤ fuel → (chainHead mode fuel floor).eval Store.answer g
        = (g, .ok ((((List.range' base (lo - base + 1)).map p).findIdx? (!·)).elim lo
            fun i => base + i - 1)) := by
  obtain ⟨lo, hi, hgallop, hlo, hlt, hplo, hphi⟩ :=
    h.gallop hfin n (floor + 1) 1 (by omega) (by omega) hfirst
  obtain ⟨lo', hbisect, hlo', hplo', hnext⟩ := h.bisect (hi - lo) lo hi le_rfl hlt hplo hphi
  refine ⟨lo', _, rfl, by omega, hplo', hnext, fun fuel hfuel => ?_⟩
  unfold Wal.chainHead
  rw [Prog.eval_bind_ok (h _), hfirst]
  dsimp only [Bool.not_true, Bool.false_eq_true, if_false]
  rw [if_neg (by decide), Prog.eval_bind_ok (hgallop fuel (by omega))]
  rw [Prog.eval_bind_ok hbisect, Prog.eval_bind_ok (h.window ..)]
  split
  · rename_i i heq
    rw [heq]
    rfl
  · rename_i heq
    rw [heq]
    rfl

end Probes

theorem eval_probeWindow (len first : Nat) (g : Store) :
    (probeWindow .expressDual len first).eval Store.answer g
      = (g, .ok ((List.range' first len).map fun seq => presentOf (g.slots seq))) :=
  Probes.window (fun seq => eval_present seq g) len first

/-- Nothing is on any medium from `n` on. -/
def Store.EmptyFrom (g : Store) (n : Nat) : Prop := ∀ seq m, n ≤ seq → g.slots seq m = none

theorem Store.EmptyFrom.absent {n seq : Nat} (h : g.EmptyFrom n) (hn : n ≤ seq) :
    presentOf (g.slots seq) = false := by
  unfold presentOf
  rw [h seq .az1 hn, h seq .az2 hn]
  rfl

/-- `chain_head` finds `h` from the floor. -/
def HeadFrom (g : Store) (floor h : Nat) : Prop :=
  ∃ fuel₀, ∀ fuel, fuel₀ ≤ fuel →
    (chainHead .expressDual fuel floor).eval Store.answer g = (g, .ok h)

theorem HeadFrom.unique {floor h h' : Nat} (hh : HeadFrom g floor h) (hh' : HeadFrom g floor h') :
    h = h' := by
  obtain ⟨f, hf⟩ := hh
  obtain ⟨f', hf'⟩ := hh'
  have heq := (hf (max f f') (by omega)).symm.trans (hf' (max f f') (by omega))
  exact Except.ok.inj (Prod.mk.inj heq).2

/-- Where the seq after the floor is not present, the floor is the head. -/
theorem headFrom_floor {floor : Nat} (h : presentOf (g.slots (floor + 1)) = false) :
    HeadFrom g floor floor := by
  refine ⟨0, fun fuel _ => ?_⟩
  unfold chainHead
  rw [Prog.eval_bind_ok (eval_present _ g), h]
  rfl

theorem exists_head {n : Nat} (hfin : g.EmptyFrom n) (floor : Nat) :
    ∃ h, HeadFrom g floor h ∧ presentOf (g.slots (h + 1)) = false := by
  cases hfirst : presentOf (g.slots (floor + 1)) with
  | false => exact ⟨floor, headFrom_floor hfirst, hfirst⟩
  | true =>
    obtain ⟨lo, base, hbase, hlo, hplo, hnext, heval⟩ :=
      Probes.chainHead (fun seq => eval_present seq g) (fun seq hn => hfin.absent hn) hfirst
    let window := (List.range' base (lo - base + 1)).map fun seq => presentOf (g.slots seq)
    cases hfind : window.findIdx? (!·) with
    | none =>
      refine ⟨lo, ⟨n + 1, fun fuel hfuel => (heval fuel hfuel).trans ?_⟩, hnext⟩
      rw [hfind]
      rfl
    | some i =>
      refine ⟨base + i - 1, ⟨n + 1, fun fuel hfuel => (heval fuel hfuel).trans ?_⟩, ?_⟩
      · rw [hfind]
        rfl
      · obtain ⟨hlt, habsent, -⟩ := List.findIdx?_eq_some_iff_getElem.mp hfind
        rw [List.getElem_map, List.getElem_range'] at habsent
        rw [show base + i - 1 + 1 = base + 1 * i by omega]
        simpa using habsent

/-! ### Stores with the same presence -/

/-- The client reads the same from both stores and leaves them as they
are. -/
def Agrees {α : Type} (g g' : Store) (p : Chain α) : Prop :=
  ∃ r, p.eval Store.answer g = (g, r) ∧ p.eval Store.answer g' = (g', r)

theorem Agrees.done {α : Type} (a : α) : Agrees g g' (.done a) := ⟨.ok a, rfl, rfl⟩

theorem Agrees.bind {α β : Type} {p : Chain α} {f : α → Chain β} (hp : Agrees g g' p)
    (hf : ∀ a, Agrees g g' (f a)) : Agrees g g' (p >>= f) := by
  obtain ⟨r, h, h'⟩ := hp
  cases r with
  | ok a =>
    obtain ⟨r', hr, hr'⟩ := hf a
    exact ⟨r', (Prog.eval_bind_ok h f).trans hr, (Prog.eval_bind_ok h' f).trans hr'⟩
  | error e => exact ⟨.error e, Prog.eval_bind_error h f, Prog.eval_bind_error h' f⟩

section Presence

variable (hp : ∀ seq, presentOf (g'.slots seq) = presentOf (g.slots seq))

include hp

theorem agrees_present (seq : Nat) : Agrees g g' (liftM (present .expressDual seq) : Chain Bool) :=
  ⟨_, eval_present seq g, (eval_present seq g').trans (by rw [hp])⟩

theorem agrees_gallop (fuel lo step : Nat) : Agrees g g' (gallop .expressDual fuel lo step) := by
  induction fuel generalizing lo step with
  | zero => exact ⟨.error .stopped, rfl, rfl⟩
  | succ fuel ih =>
    refine (agrees_present hp _).bind fun a => ?_
    cases a with
    | true => exact ih _ _
    | false => exact Agrees.done _

theorem agrees_bisect (n lo hi : Nat) : Agrees g g' (bisect .expressDual n lo hi) := by
  induction n generalizing lo hi with
  | zero => exact Agrees.done _
  | succ n ih =>
    unfold bisect
    split
    · refine (agrees_present hp _).bind fun a => ?_
      cases a with
      | true => exact ih _ _
      | false => exact ih _ _
    · exact Agrees.done _

theorem agrees_probeWindow (len first : Nat) : Agrees g g' (probeWindow .expressDual len first) :=
  ⟨_, eval_probeWindow len first g, (eval_probeWindow len first g').trans (by simp only [hp])⟩

theorem agrees_chainHead (fuel floor : Nat) : Agrees g g' (chainHead .expressDual fuel floor) := by
  refine (agrees_present hp _).bind fun a => ?_
  cases a with
  | false => exact Agrees.done _
  | true =>
    refine (agrees_gallop hp _ _ _).bind fun ⟨lo, hi⟩ => ?_
    refine (agrees_bisect hp _ _ _).bind fun lo => ?_
    refine (agrees_probeWindow hp _ _).bind fun window => ?_
    split <;> exact Agrees.done _

theorem HeadFrom.congr {floor h : Nat} (hh : HeadFrom g floor h) : HeadFrom g' floor h := by
  obtain ⟨fuel₀, heval⟩ := hh
  refine ⟨fuel₀, fun fuel hfuel => ?_⟩
  obtain ⟨r, hr, hr'⟩ := agrees_chainHead hp fuel floor
  obtain ⟨-, rfl⟩ := Prod.mk.inj (hr.symm.trans (heval fuel hfuel))
  exact hr'

end Presence

/-! ## Seals -/

/-- The seal is put on the express buckets that have nothing. -/
def Store.sealExpress (g : Store) (seq : Nat) (x : Segment) : Store :=
  ((g.putIfAbsent .az1 seq x .answered).1.putIfAbsent .az2 seq x .answered).1

/-- A seal that is put on enough media: both express buckets, or one of them
and the standard one. -/
def Sealable (row : Medium → Option Segment) : Prop :=
  (row .az1 = none ∧ row .az2 = none)
    ∨ ((row .az1 = none ∨ row .az2 = none) ∧ row .standard = none)

instance (row : Medium → Option Segment) : Decidable (Sealable row) :=
  inferInstanceAs (Decidable (_ ∨ _))

/-- Two stores differ in the objects of one seq. -/
structure SameBut (seq : Nat) (g g' : Store) : Prop where
  slots : ∀ seq', seq' ≠ seq → g'.slots seq' = g.slots seq'
  manifest : g'.manifest = g.manifest
  launched : g'.launched = g.launched
  channels : g'.channels = g.channels

theorem SameBut.setSlot (g : Store) (seq : Nat) (m : Medium) (x : Option Segment) :
    SameBut seq g (g.setSlot seq m x) :=
  ⟨fun _ h => View.setSlot_row h m x, rfl, rfl, rfl⟩

theorem SameBut.refl (seq : Nat) (g : Store) : SameBut seq g g := ⟨fun _ _ => rfl, rfl, rfl, rfl⟩

theorem SameBut.trans {seq : Nat} {g₁ g₂ g₃ : Store} (h : SameBut seq g₁ g₂)
    (h' : SameBut seq g₂ g₃) : SameBut seq g₁ g₃ :=
  ⟨fun s hs => (h'.slots s hs).trans (h.slots s hs), h'.manifest.trans h.manifest,
    h'.launched.trans h.launched, h'.channels.trans h.channels⟩

theorem SameBut.putIfAbsent (g : Store) (m : Medium) (seq : Nat) (x : Segment) :
    SameBut seq g (g.putIfAbsent m seq x .answered).1 := by
  rcases View.putIfAbsent_cases g m seq x .answered with h | ⟨-, h⟩
  · rw [h]
    exact SameBut.refl seq g
  · rw [h]
    exact SameBut.setSlot g seq m (some x)

theorem SameBut.sealExpress (g : Store) (seq : Nat) (x : Segment) :
    SameBut seq g (g.sealExpress seq x) :=
  (SameBut.putIfAbsent g .az1 seq x).trans (SameBut.putIfAbsent _ .az2 seq x)

theorem putIfAbsent_row (g : Store) (m : Medium) (seq : Nat) (x : Segment) (m' : Medium) :
    (g.putIfAbsent m seq x .answered).1.slots seq m'
      = if m' = m then some ((g.slots seq m).getD x) else g.slots seq m' := by
  unfold Store.putIfAbsent
  cases h : g.slots seq m with
  | some y =>
    dsimp only
    split
    · rename_i heq
      rw [heq, h]
      rfl
    · rfl
  | none =>
    rw [View.setSlot_slots]
    by_cases heq : m' = m
    · rw [if_pos ⟨rfl, heq⟩, if_pos heq]
      rfl
    · rw [if_neg fun h => heq h.2, if_neg heq]

theorem sealExpress_row (g : Store) (seq : Nat) (x : Segment) (m : Medium) :
    (g.sealExpress seq x).slots seq m
      = if m = .standard then g.slots seq .standard else some ((g.slots seq m).getD x) := by
  unfold Store.sealExpress
  cases m with
  | az1 => rw [putIfAbsent_row, if_neg (by decide), putIfAbsent_row, if_pos rfl, if_neg (by decide)]
  | az2 =>
    rw [putIfAbsent_row, if_pos rfl, putIfAbsent_row, if_neg (by decide), if_neg (by decide)]
  | standard =>
    rw [putIfAbsent_row, if_neg (by decide), putIfAbsent_row, if_neg (by decide), if_pos rfl]

theorem eval_sealOne (m : Medium) (seq : Nat) (x : Segment) (g : Store) :
    (sealOne m seq x).eval Store.answer g
      = ((g.putIfAbsent m seq x .answered).1, .ok (g.slots seq m).isNone) := by
  have h2 : (g.putIfAbsent m seq x .answered).2
      = if (g.slots seq m).isNone then .ok () else .error .alreadyExists := by
    unfold Store.putIfAbsent
    cases g.slots seq m <;> rfl
  have hput : (putIfAbsent m seq x).eval Store.answer g
      = ((g.putIfAbsent m seq x .answered).1, .ok (g.putIfAbsent m seq x .answered).2) := rfl
  rw [sealOne, Prog.eval_bind_ok hput, h2]
  cases (g.slots seq m).isNone <;> rfl

theorem eval_sealSegment_media (seq : Nat) (x : Segment) (g : Store) :
    (sealSegment .expressDual seq x).eval Store.answer g
      = match (g.slots seq .az1).isNone, (g.slots seq .az2).isNone with
        | true, true => (g.sealExpress seq x, .ok .sealed)
        | false, false => (g.sealExpress seq x, .ok .occupied)
        | _, _ => (((g.sealExpress seq x).putIfAbsent .standard seq x .answered).1,
            .ok (if (g.slots seq .standard).isNone then .sealed else .occupied)) := by
  have hthird : (sealOne .standard seq x >>= fun won =>
      if won = true then (pure .sealed : Media SealOutcome) else pure .occupied).eval Store.answer
        (g.sealExpress seq x)
      = (((g.sealExpress seq x).putIfAbsent .standard seq x .answered).1,
        .ok (if (g.slots seq .standard).isNone then .sealed else .occupied)) := by
    rw [Prog.eval_bind_ok (eval_sealOne .standard seq x _), sealExpress_row, if_pos rfl]
    cases (g.slots seq .standard).isNone <;> rfl
  have haz2 : (g.putIfAbsent .az1 seq x .answered).1.slots seq .az2 = g.slots seq .az2 := by
    rw [putIfAbsent_row, if_neg (by decide)]
  unfold sealSegment
  rw [Prog.eval_bind_ok (eval_sealOne .az1 seq x g), Prog.eval_bind_ok (eval_sealOne .az2 seq x _),
    haz2]
  cases (g.slots seq .az1).isNone with
  | true =>
    cases (g.slots seq .az2).isNone with
    | true => rfl
    | false => exact hthird
  | false =>
    cases (g.slots seq .az2).isNone with
    | true => exact hthird
    | false => rfl

theorem sealable_iff {row : Medium → Option Segment} :
    Sealable row ↔ ((row .az1).isNone && (row .az2).isNone
      || ((row .az1).isNone || (row .az2).isNone) && (row .standard).isNone) = true := by
  simp [Sealable, Option.isNone_iff_eq_none]

theorem eval_sealSegment (seq : Nat) (x : Segment) (g : Store) :
    ∃ g', SameBut seq g g' ∧ (¬ Sealable (g.slots seq) → g' = g.sealExpress seq x)
      ∧ (liftM (sealSegment .expressDual seq x) : Chain _).eval Store.answer g
        = (g', .ok (if Sealable (g.slots seq) then .sealed else .occupied)) := by
  have hexpress : SameBut seq g (g.sealExpress seq x) := SameBut.sealExpress g seq x
  have hlast := hexpress.trans (SameBut.putIfAbsent (g.sealExpress seq x) .standard seq x)
  have hfull : (g.slots seq .standard).isNone = false →
      ((g.sealExpress seq x).putIfAbsent .standard seq x .answered).1 = g.sealExpress seq x := by
    intro hs
    rcases View.putIfAbsent_cases (g.sealExpress seq x) .standard seq x .answered with h | ⟨h, -⟩
    · exact h
    · rw [sealExpress_row, if_pos rfl] at h
      rw [h] at hs
      cases hs
  simp only [eval_lift, eval_sealSegment_media, sealable_iff]
  cases (g.slots seq .az1).isNone with
  | true =>
    cases (g.slots seq .az2).isNone with
    | true => exact ⟨_, hexpress, fun _ => rfl, rfl⟩
    | false =>
      cases hs : (g.slots seq .standard).isNone with
      | true => exact ⟨_, hlast, fun hns => absurd rfl hns, rfl⟩
      | false => exact ⟨_, hlast, fun _ => hfull hs, rfl⟩
  | false =>
    cases (g.slots seq .az2).isNone with
    | true =>
      cases hs : (g.slots seq .standard).isNone with
      | true => exact ⟨_, hlast, fun hns => absurd rfl hns, rfl⟩
      | false => exact ⟨_, hlast, fun _ => hfull hs, rfl⟩
    | false => exact ⟨_, hexpress, fun _ => rfl, rfl⟩

end Zou.Wal
