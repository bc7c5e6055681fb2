import Zou.Tus

/-!
# When a resumable upload is what was acknowledged

The invariant of sound runs: while there is no object, the parts are the
bodies acknowledged, one after the other up to the offset, and the offset is
short of the length. It is the write that carries it: the row it finds is
the one it read, so its part goes behind the last one.
-/

namespace Zou.Tus

open Trace

/-! ## Bodies one behind the other -/

/-- Bodies one behind the other from `n` to `m`. -/
def Chain : Nat → List Ack → Nat → Prop
  | n, [], m => n = m
  | n, a :: as, m => a.offset = n ∧ Chain a.answer as m

variable {n m : Nat} {as : List Ack}

theorem Chain.append {a : Ack} (h : Chain n as m)
    (ha : a.offset = m) : Chain n (as ++ [a]) a.answer := by
  induction as generalizing n with
  | nil => exact ⟨ha.trans (Eq.symm h), rfl⟩
  | cons b as ih => exact ⟨h.1, ih h.2⟩

theorem Chain.total (h : Chain n as m) : m = n + (as.flatMap Ack.body).length := by
  induction as generalizing n with
  | nil => exact h.symm
  | cons a as ih =>
    rw [List.flatMap_cons, List.length_append, ih h.2, Ack.answer, h.1]
    omega

theorem Chain.ordered (h : Chain n as m) :
    (∀ a ∈ as, n ≤ a.offset) ∧ as.Pairwise fun a b => a.answer ≤ b.offset := by
  induction as generalizing n with
  | nil => exact ⟨fun a ha => absurd ha List.not_mem_nil, List.Pairwise.nil⟩
  | cons a as ih =>
    obtain ⟨hle, hpair⟩ := ih h.2
    refine ⟨fun b hb => ?_, List.pairwise_cons.mpr ⟨hle, hpair⟩⟩
    rcases List.mem_cons.mp hb with rfl | hb
    · exact Nat.le_of_eq h.1.symm
    · have hb := hle b hb
      have hn := h.1
      unfold Ack.answer at hb
      omega

theorem Chain.inOrder (h : Chain n as m) : Tus.inOrder as = as := by
  refine List.mergeSort_of_pairwise (h.ordered.2.imp fun hab => decide_eq_true ?_)
  unfold Ack.answer at hab
  omega

/-! ## The invariant -/

/-- The parts are the bodies acknowledged. -/
def Parts (blobs : Nat → Option Bytes) (acked : List Ack) : Prop :=
  ∀ i a, acked[i]? = some a → blobs i = some a.body

variable {blobs : Nat → Option Bytes} {acked : List Ack}

theorem joined_eq (hn : acked.length = n + 1) (h : Parts blobs acked) :
    joined blobs n = acked.flatMap Ack.body := by
  unfold joined
  rw [← hn, List.flatMap_def, List.flatMap_def]
  refine congrArg List.flatten (List.ext_getElem? fun i => ?_)
  rw [List.getElem?_map, List.getElem?_map]
  cases ha : acked[i]? with
  | none =>
    have hlen := List.getElem?_eq_none_iff.mp ha
    rw [List.getElem?_eq_none_iff.mpr (by rw [List.length_range]; exact hlen)]
    rfl
  | some a =>
    have hlt : i < acked.length := (List.getElem?_eq_some_iff.mp ha).1
    rw [List.getElem?_range hlt]
    show some ((blobs i).getD []) = some a.body
    rw [h i a ha]
    rfl

theorem Parts.put {a : Ack} (h : Parts blobs acked) :
    Parts (setAt blobs acked.length (some a.body)) (acked ++ [a]) := by
  intro i b hb
  unfold setAt
  rcases Nat.lt_trichotomy i acked.length with hi | hi | hi
  · rw [if_neg (Nat.ne_of_lt hi)]
    rw [List.getElem?_append_left hi] at hb
    exact h i b hb
  · rw [hi, List.getElem?_append_right le_rfl, Nat.sub_self] at hb
    cases hb
    rw [if_pos hi]
  · rw [List.getElem?_eq_none (by rw [List.length_append, List.length_singleton]; omega)] at hb
    cases hb

theorem Parts.keep {v : Option Bytes}
    (h : Parts blobs acked) : Parts (setAt blobs acked.length v) acked := by
  intro i a ha
  have hlt : i < acked.length := (List.getElem?_eq_some_iff.mp ha).1
  rw [setAt, if_neg (Nat.ne_of_lt hlt)]
  exact h i a ha

/-- What stands at a row while there is no object. -/
structure Growing (s : State) (upload : Upload) : Prop where
  parts : upload.parts = s.acked.length
  chain : Chain 0 s.acked upload.offset
  short : upload.length ≠ some upload.offset
  blobs : Parts s.blobs s.acked

/-- What stands at a row once there is. -/
structure Finished (s : State) (upload : Upload) (bytes : Bytes) : Prop where
  chain : Chain 0 s.acked upload.offset
  length : upload.length = some upload.offset
  object : bytes = s.acked.flatMap Ack.body

structure Inv (s : State) : Prop where
  /-- Before the row is there, nothing is, and one creation may be on its way. -/
  bare : s.row = none → s.acked = [] ∧ s.object = none ∧
    (∀ r p, s.pending r = some p → s.created = true ∧ p.creating = true ∧ p.later = none ∧
      p.upload.offset = 0 ∧ p.upload.parts = 0 ∧ (p.upload.length = some 0 → p.bytes = [])) ∧
    ∀ r r' p p', s.pending r = some p → s.pending r' = some p' → r = r'
  rowed : ∀ upload, s.row = some upload → s.created = true ∧
    (∀ r p, s.pending r = some p →
      p.creating = false ∧ p.upload.length ≠ some p.upload.offset) ∧
    (s.object = none → Growing s upload) ∧
    ∀ bytes, s.object = some bytes → Finished s upload bytes

theorem inv_start : Inv start := by
  refine ⟨fun _ => ⟨rfl, rfl, ?_, ?_⟩, ?_⟩
  · nofun
  · nofun
  · nofun

variable {s : State}

theorem inv_row {upload : Upload} (hrow : s.row = some upload)
    (hcreated : s.created = true)
    (hpending : ∀ r p, s.pending r = some p →
      p.creating = false ∧ p.upload.length ≠ some p.upload.offset)
    (hgrowing : s.object = none → Growing s upload)
    (hfinished : ∀ bytes, s.object = some bytes → Finished s upload bytes) : Inv s := by
  refine ⟨fun hno => ?_, fun u hu => ?_⟩
  · rw [hrow] at hno
    cases hno
  · obtain rfl : upload = u := Option.some.inj (hrow.symm.trans hu)
    exact ⟨hcreated, hpending, hgrowing, hfinished⟩

variable {r : Nat}

theorem setAt_none {α : Type} {f : Nat → Option α} {k : Nat} {a : α}
    (h : setAt f r none k = some a) : k ≠ r ∧ f k = some a := by
  unfold setAt at h
  split at h
  · cases h
  · rename_i hne
    exact ⟨hne, h⟩

theorem Inv.clear (h : Inv s) (r : Nat) : Inv { s with pending := setAt s.pending r none } := by
  refine ⟨fun hno => ?_, fun upload hu => ?_⟩
  · obtain ⟨hacked, hobject, hpending, hone⟩ := h.bare hno
    exact ⟨hacked, hobject, fun k p hp => hpending k p (setAt_none hp).2,
      fun k k' p p' hp hp' => hone k k' p p' (setAt_none hp).2 (setAt_none hp').2⟩
  · obtain ⟨hcreated, hpending, hgrowing, hfinished⟩ := h.rowed upload hu
    refine ⟨hcreated, fun k p hp => hpending k p (setAt_none hp).2, fun hno => ?_,
      fun bytes hb => ?_⟩
    · obtain ⟨hparts, hchain, hshort, hblobs⟩ := hgrowing hno
      exact ⟨hparts, hchain, hshort, hblobs⟩
    · obtain ⟨hchain, hlength, hobject⟩ := hfinished bytes hb
      exact ⟨hchain, hlength, hobject⟩

/-! ## The write -/

/-- What a write that finds the row it read can count on. -/
structure Ready (s : State) (r : Nat) (p : Patch) : Prop where
  base : (if p.creating then some p.upload else s.row) = some p.upload
  created : s.created = true
  object : s.object = none
  parts : p.upload.parts = s.acked.length
  chain : Chain 0 s.acked p.upload.offset
  short : p.upload.length = some p.upload.offset → p.later = none ∧ p.bytes = []
  blobs : Parts s.blobs s.acked
  others : ∀ k q, setAt s.pending r none k = some q →
    q.creating = false ∧ q.upload.length ≠ some q.upload.offset

variable {p : Patch}

theorem Inv.ready (h : Inv s) (hp : s.pending r = some p)
    (hread : p.creating = false → s.row = some p.upload) : Ready s r p := by
  cases hc : p.creating with
  | true =>
    cases hrow : s.row with
    | some upload =>
      have hfalse := ((h.rowed upload hrow).2.1 r p hp).1
      rw [hc] at hfalse
      cases hfalse
    | none =>
      obtain ⟨hacked, hobject, hpending, hone⟩ := h.bare hrow
      obtain ⟨hcreated, -, hlater, hoffset, hparts, hempty⟩ := hpending r p hp
      refine ⟨if_pos hc, hcreated, hobject, by rw [hparts, hacked]; rfl, ?_, fun hlen => ?_, ?_, ?_⟩
      · rw [hacked, hoffset]
        rfl
      · rw [hoffset] at hlen
        exact ⟨hlater, hempty hlen⟩
      · rw [hacked]
        nofun
      · intro k q hq
        obtain ⟨hne, hq⟩ := setAt_none hq
        exact absurd (hone k r q p hq hp) hne
  | false =>
    have hrow := hread hc
    obtain ⟨hcreated, hpending, hgrowing, hfinished⟩ := h.rowed p.upload hrow
    have hshort := (hpending r p hp).2
    have hobject : s.object = none := by
      cases ho : s.object with
      | none => rfl
      | some bytes => exact absurd (hfinished bytes ho).length hshort
    obtain ⟨hparts, hchain, -, hblobs⟩ := hgrowing hobject
    exact ⟨(if_neg (by rw [hc]; exact Bool.false_ne_true)).trans hrow, hcreated, hobject, hparts,
      hchain, fun hlen => absurd hlen hshort, hblobs, fun k q hq => hpending k q (setAt_none hq).2⟩

theorem Inv.put (h : Inv s) (hready : Ready s r p) :
    Inv { s with blobs := setAt s.blobs p.upload.parts (some p.bytes)
                 pending := setAt s.pending r none } := by
  have hclear := h.clear r
  refine ⟨fun hno => hclear.bare hno, fun upload hu => ?_⟩
  obtain ⟨hcreated, hpending, hgrowing, hfinished⟩ := hclear.rowed upload hu
  refine ⟨hcreated, hpending, fun hno => ?_, fun bytes hb => ?_⟩
  · obtain ⟨hparts, hchain, hshort, hblobs⟩ := hgrowing hno
    refine ⟨hparts, hchain, hshort, ?_⟩
    rw [hready.parts]
    exact hblobs.keep
  · obtain ⟨hchain, hlength, hobject⟩ := hfinished bytes hb
    exact ⟨hchain, hlength, hobject⟩

theorem accept_inv (h : Inv s) {outcome : Outcome}
    (hready : Ready s r p) (hok : outcome ≠ .refused) :
    Inv { accept s p outcome with pending := setAt s.pending r none } := by
  have hput := h.put hready
  obtain ⟨hbase, hcreated, hobject, hparts, hchain, hshort, hblobs, hothers⟩ := hready
  have hack : Chain 0 (s.acked ++ [⟨p.upload.offset, p.bytes⟩])
      (p.upload.offset + p.bytes.length) := hchain.append rfl
  unfold accept
  dsimp only
  rw [hbase]
  split
  · -- The body breaks the promise of the length.
    rename_i hover
    refine inv_row rfl hcreated hothers (fun _ => ⟨hparts, hchain, fun hlen => ?_, hblobs⟩)
      fun bytes hb => ?_
    · obtain ⟨hlater, hempty⟩ := hshort hlen
      rw [hlater, hlen, hempty] at hover
      simp at hover
    · rw [hobject] at hb
      cases hb
  · split
    · exact h.clear r
    · split
      · exact hput
      · split
        · rename_i hlength
          cases outcome with
          | refused => exact absurd rfl hok
          | getFails => exact hput
          | writeFails => exact hput
          | _ =>
            refine inv_row rfl hcreated hothers nofun fun bytes hb => ?_
            cases hb
            refine ⟨hack, hlength, ?_⟩
            refine joined_eq ?_ ?_
            · rw [List.length_append, List.length_singleton, hparts]
            · rw [hparts]
              exact hblobs.put
        · rename_i hlength
          refine inv_row rfl hcreated hothers (fun _ => ⟨?_, hack, hlength, ?_⟩) fun bytes hb => ?_
          · show p.upload.parts + 1 = _
            rw [List.length_append, List.length_singleton, hparts]
          · show Parts (setAt s.blobs p.upload.parts (some p.bytes)) _
            rw [hparts]
            exact hblobs.put
          · rw [hobject] at hb
            cases hb

/-! ## Runs -/

theorem create_inv {s' : State} {asked : Option Nat} {carried : Option Bytes}
    (h : Inv s) (hok : asked = some 0 → carried = some [])
    (hnext : next s (.create r asked carried) = some s') : Inv s' := by
  simp only [next] at hnext
  split at hnext
  · cases hnext
  · rename_i hguard
    have hnew : s.created = false := by
      cases hc : s.created with
      | false => rfl
      | true =>
        rw [hc, Bool.true_or] at hguard
        exact absurd rfl hguard
    have hrow : s.row = none := by
      cases hr : s.row with
      | none => rfl
      | some upload =>
        have hcreated := (h.rowed upload hr).1
        rw [hnew] at hcreated
        cases hcreated
    obtain ⟨hacked, hobject, hpending, -⟩ := h.bare hrow
    have hnone : ∀ k, s.pending k = none := by
      intro k
      cases hk : s.pending k with
      | none => rfl
      | some p =>
        have hcreated := (hpending k p hk).1
        rw [hnew] at hcreated
        cases hcreated
    cases carried with
    | none =>
      cases hnext
      refine inv_row rfl rfl (fun k p hp => ?_) (fun _ => ⟨?_, ?_, fun hzero => ?_, ?_⟩)
        fun bytes hb => ?_
      · exact absurd hp (by rw [hnone k]; exact nofun)
      · show 0 = s.acked.length
        rw [hacked]
        rfl
      · show Chain 0 s.acked 0
        rw [hacked]
        rfl
      · have hcarried := hok hzero
        cases hcarried
      · intro i a ha
        rw [hacked] at ha
        cases ha
      · exact absurd hb (by rw [hobject]; exact nofun)
    | some bytes =>
      cases hnext
      have hset : ∀ k p, setAt s.pending r (some ⟨⟨0, asked, 0⟩, bytes, none, true⟩) k = some p →
          k = r ∧ p = ⟨⟨0, asked, 0⟩, bytes, none, true⟩ := by
        intro k p hp
        unfold setAt at hp
        split at hp
        · rename_i heq
          exact ⟨heq, (Option.some.inj hp).symm⟩
        · rw [hnone k] at hp
          cases hp
      refine ⟨fun _ => ⟨hacked, hobject, fun k p hp => ?_, fun k k' p p' hp hp' => ?_⟩,
        fun upload hu => ?_⟩
      · obtain ⟨-, rfl⟩ := hset k p hp
        exact ⟨rfl, rfl, rfl, rfl, rfl, fun hzero => Option.some.inj (hok hzero)⟩
      · exact (hset k p hp).1.trans (hset k' p' hp').1.symm
      · rw [hrow] at hu
        cases hu

theorem patch_inv (h : Inv s) (r : Nat) (offset : Option Nat) (bytes : Bytes)
    (declared : Option Nat) : Inv (patch s r offset bytes declared) := by
  unfold patch
  cases hrow : s.row with
  | none => exact h
  | some upload =>
    dsimp only
    split
    · exact h
    · rename_i hshort
      split
      · exact h
      · obtain ⟨hcreated, hpending, hgrowing, hfinished⟩ := h.rowed upload hrow
        generalize (if upload.length = none then declared else none) = later
        refine inv_row rfl hcreated (fun k p hp => ?_) (fun hno => ?_) fun b hb => ?_
        · have hset : (if k = r then some ⟨upload, bytes, later, false⟩ else s.pending k) = some p :=
            hp
          split at hset
          · cases hset
            exact ⟨rfl, hshort⟩
          · exact hpending k p hset
        · obtain ⟨hparts, hchain, hlen, hblobs⟩ := hgrowing hno
          exact ⟨hparts, hchain, hlen, hblobs⟩
        · obtain ⟨hchain, hlength, hobject⟩ := hfinished b hb
          exact ⟨hchain, hlength, hobject⟩

theorem inv_next {s' : State} {act : Act} (h : Inv s) (hok : Sound s act)
    (hnext : next s act = some s') : Inv s' := by
  cases act with
  | create r asked carried => exact create_inv h hok hnext
  | read r offset bytes declared =>
    simp only [next] at hnext
    split at hnext
    · cases hnext
    · cases hnext
      exact patch_inv h r offset bytes declared
  | write r outcome =>
    simp only [next] at hnext
    cases hp : s.pending r with
    | none =>
      rw [hp] at hnext
      cases hnext
    | some p =>
      rw [hp] at hnext
      have hinv := accept_inv h (h.ready hp (hok.2 p hp)) hok.1
      cases hnext
      have hsame : (accept s p outcome).pending = s.pending := by
        unfold accept
        dsimp only
        repeat' split
        all_goals rfl
      rw [hsame]
      exact hinv

theorem Inv.promise (h : Inv s) : Promise s := by
  have hchain : ∃ n, Chain 0 s.acked n := by
    cases hrow : s.row with
    | none => exact ⟨0, by rw [(h.bare hrow).1]; rfl⟩
    | some upload =>
      obtain ⟨-, -, hgrowing, hfinished⟩ := h.rowed upload hrow
      cases ho : s.object with
      | none => exact ⟨_, (hgrowing ho).chain⟩
      | some bytes => exact ⟨_, (hfinished bytes ho).chain⟩
  obtain ⟨n, hchain⟩ := hchain
  refine ⟨fun bytes hb => ?_, hchain.ordered.2.imp fun hab => ?_,
    hchain.ordered.2.imp fun hab n hcover => ?_, fun upload hrow hlen => ?_⟩
  · cases hrow : s.row with
    | none =>
      rw [(h.bare hrow).2.1] at hb
      cases hb
    | some upload =>
      obtain ⟨hchain, hlength, hobject⟩ := (h.rowed upload hrow).2.2.2 bytes hb
      rw [hchain.inOrder]
      refine ⟨hobject, upload, rfl, ?_⟩
      rw [hlength, hobject, hchain.total, Nat.zero_add]
  · unfold Ack.answer at hab ⊢
    omega
  · obtain ⟨⟨-, ha⟩, hb, -⟩ := hcover
    omega
  · cases ho : s.object with
    | none => exact absurd hlen ((h.rowed upload hrow).2.2.1 ho).short
    | some bytes => rfl

/-- In a run of sound steps an upload assembles what was acknowledged. -/
theorem sound_promise {acts : List Act} {s : State} (hok : Meets next Sound start acts)
    (hrun : run next start acts = some s) : Promise s :=
  Inv.promise (guarded_invariant (fun _ _ _ => inv_next) inv_start hok hrun)

instance decidableSound (s : State) : ∀ act, Decidable (Sound s act)
  | .create _ asked carried => inferInstanceAs (Decidable (asked = some 0 → carried = some []))
  | .read .. => inferInstanceAs (Decidable True)
  | .write r outcome =>
    decidable_of_iff (outcome ≠ .refused ∧ ((s.pending r).all fun p =>
      decide (p.creating = false → s.row = some p.upload)) = true)
      (and_congr_right fun _ => by simp only [Option.all_eq_true, decide_eq_true_eq])

/-- A deferred upload that is created with a byte and finished with another. -/
def deferred : List Act :=
  [.create 0 none (some [104]), .write 0 .done, .read 1 (some 1) [105] (some 2), .write 1 .done]

theorem sound_promise_deferred :
    ∃ s, run next start deferred = some s ∧ s.object = some [104, 105] ∧ Promise s := by
  have hobject : (run next start deferred).map State.object = some (some [104, 105]) := by
    decide +kernel
  obtain ⟨s, hs, ho⟩ := Option.map_eq_some_iff.mp hobject
  exact ⟨s, hs, ho, sound_promise (by decide +kernel) hs⟩

/-! ## Runs that break it -/

/-- Two patches that read the same row are both taken. -/
def twice : List Act :=
  [.create 0 (some 2) none, .read 1 (some 0) [1] none, .read 2 (some 0) [2] none,
    .write 1 .done, .write 2 .done]

/-- Nothing is left to send, and there is no object. -/
def empty : List Act := [.create 0 (some 0) none]

/-- The bucket refuses the object, and the offset has moved. -/
def denied : List Act :=
  [.create 0 (some 1) none, .read 1 (some 0) [1] none, .write 1 .refused]

theorem Promise.no_stuck {upload : Upload} (h : Promise s)
    (hlen : upload.length = some upload.offset) : (s.row, s.object) ≠ (some upload, none) := by
  intro hs
  obtain ⟨hrow, hobject⟩ := Prod.mk.inj hs
  have hsome := h.finished upload hrow hlen
  rw [hobject] at hsome
  cases hsome

theorem uploads_break :
    ¬ (∀ acts s, run next start acts = some s → Promise s) ∧
    (∃ s, run next start twice = some s ∧ ¬ Promise s) ∧
    (∃ s, run next start empty = some s ∧ ¬ Promise s) ∧
    ∃ s, run next start denied = some s ∧ ¬ Promise s := by
  have htwice : ∃ s, run next start twice = some s ∧ ¬ Promise s := by
    have hacked : (run next start twice).map State.acked = some [⟨0, [1]⟩, ⟨0, [2]⟩] := by
      decide +kernel
    obtain ⟨s, hs, ha⟩ := Option.map_eq_some_iff.mp hacked
    refine ⟨s, hs, fun h => ?_⟩
    have hdisjoint := h.disjoint
    rw [ha] at hdisjoint
    exact (List.pairwise_cons.mp hdisjoint).1 _ (List.mem_singleton.mpr rfl) 0
      ⟨⟨by decide, by decide⟩, by decide, by decide⟩
  have hstuck : ∀ (acts : List Act) (upload : Upload), upload.length = some upload.offset →
      (run next start acts).map (fun s => (s.row, s.object)) = some (some upload, none) →
      ∃ s, run next start acts = some s ∧ ¬ Promise s := by
    intro acts upload hlen hrun
    obtain ⟨s, hs, hrow⟩ := Option.map_eq_some_iff.mp hrun
    exact ⟨s, hs, fun h => h.no_stuck hlen hrow⟩
  refine ⟨fun hall => ?_, htwice, hstuck empty ⟨0, some 0, 0⟩ rfl (by decide +kernel),
    hstuck denied ⟨1, some 1, 1⟩ rfl (by decide +kernel)⟩
  obtain ⟨s, hs, hno⟩ := htwice
  exact hno (hall twice s hs)

end Zou.Tus
