import Zou.Lib.Packing
import Zou.WalAlone

/-!
# Progress of a takeover

From which media states a takeover that nobody disturbs returns, and the
sequencer it starts lands its first segment. The seal needs both express
buckets of the seq after the head, or one of them and the standard bucket;
the sweep clears the seq after the seal only where two media agree on it.
An object that crashed on one medium is in the way of both and nothing takes
it away.
-/

namespace Zou.Wal

open Client Trace

variable {g g' : Store}

/-! ## The sweep -/

/-- A row that the sweep passes: a landing that two media agree on goes. -/
def sweptRow (row : Medium → Option Segment) : Medium → Option Segment :=
  match fetchOf (row .az1) (row .az2) (row .standard) with
  | some x => if x.header.kind = .landing then fun _ => none else row
  | none => row

/-- The seqs from `first` on have been swept, some of them. -/
structure Swept (first : Nat) (g g' : Store) : Prop where
  low : ∀ seq, seq < first → g'.slots seq = g.slots seq
  rows : ∀ seq, g'.slots seq = g.slots seq ∨ g'.slots seq = fun _ => none
  manifest : g'.manifest = g.manifest
  launched : g'.launched = g.launched
  channels : g'.channels = g.channels

theorem Swept.refl (first : Nat) (g : Store) : Swept first g g :=
  ⟨fun _ _ => rfl, fun _ => .inl rfl, rfl, rfl, rfl⟩

theorem Swept.trans {first first' : Nat} {g₁ g₂ g₃ : Store} (h : Swept first g₁ g₂)
    (h' : Swept first' g₂ g₃) (hle : first ≤ first') : Swept first g₁ g₃ := by
  refine ⟨fun seq hs => ?_, fun seq => ?_, h'.manifest.trans h.manifest,
    h'.launched.trans h.launched, h'.channels.trans h.channels⟩
  · exact (h'.low seq (by omega)).trans (h.low seq hs)
  · rcases h'.rows seq with h' | h'
    · rw [h']
      exact h.rows seq
    · exact .inr h'

theorem Swept.emptyFrom {first n : Nat} (h : Swept first g g') (hfin : g.EmptyFrom n) :
    g'.EmptyFrom n := by
  intro seq m hn
  rcases h.rows seq with heq | heq
  · rw [heq]
    exact hfin seq m hn
  · rw [heq]

theorem eval_deleteSegment (seq : Nat) (g : Store) :
    ∃ g', (liftM (deleteSegment .expressDual seq) : Chain Unit).eval Store.answer g = (g', .ok ())
      ∧ Swept seq g g' ∧ g'.slots seq = fun _ => none := by
  refine ⟨((g.setSlot seq .az1 none).setSlot seq .az2 none).setSlot seq .standard none, rfl, ?_, ?_⟩
  · refine ⟨fun s hs => ?_, fun s => ?_, rfl, rfl, rfl⟩
    · have hne : s ≠ seq := Nat.ne_of_lt hs
      rw [View.setSlot_row hne, View.setSlot_row hne, View.setSlot_row hne]
    · by_cases hs : s = seq
      · subst hs
        right
        funext m
        cases m <;> simp [View.setSlot_slots]
      · rw [View.setSlot_row hs, View.setSlot_row hs, View.setSlot_row hs]
        exact .inl rfl
  · funext m
    cases m <;> simp [View.setSlot_slots]

theorem sweptRow_absent (h : presentOf (g.slots seq) = false) :
    sweptRow (g.slots seq) = g.slots seq := by
  have hnone : g.owner .expressDual seq = none := by
    cases howner : g.owner .expressDual seq with
    | none => rfl
    | some x =>
      rw [presentOf_of_owner howner] at h
      cases h
  unfold sweptRow
  rw [show fetchOf _ _ _ = none from hnone]

theorem eval_sweepWindow : ∀ (ps : List Bool) (seq gap : Nat) (g : Store), ∃ g' r,
    (sweepWindow .expressDual ps seq gap).eval Store.answer g = (g', .ok r) ∧ Swept seq g g'
      ∧ (ps.head? = some (presentOf (g.slots seq)) → g'.slots seq = sweptRow (g.slots seq)) := by
  intro ps
  induction ps with
  | nil => exact fun seq gap g => ⟨g, some gap, rfl, Swept.refl seq g, nofun⟩
  | cons p ps ih =>
    intro seq gap g
    cases p with
    | false =>
      have hrow : some false = some (presentOf (g.slots seq)) →
          sweptRow (g.slots seq) = g.slots seq :=
        fun h => sweptRow_absent (Option.some.inj h).symm
      unfold sweepWindow
      split
      · exact ⟨g, none, rfl, Swept.refl seq g, fun h => (hrow h).symm⟩
      · obtain ⟨g', r, heval, hswept, -⟩ := ih (seq + 1) (gap + 1) g
        refine ⟨g', r, heval, (Swept.refl seq g).trans hswept (Nat.le_succ _), fun h => ?_⟩
        rw [hrow h]
        exact hswept.low seq (Nat.lt_succ_self _)
    | true =>
      unfold sweepWindow
      rw [Prog.eval_bind_ok (eval_fetch seq g)]
      cases howner : g.owner .expressDual seq with
      | none =>
        obtain ⟨g', r, heval, hswept, -⟩ := ih (seq + 1) 0 g
        refine ⟨g', r, heval, (Swept.refl seq g).trans hswept (Nat.le_succ _), fun _ => ?_⟩
        unfold sweptRow
        rw [show fetchOf _ _ _ = none from howner]
        exact hswept.low seq (Nat.lt_succ_self _)
      | some x =>
        dsimp only
        split
        · rename_i hkind
          refine ⟨g, none, rfl, Swept.refl seq g, fun _ => ?_⟩
          unfold sweptRow
          rw [show fetchOf _ _ _ = some x from howner]
          exact (if_neg hkind).symm
        · rename_i hkind
          obtain ⟨g₁, hdel, hswept₁, hrow⟩ := eval_deleteSegment seq g
          obtain ⟨g', r, heval, hswept, -⟩ := ih (seq + 1) 0 g₁
          rw [Prog.eval_bind_ok hdel]
          refine ⟨g', r, heval, hswept₁.trans hswept (Nat.le_succ _), fun _ => ?_⟩
          unfold sweptRow
          rw [show fetchOf _ _ _ = some x from howner]
          dsimp only
          rw [if_pos (Decidable.not_not.mp hkind), hswept.low seq (Nat.lt_succ_self _), hrow]

theorem eval_sweepWindow_absent (g : Store) : ∀ len seq gap, gap < maxInflight →
    (sweepWindow .expressDual (List.replicate len false) seq gap).eval Store.answer g
      = (g, .ok (if gap + len ≥ maxInflight then none else some (gap + len))) := by
  intro len
  induction len with
  | zero =>
    intro seq gap hgap
    rw [Nat.add_zero, if_neg (Nat.not_le_of_lt hgap)]
    rfl
  | succ len ih =>
    intro seq gap hgap
    rw [List.replicate_succ]
    unfold sweepWindow
    split
    · rename_i hge
      rw [if_pos (by omega)]
      rfl
    · rename_i hlt
      rw [ih (seq + 1) (gap + 1) (Nat.lt_of_not_le hlt)]
      simp only [Nat.add_assoc, Nat.add_comm 1 len]

theorem eval_sweepLoop {n : Nat} : ∀ (k seq gap : Nat) (g : Store), g.EmptyFrom n →
    n ≤ seq + 1 + probeWidth * k → ∀ fuel, k + 3 ≤ fuel →
    ∃ g', (sweepLoop .expressDual fuel seq gap).eval Store.answer g = (g', .ok ())
      ∧ Swept (seq + 1) g g'
      ∧ (gap < maxInflight → g'.slots (seq + 1) = sweptRow (g.slots (seq + 1))) := by
  intro k
  induction k with
  | zero =>
    intro seq gap g hfin hn fuel hfuel
    have hwindow : ∀ first, n ≤ first → (List.range' first probeWidth).map
        (fun seq => presentOf (g.slots seq)) = List.replicate probeWidth false := by
      intro first hfirst
      refine List.eq_replicate_iff.mpr ⟨by rw [List.length_map, List.length_range'], ?_⟩
      intro b hb
      obtain ⟨seq, hseq, rfl⟩ := List.mem_map.mp hb
      exact hfin.absent (by have := (List.mem_range'_1.mp hseq).1; omega)
    have hrow : g.slots (seq + 1) = sweptRow (g.slots (seq + 1)) :=
      (sweptRow_absent (hfin.absent (by omega))).symm
    obtain ⟨fuel, rfl⟩ : ∃ f, fuel = f + 2 := ⟨fuel - 2, by omega⟩
    refine ⟨g, ?_, Swept.refl _ g, fun _ => hrow⟩
    unfold sweepLoop
    split
    · rename_i hgap
      rw [Prog.eval_bind_ok (eval_probeWindow ..), hwindow (seq + 1) (by omega),
        Prog.eval_bind_ok (eval_sweepWindow_absent g _ _ _ hgap)]
      split
      · rfl
      · -- a second window of absent seqs is the end
        rename_i gap' hgap'
        have hgap'' : gap' = gap + probeWidth ∧ gap + probeWidth < maxInflight := by
          split at hgap'
          · cases hgap'
          · rename_i hlt
            exact ⟨(Option.some.inj hgap').symm, Nat.lt_of_not_le hlt⟩
        obtain ⟨rfl, hlt⟩ := hgap''
        unfold sweepLoop
        rw [if_pos hlt, Prog.eval_bind_ok (eval_probeWindow ..),
          hwindow (seq + probeWidth + 1) (by omega),
          Prog.eval_bind_ok (eval_sweepWindow_absent g _ _ _ hlt), if_pos]
        · rfl
        · unfold probeWidth maxInflight
          omega
    · rfl
  | succ k ih =>
    intro seq gap g hfin hn fuel hfuel
    obtain ⟨fuel, rfl⟩ : ∃ f, fuel = f + 1 := ⟨fuel - 1, by omega⟩
    unfold sweepLoop
    split
    · obtain ⟨g₁, r, heval, hswept, hfirst⟩ := eval_sweepWindow
        ((List.range' (seq + 1) probeWidth).map fun s => presentOf (g.slots s)) (seq + 1) gap g
      rw [Prog.eval_bind_ok (eval_probeWindow ..), Prog.eval_bind_ok heval]
      have hrow : g₁.slots (seq + 1) = sweptRow (g.slots (seq + 1)) := hfirst rfl
      cases r with
      | none => exact ⟨g₁, rfl, hswept, fun _ => hrow⟩
      | some gap' =>
        have hpos : 0 < probeWidth := by decide
        obtain ⟨g', heval', hswept', -⟩ := ih (seq + probeWidth) gap' g₁ (hswept.emptyFrom hfin)
          (by rw [Nat.mul_add] at hn; omega) fuel (by omega)
        refine ⟨g', heval', hswept.trans hswept' (by omega), fun _ => ?_⟩
        rw [hswept'.low (seq + 1) (by omega)]
        exact hrow
    · rename_i hgap
      exact ⟨g, rfl, Swept.refl _ g, fun h => absurd h hgap⟩

/-! ## The first put -/

/-- No put of an earlier call is in flight. -/
structure Quiet (g : Store) : Prop where
  launched : g.launched = []
  channels : ∀ c, g.channels c = []

variable {seq : Nat} {x : Segment}

theorem eval_receive {c : Nat} {m : Medium} {rest : List Launched}
    (hl : g.launched = ⟨c, m, seq, x⟩ :: rest) (hc : g.channels c = []) (timed : Bool) :
    ∃ g', (receive c timed).eval Store.answer g
        = (g', .ok (some (g.putIfAbsent m seq x .answered).2))
      ∧ g'.slots = (g.putIfAbsent m seq x .answered).1.slots ∧ g'.manifest = g.manifest
      ∧ g'.launched = rest ∧ g'.channels c = [] := by
  have hland : g.landFirst c = { (g.putIfAbsent m seq x .answered).1 with
      launched := rest
      channels := Function.update g.channels c [(g.putIfAbsent m seq x .answered).2] } := by
    unfold Store.landFirst Store.land
    rw [hl, List.findIdx?_cons, if_pos (by simp)]
    simp [hc]
  have htake : (g.landFirst c).takeReply c = ({ g.landFirst c with
      channels := Function.update (g.landFirst c).channels c [] },
      some (g.putIfAbsent m seq x .answered).2) := by
    have hc' : (g.landFirst c).channels c = [(g.putIfAbsent m seq x .answered).2] := by
      rw [hland]
      exact Function.update_self ..
    unfold Store.takeReply
    rw [hc']
  refine ⟨{ g.landFirst c with channels := Function.update (g.landFirst c).channels c [] },
    ?_, ?_, ?_, ?_, Function.update_self ..⟩
  · change (((g.landFirst c).takeReply c).1, Except.ok ((g.landFirst c).takeReply c).2) = _
    rw [htake]
  · rw [hland]
  · rw [hland]
    exact (SameBut.putIfAbsent g m seq x).manifest
  · rw [hland]

theorem putIfAbsent_reply (g : Store) (m : Medium) (seq : Nat) (x : Segment) :
    (g.putIfAbsent m seq x .answered).2
      = if (g.slots seq m).isNone then .ok () else .error .alreadyExists := by
  unfold Store.putIfAbsent
  cases g.slots seq m <;> rfl

theorem eval_quorum_ok {c fuel outstanding successes : Nat} {hedged : Bool}
    {e : Option CasError} (hout : outstanding ≠ 0)
    (h : (receive c (!hedged)).eval Store.answer g = (g', .ok (some (.ok ())))) :
    (quorumLoop seq x c (fuel + 1) outstanding successes hedged e).eval Store.answer g
      = if 2 ≤ successes + 1 then (g', .ok ())
        else (quorumLoop seq x c fuel (outstanding - 1) (successes + 1) hedged e).eval
          Store.answer g' := by
  rw [quorumLoop, if_neg hout, Prog.eval_bind_ok h]
  dsimp only
  split <;> rfl

theorem eval_quorum_taken {c fuel outstanding successes : Nat} {hedged : Bool}
    {e : Option CasError} (hout : outstanding ≠ 0)
    (h : (receive c (!hedged)).eval Store.answer g = (g', .ok (some (.error .alreadyExists)))) :
    (quorumLoop seq x c (fuel + 1) outstanding successes hedged e).eval Store.answer g
      = (g', .error .alreadyExists) := by
  unfold quorumLoop
  rw [if_neg hout, Prog.eval_bind_ok h]
  rfl

/-- A put finds both express buckets empty, or is refused by the first one
that is not. -/
theorem eval_putSegment (h : Quiet g) (seq : Nat) (x : Segment) :
    ∃ g' r, (putSegment .expressDual seq x).eval Store.answer g = (g', r)
      ∧ (g.slots seq .az1 = none → g.slots seq .az2 = none → r = .ok ())
      ∧ (∀ y, g.slots seq .az1 = some y → r = .error .alreadyExists
        ∧ g'.slots seq = g.slots seq)
      ∧ (∀ y, g.slots seq .az1 = none → g.slots seq .az2 = some y → r = .error .alreadyExists
        ∧ g'.slots seq = Function.update (g.slots seq) .az1 (some x)) := by
  -- the two threads are started
  let c := g.nextChannel
  let g₀ : Store := { g with
    nextChannel := c + 1
    launched := [⟨c, .az1, seq, x⟩, ⟨c, .az2, seq, x⟩] }
  have hstart : (putSegment .expressDual seq x).eval Store.answer g
      = (quorumLoop seq x c 5 2 0 false none).eval Store.answer g₀ := by
    change (quorumLoop seq x c 5 2 0 false none).eval Store.answer
      { g with nextChannel := c + 1, launched := g.launched ++ [⟨c, .az1, seq, x⟩]
        ++ [⟨c, .az2, seq, x⟩] } = _
    rw [h.launched]
    rfl
  obtain ⟨g₁, heval₁, hslots₁, -, hlaunched₁, hchan₁⟩ :=
    eval_receive (g := g₀) rfl (h.channels c) true
  rw [putIfAbsent_reply] at heval₁
  cases ha : g.slots seq .az1 with
  | some y =>
    have hslot : g₀.slots seq .az1 = some y := ha
    rw [hslot] at heval₁
    refine ⟨g₁, _, hstart.trans (eval_quorum_taken (by decide) heval₁), nofun,
      fun _ _ => ⟨rfl, ?_⟩, nofun⟩
    rw [hslots₁]
    funext m
    rw [putIfAbsent_row]
    split
    · rename_i hm
      rw [hm, hslot]
      rfl
    · rfl
  | none =>
    have hslot : g₀.slots seq .az1 = none := ha
    rw [hslot] at heval₁
    have hrow : g₁.slots seq = Function.update (g.slots seq) .az1 (some x) := by
      rw [hslots₁]
      funext m
      rw [putIfAbsent_row, hslot]
      by_cases hm : m = .az1
      · rw [if_pos hm, hm, Function.update_self]
        rfl
      · rw [if_neg hm, Function.update_of_ne hm]
    obtain ⟨g₂, heval₂, hslots₂, -, -, -⟩ := eval_receive hlaunched₁ hchan₁ true
    have haz2 : g₁.slots seq .az2 = g.slots seq .az2 := by
      rw [hrow, Function.update_of_ne (by decide)]
    rw [putIfAbsent_reply, haz2] at heval₂
    have hfirst := hstart.trans (eval_quorum_ok (by decide) heval₁)
    rw [if_neg (by decide)] at hfirst
    cases hb : g.slots seq .az2 with
    | none =>
      rw [hb] at heval₂
      have hsecond := hfirst.trans (eval_quorum_ok (by decide) heval₂)
      rw [if_pos (by decide)] at hsecond
      exact ⟨g₂, _, hsecond, fun _ _ => rfl, nofun,
        nofun⟩
    | some y =>
      rw [hb] at heval₂
      refine ⟨g₂, _, hfirst.trans (eval_quorum_taken (by decide) heval₂),
        nofun, nofun, fun _ _ _ => ⟨rfl, ?_⟩⟩
      rw [hslots₂, ← hrow]
      funext m
      rw [putIfAbsent_row, haz2, hb]
      split
      · rename_i hm
        rw [hm, haz2, hb]
        rfl
      · rfl

theorem eval_stragglerAt (q : Nat)
    (h : ∀ y, g.owner .expressDual seq = some y → y.header.kind ≠ .landing) :
    (stragglerAt .expressDual seq q).eval Store.answer g = (g, .ok false) := by
  unfold stragglerAt
  split
  · rfl
  · rw [Prog.eval_bind_ok (eval_fetch seq g)]
    cases howner : g.owner .expressDual seq with
    | none => rfl
    | some y =>
      dsimp only
      rw [if_pos (h y howner)]
      rfl

theorem eval_sinkPut_ok (h : Quiet g) (q : Nat) (x : Segment)
    (ha : g.slots seq .az1 = none) (hb : g.slots seq .az2 = none) :
    ((sinkPut .expressDual q seq x).eval Store.answer g).2 = .ok () := by
  obtain ⟨g', r, heval, hok, -⟩ := eval_putSegment h seq x
  obtain rfl := hok ha hb
  unfold sinkPut
  rw [Prog.eval_bind_ok (Prog.eval_attempt ..), heval]
  rfl

theorem eval_sinkPut_taken (q : Nat) (x : Segment)
    (hput : (putSegment .expressDual seq x).eval Store.answer g = (g', .error .alreadyExists))
    (howner : ∀ y, g'.owner .expressDual seq = some y → y.header.kind ≠ .landing) :
    ((sinkPut .expressDual q seq x).eval Store.answer g).2 = .error .alreadyExists := by
  unfold sinkPut
  rw [Prog.eval_bind_ok (Prog.eval_attempt ..), hput]
  rw [Prog.eval_bind_ok (Prog.eval_attempt ..), eval_stragglerAt q howner]
  rfl

/-- The first window of the sequencer a takeover started. -/
def firstWindow (shard : Nat) (t : Takeover) (frames : List LogFrame) : Segment :=
  Segment.build ⟨.landing, shard, t.nextSeq, t.prevDigest⟩ frames

/-- Whatever the first window holds, the sink lands it. -/
def Lands (shard : Nat) (g : Store) (t : Takeover) : Prop :=
  ∀ frames, frames ≠ [] → ((sinkPut .expressDual t.sealedSeq t.nextSeq
    (firstWindow shard t frames)).eval Store.answer g).2 = .ok ()

theorem exists_frames (y z : Segment) (shard : Nat) (t : Takeover) : ∃ frames, frames ≠ [] ∧
    firstWindow shard t frames ≠ y ∧ firstWindow shard t frames ≠ z := by
  let f : LogFrame := ⟨0, 0, 0, 0, []⟩
  have hlen : ∀ w : Segment, w = y ∨ w = z →
      (y.frames ++ z.frames ++ [f]).length ≠ w.frames.length := by
    intro w hw
    rw [List.length_append, List.length_append, List.length_singleton]
    rcases hw with rfl | rfl <;> omega
  refine ⟨y.frames ++ z.frames ++ [f], by simp, fun heq => ?_, fun heq => ?_⟩
  · exact hlen y (.inl rfl) (congrArg (·.frames.length) heq)
  · exact hlen z (.inr rfl) (congrArg (·.frames.length) heq)

theorem lands_iff (h : Quiet g) {shard : Nat} {t : Takeover}
    (howner : ∀ y, g.owner .expressDual t.nextSeq = some y → y.header.kind ≠ .landing) :
    Lands shard g t ↔ g.slots t.nextSeq .az1 = none ∧ g.slots t.nextSeq .az2 = none := by
  constructor
  · intro hlands
    cases ha : g.slots t.nextSeq .az1 with
    | some y =>
      -- the first answer is a refusal
      have hok := hlands [⟨0, 0, 0, 0, []⟩] (by simp)
      obtain ⟨g', r, heval, -, htaken, -⟩ := eval_putSegment h t.nextSeq
        (firstWindow shard t [⟨0, 0, 0, 0, []⟩])
      obtain ⟨rfl, hrow⟩ := htaken y ha
      rw [eval_sinkPut_taken t.sealedSeq _ heval] at hok
      · cases hok
      · intro z hz
        refine howner z ?_
        change fetchOf _ _ _ = _ at hz ⊢
        rw [hrow] at hz
        exact hz
    | none =>
      refine ⟨rfl, ?_⟩
      cases hb : g.slots t.nextSeq .az2 with
      | none => rfl
      | some y =>
        -- the window is on one medium, and no second one agrees with it
        obtain ⟨frames, hne, hy, hz⟩ := exists_frames y ((g.slots t.nextSeq .standard).getD y)
          shard t
        have hok := hlands frames hne
        obtain ⟨g', r, heval, -, -, htaken⟩ := eval_putSegment h t.nextSeq
          (firstWindow shard t frames)
        obtain ⟨rfl, hrow⟩ := htaken y ha hb
        rw [eval_sinkPut_taken t.sealedSeq _ heval] at hok
        · cases hok
        · intro z hzo
          refine howner z ?_
          change fetchOf _ _ _ = _ at hzo ⊢
          rw [hrow, Function.update_self, Function.update_of_ne (by decide),
            Function.update_of_ne (by decide), hb] at hzo
          rw [ha, hb]
          cases hs : g.slots t.nextSeq .standard with
          | none =>
            rw [hs] at hzo
            simp [fetchOf, hy] at hzo
          | some w =>
            rw [hs] at hzo hz
            have hw : w ≠ firstWindow shard t frames := fun heq => hz heq.symm
            simp only [fetchOf, Option.isSome_some, Option.some.injEq, hy, hw, and_false,
              if_false, reduceCtorEq, true_and] at hzo ⊢
            exact hzo
  · rintro ⟨ha, hb⟩ frames -
    exact eval_sinkPut_ok h _ _ ha hb

/-! ## The takeover -/

section Takeover

variable (shard : Nat) (crc32c : List UInt8 → Nat)

/-- Where a takeover starts to probe. -/
def Store.floor (g : Store) : Nat := ShardManifest.floor (g.manifest.map Prod.fst)

/-- The digest of the head, none where its object cannot be read. -/
def linkOf (g : Store) (head : Nat) : Option Nat :=
  let read := if head = 0 then some 0
    else (g.owner .expressDual head).map fun x => tenantsDigest crc32c x.tenants
  match g.manifest with
  | some (m, _) => if head = m.consolidatedUpto then some m.consolidatedDigest else read
  | none => read

theorem eval_digestOfSegment (seq : Nat) (g : Store) :
    (digestOfSegment .expressDual crc32c seq).eval Store.answer g
      = (g, match (if seq = 0 then some 0
          else (g.owner .expressDual seq).map fun x => tenantsDigest crc32c x.tenants) with
        | some d => .ok d
        | none => .error (.brokenLink seq)) := by
  unfold digestOfSegment
  split
  · rfl
  · rw [Prog.eval_bind_ok (eval_fetch seq g)]
    cases g.owner .expressDual seq <;> rfl

theorem eval_headDigest (head : Nat) (g : Store) :
    (headDigest .expressDual crc32c (g.manifest.map Prod.fst) head).eval Store.answer g
      = (g, match linkOf crc32c g head with
        | some d => .ok d
        | none => .error (.brokenLink head)) := by
  unfold headDigest linkOf
  cases hm : g.manifest with
  | none => exact eval_digestOfSegment crc32c head g
  | some mv =>
    obtain ⟨m, v⟩ := mv
    dsimp only [Option.map_some]
    split
    · rfl
    · exact eval_digestOfSegment crc32c head g

/-- A takeover with `n` attempts returns, and the sequencer it starts lands
its first window. -/
def Progress (n : Nat) (g : Store) : Prop :=
  ∃ fuel₀, ∀ fuel, fuel₀ ≤ fuel → ∃ g' t,
    (takeOverLoop .expressDual shard crc32c fuel n).eval Store.answer g = (g', .ok t)
      ∧ Lands shard g' t

/-- The objects of a seq that is cleared: two media agree on a landing,
which the sweep takes away, or both express buckets are empty. -/
def Clearable (row : Medium → Option Segment) : Prop :=
  (∃ x, fetchOf (row .az1) (row .az2) (row .standard) = some x ∧ x.header.kind = .landing)
    ∨ (row .az1 = none ∧ row .az2 = none)

/-- With the seal on the express bucket that is empty the seq is present:
the seal is the second half of one that crashed. -/
def Completes (x : Segment) (row : Medium → Option Segment) : Prop :=
  ¬ Sealable row ∧ presentOf (fun m => if m = .standard then row .standard
    else some ((row m).getD x)) = true

/-- The media state from which a takeover gets through with `n` attempts. -/
def Clears : Nat → Store → Prop
  | 0, _ => False
  | n + 1, g => ∃ h d, HeadFrom g g.floor h ∧ linkOf crc32c g h = some d
      ∧ ((Sealable (g.slots (h + 1)) ∧ Clearable (g.slots (h + 2)))
        ∨ (Completes (sealAt shard (h + 1) d) (g.slots (h + 1))
          ∧ Clears n (g.sealExpress (h + 1) (sealAt shard (h + 1) d))))

variable {shard crc32c}

theorem sweptRow_clearable {row : Medium → Option Segment} :
    (sweptRow row .az1 = none ∧ sweptRow row .az2 = none) ↔ Clearable row := by
  unfold sweptRow Clearable
  cases howner : fetchOf (row .az1) (row .az2) (row .standard) with
  | none => simp
  | some x =>
    dsimp only
    by_cases hk : x.header.kind = .landing
    · rw [if_pos hk]
      exact ⟨fun _ => .inl ⟨x, rfl, hk⟩, fun _ => ⟨rfl, rfl⟩⟩
    · rw [if_neg hk]
      refine ⟨.inr, fun h => h.resolve_left ?_⟩
      rintro ⟨y, hy, hyk⟩
      cases hy
      exact hk hyk

theorem sweptRow_owner {row : Medium → Option Segment} {y : Segment}
    (h : fetchOf (sweptRow row .az1) (sweptRow row .az2) (sweptRow row .standard) = some y) :
    y.header.kind ≠ .landing := by
  unfold sweptRow at h
  cases howner : fetchOf (row .az1) (row .az2) (row .standard) with
  | none =>
    rw [howner] at h
    rw [howner] at h
    cases h
  | some x =>
    rw [howner] at h
    dsimp only at h
    by_cases hk : x.header.kind = .landing
    · rw [if_pos hk] at h
      cases h
    · rw [if_neg hk, howner] at h
      cases h
      exact hk

section Attempt

variable {n h d : Nat} (hhead : HeadFrom g g.floor h)

include hhead

theorem eval_attempt_start (shard n : Nat) (hd : linkOf crc32c g h = some d) :
    ∃ fuel₀, ∀ fuel, fuel₀ ≤ fuel → ∃ g', SameBut (h + 1) g g'
      ∧ (¬ Sealable (g.slots (h + 1)) → g' = g.sealExpress (h + 1) (sealAt shard (h + 1) d))
      ∧ (takeOverLoop .expressDual shard crc32c fuel (n + 1)).eval Store.answer g
        = if Sealable (g.slots (h + 1)) then
            (claimShard .expressDual crc32c fuel g.manifest (h + 1) (sealAt shard (h + 1) d)
              (takeOverLoop .expressDual shard crc32c fuel n)).eval Store.answer g'
          else (takeOverLoop .expressDual shard crc32c fuel n).eval Store.answer g' := by
  obtain ⟨fuel₀, heval⟩ : HeadFrom g (ShardManifest.floor (g.manifest.map Prod.fst)) h := hhead
  refine ⟨fuel₀, fun fuel hfuel => ?_⟩
  obtain ⟨g', hsame, hocc, hseal⟩ := eval_sealSegment (h + 1) (sealAt shard (h + 1) d) g
  refine ⟨g', hsame, hocc, ?_⟩
  have hlink := eval_headDigest crc32c h g
  rw [hd] at hlink
  rw [takeOverLoop, Prog.eval_bind_ok (eval_loadManifest g)]
  rw [Prog.eval_bind_ok (heval fuel hfuel), Prog.eval_bind_ok hlink, Prog.eval_bind_ok hseal]
  by_cases hs : Sealable (g.slots (h + 1))
  · rw [if_pos hs, if_pos hs]
  · rw [if_neg hs, if_neg hs]

theorem not_progress_of_unlinked (hd : linkOf crc32c g h = none) :
    ¬ Progress shard crc32c (n + 1) g := by
  rintro ⟨fuel₀, hprog⟩
  obtain ⟨fuel₁, heval⟩ : HeadFrom g (ShardManifest.floor (g.manifest.map Prod.fst)) h := hhead
  obtain ⟨g', t, hok, -⟩ := hprog (max fuel₀ fuel₁) (by omega)
  have hlink := eval_headDigest crc32c h g
  rw [hd] at hlink
  rw [takeOverLoop, Prog.eval_bind_ok (eval_loadManifest g)] at hok
  rw [Prog.eval_bind_ok (heval _ (by omega)), Prog.eval_bind_error hlink] at hok
  cases hok

theorem progress_occupied (hd : linkOf crc32c g h = some d)
    (hs : ¬ Sealable (g.slots (h + 1))) : Progress shard crc32c (n + 1) g ↔
      Progress shard crc32c n (g.sealExpress (h + 1) (sealAt shard (h + 1) d)) := by
  obtain ⟨fuel₁, hstart⟩ := eval_attempt_start hhead shard n hd
  have heval : ∀ fuel, fuel₁ ≤ fuel →
      (takeOverLoop .expressDual shard crc32c fuel (n + 1)).eval Store.answer g
        = (takeOverLoop .expressDual shard crc32c fuel n).eval Store.answer
          (g.sealExpress (h + 1) (sealAt shard (h + 1) d)) := by
    intro fuel hfuel
    obtain ⟨g', -, hocc, heval⟩ := hstart fuel hfuel
    rw [if_neg hs, hocc hs] at heval
    exact heval
  constructor
  · rintro ⟨fuel₀, hprog⟩
    refine ⟨max fuel₀ fuel₁, fun fuel hfuel => ?_⟩
    rw [← heval fuel (by omega)]
    exact hprog fuel (by omega)
  · rintro ⟨fuel₀, hprog⟩
    refine ⟨max fuel₀ fuel₁, fun fuel hfuel => ?_⟩
    rw [heval fuel (by omega)]
    exact hprog fuel (by omega)

theorem progress_sealed {m : Nat} (hquiet : Quiet g) (hfin : g.EmptyFrom m)
    (hd : linkOf crc32c g h = some d) (hs : Sealable (g.slots (h + 1))) :
    Progress shard crc32c (n + 1) g ↔ Clearable (g.slots (h + 2)) := by
  obtain ⟨fuel₁, hstart⟩ := eval_attempt_start hhead shard n hd
  -- every evaluation with enough fuel ends with the swept row
  have hend : ∀ fuel, max fuel₁ (m + h + 6) ≤ fuel → ∃ g' t,
      (takeOverLoop .expressDual shard crc32c fuel (n + 1)).eval Store.answer g = (g', .ok t)
        ∧ t.nextSeq = h + 2 ∧ Quiet g' ∧ g'.slots (h + 2) = sweptRow (g.slots (h + 2)) := by
    intro fuel hfuel
    obtain ⟨g₁, hsame, -, heval⟩ := hstart fuel (by omega)
    rw [if_pos hs] at heval
    let next := ShardManifest.taken (g.manifest.map Prod.fst) (h + 1)
    let g₂ : Store := { g₁ with
      manifest := some (next, (g.manifest.map Prod.snd).elim 0 (· + 1)) }
    have hcas : (liftM (putIfMatch next (g.manifest.map Prod.snd)) : Chain _).eval Store.answer g₁
        = (g₂, .ok (.ok ())) := by
      change ((g₁.putIfMatch next (g.manifest.map Prod.snd) .answered).1, Except.ok
        (g₁.putIfMatch next (g.manifest.map Prod.snd) .answered).2) = _
      unfold Store.putIfMatch
      rw [hsame.manifest, if_pos rfl]
    have hfin₂ : g₂.EmptyFrom (m + h + 2) := by
      intro seq med hseq
      change g₁.slots seq med = none
      rw [hsame.slots seq (by omega)]
      exact hfin seq med (by omega)
    obtain ⟨g₃, hsweep, hswept, hrow⟩ := eval_sweepLoop (m + h + 2) (h + 1) 0 g₂ hfin₂
      (by unfold probeWidth; omega) fuel (by omega)
    unfold claimShard sweepStragglers at heval
    rw [Prog.eval_bind_ok hcas] at heval
    rw [Prog.eval_bind_ok hsweep] at heval
    refine ⟨g₃, _, heval, rfl, ⟨?_, fun c => ?_⟩, ?_⟩
    · exact hswept.launched.trans (hsame.launched.trans hquiet.launched)
    · rw [hswept.channels]
      change g₁.channels c = []
      rw [hsame.channels]
      exact hquiet.channels c
    · rw [hrow (by decide)]
      change sweptRow (g₁.slots (h + 2)) = _
      rw [hsame.slots (h + 2) (by omega)]
  have hlands : ∀ g' (t : Takeover), t.nextSeq = h + 2 → Quiet g' →
      g'.slots (h + 2) = sweptRow (g.slots (h + 2)) →
      (Lands shard g' t ↔ Clearable (g.slots (h + 2))) := by
    intro g' t ht hq hrow
    rw [lands_iff hq, ht, hrow, sweptRow_clearable]
    intro y hy
    rw [ht] at hy
    change fetchOf _ _ _ = _ at hy
    rw [hrow] at hy
    exact sweptRow_owner hy
  constructor
  · rintro ⟨fuel₀, hprog⟩
    obtain ⟨g', t, heval, ht, hq, hrow⟩ := hend (max fuel₀ (max fuel₁ (m + h + 6))) (by omega)
    obtain ⟨g'', t', heval', hl⟩ := hprog (max fuel₀ (max fuel₁ (m + h + 6))) (by omega)
    obtain ⟨rfl, hok⟩ := Prod.mk.inj (heval.symm.trans heval')
    cases hok
    exact (hlands g' t ht hq hrow).mp hl
  · intro hclear
    refine ⟨max fuel₁ (m + h + 6), fun fuel hfuel => ?_⟩
    obtain ⟨g', t, heval, ht, hq, hrow⟩ := hend fuel hfuel
    exact ⟨g', t, heval, (hlands g' t ht hq hrow).mpr hclear⟩

end Attempt

theorem sealExpress_full {seq : Nat} {a b : Segment} (x : Segment) (ha : g.slots seq .az1 = some a)
    (hb : g.slots seq .az2 = some b) : g.sealExpress seq x = g := by
  have hput : ∀ m y, g.slots seq m = some y → (g.putIfAbsent m seq x .answered).1 = g := by
    intro m y hy
    unfold Store.putIfAbsent
    rw [hy]
  unfold Store.sealExpress
  rw [hput .az1 a ha, hput .az2 b hb]

/-- Both express buckets are taken and the seq is not present: every attempt
ends there. -/
theorem not_progress_of_taken {h d : Nat} {a b : Segment} (hhead : HeadFrom g g.floor h)
    (hd : linkOf crc32c g h = some d) (ha : g.slots (h + 1) .az1 = some a)
    (hb : g.slots (h + 1) .az2 = some b) : ∀ n, ¬ Progress shard crc32c n g := by
  have hs : ¬ Sealable (g.slots (h + 1)) := by
    unfold Sealable
    rw [ha, hb]
    simp
  intro n
  induction n with
  | zero =>
    rintro ⟨fuel₀, hprog⟩
    obtain ⟨g', t, heval, -⟩ := hprog fuel₀ le_rfl
    cases heval
  | succ n ih =>
    rw [progress_occupied hhead hd hs, sealExpress_full _ ha hb]
    exact ih

/-- A seal that does not make the seq present has no second chance. -/
theorem not_progress_of_stuck {h d n : Nat} (hhead : HeadFrom g g.floor h)
    (habsent : presentOf (g.slots (h + 1)) = false) (hd : linkOf crc32c g h = some d)
    (hs : ¬ Sealable (g.slots (h + 1)))
    (hnot : ¬ Completes (sealAt shard (h + 1) d) (g.slots (h + 1))) :
    ¬ Progress shard crc32c n (g.sealExpress (h + 1) (sealAt shard (h + 1) d)) := by
  have hsame : SameBut (h + 1) g (g.sealExpress (h + 1) (sealAt shard (h + 1) d)) :=
    SameBut.sealExpress ..
  have hrow := sealExpress_row g (h + 1) (sealAt shard (h + 1) d)
  -- the seq after the head is still not present, so the head is the same
  have hpresent : ∀ seq, presentOf ((g.sealExpress (h + 1) (sealAt shard (h + 1) d)).slots seq)
      = presentOf (g.slots seq) := by
    intro seq
    by_cases hseq : seq = h + 1
    · rw [hseq, habsent, show (g.sealExpress (h + 1) (sealAt shard (h + 1) d)).slots (h + 1)
        = fun m => if m = .standard then g.slots (h + 1) .standard
          else some ((g.slots (h + 1) m).getD (sealAt shard (h + 1) d)) from funext hrow]
      exact Bool.eq_false_iff.mpr fun hp => hnot ⟨hs, hp⟩
    · rw [hsame.slots seq hseq]
  have hfloor : (g.sealExpress (h + 1) (sealAt shard (h + 1) d)).floor = g.floor :=
    congrArg (fun m : Option (ShardManifest × Nat) => ShardManifest.floor (m.map Prod.fst))
      hsame.manifest
  have hhead' : HeadFrom (g.sealExpress (h + 1) (sealAt shard (h + 1) d))
      (g.sealExpress (h + 1) (sealAt shard (h + 1) d)).floor h := by
    rw [hfloor]
    exact hhead.congr hpresent
  have hd' : linkOf crc32c (g.sealExpress (h + 1) (sealAt shard (h + 1) d)) h = some d := by
    unfold linkOf Store.owner at hd ⊢
    rw [hsame.manifest, hsame.slots h (by omega)]
    exact hd
  exact not_progress_of_taken hhead' hd' ((hrow .az1).trans (if_neg (by decide)))
    ((hrow .az2).trans (if_neg (by decide))) n

theorem progress_iff_clears : ∀ {n m : Nat} {g : Store}, Quiet g → g.EmptyFrom m →
    (Progress shard crc32c n g ↔ Clears shard crc32c n g) := by
  intro n
  induction n with
  | zero =>
    intro m g _ _
    refine ⟨?_, fun h => h.elim⟩
    rintro ⟨fuel₀, hprog⟩
    obtain ⟨g', t, heval, -⟩ := hprog fuel₀ le_rfl
    cases heval
  | succ n ih =>
    intro m g hquiet hfin
    obtain ⟨h, hhead, habsent⟩ := exists_head hfin g.floor
    cases hd : linkOf crc32c g h with
    | none =>
      refine ⟨fun hp => absurd hp (not_progress_of_unlinked hhead hd), ?_⟩
      rintro ⟨h', d, hhead', hd', -⟩
      obtain rfl := hhead.unique hhead'
      rw [hd] at hd'
      cases hd'
    | some d =>
      have hclears : Clears shard crc32c (n + 1) g ↔
          ((Sealable (g.slots (h + 1)) ∧ Clearable (g.slots (h + 2)))
            ∨ (Completes (sealAt shard (h + 1) d) (g.slots (h + 1))
              ∧ Clears shard crc32c n (g.sealExpress (h + 1) (sealAt shard (h + 1) d)))) := by
        refine ⟨?_, fun hc => ⟨h, d, hhead, hd, hc⟩⟩
        rintro ⟨h', d', hhead', hd', hc⟩
        obtain rfl := hhead.unique hhead'
        rw [hd] at hd'
        cases hd'
        exact hc
      rw [hclears]
      by_cases hs : Sealable (g.slots (h + 1))
      · rw [progress_sealed hhead hquiet hfin hd hs]
        refine ⟨fun hc => .inl ⟨hs, hc⟩, ?_⟩
        rintro (⟨-, hc⟩ | ⟨hc, -⟩)
        · exact hc
        · exact absurd hs hc.1
      · have hsame := SameBut.sealExpress g (h + 1) (sealAt shard (h + 1) d)
        have hquiet' : Quiet (g.sealExpress (h + 1) (sealAt shard (h + 1) d)) :=
          ⟨hsame.launched.trans hquiet.launched,
            fun c => (congrFun hsame.channels c).trans (hquiet.channels c)⟩
        have hfin' : (g.sealExpress (h + 1) (sealAt shard (h + 1) d)).EmptyFrom (m + h + 2) := by
          intro seq med hseq
          rw [hsame.slots seq (by omega)]
          exact hfin seq med (by omega)
        rw [progress_occupied hhead hd hs, ← ih hquiet' hfin']
        refine ⟨fun hp => .inr ⟨?_, hp⟩, fun hc => ?_⟩
        · by_contra hnot
          exact not_progress_of_stuck hhead habsent hd hs hnot hp
        · rcases hc with ⟨hc, -⟩ | ⟨-, hc⟩
          · exact absurd hc hs
          · exact hc

end Takeover

/-! ## What a run leaves behind -/

namespace ShardRuns

theorem emptyFrom_of_rows {n seq : Nat} (h : g.EmptyFrom n)
    (hrows : ∀ s, s ≠ seq → g'.slots s = g.slots s) : g'.EmptyFrom (max n (seq + 1)) := by
  intro s m hs
  rw [hrows s (by omega)]
  exact h s m (by omega)

theorem exec_rows {q : Request} {wire : Wire} {r : q.Reply} (h : g.exec q wire = some (g', r)) :
    ∃ seq, ∀ s, s ≠ seq → g'.slots s = g.slots s := by
  cases q with
  | putIfAbsent m seq x =>
    have hst : (g.putIfAbsent m seq x wire).1 = g' := congrArg Prod.fst (Option.some.inj h)
    refine ⟨seq, fun s hs => ?_⟩
    rw [← hst]
    rcases View.putIfAbsent_cases g m seq x wire with heq | ⟨-, heq⟩ <;> rw [heq]
    exact View.setSlot_row hs m _
  | delete m seq =>
    refine ⟨seq, fun s hs => ?_⟩
    cases wire <;> cases h
    · exact View.setSlot_row hs m none
    · exact View.setSlot_row hs m none
    · rfl
  | putIfMatch next version =>
    have hst : (g.putIfMatch next version wire).1 = g' := congrArg Prod.fst (Option.some.inj h)
    refine ⟨0, fun s _ => ?_⟩
    rw [← hst]
    unfold Store.putIfMatch
    cases wire with
    | dropped => rfl
    | answered =>
      dsimp only
      split <;> rfl
    | lost =>
      dsimp only
      split <;> rfl
  | receive c timed =>
    refine ⟨0, fun s _ => ?_⟩
    unfold Store.exec at h
    cases wire <;> dsimp only at h <;> split at h <;> cases h <;> rfl
  | get m seq => exact ⟨0, fun s _ => by cases wire <;> cases h <;> rfl⟩
  | load => exact ⟨0, fun s _ => by cases wire <;> cases h <;> rfl⟩
  | channel => exact ⟨0, fun s _ => by cases h; rfl⟩
  | launch c m seq x => exact ⟨0, fun s _ => by cases h; rfl⟩

theorem advance_rows {E α : Type} {p p' : Prog Request Request.Reply E α} {wire : Wire}
    (h : p.advance Store.exec g wire = some (p', g')) :
    ∃ seq, ∀ s, s ≠ seq → g'.slots s = g.slots s := by
  obtain ⟨q, k, r, rfl, hx, rfl⟩ := Prog.advance_some h
  exact exec_rows hx

theorem land_rows {n : Nat} {wire : Wire} (h : g.land n wire = some g') :
    ∃ seq, ∀ s, s ≠ seq → g'.slots s = g.slots s := by
  unfold Store.land at h
  split at h
  · cases h
  · rename_i l hl
    cases h
    refine ⟨l.seq, fun s hs => ?_⟩
    rcases View.putIfAbsent_cases g l.medium l.seq l.segment wire with heq | ⟨-, heq⟩ <;> rw [heq]
    exact View.setSlot_row hs l.medium _

theorem next_rows {cfg : WalConfig} {s s' : ShardRuns} {l : RunStep}
    (h : next cfg s l = some s') : ∃ seq, ∀ q, q ≠ seq → s'.store.slots q = s.store.slots q := by
  cases l with
  | advance i wire =>
    unfold next at h
    dsimp only at h
    split at h
    · obtain ⟨⟨p', st⟩, hadv, rfl⟩ := Option.map_eq_some_iff.mp h
      exact advance_rows hadv
    · cases h
  | work i w wire =>
    unfold next at h
    dsimp only at h
    split at h
    · split at h
      · obtain ⟨⟨p', st⟩, hadv, rfl⟩ := Option.map_eq_some_iff.mp h
        exact advance_rows hadv
      · cases h
    · cases h
  | read r wire =>
    obtain ⟨⟨p', st⟩, hadv, rfl⟩ := Option.map_eq_some_iff.mp h
    exact advance_rows hadv
  | land n wire =>
    obtain ⟨st, hland, rfl⟩ := Option.map_eq_some_iff.mp h
    exact land_rows hland
  | sequencer i l =>
    refine ⟨0, fun q _ => ?_⟩
    unfold next at h
    dsimp only at h
    split at h
    · split at h
      · obtain ⟨sq', -, rfl⟩ := Option.map_eq_some_iff.mp h
        rfl
      · cases h
    · cases h
  | returned i w =>
    refine ⟨0, fun q _ => ?_⟩
    unfold next at h
    dsimp only at h
    split at h
    · split at h
      · obtain ⟨sq', -, rfl⟩ := Option.map_eq_some_iff.mp h
        rfl
      · cases h
    · cases h
  | resume i =>
    refine ⟨0, fun q _ => ?_⟩
    unfold next at h
    dsimp only at h
    split at h <;> cases h
    rfl
  | deliver r =>
    refine ⟨0, fun q _ => ?_⟩
    unfold next at h
    dsimp only at h
    split at h <;> cases h
    rfl
  | _ => exact ⟨0, fun q _ => by cases h; rfl⟩

theorem run_emptyFrom {cfg : WalConfig} {ls : List RunStep} {s : ShardRuns}
    (hr : run (next cfg) empty ls = some s) : ∃ n, s.store.EmptyFrom n := by
  have hstep : ∀ (s : ShardRuns) l s', (∃ n, s.store.EmptyFrom n) → next cfg s l = some s' →
      ∃ n, s'.store.EmptyFrom n := by
    rintro s l s' ⟨n, hn⟩ h
    obtain ⟨seq, hrows⟩ := next_rows h
    exact ⟨_, emptyFrom_of_rows hn hrows⟩
  exact run_invariant hstep ⟨0, fun _ _ _ => rfl⟩ hr

/-- From what any run leaves behind, a takeover that is alone returns and
its sequencer lands its first window exactly where the media let it. -/
theorem takeover_progress {cfg : WalConfig} {ls : List RunStep} {s : ShardRuns}
    (hr : run (next cfg) empty ls = some s) :
    Progress cfg.sequencer.shard cfg.sequencer.crc32c maxAttempts s.store.crashed ↔
      Clears cfg.sequencer.shard cfg.sequencer.crc32c maxAttempts s.store.crashed := by
  obtain ⟨n, hn⟩ := run_emptyFrom hr
  have hquiet : Quiet s.store.crashed := ⟨rfl, fun _ => rfl⟩
  have hfin : s.store.crashed.EmptyFrom n := hn
  exact progress_iff_clears hquiet hfin

/-- Two express buckets and one standard bucket, one window in flight. -/
def threeBuckets : WalConfig :=
  ⟨.expressDual, ⟨0, 1, false, fun bs => (Packing.crc32c bs).toNat⟩⟩

/-- A writer crashes when its first window is on one medium. -/
def halfPut : List RunStep :=
  .start :: .sequencer 0 (.append [⟨7, 1, 0, 10, []⟩] fun _ => none)
    :: List.replicate 4 (.sequencer 0 .flush) ++ .sequencer 0 (.receive 0)
    :: List.replicate 3 (.work 0 0 .answered) ++ [.land 0 .answered]

/-- The first seq and the manifest of a store that was never taken over. -/
theorem untaken {g : Store} (hm : g.manifest = none) (hp : presentOf (g.slots 1) = false)
    (crc32c : List UInt8 → Nat) : HeadFrom g g.floor 0 ∧ linkOf crc32c g 0 = some 0 := by
  have hfloor : g.floor = 0 := by
    unfold Store.floor
    rw [hm]
    rfl
  refine ⟨?_, ?_⟩
  · rw [hfloor]
    exact headFrom_floor hp
  · unfold linkOf
    rw [hm]
    rfl

theorem takeover_progress_halfPut :
    ∃ s, run (next threeBuckets) empty halfPut = some s ∧ (s.store.slots 1 .az1).isSome
      ∧ Progress 0 threeBuckets.sequencer.crc32c maxAttempts s.store.crashed := by
  have hrun : ((run (next threeBuckets) empty halfPut).any fun s =>
      decide (s.store.manifest = none ∧ presentOf (s.store.slots 1) = false
        ∧ (s.store.slots 1 .az1).isSome = true ∧ Sealable (s.store.slots 1)
        ∧ s.store.slots 2 .az1 = none ∧ s.store.slots 2 .az2 = none)) = true := by
    decide +kernel
  obtain ⟨s, hs, hrun⟩ := Option.any_eq_true _ _ |>.mp hrun
  obtain ⟨hm, hp, hsome, hseal, ha, hb⟩ := of_decide_eq_true hrun
  obtain ⟨hhead, hlink⟩ := untaken (g := s.store.crashed) hm hp threeBuckets.sequencer.crc32c
  exact ⟨s, hs, hsome, (takeover_progress hs).mpr
    ⟨0, 0, hhead, hlink, .inl ⟨hseal, .inr ⟨ha, hb⟩⟩⟩⟩

/-- Then a takeover crashes when its seal has won the other express bucket
and not yet tried the standard one. -/
def halfSealed : List RunStep :=
  halfPut ++ .takeOver 1 :: List.replicate 6 (.advance 1 .answered)

theorem halfSealed_wedged :
    ∃ s, run (next threeBuckets) empty halfSealed = some s
      ∧ ¬ Progress 0 threeBuckets.sequencer.crc32c maxAttempts s.store.crashed := by
  have hrun : ((run (next threeBuckets) empty halfSealed).any fun s =>
      decide (s.store.manifest = none ∧ presentOf (s.store.slots 1) = false
        ∧ (s.store.slots 1 .az1).isSome = true ∧ (s.store.slots 1 .az2).isSome = true)) = true := by
    decide +kernel
  obtain ⟨s, hs, hrun⟩ := Option.any_eq_true _ _ |>.mp hrun
  obtain ⟨hm, hp, ha, hb⟩ := of_decide_eq_true hrun
  obtain ⟨a, ha⟩ := Option.isSome_iff_exists.mp ha
  obtain ⟨b, hb⟩ := Option.isSome_iff_exists.mp hb
  obtain ⟨hhead, hlink⟩ := untaken (g := s.store.crashed) hm hp threeBuckets.sequencer.crc32c
  exact ⟨s, hs, not_progress_of_taken hhead hlink ha hb maxAttempts⟩

end ShardRuns

end Zou.Wal
