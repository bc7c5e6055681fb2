import Zou.Lib.Packing
import Zou.WalAlone

/-!
# Stragglers and the head of the chain

A crash of the sequencer leaves windows behind the first hole. How far they
reach is `ceiling`, the number the flusher's next window will have: as long
as nothing failed, every window below `next_ack` landed, the ones from there
on have a slot or are the one in the flusher's hands, and so the ceiling is
at most one above the last ack and the slots. A failure poisons the
sequencer before its slot is free again, and a poisoned flusher takes no
batch, so the ceiling stays where it was (`Reach`).

The search for the head leans on that bound: wherever the gallop and the
bisection end, the first hole is in the window the backscan reads.
-/

namespace Zou

namespace Sequencer

variable {ε : Type} {cfg : SequencerConfig} {first : Nat} {s s' : Sequencer ε}

/-! ## A poisoned sequencer -/

/-- What went wrong is known to the appends. -/
structure Quiet (s : Sequencer ε) : Prop where
  failed : s.failed = true → s.poisoned = true
  unsent : s.unsent ≠ [] → s.poisoned = true

theorem Quiet.ack {tee : Bool} {seq : Nat} {d : Dispatch} {outcome : Except ε Unit} (h : Quiet s) :
    Quiet (s.ack tee seq d outcome) := by
  unfold Sequencer.ack
  split
  · exact ⟨h.failed, h.unsent⟩
  · cases outcome with
    | ok u => exact ⟨h.failed, h.unsent⟩
    | error e => exact ⟨fun _ => rfl, fun _ => rfl⟩

theorem Quiet.settle {tee : Bool} : ∀ {es : List (Nat × Dispatch × Except ε Unit)}
    {s : Sequencer ε} (hes : es.Pairwise fun a b => a.1 < b.1), Quiet s →
      Quiet (settle tee s es hes) := by
  intro es
  induction es with
  | nil => exact fun hes h => ⟨h.failed, h.unsent⟩
  | cons e es ih =>
    intro s hes h
    obtain ⟨seq, d, outcome⟩ := e
    unfold Sequencer.settle
    split
    · exact ih _ h.ack
    · exact ⟨h.failed, h.unsent⟩

/-- The number the next window of the flusher has once it is built. -/
def ceiling (s : Sequencer ε) : Nat :=
  match s.flusher with
  | .building _ _ _ => s.nextSeq + 1
  | _ => s.nextSeq

/-- A step keeps what is known to the appends and what was put, and it
raises the ceiling only where it leaves the sequencer sound. -/
structure Kept (s s' : Sequencer ε) : Prop where
  quiet : Quiet s'
  puts : s.puts ⊆ s'.puts
  ceiling : s'.poisoned = true → s'.ceiling ≤ s.ceiling

theorem Kept.append {frames : List LogFrame} {gate : Nat → Option Throttle} (h : Quiet s) :
    Kept s (s.append frames gate).1 := by
  have hsame : Kept s s := ⟨h, List.Subset.refl _, fun _ => le_rfl⟩
  unfold Sequencer.append
  split
  · exact hsame
  · split
    · exact hsame
    · split
      · exact hsame
      · split
        · exact hsame
        · exact ⟨⟨h.failed, h.unsent⟩, List.Subset.refl _, fun _ => le_rfl⟩

theorem Kept.flush (h : Quiet s) (hinv : Inv cfg first s) (hstep : s.flush cfg = some s') :
    Kept s s' := by
  have hputs : s.puts ⊆ s.puts := List.Subset.refl _
  unfold Sequencer.flush at hstep
  cases hfl : s.flusher with
  | idle =>
    rw [hfl] at hstep
    dsimp only at hstep
    split at hstep
    · split at hstep
      · obtain rfl := Option.some.inj hstep
        refine ⟨⟨h.failed, h.unsent⟩, hputs, fun _ => ?_⟩
        unfold Sequencer.ceiling
        rw [hfl]
      · cases hstep
    · split at hstep
      · cases hstep
        exact ⟨⟨h.failed, h.unsent⟩, hputs, fun _ => le_rfl⟩
      · -- The one step that raises the ceiling needs a sound sequencer.
        rename_i hsound
        cases hstep
        exact ⟨⟨h.failed, h.unsent⟩, hputs, fun hp => absurd hp hsound⟩
  | building seq prevDigest b =>
    have hseq := hinv.building seq prevDigest b hfl
    rw [hfl] at hstep
    cases hstep
    refine ⟨⟨h.failed, h.unsent⟩, hputs, fun _ => ?_⟩
    unfold Sequencer.ceiling
    rw [hfl]
    exact Nat.le_of_eq (congrArg (· + 1) hseq)
  | closed d =>
    rw [hfl] at hstep
    dsimp only at hstep
    split at hstep
    · cases hstep
    · obtain rfl := Option.some.inj hstep
      refine ⟨⟨h.failed, h.unsent⟩, hputs, fun _ => ?_⟩
      unfold Sequencer.ceiling
      rw [hfl]
  | admitted d =>
    rw [hfl] at hstep
    dsimp only at hstep
    split at hstep
    · obtain rfl := Option.some.inj hstep
      refine ⟨⟨fun _ => rfl, fun _ => rfl⟩, hputs, fun _ => ?_⟩
      unfold Sequencer.ceiling
      rw [hfl]
      exact le_rfl
    · split at hstep
      · cases hstep
        refine ⟨⟨h.failed, h.unsent⟩, hputs, fun _ => ?_⟩
        unfold Sequencer.ceiling
        rw [hfl]
      · cases hstep
  | draining =>
    rw [hfl] at hstep
    dsimp only at hstep
    split at hstep
    · obtain rfl := Option.some.inj hstep
      refine ⟨⟨h.failed, h.unsent⟩, hputs, fun _ => ?_⟩
      unfold Sequencer.ceiling
      rw [hfl]
    · cases hstep
  | stopped =>
    rw [hfl] at hstep
    cases hstep

theorem kept_next {l : SequencerStep ε} (h : Quiet s) (hinv : Inv cfg first s)
    (hstep : s.next cfg l = some s') : Kept s s' := by
  unfold next at hstep
  split at hstep
  case h_1 frames gate =>
    split at hstep
    · cases hstep
    · cases hstep
      exact Kept.append h
  case h_2 =>
    cases hstep
    exact ⟨⟨h.failed, h.unsent⟩, List.Subset.refl _, fun _ => le_rfl⟩
  case h_3 => exact Kept.flush h hinv hstep
  case h_4 w =>
    split at hstep
    · cases hstep
      exact ⟨⟨h.failed, h.unsent⟩, List.Subset.refl _, fun _ => le_rfl⟩
    · split at hstep
      · cases hstep
        exact ⟨⟨h.failed, h.unsent⟩, List.Subset.refl _, fun _ => le_rfl⟩
      · cases hstep
    · cases hstep
  case h_5 w outcome =>
    split at hstep
    · cases hstep
      exact ⟨⟨h.failed, h.unsent⟩, List.subset_append_left _ _, fun _ => le_rfl⟩
    · cases hstep
  case h_6 w =>
    split at hstep
    · cases hstep
      refine ⟨Quiet.settle _ ⟨h.failed, h.unsent⟩, ?_, fun _ => ?_⟩
      all_goals
        unfold land
        obtain ⟨_, _, _, _, _, _, _, heq, -⟩ := settle_frame cfg.tee
          (s := { s with workers := s.workers.set w .idle }) (OrdMap.sorted _)
        rw [heq]
      · exact List.Subset.refl _
      · exact le_rfl
    · cases hstep
  case h_7 w =>
    split at hstep
    · cases hstep
      exact ⟨⟨h.failed, h.unsent⟩, List.Subset.refl _, fun _ => le_rfl⟩
    · cases hstep

/-! ## How far the windows reach -/

/-- The windows below `n` landed, and those above are within the slots and
the one in the flusher's hands. -/
def Reach (cfg : SequencerConfig) (first : Nat) (s : Sequencer ε) : Prop :=
  ∃ n, (∀ q, first ≤ q → q < n → (q, true) ∈ s.puts) ∧ s.ceiling ≤ n + cfg.inflight + 1

/-- Where nothing failed, the windows below the next ack landed. -/
theorem Inv.reach (h : Inv cfg first s) (hquiet : Quiet s) (hp : s.poisoned = false) :
    Reach cfg first s := by
  have hfailed : s.failed = false := by
    by_contra hf
    rw [hquiet.failed (by simpa using hf)] at hp
    cases hp
  have hunsent : s.unsent = [] := by
    by_contra hu
    rw [hquiet.unsent hu] at hp
    cases hp
  obtain ⟨n, hacks⟩ := h.acks
  refine ⟨s.nextAck, fun q hlo hhi => hacks.landed q hlo ?_, ?_⟩
  · rw [hacks.full hfailed]
    exact hhi
  · have hlen := h.chain.seqs.length_eq
    rw [hunsent, List.append_nil, List.length_map, List.length_range'] at hlen
    have hslots := h.slots
    have hlimit := h.limit
    have hhigh := h.chain.high
    unfold held at hlen
    unfold inFlight at hslots
    rw [List.length_append] at hlen hslots
    unfold ceiling
    cases hfl : s.flusher with
    | idle | building _ _ _ | closed _ | admitted _ | draining | stopped =>
      rw [hfl] at hlen hslots
      simp only [FlusherPoint.held, FlusherPoint.admitted, List.length_nil,
        List.length_singleton] at hlen hslots
      dsimp only
      omega

theorem reach_next (s : Sequencer ε) (l : SequencerStep ε) (s' : Sequencer ε)
    (h : Inv cfg first s ∧ Quiet s ∧ Reach cfg first s) (hstep : s.next cfg l = some s') :
    Inv cfg first s' ∧ Quiet s' ∧ Reach cfg first s' := by
  obtain ⟨hinv, hquiet, n, hlanded, hle⟩ := h
  have hinv' := inv_next s l s' hinv hstep
  have hkept := kept_next hquiet hinv hstep
  refine ⟨hinv', hkept.quiet, ?_⟩
  cases hp : s'.poisoned with
  | false => exact hinv'.reach hkept.quiet hp
  | true =>
    refine ⟨n, fun q hlo hhi => hkept.puts (hlanded q hlo hhi), ?_⟩
    exact Nat.le_trans (hkept.ceiling hp) hle

/-- The seqs from `first` on that the media have when the sequencer dies:
all that were put well, and of the other windows any. -/
structure Landed (first : Nat) (s : Sequencer ε) (landed : Nat → Prop) : Prop where
  put : ∀ q, (q, true) ∈ s.puts → landed q
  window : ∀ q, first ≤ q → landed q → ∃ d ∈ s.windows, d.seq = q

theorem straggler_le {prevDigest : Nat} {ls : List (SequencerStep ε)} {landed : Nat → Prop}
    (hcfg : cfg.inflight ≤ maxInflight)
    (hrun : Trace.run (next cfg) (resume cfg first prevDigest) ls = some s)
    (hlanded : Landed first s landed) {hole q : Nat} (hhole : first ≤ hole) (habsent : ¬ landed hole)
    (hq : landed q) : q ≤ hole + maxInflight := by
  have hstart : Inv cfg first (resume cfg first prevDigest : Sequencer ε) :=
    inv_resume cfg first prevDigest
  have hquiet : Quiet (resume cfg first prevDigest : Sequencer ε) :=
    ⟨nofun, fun hu => absurd rfl hu⟩
  obtain ⟨hinv, -, n, hputs, hle⟩ := Trace.run_invariant reach_next
    ⟨hstart, hquiet, hstart.reach hquiet rfl⟩ hrun
  by_cases hfirst : first ≤ q
  · obtain ⟨d, hd, rfl⟩ := hlanded.window q hfirst hq
    obtain ⟨i, hi⟩ := List.mem_iff_getElem?.mp hd
    have hlt : i < s.windows.length := (List.getElem?_eq_some_iff.mp hi).1
    have hlen := hinv.chain.length
    have hceil : s.nextSeq ≤ s.ceiling := by
      unfold ceiling
      split <;> omega
    have hn : n ≤ hole := by
      by_contra hlt
      exact habsent (hlanded.put hole (hputs hole hhole (by omega)))
    rw [hinv.chain.seq_eq hi]
    omega
  · omega

end Sequencer

/-! ## The search -/

namespace Wal

open Client

/-- The presence rule of a mode, on the objects of a seq. -/
def presentIn (mode : DurabilityMode) (row : Medium → Option Segment) : Bool :=
  match mode with
  | .standard => (row .standard).isSome
  | .expressDual => presentOf row

theorem probes_presentIn (mode : DurabilityMode) (g : Store) :
    Probes mode g fun seq => presentIn mode (g.slots seq) := by
  intro seq
  cases mode with
  | standard => rfl
  | expressDual => exact eval_present seq g

theorem findIdx?_hole {p : Nat → Bool} {base hole lo : Nat} (hbase : base ≤ hole) (hlo : hole ≤ lo)
    (hp : ∀ seq, base ≤ seq → seq < hole → p seq = true) (hhole : p hole = false) :
    ((List.range' base (lo - base + 1)).map p).findIdx? (!·) = some (hole - base) := by
  rw [List.findIdx?_eq_some_iff_getElem]
  refine ⟨?_, ?_, fun j hj => ?_⟩
  · rw [List.length_map, List.length_range']
    omega
  · rw [List.getElem_map, List.getElem_range', Nat.one_mul, Nat.add_sub_cancel' hbase, hhole]
    rfl
  · rw [List.getElem_map, List.getElem_range', hp _ (by omega) (by omega)]
    decide

theorem Probes.head {mode : DurabilityMode} {g : Store} {p : Nat → Bool} (h : Probes mode g p)
    {floor hole : Nat} (hfloor : floor < hole) (hp : ∀ seq, floor < seq → seq < hole → p seq = true)
    (hhole : p hole = false) (hbound : ∀ seq, p seq = true → seq ≤ hole + maxInflight) :
    ∃ fuel₀, ∀ fuel, fuel₀ ≤ fuel →
      (Wal.chainHead mode fuel floor).eval Store.answer g = (g, .ok (hole - 1)) := by
  cases hfirst : p (floor + 1) with
  | false =>
    have hnext : hole = floor + 1 := by
      by_contra hne
      rw [hp (floor + 1) (by omega) (by omega)] at hfirst
      cases hfirst
    refine ⟨0, fun fuel _ => ?_⟩
    unfold Wal.chainHead
    rw [Prog.eval_bind_ok (h _), hfirst, hnext]
    rfl
  | true =>
    have hfin : ∀ seq, hole + maxInflight + 1 ≤ seq → p seq = false := by
      intro seq hseq
      by_contra hpresent
      have hle := hbound seq (by simpa using hpresent)
      omega
    obtain ⟨lo, base, hbase, hlo, hplo, hnext, heval⟩ := h.chainHead hfin hfirst
    refine ⟨_, fun fuel hfuel => (heval fuel hfuel).trans ?_⟩
    have hne : floor + 1 ≠ hole := fun heq => by
      rw [heq, hhole] at hfirst
      cases hfirst
    by_cases hlt : lo < hole
    · -- The search ended right before the hole, and its window has none.
      have hlast : lo + 1 = hole := by
        by_contra hne
        rw [hp (lo + 1) (by omega) (by omega)] at hnext
        cases hnext
      have hnone : ((List.range' base (lo - base + 1)).map p).findIdx? (!·) = none := by
        rw [List.findIdx?_eq_none_iff]
        intro b hb
        obtain ⟨seq, hseq, rfl⟩ := List.mem_map.mp hb
        rw [List.mem_range'_1] at hseq
        rw [hp seq (by omega) (by omega)]
        rfl
      rw [hnone, ← hlast]
      rfl
    · -- The search ended on a straggler, and the hole is in its window.
      have hle := hbound lo hplo
      have hmem : base ≤ hole := by omega
      have hpos : 0 < base := by omega
      rw [findIdx?_hole hmem (by omega) (fun seq hlo hhi => hp seq (by omega) hhi) hhole,
        Option.elim_some, Nat.add_sub_cancel' hmem]

end Wal

/-! ## Both sides of the bound -/

/-- At any point of a run the stragglers of a crash are within
`MAX_INFLIGHT` of the first hole; and on any media whose stragglers are,
`chain_head` ends, right before the first hole. -/
theorem chain_head_probing :
    (∀ (ε : Type) (cfg : SequencerConfig) (first prevDigest : Nat) (ls : List (SequencerStep ε))
        (s : Sequencer ε), 1 ≤ cfg.inflight ∧ cfg.inflight ≤ maxInflight →
        Trace.run (Sequencer.next cfg) (Sequencer.resume cfg first prevDigest) ls = some s →
        ∀ landed : Nat → Prop, Sequencer.Landed first s landed →
          ∀ hole, first ≤ hole → ¬ landed hole → ∀ q, landed q → q ≤ hole + maxInflight)
      ∧ ∀ (mode : Wal.DurabilityMode) (g : Wal.Store) (floor hole : Nat), floor < hole →
        (∀ seq, floor < seq → seq < hole → Wal.presentIn mode (g.slots seq) = true) →
        Wal.presentIn mode (g.slots hole) = false →
        (∀ seq, Wal.presentIn mode (g.slots seq) = true → seq ≤ hole + maxInflight) →
        ∃ fuel₀, ∀ fuel, fuel₀ ≤ fuel →
          (Wal.chainHead mode fuel floor).eval Wal.Store.answer g = (g, .ok (hole - 1)) := by
  refine ⟨fun ε cfg first prevDigest ls s hcfg hrun landed hlanded hole hhole habsent q hq => ?_,
    fun mode g floor hole hfloor hp hhole hbound => ?_⟩
  · exact Sequencer.straggler_le hcfg.2 hrun hlanded hhole habsent hq
  · exact (Wal.probes_presentIn mode g).head hfloor hp hhole hbound

def twoSlots : SequencerConfig := ⟨0, 2, false, fun bs => (Packing.crc32c bs).toNat⟩

/-- Two windows are in flight, and the later one lands. -/
def overtaken : List (SequencerStep Unit) :=
  [.append [⟨1, 1, 0, 1, [0]⟩] fun _ => none, .flush, .flush, .flush, .flush,
    .append [⟨1, 1, 1, 2, [0]⟩] fun _ => none, .flush, .flush, .flush, .flush,
    .receive 0, .receive 1, .put 1 (.ok ())]

/-- The media after the crash: window 8 behind the hole at 7. -/
def overtakenMedia : Wal.Store :=
  [6, 8].foldl (fun g seq => g.setSlot seq .standard (some (.build ⟨.landing, 0, seq, 0⟩ []))) .empty

theorem chain_head_probing_overtaken :
    (∃ s, Trace.run (Sequencer.next twoSlots) (Sequencer.resume twoSlots 7 0) overtaken = some s
        ∧ (8, true) ∈ s.puts ∧ 8 ≤ 7 + maxInflight)
      ∧ ∃ fuel₀, ∀ fuel, fuel₀ ≤ fuel →
        (Wal.chainHead .standard fuel 6).eval Wal.Store.answer overtakenMedia
          = (overtakenMedia, .ok 6) := by
  have hslots : ∀ seq, Wal.presentIn .standard (overtakenMedia.slots seq) = true →
      seq = 6 ∨ seq = 8 := by
    intro seq hseq
    by_contra hne
    rw [not_or] at hne
    have hnone : overtakenMedia.slots seq .standard = none := by
      unfold overtakenMedia
      dsimp only [List.foldl, Wal.Store.setSlot, Wal.Store.empty]
      rw [Function.update_of_ne hne.2, Function.update_of_ne hne.1]
    unfold Wal.presentIn at hseq
    rw [hnone] at hseq
    cases hseq
  have hrun : ∃ s, Trace.run (Sequencer.next twoSlots) (Sequencer.resume twoSlots 7 0) overtaken
      = some s ∧ s.puts = [(8, true)] ∧ s.windows.map Dispatch.seq = [7, 8] := ⟨_, rfl, rfl, rfl⟩
  obtain ⟨s, hrun, hputs, hwindows⟩ := hrun
  have hlanded : Sequencer.Landed 7 s fun q => q < 7 ∨ q = 8 := by
    refine ⟨fun q hq => ?_, fun q hlo hq => ?_⟩
    · rw [hputs, List.mem_singleton] at hq
      exact .inr (Prod.mk.inj hq).1
    · obtain rfl : q = 8 := hq.resolve_left (Nat.not_lt.mpr hlo)
      have hmem : 8 ∈ s.windows.map Dispatch.seq := by
        rw [hwindows]
        decide
      exact List.mem_map.mp hmem
  refine ⟨⟨s, hrun, hputs ▸ List.mem_singleton.mpr rfl, ?_⟩,
    chain_head_probing.2 .standard overtakenMedia 6 7 (by decide)
      (fun seq hlo hhi => by omega) rfl fun seq hseq => ?_⟩
  · exact chain_head_probing.1 Unit twoSlots 7 0 overtaken s (by decide) hrun _ hlanded 7
      le_rfl (by omega) 8 (.inr rfl)
  · rcases hslots seq hseq with rfl | rfl <;> decide

end Zou
