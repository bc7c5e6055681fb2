import Mathlib.Data.List.Flatten
import Zou.Lib.Packing
import Zou.Backpressure
import Zou.SequencerSafety

/-!
# Writer epochs in the chain

A writer of an epoch below the highest one seen for its tenant is rejected,
as a whole and before anything moves. The check is against the epochs of
earlier appends only: the frames of one append are compared with each other
nowhere, so the chain is in order of epochs as long as every append is in
order by itself. What is carried along a run is that the frames in chain
order, the staged ones behind those of the windows, are `Ascending` and
that each is at or below its tenant's recorded epoch (`Raised`).
-/

namespace Zou

/-- The writer epochs of each tenant never go down. -/
def Ascending (frames : List LogFrame) : Prop :=
  frames.Pairwise fun f g => f.tenant = g.tenant → f.writerEpoch ≤ g.writerEpoch

instance (frames : List LogFrame) : Decidable (Ascending frames) :=
  inferInstanceAs (Decidable (frames.Pairwise _))

namespace Sequencer

/-! ## The recorded epochs -/

/-- `epochs` has the tenant of `f` at its epoch or above. -/
def Known (epochs : OrdMap Nat Nat) (f : LogFrame) : Prop :=
  ∃ e, epochs.get? f.tenant = some e ∧ f.writerEpoch ≤ e

/-- Where no frame is stale, each is at or above whatever is known of its
tenant. -/
theorem epoch_le_of_not_stale {epochs : OrdMap Nat Nat} {frames : List LogFrame}
    (h : staleEpoch epochs frames = none) {f g : LogFrame} (hf : Known epochs f)
    (hg : g ∈ frames) (htenant : f.tenant = g.tenant) : f.writerEpoch ≤ g.writerEpoch := by
  obtain ⟨e, he, hle⟩ := hf
  have hnone := List.findSome?_eq_none_iff.mp h g hg
  rw [← htenant, he, Option.bind_some] at hnone
  have hge : ¬ g.writerEpoch < e := fun hlt => by
    rw [if_pos hlt] at hnone
    cases hnone
  omega

theorem Known.insert {epochs : OrdMap Nat Nat} {f : LogFrame} (g : LogFrame) (h : Known epochs f) :
    Known (epochs.insert g.tenant
      (max ((epochs.get? g.tenant).getD g.writerEpoch) g.writerEpoch)) f := by
  obtain ⟨e, he, hle⟩ := h
  unfold Known
  rw [OrdMap.get?_insert]
  by_cases ht : f.tenant = g.tenant
  · rw [if_pos ht, ← ht, he, Option.getD_some]
    exact ⟨_, rfl, Nat.le_trans hle (Nat.le_max_left ..)⟩
  · rw [if_neg ht]
    exact ⟨e, he, hle⟩

theorem known_raiseEpochs {f : LogFrame} {frames : List LogFrame} :
    ∀ {epochs : OrdMap Nat Nat}, Known epochs f ∨ f ∈ frames → Known (raiseEpochs epochs frames) f := by
  induction frames with
  | nil =>
    rintro epochs (h | h)
    · exact h
    · cases h
  | cons g frames ih =>
    intro epochs h
    refine ih ?_
    rcases h with h | h
    · exact .inl (h.insert g)
    · rcases List.mem_cons.mp h with rfl | h
      · refine .inl ⟨_, (OrdMap.get?_insert ..).trans (if_pos rfl), Nat.le_max_right ..⟩
      · exact .inr h

/-! ## Appends -/

theorem append_error {ε : Type} {s : Sequencer ε} {frames : List LogFrame}
    {gate : Nat → Option Throttle} {e : AppendError ε} (h : (s.append frames gate).2 = .error e) :
    (s.append frames gate).1 = s := by
  unfold append at h ⊢
  split
  · rfl
  · split
    · rfl
    · split
      · rfl
      · split
        · rfl
        · rename_i h₁ h₂ _ h₃ _ h₄
          rw [if_neg h₁, if_neg h₂] at h
          rw [h₃, h₄] at h
          cases h

variable {ε : Type} {cfg : SequencerConfig} {s s' : Sequencer ε}

def FlusherPoint.frames : FlusherPoint → List LogFrame
  | .building _ _ b => b.frames
  | _ => []

/-- The frames of the windows, then the staged ones, in chain order. -/
def order (s : Sequencer ε) : List LogFrame :=
  (s.windows.flatMap fun d => d.segment.frames) ++ (FlusherPoint.frames s.flusher
    ++ s.batch.elim [] Batch.frames)

structure Raised (s : Sequencer ε) : Prop where
  ascending : Ascending s.order
  known : ∀ f ∈ s.order, Known s.epochs f

theorem Raised.sublist (h : Raised s) (hepochs : s'.epochs = s.epochs)
    (hsub : s'.order.Sublist s.order) : Raised s' where
  ascending := List.Pairwise.sublist hsub h.ascending
  known f hf := by
    rw [hepochs]
    exact h.known f (hsub.subset hf)

theorem Raised.eq (h : Raised s) (hepochs : s'.epochs = s.epochs) (horder : s'.order = s.order) :
    Raised s' := h.sublist hepochs (horder ▸ List.Sublist.refl _)

theorem order_stage (s : Sequencer ε) (epochs : OrdMap Nat Nat) (frames : List LogFrame)
    (tickets : List (Nat × Lsn)) (issued : Nat) : order { s with
      epochs := epochs
      batch := some ⟨(s.batch.getD ⟨[], []⟩).frames ++ frames, tickets⟩
      tickets := issued } = s.order ++ frames := by
  unfold order
  cases hb : s.batch with
  | none => simp
  | some b => simp

theorem Raised.append {frames : List LogFrame} {gate : Nat → Option Throttle} (h : Raised s)
    (hframes : Ascending frames) : Raised (s.append frames gate).1 := by
  unfold Sequencer.append
  split
  · exact h
  · split
    · exact h
    · split
      · exact h
      · rename_i hstale
        split
        · exact h
        · refine ⟨?_, fun f hf => ?_⟩
          · rw [order_stage]
            refine List.pairwise_append.mpr ⟨h.ascending, hframes, fun f hf g hg htenant => ?_⟩
            exact epoch_le_of_not_stale hstale (h.known f hf) hg htenant
          · rw [order_stage, List.mem_append] at hf
            exact known_raiseEpochs (hf.imp_left (h.known f))

theorem Raised.flush (h : Raised s) (hstep : s.flush cfg = some s') : Raised s' := by
  unfold Sequencer.flush at hstep
  cases hfl : s.flusher with
  | idle =>
    rw [hfl] at hstep
    dsimp only at hstep
    split at hstep
    · rename_i hb
      split at hstep
      · obtain rfl := Option.some.inj hstep
        refine h.eq rfl ?_
        unfold order
        rw [hfl]
        rfl
      · cases hstep
    · rename_i b hb
      split at hstep
      · -- The batch of a poisoned sequencer goes nowhere.
        cases hstep
        refine h.sublist rfl ?_
        unfold order
        rw [hb]
        exact List.Sublist.append_left (List.Sublist.append_left (List.nil_sublist _) _) _
      · cases hstep
        refine h.eq rfl ?_
        unfold order
        rw [hfl, hb]
        dsimp only [FlusherPoint.frames, Option.elim]
        rw [List.append_nil, List.nil_append]
  | building seq prevDigest b =>
    rw [hfl] at hstep
    cases hstep
    refine h.eq rfl ?_
    unfold order
    rw [hfl]
    dsimp only [FlusherPoint.frames]
    rw [List.flatMap_append, List.flatMap_singleton, List.append_assoc, List.nil_append]
    rfl
  | closed d =>
    rw [hfl] at hstep
    dsimp only at hstep
    split at hstep
    · cases hstep
    · obtain rfl := Option.some.inj hstep
      refine h.eq rfl ?_
      unfold order
      rw [hfl]
      rfl
  | admitted d =>
    rw [hfl] at hstep
    dsimp only at hstep
    split at hstep
    · obtain rfl := Option.some.inj hstep
      refine h.eq rfl ?_
      unfold order
      rw [hfl]
      rfl
    · split at hstep
      · cases hstep
        refine h.eq rfl ?_
        unfold order
        rw [hfl]
        rfl
      · cases hstep
  | draining =>
    rw [hfl] at hstep
    dsimp only at hstep
    split at hstep
    · obtain rfl := Option.some.inj hstep
      refine h.eq rfl ?_
      unfold order
      rw [hfl]
      rfl
    · cases hstep
  | stopped =>
    rw [hfl] at hstep
    cases hstep

theorem worker_epochs {l : SequencerStep ε} (hl : OfWorker l) (hstep : s.next cfg l = some s') :
    s'.epochs = s.epochs := by
  unfold next at hstep
  split at hstep
  case h_1 => exact hl.elim
  case h_2 => exact hl.elim
  case h_3 => exact hl.elim
  case h_4 w =>
    split at hstep
    · cases hstep
      rfl
    · split at hstep
      · cases hstep
        rfl
      · cases hstep
    · cases hstep
  case h_5 w outcome =>
    split at hstep
    · cases hstep
      rfl
    · cases hstep
  case h_6 w =>
    split at hstep
    · cases hstep
      unfold land
      obtain ⟨_, _, _, _, _, _, _, heq, -⟩ := settle_frame cfg.tee
        (s := { s with workers := s.workers.set w .idle }) (OrdMap.sorted _)
      rw [heq]
    · cases hstep
  case h_7 w =>
    split at hstep
    · cases hstep
      rfl
    · cases hstep

theorem raised_thread {l : SequencerStep ε} (h : Raised s) (hl : ∀ frames gate, l ≠ .append frames gate)
    (hstep : s.next cfg l = some s') : Raised s' := by
  by_cases hw : OfWorker l
  · obtain ⟨h1, h2, h3, -⟩ := worker_frame hw hstep
    refine h.eq (worker_epochs hw hstep) ?_
    unfold order
    rw [h1, h2, h3]
  · cases l with
    | append frames gate => exact absurd rfl (hl frames gate)
    | close =>
      cases hstep
      exact h.eq rfl rfl
    | flush => exact h.flush hstep
    | receive w => exact absurd trivial hw
    | put w outcome => exact absurd trivial hw
    | complete w => exact absurd trivial hw
    | panic w => exact absurd trivial hw

end Sequencer

/-! ## Runs -/

namespace Gauged

open Trace

variable {ε : Type} {cfg : SequencerConfig} {g g' : Gauged ε}

/-- An append's own frames are in order of epochs. -/
def InOrder : GaugedStep ε → Prop
  | .append frames => Ascending frames
  | _ => True

instance (l : GaugedStep ε) : Decidable (InOrder l) := by
  cases l <;> unfold InOrder <;> infer_instance

/-- The windows are numbered along the chain, and where the appends are in
order so is every part of it. -/
structure Epochs (cfg : SequencerConfig) (first : Nat) (g : Gauged ε) : Prop where
  inv : Sequencer.Inv cfg first g.sequencer
  raised : g.sequencer.Raised

theorem epochs_next {first : Nat} (g : Gauged ε) (l : GaugedStep ε) (g' : Gauged ε)
    (h : Epochs cfg first g) (hl : InOrder l) (hstep : g.next cfg l = some g') :
    Epochs cfg first g' := by
  cases l with
  | append frames =>
    unfold next at hstep
    dsimp only at hstep
    split at hstep
    · cases hstep
    · obtain rfl := Option.some.inj hstep
      exact ⟨h.inv.append, h.raised.append hl⟩
  | reportIngest tenant lag =>
    cases hstep
    exact ⟨h.inv, h.raised⟩
  | reportConsolidation shard backlog =>
    cases hstep
    exact ⟨h.inv, h.raised⟩
  | thread l =>
    have hthread : (∀ frames gate, l ≠ .append frames gate)
        ∧ (g.sequencer.next cfg l).map (fun s => { g with sequencer := s }) = some g' := by
      cases l with
      | append frames gate => cases hstep
      | _ => exact ⟨nofun, hstep⟩
    obtain ⟨s, hs, rfl⟩ := Option.map_eq_some_iff.mp hthread.2
    exact ⟨Sequencer.inv_next _ _ _ h.inv hs, Sequencer.raised_thread h.raised hthread.1 hs⟩

theorem epochs_start (cfg : SequencerConfig) (nextSeq prevDigest : Nat)
    (board : Option Backpressure) : Epochs cfg nextSeq (start cfg nextSeq prevDigest board : Gauged ε) :=
  ⟨Sequencer.inv_resume cfg nextSeq prevDigest, List.Pairwise.nil, nofun⟩

/-- Whichever windows land, their frames ascend; and a rejected append
leaves the sequencer and its board alone. -/
theorem admission_in_order (cfg : SequencerConfig) (nextSeq prevDigest : Nat)
    (board : Option Backpressure) (ls : List (GaugedStep ε)) (g : Gauged ε)
    (hrun : run (next cfg) (start cfg nextSeq prevDigest board) ls = some g) :
    (Meets (next cfg) (fun _ l => InOrder l) (start cfg nextSeq prevDigest board) ls →
      (g.sequencer.windows.map Dispatch.seq
          = List.range' nextSeq g.sequencer.windows.length)
        ∧ ∀ landed : List Dispatch, landed.Sublist g.sequencer.windows →
          Ascending (landed.flatMap fun d => d.segment.frames))
      ∧ ∀ frames e, (g.append frames).2 = .error e → (g.append frames).1 = g := by
  refine ⟨fun hmeets => ?_, fun frames e he => ?_⟩
  · have h : Epochs cfg nextSeq g :=
      guarded_invariant (fun s l s' hs hl hstep => epochs_next s l s' hs hl hstep)
        (epochs_start cfg nextSeq prevDigest board) hmeets hrun
    refine ⟨?_, fun landed hlanded => ?_⟩
    · rw [h.inv.chain.numbered, h.inv.chain.length]
    · refine List.Pairwise.sublist (hlanded.flatMap _) ?_
      exact h.raised.ascending.sublist (List.sublist_append_left ..)
  · have hsame : (g.append frames).1.sequencer = g.sequencer := Sequencer.append_error he
    unfold append at hsame ⊢
    dsimp only at hsame ⊢
    rw [hsame]

def oneWorker : SequencerConfig := ⟨0, 1, false, fun bs => (Packing.crc32c bs).toNat⟩

/-- A frame of `tenant` at a writer epoch, the `n`-th of its stream. -/
def frameAt (tenant writerEpoch n : Nat) : LogFrame := ⟨tenant, writerEpoch, n, n + 1, [0]⟩

/-- The open batch lands. -/
def landing : List (GaugedStep Unit) :=
  [.thread .flush, .thread .flush, .thread .flush, .thread .flush, .thread (.receive 0),
    .thread (.put 0 (.ok ())), .thread (.complete 0)]

/-- Two tenants, one of which hands over to a writer of a later epoch; the
earlier writer comes back and is rejected, and the other tenant falls
behind. -/
def handover : List (GaugedStep Unit) :=
  [.append [frameAt 1 3 0, frameAt 2 9 0], .append [frameAt 1 5 1], .append [frameAt 1 3 1]]
    ++ landing ++ [.reportIngest 2 ⟨2 ^ 31, 0⟩, .append [frameAt 1 5 2, frameAt 2 9 1]]
    ++ [.append [frameAt 1 6 2]] ++ landing

theorem admission_in_order_handover : ∃ g,
    run (next oneWorker) (start oneWorker 7 0 (some (.new {}))) handover = some g
      ∧ (g.sequencer.windows.flatMap fun d => d.segment.frames)
        = [frameAt 1 3 0, frameAt 2 9 0, frameAt 1 5 1, frameAt 1 6 2]
      ∧ ∀ landed : List Dispatch, landed.Sublist g.sequencer.windows →
        Ascending (landed.flatMap fun d => d.segment.frames) :=
  ⟨_, rfl, rfl, ((admission_in_order oneWorker 7 0 (some (.new {})) handover _ rfl).1 (by decide)).2⟩

/-- One append of a tenant at epoch 5 and then at epoch 3 lands as it is. -/
theorem mixed_append_lands : ∃ g,
    run (next oneWorker) (start oneWorker 7 0 none)
        (.append [frameAt 1 5 0, frameAt 1 3 1] :: landing) = some g
      ∧ g.sequencer.puts = [(7, true)]
      ∧ g.sequencer.resolved = [(0, .ok 2)]
      ∧ ¬ Ascending (g.sequencer.windows.flatMap fun d => d.segment.frames) :=
  ⟨_, rfl, rfl, rfl, by decide⟩

end Gauged

end Zou
