import Mathlib.Data.List.Pairwise
import Zou.Sequencer

/-!
# Acks in chain order

Where every window is, and what became of every ticket. The windows the
flusher has built are numbered without a hole; those from the next ack on
are held somewhere, each once (`Chain`). Every ticket has been resolved
once or is staged or in a window that is held (`Ledger`). Every window is
put at most once (`Puts`), and the windows whose tickets resolved well are
a prefix of the chain, every one of which landed (`Acks`).
-/

namespace Zou

namespace Sequencer

/-! ## The parts of the invariant -/

/-- `windows` is the chain from `first`, and `held` and `unsent` are its
part from `nextAck`. -/
structure Chain (first nextAck nextSeq : Nat) (windows held unsent : List Dispatch) : Prop where
  low : first ≤ nextAck
  high : nextAck ≤ nextSeq
  numbered : windows.map Dispatch.seq = List.range' first (nextSeq - first)
  seqs : ((held ++ unsent).map Dispatch.seq).Perm (List.range' nextAck (nextSeq - nextAck))
  mem : ∀ d ∈ held, d ∈ windows

namespace Chain

variable {first nextAck nextSeq : Nat} {windows held held' unsent : List Dispatch} {d : Dispatch}

theorem perm (h : Chain first nextAck nextSeq windows held unsent) (hp : held'.Perm held) :
    Chain first nextAck nextSeq windows held' unsent where
  low := h.low
  high := h.high
  numbered := h.numbered
  seqs := ((hp.append_right unsent).map _).trans h.seqs
  mem d hd := h.mem d (hp.mem_iff.mp hd)

theorem seq_mem (h : Chain first nextAck nextSeq windows held unsent) (hd : d ∈ held) :
    nextAck ≤ d.seq ∧ d.seq < nextSeq := by
  have hmem : d.seq ∈ List.range' nextAck (nextSeq - nextAck) :=
    h.seqs.mem_iff.mp (List.mem_map.mpr ⟨d, List.mem_append_left _ hd, rfl⟩)
  have hhigh := h.high
  rw [List.mem_range'_1] at hmem
  omega

theorem seq_eq (h : Chain first nextAck nextSeq windows held unsent) {i : Nat}
    (hi : windows[i]? = some d) : d.seq = first + i := by
  have hseq : (windows.map Dispatch.seq)[i]? = some d.seq := by
    rw [List.getElem?_map, hi]
    rfl
  rw [h.numbered, List.getElem?_eq_some_iff] at hseq
  obtain ⟨hlt, hseq⟩ := hseq
  rw [List.getElem_range'] at hseq
  omega

theorem window (h : Chain first nextAck nextSeq windows held unsent) (hd : d ∈ held) :
    windows[d.seq - first]? = some d := by
  obtain ⟨i, hi⟩ := List.mem_iff_getElem?.mp (h.mem d hd)
  rw [h.seq_eq hi, Nat.add_sub_cancel_left]
  exact hi

theorem length (h : Chain first nextAck nextSeq windows held unsent) :
    windows.length = nextSeq - first := by
  have hlen := congrArg List.length h.numbered
  rwa [List.length_map, List.length_range'] at hlen

theorem grow (h : Chain first nextAck nextSeq windows held unsent) (hseq : d.seq = nextSeq)
    (hp : held'.Perm (d :: held)) :
    Chain first nextAck (nextSeq + 1) (windows ++ [d]) held' unsent := by
  have hlow := h.low
  have hhigh := h.high
  refine ⟨hlow, by omega, ?_, ?_, fun d' hd' => ?_⟩
  · rw [List.map_append, h.numbered, List.map_singleton, hseq,
      show nextSeq + 1 - first = (nextSeq - first) + 1 by omega, List.range'_concat]
    congr 2
    omega
  · rw [show nextSeq + 1 - nextAck = (nextSeq - nextAck) + 1 by omega, List.range'_concat,
      show nextAck + 1 * (nextSeq - nextAck) = nextSeq by omega]
    refine ((hp.append_right unsent).map _).trans ?_
    rw [List.cons_append, List.map_cons, hseq]
    exact (h.seqs.cons nextSeq).trans (List.perm_append_singleton _ _).symm
  · rcases List.mem_cons.mp (hp.mem_iff.mp hd') with rfl | hd'
    · exact List.mem_append_right _ (List.mem_singleton.mpr rfl)
    · exact List.mem_append_left _ (h.mem d' hd')

theorem unsend (h : Chain first nextAck nextSeq windows held unsent) (hp : held.Perm (d :: held')) :
    Chain first nextAck nextSeq windows held' (unsent ++ [d]) := by
  refine ⟨h.low, h.high, h.numbered, ?_, fun d' hd' => ?_⟩
  · refine List.Perm.trans (List.Perm.map _ ?_) h.seqs
    refine List.Perm.trans ?_ (hp.append_right unsent).symm
    rw [← List.append_assoc]
    exact List.perm_append_singleton d (held' ++ unsent)
  · exact h.mem d' (hp.mem_iff.mpr (.tail _ hd'))

theorem ack (h : Chain first nextAck nextSeq windows held unsent) (hp : held.Perm (d :: held'))
    (hseq : d.seq = nextAck) : Chain first (nextAck + 1) nextSeq windows held' unsent := by
  have hlow := h.low
  have hlt := (h.seq_mem (hp.mem_iff.mpr List.mem_cons_self)).2
  rw [hseq] at hlt
  refine ⟨by omega, hlt, h.numbered, ?_, fun d' hd' => ?_⟩
  · have hseqs := (((hp.append_right unsent).map Dispatch.seq).symm.trans h.seqs)
    rw [show nextSeq - nextAck = (nextSeq - (nextAck + 1)) + 1 by omega, List.range'_succ,
      List.cons_append, List.map_cons, hseq] at hseqs
    exact hseqs.cons_inv
  · exact h.mem d' (hp.mem_iff.mpr (.tail _ hd'))

end Chain

/-- Every ticket handed out was resolved once, or will be. -/
def Ledger (tickets : Nat) (resolved pending : List Nat) : Prop :=
  (resolved ++ pending).Perm (List.range tickets)

namespace Ledger

variable {tickets : Nat} {resolved pending pending' : List Nat}

theorem perm (h : Ledger tickets resolved pending) (hp : pending'.Perm pending) :
    Ledger tickets resolved pending' := (hp.append_left resolved).trans h

theorem issue (h : Ledger tickets resolved pending) (hp : pending'.Perm (tickets :: pending)) :
    Ledger (tickets + 1) resolved pending' := by
  unfold Ledger at h ⊢
  rw [List.range_succ]
  refine ((hp.append_left resolved).trans List.perm_middle).trans ?_
  exact (h.cons tickets).trans (List.perm_append_singleton _ _).symm

theorem resolve {ids : List Nat} (h : Ledger tickets resolved pending)
    (hp : pending.Perm (ids ++ pending')) : Ledger tickets (resolved ++ ids) pending' := by
  unfold Ledger at h ⊢
  rw [List.append_assoc]
  exact (hp.symm.append_left resolved).trans h

end Ledger

/-- `puts` is the outcomes of the windows put so far, `fresh` the windows
that are not put yet, and `back` the outcomes on their way to the
lander. -/
structure Puts (first nextSeq : Nat) (puts : List (Nat × Bool)) (fresh : List Nat)
    (back : List (Nat × Bool)) : Prop where
  nodup : (puts.map Prod.fst ++ fresh).Nodup
  within : ∀ q ∈ puts.map Prod.fst ++ fresh, first ≤ q ∧ q < nextSeq
  known : ∀ p ∈ back, p ∈ puts

namespace Puts

variable {first nextSeq : Nat} {puts : List (Nat × Bool)} {fresh fresh' : List Nat}
  {back back' : List (Nat × Bool)}

theorem perm (h : Puts first nextSeq puts fresh back) (hf : fresh'.Perm fresh)
    (hb : ∀ p ∈ back', p ∈ back) : Puts first nextSeq puts fresh' back' where
  nodup := (hf.append_left _).nodup_iff.mpr h.nodup
  within q hq := h.within q ((hf.append_left _).mem_iff.mp hq)
  known p hp := h.known p (hb p hp)

theorem grow (h : Puts first nextSeq puts fresh back) (hle : first ≤ nextSeq)
    (hf : fresh'.Perm (nextSeq :: fresh)) : Puts first (nextSeq + 1) puts fresh' back := by
  have hp : (puts.map Prod.fst ++ fresh').Perm (nextSeq :: (puts.map Prod.fst ++ fresh)) :=
    (hf.append_left _).trans List.perm_middle
  refine ⟨hp.nodup_iff.mpr (List.nodup_cons.mpr ⟨fun hmem => ?_, h.nodup⟩), fun q hq => ?_, h.known⟩
  · exact Nat.lt_irrefl _ (h.within _ hmem).2
  · rcases List.mem_cons.mp (hp.mem_iff.mp hq) with rfl | hq
    · exact ⟨hle, Nat.lt_succ_self _⟩
    · exact ⟨(h.within q hq).1, Nat.lt_succ_of_lt (h.within q hq).2⟩

theorem drop (h : Puts first nextSeq puts fresh back) (q : Nat) (hf : fresh.Perm (q :: fresh')) :
    Puts first nextSeq puts fresh' back := by
  have hp : (puts.map Prod.fst ++ fresh).Perm (q :: (puts.map Prod.fst ++ fresh')) :=
    (hf.append_left _).trans List.perm_middle
  refine ⟨(List.nodup_cons.mp (hp.nodup_iff.mp h.nodup)).2, fun a ha => ?_, h.known⟩
  exact h.within a (hp.mem_iff.mpr (.tail _ ha))

theorem put {q : Nat} {ok : Bool} (h : Puts first nextSeq puts fresh back) (hf : fresh.Perm (q :: fresh'))
    (hb : back'.Perm ((q, ok) :: back)) : Puts first nextSeq (puts ++ [(q, ok)]) fresh' back' := by
  have hp : ((puts ++ [(q, ok)]).map Prod.fst ++ fresh').Perm (puts.map Prod.fst ++ fresh) := by
    rw [List.map_append, List.append_assoc]
    exact hf.symm.append_left _
  refine ⟨hp.nodup_iff.mpr h.nodup, fun a ha => h.within a (hp.mem_iff.mp ha), fun p hmem => ?_⟩
  rcases List.mem_cons.mp (hb.mem_iff.mp hmem) with rfl | hmem
  · exact List.mem_append_right _ (List.mem_singleton.mpr rfl)
  · exact List.mem_append_left _ (h.known p hmem)

end Puts

/-- The first `n` windows landed and their tickets are those that resolved
well; the tee has them. -/
structure Acks {ε : Type} (first nextAck : Nat) (failed : Bool) (windows : List Dispatch)
    (puts : List (Nat × Bool)) (tee : Bool) (published : List (Nat × List LogFrame))
    (resolved : List (Nat × Except (AppendError ε) Lsn)) (n : Nat) : Prop where
  le : first + n ≤ nextAck
  full : failed = false → first + n = nextAck
  landed : ∀ q, first ≤ q → q < first + n → (q, true) ∈ puts
  teed : published = if tee then (windows.take n).map fun d => (d.seq, d.frames) else []
  acked : ∀ t lsn, (t, .ok lsn) ∈ resolved ↔ ∃ d ∈ windows.take n, (t, lsn) ∈ d.tickets

namespace Acks

variable {ε : Type} {first nextAck n : Nat} {failed tee : Bool} {windows : List Dispatch}
  {puts : List (Nat × Bool)} {published : List (Nat × List LogFrame)}
  {resolved : List (Nat × Except (AppendError ε) Lsn)} {d : Dispatch}

theorem errors (h : Acks first nextAck failed windows puts tee published resolved n)
    (tickets : List (Nat × Lsn)) (e : AppendError ε) :
    Acks first nextAck failed windows puts tee published
      (resolved ++ tickets.map fun t => (t.1, .error e)) n where
  le := h.le
  full := h.full
  landed := h.landed
  teed := h.teed
  acked t lsn := by
    rw [List.mem_append, ← h.acked]
    refine ⟨fun hmem => hmem.resolve_right fun herr => ?_, .inl⟩
    obtain ⟨x, -, hx⟩ := List.mem_map.mp herr
    cases (Prod.mk.inj hx).2

theorem fail (h : Acks first nextAck failed windows puts tee published resolved n) :
    Acks first nextAck true windows puts tee published resolved n where
  le := h.le
  full := nofun
  landed := h.landed
  teed := h.teed
  acked := h.acked

theorem skip (h : Acks first nextAck true windows puts tee published resolved n) :
    Acks first (nextAck + 1) true windows puts tee published resolved n where
  le := Nat.le_succ_of_le h.le
  full := nofun
  landed := h.landed
  teed := h.teed
  acked := h.acked

theorem grow (h : Acks first nextAck failed windows puts tee published resolved n)
    (hn : n ≤ windows.length) :
    Acks first nextAck failed (windows ++ [d]) puts tee published resolved n := by
  have htake : (windows ++ [d]).take n = windows.take n := List.take_append_of_le_length hn
  exact ⟨h.le, h.full, h.landed, htake ▸ h.teed, htake ▸ h.acked⟩

theorem put (h : Acks first nextAck failed windows puts tee published resolved n) (p : Nat × Bool) :
    Acks first nextAck failed windows (puts ++ [p]) tee published resolved n :=
  ⟨h.le, h.full, fun q hlo hhi => List.mem_append_left _ (h.landed q hlo hhi), h.teed, h.acked⟩

theorem ok (h : Acks first nextAck false windows puts tee published resolved n)
    (hd : windows[nextAck - first]? = some d) (hseq : d.seq = nextAck)
    (hput : (nextAck, true) ∈ puts) : Acks first (nextAck + 1) false windows puts tee
      (if tee then published ++ [(nextAck, d.frames)] else published)
      (resolved ++ d.tickets.map fun t => (t.1, .ok t.2)) (n + 1) := by
  have hn := h.full rfl
  have htake : windows.take (n + 1) = windows.take n ++ [d] := by
    rw [List.take_add_one, show n = nextAck - first by omega, hd]
    rfl
  refine ⟨by omega, fun _ => by omega, fun q hlo hhi => ?_, ?_, fun t lsn => ?_⟩
  · by_cases hq : q = nextAck
    · rw [hq]
      exact hput
    · exact h.landed q hlo (by omega)
  · rw [htake, h.teed]
    cases tee with
    | false => rfl
    | true =>
      rw [if_pos rfl, if_pos rfl, if_pos rfl, List.map_append, ← hseq]
      rfl
  · rw [htake, List.mem_append, h.acked]
    constructor
    · rintro (⟨d', hd', ht⟩ | hmem)
      · exact ⟨d', List.mem_append_left _ hd', ht⟩
      · obtain ⟨⟨t', lsn'⟩, ht, heq⟩ := List.mem_map.mp hmem
        obtain ⟨rfl, hok⟩ := Prod.mk.inj heq
        cases hok
        exact ⟨d, List.mem_append_right _ (List.mem_singleton.mpr rfl), ht⟩
    · rintro ⟨d', hd', ht⟩
      rcases List.mem_append.mp hd' with hd' | hd'
      · exact .inl ⟨d', hd', ht⟩
      · rw [List.mem_singleton.mp hd'] at ht
        exact .inr (List.mem_map.mpr ⟨_, ht, rfl⟩)

end Acks

/-! ## Where the windows are -/

/-- The window in the flusher's hands. -/
def FlusherPoint.held : FlusherPoint → List Dispatch
  | .closed d => [d]
  | .admitted d => [d]
  | _ => []

/-- The window in the flusher's hands that has a slot. -/
def FlusherPoint.admitted : FlusherPoint → List Dispatch
  | .admitted d => [d]
  | _ => []

def FlusherPoint.staged : FlusherPoint → List (Nat × Lsn)
  | .building _ _ b => b.tickets
  | _ => []

variable {ε : Type}

def WorkerPoint.held : WorkerPoint ε → List Dispatch
  | .putting d => [d]
  | .returned d _ => [d]
  | _ => []

def WorkerPoint.fresh : WorkerPoint ε → List Nat
  | .putting d => [d.seq]
  | _ => []

def WorkerPoint.back : WorkerPoint ε → List (Nat × Bool)
  | .returned d outcome => [(d.seq, outcome.toBool)]
  | _ => []

/-- The windows that were sent and are not resolved. -/
def sent (s : Sequencer ε) : List Dispatch :=
  s.queue ++ s.workers.flatMap WorkerPoint.held ++ s.parked.entries.map (·.2.1) ++ s.lost

/-- The windows that have a slot. -/
def inFlight (s : Sequencer ε) : List Dispatch := FlusherPoint.admitted s.flusher ++ s.sent

def held (s : Sequencer ε) : List Dispatch := FlusherPoint.held s.flusher ++ s.sent

def fresh (s : Sequencer ε) : List Nat :=
  (FlusherPoint.held s.flusher ++ s.queue).map Dispatch.seq ++ s.workers.flatMap WorkerPoint.fresh

def back (s : Sequencer ε) : List (Nat × Bool) :=
  s.workers.flatMap WorkerPoint.back ++ s.parked.entries.map fun e => (e.2.1.seq, e.2.2.toBool)

/-- The tickets that are staged. -/
def staged (s : Sequencer ε) : List Nat :=
  ((s.batch.elim [] Batch.tickets) ++ FlusherPoint.staged s.flusher).map Prod.fst

/-- The tickets that are not resolved. -/
def pending (s : Sequencer ε) : List Nat :=
  s.staged ++ s.held.flatMap fun d => d.tickets.map Prod.fst

structure Inv (cfg : SequencerConfig) (first : Nat) (s : Sequencer ε) : Prop where
  chain : Chain first s.nextAck s.nextSeq s.windows s.held s.unsent
  building : ∀ seq prevDigest b, s.flusher = .building seq prevDigest b → seq = s.nextSeq
  keys : ∀ e ∈ s.parked.entries, e.1 = e.2.1.seq
  ledger : Ledger s.tickets (s.resolved.map Prod.fst) s.pending
  puts : Puts first s.nextSeq s.puts s.fresh s.back
  slots : s.outstanding = s.inFlight.length
  limit : s.outstanding ≤ cfg.inflight
  acks : ∃ n, Acks first s.nextAck s.failed s.windows s.puts cfg.tee s.published s.resolved n

/-! ## Lists with one element changed -/

theorem exists_split {α : Type} : ∀ {l : List α} {i : Nat} {a : α}, l[i]? = some a →
    ∃ l₁ l₂, l = l₁ ++ a :: l₂ ∧ ∀ b, l.set i b = l₁ ++ b :: l₂ := by
  intro l
  induction l with
  | nil =>
    nofun
  | cons x l ih =>
    intro i a h
    cases i with
    | zero =>
      cases h
      exact ⟨[], l, rfl, fun b => rfl⟩
    | succ i =>
      obtain ⟨l₁, l₂, rfl, hset⟩ := ih h
      refine ⟨x :: l₁, l₂, rfl, fun b => ?_⟩
      rw [List.set_cons_succ, hset]
      rfl

theorem set_flatMap {α β : Type} {l : List α} {i : Nat} {a : α} (b : α) (h : l[i]? = some a)
    (f : α → List β) :
    ∃ rest, (l.flatMap f).Perm (f a ++ rest) ∧ ((l.set i b).flatMap f).Perm (f b ++ rest) := by
  obtain ⟨l₁, l₂, hl, hset⟩ := exists_split h
  have hmiddle : ∀ x, ((l₁ ++ x :: l₂).flatMap f).Perm (f x ++ (l₁.flatMap f ++ l₂.flatMap f)) := by
    intro x
    rw [List.flatMap_append, List.flatMap_cons]
    exact List.perm_append_comm_assoc _ _ _
  refine ⟨l₁.flatMap f ++ l₂.flatMap f, ?_, ?_⟩
  · rw [hl]
    exact hmiddle a
  · rw [hset]
    exact hmiddle b

/-! ## Steps of the workers -/

section Steps

variable {cfg : SequencerConfig} {first : Nat} {s s' : Sequencer ε} {w : Nat}
  {p p' : WorkerPoint ε} {d : Dispatch}

/-- A worker moves a window between the channel, itself and the lost. -/
theorem sent_worker (p' : WorkerPoint ε) (queue lost : List Dispatch) (h : s.workers[w]? = some p)
    (hp : (queue ++ WorkerPoint.held p' ++ lost).Perm (s.queue ++ WorkerPoint.held p ++ s.lost)) :
    (queue ++ (s.workers.set w p').flatMap WorkerPoint.held ++ s.parked.entries.map (·.2.1)
      ++ lost).Perm s.sent := by
  obtain ⟨rest, h1, h2⟩ := set_flatMap p' h WorkerPoint.held
  refine List.perm_iff_count.mpr fun x => ?_
  have hc := hp.count_eq x
  have hc1 := h1.count_eq x
  have hc2 := h2.count_eq x
  unfold sent
  simp only [List.count_append] at hc hc1 hc2 ⊢
  omega

/-- A step of a worker, as far as the windows go. -/
theorem Inv.worker (p' : WorkerPoint ε) {queue lost : List Dispatch} {puts : List (Nat × Bool)}
    (h : Inv cfg first s) (hw : s.workers[w]? = some p)
    (hp : (queue ++ WorkerPoint.held p' ++ lost).Perm (s.queue ++ WorkerPoint.held p ++ s.lost))
    (hputs : Puts first s.nextSeq puts
      ((FlusherPoint.held s.flusher ++ queue).map Dispatch.seq
        ++ (s.workers.set w p').flatMap WorkerPoint.fresh)
      ((s.workers.set w p').flatMap WorkerPoint.back
        ++ s.parked.entries.map fun e => (e.2.1.seq, e.2.2.toBool)))
    (hacks : ∃ n, Acks first s.nextAck s.failed s.windows puts cfg.tee s.published s.resolved n) :
    Inv cfg first { s with
      queue := queue
      workers := s.workers.set w p'
      puts := puts
      lost := lost } := by
  have hsent := sent_worker p' queue lost hw hp
  have hheld := hsent.append_left (FlusherPoint.held s.flusher)
  refine ⟨h.chain.perm hheld, h.building, h.keys, h.ledger.perm ?_, hputs, ?_, h.limit, hacks⟩
  · exact (hheld.flatMap_right _).append_left _
  · rw [h.slots]
    exact (hsent.append_left _).length_eq.symm

theorem Inv.receive {queue : List Dispatch} (h : Inv cfg first s) (hw : s.workers[w]? = some .idle)
    (hq : s.queue = d :: queue) :
    Inv cfg first { s with queue := queue, workers := s.workers.set w (.putting d) } := by
  refine h.worker (.putting d) hw ?_ (h.puts.perm ?_ fun x hx => ?_) h.acks
  · rw [hq]
    refine List.perm_iff_count.mpr fun x => ?_
    simp only [WorkerPoint.held, List.count_append, List.count_cons, List.count_nil]
    omega
  · obtain ⟨rest, h1, h2⟩ := set_flatMap (.putting d) hw WorkerPoint.fresh
    refine List.perm_iff_count.mpr fun x => ?_
    have hc1 := h1.count_eq x
    have hc2 := h2.count_eq x
    unfold fresh
    rw [hq]
    simp only [List.count_append, List.map_append, List.map_cons, List.count_cons, List.count_nil,
      WorkerPoint.fresh] at hc1 hc2 ⊢
    omega
  · obtain ⟨rest, h1, h2⟩ := set_flatMap (.putting d) hw WorkerPoint.back
    unfold back
    refine (List.mem_append.mp hx).elim (fun hx => ?_) (List.mem_append_right _)
    exact List.mem_append_left _ (h1.mem_iff.mpr (h2.mem_iff.mp hx))

theorem Inv.leave (h : Inv cfg first s) (hw : s.workers[w]? = some .idle) :
    Inv cfg first { s with workers := s.workers.set w .gone } := by
  refine h.worker .gone hw (.refl _) (h.puts.perm ?_ fun x hx => ?_) h.acks
  · obtain ⟨rest, h1, h2⟩ := set_flatMap .gone hw WorkerPoint.fresh
    exact (h2.trans h1.symm).append_left _
  · obtain ⟨rest, h1, h2⟩ := set_flatMap .gone hw WorkerPoint.back
    unfold back
    refine (List.mem_append.mp hx).elim (fun hx => ?_) (List.mem_append_right _)
    exact List.mem_append_left _ (h1.mem_iff.mpr (h2.mem_iff.mp hx))

variable {outcome : Except ε Unit}

theorem Inv.put (h : Inv cfg first s) (hw : s.workers[w]? = some (.putting d)) :
    Inv cfg first { s with
      workers := s.workers.set w (.returned d outcome)
      puts := s.puts ++ [(d.seq, outcome.toBool)] } := by
  obtain ⟨n, hacks⟩ := h.acks
  refine h.worker (.returned d outcome) hw (.refl _) (h.puts.put ?_ ?_)
    ⟨n, hacks.put _⟩
  · obtain ⟨rest, h1, h2⟩ := set_flatMap (.returned d outcome) hw WorkerPoint.fresh
    refine List.perm_iff_count.mpr fun x => ?_
    have hc1 := h1.count_eq x
    have hc2 := h2.count_eq x
    unfold fresh
    simp only [List.count_append, List.count_cons, List.count_nil, WorkerPoint.fresh] at hc1 hc2 ⊢
    omega
  · obtain ⟨rest, h1, h2⟩ := set_flatMap (.returned d outcome) hw WorkerPoint.back
    refine List.perm_iff_count.mpr fun x => ?_
    have hc1 := h1.count_eq x
    have hc2 := h2.count_eq x
    unfold back
    simp only [List.count_append, List.count_cons, List.count_nil, WorkerPoint.back] at hc1 hc2 ⊢
    omega

theorem Inv.panic (h : Inv cfg first s) (hw : s.workers[w]? = some (.putting d)) :
    Inv cfg first { s with workers := s.workers.set w .gone, lost := s.lost ++ [d] } := by
  have hf : ∃ rest, s.fresh.Perm (d.seq :: rest)
      ∧ ((FlusherPoint.held s.flusher ++ s.queue).map Dispatch.seq
        ++ (s.workers.set w .gone).flatMap WorkerPoint.fresh).Perm rest := by
    obtain ⟨rest, h1, h2⟩ := set_flatMap .gone hw WorkerPoint.fresh
    exact ⟨_, (h1.append_left _).trans List.perm_middle, h2.append_left _⟩
  obtain ⟨rest, h1, h2⟩ := hf
  refine h.worker .gone hw ?_ (((h.puts.drop d.seq h1).perm h2) fun x hx => ?_) h.acks
  · refine List.perm_iff_count.mpr fun x => ?_
    simp only [WorkerPoint.held, List.count_append, List.count_cons, List.count_nil]
    omega
  · obtain ⟨rest, h1, h2⟩ := set_flatMap .gone hw WorkerPoint.back
    unfold back
    refine (List.mem_append.mp hx).elim (fun hx => ?_) (List.mem_append_right _)
    exact List.mem_append_left _ (h1.mem_iff.mpr (h2.mem_iff.mp hx))

/-! ## The lander -/

theorem Inv.park (h : Inv cfg first s) (hw : s.workers[w]? = some (.returned d outcome)) :
    Inv cfg first { s with
      workers := s.workers.set w .idle
      parked := s.parked.insert d.seq (d, outcome) } := by
  obtain ⟨rest, h1, h2⟩ := set_flatMap .idle hw WorkerPoint.held
  -- The window is held once, so nothing is parked under its number.
  have hfree : ∀ e ∈ s.parked.entries, e.1 ≠ d.seq := by
    intro e he heq
    have hnodup : (s.held.map Dispatch.seq).Nodup := by
      have hall := h.chain.seqs.nodup_iff.mpr (List.nodup_range' ..)
      rw [List.map_append] at hall
      exact (List.nodup_append.mp hall).1
    have hcount := List.nodup_iff_count_le_one.mp hnodup d.seq
    have hmem : 0 < (s.parked.entries.map fun e => e.2.1.seq).count d.seq :=
      List.count_pos_iff.mpr (List.mem_map.mpr ⟨e, he, (h.keys e he).symm.trans heq⟩)
    have hc1 := ((h1.map Dispatch.seq).count_eq d.seq)
    unfold held sent at hcount
    simp only [List.map_append, List.count_append, List.map_map, WorkerPoint.held, List.map_cons,
      List.count_cons_self, Function.comp_def] at hcount hc1 hmem
    omega
  have hins : (s.parked.insert d.seq (d, outcome)).entries.Perm
      ((d.seq, d, outcome) :: s.parked.entries) := OrdMap.insertList_perm hfree
  have hsent : (s.queue ++ (s.workers.set w .idle).flatMap WorkerPoint.held
      ++ (s.parked.insert d.seq (d, outcome)).entries.map (·.2.1) ++ s.lost).Perm s.sent := by
    refine List.perm_iff_count.mpr fun x => ?_
    have hc1 := h1.count_eq x
    have hc2 := h2.count_eq x
    have hc3 := (hins.map (·.2.1)).count_eq x
    unfold sent
    simp only [List.count_append, List.map_cons, List.count_cons, List.count_nil,
      WorkerPoint.held] at hc1 hc2 hc3 ⊢
    omega
  have hheld := hsent.append_left (FlusherPoint.held s.flusher)
  refine ⟨h.chain.perm hheld, h.building, fun e he => ?_, h.ledger.perm ?_,
    h.puts.perm ?_ fun x hx => ?_, ?_, h.limit, h.acks⟩
  · rcases List.mem_cons.mp (hins.mem_iff.mp he) with rfl | he
    · rfl
    · exact h.keys e he
  · exact (hheld.flatMap_right _).append_left _
  · obtain ⟨rest, h1, h2⟩ := set_flatMap .idle hw WorkerPoint.fresh
    exact (h2.trans h1.symm).append_left _
  · obtain ⟨rest, h1, h2⟩ := set_flatMap .idle hw WorkerPoint.back
    unfold back at hx ⊢
    rcases List.mem_append.mp hx with hx | hx
    · exact List.mem_append_left _ (h1.mem_iff.mpr (List.mem_append_right _ (h2.mem_iff.mp hx)))
    · rcases List.mem_cons.mp ((hins.map _).mem_iff.mp hx) with rfl | hx
      · exact List.mem_append_left _ (h1.mem_iff.mpr List.mem_cons_self)
      · exact List.mem_append_right _ hx
  · rw [h.slots]
    exact (hsent.append_left _).length_eq.symm

theorem Inv.pop {seq : Nat} {es : List (Nat × Dispatch × Except ε Unit)}
    (hes : ((seq, d, outcome) :: es).Pairwise fun a b => a.1 < b.1)
    (h : Inv cfg first { s with parked := ⟨(seq, d, outcome) :: es, hes⟩ }) (hseq : seq = s.nextAck) :
    Inv cfg first { s.ack cfg.tee seq d outcome with
      parked := ⟨es, (List.pairwise_cons.mp hes).2⟩ } := by
  have hd : seq = d.seq := h.keys _ List.mem_cons_self
  have hsent : (sent { s with parked := ⟨(seq, d, outcome) :: es, hes⟩ }).Perm
      (d :: sent { s with parked := ⟨es, (List.pairwise_cons.mp hes).2⟩ }) := by
    refine List.perm_iff_count.mpr fun x => ?_
    unfold sent
    simp only [List.count_append, List.map_cons, List.count_cons]
    omega
  have hheld : (held { s with parked := ⟨(seq, d, outcome) :: es, hes⟩ }).Perm
      (d :: held { s with parked := ⟨es, (List.pairwise_cons.mp hes).2⟩ }) :=
    (hsent.append_left _).trans List.perm_middle
  have hpending : (pending { s with parked := ⟨(seq, d, outcome) :: es, hes⟩ }).Perm
      (d.tickets.map Prod.fst ++ pending { s with parked := ⟨es, (List.pairwise_cons.mp hes).2⟩ }) :=
    ((hheld.flatMap_right _).append_left _).trans (List.perm_append_comm_assoc _ _ _)
  have hlen : s.outstanding - 1
      = (inFlight { s with parked := ⟨es, (List.pairwise_cons.mp hes).2⟩ }).length := by
    have hperm := (hsent.append_left (FlusherPoint.admitted s.flusher)).trans List.perm_middle
    exact Nat.sub_eq_of_eq_add (h.slots.trans hperm.length_eq)
  have hchain := h.chain.ack hheld (hd.symm.trans hseq)
  rw [← hseq] at hchain
  have hwindow : s.windows[s.nextAck - first]? = some d := by
    have hw : s.windows[d.seq - first]? = some d :=
      h.chain.window (hheld.mem_iff.mpr List.mem_cons_self)
    rw [hd.symm.trans hseq] at hw
    exact hw
  have hput : (s.nextAck, outcome.toBool) ∈ s.puts := by
    rw [← hseq, hd]
    exact h.puts.known _ (List.mem_append_right _ List.mem_cons_self)
  have hputs : Puts first s.nextSeq s.puts s.fresh
      (back { s with parked := ⟨es, (List.pairwise_cons.mp hes).2⟩ }) := by
    refine h.puts.perm (.refl _) fun x hx => ?_
    exact (List.mem_append.mp hx).elim (List.mem_append_left _)
      fun hx => List.mem_append_right _ (.tail _ hx)
  have hkeys : ∀ e ∈ es, e.1 = e.2.1.seq := fun e he => h.keys e (.tail _ he)
  have hlimit : s.outstanding - 1 ≤ cfg.inflight := Nat.le_trans (Nat.sub_le _ _) h.limit
  have hledger : ∀ f : Nat × Lsn → Except (AppendError ε) Lsn, Ledger s.tickets
      ((s.resolved ++ d.tickets.map fun t => (t.1, f t)).map Prod.fst)
      (pending { s with parked := ⟨es, (List.pairwise_cons.mp hes).2⟩ }) := by
    intro f
    rw [List.map_append, List.map_map]
    exact h.ledger.resolve hpending
  obtain ⟨n, hacks⟩ := h.acks
  unfold ack
  cases hf : s.failed with
  | true =>
    rw [if_pos rfl]
    refine ⟨hchain, h.building, hkeys, hledger _, hputs, hlen, hlimit, n, ?_⟩
    have hacks' : Acks first s.nextAck true s.windows s.puts cfg.tee s.published s.resolved n :=
      hf ▸ hacks
    have hskip := (hacks'.errors d.tickets .poisoned).skip
    rw [← hseq] at hskip
    rw [← hf] at hskip
    exact hskip
  | false =>
    rw [if_neg (by decide)]
    have hacks' : Acks first s.nextAck false s.windows s.puts cfg.tee s.published s.resolved n :=
      hf ▸ hacks
    cases outcome with
    | ok u =>
      refine ⟨hchain, h.building, hkeys, hledger _, hputs, hlen, hlimit, n + 1, ?_⟩
      have hok := hacks'.ok hwindow (hd.symm.trans hseq) hput
      rw [← hseq] at hok
      exact hok
    | error e =>
      refine ⟨hchain, h.building, hkeys, hledger _, hputs, hlen, hlimit, n, ?_⟩
      have hskip := (hacks'.errors d.tickets (.store e)).fail.skip
      rw [← hseq] at hskip
      exact hskip

theorem Inv.settle : ∀ {es : List (Nat × Dispatch × Except ε Unit)} {s : Sequencer ε}
    (hes : es.Pairwise fun a b => a.1 < b.1), Inv cfg first { s with parked := ⟨es, hes⟩ } →
      Inv cfg first (settle cfg.tee s es hes) := by
  intro es
  induction es with
  | nil => exact fun hes h => h
  | cons e es ih =>
    intro s hes h
    obtain ⟨seq, d, outcome⟩ := e
    unfold Sequencer.settle
    split
    · rename_i hseq
      exact ih _ (h.pop hes hseq)
    · exact h

theorem Inv.complete (h : Inv cfg first s) (hw : s.workers[w]? = some (.returned d outcome)) :
    Inv cfg first (land cfg.tee { s with workers := s.workers.set w .idle } d outcome) :=
  Inv.settle _ (h.park hw)

/-! ## Steps of the flusher and of appends -/

variable {frames : List LogFrame} {gate : Nat → Option Throttle}

theorem Inv.append (h : Inv cfg first s) : Inv cfg first (s.append frames gate).1 := by
  unfold Sequencer.append
  split
  · exact h
  · split
    · exact h
    · split
      · exact h
      · split
        · exact h
        · refine ⟨h.chain, h.building, h.keys, h.ledger.issue ?_, h.puts, h.slots, h.limit, h.acks⟩
          refine List.perm_iff_count.mpr fun x => ?_
          unfold pending staged
          cases hb : s.batch with
          | none =>
            simp only [Option.getD_none, Option.elim_none, Option.elim_some, List.map_append,
              List.map_cons, List.map_nil, List.nil_append, List.count_append, List.count_cons,
              List.count_nil, held, sent]
            omega
          | some b =>
            simp only [Option.getD_some, Option.elim_some, List.map_append, List.map_cons,
              List.map_nil, List.count_append, List.count_cons, List.count_nil, held, sent]
            omega

theorem Inv.rest (h : Inv cfg first s) (fp : FlusherPoint)
    (hs : FlusherPoint.held s.flusher = [] ∧ FlusherPoint.staged s.flusher = [])
    (hfp : FlusherPoint.held fp = [] ∧ FlusherPoint.staged fp = [])
    (hb : ∀ seq prevDigest b, fp ≠ .building seq prevDigest b) :
    Inv cfg first { s with flusher := fp } := by
  have hadm : ∀ fp : FlusherPoint, FlusherPoint.held fp = [] → FlusherPoint.admitted fp = [] := by
    intro fp hfp
    cases fp with
    | admitted d => cases hfp
    | _ => rfl
  have hheld : held { s with flusher := fp } = s.held := by
    unfold held
    rw [hs.1, hfp.1]
    rfl
  have hfresh : fresh { s with flusher := fp } = s.fresh := by
    unfold fresh
    rw [hs.1, hfp.1]
  have hstaged : staged { s with flusher := fp } = s.staged := by
    unfold staged
    rw [hs.2, hfp.2]
  refine ⟨?_, fun seq prevDigest b hbuild => absurd hbuild (hb _ _ _), h.keys, ?_, ?_, ?_, h.limit,
    h.acks⟩
  · rw [hheld]
    exact h.chain
  · unfold pending
    rw [hheld, hstaged]
    exact h.ledger
  · rw [hfresh]
    exact h.puts
  · rw [h.slots]
    unfold inFlight
    rw [hadm _ hs.1, hadm _ hfp.1]
    rfl

variable {b : Batch}

theorem Inv.reject (h : Inv cfg first s) (hbatch : s.batch = some b) :
    Inv cfg first { s.failAll b.tickets .poisoned with batch := none } := by
  obtain ⟨n, hacks⟩ := h.acks
  refine ⟨h.chain, h.building, h.keys, ?_, h.puts, h.slots, h.limit, n, hacks.errors _ _⟩
  have hres : (s.failAll b.tickets .poisoned).resolved.map Prod.fst
      = s.resolved.map Prod.fst ++ b.tickets.map Prod.fst := by
    unfold failAll
    rw [List.map_append, List.map_map]
    rfl
  rw [hres]
  refine h.ledger.resolve (List.perm_iff_count.mpr fun x => ?_)
  unfold pending staged
  rw [hbatch]
  simp only [Option.elim_some, Option.elim_none, List.map_append, List.map_nil, List.count_append,
    List.count_nil, held, sent, failAll]
  omega

theorem Inv.take (h : Inv cfg first s) (hfl : s.flusher = .idle) (hbatch : s.batch = some b) :
    Inv cfg first { s with batch := none, flusher := .building s.nextSeq s.prevDigest b } := by
  have hheld : held { s with batch := none, flusher := .building s.nextSeq s.prevDigest b }
      = s.held := by
    unfold held
    rw [hfl]
    rfl
  refine ⟨?_, fun seq prevDigest b hb => ?_, h.keys, h.ledger.perm ?_, ?_, ?_, h.limit, h.acks⟩
  · rw [hheld]
    exact h.chain
  · cases hb
    rfl
  · unfold pending staged
    rw [hheld, hbatch, hfl]
    dsimp only [Option.elim, FlusherPoint.staged]
    rw [List.nil_append, List.append_nil]
  · have hfresh : fresh { s with batch := none, flusher := .building s.nextSeq s.prevDigest b }
        = s.fresh := by
      unfold fresh
      rw [hfl]
      rfl
    rw [hfresh]
    exact h.puts
  · rw [h.slots]
    unfold inFlight
    rw [hfl]
    rfl

theorem Inv.build {seq prevDigest digest : Nat} (h : Inv cfg first s)
    (hfl : s.flusher = .building seq prevDigest b) (hseq : d.seq = seq)
    (htickets : d.tickets = b.tickets) : Inv cfg first { s with
      nextSeq := seq + 1
      prevDigest := digest
      flusher := .closed d
      windows := s.windows ++ [d] } := by
  obtain rfl := h.building seq prevDigest b hfl
  have hsent : held s = s.sent := by
    unfold held
    rw [hfl]
    rfl
  have hchain : Chain first s.nextAck (s.nextSeq + 1) (s.windows ++ [d]) (d :: s.sent) s.unsent :=
    h.chain.grow hseq (by rw [hsent])
  obtain ⟨n, hacks⟩ := h.acks
  have hle := hacks.le
  have hhigh := h.chain.high
  have hlen := h.chain.length
  refine ⟨hchain, nofun, h.keys, h.ledger.perm ?_, h.puts.grow (Nat.le_trans h.chain.low hhigh) ?_, ?_,
    h.limit, n, hacks.grow (by omega)⟩
  · unfold pending staged
    rw [hsent, hfl]
    dsimp only [held, FlusherPoint.held, FlusherPoint.staged]
    rw [List.append_nil, List.map_append, List.append_assoc, ← htickets]
    exact .refl _
  · unfold fresh
    rw [hfl]
    dsimp only [FlusherPoint.held]
    rw [List.nil_append, List.singleton_append, List.map_cons, hseq]
    exact .refl _
  · rw [h.slots]
    unfold inFlight
    rw [hfl]
    rfl

theorem Inv.admit (h : Inv cfg first s) (hfl : s.flusher = .closed d)
    (hslot : s.outstanding < cfg.inflight) :
    Inv cfg first { s with outstanding := s.outstanding + 1, flusher := .admitted d } := by
  have hheld : s.held = d :: s.sent := by
    unfold held
    rw [hfl]
    rfl
  refine ⟨?_, nofun, h.keys, ?_, ?_, ?_, hslot, h.acks⟩
  · have hchain := h.chain
    rw [hheld] at hchain
    exact hchain
  · have hledger := h.ledger
    unfold pending staged at hledger
    rw [hheld, hfl] at hledger
    exact hledger
  · have hputs := h.puts
    unfold fresh at hputs
    rw [hfl] at hputs
    exact hputs
  · have hslots := h.slots
    unfold inFlight at hslots
    rw [hfl] at hslots
    exact congrArg Nat.succ hslots

theorem Inv.send (h : Inv cfg first s) (hfl : s.flusher = .admitted d) :
    Inv cfg first { s with queue := s.queue ++ [d], flusher := .idle } := by
  have hsent : (sent { s with queue := s.queue ++ [d], flusher := .idle }).Perm (d :: s.sent) := by
    refine List.perm_iff_count.mpr fun x => ?_
    unfold sent
    simp only [List.count_append, List.count_cons, List.count_nil]
    omega
  have hheld : s.held = d :: s.sent := by
    unfold held
    rw [hfl]
    rfl
  have hheld' : (held { s with queue := s.queue ++ [d], flusher := .idle }).Perm s.held := by
    rw [hheld]
    exact hsent
  refine ⟨h.chain.perm hheld', nofun, h.keys, h.ledger.perm ?_,
    h.puts.perm ?_ fun x hx => hx, ?_, h.limit, h.acks⟩
  · unfold pending staged
    rw [hfl]
    exact (hheld'.flatMap_right _).append_left _
  · unfold fresh
    rw [hfl]
    refine List.perm_iff_count.mpr fun x => ?_
    simp only [FlusherPoint.held, List.map_append, List.map_cons, List.map_nil, List.count_append,
      List.count_cons, List.count_nil]
    omega
  · have hslots := h.slots
    unfold inFlight at hslots ⊢
    rw [hfl] at hslots
    exact hslots.trans hsent.length_eq.symm

theorem Inv.unsend (h : Inv cfg first s) (hfl : s.flusher = .admitted d) :
    Inv cfg first { s.failAll d.tickets .poisoned with
      failed := true
      poisoned := true
      outstanding := s.outstanding - 1
      flusher := .idle
      unsent := s.unsent ++ [d] } := by
  have hheld : s.held = d :: s.sent := by
    unfold held
    rw [hfl]
    rfl
  have hchain : Chain first s.nextAck s.nextSeq s.windows s.sent (s.unsent ++ [d]) :=
    h.chain.unsend (by rw [hheld])
  obtain ⟨n, hacks⟩ := h.acks
  refine ⟨hchain, nofun, h.keys, ?_, h.puts.drop d.seq ?_, ?_,
    Nat.le_trans (Nat.sub_le _ _) h.limit, n, (hacks.errors _ _).fail⟩
  · have hres : (s.failAll d.tickets .poisoned).resolved.map Prod.fst
        = s.resolved.map Prod.fst ++ d.tickets.map Prod.fst := by
      unfold failAll
      rw [List.map_append, List.map_map]
      rfl
    rw [hres]
    refine h.ledger.resolve ?_
    unfold pending staged
    rw [hheld, hfl]
    exact List.perm_append_comm_assoc _ _ _
  · unfold fresh
    rw [hfl]
    exact .refl _
  · have hslots := h.slots
    unfold inFlight at hslots
    rw [hfl] at hslots
    exact Nat.sub_eq_of_eq_add hslots

theorem Inv.flush (h : Inv cfg first s) (hstep : s.flush cfg = some s') : Inv cfg first s' := by
  unfold Sequencer.flush at hstep
  cases hfl : s.flusher with
  | idle =>
    rw [hfl] at hstep
    dsimp only at hstep
    split at hstep
    · split at hstep
      · obtain rfl := Option.some.inj hstep
        exact h.rest .draining (by rw [hfl]; exact ⟨rfl, rfl⟩) ⟨rfl, rfl⟩
          nofun
      · cases hstep
    · rename_i b hb
      split at hstep
      · cases hstep
        exact h.reject hb
      · cases hstep
        exact h.take hfl hb
  | building seq prevDigest b =>
    rw [hfl] at hstep
    cases hstep
    exact h.build hfl rfl rfl
  | closed d =>
    rw [hfl] at hstep
    dsimp only at hstep
    split at hstep
    · cases hstep
    · rename_i hslot
      cases hstep
      exact h.admit hfl (Nat.lt_of_not_le hslot)
  | admitted d =>
    rw [hfl] at hstep
    dsimp only at hstep
    split at hstep
    · obtain rfl := Option.some.inj hstep
      exact h.unsend hfl
    · split at hstep
      · cases hstep
        exact h.send hfl
      · cases hstep
  | draining =>
    rw [hfl] at hstep
    dsimp only at hstep
    split at hstep
    · obtain rfl := Option.some.inj hstep
      exact h.rest .stopped (by rw [hfl]; exact ⟨rfl, rfl⟩) ⟨rfl, rfl⟩
        nofun
    · cases hstep
  | stopped =>
    rw [hfl] at hstep
    cases hstep

/-! ## Runs -/

theorem inv_resume (cfg : SequencerConfig) (nextSeq prevDigest : Nat) :
    Inv cfg nextSeq (resume cfg nextSeq prevDigest : Sequencer ε) := by
  have hidle : ∀ {β : Type} (f : WorkerPoint ε → List β), f .idle = [] →
      (List.replicate cfg.inflight WorkerPoint.idle).flatMap f = [] := by
    intro β f hf
    refine List.flatMap_eq_nil_iff.mpr fun w hw => ?_
    rw [List.eq_of_mem_replicate hw]
    exact hf
  have hsent : (resume cfg nextSeq prevDigest : Sequencer ε).sent = [] := by
    unfold sent resume
    rw [hidle WorkerPoint.held rfl]
    rfl
  have hheld : (resume cfg nextSeq prevDigest : Sequencer ε).held = [] := by
    unfold held
    rw [hsent]
    rfl
  refine ⟨?_, nofun, nofun, ?_, ?_, ?_, Nat.zero_le _,
    0, ?_⟩
  · rw [hheld]
    refine ⟨le_rfl, le_rfl, ?_, ?_, nofun⟩
    · change [] = List.range' nextSeq (nextSeq - nextSeq)
      rw [Nat.sub_self]
      rfl
    · change List.Perm [] (List.range' nextSeq (nextSeq - nextSeq))
      rw [Nat.sub_self]
      exact .refl _
  · unfold pending
    rw [hheld]
    exact .refl _
  · have hfresh : (resume cfg nextSeq prevDigest : Sequencer ε).fresh = [] := by
      unfold fresh resume
      rw [hidle WorkerPoint.fresh rfl]
      rfl
    have hback : (resume cfg nextSeq prevDigest : Sequencer ε).back = [] := by
      unfold back resume
      rw [hidle WorkerPoint.back rfl]
      rfl
    rw [hfresh, hback]
    exact ⟨List.nodup_nil, nofun, nofun⟩
  · unfold inFlight
    rw [hsent]
    rfl
  · refine ⟨le_rfl, fun _ => rfl, fun q hlo hhi => absurd hhi (Nat.not_lt.mpr hlo), ?_,
      fun t lsn => ?_⟩
    · change [] = if cfg.tee = true then List.map _ (List.take 0 []) else []
      split <;> rfl
    · constructor
      · nofun
      · rintro ⟨d, hd, -⟩
        cases hd

theorem inv_next (s : Sequencer ε) (l : SequencerStep ε) (s' : Sequencer ε) (h : Inv cfg first s)
    (hstep : s.next cfg l = some s') : Inv cfg first s' := by
  unfold next at hstep
  split at hstep
  case h_1 frames gate =>
    split at hstep
    · cases hstep
    · cases hstep
      exact h.append
  case h_2 =>
    cases hstep
    exact ⟨h.chain, h.building, h.keys, h.ledger, h.puts, h.slots, h.limit, h.acks⟩
  case h_3 => exact h.flush hstep
  case h_4 w =>
    split at hstep
    · rename_i hw hq
      cases hstep
      exact h.receive hw hq
    · rename_i hw hq
      split at hstep
      · cases hstep
        exact h.leave hw
      · cases hstep
    · cases hstep
  case h_5 w outcome =>
    split at hstep
    · rename_i hw
      cases hstep
      exact h.put hw
    · cases hstep
  case h_6 w =>
    split at hstep
    · rename_i hw
      cases hstep
      exact h.complete hw
    · cases hstep
  case h_7 w =>
    split at hstep
    · rename_i hw
      cases hstep
      exact h.panic hw
    · cases hstep

/-! ## Tickets and their windows -/

theorem settle_frame (tee : Bool) : ∀ {es : List (Nat × Dispatch × Except ε Unit)} {s : Sequencer ε}
    (hes : es.Pairwise fun a b => a.1 < b.1),
    ∃ nextAck failed poisoned outstanding resolved published,
      ∃ parked : OrdMap Nat (Dispatch × Except ε Unit),
        settle tee s es hes = { s with
          nextAck := nextAck
          failed := failed
          poisoned := poisoned
          outstanding := outstanding
          resolved := resolved
          published := published
          parked := parked }
        ∧ parked.entries.length ≤ es.length
        ∧ ∀ e, parked.entries.head? = some e → e.1 ≠ nextAck := by
  intro es
  induction es with
  | nil =>
    intro s hes
    exact ⟨s.nextAck, s.failed, s.poisoned, s.outstanding, s.resolved, s.published, ⟨[], hes⟩, rfl,
      le_rfl, nofun⟩
  | cons e es ih =>
    intro s hes
    obtain ⟨seq, d, outcome⟩ := e
    unfold settle
    split
    · obtain ⟨a, b, c, o, r, q, parked, heq, hlen, hhead⟩ :=
        ih (s := s.ack tee seq d outcome) (List.pairwise_cons.mp hes).2
      refine ⟨a, b, c, o, r, q, parked, heq.trans ?_, Nat.le_succ_of_le hlen, hhead⟩
      unfold ack
      split
      · rfl
      · split <;> rfl
    · rename_i hne
      refine ⟨s.nextAck, s.failed, s.poisoned, s.outstanding, s.resolved, s.published, _, rfl,
        le_rfl, fun e he => ?_⟩
      cases he
      exact hne

/-- Each ticket is staged once or in one window. -/
structure Placed (s : Sequencer ε) : Prop where
  nodup : (s.windows.flatMap (fun d => d.tickets.map Prod.fst) ++ s.staged).Nodup
  below : ∀ t ∈ s.windows.flatMap (fun d => d.tickets.map Prod.fst) ++ s.staged, t < s.tickets

theorem Placed.perm (h : Placed s) (htickets : s'.tickets = s.tickets)
    (hp : (s'.windows.flatMap (fun d => d.tickets.map Prod.fst) ++ s'.staged).Perm
      (s.windows.flatMap (fun d => d.tickets.map Prod.fst) ++ s.staged)) : Placed s' := by
  refine ⟨hp.nodup_iff.mpr h.nodup, fun t ht => ?_⟩
  rw [htickets]
  exact h.below t (hp.mem_iff.mp ht)

theorem Placed.append (h : Placed s) : Placed (s.append frames gate).1 := by
  unfold Sequencer.append
  split
  · exact h
  · split
    · exact h
    · split
      · exact h
      · split
        · exact h
        · have hp : ∀ lsn, (s.windows.flatMap (fun d => d.tickets.map Prod.fst)
              ++ (((s.batch.getD ⟨[], []⟩).tickets ++ [(s.tickets, lsn)])
                ++ FlusherPoint.staged s.flusher).map Prod.fst).Perm
              (s.tickets :: (s.windows.flatMap (fun d => d.tickets.map Prod.fst) ++ s.staged)) := by
            intro lsn
            refine List.perm_iff_count.mpr fun x => ?_
            unfold staged
            cases hb : s.batch with
            | none =>
              simp only [Option.getD_none, Option.elim_none, List.map_append, List.map_cons,
                List.map_nil, List.nil_append, List.count_append, List.count_cons, List.count_nil]
              omega
            | some b =>
              simp only [Option.getD_some, Option.elim_some, List.map_append, List.map_cons,
                List.map_nil, List.count_append, List.count_cons, List.count_nil]
              omega
          refine ⟨(hp _).nodup_iff.mpr (List.nodup_cons.mpr ⟨fun hmem => ?_, h.nodup⟩), fun t ht => ?_⟩
          · exact Nat.lt_irrefl _ (h.below _ hmem)
          · rcases List.mem_cons.mp ((hp _).mem_iff.mp ht) with rfl | ht
            · exact Nat.lt_succ_self _
            · exact Nat.lt_succ_of_lt (h.below t ht)

theorem Placed.flush (h : Placed s) (hstep : s.flush cfg = some s') : Placed s' := by
  unfold Sequencer.flush at hstep
  cases hfl : s.flusher with
  | idle =>
    rw [hfl] at hstep
    dsimp only at hstep
    split at hstep
    · rename_i hb
      split at hstep
      · obtain rfl := Option.some.inj hstep
        refine h.perm rfl ?_
        unfold staged
        rw [hfl, hb]
        exact .refl _
      · cases hstep
    · rename_i b hb
      split at hstep
      · cases hstep
        have hsub : (s.windows.flatMap (fun d => d.tickets.map Prod.fst)
            ++ staged { s.failAll b.tickets .poisoned with batch := none }).Sublist
            (s.windows.flatMap (fun d => d.tickets.map Prod.fst) ++ s.staged) := by
          refine List.Sublist.append_left (List.Sublist.map _ ?_) _
          exact List.Sublist.append_right (List.nil_sublist _) _
        exact ⟨h.nodup.sublist hsub, fun t ht => h.below t (hsub.subset ht)⟩
      · cases hstep
        refine h.perm rfl ?_
        unfold staged
        rw [hfl, hb]
        dsimp only [Option.elim, FlusherPoint.staged]
        rw [List.nil_append, List.append_nil]
  | building seq prevDigest b =>
    rw [hfl] at hstep
    cases hstep
    refine h.perm rfl ?_
    unfold staged
    rw [hfl]
    refine List.perm_iff_count.mpr fun x => ?_
    simp only [FlusherPoint.staged, List.flatMap_append, List.flatMap_cons, List.flatMap_nil,
      List.map_append, List.append_nil, List.count_append]
    omega
  | closed d =>
    rw [hfl] at hstep
    dsimp only at hstep
    split at hstep
    · cases hstep
    · obtain rfl := Option.some.inj hstep
      refine h.perm rfl ?_
      unfold staged
      rw [hfl]
      exact .refl _
  | admitted d =>
    rw [hfl] at hstep
    dsimp only at hstep
    split at hstep
    · obtain rfl := Option.some.inj hstep
      refine h.perm rfl ?_
      unfold staged
      rw [hfl]
      exact .refl _
    · split at hstep
      · cases hstep
        refine h.perm rfl ?_
        unfold staged
        rw [hfl]
        exact .refl _
      · cases hstep
  | draining =>
    rw [hfl] at hstep
    dsimp only at hstep
    split at hstep
    · obtain rfl := Option.some.inj hstep
      refine h.perm rfl ?_
      unfold staged
      rw [hfl]
      exact .refl _
    · cases hstep
  | stopped =>
    rw [hfl] at hstep
    cases hstep

/-- A step of a worker. -/
def OfWorker : SequencerStep ε → Prop
  | .receive _ => True
  | .put _ _ => True
  | .complete _ => True
  | .panic _ => True
  | _ => False

variable {l : SequencerStep ε}

theorem worker_frame (hl : OfWorker l) (hstep : s.next cfg l = some s') :
    s'.windows = s.windows ∧ s'.batch = s.batch ∧ s'.flusher = s.flusher ∧ s'.tickets = s.tickets
      ∧ s'.nextSeq = s.nextSeq ∧ s'.shutdown = s.shutdown ∧ s'.unsent = s.unsent
      ∧ s'.prevDigest = s.prevDigest := by
  unfold next at hstep
  split at hstep
  case h_1 => exact hl.elim
  case h_2 => exact hl.elim
  case h_3 => exact hl.elim
  case h_4 w =>
    split at hstep
    · cases hstep
      exact ⟨rfl, rfl, rfl, rfl, rfl, rfl, rfl, rfl⟩
    · split at hstep
      · cases hstep
        exact ⟨rfl, rfl, rfl, rfl, rfl, rfl, rfl, rfl⟩
      · cases hstep
    · cases hstep
  case h_5 w outcome =>
    split at hstep
    · cases hstep
      exact ⟨rfl, rfl, rfl, rfl, rfl, rfl, rfl, rfl⟩
    · cases hstep
  case h_6 w =>
    split at hstep
    · cases hstep
      unfold land
      obtain ⟨_, _, _, _, _, _, _, heq, -⟩ := settle_frame cfg.tee
        (s := { s with workers := s.workers.set w .idle }) (OrdMap.sorted _)
      rw [heq]
      exact ⟨rfl, rfl, rfl, rfl, rfl, rfl, rfl, rfl⟩
    · cases hstep
  case h_7 w =>
    split at hstep
    · cases hstep
      exact ⟨rfl, rfl, rfl, rfl, rfl, rfl, rfl, rfl⟩
    · cases hstep

theorem placed_next (s : Sequencer ε) (l : SequencerStep ε) (s' : Sequencer ε) (h : Placed s)
    (hstep : s.next cfg l = some s') : Placed s' := by
  by_cases hl : OfWorker l
  · obtain ⟨h1, h2, h3, h4, -⟩ := worker_frame hl hstep
    refine h.perm h4 ?_
    unfold staged
    rw [h1, h2, h3]
  · unfold next at hstep
    split at hstep
    case h_1 frames gate =>
      split at hstep
      · cases hstep
      · cases hstep
        exact h.append
    case h_2 =>
      cases hstep
      exact ⟨h.nodup, h.below⟩
    case h_3 => exact h.flush hstep
    all_goals exact absurd trivial hl

/-! ## Progress -/

/-- No worker has panicked, and each thread waits only for what is to
come. -/
structure Alive (cfg : SequencerConfig) (s : Sequencer ε) : Prop where
  lost : s.lost = []
  unsent : s.unsent = []
  count : s.workers.length = cfg.inflight
  gone : WorkerPoint.gone ∈ s.workers → s.senderGone = true ∧ s.queue = []
  drained : s.senderGone = true → s.shutdown = true ∧ s.batch = none
  last : ∀ d ∈ FlusherPoint.held s.flusher, d.seq + 1 = s.nextSeq
  blocked : ∀ e, s.parked.entries.head? = some e → e.1 ≠ s.nextAck

theorem Alive.append (h : Alive cfg s) : Alive cfg (s.append frames gate).1 := by
  unfold Sequencer.append
  split
  · exact h
  · rename_i hopen
    split
    · exact h
    · split
      · exact h
      · split
        · exact h
        · refine ⟨h.lost, h.unsent, h.count, h.gone, fun hs => ?_, h.last, h.blocked⟩
          exact absurd (h.drained hs).1 hopen

/-- Where the flusher still sends, no worker is gone. -/
theorem Alive.not_gone (h : Alive cfg s) (hs : s.senderGone = false) : WorkerPoint.gone ∉ s.workers := by
  intro hw
  rw [(h.gone hw).1] at hs
  cases hs

theorem Alive.flush (h : Alive cfg s) (hcfg : 1 ≤ cfg.inflight)
    (hstep : s.flush cfg = some s') : Alive cfg s' := by
  unfold Sequencer.flush at hstep
  cases hfl : s.flusher with
  | idle =>
    have hgone := h.not_gone (by unfold senderGone; rw [hfl])
    rw [hfl] at hstep
    dsimp only at hstep
    split at hstep
    · rename_i hbatch
      split at hstep
      · rename_i hshut
        obtain rfl := Option.some.inj hstep
        exact ⟨h.lost, h.unsent, h.count, fun hw => absurd hw hgone, fun _ => ⟨hshut, hbatch⟩,
          nofun, h.blocked⟩
      · cases hstep
    · rename_i b hbatch
      split at hstep
      · cases hstep
        refine ⟨h.lost, h.unsent, h.count, fun hw => absurd hw hgone, fun hs => ?_, h.last,
          h.blocked⟩
        unfold senderGone failAll at hs
        rw [hfl] at hs
        cases hs
      · cases hstep
        exact ⟨h.lost, h.unsent, h.count, fun hw => absurd hw hgone, nofun,
          nofun, h.blocked⟩
  | building seq prevDigest b =>
    have hgone := h.not_gone (by unfold senderGone; rw [hfl])
    rw [hfl] at hstep
    cases hstep
    refine ⟨h.lost, h.unsent, h.count, fun hw => absurd hw hgone, nofun,
      fun d hd => ?_, h.blocked⟩
    cases List.mem_singleton.mp hd
    rfl
  | closed d =>
    have hgone := h.not_gone (by unfold senderGone; rw [hfl])
    have hlast := h.last
    rw [hfl] at hstep hlast
    dsimp only at hstep
    split at hstep
    · cases hstep
    · obtain rfl := Option.some.inj hstep
      exact ⟨h.lost, h.unsent, h.count, fun hw => absurd hw hgone, nofun, hlast,
        h.blocked⟩
  | admitted d =>
    have hgone := h.not_gone (by unfold senderGone; rw [hfl])
    rw [hfl] at hstep
    dsimp only at hstep
    split at hstep
    · rename_i hall
      have hpos : 0 < s.workers.length := by rw [h.count]; exact hcfg
      obtain ⟨x, hx⟩ := List.exists_mem_of_length_pos hpos
      have hx' := List.all_eq_true.mp hall x hx
      cases x with
      | gone => exact absurd hx hgone
      | idle => cases hx'
      | putting d => cases hx'
      | returned d o => cases hx'
    · split at hstep
      · cases hstep
        exact ⟨h.lost, h.unsent, h.count, fun hw => absurd hw hgone, nofun,
          nofun, h.blocked⟩
      · cases hstep
  | draining =>
    have hs : s.senderGone = true := by unfold senderGone; rw [hfl]
    rw [hfl] at hstep
    dsimp only at hstep
    split at hstep
    · obtain rfl := Option.some.inj hstep
      exact ⟨h.lost, h.unsent, h.count, fun hw => ⟨rfl, (h.gone hw).2⟩, fun _ => h.drained hs,
        nofun, h.blocked⟩
    · cases hstep
  | stopped =>
    rw [hfl] at hstep
    cases hstep

theorem alive_next (hcfg : 1 ≤ cfg.inflight)
    (hl : ∀ w, l ≠ .panic w) (h : Alive cfg s) (hstep : s.next cfg l = some s') : Alive cfg s' := by
  unfold next at hstep
  split at hstep
  case h_1 frames gate =>
    split at hstep
    · cases hstep
    · cases hstep
      exact h.append
  case h_2 =>
    cases hstep
    exact ⟨h.lost, h.unsent, h.count, h.gone, fun hs => ⟨rfl, (h.drained hs).2⟩, h.last, h.blocked⟩
  case h_3 => exact h.flush hcfg hstep
  case h_4 w =>
    split at hstep
    · rename_i d queue hw hq
      cases hstep
      refine ⟨h.lost, h.unsent, (List.length_set ..).trans h.count, fun hgone => ?_, h.drained, h.last,
        h.blocked⟩
      rcases List.mem_or_eq_of_mem_set hgone with hgone | hgone
      · have hnil := (h.gone hgone).2
        rw [hq] at hnil
        cases hnil
      · cases hgone
    · rename_i hw hq
      split at hstep
      · rename_i hs
        cases hstep
        exact ⟨h.lost, h.unsent, (List.length_set ..).trans h.count, fun _ => ⟨hs, hq⟩, h.drained,
          h.last, h.blocked⟩
      · cases hstep
    · cases hstep
  case h_5 w outcome =>
    split at hstep
    · cases hstep
      refine ⟨h.lost, h.unsent, (List.length_set ..).trans h.count, fun hgone => h.gone ?_, h.drained,
        h.last, h.blocked⟩
      exact (List.mem_or_eq_of_mem_set hgone).resolve_right nofun
    · cases hstep
  case h_6 w =>
    split at hstep
    · cases hstep
      unfold land
      obtain ⟨_, _, _, _, _, _, _, heq, -, hhead⟩ := settle_frame cfg.tee
        (s := { s with workers := s.workers.set w .idle }) (OrdMap.sorted _)
      rw [heq]
      refine ⟨h.lost, h.unsent, (List.length_set ..).trans h.count, fun hgone => h.gone ?_, h.drained,
        h.last, hhead⟩
      exact (List.mem_or_eq_of_mem_set hgone).resolve_right nofun
    · cases hstep
  case h_7 w => exact absurd rfl (hl w)

/-- A step of the threads, none of which panics. -/
def Internal : SequencerStep ε → Prop
  | .flush => True
  | .receive _ => True
  | .put _ _ => True
  | .complete _ => True
  | _ => False

/-- No thread can move. -/
def Stuck (cfg : SequencerConfig) (s : Sequencer ε) : Prop := ∀ l, Internal l → s.next cfg l = none

theorem Stuck.workers (h : Stuck cfg s) : ∀ x ∈ s.workers, x = .idle ∨ x = .gone := by
  intro x hx
  obtain ⟨w, hw⟩ := List.mem_iff_getElem?.mp hx
  cases x with
  | idle => exact .inl rfl
  | gone => exact .inr rfl
  | putting d =>
    have hnone := h (.put w (.ok ())) trivial
    dsimp only [next] at hnone
    rw [hw] at hnone
    cases hnone
  | returned d outcome =>
    have hnone := h (.complete w) trivial
    dsimp only [next] at hnone
    rw [hw] at hnone
    cases hnone

theorem Stuck.queue (h : Stuck cfg s) (halive : Alive cfg s) (hcfg : 1 ≤ cfg.inflight) :
    s.queue = [] := by
  have hpos : 0 < s.workers.length := by rw [halive.count]; exact hcfg
  obtain ⟨x, hx⟩ := List.exists_mem_of_length_pos hpos
  rcases h.workers x hx with rfl | rfl
  · obtain ⟨w, hw⟩ := List.mem_iff_getElem?.mp hx
    cases hq : s.queue with
    | nil => rfl
    | cons d queue =>
      have hnone := h (.receive w) trivial
      dsimp only [next] at hnone
      rw [hw, hq] at hnone
      cases hnone
  · exact (halive.gone hx).2

theorem Stuck.sent (h : Stuck cfg s) (halive : Alive cfg s) (hcfg : 1 ≤ cfg.inflight) :
    s.sent = s.parked.entries.map (·.2.1) := by
  have hworkers : s.workers.flatMap WorkerPoint.held = [] := by
    refine List.flatMap_eq_nil_iff.mpr fun x hx => ?_
    rcases h.workers x hx with rfl | rfl <;> rfl
  unfold Sequencer.sent
  rw [h.queue halive hcfg, hworkers, halive.lost, List.append_nil]
  rfl

theorem Alive.next_not_parked (halive : Alive cfg s) (hinv : Inv cfg first s) {x : Dispatch}
    (hx : x ∈ s.parked.entries.map (·.2.1)) : x.seq ≠ s.nextAck := by
  obtain ⟨e, he, rfl⟩ := List.mem_map.mp hx
  intro hseq
  have hkey := hinv.keys e he
  cases hes : s.parked.entries with
  | nil =>
    rw [hes] at he
    cases he
  | cons f es =>
    have hf : f ∈ s.parked.entries := by rw [hes]; exact List.mem_cons_self
    have hne := halive.blocked f (by rw [hes]; rfl)
    have hlow : s.nextAck ≤ f.2.1.seq := by
      refine (hinv.chain.seq_mem ?_).1
      unfold held Sequencer.sent
      exact List.mem_append_right _ (List.mem_append_left _
        (List.mem_append_right _ (List.mem_map.mpr ⟨f, hf, rfl⟩)))
    have hle : f.1 ≤ e.1 := by
      have hsorted := s.parked.sorted
      rw [hes] at hsorted he
      rcases List.mem_cons.mp he with rfl | he
      · exact le_rfl
      · exact Nat.le_of_lt ((List.pairwise_cons.mp hsorted).1 e he)
    rw [← hinv.keys f hf] at hlow
    omega

theorem Stuck.pending (h : Stuck cfg s) (halive : Alive cfg s) (hinv : Inv cfg first s)
    (hcfg : 1 ≤ cfg.inflight) : s.pending = [] := by
  have hsent := h.sent halive hcfg
  have hflush : s.flush cfg = none := h .flush trivial
  have hslots := hinv.slots
  have hseqs := hinv.chain.seqs
  rw [halive.unsent, List.append_nil] at hseqs
  -- A window that is parked waits for the next, which is elsewhere.
  have hparked : FlusherPoint.held s.flusher = [] → s.parked.entries.map (·.2.1) = [] := by
    intro hfl
    have hheld : s.held = s.parked.entries.map (·.2.1) := by
      unfold held
      rw [hfl, hsent]
      rfl
    cases hp : s.parked.entries.map (·.2.1) with
    | nil => rfl
    | cons x xs =>
      have hx : x ∈ s.held := by rw [hheld, hp]; exact List.mem_cons_self
      have hlt := hinv.chain.seq_mem hx
      have hmem : s.nextAck ∈ s.held.map Dispatch.seq :=
        hseqs.mem_iff.mpr (List.mem_range'_1.mpr (by omega))
      obtain ⟨y, hy, hseq⟩ := List.mem_map.mp hmem
      rw [hheld] at hy
      exact absurd hseq (halive.next_not_parked hinv hy)
  unfold Sequencer.flush at hflush
  cases hfl : s.flusher with
  | idle =>
    rw [hfl] at hflush
    dsimp only at hflush
    split at hflush
    · rename_i hb
      unfold Sequencer.pending staged held
      rw [hsent, hparked (by rw [hfl]; rfl), hb, hfl]
      rfl
    · split at hflush <;> cases hflush
  | building seq prevDigest b =>
    rw [hfl] at hflush
    cases hflush
  | closed d =>
    exfalso
    rw [hfl] at hflush
    dsimp only at hflush
    split at hflush
    · rename_i hfull
      -- The window in the flusher's hands is the last, so the next is parked.
      have hheld : s.held = d :: s.parked.entries.map (·.2.1) := by
        unfold held
        rw [hfl, hsent]
        rfl
      have hlen : s.outstanding = (s.parked.entries.map (·.2.1)).length := by
        rw [hslots]
        unfold inFlight
        rw [hfl, hsent]
        rfl
      have hlast : d.seq + 1 = s.nextSeq :=
        halive.last d (by rw [hfl]; exact List.mem_singleton.mpr rfl)
      have htotal := hseqs.length_eq
      rw [hheld, List.length_map, List.length_range', List.length_cons] at htotal
      have hmem : s.nextAck ∈ s.held.map Dispatch.seq :=
        hseqs.mem_iff.mpr (List.mem_range'_1.mpr (by omega))
      obtain ⟨y, hy, hseq⟩ := List.mem_map.mp hmem
      rw [hheld] at hy
      rcases List.mem_cons.mp hy with rfl | hy
      · omega
      · exact halive.next_not_parked hinv hy hseq
    · cases hflush
  | admitted d =>
    exfalso
    rw [hfl] at hflush
    dsimp only at hflush
    split at hflush
    · cases hflush
    · split at hflush
      · cases hflush
      · rename_i hfull
        rw [h.queue halive hcfg] at hfull
        exact hfull hcfg
  | draining =>
    have hb := (halive.drained (by unfold senderGone; rw [hfl])).2
    unfold Sequencer.pending staged held
    rw [hsent, hparked (by rw [hfl]; rfl), hb, hfl]
    rfl
  | stopped =>
    have hb := (halive.drained (by unfold senderGone; rw [hfl])).2
    unfold Sequencer.pending staged held
    rw [hsent, hparked (by rw [hfl]; rfl), hb, hfl]
    rfl

/-- How many steps a window is from its resolution, in the flusher's hands
and in a worker's. -/
def FlusherPoint.work : FlusherPoint → Nat
  | .building _ _ _ => 9
  | .closed _ => 8
  | .admitted _ => 7
  | .idle => 2
  | .draining => 1
  | .stopped => 0

def WorkerPoint.work : WorkerPoint ε → Nat
  | .putting _ => 4
  | .returned _ _ => 3
  | .idle => 1
  | .gone => 0

/-- A bound on the steps the threads have left. -/
def work (s : Sequencer ε) : Nat :=
  s.batch.elim 0 (fun _ => 9) + FlusherPoint.work s.flusher + 4 * s.queue.length
    + (s.workers.map WorkerPoint.work).sum + s.parked.entries.length

theorem set_sum {l : List (WorkerPoint ε)} (h : l[w]? = some p) (b : WorkerPoint ε) :
    ((l.set w b).map WorkerPoint.work).sum + WorkerPoint.work p
      = (l.map WorkerPoint.work).sum + WorkerPoint.work b := by
  obtain ⟨l₁, l₂, hl, hset⟩ := exists_split h
  rw [hset, hl]
  simp only [List.map_append, List.map_cons, List.sum_append, List.sum_cons]
  omega

theorem flush_work (hstep : s.flush cfg = some s') : s'.work < s.work := by
  unfold Sequencer.flush at hstep
  cases hfl : s.flusher with
  | idle =>
    rw [hfl] at hstep
    dsimp only at hstep
    split at hstep
    · split at hstep
      · obtain rfl := Option.some.inj hstep
        unfold work
        rw [hfl]
        dsimp only [FlusherPoint.work]
        omega
      · cases hstep
    · rename_i b hb
      split at hstep
      · cases hstep
        unfold work failAll
        rw [hb]
        dsimp only [Option.elim]
        omega
      · cases hstep
        unfold work
        rw [hfl, hb]
        dsimp only [Option.elim, FlusherPoint.work]
        omega
  | building seq prevDigest b =>
    rw [hfl] at hstep
    cases hstep
    unfold work
    rw [hfl]
    dsimp only [FlusherPoint.work]
    omega
  | closed d =>
    rw [hfl] at hstep
    dsimp only at hstep
    split at hstep
    · cases hstep
    · obtain rfl := Option.some.inj hstep
      unfold work
      rw [hfl]
      dsimp only [FlusherPoint.work]
      omega
  | admitted d =>
    rw [hfl] at hstep
    dsimp only at hstep
    split at hstep
    · obtain rfl := Option.some.inj hstep
      unfold work failAll
      rw [hfl]
      dsimp only [FlusherPoint.work]
      omega
    · split at hstep
      · cases hstep
        unfold work
        rw [hfl, List.length_append]
        dsimp only [FlusherPoint.work, List.length_singleton]
        omega
      · cases hstep
  | draining =>
    rw [hfl] at hstep
    dsimp only at hstep
    split at hstep
    · obtain rfl := Option.some.inj hstep
      unfold work
      rw [hfl]
      dsimp only [FlusherPoint.work]
      omega
    · cases hstep
  | stopped =>
    rw [hfl] at hstep
    cases hstep

theorem work_next (hl : Internal l) (hstep : s.next cfg l = some s') : s'.work < s.work := by
  unfold next at hstep
  split at hstep
  case h_1 => exact hl.elim
  case h_2 => exact hl.elim
  case h_3 => exact flush_work hstep
  case h_4 w =>
    split at hstep
    · rename_i d queue hw hq
      cases hstep
      have hsum := set_sum hw (.putting d)
      unfold work
      rw [hq, List.length_cons]
      dsimp only [WorkerPoint.work] at hsum ⊢
      omega
    · rename_i hw hq
      split at hstep
      · cases hstep
        have hsum := set_sum hw .gone
        unfold work
        dsimp only [WorkerPoint.work] at hsum ⊢
        omega
      · cases hstep
    · cases hstep
  case h_5 w outcome =>
    split at hstep
    · rename_i d hw
      cases hstep
      have hsum := set_sum hw (.returned d outcome)
      unfold work
      dsimp only [WorkerPoint.work] at hsum ⊢
      omega
    · cases hstep
  case h_6 w =>
    split at hstep
    · rename_i d outcome hw
      cases hstep
      have hsum := set_sum hw .idle
      unfold land
      obtain ⟨_, _, _, _, _, _, parked, heq, hlen, -⟩ := settle_frame cfg.tee
        (s := { s with workers := s.workers.set w .idle })
        (s.parked.insert d.seq (d, outcome)).sorted
      have hins : (s.parked.insert d.seq (d, outcome)).entries.length ≤ s.parked.entries.length + 1 :=
        OrdMap.insertList_length_le _
      rw [heq]
      unfold work
      dsimp only [WorkerPoint.work] at hsum ⊢
      omega
    · cases hstep
  case h_7 => exact hl.elim

theorem run_work : ∀ {ls : List (SequencerStep ε)} {s s' : Sequencer ε}, (∀ l ∈ ls, Internal l) →
    Trace.run (next cfg) s ls = some s' → ls.length + s'.work ≤ s.work := by
  intro ls
  induction ls with
  | nil =>
    intro s s' _ hrun
    cases hrun
    exact Nat.le_of_eq (Nat.zero_add _)
  | cons l ls ih =>
    intro s s' hl hrun
    obtain ⟨s₁, h1, h2⟩ := Trace.run_cons_some hrun
    have hrest := ih (fun l hm => hl l (.tail _ hm)) h2
    have hlt := work_next (hl l List.mem_cons_self) h1
    rw [List.length_cons]
    omega

theorem alive_run (hcfg : 1 ≤ cfg.inflight) : ∀ {ls : List (SequencerStep ε)} {s s' : Sequencer ε},
    (∀ w, SequencerStep.panic w ∉ ls) → Alive cfg s → Trace.run (next cfg) s ls = some s' →
      Alive cfg s' := by
  intro ls
  induction ls with
  | nil =>
    intro s s' _ h hrun
    cases hrun
    exact h
  | cons l ls ih =>
    intro s s' hl h hrun
    obtain ⟨s₁, h1, h2⟩ := Trace.run_cons_some hrun
    refine ih (fun w hm => hl w (.tail _ hm)) (alive_next hcfg ?_ h h1) h2
    rintro w rfl
    exact hl w List.mem_cons_self

theorem alive_resume (cfg : SequencerConfig) (nextSeq prevDigest : Nat) :
    Alive cfg (resume cfg nextSeq prevDigest : Sequencer ε) where
  lost := rfl
  unsent := rfl
  count := List.length_replicate
  gone hw := by cases List.eq_of_mem_replicate hw
  drained hs := by cases hs
  last d hd := by cases hd
  blocked e he := by cases he

end Steps

/-! ## Ordered group commit -/

/-- In every run of the sequencer, whatever is appended, however the puts
come out and in whatever order the workers complete them: a ticket that
resolves well is of a window up to which every window was put well, so none
from a failed put on does; every ticket resolves at most once; the tee has
exactly the windows whose tickets resolved well, in order; and no more
windows have a slot than the limit. Where no worker panics the threads,
left to themselves, stop, and then every ticket is resolved. -/
theorem group_commit {cfg : SequencerConfig} {first prevDigest : Nat} {ls : List (SequencerStep ε)}
    {s : Sequencer ε} (hcfg : 1 ≤ cfg.inflight ∧ cfg.inflight ≤ maxInflight)
    (hrun : Trace.run (next cfg) (resume cfg first prevDigest) ls = some s) :
    s.windows.map Dispatch.seq = List.range' first s.windows.length
      ∧ (∀ t lsn, (t, .ok lsn) ∈ s.resolved → ∃ d ∈ s.windows, (t, lsn) ∈ d.tickets
          ∧ ∀ q, first ≤ q → q ≤ d.seq → (q, true) ∈ s.puts)
      ∧ (∀ f, (f, false) ∈ s.puts → ∀ d ∈ s.windows, f ≤ d.seq → ∀ t ∈ d.tickets, ∀ lsn,
          (t.1, .ok lsn) ∉ s.resolved)
      ∧ (s.resolved.map Prod.fst).Nodup ∧ (∀ r ∈ s.resolved, r.1 < s.tickets)
      ∧ (∃ n, s.published
            = (if cfg.tee then (s.windows.take n).map fun d => (d.seq, d.frames) else [])
          ∧ ∀ t lsn, (t, .ok lsn) ∈ s.resolved ↔ ∃ d ∈ s.windows.take n, (t, lsn) ∈ d.tickets)
      ∧ s.outstanding = s.inFlight.length ∧ s.inFlight.length ≤ cfg.inflight
      ∧ ((∀ w, SequencerStep.panic w ∉ ls) → ∀ ls' s', (∀ l ∈ ls', Internal l) →
          Trace.run (next cfg) s ls' = some s' → ls'.length ≤ s.work
            ∧ (Stuck cfg s' → ∀ t < s'.tickets, ∃ r, (t, r) ∈ s'.resolved)) := by
  have h : Inv cfg first s := Trace.run_invariant inv_next (inv_resume cfg first prevDigest) hrun
  have hstart : Placed (resume cfg first prevDigest : Sequencer ε) :=
    ⟨List.nodup_nil, nofun⟩
  have hplaced : Placed s := Trace.run_invariant placed_next hstart hrun
  obtain ⟨n, hacks⟩ := h.acks
  have hnumbered := h.chain.numbered
  rw [← h.chain.length] at hnumbered
  have hnodup : (s.resolved.map Prod.fst ++ s.pending).Nodup :=
    h.ledger.nodup_iff.mpr List.nodup_range
  have hseq : ∀ d ∈ s.windows.take n, d.seq < first + n := by
    intro d hd
    obtain ⟨i, hi⟩ := List.mem_iff_getElem?.mp hd
    rw [List.getElem?_take] at hi
    split at hi
    · rename_i hlt
      rw [h.chain.seq_eq hi]
      omega
    · cases hi
  refine ⟨hnumbered, fun t lsn ht => ?_, fun f hf d hd hle t ht lsn hok => ?_,
    (List.nodup_append.mp hnodup).1, fun r hr => ?_, ⟨n, hacks.teed, hacks.acked⟩, h.slots,
    h.slots ▸ h.limit, fun hpanic ls' s' hls hrun' => ⟨?_, fun hstuck t ht => ?_⟩⟩
  · obtain ⟨d, hd, hmem⟩ := (hacks.acked t lsn).mp ht
    refine ⟨d, List.mem_of_mem_take hd, hmem, fun q hlo hhi => hacks.landed q hlo ?_⟩
    exact Nat.lt_of_le_of_lt hhi (hseq d hd)
  · -- The ticket is in one window only, and that one is before the failed put.
    obtain ⟨d', hd', ht'⟩ := (hacks.acked t.1 lsn).mp hok
    have hsame : d = d' := by
      by_contra hne
      have hpair := (List.nodup_flatMap.mp (List.nodup_append.mp hplaced.nodup).1).2
      have : Std.Symm (Function.onFun List.Disjoint fun d : Dispatch => d.tickets.map Prod.fst) :=
        ⟨fun a b hab => hab.symm⟩
      have hdisj := hpair.forall hd (List.mem_of_mem_take hd') hne
      exact hdisj (List.mem_map_of_mem ht) (List.mem_map.mpr ⟨_, ht', rfl⟩)
    subst hsame
    have hput : f ∈ s.puts.map Prod.fst := List.mem_map.mpr ⟨_, hf, rfl⟩
    have hlow := (h.puts.within f (List.mem_append_left _ hput)).1
    have hlanded := hacks.landed f hlow (Nat.lt_of_le_of_lt hle (hseq d hd'))
    have heq := List.inj_on_of_nodup_map (List.nodup_append.mp h.puts.nodup).1 hf hlanded rfl
    cases heq
  · have hmem := h.ledger.mem_iff.mp (List.mem_append_left _ (List.mem_map_of_mem hr))
    exact List.mem_range.mp hmem
  · have hwork := run_work hls hrun'
    omega
  · have halive : Alive cfg s := alive_run hcfg.1 hpanic (alive_resume cfg first prevDigest) hrun
    have halive' : Alive cfg s' := by
      refine alive_run hcfg.1 (fun w hw => ?_) halive hrun'
      exact hls _ hw
    have hinv : Inv cfg first s' := Trace.run_invariant inv_next h hrun'
    have hmem : t ∈ s'.resolved.map Prod.fst ++ s'.pending :=
      hinv.ledger.mem_iff.mpr (List.mem_range.mpr ht)
    rw [hstuck.pending halive' hinv hcfg.1, List.append_nil] at hmem
    obtain ⟨⟨t', r⟩, hr, rfl⟩ := List.mem_map.mp hmem
    exact ⟨r, hr⟩

def sampleConfig : SequencerConfig := ⟨0, 2, true, fun _ => 0⟩

def sampleFrame (startLsn endLsn : Lsn) : LogFrame := ⟨7, 1, startLsn, endLsn, []⟩

/-- Two windows, the second put first; then the put of the first fails. -/
def overtaken : List (SequencerStep Unit) :=
  [.append [sampleFrame 0 8] fun _ => none, .flush, .flush, .flush, .flush,
    .append [sampleFrame 8 16] fun _ => none, .flush, .flush, .flush, .flush,
    .receive 0, .receive 1, .put 1 (.ok ()), .complete 1, .put 0 (.error ()), .complete 0]

theorem group_commit_overtaken :
    ∃ s : Sequencer Unit, Trace.run (next sampleConfig) (resume sampleConfig 1 0) overtaken = some s
      ∧ s.resolved = [(0, .error (.store ())), (1, .error .poisoned)]
      ∧ s.puts = [(2, true), (1, false)] ∧ s.inFlight.length ≤ 2
      ∧ (s.resolved.map Prod.fst).Nodup := by
  have hrun : (Trace.run (next sampleConfig) (resume sampleConfig 1 0 : Sequencer Unit)
      overtaken).any (fun s => decide (s.resolved = [(0, .error (.store ())), (1, .error .poisoned)]
        ∧ s.puts = [(2, true), (1, false)])) = true := by
    decide +kernel
  obtain ⟨s, hs, hproj⟩ := (Option.any_eq_true _ _).mp hrun
  rw [decide_eq_true_eq] at hproj
  obtain ⟨-, -, -, hnodup, -, -, -, hlimit, -⟩ := group_commit ⟨by decide, by decide⟩ hs
  exact ⟨s, hs, hproj.1, hproj.2, hlimit, hnodup⟩

end Sequencer

end Zou
