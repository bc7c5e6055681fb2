import Zou.Lib.OrdMap
import Zou.ShardManifest

/-!
# The memtable

The mutable top of the layer store: records under `(key, lsn)`, in that
order. An insert at an occupied place is the same record coming around
again, so the last write wins and the byte count stays honest.
-/

namespace Zou

/-- One WAL record addressed to one key. -/
structure DeltaEntry where
  key : LayerKey
  lsn : Lsn
  record : List UInt8
  deriving DecidableEq, Repr

structure Memtable where
  entries : OrdMap (LayerKey ×ₗ Lsn) (List UInt8)
  bytes : Nat
  lsns : Option (Lsn × Lsn)

namespace Memtable

def new : Memtable := ⟨OrdMap.empty, 0, none⟩

def insert (m : Memtable) (key : LayerKey) (lsn : Lsn) (record : List UInt8) : Memtable where
  entries := m.entries.insert (toLex (key, lsn)) record
  bytes := m.bytes + record.length - ((m.entries.get? (toLex (key, lsn))).map List.length).getD 0
  lsns := some (m.lsns.elim (lsn, lsn) fun (lo, hi) => (min lo lsn, max hi lsn))

def isEmpty (m : Memtable) : Bool := m.entries.entries.isEmpty

/-- Every entry in flush order. -/
def iter (m : Memtable) : List DeltaEntry :=
  m.entries.entries.map fun e => ⟨(ofLex e.1).1, (ofLex e.1).2, e.2⟩

/-- Records for one key with lsn in `(floor, upto]`, ascending. -/
def recordsFor (m : Memtable) (key : LayerKey) (floor upto : Lsn) : List (Lsn × List UInt8) :=
  (m.iter.filter fun e => e.key = key ∧ floor < e.lsn ∧ e.lsn ≤ upto).map
    fun e => (e.lsn, e.record)

/-- The records for a few keys, as a table of their own. -/
def subset (m : Memtable) (keys : List LayerKey) (upto : Lsn) : Memtable :=
  keys.foldl (fun out key =>
    (m.recordsFor key 0 upto).foldl (fun out r => out.insert key r.1 r.2) out) new

/-- Everything, leaving the table empty. -/
def drainSorted (m : Memtable) : List DeltaEntry × Memtable := (m.iter, new)

/-! ## What a table holds -/

variable {m : Memtable} {e : DeltaEntry}

theorem mem_iter :
    e ∈ m.iter ↔ (toLex (e.key, e.lsn), e.record) ∈ m.entries.entries := by
  unfold iter
  rw [List.mem_map]
  constructor
  · rintro ⟨⟨k, r⟩, hmem, rfl⟩
    exact hmem
  · intro h
    exact ⟨_, h, rfl⟩

variable {key : LayerKey}

theorem mem_iter_insert {lsn : Lsn} {record : List UInt8} : e ∈ (m.insert key lsn record).iter
      ↔ e = ⟨key, lsn, record⟩ ∨ (¬ (e.key = key ∧ e.lsn = lsn) ∧ e ∈ m.iter) := by
  rw [mem_iter, mem_iter]
  unfold insert
  rw [OrdMap.mem_insert]
  obtain ⟨k, l, r⟩ := e
  simp [and_assoc]

theorem record_unique {e' : DeltaEntry} (h : e ∈ m.iter) (h' : e' ∈ m.iter)
    (hk : e.key = e'.key) (hl : e.lsn = e'.lsn) : e = e' := by
  obtain ⟨k, l, r⟩ := e
  obtain ⟨k', l', r'⟩ := e'
  obtain rfl : k = k' := hk
  obtain rfl : l = l' := hl
  have h1 : (toLex (k, l), r) ∈ m.entries.entries := mem_iter.mp h
  have h2 : (toLex (k, l), r') ∈ m.entries.entries := mem_iter.mp h'
  rw [OrdMap.value_unique h1 h2]

theorem iter_pairwise (m : Memtable) :
    m.iter.Pairwise fun a b => toLex (a.key, a.lsn) < toLex (b.key, b.lsn) := by
  unfold iter
  rw [List.pairwise_map]
  exact m.entries.sorted

theorem iter_filter (h : e ∈ m.iter) :
    (m.iter.filter fun e' => e'.key = e.key ∧ e'.lsn = e.lsn) = [e] := by
  have hnd : (m.iter.filter fun e' => e'.key = e.key ∧ e'.lsn = e.lsn).Nodup := by
    refine List.Pairwise.filter _ ((iter_pairwise m).imp ?_)
    rintro a b hlt rfl
    exact lt_irrefl _ hlt
  have hall : ∀ e' ∈ m.iter.filter (fun e' => e'.key = e.key ∧ e'.lsn = e.lsn), e' = e := by
    intro e' he'
    obtain ⟨hmem, hplace⟩ := List.mem_filter.mp he'
    rw [decide_eq_true_eq] at hplace
    exact record_unique hmem h hplace.1 hplace.2
  have hself : e ∈ m.iter.filter fun e' => e'.key = e.key ∧ e'.lsn = e.lsn :=
    List.mem_filter.mpr ⟨h, by simp⟩
  generalize m.iter.filter (fun e' => e'.key = e.key ∧ e'.lsn = e.lsn) = l at *
  match l, hnd, hall, hself with
  | [x], _, hall, _ => rw [hall x (List.mem_singleton.mpr rfl)]
  | x :: y :: l, hnd, hall, _ =>
    have hx := hall x List.mem_cons_self
    have hy := hall y (.tail _ List.mem_cons_self)
    rw [hx, hy] at hnd
    exact absurd List.mem_cons_self (List.nodup_cons.mp hnd).1

/-- Several inserts in order. -/
def insertAll (m : Memtable) (ws : List DeltaEntry) : Memtable :=
  ws.foldl (fun m w => m.insert w.key w.lsn w.record) m

theorem insertAll_append (m : Memtable) (ws ws' : List DeltaEntry) :
    m.insertAll (ws ++ ws') = (m.insertAll ws).insertAll ws' := List.foldl_append ..

variable {ws : List DeltaEntry}

theorem of_mem_insertAll :
    ∀ {m : Memtable}, e ∈ (m.insertAll ws).iter → e ∈ m.iter ∨ e ∈ ws := by
  induction ws with
  | nil => exact fun h => .inl h
  | cons w ws ih =>
    intro m h
    rcases ih h with h | h
    · rcases mem_iter_insert.mp h with rfl | ⟨-, h⟩
      · exact .inr List.mem_cons_self
      · exact .inl h
    · exact .inr (.tail _ h)

theorem mem_insertAll_of_mem :
    ∀ {m : Memtable}, e ∈ m.iter → (∀ w ∈ ws, ¬ (e.key = w.key ∧ e.lsn = w.lsn)) →
      e ∈ (m.insertAll ws).iter := by
  induction ws with
  | nil => exact fun h _ => h
  | cons w ws ih =>
    intro m h hws
    refine ih (mem_iter_insert.mpr (.inr ⟨hws w List.mem_cons_self, h⟩)) ?_
    exact fun w' hw' => hws w' (.tail _ hw')

theorem place_insertAll {lsn : Lsn} :
    ∀ {m : Memtable}, (∃ e, (e ∈ m.iter ∨ e ∈ ws) ∧ e.key = key ∧ e.lsn = lsn) →
      ∃ e ∈ (m.insertAll ws).iter, e.key = key ∧ e.lsn = lsn := by
  induction ws with
  | nil =>
    rintro m ⟨e, h | h, hplace⟩
    · exact ⟨e, h, hplace⟩
    · cases h
  | cons w ws ih =>
    rintro m ⟨e, h, rfl, rfl⟩
    refine ih ?_
    by_cases hsame : e.key = w.key ∧ e.lsn = w.lsn
    · exact ⟨w, .inl (mem_iter_insert.mpr (.inl rfl)), hsame.1.symm, hsame.2.symm⟩
    · refine ⟨e, ?_, rfl, rfl⟩
      rcases h with h | h
      · exact .inl (mem_iter_insert.mpr (.inr ⟨hsame, h⟩))
      · rcases List.mem_cons.mp h with rfl | h
        · exact absurd ⟨rfl, rfl⟩ hsame
        · exact .inr h

theorem mem_recordsFor {floor upto lsn : Lsn} {record : List UInt8} :
    (lsn, record) ∈ m.recordsFor key floor upto
      ↔ (⟨key, lsn, record⟩ : DeltaEntry) ∈ m.iter ∧ floor < lsn ∧ lsn ≤ upto := by
  unfold recordsFor
  rw [List.mem_map]
  constructor
  · rintro ⟨⟨k, l, r⟩, hmem, heq⟩
    cases heq
    rw [List.mem_filter, decide_eq_true_eq] at hmem
    obtain ⟨hmem, rfl, hlo, hhi⟩ := hmem
    exact ⟨hmem, hlo, hhi⟩
  · rintro ⟨hmem, hlo, hhi⟩
    exact ⟨_, List.mem_filter.mpr ⟨hmem, by simp [hlo, hhi]⟩, rfl⟩

theorem subset_eq (m : Memtable) (keys : List LayerKey) (upto : Lsn) :
    m.subset keys upto = new.insertAll (keys.flatMap fun key =>
      (m.recordsFor key 0 upto).map fun r => ⟨key, r.1, r.2⟩) := by
  unfold subset insertAll
  rw [List.foldl_flatMap]
  simp only [List.foldl_map]

theorem mem_subset {keys : List LayerKey} {upto : Lsn} (he : e ∈ m.iter) (hkey : e.key ∈ keys)
    (hpos : 0 < e.lsn) (hle : e.lsn ≤ upto) : e ∈ (m.subset keys upto).iter := by
  rw [subset_eq]
  generalize hws : (keys.flatMap fun key =>
    (m.recordsFor key 0 upto).map fun r => (⟨key, r.1, r.2⟩ : DeltaEntry)) = ws
  have hfrom : ∀ w ∈ ws, w ∈ m.iter := by
    intro w hw
    rw [← hws, List.mem_flatMap] at hw
    obtain ⟨key, -, hw⟩ := hw
    obtain ⟨⟨lsn, record⟩, hr, rfl⟩ := List.mem_map.mp hw
    exact (mem_recordsFor.mp hr).1
  have hin : e ∈ ws := by
    rw [← hws, List.mem_flatMap]
    exact ⟨e.key, hkey, List.mem_map.mpr ⟨(e.lsn, e.record), mem_recordsFor.mpr ⟨he, hpos, hle⟩,
      rfl⟩⟩
  obtain ⟨e', he', hk, hl⟩ := place_insertAll (m := new) ⟨e, .inr hin, rfl, rfl⟩
  rcases of_mem_insertAll he' with hnil | hmem
  · cases hnil
  · obtain rfl := record_unique (hfrom e' hmem) he hk hl
    exact he'

end Memtable

end Zou
