import Zou.PageRead

/-!
# The block cache over its runs

The cache of a reader as bytes: the map, the recency stamps and the byte
counter, which `put`, `evict` and `retain_named` change each on its own.
Over every history of operations the counter is the bytes held and within
the budget, what is held under a key is what was put there last, and an
eviction drops what was used longest ago first. A block over the whole
budget is not taken, so what was held under its key stays.

The cache the reader's model works with is this one with every stored block
in place of its bytes.
-/

namespace Zou

namespace BlockBytes

structure Cached where
  bytes : List UInt8
  used : Nat
  deriving DecidableEq, Repr

/-- Block bytes by layer name and offset, under a byte budget. -/
structure BlockCache (N : Type) where
  blocks : List ((N × Nat) × Cached)
  bytes : Nat
  budget : Nat
  clock : Nat

variable {N : Type}

namespace BlockCache

/-- The bytes of some entries. -/
def total (es : List ((N × Nat) × Cached)) : Nat :=
  es.foldr (fun e n => e.2.bytes.length + n) 0

variable [DecidableEq N]

def new (budget : Nat) : BlockCache N := ⟨[], 0, budget, 0⟩

def get (c : BlockCache N) (name : N) (offset : Nat) : Option (List UInt8) × BlockCache N :=
  match c.blocks.lookup (name, offset) with
  | none => (none, { c with clock := c.clock + 1 })
  | some e =>
    (some e.bytes, { c with
      clock := c.clock + 1
      blocks := ((name, offset), ⟨e.bytes, c.clock + 1⟩)
        :: c.blocks.filter fun x => x.1 ≠ (name, offset) })

/-- Drop the oldest of these until the target is met. -/
def evictLoop (target : Nat) : List ((N × Nat) × Cached) → BlockCache N → BlockCache N
  | [], c => c
  | e :: es, c =>
    if c.bytes ≤ target then c
    else evictLoop target es { c with
      blocks := c.blocks.filter fun x => x.1 ≠ e.1
      bytes := c.bytes - e.2.bytes.length }

/-- Least recently used first, down to three quarters of the budget. -/
def evict (c : BlockCache N) : BlockCache N :=
  evictLoop (c.budget - c.budget / 4) (c.blocks.insertionSort fun a b => a.2.used ≤ b.2.used) c

/-- The cache with a block put in, before it is brought back under budget. -/
def insert (c : BlockCache N) (name : N) (offset : Nat) (bytes : List UInt8) : BlockCache N :=
  let old := ((c.blocks.lookup (name, offset)).map fun e => e.bytes.length).getD 0
  { c with
    clock := c.clock + 1
    blocks := ((name, offset), ⟨bytes, c.clock + 1⟩)
      :: c.blocks.filter fun x => x.1 ≠ (name, offset)
    bytes := c.bytes + bytes.length - old }

def put (c : BlockCache N) (name : N) (offset : Nat) (bytes : List UInt8) : BlockCache N :=
  if bytes.length > c.budget then c else
  let c' := c.insert name offset bytes
  if c'.bytes > c'.budget then c'.evict else c'

/-- Forget the blocks of every layer not named, answering how many blocks
are still held. -/
def retainNamed (c : BlockCache N) (named : List N) : Nat × BlockCache N :=
  let kept := c.blocks.filter fun e => named.contains e.1.1
  let freed := total (c.blocks.filter fun e => !named.contains e.1.1)
  (kept.length, { c with blocks := kept, bytes := c.bytes - freed })

end BlockCache

/-! ## Histories -/

inductive CacheOp (N : Type) where
  | get (name : N) (offset : Nat)
  | put (name : N) (offset : Nat) (bytes : List UInt8)
  | forget (named : List N)

section

variable [DecidableEq N]

def CacheOp.apply (c : BlockCache N) : CacheOp N → BlockCache N
  | .get name offset => (c.get name offset).2
  | .put name offset bytes => c.put name offset bytes
  | .forget named => (c.retainNamed named).2

/-- The cache after a history, the newest operation first. -/
def after (budget : Nat) : List (CacheOp N) → BlockCache N
  | [] => .new budget
  | op :: earlier => op.apply (after budget earlier)

/-- The bytes of the last put of a key among those that are taken. -/
def lastPut (taken : List UInt8 → Bool) (key : N × Nat) : List (CacheOp N) → Option (List UInt8)
  | [] => none
  | .put name offset bytes :: earlier =>
    if (name, offset) = key ∧ taken bytes = true then some bytes else lastPut taken key earlier
  | _ :: earlier => lastPut taken key earlier

/-- A get of the key, or a put of it that is taken. -/
def CacheOp.uses (budget : Nat) (key : N × Nat) : CacheOp N → Bool
  | .get name offset => (name, offset) = key
  | .put name offset bytes => (name, offset) = key ∧ bytes.length ≤ budget
  | .forget _ => false

/-- Which operation of the history used a key last, the first being 1. -/
def lastUse (budget : Nat) (key : N × Nat) : List (CacheOp N) → Nat
  | [] => 0
  | op :: earlier =>
    if op.uses budget key then earlier.length + 1 else lastUse budget key earlier

end

/-! ## What is held -/

namespace BlockCache

variable {es : List ((N × Nat) × Cached)}

@[simp] theorem total_cons (e : (N × Nat) × Cached) (es : List ((N × Nat) × Cached)) :
    total (e :: es) = e.2.bytes.length + total es := rfl

theorem total_perm {es' : List ((N × Nat) × Cached)} (h : es.Perm es') : total es = total es' := by
  induction h with
  | nil => rfl
  | cons e _ ih => rw [total_cons, total_cons, ih]
  | swap e e' es =>
    simp only [total_cons]
    omega
  | trans _ _ ih ih' => exact ih.trans ih'

theorem total_filter (keep : (N × Nat) × Cached → Bool) (es : List ((N × Nat) × Cached)) :
    total (es.filter keep) + total (es.filter fun e => !keep e) = total es := by
  induction es with
  | nil => rfl
  | cons e es ih =>
    cases h : keep e with
    | true =>
      rw [List.filter_cons_of_pos h, List.filter_cons_of_neg (by simp [h]), total_cons,
        total_cons]
      omega
    | false =>
      rw [List.filter_cons_of_neg (by simp [h]), List.filter_cons_of_pos (by simp [h]),
        total_cons, total_cons]
      omega

/-- A key is held once. -/
def Keyed (es : List ((N × Nat) × Cached)) : Prop := (es.map Prod.fst).Nodup

theorem Keyed.filter (h : Keyed es) (keep : (N × Nat) × Cached → Bool) : Keyed (es.filter keep) :=
  h.sublist (List.filter_sublist.map _)

theorem Keyed.unique (h : Keyed es) {e e' : (N × Nat) × Cached}
    (he : e ∈ es) (he' : e' ∈ es) (hkey : e.1 = e'.1) : e = e' :=
  List.inj_on_of_nodup_map h he he' hkey

section

variable [DecidableEq N] {es : List ((N × Nat) × Cached)}

theorem mem_of_lookup {key : N × Nat} {e : Cached}
    (h : es.lookup key = some e) : (key, e) ∈ es := by
  obtain ⟨l₁, l₂, heq, -⟩ := List.lookup_eq_some_iff.mp h
  rw [heq]
  simp

theorem not_mem_of_lookup {key : N × Nat} (h : es.lookup key = none) : ∀ e ∈ es, e.1 ≠ key := by
  intro e he heq
  have hne := List.lookup_eq_none_iff.mp h e he
  rw [heq] at hne
  simp at hne

theorem total_others (h : Keyed es) (key : N × Nat) : total (es.filter fun x => x.1 ≠ key)
      + ((es.lookup key).map fun e => e.bytes.length).getD 0 = total es := by
  induction es with
  | nil => rfl
  | cons x es ih =>
    obtain ⟨hx, hes⟩ := List.nodup_cons.mp h
    by_cases hkey : x.1 = key
    · have hothers : es.filter (fun y => decide (y.1 ≠ key)) = es := by
        rw [List.filter_eq_self]
        intro y hy
        rw [decide_eq_true_eq]
        rintro heq
        exact hx (List.mem_map.mpr ⟨y, hy, heq.trans hkey.symm⟩)
      obtain ⟨k, e⟩ := x
      obtain rfl : k = key := hkey
      rw [List.filter_cons_of_neg (by simp), hothers, List.lookup_cons_self, total_cons]
      exact Nat.add_comm _ _
    · obtain ⟨k, e⟩ := x
      have hne : (key == k) = false := beq_false_of_ne (Ne.symm hkey)
      rw [List.filter_cons_of_pos (by simpa using hkey), total_cons, List.lookup_cons, hne,
        total_cons, ← ih hes]
      exact Nat.add_assoc _ _ _

/-- Putting a block in keeps the keys apart and the counter exact. -/
theorem insert_exact {c : BlockCache N} (hkeys : Keyed c.blocks) (hbytes : c.bytes = total c.blocks)
    (name : N) (offset : Nat) (bytes : List UInt8) : Keyed (c.insert name offset bytes).blocks
      ∧ (c.insert name offset bytes).bytes = total (c.insert name offset bytes).blocks := by
  have hothers := total_others hkeys (name, offset)
  refine ⟨?_, ?_⟩
  · refine List.nodup_cons.mpr ⟨?_, hkeys.filter _⟩
    intro hmem
    obtain ⟨x, hx, heq⟩ := List.mem_map.mp hmem
    simp [heq] at hx
  · unfold insert
    rw [total_cons]
    dsimp only
    omega

/-- What an eviction drops is the front of the queue it goes down, and what
it keeps is the rest, within the target. -/
theorem evictLoop_spec (target : Nat) : ∀ {es : List ((N × Nat) × Cached)} {c : BlockCache N},
    es.Perm c.blocks → Keyed c.blocks → c.bytes = total c.blocks →
    ∃ dropped kept, es = dropped ++ kept ∧ (evictLoop target es c).blocks.Perm kept
      ∧ (evictLoop target es c).bytes = total (evictLoop target es c).blocks
      ∧ (evictLoop target es c).bytes ≤ target
      ∧ (evictLoop target es c).budget = c.budget
      ∧ (evictLoop target es c).clock = c.clock := by
  intro es
  induction es with
  | nil =>
    intro c hperm _ hbytes
    have hnil : c.blocks = [] := List.nil_perm.mp hperm
    refine ⟨[], [], rfl, by rw [evictLoop, hnil], hbytes, ?_, rfl, rfl⟩
    rw [evictLoop, hbytes, hnil]
    exact Nat.zero_le _
  | cons e es ih =>
    intro c hperm hkeys hbytes
    rw [evictLoop]
    split
    · rename_i hle
      exact ⟨[], e :: es, rfl, hperm.symm, hbytes, hle, rfl, rfl⟩
    · -- the oldest goes, and its bytes with it
      have hemem : e ∈ c.blocks := hperm.subset List.mem_cons_self
      have hqueue : Keyed (e :: es) := (hperm.map Prod.fst).nodup_iff.mpr hkeys
      have hrest : es.filter (fun x => decide (x.1 ≠ e.1)) = es := by
        rw [List.filter_eq_self]
        intro x hx
        rw [decide_eq_true_eq]
        rintro heq
        exact (List.nodup_cons.mp hqueue).1 (List.mem_map.mpr ⟨x, hx, heq⟩)
      have hperm' : es.Perm (c.blocks.filter fun x => x.1 ≠ e.1) := by
        have hfilter := hperm.filter fun x => decide (x.1 ≠ e.1)
        rwa [List.filter_cons_of_neg (by simp), hrest] at hfilter
      have hall := total_perm hperm
      have hkept := total_perm hperm'
      rw [total_cons] at hall
      obtain ⟨dropped, kept, heq, hblocks, hexact, hle, hbudget, hclock⟩ :=
        ih (c := { c with
          blocks := c.blocks.filter fun x => x.1 ≠ e.1
          bytes := c.bytes - e.2.bytes.length }) hperm' (hkeys.filter _)
          (by dsimp only; omega)
      exact ⟨e :: dropped, kept, by rw [heq, List.cons_append], hblocks, hexact, hle, hbudget,
        hclock⟩

theorem evict_spec {c : BlockCache N} (hkeys : Keyed c.blocks) (hbytes : c.bytes = total c.blocks) :
    c.evict.blocks.Subperm c.blocks
      ∧ c.evict.bytes = total c.evict.blocks
      ∧ c.evict.bytes ≤ c.budget
      ∧ c.evict.budget = c.budget ∧ c.evict.clock = c.clock
      ∧ ∀ x ∈ c.blocks, x ∉ c.evict.blocks → ∀ y ∈ c.evict.blocks, x.2.used ≤ y.2.used := by
  have : Std.Total fun a b : (N × Nat) × Cached => a.2.used ≤ b.2.used :=
    ⟨fun a b => Nat.le_total _ _⟩
  have : IsTrans ((N × Nat) × Cached) fun a b => a.2.used ≤ b.2.used :=
    ⟨fun _ _ _ h h' => Nat.le_trans h h'⟩
  have hsorted := List.pairwise_insertionSort
    (fun a b : (N × Nat) × Cached => a.2.used ≤ b.2.used) c.blocks
  have hperm := List.perm_insertionSort
    (fun a b : (N × Nat) × Cached => a.2.used ≤ b.2.used) c.blocks
  obtain ⟨dropped, kept, heq, hblocks, hexact, hle, hbudget, hclock⟩ :=
    evictLoop_spec (c.budget - c.budget / 4) hperm hkeys hbytes
  refine ⟨?_, hexact, hle.trans (Nat.sub_le _ _), hbudget, hclock, ?_⟩
  · have hsub : kept.Sublist (dropped ++ kept) := List.sublist_append_right _ _
    rw [← heq] at hsub
    exact hblocks.subperm.trans (hsub.subperm.trans hperm.subperm)
  · intro x hx hgone y hy
    rw [heq, List.pairwise_append] at hsorted
    have hxin : x ∈ dropped ++ kept := heq ▸ hperm.symm.subset hx
    rcases List.mem_append.mp hxin with hxin | hxin
    · exact hsorted.2.2 x hxin y (hblocks.subset hy)
    · exact absurd (hblocks.symm.subset hxin) hgone

end

end BlockCache

/-! ## The invariant of a history -/

section

variable [DecidableEq N]

open BlockBytes.BlockCache

theorem lastUse_le (budget : Nat) (key : N × Nat) (ops : List (CacheOp N)) :
    lastUse budget key ops ≤ ops.length := by
  induction ops with
  | nil => exact le_rfl
  | cons op ops ih =>
    rw [lastUse, List.length_cons]
    split
    · exact le_rfl
    · omega

/-- One of two entries was used first, by its stamp and by the history. -/
def Apart (budget : Nat) (ops : List (CacheOp N)) (e e' : (N × Nat) × Cached) : Prop :=
  (e.2.used < e'.2.used ∧ lastUse budget e.1 ops < lastUse budget e'.1 ops)
    ∨ (e'.2.used < e.2.used ∧ lastUse budget e'.1 ops < lastUse budget e.1 ops)

def fits (budget : Nat) (bytes : List UInt8) : Bool := bytes.length ≤ budget

/-- What holds of a cache after a history. -/
structure Sound (budget : Nat) (ops : List (CacheOp N)) (c : BlockCache N) : Prop where
  keys : Keyed c.blocks
  bytes : c.bytes = total c.blocks
  limit : c.budget = budget
  stamps : ∀ e ∈ c.blocks, e.2.used ≤ c.clock
  puts : ∀ e ∈ c.blocks, lastPut (fits budget) e.1 ops = some e.2.bytes
  apart : ∀ e ∈ c.blocks, ∀ e' ∈ c.blocks, e.1 ≠ e'.1 → Apart budget ops e e'

variable {budget : Nat} {ops : List (CacheOp N)} {c c' : BlockCache N}

theorem Sound.shrink (h : Sound budget ops c) (hsub : c'.blocks.Subperm c.blocks)
    (hbytes : c'.bytes = total c'.blocks) (hbudget : c'.budget = c.budget)
    (hclock : c.clock ≤ c'.clock) : Sound budget ops c' where
  keys := by
    obtain ⟨l, hperm, hl⟩ := hsub
    exact (hperm.map Prod.fst).nodup_iff.mp (h.keys.sublist (hl.map _))
  bytes := hbytes
  limit := hbudget.trans h.limit
  stamps := fun e he => (h.stamps e (hsub.subset he)).trans hclock
  puts := fun e he => h.puts e (hsub.subset he)
  apart := fun e he e' he' => h.apart e (hsub.subset he) e' (hsub.subset he')

variable {bytes : List UInt8}

/-- An operation that uses one key, at the head of the history, with the
entry of the key put in front under the next stamp. -/
theorem Sound.touch (h : Sound budget ops c) {op : CacheOp N} {key : N × Nat} (hblocks : c'.blocks = (key, ⟨bytes, c.clock + 1⟩)
      :: c.blocks.filter fun x => x.1 ≠ key)
    (hkeys : Keyed c'.blocks) (hbytes : c'.bytes = total c'.blocks)
    (hbudget : c'.budget = c.budget) (hclock : c'.clock = c.clock + 1)
    (huses : ∀ k, op.uses budget k = decide (k = key))
    (hput : ∀ k, lastPut (fits budget) k (op :: ops)
      = if k = key then some bytes else lastPut (fits budget) k ops) :
    Sound budget (op :: ops) c' := by
  have holder : ∀ e ∈ c'.blocks, e = (key, ⟨bytes, c.clock + 1⟩) ∨ (e.1 ≠ key ∧ e ∈ c.blocks) := by
    intro e he
    rw [hblocks] at he
    rcases List.mem_cons.mp he with rfl | he
    · exact .inl rfl
    · obtain ⟨hmem, hne⟩ := List.mem_filter.mp he
      exact .inr ⟨by simpa using hne, hmem⟩
  have hnew : lastUse budget key (op :: ops) = ops.length + 1 := by
    rw [lastUse, huses]
    simp
  have hold : ∀ k, k ≠ key → lastUse budget k (op :: ops) = lastUse budget k ops := by
    intro k hk
    rw [lastUse, huses]
    simp [hk]
  refine ⟨hkeys, hbytes, hbudget.trans h.limit, ?_, ?_, ?_⟩
  · intro e he
    rcases holder e he with rfl | ⟨-, he⟩
    · exact Nat.le_of_eq hclock.symm
    · exact (h.stamps e he).trans (by omega)
  · intro e he
    rw [hput]
    rcases holder e he with rfl | ⟨hne, he⟩
    · rw [if_pos rfl]
    · rw [if_neg hne]
      exact h.puts e he
  · -- the key that is used is the newest by both measures
    have hnewest : ∀ e ∈ c.blocks, e.1 ≠ key → e.2.used < c.clock + 1
        ∧ lastUse budget e.1 (op :: ops) < lastUse budget key (op :: ops) := by
      intro e he hne
      refine ⟨Nat.lt_succ_of_le (h.stamps e he), ?_⟩
      rw [hnew, hold e.1 hne]
      exact Nat.lt_succ_of_le (lastUse_le ..)
    intro e he e' he' hne
    rcases holder e he with rfl | ⟨hek, he⟩
    · rcases holder e' he' with rfl | ⟨hek', he'⟩
      · exact absurd rfl hne
      · exact .inr (hnewest e' he' hek')
    · rcases holder e' he' with rfl | ⟨hek', he'⟩
      · exact .inl (hnewest e he hek)
      · unfold Apart
        rw [hold e.1 hek, hold e'.1 hek']
        exact h.apart e he e' he' hne

theorem Sound.idle (h : Sound budget ops c) {op : CacheOp N}
    (huses : ∀ e ∈ c.blocks, op.uses budget e.1 = false)
    (hput : ∀ e ∈ c.blocks, lastPut (fits budget) e.1 (op :: ops)
      = lastPut (fits budget) e.1 ops) : Sound budget (op :: ops) c := by
  have hold : ∀ e ∈ c.blocks, lastUse budget e.1 (op :: ops) = lastUse budget e.1 ops := by
    intro e he
    rw [lastUse, huses e he]
    rfl
  refine ⟨h.keys, h.bytes, h.limit, h.stamps, fun e he => (hput e he).trans (h.puts e he), ?_⟩
  intro e he e' he' hne
  unfold Apart
  rw [hold e he, hold e' he']
  exact h.apart e he e' he' hne

theorem Sound.get (h : Sound budget ops c) (name : N) (offset : Nat) :
    Sound budget (.get name offset :: ops) (c.get name offset).2 := by
  unfold BlockCache.get
  cases hl : c.blocks.lookup (name, offset) with
  | none =>
    have hmiss := not_mem_of_lookup hl
    refine (h.idle (fun e he => ?_) fun _ _ => rfl).shrink (List.Subperm.refl _) h.bytes rfl
      (Nat.le_succ _)
    exact decide_eq_false (Ne.symm (hmiss e he))
  | some e =>
    have hmem := mem_of_lookup hl
    obtain ⟨hkeys, hbytes⟩ := insert_exact h.keys h.bytes name offset e.bytes
    refine h.touch rfl hkeys ?_ rfl rfl (fun k => decide_eq_decide.mpr eq_comm) fun k => ?_
    · unfold BlockBytes.BlockCache.insert at hbytes
      rw [hl] at hbytes
      dsimp only [Option.map_some, Option.getD_some] at hbytes
      rwa [Nat.add_sub_cancel] at hbytes
    · by_cases hk : k = (name, offset)
      · rw [if_pos hk, hk]
        exact h.puts _ hmem
      · rw [if_neg hk]
        rfl

theorem Sound.insert (h : Sound budget ops c) (name : N) (offset : Nat)
    (hfit : bytes.length ≤ budget) :
    Sound budget (.put name offset bytes :: ops) (c.insert name offset bytes) := by
  obtain ⟨hkeys, hbytes⟩ := insert_exact h.keys h.bytes name offset bytes
  refine h.touch rfl hkeys hbytes rfl rfl (fun k => ?_) fun k => ?_
  · exact decide_eq_decide.mpr ⟨fun hk => hk.1.symm, fun hk => ⟨hk.symm, hfit⟩⟩
  · rw [lastPut]
    by_cases hk : k = (name, offset)
    · rw [if_pos ⟨hk.symm, decide_eq_true hfit⟩, if_pos hk]
    · rw [if_neg fun hand => hk hand.1.symm, if_neg hk]

theorem Sound.put (h : Sound budget ops c) (name : N) (offset : Nat) (bytes : List UInt8) :
    Sound budget (.put name offset bytes :: ops) (c.put name offset bytes) := by
  unfold BlockCache.put
  rw [h.limit]
  split
  · rename_i hbig
    refine h.idle (fun e _ => ?_) fun e _ => ?_
    · exact decide_eq_false fun hand => absurd hand.2 (Nat.not_le.mpr hbig)
    · rw [lastPut, if_neg]
      rintro ⟨-, hfit⟩
      exact absurd (of_decide_eq_true hfit) (Nat.not_le.mpr hbig)
  · rename_i hfit
    have hin := h.insert name offset (Nat.not_lt.mp hfit)
    dsimp only
    split
    · obtain ⟨hsub, hbytes, -, hbudget, hclock, -⟩ := evict_spec hin.keys hin.bytes
      exact hin.shrink hsub hbytes hbudget hclock.ge
    · exact hin

theorem Sound.forget (h : Sound budget ops c) (named : List N) :
    Sound budget (.forget named :: ops) (c.retainNamed named).2 := by
  have hsum := total_filter (fun e => named.contains e.1.1) c.blocks
  refine (h.idle (fun _ _ => rfl) fun _ _ => rfl).shrink List.filter_sublist.subperm ?_ rfl
    le_rfl
  unfold retainNamed
  dsimp only
  have hbytes := h.bytes
  omega

theorem sound_after (budget : Nat) (ops : List (CacheOp N)) :
    Sound budget ops (after budget ops) := by
  induction ops with
  | nil =>
    exact ⟨List.nodup_nil, rfl, rfl, fun _ he => (List.not_mem_nil he).elim,
      fun _ he => (List.not_mem_nil he).elim, fun _ he => (List.not_mem_nil he).elim⟩
  | cons op ops ih =>
    cases op with
    | get name offset => exact ih.get name offset
    | put name offset bytes => exact ih.put name offset bytes
    | forget named => exact ih.forget named

theorem within_after (budget : Nat) (ops : List (CacheOp N)) :
    (after budget ops).bytes ≤ budget := by
  induction ops with
  | nil => exact Nat.zero_le _
  | cons op ops ih =>
    have h := sound_after budget ops
    cases op with
    | get name offset =>
      show ((after budget ops).get name offset).2.bytes ≤ budget
      unfold BlockCache.get
      split <;> exact ih
    | put name offset bytes =>
      show ((after budget ops).put name offset bytes).bytes ≤ budget
      unfold BlockCache.put
      split
      · exact ih
      · rename_i hfit
        have hin := h.insert name offset (h.limit ▸ Nat.not_lt.mp hfit)
        dsimp only
        split
        · exact (evict_spec hin.keys hin.bytes).2.2.1.trans hin.limit.le
        · rename_i hle
          exact (Nat.not_lt.mp hle).trans hin.limit.le
    | forget named => exact (Nat.sub_le _ _).trans ih

theorem get_after (budget : Nat) (ops : List (CacheOp N)) (name : N) (offset : Nat) (h : ((after budget ops).get name offset).1 = some bytes) :
    lastPut (fits budget) (name, offset) ops = some bytes := by
  unfold BlockCache.get at h
  cases hl : (after budget ops).blocks.lookup (name, offset) with
  | none =>
    rw [hl] at h
    cases h
  | some e =>
    rw [hl] at h
    cases h
    exact (sound_after budget ops).puts _ (mem_of_lookup hl)

theorem put_drops_oldest (budget : Nat) (ops : List (CacheOp N)) {name : N} {offset : Nat} (hfit : bytes.length ≤ budget) {x y : (N × Nat) × Cached}
    (hx : x ∈ ((after budget ops).insert name offset bytes).blocks)
    (hgone : x ∉ (after budget (.put name offset bytes :: ops)).blocks)
    (hy : y ∈ (after budget (.put name offset bytes :: ops)).blocks) :
    lastUse budget x.1 (.put name offset bytes :: ops)
      < lastUse budget y.1 (.put name offset bytes :: ops) := by
  have h := sound_after budget ops
  have hin := h.insert name offset hfit
  have hput : after budget (.put name offset bytes :: ops)
      = if ((after budget ops).insert name offset bytes).bytes
          > ((after budget ops).insert name offset bytes).budget
        then ((after budget ops).insert name offset bytes).evict
        else (after budget ops).insert name offset bytes := by
    show (after budget ops).put name offset bytes = _
    unfold BlockCache.put
    rw [if_neg (by rw [h.limit]; exact Nat.not_lt.mpr hfit)]
  rw [hput] at hgone hy
  split at hgone
  · rename_i hover
    rw [if_pos hover] at hy
    obtain ⟨hsub, -, -, -, -, hold⟩ := evict_spec hin.keys hin.bytes
    have hused := hold x hx hgone y hy
    have hne : x.1 ≠ y.1 := by
      intro heq
      exact hgone (hin.keys.unique hx (hsub.subset hy) heq ▸ hy)
    rcases hin.apart x hx y (hsub.subset hy) hne with ⟨-, hlt⟩ | ⟨hlt, -⟩
    · exact hlt
    · exact absurd hlt (Nat.not_lt.mpr hused)
  · exact absurd hx hgone

/-- The keys a cache holds a block under. -/
def held (c : BlockCache N) : List (N × Nat) := c.blocks.map Prod.fst

/-- After every history of gets, puts and forgets the counter is the bytes
held and within the budget, a get gives the bytes of the last put of the
key that was no larger than the budget or nothing, and what a put drops was
used before everything it keeps. -/
theorem cache_accounting (budget : Nat) (ops : List (CacheOp N)) :
    (after budget ops).bytes = total (after budget ops).blocks
      ∧ (after budget ops).bytes ≤ budget
      ∧ (∀ name offset, ((after budget ops).get name offset).1 = none
          ∨ ((after budget ops).get name offset).1
            = lastPut (fits budget) (name, offset) ops)
      ∧ ∀ name offset bytes, bytes.length ≤ budget →
          ∀ k, (k = (name, offset) ∨ k ∈ held (after budget ops)) →
            k ∉ held (after budget (.put name offset bytes :: ops)) →
          ∀ k' ∈ held (after budget (.put name offset bytes :: ops)),
            lastUse budget k (.put name offset bytes :: ops)
              < lastUse budget k' (.put name offset bytes :: ops) := by
  refine ⟨(sound_after budget ops).bytes, within_after budget ops, ?_, ?_⟩
  · intro name offset
    cases hget : ((after budget ops).get name offset).1 with
    | none => exact .inl rfl
    | some bytes => exact .inr (get_after budget ops name offset hget).symm
  · intro name offset bytes hfit k hk hgone k' hk'
    obtain ⟨y, hy, rfl⟩ := List.mem_map.mp hk'
    have hx : ∃ x ∈ ((after budget ops).insert name offset bytes).blocks, x.1 = k := by
      by_cases heq : k = (name, offset)
      · exact ⟨_, List.mem_cons_self, heq.symm⟩
      · obtain ⟨x, hx, rfl⟩ := List.mem_map.mp (hk.resolve_left heq)
        refine ⟨x, .tail _ (List.mem_filter.mpr ⟨hx, ?_⟩), rfl⟩
        exact decide_eq_true heq
    obtain ⟨x, hx, rfl⟩ := hx
    exact put_drops_oldest budget ops hfit hx (fun h => hgone (List.mem_map_of_mem h)) hy

end

/-- Of two blocks the one read since stays. -/
theorem cache_accounting_pair :
    lastUse 4 (1, 0) ([.put 2 0 [3, 3], .get 0 0, .put 1 0 [2, 2], .put 0 0 [1]]
        : List (CacheOp Nat))
      < lastUse 4 (0, 0) [.put 2 0 [3, 3], .get 0 0, .put 1 0 [2, 2], .put 0 0 [1]] :=
  (cache_accounting 4 ([.get 0 0, .put 1 0 [2, 2], .put 0 0 [1]] : List (CacheOp Nat))).2.2.2
    2 0 [3, 3] (by decide) (1, 0) (.inr (by decide)) (by decide) (0, 0) (by decide)

/-- A block over the budget is not taken, and what the key held before is
still given. -/
theorem large_put_leaves_old :
    ¬ ∀ (budget : Nat) (ops : List (CacheOp Nat)) (name offset : Nat),
      ((after budget ops).get name offset).1 = none
        ∨ ((after budget ops).get name offset).1
          = lastPut (fun _ => true) (name, offset) ops := by
  intro h
  rcases h 1 [.put 0 0 [2, 2], .put 0 0 [1]] 0 0 with hget | hget
  · revert hget
    decide
  · revert hget
    decide

/-! ## The cache of the reader's model -/

/-- The reader's cache with the bytes of every stored block. -/
def ofReader (bytesOf : StoredBlock → List UInt8) (c : Zou.BlockCache) : BlockCache LayerName where
  blocks := c.blocks.map fun e => (e.1, ⟨bytesOf e.2.block, e.2.used⟩)
  bytes := c.bytes
  budget := c.budget
  clock := c.clock

section

variable {bytesOf : StoredBlock → List UInt8}

theorem lookup_ofReader (es : List ((LayerName × Nat) × Zou.Cached)) (key : LayerName × Nat) :
    (es.map fun e => (e.1, (⟨bytesOf e.2.block, e.2.used⟩ : Cached))).lookup key
      = (es.lookup key).map fun e => ⟨bytesOf e.block, e.used⟩ := by
  induction es with
  | nil => rfl
  | cons e es ih =>
    rw [List.map_cons, List.lookup_cons, List.lookup_cons, ih]
    split <;> rfl

theorem filter_ofReader (es : List ((LayerName × Nat) × Zou.Cached))
    (keep : LayerName × Nat → Bool) :
    (es.map fun e => (e.1, (⟨bytesOf e.2.block, e.2.used⟩ : Cached))).filter (fun e => keep e.1)
      = (es.filter fun e => keep e.1).map fun e => (e.1, ⟨bytesOf e.2.block, e.2.used⟩) := by
  rw [List.filter_map]
  rfl

theorem get_ofReader (c : Zou.BlockCache) (name : LayerName) (offset : Nat) :
    (ofReader bytesOf c).get name offset
      = ((c.get name offset).1.map bytesOf, ofReader bytesOf (c.get name offset).2) := by
  unfold BlockCache.get Zou.BlockCache.get
  rw [ofReader, lookup_ofReader]
  cases c.blocks.lookup (name, offset) with
  | none => rfl
  | some e =>
    dsimp only [Option.map_some]
    rw [filter_ofReader c.blocks fun k => decide (k ≠ (name, offset))]
    rfl

theorem evictLoop_ofReader (hlen : ∀ b, (bytesOf b).length = b.row.len) (target : Nat) :
    ∀ (es : List ((LayerName × Nat) × Zou.Cached)) (c : Zou.BlockCache),
      BlockCache.evictLoop target
          (es.map fun e => (e.1, ⟨bytesOf e.2.block, e.2.used⟩)) (ofReader bytesOf c)
        = ofReader bytesOf (Zou.BlockCache.evictLoop target es c)
  | [], c => rfl
  | e :: es, c => by
      rw [List.map_cons, BlockCache.evictLoop, Zou.BlockCache.evictLoop]
      split
      · rw [if_pos (by assumption)]
      · rw [if_neg (by assumption), ← evictLoop_ofReader hlen target es]
        congr 1
        unfold ofReader
        rw [filter_ofReader c.blocks fun k => decide (k ≠ e.1), hlen]

theorem evict_ofReader (hlen : ∀ b, (bytesOf b).length = b.row.len) (c : Zou.BlockCache) :
    (ofReader bytesOf c).evict = ofReader bytesOf c.evict := by
  unfold BlockCache.evict Zou.BlockCache.evict
  rw [← evictLoop_ofReader hlen]
  congr 1
  exact (List.map_insertionSort (fun a b : (LayerName × Nat) × Zou.Cached => a.2.used ≤ b.2.used)
    (fun a b : (LayerName × Nat) × Cached => a.2.used ≤ b.2.used) _ _
    fun _ _ _ _ => .rfl).symm

theorem put_ofReader (hlen : ∀ b, (bytesOf b).length = b.row.len) (c : Zou.BlockCache)
    (name : LayerName) (offset : Nat) (b : StoredBlock) :
    (ofReader bytesOf c).put name offset (bytesOf b)
      = ofReader bytesOf (c.put name offset b) := by
  have hold : ((ofReader bytesOf c).blocks.lookup (name, offset)).map (fun e => e.bytes.length)
      = (c.blocks.lookup (name, offset)).map fun e => e.block.row.len := by
    rw [ofReader, lookup_ofReader, Option.map_map]
    exact congrArg (fun f => Option.map f _) (funext fun e => hlen e.block)
  have hinsert : (ofReader bytesOf c).insert name offset (bytesOf b)
      = ofReader bytesOf { c with
          clock := c.clock + 1
          blocks := ((name, offset), ⟨b, c.clock + 1⟩)
            :: c.blocks.filter fun x => x.1 ≠ (name, offset)
          bytes := c.bytes + b.row.len
            - ((c.blocks.lookup (name, offset)).map fun e => e.block.row.len).getD 0 } := by
    unfold BlockCache.insert
    rw [hold, hlen]
    unfold ofReader
    rw [filter_ofReader c.blocks fun k => decide (k ≠ (name, offset))]
    rfl
  unfold BlockCache.put Zou.BlockCache.put
  rw [hlen]
  dsimp only
  rw [hinsert, evict_ofReader hlen, apply_ite (ofReader bytesOf), apply_ite (ofReader bytesOf)]
  rfl

theorem total_ofReader (hlen : ∀ b, (bytesOf b).length = b.row.len)
    (es : List ((LayerName × Nat) × Zou.Cached)) :
    BlockCache.total (es.map fun e => (e.1, ⟨bytesOf e.2.block, e.2.used⟩))
      = (es.map fun e => e.2.block.row.len).sum := by
  induction es with
  | nil => rfl
  | cons e es ih => rw [List.map_cons, BlockCache.total_cons, hlen, ih, List.map_cons, List.sum_cons]

theorem forget_ofReader (hlen : ∀ b, (bytesOf b).length = b.row.len) (rd : LayerReader)
    (map : LayerMap) : ((ofReader bytesOf rd.blocks).retainNamed (map.layers.map LayerDesc.name)).2
      = ofReader bytesOf (rd.forgetUnnamed map).blocks := by
  have hkeep : (fun e : (LayerName × Nat) × Zou.Cached => decide (e.1.1 ∈ map.layers.map
      LayerDesc.name)) = fun e => (map.layers.map LayerDesc.name).contains e.1.1 :=
    funext fun e => (List.contains_eq_mem ..).symm
  have hdrop : (fun e : (LayerName × Nat) × Zou.Cached => decide (¬ e.1.1 ∈ map.layers.map
      LayerDesc.name)) = fun e => !(map.layers.map LayerDesc.name).contains e.1.1 :=
    funext fun e => by rw [List.contains_eq_mem, decide_not]
  unfold BlockCache.retainNamed LayerReader.forgetUnnamed ofReader
  dsimp only
  rw [hkeep, hdrop, filter_ofReader rd.blocks.blocks fun k =>
      (map.layers.map LayerDesc.name).contains k.1,
    filter_ofReader rd.blocks.blocks fun k => !(map.layers.map LayerDesc.name).contains k.1,
    total_ofReader hlen]

/-- What a reader does with its block cache. -/
inductive BlockOp where
  | get (name : LayerName) (offset : Nat)
  | put (name : LayerName) (offset : Nat) (b : StoredBlock)
  | forget (map : LayerMap)

def BlockOp.apply (c : Zou.BlockCache) : BlockOp → Zou.BlockCache
  | .get name offset => (c.get name offset).2
  | .put name offset b => c.put name offset b
  | .forget map => (LayerReader.forgetUnnamed ⟨[], c⟩ map).blocks

/-- The operation on the bytes. -/
def BlockOp.asBytes (bytesOf : StoredBlock → List UInt8) : BlockOp → CacheOp LayerName
  | .get name offset => .get name offset
  | .put name offset b => .put name offset (bytesOf b)
  | .forget map => .forget (map.layers.map LayerDesc.name)

/-- The reader's cache after a history, the newest operation first. -/
def readerAfter (budget : Nat) : List BlockOp → Zou.BlockCache
  | [] => .new budget
  | op :: earlier => op.apply (readerAfter budget earlier)

/-- Over every history the cache of a reader is the cache of its blocks'
bytes. So its counter is the stored lengths it holds and within the budget,
and a block it gives has the bytes of the last one taken under its name and
offset. -/
theorem reader_cache_refines (hlen : ∀ b, (bytesOf b).length = b.row.len) (budget : Nat)
    (ops : List BlockOp) :
    ofReader bytesOf (readerAfter budget ops) = after budget (ops.map (·.asBytes bytesOf))
      ∧ (readerAfter budget ops).bytes
        = ((readerAfter budget ops).blocks.map fun e => e.2.block.row.len).sum
      ∧ (readerAfter budget ops).bytes ≤ budget
      ∧ ∀ name offset b, ((readerAfter budget ops).get name offset).1 = some b →
        lastPut (fits budget) (name, offset) (ops.map (·.asBytes bytesOf)) = some (bytesOf b) := by
  have heq : ofReader bytesOf (readerAfter budget ops)
      = after budget (ops.map (·.asBytes bytesOf)) := by
    induction ops with
    | nil => rfl
    | cons op ops ih =>
      rw [List.map_cons, after, ← ih]
      cases op with
      | get name offset => exact (congrArg Prod.snd (get_ofReader ..)).symm
      | put name offset b => exact (put_ofReader hlen ..).symm
      | forget map => exact (forget_ofReader hlen ⟨[], readerAfter budget ops⟩ map).symm
  have hbytes : (readerAfter budget ops).bytes = (ofReader bytesOf (readerAfter budget ops)).bytes :=
    rfl
  refine ⟨heq, ?_, ?_, fun name offset b hb => ?_⟩
  · rw [hbytes, heq, (sound_after budget _).bytes, ← heq]
    exact total_ofReader hlen _
  · rw [hbytes, heq]
    exact within_after budget _
  · refine get_after budget _ name offset ?_
    rw [← heq, get_ofReader, hb]
    rfl

end

def oneBlock : StoredBlock := ⟨⟨.page 1 2 3 0 5, .page 1 2 3 0 5, 0, 3, 3, 1⟩, .delta []⟩

/-- Three blocks where two fit: the third evicts the one that was not read
since, and a reload forgets the layer of the third. -/
def crowded : List BlockOp :=
  let page := LayerKey.page 1 2 3 0 5
  let kept : LayerDesc := ⟨.image, page, page, 15, 15, 3, none, none, none⟩
  [.forget ⟨[kept], .nil, .nil⟩, .put (.malformed "m") 0 oneBlock, .get kept.name 0,
    .put kept.name 3 oneBlock, .put kept.name 0 oneBlock]

theorem reader_cache_refines_crowded :
    ofReader (fun b => List.replicate b.row.len 0) (readerAfter 8 crowded)
        = after 8 (crowded.map (·.asBytes fun b => List.replicate b.row.len 0))
      ∧ (readerAfter 8 crowded.tail).blocks.map (·.1.2) = [0, 0]
      ∧ (readerAfter 8 crowded).blocks.map (·.1.2) = [0] ∧ (readerAfter 8 crowded).bytes = 3 :=
  ⟨(reader_cache_refines (fun _ => List.length_replicate) 8 crowded).1, by decide, by decide,
    by decide⟩

end BlockBytes

end Zou
