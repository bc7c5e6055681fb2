import Zou.Lib.History
import Zou.Ingest
import Zou.PageRead

/-!
# The page service

What a reconstruction becomes: a page by redo, or a fork length by folding
the size records. The redo workers, the checksum of a page, the pages
frozen under `pg/` and which record initializes a page are parameters; a
batch is taken one block at a time, which is what redo is trusted with.

A page may be cut at any point where the service can build one: what the
records behind that point make of it is what they make of the base and the
records before it.
-/

namespace Zou

inductive SizeError where
  | short (len : Nat)
  | unknownOp (op : Nat)
  | floorImage (n : Nat)
  deriving DecidableEq, Repr

inductive GetPageError where
  | noRedoPool (key : LayerKey)
  | bareChain (key : LayerKey) (firstLsn : Lsn)
  | redo (text : String)
  | size (e : SizeError)
  | read (e : ReadError)
  deriving DecidableEq, Repr

/-! ## Relation sizes -/

namespace SizeRec

def recLen : Nat := 5

def decode (bytes : List UInt8) : Except SizeError SizeRec :=
  if bytes.length < recLen then .error (.short bytes.length) else
  let n := fromLe ((bytes.drop 1).take 4)
  match bytes.headD 0 with
  | 0 => .ok (.grow n)
  | 1 => .ok (.set n)
  | op => .error (.unknownOp op.toNat)

/-- One record over the size so far. -/
def foldRecords : Nat → List (Lsn × List UInt8) → Except SizeError Nat
  | size, [] => .ok size
  | size, (_, bytes) :: rs =>
    match decode bytes with
    | .error e => .error e
    | .ok (.grow n) => foldRecords (max size n) rs
    | .ok (.set n) => foldRecords n rs

/-- The block count a base and a chain add up to. -/
def fold (base : Option (List UInt8)) (records : List (Lsn × List UInt8)) : Except SizeError Nat :=
  match base with
  | none => foldRecords 0 records
  | some bytes =>
    match decode bytes with
    | .error e => .error e
    | .ok (.grow n) => .error (.floorImage n)
    | .ok (.set n) => foldRecords n records

/-- The image of a size: one `set`, padded to a page. -/
def image (n : Nat) : List UInt8 :=
  (SizeRec.set n).encode ++ List.replicate (pageImageLen - recLen) 0

variable {n : Nat}

theorem fromLe_toLe32 (h : n < 2 ^ 32) : fromLe (toLe32 n) = n := by
  simp only [toLe32, fromLe, UInt8.toNat_ofNat']
  omega

theorem fromLe_lt : ∀ bytes : List UInt8, fromLe bytes < 256 ^ bytes.length := by
  intro bytes
  induction bytes with
  | nil => exact Nat.one_pos
  | cons b bs ih =>
    have hb := b.toNat_lt
    rw [fromLe, List.length_cons, Nat.pow_succ]
    omega

theorem decode_image (h : n < 2 ^ 32) : decode (image n) = .ok (.set n) := by
  have hlen : ¬ (image n).length < recLen := by
    unfold image encode toLe32 recLen
    simp
  unfold decode
  rw [if_neg hlen]
  have hn : ((image n).drop 1).take 4 = toLe32 n := rfl
  rw [hn, fromLe_toLe32 h]
  rfl

theorem decode_lt {bytes : List UInt8} {r : SizeRec} (h : decode bytes = .ok r) :
    (∀ n, r = .grow n → n < 2 ^ 32) ∧ ∀ n, r = .set n → n < 2 ^ 32 := by
  have hlt : fromLe ((bytes.drop 1).take 4) < 2 ^ 32 := by
    have h1 := fromLe_lt ((bytes.drop 1).take 4)
    have h2 : ((bytes.drop 1).take 4).length ≤ 4 := List.length_take_le _ _
    calc fromLe ((bytes.drop 1).take 4) < 256 ^ ((bytes.drop 1).take 4).length := h1
      _ ≤ 256 ^ 4 := Nat.pow_le_pow_right (by decide) h2
      _ = 2 ^ 32 := by decide
  unfold decode at h
  split at h
  · cases h
  · dsimp only at h
    split at h
    · cases h
      refine ⟨fun n hn => ?_, nofun⟩
      cases hn
      exact hlt
    · cases h
      refine ⟨nofun, fun n hn => ?_⟩
      cases hn
      exact hlt
    · cases h

theorem foldRecords_lt : ∀ {rs : List (Lsn × List UInt8)} {size : Nat}, size < 2 ^ 32 →
    foldRecords size rs = .ok n → n < 2 ^ 32 := by
  intro rs
  induction rs with
  | nil =>
    intro size hsize h
    cases h
    exact hsize
  | cons r rs ih =>
    intro size hsize h
    obtain ⟨l, bytes⟩ := r
    unfold foldRecords at h
    cases hd : decode bytes with
    | error e =>
      rw [hd] at h
      cases h
    | ok d =>
      rw [hd] at h
      cases d with
      | grow m =>
        have hm := (decode_lt hd).1 m rfl
        exact ih (by omega) h
      | set m => exact ih ((decode_lt hd).2 m rfl) h

theorem foldRecords_append {rs' : List (Lsn × List UInt8)} :
    ∀ {rs : List (Lsn × List UInt8)} {size : Nat}, foldRecords size rs = .ok n →
      foldRecords size (rs ++ rs') = foldRecords n rs' := by
  intro rs
  induction rs with
  | nil =>
    intro size h
    cases h
    rfl
  | cons r rs ih =>
    intro size h
    obtain ⟨l, bytes⟩ := r
    rw [List.cons_append, foldRecords]
    unfold foldRecords at h
    cases hd : decode bytes with
    | error e =>
      rw [hd] at h
      cases h
    | ok d =>
      rw [hd] at h
      cases d with
      | grow m => exact ih h
      | set m => exact ih h

theorem fold_resumes {base : Option (List UInt8)} {rs : List (Lsn × List UInt8)}
    (h : fold base rs = .ok n) (rs' : List (Lsn × List UInt8)) :
    fold base (rs ++ rs') = fold (some (image n)) rs' := by
  have hpage : ∀ {m : Nat}, m < 2 ^ 32 → fold (some (image m)) rs' = foldRecords m rs' := by
    intro m hm
    simp only [fold, decode_image hm]
  unfold fold at h
  cases base with
  | none =>
    rw [hpage (foldRecords_lt (by decide) h)]
    exact foldRecords_append h
  | some bytes =>
    dsimp only at h
    cases hd : decode bytes with
    | error e =>
      rw [hd] at h
      cases h
    | ok d =>
      rw [hd] at h
      cases d with
      | grow m => cases h
      | set m =>
        rw [hpage (foldRecords_lt ((decode_lt hd).2 m rfl) h)]
        simp only [fold, hd]
        exact foldRecords_append h

end SizeRec

/-! ## Pages -/

def keyPage : Nat := 0
def keyRelsize : Nat := 1

/-- The redo workers: the page one block comes to. -/
structure RedoPool where
  apply : LayerKey → Option (List UInt8) → List (Lsn × List UInt8) → Except String (List UInt8)

structure PageService where
  env : ReaderEnv
  pool : Option RedoPool
  stamp : LayerKey → List UInt8 → List UInt8
  frozen : LayerKey → Option (List UInt8)
  initializes : LayerKey → List UInt8 → Bool

/-- What a read of a key answers: a page, or the length of a fork. -/
inductive Answer where
  | page (r : Except GetPageError (Option (List UInt8)))
  | size (r : Except GetPageError (Option Nat))
  deriving DecidableEq

namespace PageService

variable (svc : PageService)

/-- A base, or a first record that builds the page by itself. Only the main
fork is asked. -/
def usable (key : LayerKey) (base : Option (List UInt8)) (records : List (Lsn × List UInt8)) :
    Bool :=
  base.isSome || match records with
    | [] => false
    | (_, bytes) :: _ => key.fork ≠ 0 || svc.initializes key bytes

/-- `build` of one block. `strict` is what to do with a block no base can be
found for. -/
def build (strict : Bool) (key : LayerKey) (base : Option (List UInt8))
    (records : List (Lsn × List UInt8)) : Except GetPageError (Option (List UInt8)) :=
  let base := base.orElse fun _ => svc.frozen key
  match records with
  | [] => match base with
      | some page => .ok (some (svc.stamp key page))
      | none => .ok (if strict then some (List.replicate pageImageLen 0) else none)
  | (first, _) :: _ =>
    if svc.usable key base records then
      match svc.pool with
      | none => .error (.noRedoPool key)
      | some pool => match pool.apply key base records with
          | .error e => .error (.redo e)
          | .ok page => .ok (some (svc.stamp key page))
    else if strict then
      match svc.pool with
      | none => .error (.noRedoPool key)
      | some _ => .error (.bareChain key first)
    else .ok none

/-- `rel_size`: none is a fork the layers say nothing about. -/
def relSize (base : Option (List UInt8)) (records : List (Lsn × List UInt8)) :
    Except GetPageError (Option Nat) :=
  if base = none ∧ records = [] then .ok none else
  match SizeRec.fold base records with
  | .error e => .error (.size e)
  | .ok n => .ok (some n)

/-- What a strict read answers. -/
def answer (key : LayerKey) (base : Option (List UInt8)) (records : List (Lsn × List UInt8)) :
    Answer :=
  if key.kind = keyRelsize then .size (relSize base records)
  else .page (svc.build true key base records)

/-- Exact redo: the records behind a page it built do to that page what
they do to what it was built from, and neither sees the checksum. -/
structure ExactRedo : Prop where
  resumes : ∀ pool, svc.pool = some pool → ∀ key base rs page rs', rs ≠ [] → rs' ≠ [] →
    pool.apply key base rs = .ok page → pool.apply key base (rs ++ rs') = pool.apply key (some page) rs'
  unstamped : ∀ pool, svc.pool = some pool → ∀ key page rs,
    pool.apply key (some (svc.stamp key page)) rs = pool.apply key (some page) rs
  restamped : ∀ key page, svc.stamp key (svc.stamp key page) = svc.stamp key page

variable {svc} {rs : List (Lsn × List UInt8)}

theorem build_some (key : LayerKey) (page : List UInt8) :
    svc.build true key (some page) rs = if rs = [] then .ok (some (svc.stamp key page)) else
      match svc.pool with
      | none => .error (.noRedoPool key)
      | some pool => match pool.apply key (some page) rs with
          | .error e => .error (.redo e)
          | .ok page => .ok (some (svc.stamp key page)) := by
  cases rs with
  | nil => rfl
  | cons r rs => rfl

/-- The page the service builds stands for what it was built from. -/
theorem build_resumes (hx : svc.ExactRedo) {key : LayerKey} {base : Option (List UInt8)} {page : List UInt8}
    (h : svc.build false key base rs = .ok (some page)) (rs' : List (Lsn × List UInt8)) :
    svc.build true key base (rs ++ rs') = svc.build true key (some page) rs' := by
  rw [build_some]
  cases rs with
  | nil =>
    unfold build at h
    cases hb : base.orElse fun _ => svc.frozen key with
    | none =>
      rw [hb] at h
      cases h
    | some p =>
      rw [hb] at h
      obtain rfl := Option.some.inj (Except.ok.inj h)
      have hfrom : svc.build true key base ([] ++ rs') = svc.build true key (some p) rs' := by
        unfold build
        rw [hb]
        rfl
      rw [hfrom, build_some, hx.restamped]
      cases hpool : svc.pool with
      | none => rfl
      | some pool =>
        dsimp only
        rw [hx.unstamped pool hpool]
  | cons r rs =>
    obtain ⟨l, bytes⟩ := r
    unfold build at h ⊢
    generalize hb : (base.orElse fun _ => svc.frozen key) = b at h ⊢
    dsimp only [List.cons_append] at h ⊢
    have hu : svc.usable key b ((l, bytes) :: rs) = true := by
      by_contra hno
      rw [if_neg hno] at h
      cases h
    have hu' : svc.usable key b ((l, bytes) :: (rs ++ rs')) = true := hu
    rw [if_pos hu] at h
    rw [if_pos hu']
    cases hpool : svc.pool with
    | none =>
      rw [hpool] at h
      cases h
    | some pool =>
      rw [hpool] at h
      dsimp only at h ⊢
      cases happ : pool.apply key b ((l, bytes) :: rs) with
      | error e =>
        rw [happ] at h
        cases h
      | ok p =>
        rw [happ] at h
        obtain rfl := Option.some.inj (Except.ok.inj h)
        by_cases hnil : rs' = []
        · rw [hnil, List.append_nil, happ, if_pos rfl, hx.restamped]
        · rw [if_neg hnil, hx.unstamped pool hpool]
          have hr := hx.resumes pool hpool key b ((l, bytes) :: rs) p rs' (by simp) hnil happ
          rw [List.cons_append] at hr
          rw [hr]

theorem relSize_resumes {base : Option (List UInt8)} {n : Nat}
    (h : relSize base rs = .ok (some n)) (rs' : List (Lsn × List UInt8)) :
    relSize base (rs ++ rs') = relSize (some (SizeRec.image n)) rs' := by
  unfold relSize at h
  by_cases hnone : base = none ∧ rs = []
  · rw [if_pos hnone] at h
    cases h
  · rw [if_neg hnone] at h
    have hfold : SizeRec.fold base rs = .ok n := by
      cases hf : SizeRec.fold base rs with
      | error e =>
        rw [hf] at h
        cases h
      | ok m =>
        rw [hf] at h
        cases h
        rfl
    have hnone' : ¬ (base = none ∧ rs ++ rs' = []) := by
      rintro ⟨h1, h2⟩
      exact hnone ⟨h1, (List.append_eq_nil_iff.mp h2).1⟩
    unfold relSize
    rw [if_neg hnone', if_neg (by simp), SizeRec.fold_resumes hfold]

end PageService

end Zou
