import Zou.Lib.Loop
import Zou.IngestFraming
import Zou.TailScanFraming

/-!
# The two walkers of the stream agree

The dirty log is fed by the scan and the redo pool by the walk of whole
records, two loops written apart. They take the same turns, so a scan that
succeeds reports what the records of the walk touch. It parses the first
4096 bytes behind a record's fixed header where the records parse all of
theirs: what parses from a prefix parses the same from the whole.

`recordEnd` computes the end of a record a third time, from the geometry
alone, and gets what the walk reported.

The loops are modelled with fuel. Each is also given here as a turn, the
body of the source's `while`, and the loop of its turns returns what the
fuelled form computes.
-/

namespace Zou

/-! ## Computations that succeed where others do -/

/-- What the computation returns has `Q`. -/
def Gives {ε α : Type} (x : Except ε α) (Q : α → Prop) : Prop := ∀ a, x = .ok a → Q a

namespace Gives

variable {ε α β : Type} {Q : α → Prop} {P : β → Prop}

theorem pure {a : α} (h : Q a) : Gives (Pure.pure a : Except ε α) Q := by
  intro b hb
  cases hb
  exact h

theorem error (e : ε) : Gives (.error e : Except ε α) Q := by
  nofun

theorem bind {x : Except ε α} {f : α → Except ε β} (h : Gives x Q)
    (hf : ∀ a, Q a → Gives (f a) P) : Gives (x >>= f) P := by
  intro b hb
  cases x with
  | error e => cases hb
  | ok a => exact hf a (h a rfl) b hb

theorem ite {p : Prop} [Decidable p] {x y : Except ε α} (h : Gives x Q) (h' : Gives y Q) :
    Gives (if p then x else y) Q := by
  split
  · exact h
  · exact h'

end Gives

/-- Where `x` succeeds `y` does, with the same value. -/
def Lifts {ε α : Type} (x y : Except ε α) : Prop := ∀ a, x = .ok a → y = .ok a

namespace Lifts

variable {ε α β : Type}

theorem refl (x : Except ε α) : Lifts x x := fun _ h => h

theorem bind {x y : Except ε α} {f g : α → Except ε β} (h : Lifts x y)
    (hf : ∀ a, x = .ok a → Lifts (f a) (g a)) : Lifts (x >>= f) (y >>= g) := by
  intro b hb
  cases x with
  | error e => cases hb
  | ok a =>
    rw [h a rfl]
    exact hf a rfl b hb

theorem ite {p : Prop} [Decidable p] {x y x' y' : Except ε α} (h : Lifts x x')
    (h' : Lifts y y') : Lifts (if p then x else y) (if p then x' else y') := by
  split
  · exact h
  · exact h'

end Lifts

/-! ## What parses from a prefix -/

namespace RefScan

variable {header : List UInt8}

theorem take_le {p n : Nat} {bytes : List UInt8} (h : take header p n = .ok bytes) :
    p + n ≤ header.length := by
  unfold take at h
  split at h
  · assumption
  · cases h

theorem take_front (k p n : Nat) : Lifts (take (header.take k) p n) (take header p n) := by
  intro bytes h
  have hle := take_le h
  unfold take at h ⊢
  rw [if_pos hle] at h
  rw [List.length_take] at hle
  cases h
  rw [if_pos (by omega), List.drop_take, List.take_take, Nat.min_eq_left (by omega)]

theorem blockItem_front (k : Nat) (s : RefScan) :
    Lifts (blockItem (header.take k) s) (blockItem header s) := by
  have htake : ∀ p n : Nat, Lifts (take (header.take k) p n) (take header p n) := take_front k
  unfold blockItem
  simp only [pure_bind]
  -- The rule of every statement in turn, down to the match on the relation.
  repeat' first
    | refine .bind (htake _ _) fun _ _ => ?_
    | refine .ite ?_ ?_
    | exact .refl _
    | split

theorem blockItem_pos (s : RefScan) :
    Gives (blockItem header s) fun s' => s.p < s'.p ∧ s'.p ≤ header.length := by
  have htake : ∀ p n : Nat, Gives (take header p n) fun _ => p + n ≤ header.length :=
    fun p n bytes h => take_le h
  unfold blockItem
  simp only [pure_bind]
  repeat' first
    | refine .bind (htake _ _) fun _ _ => ?_
    | refine .ite ?_ ?_
    | refine .pure ?_
    | exact .error _
    | split
  all_goals
    dsimp only at *
    omega

/-- One turn of the loop over the items. -/
def itemsTurn (header : List UInt8) (s : RefScan) : Except Corrupt RefScan ⊕ RefScan :=
  if s.remaining ≤ s.datatotal then .inl (.ok s) else
  match take header s.p 1 with
  | .error e => .inl (.error e)
  | .ok bytes =>
    let id := fromLe bytes
    let s := { s with p := s.p + 1, remaining := s.remaining - 1 }
    if id = 255 then .inl ((take header s.p 1).map fun _ => { s with p := s.p + 1 })
    else if id = 254 then .inl ((take header s.p 4).map fun _ => { s with p := s.p + 4 })
    else if id = 253 then
      Loop.orLeave ((take header s.p 2).map fun _ =>
        { s with p := s.p + 2, remaining := s.remaining - 2 })
    else if id = 252 then
      Loop.orLeave ((take header s.p 4).map fun _ =>
        { s with p := s.p + 4, remaining := s.remaining - 4 })
    else if id ≤ 32 then Loop.orLeave (blockItem header s)
    else .inl (.error (.unknownBlockId id))

theorem items_turn (fuel : Nat) (s : RefScan) :
    items header (fuel + 1) s = (itemsTurn header s).elim id (items header fuel) := by
  rw [items, itemsTurn]
  split
  · rfl
  · simp only [bind, Except.bind]
    cases take header s.p 1 with
    | error e => rfl
    | ok bytes =>
      dsimp only
      split
      · cases take header (s.p + 1) 1 <;> rfl
      · split
        · cases take header (s.p + 1) 4 <;> rfl
        · split
          · cases take header (s.p + 1) 2 <;> rfl
          · split
            · cases take header (s.p + 1) 4 <;> rfl
            · split
              · cases blockItem header { s with p := s.p + 1, remaining := s.remaining - 1 } <;>
                  rfl
              · rfl

theorem itemsTurn_pos {s s' : RefScan} (h : itemsTurn header s = .inr s') :
    s.p < s'.p ∧ s'.p ≤ header.length := by
  have hmap : ∀ {n : Nat} {f : List UInt8 → RefScan}, (∀ b, (f b).p = s.p + 1 + n) →
      Loop.orLeave ((take header (s.p + 1) n).map f) = (.inr s' : Except Corrupt RefScan ⊕ RefScan) →
      s.p < s'.p ∧ s'.p ≤ header.length := by
    intro n f hf h
    cases ht : take header (s.p + 1) n with
    | error e =>
      rw [ht] at h
      cases h
    | ok bytes =>
      rw [ht] at h
      cases h
      have hle := take_le ht
      rw [hf bytes]
      omega
  unfold itemsTurn at h
  split at h
  · cases h
  · split at h
    · cases h
    · dsimp only at h
      split at h
      · cases h
      · split at h
        · cases h
        · split at h
          · exact hmap (fun _ => rfl) h
          · split at h
            · exact hmap (fun _ => rfl) h
            · split at h
              · cases hb : blockItem header { s with p := s.p + 1, remaining := s.remaining - 1 } with
                | error e =>
                  rw [hb] at h
                  cases h
                | ok t =>
                  rw [hb] at h
                  cases h
                  have hpos := blockItem_pos _ _ hb
                  dsimp only at hpos
                  omega
              · cases h

/-- The items of a prefix are items of the whole. The fuel covers the bytes
not taken yet, so neither loop ends for want of it. -/
theorem items_front (k : Nat) : ∀ {a b : Nat} {s : RefScan}, s.p ≤ (header.take k).length →
    (header.take k).length < s.p + a → a ≤ b →
    Lifts (items (header.take k) a s) (items header b s) := by
  have htake : ∀ p n : Nat, Lifts (take (header.take k) p n) (take header p n) := take_front k
  intro a
  induction a with
  | zero =>
    intro b s hp ha
    omega
  | succ a ih =>
    intro b s hp ha hab
    obtain ⟨b, rfl⟩ : ∃ b', b = b' + 1 := ⟨b - 1, by omega⟩
    rw [items, items]
    refine .ite (.refl _) (.bind (htake _ _) fun id hid => ?_)
    refine .ite (.bind (htake _ _) fun _ _ => .refl _) ?_
    refine .ite (.bind (htake _ _) fun _ _ => .refl _) ?_
    refine .ite (.bind (htake _ _) fun _ ht => ?_) ?_
    · have hle := take_le ht
      exact ih (by dsimp only; omega) (by dsimp only; omega) (by omega)
    refine .ite (.bind (htake _ _) fun _ ht => ?_) ?_
    · have hle := take_le ht
      exact ih (by dsimp only; omega) (by dsimp only; omega) (by omega)
    refine .ite (.bind (blockItem_front k _) fun s' hs' => ?_) (.refl _)
    have hpos := blockItem_pos _ _ hs'
    dsimp only at hpos
    exact ih (by omega) (by omega) (by omega)

end RefScan

theorem smgrEvent_front {header : List UInt8} (k main info : Nat) :
    Lifts (smgrEvent (header.take k) main info) (smgrEvent header main info) := by
  have hfield : ∀ at_ : Nat, Lifts
      (if at_ + 4 ≤ (header.take k).length then
        .ok (fromLe (((header.take k).drop at_).take 4)) else .error Corrupt.smgrTooShort)
      (if at_ + 4 ≤ header.length then .ok (fromLe ((header.drop at_).take 4))
        else .error Corrupt.smgrTooShort) := by
    intro at_ v h
    split at h
    · rename_i hle
      cases h
      rw [List.length_take] at hle
      rw [if_pos (by omega), List.drop_take, List.take_take, Nat.min_eq_left (by omega)]
    · cases h
  unfold smgrEvent
  repeat' first
    | refine .bind (hfield _) fun _ _ => ?_
    | refine .ite ?_ ?_
    | exact .refl _

theorem recordBlockRefs_front {header : List UInt8} (k totLen info rmid : Nat) :
    Lifts (recordBlockRefs (header.take k) totLen info rmid)
      (recordBlockRefs header totLen info rmid) := by
  unfold recordBlockRefs
  refine .bind (RefScan.items_front k (Nat.zero_le _) ?_ ?_) fun s _ => ?_
  · dsimp only
    omega
  · rw [List.length_take]
    omega
  repeat' first
    | refine .bind (smgrEvent_front k _ _) fun _ _ => ?_
    | refine .ite ?_ ?_
    | exact .refl _

/-- What the scan makes of a record is what the record says of itself. -/
theorem WalRecord.head_blockRefs {r : WalRecord} {out : RecordRefs}
    (h : r.head.blockRefs = .ok out) :
    recordBlockRefs (r.bytes.drop recordHeader) r.bytes.length r.info r.rmid = .ok out :=
  recordBlockRefs_front headCap _ _ _ out h

/-! ## The end of a record -/

/-- The loop of `record_end`. Every turn takes at least one byte, so the
number of them is fuel enough. -/
def recordStop : Nat → Nat → Nat → Nat
  | 0, pos, _ => pos
  | fuel + 1, pos, remaining =>
    if remaining = 0 then pos else
    let pos := if pos % xlogBlcksz = 0 then pos + WalWindow.phd pos else pos
    let run := min (xlogBlcksz - pos % xlogBlcksz) remaining
    recordStop fuel (pos + run) (remaining - run)

/-- The aligned end of a record `totLen` bytes long starting at `lsn`. -/
def recordEnd (lsn totLen : Nat) : Nat := alignUp (recordStop totLen lsn totLen)

namespace WalWindow

variable {w : WalWindow}

theorem skipPageHeaderWithin_eq {pos pos' : Nat} (h : w.skipPageHeaderWithin pos = .ok pos') :
    pos' = if pos % xlogBlcksz = 0 then pos + phd pos else pos := by
  unfold skipPageHeaderWithin skipPageHeader at h
  by_cases hb : pos % xlogBlcksz = 0
  · rw [if_pos hb]
    rw [if_neg (Decidable.not_not.mpr hb)] at h
    cases hat : w.at_ pos 4 with
    | error e =>
      rw [hat] at h
      cases h
    | ok header =>
      rw [hat] at h
      dsimp only at h
      by_cases hm : fromLe (header.take 2) = xlogPageMagic
      · rw [if_neg (Decidable.not_not.mpr hm)] at h
        cases hd : decide (fromLe (header.drop 2) / 8 % 2 = 1) with
        | true =>
          rw [hd] at h
          cases h
        | false =>
          rw [hd] at h
          cases h
          rfl
      · rw [if_pos hm] at h
        cases h
  · rw [if_neg hb]
    rw [if_pos hb] at h
    cases h
    rfl

theorem readLoop_stop : ∀ {fuel pos n pos' : Nat} {bytes : List UInt8},
    w.readLoop fuel pos n = .ok (bytes, pos') → recordStop fuel pos n = pos' := by
  intro fuel
  induction fuel with
  | zero =>
    intro pos n pos' bytes h
    cases h
    rfl
  | succ fuel ih =>
    intro pos n pos' bytes h
    unfold readLoop at h
    unfold recordStop
    by_cases hn : n = 0
    · rw [if_pos hn] at h ⊢
      cases h
      rfl
    · rw [if_neg hn] at h ⊢
      cases hs : w.skipPageHeaderWithin pos with
      | error e =>
        rw [hs] at h
        cases h
      | ok pos₁ =>
        rw [hs] at h
        rw [← skipPageHeaderWithin_eq hs]
        dsimp only at h ⊢
        cases hat : w.at_ pos₁ (min (xlogBlcksz - pos₁ % xlogBlcksz) n) with
        | error e =>
          rw [hat] at h
          cases h
        | ok run =>
          rw [hat] at h
          dsimp only at h
          split at h
          · cases h
          · rename_i rest pos₂ hrest
            cases h
            exact ih hrest

theorem readRecord_end {pos pos' : Nat} {r : WalRecord} (hb : w.base ≤ pos)
    (h : w.readRecord pos = .ok (r, pos')) : recordEnd r.lsn r.bytes.length = r.endLsn := by
  unfold readRecord at h
  split at h
  · cases h
  · rename_i fixed pos₁ hfixed
    dsimp only at h
    split at h
    · cases h
    · rename_i hlen
      split at h
      · cases h
      · rename_i body pos₂ hbody
        cases h
        have hflen : fixed.length = recordHeader := length_readLoop le_rfl hfixed
        have hblen : body.length = fromLe (fixed.take 4) - recordHeader :=
          length_readLoop le_rfl hbody
        have hread : w.read pos (recordHeader + (fromLe (fixed.take 4) - recordHeader))
            = .ok (fixed ++ body, pos₂) := by
          rw [read_add hb, hfixed]
          dsimp only
          rw [hbody]
        have hstop := readLoop_stop hread
        rw [recordEnd, List.length_append, hflen, hblen, hstop]
        rfl

theorem step_record {limit p p' : Nat} {o : Option WalRecord} {rec : WalRecord} (hb : w.base ≤ p)
    (h : w.step limit p = .ok (o, p')) (ho : rec ∈ o) :
    ∃ pos pos', w.base ≤ pos ∧ w.readRecord pos = .ok (rec, pos') := by
  unfold step at h
  split at h
  · cases h
  · split at h
    · cases h
      cases ho
    · split at h
      · cases h
      · rename_i ov pos hskip
        split at h
        · cases h
          cases ho
        · split at h
          · cases h
          · rename_i r pos' hr
            cases h
            cases ho
            exact ⟨pos, _, Nat.le_trans hb (skipPageHeader_le hskip).1, hr⟩

theorem mem_walk {limit : Nat} {strict : Bool} : ∀ {fuel p r : Nat} {R : List WalRecord},
    w.base ≤ p → w.walk limit strict fuel p = .ok (R, r) →
    ∀ rec ∈ R, ∃ pos pos', w.base ≤ pos ∧ w.readRecord pos = .ok (rec, pos') := by
  intro fuel
  induction fuel with
  | zero =>
    intro p r R _ h rec hrec
    cases h
    cases hrec
  | succ fuel ih =>
    intro p r R hb h rec hrec
    by_cases hp : p < limit
    · obtain ⟨hok, hab⟩ := step_pos (w := w) hp
      simp only [walk, if_pos hp] at h
      cases hs : w.step limit p with
      | error e =>
        rw [hs] at h
        cases e with
        | truncated =>
          dsimp only at h
          split at h
          · cases h
          · cases h
            cases hrec
        | aborted page => exact ih (Nat.le_trans hb (Nat.le_of_lt (hab page hs))) h rec hrec
        | corrupt c => cases h
      | ok out =>
        obtain ⟨o, p'⟩ := out
        rw [hs] at h
        dsimp only at h
        cases hw : w.walk limit strict fuel p' with
        | error e =>
          rw [hw] at h
          cases h
        | ok out =>
          obtain ⟨R', r'⟩ := out
          rw [hw] at h
          cases h
          rcases List.mem_append.mp hrec with ho | hR
          · exact step_record hb hs (Option.mem_toList.mp ho)
          · exact ih (Nat.le_trans hb (Nat.le_of_lt (hok o p' hs).1)) hw rec hR
    · rw [walk_stop (by omega)] at h
      cases h
      cases hrec

/-! ## The loops by their turns -/

open Loop

/-- A turn of the loop of `read`: the cursor, how much is left, and what was
read. -/
def readTurn (w : WalWindow) :
    Nat × Nat × List UInt8 → Except ScanErr (List UInt8 × Nat) ⊕ (Nat × Nat × List UInt8)
  | (pos, remaining, out) =>
    if remaining = 0 then .inl (.ok (out, pos)) else
    match w.skipPageHeaderWithin pos with
    | .error e => .inl (.error e)
    | .ok pos =>
      let run := min (xlogBlcksz - pos % xlogBlcksz) remaining
      match w.at_ pos run with
      | .error e => .inl (.error e)
      | .ok bytes => .inr (pos + run, remaining - run, out ++ bytes)

/-- A turn of the loop of `skip`. -/
def skipTurn (w : WalWindow) : Nat × Nat → Except ScanErr Nat ⊕ (Nat × Nat)
  | (pos, remaining) =>
    if remaining = 0 then .inl (.ok pos) else
    match w.skipPageHeaderWithin pos with
    | .error e => .inl (.error e)
    | .ok pos =>
      let run := min (xlogBlcksz - pos % xlogBlcksz) remaining
      if pos + run > w.end_ then .inl (.error .truncated)
      else .inr (pos + run, remaining - run)

/-- A turn of the loop of `scan` or of `read_records`, which differ in what
they make of a record. -/
def walkTurn {A : Type} (step : Nat → Except ScanErr (Option A × Nat)) (limit : Nat)
    (strict : Bool) : Nat × List A → Except WalError (List A × Nat) ⊕ (Nat × List A)
  | (pos, out) =>
    if pos < limit then
      match step pos with
      | .ok (r, pos') => .inr (pos', out ++ r.toList)
      | .error (.aborted page) => .inr (page, out)
      | .error .truncated => .inl (if strict then .error (.endsInside pos) else .ok (out, pos))
      | .error (.corrupt c) => .inl (.error (.corrupt c))
    else .inl (.ok (out, pos))

/-- Every loop of both walkers returns, and what it returns is what its
fuelled form computes. -/
structure Terminates (w : WalWindow) (start : Nat) (end_ : Option Nat) : Prop where
  records : Returns (walkTurn (w.step (end_.getD w.end_)) (end_.getD w.end_) end_.isSome)
    (start, []) (w.readRecords start end_)
  scan : ∃ r, Returns (walkTurn (w.scanStep (end_.getD w.end_)) (end_.getD w.end_) end_.isSome)
    (start, []) r ∧ w.scan start end_ = r.map fun out => collect out.1 out.2
  read : ∀ pos n, Returns w.readTurn (pos, n, []) (w.read pos n)
  skip : ∀ pos n, Returns w.skipTurn (pos, n) (w.skip pos n)
  items : ∀ (header : List UInt8) (s : RefScan), s.p = 0 →
    Returns (RefScan.itemsTurn header) s (RefScan.items header (header.length + 1) s)

theorem readLoop_fuelled (w : WalWindow) : Fuelled w.readTurn
    (fun fuel s => (w.readLoop fuel s.1 s.2.1).map fun x => (s.2.2 ++ x.1, x.2))
    (fun _ => True) (fun s => s.2.1) where
  zero := by
    rintro ⟨pos, n, out⟩ - rfl
    simp only [readTurn, if_true, readLoop, Except.map, List.append_nil]
  succ := by
    rintro fuel ⟨pos, n, out⟩
    simp only [readTurn, readLoop]
    by_cases hn : n = 0
    · simp only [if_pos hn, Except.map, List.append_nil, Sum.elim_inl, id_eq]
    · simp only [if_neg hn]
      cases w.skipPageHeaderWithin pos with
      | error e => rfl
      | ok pos₁ =>
        dsimp only
        cases w.at_ pos₁ (min (xlogBlcksz - pos₁ % xlogBlcksz) n) with
        | error e => rfl
        | ok bytes =>
          dsimp only [Sum.elim_inr]
          cases w.readLoop fuel (pos₁ + min (xlogBlcksz - pos₁ % xlogBlcksz) n)
              (n - min (xlogBlcksz - pos₁ % xlogBlcksz) n) with
          | error e => rfl
          | ok x => simp only [Except.map, List.append_assoc]
  again := by
    rintro ⟨pos, n, out⟩ s' - h
    refine ⟨trivial, ?_⟩
    simp only [readTurn] at h
    split at h
    · cases h
    · split at h
      · cases h
      · rename_i hn pos₁ _
        split at h
        · cases h
        · cases h
          have hlt : pos₁ % xlogBlcksz < xlogBlcksz := Nat.mod_lt _ (by decide)
          dsimp only
          omega

theorem skipLoop_fuelled (w : WalWindow) : Fuelled w.skipTurn
    (fun fuel s => w.skipLoop fuel s.1 s.2) (fun _ => True) (fun s => s.2) where
  zero := by
    rintro ⟨pos, n⟩ - rfl
    simp only [skipTurn, if_true, skipLoop]
  succ := by
    rintro fuel ⟨pos, n⟩
    simp only [skipTurn, skipLoop]
    by_cases hn : n = 0
    · simp only [if_pos hn, Sum.elim_inl, id_eq]
    · simp only [if_neg hn]
      cases w.skipPageHeaderWithin pos with
      | error e => rfl
      | ok pos₁ =>
        dsimp only
        split <;> rfl
  again := by
    rintro ⟨pos, n⟩ s' - h
    refine ⟨trivial, ?_⟩
    simp only [skipTurn] at h
    split at h
    · cases h
    · split at h
      · cases h
      · rename_i hn pos₁ _
        split at h
        · cases h
        · cases h
          have hlt : pos₁ % xlogBlcksz < xlogBlcksz := Nat.mod_lt _ (by decide)
          omega

theorem walkLoop_fuelled {A : Type} (turn : Nat → Except ScanErr (Option A × Nat)) (limit : Nat)
    (strict : Bool) (loop : Nat → Nat → Except WalError (List A × Nat))
    (hzero : ∀ pos, loop 0 pos = .ok ([], pos))
    (hsucc : ∀ fuel pos, loop (fuel + 1) pos =
      if pos < limit then
        match turn pos with
        | .ok (r, pos') => (loop fuel pos').map fun out => (r.toList ++ out.1, out.2)
        | .error (.aborted page) => loop fuel page
        | .error .truncated => if strict then .error (.endsInside pos) else .ok ([], pos)
        | .error (.corrupt c) => .error (.corrupt c)
      else .ok ([], pos))
    (hpos : ∀ pos, pos < limit → (∀ r pos', turn pos = .ok (r, pos') → pos < pos')
      ∧ ∀ page, turn pos = .error (.aborted page) → pos < page) :
    Fuelled (walkTurn turn limit strict)
      (fun fuel s => (loop fuel s.1).map fun x => (s.2 ++ x.1, x.2))
      (fun _ => True) (fun s => limit - s.1) where
  zero := by
    rintro ⟨pos, out⟩ - hμ
    have hle : ¬ pos < limit := by
      omega
    simp only [walkTurn, if_neg hle, hzero, Except.map, List.append_nil]
  succ := by
    rintro fuel ⟨pos, out⟩
    simp only [walkTurn, hsucc]
    split
    · cases turn pos with
      | error e =>
        cases e with
        | truncated => cases strict <;> simp [Except.map]
        | aborted page => rfl
        | corrupt c => rfl
      | ok x =>
        dsimp only [Sum.elim_inr]
        cases loop fuel x.2 with
        | error e => rfl
        | ok y => simp only [Except.map, List.append_assoc]
    · simp only [Except.map, List.append_nil, Sum.elim_inl, id_eq]
  again := by
    rintro ⟨pos, out⟩ s' - h
    refine ⟨trivial, ?_⟩
    simp only [walkTurn] at h
    split at h
    · rename_i hlt
      obtain ⟨hok, hab⟩ := hpos pos hlt
      split at h
      · rename_i r pos' ht
        cases h
        have hmove := hok r pos' ht
        omega
      · rename_i page ht
        cases h
        have hmove := hab page ht
        omega
      · cases h
      · cases h
    · cases h

theorem step_below {limit p : Nat} (h : p < w.base) :
    w.step limit p = .error .truncated ∧ w.scanStep limit p = .error .truncated := by
  have hat : w.at_ p 4 = .error .truncated := by
    unfold at_
    rw [if_neg fun hle => absurd hle.1 (Nat.not_le.mpr h)]
  simp only [step, scanStep, hat, and_self]

/-- A turn of the scan moves the cursor where the turn of the walk does. -/
theorem scanStep_forward {limit p : Nat} (hp : p < limit) :
    (∀ o p', w.scanStep limit p = .ok (o, p') → p < p')
      ∧ ∀ page, w.scanStep limit p = .error (.aborted page) → p < page := by
  by_cases hb : w.base ≤ p
  · obtain ⟨hok, hab⟩ := step_pos (w := w) hp
    cases hs : w.step limit p with
    | ok out =>
      obtain ⟨o, p'⟩ := out
      have hlt := (hok o p' hs).1
      rcases scanStep_ok hb hs with ⟨rfl, heq⟩ | ⟨r, rfl, heq⟩
      · rw [heq]
        exact ⟨fun _ _ h => (by cases h; exact hlt), nofun⟩
      · rw [heq]
        cases r.head.blockRefs with
        | error c => exact ⟨nofun, nofun⟩
        | ok refs => exact ⟨fun _ _ h => (by cases h; exact hlt), nofun⟩
    | error e =>
      rcases scanStep_error hb hs with heq | ⟨c, c', rfl, heq⟩
      · rw [heq]
        refine ⟨nofun, fun page h => ?_⟩
        cases h
        exact hab page hs
      · rw [heq]
        exact ⟨nofun, nofun⟩
  · rw [(step_below (Nat.not_le.mp hb)).2]
    exact ⟨nofun, nofun⟩

theorem map_nil_append {A : Type} (x : Except WalError (List A × Nat)) :
    (x.map fun y => (([] : List A) ++ y.1, y.2)) = x := by
  cases x <;> rfl

theorem terminates (w : WalWindow) (start : Nat) (end_ : Option Nat) : w.Terminates start end_ where
  records := by
    have hpos : ∀ pos, pos < end_.getD w.end_ →
        (∀ r pos', w.step (end_.getD w.end_) pos = .ok (r, pos') → pos < pos')
          ∧ ∀ page, w.step (end_.getD w.end_) pos = .error (.aborted page) → pos < page :=
      fun pos h => ⟨fun r pos' hs => ((step_pos h).1 r pos' hs).1, (step_pos h).2⟩
    have hret := (walkLoop_fuelled _ _ end_.isSome (w.walk (end_.getD w.end_) end_.isSome)
      (fun _ => rfl) (fun fuel pos => by
        rw [walk]
        rcases w.step (end_.getD w.end_) pos with (_ | _ | _) | out <;> rfl) hpos).returns (s := (start, [])) trivial le_rfl
    rw [map_nil_append] at hret
    exact hret
  scan := by
    have hret := (walkLoop_fuelled (w.scanStep (end_.getD w.end_)) _ end_.isSome
      (w.scanWalk (end_.getD w.end_) end_.isSome) (fun _ => rfl) (fun fuel pos => by
        rw [scanWalk]
        rcases w.scanStep (end_.getD w.end_) pos with (_ | _ | _) | out <;> rfl)
      fun _ h => scanStep_forward h).returns (s := (start, [])) trivial le_rfl
    rw [map_nil_append] at hret
    exact ⟨_, hret, rfl⟩
  read := by
    intro pos n
    have hret := (readLoop_fuelled w).returns (s := (pos, n, [])) trivial le_rfl
    have hnil : ((w.readLoop n pos n).map fun x => (([] : List UInt8) ++ x.1, x.2))
        = w.read pos n := by
      unfold read
      cases w.readLoop n pos n <;> rfl
    rw [hnil] at hret
    exact hret
  skip := fun pos n => (skipLoop_fuelled w).returns (s := (pos, n)) trivial le_rfl
  items := by
    intro header s hs
    have hfuelled : Fuelled (RefScan.itemsTurn header) (RefScan.items header)
        (fun t => t.p ≤ header.length) (fun t => header.length + 1 - t.p) := {
      zero := fun {t} ht hμ => by omega
      succ := RefScan.items_turn
      again := fun {t t'} ht h => by
        have hpos := RefScan.itemsTurn_pos h
        omega }
    exact hfuelled.returns (by omega) (by omega)

/-! ## Agreement -/

end WalWindow

/-- The blocks the record references. -/
def WalRecord.blockRefs (r : WalRecord) : Except Corrupt (List BlockRef) :=
  (recordBlockRefs (r.bytes.drop recordHeader) r.bytes.length r.info r.rmid).map
    fun out => out.refs.map Prod.fst

/-- Some record references the block. -/
def Referenced (R : List WalRecord) (b : BlockRef) : Prop :=
  ∃ r ∈ R, ∃ refs, r.blockRefs = .ok refs ∧ b ∈ refs

/-- Some record truncates the relation to the cutoff. -/
def Truncated (R : List WalRecord) (e : RelTag × Nat) : Prop :=
  ∃ r ∈ R, ∃ out, r.refsAndTruncs = .ok out ∧ e ∈ out.2

namespace WalWindow

variable {w : WalWindow} {R : List WalRecord} {outs : List RecordRefs}

theorem Reads.mem_iff (h : Reads R outs) {Q : RecordRefs → Prop} : (∃ out ∈ outs, Q out) ↔
      ∃ r ∈ R, ∃ out, recordBlockRefs (r.bytes.drop recordHeader) r.bytes.length r.info r.rmid
        = .ok out ∧ Q out := by
  induction h with
  | nil => simp
  | cons hr _ ih =>
    have hfull := WalRecord.head_blockRefs hr
    simp only [List.mem_cons, exists_eq_or_imp, ih, hfull, Except.ok.injEq, exists_eq_left']

theorem Reads.blockRefs (h : Reads R outs) : ∀ r ∈ R, ∃ refs, r.blockRefs = .ok refs := by
  induction h with
  | nil => exact nofun
  | cons hr _ ih =>
    intro r hmem
    rcases List.mem_cons.mp hmem with rfl | hmem
    · exact ⟨_, by rw [WalRecord.blockRefs, WalRecord.head_blockRefs hr]; rfl⟩
    · exact ih r hmem

theorem Reads.referenced (h : Reads R outs)
    (b : BlockRef) : (∃ out ∈ outs, b ∈ out.refs.map Prod.fst) ↔ Referenced R b := by
  rw [h.mem_iff (Q := fun out => b ∈ out.refs.map Prod.fst)]
  refine exists_congr fun r => and_congr_right fun _ => ?_
  unfold WalRecord.blockRefs
  cases recordBlockRefs (r.bytes.drop recordHeader) r.bytes.length r.info r.rmid with
  | error c => simp [Except.map]
  | ok out => simp [Except.map]

theorem Reads.cut (h : Reads R outs)
    (e : RelTag × Nat) : (∃ out ∈ outs, e ∈ out.truncs) ↔ Truncated R e := by
  rw [h.mem_iff (Q := fun out => e ∈ out.truncs)]
  refine exists_congr fun r => and_congr_right fun _ => ?_
  unfold WalRecord.refsAndTruncs
  cases recordBlockRefs (r.bytes.drop recordHeader) r.bytes.length r.info r.rmid with
  | error c => simp [Except.map]
  | ok out => simp [Except.map]

theorem walk_below {limit : Nat} {strict : Bool} {fuel p : Nat} (h : p < w.base) :
    w.walk limit strict fuel p
        = (if 0 < fuel ∧ p < limit ∧ strict then .error (.endsInside p) else .ok ([], p))
      ∧ w.scanWalk limit strict fuel p
        = if 0 < fuel ∧ p < limit ∧ strict then .error (.endsInside p) else .ok ([], p) := by
  cases fuel with
  | zero => exact ⟨rfl, rfl⟩
  | succ fuel =>
    simp only [scanWalk, walk, (step_below h).1, (step_below h).2]
    by_cases hp : p < limit
    · cases strict <;> simp [hp]
    · simp [hp]

theorem scanWalk_reads {limit : Nat} {strict : Bool} {fuel p : Nat}
    {r : Nat} (h : w.scanWalk limit strict fuel p = .ok (outs, r)) :
    ∃ R, w.walk limit strict fuel p = .ok (R, r) ∧ Reads R outs := by
  by_cases hb : w.base ≤ p
  · exact (scanWalk_ok hb).mp h
  · have hp := Nat.not_le.mp hb
    rw [(walk_below hp).2] at h
    rw [(walk_below hp).1]
    split at h
    · cases h
    · rename_i hno
      cases h
      exact ⟨[], if_neg hno, List.Forall₂.nil⟩

theorem readRecords_end {start : Nat} {end_ : Option Nat} {resume : Nat}
    (h : w.readRecords start end_ = .ok (R, resume)) :
    ∀ r ∈ R, recordEnd r.lsn r.bytes.length = r.endLsn := by
  intro r hr
  unfold readRecords at h
  by_cases hb : w.base ≤ start
  · obtain ⟨pos, pos', hpos, hread⟩ := mem_walk hb h r hr
    exact readRecord_end hpos hread
  · rw [(walk_below (Nat.not_le.mp hb)).1] at h
    split at h
    · cases h
    · cases h
      cases hr

/-- A scan that succeeds resumes where the walk of the records does, names
the blocks they reference and the smallest cutoff of every relation they
truncate. The geometry gives the end the walk reports of each. Every loop
of both returns. -/
theorem walkers_agree (w : WalWindow) (start : Nat) (end_ : Option Nat) :
    (∀ out, w.scan start end_ = .ok out →
      ∃ R, w.readRecords start end_ = .ok (R, out.resume)
        ∧ (∀ r ∈ R, ∃ refs, r.blockRefs = .ok refs)
        ∧ out.refs.Pairwise (· < ·) ∧ (∀ b, b ∈ out.refs ↔ Referenced R b)
        ∧ out.truncs.Pairwise (fun a b => a.1 < b.1)
        ∧ ∀ e, e ∈ out.truncs ↔ Truncated R e ∧ ∀ cut, Truncated R (e.1, cut) → e.2 ≤ cut)
      ∧ (∀ R resume, w.readRecords start end_ = .ok (R, resume) →
        ∀ r ∈ R, recordEnd r.lsn r.bytes.length = r.endLsn)
      ∧ w.Terminates start end_ := by
  refine ⟨fun out h => ?_, fun R resume h => readRecords_end h, terminates w start end_⟩
  cases hw : w.scanWalk (end_.getD w.end_) end_.isSome (end_.getD w.end_ - start) start with
  | error e =>
    simp only [scan, hw] at h
    cases h
  | ok res =>
    obtain ⟨outs, resume⟩ := res
    simp only [scan, hw] at h
    cases h
    obtain ⟨R, hR, hreads⟩ := scanWalk_reads hw
    refine ⟨R, hR, hreads.blockRefs, ?_, fun b => ?_, OrdMap.sortedFirsts_sorted _, fun e => ?_⟩
    · change (collect outs resume).refs.Pairwise (· < ·)
      have hsorted : ((outs.flatMap fun o => o.refs.map Prod.fst).insertionSort
          (· ≤ ·)).Pairwise (· ≤ ·) := List.pairwise_insertionSort _ _
      exact OrdMap.destutter_ne_sorted hsorted
    · rw [DirtySets.mem_collect_refs, List.mem_flatMap]
      exact hreads.referenced b
    · rw [DirtySets.mem_collect_truncs, OrdMap.Least, List.mem_flatMap, hreads.cut]
      refine and_congr_right fun _ => forall_congr' fun cut => ?_
      rw [List.mem_flatMap, hreads.cut]

/-- The first record is cut after 32 bytes by the header of the next page;
another one that initialises a block follows it. -/
def crossing : WalWindow where
  base := 8160
  buf :=
    let header : List UInt8 :=
      [0x18, 0xD1, 1, 0] ++ List.replicate 12 0 ++ [12, 0, 0, 0] ++ List.replicate 4 0
    ShardIngest.initRecord.take 32 ++ header ++ ShardIngest.initRecord.drop 32
      ++ List.replicate 4 0 ++ ShardIngest.initRecord.set 40 6 ++ List.replicate 4 0

theorem walkers_agree_crossing :
    ∃ R, crossing.readRecords 8160 none = .ok (R, 8280)
      ∧ Referenced R ⟨1, 2, 3, 0, 5⟩ ∧ Referenced R ⟨1, 2, 3, 0, 6⟩
      ∧ ∀ r ∈ R, recordEnd r.lsn r.bytes.length = r.endLsn := by
  obtain ⟨hscan, hends, -⟩ := walkers_agree crossing 8160 none
  obtain ⟨R, hR, -, -, hrefs, -⟩ := hscan
    ⟨[⟨1, 2, 3, 0, 5⟩, ⟨1, 2, 3, 0, 6⟩], [], [], 8280⟩ (by decide +kernel)
  exact ⟨R, hR, (hrefs _).mp (by decide), (hrefs _).mp (by decide), hends R _ hR⟩

end WalWindow

end Zou
