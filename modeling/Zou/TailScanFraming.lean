import Zou.TailScan
import Zou.WalFraming

/-!
# The tail scan does not depend on chunking

A scan reads the head of a record and skips its rest where the walk of
records reads all of it, so both take the same turns, and what is known
about walks of a stream carries over. The tail scan resumes where its last
scan stopped. Every longer walk of the stream goes through that point, or
through the page header in front of it, and so the scans together see the
records of one scan over everything.

The resume point of a scan can lie past the bytes held, and then the drop
of the bytes consumed panics. This is the one way to fail, and it takes a
window that ends inside filler behind a record boundary: switch padding, a
page header, or the padding that aligns the end of a record.
-/

namespace Zou

open WalStream

/-- What a scan reads of a record. -/
def WalRecord.head (r : WalRecord) : RecordHead where
  totLen := r.bytes.length
  info := r.info
  rmid := r.rmid
  header := (r.bytes.drop recordHeader).take headCap

namespace WalWindow

variable {w : WalWindow}

/-! ## Reading in two pieces -/

variable {pos : Nat}

theorem at_append {x y : Nat} (hb : w.base ≤ pos) : w.at_ pos (x + y) = match w.at_ pos x with
      | .error e => .error e
      | .ok bytes => match w.at_ (pos + x) y with
          | .error e => .error e
          | .ok rest => .ok (bytes ++ rest) := by
  have hsub : pos + x - w.base = pos - w.base + x := by omega
  unfold at_
  rw [hsub]
  by_cases hxy : w.base ≤ pos ∧ pos - w.base + (x + y) ≤ w.buf.length
  · have hx : w.base ≤ pos ∧ pos - w.base + x ≤ w.buf.length := by omega
    have hy : w.base ≤ pos + x ∧ pos - w.base + x + y ≤ w.buf.length := by omega
    rw [if_pos hxy, if_pos hx, if_pos hy]
    simp only [Except.ok.injEq]
    rw [List.take_add, List.drop_drop]
  · have hy : ¬ (w.base ≤ pos + x ∧ pos - w.base + x + y ≤ w.buf.length) := by omega
    rw [if_neg hxy, if_neg hy]
    split
    · rename_i e hat
      split at hat
      · cases hat
      · exact hat
    · rfl

theorem readLoop_fuel : ∀ {a b pos n : Nat}, n ≤ a → n ≤ b →
    w.readLoop a pos n = w.readLoop b pos n := by
  intro a
  induction a with
  | zero =>
    intro b pos n ha hb
    obtain rfl : n = 0 := by omega
    cases b <;> simp [readLoop]
  | succ a ih =>
    intro b pos n ha hb
    by_cases hn : n = 0
    · subst hn
      cases b <;> simp [readLoop]
    · obtain ⟨b, rfl⟩ : ∃ b', b = b' + 1 := ⟨b - 1, by omega⟩
      simp only [readLoop, if_neg hn]
      cases w.skipPageHeaderWithin pos with
      | error e => rfl
      | ok pos₁ =>
        dsimp only
        have hrun : 0 < min (xlogBlcksz - pos₁ % xlogBlcksz) n := by
          have hlt : pos₁ % xlogBlcksz < xlogBlcksz := Nat.mod_lt _ (by decide)
          omega
        rw [ih (b := b) (by omega) (by omega)]

theorem read_add {x y : Nat} : ∀ {pos : Nat}, w.base ≤ pos →
    w.read pos (x + y) = match w.read pos x with
      | .error e => .error e
      | .ok (bytes, pos') => match w.read pos' y with
          | .error e => .error e
          | .ok (rest, pos'') => .ok (bytes ++ rest, pos'') := by
  induction x using Nat.strongRecOn with
  | _ x ih =>
    intro pos hb
    by_cases hx : x = 0
    · subst hx
      rw [Nat.zero_add]
      have hnil : w.read pos 0 = .ok ([], pos) := rfl
      rw [hnil]
      dsimp only
      cases w.read pos y with
      | error e => rfl
      | ok out => rfl
    · have hfuel : x + y = x + y - 1 + 1 := by omega
      have hfuel' : x = x - 1 + 1 := by omega
      have hl : w.read pos (x + y) = w.readLoop (x + y - 1 + 1) pos (x + y) := by
        rw [← hfuel]; rfl
      have hr : w.read pos x = w.readLoop (x - 1 + 1) pos x := by
        rw [← hfuel']; rfl
      rw [hl, hr]
      simp only [readLoop, if_neg hx, if_neg (show x + y ≠ 0 by omega)]
      cases hs : w.skipPageHeaderWithin pos with
      | error e => rfl
      | ok pos₁ =>
        have hb₁ : w.base ≤ pos₁ :=
          Nat.le_trans hb ((skipPageHeaderWithin_pos w pos).1 pos₁ hs).1
        dsimp only
        generalize hroom : xlogBlcksz - pos₁ % xlogBlcksz = room
        have hpos : 0 < room := by
          have hlt : pos₁ % xlogBlcksz < xlogBlcksz := Nat.mod_lt _ (by decide)
          omega
        by_cases hle : room ≤ x
        · -- The page ends inside the first piece.
          rw [Nat.min_eq_left hle, Nat.min_eq_left (by omega : room ≤ x + y)]
          cases w.at_ pos₁ room with
          | error e => rfl
          | ok bytes =>
            have hsplit : w.read (pos₁ + room) (x - room + y) = _ :=
              ih (x - room) (by omega) (by omega)
            have hlen : x + y - room = x - room + y := by omega
            rw [hlen, readLoop_fuel (b := x - room + y) (by omega) le_rfl,
              readLoop_fuel (a := x - 1) (b := x - room) (by omega) le_rfl]
            have hl' : w.readLoop (x - room + y) (pos₁ + room) (x - room + y)
                = w.read (pos₁ + room) (x - room + y) := rfl
            have hr' : w.readLoop (x - room) (pos₁ + room) (x - room)
                = w.read (pos₁ + room) (x - room) := rfl
            rw [hl', hr', hsplit]
            cases w.read (pos₁ + room) (x - room) with
            | error e => rfl
            | ok out =>
              obtain ⟨b₁, p₁⟩ := out
              dsimp only
              cases w.read p₁ y with
              | error e => rfl
              | ok out => simp [List.append_assoc]
        · -- The second piece starts on the page the first one ends on.
          have hlt : x < room := by omega
          rw [Nat.min_eq_right (by omega : x ≤ room), Nat.sub_self]
          have hdone : w.readLoop (x - 1) (pos₁ + x) 0 = .ok ([], pos₁ + x) := by
            cases x - 1 <;> simp [readLoop]
          rw [hdone]
          by_cases hy : y = 0
          · subst hy
            rw [Nat.add_zero, Nat.min_eq_right (by omega : x ≤ room), Nat.sub_self, hdone]
            cases w.at_ pos₁ x with
            | error e => rfl
            | ok bytes => simp [read, readLoop]
          · have hroom' : xlogBlcksz - (pos₁ + x) % xlogBlcksz = room - x := by
              unfold xlogBlcksz at *
              omega
            have hskip : w.skipPageHeaderWithin (pos₁ + x) = .ok (pos₁ + x) := by
              have hne : (pos₁ + x) % xlogBlcksz ≠ 0 := by
                unfold xlogBlcksz at *
                omega
              simp only [skipPageHeaderWithin, skipPageHeader, if_pos hne]
            have hmin : min room (x + y) = x + min (room - x) y := by omega
            have hyf : w.read (pos₁ + x) y = w.readLoop (y - 1 + 1) (pos₁ + x) y := by
              have hy1 : y - 1 + 1 = y := by omega
              rw [hy1]; rfl
            rw [hmin, at_append hb₁]
            cases w.at_ pos₁ x with
            | error e => rfl
            | ok bytes =>
              dsimp only
              rw [List.append_nil, hyf]
              simp only [readLoop, if_neg hy, hskip, hroom']
              cases w.at_ (pos₁ + x) (min (room - x) y) with
              | error e => rfl
              | ok rest =>
                have hrem : x + y - (x + min (room - x) y) = y - min (room - x) y := by
                  omega
                rw [hrem, ← Nat.add_assoc,
                  readLoop_fuel (a := x + y - 1) (b := y - 1) (by omega) (by omega)]
                cases w.readLoop (y - 1) (pos₁ + x + min (room - x) y)
                    (y - min (room - x) y) with
                | error e => rfl
                | ok out => simp [List.append_assoc]

theorem skipLoop_eq : ∀ {fuel pos n : Nat}, w.base ≤ pos →
    w.skipLoop fuel pos n = (w.readLoop fuel pos n).map Prod.snd := by
  intro fuel
  induction fuel with
  | zero => intro pos n _; rfl
  | succ fuel ih =>
    intro pos n hb
    by_cases hn : n = 0
    · simp [skipLoop, readLoop, hn, Except.map]
    · simp only [skipLoop, readLoop, if_neg hn]
      cases hs : w.skipPageHeaderWithin pos with
      | error e => rfl
      | ok pos₁ =>
        have hb₁ : w.base ≤ pos₁ :=
          Nat.le_trans hb ((skipPageHeaderWithin_pos w pos).1 pos₁ hs).1
        dsimp only
        generalize min (xlogBlcksz - pos₁ % xlogBlcksz) n = run
        unfold at_
        by_cases hfit : w.base ≤ pos₁ ∧ pos₁ - w.base + run ≤ w.buf.length
        · have hend : ¬ pos₁ + run > w.end_ := by unfold end_; omega
          rw [if_pos hfit, if_neg hend, ih (by omega)]
          dsimp only
          cases w.readLoop fuel (pos₁ + run) (n - run) <;> rfl
        · have hend : pos₁ + run > w.end_ := by unfold end_; omega
          rw [if_neg hfit, if_pos hend]
          rfl

theorem length_readLoop : ∀ {fuel pos n : Nat} {bytes : List UInt8} {pos' : Nat}, n ≤ fuel →
    w.readLoop fuel pos n = .ok (bytes, pos') → bytes.length = n := by
  intro fuel
  induction fuel with
  | zero =>
    intro pos n bytes pos' hn h
    cases h
    simp only [List.length_nil]
    omega
  | succ fuel ih =>
    intro pos n bytes pos' hn h
    by_cases hz : n = 0
    · subst hz
      simp only [readLoop, if_true] at h
      cases h
      rfl
    · simp only [readLoop, if_neg hz] at h
      split at h
      · cases h
      · rename_i pos₁ hs
        have hrun : 0 < min (xlogBlcksz - pos₁ % xlogBlcksz) n := by
          have hlt : pos₁ % xlogBlcksz < xlogBlcksz := Nat.mod_lt _ (by decide)
          omega
        split at h
        · cases h
        · rename_i run hat
          split at h
          · cases h
          · rename_i rest pos₂ heq
            cases h
            have hrest := ih (by omega) heq
            have hlen : run.length = min (xlogBlcksz - pos₁ % xlogBlcksz) n := by
              unfold at_ at hat
              split at hat
              · cases hat
                rw [List.length_take, List.length_drop]
                omega
              · cases hat
            rw [List.length_append, hrest, hlen]
            omega

/-! ## Turns of a scan and of a walk -/

theorem readHead_record (recStart : Nat) {p' : Nat} {r : WalRecord} (hb : w.base ≤ pos)
    (h : w.readRecord pos = .ok (r, p')) :
    ∃ q, w.readHead recStart pos = .ok (r.head, q) ∧ p' = alignUp q := by
  unfold readRecord at h
  split at h
  · cases h
  · rename_i fixed pos₁ hfixed
    have hb₁ : w.base ≤ pos₁ :=
      Nat.le_trans hb ((readLoop_pos w recordHeader pos recordHeader).1 fixed pos₁ hfixed).1
    have hflen : fixed.length = recordHeader := length_readLoop le_rfl hfixed
    dsimp only at h
    split at h
    · cases h
    · rename_i hlen
      split at h
      · cases h
      · rename_i body pos₂ hbody
        have hblen : body.length = fromLe (fixed.take 4) - recordHeader :=
          length_readLoop le_rfl hbody
        cases h
        have hsum : fromLe (fixed.take 4) - recordHeader
            = min (fromLe (fixed.take 4) - recordHeader) headCap
              + (fromLe (fixed.take 4) - recordHeader
                - min (fromLe (fixed.take 4) - recordHeader) headCap) := by omega
        rw [hsum, read_add hb₁] at hbody
        split at hbody
        · cases hbody
        · rename_i head pos₃ hhead
          have hb₃ : w.base ≤ pos₃ := Nat.le_trans hb₁ ((readLoop_pos w _ pos₁ _).1 _ _ hhead).1
          have hhlen : head.length = min (fromLe (fixed.take 4) - recordHeader) headCap :=
            length_readLoop le_rfl hhead
          split at hbody
          · cases hbody
          · rename_i rest pos₄ hrest
            cases hbody
            refine ⟨pos₂, ?_, rfl⟩
            have hskip : w.skip pos₃ (fromLe (fixed.take 4) - recordHeader
                - min (fromLe (fixed.take 4) - recordHeader) headCap) = .ok pos₂ := by
              unfold read at hrest
              rw [skip, skipLoop_eq hb₃, hrest]
              rfl
            have htot : (fixed ++ (head ++ rest)).length = fromLe (fixed.take 4) := by
              rw [List.length_append, hblen, hflen]
              omega
            have hcap : ((fixed ++ (head ++ rest)).drop recordHeader).take headCap = head := by
              rw [List.drop_left' hflen]
              rw [List.length_append] at hblen
              by_cases hbig : headCap ≤ fromLe (fixed.take 4) - recordHeader
              · exact List.take_left' (by omega)
              · have hnil : rest = [] := List.eq_nil_of_length_eq_zero (by omega)
                rw [hnil, List.append_nil]
                exact List.take_of_length_le (by omega)
            simp only [readHead, hfixed, if_neg hlen, hhead, hskip, WalRecord.head, htot, hcap]

theorem readHead_error (recStart : Nat) {e : ScanErr} (hb : w.base ≤ pos)
    (h : w.readRecord pos = .error e) : w.readHead recStart pos = .error e
      ∨ ∃ c c', e = .corrupt c ∧ w.readHead recStart pos = .error (.corrupt c') := by
  unfold readRecord at h
  split at h
  · rename_i e' hfixed
    cases h
    exact .inl (by simp only [readHead, hfixed])
  · rename_i fixed pos₁ hfixed
    have hb₁ : w.base ≤ pos₁ :=
      Nat.le_trans hb ((readLoop_pos w recordHeader pos recordHeader).1 fixed pos₁ hfixed).1
    dsimp only at h
    split at h
    · rename_i hlen
      cases h
      refine .inr ⟨_, .badLength (fromLe (fixed.take 4)) recStart, rfl, ?_⟩
      simp only [readHead, hfixed, if_pos hlen]
    · rename_i hlen
      refine .inl ?_
      split at h
      · rename_i e' hbody
        cases h
        have hsum : fromLe (fixed.take 4) - recordHeader
            = min (fromLe (fixed.take 4) - recordHeader) headCap
              + (fromLe (fixed.take 4) - recordHeader
                - min (fromLe (fixed.take 4) - recordHeader) headCap) := by omega
        rw [hsum, read_add hb₁] at hbody
        split at hbody
        · rename_i e'' hhead
          cases hbody
          simp only [readHead, hfixed, if_neg hlen, hhead]
        · rename_i head pos₃ hhead
          have hb₃ : w.base ≤ pos₃ := Nat.le_trans hb₁ ((readLoop_pos w _ pos₁ _).1 _ _ hhead).1
          split at hbody
          · rename_i e'' hrest
            cases hbody
            have hskip : w.skip pos₃ (fromLe (fixed.take 4) - recordHeader
                - min (fromLe (fixed.take 4) - recordHeader) headCap) = .error e := by
              unfold read at hrest
              rw [skip, skipLoop_eq hb₃, hrest]
              rfl
            simp only [readHead, hfixed, if_neg hlen, hhead, hskip]
          · cases hbody
      · cases h

variable {p limit : Nat}

/-- A turn of the scan, from the turn of the walk at the same place. -/
theorem scanStep_ok {p' : Nat} {o : Option WalRecord} (hb : w.base ≤ p)
    (h : w.step limit p = .ok (o, p')) : (o = none ∧ w.scanStep limit p = .ok (none, p'))
      ∨ ∃ r, o = some r ∧ w.scanStep limit p = match r.head.blockRefs with
          | .error c => .error (.corrupt c)
          | .ok refs => .ok (some refs, p') := by
  unfold step at h
  unfold scanStep
  cases hat : w.at_ p 4 with
  | error e =>
    rw [hat] at h
    cases h
  | ok head =>
    rw [hat] at h
    dsimp only at h ⊢
    by_cases hz : head = [0, 0, 0, 0]
    · rw [if_pos hz] at h ⊢
      cases h
      exact .inl ⟨rfl, rfl⟩
    · rw [if_neg hz] at h ⊢
      cases hs : w.skipPageHeader p with
      | error e =>
        rw [hs] at h
        cases h
      | ok v =>
        obtain ⟨ov, pos⟩ := v
        rw [hs] at h
        dsimp only at h ⊢
        have hbp : w.base ≤ pos := Nat.le_trans hb (skipPageHeader_le hs).1
        by_cases hlim : pos ≥ limit
        · rw [if_pos hlim] at h ⊢
          cases h
          exact .inl ⟨rfl, rfl⟩
        · rw [if_neg hlim] at h ⊢
          cases hr : w.readRecord pos with
          | error e =>
            rw [hr] at h
            cases h
          | ok v =>
            obtain ⟨r, pos'⟩ := v
            rw [hr] at h
            cases h
            obtain ⟨q, hq, rfl⟩ := readHead_record p hbp hr
            refine .inr ⟨r, rfl, ?_⟩
            cases hbr : r.head.blockRefs with
            | error c => simp only [hq, hbr]
            | ok refs => simp only [hq, hbr]

theorem scanStep_error {e : ScanErr} (hb : w.base ≤ p) (h : w.step limit p = .error e) :
    w.scanStep limit p = .error e
      ∨ ∃ c c', e = .corrupt c ∧ w.scanStep limit p = .error (.corrupt c') := by
  unfold step at h
  unfold scanStep
  cases hat : w.at_ p 4 with
  | error e' =>
    rw [hat] at h
    cases h
    exact .inl rfl
  | ok head =>
    rw [hat] at h
    dsimp only at h ⊢
    by_cases hz : head = [0, 0, 0, 0]
    · rw [if_pos hz] at h
      cases h
    · rw [if_neg hz] at h ⊢
      cases hs : w.skipPageHeader p with
      | error e' =>
        rw [hs] at h
        cases h
        exact .inl rfl
      | ok v =>
        obtain ⟨ov, pos⟩ := v
        rw [hs] at h
        dsimp only at h ⊢
        have hbp : w.base ≤ pos := Nat.le_trans hb (skipPageHeader_le hs).1
        by_cases hlim : pos ≥ limit
        · rw [if_pos hlim] at h
          cases h
        · rw [if_neg hlim] at h ⊢
          cases hr : w.readRecord pos with
          | error e' =>
            rw [hr] at h
            cases h
            rcases readHead_error p hbp hr with heq | ⟨c, c', rfl, heq⟩
            · rw [heq]
              exact .inl rfl
            · rw [heq]
              exact .inr ⟨c, c', rfl, rfl⟩
          | ok v =>
            rw [hr] at h
            cases h

/-- What the scan makes of the records of a walk. -/
def Reads (R : List WalRecord) (outs : List RecordRefs) : Prop :=
  List.Forall₂ (fun r out => r.head.blockRefs = .ok out) R outs

theorem Reads.append {R R' : List WalRecord} {outs outs' : List RecordRefs} (h : Reads R outs)
    (h' : Reads R' outs') : Reads (R ++ R') (outs ++ outs') := by
  induction h with
  | nil => exact h'
  | cons hr _ ih => exact List.Forall₂.cons hr ih

/-- A scan takes the turns of the walk and succeeds if the walk does and
the header items of every record can be read. -/
theorem scanWalk_ok {strict : Bool} : ∀ {fuel p : Nat} {outs : List RecordRefs}
    {r : Nat}, w.base ≤ p → (w.scanWalk limit strict fuel p = .ok (outs, r) ↔
      ∃ R, w.walk limit strict fuel p = .ok (R, r) ∧ Reads R outs) := by
  intro fuel
  induction fuel with
  | zero =>
    intro p outs r _
    constructor
    · intro h
      cases h
      exact ⟨[], rfl, List.Forall₂.nil⟩
    · rintro ⟨R, h, hr⟩
      cases h
      cases hr
      rfl
  | succ fuel ih =>
    intro p outs r hb
    by_cases hp : p < limit
    · obtain ⟨hok, hab⟩ := step_pos (w := w) hp
      simp only [scanWalk, walk, if_pos hp]
      cases hs : w.step limit p with
      | error e =>
        rcases scanStep_error hb hs with heq | ⟨c, c', rfl, heq⟩
        · rw [heq]
          cases e with
          | truncated =>
            dsimp only
            split
            · exact ⟨fun h => (by cases h), by rintro ⟨R, h, -⟩; cases h⟩
            · constructor
              · intro h
                cases h
                exact ⟨[], rfl, List.Forall₂.nil⟩
              · rintro ⟨R, h, hr⟩
                cases h
                cases hr
                rfl
          | aborted page => exact ih (Nat.le_trans hb (Nat.le_of_lt (hab page hs)))
          | corrupt c => exact ⟨fun h => (by cases h), by rintro ⟨R, h, -⟩; cases h⟩
        · rw [heq]
          exact ⟨fun h => (by cases h), by rintro ⟨R, h, -⟩; cases h⟩
      | ok out =>
        obtain ⟨o, p'⟩ := out
        have hb' : w.base ≤ p' := Nat.le_trans hb (Nat.le_of_lt (hok o p' hs).1)
        dsimp only
        rcases scanStep_ok hb hs with ⟨rfl, heq⟩ | ⟨rec, rfl, heq⟩
        · rw [heq]
          dsimp only
          have hid : ∀ {A : Type} (x : Except WalError (List A × Nat)),
              (x.map fun out => (([] : List A) ++ out.1, out.2)) = x := by
            intro A x
            cases x <;> rfl
          simp only [Option.toList_none, hid]
          exact ih hb'
        · rw [heq]
          cases hrefs : rec.head.blockRefs with
          | error c =>
            constructor
            · intro h
              cases h
            · rintro ⟨R, h, hr⟩
              cases hw : w.walk limit strict fuel p' with
              | error e =>
                rw [hw] at h
                cases h
              | ok out =>
                rw [hw] at h
                cases h
                rcases hr with _ | ⟨hrec, -⟩
                rw [hrefs] at hrec
                cases hrec
          | ok refs =>
            dsimp only
            constructor
            · intro h
              cases hw : w.scanWalk limit strict fuel p' with
              | error e =>
                rw [hw] at h
                cases h
              | ok out =>
                rw [hw] at h
                cases h
                obtain ⟨R, hR, hreads⟩ := (ih hb').mp hw
                rw [hR]
                exact ⟨rec :: R, rfl, List.Forall₂.cons hrefs hreads⟩
            · rintro ⟨R, h, hr⟩
              cases hw : w.walk limit strict fuel p' with
              | error e =>
                rw [hw] at h
                cases h
              | ok out =>
                rw [hw] at h
                cases h
                rcases hr with _ | ⟨hrec, hrest⟩
                rw [hrefs] at hrec
                cases hrec
                rw [(ih hb').mpr ⟨_, hw, hrest⟩]
                rfl
    · have hw : w.walk limit strict (fuel + 1) p = .ok ([], p) := walk_stop (by omega)
      simp only [scanWalk, if_neg hp, hw]
      constructor
      · intro h
        cases h
        exact ⟨[], rfl, List.Forall₂.nil⟩
      · rintro ⟨R, h, hr⟩
        cases h
        cases hr
        rfl

/-! ## Windows that end inside filler -/

/-- The window ends inside the filler behind the record boundary `p`: the
padding behind a switch, the page header there, or the padding behind the
last byte of the record there. -/
inductive TornAt (w : WalWindow) (p : Nat) : Prop
  | switch (zeros : w.at_ p 4 = .ok [0, 0, 0, 0]) (cut : w.end_ < nextSegment p)
  | header (header : HeaderAt w p) (cut : w.end_ < p + phd p)
  | align (head : List UInt8) (o : Bool) (pos q : Nat) (h : RecordHead) (refs : RecordRefs)
      (some_ : w.at_ p 4 = .ok head) (nonzero : head ≠ [0, 0, 0, 0])
      (skip : w.skipPageHeader p = .ok (o, pos)) (inside : pos < w.end_)
      (record : w.readHead p pos = .ok (h, q)) (items : h.blockRefs = .ok refs)
      (cut : w.end_ < alignUp q)

/-- `q` is a record boundary the scan of the window gets to from `p`. -/
inductive Turns (w : WalWindow) : Nat → Nat → Prop
  | here (p : Nat) : Turns w p p
  | turn {p p' q : Nat} {o : Option RecordRefs} (lt : p < w.end_)
      (step : w.scanStep w.end_ p = .ok (o, p')) (rest : Turns w p' q) : Turns w p q
  | aborted {p page q : Nat} (lt : p < w.end_)
      (step : w.scanStep w.end_ p = .error (.aborted page)) (rest : Turns w page q) : Turns w p q

/-- The window ends inside the filler behind one of its record
boundaries. -/
def Torn (w : WalWindow) : Prop := ∃ p, Turns w w.base p ∧ p < w.end_ ∧ TornAt w p

/-- A turn ends past the window exactly when the window is torn there. -/
theorem tornAt_iff (hp : p < w.end_) :
    TornAt w p ↔ ∃ o p', w.scanStep w.end_ p = .ok (o, p') ∧ w.end_ < p' := by
  constructor
  · intro h
    cases h with
    | switch zeros cut => exact ⟨none, nextSegment p, by simp only [scanStep, zeros, if_true], cut⟩
    | header header cut =>
      obtain ⟨-, ⟨head, hat, hne⟩, o, hs⟩ := header
      refine ⟨none, p + phd p, ?_, cut⟩
      simp only [scanStep, hat, if_neg hne, hs, if_pos (Nat.le_of_lt cut), ge_iff_le]
    | align head o pos q h refs some_ nonzero skip inside record items cut =>
      refine ⟨some refs, alignUp q, ?_, cut⟩
      simp only [scanStep, some_, if_neg nonzero, skip, if_neg (Nat.not_le.mpr inside), record,
        items, ge_iff_le]
  · rintro ⟨o, p', hs, hlt⟩
    unfold scanStep at hs
    split at hs
    · cases hs
    · rename_i head hat
      split at hs
      · rename_i hz
        cases hs
        exact TornAt.switch (hz ▸ hat) hlt
      · rename_i hz
        split at hs
        · cases hs
        · rename_i ov pos hskip
          split at hs
          · cases hs
            have hb : p % xlogBlcksz = 0 ∧ p' = p + phd p := by
              have hskip' := hskip
              unfold skipPageHeader at hskip'
              split at hskip'
              · cases hskip'
                omega
              · rename_i hb
                rw [hat] at hskip'
                dsimp only at hskip'
                split at hskip'
                · cases hskip'
                · cases hskip'
                  exact ⟨Decidable.not_not.mp hb, rfl⟩
            obtain ⟨hb, rfl⟩ := hb
            exact TornAt.header ⟨hb, ⟨head, hat, hz⟩, ov, hskip⟩ hlt
          · rename_i hlim
            split at hs
            · cases hs
            · rename_i h q hrec
              split at hs
              · cases hs
              · rename_i refs hitems
                cases hs
                exact TornAt.align head ov pos q h refs hat hz hskip (Nat.not_le.mp hlim) hrec
                  hitems hlt

theorem at_end {len : Nat} {bytes : List UInt8} (hb : w.base ≤ pos)
    (h : w.at_ pos len = .ok bytes) : pos + len ≤ w.end_ := by
  unfold at_ at h
  split at h
  · unfold end_
    omega
  · cases h

theorem readLoop_aborted_end : ∀ {fuel pos n page : Nat}, w.base ≤ pos →
    w.readLoop fuel pos n = .error (.aborted page) → page < w.end_ := by
  intro fuel
  induction fuel with
  | zero =>
    nofun
  | succ fuel ih =>
    intro pos n page hb h
    by_cases hn : n = 0
    · simp only [readLoop, hn, if_true] at h
      cases h
    · simp only [readLoop, if_neg hn] at h
      cases hs : w.skipPageHeaderWithin pos with
      | error e =>
        rw [hs] at h
        cases h
        obtain ⟨rfl, hbound⟩ := (skipPageHeaderWithin_pos w pos).2 page hs
        cases hat : w.at_ page 4 with
        | ok head =>
          have hend := at_end hb hat
          omega
        | error e =>
          obtain rfl := at_error hat
          simp only [skipPageHeaderWithin, skipPageHeader, hbound, ne_eq, not_true_eq_false,
            if_false, hat] at hs
          cases hs
      | ok pos₁ =>
        have hb₁ : w.base ≤ pos₁ :=
          Nat.le_trans hb ((skipPageHeaderWithin_pos w pos).1 pos₁ hs).1
        rw [hs] at h
        dsimp only at h
        split at h
        · rename_i e hat
          cases h
          cases at_error hat
        · split at h
          · rename_i e heq
            cases h
            exact ih (by omega) heq
          · cases h

theorem step_aborted_end {page : Nat} (hb : w.base ≤ p)
    (h : w.step limit p = .error (.aborted page)) : page < w.end_ := by
  unfold step at h
  split at h
  · rename_i e hat
    cases h
    cases at_error hat
  · rename_i head hat
    split at h
    · cases h
    · split at h
      · rename_i e hs
        cases h
        unfold skipPageHeader at hs
        rw [hat] at hs
        dsimp only at hs
        split at hs
        · cases hs
        · split at hs <;> cases hs
      · rename_i o pos hs
        have hbp : w.base ≤ pos := Nat.le_trans hb (skipPageHeader_le hs).1
        split at h
        · cases h
        · split at h
          · rename_i e hrec
            cases h
            unfold readRecord at hrec
            split at hrec
            · rename_i e hfixed
              cases hrec
              exact readLoop_aborted_end hbp hfixed
            · rename_i fixed pos₁ hfixed
              dsimp only at hrec
              split at hrec
              · cases hrec
              · split at hrec
                · rename_i e hbody
                  cases hrec
                  refine readLoop_aborted_end ?_ hbody
                  exact Nat.le_trans hbp ((readLoop_pos w _ pos _).1 _ _ hfixed).1
                · cases hrec
          · cases h

theorem scanStep_aborted_end {page : Nat} (hb : w.base ≤ p)
    (h : w.scanStep limit p = .error (.aborted page)) : page < w.end_ := by
  cases hs : w.step limit p with
  | ok out =>
    obtain ⟨o, p'⟩ := out
    rcases scanStep_ok hb hs with ⟨-, heq⟩ | ⟨r, -, heq⟩
    · rw [heq] at h
      cases h
    · rw [heq] at h
      split at h <;> cases h
  | error e =>
    rcases scanStep_error hb hs with heq | ⟨c, c', -, heq⟩
    · rw [heq] at h
      cases h
      exact step_aborted_end hb hs
    · rw [heq] at h
      cases h

theorem scanStep_pos (hb : w.base ≤ p) (hp : p < w.end_) :
    (∀ o p', w.scanStep w.end_ p = .ok (o, p') → p < p')
      ∧ ∀ page, w.scanStep w.end_ p = .error (.aborted page) → p < page := by
  obtain ⟨hok, hab⟩ := step_pos (w := w) hp
  cases hs : w.step w.end_ p with
  | ok out =>
    obtain ⟨o, p'⟩ := out
    have hlt := (hok o p' hs).1
    rcases scanStep_ok hb hs with ⟨rfl, heq⟩ | ⟨r, rfl, heq⟩
    · rw [heq]
      exact ⟨fun _ _ h => (by cases h; exact hlt), nofun⟩
    · rw [heq]
      cases r.head.blockRefs with
      | error c => exact ⟨nofun, nofun⟩
      | ok refs => exact ⟨fun _ _ h => (by cases h; exact hlt), nofun⟩
  | error e =>
    rcases scanStep_error hb hs with heq | ⟨c, c', rfl, heq⟩
    · rw [heq]
      refine ⟨nofun, fun page h => ?_⟩
      cases h
      exact hab page hs
    · rw [heq]
      exact ⟨nofun, nofun⟩

theorem scanWalk_stop {strict : Bool} {fuel : Nat} (h : limit ≤ p) :
    w.scanWalk limit strict fuel p = .ok ([], p) := by
  cases fuel with
  | zero => rfl
  | succ fuel => simp only [scanWalk, if_neg (Nat.not_lt.mpr h)]

/-- A scan that gets to a place where the window is torn ends past it. -/
theorem scanWalk_torn {q : Nat} (h : Turns w p q) : ∀ {fuel : Nat}, w.base ≤ p →
    w.end_ - p ≤ fuel → q < w.end_ → TornAt w q →
    ∃ outs r, w.scanWalk w.end_ false fuel p = .ok (outs, r) ∧ w.end_ < r := by
  induction h with
  | here p =>
    intro fuel hb hf hp ht
    obtain ⟨fuel, rfl⟩ : ∃ f, fuel = f + 1 := ⟨fuel - 1, by omega⟩
    obtain ⟨o, p', hs, hlt⟩ := (tornAt_iff hp).mp ht
    refine ⟨o.toList ++ [], p', ?_, hlt⟩
    simp only [scanWalk, if_pos hp, hs, scanWalk_stop (Nat.le_of_lt hlt), Except.map]
  | @turn p p' q o lt step rest ih =>
    intro fuel hb hf hq ht
    obtain ⟨fuel, rfl⟩ : ∃ f, fuel = f + 1 := ⟨fuel - 1, by omega⟩
    have hlt := (scanStep_pos hb lt).1 o p' step
    have hrest : ∃ outs r, w.scanWalk w.end_ false fuel p' = .ok (outs, r) ∧ w.end_ < r :=
      ih (by omega) (by omega) hq ht
    obtain ⟨outs, r, hw, hr⟩ := hrest
    refine ⟨o.toList ++ outs, r, ?_, hr⟩
    simp only [scanWalk, if_pos lt, step, hw, Except.map]
  | @aborted p page q lt step rest ih =>
    intro fuel hb hf hq ht
    obtain ⟨fuel, rfl⟩ : ∃ f, fuel = f + 1 := ⟨fuel - 1, by omega⟩
    have hlt := (scanStep_pos hb lt).2 page step
    have hrest : ∃ outs r, w.scanWalk w.end_ false fuel page = .ok (outs, r) ∧ w.end_ < r :=
      ih (by omega) (by omega) hq ht
    obtain ⟨outs, r, hw, hr⟩ := hrest
    refine ⟨outs, r, ?_, hr⟩
    simp only [scanWalk, if_pos lt, step, hw]

/-- A scan that ends past the window got to a place where it is torn. -/
theorem torn_of_scanWalk : ∀ {fuel p r : Nat} {outs : List RecordRefs}, w.base ≤ p → p ≤ w.end_ →
    w.scanWalk w.end_ false fuel p = .ok (outs, r) → w.end_ < r →
    ∃ q, Turns w p q ∧ q < w.end_ ∧ TornAt w q := by
  intro fuel
  induction fuel with
  | zero =>
    intro p r outs hb hp h hlt
    cases h
    omega
  | succ fuel ih =>
    intro p r outs hb hp h hlt
    by_cases hp' : p < w.end_
    · simp only [scanWalk, if_pos hp'] at h
      split at h
      · rename_i o p' hs
        cases hw : w.scanWalk w.end_ false fuel p' with
        | error e =>
          rw [hw] at h
          cases h
        | ok out =>
          obtain ⟨outs', r'⟩ := out
          rw [hw] at h
          cases h
          by_cases hpast : w.end_ < p'
          · exact ⟨p, Turns.here p, hp', (tornAt_iff hp').mpr ⟨o, p', hs, hpast⟩⟩
          · have hle := (scanStep_pos hb hp').1 o p' hs
            obtain ⟨q, hq, hrest⟩ := ih (by omega) (by omega) hw hlt
            exact ⟨q, Turns.turn hp' hs hq, hrest⟩
      · rename_i page hs
        have hpage := scanStep_aborted_end hb hs
        have hle := (scanStep_pos hb hp').2 page hs
        obtain ⟨q, hq, hrest⟩ := ih (by omega) (by omega) h hlt
        exact ⟨q, Turns.aborted hp' hs hq, hrest⟩
      · simp only [Bool.false_eq_true, if_false] at h
        cases h
        omega
      · cases h
    · rw [scanWalk_stop (by omega)] at h
      cases h
      omega

/-- A scan of a window ends past it exactly when the window is torn. -/
theorem scanAvailable_past :
    (∃ out, w.scanAvailable w.base = .ok out ∧ w.end_ < out.resume) ↔ Torn w := by
  unfold scanAvailable scan
  simp only [Option.getD_none, Option.isSome_none]
  constructor
  · rintro ⟨out, h, hlt⟩
    cases hw : w.scanWalk w.end_ false (w.end_ - w.base) w.base with
    | error e =>
      rw [hw] at h
      cases h
    | ok res =>
      obtain ⟨outs, r⟩ := res
      rw [hw] at h
      cases h
      exact torn_of_scanWalk le_rfl (Nat.le_add_right _ _) hw hlt
  · rintro ⟨p, hturns, hp, htorn⟩
    obtain ⟨outs, r, hw, hlt⟩ := scanWalk_torn hturns le_rfl le_rfl hp htorn
    exact ⟨collect outs r, by rw [hw]; rfl, hlt⟩

end WalWindow

/-! ## Walks that resume -/

namespace WalStream

open WalWindow

variable {S : WalStream} {hi b : Nat}

theorem window_end (h : b ≤ hi) : (S.window b hi).end_ = hi := by
  simp only [WalWindow.end_, window, length_bytes]
  omega

theorem scanAvailable_window (h : b ≤ hi) {out : ScanOut} :
    (S.window b hi).scanAvailable b = .ok out ↔
      ∃ R r outs, S.walkTo hi b = .ok (R, r) ∧ Reads R outs ∧ out = collect outs r := by
  unfold scanAvailable WalWindow.scan
  simp only [Option.getD_none, Option.isSome_none, window_end h]
  constructor
  · intro heq
    cases hw : (S.window b hi).scanWalk hi false (hi - b) b with
    | error e =>
      rw [hw] at heq
      cases heq
    | ok res =>
      obtain ⟨outs, r⟩ := res
      rw [hw] at heq
      cases heq
      obtain ⟨R, hR, hreads⟩ := (scanWalk_ok (Nat.le_refl b)).mp hw
      exact ⟨R, r, outs, hR, hreads, rfl⟩
  · rintro ⟨R, r, outs, hR, hreads, rfl⟩
    rw [(scanWalk_ok (w := S.window b hi) (Nat.le_refl b)).mpr ⟨R, hR, hreads⟩]
    rfl

/-- `q` is `b`, or a page boundary whose header ends at `b`. -/
def Link (S : WalStream) (hi q b : Nat) : Prop :=
  q = b ∨ (HeaderAt (S.window q hi) q ∧ q < hi ∧ b = q + phd q)

variable {q : Nat}

theorem Link.mono {hi' : Nat} (h : hi ≤ hi') (hl : Link S hi q b) : Link S hi' q b := by
  rcases hl with rfl | ⟨hh, hlt, rfl⟩
  · exact .inl rfl
  · refine .inr ⟨hh.ext ?_ (Nat.le_refl q), by omega, rfl⟩
    exact window_ext le_rfl le_rfl (Nat.le_of_lt hlt) h

/-- Every walk from `start` that shows at least `hi` finds `R` and then
what a walk from `b` finds, or from the page header in front of it. -/
def Through (S : WalStream) (hi start : Nat) (R : List WalRecord) (b : Nat) : Prop :=
  ∃ q, Link S hi q b ∧ ∀ k, hi ≤ k → S.walkTo k start = after R (S.walkTo k q)

theorem Through.start (S : WalStream) (hi start : Nat) : Through S hi start [] start :=
  ⟨start, .inl rfl, fun _ _ => (after_nil _).symm⟩

variable {R : List WalRecord} {start : Nat}

theorem Through.mono {hi' : Nat} (h : hi ≤ hi')
    (ht : Through S hi start R b) : Through S hi' start R b := by
  obtain ⟨q, hl, hw⟩ := ht
  exact ⟨q, hl.mono h, fun k hk => hw k (Nat.le_trans h hk)⟩

/-- No walk from `start` that shows at least `hi` succeeds. -/
def Fails (S : WalStream) (hi start : Nat) : Prop :=
  ∀ k, hi ≤ k → ∃ e, S.walkTo k start = .error e

theorem Fails.of_after (hw : ∀ k, hi ≤ k → S.walkTo k start = after R (S.walkTo k q))
    (h : Fails S hi q) : Fails S hi start := by
  intro k hk
  obtain ⟨e, he⟩ := h k hk
  exact ⟨e, by rw [hw k hk, he]; rfl⟩

theorem Fails.of_error {p : Nat} {e : WalError} (h : S.walkTo hi p = .error e) :
    Fails S hi p := fun _ hk => ⟨e, walkTo_error hk h⟩

theorem Through.of_ok {r : Nat} {R' : List WalRecord}
    (hw : ∀ k, hi ≤ k → S.walkTo k start = after R (S.walkTo k q))
    (h : S.walkTo hi q = .ok (R', r)) : Through S hi start (R ++ R') r := by
  obtain ⟨q', hq', hsplit⟩ := walkTo_split h
  refine ⟨q', ?_, fun k hk => ?_⟩
  · rcases hq' with rfl | ⟨hh, hlt, -, rfl⟩
    · exact .inl rfl
    · exact .inr ⟨hh, hlt, rfl⟩
  · rw [hw k hk, hsplit k hk, after_append]

/-- Four zero bytes behind a page header: a walk from behind the header
takes them for switch padding, a walk from in front of it for a record. -/
theorem fails_blank (hh : HeaderAt (S.window q hi) q) (hfit : q + phd q + recordHeader ≤ hi)
    (hz : S.bytes (q + phd q) 4 = [0, 0, 0, 0]) : Fails S hi q := by
  have hrec : 0 < recordHeader := by decide
  have hphd := phd_pos q
  obtain ⟨c, hc⟩ := readRecord_blank hh.boundary hfit hz
  refine Fails.of_error (e := .corrupt c) ?_
  rw [walkTo_lt (by omega), stepTo, step_header hh, if_neg (by omega), hc]
  rfl

theorem nextSegment_past (hb : q % xlogBlcksz = 0) :
    q + phd q + recordHeader < nextSegment (q + phd q) := by
  unfold phd longPhd shortPhd recordHeader nextSegment walSegmentSize xlogBlcksz at *
  split <;> omega

theorem stepTo_blank {p : Nat} (h : S.stepTo hi p ≠ .error .truncated)
    (hz : S.bytes p 4 = [0, 0, 0, 0]) : S.stepTo hi p = .ok (none, nextSegment p) := by
  cases hat : (S.window p hi).at_ p 4 with
  | error e =>
    obtain rfl := at_error hat
    exact absurd (by simp only [stepTo, step, hat]) h
  | ok head =>
    have hfit : p + 4 ≤ (S.window p hi).end_ := at_end (Nat.le_refl p) hat
    have hle : p + 4 ≤ hi := by
      simp only [WalWindow.end_, window, length_bytes] at hfit
      omega
    rw [window_at hle (Nat.le_refl p)] at hat
    cases hat
    simp only [stepTo, step, window_at hle (Nat.le_refl p), hz, if_true]
    rfl

/-- Where a turn starts matters only if it runs out of bytes. -/
theorem proceed_congr {p : Nat} {x : Except ScanErr (Option WalRecord × Nat)}
    (h : x ≠ .error .truncated) : S.proceed hi p x = S.proceed hi q x := by
  cases x with
  | ok out => rfl
  | error e =>
    cases e with
    | truncated => exact absurd rfl h
    | aborted page => rfl
    | corrupt c => rfl

/-- A walk from where the last one stopped, in a window that shows more. -/
theorem Through.resume {hi₀ : Nat} (ht : Through S hi₀ start R b) (h : hi₀ ≤ hi) :
    (∀ e, S.walkTo hi b = .error e → Fails S hi start)
      ∧ ∀ R' r, S.walkTo hi b = .ok (R', r) →
          Fails S hi start ∨ (R' = [] ∧ hi < r) ∨ Through S hi start (R ++ R') r := by
  obtain ⟨q, hl, hw⟩ := ht.mono h
  rcases hl with rfl | ⟨hh, hlt, rfl⟩
  · constructor
    · exact fun e he => (Fails.of_error he).of_after hw
    · exact fun R' r hok => .inr (.inr (Through.of_ok hw hok))
  · have hkeep : Through S hi start (R ++ []) (q + phd q) := by
      rw [List.append_nil]
      exact ⟨q, .inr ⟨hh, hlt, rfl⟩, hw⟩
    have hidle : S.walkTo hi (q + phd q) = .ok ([], q + phd q) →
        (∀ e, S.walkTo hi (q + phd q) = .error e → Fails S hi start)
          ∧ ∀ R' r, S.walkTo hi (q + phd q) = .ok (R', r) →
              Fails S hi start ∨ (R' = [] ∧ hi < r) ∨ Through S hi start (R ++ R') r := by
      intro heq
      rw [heq]
      refine ⟨nofun, fun R' r hok => ?_⟩
      cases hok
      exact .inr (.inr hkeep)
    by_cases hq : q + phd q < hi
    · by_cases htr : S.stepTo hi (q + phd q) = .error .truncated
      · refine hidle ?_
        rw [walkTo_lt hq, htr]
        rfl
      · by_cases hz : S.bytes (q + phd q) 4 = [0, 0, 0, 0]
        · by_cases hfit : q + phd q + recordHeader ≤ hi
          · have hfails : Fails S hi start := (fails_blank hh hfit hz).of_after hw
            exact ⟨fun _ _ => hfails, fun _ _ _ => .inl hfails⟩
          · -- The padding the bytes are taken for is not held.
            have hpast := nextSegment_past hh.boundary
            have hjump : S.walkTo hi (q + phd q) = .ok ([], nextSegment (q + phd q)) := by
              rw [walkTo_lt hq, stepTo_blank htr hz]
              exact (after_nil _).trans (walkTo_stop (by omega))
            rw [hjump]
            refine ⟨nofun, fun R' r hok => ?_⟩
            cases hok
            exact .inr (.inl ⟨rfl, by omega⟩)
        · have hsame : ∀ k, hi ≤ k → S.walkTo k q = S.walkTo k (q + phd q) := by
            intro k hk
            have hlk : Link S k q (q + phd q) := Link.mono hk (.inr ⟨hh, hlt, rfl⟩)
            rcases hlk with heq | ⟨hhk, -, -⟩
            · have hphd := phd_pos q
              omega
            · have hne : S.stepTo k (q + phd q) ≠ .error .truncated := by
                rcases stepTo_mono hq hk htr with heq | ⟨hb, -, -⟩
                · rw [heq]
                  exact htr
                · exact absurd hb.boundary (phd_not_boundary hh.boundary)
              rw [walkTo_lt (by omega : q < k), walkTo_lt (by omega : q + phd q < k),
                stepTo_header (fun _ => hz) (by omega) hhk]
              exact proceed_congr hne
          have hw' : ∀ k, hi ≤ k → S.walkTo k start = after R (S.walkTo k (q + phd q)) := by
            intro k hk
            rw [hw k hk, hsame k hk]
          constructor
          · exact fun e he => (Fails.of_error he).of_after hw'
          · exact fun R' r hok => .inr (.inr (Through.of_ok hw' hok))
    · exact hidle (walkTo_stop (by omega))

theorem Through.whole (ht : Through S hi start R b)
    (hrest : S.walkTo hi b = .ok ([], b)) : ∃ r, S.walkTo hi start = .ok (R, r) := by
  obtain ⟨q, hl, hw⟩ := ht
  have hq : ∃ r, S.walkTo hi q = .ok ([], r) := by
    rcases hl with rfl | ⟨hh, hlt, rfl⟩
    · exact ⟨q, hrest⟩
    · have hblank : q + phd q + 4 ≤ hi → S.bytes (q + phd q) 4 ≠ [0, 0, 0, 0] := by
        intro hfit hz
        have htr : S.stepTo hi (q + phd q) ≠ .error .truncated := by
          have hat : (S.window (q + phd q) hi).at_ (q + phd q) 4 = .ok [0, 0, 0, 0] := by
            rw [window_at hfit le_rfl, hz]
          simp only [stepTo, step, hat, if_true, ne_eq, reduceCtorEq, not_false_eq_true]
        rw [walkTo_lt (by omega), stepTo_blank htr hz] at hrest
        have hle := (walkTo_lsns ((after_nil _).symm.trans hrest)).1
        have hpast := nextSegment_past hh.boundary
        omega
      rcases walkTo_header hblank hlt hh with ⟨R', r, r', hwq, heq, -⟩ | ⟨e, -, heq⟩
      · rw [hrest] at heq
        cases heq
        exact ⟨r, hwq⟩
      · rw [hrest] at heq
        cases heq
  obtain ⟨r, hr⟩ := hq
  refine ⟨r, ?_⟩
  rw [hw hi le_rfl, hr]
  simp [after, Except.map]

end WalStream

/-! ## The dirty sets -/

/-- The sets hold what the records touch. -/
structure DirtySets.Gathered (d : DirtySets) (outs : List RecordRefs) : Prop where
  dirty : ∀ r, r ∈ d.dirty ↔ r ∈ outs.flatMap fun o => o.refs.map Prod.fst
  rels : ∀ t, t ∈ d.rels ↔ t ∈ outs.flatMap (·.rels)
  truncs : ∀ e, e ∈ d.truncs.entries ↔ OrdMap.Least (outs.flatMap (·.truncs)) e

/-- The sets are what a scan reports. -/
structure DirtySets.Reports (d : DirtySets) (out : ScanOut) : Prop where
  dirty : d.dirty = out.refs.toFinset
  rels : d.rels = out.rels.toFinset
  truncs : d.truncs.entries = out.truncs

namespace DirtySets

open WalWindow

variable {d : DirtySets} {outs : List RecordRefs}

theorem gathered_empty : empty.Gathered [] where
  dirty := by simp [empty]
  rels := by simp [empty]
  truncs := by simp [empty, OrdMap.empty, OrdMap.Least]

theorem mem_collect_refs (outs : List RecordRefs) (resume : Nat) (r : BlockRef) :
    r ∈ (collect outs resume).refs ↔ r ∈ outs.flatMap fun o => o.refs.map Prod.fst := by
  rw [collect, OrdMap.mem_destutter_ne, List.mem_insertionSort]

theorem mem_collect_rels (outs : List RecordRefs) (resume : Nat) (t : RelTag) :
    t ∈ (collect outs resume).rels ↔ t ∈ outs.flatMap (·.rels) := by
  rw [collect, OrdMap.mem_destutter_ne, List.mem_insertionSort]

theorem mem_collect_truncs (outs : List RecordRefs) (resume : Nat) (e : RelTag × Nat) :
    e ∈ (collect outs resume).truncs ↔ OrdMap.Least (outs.flatMap (·.truncs)) e :=
  OrdMap.mem_sortedFirsts _ e

theorem Gathered.extend (h : d.Gathered outs) (outs' : List RecordRefs) (resume : Nat) :
    (d.extend (collect outs' resume)).Gathered (outs ++ outs') where
  dirty := by
    intro r
    rw [DirtySets.extend, Finset.mem_union, List.mem_toFinset, h.dirty, mem_collect_refs,
      List.flatMap_append, List.mem_append]
  rels := by
    intro t
    rw [DirtySets.extend, Finset.mem_union, List.mem_toFinset, h.rels, mem_collect_rels,
      List.flatMap_append, List.mem_append]
  truncs := by
    intro e
    rw [DirtySets.extend, OrdMap.mem_foldl_lower h.truncs, List.flatMap_append]
    exact OrdMap.least_append_congr (mem_collect_truncs outs' resume) e

theorem Gathered.reports (h : d.Gathered outs) (resume : Nat) :
    d.Reports (collect outs resume) where
  dirty := by
    ext r
    rw [h.dirty, List.mem_toFinset, mem_collect_refs]
  rels := by
    ext t
    rw [h.rels, List.mem_toFinset, mem_collect_rels]
  truncs := OrdMap.entries_eq_sortedFirsts h.truncs

end DirtySets

/-! ## Runs -/

/-- Calls that deliver a stream which begins at `first` and is delivered
up to `hi`: chunks are stretches of it, and none leaves a gap. -/
def Delivers (S : WalStream) (first : Nat) : Nat → List TailCall → Prop
  | _, [] => True
  | hi, .scan :: cs => Delivers S first hi cs
  | hi, .append lsn bytes :: cs =>
    first ≤ lsn ∧ lsn ≤ hi ∧ bytes = S.bytes lsn bytes.length
      ∧ Delivers S first (max hi (lsn + bytes.length)) cs

/-- How far the stream is delivered after some calls. -/
def delivered : Nat → List TailCall → Nat
  | hi, [] => hi
  | hi, .scan :: cs => delivered hi cs
  | hi, .append lsn bytes :: cs => delivered (max hi (lsn + bytes.length)) cs

theorem le_delivered : ∀ (cs : List TailCall) (hi : Nat), hi ≤ delivered hi cs := by
  intro cs
  induction cs with
  | nil => exact fun hi => Nat.le_refl hi
  | cons c cs ih =>
    intro hi
    cases c with
    | scan => exact ih hi
    | append lsn bytes => exact Nat.le_trans (Nat.le_max_left ..) (ih _)

namespace TailReader

open WalWindow

variable {S : WalStream} {first floor hi : Nat} {s : TailReader}

/-- No scan of the whole stream that shows at least `hi` succeeds. -/
def Broken (S : WalStream) (start hi : Nat) : Prop :=
  ∀ k, hi ≤ k → ∀ out, (S.window start k).scanAvailable start ≠ .ok out

variable {start : Nat}

theorem Broken.mono {hi' : Nat} (h : hi ≤ hi') (hb : Broken S start hi) :
    Broken S start hi' := fun k hk => hb k (Nat.le_trans h hk)

theorem broken_of_fails (hs : start ≤ hi) (h : Fails S hi start) : Broken S start hi := by
  intro k hk out hout
  obtain ⟨R, r, outs, hw, -, -⟩ := (scanAvailable_window (Nat.le_trans hs hk)).mp hout
  obtain ⟨e, he⟩ := h k hk
  rw [he] at hw
  cases hw

variable {b : Nat}

/-- Records a scan cannot read stay in the way of every longer one. -/
theorem broken_of_through {R : List WalRecord} (hs : start ≤ hi)
    (ht : Through S hi start R b) (hr : ∀ outs, ¬ Reads R outs) : Broken S start hi := by
  intro k hk out hout
  obtain ⟨R', r, outs, hw, hreads, -⟩ := (scanAvailable_window (Nat.le_trans hs hk)).mp hout
  obtain ⟨q, -, hq⟩ := ht
  rw [hq k hk] at hw
  cases hwq : S.walkTo k q with
  | error e =>
    rw [hwq] at hw
    cases hw
  | ok res =>
    rw [hwq] at hw
    cases hw
    refine hr (outs.take R.length) ?_
    have htake := List.forall₂_take R.length hreads
    rwa [List.take_left] at htake

/-- What the tail holds: nothing before the stream reaches the floor, and
then the stream from its base on. -/
inductive Held (S : WalStream) (first floor hi : Nat) : TailScan → Nat → Prop
  | waiting (below : hi ≤ floor ∨ hi = first) : Held S first floor hi TailScan.new (max first floor)
  | started {b : Nat} (start : max first floor ≤ b) (le : b ≤ hi) :
      Held S first floor hi ⟨S.window b hi, true⟩ b

theorem Held.append {t : TailScan} {lsn : Nat} {bytes : List UInt8} (h : Held S first floor hi t b)
    (hf : first ≤ hi) (hfirst : first ≤ lsn) (hgap : lsn ≤ hi)
    (hbytes : bytes = S.bytes lsn bytes.length) : ∃ t', t.append lsn bytes floor = .ok t'
      ∧ Held S first floor (max hi (lsn + bytes.length)) t' b := by
  generalize bytes.length = n at hbytes
  subst hbytes
  cases h with
  | waiting below =>
    by_cases hend : lsn + n ≤ floor
    · refine ⟨TailScan.new, ?_, Held.waiting (by omega)⟩
      simp [TailScan.append, TailScan.new, hend]
    · have hbase : max lsn floor = max first floor := by omega
      by_cases hempty : lsn + n ≤ max first floor
      · refine ⟨⟨S.window (max first floor) (max hi (lsn + n)), true⟩, ?_,
          Held.started le_rfl (by omega)⟩
        have hlen : max hi (lsn + n) - max first floor = 0 := by omega
        simp [TailScan.append, TailScan.new, hend, hbase, WalWindow.end_, hempty, window, hlen,
          bytes]
      · refine ⟨⟨S.window (max first floor) (max hi (lsn + n)), true⟩, ?_,
          Held.started le_rfl (by omega)⟩
        have hle : ¬ lsn > max first floor := by omega
        have hpos : lsn + (max first floor - lsn) = max first floor := by omega
        have hlen : n - (max first floor - lsn) = max hi (lsn + n) - max first floor := by omega
        simp only [TailScan.append, TailScan.new, length_bytes, Bool.false_eq_true,
          not_false_eq_true, true_and, if_neg hend, if_false, hbase, WalWindow.end_,
          List.length_nil, Nat.add_zero, if_neg hempty, if_neg hle, window, List.nil_append,
          drop_bytes, hpos, hlen]
  | started start le =>
    have hend : (S.window b hi).end_ = hi := window_end le
    by_cases hold : lsn + n ≤ hi
    · rw [Nat.max_eq_left hold]
      refine ⟨⟨S.window b hi, true⟩, ?_, Held.started start le⟩
      simp [TailScan.append, hend, hold]
    · rw [Nat.max_eq_right (by omega)]
      refine ⟨⟨S.window b (lsn + n), true⟩, ?_, Held.started start (by omega)⟩
      have hle : ¬ lsn > hi := by omega
      have hpos : lsn + (hi - lsn) = b + (hi - b) := by omega
      have hlen : n - (hi - lsn) = lsn + n - hi := by omega
      have hsplit : lsn + n - b = (hi - b) + (lsn + n - hi) := by omega
      simp only [TailScan.append, length_bytes, not_true_eq_false, false_and, if_false, if_true,
        hend, if_neg hold, if_neg hle]
      rw [drop_bytes, hpos, hlen]
      simp only [window]
      rw [hsplit, bytes_add]

/-- The invariant of a reader between two calls. Its last scan showed
`hi₀`. -/
structure Inv (S : WalStream) (first floor hi hi₀ : Nat) (s : TailReader) (b : Nat) : Prop where
  first_le : first ≤ hi
  held : Held S first floor hi s.tail b
  seen : hi₀ ≤ max hi (max first floor)
  progress : Broken S (max first floor) (max hi (max first floor))
    ∨ ∃ R outs, Through S hi₀ (max first floor) R b ∧ Reads R outs ∧ s.sets.Gathered outs

theorem base_lt_of_torn {w : WalWindow} (h : w.Torn) : w.base < w.end_ := by
  obtain ⟨p, hturns, hp, -⟩ := h
  cases hturns with
  | here => exact hp
  | turn lt step rest => exact lt
  | aborted lt step rest => exact lt

/-- A scan of the records held panics, fails where every longer scan of the
stream fails, or gets as far as one scan of the stream does. -/
theorem scan_spec {hi₀ : Nat} {sets : DirtySets} (hstart : start ≤ b) (hb : b < hi)
    (hseen : hi₀ ≤ hi) (hp : Broken S start hi ∨ ∃ R outs, Through S hi₀ start R b
      ∧ Reads R outs ∧ sets.Gathered outs) :
    ((S.window b hi).Torn ∧ TailScan.scan ⟨S.window b hi, true⟩ sets = .error .panic)
      ∨ (¬ (S.window b hi).Torn ∧ Broken S start hi
          ∧ ∃ e, TailScan.scan ⟨S.window b hi, true⟩ sets = .error (.wal e))
      ∨ (¬ (S.window b hi).Torn ∧ ∃ r sets', b ≤ r ∧ r ≤ hi
          ∧ TailScan.scan ⟨S.window b hi, true⟩ sets = .ok (⟨S.window r hi, true⟩, sets')
          ∧ S.walkTo hi r = .ok ([], r)
          ∧ (Broken S start hi ∨ ∃ R outs, Through S hi start R r ∧ Reads R outs
              ∧ sets'.Gathered outs)) := by
  have hend : (S.window b hi).end_ = hi := window_end (Nat.le_of_lt hb)
  have hbase : (S.window b hi).base = b := rfl
  have hbuf : (S.window b hi).buf ≠ [] := by
    intro hnil
    have hlen := congrArg List.length hnil
    simp only [window, length_bytes, List.length_nil] at hlen
    omega
  have hpast := scanAvailable_past (w := S.window b hi)
  rw [hend, hbase] at hpast
  simp only [TailScan.scan, hbuf, Bool.true_eq_false, or_self, if_false, hbase]
  cases hscan : (S.window b hi).scanAvailable b with
  | error e =>
    have htorn : ¬ (S.window b hi).Torn := by
      intro ht
      obtain ⟨out, hok, -⟩ := hpast.mpr ht
      rw [hscan] at hok
      cases hok
    refine .inr (.inl ⟨htorn, ?_, e, rfl⟩)
    rcases hp with hbroken | ⟨R, outs, ht, hreads, -⟩
    · exact hbroken
    · obtain ⟨herr, hok⟩ := ht.resume hseen
      cases hw : S.walkTo hi b with
      | error e => exact broken_of_fails (by omega) (herr e hw)
      | ok res =>
        obtain ⟨R', r⟩ := res
        have hno : ∀ outs', ¬ Reads R' outs' := by
          intro outs' hreads'
          have hyes := (scanAvailable_window (Nat.le_of_lt hb)).mpr ⟨R', r, outs', hw, hreads', rfl⟩
          rw [hscan] at hyes
          cases hyes
        rcases hok R' r hw with hfails | ⟨rfl, -⟩ | ht'
        · exact broken_of_fails (by omega) hfails
        · exact absurd List.Forall₂.nil (hno [])
        · refine broken_of_through (by omega) ht' fun outs' hreads' => ?_
          have hdrop := List.forall₂_drop R.length hreads'
          rw [List.drop_left] at hdrop
          exact hno _ hdrop
  | ok out =>
    have hlen : (S.window b hi).buf.length = hi - b := length_bytes ..
    obtain ⟨R', r, outs', hw, hreads', rfl⟩ :=
      (scanAvailable_window (Nat.le_of_lt hb)).mp hscan
    have hle := (walkTo_lsns hw).1
    by_cases hr : hi < r
    · refine .inl ⟨hpast.mp ⟨_, hscan, hr⟩, ?_⟩
      have hmore : (collect outs' r).resume - b > (S.window b hi).buf.length := by
        rw [hlen]
        show r - b > hi - b
        omega
      dsimp only
      rw [if_pos hmore]
    · have htorn : ¬ (S.window b hi).Torn := by
        intro ht
        obtain ⟨out, hok, hlt⟩ := hpast.mpr ht
        rw [hscan] at hok
        cases hok
        exact hr hlt
      have hmore : ¬ (collect outs' r).resume - b > (S.window b hi).buf.length := by
        rw [hlen]
        show ¬ r - b > hi - b
        omega
      have hdrop : (S.window b hi).buf.drop (r - b) = (S.window r hi).buf := by
        have hpos : b + (r - b) = r := by omega
        have hlen' : hi - b - (r - b) = hi - r := by omega
        simp only [window, drop_bytes, hpos, hlen']
      refine .inr (.inr ⟨htorn, r, sets.extend (collect outs' r), hle, by omega, ?_,
        walkTo_rest hw, ?_⟩)
      · dsimp only
        rw [if_neg hmore]
        simp only [show (collect outs' r).resume = r from rfl, hdrop]
        rfl
      · rcases hp with hbroken | ⟨R, outs, ht, hreads, hgath⟩
        · exact .inl hbroken
        · rcases (ht.resume hseen).2 R' r hw with hfails | ⟨-, hlt⟩ | ht'
          · exact .inl (broken_of_fails (by omega) hfails)
          · exact absurd hlt hr
          · exact .inr ⟨R ++ R', outs ++ outs', ht', hreads.append hreads',
              hgath.extend outs' r⟩

theorem Inv.scan {hi₀ : Nat} (h : Inv S first floor hi hi₀ s b) :
    (s.tail.window.Torn ∧ s.call floor .scan = .error .panic)
      ∨ (¬ s.tail.window.Torn ∧ Broken S (max first floor) (max hi (max first floor))
          ∧ ∃ e, s.call floor .scan = .error (.wal e))
      ∨ (¬ s.tail.window.Torn ∧ ∃ s' b', s.call floor .scan = .ok s'
          ∧ Inv S first floor hi (max hi (max first floor)) s' b'
          ∧ S.walkTo (max hi (max first floor)) b' = .ok ([], b')) := by
  obtain ⟨hfirst, hheld, hseen, hp⟩ := h
  obtain ⟨tail, sets⟩ := s
  have hp' : Broken S (max first floor) (max hi (max first floor)) ∨ ∃ R outs,
      Through S (max hi (max first floor)) (max first floor) R b ∧ Reads R outs
        ∧ sets.Gathered outs := by
    rcases hp with hbroken | ⟨R, outs, ht, hrest⟩
    · exact .inl hbroken
    · exact .inr ⟨R, outs, ht.mono hseen, hrest⟩
  cases hheld with
  | waiting below =>
    have hmax : max hi (max first floor) = max first floor := by omega
    have htorn : ¬ TailScan.new.window.Torn := fun ht => absurd (base_lt_of_torn ht) (by decide)
    exact .inr (.inr ⟨htorn, _, _, rfl,
      ⟨hfirst, Held.waiting below, le_rfl, hp'⟩, walkTo_stop (by omega)⟩)
  | started hstart le =>
    have hmax : max hi (max first floor) = hi := by omega
    by_cases hb : b < hi
    · rw [hmax] at hseen hp ⊢
      rcases scan_spec hstart hb hseen hp with ⟨ht, hs⟩ | ⟨ht, hbroken, e, hs⟩
        | ⟨ht, r, sets', hle, hr, hs, hrest, hp⟩
      · exact .inl ⟨ht, by simp only [call, hs]; rfl⟩
      · exact .inr (.inl ⟨ht, hbroken, e, by simp only [call, hs]; rfl⟩)
      · refine .inr (.inr ⟨ht, ⟨⟨S.window r hi, true⟩, sets'⟩, r, ?_, ?_, hrest⟩)
        · simp only [call, hs]
          rfl
        · exact ⟨hfirst, Held.started (by omega) hr, by omega, by rw [hmax]; exact hp⟩
    · have hbhi : b = hi := by omega
      subst hbhi
      have hnil : (S.window b b).buf = [] := by
        simp only [window, Nat.sub_self]
        rfl
      have htorn : ¬ (S.window b b).Torn := by
        intro ht
        have hlt := base_lt_of_torn ht
        rw [window_end (Nat.le_refl b)] at hlt
        exact absurd hlt (Nat.lt_irrefl b)
      refine .inr (.inr ⟨htorn, ⟨⟨S.window b b, true⟩, sets⟩, b, ?_, ?_, ?_⟩)
      · simp only [call, TailScan.scan, hnil, or_true, if_true]
        rfl
      · exact ⟨hfirst, Held.started hstart le, le_rfl, hp'⟩
      · exact walkTo_stop (by omega)

theorem Inv.append {hi₀ lsn : Nat} {bytes : List UInt8} (h : Inv S first floor hi hi₀ s b)
    (hfirst : first ≤ lsn) (hgap : lsn ≤ hi) (hbytes : bytes = S.bytes lsn bytes.length) :
    ∃ s', s.call floor (.append lsn bytes) = .ok s'
      ∧ Inv S first floor (max hi (lsn + bytes.length)) hi₀ s' b := by
  obtain ⟨t', happ, hheld⟩ := h.held.append h.first_le hfirst hgap hbytes
  have hle : max hi (max first floor) ≤ max (max hi (lsn + bytes.length)) (max first floor) := by
    omega
  refine ⟨{ s with tail := t' }, by simp only [call, happ]; rfl,
    Nat.le_trans h.first_le (Nat.le_max_left ..), hheld, Nat.le_trans h.seen hle, ?_⟩
  rcases h.progress with hbroken | hprog
  · exact .inl (hbroken.mono hle)
  · exact .inr hprog

theorem run_append {xs ys : List TailCall} : ∀ {s : TailReader},
    s.run floor (xs ++ ys) = match s.run floor xs with
      | .error e => .error e
      | .ok s' => s'.run floor ys := by
  induction xs with
  | nil => intro s; rfl
  | cons c xs ih =>
    intro s
    simp only [List.cons_append, run]
    cases s.call floor c with
    | error e => rfl
    | ok s' => exact ih

/-- The scan calls of a run, each with the reader it finds, do not find a
torn window. -/
def Untorn (floor : Nat) (s : TailReader) (calls : List TailCall) : Prop :=
  ∀ pre post s', calls = pre ++ .scan :: post → s.run floor pre = .ok s' → ¬ s'.tail.window.Torn

theorem Untorn.head {calls : List TailCall} (h : Untorn floor s (.scan :: calls)) :
    ¬ s.tail.window.Torn := h [] calls s rfl rfl

theorem untorn_cons {c : TailCall} {calls : List TailCall} {s' : TailReader}
    (hc : s.call floor c = .ok s') :
    Untorn floor s (c :: calls) ↔ (c = .scan → ¬ s.tail.window.Torn) ∧ Untorn floor s' calls := by
  constructor
  · intro h
    refine ⟨fun hscan => (hscan ▸ h).head, fun pre post s'' heq hrun => ?_⟩
    refine h (c :: pre) post s'' (by rw [heq]; rfl) ?_
    simp only [run, hc]
    exact hrun
  · rintro ⟨hhead, htail⟩ pre post s'' heq hrun
    cases pre with
    | nil =>
      cases heq
      cases hrun
      exact hhead rfl
    | cons c' pre =>
      cases heq
      simp only [run, hc] at hrun
      exact htail pre post s'' rfl hrun

/-- A run panics exactly where a scan finds a torn window. One that fails
does so where every longer scan of the stream does, and one that does not
keeps the invariant. -/
theorem run_spec : ∀ {calls : List TailCall} {hi hi₀ : Nat} {s : TailReader} {b : Nat},
    Inv S first floor hi hi₀ s b → Delivers S first hi calls →
    (Untorn floor s calls ↔ s.run floor calls ≠ .error .panic)
      ∧ (Untorn floor s calls → (∃ s' hi₁ b', s.run floor calls = .ok s'
            ∧ Inv S first floor (delivered hi calls) hi₁ s' b')
          ∨ (Broken S (max first floor) (max (delivered hi calls) (max first floor))
            ∧ ∃ e, s.run floor calls = .error e)) := by
  intro calls
  induction calls with
  | nil =>
    intro hi hi₀ s b h _
    refine ⟨⟨nofun, fun _ pre post s' heq => ?_⟩,
      fun _ => .inl ⟨s, hi₀, b, rfl, h⟩⟩
    cases pre <;> cases heq
  | cons c calls ih =>
    intro hi hi₀ s b h hd
    cases c with
    | append lsn bytes =>
      obtain ⟨hfirst, hgap, hbytes, hrest⟩ := hd
      obtain ⟨s', hcall, hinv⟩ := h.append hfirst hgap hbytes
      obtain ⟨hiff, hgoes⟩ := ih hinv hrest
      have hrun : s.run floor (.append lsn bytes :: calls) = s'.run floor calls := by
        simp only [run, hcall]
      rw [hrun, untorn_cons hcall]
      refine ⟨⟨fun hu => hiff.mp hu.2, fun hne => ⟨nofun, hiff.mpr hne⟩⟩,
        fun hu => hgoes hu.2⟩
    | scan =>
      rcases h.scan with ⟨htorn, hcall⟩ | ⟨htorn, hbroken, e, hcall⟩
        | ⟨htorn, s', b', hcall, hinv, -⟩
      · have hrun : s.run floor (.scan :: calls) = .error .panic := by
          simp only [run, hcall]
        have hno : ¬ Untorn floor s (.scan :: calls) := fun hu => hu.head htorn
        exact ⟨⟨fun hu => absurd hu hno, fun hne => absurd hrun hne⟩, fun hu => absurd hu hno⟩
      · have hrun : s.run floor (.scan :: calls) = .error (.wal e) := by
          simp only [run, hcall]
        have hle := le_delivered calls hi
        refine ⟨⟨fun _ hp => ?_, fun _ pre post s'' heq hpre => ?_⟩, fun _ => .inr
          ⟨hbroken.mono (by show _ ≤ max (delivered hi calls) _; omega), .wal e, hrun⟩⟩
        · rw [hrun] at hp
          cases hp
        · cases pre with
          | nil =>
            cases hpre
            exact htorn
          | cons c' pre =>
            cases heq
            simp only [run, hcall] at hpre
            cases hpre
      · obtain ⟨hiff, hgoes⟩ := ih hinv hd
        have hrun : s.run floor (.scan :: calls) = s'.run floor calls := by
          simp only [run, hcall]
        rw [hrun, untorn_cons hcall]
        exact ⟨⟨fun hu => hiff.mp hu.2, fun hne => ⟨fun _ => htorn, hiff.mpr hne⟩⟩,
          fun hu => hgoes hu.2⟩

theorem inv_new (S : WalStream) (first floor : Nat) :
    Inv S first floor first first new (max first floor) :=
  ⟨le_rfl, Held.waiting (.inr rfl), Nat.le_max_left .., .inr
    ⟨[], [], Through.start S _ _, List.Forall₂.nil, DirtySets.gathered_empty⟩⟩

/-- The calls and a last scan complete without a panic, and the dirty sets
are what one scan over all that was delivered reports from the floor. -/
def Accumulates (S : WalStream) (first floor : Nat) (calls : List TailCall) : Prop :=
  new.run floor (calls ++ [.scan]) ≠ .error .panic
    ∧ ∀ out, (S.window (max first floor) (delivered first calls)).scanAvailable (max first floor)
        = .ok out →
      ∃ s, new.run floor (calls ++ [.scan]) = .ok s ∧ s.sets.Reports out

theorem delivers_scan : ∀ {calls : List TailCall} {hi : Nat}, Delivers S first hi calls →
    Delivers S first hi (calls ++ [.scan]) := by
  intro calls
  induction calls with
  | nil => exact fun _ => trivial
  | cons c calls ih =>
    intro hi h
    cases c with
    | scan => exact ih h
    | append lsn bytes => exact ⟨h.1, h.2.1, h.2.2.1, ih h.2.2.2⟩

theorem window_max (S : WalStream) (start hi : Nat) :
    S.window start hi = S.window start (max hi start) := by
  have hlen : max hi start - start = hi - start := by omega
  simp only [window, hlen]

/-- The tail scan of a stream does not depend on how the stream is
delivered and when it is scanned, as long as no scan finds a window that
ends inside filler. -/
theorem accumulates_iff_untorn {calls : List TailCall} (hd : Delivers S first first calls) :
    Accumulates S first floor calls ↔ Untorn floor new (calls ++ [.scan]) := by
  have hpanic := (run_spec (inv_new S first floor) (delivers_scan hd)).1
  constructor
  · exact fun h => hpanic.mpr h.1
  · intro hu
    refine ⟨hpanic.mp hu, fun out hout => ?_⟩
    rw [window_max] at hout
    have hpre : Untorn floor new calls := by
      intro pre post s' heq
      exact hu pre (post ++ [.scan]) s' (by rw [heq, List.append_assoc]; rfl)
    rcases (run_spec (inv_new S first floor) hd).2 hpre with
      ⟨s, hi₁, b, hrun, hinv⟩ | ⟨hbroken, -⟩
    · have hlast : new.run floor (calls ++ [.scan]) = s.run floor [.scan] := by
        rw [run_append, hrun]
      rcases hinv.scan with ⟨htorn, -⟩ | ⟨-, hbroken, -⟩ | ⟨-, s', b', hcall, hinv', hrest⟩
      · exact absurd htorn (hu calls [] s rfl hrun)
      · exact absurd hout (hbroken _ le_rfl out)
      · rcases hinv'.progress with hbroken | ⟨R, outs, ht, hreads, hgath⟩
        · exact absurd hout (hbroken _ le_rfl out)
        · refine ⟨s', by rw [hlast]; simp only [run, hcall], ?_⟩
          obtain ⟨r, hw⟩ := ht.whole hrest
          have hwhole := (scanAvailable_window (Nat.le_max_right _ _)).mpr
            ⟨R, r, outs, hw, hreads, rfl⟩
          rw [hout] at hwhole
          cases hwhole
          exact hgath.reports r
    · exact absurd hout (hbroken _ le_rfl out)

/-- A switch record at 64, then the padding behind it. -/
def switchStream : WalStream := fun n => if n = 64 then 24 else if n = 80 then 64 else 0

/-- The record in two chunks that overlap, scanned in between. -/
theorem accumulates_switch_record :
    Delivers switchStream 64 64
        [.append 64 (switchStream.bytes 64 20), .scan, .append 80 (switchStream.bytes 80 8)]
      ∧ (Accumulates switchStream 64 64
          [.append 64 (switchStream.bytes 64 20), .scan, .append 80 (switchStream.bytes 80 8)]
        ↔ Untorn 64 new
          ([.append 64 (switchStream.bytes 64 20), .scan, .append 80 (switchStream.bytes 80 8)]
            ++ [.scan])) :=
  ⟨⟨by decide, by decide, rfl, by decide, by decide, rfl, trivial⟩,
    accumulates_iff_untorn ⟨by decide, by decide, rfl, by decide, by decide, rfl, trivial⟩⟩

/-- A chunk that ends inside the padding: the scan resumes at the next
segment and drops more bytes than it holds. -/
theorem switch_padding_panics :
    Delivers switchStream 64 64 [.append 64 (switchStream.bytes 64 32)]
      ∧ ¬ Accumulates switchStream 64 64 [.append 64 (switchStream.bytes 64 32)] :=
  ⟨⟨by decide, by decide, rfl, trivial⟩, fun h => h.1 rfl⟩

end TailReader

end Zou
