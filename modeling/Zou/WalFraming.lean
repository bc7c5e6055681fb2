import Zou.WalScan

/-!
# The walk does not depend on where the window ends

A stream is a byte for every lsn and a window is a stretch of it. A turn
of the walk that did not run out of bytes is the same turn in every longer
window, and where a window starts does not matter for what lies behind
its start. So a walk may stop at the end of one window and resume in the
next. The one place where this is not literal is a page header: a window
that ends inside one leaves the walk right behind the header, a longer
window that ends inside the record after it leaves the walk in front.
-/

namespace Zou

/-- A byte for every lsn. -/
abbrev WalStream := Nat → UInt8

namespace WalStream

/-- The `n` bytes from `pos` on. -/
def bytes (S : WalStream) : Nat → Nat → List UInt8
  | _, 0 => []
  | pos, n + 1 => S pos :: bytes S (pos + 1) n

/-- The window over `[lo, hi)`. -/
def window (S : WalStream) (lo hi : Nat) : WalWindow := ⟨lo, S.bytes lo (hi - lo)⟩

@[simp] theorem length_bytes (S : WalStream) (pos n : Nat) : (S.bytes pos n).length = n := by
  induction n generalizing pos with
  | zero => rfl
  | succ n ih => simp [bytes, ih]

theorem bytes_add (S : WalStream) (pos a b : Nat) :
    S.bytes pos (a + b) = S.bytes pos a ++ S.bytes (pos + a) b := by
  induction a generalizing pos with
  | zero => simp [bytes]
  | succ a ih =>
    have hcomm : a + 1 + b = a + b + 1 := by omega
    have hpos : pos + (a + 1) = pos + 1 + a := by omega
    rw [hcomm, hpos]
    simp only [bytes, ih, List.cons_append]

theorem exists_bytes (base : Nat) (buf : List UInt8) :
    ∃ S : WalStream, S.bytes base buf.length = buf := by
  have main : ∀ (buf pre : List UInt8),
      bytes (fun n => (pre ++ buf).getD (n - base) 0) (base + pre.length) buf.length = buf := by
    intro buf
    induction buf with
    | nil => exact fun _ => rfl
    | cons b buf ih =>
      intro pre
      have hrest := ih (pre ++ [b])
      rw [List.append_assoc, List.singleton_append, List.length_append, List.length_singleton,
        ← Nat.add_assoc] at hrest
      rw [List.length_cons, bytes, hrest]
      simp
  exact ⟨_, main buf []⟩

theorem drop_bytes (S : WalStream) (pos n k : Nat) :
    (S.bytes pos n).drop k = S.bytes (pos + k) (n - k) := by
  rcases Nat.le_total k n with h | h
  · obtain ⟨m, rfl⟩ := Nat.exists_eq_add_of_le h
    rw [bytes_add, List.drop_left' (length_bytes S pos k), Nat.add_sub_cancel_left]
  · rw [List.drop_eq_nil_of_le (by simpa using h), Nat.sub_eq_zero_of_le h]
    rfl

theorem take_bytes (S : WalStream) (pos : Nat) {n k : Nat} (h : k ≤ n) :
    (S.bytes pos n).take k = S.bytes pos k := by
  obtain ⟨m, rfl⟩ := Nat.exists_eq_add_of_le h
  rw [bytes_add, List.take_left' (length_bytes S pos k)]

theorem window_at {S : WalStream} {lo hi pos len : Nat} (h : pos + len ≤ hi) (hlo : lo ≤ pos) :
    (S.window lo hi).at_ pos len = .ok (S.bytes pos len) := by
  have hfit : lo ≤ pos ∧ pos - lo + len ≤ hi - lo := by omega
  have hpos : lo + (pos - lo) = pos := by omega
  have hlen : len ≤ hi - lo - (pos - lo) := by omega
  simp only [window, WalWindow.at_, length_bytes, if_pos hfit, drop_bytes, hpos]
  rw [take_bytes S pos hlen]

theorem window_at_truncated {S : WalStream} {lo hi pos len : Nat} (h : hi < pos + len)
    (hlo : lo ≤ pos) (hhi : lo ≤ hi) : (S.window lo hi).at_ pos len = .error .truncated := by
  have hfit : ¬ (lo ≤ pos ∧ pos - lo + len ≤ hi - lo) := by omega
  simp only [window, WalWindow.at_, length_bytes, if_neg hfit]

end WalStream

/-! ## Windows that show more -/

namespace WalWindow

/-- From `p` on, `w'` shows what `w` shows. -/
def Ext (p : Nat) (w w' : WalWindow) : Prop :=
  ∀ pos len bytes, p ≤ pos → w.at_ pos len = .ok bytes → w'.at_ pos len = .ok bytes

variable {w w' : WalWindow} {p pos : Nat}

theorem at_error {w : WalWindow} {len : Nat} {e : ScanErr} (h : w.at_ pos len = .error e) :
    e = .truncated := by
  unfold at_ at h
  split at h
  · cases h
  · exact (Except.error.inj h).symm

theorem phd_pos (pos : Nat) : 0 < phd pos := by
  unfold phd longPhd shortPhd
  split <;> omega

theorem phd_not_boundary (h : pos % xlogBlcksz = 0) : (pos + phd pos) % xlogBlcksz ≠ 0 := by
  unfold phd longPhd shortPhd xlogBlcksz at *
  split <;> omega

theorem skipPageHeader_le {pos' : Nat} {o : Bool} (h : w.skipPageHeader pos = .ok (o, pos')) :
    pos ≤ pos' ∧ pos' % xlogBlcksz ≠ 0 := by
  unfold skipPageHeader at h
  split at h
  · rename_i hne
    cases h
    exact ⟨le_rfl, hne⟩
  · rename_i hb
    have hb' : pos % xlogBlcksz = 0 := Decidable.not_not.mp hb
    split at h
    · cases h
    · dsimp only at h
      split at h
      · cases h
      · cases h
        exact ⟨Nat.le_add_right _ _, phd_not_boundary hb'⟩

theorem skipPageHeader_ext (hx : Ext p w w') (hp : p ≤ pos)
    (h : w.skipPageHeader pos ≠ .error .truncated) :
    w'.skipPageHeader pos = w.skipPageHeader pos := by
  unfold skipPageHeader at *
  split
  · rfl
  · rename_i hb
    cases hat : w.at_ pos 4 with
    | error e =>
      obtain rfl := at_error hat
      rw [if_neg hb, hat] at h
      exact absurd rfl h
    | ok header => rw [hx pos 4 header hp hat]

theorem skipPageHeaderWithin_ext (hx : Ext p w w') (hp : p ≤ pos)
    (h : w.skipPageHeaderWithin pos ≠ .error .truncated) :
    w'.skipPageHeaderWithin pos = w.skipPageHeaderWithin pos := by
  have hne : w.skipPageHeader pos ≠ .error .truncated := by
    intro heq
    simp only [skipPageHeaderWithin, heq, ne_eq, not_true_eq_false] at h
  unfold skipPageHeaderWithin
  rw [skipPageHeader_ext hx hp hne]

/-- Where the cursor is after a header inside a record, or the page it
stopped at. -/
theorem skipPageHeaderWithin_pos (w : WalWindow) (pos : Nat) :
    (∀ pos', w.skipPageHeaderWithin pos = .ok pos' → pos ≤ pos' ∧ pos' % xlogBlcksz ≠ 0)
      ∧ ∀ page, w.skipPageHeaderWithin pos = .error (.aborted page) →
          page = pos ∧ pos % xlogBlcksz = 0 := by
  unfold skipPageHeaderWithin
  constructor
  · intro pos' h
    split at h
    · cases h
    · cases h
    · rename_i pos'' heq
      cases h
      exact skipPageHeader_le heq
  · intro page h
    split at h
    · rename_i e heq
      cases h
      unfold skipPageHeader at heq
      split at heq
      · cases heq
      · split at heq
        · rename_i e' hat
          cases at_error hat
          cases heq
        · dsimp only at heq
          split at heq
          · cases heq
          · cases heq
    · rename_i pos'' heq
      cases h
      refine ⟨rfl, ?_⟩
      unfold skipPageHeader at heq
      split at heq
      · cases heq
      · rename_i hb
        exact Decidable.not_not.mp hb
    · cases h

/-! ## Reading a record -/

theorem readLoop_pos (w : WalWindow) : ∀ fuel pos remaining : Nat,
    (∀ bytes pos', w.readLoop fuel pos remaining = .ok (bytes, pos') →
        pos ≤ pos' ∧ (0 < fuel → 0 < remaining → pos < pos'))
      ∧ ∀ page, w.readLoop fuel pos remaining = .error (.aborted page) →
          pos ≤ page ∧ (pos % xlogBlcksz ≠ 0 → pos < page) := by
  intro fuel
  induction fuel with
  | zero =>
    intro pos remaining
    constructor
    · intro bytes pos' h
      cases h
      exact ⟨le_rfl, fun h => absurd h (Nat.lt_irrefl 0)⟩
    · nofun
  | succ fuel ih =>
    intro pos remaining
    by_cases hr : remaining = 0
    · subst hr
      constructor
      · intro bytes pos' h
        simp only [readLoop, if_true] at h
        cases h
        exact ⟨le_rfl, fun _ h => absurd h (Nat.lt_irrefl 0)⟩
      · intro page h
        simp only [readLoop, if_true] at h
        cases h
    · simp only [readLoop, hr, if_false]
      obtain ⟨hok, hab⟩ := skipPageHeaderWithin_pos w pos
      cases hs : w.skipPageHeaderWithin pos with
      | error e =>
        constructor
        · nofun
        · intro page h
          cases h
          obtain ⟨rfl, hb⟩ := hab page hs
          exact ⟨le_rfl, fun hne => absurd hb hne⟩
      | ok pos₁ =>
        obtain ⟨hle, -⟩ := hok pos₁ hs
        have hrun : 0 < min (xlogBlcksz - pos₁ % xlogBlcksz) remaining := by
          have hlt : pos₁ % xlogBlcksz < xlogBlcksz := Nat.mod_lt _ (by decide)
          omega
        dsimp only
        cases hat : w.at_ pos₁ (min (xlogBlcksz - pos₁ % xlogBlcksz) remaining) with
        | error e =>
          obtain rfl := at_error hat
          constructor
          · nofun
          · nofun
        | ok bytes =>
          dsimp only
          obtain ⟨ihok, ihab⟩ := ih
            (pos₁ + min (xlogBlcksz - pos₁ % xlogBlcksz) remaining)
            (remaining - min (xlogBlcksz - pos₁ % xlogBlcksz) remaining)
          constructor
          · intro out pos' h
            split at h
            · cases h
            · rename_i rest pos₂ heq
              cases h
              have hle₂ := (ihok rest _ heq).1
              exact ⟨by omega, fun _ _ => by omega⟩
          · intro page h
            split at h
            · rename_i e heq
              cases h
              have hle₂ := (ihab page heq).1
              exact ⟨by omega, fun _ => by omega⟩
            · cases h

theorem readLoop_ext (hx : Ext p w w') : ∀ {fuel pos remaining : Nat}, p ≤ pos →
    w.readLoop fuel pos remaining ≠ .error .truncated →
    w'.readLoop fuel pos remaining = w.readLoop fuel pos remaining := by
  intro fuel
  induction fuel with
  | zero => intro pos remaining _ _; rfl
  | succ fuel ih =>
    intro pos remaining hp h
    by_cases hr : remaining = 0
    · simp only [readLoop, hr, if_true]
    · simp only [readLoop, hr, if_false] at h ⊢
      have hne : w.skipPageHeaderWithin pos ≠ .error .truncated := by
        intro heq
        rw [heq] at h
        exact h rfl
      rw [skipPageHeaderWithin_ext hx hp hne]
      cases hs : w.skipPageHeaderWithin pos with
      | error e => rfl
      | ok pos₁ =>
        rw [hs] at h
        have hp₁ : p ≤ pos₁ := Nat.le_trans hp ((skipPageHeaderWithin_pos w pos).1 pos₁ hs).1
        dsimp only at h ⊢
        cases hat : w.at_ pos₁ (min (xlogBlcksz - pos₁ % xlogBlcksz) remaining) with
        | error e =>
          obtain rfl := at_error hat
          rw [hat] at h
          exact absurd rfl h
        | ok bytes =>
          rw [hat] at h
          rw [hx pos₁ _ bytes hp₁ hat]
          dsimp only at h ⊢
          rw [ih (Nat.le_trans hp₁ (Nat.le_add_right _ _))]
          intro heq
          rw [heq] at h
          exact h rfl

theorem readRecord_ext (hx : Ext p w w') (hp : p ≤ pos)
    (h : w.readRecord pos ≠ .error .truncated) : w'.readRecord pos = w.readRecord pos := by
  unfold readRecord read at h ⊢
  have hne : w.readLoop recordHeader pos recordHeader ≠ .error .truncated := by
    intro heq
    rw [heq] at h
    exact h rfl
  rw [readLoop_ext hx hp hne]
  cases hh : w.readLoop recordHeader pos recordHeader with
  | error e => rfl
  | ok out =>
    obtain ⟨header, pos₁⟩ := out
    rw [hh] at h
    dsimp only at h ⊢
    have hp₁ : p ≤ pos₁ :=
      Nat.le_trans hp ((readLoop_pos w recordHeader pos recordHeader).1 header pos₁ hh).1
    split
    · rfl
    · rename_i hlen
      rw [if_neg hlen] at h
      rw [readLoop_ext hx hp₁]
      intro heq
      rw [heq] at h
      exact h rfl

theorem readRecord_congr (hx : Ext p w w') (hx' : Ext p w' w) (hp : p ≤ pos) :
    w.readRecord pos = w'.readRecord pos := by
  by_cases h : w.readRecord pos = .error .truncated
  · by_cases h' : w'.readRecord pos = .error .truncated
    · rw [h, h']
    · exact readRecord_ext hx' hp h'
  · exact (readRecord_ext hx hp h).symm

/-- A record moves the cursor past its start, and so does an abandoned
one that starts inside a page. -/
theorem readRecord_pos (w : WalWindow) (pos : Nat) :
    (∀ r pos', w.readRecord pos = .ok (r, pos') → r.lsn = pos ∧ pos < pos')
      ∧ (pos % xlogBlcksz ≠ 0 → ∀ page, w.readRecord pos = .error (.aborted page) →
          pos < page) := by
  obtain ⟨hok, hab⟩ := readLoop_pos w recordHeader pos recordHeader
  unfold readRecord read
  constructor
  · intro r pos' h
    split at h
    · cases h
    · rename_i header pos₁ hh
      have hlt := (hok header pos₁ hh).2 (by decide) (by decide)
      dsimp only at h
      split at h
      · cases h
      · split at h
        · cases h
        · rename_i body pos₂ hb
          have hle := ((readLoop_pos w _ pos₁ _).1 body pos₂ hb).1
          cases h
          refine ⟨rfl, ?_⟩
          unfold maxalign
          omega
  · intro hpos page h
    split at h
    · rename_i e heq
      cases h
      exact (hab page heq).2 hpos
    · rename_i header pos₁ hh
      have hlt := (hok header pos₁ hh).2 (by decide) (by decide)
      dsimp only at h
      split at h
      · cases h
      · split at h
        · rename_i e heq
          cases h
          have hle := ((readLoop_pos w _ pos₁ _).2 page heq).1
          omega
        · cases h

/-! ## One turn -/

variable {limit : Nat}

theorem step_pos (hlim : pos < limit) : (∀ r pos', w.step limit pos = .ok (r, pos') →
        pos < pos' ∧ ∀ rec, r = some rec → pos ≤ rec.lsn ∧ rec.lsn < pos' ∧ 0 < rec.lsn)
      ∧ ∀ page, w.step limit pos = .error (.aborted page) → pos < page := by
  unfold step
  cases hat : w.at_ pos 4 with
  | error e =>
    obtain rfl := at_error hat
    exact ⟨nofun, nofun⟩
  | ok head =>
    dsimp only
    split
    · constructor
      · intro r pos' h
        cases h
        refine ⟨?_, nofun⟩
        have hdiv := Nat.div_add_mod pos walSegmentSize
        have hmod := Nat.mod_lt pos (show 0 < walSegmentSize by decide)
        rw [Nat.mul_comm]
        omega
      · nofun
    · cases hs : w.skipPageHeader pos with
      | error e =>
        constructor
        · nofun
        · intro page h
          cases h
          -- The header is where the turn starts, so it is not inside a record.
          unfold skipPageHeader at hs
          split at hs
          · cases hs
          · rw [hat] at hs
            dsimp only at hs
            split at hs
            · cases hs
            · cases hs
      | ok out =>
        obtain ⟨o, pos₁⟩ := out
        obtain ⟨hle, hb⟩ := skipPageHeader_le hs
        obtain ⟨hok, hab⟩ := readRecord_pos w pos₁
        dsimp only
        split
        · rename_i hstop
          constructor
          · intro r pos' h
            cases h
            exact ⟨by omega, nofun⟩
          · nofun
        · cases hr : w.readRecord pos₁ with
          | error e =>
            constructor
            · nofun
            · intro page h
              cases h
              have hlt := hab hb page hr
              omega
          | ok out =>
            obtain ⟨rec, pos₂⟩ := out
            obtain ⟨hlsn, hlt⟩ := hok rec pos₂ hr
            have hpos : 0 < pos₁ := Nat.pos_of_ne_zero fun h => hb (by rw [h]; rfl)
            constructor
            · intro r pos' h
              cases h
              refine ⟨by omega, fun rec' h => ?_⟩
              cases h
              omega
            · nofun

/-- A valid page header stands at `pos`. -/
structure HeaderAt (w : WalWindow) (pos : Nat) : Prop where
  boundary : pos % xlogBlcksz = 0
  head : ∃ head, w.at_ pos 4 = .ok head ∧ head ≠ [0, 0, 0, 0]
  skip : ∃ o, w.skipPageHeader pos = .ok (o, pos + phd pos)

theorem HeaderAt.ext (hx : Ext p w w') (hp : p ≤ pos) (h : HeaderAt w pos) : HeaderAt w' pos := by
  obtain ⟨hb, ⟨head, hat, hne⟩, o, hs⟩ := h
  refine ⟨hb, ⟨head, hx pos 4 head hp hat, hne⟩, o, ?_⟩
  rw [skipPageHeader_ext hx hp (by rw [hs]; exact nofun), hs]

/-- Behind a valid page header a turn reads the record there, or stops
where the window does. -/
theorem step_header (h : HeaderAt w pos) :
    w.step limit pos = if pos + phd pos ≥ limit then .ok (none, pos + phd pos) else
      match w.readRecord (pos + phd pos) with
      | .error e => .error e
      | .ok (r, pos) => .ok (some r, pos) := by
  obtain ⟨-, ⟨head, hat, hne⟩, o, hs⟩ := h
  by_cases hlim : pos + phd pos ≥ limit
  · simp only [step, hat, if_neg hne, hs, if_pos hlim]
  · cases hr : w.readRecord (pos + phd pos) with
    | error e => simp only [step, hat, if_neg hne, hs, if_neg hlim, hr]
    | ok v => simp only [step, hat, if_neg hne, hs, if_neg hlim, hr]

/-- A turn that did not run out of bytes is the same turn in a window that
shows more, save one that ended with the window inside a page header. -/
theorem step_ext {limit' : Nat} (hx : Ext p w w') (hp : p ≤ pos)
    (hlim : limit ≤ limit') (hpos : pos < limit) (h : w.step limit pos ≠ .error .truncated) :
    w'.step limit' pos = w.step limit pos
      ∨ (HeaderAt w pos ∧ limit ≤ pos + phd pos) := by
  unfold step at h ⊢
  cases hat : w.at_ pos 4 with
  | error e =>
    obtain rfl := at_error hat
    rw [hat] at h
    exact absurd rfl h
  | ok head =>
    rw [hat] at h
    rw [hx pos 4 head hp hat]
    dsimp only at h ⊢
    split
    · exact .inl rfl
    · rename_i hhead
      rw [if_neg hhead] at h
      have hne : w.skipPageHeader pos ≠ .error .truncated := by
        intro heq
        rw [heq] at h
        exact h rfl
      rw [skipPageHeader_ext hx hp hne]
      cases hs : w.skipPageHeader pos with
      | error e => exact .inl rfl
      | ok out =>
        obtain ⟨o, pos₁⟩ := out
        rw [hs] at h
        dsimp only at h ⊢
        have hle := (skipPageHeader_le hs).1
        by_cases hstop : pos₁ ≥ limit
        · -- The cursor moved to the limit, so it skipped a header.
          refine .inr ?_
          have hs' := hs
          unfold skipPageHeader at hs'
          split at hs'
          · cases hs'
            omega
          · rename_i hb
            rw [hat] at hs'
            dsimp only at hs'
            split at hs'
            · cases hs'
            · cases hs'
              exact ⟨⟨Decidable.not_not.mp hb, ⟨head, hat, hhead⟩, _, hs⟩, hstop⟩
        · have hstop' : ¬ pos₁ ≥ limit' := by omega
          rw [if_neg hstop] at h
          rw [if_neg hstop, if_neg hstop']
          refine .inl ?_
          rw [readRecord_ext hx (Nat.le_trans hp hle)]
          intro heq
          rw [heq] at h
          exact h rfl

/-- Two windows that show the same from `p` on make the same turns. -/
theorem step_congr (hx : Ext p w w') (hx' : Ext p w' w) (hp : p ≤ pos)
    (hpos : pos < limit) : w.step limit pos = w'.step limit pos := by
  have half : ∀ {v v' : WalWindow}, Ext p v v' → v.step limit pos ≠ .error .truncated →
      v'.step limit pos = v.step limit pos := by
    intro v v' hv h
    rcases step_ext hv hp (Nat.le_refl limit) hpos h with heq | ⟨hh, hle⟩
    · exact heq
    · rw [step_header hh, step_header (hh.ext hv hp), if_pos hle, if_pos hle]
  by_cases h : w.step limit pos = .error .truncated
  · by_cases h' : w'.step limit pos = .error .truncated
    · rw [h, h']
    · exact half hx' h'
  · exact (half hx h).symm

/-! ## Fuel -/

theorem walk_stop {strict : Bool} {fuel : Nat} (h : limit ≤ pos) :
    w.walk limit strict fuel pos = .ok ([], pos) := by
  cases fuel with
  | zero => rfl
  | succ fuel => simp only [walk, if_neg (Nat.not_lt.mpr h)]

/-- Any fuel that covers the distance to the limit gives the same walk. -/
theorem walk_fuel {strict : Bool} : ∀ {a b pos : Nat},
    limit - pos ≤ a → limit - pos ≤ b → w.walk limit strict a pos = w.walk limit strict b pos := by
  intro a
  induction a with
  | zero =>
    intro b pos ha hb
    rw [walk_stop (by omega), walk_stop (by omega)]
  | succ a ih =>
    intro b pos ha hb
    by_cases hpos : pos < limit
    · obtain ⟨hok, hab⟩ := step_pos (w := w) hpos
      obtain ⟨b, rfl⟩ : ∃ b', b = b' + 1 := ⟨b - 1, by omega⟩
      simp only [walk, if_pos hpos]
      cases hs : w.step limit pos with
      | ok out =>
        obtain ⟨r, pos'⟩ := out
        have hlt := (hok r pos' hs).1
        dsimp only
        rw [ih (b := b) (by omega) (by omega)]
      | error e =>
        cases e with
        | truncated => rfl
        | corrupt c => rfl
        | aborted page =>
          have hlt := hab page hs
          dsimp only
          rw [ih (b := b) (by omega) (by omega)]
    · rw [walk_stop (by omega), walk_stop (by omega)]

theorem walk_congr {strict : Bool} (hx : Ext p w w') (hx' : Ext p w' w) :
    ∀ {fuel pos : Nat}, p ≤ pos → w.walk limit strict fuel pos = w'.walk limit strict fuel pos := by
  intro fuel
  induction fuel with
  | zero => intro pos _; rfl
  | succ fuel ih =>
    intro pos hp
    by_cases hpos : pos < limit
    · obtain ⟨hok, hab⟩ := step_pos (w := w) hpos
      simp only [walk, if_pos hpos, ← step_congr hx hx' hp hpos]
      cases hs : w.step limit pos with
      | ok out =>
        obtain ⟨r, pos'⟩ := out
        have hlt := (hok r pos' hs).1
        dsimp only
        rw [ih (by omega)]
      | error e =>
        cases e with
        | truncated => rfl
        | corrupt c => rfl
        | aborted page =>
          have hlt := hab page hs
          dsimp only
          rw [ih (by omega)]
    · rw [walk_stop (by omega), walk_stop (by omega)]

end WalWindow

/-! ## Walks of a stream -/

namespace WalStream

open WalWindow

variable {S : WalStream} {hi p hi' : Nat}

theorem window_ext {lo lo' : Nat} (hlo : lo ≤ p) (hlo' : lo' ≤ p) (hhi : lo ≤ hi)
    (h : hi ≤ hi') : Ext p (S.window lo hi) (S.window lo' hi') := by
  intro pos len bytes hp hat
  have hfit : pos + len ≤ hi := by
    rcases Nat.lt_or_ge hi (pos + len) with hlt | hge
    · rw [window_at_truncated hlt (by omega) hhi] at hat
      cases hat
    · exact hge
  rw [window_at hfit (by omega)] at hat
  rw [window_at (by omega) (by omega), hat]

/-- One turn at `p` with the stream received up to `hi`. -/
def stepTo (S : WalStream) (hi p : Nat) : Except ScanErr (Option WalRecord × Nat) :=
  (S.window p hi).step hi p

/-- The walk from `p` with the stream received up to `hi`. -/
def walkTo (S : WalStream) (hi p : Nat) : Except WalError (List WalRecord × Nat) :=
  (S.window p hi).walk hi false (hi - p) p

theorem walkTo_stop (h : hi ≤ p) : S.walkTo hi p = .ok ([], p) :=
  walk_stop h

/-- Where the window starts does not matter. -/
theorem walk_window {lo fuel : Nat} (hlo : lo ≤ p) (hf : hi - p ≤ fuel) :
    (S.window lo hi).walk hi false fuel p = S.walkTo hi p := by
  by_cases h : p < hi
  · unfold walkTo
    rw [walk_fuel hf le_rfl]
    exact walk_congr (window_ext hlo (Nat.le_refl p) (by omega) le_rfl)
      (window_ext (Nat.le_refl p) hlo (by omega) le_rfl) (Nat.le_refl p)
  · rw [walkTo_stop (by omega), walk_stop (by omega)]

/-- Records found before a walk. -/
def after (R : List WalRecord) (x : Except WalError (List WalRecord × Nat)) :
    Except WalError (List WalRecord × Nat) := x.map fun out => (R ++ out.1, out.2)

/-- How a walk goes on after a turn at `p`. -/
def proceed (S : WalStream) (hi p : Nat) :
    Except ScanErr (Option WalRecord × Nat) → Except WalError (List WalRecord × Nat)
  | .ok (r, p') => after r.toList (S.walkTo hi p')
  | .error (.aborted page) => S.walkTo hi page
  | .error .truncated => .ok ([], p)
  | .error (.corrupt c) => .error (.corrupt c)

theorem walkTo_lt (h : p < hi) : S.walkTo hi p = S.proceed hi p (S.stepTo hi p) := by
  obtain ⟨hok, hab⟩ := step_pos (w := S.window p hi) h
  have hfuel : hi - p = hi - p - 1 + 1 := by omega
  rw [walkTo, hfuel]
  simp only [walk, if_pos h, stepTo]
  cases hs : (S.window p hi).step hi p with
  | ok out =>
    obtain ⟨r, p'⟩ := out
    have hlt := (hok r p' hs).1
    dsimp only [proceed]
    rw [walk_window (by omega) (by omega)]
    rfl
  | error e =>
    cases e with
    | truncated => rfl
    | corrupt c => rfl
    | aborted page =>
      have hlt := hab page hs
      exact walk_window (by omega) (by omega)

/-! ## Resuming -/

/-- `r'` is `r`, or `r` is a page boundary and `r'` lies right behind that
page's header. -/
def Past (r r' : Nat) : Prop := r' = r ∨ (r % xlogBlcksz = 0 ∧ r' = r + phd r)

theorem Past.refl (r : Nat) : Past r r := .inl rfl

theorem Past.trans {a b c : Nat} (h : Past a b) (h' : Past b c) : Past a c := by
  rcases h with rfl | ⟨hb, rfl⟩
  · exact h'
  · rcases h' with rfl | ⟨hb', -⟩
    · exact .inr ⟨hb, rfl⟩
    · exact absurd hb' (phd_not_boundary hb)

/-- Two walks with the same records and errors whose resume points differ
at most by a page header. -/
def Same (x y : Except WalError (List WalRecord × Nat)) : Prop :=
  (∃ R r r', x = .ok (R, r) ∧ y = .ok (R, r') ∧ Past r r') ∨ ∃ e, x = .error e ∧ y = .error e

theorem Same.refl (x : Except WalError (List WalRecord × Nat)) : Same x x := by
  cases x with
  | ok out => exact .inl ⟨out.1, out.2, out.2, rfl, rfl, Past.refl _⟩
  | error e => exact .inr ⟨e, rfl, rfl⟩

variable {x : Except WalError (List WalRecord × Nat)}

theorem Same.trans {y z : Except WalError (List WalRecord × Nat)} (h : Same x y)
    (h' : Same y z) : Same x z := by
  rcases h with ⟨R, r, r', rfl, rfl, hp⟩ | ⟨e, rfl, rfl⟩
  · rcases h' with ⟨R₂, r₂, r₂', heq, rfl, hp'⟩ | ⟨e, heq, -⟩
    · cases heq
      exact .inl ⟨R, r, r₂', rfl, rfl, hp.trans hp'⟩
    · cases heq
  · rcases h' with ⟨R₂, r₂, r₂', heq, -, -⟩ | ⟨e', heq, rfl⟩
    · cases heq
    · cases heq
      exact .inr ⟨e, rfl, rfl⟩

theorem after_nil (x : Except WalError (List WalRecord × Nat)) : after [] x = x := by
  cases x <;> rfl

theorem after_append (R R' : List WalRecord) (x : Except WalError (List WalRecord × Nat)) :
    after R (after R' x) = after (R ++ R') x := by
  cases x with
  | ok out => simp [after, Except.map, List.append_assoc]
  | error e => rfl

theorem Same.after {y : Except WalError (List WalRecord × Nat)} (R : List WalRecord)
    (h : Same x y) : Same (after R x) (after R y) := by
  rcases h with ⟨R', r, r', rfl, rfl, hp⟩ | ⟨e, rfl, rfl⟩
  · exact .inl ⟨R ++ R', r, r', rfl, rfl, hp⟩
  · exact .inr ⟨e, rfl, rfl⟩

/-- The fixed header of a record behind a page header is in one run. -/
theorem read_behind (hb : p % xlogBlcksz = 0) (hp : p + phd p ≤ hi) :
    (S.window p hi).read (p + phd p) recordHeader
      = if p + phd p + recordHeader ≤ hi then
          .ok (S.bytes (p + phd p) recordHeader, p + phd p + recordHeader)
        else .error .truncated := by
  have hmod : (p + phd p) % xlogBlcksz = phd p := by
    unfold phd longPhd shortPhd xlogBlcksz at *
    split <;> omega
  have hskip : (S.window p hi).skipPageHeaderWithin (p + phd p) = .ok (p + phd p) := by
    simp only [skipPageHeaderWithin, skipPageHeader, if_pos (phd_not_boundary hb)]
  have hrun : min (xlogBlcksz - (p + phd p) % xlogBlcksz) recordHeader = recordHeader := by
    rw [hmod]
    unfold phd longPhd shortPhd xlogBlcksz recordHeader
    split <;> omega
  have hfuel : (S.window p hi).read (p + phd p) recordHeader
      = (S.window p hi).readLoop (23 + 1) (p + phd p) recordHeader := rfl
  rw [hfuel]
  by_cases hfit : p + phd p + recordHeader ≤ hi
  · simp only [readLoop, show recordHeader ≠ 0 by decide, if_false, hskip, hrun, if_pos hfit,
      window_at hfit (Nat.le_add_right _ _), Nat.sub_self, if_true, List.append_nil]
  · have hat : (S.window p hi).at_ (p + phd p) recordHeader = .error .truncated :=
      window_at_truncated (by omega) (Nat.le_add_right _ _) (by omega)
    simp only [readLoop, show recordHeader ≠ 0 by decide, if_false, hskip, hrun, if_neg hfit, hat]

theorem readRecord_short (hb : p % xlogBlcksz = 0) (h : hi < p + phd p + recordHeader)
    (hp : p + phd p ≤ hi) : (S.window p hi).readRecord (p + phd p) = .error .truncated := by
  have hfit : ¬ p + phd p + recordHeader ≤ hi := by omega
  simp only [readRecord, read_behind hb hp, if_neg hfit]

theorem readRecord_blank (hb : p % xlogBlcksz = 0)
    (h : p + phd p + recordHeader ≤ hi) (hz : S.bytes (p + phd p) 4 = [0, 0, 0, 0]) :
    ∃ c, (S.window p hi).readRecord (p + phd p) = .error (.corrupt c) := by
  have htake : (S.bytes (p + phd p) recordHeader).take 4 = [0, 0, 0, 0] := by
    rw [take_bytes S _ (by decide : 4 ≤ recordHeader), hz]
  refine ⟨.badLength 0 (p + phd p), ?_⟩
  simp only [readRecord, read_behind hb (by omega : p + phd p ≤ hi), if_pos h, htake]
  rfl

/-- The walk succeeds and does not stop in front of a page header with four
zero bytes behind it, which no more of the stream could make a record. -/
def Clean (S : WalStream) (e p : Nat) : Prop :=
  ∃ R r, S.walkTo e p = .ok (R, r)
    ∧ (r % xlogBlcksz = 0 → r + phd r + 4 ≤ e → S.bytes (r + phd r) 4 ≠ [0, 0, 0, 0])

variable {R : List WalRecord}

theorem Clean.of_after {e : Nat} (h : Clean S e p) (hx : Same (S.walkTo e p) x) {q : Nat}
    (hq : x = after R (S.walkTo e q)) : Clean S e q := by
  obtain ⟨R', r, hw, hr⟩ := h
  rw [hw] at hx
  rcases hx with ⟨R₁, r₁, r₂, heq, rfl, hpast⟩ | ⟨err, heq, -⟩
  · cases heq
    cases hwq : S.walkTo e q with
    | error err =>
      rw [hwq] at hq
      cases hq
    | ok out =>
      obtain ⟨R₂, r₃⟩ := out
      rw [hwq] at hq
      cases hq
      refine ⟨R₂, r₃, hwq, ?_⟩
      rcases hpast with rfl | ⟨hb, rfl⟩
      · exact hr
      · exact fun h => absurd h (phd_not_boundary hb)
  · cases heq

/-- A page header the walk stands in front of is not followed by zeros. -/
theorem Clean.header {e : Nat} (h : Clean S e p) (hh : HeaderAt (S.window p e) p)
    (hp : p + phd p + 4 ≤ e) : S.bytes (p + phd p) 4 ≠ [0, 0, 0, 0] := by
  intro hz
  obtain ⟨R, r, hw, hr⟩ := h
  have hlt : ¬ p + phd p ≥ e := by omega
  rw [walkTo_lt (by omega : p < e), stepTo, step_header hh, if_neg hlt] at hw
  by_cases hfit : p + phd p + recordHeader ≤ e
  · obtain ⟨c, hc⟩ := readRecord_blank hh.boundary hfit hz
    rw [hc] at hw
    cases hw
  · rw [readRecord_short hh.boundary (by omega) (by omega)] at hw
    cases hw
    exact hr hh.boundary hp hz

/-- A turn at a page boundary with a valid header and a turn right behind
that header. -/
theorem stepTo_header
    (hblank : p + phd p + 4 ≤ hi → S.bytes (p + phd p) 4 ≠ [0, 0, 0, 0]) (hq : p + phd p < hi)
    (hh : HeaderAt (S.window p hi) p) : S.stepTo hi p = S.stepTo hi (p + phd p) := by
  rw [stepTo, step_header hh, if_neg (Nat.not_le.mpr hq)]
  by_cases hshort : hi < p + phd p + 4
  · -- Neither turn can tell what follows the header.
    have hat : (S.window (p + phd p) hi).at_ (p + phd p) 4 = .error .truncated :=
      window_at_truncated hshort le_rfl (by omega)
    rw [readRecord_short hh.boundary (by unfold recordHeader; omega) (by omega)]
    simp only [stepTo, step, hat]
  · have hat : (S.window (p + phd p) hi).at_ (p + phd p) 4 = .ok (S.bytes (p + phd p) 4) :=
      window_at (by omega) le_rfl
    have hskip : (S.window (p + phd p) hi).skipPageHeader (p + phd p)
        = .ok (false, p + phd p) := by
      simp only [skipPageHeader, if_pos (phd_not_boundary hh.boundary)]
    have hrec : (S.window (p + phd p) hi).readRecord (p + phd p)
        = (S.window p hi).readRecord (p + phd p) :=
      readRecord_congr (window_ext le_rfl (Nat.le_add_right _ _) (by omega)
          le_rfl)
        (window_ext (Nat.le_add_right _ _) le_rfl (by omega) le_rfl)
        le_rfl
    cases hr : (S.window p hi).readRecord (p + phd p) with
    | error e =>
      simp only [stepTo, step, hat, if_neg (hblank (by omega)), hskip,
        if_neg (Nat.not_le.mpr hq), hrec, hr, ge_iff_le]
    | ok v =>
      simp only [stepTo, step, hat, if_neg (hblank (by omega)), hskip,
        if_neg (Nat.not_le.mpr hq), hrec, hr, ge_iff_le]

/-- A walk from a page boundary with a valid header and a walk from right
behind that header. -/
theorem walkTo_header
    (hblank : p + phd p + 4 ≤ hi → S.bytes (p + phd p) 4 ≠ [0, 0, 0, 0]) (hp : p < hi)
    (hh : HeaderAt (S.window p hi) p) : Same (S.walkTo hi p) (S.walkTo hi (p + phd p)) := by
  by_cases hstop : p + phd p ≥ hi
  · have hstep : S.stepTo hi p = .ok (none, p + phd p) := by
      rw [stepTo, step_header hh, if_pos hstop]
    rw [walkTo_lt hp, hstep]
    have hgo : S.proceed hi p (.ok (none, p + phd p)) = S.walkTo hi (p + phd p) := after_nil _
    rw [hgo]
    exact Same.refl _
  · have hq : p + phd p < hi := by omega
    rw [walkTo_lt hp, walkTo_lt hq, stepTo_header hblank hq hh]
    cases S.stepTo hi (p + phd p) with
    | ok out => exact Same.refl _
    | error e =>
      cases e with
      | truncated => exact .inl ⟨[], p, p + phd p, rfl, rfl, .inr ⟨hh.boundary, rfl⟩⟩
      | aborted page => exact Same.refl _
      | corrupt c => exact Same.refl _

/-- A turn at `p` that did not run out of bytes, in a longer window. -/
theorem stepTo_mono (hp : p < hi) (h : hi ≤ hi') (hs : S.stepTo hi p ≠ .error .truncated) :
    S.stepTo hi' p = S.stepTo hi p
      ∨ (HeaderAt (S.window p hi) p ∧ hi ≤ p + phd p ∧ S.stepTo hi p = .ok (none, p + phd p)) := by
  have hx : Ext p (S.window p hi) (S.window p hi') :=
    window_ext le_rfl le_rfl (Nat.le_of_lt hp) h
  rcases step_ext hx (Nat.le_refl p) h hp hs with heq | ⟨hh, hle⟩
  · exact .inl heq
  · refine .inr ⟨hh, hle, ?_⟩
    rw [stepTo, step_header hh, if_pos hle]

theorem stepTo_pos (hp : p < hi) : (∀ r p', S.stepTo hi p = .ok (r, p') →
        p < p' ∧ ∀ rec, r = some rec → p ≤ rec.lsn ∧ rec.lsn < p' ∧ 0 < rec.lsn)
      ∧ ∀ page, S.stepTo hi p = .error (.aborted page) → p < page :=
  step_pos hp

/-- What every turn preserves, every walk that succeeds preserves: the
induction is on the distance to the end of the window. -/
theorem walkTo_induct {P : Nat → List WalRecord → Nat → Prop}
    (hstop : ∀ p, hi ≤ p → P p [] p)
    (htrunc : ∀ p, p < hi → S.stepTo hi p = .error .truncated → P p [] p)
    (habort : ∀ p page R r, p < hi → S.stepTo hi p = .error (.aborted page) →
      S.walkTo hi page = .ok (R, r) → P page R r → P p R r)
    (hturn : ∀ p o p' R r, p < hi → S.stepTo hi p = .ok (o, p') →
      S.walkTo hi p' = .ok (R, r) → P p' R r → P p (o.toList ++ R) r) :
    ∀ {p : Nat} {R : List WalRecord} {r : Nat}, S.walkTo hi p = .ok (R, r) → P p R r := by
  have main : ∀ n p R r, hi - p ≤ n → S.walkTo hi p = .ok (R, r) → P p R r := by
    intro n
    induction n with
    | zero =>
      intro p R r hn h
      rw [walkTo_stop (by omega)] at h
      cases h
      exact hstop p (by omega)
    | succ n ih =>
      intro p R r hn h
      by_cases hp : p < hi
      · obtain ⟨hok, hab⟩ := stepTo_pos (S := S) hp
        rw [walkTo_lt hp] at h
        cases hs : S.stepTo hi p with
        | ok out =>
          obtain ⟨o, p'⟩ := out
          have hlt := (hok o p' hs).1
          rw [hs] at h
          cases hw : S.walkTo hi p' with
          | error e =>
            simp only [proceed, after, hw] at h
            cases h
          | ok out =>
            obtain ⟨R', r'⟩ := out
            simp only [proceed, after, hw, Except.map] at h
            cases h
            exact hturn p o p' _ _ hp hs hw (ih p' _ _ (by omega) hw)
        | error e =>
          rw [hs] at h
          cases e with
          | truncated =>
            cases h
            exact htrunc p hp hs
          | corrupt c => cases h
          | aborted page =>
            have hlt := hab page hs
            exact habort p page R r hp hs h (ih page R r (by omega) h)
      · rw [walkTo_stop (by omega)] at h
        cases h
        exact hstop p (by omega)
  intro p R r h
  exact main (hi - p) p R r le_rfl h

variable {r : Nat}

theorem walkTo_rest (h : S.walkTo hi p = .ok (R, r)) : S.walkTo hi r = .ok ([], r) := by
  refine walkTo_induct (S := S) (P := fun _ _ r => S.walkTo hi r = .ok ([], r)) ?_ ?_ ?_ ?_ h
  · exact fun p hp => walkTo_stop hp
  · intro p hp hs
    rw [walkTo_lt hp, hs]
    rfl
  · exact fun _ _ _ _ _ _ _ ih => ih
  · exact fun _ _ _ _ _ _ _ _ ih => ih

/-- Records of a walk start at or after it does and before it stops, each
after the one before it. -/
theorem walkTo_lsns (h : S.walkTo hi p = .ok (R, r)) :
    p ≤ r ∧ (∀ rec ∈ R, p ≤ rec.lsn ∧ rec.lsn < r ∧ 0 < rec.lsn)
      ∧ R.Pairwise fun a b => a.lsn < b.lsn := by
  refine walkTo_induct (S := S) (P := fun p R r => p ≤ r
    ∧ (∀ rec ∈ R, p ≤ rec.lsn ∧ rec.lsn < r ∧ 0 < rec.lsn)
    ∧ R.Pairwise fun a b => a.lsn < b.lsn) ?_ ?_ ?_ ?_ h
  · exact fun p _ => ⟨Nat.le_refl p, nofun, List.Pairwise.nil⟩
  · exact fun p _ _ => ⟨Nat.le_refl p, nofun, List.Pairwise.nil⟩
  · intro p page R r hp hs _ ⟨hle, hge, hpw⟩
    have hlt := (stepTo_pos hp).2 page hs
    refine ⟨by omega, fun rec hr => ?_, hpw⟩
    have hrec := hge rec hr
    omega
  · intro p o p' R r hp hs _ ⟨hle, hge, hpw⟩
    obtain ⟨hlt, hrec⟩ := (stepTo_pos hp).1 o p' hs
    refine ⟨by omega, fun rec hr => ?_, ?_⟩
    · rcases List.mem_append.mp hr with hnew | hold
      · have hnew := hrec rec (Option.mem_toList.mp hnew)
        omega
      · have hold := hge rec hold
        omega
    · cases o with
      | none => exact hpw
      | some rec =>
        refine List.pairwise_cons.mpr ⟨fun rec' hr => ?_, hpw⟩
        have h1 := (hrec rec rfl).2.1
        have h2 := (hge rec' hr).1
        omega

/-- Every longer walk goes through where a walk stopped, or through the
page header the window of the shorter one ended in. -/
theorem walkTo_split (hw : S.walkTo hi p = .ok (R, r)) :
    ∃ q, (q = r ∨ (HeaderAt (S.window q hi) q ∧ q < hi ∧ hi ≤ r ∧ r = q + phd q))
      ∧ ∀ k, hi ≤ k → S.walkTo k p = after R (S.walkTo k q) := by
  refine walkTo_induct (S := S) (P := fun p R r => ∃ q, (q = r
      ∨ (HeaderAt (S.window q hi) q ∧ q < hi ∧ hi ≤ r ∧ r = q + phd q))
    ∧ ∀ k, hi ≤ k → S.walkTo k p = after R (S.walkTo k q)) ?_ ?_ ?_ ?_ hw
  · exact fun p _ => ⟨p, .inl rfl, fun k _ => (after_nil _).symm⟩
  · exact fun p _ _ => ⟨p, .inl rfl, fun k _ => (after_nil _).symm⟩
  · intro p page R r hp hs _ ⟨q, hq, ih⟩
    have hne : S.stepTo hi p ≠ .error .truncated := by rw [hs]; exact nofun
    refine ⟨q, hq, fun k hk => ?_⟩
    rcases stepTo_mono hp hk hne with heq | ⟨-, -, heq⟩
    · rw [walkTo_lt (Nat.lt_of_lt_of_le hp hk), heq, hs]
      exact ih k hk
    · rw [hs] at heq
      cases heq
  · intro p o p' R r hp hs hrest ⟨q, hq, ih⟩
    have hne : S.stepTo hi p ≠ .error .truncated := by rw [hs]; exact nofun
    by_cases hstop : HeaderAt (S.window p hi) p ∧ hi ≤ p + phd p
    · -- The shorter window ended inside the header, so its walk ended there too.
      obtain ⟨hh, hle⟩ := hstop
      rw [stepTo, step_header hh, if_pos hle] at hs
      cases hs
      rw [walkTo_stop hle] at hrest
      cases hrest
      exact ⟨p, .inr ⟨hh, hp, hle, rfl⟩, fun k _ => (after_nil _).symm⟩
    · refine ⟨q, hq, fun k hk => ?_⟩
      rcases stepTo_mono hp hk hne with heq | ⟨hh, hle, -⟩
      · rw [walkTo_lt (Nat.lt_of_lt_of_le hp hk), heq, hs, ← after_append, ← ih k hk]
        rfl
      · exact absurd ⟨hh, hle⟩ hstop

/-- A walk may stop at the end of one window and resume in a longer one,
as long as the stream goes on well to some `e`. -/
theorem walkTo_resume {e : Nat} (h : hi ≤ hi') (h' : hi' ≤ e) (hclean : Clean S e p)
    (hw : S.walkTo hi p = .ok (R, r)) : Same (S.walkTo hi' p) (after R (S.walkTo hi' r)) := by
  obtain ⟨q, hq, hsplit⟩ := walkTo_split hw
  rw [hsplit hi' h]
  rcases hq with rfl | ⟨hh, hlt, hle, rfl⟩
  · exact Same.refl _
  · have hx : ∀ k, hi ≤ k → Ext q (S.window q hi) (S.window q k) :=
      fun k hk => window_ext le_rfl le_rfl (Nat.le_of_lt hlt) hk
    have hclean' : Clean S e q :=
      hclean.of_after (Same.refl _) (hsplit e (Nat.le_trans h h'))
    refine (walkTo_header (fun hfit => ?_) (Nat.lt_of_lt_of_le hlt h)
      (hh.ext (hx hi' h) (Nat.le_refl q))).after R
    exact hclean'.header (hh.ext (hx e (Nat.le_trans h h')) (Nat.le_refl q)) (by omega)

theorem walkTo_error (h : hi ≤ hi') :
    ∀ {p : Nat} {e : WalError}, S.walkTo hi p = .error e → S.walkTo hi' p = .error e := by
  have main : ∀ n p e, hi - p ≤ n → S.walkTo hi p = .error e → S.walkTo hi' p = .error e := by
    intro n
    induction n with
    | zero =>
      intro p e hn hw
      rw [walkTo_stop (by omega)] at hw
      cases hw
    | succ n ih =>
      intro p e hn hw
      by_cases hp : p < hi
      · obtain ⟨hok, hab⟩ := stepTo_pos (S := S) hp
        have hp' : p < hi' := Nat.lt_of_lt_of_le hp h
        rw [walkTo_lt hp] at hw
        have hne : S.stepTo hi p ≠ .error .truncated := by
          intro heq
          rw [heq] at hw
          cases hw
        rcases stepTo_mono hp h hne with heq | ⟨-, hle, heq⟩
        · rw [walkTo_lt hp', heq]
          cases hs : S.stepTo hi p with
          | ok out =>
            obtain ⟨o, p'⟩ := out
            have hlt := (hok o p' hs).1
            rw [hs] at hw
            cases hrest : S.walkTo hi p' with
            | ok out =>
              simp only [proceed, after, hrest] at hw
              cases hw
            | error e' =>
              simp only [proceed, after, hrest] at hw
              cases hw
              simp only [proceed, after, ih p' e (by omega) hrest]
              rfl
          | error e' =>
            rw [hs] at hw
            cases e' with
            | truncated => exact absurd hs hne
            | corrupt c => exact hw
            | aborted page =>
              have hlt := hab page hs
              exact ih page e (by omega) hw
        · rw [heq] at hw
          simp only [proceed, after, walkTo_stop hle] at hw
          cases hw
      · rw [walkTo_stop (by omega)] at hw
        cases hw
  intro p e hw
  exact main (hi - p) p e le_rfl hw

end WalStream

end Zou
