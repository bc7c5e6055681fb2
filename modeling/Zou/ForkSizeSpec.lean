import Zou.ForkSize

/-!
# The claims of a fork's views

Every view at rest is canonical: `dense` is within the fork and the lowest
bit is clear. So it survives being stored, and merging is commutative and
idempotent. That what a view claims was written is another matter. `walk`
cuts `dense` at the block count and shifts the window by all of its steps,
so where the count stops it with bits left over, the bits come to stand for
other blocks. And `merge` takes the further `dense` for the later one,
which a cut makes it not to be. `Tracks` holds in every run without such a
walk and without a merge of a view that has not heard of a cut.
-/

namespace Zou

open Bits Bytes

namespace ForkSize

/-! ## At rest -/

/-- The form every operation leaves behind. -/
structure AtRest (s : ForkSize) : Prop where
  fits : s.nblocks ≤ u32Max
  within : s.dense ≤ s.nblocks
  clear : s.filled.getLsbD 0 = false

variable {s t : ForkSize}

theorem walk_clear (s : ForkSize) : s.walk.filled.getLsbD 0 = false := by
  unfold walk
  dsimp only
  split
  · rename_i h
    exact getLsbD_zero_of_trailingOnes h
  · dsimp only
    split
    · exact BitVec.getLsbD_zero
    · exact getLsbD_shift_trailingOnes s.filled

@[simp] theorem walk_nblocks (s : ForkSize) : s.walk.nblocks = s.nblocks := by
  unfold walk
  dsimp only
  split <;> rfl

theorem walk_atRest (hfits : s.nblocks ≤ u32Max) (hle : s.dense ≤ s.nblocks) : s.walk.AtRest := by
  refine ⟨by rwa [walk_nblocks], ?_, walk_clear s⟩
  rw [walk_nblocks]
  unfold walk
  dsimp only
  split
  · exact hle
  · exact Nat.min_le_right ..

theorem AtRest.walk_eq (h : s.AtRest) : s.walk = s := by
  unfold walk
  rw [if_pos (trailingOnes_eq_zero h.clear)]

variable {n : Nat}

theorem plain_atRest (hn : n ≤ u32Max) : (plain n).AtRest :=
  ⟨hn, Nat.zero_le _, BitVec.getLsbD_zero⟩

theorem AtRest.fill (h : s.AtRest) (blk : Nat) : (s.fill blk).AtRest := by
  unfold ForkSize.fill
  split
  · exact h
  · split
    · exact h
    · exact walk_atRest h.fits h.within

theorem AtRest.grow (h : s.AtRest) (hn : n ≤ u32Max) : (s.grow n).AtRest := by
  unfold ForkSize.grow
  split
  · rename_i hlt
    exact ⟨hn, Nat.le_trans h.within (Nat.le_of_lt hlt), h.clear⟩
  · exact h

theorem AtRest.truncate (h : s.AtRest) (hn : n ≤ u32Max) : (s.truncate n).AtRest := by
  unfold ForkSize.truncate
  split
  · exact ⟨hn, le_rfl, BitVec.getLsbD_zero⟩
  · rename_i hle
    refine ⟨hn, Nat.le_of_not_lt hle, ?_⟩
    dsimp only
    split
    · rw [BitVec.getLsbD_and, h.clear, Bool.false_and]
    · exact h.clear

theorem AtRest.merge (hs : s.AtRest) (ht : t.AtRest) : (s.merge t).AtRest := by
  have hn : max s.nblocks t.nblocks ≤ u32Max := Nat.max_le.mpr ⟨hs.fits, ht.fits⟩
  unfold ForkSize.merge joined
  split
  · exact walk_atRest hn (Nat.min_le_right ..)
  · exact walk_atRest hn (Nat.min_le_right ..)

/-! ## Stored and merged -/

theorem AtRest.decode_encode (h : s.AtRest) : decode s.encode = some s := by
  have hn : s.nblocks < 2 ^ 32 := Nat.lt_of_le_of_lt h.fits (by decide)
  have hd : s.dense < 2 ^ 32 := Nat.lt_of_le_of_lt h.within hn
  have hlen : s.encode.length = 16 := by simp [encode]
  have hfields : ofLe (slice s.encode 0 4) = s.nblocks ∧ ofLe (slice s.encode 4 4) = s.dense
      ∧ BitVec.ofNat 64 (ofLe (slice s.encode 8 8)) = s.filled := by
    refine ⟨?_, ?_, ?_⟩
    · simp [encode, ofLe_le32 hn]
    · simp [encode, ofLe_le32 hd]
    · simp [encode, ofLe_le64 s.filled.isLt]
  obtain ⟨h0, h1, h2⟩ := hfields
  unfold decode
  dsimp only
  rw [hlen, if_neg (by decide), if_pos rfl, h0, h1, h2, Nat.min_eq_left h.within]
  exact congrArg some h.walk_eq

theorem merge_comm (s t : ForkSize) : s.merge t = t.merge s := by
  have hj : joined s t = joined t s := by
    unfold joined
    rw [Nat.max_comm t.nblocks]
    by_cases hlt : s.dense < t.dense
    · rw [if_neg (Nat.not_le_of_lt hlt), if_pos (Nat.le_of_lt hlt)]
    · rw [if_pos (Nat.le_of_not_lt hlt)]
      split
      · -- the same `dense`: neither window is shifted
        rename_i hle
        have heq : s.dense = t.dense := Nat.le_antisymm hle (Nat.le_of_not_lt hlt)
        simp [union, heq, window, BitVec.or_comm]
      · rfl
  rw [merge, merge, hj]

theorem AtRest.merge_self (h : s.AtRest) : s.merge s = s := by
  have hu : joined s s = s := by
    simp [joined, union, window, Nat.min_eq_left h.within]
  rw [ForkSize.merge, hu, h.walk_eq]

/-! ## What is claimed -/

/-- Every block `s` stands for has `P`. -/
structure Tracks (s : ForkSize) (P : Nat → Prop) : Prop where
  low : ∀ b, b < s.dense → P b
  bits : ∀ i, s.filled.getLsbD i = true → P (s.dense + i)

variable {P Q : Nat → Prop}

theorem Tracks.mono (hsub : ∀ b, P b → Q b) (h : Tracks s P) : Tracks s Q :=
  ⟨fun b hb => hsub b (h.low b hb), fun i hi => hsub _ (h.bits i hi)⟩

theorem plain_tracks (n : Nat) : Tracks (plain n) P :=
  ⟨fun b hb => absurd hb (Nat.not_lt_zero b), fun i hi => by simp [plain] at hi⟩

/-- The blocks a size stands for. -/
def held (s : ForkSize) : List Nat :=
  List.range s.dense ++ ((List.range window).filter s.filled.getLsbD).map (s.dense + ·)

theorem tracks_held (h : ∀ b ∈ s.held, P b) : Tracks s P := by
  refine ⟨fun b hb => h b (List.mem_append_left _ (List.mem_range.mpr hb)), fun i hi => ?_⟩
  refine h _ (List.mem_append_right _ (List.mem_map_of_mem (List.mem_filter.mpr ⟨?_, hi⟩)))
  by_contra hge
  rw [List.mem_range, Nat.not_lt] at hge
  rw [BitVec.getLsbD_of_ge _ _ (show 64 ≤ i from hge)] at hi
  cases hi

/-- The block count stops a walk over `s` and leaves bits in its window. -/
def overruns (s : ForkSize) : Bool :=
  s.nblocks < s.dense + trailingOnes s.filled && s.filled >>> trailingOnes s.filled ≠ 0

theorem Tracks.walk (h : Tracks s P) (hfits : s.nblocks ≤ u32Max)
    (hover : s.overruns = false) : Tracks s.walk P := by
  unfold ForkSize.walk
  dsimp only
  split
  · exact h
  · constructor
    · intro b hb
      rcases Nat.lt_or_ge b s.dense with hlt | hge
      · exact h.low b hlt
      · have hi : b - s.dense < trailingOnes s.filled := by
          dsimp only at hb
          omega
        have hin := h.bits _ (getLsbD_of_lt_trailingOnes hi)
        rwa [Nat.add_sub_cancel' hge] at hin
    · intro i hi
      split at hi
      · simp at hi
      · -- a bit is left, so the count has not stopped the walk
        have hleft : s.filled >>> trailingOnes s.filled ≠ 0 := by
          intro hz
          rw [hz] at hi
          simp at hi
        have hle : s.dense + trailingOnes s.filled ≤ s.nblocks := by
          by_contra hgt
          have hlt : s.nblocks < s.dense + trailingOnes s.filled := Nat.lt_of_not_le hgt
          rw [overruns, decide_eq_true hlt, decide_eq_true hleft] at hover
          cases hover
        have hdense : min (min (s.dense + trailingOnes s.filled) u32Max) s.nblocks
            = s.dense + trailingOnes s.filled := by omega
        rw [BitVec.getLsbD_ushiftRight] at hi
        rw [hdense, Nat.add_assoc]
        exact h.bits _ hi

theorem Tracks.mark {blk : Nat} (h : Tracks s P) (hge : s.dense ≤ blk) (hblk : P blk) :
    Tracks (s.mark blk) P := by
  refine ⟨h.low, fun i hi => ?_⟩
  dsimp only [ForkSize.mark] at hi ⊢
  rw [BitVec.getLsbD_or, Bool.or_eq_true] at hi
  rcases hi with hold | hnew
  · exact h.bits i hold
  · have hidx : i = blk - s.dense := by
      simp [BitVec.getLsbD_shiftLeft, BitVec.getLsbD_one] at hnew
      omega
    rwa [hidx, Nat.add_sub_cancel' hge]

theorem Tracks.union (hs : Tracks s P) (ht : Tracks t P) (hle : t.dense ≤ s.dense)
    (hn : s.dense ≤ n) : Tracks (union s t n) P := by
  unfold ForkSize.union
  rw [Nat.min_eq_left hn]
  refine ⟨hs.low, fun i hi => ?_⟩
  dsimp only at hi ⊢
  rw [BitVec.getLsbD_or, Bool.or_eq_true] at hi
  rcases hi with hown | hlifted
  · exact hs.bits i hown
  · split at hlifted
    · simp at hlifted
    · rw [BitVec.getLsbD_ushiftRight] at hlifted
      have hin := ht.bits _ hlifted
      rwa [← Nat.add_assoc, Nat.add_sub_cancel' hle] at hin

theorem Tracks.grow (h : Tracks s P) : Tracks (s.grow n) P := by
  unfold ForkSize.grow
  split
  · exact ⟨h.low, h.bits⟩
  · exact h

theorem Tracks.truncate (h : Tracks s P) : Tracks (s.truncate n) fun b => P b ∧ b < n := by
  unfold ForkSize.truncate
  split
  · rename_i hgt
    exact ⟨fun b hb => ⟨h.low b (Nat.lt_trans hb hgt), hb⟩, fun i hi => by simp at hi⟩
  · rename_i hle
    refine ⟨fun b hb => ?_, fun i hi => ?_⟩
    · dsimp only at hb
      exact ⟨h.low b hb, by omega⟩
    · dsimp only at hi ⊢
      split at hi
      · rename_i hroom
        have hroom : n - s.dense < 64 := hroom
        rw [BitVec.getLsbD_and, Bool.and_eq_true, getLsbD_lowMask hroom, decide_eq_true_eq] at hi
        exact ⟨h.bits i hi.1, by omega⟩
      · rename_i hroom
        have hlt : i < 64 := by
          by_contra hge
          rw [BitVec.getLsbD_of_ge _ _ (Nat.le_of_not_lt hge)] at hi
          cases hi
        unfold window at hroom
        exact ⟨h.bits i hi, by omega⟩

/-! ## Filled in the clear -/

/-- Filling `blk` starts no walk that overruns. -/
def fillClear (s : ForkSize) (blk : Nat) : Bool :=
  blk < s.dense || blk - s.dense ≥ window || !(s.mark blk).overruns

/-- Nor does filling any of these in turn. -/
def runClear (s : ForkSize) : List Nat → Bool
  | [] => true
  | blk :: blks => s.fillClear blk && (s.fill blk).runClear blks

theorem Tracks.fill {blk : Nat} (h : Tracks s P) (hr : s.AtRest) (hblk : P blk)
    (hc : s.fillClear blk = true) : Tracks (s.fill blk) P := by
  unfold ForkSize.fill
  split
  · exact h
  · rename_i hge
    split
    · exact h
    · rename_i hnear
      refine (h.mark (Nat.le_of_not_lt hge) hblk).walk hr.fits ?_
      simpa [fillClear, hge, hnear] using hc

theorem Tracks.merge (hs : Tracks s P) (ht : Tracks t P) (hrs : s.AtRest) (hrt : t.AtRest)
    (hc : (joined s t).overruns = false) : Tracks (s.merge t) P := by
  have hfits : (joined s t).nblocks ≤ u32Max := by
    have hn : (joined s t).nblocks = max s.nblocks t.nblocks := by
      unfold joined
      split <;> rfl
    rw [hn]
    exact Nat.max_le.mpr ⟨hrs.fits, hrt.fits⟩
  refine Tracks.walk ?_ hfits hc
  unfold joined
  split
  · rename_i hle
    exact hs.union ht hle (Nat.le_trans hrs.within (Nat.le_max_left ..))
  · rename_i hlt
    exact ht.union hs (Nat.le_of_not_le hlt) (Nat.le_trans hrt.within (Nat.le_max_right ..))

end ForkSize

/-! ## Histories -/

/-- A fill leaves what was filled so, and fills its block: every cut that
was told of is in the past. -/
theorem filledSince_fill {told : List (Nat × ForkEvent)} {now : Nat} (blk : Nat)
    (hpast : ∀ e ∈ told, e.1 < now ∨ ∃ b, e.2 = .fill b) :
    filledSince ((now, .fill blk) :: told) blk = true
      ∧ ∀ b, filledSince told b = true → filledSince ((now, .fill blk) :: told) b = true := by
  refine ⟨List.any_eq_true.mpr ⟨_, List.mem_cons_self, ?_⟩, fun b hb => ?_⟩
  · rw [Bool.and_eq_true, decide_eq_true_eq]
    refine ⟨rfl, List.all_eq_true.mpr fun c hc => ?_⟩
    rcases List.mem_cons.mp hc with rfl | hc
    · rfl
    · rcases hpast c hc with hlt | ⟨b, hb⟩
      · rw [decide_eq_true hlt, Bool.or_true]
      · rw [hb]
        rfl
  · obtain ⟨e, he, hfill⟩ := List.any_eq_true.mp hb
    rw [Bool.and_eq_true] at hfill
    refine List.any_eq_true.mpr ⟨e, .tail _ he, ?_⟩
    rw [hfill.1, List.all_cons, hfill.2]
    rfl

theorem filledSince_cut {told : List (Nat × ForkEvent)} {now n b : Nat}
    (h : filledSince told b = true) (hlt : b < n) :
    filledSince ((now, .cut n) :: told) b = true := by
  obtain ⟨e, he, hfill⟩ := List.any_eq_true.mp h
  rw [Bool.and_eq_true] at hfill
  refine List.any_eq_true.mpr ⟨e, .tail _ he, ?_⟩
  have hspare : ForkEvent.cutsOff b (.cut n) = false := decide_eq_false (Nat.not_le_of_lt hlt)
  rw [hfill.1, List.all_cons, hfill.2, hspare]
  rfl

/-! ## Runs of views -/

namespace Forks

open ForkSize (u32Max AtRest Tracks runBlocks)

/-- Where the views after a step come from. -/
inductive Made (s : Forks) : ForkStep → ForkView → Prop
  | kept (st : ForkStep) {v : ForkView} (hv : v ∈ s.views) : Made s st v
  | plain {n : Nat} (hn : n ≤ u32Max) : Made s (.plain n) (.plain n)
  | fill {i : Nat} {v : ForkView} (blk : Nat) (hv : s.views[i]? = some v) :
      Made s (.fill i blk) (v.fill s.clock blk)
  | fillRun {i : Nat} {v : ForkView} (blk count : Nat) (hv : s.views[i]? = some v) :
      Made s (.fillRun i blk count) (v.fillRun s.clock blk count)
  | grow {i n : Nat} {v : ForkView} (hv : s.views[i]? = some v) (hn : n ≤ u32Max) :
      Made s (.grow i n) (v.grow n)
  | truncate {i n : Nat} {v : ForkView} (hv : s.views[i]? = some v) (hn : n ≤ u32Max) :
      Made s (.truncate i n) (v.truncate s.clock n)
  | store {i : Nat} {v w : ForkView} (hv : s.views[i]? = some v) (hw : v.stored = some w) :
      Made s (.store i) w
  | merge {i j : Nat} {v w : ForkView} (hv : s.views[i]? = some v) (hw : s.views[j]? = some w) :
      Made s (.merge i j) (v.merge w)

variable {s s' : Forks} {st : ForkStep}

theorem change_made {i : Nat} {f : ForkView → ForkView} (h : s.change i f = some s')
    (hmade : ∀ v, s.views[i]? = some v → Made s st (f v)) :
    s'.clock = s.clock + 1 ∧ ∀ w ∈ s'.views, Made s st w := by
  obtain ⟨v, hv, rfl⟩ := Option.map_eq_some_iff.mp h
  refine ⟨rfl, fun w hw => ?_⟩
  rcases List.mem_or_eq_of_mem_set hw with hold | rfl
  · exact .kept _ hold
  · exact hmade v hv

variable {v : ForkView}

theorem add_made (hmade : Made s st v) :
    (s.add v).clock = s.clock + 1 ∧ ∀ w ∈ (s.add v).views, Made s st w := by
  refine ⟨rfl, fun w hw => ?_⟩
  rcases List.mem_append.mp hw with hold | hnew
  · exact .kept _ hold
  · cases List.mem_singleton.mp hnew
    exact hmade

theorem next_made (h : s.next st = some s') :
    s'.clock = s.clock + 1 ∧ ∀ w ∈ s'.views, Made s st w := by
  cases st with
  | plain n =>
    obtain ⟨hn, h⟩ := Option.ite_none_right_eq_some.mp h
    cases h
    exact add_made (.plain hn)
  | fill i blk =>
    obtain ⟨-, h⟩ := Option.ite_none_right_eq_some.mp h
    exact change_made h fun v hv => .fill blk hv
  | fillRun i blk count =>
    obtain ⟨-, h⟩ := Option.ite_none_right_eq_some.mp h
    exact change_made h fun v hv => .fillRun blk count hv
  | grow i n =>
    obtain ⟨hn, h⟩ := Option.ite_none_right_eq_some.mp h
    exact change_made h fun v hv => .grow hv hn
  | truncate i n =>
    obtain ⟨hn, h⟩ := Option.ite_none_right_eq_some.mp h
    exact change_made h fun v hv => .truncate hv hn
  | store i =>
    obtain ⟨v, hv, h⟩ := Option.bind_eq_some_iff.mp h
    obtain ⟨w, hw, h⟩ := Option.bind_eq_some_iff.mp h
    cases h
    exact add_made (.store hv hw)
  | merge i j =>
    obtain ⟨v, hv, h⟩ := Option.bind_eq_some_iff.mp h
    obtain ⟨w, hw, h⟩ := Option.bind_eq_some_iff.mp h
    cases h
    exact add_made (.merge hv hw)

theorem fillRun_size (v : ForkView) (now blk count : Nat) :
    (v.fillRun now blk count).size = v.size.fillRun blk count := by
  unfold ForkView.fillRun ForkSize.fillRun
  generalize runBlocks blk count = blks
  induction blks generalizing v with
  | nil => rfl
  | cons b blks ih => exact ih (v.fill now b)

theorem fillRun_told {now blk count : Nat} :
    ∀ e ∈ (v.fillRun now blk count).told, e ∈ v.told ∨ e.1 = now := by
  unfold ForkView.fillRun
  generalize runBlocks blk count = blks
  induction blks generalizing v with
  | nil => exact fun e he => .inl he
  | cons b blks ih =>
    intro e he
    rcases ih e he with hold | heq
    · rcases List.mem_cons.mp hold with rfl | hold
      · exact .inr rfl
      · exact .inl hold
    · exact .inr heq

theorem AtRest_foldl {s : ForkSize} (h : s.AtRest) (blks : List Nat) :
    (blks.foldl ForkSize.fill s).AtRest := by
  induction blks generalizing s with
  | nil => exact h
  | cons b blks ih => exact ih (h.fill b)

/-- What any run keeps of a view: its form at rest, and that what it was
told of is in the past. -/
structure Kept (clock : Nat) (v : ForkView) : Prop where
  rest : v.size.AtRest
  past : ∀ e ∈ v.told, e.1 < clock

theorem Kept.mem (h : ∀ v ∈ s.views, Kept s.clock v) {i : Nat}
    (hv : s.views[i]? = some v) : Kept s.clock v := h v (List.mem_of_getElem? hv)

variable {w : ForkView}

/-- A reader of a marker sees the view that was stored. -/
theorem Kept.stored {clock : Nat} (h : Kept clock v) (hw : v.stored = some w) : w = v := by
  obtain ⟨size, hd, rfl⟩ := Option.map_eq_some_iff.mp hw
  rw [h.rest.decode_encode] at hd
  cases hd
  rfl

/-- The step lemma of the form at rest. -/
theorem Made.kept_next (h : ∀ v ∈ s.views, Kept s.clock v) (hw : Made s st w) :
    Kept (s.clock + 1) w := by
  have hold : ∀ {v : ForkView} {e : Nat × ForkEvent}, Kept s.clock v → e ∈ v.told →
      e.1 < s.clock + 1 := fun hv he => Nat.lt_succ_of_lt (hv.past _ he)
  have hnow : ∀ {v : ForkView} {e : ForkEvent}, Kept s.clock v →
      ∀ e' ∈ (s.clock, e) :: v.told, e'.1 < s.clock + 1 := by
    intro v e hv e' he
    rcases List.mem_cons.mp he with rfl | he
    · exact Nat.lt_succ_self _
    · exact hold hv he
  cases hw with
  | kept _ hv => exact ⟨(h w hv).rest, fun e => hold (h w hv)⟩
  | plain hn => exact ⟨ForkSize.plain_atRest hn, fun e he => absurd he List.not_mem_nil⟩
  | fill blk hv =>
    have hkv := Kept.mem h hv
    exact ⟨hkv.rest.fill blk, hnow hkv⟩
  | fillRun blk count hv =>
    have hkv := Kept.mem h hv
    refine ⟨?_, fun e he => ?_⟩
    · rw [fillRun_size]
      exact AtRest_foldl hkv.rest _
    · rcases fillRun_told e he with he | heq
      · exact hold hkv he
      · exact Nat.lt_of_le_of_lt heq.le (Nat.lt_succ_self _)
  | grow hv hn =>
    have hkv := Kept.mem h hv
    exact ⟨hkv.rest.grow hn, fun e he => hold hkv he⟩
  | truncate hv hn =>
    have hkv := Kept.mem h hv
    exact ⟨hkv.rest.truncate hn, hnow hkv⟩
  | store hv hw =>
    have hkv := Kept.mem h hv
    obtain rfl := hkv.stored hw
    exact ⟨hkv.rest, fun e he => hold hkv he⟩
  | merge hv hw =>
    have hkv := Kept.mem h hv
    have hkw := Kept.mem h hw
    refine ⟨hkv.rest.merge hkw.rest, fun e he => ?_⟩
    rcases List.mem_append.mp he with he | he
    · exact hold hkv he
    · exact hold hkw he

/-! ## What is claimed -/

/-- The step starts no walk that overruns, and merges no view that stands
for a block which the other knows to have been cut off since. -/
def clear (s : Forks) : ForkStep → Bool
  | .fill i blk => s.views[i]?.all fun v => v.size.fillClear blk
  | .fillRun i blk count => s.views[i]?.all fun v => v.size.runClear (runBlocks blk count)
  | .merge i j => s.views[i]?.all fun v => s.views[j]?.all fun w =>
    !(ForkSize.joined v.size w.size).overruns
      && (v.size.held ++ w.size.held).all (filledSince (v.told ++ w.told))
  | _ => true

/-- A view stands for blocks that were filled and not cut off since. -/
def Honest (v : ForkView) : Prop := Tracks v.size fun b => filledSince v.told b = true

theorem honest_fill {now blk : Nat} (h : Honest v) (hr : v.size.AtRest)
    (hpast : ∀ e ∈ v.told, e.1 < now ∨ ∃ b, e.2 = .fill b) (hc : v.size.fillClear blk = true) :
    Honest (v.fill now blk) := by
  obtain ⟨hblk, hmore⟩ := filledSince_fill blk hpast
  exact (Tracks.mono hmore h).fill hr hblk hc

theorem honest_foldl {now : Nat} (blks : List Nat) (hr : v.size.AtRest)
    (hpast : ∀ e ∈ v.told, e.1 < now ∨ ∃ b, e.2 = .fill b) (h : Honest v)
    (hc : v.size.runClear blks = true) : Honest (blks.foldl (·.fill now ·) v) := by
  induction blks generalizing v with
  | nil => exact h
  | cons b blks ih =>
    obtain ⟨hb, hblks⟩ := Bool.and_eq_true_iff.mp hc
    refine ih (hr.fill b) (fun e he => ?_) (honest_fill h hr hpast hb) hblks
    rcases List.mem_cons.mp he with rfl | he
    · exact .inr ⟨b, rfl⟩
    · exact hpast e he

/-- The step lemma of what is claimed. -/
theorem Made.honest (hk : ∀ v ∈ s.views, Kept s.clock v)
    (h : ∀ v ∈ s.views, Honest v) (hc : s.clear st = true) (hw : Made s st w) : Honest w := by
  have hget : ∀ {i : Nat} {v : ForkView}, s.views[i]? = some v → Honest v := fun hv =>
    h _ (List.mem_of_getElem? hv)
  cases hw with
  | kept _ hv => exact h w hv
  | plain hn => exact ForkSize.plain_tracks _
  | fill blk hv =>
    simp only [clear, hv, Option.all_some] at hc
    have hkv := Kept.mem hk hv
    exact honest_fill (hget hv) hkv.rest (fun e he => .inl (hkv.past e he)) hc
  | fillRun blk count hv =>
    simp only [clear, hv, Option.all_some] at hc
    have hkv := Kept.mem hk hv
    exact honest_foldl _ hkv.rest (fun e he => .inl (hkv.past e he)) (hget hv) hc
  | grow hv hn => exact (hget hv).grow
  | truncate hv hn =>
    exact ((hget hv).truncate).mono fun b hb => filledSince_cut hb.1 hb.2
  | store hv hw =>
    obtain rfl := (Kept.mem hk hv).stored hw
    exact hget hv
  | merge hv hw =>
    simp only [clear, hv, hw, Option.all_some, Bool.and_eq_true, Bool.not_eq_true',
      List.all_append] at hc
    obtain ⟨hover, hheld⟩ := hc
    exact (ForkSize.tracks_held (List.all_eq_true.mp hheld.1)).merge
      (ForkSize.tracks_held (List.all_eq_true.mp hheld.2)) (Kept.mem hk hv).rest
      (Kept.mem hk hw).rest hover

/-- The views of a fork over any run. At rest each is canonical, is what a
reader of its marker decodes, and merges with the others either way round
and with itself to itself. Where no step's walk overruns and no merge takes
a block back that was cut off, a block a view answers for is in the fork
and was filled since the last cut at or below it. -/
theorem fork_size_sound {ls : List ForkStep} (hr : Trace.run next empty ls = some s) :
    (∀ v ∈ s.views, v.size.filled.getLsbD 0 = false
        ∧ ForkSize.decode v.size.encode = some v.size
        ∧ v.size.merge v.size = v.size
        ∧ ∀ w ∈ s.views, v.size.merge w.size = w.size.merge v.size)
      ∧ (Trace.Meets next (fun s st => s.clear st = true) empty ls →
        ∀ v ∈ s.views, ∀ b, v.size.written b = true →
          b < v.size.nblocks ∧ filledSince v.told b = true) := by
  have hkept : ∀ s st s', (∀ v ∈ s.views, Kept s.clock v) → next s st = some s' →
      ∀ v ∈ s'.views, Kept s'.clock v := by
    intro s st s' hs hn w hw
    rw [(next_made hn).1]
    exact ((next_made hn).2 w hw).kept_next hs
  have hkeep : ∀ v ∈ s.views, Kept s.clock v :=
    Trace.run_invariant hkept (fun v hv => absurd hv List.not_mem_nil) hr
  refine ⟨fun v hv => ?_, fun hm v hv b hb => ?_⟩
  · have h := (hkeep v hv).rest
    exact ⟨h.clear, h.decode_encode, h.merge_self, fun w _ => ForkSize.merge_comm _ _⟩
  · have hstep : ∀ (s : Forks) st s',
        ((∀ v ∈ s.views, Kept s.clock v) ∧ ∀ v ∈ s.views, Honest v) → s.clear st = true →
        next s st = some s' →
        (∀ v ∈ s'.views, Kept s'.clock v) ∧ ∀ v ∈ s'.views, Honest v :=
      fun s st s' hs hc hn => ⟨hkept s st s' hs.1 hn,
        fun w hw => ((next_made hn).2 w hw).honest hs.1 hs.2 hc⟩
    have hhonest := Trace.guarded_invariant hstep
      ⟨fun v hv => absurd hv List.not_mem_nil, fun v hv => absurd hv List.not_mem_nil⟩ hm hr
    have hlt : b < v.size.dense := of_decide_eq_true hb
    exact ⟨Nat.lt_of_lt_of_le hlt (hkeep v hv).rest.within, (hhonest.2 v hv).low b hlt⟩

/-- Two views of a fork are filled, one of them is cut and filled again, and
they are merged and stored. -/
def twoViews : List ForkStep :=
  [.plain 10, .fillRun 0 0 4, .fill 0 6, .plain 12, .fillRun 1 0 7, .truncate 1 5, .fill 1 6,
    .merge 0 1, .store 2]

theorem fork_size_sound_twoViews :
    ∃ s v, Trace.run next empty twoViews = some s ∧ s.views[3]? = some v ∧ v.size = ⟨10, 5, 2⟩
      ∧ ∀ b, v.size.written b = true → b < v.size.nblocks ∧ filledSince v.told b = true := by
  have hr : Trace.run next empty twoViews = some _ := rfl
  have hm : Trace.Meets next (fun s st => s.clear st = true) empty twoViews := by
    decide +kernel
  refine ⟨_, _, hr, rfl, rfl, ?_⟩
  exact (fork_size_sound hr).2 hm _ (List.mem_of_getElem? (i := 3) rfl)

/-- A fork of two blocks is filled past its end, in an order that leaves the
count in the way of the walk. When it has grown, the last fill is taken for
one of block 3 too. -/
def filledPastEnd : List ForkStep :=
  [.plain 2, .fill 0 0, .fill 0 2, .fill 0 4, .fill 0 1, .grow 0 10, .fill 0 2]

/-- A view is stored, the fork is cut, and who cut it takes the stored one
for the better of the two. -/
def staleMerge : List ForkStep :=
  [.plain 10, .fillRun 0 0 10, .store 0, .truncate 1 4, .merge 1 0]

/-- Block 3 was never filled, and block 7 not since the cut to 4. -/
theorem fork_size_claims_unwritten :
    (∃ s v, Trace.run next empty filledPastEnd = some s ∧ s.views[0]? = some v
        ∧ v.size.written 3 = true ∧ filledSince v.told 3 = false)
      ∧ ∃ s v, Trace.run next empty staleMerge = some s ∧ s.views[2]? = some v
        ∧ v.size.written 7 = true ∧ filledSince v.told 7 = false :=
  ⟨⟨_, _, rfl, rfl, rfl, rfl⟩, ⟨_, _, rfl, rfl, rfl, rfl⟩⟩

end Forks

end Zou
