import Zou.Lib.Packing
import Zou.Consolidate
import Zou.WalAlone

/-!
# Which rounds are refused

The fold takes the frames of all tenants in one order and keeps a watermark
a tenant, so what it says of a tenant depends on that tenant's frames alone,
in lsn order: its watermark there is the highest end so far (`highWater`),
and the round is refused where a frame that is not wholly below it starts
elsewhere (`Broken`).

A failed round has written at most objects that nobody had. The one request
that changes what is there is the swap of the manifest, and it is the last
one.
-/

namespace Zou.Wal

open Client

/-! ## Sorting and filtering -/

section Sorting

variable {α : Type} {r s : α → α → Prop} [DecidableRel r] [DecidableRel s] {p : α → Bool}

theorem filter_orderedInsert (hrs : ∀ a b, p a = true → p b = true → (r a b ↔ s a b))
    (htrans : ∀ a b c, r a b → r b c → r a c) (a : α) : ∀ {l : List α}, l.Pairwise r →
    (l.orderedInsert r a).filter p
      = if p a then (l.filter p).orderedInsert s a else l.filter p := by
  intro l
  induction l with
  | nil =>
    intro _
    cases hp : p a <;> simp [hp]
  | cons b l ih =>
    intro hl
    obtain ⟨hb, hl⟩ := List.pairwise_cons.mp hl
    rw [List.orderedInsert_cons]
    split
    · rename_i hab
      cases hp : p a with
      | false => simp [hp]
      | true =>
        -- Everything from `b` on is above `a`, so `a` goes first.
        have hfirst : ∀ c ∈ (b :: l).filter p, s a c := by
          intro c hc
          obtain ⟨hmem, hpc⟩ := List.mem_filter.mp hc
          refine (hrs a c hp hpc).mp ?_
          rcases List.mem_cons.mp hmem with rfl | hmem
          · exact hab
          · exact htrans a b c hab (hb c hmem)
        rw [if_pos rfl, List.filter_cons_of_pos hp]
        cases hf : (b :: l).filter p with
        | nil => rfl
        | cons c cs =>
          rw [hf] at hfirst
          rw [List.orderedInsert_cons, if_pos (hfirst c List.mem_cons_self)]
    · rename_i hab
      cases hpb : p b with
      | false =>
        rw [List.filter_cons_of_neg (by simp [hpb]), List.filter_cons_of_neg (by simp [hpb])]
        exact ih hl
      | true =>
        rw [List.filter_cons_of_pos hpb, List.filter_cons_of_pos hpb, ih hl]
        cases hp : p a with
        | false => rfl
        | true =>
          rw [if_pos rfl, if_pos rfl, List.orderedInsert_cons,
            if_neg (fun h => hab ((hrs a b hp hpb).mpr h))]

theorem filter_insertionSort (hrs : ∀ a b, p a = true → p b = true → (r a b ↔ s a b))
    (htrans : ∀ a b c, r a b → r b c → r a c) (htotal : ∀ a b, r a b ∨ r b a) (l : List α) :
    (l.insertionSort r).filter p = (l.filter p).insertionSort s := by
  have : IsTrans α r := ⟨htrans⟩
  have : Std.Total r := ⟨htotal⟩
  induction l with
  | nil => rfl
  | cons a l ih =>
    rw [List.insertionSort_cons, filter_orderedInsert hrs htrans a (List.pairwise_insertionSort r l),
      ih]
    cases hp : p a with
    | false => rw [List.filter_cons_of_neg (by simp [hp])]; rfl
    | true => rw [List.filter_cons_of_pos hp]; rfl

end Sorting

/-! ## The stream of a tenant -/

def lsnLe (f g : LogFrame) : Prop :=
  f.startLsn < g.startLsn ∨ (f.startLsn = g.startLsn ∧ f.endLsn ≤ g.endLsn)

instance (f g : LogFrame) : Decidable (lsnLe f g) := inferInstanceAs (Decidable (_ ∨ _))

/-- A tenant's frames in lsn order. -/
def stream (tenant : Nat) (frames : List LogFrame) : List LogFrame :=
  (frames.filter fun f => f.tenant = tenant).insertionSort lsnLe

theorem stream_sortFrames (tenant : Nat) (frames : List LogFrame) :
    (sortFrames frames).filter (fun f => f.tenant = tenant) = stream tenant frames := by
  refine filter_insertionSort (fun f g hf hg => ?_) (fun f g k => ?_) (fun f g => ?_) frames
  · have htenant : f.tenant = g.tenant := (of_decide_eq_true hf).trans (of_decide_eq_true hg).symm
    grind [frameLe, lsnLe]
  · grind [frameLe]
  · grind [frameLe]

/-- A tenant's watermark once some of its frames were seen: the highest end
so far, of the last round or of these. -/
def highWater (w : Option Lsn) (frames : List LogFrame) : Option Lsn :=
  frames.foldl (fun w f => some (max (w.getD f.endLsn) f.endLsn)) w

/-- A frame that is not wholly at or below the watermark starts above it, a
gap, or below it, a partial overlap. -/
def Broken (w : Option Lsn) (frames : List LogFrame) : Prop :=
  ∃ seen f rest mark, frames = seen ++ f :: rest ∧ highWater w seen = some mark
    ∧ mark < f.endLsn ∧ (mark < f.startLsn ∨ f.startLsn < mark)

theorem not_broken_nil (w : Option Lsn) : ¬ Broken w [] := by
  rintro ⟨seen, f, rest, mark, h, -⟩
  cases seen <;> cases h

theorem broken_cons {w : Option Lsn} {f : LogFrame} {frames : List LogFrame} :
    Broken w (f :: frames) ↔
      (∃ mark, w = some mark ∧ mark < f.endLsn ∧ (mark < f.startLsn ∨ f.startLsn < mark))
        ∨ Broken (highWater w [f]) frames := by
  constructor
  · rintro ⟨seen, g, rest, mark, hsplit, hmark, hbroken⟩
    cases seen with
    | nil =>
      obtain ⟨rfl, rfl⟩ := List.cons.inj hsplit
      exact .inl ⟨mark, hmark, hbroken⟩
    | cons h seen =>
      obtain ⟨rfl, rfl⟩ := List.cons.inj hsplit
      exact .inr ⟨seen, g, rest, mark, rfl, hmark, hbroken⟩
  · rintro (⟨mark, hmark, hbroken⟩ | ⟨seen, g, rest, mark, rfl, hmark, hbroken⟩)
    · exact ⟨[], f, frames, mark, rfl, hmark, hbroken⟩
    · exact ⟨f :: seen, g, rest, mark, rfl, hmark, hbroken⟩

/-! ## The fold -/

/-- What the fold does with the next frame, by the watermark of its tenant. -/
theorem foldFrames_cons (watermarks : OrdMap Nat Nat) (kept : List LogFrame) (f : LogFrame)
    (frames : List LogFrame) : (∃ mark, watermarks.get? f.tenant = some mark ∧ mark < f.endLsn
        ∧ (mark < f.startLsn ∨ f.startLsn < mark)
        ∧ foldFrames watermarks kept (f :: frames)
          = .error (.discontinuity f.tenant mark f.startLsn))
      ∨ (¬ ∃ mark, watermarks.get? f.tenant = some mark ∧ mark < f.endLsn
          ∧ (mark < f.startLsn ∨ f.startLsn < mark))
        ∧ ∃ watermarks' kept', foldFrames watermarks kept (f :: frames)
            = foldFrames watermarks' kept' frames
          ∧ ∀ t, watermarks'.get? t
            = if t = f.tenant then highWater (watermarks.get? t) [f] else watermarks.get? t := by
  have hkeep : ∀ t, (watermarks.insert f.tenant f.endLsn).get? t
      = if t = f.tenant then some f.endLsn else watermarks.get? t :=
    fun t => OrdMap.get?_insert ..
  rw [foldFrames]
  unfold foldFrame
  cases hmark : watermarks.get? f.tenant with
  | none =>
    refine .inr ⟨fun ⟨_, h, _⟩ => (by cases h), _, _, rfl, fun t => ?_⟩
    rw [hkeep]
    split
    · rename_i ht
      rw [ht, hmark]
      exact congrArg some (Nat.max_self _).symm
    · rfl
  | some mark =>
    dsimp only
    by_cases hle : f.endLsn ≤ mark
    · rw [if_pos hle]
      refine .inr ⟨?_, watermarks, kept, rfl, fun t => ?_⟩
      · rintro ⟨mark', h, hlt, -⟩
        cases h
        exact Nat.not_lt.mpr hle hlt
      · split
        · rename_i ht
          rw [ht, hmark]
          exact congrArg some (Nat.max_eq_left hle).symm
        · rfl
    · rw [if_neg hle]
      by_cases hne : f.startLsn = mark
      · rw [if_neg (not_not.mpr hne)]
        refine .inr ⟨?_, _, _, rfl, fun t => ?_⟩
        · rintro ⟨mark', h, -, hoff⟩
          cases h
          exact hoff.elim (Nat.ne_of_gt · hne) (Nat.ne_of_lt · hne)
        · rw [hkeep]
          split
          · rename_i ht
            rw [ht, hmark]
            exact congrArg some (Nat.max_eq_right (Nat.le_of_not_le hle)).symm
          · rfl
      · rw [if_pos hne]
        exact .inl ⟨mark, rfl, Nat.lt_of_not_le hle, (Nat.lt_or_gt_of_ne hne).symm, rfl⟩

/-- The fold is refused where the frames of some tenant are broken. -/
theorem foldFrames_error {frames : List LogFrame} : ∀ {watermarks : OrdMap Nat Nat}
    {kept : List LogFrame},
    (∃ t expect found, foldFrames watermarks kept frames = .error (.discontinuity t expect found))
      ↔ ∃ t, Broken (watermarks.get? t) (frames.filter fun f => f.tenant = t) := by
  induction frames with
  | nil =>
    intro watermarks kept
    refine ⟨?_, fun ⟨t, h⟩ => absurd h (not_broken_nil _)⟩
    rintro ⟨t, expect, found, h⟩
    cases h
  | cons f frames ih =>
    intro watermarks kept
    have hown : (f :: frames).filter (fun g => g.tenant = f.tenant)
        = f :: frames.filter fun g => g.tenant = f.tenant :=
      List.filter_cons_of_pos (by simp)
    have hother : ∀ t, t ≠ f.tenant → (f :: frames).filter (fun g => g.tenant = t)
        = frames.filter fun g => g.tenant = t := by
      intro t ht
      exact List.filter_cons_of_neg (by simpa using fun h => ht h.symm)
    rcases foldFrames_cons watermarks kept f frames with
      ⟨mark, hmark, hlt, hne, heq⟩ | ⟨hfine, watermarks', kept', heq, hget⟩
    · refine ⟨fun _ => ⟨f.tenant, ?_⟩, fun _ => ⟨_, _, _, heq⟩⟩
      rw [hown]
      exact broken_cons.mpr (.inl ⟨mark, hmark, hlt, hne⟩)
    · rw [heq, ih]
      refine exists_congr fun t => ?_
      rw [hget]
      by_cases ht : t = f.tenant
      · subst ht
        rw [if_pos rfl, hown, broken_cons]
        exact (or_iff_right hfine).symm
      · rw [if_neg ht, hother t ht]

/-! ## Alone with the store -/

/-- A request that is answered at once. -/
def FoldStore.answer (s : FoldStore) : (q : FoldRequest) → FoldStore × q.Reply
  | .chain q => ({ s with chain := (s.chain.answer q).1 }, (s.chain.answer q).2)
  | .getRound round => (s, .ok (s.rounds round))
  | .putRound round index => s.putRound round index .answered
  | .putSealed key frames => s.putSealed key frames .answered

variable {mode : DurabilityMode} {shard : Nat} {crc32c : List UInt8 → Nat} {α : Type}

theorem eval_ofChain (p : Chain α) (s : FoldStore) : (ofChain p).eval FoldStore.answer s
      = ({ s with chain := (p.eval Store.answer s.chain).1 },
        (p.eval Store.answer s.chain).2.mapError .chain) := by
  refine (Prog.eval_through FoldStore.chain (fun s chain => { s with chain := chain })
    (fun _ => rfl) (fun _ _ _ => rfl) (fun _ _ => rfl) (fun _ _ => ⟨rfl, rfl⟩) _ s).trans ?_
  rw [Prog.eval_mapErr]

variable {s : FoldStore}

theorem eval_ofChain_ok {p : Chain α} {a : α} (h : p.eval Store.answer s.chain = (s.chain, .ok a)) :
    (ofChain p).eval FoldStore.answer s = (s, .ok a) := by
  rw [eval_ofChain, h]
  rfl

theorem eval_fetch_owner (mode : DurabilityMode) (seq : Nat) (g : Store) :
    (liftM (fetch mode seq) : Chain _).eval Store.answer g = (g, .ok (g.owner mode seq)) := by
  cases mode with
  | standard => rfl
  | expressDual => exact eval_fetch seq g

/-- The segments past a cursor, up to a seq that nobody owns or whose owner
is a straggler past the last seal. -/
def ChainFrom (mode : DurabilityMode) (shard : Nat) (crc32c : List UInt8 → Nat) (g : Store) :
    ChainCursor → List Segment → Prop
  | cursor, [] => ∀ x, g.owner mode cursor.seq = some x → x.header.shard = shard
      ∧ x.header.seq = cursor.seq ∧ x.header.prevDigest ≠ cursor.prevDigest
      ∧ g.manifest.elim 0 (·.1.head) < cursor.seq
  | cursor, x :: segments => g.owner mode cursor.seq = some x ∧ x.header.shard = shard
      ∧ x.header.seq = cursor.seq ∧ x.header.prevDigest = cursor.prevDigest
      ∧ ChainFrom mode shard crc32c g (cursor.next crc32c x) segments

variable {g : Store}

theorem eval_walkNext_end {cursor : ChainCursor} (h : ChainFrom mode shard crc32c g cursor []) :
    (walkNext mode shard cursor).eval Store.answer g = (g, .ok none) := by
  unfold walkNext
  rw [Prog.eval_bind_ok (eval_fetch_owner mode cursor.seq g)]
  cases howner : g.owner mode cursor.seq with
  | none => rfl
  | some x =>
    obtain ⟨hshard, hseq, hlink, hhead⟩ := h x howner
    dsimp only
    rw [if_neg (by rw [hshard, hseq]; simp), if_pos hlink,
      Prog.eval_bind_ok (eval_loadManifest g), if_neg (Nat.not_le.mpr hhead)]
    rfl

variable {segments : List Segment}

theorem eval_walkNext {cursor : ChainCursor} {x : Segment}
    (h : ChainFrom mode shard crc32c g cursor (x :: segments)) :
    (walkNext mode shard cursor).eval Store.answer g = (g, .ok (some x)) := by
  obtain ⟨howner, hshard, hseq, hlink, -⟩ := h
  unfold walkNext
  rw [Prog.eval_bind_ok (eval_fetch_owner mode cursor.seq g), howner]
  dsimp only
  rw [if_neg (by rw [hshard, hseq]; simp), if_neg (not_not.mpr hlink)]
  rfl

theorem eval_walk : ∀ {cursor : ChainCursor}
    {out : List Segment} {fuel : Nat}, segments.length < fuel →
    ChainFrom mode shard crc32c g cursor segments →
    ∃ cursor', (walkChainLinked mode shard crc32c (fun out x => .ok (out ++ [x], true)) fuel
      cursor out).eval Store.answer g = (g, .ok (cursor', out ++ segments)) := by
  induction segments with
  | nil =>
    intro cursor out fuel hfuel h
    obtain ⟨fuel, rfl⟩ : ∃ n, fuel = n + 1 := ⟨fuel - 1, by omega⟩
    refine ⟨cursor, ?_⟩
    unfold walkChainLinked
    rw [Prog.eval_bind_ok (eval_walkNext_end h), List.append_nil]
    rfl
  | cons x segments ih =>
    intro cursor out fuel hfuel h
    obtain ⟨fuel, rfl⟩ : ∃ n, fuel = n + 1 := ⟨fuel - 1, by omega⟩
    obtain ⟨cursor', heval⟩ := @ih _ (out ++ [x]) _ (Nat.lt_of_succ_lt_succ hfuel) h.2.2.2.2
    refine ⟨cursor', ?_⟩
    unfold walkChainLinked
    rw [Prog.eval_bind_ok (eval_walkNext h)]
    rw [List.append_assoc] at heval
    exact heval

theorem eval_loadRound {round : Nat} {index : Option RoundIndex}
    (h : s.rounds round = index) (hformat : ∀ x ∈ index, x.format ≤ roundIndexFormat) :
    (loadRound round).eval FoldStore.answer s = (s, .ok index) := by
  unfold loadRound
  have hget : (Prog.request (FoldRequest.getRound round) : Fold _).eval FoldStore.answer s
      = (s, .ok (.ok (s.rounds round))) := rfl
  rw [Prog.eval_bind_ok hget, h]
  cases index with
  | none => rfl
  | some index =>
    dsimp only
    rw [if_neg (Nat.not_lt.mpr (hformat index rfl))]
    rfl

/-- The watermarks at the consolidated boundary. -/
def FoldStore.watermarks (s : FoldStore) (manifest : ShardManifest) : OrdMap Nat Nat :=
  (manifest.rounds.bind fun r => s.rounds r.2).elim OrdMap.empty RoundIndex.watermarks

/-- A store with a chain to fold: no round waits for its publication and
the newest published one is there. -/
structure Foldable (mode : DurabilityMode) (shard : Nat) (crc32c : List UInt8 → Nat) (s : FoldStore)
    (manifest : ShardManifest) (version : Nat) (segments : List Segment) : Prop where
  loaded : s.chain.manifest = some (manifest, version)
  waiting : s.rounds manifest.nextRound = none
  newest : ∀ r, manifest.rounds = some r → ∃ index, s.rounds r.2 = some index
    ∧ index.format ≤ roundIndexFormat
  chain : ChainFrom mode shard crc32c s.chain
    ⟨manifest.consolidatedUpto + 1, manifest.consolidatedDigest⟩ segments

section Alone

variable {s : FoldStore} {manifest : ShardManifest} {version : Nat} {segments : List Segment}

theorem Foldable.eval_baseline (h : Foldable mode shard crc32c s manifest version segments) :
    (baseline manifest).eval FoldStore.answer s = (s, .ok (s.watermarks manifest)) := by
  unfold baseline FoldStore.watermarks
  cases hr : manifest.rounds with
  | none => rfl
  | some r =>
    obtain ⟨index, hindex, hformat⟩ := h.newest r hr
    dsimp only [Option.bind_some]
    rw [Prog.eval_bind_ok (eval_loadRound hindex fun x hx => Option.some.inj hx ▸ hformat), hindex]
    rfl

/-- What a round starts from, none where the chain ends at the boundary. -/
theorem Foldable.eval_gather (h : Foldable mode shard crc32c s manifest version segments)
    {fuel : Nat} (hfuel : segments.length < fuel) :
    (segments = [] ∧ (gather mode shard crc32c fuel).eval FoldStore.answer s = (s, .ok .nothing))
      ∨ ∃ x : Folding, (gather mode shard crc32c fuel).eval FoldStore.answer s = (s, .ok (.fold x))
        ∧ x.watermarks = s.watermarks manifest ∧ x.frames = segments.flatMap Segment.frames := by
  have hload : (ofChain (liftM loadManifest)).eval FoldStore.answer s
      = (s, .ok (some (manifest, version))) := by
    refine eval_ofChain_ok ?_
    rw [eval_loadManifest, h.loaded]
  have hread : (ofChain (readChainLinked mode shard crc32c fuel manifest.consolidatedUpto
      manifest.consolidatedDigest)).eval FoldStore.answer s = (s, .ok segments) := by
    refine eval_ofChain_ok ?_
    obtain ⟨cursor, heval⟩ : ∃ cursor, (walkChainLinked mode shard crc32c
        (fun out x => .ok (out ++ [x], true)) fuel
        ⟨manifest.consolidatedUpto + 1, manifest.consolidatedDigest⟩ []).eval Store.answer s.chain
        = (s.chain, .ok (cursor, [] ++ segments)) := eval_walk hfuel h.chain
    unfold readChainLinked
    rw [Prog.eval_bind_ok heval]
    rfl
  unfold gather
  rw [Prog.eval_bind_ok hload]
  rw [Prog.eval_bind_ok (eval_loadRound h.waiting nofun)]
  rw [Prog.eval_bind_ok hread]
  cases hlast : segments.getLast? with
  | none => exact .inl ⟨List.getLast?_eq_none_iff.mp hlast, rfl⟩
  | some last =>
    rw [Prog.eval_bind_ok h.eval_baseline]
    exact .inr ⟨_, rfl, rfl, rfl⟩

end Alone

/-! ## What is read and how it fails -/

def Request.Reads : Request → Prop
  | .get _ _ => True
  | .load => True
  | _ => False

/-- A request that changes nothing that is there: a read, or a create only
put. -/
def FoldRequest.Harmless : FoldRequest → Prop
  | .chain q => q.Reads
  | _ => True

/-- An error that is not about the frames. -/
def ConsolidateError.Plain : ConsolidateError → Prop
  | .discontinuity _ _ _ => False
  | _ => True

theorem within_publish (manifest : ShardManifest) (version upto digest round : Nat) :
    (publish manifest version upto digest round).Within (fun _ => True) ConsolidateError.Plain := by
  refine (Prog.Within.request trivial).bind fun r => ?_
  rcases r with e | u
  · cases e <;> trivial
  · trivial

theorem within_writeIndex (x : Folding) (watermarks : OrdMap Nat Nat) (kept : List LogFrame) :
    (writeIndex x watermarks kept).Within (fun _ => True) ConsolidateError.Plain := by
  refine (Prog.Within.request trivial).bind fun r => ?_
  rcases r with e | u
  · cases e <;> trivial
  · exact (within_publish ..).bind fun _ => trivial

theorem within_writeRound (x : Folding) (watermarks : OrdMap Nat Nat) (kept : List LogFrame) :
    (writeRound x watermarks kept).Within (fun _ => True) ConsolidateError.Plain := by
  refine (Prog.Within.request trivial).bind fun r => ?_
  rcases r with e | u
  · cases e with
    | alreadyExists => exact within_writeIndex x watermarks kept
    | conflict => trivial
    | io => trivial
  · exact within_writeIndex x watermarks kept

/-! ## What an execution leaves -/

/-- Nothing that is there changes: the chain with its manifest, the rounds
and the sealed objects. -/
structure FoldStore.Keeps (s s' : FoldStore) : Prop where
  chain : s'.chain = s.chain
  rounds : ∀ round index, s.rounds round = some index → s'.rounds round = some index
  sealedAt : ∀ key frames, s.sealedAt key = some frames → s'.sealedAt key = some frames

theorem FoldStore.Keeps.refl (s : FoldStore) : s.Keeps s := ⟨rfl, fun _ _ h => h, fun _ _ h => h⟩

theorem FoldStore.create_none {slot : Option α} {wire : Wire}
    (h : (FoldStore.create slot wire).1 = true) : slot = none := by
  cases slot with
  | none => rfl
  | some a => cases wire <;> cases h

theorem FoldStore.Keeps.putRound (s : FoldStore) (round : Nat) (index : RoundIndex) (wire : Wire) :
    s.Keeps (s.putRound round index wire).1 := by
  unfold FoldStore.putRound
  dsimp only
  split
  · rename_i hcreated
    refine ⟨rfl, fun n x h => ?_, fun _ _ h => h⟩
    have hne : n ≠ round := fun heq => by
      rw [heq, FoldStore.create_none hcreated] at h
      cases h
    exact (Function.update_of_ne hne ..).trans h
  · exact FoldStore.Keeps.refl s

theorem FoldStore.Keeps.putSealed (s : FoldStore) (key : Nat × Nat) (frames : List LogFrame)
    (wire : Wire) : s.Keeps (s.putSealed key frames wire).1 := by
  unfold FoldStore.putSealed
  dsimp only
  split
  · rename_i hcreated
    refine ⟨rfl, fun _ _ h => h, fun k x h => ?_⟩
    have hne : k ≠ key := fun heq => by
      rw [heq, FoldStore.create_none hcreated] at h
      cases h
    exact (Function.update_of_ne hne ..).trans h
  · exact FoldStore.Keeps.refl s

variable {log : List (FoldStore × FoldStore)}

/-- The manifest's put whose answer was lost. -/
def FoldStore.SwapLost (s s' : FoldStore) : Prop :=
  ∃ next version, s.exec (.chain (.putIfMatch next version)) .lost = some (s', .error .io)

/-- How the parts of a round that write may fail. -/
def FailsClean (log : List (FoldStore × FoldStore)) (e : ConsolidateError) : Prop :=
  (∀ x ∈ log, x.1.Keeps x.2)
    ∨ (e = .store .io ∧ ∃ before s s', log = before ++ [(s, s')] ∧ (∀ x ∈ before, x.1.Keeps x.2)
      ∧ s.SwapLost s')

variable {e : ConsolidateError}

theorem FailsClean.append {log' : List (FoldStore × FoldStore)}
    (h : FailsClean log' e) (hlog : ∀ x ∈ log, x.1.Keeps x.2) : FailsClean (log ++ log') e := by
  rcases h with hkeeps | ⟨he, before, s, s', rfl, hbefore, hlost⟩
  · refine .inl fun x hx => ?_
    exact (List.mem_append.mp hx).elim (hlog x) (hkeeps x)
  · refine .inr ⟨he, log ++ before, s, s', by rw [List.append_assoc], fun x hx => ?_, hlost⟩
    exact (List.mem_append.mp hx).elim (hlog x) (hbefore x)

theorem FailsClean.nil (e : ConsolidateError) : FailsClean [] e := .inl nofun

theorem Foldable.refused {manifest : ShardManifest} {version : Nat} (h : Foldable mode shard crc32c s manifest version segments)
    {fuel : Nat} (hfuel : segments.length < fuel) :
    (∃ t expect found, ((consolidate mode shard crc32c fuel).eval FoldStore.answer s).2
        = .error (.discontinuity t expect found))
      ↔ ∃ t, Broken ((s.watermarks manifest).get? t)
        (stream t (segments.flatMap Segment.frames)) := by
  have hstream : ∀ x : Folding, (∃ t expect found, ((finish (.fold x)).eval FoldStore.answer s).2
      = .error (.discontinuity t expect found))
      ↔ ∃ t, Broken (x.watermarks.get? t) (stream t x.frames) := by
    intro x
    have hfold : (∃ t expect found, foldFrames x.watermarks [] (sortFrames x.frames)
        = .error (.discontinuity t expect found))
        ↔ ∃ t, Broken (x.watermarks.get? t)
          ((sortFrames x.frames).filter fun f => f.tenant = t) := foldFrames_error
    simp only [stream_sortFrames] at hfold
    rw [← hfold]
    unfold finish
    dsimp only
    cases hf : foldFrames x.watermarks [] (sortFrames x.frames) with
    | error e =>
      refine exists_congr fun t => exists_congr fun expect => exists_congr fun found => ?_
      exact ⟨fun he => congrArg _ (Except.error.inj he), fun he => congrArg _ (Except.error.inj he)⟩
    | ok r =>
      refine ⟨fun ⟨t, expect, found, he⟩ => ?_, fun ⟨t, expect, found, he⟩ => (by cases he)⟩
      exact (Prog.Within.eval (within_writeRound x r.1 r.2) he).elim
  rcases h.eval_gather hfuel with ⟨rfl, heval⟩ | ⟨x, heval, hmarks, hframes⟩
  · unfold consolidate
    rw [Prog.eval_bind_ok heval]
    refine ⟨fun ⟨t, expect, found, he⟩ => (by cases he), fun ⟨t, hb⟩ => ?_⟩
    exact absurd hb (not_broken_nil _)
  · unfold consolidate
    rw [Prog.eval_bind_ok heval, hstream x, hmarks, hframes]

/-! ## Rounds that are refused -/

def crc (bs : List UInt8) : Nat := (Packing.crc32c bs).toNat

/-- Two segments of one tenant, linked, the second of which leaves out what
is between 10 and 20. -/
def whole : Segment := Segment.build ⟨.landing, 0, 1, 0⟩ [⟨1, 1, 0, 10, [0]⟩]

def gapped : Segment :=
  Segment.build ⟨.landing, 0, 2, tenantsDigest crc whole.tenants⟩ [⟨1, 1, 20, 30, [0]⟩]

end Zou.Wal
