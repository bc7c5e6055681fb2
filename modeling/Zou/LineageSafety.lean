import Zou.Lib.Packing
import Zou.WalLineage

/-!
# Lineage separation

The invariant of the runs over a shard, and what a walk is given. Lineages
are told apart by the digest of the previous segment's tenants and their
last lsns, which does not tell two writers' windows apart where one of them
writes what the other had in flight. Where no writer does, and no delete
takes away what is not litter, a walk is never given a segment from beyond
the seal that fenced its writer.
-/

namespace Zou

open Trace Client

/-! ## The windows of a sequencer -/

namespace Segment

theorem summarize_ne_nil (m : OrdMap Nat TenantSummary) (f : LogFrame) :
    (summarize m f).entries ≠ [] := by
  intro h
  have hmem : (summarize m f).get? f.tenant ≠ none := by
    unfold summarize
    rw [OrdMap.get?_insert, if_pos rfl]
    exact Option.some_ne_none _
  exact hmem (OrdMap.get?_eq_none.mpr fun e he => by rw [h] at he; cases he)

theorem foldl_summarize_ne_nil (fs : List LogFrame) (m : OrdMap Nat TenantSummary)
    (h : fs ≠ [] ∨ m.entries ≠ []) : (fs.foldl summarize m).entries ≠ [] := by
  induction fs generalizing m with
  | nil => exact h.resolve_left fun hne => hne rfl
  | cons f fs ih => exact ih _ (.inr (summarize_ne_nil m f))

theorem build_tenants_ne_nil {header : SegmentHeader} {frames : List LogFrame} (h : frames ≠ []) :
    (build header frames).tenants ≠ [] := by
  intro hnil
  exact foldl_summarize_ne_nil frames OrdMap.empty (.inl h) (List.map_eq_nil_iff.mp hnil)

end Segment

theorem tenantsDigest_nil {crc32c : List UInt8 → Nat} (hcrc : ∀ bs, crc32c bs < 2 ^ 32) :
    tenantsDigest crc32c [] < 2 ^ 32 := by
  unfold tenantsDigest
  rw [List.length_nil, Nat.zero_mul, Nat.zero_or]
  exact hcrc _

theorem le_tenantsDigest {crc32c : List UInt8 → Nat} {ts : List TenantSummary} (h : ts ≠ []) :
    2 ^ 32 ≤ tenantsDigest crc32c ts := by
  have hpos : 0 < ts.length := List.length_pos_iff.mpr h
  calc 2 ^ 32 ≤ ts.length * 2 ^ 32 := Nat.le_mul_of_pos_left _ hpos
    _ ≤ tenantsDigest crc32c ts := Nat.left_le_or

namespace Sequencer

variable {ε : Type}

/-- The windows of a sequencer that was started behind `q` are linked, and
the next one will be. -/
structure Links (crc32c : List UInt8 → Nat) (q : Nat) (sq : Sequencer ε) : Prop where
  linked : Wal.View.Linked crc32c q (sq.windows.map Dispatch.segment)
  named : ∀ d ∈ sq.windows, d.segment.header.seq = d.seq
  next : sq.nextSeq = q + 1 + sq.windows.length
  prev : ∀ d, sq.windows.getLast? = some d →
    sq.prevDigest = tenantsDigest crc32c d.segment.tenants
  building : ∀ seq p b, sq.flusher = .building seq p b →
    seq = sq.nextSeq ∧ p = sq.prevDigest ∧ b.frames ≠ []
  batch : ∀ b, sq.batch = some b → b.frames ≠ []

variable {cfg : SequencerConfig} {q : Nat} {sq sq' : Sequencer ε}

theorem links_resume (prevDigest : Nat) :
    Links cfg.crc32c q (resume cfg (q + 1) prevDigest : Sequencer ε) where
  linked k x h := by cases h
  named d hd := by cases hd
  next := rfl
  prev d hd := by cases hd
  building seq p b h := by cases h
  batch b h := by cases h

/-- The window the flusher is about to finish. -/
def nextWindow (cfg : SequencerConfig) (sq : Sequencer ε) : Option Segment :=
  match sq.flusher with
  | .building seq prevDigest b => some (Segment.build ⟨.landing, cfg.shard, seq, prevDigest⟩ b.frames)
  | _ => none

theorem Links.append {frames : List LogFrame} (gate : Nat → Option Throttle)
    (h : Links cfg.crc32c q sq) (hf : frames ≠ []) : Links cfg.crc32c q (sq.append frames gate).1
      ∧ (sq.append frames gate).1.windows = sq.windows := by
  unfold Sequencer.append
  split
  · exact ⟨h, rfl⟩
  · split
    · exact ⟨h, rfl⟩
    · split
      · exact ⟨h, rfl⟩
      · split
        · exact ⟨h, rfl⟩
        · refine ⟨⟨h.linked, h.named, h.next, h.prev, h.building, fun b hb => ?_⟩, rfl⟩
          cases hb
          exact fun hnil => hf (List.append_eq_nil_iff.mp hnil).2

theorem Links.grow (h : Links cfg.crc32c q sq) {b : Batch} {prevDigest : Nat} {d : Dispatch}
    (hfl : sq.flusher = .building sq.nextSeq prevDigest b) (hseq : d.seq = sq.nextSeq)
    (hd : d.segment = Segment.build ⟨.landing, cfg.shard, sq.nextSeq, prevDigest⟩ b.frames) :
    Links cfg.crc32c q { sq with
      nextSeq := sq.nextSeq + 1
      prevDigest := tenantsDigest cfg.crc32c d.segment.tenants
      flusher := .closed d
      windows := sq.windows ++ [d] } := by
  obtain ⟨-, rfl, hframes⟩ := h.building _ _ b hfl
  refine ⟨fun k x hx => ?_, fun d' hd' => ?_, ?_, fun d' hd' => ?_, nofun,
    h.batch⟩
  · rw [List.map_append] at hx
    by_cases hk : k < (sq.windows.map Dispatch.segment).length
    · rw [List.getElem?_append_left hk] at hx
      obtain ⟨h1, h2, h3, h4⟩ := h.linked k x hx
      refine ⟨h1, h2, h3, fun j y hj hy => h4 j y hj ?_⟩
      rw [List.map_append, List.getElem?_append_left (by omega)] at hy
      exact hy
    · -- the new window links to the last one
      have hlen : (sq.windows.map Dispatch.segment).length = sq.windows.length := List.length_map ..
      rw [List.getElem?_append_right (Nat.le_of_not_lt hk)] at hx
      have hk' : k - (sq.windows.map Dispatch.segment).length = 0 := by
        have hlt := (List.getElem?_eq_some_iff.mp hx).1
        rw [List.map_singleton, List.length_singleton] at hlt
        omega
      rw [hk'] at hx
      cases hx
      rw [hd]
      refine ⟨rfl, ?_, Segment.build_tenants_ne_nil hframes, fun j y hj hy => ?_⟩
      · change sq.nextSeq = _
        rw [h.next]
        omega
      · rw [List.map_append, List.getElem?_append_left (by omega), List.getElem?_map] at hy
        obtain ⟨dj, hdj, rfl⟩ := Option.map_eq_some_iff.mp hy
        refine h.prev dj ?_
        rw [List.getLast?_eq_getElem?, ← hdj]
        congr 1
        omega
  · rcases List.mem_append.mp hd' with hd' | hd'
    · exact h.named d' hd'
    · rw [List.mem_singleton.mp hd', hd, hseq]
      rfl
  · change sq.nextSeq + 1 = q + 1 + (sq.windows ++ [d]).length
    rw [List.length_append, List.length_singleton, h.next]
    omega
  · rw [List.getLast?_concat] at hd'
    cases hd'
    rfl

theorem Links.flush (h : Links cfg.crc32c q sq) (hstep : sq.flush cfg = some sq') :
    Links cfg.crc32c q sq' ∧ sq'.windows.map Dispatch.segment
      = sq.windows.map Dispatch.segment ++ (sq.nextWindow cfg).toList := by
  have hnone : ∀ ws : List Segment, ws = ws ++ (none : Option Segment).toList :=
    fun ws => (List.append_nil ws).symm
  unfold Sequencer.flush at hstep
  unfold nextWindow
  cases hfl : sq.flusher with
  | idle =>
    rw [hfl] at hstep
    dsimp only at hstep
    split at hstep
    · rename_i hb
      split at hstep
      · obtain rfl := Option.some.inj hstep
        exact ⟨⟨h.linked, h.named, h.next, h.prev, nofun, h.batch⟩,
          hnone _⟩
      · cases hstep
    · rename_i b hb
      split at hstep
      · cases hstep
        refine ⟨⟨h.linked, h.named, h.next, h.prev, fun s p b hb => ?_, nofun⟩,
          hnone _⟩
        exact h.building s p b hb
      · cases hstep
        refine ⟨⟨h.linked, h.named, h.next, h.prev, fun s p b' hb' => ?_, nofun⟩,
          hnone _⟩
        cases hb'
        exact ⟨rfl, rfl, h.batch b hb⟩
  | building seq prevDigest b =>
    rw [hfl] at hstep
    cases hstep
    obtain ⟨rfl, -, -⟩ := h.building seq prevDigest b hfl
    let d : Dispatch :=
      ⟨sq.nextSeq, Segment.build ⟨.landing, cfg.shard, sq.nextSeq, prevDigest⟩ b.frames,
        if cfg.tee then b.frames else [], b.tickets⟩
    constructor
    · exact h.grow (d := d) hfl rfl rfl
    · exact List.map_append ..
  | closed d =>
    rw [hfl] at hstep
    dsimp only at hstep
    split at hstep
    · cases hstep
    · obtain rfl := Option.some.inj hstep
      exact ⟨⟨h.linked, h.named, h.next, h.prev, nofun, h.batch⟩, hnone _⟩
  | admitted d =>
    rw [hfl] at hstep
    dsimp only at hstep
    split at hstep
    · obtain rfl := Option.some.inj hstep
      exact ⟨⟨h.linked, h.named, h.next, h.prev, nofun, h.batch⟩, hnone _⟩
    · split at hstep
      · cases hstep
        exact ⟨⟨h.linked, h.named, h.next, h.prev, nofun, h.batch⟩,
          hnone _⟩
      · cases hstep
  | draining =>
    rw [hfl] at hstep
    dsimp only at hstep
    split at hstep
    · obtain rfl := Option.some.inj hstep
      exact ⟨⟨h.linked, h.named, h.next, h.prev, nofun, h.batch⟩, hnone _⟩
    · cases hstep
  | stopped =>
    rw [hfl] at hstep
    cases hstep

/-- What a step adds to the windows. -/
def added (cfg : SequencerConfig) (sq : Sequencer ε) : SequencerStep ε → List Segment
  | .flush => (sq.nextWindow cfg).toList
  | _ => []

theorem Links.next_step {l : SequencerStep ε} (h : Links cfg.crc32c q sq)
    (hstep : sq.next cfg l = some sq') : Links cfg.crc32c q sq' ∧ sq'.windows.map Dispatch.segment
      = sq.windows.map Dispatch.segment ++ added cfg sq l := by
  by_cases hl : OfWorker l
  · obtain ⟨h1, h2, h3, -, h5, -, -, h8⟩ := worker_frame hl hstep
    have hadd : added cfg sq l = [] := by
      cases l <;> first | rfl | exact hl.elim
    refine ⟨⟨?_, ?_, ?_, ?_, ?_, ?_⟩, ?_⟩
    · rw [h1]
      exact h.linked
    · rw [h1]
      exact h.named
    · rw [h1, h5]
      exact h.next
    · rw [h1, h8]
      exact h.prev
    · rw [h3, h5, h8]
      exact h.building
    · rw [h2]
      exact h.batch
    · rw [h1, hadd, List.append_nil]
  · cases l with
    | append frames gate =>
      unfold Sequencer.next at hstep
      dsimp only at hstep
      split at hstep
      · cases hstep
      · rename_i hf
        cases hstep
        obtain ⟨hlinks, hw⟩ := h.append gate hf
        refine ⟨hlinks, ?_⟩
        rw [hw]
        exact (List.append_nil _).symm
    | close =>
      cases hstep
      exact ⟨⟨h.linked, h.named, h.next, h.prev, h.building, h.batch⟩, (List.append_nil _).symm⟩
    | flush => exact h.flush hstep
    | _ => exact absurd trivial hl

end Sequencer

namespace Wal

/-! ## What a reader holds -/

section Held

variable {mode : DurabilityMode} {crc32c : List UInt8 → Nat} {g g' : View} {seq : Nat}
  {x : Segment}

/-- The object is on the medium, or it was and is litter. -/
def HeldAt (mode : DurabilityMode) (g : View) (seq : Nat) (m : Medium) (x : Segment) : Prop :=
  g.Known seq x ∧ (g.store.slots seq m = some x ∨ Litter mode g.store g.lineages seq x)

/-- The object owns its seq, or it is litter. -/
def Held (mode : DurabilityMode) (g : View) (seq : Nat) (x : Segment) : Prop :=
  g.Known seq x ∧ (Owns mode (g.store.slots seq) x ∨ Litter mode g.store g.lineages seq x)

theorem HeldAt.mono {m : Medium} (h : HeldAt mode g seq m x) (hle : View.Le mode g g') :
    HeldAt mode g' seq m x :=
  ⟨h.1.mono hle, h.2.elim (hle.slots seq m x) fun hl => .inr (hle.litter hl)⟩

theorem Held.mono (h : Held mode g seq x) (hle : View.Le mode g g') : Held mode g' seq x := by
  refine ⟨h.1.mono hle, ?_⟩
  rcases h.2 with ho | hl
  · by_cases hlit : Litter mode g'.store g'.lineages seq x
    · exact .inr hlit
    · exact .inl (ho.mono fun m hm => (hle.slots seq m x hm).resolve_right hlit)
  · exact .inr (hle.litter hl)

theorem Held.of_two {m m' : Medium} (hne : m ≠ m') (h : HeldAt .expressDual g seq m x)
    (h' : HeldAt .expressDual g seq m' x) : Held .expressDual g seq x := by
  refine ⟨h.1, ?_⟩
  rcases h.2 with hm | hl
  · rcases h'.2 with hm' | hl
    · exact .inl ⟨m, m', hne, hm, hm'⟩
    · exact .inr hl
  · exact .inr hl

theorem stable_heldAt (a : Option Segment) (m : Medium) :
    Stable mode fun g => ∀ x, a = some x → HeldAt mode g seq m x :=
  fun _ _ hle h x hx => (h x hx).mono hle

theorem safe_get (m : Medium) (seq : Nat) (g : View) : (get m seq).Safe (View.shared mode crc32c)
      (fun r g => ∀ x, r = some x → HeldAt mode g seq m x) g := by
  have hreq : (Prog.request (Request.get m seq) : Media _).Safe (View.shared mode crc32c)
      (fun r g => ∀ x, r = Except.ok (some x) → HeldAt mode g seq m x) g := by
    refine Prog.Safe.request fun g₁ w g₂ r hinv hle hok hx => ?_
    have hclean : View.Clean mode g₁ (.get m seq) := hok
    obtain ⟨hinv', hle'⟩ := View.exec_safe hinv hclean trivial hx
    refine ⟨hinv', hle', fun g₃ _ hle₃ x hr => ?_⟩
    cases w with
    | answered =>
      cases hx
      have hslot : g₁.store.slots seq m = some x := Except.ok.inj hr
      exact HeldAt.mono ⟨hinv.slots seq m x hslot, .inl hslot⟩ hle₃
    | lost =>
      cases hx
      cases hr
    | dropped =>
      cases hx
      cases hr
  refine hreq.bind fun r g₁ _ hr => ?_
  cases r with
  | error e => trivial
  | ok a => exact fun g₂ _ hle x hx => (hr x (congrArg _ hx)).mono hle

theorem safe_fetch (seq : Nat) (g : View) : (fetch mode seq).Safe (View.shared mode crc32c)
      (fun r g => ∀ x, r = some x → Held mode g seq x) g := by
  unfold fetch
  cases mode with
  | standard => exact (safe_get .standard seq g).imp fun r g h x hx => h x hx
  | expressDual =>
    refine (safe_get .az1 seq g).bind fun a g₁ _ ha => ?_
    refine ((stable_heldAt a .az1).frame (safe_get .az2 seq g₁) ha).bind fun b g₂ _ hb => ?_
    split
    · rename_i heq
      refine fun g₃ _ hle x hx => Held.mono ?_ hle
      exact Held.of_two (by decide) (hb.1 x hx) (hb.2 x (heq.2 ▸ hx))
    · split
      · exact nofun
      · have hframe : Stable .expressDual fun g =>
            (∀ x, a = some x → HeldAt .expressDual g seq .az1 x)
              ∧ ∀ x, b = some x → HeldAt .expressDual g seq .az2 x :=
          fun g g' hle h => ⟨stable_heldAt a .az1 g g' hle h.1, stable_heldAt b .az2 g g' hle h.2⟩
        refine (hframe.frame (safe_get .standard seq g₂) hb).bind fun s g₃ _ hs => ?_
        split
        · rename_i heq
          refine fun g₄ _ hle x hx => Held.mono ?_ hle
          exact Held.of_two (by decide) (hs.1.1 x hx) (hs.2 x (heq.2.trans hx))
        · split
          · rename_i heq
            refine fun g₄ _ hle x hx => Held.mono ?_ hle
            exact Held.of_two (by decide) (hs.1.2 x hx) (hs.2 x (heq.2.trans hx))
          · exact nofun

theorem safe_walkNext (shard : Nat) (cursor : ChainCursor) (g : View) :
    (walkNext mode shard cursor).Safe (View.shared mode crc32c)
      (fun r g => ∀ x, r = some x →
        x.header.prevDigest = cursor.prevDigest ∧ Held mode g cursor.seq x) g := by
  refine (safe_fetch cursor.seq g).mapErr.bind fun a g₁ _ ha => ?_
  cases a with
  | none => exact nofun
  | some y =>
    dsimp only
    split
    · trivial
    · split
      · refine ((sound_loadManifest stable_true).lift g₁ trivial).bind fun loaded g₂ _ _ => ?_
        split
        · trivial
        · exact nofun
      · rename_i hlink
        intro g₂ _ hle x hx
        cases hx
        exact ⟨Decidable.not_not.mp hlink, (ha y rfl).mono hle⟩

end Held

/-! ## Paths -/

/-- What a walk from the first seq was given, and where it stands. -/
structure PathOk (mode : DurabilityMode) (crc32c : List UInt8 → Nat) (g : View)
    (cursor : ChainCursor) (path : List Segment) : Prop where
  length : cursor.seq = path.length + 1
  last : ∀ x, path.getLast? = some x → cursor.prevDigest = tenantsDigest crc32c x.tenants
  held : ∀ j x, path[j]? = some x → Held mode g (j + 1) x
  linked : ∀ j x y, path[j]? = some y → path[j + 1]? = some x →
    x.header.prevDigest = tenantsDigest crc32c y.tenants

namespace PathOk

variable {mode : DurabilityMode} {crc32c : List UInt8 → Nat} {g g' : View}
  {cursor : ChainCursor} {path : List Segment}

theorem mono (h : PathOk mode crc32c g cursor path) (hle : View.Le mode g g') :
    PathOk mode crc32c g' cursor path :=
  ⟨h.length, h.last, fun j x hx => (h.held j x hx).mono hle, h.linked⟩

theorem new : PathOk mode crc32c g ⟨1, 0⟩ [] where
  length := rfl
  last x hx := by cases hx
  held j x hx := by cases hx
  linked j x y hy := by cases hy

theorem deliver (h : PathOk mode crc32c g cursor path) {x : Segment}
    (hlink : x.header.prevDigest = cursor.prevDigest) (hx : Held mode g cursor.seq x) :
    PathOk mode crc32c g (cursor.next crc32c x) (path ++ [x]) := by
  have hget : ∀ j y, (path ++ [x])[j]? = some y → path[j]? = some y ∨ (j = path.length ∧ y = x) := by
    intro j y hj
    by_cases hlt : j < path.length
    · rw [List.getElem?_append_left hlt] at hj
      exact .inl hj
    · have hj' := (List.getElem?_eq_some_iff.mp hj).1
      rw [List.length_append, List.length_singleton] at hj'
      have heq : j = path.length := by omega
      subst heq
      rw [List.getElem?_concat_length] at hj
      exact .inr ⟨rfl, (Option.some.inj hj).symm⟩
  refine ⟨?_, fun y hy => ?_, fun j y hy => ?_, fun j y z hz hy => ?_⟩
  · rw [List.length_append, List.length_singleton]
    exact congrArg Nat.succ h.length
  · rw [List.getLast?_concat] at hy
    cases hy
    rfl
  · rcases hget j y hy with hy | ⟨rfl, rfl⟩
    · exact h.held j y hy
    · rw [← h.length]
      exact hx
  · have hlt : j < path.length := by
      have hlen := (List.getElem?_eq_some_iff.mp hy).1
      rw [List.length_append, List.length_singleton] at hlen
      omega
    rw [List.getElem?_append_left hlt] at hz
    rcases hget (j + 1) y hy with hy | ⟨hj, rfl⟩
    · exact h.linked j y z hz hy
    · rw [hlink]
      refine h.last z ?_
      rw [List.getLast?_eq_getElem?, ← hj]
      exact hz

/-- A walk that was given a window of a writer was given only windows of
that writer since the writer's seal, so no seal is among them. -/
theorem separate (h : PathOk mode crc32c g cursor path) (hinv : View.Inv crc32c g)
    (hcrc : ∀ bs, crc32c bs < 2 ^ 32) {i : Nat} {l : Lineage} (hi : g.Writer i l) :
    ∀ j x, path[j]? = some x → x ∈ l.windows →
      ∀ f, l.sealedSeq < f → f ≤ j → ¬ g.store.Sealed mode f := by
  intro j
  induction j with
  | zero => exact fun x _ _ f hlo hhi => absurd hhi (by omega)
  | succ j ih =>
    intro x hx hxw f hlo hhi hsealed
    obtain ⟨k, hk⟩ := List.mem_iff_getElem?.mp hxw
    obtain ⟨-, hseq, -, hprev⟩ := hinv.linked i l hi k x hk
    have hseq' := (h.held (j + 1) x hx).1.1
    -- the window before it in its lineage, and the segment before it on the path
    obtain ⟨k', rfl⟩ : ∃ k', k = k' + 1 := ⟨k - 1, by omega⟩
    obtain ⟨y, hy⟩ : ∃ y, l.windows[k']? = some y := by
      have hlt := (List.getElem?_eq_some_iff.mp hk).1
      exact ⟨_, List.getElem?_eq_getElem (by omega)⟩
    obtain ⟨p, hp⟩ : ∃ p, path[j]? = some p := by
      have hlt := (List.getElem?_eq_some_iff.mp hx).1
      exact ⟨_, List.getElem?_eq_getElem (by omega)⟩
    obtain ⟨-, hyseq, hyne, -⟩ := hinv.linked i l hi k' y hy
    have hdigest : tenantsDigest crc32c p.tenants = tenantsDigest crc32c y.tenants :=
      (h.linked j x p hp hx).symm.trans (hprev k' y rfl hy)
    have hpheld := h.held j p hp
    have hyw : y ∈ l.windows := List.mem_of_getElem? hy
    have hown : ∀ i' l', g.Writer i' l' → p ∈ l'.windows → i' = i := by
      intro i' l' hi' hpw
      by_contra hne
      refine hinv.distinct i' i l' l p y hne hi' hi hpw hyw ?_ hdigest
      rw [hpheld.1.1]
      omega
    -- the segment before it is no seal, so it is a window of the same writer
    obtain ⟨i', l', hi', hpw⟩ := hpheld.1.2.resolve_left fun hseal => by
      have hlow := tenantsDigest_nil hcrc
      have hhigh : 2 ^ 32 ≤ tenantsDigest crc32c y.tenants := le_tenantsDigest hyne
      rw [← hdigest, hseal.2] at hhigh
      omega
    obtain rfl := hown i' l' hi' hpw
    obtain rfl : l' = l := Option.some.inj (Option.some.inj (hi'.symm.trans hi))
    by_cases hf : f ≤ j
    · exact ih p hp hpw f hlo hf hsealed
    · obtain rfl : f = j + 1 := by omega
      rcases hpheld.2 with ho | hl
      · obtain ⟨z, hz, hzk⟩ := sealed_iff.mp hsealed
        obtain rfl := hz.unique ho
        obtain ⟨k, hk⟩ := List.mem_iff_getElem?.mp hpw
        rw [(hinv.linked i' l' hi k z hk).1] at hzk
        cases hzk
      · obtain ⟨-, i'', l'', hi'', hpw'', f', hf', hq', hs'⟩ := (View.litter_iff mode).mp hl
        obtain rfl := hown i'' l'' hi'' hpw''
        obtain rfl : l'' = l' := Option.some.inj (Option.some.inj (hi''.symm.trans hi))
        exact ih p hp hpw f' hq' (by omega) hs'

end PathOk

/-! ## The condition -/

namespace ShardRuns

variable (cfg : WalConfig)

/-- The next request of a client. -/
def asked {E α : Type} : Prog Request Request.Reply E α → Option Request
  | .ask q _ => some q
  | _ => none

/-- The request a step makes. -/
def request (s : ShardRuns) : RunStep → Option Request
  | .advance i _ => match s.nodes[i]? with
      | some (.takingOver p) => asked p
      | _ => none
  | .work i w _ => match s.nodes[i]? with
      | some (.writing _ _ puts) => asked (puts w)
      | _ => none
  | .read r _ => asked (s.readers r).p
  | _ => none

/-- The window a step builds, and the node that does. -/
def built (s : ShardRuns) : RunStep → Option (Nat × Segment)
  | .sequencer i .flush => match s.nodes[i]? with
      | some (.writing _ sq _) => (sq.nextWindow cfg.sequencer).map (i, ·)
      | _ => none
  | _ => none

/-- The digests of a writer's windows tell them from the segment. -/
def Differs (crc32c : List UInt8 → Nat) (x : Segment) (o : Option Lineage) : Prop :=
  ∀ l ∈ o, ∀ y ∈ l.windows, y.header.seq = x.header.seq →
    tenantsDigest crc32c y.tenants ≠ tenantsDigest crc32c x.tenants

instance (crc32c : List UInt8 → Nat) (x : Segment) (o : Option Lineage) :
    Decidable (Differs crc32c x o) :=
  inferInstanceAs (Decidable (∀ l ∈ o, ∀ y ∈ l.windows, y.header.seq = x.header.seq →
    tenantsDigest crc32c y.tenants ≠ tenantsDigest crc32c x.tenants))

/-- No other writer has a window at the seq with this digest. -/
def Fresh (s : ShardRuns) (i : Nat) (x : Segment) : Prop :=
  ∀ j, j < s.lineages.length → j ≠ i → ∀ o ∈ s.lineages[j]?, Differs cfg.sequencer.crc32c x o

/-- A window is built only where its digest tells it from every other
writer's window at its seq, and a delete finds nothing but litter. -/
def Allowed (s : ShardRuns) (l : RunStep) : Prop :=
  (∀ q ∈ s.request l, s.view.Clean cfg.mode q) ∧ ∀ b ∈ s.built cfg l, s.Fresh cfg b.1 b.2

instance (s : ShardRuns) (i : Nat) (x : Segment) : Decidable (s.Fresh cfg i x) :=
  inferInstanceAs (Decidable (∀ j, j < s.lineages.length → j ≠ i → ∀ o ∈ s.lineages[j]?,
    Differs cfg.sequencer.crc32c x o))

instance (s : ShardRuns) (l : RunStep) : Decidable (s.Allowed cfg l) :=
  inferInstanceAs (Decidable (_ ∧ _))

/-! ## The invariant -/

def NodeOk (g : View) : Node → Prop
  | .takingOver p => p.Safe (View.shared cfg.mode cfg.sequencer.crc32c)
      (fun t _ => True ∧ t.nextSeq = t.sealedSeq + 1) g
  | .writing q sq puts => sq.Inv cfg.sequencer (q + 1) ∧ sq.Links cfg.sequencer.crc32c q
      ∧ ∀ w, (puts w).Safe (View.shared cfg.mode cfg.sequencer.crc32c) (fun _ _ => True) g

def ReaderOk (g : View) (r : Reader) : Prop :=
  PathOk cfg.mode cfg.sequencer.crc32c g r.cursor r.path
    ∧ r.p.Safe (View.shared cfg.mode cfg.sequencer.crc32c)
      (fun a g => ∀ x, a = some x →
        x.header.prevDigest = r.cursor.prevDigest ∧ Held cfg.mode g r.cursor.seq x) g

structure Inv (s : ShardRuns) : Prop where
  view : View.Inv cfg.sequencer.crc32c s.view
  nodes : ∀ (i : Nat) (n : Node), s.nodes[i]? = some n → NodeOk cfg s.view n
  readers : ∀ r, ReaderOk cfg s.view (s.readers r)

variable {cfg} {s s' : ShardRuns} {g g' : View} {n : Node}

theorem NodeOk.mono (h : NodeOk cfg g n) (hle : View.Le cfg.mode g g') : NodeOk cfg g' n := by
  cases n with
  | takingOver p => exact Prog.Safe.mono h hle
  | writing q sq puts => exact ⟨h.1, h.2.1, fun w => (h.2.2 w).mono hle⟩

theorem ReaderOk.mono {r : Reader} (h : ReaderOk cfg g r) (hle : View.Le cfg.mode g g') :
    ReaderOk cfg g' r := ⟨h.1.mono hle, h.2.mono hle⟩

/-- What a step must show: the view moves up, and whoever moved is as it
should be. -/
theorem Inv.step_of (h : Inv cfg s)
    (hv : View.Inv cfg.sequencer.crc32c s'.view ∧ View.Le cfg.mode s.view s'.view)
    (hn : ∀ (i : Nat) (n : Node), s'.nodes[i]? = some n → s.nodes[i]? = some n ∨ NodeOk cfg s'.view n)
    (hr : ∀ r, s'.readers r = s.readers r ∨ ReaderOk cfg s'.view (s'.readers r)) :
    Inv cfg s' ∧ View.Le cfg.mode s.view s'.view := by
  refine ⟨⟨hv.1, fun i n hi => ?_, fun r => ?_⟩, hv.2⟩
  · rcases hn i n hi with hi | hok
    · exact (h.nodes i n hi).mono hv.2
    · exact hok
  · rcases hr r with heq | hok
    · rw [heq]
      exact (h.readers r).mono hv.2
    · exact hok

/-! ## Steps of the view -/

variable {i : Nat} {n' : Node}

theorem setNode_getElem? {j : Nat} (h : (s.setNode i n).nodes[j]? = some n') :
    s.nodes[j]? = some n' ∨ (j = i ∧ n' = n) := by
  change (s.nodes.set i n)[j]? = some n' at h
  by_cases hj : i = j
  · subst hj
    rw [List.getElem?_set_self'] at h
    obtain ⟨_, -, rfl⟩ := Option.map_eq_some_iff.mp h
    exact .inr ⟨rfl, rfl⟩
  · rw [List.getElem?_set_ne hj] at h
    exact .inl h

theorem setReader_cases (r : Nat) (x : Reader) (r' : Nat) :
    (s.setReader r x).readers r' = s.readers r' ∨ (r' = r ∧ (s.setReader r x).readers r' = x) := by
  unfold setReader
  by_cases hr : r' = r
  · subst hr
    exact .inr ⟨rfl, Function.update_self ..⟩
  · exact .inl (Function.update_of_ne hr ..)

theorem lineages_setNode (hi : s.nodes[i]? = some n)
    (hl : n'.lineage = n.lineage) : (s.setNode i n').lineages = s.lineages := by
  unfold lineages setNode
  rw [List.map_set, hl]
  refine List.ext_getElem? fun j => ?_
  by_cases hj : i = j
  · subst hj
    have hlt := (List.getElem?_eq_some_iff.mp hi).1
    rw [List.getElem?_set_self (by rw [List.length_map]; exact hlt), List.getElem?_map, hi]
    rfl
  · rw [List.getElem?_set_ne hj]

theorem view_setNode (hi : s.nodes[i]? = some n) (hl : n'.lineage = n.lineage) (st : Store) :
    ({ s.setNode i n' with store := st } : ShardRuns).view = { s.view with store := st } :=
  congrArg (View.mk st) (lineages_setNode hi hl)

variable {st : Store}

theorem client_step {E α : Type} {post : α → View → Prop} {p p' : Prog Request Request.Reply E α} {wire : Wire} (hinv : View.Inv cfg.sequencer.crc32c g)
    (hp : p.Safe (View.shared cfg.mode cfg.sequencer.crc32c) post g)
    (hok : ∀ q ∈ asked p, g.Clean cfg.mode q)
    (h : p.advance Store.exec g.store wire = some (p', st)) :
    (View.Inv cfg.sequencer.crc32c { g with store := st }
      ∧ View.Le cfg.mode g { g with store := st })
      ∧ p'.Safe (View.shared cfg.mode cfg.sequencer.crc32c) post { g with store := st } := by
  have hadv : p.advance View.exec g wire = some (p', { g with store := st }) := by
    obtain ⟨q, k, r, rfl, hx, rfl⟩ := Prog.advance_some h
    change (View.exec g q wire).map _ = _
    unfold View.exec
    rw [hx]
    rfl
  have hstep := hp.advance hinv (fun q k hq => hok q (by rw [hq]; rfl)) hadv
  exact ⟨⟨hstep.1, hstep.2.1⟩, hstep.2.2⟩

theorem view_grow {ls : List (Option Lineage)} (hinv : View.Inv cfg.sequencer.crc32c g)
    (hw : ∀ (i : Nat) (l : Lineage), g.Writer i l → ∃ l', ls[i]? = some (some l') ∧ l'.sealedSeq = l.sealedSeq
      ∧ l.windows <+: l'.windows)
    (hlinked : ∀ (i : Nat) (l : Lineage), ls[i]? = some (some l) →
      View.Linked cfg.sequencer.crc32c l.sealedSeq l.windows)
    (hdistinct : ∀ (i j : Nat) (l l' : Lineage) (x y : Segment), i ≠ j →
      ls[i]? = some (some l) → ls[j]? = some (some l') → x ∈ l.windows → y ∈ l'.windows → x.header.seq = y.header.seq →
      tenantsDigest cfg.sequencer.crc32c x.tenants ≠ tenantsDigest cfg.sequencer.crc32c y.tenants) :
    View.Inv cfg.sequencer.crc32c { g with lineages := ls }
      ∧ View.Le cfg.mode g { g with lineages := ls } := by
  have hle : View.Le cfg.mode g { g with lineages := ls } := ⟨hw, fun _ _ _ hx => .inl hx⟩
  exact ⟨⟨fun seq m x hx => (hinv.slots seq m x hx).mono hle,
    fun l hl => (hinv.launched l hl).mono hle, hlinked, hdistinct⟩, hle⟩

theorem view_enter {ls : List (Option Lineage)} (hinv : View.Inv cfg.sequencer.crc32c g)
    (hw : ∀ (i : Nat) (l : Lineage), g.Writer i l → ls[i]? = some (some l))
    (hnew : ∀ (i : Nat) (l : Lineage), ls[i]? = some (some l) → g.Writer i l ∨ l.windows = []) :
    View.Inv cfg.sequencer.crc32c { g with lineages := ls }
      ∧ View.Le cfg.mode g { g with lineages := ls } := by
  refine view_grow hinv (fun i l hi => ⟨l, hw i l hi, rfl, List.prefix_refl _⟩) (fun i l hi => ?_)
    fun i j l l' x y hne hi hj hx hy => ?_
  · rcases hnew i l hi with hi | hnil
    · exact hinv.linked i l hi
    · rw [hnil]
      exact nofun
  · rcases hnew i l hi with hi | hnil
    · rcases hnew j l' hj with hj | hnil
      · exact hinv.distinct i j l l' x y hne hi hj hx hy
      · rw [hnil] at hy
        cases hy
    · rw [hnil] at hx
      cases hx

/-! ## Steps -/

variable {sq : Sequencer CasError} {q : Nat}

theorem mem_windows {w : Nat} {d : Dispatch}
    (h : sq.Inv cfg.sequencer q) (hw : sq.workers[w]? = some (.putting d)) : d ∈ sq.windows := by
  refine h.chain.mem d (List.mem_append_right _ ?_)
  refine List.mem_append_left _ (List.mem_append_left _ (List.mem_append_right _ ?_))
  exact List.mem_flatMap.mpr ⟨_, List.mem_of_getElem? hw, List.mem_singleton.mpr rfl⟩

theorem stable_known (mode : DurabilityMode) (seq : Nat) (x : Segment) :
    Stable mode fun g => g.Known seq x := fun _ _ hle h => h.mono hle

theorem putsOf_cases (cfg : WalConfig) (q : Nat) (sq : Sequencer CasError) (puts : Nat → Media Unit)
    (l : SequencerStep CasError) (w : Nat) : putsOf cfg q sq puts l w = puts w
      ∨ ∃ d, sq.workers[w]? = some (.putting d)
        ∧ putsOf cfg q sq puts l w = sinkPut cfg.mode q d.seq d.segment := by
  cases l with
  | receive w' =>
    unfold putsOf
    dsimp only
    cases hw : sq.workers[w']? with
    | none => exact .inl rfl
    | some p =>
      cases p with
      | putting d =>
        by_cases heq : w = w'
        · subst heq
          exact .inr ⟨d, hw, Function.update_self ..⟩
        · exact .inl (Function.update_of_ne heq ..)
      | _ => exact .inl rfl
  | _ => exact .inl rfl

variable {puts : Nat → Media Unit} {l : SequencerStep CasError}

theorem putsOf_safe (hinv : sq.Inv cfg.sequencer (q + 1)) (hlinks : sq.Links cfg.sequencer.crc32c q)
    (hi : g.Writer i ⟨q, sq.windows.map Dispatch.segment⟩)
    (hputs : ∀ w, (puts w).Safe (View.shared cfg.mode cfg.sequencer.crc32c) (fun _ _ => True) g)
    (w : Nat) : (putsOf cfg q sq puts l w).Safe (View.shared cfg.mode cfg.sequencer.crc32c)
      (fun _ _ => True) g := by
  rcases putsOf_cases cfg q sq puts l w with heq | ⟨d, hd, heq⟩
  · rw [heq]
    exact hputs w
  · rw [heq]
    have hmem := mem_windows hinv hd
    have hknown : g.Known d.seq d.segment :=
      ⟨hlinks.named d hmem, .inr ⟨i, _, hi, List.mem_map_of_mem hmem⟩⟩
    have hsound : Sound cfg.mode cfg.sequencer.crc32c (fun g => g.Known d.seq d.segment)
        (sinkPut cfg.mode q d.seq d.segment) fun _ => True :=
      sound_sinkPut (stable_known cfg.mode d.seq d.segment) (fun g hk => hk) q
    exact (hsound g hknown).imp fun _ _ _ => trivial

/-- A step of a sequencer moves its lineage on. -/
theorem lineages_sequencer {sq' : Sequencer CasError} (puts' : Nat → Media Unit) (h : Inv cfg s)
    (hi : s.nodes[i]? = some (.writing q sq puts)) (hstep : sq.next cfg.sequencer l = some sq')
    (hfresh : ∀ x ∈ Sequencer.added cfg.sequencer sq l, s.Fresh cfg i x) :
    (View.Inv cfg.sequencer.crc32c (s.setNode i (.writing q sq' puts')).view
      ∧ View.Le cfg.mode s.view (s.setNode i (.writing q sq' puts')).view)
      ∧ (s.setNode i (.writing q sq' puts')).view.Writer i
        ⟨q, sq'.windows.map Dispatch.segment⟩ := by
  obtain ⟨-, hlinks, -⟩ := h.nodes i _ hi
  obtain ⟨hlinks', hwin⟩ := hlinks.next_step hstep
  have hlt : i < s.lineages.length := by
    rw [lineages, List.length_map]
    exact (List.getElem?_eq_some_iff.mp hi).1
  have hold : s.view.Writer i ⟨q, sq.windows.map Dispatch.segment⟩ := by
    change (s.nodes.map Node.lineage)[i]? = _
    rw [List.getElem?_map, hi]
    rfl
  have hview : (s.setNode i (.writing q sq' puts')).view = { s.view with
      lineages := s.lineages.set i (some ⟨q, sq'.windows.map Dispatch.segment⟩) } :=
    congrArg (View.mk s.store) List.map_set
  have hself : ∀ j l', (s.lineages.set i (some ⟨q, sq'.windows.map Dispatch.segment⟩))[j]?
      = some (some l') → (j = i ∧ l' = ⟨q, sq'.windows.map Dispatch.segment⟩)
        ∨ (j ≠ i ∧ s.view.Writer j l') := by
    intro j l' hj
    by_cases hij : i = j
    · subst hij
      rw [List.getElem?_set_self hlt] at hj
      exact .inl ⟨rfl, (Option.some.inj (Option.some.inj hj)).symm⟩
    · rw [List.getElem?_set_ne hij] at hj
      exact .inr ⟨fun heq => hij heq.symm, hj⟩
  -- a window of this writer and one of another
  have hcross : ∀ j l' x y, j ≠ i → s.view.Writer j l' → x ∈ sq'.windows.map Dispatch.segment →
      y ∈ l'.windows → x.header.seq = y.header.seq →
      tenantsDigest cfg.sequencer.crc32c y.tenants
        ≠ tenantsDigest cfg.sequencer.crc32c x.tenants := by
    intro j l' x y hne hj hx hy hseq
    rw [hwin] at hx
    rcases List.mem_append.mp hx with hx | hx
    · exact h.view.distinct j i _ _ y x hne hj hold hy hx hseq.symm
    · have hjlt := (List.getElem?_eq_some_iff.mp hj).1
      exact hfresh x hx j hjlt hne _ hj l' rfl y hy hseq.symm
  rw [hview]
  refine ⟨view_grow h.view (fun j l' hj => ?_) (fun j l' hj => ?_)
    fun j k l₁ l₂ x y hne hset hset' hx hy hseq => ?_, ?_⟩
  · by_cases hij : i = j
    · subst hij
      obtain rfl := Option.some.inj (Option.some.inj (hold.symm.trans hj))
      refine ⟨_, List.getElem?_set_self hlt, rfl, ?_⟩
      rw [hwin]
      exact List.prefix_append ..
    · exact ⟨l', (List.getElem?_set_ne hij).trans hj, rfl, List.prefix_refl _⟩
  · rcases hself j l' hj with ⟨-, rfl⟩ | ⟨-, hj⟩
    · exact hlinks'.linked
    · exact h.view.linked j l' hj
  · rcases hself j l₁ hset with ⟨rfl, rfl⟩ | ⟨hji, hj⟩
    · rcases hself k l₂ hset' with ⟨rfl, rfl⟩ | ⟨hki, hk⟩
      · exact absurd rfl hne
      · exact (hcross k l₂ x y hki hk hx hy hseq).symm
    · rcases hself k l₂ hset' with ⟨rfl, rfl⟩ | ⟨hki, hk⟩
      · exact hcross j l₁ y x hji hj hy hx hseq.symm
      · exact h.view.distinct j k l₁ l₂ x y hne hj hk hx hy hseq
  · exact List.getElem?_set_self hlt

theorem Inv.join (h : Inv cfg s) (hn : ∀ g, NodeOk cfg g n) (hl : ∀ l ∈ n.lineage, l.windows = []) :
    Inv cfg { s with nodes := s.nodes ++ [n] }
      ∧ View.Le cfg.mode s.view ({ s with nodes := s.nodes ++ [n] } : ShardRuns).view := by
  have hview : ({ s with nodes := s.nodes ++ [n] } : ShardRuns).view
      = { s.view with lineages := s.lineages ++ [n.lineage] } :=
    congrArg (View.mk s.store) List.map_append
  refine h.step_of ?_ (fun i m hi => ?_) fun r => .inl rfl
  · rw [hview]
    refine view_enter h.view (fun i l hi => ?_) fun i l hi => ?_
    · exact (List.getElem?_append_left (List.getElem?_eq_some_iff.mp hi).1).trans hi
    · by_cases hlt : i < s.lineages.length
      · rw [List.getElem?_append_left hlt] at hi
        exact .inl hi
      · rw [List.getElem?_append_right (Nat.le_of_not_lt hlt)] at hi
        have hmem := List.mem_of_getElem? hi
        exact .inr (hl l (List.mem_singleton.mp hmem).symm)
  · by_cases hlt : i < s.nodes.length
    · exact .inl ((List.getElem?_append_left hlt).symm.trans hi)
    · change (s.nodes ++ [n])[i]? = some m at hi
      rw [List.getElem?_append_right (Nat.le_of_not_lt hlt)] at hi
      rw [List.mem_singleton.mp (List.mem_of_getElem? hi)]
      exact .inr (hn _)

theorem nodeOk_resume (q prevDigest : Nat) (g : View) :
    NodeOk cfg g (.writing q (.resume cfg.sequencer (q + 1) prevDigest) fun _ => .done ()) :=
  ⟨Sequencer.inv_resume .., Sequencer.links_resume _, fun _ _ _ _ => trivial⟩

theorem Inv.resume (h : Inv cfg s) {t : Takeover}
    (hi : s.nodes[i]? = some (.takingOver (.done t))) : Inv cfg (s.setNode i (.writing t.sealedSeq
      (.resume cfg.sequencer t.nextSeq t.prevDigest) fun _ => .done ()))
      ∧ View.Le cfg.mode s.view (s.setNode i (.writing t.sealedSeq
        (.resume cfg.sequencer t.nextSeq t.prevDigest) fun _ => .done ())).view := by
  have hsafe : (Prog.done t : Chain Takeover).Safe (View.shared cfg.mode cfg.sequencer.crc32c)
      (fun t _ => True ∧ t.nextSeq = t.sealedSeq + 1) s.view := h.nodes i _ hi
  have ht : t.nextSeq = t.sealedSeq + 1 := (hsafe.result h.view).2
  rw [ht]
  refine h.step_of ?_ (fun j n hj => ?_) fun r => .inl rfl
  · have hview : (s.setNode i (.writing t.sealedSeq (.resume cfg.sequencer (t.sealedSeq + 1)
        t.prevDigest) fun _ => .done ())).view
        = { s.view with lineages := s.lineages.set i (some ⟨t.sealedSeq, []⟩) } :=
      congrArg (View.mk s.store) List.map_set
    have hnone : s.lineages[i]? = some none := by
      rw [lineages, List.getElem?_map, hi]
      rfl
    rw [hview]
    refine view_enter h.view (fun j l hj => ?_) fun j l hj => ?_
    · have hne : i ≠ j := by
        rintro rfl
        change s.lineages[i]? = _ at hj
        rw [hnone] at hj
        cases hj
      exact (List.getElem?_set_ne hne).trans hj
    · by_cases hij : i = j
      · subst hij
        rw [List.getElem?_set_self (List.getElem?_eq_some_iff.mp hnone).1] at hj
        obtain rfl := Option.some.inj (Option.some.inj hj)
        exact .inr rfl
      · rw [List.getElem?_set_ne hij] at hj
        exact .inl hj
  · rcases setNode_getElem? hj with hj | ⟨rfl, rfl⟩
    · exact .inl hj
    · exact .inr (nodeOk_resume ..)

theorem Inv.client (h : Inv cfg s)
    (hi : s.nodes[i]? = some n) (hl : n'.lineage = n.lineage)
    (hv : View.Inv cfg.sequencer.crc32c { s.view with store := st }
      ∧ View.Le cfg.mode s.view { s.view with store := st })
    (hn : NodeOk cfg { s.view with store := st } n') :
    Inv cfg { s.setNode i n' with store := st }
      ∧ View.Le cfg.mode s.view ({ s.setNode i n' with store := st } : ShardRuns).view := by
  have hview := view_setNode hi hl st
  refine h.step_of (hview ▸ hv) (fun j m hj => ?_) fun r => .inl rfl
  rcases setNode_getElem? (s := s) hj with hj | ⟨-, rfl⟩
  · exact .inl hj
  · exact .inr (hview ▸ hn)

theorem Inv.sequencer (h : Inv cfg s) {sq' : Sequencer CasError} {puts' : Nat → Media Unit}
    (hi : s.nodes[i]? = some (.writing q sq puts)) (hstep : sq.next cfg.sequencer l = some sq')
    (hfresh : ∀ x ∈ Sequencer.added cfg.sequencer sq l, s.Fresh cfg i x)
    (hputs : puts' = puts ∨ puts' = putsOf cfg q sq' puts l) :
    Inv cfg (s.setNode i (.writing q sq' puts'))
      ∧ View.Le cfg.mode s.view (s.setNode i (.writing q sq' puts')).view := by
  obtain ⟨hinv, hlinks, hsafe⟩ := h.nodes i _ hi
  obtain ⟨hv, hw⟩ := lineages_sequencer puts' h hi hstep hfresh
  have hinv' := Sequencer.inv_next sq l sq' hinv hstep
  have hlinks' := (hlinks.next_step hstep).1
  refine h.step_of hv (fun j n hj => ?_) fun r => .inl rfl
  rcases setNode_getElem? hj with hj | ⟨-, rfl⟩
  · exact .inl hj
  · refine .inr ⟨hinv', hlinks', fun w => ?_⟩
    have hold := (hsafe w).mono hv.2
    rcases hputs with rfl | rfl
    · exact hold
    · exact putsOf_safe hinv' hlinks' hw (fun w => (hsafe w).mono hv.2) w

theorem Inv.reader (h : Inv cfg s) {r : Nat} {x : Reader}
    (hv : View.Inv cfg.sequencer.crc32c { s.view with store := st }
      ∧ View.Le cfg.mode s.view { s.view with store := st })
    (hx : ReaderOk cfg { s.view with store := st } x) :
    Inv cfg { s.setReader r x with store := st }
      ∧ View.Le cfg.mode s.view ({ s.setReader r x with store := st } : ShardRuns).view := by
  refine h.step_of hv (fun j m hj => .inl hj) fun r' => ?_
  rcases setReader_cases (s := s) r x r' with heq | ⟨-, heq⟩
  · exact .inl heq
  · right
    change ReaderOk cfg _ ((s.setReader r x).readers r')
    rw [heq]
    exact hx

theorem inv_next {l : RunStep} (h : Inv cfg s) (hok : s.Allowed cfg l)
    (hstep : s.next cfg l = some s') : Inv cfg s' ∧ View.Le cfg.mode s.view s'.view := by
  have hsame : View.Inv cfg.sequencer.crc32c { s.view with store := s.store }
      ∧ View.Le cfg.mode s.view { s.view with store := s.store } := ⟨h.view, View.Le.refl _⟩
  cases l with
  | start =>
    obtain rfl := Option.some.inj hstep
    refine h.join (nodeOk_resume 0 0) fun l hl => ?_
    cases hl
    rfl
  | takeOver fuel =>
    obtain rfl := Option.some.inj hstep
    refine h.join (fun g => ?_) nofun
    exact sound_takeOver _ _ g trivial
  | advance i wire =>
    unfold next at hstep
    dsimp only at hstep
    split at hstep
    · rename_i p hi
      obtain ⟨⟨p', st⟩, hadv, rfl⟩ := Option.map_eq_some_iff.mp hstep
      have hclean : ∀ q ∈ asked p, s.view.Clean cfg.mode q := by
        intro q hq
        refine hok.1 q ?_
        unfold request
        dsimp only
        rw [hi]
        exact hq
      obtain ⟨hv, hp⟩ := client_step h.view (h.nodes i _ hi) hclean hadv
      exact h.client hi rfl hv hp
    · cases hstep
  | resume i =>
    unfold next at hstep
    dsimp only at hstep
    split at hstep
    · rename_i t hi
      obtain rfl := Option.some.inj hstep
      exact h.resume hi
    · cases hstep
  | sequencer i l =>
    unfold next at hstep
    dsimp only at hstep
    split at hstep
    · rename_i q sq puts hi
      split at hstep
      · obtain ⟨sq', hsq, rfl⟩ := Option.map_eq_some_iff.mp hstep
        refine h.sequencer hi hsq (fun x hx => ?_) (.inr rfl)
        cases l with
        | flush =>
          refine hok.2 (i, x) ?_
          unfold built
          dsimp only
          rw [hi]
          exact Option.map_eq_some_iff.mpr ⟨x, Option.mem_toList.mp hx, rfl⟩
        | _ => cases hx
      · cases hstep
    · cases hstep
  | work i w wire =>
    unfold next at hstep
    dsimp only at hstep
    split at hstep
    · rename_i q sq puts hi
      split at hstep
      · obtain ⟨⟨p', st⟩, hadv, rfl⟩ := Option.map_eq_some_iff.mp hstep
        obtain ⟨hinv, hlinks, hsafe⟩ := h.nodes i _ hi
        have hclean : ∀ r ∈ asked (puts w), s.view.Clean cfg.mode r := by
          intro r hr
          refine hok.1 r ?_
          unfold request
          dsimp only
          rw [hi]
          exact hr
        obtain ⟨hv, hp⟩ := client_step h.view (hsafe w) hclean hadv
        refine h.client hi rfl hv ⟨hinv, hlinks, fun w' => ?_⟩
        by_cases hw : w' = w
        · subst hw
          rw [Function.update_self]
          exact hp
        · rw [Function.update_of_ne hw]
          exact (hsafe w').mono hv.2
      · cases hstep
    · cases hstep
  | returned i w =>
    unfold next at hstep
    dsimp only at hstep
    split at hstep
    · rename_i q sq puts hi
      split at hstep
      · obtain ⟨sq', hsq, rfl⟩ := Option.map_eq_some_iff.mp hstep
        exact h.sequencer hi hsq nofun (.inl rfl)
      · cases hstep
    · cases hstep
  | land n wire =>
    obtain ⟨st, hland, rfl⟩ := Option.map_eq_some_iff.mp hstep
    exact h.step_of (View.land_safe h.view hland) (fun _ _ hj => .inl hj) fun _ => .inl rfl
  | walk r =>
    obtain rfl := Option.some.inj hstep
    exact h.reader hsame ⟨(h.readers r).1, safe_walkNext _ _ _⟩
  | read r wire =>
    obtain ⟨⟨p', st⟩, hadv, rfl⟩ := Option.map_eq_some_iff.mp hstep
    obtain ⟨hv, hp⟩ := client_step h.view (h.readers r).2 (fun q hq => hok.1 q hq) hadv
    exact h.reader hv ⟨(h.readers r).1.mono hv.2, hp⟩
  | deliver r =>
    unfold next at hstep
    dsimp only at hstep
    split at hstep
    · rename_i x hp
      obtain rfl := Option.some.inj hstep
      obtain ⟨hpath, hsafe⟩ := h.readers r
      rw [hp] at hsafe
      obtain ⟨hlink, hheld⟩ := hsafe.result h.view x rfl
      refine h.reader hsame ⟨hpath.deliver hlink hheld, nofun⟩
    · cases hstep
  | hand r r' =>
    obtain rfl := Option.some.inj hstep
    exact h.reader hsame ⟨(h.readers r).1, nofun⟩

theorem inv_empty : Inv cfg empty := by
  refine ⟨⟨nofun, nofun, nofun,
    nofun⟩, nofun, fun r => ?_⟩
  exact ⟨PathOk.new, nofun⟩

/-! ## Runs -/

/-- In a run whose windows differ from the other writers' and whose deletes
find litter, nothing from beyond a seal that fenced its writer reaches a
sink, whether the seal is still the owner of its seq or was at any time
before. -/
theorem lineages_separate {cfg : WalConfig} (hcrc : ∀ bs, cfg.sequencer.crc32c bs < 2 ^ 32)
    {ls ls' : List RunStep} {s s' : ShardRuns}
    (hm : Meets (next cfg) (fun s l => s.Allowed cfg l) empty (ls ++ ls'))
    (hr : run (next cfg) empty ls = some s) (hr' : run (next cfg) s ls' = some s')
    {r i q : Nat} {l : Lineage} {x : Segment} (hx : x ∈ (s'.readers r).path)
    (hl : s'.lineages[i]? = some (some l)) (hw : x ∈ l.windows) (hq : s.store.Sealed cfg.mode q) :
    ¬ (l.sealedSeq < q ∧ q < x.header.seq) := by
  rintro ⟨hlo, hhi⟩
  obtain ⟨hm₁, hm₂⟩ := meets_append.mp hm
  have hstep : ∀ s l s', Inv cfg s → s.Allowed cfg l → next cfg s l = some s' → Inv cfg s' :=
    fun s l s' h hok hn => (inv_next h hok hn).1
  have hinv : Inv cfg s := guarded_invariant hstep inv_empty hm₁ hr
  -- the view of the first state is below that of every later one
  have hstep' : ∀ t l t', (Inv cfg t ∧ View.Le cfg.mode s.view t.view) → t.Allowed cfg l →
      next cfg t l = some t' → Inv cfg t' ∧ View.Le cfg.mode s.view t'.view := by
    intro t l t' h hok hn
    obtain ⟨ht, hle⟩ := inv_next h.1 hok hn
    exact ⟨ht, h.2.trans hle⟩
  obtain ⟨hinv', hle⟩ := guarded_invariant hstep' ⟨hinv, View.Le.refl _⟩ (hm₂ s hr) hr'
  obtain ⟨hpath, -⟩ := hinv'.readers r
  obtain ⟨j, hj⟩ := List.mem_iff_getElem?.mp hx
  have hseq := (hpath.held j x hj).1.1
  exact hpath.separate hinv'.view hcrc hl j x hj hw q hlo (by omega) (hle.sealed hq)

/-- One bucket and three windows in flight, with the crc of the log. -/
def oneBucket : WalConfig := ⟨.standard, ⟨0, 3, false, fun bs => (Packing.crc32c bs).toNat⟩⟩

/-- Node `i` appends the frames and hands them to worker `w` in one
window. -/
def window (i w : Nat) (frames : List LogFrame) : List RunStep :=
  .sequencer i (.append frames fun _ => none)
    :: List.replicate 4 (.sequencer i .flush) ++ [.sequencer i (.receive w)]

def walkOne (r : Nat) : List RunStep := [.walk r, .read r .answered, .deliver r]

def frame (startLsn endLsn : Lsn) : LogFrame := ⟨7, 1, startLsn, endLsn, []⟩

/-- Node 0 has three windows in flight when node 1 takes over, seals the seq
of the first and lands other frames than node 0 had. -/
def fencedAndReplaced : List RunStep :=
  .start :: window 0 0 [frame 0 10] ++ window 0 1 [frame 10 20] ++ window 0 2 [frame 20 30]
    ++ .takeOver 2 :: List.replicate 68 (.advance 1 .answered) ++ .resume 1
    :: window 1 0 [frame 0 15] ++ .work 1 0 .answered :: walkOne 0 ++ walkOne 0

theorem lineages_separate_replaced :
    ∃ s x, run (next oneBucket) empty fencedAndReplaced = some s ∧ x ∈ (s.readers 0).path
      ∧ x.header.seq = 2 ∧ s.store.Sealed .standard 1
      ∧ ∃ l, s.lineages[1]? = some (some l) ∧ x ∈ l.windows
        ∧ ¬ (l.sealedSeq < 1 ∧ 1 < x.header.seq) := by
  have hm : Meets (next oneBucket) (fun s l => s.Allowed oneBucket l) empty
      (fencedAndReplaced ++ []) := by decide +kernel
  have hrun : ((run (next oneBucket) empty fencedAndReplaced).any fun s =>
      (s.readers 0).path.any fun x => decide (x.header.seq = 2 ∧ s.store.Sealed .standard 1)
        && (s.lineages[1]?).any fun o => o.any fun l => decide (x ∈ l.windows)) = true := by
    decide +kernel
  obtain ⟨s, hs, hrun⟩ := Option.any_eq_true _ _ |>.mp hrun
  obtain ⟨x, hx, hrun⟩ := List.any_eq_true.mp hrun
  obtain ⟨hseal, hrun⟩ := (Bool.and_eq_true _ _).mp hrun
  obtain ⟨o, ho, hrun⟩ := Option.any_eq_true _ _ |>.mp hrun
  obtain ⟨l, rfl, hl⟩ := Option.any_eq_true _ _ |>.mp hrun
  have hseal := of_decide_eq_true hseal
  have hcrc : ∀ bs, oneBucket.sequencer.crc32c bs < 2 ^ 32 := fun bs => UInt32.toNat_lt _
  exact ⟨s, x, hs, hx, hseal.1, hseal.2, l, ho, of_decide_eq_true hl,
    lineages_separate hcrc hm hs rfl hx ho (of_decide_eq_true hl) hseal.2⟩

/-- The same, but node 1 lands in one window the frames of node 0's first
two, whose digest is that of the second; then node 0's third window lands
late. -/
def fencedAndResent : List RunStep :=
  .start :: window 0 0 [frame 0 10] ++ window 0 1 [frame 10 20] ++ window 0 2 [frame 20 30]
    ++ .takeOver 2 :: List.replicate 68 (.advance 1 .answered) ++ .resume 1
    :: window 1 0 [frame 0 10, frame 10 20] ++ .work 1 0 .answered :: .work 0 2 .answered
    :: walkOne 0 ++ walkOne 0 ++ walkOne 0

theorem fenced_window_delivered :
    ∃ s x l, run (next oneBucket) empty fencedAndResent = some s ∧ x ∈ (s.readers 0).path
      ∧ s.lineages[0]? = some (some l) ∧ x ∈ l.windows ∧ s.store.Sealed .standard 1
      ∧ l.sealedSeq < 1 ∧ 1 < x.header.seq := by
  have hrun : ((run (next oneBucket) empty fencedAndResent).any fun s =>
      (s.readers 0).path.any fun x => (s.lineages[0]?).any fun o => o.any fun l =>
        decide (x ∈ l.windows ∧ s.store.Sealed .standard 1 ∧ l.sealedSeq < 1
          ∧ 1 < x.header.seq)) = true := by
    decide +kernel
  obtain ⟨s, hs, hrun⟩ := Option.any_eq_true _ _ |>.mp hrun
  obtain ⟨x, hx, hrun⟩ := List.any_eq_true.mp hrun
  obtain ⟨o, ho, hrun⟩ := Option.any_eq_true _ _ |>.mp hrun
  obtain ⟨l, rfl, hl⟩ := Option.any_eq_true _ _ |>.mp hrun
  obtain ⟨hw, hseal, hlo, hhi⟩ := of_decide_eq_true hl
  exact ⟨s, x, l, hs, hx, ho, hw, hseal, hlo, hhi⟩

end ShardRuns

end Wal

end Zou
