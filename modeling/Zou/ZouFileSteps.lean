import Mathlib.Data.List.Perm.Subperm
import Zou.ZouFileSafety

/-!
# Steps of the single file store

Every step whose lengths fit the fields of a frame leaves files that stand
for a store: the store is open and sound, or the files hold one up to a tail
that does not check. The lengths fit along any run of 32768 steps whose keys
and objects fit theirs.
-/

namespace Zou

open Bytes Trace FileCodec

/-- The version an event hands out. -/
def FileEvent.version : FileEvent → Option Nat
  | .put _ _ v => some v
  | .delete _ => none

namespace ZouFile

variable {c : FileCodec}

/-- A write whose lengths fit. A delete writes a key that is there. -/
def WriteOk (inner : FileInner) : FileWrite → Prop
  | .put key data => WriteFits inner key (some data)
  | .delete _ => inner.seq + 1 < 2 ^ 64

/-- A step whose lengths fit what they are written to. -/
def Allowed (c : FileCodec) (s : ZouFile) : FileStep → Prop
  | .put key data | .putIfMatch key data _ =>
    ∀ inner, s.inner = some inner → WriteOk inner (.put key data)
  | .delete key => ∀ inner, s.inner = some inner → WriteOk inner (.delete key)
  | .stopWrite w _ => ∀ inner, s.inner = some inner → WriteOk inner w
  | .compact | .stopCompact _ => ∀ inner, s.inner = some inner → CompactFits c inner
  | .open | .stopOpen _ => ∀ inner, scanned c s = .ok inner → needsCompact inner → CompactFits c inner
  | .close => True

/-- The state stands for a store: one that is open, or one that the files
hold up to a tail that does not check. -/
structure Stands (c : FileCodec) (s : ZouFile) (inner : FileInner) : Prop where
  sound : Sound c inner s.done
  files : match s.inner with
    | some i => i = inner ∧ s.main = some inner.file ∧ s.tmp = none
    | none => ∃ torn sc, adopted s.main s.tmp = inner.file ++ torn
        ∧ c.scanFrom inner.file headerLen Scan.new = (sc, inner.file.length)
        ∧ c.scanFrom (inner.file ++ torn) headerLen Scan.new = (sc, inner.file.length)

/-! ## Opening -/

theorem checkHeader_ok (rest : List UInt8) : checkHeader (fileHeader ++ rest) = .ok () := by
  have hmagic : slice (fileHeader ++ rest) 0 4 = fileMagic := by
    rw [fileHeader, List.append_assoc, List.append_assoc]
    exact slice_head rfl
  have hformat : ofLe (slice (fileHeader ++ rest) 4 4) = fileFormat := by
    rw [fileHeader, List.append_assoc, List.append_assoc, slice_skip (by decide)]
    exact congrArg ofLe slice_le_head
  have hlen : ¬ (fileHeader ++ rest).length < headerLen := by
    rw [List.length_append, length_fileHeader]
    omega
  rw [checkHeader, if_neg hlen, if_neg (not_not.mpr hmagic), hformat, if_neg (lt_irrefl _),
    if_neg (lt_irrefl _)]

theorem adopted_main {file : List UInt8} (h : file ≠ []) (tmp : Option (List UInt8)) :
    adopted (some file) tmp = file := if_neg h

theorem adopted_tmp {file : List UInt8} (h : file ≠ []) : adopted none (some file) = file := if_neg h

variable {s : ZouFile} {inner : FileInner}

theorem Stands.scanned (h : Stands c s inner) (hin : s.inner = none) :
    ∃ inner', scanned c s = .ok inner' ∧ Sound c inner' s.done ∧ inner'.file = inner.file
      ∧ (inner'.seq = inner.seq ∨ (inner.file = fileHeader ∧ inner'.seq = 0
        ∧ c.parseFrame (adopted s.main s.tmp) headerLen = none)) := by
  have hfiles := h.files
  rw [hin] at hfiles
  obtain ⟨torn, sc, hadopt, hscan, htorn⟩ := hfiles
  obtain ⟨rest, hrest⟩ := h.sound.headed
  have hmin : min headerLen (adopted s.main s.tmp).length = headerLen := by
    rw [hadopt, hrest, List.length_append, List.length_append, length_fileHeader]
    omega
  have hresult : c.scan (adopted s.main s.tmp)
      = ⟨inner.file, sc.index, sc.seq, inner.file.length, sc.live, sc.dead⟩ := by
    rw [FileCodec.scan, hmin, hadopt, htorn]
    dsimp only
    rw [List.take_left]
  obtain ⟨sc', hscan', hindex, hseq⟩ := h.sound.scanned
  obtain rfl : sc' = sc := by
    rw [hscan] at hscan'
    exact (congrArg Prod.fst hscan').symm
  refine ⟨c.scan (adopted s.main s.tmp), ?_, ?_, by rw [hresult], ?_⟩
  · rw [ZouFile.scanned, hadopt, hrest, List.append_assoc, checkHeader_ok]
    rfl
  · rw [hresult]
    refine ⟨⟨rest, hrest⟩, rfl, ⟨sc', hscan, fun _ => rfl, .inl rfl⟩, ?_⟩
    intro key
    have hk := h.sound.answers key
    rw [← hindex key] at hk
    exact hk
  · rw [hresult]
    refine hseq.imp_right fun ⟨hheader, hzero⟩ => ⟨hheader, hzero, ?_⟩
    -- the scan stopped at the end of the header, so nothing checks there
    cases hp : c.parseFrame (adopted s.main s.tmp) headerLen with
    | none => rfl
    | some p =>
      have hstop := htorn
      have hwhole := (parseFrame_eq_some.mp hp).whole
      have hbase := (parseFrame_eq_some.mp hp).base
      have hfin := (parseFrame_eq_some.mp hp).fin
      rw [hadopt] at hp hwhole
      rw [scanFrom, if_neg (by omega)] at hstop
      split at hstop
      · rename_i hnone
        rw [hp] at hnone
        cases hnone
      · have hmono := scanFrom_le (c := c) (inner.file ++ torn) p.fin (Scan.new.frame p)
        rename_i p' hp'
        rw [hp] at hp'
        cases hp'
        rw [hstop] at hmono
        have hlen : inner.file.length = headerLen := by rw [hheader, length_fileHeader]
        have := c.lt_fin hp
        omega

/-! ## Writing -/

/-- What a write of a frame leaves, and what it leaves when it stops before
the frame is whole. -/
structure Wrote (c : FileCodec) (inner : FileInner) (done : List FileEvent) (inner' : FileInner)
    (event : FileEvent) : Prop where
  sound : Sound c inner' (event :: done)
  seq : inner'.seq = inner.seq + 1
  version : ∀ v, event.version = some v → v = inner.seq + 1
  file : ∃ frame, inner'.file = inner.file ++ frame ∧ ∀ cut, cut < frame.length →
    ∀ sc, c.scanFrom inner.file headerLen Scan.new = (sc, inner.file.length) →
      c.scanFrom (inner.file ++ frame.take cut) headerLen Scan.new = (sc, inner.file.length)

variable {done : List FileEvent}

theorem wrote_append (hc : c.Lawful)
    (hs : Sound c inner done) {key : String} {op : UInt8} {data : Option (List UInt8)}
    (h : WriteFits inner key data) {event : FileEvent}
    (hother : ∀ key', key' ≠ key → objectsAfter (event :: done) key' = objectsAfter done key')
    (hself : if op = opPut then ∃ d, data = some d
        ∧ objectsAfter (event :: done) key = some (d, inner.seq + 1)
      else objectsAfter (event :: done) key = none)
    (hversion : ∀ v, event.version = some v → v = inner.seq + 1) :
    Wrote c inner done (c.append inner key op data).1 event := by
  obtain ⟨hfile, -, hseq, -, -⟩ := append_parts (c := c) inner key op data hs.fin
  refine ⟨hs.append hc h hother hself, hseq, hversion, c.frameOf inner key op data, hfile, ?_⟩
  intro cut hcut sc hscan
  rw [scanFrom_append _ hscan]
  exact scanFrom_torn (entryOf_fits hc h).toHeadFits inner.file inner.fin cut hcut sc

theorem wrote_put (hc : c.Lawful) (hs : Sound c inner done) {key : String} {data : List UInt8}
    (h : WriteFits inner key (some data)) :
    Wrote c inner done (c.put inner key data).1 (.put key data (c.put inner key data).2) := by
  have hver : (c.put inner key data).2 = inner.seq + 1 :=
    (append_parts inner key opPut (some data) hs.fin).2.2.2.2
  refine wrote_append hc hs h ?_ ?_ ?_
  · intro key' hne
    rw [objectsAfter, if_neg hne]
  · rw [if_pos rfl, objectsAfter, if_pos rfl, hver]
    exact ⟨data, rfl, rfl⟩
  · rintro v ⟨⟩
    exact hver

/-- A write does one of two things: it appends the frame of one event, or,
a delete of what is not there, nothing. -/
theorem write_cases (hc : c.Lawful)
    (hs : Sound c inner done) {w : FileWrite} (h : WriteOk inner w) :
    (∃ event, (write c inner w).2 = some event ∧ Wrote c inner done (write c inner w).1 event)
      ∨ ((write c inner w).2 = none ∧ (write c inner w).1 = inner) := by
  cases w with
  | put key data => exact .inl ⟨_, rfl, wrote_put hc hs h⟩
  | delete key =>
    show (∃ event, (if (inner.index.get? key).isSome then some (.delete key) else none) = some event
        ∧ Wrote c inner done (c.delete inner key) event)
      ∨ ((if (inner.index.get? key).isSome then some (FileEvent.delete key) else none) = none
        ∧ c.delete inner key = inner)
    unfold FileCodec.delete
    have hk := hs.answers key
    cases hg : inner.index.get? key with
    | none => exact .inr ⟨rfl, rfl⟩
    | some e =>
      rw [hg] at hk
      have hfits : WriteFits inner key none := ⟨hk.1, (fun _ h => nomatch h), h⟩
      refine .inl ⟨.delete key, rfl, wrote_append hc hs hfits ?_ ?_ ?_⟩
      · intro key' hne
        rw [objectsAfter, if_neg hne]
      · rw [if_neg (by decide), objectsAfter, if_pos rfl]
      · rintro v ⟨⟩

/-! ## Steps -/

/-- What a step does to the history and to the counter of a store. -/
inductive Effect (c : FileCodec) (s s' : ZouFile) (inner inner' : FileInner) : Prop where
  | same (done : s'.done = s.done) (seq : inner'.seq = inner.seq)
  | wrote (event : FileEvent) (done : s'.done = event :: s.done) (seq : inner'.seq = inner.seq + 1)
      (version : ∀ v, event.version = some v → v = inner.seq + 1)
  | reset (done : s'.done = s.done) (closed : s.inner = none) (seq : inner'.seq = 0)
      (frameless : c.parseFrame (adopted s.main s.tmp) headerLen = none)

theorem stands_holding
    (h : Sound c inner done) : Stands c (s.holding inner done) inner := ⟨h, rfl, rfl, rfl⟩

/-- Files without an open store, the tail of which does not check. -/
theorem stands_closed (h : Sound c inner s.done)
    (hin : s.inner = none) (torn : List UInt8) (hadopt : adopted s.main s.tmp = inner.file ++ torn)
    (htorn : ∀ sc, c.scanFrom inner.file headerLen Scan.new = (sc, inner.file.length) →
      c.scanFrom (inner.file ++ torn) headerLen Scan.new = (sc, inner.file.length)) :
    Stands c s inner := by
  obtain ⟨sc, hscan, -, -⟩ := h.scanned
  refine ⟨h, ?_⟩
  rw [hin]
  exact ⟨torn, sc, hadopt, hscan, htorn sc hscan⟩

theorem stands_whole (h : Sound c inner s.done)
    (hin : s.inner = none) (hadopt : adopted s.main s.tmp = inner.file) : Stands c s inner := by
  refine stands_closed h hin [] (by rw [hadopt, List.append_nil]) ?_
  intro sc hscan
  rw [List.append_nil]
  exact hscan

theorem stands_stopCompact (hc : c.Lawful)
    (h : Sound c inner s.done) (hf : CompactFits c inner) (at_ : CompactStop) :
    ∃ inner', Stands c (stopCompact c s inner at_) inner' ∧ inner'.seq = inner.seq := by
  have hcomp := h.compact hc hf
  have hfile : (c.compacted inner).1 ≠ [] := hcomp.nonempty
  cases at_ with
  | writing cut => exact ⟨inner, stands_whole h rfl (adopted_main h.nonempty _), rfl⟩
  | removed => exact ⟨c.compact inner, stands_whole hcomp rfl (adopted_tmp hfile), rfl⟩
  | renamed => exact ⟨c.compact inner, stands_whole hcomp rfl (adopted_main hfile _), rfl⟩

theorem stands_stopWrite (hc : c.Lawful) (h : Sound c inner s.done) {w : FileWrite}
    (hw : WriteOk inner w) (cut : Nat) : ∃ inner', Stands c (stopWrite c s inner w cut) inner'
      ∧ Effect c s (stopWrite c s inner w cut) inner inner' := by
  rcases write_cases hc h hw with ⟨event, hev, hwrote⟩ | ⟨hev, hsame⟩
  · obtain ⟨frame, hfile, htorn⟩ := hwrote.file
    by_cases hcut : cut < frame.length
    · have hdone : (stopWrite c s inner w cut).done = s.done := by
        show (if (write c inner w).1.file.length ≤ inner.fin + cut then _ else _) = _
        rw [hfile, h.fin, List.length_append, if_neg (by omega)]
      have hmain : (stopWrite c s inner w cut).main = some (inner.file ++ frame.take cut) := by
        show some ((write c inner w).1.file.take (inner.fin + cut)) = _
        rw [hfile, h.fin, List.take_append, List.take_of_length_le (by omega),
          Nat.add_sub_cancel_left]
      refine ⟨inner, stands_closed (hdone ▸ h) rfl (frame.take cut) ?_ (htorn cut hcut), .same hdone rfl⟩
      rw [hmain]
      exact adopted_main (fun hnil => h.nonempty (List.append_eq_nil_iff.mp hnil).1) _
    · have hdone : (stopWrite c s inner w cut).done = event :: s.done := by
        show (if (write c inner w).1.file.length ≤ inner.fin + cut then _ else _) = _
        rw [hfile, h.fin, List.length_append, if_pos (by omega), hev]
        rfl
      have hmain : (stopWrite c s inner w cut).main = some (write c inner w).1.file := by
        show some ((write c inner w).1.file.take (inner.fin + cut)) = _
        rw [hfile, h.fin, List.take_of_length_le (by rw [List.length_append]; omega)]
      refine ⟨(write c inner w).1, stands_whole (hdone ▸ hwrote.sound) rfl ?_,
        .wrote event hdone hwrote.seq hwrote.version⟩
      rw [hmain]
      exact adopted_main hwrote.sound.nonempty _
  · have hdone : (stopWrite c s inner w cut).done = s.done := by
      show (if (write c inner w).1.file.length ≤ inner.fin + cut then _ else _) = _
      rw [hev]
      split <;> rfl
    have hmain : (stopWrite c s inner w cut).main = some inner.file := by
      show some ((write c inner w).1.file.take (inner.fin + cut)) = _
      rw [hsame, h.fin, List.take_of_length_le (by omega)]
    refine ⟨inner, stands_whole (hdone ▸ h) rfl ?_, .same hdone rfl⟩
    rw [hmain]
    exact adopted_main h.nonempty _

theorem stands_write (hc : c.Lawful)
    (h : Sound c inner s.done) {w : FileWrite} (hw : WriteOk inner w) :
    ∃ inner', Stands c (s.holding (write c inner w).1 ((write c inner w).2.toList ++ s.done)) inner'
      ∧ Effect c s (s.holding (write c inner w).1 ((write c inner w).2.toList ++ s.done)) inner
        inner' := by
  rcases write_cases hc h hw with ⟨event, hev, hwrote⟩ | ⟨hev, hsame⟩
  · rw [hev]
    exact ⟨_, stands_holding hwrote.sound, .wrote event rfl hwrote.seq hwrote.version⟩
  · rw [hev, hsame]
    exact ⟨_, stands_holding h, .same rfl rfl⟩

theorem next_open {i : FileInner} (hin : s.inner = none) (hs : scanned c s = .ok i) : next c s .open
      = some (s.holding (if needsCompact i then c.compact i else i) s.done) := by
  simp only [next, hin, hs]

theorem next_stopOpen {i : FileInner} {at_ : CompactStop} (hin : s.inner = none)
    (hs : scanned c s = .ok i) : next c s (.stopOpen at_)
      = if needsCompact i then some (stopCompact c s i at_) else none := by
  simp only [next, hin, hs]

/-- One step of a store whose lengths fit. -/
theorem next_stands (hc : c.Lawful) {s' : ZouFile} (h : Stands c s inner)
    {l : FileStep} (hok : Allowed c s l) (hn : next c s l = some s') :
    ∃ inner', Stands c s' inner' ∧ Effect c s s' inner inner' := by
  cases hin : s.inner with
  | some i =>
    have hfiles := h.files
    rw [hin] at hfiles
    obtain ⟨rfl, hmain, htmp⟩ := hfiles
    unfold next at hn
    rw [hin] at hn
    cases l with
    | put key data =>
      cases hn
      exact stands_write hc h.sound (hok i hin)
    | putIfMatch key data expected =>
      dsimp only at hn
      rw [FileCodec.putIfMatch] at hn
      split at hn
      · rename_i hmatch
        split at hmatch
        · cases hmatch
        · cases hn
          exact ⟨i, h, .same rfl rfl⟩
      · rename_i inner' version hmatch
        split at hmatch
        · cases hmatch
          cases hn
          have hwrote := wrote_put hc h.sound (hok i hin)
          exact ⟨_, stands_holding hwrote.sound, .wrote _ rfl hwrote.seq hwrote.version⟩
        · cases hmatch
    | delete key =>
      cases hn
      exact stands_write hc h.sound (hok i hin)
    | compact =>
      cases hn
      exact ⟨_, stands_holding (h.sound.compact hc (hok i hin)), .same rfl rfl⟩
    | close =>
      cases hn
      refine ⟨i, stands_whole h.sound rfl ?_, .same rfl rfl⟩
      show adopted s.main s.tmp = i.file
      rw [hmain]
      exact adopted_main h.sound.nonempty _
    | «open» => cases hn
    | stopWrite w cut =>
      cases hn
      exact stands_stopWrite hc h.sound (hok i hin) cut
    | stopCompact at_ =>
      cases hn
      obtain ⟨inner', hst, hseq⟩ := stands_stopCompact hc h.sound (hok i hin) at_
      exact ⟨inner', hst, .same (by cases at_ <;> rfl) hseq⟩
    | stopOpen at_ => cases hn
  | none =>
    obtain ⟨i, hscan, hs, hfile, hseq⟩ := h.scanned hin
    have heffect : ∀ {s'' : ZouFile} {i' : FileInner}, s''.done = s.done → i'.seq = i.seq →
        Effect c s s'' inner i' := by
      intro s'' i' hdone hi
      rcases hseq with hseq | ⟨-, hzero, hnone⟩
      · exact .same hdone (hi.trans hseq)
      · exact .reset hdone hin (hi.trans hzero) hnone
    cases l with
    | «open» =>
      rw [next_open hin hscan] at hn
      cases hn
      by_cases hneed : needsCompact i
      · rw [if_pos hneed]
        exact ⟨_, stands_holding (hs.compact hc (hok i hscan hneed)), heffect rfl rfl⟩
      · rw [if_neg hneed]
        exact ⟨_, stands_holding hs, heffect rfl rfl⟩
    | stopOpen at_ =>
      rw [next_stopOpen hin hscan] at hn
      by_cases hneed : needsCompact i
      · rw [if_pos hneed] at hn
        cases hn
        obtain ⟨inner', hst, hi⟩ := stands_stopCompact hc hs (hok i hscan hneed) at_
        exact ⟨inner', hst, heffect (by cases at_ <;> rfl) hi⟩
      · rw [if_neg hneed] at hn
        cases hn
    | put key data =>
      simp only [next, hin, reduceCtorEq] at hn
    | putIfMatch key data expected =>
      simp only [next, hin, reduceCtorEq] at hn
    | delete key =>
      simp only [next, hin, reduceCtorEq] at hn
    | compact =>
      simp only [next, hin, reduceCtorEq] at hn
    | close =>
      simp only [next, hin, reduceCtorEq] at hn
    | stopWrite w cut =>
      simp only [next, hin, reduceCtorEq] at hn
    | stopCompact at_ =>
      simp only [next, hin, reduceCtorEq] at hn

theorem stands_fresh : Stands c fresh ⟨fileHeader, OrdMap.empty, 0, headerLen, 0, 0⟩ := by
  have hs : Sound c ⟨fileHeader, OrdMap.empty, 0, headerLen, 0, 0⟩ [] :=
    ⟨⟨[], rfl⟩, rfl, ⟨Scan.new, scanFrom_fileHeader, fun _ => rfl, .inl rfl⟩, fun _ => rfl⟩
  exact stands_whole hs rfl rfl

theorem run_stands (hc : c.Lawful) {ls : List FileStep} (hm : Meets (next c) (Allowed c) fresh ls)
    (hr : run (next c) fresh ls = some s) : ∃ inner, Stands c s inner := by
  have hstep : ∀ s l s', (∃ inner, Stands c s inner) → Allowed c s l → next c s l = some s' →
      ∃ inner, Stands c s' inner := by
    rintro s l s' ⟨inner, h⟩ hok hn
    obtain ⟨inner', h', -⟩ := next_stands hc h hok hn
    exact ⟨inner', h'⟩
  exact guarded_invariant hstep ⟨_, stands_fresh⟩ hm hr

/-! ## Short runs -/

theorem objectsAfter_mem {key : String} {data : List UInt8} {v : Nat}
    (h : objectsAfter done key = some (data, v)) : FileEvent.put key data v ∈ done := by
  induction done with
  | nil => cases h
  | cons e done ih =>
    cases e with
    | put k d w =>
      rw [objectsAfter] at h
      split at h
      · rename_i hk
        subst hk
        cases h
        exact List.mem_cons_self
      · exact .tail _ (ih h)
    | delete k =>
      rw [objectsAfter] at h
      split at h
      · cases h
      · exact .tail _ (ih h)

def FileEvent.key : FileEvent → String
  | .put key _ _ | .delete key => key

/-- What is in the index was put at some time. -/
theorem answers_length_le {file : List UInt8} {index : OrdMap String FileEntry}
    (h : FileCodec.Answers c file index done) : index.entries.length ≤ done.length := by
  have hnodup : (index.entries.map Prod.fst).Nodup :=
    List.pairwise_map.mpr (index.sorted.imp fun hlt => ne_of_lt hlt)
  have hsub : index.entries.map Prod.fst ⊆ done.map FileEvent.key := by
    intro key hkey
    obtain ⟨p, hp, rfl⟩ := List.mem_map.mp hkey
    have hk := h p.1
    rw [OrdMap.get?_eq_some.mpr hp] at hk
    obtain ⟨-, data, hobj, -⟩ := hk
    exact List.mem_map.mpr ⟨_, objectsAfter_mem hobj, rfl⟩
  have hle := (List.Nodup.subperm hnodup hsub).length_le
  rwa [List.length_map, List.length_map] at hle

theorem length_flatMap_le {α : Type} {f : α → List UInt8} {n : Nat} {xs : List α}
    (h : ∀ x ∈ xs, (f x).length ≤ n) : (xs.flatMap f).length ≤ xs.length * n := by
  induction xs with
  | nil => exact Nat.zero_le _
  | cons x xs ih =>
    have hx := h x List.mem_cons_self
    have hxs := ih fun y hy => h y (.tail _ hy)
    rw [List.flatMap_cons, List.length_append, List.length_cons, Nat.succ_mul]
    omega

theorem compactFits_short (hc : c.Lawful) (h : Sound c inner done) (hseq : inner.seq ≤ 2 ^ 15)
    (hdone : done.length ≤ 2 ^ 15) : CompactFits c inner := by
  have hcount : (liveEntries inner).length ≤ 2 ^ 15 := by
    rw [liveEntries_eq, List.length_map]
    exact (answers_length_le h.answers).trans hdone
  have hentry : ∀ e ∈ liveEntries inner,
      (utf8 e.key).length < 2 ^ 16 ∧ e.stored.length < 2 ^ 32 := by
    intro e he
    obtain ⟨p, hp, rfl⟩ := List.mem_map.mp he
    have hk := h.answers p.1
    rw [OrdMap.get?_eq_some.mpr hp] at hk
    obtain ⟨hlen, data, -, hheld⟩ := hk
    refine ⟨hlen, ?_⟩
    show (slice inner.file p.2.offset p.2.storedLen).length < 2 ^ 32
    rw [length_slice hheld.within]
    exact hheld.storedLen
  have hkeys : (keysRaw (liveEntries inner)).length ≤ (liveEntries inner).length * (2 + 2 ^ 16) := by
    refine length_flatMap_le fun e he => ?_
    have := (hentry e he).1
    rw [List.length_append, length_le]
    omega
  have hdata : (dataOf (liveEntries inner)).length ≤ (liveEntries inner).length * 2 ^ 32 :=
    length_flatMap_le fun e he => (hentry e he).2.le
  have hcomp := hc.compress_length (keysRaw (liveEntries inner))
  exact ⟨by omega, by simp only [metaRecordLen]; omega, by omega, by omega, by omega⟩

/-- A key and an object that fit their fields. -/
def Modest : FileStep → Prop
  | .put key data | .putIfMatch key data _ | .stopWrite (.put key data) _ =>
    (utf8 key).length < 2 ^ 16 ∧ data.length < 2 ^ 32
  | _ => True

theorem allowed_short (hc : c.Lawful) (h : Stands c s inner) (hseq : inner.seq ≤ 2 ^ 15)
    (hdone : s.done.length ≤ 2 ^ 15) {l : FileStep} (hl : Modest l) : Allowed c s l := by
  have hopen : ∀ i, s.inner = some i → i = inner := by
    intro i hi
    have hfiles := h.files
    rw [hi] at hfiles
    exact hfiles.1
  have hwrite : ∀ {key : String} {data : List UInt8},
      (utf8 key).length < 2 ^ 16 ∧ data.length < 2 ^ 32 →
        ∀ i, s.inner = some i → WriteFits i key (some data) := by
    rintro key data ⟨hkey, hlen⟩ i hi
    obtain rfl := hopen i hi
    refine ⟨hkey, ?_, by omega⟩
    rintro d ⟨⟩
    exact hlen
  have hdelete : ∀ i, s.inner = some i → i.seq + 1 < 2 ^ 64 := by
    intro i hi
    obtain rfl := hopen i hi
    omega
  have hcompact : ∀ i, s.inner = some i → CompactFits c i := by
    intro i hi
    obtain rfl := hopen i hi
    exact compactFits_short hc h.sound hseq hdone
  have hscan : ∀ i, scanned c s = .ok i → CompactFits c i := by
    -- an open of an open store would read the same files
    have hclosed : Stands c { s with inner := none } inner := by
      cases hin : s.inner with
      | none =>
        have hself : { s with inner := none } = s := by rw [← hin]
        rw [hself]
        exact h
      | some i =>
        have hfiles := h.files
        rw [hin] at hfiles
        refine stands_whole h.sound rfl ?_
        rw [hfiles.2.1]
        exact adopted_main h.sound.nonempty _
    intro i hi
    obtain ⟨i', hi', hs, -, hseq'⟩ := hclosed.scanned rfl
    cases hi.symm.trans hi'
    refine compactFits_short hc hs ?_ hdone
    rcases hseq' with hseq' | ⟨-, hzero, -⟩ <;> omega
  cases l with
  | put key data => exact hwrite hl
  | putIfMatch key data expected => exact hwrite hl
  | delete key => exact hdelete
  | compact => exact hcompact
  | close => trivial
  | «open» => exact fun i hi _ => hscan i hi
  | stopWrite w cut =>
    cases w with
    | put key data => exact hwrite hl
    | delete key => exact hdelete
  | stopCompact at_ => exact hcompact
  | stopOpen at_ => exact fun i hi _ => hscan i hi

/-- Lengths fit along every run of so few steps. -/
theorem meets_short (hc : c.Lawful) {ls : List FileStep} (hlen : ls.length ≤ 2 ^ 15)
    (hls : ∀ l ∈ ls, Modest l) : Meets (next c) (Allowed c) fresh ls := by
  have hrun : ∀ (ls : List FileStep) (s : ZouFile) (inner : FileInner), Stands c s inner →
      inner.seq + ls.length ≤ 2 ^ 15 → s.done.length + ls.length ≤ 2 ^ 15 →
      (∀ l ∈ ls, Modest l) → Meets (next c) (Allowed c) s ls := by
    intro ls
    induction ls with
    | nil => exact fun _ _ _ _ _ _ => trivial
    | cons l ls ih =>
      intro s inner h hseq hdone hls
      rw [List.length_cons] at hseq hdone
      have hok := allowed_short hc h (by omega) (by omega) (hls l List.mem_cons_self)
      refine ⟨hok, fun s' hn => ?_⟩
      obtain ⟨inner', h', heffect⟩ := next_stands hc h hok hn
      refine ih s' inner' h' ?_ ?_ fun l' hl' => hls l' (.tail _ hl')
      · cases heffect <;> omega
      · cases heffect with
        | same done seq =>
          rw [done]
          omega
        | wrote event done seq version =>
          rw [done, List.length_cons]
          omega
        | reset done closed seq frameless =>
          rw [done]
          omega
  exact hrun ls fresh _ stands_fresh (by simpa using hlen) (by simpa [fresh] using hlen) hls

end ZouFile

end Zou
