import Zou.Lib.Packing
import Zou.ZouFileSteps

/-!
# Runs of the single file store

What a process finds when it opens the file again, after any sequence of
operations, compactions, crashes and reopens whose lengths fit the fields
of a frame.
-/

open Packing

namespace Zou

open Bytes Trace FileCodec

namespace ZouFile

variable {c : FileCodec}

/-- After any run whose lengths fit, an open store answers with what the
operations that are done leave, and a store that is not open opens to one
that does. -/
theorem zou_file_recovers (hc : c.Lawful) {ls : List FileStep} {s : ZouFile}
    (hm : Meets (next c) (Allowed c) fresh ls) (hr : run (next c) fresh ls = some s) :
    (∀ inner, s.inner = some inner → ∀ key, c.get inner key = .ok (objectsAfter s.done key))
      ∧ (s.inner = none → Allowed c s .open → ∃ s' inner, next c s .open = some s'
        ∧ s'.inner = some inner ∧ ∀ key, c.get inner key = .ok (objectsAfter s.done key)) := by
  obtain ⟨inner, h⟩ := run_stands hc hm hr
  constructor
  · intro i hi key
    have hfiles := h.files
    rw [hi] at hfiles
    obtain ⟨rfl, -, -⟩ := hfiles
    exact h.sound.answers.get key
  · intro hin hok
    obtain ⟨i, hscan, hs, -, -⟩ := h.scanned hin
    refine ⟨s.holding (if needsCompact i then c.compact i else i) s.done, _, ?_, rfl, ?_⟩
    · exact next_open hin hscan
    · intro key
      split
      · rename_i hneed
        exact (hs.compact hc (hok i hscan hneed)).answers.get key
      · exact hs.answers.get key

/-! ## Two stores -/

/-- The libraries on short inputs. -/
def literalCodec : FileCodec where
  compress := literalBlock
  decompress := literals
  crc := crc32c

theorem literalCodec_lawful : literalCodec.Lawful := by
  constructor
  · exact literals_literalBlock
  · intro x
    show (literalBlock x).length ≤ _
    rw [literalBlock, List.length_append]
    split
    · rw [List.length_singleton]
      omega
    · rw [List.length_cons, literalLen, List.length_append, List.length_replicate,
        List.length_singleton]
      omega

/-- A new store. -/
def newStore : FileInner := ⟨fileHeader, OrdMap.empty, 0, headerLen, 0, 0⟩

def opened : ZouFile := fresh.holding newStore []

theorem scan_fileHeader : c.scan fileHeader = newStore := by
  rw [FileCodec.scan, length_fileHeader, Nat.min_self, scanFrom_fileHeader]
  rfl

theorem scanned_fresh : scanned c fresh = .ok newStore := by
  show (checkHeader fileHeader).map (fun _ => c.scan fileHeader) = _
  have hcheck := checkHeader_ok []
  rw [List.append_nil] at hcheck
  rw [hcheck, scan_fileHeader]
  rfl

theorem next_fresh_open : next c fresh .open = some opened := by
  rw [next_open rfl scanned_fresh]
  rfl

/-- A run of allowed steps that ends with a history, in an open store or in
none. -/
structure Ends (c : FileCodec) (ls : List FileStep) (done : List FileEvent) (isOpen : Bool) :
    Prop where
  meets : Meets (next c) (Allowed c) fresh ls
  run : ∃ s, run (next c) fresh ls = some s ∧ s.done = done ∧ s.inner.isSome = isOpen

section

variable {ls : List FileStep} {done done' : List FileEvent} {isOpen isOpen' : Bool}

theorem Ends.step (h : Ends c ls done isOpen) {l : FileStep}
    (hm : Meets (next c) (Allowed c) fresh (ls ++ [l]))
    (hn : ∀ s inner, Stands c s inner → s.done = done → s.inner.isSome = isOpen → Allowed c s l →
      ∃ s', next c s l = some s' ∧ s'.done = done' ∧ s'.inner.isSome = isOpen')
    (hc : c.Lawful) : Ends c (ls ++ [l]) done' isOpen' := by
  obtain ⟨s, hr, hdone, hopen⟩ := h.run
  obtain ⟨inner, hstands⟩ := run_stands hc h.meets hr
  obtain ⟨s', hs', hdone', hopen'⟩ :=
    hn s inner hstands hdone hopen ((meets_append.mp hm).2 s hr).1
  refine ⟨hm, s', ?_, hdone', hopen'⟩
  rw [run_append, hr, Option.bind_some, run_cons, hs']
  rfl

variable {key : String}

theorem Ends.put (h : Ends c ls done true) {data : List UInt8}
    (hm : Meets (next c) (Allowed c) fresh (ls ++ [.put key data])) :
    ∃ v, Ends c (ls ++ [.put key data]) (.put key data v :: done) true := by
  obtain ⟨⟨main, tmp, i, done₀⟩, hr, rfl, hopen⟩ := h.run
  cases i with
  | none => cases hopen
  | some i =>
    refine ⟨(c.put i key data).2, hm, ZouFile.holding ⟨main, tmp, some i, done₀⟩ (c.put i key data).1
      (.put key data (c.put i key data).2 :: done₀), ?_, rfl, rfl⟩
    rw [run_append, hr, Option.bind_some]
    rfl

theorem Ends.delete (hc : c.Lawful) (h : Ends c ls done true)
    (hm : Meets (next c) (Allowed c) fresh (ls ++ [.delete key]))
    (hobj : objectsAfter done key ≠ none) :
    Ends c (ls ++ [.delete key]) (.delete key :: done) true := by
  refine h.step hm (fun s inner hstands hdone hopen _ => ?_) hc
  obtain ⟨main, tmp, i, done₀⟩ := s
  cases i with
  | none => cases hopen
  | some i =>
    obtain rfl : i = inner := hstands.files.1
    obtain rfl : done₀ = done := hdone
    have hk := hstands.sound.answers key
    cases hg : i.index.get? key with
    | none =>
      rw [hg] at hk
      exact absurd hk hobj
    | some e =>
      refine ⟨_, rfl, ?_, rfl⟩
      show (if (i.index.get? key).isSome then some (FileEvent.delete key) else none).toList
        ++ done₀ = _
      rw [hg]
      rfl

/-- A step that changes no history. -/
theorem Ends.quiet (hc : c.Lawful) (h : Ends c ls done true) {l : FileStep}
    (hm : Meets (next c) (Allowed c) fresh (ls ++ [l]))
    (hl : l = .compact ∧ isOpen' = true ∨ l = .close ∧ isOpen' = false
      ∨ l = .stopCompact .removed ∧ isOpen' = false) : Ends c (ls ++ [l]) done isOpen' := by
  refine h.step hm (fun s inner _ hdone hopen _ => ?_) hc
  obtain ⟨main, tmp, i, done₀⟩ := s
  cases i with
  | none => cases hopen
  | some i => rcases hl with ⟨rfl, rfl⟩ | ⟨rfl, rfl⟩ | ⟨rfl, rfl⟩ <;> exact ⟨_, rfl, hdone, rfl⟩

/-- A crash in the head of a frame loses the write. -/
theorem Ends.torn (hc : c.Lawful) (h : Ends c ls done true) {data : List UInt8}
    {cut : Nat} (hcut : cut < frameHeadLen)
    (hm : Meets (next c) (Allowed c) fresh (ls ++ [.stopWrite (.put key data) cut])) :
    Ends c (ls ++ [.stopWrite (.put key data) cut]) done false := by
  refine h.step hm (fun s inner hstands hdone hopen _ => ?_) hc
  obtain ⟨main, tmp, i, done₀⟩ := s
  cases i with
  | none => cases hopen
  | some i =>
    obtain rfl : i = inner := hstands.files.1
    have hfin := hstands.sound.fin
    obtain ⟨hfile, -⟩ := append_parts (c := c) i key opPut (some data) hfin
    have hlong : ¬ (c.put i key data).1.file.length ≤ i.fin + cut := by
      rw [FileCodec.put, hfile, List.length_append, frameOf, length_encodeFrame]
      omega
    exact ⟨_, rfl, (if_neg hlong).trans hdone, rfl⟩

theorem Ends.reopen (hc : c.Lawful) (h : Ends c ls done false)
    (hm : Meets (next c) (Allowed c) fresh (ls ++ [.open])) : Ends c (ls ++ [.open]) done true := by
  refine h.step hm (fun s inner hstands hdone hopen _ => ?_) hc
  cases hin : s.inner with
  | some i =>
    rw [hin] at hopen
    cases hopen
  | none =>
    obtain ⟨i, hscan, -⟩ := hstands.scanned hin
    exact ⟨_, next_open hin hscan, hdone, rfl⟩

theorem modest_take (hc : c.Lawful) {n : Nat} (hlen : ls.length ≤ 2 ^ 15)
    (hls : ∀ l ∈ ls, Modest l) : Meets (next c) (Allowed c) fresh (ls.take n) :=
  meets_short hc ((List.length_take_le' n ls).trans hlen) fun l hl => hls l (List.mem_of_mem_take hl)

theorem ends_put (hm : Meets (next c) (Allowed c) fresh [.open, .put "a" [1]]) :
    Ends c [.open, .put "a" [1]] [.put "a" [1] 1] true := by
  have hver : (c.put newStore "a" [1]).2 = 1 :=
    (append_parts newStore "a" opPut (some [1]) rfl).2.2.2.2
  refine ⟨hm, opened.holding (c.put newStore "a" [1]).1 [.put "a" [1] 1], ?_, rfl, rfl⟩
  rw [run_cons, next_fresh_open, ← hver]
  rfl

end

/-- Two objects, a torn write of the first and its next version, and a
compaction that stops with the old file removed. -/
def tornRun : List FileStep :=
  [.open, .put "a" [1], .put "b" [2], .stopWrite (.put "a" [9]) 5, .open, .put "a" [3],
    .stopCompact .removed, .open]

theorem tornRun_modest : ∀ l ∈ tornRun, Modest l := by
  simp [tornRun, Modest, utf8]
  decide

theorem zou_file_recovers_torn :
    ∃ s inner v w, run (next literalCodec) fresh tornRun = some s ∧ s.inner = some inner
      ∧ literalCodec.get inner "a" = .ok (some ([3], v))
      ∧ literalCodec.get inner "b" = .ok (some ([2], w)) := by
  have hc := literalCodec_lawful
  have hm := fun n => modest_take hc (n := n) (by decide) tornRun_modest
  have h₂ := ends_put (hm 2)
  obtain ⟨v, h₃⟩ := h₂.put (hm 3)
  have h₄ := h₃.torn hc (by decide) (hm 4)
  have h₅ := h₄.reopen hc (hm 5)
  obtain ⟨w, h₆⟩ := h₅.put (hm 6)
  have h₇ := h₆.quiet hc (hm 7) (.inr (.inr ⟨rfl, rfl⟩))
  obtain ⟨hmeets, s, hr, hdone, hopen⟩ := h₇.reopen hc (hm 8)
  obtain ⟨inner, hin⟩ := Option.isSome_iff_exists.mp hopen
  have hget := (zou_file_recovers hc hmeets hr).1 inner hin
  rw [hdone] at hget
  exact ⟨s, inner, w, v, hr, hin, hget "a", hget "b"⟩

/-! ## A key that is too long -/

theorem length_utf8_replicate (n : Nat) :
    (utf8 (String.ofList (List.replicate n 'a'))).length = n := by
  have hbytes : utf8 (String.ofList (List.replicate n 'a'))
      = (List.replicate n 'a').flatMap String.utf8EncodeChar := by
    rw [utf8, String.toByteArray_ofList, List.utf8Encode]
    simp
  have hone : (String.utf8EncodeChar 'a').length = 1 := by decide
  rw [hbytes]
  clear hbytes
  induction n with
  | zero => rfl
  | succ n ih => rw [List.replicate_succ, List.flatMap_cons, List.length_append, ih, hone, Nat.add_comm]

variable {key : String}

/-- The frame of the long key is whole and does not check, so opening the
store cuts it away. -/
theorem scan_longKey (hc : c.Lawful) (hlong : (utf8 key).length = 2 ^ 16) :
    c.scan (c.put newStore key []).1.file = newStore := by
  have hfile : (c.put newStore key []).1.file
      = fileHeader ++ c.frameOf newStore key opPut (some []) :=
    (append_parts newStore key opPut (some []) rfl).1
  have hcomp := hc.compress_length (keysRaw [c.entryOf 1 key opPut (some [])])
  have hkeys : (keysRaw [c.entryOf 1 key opPut (some [])]).length = 2 + 2 ^ 16 := by
    rw [keysRaw_cons, List.length_append, List.length_append]
    show 2 + ((utf8 key).length + 0) = _
    rw [hlong, Nat.add_zero]
  rw [hkeys] at hcomp
  have hvalue : (c.encodeValue []).2 = [] := by
    rw [encodeValue]
    split
    · rename_i h
      exact absurd h.1 (by decide)
    · rfl
  have hdata : dataOf [c.entryOf 1 key opPut (some [])] = [] := by
    rw [dataOf_cons]
    show (c.encodeValue []).2 ++ [] = []
    rw [hvalue]
    rfl
  have hfits : HeadFits c 1 [c.entryOf 1 key opPut (some [])] := by
    refine ⟨by decide, (by decide : 1 * metaRecordLen < 2 ^ 32), by omega, by omega, ?_⟩
    rw [hdata]
    decide
  have hnone := parseFrame_long hc hfits hlong.ge fileHeader headerLen
  have hlen : headerLen ≤ (c.put newStore key []).1.file.length := by
    rw [hfile, List.length_append, length_fileHeader]
    omega
  have hstop : c.scanFrom (c.put newStore key []).1.file headerLen Scan.new
      = (Scan.new, headerLen) := by
    rw [hfile, scanFrom]
    split
    · rfl
    · split
      · rfl
      · rename_i p hp
        exact absurd (hnone.symm.trans hp) (fun h => nomatch h)
  rw [FileCodec.scan, Nat.min_eq_left hlen, hstop]
  dsimp only
  rw [hfile]
  have htake : (fileHeader ++ c.frameOf newStore key opPut (some [])).take headerLen
      = fileHeader := List.take_left' length_fileHeader
  rw [htake]
  rfl

/-- A put of a key that is too long is done, and the store that is opened
again does not have it. -/
theorem run_longKey (hc : c.Lawful) (hlong : (utf8 key).length = 2 ^ 16) :
    ∃ s inner, run (next c) fresh [.open, .put key [], .close, .open] = some s
      ∧ s.inner = some inner ∧ objectsAfter s.done key = some ([], 1)
      ∧ c.get inner key = .ok none := by
  let inner₁ := (c.put newStore key []).1
  let s₁ : ZouFile := ⟨some inner₁.file, none, none, [.put key [] 1]⟩
  have hver : (c.put newStore key []).2 = 1 :=
    (append_parts newStore key opPut (some []) rfl).2.2.2.2
  have hrun₁ : run (next c) fresh [.open, .put key [], .close] = some s₁ := by
    show run (next c) fresh _ = some ⟨some inner₁.file, none, none, [.put key [] 1]⟩
    rw [run_cons, next_fresh_open, ← hver]
    rfl
  obtain ⟨rest, hrest⟩ : ∃ rest, inner₁.file = fileHeader ++ rest :=
    ⟨_, (append_parts newStore key opPut (some []) rfl).1⟩
  have hadopt : adopted (some inner₁.file) none = inner₁.file :=
    adopted_main (by rw [hrest]; exact fun h => nomatch (List.append_eq_nil_iff.mp h).1) none
  have hscan : scanned c s₁ = .ok newStore := by
    show (checkHeader (adopted (some inner₁.file) none)).map
      (fun _ => c.scan (adopted (some inner₁.file) none)) = _
    rw [hadopt, scan_longKey hc hlong, hrest, checkHeader_ok]
    rfl
  have hopen : next c s₁ .open = some (s₁.holding newStore s₁.done) := by
    rw [next_open rfl hscan]
    rfl
  have hsplit : run (next c) fresh ([.open, .put key [], .close] ++ [.open])
      = (run (next c) fresh [.open, .put key [], .close]).bind fun s => run (next c) s [.open] :=
    run_append
  rw [hrun₁, Option.bind_some, run_cons, hopen] at hsplit
  exact ⟨s₁.holding newStore s₁.done, newStore, hsplit, rfl, if_pos rfl, rfl⟩

def longKey : String := String.ofList (List.replicate (2 ^ 16) 'a')

theorem long_key_lost :
    ∃ s inner, run (next literalCodec) fresh [.open, .put longKey [], .close, .open] = some s
      ∧ s.inner = some inner ∧ objectsAfter s.done longKey = some ([], 1)
      ∧ literalCodec.get inner longKey = .ok none :=
  run_longKey literalCodec_lawful (length_utf8_replicate _)

/-! ## Versions -/

/-- A store is not opened on a file without a frame once it has handed out
versions. -/
def Numbered (c : FileCodec) (s : ZouFile) : FileStep → Prop
  | .open | .stopOpen _ => (∀ e ∈ s.done, e.version = none)
      ∨ (c.parseFrame (adopted s.main s.tmp) headerLen).isSome
  | _ => True

/-- Every version of a history is below the ones after it, and none is
above `seq`. -/
structure Ordered (done : List FileEvent) (seq : Nat) : Prop where
  below : ∀ e ∈ done, ∀ v, e.version = some v → v ≤ seq
  rising : done.Pairwise fun newer older =>
    ∀ v, newer.version = some v → ∀ v', older.version = some v' → v' < v

theorem Ordered.unversioned {done : List FileEvent} {seq seq' : Nat} (h : Ordered done seq)
    (hnone : ∀ e ∈ done, e.version = none) : Ordered done seq' := by
  refine ⟨fun e he v hv => ?_, h.rising⟩
  rw [hnone e he] at hv
  cases hv

theorem Ordered.cons {done : List FileEvent} {seq : Nat} (h : Ordered done seq) {event : FileEvent}
    (hv : ∀ v, event.version = some v → v = seq + 1) : Ordered (event :: done) (seq + 1) := by
  constructor
  · intro e he v hev
    rcases List.mem_cons.mp he with rfl | he
    · exact (hv v hev).le
    · exact (h.below e he v hev).trans (Nat.le_succ _)
  · refine List.pairwise_cons.mpr ⟨?_, h.rising⟩
    intro e he v hev v' hev'
    rw [hv v hev]
    exact Nat.lt_succ_of_le (h.below e he v' hev')

theorem Ordered.unique {done : List FileEvent} {seq : Nat} (h : Ordered done seq)
    {e e' : FileEvent} (he : e ∈ done) (he' : e' ∈ done) {v : Nat} (hv : e.version = some v)
    (hv' : e'.version = some v) : e = e' := by
  have hrising := h.rising
  clear h
  induction done with
  | nil => cases he
  | cons d done ih =>
    obtain ⟨hd, hrest⟩ := List.pairwise_cons.mp hrising
    rcases List.mem_cons.mp he with rfl | hin
    · rcases List.mem_cons.mp he' with rfl | hin'
      · rfl
      · exact absurd (hd e' hin' v hv v hv') (lt_irrefl _)
    · rcases List.mem_cons.mp he' with rfl | hin'
      · exact absurd (hd e hin v hv' v hv) (lt_irrefl _)
      · exact ih hin hin' hrest

/-- Along a run that never opens a frameless file after handing out
versions, a version is handed out for one content, and a swap that names a
version succeeds only over the object that has it. -/
theorem zou_versions_unique (hc : c.Lawful) {ls : List FileStep} {s : ZouFile}
    (hm : Meets (next c) (fun s l => Allowed c s l ∧ Numbered c s l) fresh ls)
    (hr : run (next c) fresh ls = some s) :
    (∀ key data key' data' v, FileEvent.put key data v ∈ s.done →
      FileEvent.put key' data' v ∈ s.done → key' = key ∧ data' = data)
    ∧ ∀ inner, s.inner = some inner → ∀ key data v new r, FileEvent.put key data v ∈ s.done →
        c.putIfMatch inner key new (some v) = .ok r → c.get inner key = .ok (some (data, v)) := by
  have hinv : ∃ inner, Stands c s inner ∧ Ordered s.done inner.seq := by
    have hstep : ∀ s l s', (∃ inner, Stands c s inner ∧ Ordered s.done inner.seq) →
        (Allowed c s l ∧ Numbered c s l) → next c s l = some s' →
        ∃ inner, Stands c s' inner ∧ Ordered s'.done inner.seq := by
      rintro s l s' ⟨inner, h, hord⟩ ⟨hok, hnum⟩ hn
      obtain ⟨inner', h', heffect⟩ := next_stands hc h hok hn
      refine ⟨inner', h', ?_⟩
      cases heffect with
      | same done seq =>
        rw [done, seq]
        exact hord
      | wrote event done seq version =>
        rw [done, seq]
        exact hord.cons version
      | reset done closed seq frameless =>
        -- only an open changes the counter, and it is allowed to
        rw [done]
        have hopen : l = .open ∨ ∃ at_, l = .stopOpen at_ := by
          unfold next at hn
          rw [closed] at hn
          cases l with
          | «open» => exact .inl rfl
          | stopOpen at_ => exact .inr ⟨at_, rfl⟩
          | put key data => cases hn
          | putIfMatch key data expected => cases hn
          | delete key => cases hn
          | compact => cases hn
          | close => cases hn
          | stopWrite w cut => cases hn
          | stopCompact at_ => cases hn
        have hnum' : (∀ e ∈ s.done, e.version = none)
            ∨ (c.parseFrame (adopted s.main s.tmp) headerLen).isSome := by
          rcases hopen with rfl | ⟨at_, rfl⟩ <;> exact hnum
        rcases hnum' with hnone | hsome
        · exact hord.unversioned hnone
        · rw [frameless] at hsome
          cases hsome
    refine guarded_invariant hstep ⟨_, stands_fresh, ?_⟩ hm hr
    exact ⟨(fun e he => nomatch he), List.Pairwise.nil⟩
  obtain ⟨inner₀, h, hord⟩ := hinv
  have hunique : ∀ key data key' data' v, FileEvent.put key data v ∈ s.done →
      FileEvent.put key' data' v ∈ s.done → key' = key ∧ data' = data := by
    intro key data key' data' v he he'
    cases hord.unique he he' rfl rfl
    exact ⟨rfl, rfl⟩
  refine ⟨hunique, ?_⟩
  intro inner hin key data v new r hput hswap
  have hfiles := h.files
  rw [hin] at hfiles
  obtain ⟨rfl, -, -⟩ := hfiles
  have hcur : (inner.index.get? key).map FileEntry.seq = some v := by
    unfold FileCodec.putIfMatch at hswap
    split at hswap
    · assumption
    · cases hswap
  obtain ⟨e, he, rfl⟩ := Option.map_eq_some_iff.mp hcur
  have hk := h.sound.answers key
  rw [he] at hk
  obtain ⟨-, data', hobj, -⟩ := hk
  rw [h.sound.answers.get key, hobj, (hunique _ _ _ _ _ hput (objectsAfter_mem hobj)).2]

/-- A store with an object has a frame. -/
theorem Stands.framed {s : ZouFile} {inner : FileInner} (h : Stands c s inner)
    (hin : s.inner = none) (hobj : objectsAfter s.done key ≠ none) :
    (c.parseFrame (adopted s.main s.tmp) headerLen).isSome := by
  have hfiles := h.files
  rw [hin] at hfiles
  obtain ⟨torn, sc, hadopt, hscan, htorn⟩ := hfiles
  obtain ⟨sc', hscan', hindex, -⟩ := h.sound.scanned
  cases hscan.symm.trans hscan'
  rw [hadopt]
  cases hp : c.parseFrame (inner.file ++ torn) headerLen with
  | some p => rfl
  | none =>
    -- the scan finds nothing, and so no object
    have hnew : sc = Scan.new := by
      rw [scanFrom, hp] at htorn
      split at htorn <;> exact (congrArg Prod.fst htorn).symm
    have hk := h.sound.answers key
    rw [← hindex key, hnew] at hk
    exact absurd hk hobj

/-- An object is deleted and compacted away and comes back after the store
was opened again, and the swap that names its first version comes too late. -/
def reputRun : List FileStep :=
  [.open, .put "a" [1], .put "b" [2], .delete "a", .compact, .close, .open, .put "a" [3],
    .putIfMatch "a" [4] (some 1)]

theorem reputRun_modest : ∀ l ∈ reputRun, Modest l := by
  simp [reputRun, Modest, utf8]
  decide

theorem zou_versions_unique_reput :
    ∃ s inner v, run (next literalCodec) fresh reputRun = some s ∧ s.inner = some inner
      ∧ FileEvent.put "a" [1] 1 ∈ s.done ∧ FileEvent.put "a" [3] v ∈ s.done ∧ v ≠ 1
      ∧ literalCodec.get inner "a" = .ok (some ([3], v)) := by
  have hc := literalCodec_lawful
  have hm := fun n => modest_take hc (n := n) (by decide) reputRun_modest
  have h₂ := ends_put (hm 2)
  obtain ⟨v, h₃⟩ := h₂.put (hm 3)
  have h₄ := h₃.delete hc (hm 4) (Option.some_ne_none ([1], 1))
  have h₅ := h₄.quiet hc (hm 5) (.inl ⟨rfl, rfl⟩)
  have h₆ := h₅.quiet hc (hm 6) (.inr (.inl ⟨rfl, rfl⟩))
  have h₇ := h₆.reopen hc (hm 7)
  obtain ⟨w, h₈⟩ := h₇.put (hm 8)
  obtain ⟨hmeets, s, hr, hdone, hopen⟩ := h₈
  obtain ⟨inner, hstands⟩ := run_stands hc hmeets hr
  obtain ⟨i, hin⟩ := Option.isSome_iff_exists.mp hopen
  have hfiles := hstands.files
  rw [hin] at hfiles
  obtain ⟨rfl, -, -⟩ := hfiles
  -- the second open finds the frame of `b`
  have hnumbered : Meets (next literalCodec) (Numbered literalCodec) fresh reputRun := by
    obtain ⟨hmeets₆, s₆, hr₆, hdone₆, hopen₆⟩ := h₆
    have hframed : Numbered literalCodec s₆ .open := by
      obtain ⟨inner₆, hstands₆⟩ := run_stands hc hmeets₆ hr₆
      have hb : objectsAfter s₆.done "b" ≠ none := by
        rw [hdone₆]
        exact Option.some_ne_none _
      refine .inr (hstands₆.framed ?_ hb)
      cases hin₆ : s₆.inner with
      | none => rfl
      | some i₆ =>
        rw [hin₆] at hopen₆
        cases hopen₆
    rw [← List.take_append_drop 6 reputRun]
    refine meets_append.mpr ⟨?_, ?_⟩
    · exact ⟨.inl (fun e he => nomatch he), fun _ _ => ⟨trivial, fun _ _ => ⟨trivial, fun _ _ =>
        ⟨trivial, fun _ _ => ⟨trivial, fun _ _ => ⟨trivial, fun _ _ => trivial⟩⟩⟩⟩⟩⟩
    · intro s' hs'
      cases hr₆.symm.trans hs'
      exact ⟨hframed, fun _ _ => ⟨trivial, fun _ _ => ⟨trivial, fun _ _ => trivial⟩⟩⟩
  have hboth : Meets (next literalCodec)
      (fun s l => Allowed literalCodec s l ∧ Numbered literalCodec s l) fresh
      (reputRun.take 8 ++ [.putIfMatch "a" [4] (some 1)]) := meets_and (hm 9) hnumbered
  have hmem₁ : FileEvent.put "a" [1] 1 ∈ s.done := by rw [hdone]; simp
  have hmem₃ : FileEvent.put "a" [3] w ∈ s.done := by rw [hdone]; simp
  have hne : w ≠ 1 := by
    rintro rfl
    have hsame := (zou_versions_unique hc (meets_append.mp hboth).1 hr).1 _ _ _ _ _ hmem₁ hmem₃
    exact absurd hsame.2 (by decide)
  have hget := hstands.sound.answers.get "a"
  have hk := hstands.sound.answers "a"
  rw [hdone] at hget hk
  have hstale : ∃ e, literalCodec.putIfMatch i "a" [4] (some 1) = .error e := by
    cases hg : i.index.get? "a" with
    | none =>
      rw [hg] at hk
      cases hk
    | some e =>
      rw [hg] at hk
      obtain ⟨-, data, hobj, -⟩ := hk
      cases hobj
      refine ⟨_, if_neg ?_⟩
      rw [hg]
      exact fun h => hne (Option.some.inj h)
  obtain ⟨e, hstale⟩ := hstale
  have hlast : next literalCodec s (.putIfMatch "a" [4] (some 1)) = some s := by
    simp only [next, hin, hstale]
  refine ⟨s, i, w, ?_, hin, hmem₁, hmem₃, hne, hget⟩
  have hr₈ : run (next literalCodec) fresh (reputRun.take 8) = some s := hr
  show run (next literalCodec) fresh (reputRun.take 8 ++ [.putIfMatch "a" [4] (some 1)]) = some s
  rw [run_append, hr₈, Option.bind_some, run_cons, hlast]
  rfl

/-! A store that is emptied, compacted and opened again counts from one. -/

theorem entries_eq_nil {index : OrdMap String FileEntry} (h : ∀ key, index.get? key = none) :
    index.entries = [] := by
  refine List.eq_nil_iff_forall_not_mem.mpr fun p hp => ?_
  have hp' := h p.1
  rw [OrdMap.get?_eq_some.mpr hp] at hp'
  cases hp'

/-- Write an object and delete it again. -/
def emptied (c : FileCodec) : FileInner := c.delete (c.put newStore "a" [1]).1 "a"

theorem compacted_emptied : c.compacted (emptied c) = (fileHeader, [])
    ∧ ∀ key, (emptied c).index.get? key = none := by
  obtain ⟨hfile, hfin, -, hindex, -⟩ :=
    append_parts (c := c) newStore "a" opPut (some [1]) rfl
  have hput : ∀ key, (c.put newStore "a" [1]).1.index.get? key
      = if key = "a" then some (c.payloadOf newStore "a" opPut (some [1])) else none := by
    intro key
    show (c.append newStore "a" opPut (some [1])).1.index.get? key = _
    rw [hindex, get?_reindex]
    rfl
  have hdel : emptied c = (c.append (c.put newStore "a" [1]).1 "a" opTombstone none).1 := by
    rw [emptied, FileCodec.delete, hput "a", if_pos rfl, Option.isSome_some, if_pos rfl]
  have hfin' : (c.put newStore "a" [1]).1.fin = (c.put newStore "a" [1]).1.file.length := by
    show (c.append newStore "a" opPut (some [1])).1.fin = _
    rw [hfin, ← hfile]
    rfl
  have hnone : ∀ key, (emptied c).index.get? key = none := by
    intro key
    rw [hdel, (append_parts (c := c) _ "a" opTombstone none hfin').2.2.2.1, get?_reindex, hput key]
    split
    · rfl
    · rfl
  refine ⟨?_, hnone⟩
  have hlive : liveEntries (emptied c) = [] := by
    rw [liveEntries_eq, entries_eq_nil hnone]
    rfl
  rw [compacted, if_pos hlive]

/-- The same version for two contents of one object. -/
theorem version_reused :
    ∃ s, run (next literalCodec) fresh [.open, .put "a" [1], .delete "a", .compact, .close, .open,
        .put "a" [2]] = some s
      ∧ FileEvent.put "a" [1] 1 ∈ s.done ∧ FileEvent.put "a" [2] 1 ∈ s.done := by
  let c := literalCodec
  have hver : ∀ data, (c.put newStore "a" data).2 = 1 := fun data =>
    (append_parts newStore "a" opPut (some data) rfl).2.2.2.2
  let event := (write c (c.put newStore "a" [1]).1 (.delete "a")).2
  let s₁ : ZouFile := ⟨some (c.compacted (emptied c)).1, none, none,
    event.toList ++ [.put "a" [1] (c.put newStore "a" [1]).2]⟩
  have hrun₁ : run (next c) fresh [.open, .put "a" [1], .delete "a", .compact, .close] = some s₁ := by
    rw [run_cons, next_fresh_open]
    rfl
  have hscan : scanned c s₁ = .ok newStore := by
    show (checkHeader (adopted (some (c.compacted (emptied c)).1) none)).map
      (fun _ => c.scan (adopted (some (c.compacted (emptied c)).1) none)) = _
    rw [compacted_emptied.1]
    exact scanned_fresh
  have hopen : next c s₁ .open = some (s₁.holding newStore s₁.done) := by
    rw [next_open rfl hscan]
    rfl
  have hsplit : run (next c) fresh ([.open, .put "a" [1], .delete "a", .compact, .close]
        ++ [.open, .put "a" [2]])
      = (run (next c) fresh [.open, .put "a" [1], .delete "a", .compact, .close]).bind fun s =>
          run (next c) s [.open, .put "a" [2]] := run_append
  rw [hrun₁, Option.bind_some, run_cons, hopen] at hsplit
  refine ⟨(s₁.holding newStore s₁.done).holding (c.put newStore "a" [2]).1
    (.put "a" [2] (c.put newStore "a" [2]).2 :: s₁.done), hsplit, ?_, ?_⟩
  · refine .tail _ (List.mem_append_right _ ?_)
    rw [hver]
    exact List.mem_singleton.mpr rfl
  · show _ ∈ FileEvent.put "a" [2] (c.put newStore "a" [2]).2 :: _
    rw [hver]
    exact List.mem_cons_self

end ZouFile

end Zou
