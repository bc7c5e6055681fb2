import Zou.Lib.Packing
import Zou.LayerCodecSpec

/-!
# The entries of a layer object read back

Each block decodes alone to its run, the whole object and the cursors give
the runs one after the other, the index names the blocks of a key, and the
footer comes from any suffix that is long enough. A suffix too short for
the footer is told how long it is, unless it is too short for the tail.
-/

open Packing

namespace Zou

open Bytes

/-! ## One block -/

section Block

variable {E : Type} {c : Coding E} {p : LayerPacking} {run : List E}

theorem blockRaw_runRow (hp : p.Lawful) {es : List E} {runs : List (List E)}
    (h : Cut c es runs) (hrun : run ∈ runs) (offset : Nat) :
    p.blockRaw (storedRun c p run) (runRow c p offset run) = .ok (runBytes c run) := by
  have hsmall := h.small run hrun
  have hno : ¬ ((storedRun c p run).length ≠ (runRow c p offset run).len
      ∨ (runRow c p offset run).rawLen > maxBlockRawLen
      ∨ p.crc 0 (storedRun c p run) ≠ (runRow c p offset run).crc) := by
    rintro (hlen | hraw | hcrc)
    · exact hlen rfl
    · exact absurd hsmall (Nat.not_le.mpr hraw)
    · exact hcrc rfl
  have hraw : (if (runRow c p offset run).enc = layerEncRaw
        ∧ (runRow c p offset run).len = (runRow c p offset run).rawLen then
        some (storedRun c p run)
      else if (runRow c p offset run).enc = layerEncLz4 then
        p.decompress (storedRun c p run) (runRow c p offset run).rawLen
      else none) = some (runBytes c run) := by
    change (if (p.packed (runBytes c run)).1 = layerEncRaw
        ∧ (p.packed (runBytes c run)).2.length = (runBytes c run).length then
        some (p.packed (runBytes c run)).2
      else if (p.packed (runBytes c run)).1 = layerEncLz4 then
        p.decompress (p.packed (runBytes c run)).2 (runBytes c run).length
      else none) = _
    rcases packed_cases (p := p) (runBytes c run) with hpk | hpk
    · rw [hpk, if_pos ⟨rfl, rfl⟩]
    · rw [hpk, if_neg (by rintro ⟨h, -⟩; cases h), if_pos rfl, hp.decompress_compress]
  unfold LayerPacking.blockRaw
  rw [if_neg hno]
  rw [hraw]
  exact if_neg (not_not.mpr rfl)

theorem deltaEntries_run : ∀ {run acc : List DeltaEntry} {rest : List UInt8},
    (acc ++ run).Pairwise (deltaFormat.before · ·) →
    (∀ e ∈ run, e.key.Fits ∧ e.lsn < 2 ^ 64 ∧ e.record.length ≤ maxRecordLen) →
    deltaEntries run.length (runBytes deltaCoding run ++ rest) acc = .ok (acc ++ run, rest) := by
  intro run
  induction run with
  | nil =>
    intro acc rest _ _
    simp [deltaEntries, runBytes]
  | cons e run ih =>
    intro acc rest hpw hfits
    obtain ⟨hkey, hlsn, hrec⟩ := hfits e List.mem_cons_self
    have hcap : maxRecordLen < 2 ^ 32 := by decide
    have hlen : e.record.length < 2 ^ 32 := Nat.lt_of_le_of_lt hrec hcap
    have hfixed : (e.key.encode ++ (le 8 e.lsn ++ le 4 e.record.length)).length
        = entryFixedLen := by
      simp [entryFixedLen]
    have hbytes : runBytes deltaCoding (e :: run) ++ rest
        = (e.key.encode ++ (le 8 e.lsn ++ le 4 e.record.length))
          ++ (e.record ++ (runBytes deltaCoding run ++ rest)) := by
      simp [runBytes, deltaCoding]
    have hk : (e.key.encode ++ (le 8 e.lsn ++ le 4 e.record.length)).take keyEncodedLen
        = e.key.encode := by
      rw [List.take_append_of_le_length (by simp), List.take_of_length_le (by simp)]
    have hl : slice (e.key.encode ++ (le 8 e.lsn ++ le 4 e.record.length)) 18 8 = le 8 e.lsn := by
      rw [slice_skip (by simp [keyEncodedLen])]
      simp [keyEncodedLen]
    have hr : slice (e.key.encode ++ (le 8 e.lsn ++ le 4 e.record.length)) 26 4
        = le 4 e.record.length := by
      rw [slice_skip (by simp [keyEncodedLen])]
      simp [keyEncodedLen]
    have hord : ¬ acc.getLast?.any fun q => ! deltaFormat.before q e := by
      cases hlast : acc.getLast? with
      | none => simp
      | some q =>
        have hq := (List.pairwise_append.mp hpw).2.2 q (List.mem_of_getLast? hlast) e
          List.mem_cons_self
        simp [hq]
    have hpw' : ((acc ++ [e]) ++ run).Pairwise (deltaFormat.before · ·) := by
      rw [List.append_assoc]
      exact hpw
    rw [List.length_cons, deltaEntries, hbytes, takeBytes_append hfixed, ok_bind]
    dsimp only
    rw [hk, hl, hr, LayerKey.decode_encode hkey, ofLe_le64 hlsn, ofLe_le32 hlen,
      if_neg (Nat.not_lt.mpr hrec), takeBytes_append rfl, ok_bind]
    rw [if_neg hord, ih hpw' fun x hx => hfits x (.tail _ hx), List.append_assoc]
    rfl

theorem imageEntries_run {lsn : Lsn} : ∀ {run acc : List ImageEntry},
    (acc ++ run).Pairwise ((imageFormat lsn).before · ·) →
    (∀ e ∈ run, e.key.Fits ∧ e.page.length = pageImageLen) →
    imageEntries run.length (runBytes (imageCoding lsn) run) acc = .ok (acc ++ run) := by
  intro run
  induction run with
  | nil =>
    intro acc _ _
    simp [imageEntries]
  | cons e run ih =>
    intro acc hpw hfits
    obtain ⟨hkey, hpage⟩ := hfits e List.mem_cons_self
    have hstride : (e.key.encode ++ e.page).length = keyEncodedLen + pageImageLen := by
      rw [List.length_append, LayerKey.length_encode, hpage]
    have hbytes : runBytes (imageCoding lsn) (e :: run)
        = (e.key.encode ++ e.page) ++ runBytes (imageCoding lsn) run := by
      simp [runBytes, imageCoding]
    have hk : (e.key.encode ++ e.page).take keyEncodedLen = e.key.encode := by
      rw [List.take_append_of_le_length (by simp), List.take_of_length_le (by simp)]
    have hd : (e.key.encode ++ e.page).drop keyEncodedLen = e.page := by
      rw [← LayerKey.length_encode e.key, List.drop_left]
    have hord : ¬ acc.getLast?.any fun q => ! decide (q.key < e.key) := by
      cases hlast : acc.getLast? with
      | none => simp
      | some q =>
        have hq : decide (q.key < e.key) = true := (List.pairwise_append.mp hpw).2.2 q
          (List.mem_of_getLast? hlast) e List.mem_cons_self
        simp [of_decide_eq_true hq]
    have hpw' : ((acc ++ [e]) ++ run).Pairwise ((imageFormat lsn).before · ·) := by
      rw [List.append_assoc]
      exact hpw
    rw [List.length_cons, imageEntries, hbytes, ← hstride, List.take_left, List.drop_left]
    rw [hk, hd, LayerKey.decode_encode hkey, if_neg hord,
      ih hpw' fun x hx => hfits x (.tail _ hx), List.append_assoc]
    rfl

/-- A decoder gives back every run of a cut. -/
def Decodes (c : Coding E) (p : LayerPacking)
    (decode : List UInt8 → IndexRow → Except CodecError (List E)) : Prop :=
  ∀ {es run : List E} {runs : List (List E)}, Cut c es runs → run ∈ runs → ∀ offset,
    decode (storedRun c p run) (runRow c p offset run) = .ok run

theorem Cut.run_sorted {es : List E} {runs : List (List E)} (h : Cut c es runs)
    (hrun : run ∈ runs) : run.Pairwise (c.fmt.before · ·) := by
  have hs := h.sorted
  rw [← h.flatten, List.pairwise_flatten] at hs
  exact hs.1 run hrun

theorem runRow_ends (hne : run ≠ []) (offset : Nat) :
    run.head?.map c.fmt.key = some (runRow c p offset run).firstKey
      ∧ run.getLast?.map c.fmt.key = some (runRow c p offset run).lastKey := by
  obtain ⟨a, -, z, -, hhead, hlast, hfirst, hlastKey⟩ : ∃ a ∈ run, ∃ z ∈ run, run.head? = some a
      ∧ run.getLast? = some z ∧ (runRow c p offset run).firstKey = c.fmt.key a
      ∧ (runRow c p offset run).lastKey = c.fmt.key z := runRow_keys hne
  rw [hhead, hlast, hfirst, hlastKey]
  exact ⟨rfl, rfl⟩

theorem decodes_delta (hp : p.Lawful) : Decodes deltaCoding p p.decodeDeltaBlock := by
  intro es run runs h hrun offset
  have hne := h.ne run hrun
  have hends : run.head?.map deltaCoding.fmt.key = some (runRow deltaCoding p offset run).firstKey
      ∧ run.getLast?.map deltaCoding.fmt.key = some (runRow deltaCoding p offset run).lastKey :=
    runRow_ends hne offset
  have hentries : deltaEntries run.length (runBytes deltaCoding run ++ []) []
      = .ok ([] ++ run, []) := by
    refine deltaEntries_run (h.run_sorted hrun) fun e he => ?_
    have hmem := h.mem hrun he
    have hfits := h.fits e hmem
    have hcheck := h.checked e hmem
    refine ⟨hfits.key, hfits.lsn, ?_⟩
    by_contra hlong
    have hbig : e.record.length > maxRecordLen := Nat.lt_of_not_le hlong
    simp [deltaCoding, deltaFormat, hbig] at hcheck
  rw [List.append_nil, List.nil_append] at hentries
  have hcount : (runRow deltaCoding p offset run).entries = run.length := rfl
  unfold LayerPacking.decodeDeltaBlock
  rw [blockRaw_runRow hp h hrun, ok_bind, hcount, hentries, ok_bind]
  dsimp only
  rw [if_neg]
  rintro (hrest | hfirst | hlast)
  · exact hrest rfl
  · exact hfirst hends.1
  · exact hlast hends.2

theorem decodes_image (hp : p.Lawful) (lsn : Lsn) :
    Decodes (imageCoding lsn) p p.decodeImageBlock := by
  intro es run runs h hrun offset
  have hne := h.ne run hrun
  have hends : run.head?.map (imageCoding lsn).fmt.key
        = some (runRow (imageCoding lsn) p offset run).firstKey
      ∧ run.getLast?.map (imageCoding lsn).fmt.key
        = some (runRow (imageCoding lsn) p offset run).lastKey := runRow_ends hne offset
  have hpage : ∀ e ∈ run, e.key.Fits ∧ e.page.length = pageImageLen := by
    intro e he
    have hmem := h.mem hrun he
    have hcheck := h.checked e hmem
    refine ⟨(h.fits e hmem).key, ?_⟩
    by_contra hlen
    simp [imageCoding, imageFormat, hlen] at hcheck
  have hentries : imageEntries run.length (runBytes (imageCoding lsn) run) [] = .ok ([] ++ run) :=
    imageEntries_run (h.run_sorted hrun) hpage
  have hcount : (runRow (imageCoding lsn) p offset run).entries = run.length := rfl
  have hlen : (runBytes (imageCoding lsn) run).length
      = run.length * (keyEncodedLen + pageImageLen) := by
    rw [length_runBytes (imageCoding_lawful lsn) fun e he => h.checked e (h.mem hrun he)]
    change (run.map fun _ => keyEncodedLen + pageImageLen).sum = _
    simp
  unfold LayerPacking.decodeImageBlock
  rw [blockRaw_runRow hp h hrun, ok_bind, hcount, if_neg (not_not.mpr hlen), hentries, ok_bind,
    List.nil_append, if_neg]
  rintro (hfirst | hlast)
  · exact hfirst hends.1
  · exact hlast hends.2

end Block

/-! ## The blocks of an object -/

section Object

variable {E : Type} {c : Coding E} {p : LayerPacking}
  {decode : List UInt8 → IndexRow → Except CodecError (List E)} {follows : E → E → Bool}

theorem rowSlice_runRows : ∀ (runs : List (List E)) (pre rest : List UInt8),
    List.Forall₂ (fun r run => rowSlice (pre ++ (runs.flatMap (storedRun c p) ++ rest)) r
        = storedRun c p run ∧ ∃ offset, r = runRow c p offset run)
      (runRows c p pre.length runs) runs := by
  intro runs
  induction runs with
  | nil => exact fun _ _ => List.Forall₂.nil
  | cons run runs ih =>
    intro pre rest
    have hassoc : pre ++ ((run :: runs).flatMap (storedRun c p) ++ rest)
        = (pre ++ storedRun c p run) ++ (runs.flatMap (storedRun c p) ++ rest) := by
      simp
    refine List.Forall₂.cons ⟨?_, pre.length, rfl⟩ ?_
    · have hslice : rowSlice (pre ++ ((run :: runs).flatMap (storedRun c p) ++ rest))
          (runRow c p pre.length run)
        = slice (pre ++ ((run :: runs).flatMap (storedRun c p) ++ rest)) pre.length
          (storedRun c p run).length := rfl
      rw [hslice, slice_skip le_rfl, Nat.sub_self, List.flatMap_cons, List.append_assoc,
        slice_head rfl]
    · rw [hassoc, ← List.length_append]
      exact ih (pre ++ storedRun c p run) rest

variable {es : List E} {runs : List (List E)}

theorem decode_rows (hd : Decodes c p decode) (h : Cut c es runs) (pre rest : List UInt8) :
    List.Forall₂ (fun r run =>
        decode (rowSlice (pre ++ (runs.flatMap (storedRun c p) ++ rest)) r) r = .ok run)
      (runRows c p pre.length runs) runs := by
  have hall : List.Forall₂ (fun run r => run ∈ runs
      ∧ rowSlice (pre ++ (runs.flatMap (storedRun c p) ++ rest)) r = storedRun c p run
      ∧ ∃ offset, r = runRow c p offset run) runs (runRows c p pre.length runs) :=
    (List.forall₂_and_left _ _).mpr
      ⟨fun run hrun => hrun, (rowSlice_runRows runs pre rest).flip⟩
  refine List.Forall₂.flip (hall.imp ?_)
  rintro run r ⟨hrun, hslice, offset, rfl⟩
  change decode (rowSlice _ _) _ = _
  rw [hslice]
  exact hd h hrun offset

variable {buf : List UInt8}

theorem decodeBlocks_runs : ∀ {rows : List IndexRow} {runs : List (List E)}
    {index : Nat} {acc : List E},
    List.Forall₂ (fun r run => decode (rowSlice buf r) r = .ok run) rows runs →
    (acc ++ runs.flatten).Pairwise (follows · ·) →
    decodeBlocks decode follows buf index rows acc = .ok (acc ++ runs.flatten) := by
  intro rows
  induction rows with
  | nil =>
    intro runs index acc h _
    cases h
    simp [decodeBlocks]
  | cons r rows ih =>
    intro runs index acc h hpw
    cases h with
    | @cons _ run _ runs hr hrest =>
      rw [List.flatten_cons] at hpw ⊢
      have hord : ¬ acc.getLast?.any fun q => run.head?.any fun e => ! follows q e := by
        cases hlast : acc.getLast? with
        | none => simp
        | some q =>
          cases hhead : run.head? with
          | none => simp
          | some e =>
            have hq := (List.pairwise_append.mp hpw).2.2 q (List.mem_of_getLast? hlast) e
              (List.mem_append_left _ (List.mem_of_head? hhead))
            simp [hq]
      rw [decodeBlocks, hr]
      dsimp only
      rw [if_neg hord]
      rw [← List.append_assoc] at hpw ⊢
      exact ih hrest hpw

/-- What a cursor yields: the rest of the current block and the runs of the
rows ahead. -/
theorem drain_runs : ∀ {n : Nat} {rows : List IndexRow}
    {runs : List (List E)} {block : Nat} {entries : List E} {prev : Option E},
    List.Forall₂ (fun r run => decode (rowSlice buf r) r = .ok run) rows runs →
    (∀ run ∈ runs, run ≠ []) →
    (prev.toList ++ (entries ++ runs.flatten)).Pairwise (follows · ·) →
    (entries ++ runs.flatten).length < n →
    LayerCursor.drain decode follows buf n ⟨rows, block, entries, prev, false⟩
      = (entries ++ runs.flatten).map .ok := by
  intro n
  induction n with
  | zero => exact fun _ _ _ h => absurd h (Nat.not_lt_zero _)
  | succ n ih =>
    intro rows runs block entries prev h hne hpw hlen
    have hyield : ∀ (rows : List IndexRow) (block : Nat) (e : E) (es : List E)
        (cur : List E) (runs : List (List E)),
        (prev.toList ++ (e :: es ++ runs.flatten)).Pairwise (follows · ·) →
        LayerCursor.yield follows ⟨rows, block, cur, prev, false⟩ e es
          = (.ok e, ⟨rows, block, es, some e, false⟩) := by
      intro rows block e es cur runs hpw
      have hno : ¬ prev.any fun q => ! follows q e := by
        cases prev with
        | none => simp
        | some q =>
          have hq := (List.pairwise_cons.mp hpw).1 e (by simp)
          simp [hq]
      rw [LayerCursor.yield, if_neg hno]
    have hafter : ∀ (e : E) (es : List E) (runs : List (List E)),
        (prev.toList ++ (e :: es ++ runs.flatten)).Pairwise (follows · ·) →
        ((some e).toList ++ (es ++ runs.flatten)).Pairwise (follows · ·) := fun e es runs hpw =>
      (List.pairwise_append.mp hpw).2.1
    rw [LayerCursor.drain]
    unfold LayerCursor.next
    rw [if_neg Bool.false_ne_true]
    cases entries with
    | cons e es =>
      dsimp only
      rw [hyield rows block e es (e :: es) runs hpw]
      dsimp only
      rw [ih h hne (hafter e es runs hpw) (by simpa using hlen)]
      rfl
    | nil =>
      cases h with
      | nil => rfl
      | @cons r run rows runs hr hrest =>
        have hrun := hne run List.mem_cons_self
        obtain ⟨e, es, rfl⟩ := List.exists_cons_of_ne_nil hrun
        rw [List.nil_append, List.flatten_cons] at hpw hlen ⊢
        rw [LayerCursor.advance, hr]
        dsimp only
        rw [hyield rows (block + 1) e es (e :: es) runs hpw]
        dsimp only
        rw [ih hrest (fun r hr => hne r (.tail _ hr)) (hafter e es runs hpw)
          (by simpa using hlen)]
        rfl

/-! ## The index -/

theorem layout_eq_runRows (hc : c.Lawful) : ∀ {runs : List (List E)} {es : List E} {offset : Nat},
    Cut c es runs → (layout c.fmt p.storedLen offset runs).map StoredBlock.row
      = (runRows c p offset runs).map IndexRow.toLayerBlock := by
  intro runs
  induction runs with
  | nil => exact fun _ => rfl
  | cons run runs ih =>
    intro es offset h
    have hrun := List.mem_cons_self (a := run) (l := runs)
    have hstored : p.storedLen (c.fmt.body run) = (storedRun c p run).length := by
      rw [LayerPacking.storedLen, hc.body_bytes]
      rfl
    have hrow : blockRow c.fmt p.storedLen offset run
        = (runRow c p offset run).toLayerBlock := by
      unfold blockRow runRow LayerPacking.indexRow
      rw [hstored, ← length_runBytes hc fun e he => h.checked e (h.mem hrun he)]
      rfl
    rw [layout, runRows, List.map_cons, List.map_cons, hrow, hstored, ih h.tail]

theorem runRows_sorted (hc : c.Lawful) {offset : Nat}
    (h : Cut c es runs) : (runRows c p offset runs).Pairwise
      fun a b => a.firstKey ≤ b.firstKey ∧ a.lastKey ≤ b.lastKey := by
  have hsorted := h.sorted
  rw [← h.flatten] at hsorted
  have hrows : ((layout c.fmt p.storedLen offset runs).map StoredBlock.row).Pairwise
      fun a b => a.firstKey ≤ b.firstKey ∧ a.lastKey ≤ b.lastKey :=
    layout_sorted hc.fmt hsorted h.ne
  rw [layout_eq_runRows hc h, List.pairwise_map] at hrows
  exact hrows

/-- A row covers a stored key exactly when its run holds it. -/
theorem covers_iff (hc : c.Lawful) {run : List E} (h : Cut c es runs)
    (hrun : run ∈ runs) {key : LayerKey} (hkey : ∃ e ∈ es, c.fmt.key e = key) (offset : Nat) :
    ((runRow c p offset run).firstKey ≤ key ∧ key ≤ (runRow c p offset run).lastKey)
      ↔ ∃ e ∈ run, c.fmt.key e = key := by
  have hsorted := h.sorted
  rw [← h.flatten, List.pairwise_flatten] at hsorted
  obtain ⟨a, ha, z, hz, -, -, hfirst, hlast⟩ : ∃ a ∈ run, ∃ z ∈ run, run.head? = some a
      ∧ run.getLast? = some z ∧ (runRow c p offset run).firstKey = c.fmt.key a
      ∧ (runRow c p offset run).lastKey = c.fmt.key z := runRow_keys (h.ne run hrun)
  constructor
  · rintro ⟨hlo, hhi⟩
    rw [hfirst] at hlo
    rw [hlast] at hhi
    obtain ⟨e, he, rfl⟩ := hkey
    rw [← h.flatten] at he
    obtain ⟨run', hrun', he⟩ := List.mem_flatten.mp he
    -- The run of the entry is this run, or lies on one side of it.
    have hside : run = run' ∨ (∀ x ∈ run, ∀ y ∈ run', c.fmt.before x y = true)
        ∨ ∀ x ∈ run', ∀ y ∈ run, c.fmt.before x y = true := by
      let R : List E → List E → Prop := fun r r' => r = r'
        ∨ (∀ x ∈ r, ∀ y ∈ r', c.fmt.before x y = true)
        ∨ ∀ x ∈ r', ∀ y ∈ r, c.fmt.before x y = true
      have hflip : runs.Pairwise (flip R) := hsorted.2.imp fun hb => .inr (.inr hb)
      have hpw : runs.Pairwise R := hsorted.2.imp fun hb => .inr (.inl hb)
      have hrefl : ∀ r ∈ runs, R r r := fun r _ => .inl rfl
      exact List.Pairwise.forall_of_forall_of_flip hrefl hpw hflip hrun hrun'
    rcases hside with rfl | hb | hb
    · exact ⟨e, he, rfl⟩
    · exact ⟨z, hz, le_antisymm (hc.fmt.key_le (hb z hz e he)) hhi⟩
    · exact ⟨a, ha, le_antisymm hlo (hc.fmt.key_le (hb e he a ha))⟩
  · rintro ⟨e, he, rfl⟩
    have hcov : (blockRow c.fmt p.storedLen offset run).firstKey ≤ c.fmt.key e
        ∧ c.fmt.key e ≤ (blockRow c.fmt p.storedLen offset run).lastKey :=
      blockRow_covers hc.fmt (hsorted.1 run hrun) he
    exact hcov

theorem layout_bodies {stored : BlockBody → Nat} : ∀ {runs : List (List E)} {offset : Nat},
    (layout c.fmt stored offset runs).map StoredBlock.body = runs.map c.fmt.body := by
  intro runs
  induction runs with
  | nil => exact fun {_} => rfl
  | cons run runs ih =>
    intro offset
    rw [layout, List.map_cons, List.map_cons, ih]

theorem buildLayer_eq {stored : BlockBody → Nat} {crc : Nat → List UInt8 → Nat}
    {fmt : EntryFormat E} {kind : LayerKind} {target : Nat} (hv : validate fmt none es = .ok ())
    (hne : es ≠ []) : ∃ o, buildLayer fmt stored crc kind target es = .ok o
      ∧ o.footer.entryCount = es.length
      ∧ o.size = layerHeaderLen + (o.footer.blocks.map LayerBlock.len).sum
        + (2 * keyEncodedLen + 28 + 61 * o.footer.blocks.length + 4
          + o.footer.bloom.bits.length / 8) + 12 := by
  obtain ⟨e, es, rfl⟩ := List.exists_cons_of_ne_nil hne
  unfold buildLayer
  rw [hv]
  exact ⟨_, rfl, rfl, rfl⟩

/-- The bytes and their footer are those of the abstract layer. -/
structure Refines (fmt : EntryFormat E) (target : Nat) (es : List E) (buf : List UInt8)
    (f : CodedFooter) (o : LayerObj) : Prop where
  footer : o.footer = f.plain
  bodies : o.blocks.map StoredBlock.body = (cutRuns fmt target [] 0 es).map fmt.body
  size : o.size = buf.length

theorem encoded_refines (hc : c.Lawful) {target : Nat} (htarget : target ≤ layerBlockTarget) (hfits : ∀ e ∈ es, c.Fits e) {f : CodedFooter}
    (h : LayerBuilder.build c p target es = .ok (buf, f)) :
    ∃ o, buildLayer c.fmt p.storedLen p.crc c.kind target es = .ok o
      ∧ Refines c.fmt target es buf f o := by
  obtain ⟨hv, hne, henc⟩ := (build_iff hc).mp h
  have hcut := cut_of_validate hc htarget hne hv hfits
  obtain ⟨o, ho, hcount, hsize⟩ : ∃ o, buildLayer c.fmt p.storedLen p.crc c.kind target es = .ok o
      ∧ o.footer.entryCount = es.length
      ∧ o.size = layerHeaderLen + (o.footer.blocks.map LayerBlock.len).sum
        + (2 * keyEncodedLen + 28 + 61 * o.footer.blocks.length + 4
          + o.footer.bloom.bits.length / 8) + 12 := buildLayer_eq hv hne
  obtain ⟨-, -, hblocks, hkind, hmin, hmax, hlsn, hrows, hbloom⟩ := buildLayer_ok ho
  have hlayout : o.blocks.map StoredBlock.row = f.blocks.map IndexRow.toLayerBlock := by
    rw [hblocks, henc.footer]
    exact layout_eq_runRows hc hcut
  have hfooter : o.footer = f.plain := by
    rw [hlayout, List.head?_map, Option.map_map] at hmin
    rw [hlayout, List.getLast?_map, Option.map_map] at hmax
    rw [hlayout] at hrows
    obtain ⟨hlo, hhi⟩ := Prod.mk.inj hlsn
    cases hf : o.footer with
    | mk kind minKey maxKey minLsn maxLsn entryCount blocks bloom =>
      rw [hf] at hkind hmin hmax hlo hhi hrows hbloom hcount
      dsimp only at hkind hmin hmax hlo hhi hrows hbloom hcount
      rw [hkind, hmin, hmax, hlo, hhi, hrows, hbloom, hcount, henc.footer]
      rfl
  refine ⟨o, ho, hfooter, ?_, ?_⟩
  · rw [hblocks]
    exact layout_bodies
  · have hbody := henc.length_body
    have hpre : (header c.kind ++ (cutRuns c.fmt target [] 0 es).flatMap (storedRun c p)).length
        = layerHeaderLen + storedLen c p (cutRuns c.fmt target [] 0 es) := by
      rw [List.length_append, length_header]
      rfl
    have hlen : buf.length = layerHeaderLen + storedLen c p (cutRuns c.fmt target [] 0 es)
        + footerLen c target es + 12 := by
      have hmagic : layerFooterMagic.length = 4 := rfl
      rw [henc.buf, LayerPacking.finish, List.length_append, hpre, List.length_append, hbody,
        List.length_append, List.length_append, length_le, length_le, hmagic]
      omega
    obtain ⟨hsum, -, hn⟩ : ((runRows c p layerHeaderLen
            (cutRuns c.fmt target [] 0 es)).map fun r => r.len).sum
          = storedLen c p (cutRuns c.fmt target [] 0 es)
        ∧ ((runRows c p layerHeaderLen (cutRuns c.fmt target [] 0 es)).map fun r => r.entries).sum
          = (cutRuns c.fmt target [] 0 es).flatten.length
        ∧ (runRows c p layerHeaderLen (cutRuns c.fmt target [] 0 es)).length
          = (cutRuns c.fmt target [] 0 es).length := runRows_sums
    have hfb : o.footer.blocks = (runRows c p layerHeaderLen
        (cutRuns c.fmt target [] 0 es)).map IndexRow.toLayerBlock := by
      rw [hfooter, henc.footer]
      rfl
    have hbits : o.footer.bloom.bits.length / 8
        = max ((max (distinctKeys c.fmt none es).length 1 * 10 + 7) / 8).nextPowerOfTwo
          bloomMinBytes := by
      rw [hbloom, Bloom.length_fromHashes, List.length_map, Nat.mul_div_cancel_left _ (by decide)]
    rw [hsize, hlen, hfb, List.map_map, List.length_map, hn, hbits, footerLen]
    have hmap : ((runRows c p layerHeaderLen (cutRuns c.fmt target [] 0 es)).map
        (LayerBlock.len ∘ IndexRow.toLayerBlock)).sum
          = storedLen c p (cutRuns c.fmt target [] 0 es) := hsum
    have hmeta : blockMetaLen = 61 := rfl
    rw [hmap, hmeta]

end Object

/-! ## Round trips -/

/-- A footer read from the last `n` bytes of an object. -/
def LayerPacking.footerAt (p : LayerPacking) (kind : LayerKind) (buf : List UInt8) (n : Nat) :
    Except CodecError CodedFooter :=
  p.readLayerFooterSuffix kind (suffixOf buf n) buf.length

/-- When a read of the last `n` bytes is told to ask for more, what it then
asks for is enough. -/
def Refetches (p : LayerPacking) (kind : LayerKind) (buf : List UInt8) (f : CodedFooter)
    (n : Nat) : Prop :=
  ∀ have_ need, p.footerAt kind buf n = .error (.truncated have_ need) →
    need ≤ buf.length ∧ p.footerAt kind buf need = .ok f

/-- An object reads back as the entries it was built from. -/
structure ReadsBack {E : Type} (p : LayerPacking) (c : Coding E)
    (decodeLayer : List UInt8 → Except CodecError (List E × CodedFooter))
    (cursor : List UInt8 → Except CodecError (LayerCursor E))
    (decodeBlock : List UInt8 → IndexRow → Except CodecError (List E)) (follows : E → E → Bool)
    (es : List E) (buf : List UInt8) (f : CodedFooter) : Prop where
  decode : decodeLayer buf = .ok (es, f)
  cursor : ∃ cur, cursor buf = .ok cur
    ∧ ∀ n, es.length < n → cur.drain decodeBlock follows buf n = es.map .ok
  blocks : ∃ runs : List (List E), runs.flatten = es
    ∧ List.Forall₂ (fun r run => decodeBlock (rowSlice buf r) r = .ok run) f.blocks runs
    ∧ ∀ key, (∃ e ∈ es, c.fmt.key e = key) →
      List.Forall₂ (fun r run => r ∈ f.locate key ↔ ∃ e ∈ run, c.fmt.key e = key) f.blocks runs
  locate : ∀ key, f.locate key
    = f.blocks.filter fun r => r.firstKey ≤ key ∧ key ≤ r.lastKey
  filter : ∀ e ∈ es, f.mayContain p.crc (c.fmt.key e) = true
  whole : p.readLayerFooter buf = .ok f
  suffix : ∀ n, f.body.length + tailLen ≤ n → n ≤ buf.length →
    p.footerAt c.kind buf n = p.readLayerFooter buf
  refetch : ∀ n, n ≤ buf.length → (Refetches p c.kind buf f n ↔ tailLen ≤ n)

section RoundTrip

variable {E : Type} {c : Coding E} {p : LayerPacking} {f : CodedFooter}

theorem refetches_iff {pre : List UInt8} (hp : p.Lawful) (hf : f.Proper)
    (hpre : pre.take layerHeaderLen = header f.kind)
    (hat : pre.length = layerHeaderLen + (f.blocks.map fun r => r.len).sum)
    (hlen : f.body.length < 2 ^ 32) {n : Nat} (hn : n ≤ (p.finish pre f).length) :
    Refetches p f.kind (p.finish pre f) f n ↔ tailLen ≤ n := by
  have hsize : (p.finish pre f).length = pre.length + f.body.length + tailLen := by
    rw [finish_eq hpre hlen, List.length_append, List.length_append, length_tailBytes]
  have hbody : 0 < f.body.length := by
    rw [CodedFooter.body, List.length_append, LayerKey.length_encode, keyEncodedLen]
    omega
  constructor
  · intro h
    by_contra hshort
    obtain ⟨-, hok⟩ := h n tailLen (suffix_short hn (Nat.lt_of_not_le hshort))
    rw [LayerPacking.footerAt, suffix_finish hp hf hpre hat hlen le_rfl (by omega),
      if_pos (by omega)] at hok
    cases hok
  · intro htail have_ need h
    rw [LayerPacking.footerAt, suffix_finish hp hf hpre hat hlen htail hn] at h
    split at h
    · obtain ⟨rfl, rfl⟩ := CodecError.truncated.inj (Except.error.inj h)
      refine ⟨by omega, ?_⟩
      rw [LayerPacking.footerAt, suffix_finish hp hf hpre hat hlen (by omega) (by omega),
        if_neg (Nat.lt_irrefl _)]
    · cases h

variable {es : List E}

theorem locate_runs (hc : c.Lawful) {runs : List (List E)} (hcut : Cut c es runs) (hf : f.blocks = runRows c p layerHeaderLen runs) :
    (∀ key, f.locate key = f.blocks.filter fun r => r.firstKey ≤ key ∧ key ≤ r.lastKey)
      ∧ ∀ key, (∃ e ∈ es, c.fmt.key e = key) →
        List.Forall₂ (fun r run => r ∈ f.locate key ↔ ∃ e ∈ run, c.fmt.key e = key)
          f.blocks runs := by
  have hlocate : ∀ key, f.locate key
      = f.blocks.filter fun r => r.firstKey ≤ key ∧ key ≤ r.lastKey := by
    intro key
    refine BlockIndex.locate_eq_filter ?_
    rw [hf]
    exact runRows_sorted hc hcut
  refine ⟨hlocate, fun key hkey => ?_⟩
  have hslices := rowSlice_runRows (c := c) (p := p) runs (header c.kind) []
  rw [length_header, ← hf] at hslices
  have hrows : List.Forall₂ (fun r run => r ∈ f.blocks ∧ ∃ offset, r = runRow c p offset run)
      f.blocks runs :=
    (List.forall₂_and_left _ _).mpr ⟨fun r hr => hr, hslices.imp fun _ _ h => h.2⟩
  have hall : List.Forall₂ (fun run r => run ∈ runs ∧ r ∈ f.blocks
      ∧ ∃ offset, r = runRow c p offset run) runs f.blocks :=
    (List.forall₂_and_left _ _).mpr ⟨fun run hrun => hrun, hrows.flip⟩
  refine List.Forall₂.flip (hall.imp ?_)
  rintro run r ⟨hrun, hr, offset, rfl⟩
  change _ ∈ f.locate key ↔ _
  rw [hlocate, List.mem_filter, decide_eq_true_eq]
  rw [covers_iff hc hcut hrun hkey]
  exact and_iff_right hr

/-- Every object the encoder returns reads back, when the length of its
footer fits where it is written. -/
theorem readsBack (hc : c.Lawful) (hp : p.Lawful) {target : Nat}
    (htarget : target ≤ layerBlockTarget) (hfits : ∀ e ∈ es, c.Fits e)
    {decodeLayer : List UInt8 → Except CodecError (List E × CodedFooter)}
    {cursor : List UInt8 → Except CodecError (LayerCursor E)}
    {decodeBlock : List UInt8 → IndexRow → Except CodecError (List E)} {follows : E → E → Bool}
    (hdec : Decodes c p decodeBlock)
    (hfollows : ∀ a b, c.fmt.before a b = true → follows a b = true)
    (hlayer : ∀ buf f at_ es, p.parseShell buf = .ok (f, at_) → f.kind = c.kind →
      decodeBlocks decodeBlock follows buf 0 f.blocks [] = .ok es →
      decodeLayer buf = .ok (es, f) ∧ cursor buf = .ok ⟨f.blocks, 0, [], none, false⟩)
    {buf : List UInt8} (h : LayerBuilder.build c p target es = .ok (buf, f))
    (hlen : footerLen c target es < 2 ^ 32) :
    ReadsBack p c decodeLayer cursor decodeBlock follows es buf f := by
  obtain ⟨hv, hne, henc⟩ := (build_iff hc).mp h
  have hcut := cut_of_validate hc htarget hne hv hfits
  have hbody : f.body.length < 2 ^ 32 := by
    rw [henc.length_body]
    exact hlen
  obtain ⟨hf, hat⟩ := henc.proper hc hp hcut hne hbody
  generalize cutRuns c.fmt target [] 0 es = runs at henc hcut hat
  have hkind : f.kind = c.kind := by rw [henc.footer]
  have hblocks : f.blocks = runRows c p layerHeaderLen runs := by rw [henc.footer]
  have hpre : (header c.kind ++ runs.flatMap (storedRun c p)).take layerHeaderLen
      = header f.kind := by
    rw [hkind, ← length_header c.kind, List.take_left]
  have hstart : (header c.kind ++ runs.flatMap (storedRun c p)).length
      = layerHeaderLen + (f.blocks.map fun r => r.len).sum := by
    rw [hat, List.length_append, length_header]
    rfl
  have hshell := parseShell_finish hp hf hpre hstart hbody
  have hrows : List.Forall₂ (fun r run => decodeBlock (rowSlice buf r) r = .ok run) f.blocks
      runs := by
    have hbuf : buf = header c.kind ++ (runs.flatMap (storedRun c p)
        ++ (f.body ++ tailBytes f.body.length (shellCrc p f))) := by
      rw [henc.buf, finish_eq hpre hbody]
      simp
    rw [hbuf, hblocks, ← length_header c.kind]
    exact decode_rows hdec hcut _ _
  have hpw : ([] ++ runs.flatten).Pairwise (follows · ·) := by
    rw [List.nil_append, hcut.flatten]
    exact hcut.sorted.imp fun {a b} hb => hfollows a b hb
  have hes : decodeBlocks decodeBlock follows buf 0 f.blocks [] = .ok ([] ++ runs.flatten) :=
    decodeBlocks_runs hrows hpw
  rw [List.nil_append, hcut.flatten] at hes
  rw [← henc.buf] at hshell
  obtain ⟨hdecode, hcursor⟩ := hlayer buf f _ es hshell hkind hes
  obtain ⟨hlocate, hholds⟩ := locate_runs hc hcut hblocks
  have hwhole : p.readLayerFooter buf = .ok f := by
    rw [LayerPacking.readLayerFooter, hshell]
    rfl
  refine ⟨hdecode, ⟨_, hcursor, fun n hn => ?_⟩, ⟨runs, hcut.flatten, hrows, hholds⟩, hlocate,
    fun e he => ?_, hwhole, fun n hneed hn => ?_, fun n hn => ?_⟩
  · rw [drain_runs hrows hcut.ne hpw (by rw [List.nil_append, hcut.flatten]; exact hn),
      List.nil_append, hcut.flatten]
  · have hk : c.fmt.key e ∈ distinctKeys c.fmt none es := by
      rcases mem_distinctKeys ⟨e, he, rfl⟩ with h | h
      · exact h
      · cases h
    rw [CodedFooter.mayContain, henc.footer]
    exact Bloom.mayContain_fromHashes (List.mem_map_of_mem hk)
  · have hsuffix : p.footerAt f.kind buf n = .ok f := by
      rw [henc.buf] at hn ⊢
      rw [LayerPacking.footerAt, suffix_finish hp hf hpre hstart hbody (by omega) hn,
        if_neg (by omega)]
    rw [← hkind, hsuffix, hwhole]
  · have hrefetch : Refetches p f.kind buf f n ↔ tailLen ≤ n := by
      rw [henc.buf] at hn ⊢
      exact refetches_iff hp hf hpre hstart hbody hn
    rw [← hkind]
    exact hrefetch

/-- The checks of the pushes pass exactly on sorted entries that pass their
own check. -/
theorem validate_iff {fmt : EntryFormat E} (hl : fmt.Lawful) :
    validate fmt none es = .ok () ↔ es.Pairwise (fmt.before · ·) ∧ ∀ e ∈ es, fmt.check e = .ok () := by
  constructor
  · intro h
    obtain ⟨hcheck, hpw⟩ := validate_ok hl h
    exact ⟨hpw, hcheck⟩
  · rintro ⟨hpw, hcheck⟩
    have main : ∀ (es : List E) (last : Option E), (last.toList ++ es).Pairwise (fmt.before · ·) →
        (∀ e ∈ es, fmt.check e = .ok ()) → validate fmt last es = .ok () := by
      intro es
      induction es with
      | nil => exact fun _ _ _ => rfl
      | cons e es ih =>
        intro last hpw hcheck
        have hlast : ¬ last.any fun q => ! fmt.before q e := by
          cases last with
          | none => simp
          | some q =>
            have hq := (List.pairwise_cons.mp hpw).1 e List.mem_cons_self
            simp [hq]
        rw [validate, if_neg hlast, hcheck e List.mem_cons_self]
        exact ih (some e) (List.pairwise_append.mp hpw).2.1
          fun x hx => hcheck x (.tail _ hx)
    exact main es none hpw hcheck

theorem build_accepts (hc : c.Lawful) {target : Nat} :
    (∃ out, LayerBuilder.build c p target es = .ok out)
      ↔ es ≠ [] ∧ es.Pairwise (c.fmt.before · ·) ∧ ∀ e ∈ es, c.fmt.check e = .ok () := by
  constructor
  · rintro ⟨⟨buf, f⟩, h⟩
    obtain ⟨hv, hne, -⟩ := (build_iff hc).mp h
    exact ⟨hne, (validate_iff hc.fmt).mp hv⟩
  · rintro ⟨hne, hok⟩
    have hv := (validate_iff hc.fmt).mpr hok
    exact ⟨(_, _), (build_iff hc).mpr ⟨hv, hne, rfl, rfl⟩⟩

end RoundTrip

/-- The key and the lsn of an entry are within the source's widths. -/
def DeltaEntry.Fits (e : DeltaEntry) : Prop := e.key.Fits ∧ e.lsn < 2 ^ 64

/-- Delta and image layers of sorted entries, cut at any target up to the
limit, whose footers are shorter than four bytes can say. The encoders take
every such list that is not empty, and what they return reads back: the
whole object, the cursors, each block, the blocks of a stored key, the
filter, and the footer from a suffix, which after a short read is fetched
again at most once exactly when that read held the tail. -/
theorem layer_codec {p : LayerPacking} (hp : p.Lawful) {target : Nat}
    (htarget : target ≤ layerBlockTarget) : (∀ es : List DeltaEntry, (∀ e ∈ es, e.Fits) →
      ((∃ out, p.buildDelta es target = .ok out) ↔ es ≠ []
        ∧ es.Pairwise (fun a b => toLex (a.key, a.lsn) < toLex (b.key, b.lsn))
        ∧ ∀ e ∈ es, e.record.length ≤ maxRecordLen)
      ∧ ∀ buf f, p.buildDelta es target = .ok (buf, f) → footerLen deltaCoding target es < 2 ^ 32 →
        ReadsBack p deltaCoding p.decodeDelta p.deltaCursor p.decodeDeltaBlock deltaFormat.before
          es buf f)
    ∧ ∀ (lsn : Lsn) (es : List ImageEntry), lsn < 2 ^ 64 → (∀ e ∈ es, e.key.Fits) →
      ((∃ out, p.buildImage es lsn target = .ok out) ↔ es ≠ []
        ∧ es.Pairwise (fun a b => a.key < b.key) ∧ ∀ e ∈ es, e.page.length = pageImageLen)
      ∧ ∀ buf f, p.buildImage es lsn target = .ok (buf, f) →
        footerLen (imageCoding lsn) target es < 2 ^ 32 →
        ReadsBack p (imageCoding lsn) p.decodeImage p.imageCursor p.decodeImageBlock
          (fun _ _ => true) es buf f := by
  constructor
  · intro es hfits
    refine ⟨?_, fun buf f h hlen => ?_⟩
    · have hacc : (∃ out, p.buildDelta es target = .ok out) ↔ es ≠ []
          ∧ es.Pairwise (deltaFormat.before · ·) ∧ ∀ e ∈ es, deltaFormat.check e = .ok () :=
        build_accepts deltaCoding_lawful
      rw [hacc]
      simp [deltaFormat]
    · refine readsBack deltaCoding_lawful hp htarget (fun e he => ⟨(hfits e he).1, (hfits e he).2⟩)
        (decodes_delta hp) (fun a b hb => hb) ?_ h hlen
      intro buf f at_ es hshell hkind hes
      have hk : checkKind f .delta = .ok () := if_neg (not_not.mpr hkind)
      have hes' : decodeBlocks p.decodeDeltaBlock deltaFormat.before buf 0 f.blocks [] = .ok es :=
        hes
      unfold LayerPacking.decodeDelta LayerPacking.deltaCursor
      rw [hshell, ok_bind, ok_bind]
      dsimp only
      rw [hk, ok_bind, ok_bind, hes', ok_bind]
      exact ⟨rfl, rfl⟩
  · intro lsn es hlsn hfits
    refine ⟨?_, fun buf f h hlen => ?_⟩
    · have hacc : (∃ out, p.buildImage es lsn target = .ok out) ↔ es ≠ []
          ∧ es.Pairwise ((imageFormat lsn).before · ·)
          ∧ ∀ e ∈ es, (imageFormat lsn).check e = .ok () :=
        build_accepts (imageCoding_lawful lsn)
      rw [hacc]
      simp [imageFormat]
    · refine readsBack (imageCoding_lawful lsn) hp htarget (fun e he => ⟨hfits e he, hlsn⟩)
        (decodes_image hp lsn) (fun _ _ _ => rfl) ?_ h hlen
      intro buf f at_ es hshell hkind hes
      have hk : checkKind f .image = .ok () := if_neg (not_not.mpr hkind)
      unfold LayerPacking.decodeImage LayerPacking.imageCursor
      rw [hshell, ok_bind, ok_bind]
      dsimp only
      rw [hk, ok_bind, ok_bind, hes, ok_bind]
      exact ⟨rfl, rfl⟩

/-- What the encoders return as bytes is what the reader's model takes a
layer to be: its build succeeds too, with the same footer, the same entries
in each block and the length of the bytes. -/
theorem built_refines (p : LayerPacking) {target : Nat} (htarget : target ≤ layerBlockTarget) :
    (∀ es : List DeltaEntry, (∀ e ∈ es, e.Fits) → ∀ buf f,
      p.buildDelta es target = .ok (buf, f) →
      ∃ o, buildDelta p.storedLen p.crc es target = .ok o ∧ Refines deltaFormat target es buf f o)
    ∧ ∀ (lsn : Lsn) (es : List ImageEntry), lsn < 2 ^ 64 → (∀ e ∈ es, e.key.Fits) → ∀ buf f,
      p.buildImage es lsn target = .ok (buf, f) →
      ∃ o, buildImage p.storedLen p.crc es lsn target = .ok o
        ∧ Refines (imageFormat lsn) target es buf f o :=
  ⟨fun _ hfits _ _ => encoded_refines deltaCoding_lawful htarget fun e he =>
      ⟨(hfits e he).1, (hfits e he).2⟩,
    fun lsn _ hlsn hfits _ _ =>
      encoded_refines (imageCoding_lawful lsn) htarget fun e he => ⟨hfits e he, hlsn⟩⟩

/-! ## A short suffix -/

/-- The libraries on a short input. -/
def literalPacking : LayerPacking where
  compress := literalBlock
  decompress := literals
  crc c b := (crc32cAppend (UInt32.ofNat c) b).toNat

theorem literalPacking_lawful : literalPacking.Lawful where
  crc_lt c b := (crc32cAppend (UInt32.ofNat c) b).toNat_lt
  decompress_compress := literals_literalBlock

/-- Four records in two blocks, of which each has some of the first page. -/
def spanning : List DeltaEntry :=
  [⟨.page 1 2 3 0 5, 10, [7]⟩, ⟨.page 1 2 3 0 5, 20, [8, 8]⟩, ⟨.page 1 2 3 0 5, 30, [9]⟩,
    ⟨.page 1 2 3 0 6, 40, [1, 2, 3]⟩]

theorem spanning_fits : ∀ e ∈ spanning, e.Fits := by
  intro e he
  simp only [spanning, List.mem_cons, List.not_mem_nil, or_false] at he
  rcases he with rfl | rfl | rfl | rfl <;>
    exact ⟨⟨by decide, by decide, by decide, by decide, by decide, by decide⟩, by decide⟩

theorem layer_codec_spanning :
    ∃ buf f, literalPacking.buildDelta spanning 64 = .ok (buf, f)
      ∧ (f.blocks.map fun r => (r.entries, r.firstKey, r.lastKey)) =
        [(2, .page 1 2 3 0 5, .page 1 2 3 0 5), (2, .page 1 2 3 0 5, .page 1 2 3 0 6)]
      ∧ ReadsBack literalPacking deltaCoding literalPacking.decodeDelta literalPacking.deltaCursor
        literalPacking.decodeDeltaBlock deltaFormat.before spanning buf f := by
  obtain ⟨haccept, hread⟩ :=
    (layer_codec literalPacking_lawful (by decide : 64 ≤ layerBlockTarget)).1 spanning spanning_fits
  have hlen : footerLen deltaCoding 64 spanning < 2 ^ 32 := by decide +kernel
  have hblocks : ((literalPacking.buildDelta spanning 64).toOption.map fun x =>
      x.2.blocks.map fun r => (r.entries, r.firstKey, r.lastKey)) = some
        [(2, .page 1 2 3 0 5, .page 1 2 3 0 5), (2, .page 1 2 3 0 5, .page 1 2 3 0 6)] := by
    decide +kernel
  obtain ⟨⟨buf, f⟩, h⟩ := haccept.mpr ⟨by decide, by decide, by decide⟩
  rw [h] at hblocks
  exact ⟨buf, f, h, Option.some.inj hblocks, hread buf f h hlen⟩

theorem built_refines_spanning :
    ∃ buf f o, literalPacking.buildDelta spanning 64 = .ok (buf, f)
      ∧ buildDelta literalPacking.storedLen literalPacking.crc spanning 64 = .ok o
      ∧ o.size = buf.length
      ∧ o.blocks.map StoredBlock.body = [.delta (spanning.take 2), .delta (spanning.drop 2)] := by
  have haccept : ∃ out, literalPacking.buildDelta spanning 64 = .ok out :=
    (build_accepts deltaCoding_lawful).mpr ⟨by decide, by decide, by decide⟩
  obtain ⟨⟨buf, f⟩, h⟩ := haccept
  obtain ⟨o, ho, hrefines⟩ :=
    (built_refines literalPacking (by decide)).1 spanning spanning_fits buf f h
  have hruns : (cutRuns deltaFormat 64 [] 0 spanning).map deltaFormat.body
      = [.delta (spanning.take 2), .delta (spanning.drop 2)] := by
    decide +kernel
  exact ⟨buf, f, o, h, ho, hrefines.size, hrefines.bodies.trans hruns⟩

/-- One record of one page. -/
def oneRecord : List DeltaEntry := [⟨LayerKey.page 1 2 3 0 5, 10, [7]⟩]

def oneRecordLayer : Except LayerBuildError (List UInt8 × CodedFooter) :=
  literalPacking.buildDelta oneRecord layerBlockTarget

/-- A read of the last five bytes is told to ask for twelve, and the read
of those to ask for the 205 the footer takes with its tail. -/
theorem short_suffix_asks_twice :
    ∃ buf f, literalPacking.buildDelta oneRecord layerBlockTarget = .ok (buf, f)
      ∧ literalPacking.footerAt .delta buf 5 = .error (.truncated 5 12)
      ∧ literalPacking.footerAt .delta buf 12 = .error (.truncated 12 205)
      ∧ ¬ Refetches literalPacking .delta buf f 5 := by
  have hread : (oneRecordLayer.toOption.map fun x =>
      (literalPacking.footerAt .delta x.1 5, literalPacking.footerAt .delta x.1 12))
        = some (.error (.truncated 5 12), .error (.truncated 12 205)) := by
    decide +kernel
  cases h : oneRecordLayer with
  | error e =>
    rw [h] at hread
    cases hread
  | ok x =>
    obtain ⟨buf, f⟩ := x
    rw [h] at hread
    obtain ⟨h5, h12⟩ := Prod.mk.inj (Option.some.inj hread)
    refine ⟨buf, f, h, h5, h12, fun hre => ?_⟩
    obtain ⟨-, hok⟩ := hre 5 12 h5
    rw [h12] at hok
    cases hok

end Zou
