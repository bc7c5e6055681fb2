import Zou.Layer

/-!
# What a built layer holds

The entries of a layer are those it was built from, each in one block, and
the index, the filter and the bounds of the footer let no entry of a key
be passed over. Both formats are covered at once by what they share: their
order is transitive and refines the order of keys.

- **building**: `validate_ok` says what a builder accepts, `cutRuns_spec`
  how it cuts the entries into blocks, and the `layout` lemmas where the
  blocks go; `holds_of_build` puts them together.
- **reading**: an object that `Holds` its entries gives every row of its
  index a block, and locates a key in the rows that have an entry of it.
-/

namespace Zou

theorem foldl_min_le {E : Type} {f : E → Nat} {e : E} : ∀ {es : List E} {m : Nat}, e ∈ es →
    es.foldl (fun m e => min m (f e)) m ≤ f e := by
  intro es m he
  have hle : ∀ (es : List E) (m : Nat), es.foldl (fun m e => min m (f e)) m ≤ m := by
    intro es
    induction es with
    | nil => exact fun m => Nat.le_refl m
    | cons a es ih => exact fun m => Nat.le_trans (ih _) (Nat.min_le_left ..)
  induction es generalizing m with
  | nil => cases he
  | cons a es ih =>
    rcases List.mem_cons.mp he with rfl | he
    · exact Nat.le_trans (hle es _) (Nat.min_le_right ..)
    · exact ih he

theorem le_foldl_min {E : Type} {f : E → Nat} {a : Nat} : ∀ {es : List E} {m : Nat},
    (∀ e ∈ es, a ≤ f e) → a ≤ m → a ≤ es.foldl (fun m e => min m (f e)) m := by
  intro es
  induction es with
  | nil => exact fun _ hm => hm
  | cons e es ih =>
    intro m h hm
    refine ih (fun e he => h e (.tail _ he)) ?_
    exact Nat.le_min.mpr ⟨hm, h e List.mem_cons_self⟩

theorem le_foldl_max {E : Type} {f : E → Nat} {e : E} : ∀ {es : List E} {m : Nat}, e ∈ es →
    f e ≤ es.foldl (fun m e => max m (f e)) m := by
  intro es m he
  have hle : ∀ (es : List E) (m : Nat), m ≤ es.foldl (fun m e => max m (f e)) m := by
    intro es
    induction es with
    | nil => exact fun m => Nat.le_refl m
    | cons a es ih => exact fun m => Nat.le_trans (Nat.le_max_left ..) (ih _)
  induction es generalizing m with
  | nil => cases he
  | cons a es ih =>
    rcases List.mem_cons.mp he with rfl | he
    · exact Nat.le_trans (Nat.le_max_right ..) (hle es _)
    · exact ih he

structure EntryFormat.Lawful {E : Type} (fmt : EntryFormat E) : Prop where
  trans : ∀ {a b c}, fmt.before a b = true → fmt.before b c = true → fmt.before a c = true
  key_le : ∀ {a b}, fmt.before a b = true → fmt.key a ≤ fmt.key b
  size_le : ∀ {e}, fmt.check e = .ok () → fmt.size e ≤ maxBlockRawLen
  bounds_le : ∀ {es e}, e ∈ es → (fmt.bounds es).1 ≤ fmt.lsn e ∧ fmt.lsn e ≤ (fmt.bounds es).2
  body_inj : ∀ {r r'}, fmt.body r = fmt.body r' → r = r'

theorem deltaFormat_lawful : deltaFormat.Lawful where
  trans h h' := by
    simp only [deltaFormat, decide_eq_true_eq] at *
    exact lt_trans h h'
  key_le h := by
    simp only [deltaFormat, decide_eq_true_eq, Prod.Lex.toLex_lt_toLex] at *
    rcases h with h | ⟨h, -⟩
    · exact le_of_lt h
    · exact le_of_eq h
  size_le {e} h := by
    by_cases hlong : e.record.length > maxRecordLen
    · simp [deltaFormat, hlong] at h
    · simp only [deltaFormat, maxBlockRawLen]
      omega
  bounds_le he := ⟨foldl_min_le he, le_foldl_max he⟩
  body_inj h := BlockBody.delta.inj h

theorem imageFormat_lawful (lsn : Lsn) : (imageFormat lsn).Lawful where
  trans h h' := by
    simp only [imageFormat, decide_eq_true_eq] at *
    exact lt_trans h h'
  key_le h := by
    simp only [imageFormat, decide_eq_true_eq] at *
    exact le_of_lt h
  size_le _ := by
    simp only [imageFormat, maxBlockRawLen, keyEncodedLen, pageImageLen, layerBlockTarget]
    omega
  bounds_le _ := ⟨le_rfl, le_rfl⟩
  body_inj h := BlockBody.image.inj h

section

variable {E : Type} {fmt : EntryFormat E} {stored : BlockBody → Nat}
  {crc : Nat → List UInt8 → Nat}

/-- What a builder accepts passes the check of its format, entry by entry, and
is in order behind what came last. -/
theorem validate_ok (hl : fmt.Lawful) : ∀ {es : List E} {last : Option E},
    validate fmt last es = .ok () →
      (∀ e ∈ es, fmt.check e = .ok ()) ∧ (last.toList ++ es).Pairwise (fmt.before · ·) := by
  intro es
  induction es with
  | nil =>
    intro last _
    refine ⟨nofun, ?_⟩
    cases last with
    | none => exact List.Pairwise.nil
    | some p => exact List.pairwise_singleton _ _
  | cons e es ih =>
    intro last h
    rw [validate] at h
    split at h
    · cases h
    · rename_i hlast
      cases hcheck : fmt.check e with
      | error err =>
        rw [hcheck] at h
        cases h
      | ok u =>
        rw [hcheck] at h
        obtain ⟨hall, hpw⟩ := ih h
        refine ⟨fun x hx => ?_, ?_⟩
        · rcases List.mem_cons.mp hx with rfl | hx
          · exact hcheck
          · exact hall x hx
        · cases last with
          | none => exact hpw
          | some p =>
            have hpe : fmt.before p e = true := by simpa using hlast
            refine List.pairwise_cons.mpr ⟨fun x hx => ?_, hpw⟩
            rcases List.mem_cons.mp hx with rfl | hx
            · exact hpe
            · exact hl.trans hpe ((List.pairwise_cons.mp hpw).1 x hx)

variable {target : Nat}

/-- The runs are the entries, none is empty, and each is one entry or
within the target. -/
theorem cutRuns_spec : ∀ {es cur : List E} {raw : Nat},
    raw = (cur.map fmt.size).sum → (cur.length ≤ 1 ∨ raw ≤ target) → cur ++ es ≠ [] →
      (cutRuns fmt target cur raw es).flatten = cur ++ es
        ∧ ∀ run ∈ cutRuns fmt target cur raw es,
          run ≠ [] ∧ (run.length ≤ 1 ∨ (run.map fmt.size).sum ≤ target) := by
  intro es
  induction es with
  | nil =>
    intro cur raw hraw hsmall hne
    refine ⟨by simp [cutRuns], fun run hrun => ?_⟩
    rw [cutRuns, List.mem_singleton] at hrun
    subst hrun hraw
    exact ⟨by simpa using hne, hsmall⟩
  | cons e es ih =>
    intro cur raw hraw hsmall _
    rw [cutRuns]
    split
    · rename_i hcut
      have hone : fmt.size e = (([e] : List E).map fmt.size).sum := by simp
      obtain ⟨hflat, hruns⟩ := ih hone (.inl le_rfl) (by simp)
      refine ⟨by rw [List.flatten_cons, hflat]; rfl, fun run hrun => ?_⟩
      rcases List.mem_cons.mp hrun with rfl | hrun
      · exact ⟨hcut.1, by rw [← hraw]; exact hsmall⟩
      · exact hruns run hrun
    · rename_i hcut
      have hsum : raw + fmt.size e = ((cur ++ [e]).map fmt.size).sum := by
        rw [List.map_append, List.sum_append, ← hraw]
        simp
      have hsmall' : (cur ++ [e]).length ≤ 1 ∨ raw + fmt.size e ≤ target := by
        by_cases hcur : cur = []
        · left
          simp [hcur]
        · right
          by_contra hlong
          exact hcut ⟨hcur, by omega⟩
      obtain ⟨hflat, hruns⟩ := ih hsum hsmall' (by simp)
      exact ⟨by rw [hflat, List.append_assoc]; rfl, hruns⟩

variable {runs : List (List E)}

/-- Every block that is laid out is of one of the runs. -/
theorem mem_layout {b : StoredBlock} : ∀ {off : Nat},
    b ∈ layout fmt stored off runs →
      ∃ run ∈ runs, ∃ o, off ≤ o ∧ b = ⟨blockRow fmt stored o run, fmt.body run⟩ := by
  induction runs with
  | nil =>
    nofun
  | cons run runs ih =>
    intro off h
    rcases List.mem_cons.mp h with rfl | h
    · exact ⟨run, List.mem_cons_self, off, le_rfl, rfl⟩
    · obtain ⟨r, hr, o, ho, rfl⟩ := ih h
      exact ⟨r, .tail _ hr, o, by omega, rfl⟩

variable {run : List E}

/-- Every run has its block. -/
theorem layout_of_mem : ∀ {off : Nat}, run ∈ runs →
    ∃ o, (⟨blockRow fmt stored o run, fmt.body run⟩ : StoredBlock)
      ∈ layout fmt stored off runs := by
  induction runs with
  | nil =>
    nofun
  | cons r runs ih =>
    intro off h
    rcases List.mem_cons.mp h with rfl | h
    · exact ⟨off, List.mem_cons_self⟩
    · obtain ⟨o, ho⟩ : ∃ o, (⟨blockRow fmt stored o run, fmt.body run⟩ : StoredBlock)
          ∈ layout fmt stored (off + stored (fmt.body r)) runs := ih h
      exact ⟨o, .tail _ ho⟩

theorem layout_offsets (hstored : ∀ b, 0 < stored b) : ∀ {off : Nat},
    (layout fmt stored off runs).Pairwise fun a b => a.row.offset < b.row.offset := by
  induction runs with
  | nil => exact List.Pairwise.nil
  | cons run runs ih =>
    intro off
    refine List.pairwise_cons.mpr ⟨fun b hb => ?_, ih⟩
    obtain ⟨r, -, o, ho, rfl⟩ := mem_layout hb
    have hpos := hstored (fmt.body run)
    simp only [blockRow]
    omega

/-- The keys in a row of the index bound those of its block. -/
theorem blockRow_covers (hl : fmt.Lawful) {off : Nat} {e : E} (hpw : run.Pairwise (fmt.before · ·))
    (he : e ∈ run) : (blockRow fmt stored off run).firstKey ≤ fmt.key e
      ∧ fmt.key e ≤ (blockRow fmt stored off run).lastKey := by
  have hne : run ≠ [] := List.ne_nil_of_mem he
  constructor
  · cases run with
    | nil => exact absurd rfl hne
    | cons a run =>
      rcases List.mem_cons.mp he with rfl | he
      · exact le_refl _
      · exact hl.key_le ((List.pairwise_cons.mp hpw).1 e he)
  · obtain ⟨run, z, rfl⟩ : ∃ run' z, run = run' ++ [z] :=
      ⟨_, _, (List.dropLast_append_getLast hne).symm⟩
    have hlast : (blockRow fmt stored off (run ++ [z])).lastKey = fmt.key z := by
      simp [blockRow]
    rw [hlast]
    rcases List.mem_append.mp he with he | he
    · exact hl.key_le ((List.pairwise_append.mp hpw).2.2 e he z (List.mem_singleton.mpr rfl))
    · rw [List.mem_singleton.mp he]

theorem blockRow_keys {off : Nat} (hne : run ≠ []) :
    (∃ a ∈ run, fmt.key a = (blockRow fmt stored off run).firstKey)
      ∧ ∃ z ∈ run, fmt.key z = (blockRow fmt stored off run).lastKey := by
  constructor
  · obtain ⟨a, run, rfl⟩ := List.exists_cons_of_ne_nil hne
    exact ⟨a, List.mem_cons_self, rfl⟩
  · refine ⟨run.getLast hne, List.getLast_mem hne, ?_⟩
    simp [blockRow, List.getLast?_eq_some_getLast hne]

/-- The rows of the index are in the order of their first keys, and of their
last. -/
theorem layout_sorted (hl : fmt.Lawful)
    (hpw : runs.flatten.Pairwise (fmt.before · ·)) (hne : ∀ run ∈ runs, run ≠ []) :
    ∀ {off : Nat}, ((layout fmt stored off runs).map StoredBlock.row).Pairwise
      fun a b => a.firstKey ≤ b.firstKey ∧ a.lastKey ≤ b.lastKey := by
  induction runs with
  | nil => exact List.Pairwise.nil
  | cons run runs ih =>
    intro off
    rw [List.flatten_cons, List.pairwise_append] at hpw
    refine List.pairwise_cons.mpr ⟨fun row hrow => ?_, ih hpw.2.1 fun r hr =>
      hne r (.tail _ hr)⟩
    obtain ⟨b, hb, rfl⟩ := List.mem_map.mp hrow
    obtain ⟨r, hr, o, -, rfl⟩ := mem_layout hb
    obtain ⟨⟨a, ha, hak⟩, z, hz, hzk⟩ := blockRow_keys (hne run List.mem_cons_self)
    obtain ⟨⟨c, hc, hck⟩, y, hy, hyk⟩ := blockRow_keys (hne r (.tail _ hr))
    have hbefore : ∀ x ∈ run, ∀ w ∈ r, fmt.key x ≤ fmt.key w := fun x hx w hw =>
      hl.key_le (hpw.2.2 x hx w (List.mem_flatten.mpr ⟨r, hr, hw⟩))
    rw [← hak, ← hzk, ← hck, ← hyk]
    exact ⟨hbefore a ha c hc, hbefore z hz y hy⟩

variable {es : List E}

/-- The filter is made of the keys of the entries. -/
theorem mem_distinctKeys {k : LayerKey} : ∀ {last : Option LayerKey},
    (∃ e ∈ es, fmt.key e = k) → k ∈ distinctKeys fmt last es ∨ last = some k := by
  induction es with
  | nil =>
    rintro last ⟨e, he, -⟩
    cases he
  | cons a es ih =>
    rintro last ⟨e, he, rfl⟩
    rw [distinctKeys]
    split
    · rename_i hlast
      rcases List.mem_cons.mp he with rfl | he
      · exact .inr hlast
      · exact ih ⟨e, he, rfl⟩
    · left
      rcases List.mem_cons.mp he with rfl | he
      · exact List.mem_cons_self
      · have hrest : fmt.key e ∈ distinctKeys fmt (some (fmt.key a)) es
            ∨ some (fmt.key a) = some (fmt.key e) := ih ⟨e, he, rfl⟩
        rcases hrest with h | h
        · exact .tail _ h
        · rw [← Option.some.inj h]
          exact List.mem_cons_self

/-- A layer object that holds exactly the entries `es`. -/
structure LayerObj.Holds (crc : Nat → List UInt8 → Nat) (fmt : EntryFormat E) (o : LayerObj)
    (es : List E) : Prop where
  rows : o.footer.blocks = o.blocks.map StoredBlock.row
  sorted : o.footer.blocks.Pairwise fun a b => a.firstKey ≤ b.firstKey
  offsets : o.blocks.Pairwise fun a b => a.row.offset < b.row.offset
  runs : ∀ b ∈ o.blocks, ∃ run, b.body = fmt.body run
    ∧ run.head?.map fmt.key = some b.row.firstKey
    ∧ run.getLast?.map fmt.key = some b.row.lastKey
    ∧ b.row.rawLen ≤ maxBlockRawLen
    ∧ ∀ e ∈ run, e ∈ es ∧ b.row.firstKey ≤ fmt.key e ∧ fmt.key e ≤ b.row.lastKey
  all : ∀ e ∈ es, ∃ b ∈ o.blocks, ∃ run, b.body = fmt.body run ∧ e ∈ run
  filter : ∀ e ∈ es, o.footer.mayContain crc (fmt.key e) = true
  keys : ∀ e ∈ es, o.footer.minKey ≤ fmt.key e ∧ fmt.key e ≤ o.footer.maxKey
  lsns : ∀ e ∈ es, o.footer.minLsn ≤ fmt.lsn e ∧ fmt.lsn e ≤ o.footer.maxLsn

variable {o : LayerObj}

theorem buildLayer_ok {kind : LayerKind} (h : buildLayer fmt stored crc kind target es = .ok o) :
    validate fmt none es = .ok () ∧ es ≠ []
      ∧ o.blocks = layout fmt stored layerHeaderLen (cutRuns fmt target [] 0 es)
      ∧ o.footer.kind = kind
      ∧ o.footer.minKey = ((o.blocks.map StoredBlock.row).head?.map LayerBlock.firstKey).getD
          (LayerKey.page 0 0 0 0 0)
      ∧ o.footer.maxKey = ((o.blocks.map StoredBlock.row).getLast?.map LayerBlock.lastKey).getD
          (LayerKey.page 0 0 0 0 0)
      ∧ (o.footer.minLsn, o.footer.maxLsn) = fmt.bounds es
      ∧ o.footer.blocks = o.blocks.map StoredBlock.row
      ∧ o.footer.bloom = Bloom.fromHashes ((distinctKeys fmt none es).map (Bloom.hash crc)) := by
  unfold buildLayer at h
  cases hv : validate fmt none es with
  | error err =>
    rw [hv] at h
    cases h
  | ok u =>
    rw [hv] at h
    cases es with
    | nil => cases h
    | cons e es =>
      cases h
      exact ⟨rfl, nofun, rfl, rfl, rfl, rfl, rfl, rfl, rfl⟩

/-- No block is longer than a reader takes: it is of one entry that passed the
check, or within the target. -/
theorem rawLen_le (hl : fmt.Lawful) {off : Nat}
    (hcheck : ∀ e ∈ run, fmt.check e = .ok ())
    (hsize : run.length ≤ 1 ∨ (run.map fmt.size).sum ≤ target) (htarget : target ≤ layerBlockTarget) :
    (blockRow fmt stored off run).rawLen ≤ maxBlockRawLen := by
  have hcap : layerBlockTarget ≤ maxBlockRawLen := by
    unfold maxBlockRawLen
    omega
  rcases hsize with hone | hsum
  · match run, hone, hcheck with
    | [], _, _ => exact Nat.zero_le _
    | [e], _, hcheck =>
      have he := hl.size_le (hcheck e (List.mem_singleton.mpr rfl))
      simpa [blockRow] using he
  · exact Nat.le_trans hsum (Nat.le_trans htarget hcap)

variable {row : LayerBlock}

theorem head_le {rows : List LayerBlock}
    (h : rows.Pairwise fun a b => a.firstKey ≤ b.firstKey) (hrow : row ∈ rows) :
    (rows.head?.map LayerBlock.firstKey).getD (LayerKey.page 0 0 0 0 0) ≤ row.firstKey := by
  cases rows with
  | nil => cases hrow
  | cons a rows =>
    rcases List.mem_cons.mp hrow with rfl | hrow
    · exact le_refl _
    · exact (List.pairwise_cons.mp h).1 row hrow

theorem le_last {rows : List LayerBlock}
    (h : rows.Pairwise fun a b => a.lastKey ≤ b.lastKey) (hrow : row ∈ rows) :
    row.lastKey ≤ (rows.getLast?.map LayerBlock.lastKey).getD (LayerKey.page 0 0 0 0 0) := by
  have hne := List.ne_nil_of_mem hrow
  rw [List.getLast?_eq_some_getLast hne, Option.map_some, Option.getD_some]
  rw [← List.dropLast_append_getLast hne] at h hrow
  rcases List.mem_append.mp hrow with hrow | hrow
  · exact (List.pairwise_append.mp h).2.2 row hrow _ (List.mem_singleton.mpr rfl)
  · rw [List.mem_singleton.mp hrow]

/-- What is built holds what it was built of, and nothing else. -/
theorem holds_of_build (hl : fmt.Lawful) (hstored : ∀ b, 0 < stored b) {kind : LayerKind} (htarget : target ≤ layerBlockTarget)
    (h : buildLayer fmt stored crc kind target es = .ok o) : o.Holds crc fmt es := by
  obtain ⟨hv, hne, hblocks, -, hmin, hmax, hlsn, hrows, hbloom⟩ := buildLayer_ok h
  obtain ⟨hcheck, hpw⟩ := validate_ok hl hv
  rw [Option.toList_none, List.nil_append] at hpw
  have hspec : (cutRuns fmt target [] 0 es).flatten = [] ++ es
      ∧ ∀ run ∈ cutRuns fmt target [] 0 es,
        run ≠ [] ∧ (run.length ≤ 1 ∨ (run.map fmt.size).sum ≤ target) :=
    cutRuns_spec rfl (.inl (Nat.zero_le _)) (by simpa using hne)
  obtain ⟨hflat, hruns⟩ := hspec
  rw [List.nil_append] at hflat
  generalize cutRuns fmt target [] 0 es = runs at hblocks hflat hruns
  rw [← hflat] at hpw
  have hrunpw : ∀ run ∈ runs, run.Pairwise (fmt.before · ·) := (List.pairwise_flatten.mp hpw).1
  have hsorted : o.footer.blocks.Pairwise
      fun a b => a.firstKey ≤ b.firstKey ∧ a.lastKey ≤ b.lastKey := by
    rw [hrows, hblocks]
    exact layout_sorted hl hpw fun run hrun => (hruns run hrun).1
  have hin : ∀ run ∈ runs, ∀ e ∈ run, e ∈ es := fun run hrun e he => by
    rw [← hflat]
    exact List.mem_flatten.mpr ⟨run, hrun, he⟩
  have hall : ∀ e ∈ es, ∃ run ∈ runs, e ∈ run := fun e he => by
    rw [← hflat] at he
    exact List.mem_flatten.mp he
  refine ⟨hrows, hsorted.imp fun h => h.1, ?_, ?_, ?_, ?_, ?_, ?_⟩
  · rw [hblocks]
    exact layout_offsets hstored
  · intro b hb
    rw [hblocks] at hb
    obtain ⟨run, hrun, off, -, rfl⟩ := mem_layout hb
    obtain ⟨hne', hsize⟩ := hruns run hrun
    refine ⟨run, rfl, ?_, ?_, ?_, fun e he =>
      ⟨hin run hrun e he, blockRow_covers hl (hrunpw run hrun) he⟩⟩
    · obtain ⟨a, run, rfl⟩ := List.exists_cons_of_ne_nil hne'
      rfl
    · have hlast := List.getLast?_eq_some_getLast hne'
      simp [blockRow, hlast]
    · exact rawLen_le hl (fun e he => hcheck e (hin run hrun e he)) hsize htarget
  · intro e he
    obtain ⟨run, hrun, her⟩ := hall e he
    obtain ⟨off, hoff⟩ := layout_of_mem hrun
    exact ⟨_, by rw [hblocks]; exact hoff, run, rfl, her⟩
  · intro e he
    have hk : fmt.key e ∈ distinctKeys fmt none es := by
      rcases mem_distinctKeys ⟨e, he, rfl⟩ with h | h
      · exact h
      · cases h
    rw [LayerFooter.mayContain, hbloom]
    exact Bloom.mayContain_fromHashes (List.mem_map_of_mem hk)
  · intro e he
    obtain ⟨run, hrun, her⟩ := hall e he
    obtain ⟨off, hoff⟩ := layout_of_mem hrun
    have hrow : blockRow fmt stored off run ∈ o.footer.blocks := by
      rw [hrows, hblocks]
      exact List.mem_map_of_mem hoff
    have hcov : (blockRow fmt stored off run).firstKey ≤ fmt.key e
        ∧ fmt.key e ≤ (blockRow fmt stored off run).lastKey :=
      blockRow_covers hl (hrunpw run hrun) her
    rw [← hrows] at hmin hmax
    rw [hmin, hmax]
    exact ⟨le_trans (head_le (hsorted.imp fun h => h.1) hrow) hcov.1,
      le_trans hcov.2 (le_last (hsorted.imp fun h => h.2) hrow)⟩
  · intro e he
    have hb := hl.bounds_le he
    rw [← hlsn] at hb
    exact hb

/-! ## Reading a layer back -/

theorem LayerObj.Holds.blockAt (h : o.Holds crc fmt es)
    {b : StoredBlock} (hb : b ∈ o.blocks) : o.blockAt b.row.offset b.row.len = some b := by
  have main : ∀ bs : List StoredBlock, bs.Pairwise (fun a b => a.row.offset < b.row.offset) →
      b ∈ bs → bs.find? (fun c => c.row.offset = b.row.offset ∧ c.row.len = b.row.len)
        = some b := by
    intro bs
    induction bs with
    | nil =>
      nofun
    | cons c bs ih =>
      intro hpw hb
      rcases List.mem_cons.mp hb with rfl | hb
      · simp
      · have hlt := (List.pairwise_cons.mp hpw).1 b hb
        have hno : ¬ (c.row.offset = b.row.offset ∧ c.row.len = b.row.len) := fun h => by omega
        rw [List.find?_cons, decide_eq_false hno]
        exact ih (List.pairwise_cons.mp hpw).2 hb
  exact main o.blocks h.offsets hb

/-- No row that has an entry of the key is passed over. -/
theorem LayerObj.Holds.located (h : o.Holds crc fmt es) (hl : fmt.Lawful) {e : E} (he : e ∈ es) :
    ∃ b ∈ o.blocks, b.row ∈ o.footer.locate (fmt.key e)
      ∧ ∃ run, b.body = fmt.body run ∧ e ∈ run := by
  obtain ⟨b, hb, run, hbody, her⟩ := h.all e he
  obtain ⟨run', hbody', -, -, -, hcov⟩ := h.runs b hb
  obtain rfl : run = run' := hl.body_inj (hbody.symm.trans hbody')
  obtain ⟨-, hlo, hhi⟩ := hcov e her
  refine ⟨b, hb, BlockIndex.mem_locate h.sorted ?_ hlo hhi, run, hbody, her⟩
  rw [h.rows]
  exact List.mem_map_of_mem hb

/-- A row that is located has its block. -/
theorem LayerObj.Holds.of_located (h : o.Holds crc fmt es) {key : LayerKey}
    (hrow : row ∈ o.footer.locate key) : ∃ b ∈ o.blocks, b.row = row := by
  have hmem := BlockIndex.mem_of_mem_locate hrow
  rw [h.rows] at hmem
  exact List.mem_map.mp hmem

end

theorem decodeDeltaBlock_ok {crc : Nat → List UInt8 → Nat} {o : LayerObj} {es : List DeltaEntry}
    (h : o.Holds crc deltaFormat es) {b : StoredBlock} (hb : b ∈ o.blocks) :
    ∃ run, decodeDeltaBlock b b.row = .ok run ∧ b.body = .delta run ∧ ∀ e ∈ run, e ∈ es := by
  obtain ⟨run, hbody, hfirst, hlast, hraw, hrun⟩ := h.runs b hb
  refine ⟨run, ?_, hbody, fun e he => (hrun e he).1⟩
  have hno : ¬ (b.row ≠ b.row ∨ b.row.rawLen > maxBlockRawLen) := by
    rintro (hne | hbig)
    · exact hne rfl
    · omega
  have hbody' : b.body = .delta run := hbody
  have hfirst' : run.head?.map DeltaEntry.key = some b.row.firstKey := hfirst
  have hlast' : run.getLast?.map DeltaEntry.key = some b.row.lastKey := hlast
  simp only [decodeDeltaBlock, blockRaw, if_neg hno, hbody', hfirst', hlast', and_self, if_true]

theorem decodeImageBlock_ok {crc : Nat → List UInt8 → Nat} {lsn : Lsn} {o : LayerObj}
    {es : List ImageEntry} (h : o.Holds crc (imageFormat lsn) es) {b : StoredBlock}
    (hb : b ∈ o.blocks) :
    ∃ run, decodeImageBlock b b.row = .ok run ∧ b.body = .image run ∧ ∀ e ∈ run, e ∈ es := by
  obtain ⟨run, hbody, hfirst, hlast, hraw, hrun⟩ := h.runs b hb
  refine ⟨run, ?_, hbody, fun e he => (hrun e he).1⟩
  have hno : ¬ (b.row ≠ b.row ∨ b.row.rawLen > maxBlockRawLen) := by
    rintro (hne | hbig)
    · exact hne rfl
    · omega
  have hbody' : b.body = .image run := hbody
  have hfirst' : run.head?.map ImageEntry.key = some b.row.firstKey := hfirst
  have hlast' : run.getLast?.map ImageEntry.key = some b.row.lastKey := hlast
  simp only [decodeImageBlock, blockRaw, if_neg hno, hbody', hfirst', hlast', and_self, if_true]

end Zou
