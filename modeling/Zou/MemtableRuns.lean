import Zou.LayerRoundTrip
import Zou.PageReadSpec

/-!
# The memtable over its runs

Inserts in any order of lsns, replays of places that are taken, and drains.
After every history the byte count and the lsn bounds are those of the
records held, and the records held are the last inserts of their places
since the last drain. A drain gives them strictly sorted, which is what the
layer encoder wants: it takes them when there is one and none is over its
cap, and a read of the layer is then the read of the table before.
-/

namespace Zou

/-! ## Histories -/

inductive MemOp where
  | insert (key : LayerKey) (lsn : Lsn) (record : List UInt8)
  | drain

namespace Memtable

def apply (m : Memtable) : MemOp → Memtable
  | .insert key lsn record => m.insert key lsn record
  | .drain => m.drainSorted.2

/-- The table after a history, the newest operation first. -/
def after : List MemOp → Memtable
  | [] => new
  | op :: earlier => (after earlier).apply op

/-- The record inserted last at a place since the last drain. -/
def lastInsert (key : LayerKey) (lsn : Lsn) : List MemOp → Option (List UInt8)
  | [] => none
  | .drain :: _ => none
  | .insert k l record :: earlier =>
    if k = key ∧ l = lsn then some record else lastInsert key lsn earlier

/-- The bytes of some records. -/
def total (es : List DeltaEntry) : Nat := es.foldr (fun e n => e.record.length + n) 0

/-- The count and the bounds are those of the records held. -/
structure Accounted (m : Memtable) : Prop where
  bytes : m.bytes = total m.iter
  none_iff : m.lsns = none ↔ m.iter = []
  bounds : ∀ lo hi, m.lsns = some (lo, hi) →
    (∃ e ∈ m.iter, e.lsn = lo) ∧ (∃ e ∈ m.iter, e.lsn = hi) ∧ ∀ e ∈ m.iter, lo ≤ e.lsn ∧ e.lsn ≤ hi

theorem total_iter (m : Memtable) : total m.iter = OrdMap.weight List.length m.entries.entries := by
  unfold total iter OrdMap.weight
  rw [List.foldr_map]

theorem accounted_new : Accounted new := ⟨rfl, ⟨fun _ => rfl, fun _ => rfl⟩,
  nofun⟩

/-- An insert has a record at its place and at no lsn that was not there. -/
theorem lsn_insert {m : Memtable} {key : LayerKey} {lsn l : Lsn} {record : List UInt8} :
    (∃ e ∈ (m.insert key lsn record).iter, e.lsn = l) ↔ l = lsn ∨ ∃ e ∈ m.iter, e.lsn = l := by
  constructor
  · rintro ⟨e, he, rfl⟩
    rcases mem_iter_insert.mp he with rfl | ⟨-, he⟩
    · exact .inl rfl
    · exact .inr ⟨e, he, rfl⟩
  · rintro (rfl | ⟨e, he, rfl⟩)
    · exact ⟨_, mem_iter_insert.mpr (.inl rfl), rfl⟩
    · by_cases hplace : e.key = key ∧ e.lsn = lsn
      · exact ⟨_, mem_iter_insert.mpr (.inl rfl), hplace.2.symm⟩
      · exact ⟨e, mem_iter_insert.mpr (.inr ⟨hplace, he⟩), rfl⟩

theorem Accounted.insert {m : Memtable} (h : m.Accounted) (key : LayerKey) (lsn : Lsn)
    (record : List UInt8) : (m.insert key lsn record).Accounted where
  bytes := by
    have hweight := OrdMap.weight_insertList List.length (k := toLex (key, lsn)) record
      m.entries.sorted
    rw [← OrdMap.get?_eq_lookupList, ← total_iter, ← h.bytes] at hweight
    rw [total_iter]
    show m.bytes + record.length - _ = OrdMap.weight List.length
      (OrdMap.insertList (toLex (key, lsn)) record m.entries.entries)
    omega
  none_iff := by
    refine ⟨nofun, fun hnil => ?_⟩
    have hmem : (⟨key, lsn, record⟩ : DeltaEntry) ∈ (m.insert key lsn record).iter :=
      mem_iter_insert.mpr (.inl rfl)
    rw [hnil] at hmem
    cases hmem
  bounds := by
    intro lo hi heq
    -- the widened bounds are lsns of the insert or of what was there
    have hin : ∀ {l}, (l = lsn ∨ ∃ e ∈ m.iter, e.lsn = l) →
        ∃ e ∈ (m.insert key lsn record).iter, e.lsn = l := fun hl => lsn_insert.mpr hl
    have hall : ∀ {P : Lsn → Prop}, P lsn → (∀ e ∈ m.iter, P e.lsn) →
        ∀ e ∈ (m.insert key lsn record).iter, P e.lsn := by
      intro P hnew hold e he
      rcases lsn_insert.mp ⟨e, he, rfl⟩ with heq | ⟨e', he', heq⟩
      · rwa [heq]
      · exact heq ▸ hold e' he'
    have hlsns : m.lsns.elim (lsn, lsn) (fun b => (min b.1 lsn, max b.2 lsn)) = (lo, hi) :=
      Option.some.inj heq
    cases hm : m.lsns with
    | none =>
      rw [hm] at hlsns
      obtain ⟨rfl, rfl⟩ := Prod.mk.inj hlsns
      have hnil := h.none_iff.mp hm
      refine ⟨hin (.inl rfl), hin (.inl rfl),
        hall (P := fun l => lsn ≤ l ∧ l ≤ lsn) ⟨le_rfl, le_rfl⟩ ?_⟩
      rw [hnil]
      exact fun e he => (List.not_mem_nil he).elim
    | some b =>
      obtain ⟨lo', hi'⟩ := b
      rw [hm] at hlsns
      obtain ⟨rfl, rfl⟩ := Prod.mk.inj hlsns
      obtain ⟨hlo, hhi, hbetween⟩ := h.bounds lo' hi' hm
      refine ⟨hin ?_, hin ?_, hall (P := fun l => min lo' lsn ≤ l ∧ l ≤ max hi' lsn)
        ⟨Nat.min_le_right _ _, Nat.le_max_right _ _⟩ fun e he => ?_⟩
      · rcases Nat.le_total lo' lsn with hle | hle
        · rw [Nat.min_eq_left hle]
          exact .inr hlo
        · exact .inl (Nat.min_eq_right hle)
      · rcases Nat.le_total hi' lsn with hle | hle
        · exact .inl (Nat.max_eq_right hle)
        · rw [Nat.max_eq_left hle]
          exact .inr hhi
      · obtain ⟨hl, hh⟩ := hbetween e he
        exact ⟨(Nat.min_le_left _ _).trans hl, hh.trans (Nat.le_max_left _ _)⟩

theorem accounted_after (ops : List MemOp) : (after ops).Accounted := by
  induction ops with
  | nil => exact accounted_new
  | cons op ops ih =>
    cases op with
    | insert key lsn record => exact ih.insert key lsn record
    | drain => exact accounted_new

/-- What is held is the last insert of its place since the last drain. -/
theorem mem_iter_after (ops : List MemOp) (key : LayerKey) (lsn : Lsn) (record : List UInt8) :
    (⟨key, lsn, record⟩ : DeltaEntry) ∈ (after ops).iter
      ↔ lastInsert key lsn ops = some record := by
  induction ops with
  | nil => exact ⟨fun h => (List.not_mem_nil h).elim, nofun⟩
  | cons op ops ih =>
    cases op with
    | drain => exact ⟨fun h => (List.not_mem_nil h).elim, nofun⟩
    | insert k l r =>
      rw [after, apply, mem_iter_insert, lastInsert]
      by_cases hplace : k = key ∧ l = lsn
      · obtain ⟨rfl, rfl⟩ := hplace
        rw [if_pos ⟨rfl, rfl⟩]
        constructor
        · rintro (heq | ⟨hne, -⟩)
          · rw [(DeltaEntry.mk.inj heq).2.2]
          · exact absurd ⟨rfl, rfl⟩ hne
        · rintro heq
          exact .inl (by rw [Option.some.inj heq])
      · rw [if_neg hplace, ← ih]
        constructor
        · rintro (heq | ⟨-, hmem⟩)
          · obtain ⟨hk, hl, -⟩ := DeltaEntry.mk.inj heq
            exact absurd ⟨hk.symm, hl.symm⟩ hplace
          · exact hmem
        · exact fun hmem => .inr ⟨fun hand => hplace ⟨hand.1.symm, hand.2.symm⟩, hmem⟩

/-! ## Reading the layer of a drain -/

theorem recordsFor_ascending (m : Memtable) (key : LayerKey) (floor upto : Lsn) :
    (m.recordsFor key floor upto).Pairwise fun a b => a.1 < b.1 := by
  unfold recordsFor
  rw [List.pairwise_map]
  refine ((iter_pairwise m).filter _).imp_of_mem ?_
  intro a b ha hb hlt
  have hka := (of_decide_eq_true (List.mem_filter.mp ha).2).1
  have hkb := (of_decide_eq_true (List.mem_filter.mp hb).2).1
  rcases Prod.Lex.toLex_lt_toLex.mp hlt with hkey | ⟨-, hlsn⟩
  · rw [hka, hkb] at hkey
    exact absurd hkey (lt_irrefl _)
  · exact hlsn

/-- A read that finds the records of the table up to its point, and no image,
gives what the table gives. -/
theorem records_of_exact {layers : List (LayerDesc × LayerBody)} {mem m : Memtable}
    {key : LayerKey} {upto : Lsn} {r : Reconstruction} (h : r.Exact layers mem key upto)
    (himage : ∀ b page, ¬ ImageAt layers key upto b page)
    (hrecord : ∀ l record, RecordAt layers mem key upto l record
      ↔ (⟨key, l, record⟩ : DeltaEntry) ∈ m.iter ∧ l ≤ upto) :
    r.base = none ∧ r.records = m.recordsFor key 0 upto := by
  have hbase : r.base = none ∧ r.baseLsn = none := by
    rcases h.base with ⟨hbase, hlsn, -⟩ | ⟨page, b, -, -, hat, -⟩
    · exact ⟨hbase, hlsn⟩
    · exact absurd hat (himage b page)
  have hfloor : r.baseLsn.getD 0 = 0 := by
    rw [hbase.2]
    rfl
  refine ⟨hbase.1, OrdMap.ascending_ext h.ascending (recordsFor_ascending ..) ?_⟩
  rintro ⟨l, record⟩
  rw [mem_recordsFor]
  constructor
  · intro hr
    obtain ⟨hat, hlo⟩ := h.sound l record hr
    rw [hfloor] at hlo
    obtain ⟨hmem, hle⟩ := (hrecord l record).mp hat
    exact ⟨hmem, hlo, hle⟩
  · rintro ⟨hmem, hlo, hle⟩
    obtain ⟨record', hr⟩ := h.complete l record ((hrecord l record).mpr ⟨hmem, hle⟩)
      (by rw [hfloor]; exact hlo)
    obtain ⟨hmem', -⟩ := (hrecord l record').mp (h.sound l record' hr).1
    have heq := (DeltaEntry.mk.inj (record_unique hmem hmem' rfl rfl)).2.2
    rwa [heq]

theorem table_reads (env : ReaderEnv) (m : Memtable) (budget : Nat) (key : LayerKey) (upto : Lsn) :
    ∃ map r rd, LayerMap.new [] = .ok map
      ∧ Total.exec (env.reconstruct map m key upto) ⟨[], BlockCache.new budget⟩ = (.ok r, rd)
      ∧ r.base = none ∧ r.records = m.recordsFor key 0 upto := by
  have hs : Serves env (fun _ => 1) [] := ⟨fun _ => Nat.one_pos, nofun⟩
  have hsame : SameNameSameObject env [] := nofun
  obtain ⟨map, hmap⟩ := hs.map
  obtain ⟨r, rd, hexec, -, hexact⟩ :=
    reconstruct_returns hs hsame hmap m key upto _ (coherent_new env [] budget)
  refine ⟨map, r, rd, hmap, hexec, records_of_exact hexact ?_ fun l record => ?_⟩
  · rintro b page ⟨d, es, hmem, -⟩
    cases hmem
  · constructor
    · rintro (⟨d, es, hmem, -⟩ | hmem)
      · cases hmem
      · exact hmem
    · exact fun hmem => .inr hmem

/-- The read of the layer built of what a table held, with nothing above it. -/
theorem layer_reads {m : Memtable} {stored : BlockBody → Nat} (hstored : ∀ b, 0 < stored b)
    {target : Nat} (htarget : target ≤ layerBlockTarget) {env : ReaderEnv} {o : LayerObj}
    (hbuild : buildDelta stored env.crc m.iter target = .ok o)
    (hfetch : env.fetch (LayerDesc.fromFooter o.footer o.size) = .ok o) (budget : Nat)
    (key : LayerKey) (upto : Lsn) :
    ∃ map r rd, LayerMap.new [LayerDesc.fromFooter o.footer o.size] = .ok map
      ∧ Total.exec (env.reconstruct map new key upto) ⟨[], BlockCache.new budget⟩ = (.ok r, rd)
      ∧ r.base = none ∧ r.records = m.recordsFor key 0 upto := by
  generalize hd : LayerDesc.fromFooter o.footer o.size = d at hfetch
  have hs : Serves env stored [(d, .delta m.iter)] := by
    refine ⟨hstored, fun d' body hmem => ?_⟩
    obtain ⟨rfl, rfl⟩ := Prod.mk.inj (List.mem_singleton.mp hmem)
    refine ⟨target, o, htarget, hbuild, hfetch, ?_⟩
    rw [← hd]
    exact ⟨rfl, rfl, rfl, rfl, rfl, rfl⟩
  have hsame : SameNameSameObject env [(d, .delta m.iter)] := by
    intro x hx y hy _
    rw [List.mem_singleton.mp hx, List.mem_singleton.mp hy]
  obtain ⟨map, hmap⟩ := hs.map
  obtain ⟨r, rd, hexec, -, hexact⟩ :=
    reconstruct_returns hs hsame hmap new key upto _ (coherent_new env _ budget)
  have hclamp : d.clamp upto = upto := by
    rw [← hd]
    rfl
  refine ⟨map, r, rd, hmap, hexec, records_of_exact hexact ?_ fun l record => ?_⟩
  · rintro b page ⟨d', es, hmem, -⟩
    cases (Prod.mk.inj (List.mem_singleton.mp hmem)).2
  · constructor
    · rintro (⟨d', es, hmem, hrec, hle⟩ | ⟨hmem, -⟩)
      · obtain ⟨rfl, hes⟩ := Prod.mk.inj (List.mem_singleton.mp hmem)
        cases hes
        exact ⟨hrec, hclamp ▸ hle⟩
      · cases hmem
    · rintro ⟨hrec, hle⟩
      exact .inl ⟨d, m.iter, List.mem_singleton.mpr rfl, hrec, hclamp.symm ▸ hle⟩

/-- What the encoder takes: something, with no record over the cap. -/
theorem build_drained (m : Memtable) (p : LayerPacking) (target : Nat) :
    (∃ out, p.buildDelta m.drainSorted.1 target = .ok out)
      ↔ m.iter ≠ [] ∧ ∀ e ∈ m.iter, e.record.length ≤ maxRecordLen := by
  have haccept : (∃ out, p.buildDelta m.drainSorted.1 target = .ok out) ↔ m.iter ≠ []
      ∧ m.iter.Pairwise (deltaFormat.before · ·)
      ∧ ∀ e ∈ m.iter, deltaFormat.check e = .ok () := build_accepts deltaCoding_lawful
  have hsorted : m.iter.Pairwise (deltaFormat.before · ·) :=
    (iter_pairwise m).imp fun hlt => decide_eq_true hlt
  have hcheck : ∀ e, deltaFormat.check e = .ok () ↔ e.record.length ≤ maxRecordLen := by
    intro e
    simp [deltaFormat]
  rw [haccept]
  simp only [hcheck, hsorted, true_and]

/-- After every history of inserts and drains the count and the bounds are
those of the records held; a drain gives the last insert of every place
since the last drain, strictly sorted, and leaves nothing; the encoder
takes it exactly when something is held and no record is over the cap; and
a read of the layer, up to any lsn, is the read of the table before the
drain. -/
theorem memtable_accounting (ops : List MemOp) : (after ops).Accounted
      ∧ ((after ops).drainSorted.1.Pairwise
          fun a b => toLex (a.key, a.lsn) < toLex (b.key, b.lsn))
      ∧ (∀ key lsn record, (⟨key, lsn, record⟩ : DeltaEntry) ∈ (after ops).drainSorted.1
          ↔ lastInsert key lsn ops = some record)
      ∧ (∀ (p : LayerPacking) target,
          (∃ out, p.buildDelta (after ops).drainSorted.1 target = .ok out)
            ↔ (after ops).iter ≠ [] ∧ ∀ e ∈ (after ops).iter, e.record.length ≤ maxRecordLen)
      ∧ ∀ (stored : BlockBody → Nat) (env : ReaderEnv) (target : Nat) (o : LayerObj),
          (∀ b, 0 < stored b) → target ≤ layerBlockTarget →
          buildDelta stored env.crc (after ops).drainSorted.1 target = .ok o →
          env.fetch (LayerDesc.fromFooter o.footer o.size) = .ok o →
          ∀ budget key upto, ∃ none_ one before_ after_ rd rd',
            LayerMap.new [] = .ok none_
              ∧ LayerMap.new [LayerDesc.fromFooter o.footer o.size] = .ok one
              ∧ Total.exec (env.reconstruct none_ (after ops) key upto)
                  ⟨[], BlockCache.new budget⟩ = (.ok before_, rd)
              ∧ Total.exec (env.reconstruct one (after (.drain :: ops)) key upto)
                  ⟨[], BlockCache.new budget⟩ = (.ok after_, rd')
              ∧ after_.base = before_.base ∧ after_.records = before_.records
              ∧ before_.records = (after ops).recordsFor key 0 upto := by
  refine ⟨accounted_after ops, iter_pairwise _, mem_iter_after ops, build_drained _, ?_⟩
  intro stored env target o hstored htarget hbuild hfetch budget key upto
  obtain ⟨none_, before_, rd, hnone, hbefore, hbase, hrecords⟩ :=
    table_reads env (after ops) budget key upto
  obtain ⟨one, after_, rd', hone, hafter, hbase', hrecords'⟩ :=
    layer_reads hstored htarget hbuild hfetch budget key upto
  exact ⟨none_, one, before_, after_, rd, rd', hnone, hone, hbefore, hafter,
    hbase'.trans hbase.symm, hrecords'.trans hrecords.symm, hrecords⟩

/-- A place inserted twice, out of order. -/
def replayed : List MemOp :=
  [.insert sampleKey 10 [1], .insert sampleKey 30 [3], .insert sampleKey 10 [9]]

theorem memtable_accounting_replayed :
    ∃ one after_ rd, LayerMap.new [sampleDesc ownEntries none none] = .ok one
      ∧ Total.exec (sampleEnv.reconstruct one (after (.drain :: replayed)) sampleKey 20)
          ⟨[], BlockCache.new 100⟩ = (.ok after_, rd)
      ∧ after_.records = [(10, [1])] := by
  have hdrained : (after replayed).drainSorted.1 = ownEntries := by decide +kernel
  cases hobj : sampleObj ownEntries with
  | error e =>
    have hsome : (sampleObj ownEntries).toOption.isSome = true := by decide +kernel
    rw [hobj] at hsome
    cases hsome
  | ok o =>
    have hdesc : sampleDesc ownEntries none none = LayerDesc.fromFooter o.footer o.size := by
      unfold sampleDesc
      rw [hobj]
      rfl
    have hfetch : (sampleEnv.fetch (sampleDesc ownEntries none none)).toOption
        = (sampleObj ownEntries).toOption := by decide +kernel
    have hok : sampleEnv.fetch (LayerDesc.fromFooter o.footer o.size) = .ok o := by
      rw [hdesc, hobj] at hfetch
      cases hf : sampleEnv.fetch (LayerDesc.fromFooter o.footer o.size) with
      | error e =>
        rw [hf] at hfetch
        cases hfetch
      | ok o' =>
        rw [hf] at hfetch
        exact congrArg _ (Option.some.inj hfetch)
    have hbuild : buildDelta (fun _ => 1) sampleEnv.crc (after replayed).drainSorted.1
        layerBlockTarget = .ok o := by
      rw [hdrained]
      exact hobj
    obtain ⟨-, one, before_, after_, -, rd', -, hone, -, hafter, -, heq, hbefore⟩ :=
      (memtable_accounting replayed).2.2.2.2 (fun _ => 1) sampleEnv layerBlockTarget o
        (fun _ => Nat.one_pos) le_rfl hbuild hok 100 sampleKey 20
    refine ⟨one, after_, rd', by rw [hdesc]; exact hone, hafter, ?_⟩
    rw [heq, hbefore]
    decide +kernel

/-- A table takes a record the encoder does not, and drains nothing when it
holds nothing. -/
theorem drain_not_taken :
    ¬ ∀ (ops : List MemOp) (p : LayerPacking) (target : Nat),
      ∃ out, p.buildDelta (after ops).drainSorted.1 target = .ok out := by
  intro h
  obtain ⟨-, hcap⟩ := (build_drained _ literalPacking layerBlockTarget).mp
    (h [.insert sampleKey 10 (List.replicate (maxRecordLen + 1) 0)] literalPacking
      layerBlockTarget)
  have hlen := hcap ⟨sampleKey, 10, List.replicate (maxRecordLen + 1) 0⟩
    (mem_iter_insert.mpr (.inl rfl))
  rw [List.length_replicate] at hlen
  exact absurd hlen (Nat.not_succ_le_self _)

end Memtable

end Zou
