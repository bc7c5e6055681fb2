import Zou.MergedFull
import Zou.PageRunsSafety

/-!
# A merged full answers what the read path answered

The merge goes through the chain once for all blocks, a read walks it for
one. For one block the sets of the merge say what the walk knows at the
same index: a block is dead in the merge when the walk was stopped, and
picked where the walk hits. The same holds for the sizes of one fork. What
is left are the two ways in which the pack departs from a read: it drops
blocks at or past the size of their fork, and it does not look at the
events of the tail.
-/

namespace Zou

open Store (Prog World)

namespace Merge

/-! ## One index -/

/-- Whether an event of a newer index hides older sizes of the fork. -/
def blocked (m : Merge) (f : ForkTag) : Bool :=
  decide (f.rel ∈ m.masked) || (decide (f.fork ≠ 0) && (m.cuts.get? f.rel).isSome)

theorem foldl_addEntry (i : Nat) : ∀ (l : List BlockRef) (m : Merge),
    (l.foldl (addEntry i) m).masked = m.masked
      ∧ (l.foldl (addEntry i) m).cuts = m.cuts
      ∧ (l.foldl (addEntry i) m).sizes = m.sizes
      ∧ (∀ r, r ∈ (l.foldl (addEntry i) m).seen ↔ r ∈ m.seen ∨ (r ∈ l ∧ m.dead r = false))
      ∧ ∀ r j, (r, j) ∈ (l.foldl (addEntry i) m).picked
          ↔ (r, j) ∈ m.picked ∨ (j = i ∧ r ∈ l ∧ m.dead r = false ∧ r ∉ m.seen) := by
  intro l
  induction l with
  | nil => intro m; simp
  | cons a l ih =>
    intro m
    obtain ⟨hmask, hcuts, hsizes, hseen, hpicked⟩ := ih (addEntry i m a)
    have hdead : ∀ r, (addEntry i m a).dead r = m.dead r := by
      intro r
      unfold addEntry
      split <;> rfl
    rw [List.foldl_cons, hmask, hcuts, hsizes]
    simp only [hdead] at hseen hpicked
    by_cases hskip : m.dead a = true ∨ a ∈ m.seen
    · have hsame : addEntry i m a = m := by rw [addEntry, if_pos hskip]
      rw [hsame] at hseen hpicked ⊢
      refine ⟨rfl, rfl, rfl, fun r => ?_, fun r j => ?_⟩
      · rw [hseen, List.mem_cons]
        constructor
        · rintro (h | ⟨h, hd⟩)
          · exact .inl h
          · exact .inr ⟨.inr h, hd⟩
        · rintro (h | ⟨rfl | h, hd⟩)
          · exact .inl h
          · rcases hskip with hdd | hs
            · rw [hdd] at hd
              cases hd
            · exact .inl hs
          · exact .inr ⟨h, hd⟩
      · rw [hpicked, List.mem_cons]
        constructor
        · rintro (h | ⟨hj, h, hd, hs⟩)
          · exact .inl h
          · exact .inr ⟨hj, .inr h, hd, hs⟩
        · rintro (h | ⟨hj, rfl | h, hd, hs⟩)
          · exact .inl h
          · rcases hskip with hdd | hs'
            · rw [hdd] at hd
              cases hd
            · exact absurd hs' hs
          · exact .inr ⟨hj, h, hd, hs⟩
    · have hadd : addEntry i m a
          = { m with seen := insert a m.seen, picked := m.picked ++ [(a, i)] } := by
        rw [addEntry, if_neg hskip]
      rw [hadd] at hseen hpicked ⊢
      have hlive : m.dead a = false := by
        cases hd : m.dead a with
        | false => rfl
        | true => exact absurd (.inl hd) hskip
      have hnew : a ∉ m.seen := fun h => hskip (.inr h)
      refine ⟨rfl, rfl, rfl, fun r => ?_, fun r j => ?_⟩
      · rw [hseen, Finset.mem_insert, List.mem_cons]
        constructor
        · rintro ((rfl | h) | ⟨h, hd⟩)
          · exact .inr ⟨.inl rfl, hlive⟩
          · exact .inl h
          · exact .inr ⟨.inr h, hd⟩
        · rintro (h | ⟨rfl | h, hd⟩)
          · exact .inl (.inr h)
          · exact .inl (.inl rfl)
          · exact .inr ⟨h, hd⟩
      · rw [hpicked, List.mem_append, List.mem_singleton, Finset.mem_insert, List.mem_cons]
        constructor
        · rintro ((h | h) | ⟨hj, h, hd, hs⟩)
          · exact .inl h
          · cases h
            exact .inr ⟨rfl, .inl rfl, hlive, hnew⟩
          · exact .inr ⟨hj, .inr h, hd, fun h' => hs (.inr h')⟩
        · rintro (h | ⟨rfl, rfl | h, hd, hs⟩)
          · exact .inl (.inl h)
          · exact .inl (.inr rfl)
          · by_cases hra : r = a
            · subst hra
              exact .inl (.inr rfl)
            · exact .inr ⟨rfl, h, hd, fun h' => h'.elim hra hs⟩

theorem nodup_foldl_addEntry (i : Nat) : ∀ (l : List BlockRef) (m : Merge),
    (m.picked.map Prod.fst).Nodup → (∀ r ∈ m.picked.map Prod.fst, r ∈ m.seen) →
    ((l.foldl (addEntry i) m).picked.map Prod.fst).Nodup
      ∧ ∀ r ∈ (l.foldl (addEntry i) m).picked.map Prod.fst,
          r ∈ (l.foldl (addEntry i) m).seen := by
  intro l
  induction l with
  | nil => exact fun m hnd hseen => ⟨hnd, hseen⟩
  | cons a l ih =>
    intro m hnd hseen
    rw [List.foldl_cons]
    by_cases hskip : m.dead a = true ∨ a ∈ m.seen
    · have hsame : addEntry i m a = m := by rw [addEntry, if_pos hskip]
      rw [hsame]
      exact ih m hnd hseen
    · have hadd : addEntry i m a
          = { m with seen := insert a m.seen, picked := m.picked ++ [(a, i)] } := by
        rw [addEntry, if_neg hskip]
      rw [hadd]
      refine ih _ ?_ fun r hr => ?_
      · rw [List.map_append, List.nodup_append]
        refine ⟨hnd, List.nodup_singleton _, ?_⟩
        rintro r hr b hb rfl
        rw [List.map_singleton, List.mem_singleton] at hb
        obtain rfl : r = a := hb
        exact hskip (.inr (hseen r hr))
      · rw [List.map_append, List.mem_append, List.map_singleton, List.mem_singleton] at hr
        rcases hr with hr | rfl
        · exact Finset.mem_insert_of_mem (hseen r hr)
        · exact Finset.mem_insert_self ..

theorem get?_orInsert (m : OrdMap ForkTag Nat) (f : ForkTag) (n : Nat) (g : ForkTag) :
    (orInsert m f n).get? g = match m.get? g with
      | some k => some k
      | none => if g = f then some n else none := by
  unfold orInsert
  cases hf : m.get? f with
  | some k =>
    cases hg : m.get? g with
    | some k' => rfl
    | none =>
      have hne : g ≠ f := by
        rintro rfl
        rw [hf] at hg
        cases hg
      rw [if_neg hne]
  | none =>
    rw [OrdMap.get?_insert]
    by_cases hgf : g = f
    · rw [if_pos hgf, hgf, hf, if_pos rfl]
    · rw [if_neg hgf]
      cases m.get? g with
      | some k => rfl
      | none => rw [if_neg hgf]

theorem foldl_addSize : ∀ (l : List (ForkTag × Nat)) (m : Merge),
    (l.foldl addSize m).masked = m.masked ∧ (l.foldl addSize m).cuts = m.cuts
      ∧ (l.foldl addSize m).seen = m.seen ∧ (l.foldl addSize m).picked = m.picked
      ∧ ∀ f, (l.foldl addSize m).sizes.get? f = match m.sizes.get? f with
          | some n => some n
          | none => if m.blocked f then none
              else OrdMap.lookupList f l := by
  intro l
  induction l with
  | nil =>
    intro m
    refine ⟨rfl, rfl, rfl, rfl, fun f => ?_⟩
    rw [List.foldl_nil]
    cases m.sizes.get? f with
    | some n => rfl
    | none => simp [OrdMap.lookupList]
  | cons a l ih =>
    intro m
    obtain ⟨hmask, hcuts, hseen, hpicked, hsizes⟩ := ih (addSize m a)
    have hstep : (addSize m a).masked = m.masked ∧ (addSize m a).cuts = m.cuts
        ∧ (addSize m a).seen = m.seen ∧ (addSize m a).picked = m.picked := by
      unfold addSize
      split <;> exact ⟨rfl, rfl, rfl, rfl⟩
    obtain ⟨h1, h2, h3, h4⟩ := hstep
    rw [List.foldl_cons, hmask, hcuts, hseen, hpicked]
    refine ⟨h1, h2, h3, h4, fun f => ?_⟩
    have hblocked : ∀ f, (addSize m a).blocked f = m.blocked f := by
      intro f
      unfold blocked
      rw [h1, h2]
    rw [hsizes f, hblocked]
    have hguard : (a.1.rel ∈ m.masked ∨ (a.1.fork ≠ 0 ∧ (m.cuts.get? a.1.rel).isSome))
        ↔ m.blocked a.1 = true := by
      simp [blocked]
    by_cases hb : m.blocked a.1 = true
    · have hsame : addSize m a = m := by rw [addSize, if_pos (hguard.mpr hb)]
      rw [hsame]
      cases m.sizes.get? f with
      | some n => rfl
      | none =>
        dsimp only
        by_cases hfa : a.1 = f
        · subst hfa
          rw [if_pos hb, if_pos hb]
        · rw [OrdMap.lookupList, if_neg hfa]
    · have hadd : addSize m a = { m with sizes := orInsert m.sizes a.1 a.2 } := by
        rw [addSize, if_neg (fun h => hb (hguard.mp h))]
      rw [hadd, get?_orInsert]
      cases m.sizes.get? f with
      | some n => rfl
      | none =>
        dsimp only
        by_cases hfa : a.1 = f
        · subst hfa
          rw [if_pos rfl, OrdMap.lookupList, if_pos rfl]
          dsimp only
          rw [if_neg hb]
        · rw [if_neg (fun h => hfa h.symm), OrdMap.lookupList, if_neg hfa]

/-- The events of an index. The keys of a map are distinct, so the cutoff
of a relation is lowered once. -/
theorem foldl_addTrunc : ∀ (l : List (RelTag × Nat)) (m : Merge),
    l.Pairwise (fun a b => a.1 < b.1) →
    (l.foldl addTrunc m).masked = m.masked ∧ (l.foldl addTrunc m).seen = m.seen
      ∧ (l.foldl addTrunc m).picked = m.picked
      ∧ (∀ t, (l.foldl addTrunc m).cuts.get? t = match OrdMap.lookupList t l with
          | some cut' => some (match m.cuts.get? t with
              | some cut => min cut cut'
              | none => cut')
          | none => m.cuts.get? t)
      ∧ ∀ f, (l.foldl addTrunc m).sizes.get? f = match m.sizes.get? f with
          | some n => some n
          | none => match OrdMap.lookupList f.rel l with
              | some cut =>
                if f.fork = 0 ∧ cut ≠ u32Max ∧ f.rel ∉ m.masked then some cut else none
              | none => none := by
  intro l
  induction l with
  | nil =>
    intro m _
    refine ⟨rfl, rfl, rfl, fun t => rfl, fun f => ?_⟩
    rw [List.foldl_nil]
    cases m.sizes.get? f <;> rfl
  | cons a l ih =>
    intro m hs
    obtain ⟨ha, hl⟩ := List.pairwise_cons.mp hs
    obtain ⟨hmask, hseen, hpicked, hcuts, hsizes⟩ := ih (addTrunc m a) hl
    have hstep : (addTrunc m a).masked = m.masked ∧ (addTrunc m a).seen = m.seen
        ∧ (addTrunc m a).picked = m.picked ∧ (addTrunc m a).cuts = m.cuts.lower a.1 a.2 := by
      unfold addTrunc
      split <;> exact ⟨rfl, rfl, rfl, rfl⟩
    obtain ⟨h1, h2, h3, h4⟩ := hstep
    have hlater : ∀ t, a.1 = t → OrdMap.lookupList t l = none := by
      rintro t rfl
      exact OrdMap.lookupList_eq_none fun e he => ne_of_gt (ha e he)
    have hnew : ∀ f, (addTrunc m a).sizes.get? f = match m.sizes.get? f with
        | some n => some n
        | none => if f.rel = a.1 ∧ f.fork = 0 ∧ a.2 ≠ u32Max ∧ a.1 ∉ m.masked then some a.2
            else none := by
      intro f
      unfold addTrunc
      by_cases hreal : a.2 ≠ u32Max ∧ a.1 ∉ m.masked
      · rw [if_pos hreal]
        show (orInsert m.sizes ⟨a.1, 0⟩ a.2).get? f = _
        rw [get?_orInsert]
        cases m.sizes.get? f with
        | some n => rfl
        | none =>
          have hiff : f = ⟨a.1, 0⟩ ↔ f.rel = a.1 ∧ f.fork = 0 ∧ a.2 ≠ u32Max
              ∧ a.1 ∉ m.masked := by
            constructor
            · rintro rfl
              exact ⟨rfl, rfl, hreal⟩
            · rintro ⟨hr, hf, -⟩
              obtain ⟨rel, fork⟩ := f
              simp only at hr hf
              rw [hr, hf]
          simp only [hiff]
      · rw [if_neg hreal]
        show m.sizes.get? f = _
        cases m.sizes.get? f with
        | some n => rfl
        | none =>
          rw [if_neg (fun h => hreal ⟨h.2.2.1, h.2.2.2⟩)]
    rw [List.foldl_cons, hmask, hseen, hpicked]
    refine ⟨h1, h2, h3, fun t => ?_, fun f => ?_⟩
    · rw [hcuts t, h4, OrdMap.get?_lower]
      by_cases hat : a.1 = t
      · rw [hlater t hat, OrdMap.lookupList, if_pos hat]
        rw [if_pos hat.symm, hat]
        cases m.cuts.get? t <;> rfl
      · rw [OrdMap.lookupList, if_neg hat, if_neg (fun h => hat h.symm)]
    · rw [hsizes f, hnew f, h1]
      cases m.sizes.get? f with
      | some n => rfl
      | none =>
        by_cases hat : a.1 = f.rel
        · rw [hlater _ hat, OrdMap.lookupList, if_pos hat]
          simp only [hat, true_and]
          by_cases hreal : f.fork = 0 ∧ a.2 ≠ u32Max ∧ f.rel ∉ m.masked
          · rw [if_pos hreal]
          · rw [if_neg hreal]
        · rw [OrdMap.lookupList, if_neg hat, if_neg (fun h => hat h.1.symm)]

variable {c : ChkIndex} {m : Merge} {r : BlockRef} {f : ForkTag}

theorem addIndex_spec (i : Nat) (m : Merge) (c : ChkIndex) :
    (addIndex i m c).masked = m.masked ∪ c.rels
      ∧ (∀ t, (addIndex i m c).cuts.get? t = match c.truncs.get? t with
          | some cut' => some (match m.cuts.get? t with
              | some cut => min cut cut'
              | none => cut')
          | none => m.cuts.get? t)
      ∧ (∀ r, r ∈ (addIndex i m c).seen ↔ r ∈ m.seen ∨ (r ∈ c.entries ∧ m.dead r = false))
      ∧ (∀ r j, (r, j) ∈ (addIndex i m c).picked
          ↔ (r, j) ∈ m.picked ∨ (j = i ∧ r ∈ c.entries ∧ m.dead r = false ∧ r ∉ m.seen))
      ∧ ∀ f, (addIndex i m c).sizes.get? f = match m.sizes.get? f with
          | some n => some n
          | none => if m.blocked f then none else match c.sizes.get? f with
              | some n => some n
              | none => match c.truncs.get? f.rel with
                  | some cut => if f.fork = 0 ∧ cut ≠ u32Max then some cut else none
                  | none => none := by
  obtain ⟨e1, e2, e3, e4, e5⟩ := foldl_addEntry i c.entries m
  obtain ⟨s1, s2, s3, s4, s5⟩ :=
    foldl_addSize c.sizes.entries (c.entries.foldl (addEntry i) m)
  obtain ⟨t1, t2, t3, t4, t5⟩ := foldl_addTrunc c.truncs.entries
    (c.sizes.entries.foldl addSize (c.entries.foldl (addEntry i) m)) c.truncs.sorted
  refine ⟨?_, fun t => ?_, fun r => ?_, fun r j => ?_, fun f => ?_⟩
  · show (c.truncs.entries.foldl addTrunc _).masked ∪ c.rels = _
    rw [t1, s1, e1]
  · show (c.truncs.entries.foldl addTrunc _).cuts.get? t = _
    rw [t4 t, ← OrdMap.get?_eq_lookupList, s2, e2]
  · show r ∈ (c.truncs.entries.foldl addTrunc _).seen ↔ _
    rw [t2, s3]
    exact e4 r
  · show (r, j) ∈ (c.truncs.entries.foldl addTrunc _).picked ↔ _
    rw [t3, s4]
    exact e5 r j
  · have hblocked : (c.entries.foldl (addEntry i) m).blocked f = m.blocked f := by
      unfold blocked
      rw [e1, e2]
    show (c.truncs.entries.foldl addTrunc _).sizes.get? f = _
    rw [t5 f, s5 f, e3, hblocked, s1, e1, ← OrdMap.get?_eq_lookupList, ← OrdMap.get?_eq_lookupList]
    cases m.sizes.get? f with
    | some n => rfl
    | none =>
      by_cases hb : m.blocked f = true
      · rw [if_pos hb, if_pos hb]
        cases c.truncs.get? f.rel with
        | none => rfl
        | some cut =>
          dsimp only
          rw [if_neg]
          rintro ⟨hfork, -, hmask⟩
          simp [blocked, hfork, hmask] at hb
      · rw [if_neg hb, if_neg hb]
        have hmask : f.rel ∉ m.masked := by
          intro h
          exact hb (by simp [blocked, h])
        cases c.sizes.get? f with
        | some n => rfl
        | none =>
          cases c.truncs.get? f.rel with
          | none => rfl
          | some cut => simp only [hmask, not_false_eq_true, and_true]

/-- The merge takes a block for dead after an index as a walk stops there. -/
theorem dead_addIndex (i : Nat) : (addIndex i m c).dead r = (m.dead r || c.stops r) := by
  obtain ⟨hmask, hcuts, -⟩ := addIndex_spec i m c
  unfold dead ChkIndex.stops
  rw [hmask, hcuts r.tag]
  cases ht : c.truncs.get? r.tag with
  | none => simp [Bool.or_comm, Bool.or_assoc, Bool.or_left_comm]
  | some cut' =>
    cases hc : m.cuts.get? r.tag with
    | none => simp [Bool.or_comm, Bool.or_assoc, Bool.or_left_comm]
    | some cut => simp [Bool.or_comm, Bool.or_assoc, Bool.or_left_comm]

theorem blocked_addIndex (i : Nat) : (addIndex i m c).blocked f
    = (m.blocked f || decide (f.rel ∈ c.rels)
      || (decide (f.fork ≠ 0) && (c.truncs.get? f.rel).isSome)) := by
  obtain ⟨hmask, hcuts, -⟩ := addIndex_spec i m c
  unfold blocked
  rw [hmask, hcuts f.rel]
  cases c.truncs.get? f.rel with
  | none => simp [Bool.or_comm, Bool.or_assoc, Bool.or_left_comm]
  | some cut' =>
    by_cases hf : f.fork = 0
    · simp [hf]
    · simp [hf]

/-! ## The chain -/

/-- The place of the index a walk hits. -/
def hitAt (r : BlockRef) : List ChkIndex → Option Nat
  | [] => none
  | c :: cs => if c.has r then some 0 else if c.stops r then none else (hitAt r cs).map (· + 1)

theorem hit_eq_hitAt (r : BlockRef) : ∀ chain : List ChkIndex,
    ChainReader.hit r chain = (hitAt r chain).bind fun k => chain[k]? := by
  intro chain
  induction chain with
  | nil => rfl
  | cons c cs ih =>
    unfold ChainReader.hit hitAt
    split
    · rfl
    · split
      · rfl
      · rw [ih]
        cases hitAt r cs <;> rfl

theorem hitAt_get {r : BlockRef} : ∀ {chain : List ChkIndex} {i : Nat},
    hitAt r chain = some i → ∃ c, chain[i]? = some c := by
  intro chain
  induction chain with
  | nil =>
    nofun
  | cons c cs ih =>
    intro i h
    unfold hitAt at h
    split at h
    · cases h
      exact ⟨c, rfl⟩
    · split at h
      · cases h
      · obtain ⟨k, hk, rfl⟩ := Option.map_eq_some_iff.mp h
        obtain ⟨c', hc'⟩ := ih hk
        exact ⟨c', hc'⟩

theorem has_iff (c : ChkIndex) (r : BlockRef) : c.has r = true ↔ r ∈ c.entries := by
  constructor
  · intro h
    rw [ChkIndex.has, ChkIndex.lookup, Option.isSome_map] at h
    obtain ⟨i, hi⟩ := Option.isSome_iff_exists.mp h
    obtain ⟨hlt, hr, -⟩ := List.findIdx?_eq_some_iff_getElem.mp hi
    have heq : c.entries[i] = r := by simpa using hr
    exact heq ▸ List.getElem_mem hlt
  · intro h
    obtain ⟨i, -, hi⟩ := Packing.lookup_mem h
    rw [ChkIndex.has, hi]
    rfl

/-- What the merge picks: blocks not seen before, each from the index where
its walk hits. -/
theorem addChain_picked : ∀ (chain : List ChkIndex) (i : Nat) (m : Merge) (r : BlockRef) (j : Nat),
    (r, j) ∈ (addChain i chain m).picked ↔ (r, j) ∈ m.picked
      ∨ (r ∉ m.seen ∧ m.dead r = false ∧ ∃ k, j = i + k ∧ hitAt r chain = some k) := by
  intro chain
  induction chain with
  | nil => intro i m r j; simp [addChain, hitAt]
  | cons c cs ih =>
    intro i m r j
    obtain ⟨-, -, hseen, hpicked, -⟩ := addIndex_spec i m c
    rw [addChain, ih, hpicked, hseen, dead_addIndex, ← has_iff]
    constructor
    · rintro ((h | ⟨rfl, hhas, hlive, hnew⟩) | ⟨hnot, hlive, k, rfl, hk⟩)
      · exact .inl h
      · exact .inr ⟨hnew, hlive, 0, rfl, by rw [hitAt, if_pos hhas]⟩
      · obtain ⟨hlive, hgo⟩ := Bool.or_eq_false_iff.mp hlive
        have hhas : ¬ c.has r = true := fun h => hnot (.inr ⟨h, hlive⟩)
        refine .inr ⟨fun h => hnot (.inl h), hlive, k + 1, by omega, ?_⟩
        rw [hitAt, if_neg hhas, if_neg (by rw [hgo]; decide), hk]
        rfl
    · rintro (h | ⟨hnew, hlive, k, rfl, hk⟩)
      · exact .inl (.inl h)
      · rw [hitAt] at hk
        by_cases hhas : c.has r = true
        · rw [if_pos hhas] at hk
          cases hk
          exact .inl (.inr ⟨rfl, hhas, hlive, hnew⟩)
        · rw [if_neg hhas] at hk
          cases hstops : c.stops r with
          | true =>
            rw [hstops] at hk
            cases hk
          | false =>
            rw [hstops, if_neg (by decide)] at hk
            obtain ⟨k', hk', rfl⟩ := Option.map_eq_some_iff.mp hk
            refine .inr ⟨?_, by rw [hlive]; rfl, k', by omega, hk'⟩
            rintro (h | ⟨h, -⟩)
            · exact hnew h
            · exact hhas h

theorem addChain_sizes : ∀ (chain : List ChkIndex) (i : Nat) (m : Merge) (f : ForkTag),
    (addChain i chain m).sizes.get? f = match m.sizes.get? f with
      | some n => some n
      | none => if m.blocked f then none else ChainReader.forkSize f chain := by
  intro chain
  induction chain with
  | nil =>
    intro i m f
    rw [addChain]
    cases m.sizes.get? f with
    | some n => rfl
    | none => simp [ChainReader.forkSize]
  | cons c cs ih =>
    intro i m f
    obtain ⟨-, -, -, -, hsizes⟩ := addIndex_spec i m c
    rw [addChain, ih, hsizes, blocked_addIndex]
    cases m.sizes.get? f with
    | some n => rfl
    | none =>
      cases hb : m.blocked f with
      | true => simp
      | false =>
        simp only [Bool.false_eq_true, if_false, Bool.false_or, ChainReader.forkSize]
        cases c.sizes.get? f with
        | some n => rfl
        | none =>
          cases c.truncs.get? f.rel with
          | none => simp
          | some cut =>
            by_cases hfork : f.fork = 0
            · by_cases hcut : cut = u32Max
              · simp [hfork, hcut]
              · simp [hfork, hcut]
            · simp [hfork]

theorem nodup_addChain : ∀ (chain : List ChkIndex) (i : Nat) (m : Merge),
    (m.picked.map Prod.fst).Nodup → (∀ r ∈ m.picked.map Prod.fst, r ∈ m.seen) →
    ((addChain i chain m).picked.map Prod.fst).Nodup := by
  intro chain
  induction chain with
  | nil => exact fun i m hnd _ => hnd
  | cons c cs ih =>
    intro i m hnd hseen
    obtain ⟨hnd', hseen'⟩ := nodup_foldl_addEntry i c.entries m hnd hseen
    obtain ⟨-, -, s3, s4, -⟩ := foldl_addSize c.sizes.entries (c.entries.foldl (addEntry i) m)
    obtain ⟨-, t2, t3, -⟩ := foldl_addTrunc c.truncs.entries
      (c.sizes.entries.foldl addSize (c.entries.foldl (addEntry i) m)) c.truncs.sorted
    have hpick : (addIndex i m c).picked = (c.entries.foldl (addEntry i) m).picked := by
      show (c.truncs.entries.foldl addTrunc _).picked = _
      rw [t3, s4]
    have hsee : (addIndex i m c).seen = (c.entries.foldl (addEntry i) m).seen := by
      show (c.truncs.entries.foldl addTrunc _).seen = _
      rw [t2, s3]
    exact ih (i + 1) (addIndex i m c) (hpick ▸ hnd') (by rw [hpick, hsee]; exact hseen')

end Merge

/-! ## The listing -/

section

variable {objs : List (FoldKey × FoldObj)} {owner : String}

theorem mem_keys_iff (objs : List (FoldKey × FoldObj)) (k : FoldKey) :
    k ∈ objs.map Prod.fst ↔ Store.get objs k ≠ none := by
  induction objs with
  | nil => simp [Store.get]
  | cons e objs ih =>
    obtain ⟨k', b⟩ := e
    by_cases h : k = k'
    · subst h
      simp
    · rw [Store.get_cons_ne h, List.map_cons, List.mem_cons, ih]
      simp [h]

/-- The block a key holds. -/
def FoldKey.block? : FoldKey → Option BlockRef
  | .pgBlock _ r => some r
  | _ => none

/-- The fork a key of the `pg/` prefix is about. -/
def FoldKey.fork? : FoldKey → Option ForkTag
  | .pgBlock _ r => some r.forkTag
  | .pgSize _ f => some f
  | _ => none

theorem noteInit_spec (l : PgList) (f : ForkTag) :
    (noteInit l f).refs = l.refs ∧ (noteInit l f).sizes = l.sizes
      ∧ ∀ t, t ∈ (noteInit l f).unlogged ↔ t ∈ l.unlogged ∨ f = ⟨t, initFork⟩ := by
  unfold noteInit
  split
  · rename_i hf
    refine ⟨rfl, rfl, fun t => ?_⟩
    rw [Finset.mem_insert]
    constructor
    · rintro (rfl | h)
      · exact .inr (by rw [← hf])
      · exact .inl h
    · rintro (h | rfl)
      · exact .inr h
      · exact .inl rfl
  · rename_i hf
    refine ⟨rfl, rfl, fun t => ?_⟩
    constructor
    · exact .inl
    · rintro (h | rfl)
      · exact h
      · exact absurd rfl hf

/-- What a listing that ran to its end has seen. -/
structure Lists (objs : List (FoldKey × FoldObj)) (ks : List FoldKey) (l l' : PgList) : Prop where
  refs : l'.refs = l.refs ++ ks.filterMap FoldKey.block?
  unlogged : ∀ t, t ∈ l'.unlogged ↔ t ∈ l.unlogged ∨ ∃ k ∈ ks, k.fork? = some ⟨t, initFork⟩
  sizes : ∀ e, e ∈ l'.sizes ↔ e ∈ l.sizes
    ∨ ∃ o, .pgSize o e.1 ∈ ks ∧ Store.get objs (.pgSize o e.1) = some (.size e.2)
  decodes : ∀ o f, .pgSize o f ∈ ks → ∀ obj, Store.get objs (.pgSize o f) = some obj →
    ∃ n, obj = .size n

theorem getFold_ok {k : FoldKey} {x : Option FoldObj} {w w' : World FoldKey FoldObj}
    (h : getFold k w = (.ok x, w')) : x = Store.get w.objs k ∧ w'.objs = w.objs := Store.of_read_ok h

theorem allPagesLoop_ok : ∀ {ks : List FoldKey} {l l' : PgList} {w w' : World FoldKey FoldObj},
    allPagesLoop ks l w = (.ok l', w') → w'.objs = w.objs ∧ Lists w.objs ks l l' := by
  intro ks
  induction ks with
  | nil =>
    intro l l' w w' h
    cases h
    exact ⟨rfl, by simp, by simp, by simp, by simp⟩
  | cons k ks ih =>
    intro l l' w w' h
    cases k with
    | pageIndex o i =>
      obtain ⟨hobjs, hl⟩ := ih h
      exact ⟨hobjs, by simpa [List.filterMap_cons, FoldKey.block?] using hl.refs,
        by simpa [FoldKey.fork?] using hl.unlogged, by simpa using hl.sizes,
        by simpa using hl.decodes⟩
    | pages o i n =>
      obtain ⟨hobjs, hl⟩ := ih h
      exact ⟨hobjs, by simpa [List.filterMap_cons, FoldKey.block?] using hl.refs,
        by simpa [FoldKey.fork?] using hl.unlogged, by simpa using hl.sizes,
        by simpa using hl.decodes⟩
    | pgBlock o r =>
      obtain ⟨hobjs, hl⟩ := ih h
      obtain ⟨hrefs, hsizes, hinit⟩ := noteInit_spec l r.forkTag
      refine ⟨hobjs, ?_, fun t => ?_, fun e => ?_, by simpa using hl.decodes⟩
      · rw [hl.refs, hrefs]
        simp [FoldKey.block?]
      · rw [hl.unlogged, hinit]
        simp [FoldKey.fork?, or_assoc]
      · rw [hl.sizes, hsizes]
        simp
    | pgSize o f =>
      obtain ⟨hrefs, hsizes, hinit⟩ := noteInit_spec l f
      obtain ⟨x, w₁, hget, hrest⟩ := Prog.of_bind_ok h
      obtain ⟨rfl, hobjs₁⟩ := getFold_ok hget
      have hun : ∀ {l₁ : PgList}, (∀ t, t ∈ l₁.unlogged ↔ t ∈ (noteInit l f).unlogged
          ∨ ∃ k ∈ ks, k.fork? = some ⟨t, initFork⟩) → ∀ t, t ∈ l₁.unlogged ↔ t ∈ l.unlogged
          ∨ ∃ k ∈ FoldKey.pgSize o f :: ks, k.fork? = some ⟨t, initFork⟩ := by
        intro l₁ hl t
        rw [hl, hinit]
        simp [FoldKey.fork?, or_assoc]
      cases hobj : Store.get w.objs (.pgSize o f) with
      | none =>
        rw [hobj] at hrest
        obtain ⟨hobjs, hl⟩ := ih hrest
        rw [hobjs₁] at hobjs hl
        refine ⟨hobjs, by rw [hl.refs, hrefs]; simp [List.filterMap_cons, FoldKey.block?], hun hl.unlogged,
          fun e => ?_, fun o' f' hmem obj hg => ?_⟩
        · rw [hl.sizes, hsizes]
          constructor
          · rintro (h | ⟨o', hmem, hg⟩)
            · exact .inl h
            · exact .inr ⟨o', .tail _ hmem, hg⟩
          · rintro (h | ⟨o', hmem, hg⟩)
            · exact .inl h
            · rcases List.mem_cons.mp hmem with heq | hmem
              · rw [heq, hobj] at hg
                cases hg
              · exact .inr ⟨o', hmem, hg⟩
        · rcases List.mem_cons.mp hmem with heq | hmem
          · rw [heq, hobj] at hg
            cases hg
          · exact hl.decodes o' f' hmem obj hg
      | some obj =>
        rw [hobj] at hrest
        cases obj with
        | bytes b => cases hrest
        | index t => cases hrest
        | size n =>
          obtain ⟨hobjs, hl⟩ := ih hrest
          rw [hobjs₁] at hobjs hl
          refine ⟨hobjs, by rw [hl.refs, hrefs]; simp [List.filterMap_cons, FoldKey.block?], hun hl.unlogged,
            fun e => ?_, fun o' f' hmem obj hg => ?_⟩
          · rw [hl.sizes, hsizes, List.mem_append, List.mem_singleton]
            constructor
            · rintro ((h | rfl) | ⟨o', hmem, hg⟩)
              · exact .inl h
              · exact .inr ⟨o, List.mem_cons_self, hobj⟩
              · exact .inr ⟨o', .tail _ hmem, hg⟩
            · rintro (h | ⟨o', hmem, hg⟩)
              · exact .inl (.inl h)
              · rcases List.mem_cons.mp hmem with heq | hmem
                · cases heq
                  rw [hobj] at hg
                  cases hg
                  exact .inl (.inr rfl)
                · exact .inr ⟨o', hmem, hg⟩
          · rcases List.mem_cons.mp hmem with heq | hmem
            · rw [heq, hobj] at hg
              cases hg
              exact ⟨n, rfl⟩
            · exact hl.decodes o' f' hmem obj hg

theorem mem_pgKeys {k : FoldKey} : k ∈ pgKeys owner objs ↔ Store.get objs k ≠ none
    ∧ ((∃ r, k = .pgBlock owner r) ∨ ∃ f, k = .pgSize owner f) := by
  rw [pgKeys, List.mem_filter, List.mem_dedup, mem_keys_iff]
  cases k <;> simp

/-- A relation with an init fork under the tenant's prefix. -/
def Unlogged (objs : List (FoldKey × FoldObj)) (owner : String) (t : RelTag) : Prop :=
  (∃ r, Store.get objs (.pgBlock owner r) ≠ none ∧ r.forkTag = ⟨t, initFork⟩)
    ∨ Store.get objs (.pgSize owner ⟨t, initFork⟩) ≠ none

theorem unlogged_iff {t : RelTag} :
    (∃ k ∈ pgKeys owner objs, k.fork? = some ⟨t, initFork⟩) ↔ Unlogged objs owner t := by
  constructor
  · rintro ⟨k, hk, hfork⟩
    obtain ⟨hget, ⟨r, rfl⟩ | ⟨f, rfl⟩⟩ := mem_pgKeys.mp hk
    · exact .inl ⟨r, hget, Option.some.inj hfork⟩
    · cases hfork
      exact .inr hget
  · rintro (⟨r, hget, hfork⟩ | hget)
    · exact ⟨_, mem_pgKeys.mpr ⟨hget, .inl ⟨r, rfl⟩⟩, congrArg some hfork⟩
    · exact ⟨_, mem_pgKeys.mpr ⟨hget, .inr ⟨_, rfl⟩⟩, rfl⟩

theorem nodup_listed (owner : String) (objs : List (FoldKey × FoldObj)) :
    ((pgKeys owner objs).filterMap FoldKey.block?).Nodup := by
  rw [List.Nodup, List.pairwise_filterMap]
  have hnd : (pgKeys owner objs).Nodup := (List.nodup_dedup _).filter _
  refine hnd.imp_of_mem fun {k k'} hk hk' hne r hr r' hr' heq => hne ?_
  subst heq
  obtain ⟨-, ⟨b, rfl⟩ | ⟨f, rfl⟩⟩ := mem_pgKeys.mp hk
  · obtain ⟨-, ⟨b', rfl⟩ | ⟨f', rfl⟩⟩ := mem_pgKeys.mp hk'
    · cases hr
      cases hr'
      rfl
    · cases hr'
  · cases hr

/-- What a listing returns: the own pages of logged relations, and the own
sizes. -/
theorem allPages_ok {rs : List BlockRef} {ss : List (ForkTag × Nat)} {w w' : World FoldKey FoldObj}
    (h : allPages owner w = (.ok (rs, ss), w')) : w'.objs = w.objs ∧ rs.Pairwise (· < ·)
      ∧ (∀ r, r ∈ rs ↔ Store.get w.objs (.pgBlock owner r) ≠ none ∧ ¬ Unlogged w.objs owner r.tag)
      ∧ ∀ f, (Merge.start rs ss).sizes.get? f = ownSize w.objs owner f := by
  obtain ⟨keys, w₁, hkeys, h⟩ := Prog.of_bind_ok h
  have hread : keys = pgKeys owner w.objs ∧ w₁.objs = w.objs := Store.of_read_ok hkeys
  obtain ⟨rfl, hobjs₁⟩ := hread
  obtain ⟨l, w₂, hloop, h⟩ := Prog.of_bind_ok h
  obtain ⟨hobjs₂, hl⟩ := allPagesLoop_ok hloop
  rw [hobjs₁] at hobjs₂ hl
  cases h
  have hrefs : l.refs = (pgKeys owner w.objs).filterMap FoldKey.block? := by simpa using hl.refs
  refine ⟨hobjs₂, ?_, fun r => ?_, fun f => ?_⟩
  · have hnd : ((l.refs.filter fun r => r.tag ∉ l.unlogged).insertionSort (· ≤ ·)).Nodup := by
      rw [(List.perm_insertionSort ..).nodup_iff, hrefs]
      exact (nodup_listed owner w.objs).filter _
    exact ((List.pairwise_insertionSort _ _).sortedLE.sortedLT_of_nodup hnd).pairwise
  · rw [List.mem_insertionSort, List.mem_filter, hrefs, List.mem_filterMap, decide_eq_true_eq]
    refine and_congr ⟨?_, fun hget => ?_⟩ (not_congr ?_)
    · rintro ⟨k, hk, hr⟩
      obtain ⟨hget, ⟨b, rfl⟩ | ⟨f, rfl⟩⟩ := mem_pgKeys.mp hk
      · cases hr
        exact hget
      · cases hr
    · exact ⟨_, mem_pgKeys.mpr ⟨hget, .inl ⟨r, rfl⟩⟩, rfl⟩
    · rw [hl.unlogged, unlogged_iff]
      simp
  · have hmem : ∀ n, (f, n) ∈ l.sizes ↔ Store.get w.objs (.pgSize owner f) = some (.size n) := by
      intro n
      rw [hl.sizes]
      constructor
      · rintro (h | ⟨o, hk, hget⟩)
        · cases h
        · obtain ⟨-, ⟨b, hb⟩ | ⟨f', hf⟩⟩ := mem_pgKeys.mp hk
          · cases hb
          · cases hf
            exact hget
      · intro hget
        exact .inr ⟨owner, mem_pgKeys.mpr ⟨by rw [hget]; simp, .inr ⟨f, rfl⟩⟩, hget⟩
    cases hsize : ((Merge.start _ l.sizes).sizes.get? f) with
    | some n =>
      rcases OrdMap.of_mem_foldl_insert (OrdMap.get?_eq_some.mp hsize) with h | ⟨e, he, heq⟩
      · cases h
      · have hget := (hmem n).mp (by rw [heq]; exact he)
        rw [ownSize, hget]
    | none =>
      unfold ownSize
      split
      · rename_i n hget
        obtain ⟨b, hb⟩ := OrdMap.key_foldl_insert (k := Prod.fst) (v := Prod.snd)
          (m := OrdMap.empty) (a := f) (.inr ⟨(f, n), (hmem n).mpr hget, rfl⟩)
        rw [Merge.start, OrdMap.get?_eq_none] at hsize
        exact (hsize _ hb).elim
      · rfl

/-- The chain a reader of the branch attaches to, out of the objects. -/
def attachChain (objs : List (FoldKey × FoldObj)) (own : String) :
    List CheckpointRef → Option (List ChkIndex)
  | [] => some []
  | c :: cs => do
      let owner := c.owner.getD own
      let .index text ← Store.get objs (.pageIndex owner c.id) | none
      let chk ← (ChkIndex.parse c.id owner text).toOption
      let rest ← attachChain objs own cs
      some (chk :: rest)

theorem loadChain_ok : ∀ {cs : List CheckpointRef} {chain : List ChkIndex}
    {w w' : World FoldKey FoldObj}, loadChain owner cs w = (.ok chain, w') →
      w'.objs = w.objs ∧ attachChain w.objs owner cs = some chain := by
  intro cs
  induction cs with
  | nil =>
    intro chain w w' h
    cases h
    exact ⟨rfl, rfl⟩
  | cons c cs ih =>
    intro chain w w' h
    obtain ⟨x, w₁, hget, h⟩ := Prog.of_bind_ok h
    obtain ⟨rfl, hobjs₁⟩ := getFold_ok hget
    cases hobj : Store.get w.objs (.pageIndex (c.owner.getD owner) c.id) with
    | none =>
      rw [hobj] at h
      cases h
    | some obj =>
      rw [hobj] at h
      cases obj with
      | bytes b => cases h
      | size n => cases h
      | index text =>
        obtain ⟨chk, w₂, hparse, hbody⟩ := Prog.of_bind_ok h
        obtain ⟨rest, w₃, hrest, hpure⟩ := Prog.of_bind_ok hbody
        cases hp : ChkIndex.parse c.id (c.owner.getD owner) text with
        | error e =>
          rw [hp] at hparse
          cases hparse
        | ok chk' =>
          rw [hp] at hparse
          cases hparse
          cases hpure
          obtain ⟨hobjs₂, hattach⟩ := ih hrest
          rw [hobjs₁] at hobjs₂ hattach
          refine ⟨hobjs₂, ?_⟩
          simp [attachChain, hobj, hp, hattach, Except.toOption]

end

/-! ## What the pack goes through -/

namespace Merge

/-- Whether the block is below the size of its fork, if that is known. -/
def below (size : Option Nat) (r : BlockRef) : Bool :=
  match size with
  | some n => decide (r.blk < n)
  | none => true

variable {rs : List BlockRef} {ss : List (ForkTag × Nat)} {chain : List ChkIndex}

/-- The merge of the own pages and sizes with the chain. -/
abbrev merged (rs : List BlockRef) (ss : List (ForkTag × Nat)) (chain : List ChkIndex) : Merge :=
  addChain 0 chain (start rs ss)

theorem sizes_merged (f : ForkTag) : (merged rs ss chain).sizes.get? f
    = match (start rs ss).sizes.get? f with
      | some n => some n
      | none => ChainReader.forkSize f chain := by
  have hfree : (start rs ss).blocked f = false := by simp [blocked, start]
  rw [addChain_sizes, hfree]
  rfl

variable {r : BlockRef}

theorem mem_kept {i : Nat} : (r, i) ∈ (merged rs ss chain).kept
    ↔ r ∉ rs ∧ hitAt r chain = some i
      ∧ below ((merged rs ss chain).sizes.get? r.forkTag) r = true := by
  rw [kept, List.mem_filter, addChain_picked]
  constructor
  · rintro ⟨h | ⟨hseen, -, k, hk, hhit⟩, hb⟩
    · cases h
    · have hk : i = k := by omega
      exact ⟨fun h => hseen (List.mem_toFinset.mpr h), hk ▸ hhit, hb⟩
  · rintro ⟨hnew, hhit, hb⟩
    exact ⟨.inr ⟨fun h => hnew (List.mem_toFinset.mp h), rfl, i, by omega, hhit⟩, hb⟩

theorem nodup_kept : ((merged rs ss chain).kept.map Prod.fst).Nodup := by
  have hnd := nodup_addChain chain 0 (start rs ss) List.nodup_nil (by simp [start])
  exact hnd.sublist (List.filter_sublist.map _)

theorem lookup_kept {i : Nat} (h : (r, i) ∈ (merged rs ss chain).kept) :
    (merged rs ss chain).kept.lookup r = some i := by
  obtain ⟨pre, post, hsplit⟩ := List.append_of_mem h
  refine List.lookup_eq_some_iff.mpr ⟨pre, post, hsplit, fun e he => ?_⟩
  have hnd : ((merged rs ss chain).kept.map Prod.fst).Nodup := nodup_kept
  rw [hsplit, List.map_append, List.map_cons, List.nodup_append] at hnd
  have hne := hnd.2.2 e.1 (List.mem_map_of_mem he) r List.mem_cons_self
  simpa using fun heq => hne heq.symm

/-- The blocks the pack goes through. -/
abbrev mergedRefs (rs : List BlockRef) (ss : List (ForkTag × Nat)) (chain : List ChkIndex) :
    List BlockRef := (rs ++ (merged rs ss chain).kept.map Prod.fst).insertionSort (· ≤ ·)

theorem mem_mergedRefs : r ∈ mergedRefs rs ss chain
    ↔ r ∈ rs ∨ ∃ i, (r, i) ∈ (merged rs ss chain).kept := by
  rw [List.mem_insertionSort, List.mem_append]
  simp

theorem sorted_mergedRefs (h : rs.Pairwise (· < ·)) :
    (mergedRefs rs ss chain).Pairwise (· < ·) := by
  have hnd : (mergedRefs rs ss chain).Nodup := by
    rw [(List.perm_insertionSort ..).nodup_iff, List.nodup_append]
    refine ⟨h.imp fun hlt => ne_of_lt hlt, nodup_kept, ?_⟩
    rintro r hr r' hr' rfl
    obtain ⟨⟨r', i⟩, hmem, rfl⟩ := List.mem_map.mp hr'
    exact (mem_kept.mp hmem).1 hr
  exact ((List.pairwise_insertionSort _ _).sortedLE.sortedLT_of_nodup hnd).pairwise

theorem fetch_own {objs : List (FoldKey × FoldObj)} {owner : String}
    (h : r ∈ rs) : mergedFetch objs owner chain (merged rs ss chain).kept r
      = .ok (ownPage objs owner r) := by
  have hnone : (merged rs ss chain).kept.lookup r = none := by
    rw [List.lookup_eq_none_iff]
    rintro ⟨r', i⟩ hmem
    have hne : r ≠ r' := fun heq => (mem_kept.mp hmem).1 (heq ▸ h)
    simpa using hne
  rw [mergedFetch, hnone]

theorem fetch_kept (objs : List (FoldKey × FoldObj)) (owner : String) {i : Nat}
    (h : (r, i) ∈ (merged rs ss chain).kept) : ∃ c, ChainReader.hit r chain = some c
      ∧ mergedFetch objs owner chain (merged rs ss chain).kept r = (c.page objs r).map some := by
  have hhit := (mem_kept.mp h).2.1
  obtain ⟨c, hc⟩ := hitAt_get hhit
  refine ⟨c, by rw [hit_eq_hitAt, hhit]; exact hc, ?_⟩
  rw [mergedFetch, lookup_kept h]
  dsimp only
  rw [hc]

end Merge

/-! ## What a reader finds in the capture -/

namespace Packing

variable {owner id : String} {refs : List BlockRef} {sizes : List (ForkTag × Nat)}
  {fetch : BlockRef → Except FoldError (Option (List UInt8))} {n : Nat × Nat}
  {w w' : World FoldKey FoldObj}

/-- A pack that returns, of a checkpoint with nothing stored, can be read
back: the index names the blocks `fetch` found, with their images. -/
theorem packPageRuns_reads (hfresh : Fresh owner id w.objs) (hsorted : refs.Pairwise (· < ·))
    (h : packPageRuns owner id refs [] [] sizes fetch w = (.ok n, w')) :
    let full := packedIndex id owner (packed fetch refs) [] [] sizes
    (∃ text, Store.get w'.objs (.pageIndex owner id) = some (.index text)
        ∧ ChkIndex.parse id owner text = .ok full)
      ∧ (∀ r, full.has r = true ↔ r ∈ refs ∧ ∃ data, fetch r = .ok (some data))
      ∧ (∀ r ∈ refs, fetch r = .ok none ∨ ∃ data, fetch r = .ok (some data))
      ∧ ∀ r data, full.has r = true → fetch r = .ok (some data) →
          full.page w'.objs r = .ok data := by
  intro full
  obtain ⟨hfound, hidx⟩ := packPageRuns_ok h hfresh.1
  let a : Attempt := ⟨refs, hsorted, [], [], sizes, fetch, w.acks⟩
  have hend : Attempt.runs owner id w.objs ([] ++ [a]) = w'.objs := by
    show (packPageRuns owner id refs [] [] sizes fetch w).2.objs = w'.objs
    rw [h]
  have hput : PutIndex owner id w.objs [] a := by
    refine ⟨hfresh.1, ?_⟩
    rw [hend]
    exact hidx
  have htraced : Traced owner id w.objs ([] ++ [a]) := by
    refine Traced.snoc fun k obj hobj => ?_
    rw [show Attempt.runs owner id w.objs [] = w.objs from rfl, hfresh.2 k] at hobj
    cases hobj
  have haligned : Aligned owner id w.objs ([] ++ [a]) :=
    aligned_of_blocks (l := a.blocks) (by simp)
  have hmatches := matches_putIndex htraced haligned hput
  rw [hend] at hmatches
  have hpacked : ((packed fetch refs).map Prod.fst).Pairwise (· < ·) :=
    hsorted.sublist (packed_sublist refs)
  have hparse := parse_indexText id owner [] [] sizes hpacked
  obtain ⟨objs₁, hobjs⟩ : ∃ objs₁, w'.objs = (.pageIndex owner id,
      .index (indexText (packed fetch refs) (eventLines [] [] sizes))) :: objs₁ := by
    have hleaves := packPageRuns_leaves owner id refs [] [] sizes fetch w
    rw [h] at hleaves
    rcases hleaves with hw | ⟨-, objs₁, -, -, heq⟩
    · exact absurd ((get_index_of_wrote hw).trans hfresh.1) hidx
    · exact ⟨objs₁, heq⟩
  have htext : Store.get w'.objs (.pageIndex owner id)
      = some (.index (indexText (packed fetch refs) (eventLines [] [] sizes))) := by
    rw [hobjs, Store.get_cons_self]
  obtain ⟨t, chk, ht, hchk, hall⟩ := hmatches _ htext
  cases ht
  obtain rfl : full = chk := Except.ok.inj (hparse.symm.trans hchk)
  refine ⟨⟨_, htext, hparse⟩, fun r => ?_, fun r hr => ?_, fun r data hr hf => ?_⟩
  · rw [Merge.has_iff]
    constructor
    · intro hmem
      obtain ⟨e, he, rfl⟩ := List.mem_map.mp hmem
      refine ⟨(packed_sublist refs).subset (List.mem_map_of_mem he), e.2, (packed_sound he).1⟩
    · rintro ⟨hr, data, hf⟩
      exact List.mem_map.mpr ⟨(r, data), mem_packed hfound hr hf, rfl⟩
  · rcases hfound r hr with hnone | ⟨data, hf, -⟩
    · exact .inl hnone
    · exact .inr ⟨data, hf⟩
  · have hmem := (Merge.has_iff full r).mp hr
    obtain ⟨run, off, bytes, hlookup, hobj, b, hb, hfetch⟩ := hall r hmem
    rw [List.nil_append, List.mem_singleton] at hb
    subst hb
    obtain rfl : data = (bytes.drop off).take zouPageSize := by
      have heq := hf.symm.trans hfetch
      exact Option.some.inj (Except.ok.inj heq)
    have hlen : ((bytes.drop off).take zouPageSize).length = zouPageSize := by
      obtain ⟨e, he, rfl⟩ := List.mem_map.mp hmem
      obtain ⟨hf', hlen⟩ := packed_sound he
      have heq := Option.some.inj (Except.ok.inj (hf.symm.trans hf'))
      rw [heq]
      exact hlen
    rw [List.length_take, List.length_drop] at hlen
    have hfits : ¬ off + zouPageSize > bytes.length := by
      have := zouPageSize_pos
      omega
    rw [ChkIndex.page, hlookup]
    dsimp only
    have hobj : Store.get w'.objs (.pages full.owner full.id run) = some (.bytes bytes) := hobj
    rw [hobj]
    exact if_neg hfits

end Packing

/-! ## The merged full -/

/-- What a reader gets from a capture alone, with nothing behind it in the
stream. -/
def ChkIndex.serves (full : ChkIndex) (objs : List (FoldKey × FoldObj)) (r : BlockRef) :
    Option (List UInt8) := ChainReader.read ⟨[full], DirtySets.empty⟩ objs r

section

variable {full : ChkIndex} {objs : List (FoldKey × FoldObj)} {r : BlockRef}

theorem masks_empty (r : BlockRef) : ChainReader.masks DirtySets.empty r = false := by
  simp [ChainReader.masks, DirtySets.empty]

theorem serves_of_has {page : List UInt8} (h : full.has r = true)
    (hpage : full.page objs r = .ok page) : full.serves objs r = some page := by
  rw [ChkIndex.serves, ChainReader.read, ChainReader.hit, if_pos h]
  dsimp only
  rw [masks_empty, if_neg (by decide), hpage]
  rfl

theorem serves_of_not_has (h : ¬ full.has r = true) : full.serves objs r = none := by
  have hhit : ChainReader.hit r [full] = none := by
    rw [ChainReader.hit, if_neg h, ChainReader.hit]
    split <;> rfl
  rw [ChkIndex.serves, ChainReader.read, hhit]

theorem not_listed {owner : String} (h : ownPage objs owner r = none) :
    ¬ Store.get objs (.pgBlock owner r) ≠ none := by
  rw [ownPage, Option.map_eq_none_iff] at h
  exact not_not_intro h

theorem forkSize_packedIndex (id owner : String) (P : List (BlockRef × List UInt8))
    (sizes : List (ForkTag × Nat)) (f : ForkTag) :
    ChainReader.forkSize f [Packing.packedIndex id owner P [] [] sizes]
      = (sizes.foldl (fun m s => m.insert s.1 s.2) OrdMap.empty).get? f := by
  unfold ChainReader.forkSize
  simp only [Packing.packedIndex, List.foldl_nil, OrdMap.get?_empty, Finset.notMem_empty, if_false]
  cases (sizes.foldl (fun m s => m.insert s.1 s.2) OrdMap.empty).get? f <;> rfl

/-- A block that is not listed under the own prefix is served as the chain
serves it. -/
theorem serves_inherited {owner : String} {rs : List BlockRef} {ss : List (ForkTag × Nat)}
    {chain : List ChkIndex} {objs' : List (FoldKey × FoldObj)} {tail : DirtySets}
    (hnew : r ∉ rs) (hmask : ChainReader.masks tail r = false)
    (hhas : ∀ r, full.has r = true ↔ r ∈ Merge.mergedRefs rs ss chain ∧ ∃ data,
      mergedFetch objs owner chain (Merge.merged rs ss chain).kept r = .ok (some data))
    (hfound : ∀ r ∈ Merge.mergedRefs rs ss chain,
      mergedFetch objs owner chain (Merge.merged rs ss chain).kept r = .ok none ∨ ∃ data,
        mergedFetch objs owner chain (Merge.merged rs ss chain).kept r = .ok (some data))
    (hpage : ∀ r data, full.has r = true →
      mergedFetch objs owner chain (Merge.merged rs ss chain).kept r = .ok (some data) →
        full.page objs' r = .ok data) :
    full.serves objs' r
      = if Merge.below ((Merge.merged rs ss chain).sizes.get? r.forkTag) r
        then ChainReader.read ⟨chain, tail⟩ objs r else none := by
  by_cases hkept : ∃ i, (r, i) ∈ (Merge.merged rs ss chain).kept
  · obtain ⟨i, hi⟩ := hkept
    obtain ⟨c, hhit, hfetch⟩ := Merge.fetch_kept objs owner hi
    have hmem : r ∈ Merge.mergedRefs rs ss chain := Merge.mem_mergedRefs.mpr (.inr ⟨i, hi⟩)
    have hb := (Merge.mem_kept.mp hi).2.2
    cases hc : c.page objs r with
    | error e =>
      -- The pack read the page, or it had not returned.
      rw [hc] at hfetch
      rcases hfound r hmem with hf | ⟨data, hf⟩
      · rw [hfetch] at hf
        cases hf
      · rw [hfetch] at hf
        cases hf
    | ok data =>
      rw [hc] at hfetch
      have hin := (hhas r).mpr ⟨hmem, data, hfetch⟩
      rw [serves_of_has hin (hpage r data hin hfetch), if_pos hb, ChainReader.read]
      rw [hhit]
      dsimp only
      rw [hmask, if_neg (by decide), hc]
      rfl
  · have hout : ¬ full.has r = true := by
      intro h
      rcases Merge.mem_mergedRefs.mp ((hhas r).mp h).1 with hmem | hmem
      · exact hnew hmem
      · exact hkept hmem
    rw [serves_of_not_has hout]
    split
    · rename_i hb
      have hhit : ChainReader.hit r chain = none := by
        cases hat : Merge.hitAt r chain with
        | none =>
          rw [Merge.hit_eq_hitAt, hat]
          rfl
        | some i => exact absurd ⟨i, Merge.mem_kept.mpr ⟨hnew, hat, hb⟩⟩ hkept
      rw [ChainReader.read]
      rw [hhit]
    · rfl

end

/-- The objects of a capture that answers as the branch did before it. -/
structure Answers (objs objs' : List (FoldKey × FoldObj)) (owner : String)
    (chain : List ChkIndex) (full : ChkIndex) : Prop where
  /-- Every fork size is the one the read path answered. -/
  sizes : ∀ f, ChainReader.forkSize f [full] = objectSize objs owner chain f
  /-- Own pages of logged relations come first. -/
  own : ∀ r tail, ownPage objs owner r ≠ none → ¬ Unlogged objs owner r.tag →
    full.serves objs' r = objectRead objs owner ⟨chain, tail⟩ r
  /-- An inherited page below the size of its fork is answered as the read
  path answers it, where the tail does not mask it. -/
  inherited : ∀ r tail, ownPage objs owner r = none → ChainReader.masks tail r = false →
    Merge.below (objectSize objs owner chain r.forkTag) r = true →
    full.serves objs' r = objectRead objs owner ⟨chain, tail⟩ r
  /-- Past the size of its fork nothing is inherited. -/
  past : ∀ r, ownPage objs owner r = none →
    Merge.below (objectSize objs owner chain r.forkTag) r = false → full.serves objs' r = none
  /-- Own pages of unlogged relations stay out. -/
  unlogged : ∀ r, Unlogged objs owner r.tag →
    full.serves objs' r = if Merge.below (objectSize objs owner chain r.forkTag) r
      then ChainReader.read ⟨chain, DirtySets.empty⟩ objs r else none

/-- A merged full answers sizes and pages as the read path of the branch
did just before. -/
theorem merged_full_answers {owner id : String} {checkpoints : List CheckpointRef} {n : Nat × Nat}
    {w w' : World FoldKey FoldObj} (hfresh : Packing.Fresh owner id w.objs)
    (hrun : packMergedFull owner id checkpoints w = (.ok n, w')) :
    ∃ refs chain text full, fromFull checkpoints = some refs
      ∧ attachChain w.objs owner refs = some chain
      ∧ Store.get w'.objs (.pageIndex owner id) = some (.index text)
      ∧ ChkIndex.parse id owner text = .ok full
      ∧ Answers w.objs w'.objs owner chain full := by
  obtain ⟨⟨rs, ss⟩, w₁, hall, hrun⟩ := Prog.of_bind_ok hrun
  obtain ⟨hobjs₁, hasc, hown, hsizes⟩ := allPages_ok hall
  cases hfull : fromFull checkpoints with
  | none =>
    rw [hfull] at hrun
    cases hrun
  | some refs =>
    rw [hfull] at hrun
    obtain ⟨chain, w₂, hload, hbody⟩ := Prog.of_bind_ok hrun
    obtain ⟨hobjs₂, hattach⟩ := loadChain_ok hload
    obtain ⟨objs, w₃, hread, hpack⟩ := Prog.of_bind_ok hbody
    obtain ⟨rfl, hobjs₃⟩ := Store.of_read_ok hread
    rw [hobjs₁] at hobjs₂ hattach
    rw [hobjs₂] at hobjs₃ hpack
    obtain ⟨⟨text, htext, hparse⟩, hhas, hfound, hpage⟩ :=
      Packing.packPageRuns_reads (hobjs₃ ▸ hfresh) (Merge.sorted_mergedRefs hasc) hpack
    refine ⟨refs, chain, text, _, rfl, hattach, htext, hparse, ?_⟩
    generalize hix : Packing.packedIndex id owner _ _ _ _ = full at hhas hpage
    have hsize : ∀ f, (Merge.merged rs ss chain).sizes.get? f = objectSize w.objs owner chain f := by
      intro f
      rw [Merge.sizes_merged, hsizes]
      rfl
    have hlisted : ∀ {r}, ownPage w.objs owner r ≠ none → ¬ Unlogged w.objs owner r.tag →
        r ∈ rs := by
      intro r hpg hlog
      refine (hown r).mpr ⟨fun hnone => hpg ?_, hlog⟩
      rw [ownPage, hnone]
      rfl
    have hinherit : ∀ r tail, r ∉ rs → ChainReader.masks tail r = false →
        full.serves w'.objs r = if Merge.below (objectSize w.objs owner chain r.forkTag) r
          then ChainReader.read ⟨chain, tail⟩ w.objs r else none := by
      intro r tail hnew hmask
      rw [← hsize]
      exact serves_inherited hnew hmask hhas hfound hpage
    refine ⟨fun f => ?_, fun r tail hpg hlog => ?_, fun r tail hpg hmask hb => ?_,
      fun r hpg hb => ?_, fun r hun => ?_⟩
    · rw [← hix, ← hsize, ← OrdMap.get?_rebuild]
      exact forkSize_packedIndex ..
    · obtain ⟨page, hpg⟩ := Option.ne_none_iff_exists'.mp hpg
      have hmem := hlisted (by rw [hpg]; simp) hlog
      have hfetch : mergedFetch w.objs owner chain (Merge.merged rs ss chain).kept r
          = .ok (some page) := by rw [Merge.fetch_own hmem, hpg]
      have hhas := (hhas r).mpr ⟨Merge.mem_mergedRefs.mpr (.inl hmem), page, hfetch⟩
      rw [serves_of_has hhas (hpage r page hhas hfetch), objectRead, hpg]
    · have hnew : r ∉ rs := fun hmem => not_listed hpg ((hown r).mp hmem).1
      rw [hinherit r tail hnew hmask, if_pos hb, objectRead, hpg]
    · have hnew : r ∉ rs := fun hmem => not_listed hpg ((hown r).mp hmem).1
      rw [hinherit r DirtySets.empty hnew (masks_empty r), if_neg (by rw [hb]; decide)]
    · have hnew : r ∉ rs := fun hmem => ((hown r).mp hmem).2 hun
      exact hinherit r DirtySets.empty hnew (masks_empty r)

/-! ## A branch behind its parent's full -/

section

/-- The main fork of the relation of `Packing.blockA`. -/
def forkA : ForkTag := ⟨⟨1663, 5, 16384⟩, 0⟩

/-- A page of an unlogged relation. -/
def blockU : BlockRef := ⟨1663, 5, 16385, 0, 0⟩

variable (p q u : List UInt8)

/-- Two pages of the parent in its full, the second behind the branch's
own size of the fork, and a page of an unlogged relation. -/
def branchObjs : List (FoldKey × FoldObj) :=
  [(.pageIndex "p" "0", .index ⟨runPages, [.p Packing.blockA, .p Packing.blockB]⟩),
    (.pages "p" "0" 0, .bytes (p ++ q)),
    (.pgSize "t" forkA, .size 1),
    (.pgBlock "t" blockU, .bytes u),
    (.pgSize "t" ⟨blockU.tag, initFork⟩, .size 0)]

def parentFull : CheckpointRef := ⟨"0", 0, .full, some "p"⟩

def parentIndex : ChkIndex where
  id := "0"
  owner := "p"
  runPages := runPages
  entries := [Packing.blockA, Packing.blockB]
  rels := ∅
  truncs := OrdMap.empty
  sizes := OrdMap.empty

def mergedText : PagesText :=
  ⟨runPages, [.p Packing.blockA, .s forkA 1, .s ⟨blockU.tag, initFork⟩ 0]⟩

def mergedObjs : List (FoldKey × FoldObj) :=
  (.pageIndex "t" "1", .index mergedText) :: (.pages "t" "1" 0, .bytes p) :: branchObjs p q u

variable {p q u}

theorem page_parentIndex (hp : p.length = zouPageSize) :
    parentIndex.page (branchObjs p q u) Packing.blockA = .ok p := by
  have hlookup : parentIndex.lookup Packing.blockA = some (0, 0) := by decide
  rw [ChkIndex.page, hlookup]
  show (if 0 + zouPageSize > (p ++ q).length then _
    else Except.ok (((p ++ q).drop 0).take zouPageSize)) = _
  rw [if_neg (by rw [List.length_append]; omega), List.drop_zero, List.take_left' hp]

theorem page_parentIndex_last (hp : p.length = zouPageSize) (hq : q.length = zouPageSize) :
    parentIndex.page (branchObjs p q u) Packing.blockB = .ok q := by
  have hlookup : parentIndex.lookup Packing.blockB = some (0, zouPageSize) := by decide
  rw [ChkIndex.page, hlookup]
  show (if zouPageSize + zouPageSize > (p ++ q).length then _
    else Except.ok (((p ++ q).drop zouPageSize).take zouPageSize)) = _
  rw [if_neg (by rw [List.length_append]; omega), List.drop_left' hp, List.take_of_length_le hq.le]

theorem attach_parentFull :
    attachChain (branchObjs p q u) "t" [parentFull] = some [parentIndex] := rfl

theorem run_branch (hp : p.length = zouPageSize) :
    packMergedFull "t" "1" [parentFull] ⟨branchObjs p q u, []⟩
      = (.ok (1, 1), ⟨mergedObjs p q u, []⟩) := by
  have hall : allPages "t" ⟨branchObjs p q u, []⟩
      = (.ok ([], [(forkA, 1), (⟨blockU.tag, initFork⟩, 0)]), ⟨branchObjs p q u, []⟩) := rfl
  have hload : loadChain "t" [parentFull] ⟨branchObjs p q u, []⟩
      = (.ok [parentIndex], ⟨branchObjs p q u, []⟩) := rfl
  have hkept : (Merge.merged [] [(forkA, 1), (⟨blockU.tag, initFork⟩, 0)] [parentIndex]).kept
      = [(Packing.blockA, 0)] := by decide
  have hsizes : (Merge.merged [] [(forkA, 1), (⟨blockU.tag, initFork⟩, 0)] [parentIndex]).sizes.entries
      = [(forkA, 1), (⟨blockU.tag, initFork⟩, 0)] := by decide
  have hfetch : mergedFetch (branchObjs p q u) "t" [parentIndex] [(Packing.blockA, 0)]
      Packing.blockA = .ok (some p) := by
    show (parentIndex.page (branchObjs p q u) Packing.blockA).map some = _
    rw [page_parentIndex hp]
    rfl
  have hlen : (Packing.Packer.add Packer.new Packing.blockA p).run.length
      < runPages * zouPageSize := by
    rw [Packing.Packer.add, List.length_append, hp]
    decide
  have hne : p ≠ [] := by
    rintro rfl
    exact absurd hp (by decide)
  have hpack : packRefs "t" "1"
      (mergedFetch (branchObjs p q u) "t" [parentIndex] [(Packing.blockA, 0)]) [Packing.blockA]
      Packer.new ⟨branchObjs p q u, []⟩
      = (.ok ⟨[.p Packing.blockA], p, 0, 1⟩, ⟨branchObjs p q u, []⟩) := by
    rw [Packing.packRefs_add hfetch hp hlen]
    rfl
  have hflush : flushRun "t" "1" ⟨[.p Packing.blockA], p, 0, 1⟩ ⟨branchObjs p q u, []⟩
      = (.ok ⟨[.p Packing.blockA], [], 1, 1⟩,
        ⟨(.pages "t" "1" 0, .bytes p) :: branchObjs p q u, []⟩) := by
    rw [flushRun, if_neg hne]
    rfl
  have hread : (Store.read .store fun objs => Store.get objs (.pageIndex "t" "1") : FoldM _)
      ⟨branchObjs p q u, []⟩ = (.ok none, ⟨branchObjs p q u, []⟩) := rfl
  have hobjs : (Store.read .store fun objs => objs : FoldM _) ⟨branchObjs p q u, []⟩
      = (.ok (branchObjs p q u), ⟨branchObjs p q u, []⟩) := rfl
  have hfull : fromFull [parentFull] = some [parentFull] := rfl
  rw [packMergedFull, Prog.bind_ok hall]
  rw [hfull]
  dsimp only
  rw [Prog.bind_ok hload, Prog.bind_ok hobjs, hkept, hsizes]
  show packPageRuns "t" "1" [Packing.blockA] _ _ _ _ _ = _
  rw [packPageRuns, Prog.bind_ok hread]
  dsimp only
  rw [Prog.bind_ok hpack, Prog.bind_ok hflush]
  rfl

theorem read_branch_last (hp : p.length = zouPageSize) (hq : q.length = zouPageSize) :
    objectRead (branchObjs p q u) "t" ⟨[parentIndex], DirtySets.empty⟩ Packing.blockB
      = some q := by
  have hown : ownPage (branchObjs p q u) "t" Packing.blockB = none := rfl
  have hhit : ChainReader.hit Packing.blockB [parentIndex] = some parentIndex := by
    rw [ChainReader.hit, if_pos (by decide)]
  rw [objectRead, hown]
  rw [ChainReader.read, hhit]
  dsimp only
  rw [masks_empty, if_neg (by decide), page_parentIndex_last hp hq]
  rfl

/-- The merged full, as it is read back. -/
def mergedIndex : ChkIndex :=
  Packing.packedIndex "1" "t" [(Packing.blockA, [])] [] []
    [(forkA, 1), (⟨blockU.tag, initFork⟩, 0)]

theorem parse_mergedText : ChkIndex.parse "1" "t" mergedText = .ok mergedIndex :=
  Packing.parse_indexText (P := [(Packing.blockA, [])]) "1" "t" [] []
    [(forkA, 1), (⟨blockU.tag, initFork⟩, 0)] (List.pairwise_singleton _ _)

theorem serves_merged (hp : p.length = zouPageSize) :
    mergedIndex.serves (mergedObjs p q u) Packing.blockA = some p := by
  refine serves_of_has (by decide) ?_
  have hlookup : mergedIndex.lookup Packing.blockA = some (0, 0) := by decide
  rw [ChkIndex.page, hlookup]
  show (if 0 + zouPageSize > p.length then _ else Except.ok ((p.drop 0).take zouPageSize)) = _
  rw [if_neg (by omega), List.drop_zero, List.take_of_length_le hp.le]

theorem fresh_branch : Packing.Fresh "t" "1" (branchObjs p q u) := ⟨rfl, fun _ => rfl⟩

/-- A merged full of the branch. -/
theorem merged_full_answers_branch :
    Packing.Fresh "t" "1" (branchObjs (Packing.filledPage 1) (Packing.filledPage 2) [])
      ∧ packMergedFull "t" "1" [parentFull]
          ⟨branchObjs (Packing.filledPage 1) (Packing.filledPage 2) [], []⟩
        = (.ok (1, 1), ⟨mergedObjs (Packing.filledPage 1) (Packing.filledPage 2) [], []⟩)
      ∧ ∃ refs chain text full, fromFull [parentFull] = some refs
        ∧ attachChain (branchObjs (Packing.filledPage 1) (Packing.filledPage 2) []) "t" refs
          = some chain
        ∧ Store.get (mergedObjs (Packing.filledPage 1) (Packing.filledPage 2) [])
          (.pageIndex "t" "1") = some (.index text)
        ∧ ChkIndex.parse "1" "t" text = .ok full
        ∧ Answers (branchObjs (Packing.filledPage 1) (Packing.filledPage 2) [])
          (mergedObjs (Packing.filledPage 1) (Packing.filledPage 2) []) "t" chain full :=
  ⟨fresh_branch, run_branch (Packing.length_filledPage 1),
    merged_full_answers fresh_branch (run_branch (Packing.length_filledPage 1))⟩

/-- The full departs from the read path in three ways. A block of the
parent at or past the own size of the fork is served by a walk over the
chain and not packed, an own page of an unlogged relation is not packed,
and a block that the tail recreated is packed. -/
theorem merged_full_departs :
    ∃ w' chain full,
      packMergedFull "t" "1" [parentFull]
          ⟨branchObjs (Packing.filledPage 1) (Packing.filledPage 2) (Packing.filledPage 3), []⟩
        = (.ok (1, 1), w')
      ∧ attachChain
          (branchObjs (Packing.filledPage 1) (Packing.filledPage 2) (Packing.filledPage 3)) "t"
          [parentFull] = some chain
      ∧ Store.get w'.objs (.pageIndex "t" "1") = some (.index mergedText)
      ∧ ChkIndex.parse "1" "t" mergedText = .ok full
      ∧ objectRead
          (branchObjs (Packing.filledPage 1) (Packing.filledPage 2) (Packing.filledPage 3)) "t"
          ⟨chain, DirtySets.empty⟩ Packing.blockB = some (Packing.filledPage 2)
      ∧ full.serves w'.objs Packing.blockB = none
      ∧ objectRead
          (branchObjs (Packing.filledPage 1) (Packing.filledPage 2) (Packing.filledPage 3)) "t"
          ⟨chain, DirtySets.empty⟩ blockU = some (Packing.filledPage 3)
      ∧ full.serves w'.objs blockU = none
      ∧ objectRead
          (branchObjs (Packing.filledPage 1) (Packing.filledPage 2) (Packing.filledPage 3)) "t"
          ⟨chain, ⟨∅, {Packing.blockA.tag}, OrdMap.empty⟩⟩ Packing.blockA = none
      ∧ full.serves w'.objs Packing.blockA = some (Packing.filledPage 1) := by
  have hp := Packing.length_filledPage 1
  have hq := Packing.length_filledPage 2
  refine ⟨_, _, mergedIndex, run_branch hp, attach_parentFull, rfl, parse_mergedText, ?_, ?_,
    rfl, ?_, rfl, ?_⟩
  · exact read_branch_last hp hq
  · exact serves_of_not_has (by decide)
  · exact serves_of_not_has (by decide)
  · exact serves_merged hp

end

end Zou
