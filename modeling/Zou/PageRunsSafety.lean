import Zou.PageRuns

/-!
# Runs and index over retried packs

One pack puts the images of the blocks it found, cut into runs, and then
an index of these blocks. A run object that an earlier attempt left behind
stays. So the index of one attempt describes the runs of another, and it
describes them right as long as both put the same blocks at the same
places.
-/

namespace Zou

open Store (Prog World)

namespace Packing

variable {owner id : String} {fetch : BlockRef → Except FoldError (Option (List UInt8))}

/-! ## What a pack packs -/

/-- The blocks found, in order, with their images, up to the first that
fails. -/
def packed (fetch : BlockRef → Except FoldError (Option (List UInt8))) :
    List BlockRef → List (BlockRef × List UInt8)
  | [] => []
  | r :: rs =>
    match fetch r with
    | .error _ => []
    | .ok none => packed fetch rs
    | .ok (some data) => if data.length = zouPageSize then (r, data) :: packed fetch rs else []

/-- Run `k` of a list. -/
def chunk {A : Type} (k : Nat) (l : List A) : List A := (l.drop (k * runPages)).take runPages

/-- The bytes of run `k`. -/
def image (k : Nat) (l : List (BlockRef × List UInt8)) : List UInt8 :=
  ((chunk k l).map Prod.snd).flatten

theorem runPages_pos : 0 < runPages := by decide

theorem zouPageSize_pos : 0 < zouPageSize := by decide

variable {refs : List BlockRef}

theorem packed_sound {e : BlockRef × List UInt8}
    (h : e ∈ packed fetch refs) : fetch e.1 = .ok (some e.2) ∧ e.2.length = zouPageSize := by
  induction refs with
  | nil => cases h
  | cons r rs ih =>
    unfold packed at h
    split at h
    · cases h
    · exact ih h
    · rename_i data hf
      split at h
      · rename_i hlen
        rcases List.mem_cons.mp h with rfl | h
        · exact ⟨hf, hlen⟩
        · exact ih h
      · cases h

theorem packed_sublist (refs : List BlockRef) :
    ((packed fetch refs).map Prod.fst).Sublist refs := by
  induction refs with
  | nil => exact List.Sublist.refl _
  | cons r rs ih =>
    unfold packed
    split
    · exact List.nil_sublist _
    · exact ih.cons r
    · split
      · exact ih.cons_cons r
      · exact List.nil_sublist _

theorem length_flatten_pages {L : List (BlockRef × List UInt8)}
    (h : ∀ e ∈ L, e.2.length = zouPageSize) :
    (L.map Prod.snd).flatten.length = L.length * zouPageSize := by
  induction L with
  | nil => simp
  | cons e L ih =>
    rw [List.map_cons, List.flatten_cons, List.length_append, h e List.mem_cons_self,
      ih fun e he => h e (.tail _ he), List.length_cons, Nat.succ_mul]
    exact Nat.add_comm ..

theorem slice_flatten {L : List (BlockRef × List UInt8)}
    (h : ∀ e ∈ L, e.2.length = zouPageSize) : ∀ {i : Nat} {e : BlockRef × List UInt8},
    L[i]? = some e → ((L.map Prod.snd).flatten.drop (i * zouPageSize)).take zouPageSize = e.2 := by
  induction L with
  | nil => intro i e hi; simp at hi
  | cons d L ih =>
    intro i e hi
    have hd := h d List.mem_cons_self
    rw [List.map_cons, List.flatten_cons]
    cases i with
    | zero =>
      cases hi
      rw [Nat.zero_mul, List.drop_zero]
      exact List.take_left' hd
    | succ i =>
      have hoff : (i + 1) * zouPageSize = d.2.length + i * zouPageSize := by
        rw [hd, Nat.succ_mul, Nat.add_comm]
      rw [hoff, ← List.drop_drop, List.drop_left]
      exact ih (fun e he => h e (.tail _ he)) hi

theorem chunk_append {A : Type} {k : Nat} {l l' : List A} (h : (k + 1) * runPages ≤ l.length) :
    chunk k (l ++ l') = chunk k l := by
  have hk : k * runPages + runPages ≤ l.length := by rw [← Nat.succ_mul]; exact h
  unfold chunk
  rw [List.drop_append_of_le_length (by omega), List.take_append_of_le_length]
  rw [List.length_drop]
  omega

theorem getElem?_chunk {A : Type} {l : List A} (i : Nat) :
    (chunk (i / runPages) l)[i % runPages]? = l[i]? := by
  unfold chunk
  rw [List.getElem?_take_of_lt (Nat.mod_lt i runPages_pos), List.getElem?_drop]
  congr 1
  rw [Nat.mul_comm]
  exact Nat.div_add_mod i runPages

/-! ## The loop -/

/-- What the pack did to the store: an object under a key of its runs is
the old one, or there was none and it is the image of that run. -/
def Wrote (owner id : String) (P : List (BlockRef × List UInt8))
    (objs objs' : List (FoldKey × FoldObj)) : Prop :=
  ∀ key, Store.get objs' key = Store.get objs key
    ∨ ∃ k, key = .pages owner id k ∧ Store.get objs key = none
        ∧ Store.get objs' key = some (.bytes (image k P))

variable {P L : List (BlockRef × List UInt8)} {objs objs' objs'' : List (FoldKey × FoldObj)}

theorem Wrote.refl : Wrote owner id P objs objs := fun _ => .inl rfl

theorem Wrote.of_eq (h : objs' = objs) : Wrote owner id P objs objs' := h ▸ Wrote.refl

theorem Wrote.trans (h : Wrote owner id P objs objs') (h' : Wrote owner id P objs' objs'') :
    Wrote owner id P objs objs'' := by
  intro key
  rcases h' key with heq' | ⟨k, rfl, hnone, hnew⟩
  · rw [heq']
    exact h key
  · rcases h (.pages owner id k) with heq | ⟨k', hk, hold, hmid⟩
    · exact .inr ⟨k, rfl, heq ▸ hnone, hnew⟩
    · rw [hmid] at hnone
      cases hnone

theorem Wrote.present {key : FoldKey} (h : Wrote owner id P objs objs')
    (hk : Store.get objs key ≠ none) : Store.get objs' key ≠ none := by
  rcases h key with heq | ⟨k, -, hnone, -⟩
  · rw [heq]
    exact hk
  · exact absurd hnone hk

/-- The packer has packed `L`. -/
structure Packs (L : List (BlockRef × List UInt8)) (p : Packer) : Prop where
  lines : p.lines = L.map fun e => .p e.1
  pages : p.pages = L.length
  runs : p.runs = L.length / runPages
  run : p.run = ((L.drop (p.runs * runPages)).map Prod.snd).flatten
  sizes : ∀ e ∈ L, e.2.length = zouPageSize

theorem packs_new : Packs [] Packer.new :=
  ⟨rfl, rfl, rfl, rfl, nofun⟩

variable {p : Packer}

theorem Packs.run_length (h : Packs L p) : p.run.length = L.length % runPages * zouPageSize := by
  rw [h.run, length_flatten_pages fun e he => h.sizes e (List.mem_of_mem_drop he),
    List.length_drop, h.runs]
  congr 1
  have hdiv := Nat.div_add_mod L.length runPages
  rw [Nat.mul_comm] at hdiv
  omega

theorem flushRun_spec (owner id : String) (w : World FoldKey FoldObj) (hrun : p.run ≠ [])
    (himg : p.run = image p.runs P) : ∃ w', Wrote owner id P w.objs w'.objs
      ∧ ((flushRun owner id p w = (.ok { p with run := [], runs := p.runs + 1 }, w')
          ∧ Store.get w'.objs (.pages owner id p.runs) ≠ none)
        ∨ ∃ e, flushRun owner id p w = (.error e, w')) := by
  obtain ⟨w', hres, hobjs⟩ :=
    Store.putOrKeep_cases FoldError.store (.pages owner id p.runs) (.bytes p.run) w
  refine ⟨w', ?_, ?_⟩
  · rcases hobjs with heq | ⟨hnone, heq⟩
    · exact Wrote.of_eq heq
    · intro key
      by_cases hk : key = .pages owner id p.runs
      · subst hk
        exact .inr ⟨p.runs, rfl, hnone, by rw [heq, Store.get_cons_self, himg]⟩
      · exact .inl (by rw [heq, Store.get_cons_ne hk])
  · rw [flushRun, if_neg hrun]
    rcases hres with ⟨hok, hsome⟩ | herr
    · exact .inl ⟨by rw [Prog.bind_ok hok]; rfl, hsome⟩
    · exact .inr ⟨.store, by rw [Prog.bind_error herr]⟩

variable {r : BlockRef}

/-- A page added to a run that is not full by it, and to one that is. -/
theorem Packs.add {data : List UInt8} (h : Packs L p) (hdata : data.length = zouPageSize) :
    let p' : Packer :=
      { p with run := p.run ++ data, pages := p.pages + 1, lines := p.lines ++ [.p r] }
    (p'.run.length < runPages * zouPageSize ∧ Packs (L ++ [(r, data)]) p')
      ∨ (p'.run.length ≥ runPages * zouPageSize ∧ (p.runs + 1) * runPages = L.length + 1
          ∧ p'.run = image p.runs (L ++ [(r, data)])
          ∧ Packs (L ++ [(r, data)]) { p' with run := [], runs := p.runs + 1 }) := by
  intro p'
  have hlen : p'.run.length = (L.length % runPages + 1) * zouPageSize := by
    show (p.run ++ data).length = _
    rw [List.length_append, h.run_length, hdata, Nat.succ_mul]
  have hmod := Nat.mod_lt L.length runPages_pos
  have hdiv := Nat.div_add_mod L.length runPages
  have hle : p.runs * runPages ≤ L.length := by
    rw [h.runs]
    exact Nat.div_mul_le_self ..
  have hrun : p'.run = (((L ++ [(r, data)]).drop (p.runs * runPages)).map Prod.snd).flatten := by
    show p.run ++ data = _
    rw [List.drop_append_of_le_length hle, List.map_append, List.flatten_append, ← h.run]
    simp
  have hsizes : ∀ e ∈ L ++ [(r, data)], e.2.length = zouPageSize := by
    intro e he
    rcases List.mem_append.mp he with he | he
    · exact h.sizes e he
    · cases List.mem_singleton.mp he
      exact hdata
  have hlines : p'.lines = (L ++ [(r, data)]).map fun e => .p e.1 := by
    show p.lines ++ [.p r] = _
    rw [h.lines, List.map_append]
    rfl
  have hpages : p'.pages = (L ++ [(r, data)]).length := by
    show p.pages + 1 = _
    rw [h.pages, List.length_append]
    rfl
  have hlength : (L ++ [(r, data)]).length = L.length + 1 := by simp
  by_cases hfull : L.length % runPages + 1 < runPages
  · refine .inl ⟨?_, hlines, hpages, ?_, hrun, hsizes⟩
    · rw [hlen]
      exact Nat.mul_lt_mul_of_pos_right hfull zouPageSize_pos
    · show p.runs = _
      rw [h.runs, hlength, Nat.succ_div, if_neg, Nat.add_zero]
      intro hdvd
      have hzero := Nat.mod_eq_zero_of_dvd hdvd
      have hone : 1 % runPages = 1 := by decide
      rw [Nat.add_mod, hone, Nat.mod_eq_of_lt hfull] at hzero
      omega
  · have hsucc : L.length + 1 = runPages * (L.length / runPages + 1) := by
      rw [Nat.mul_succ]
      omega
    have hnext : (p.runs + 1) * runPages = L.length + 1 := by
      rw [h.runs, hsucc, Nat.mul_comm]
    refine .inr ⟨?_, hnext, ?_, hlines, hpages, ?_, ?_, hsizes⟩
    · rw [hlen]
      exact Nat.mul_le_mul_right _ (by omega)
    · rw [hrun, image, chunk]
      congr 2
      refine (List.take_of_length_le ?_).symm
      rw [List.length_drop, hlength, ← hnext, Nat.succ_mul]
      omega
    · show p.runs + 1 = _
      rw [hlength, ← hnext, Nat.mul_div_cancel _ runPages_pos]
    · show [] = _
      have hall : (L ++ [(r, data)]).length ≤ (p.runs + 1) * runPages := by
        rw [hlength, hnext]
      show [] = (((L ++ [(r, data)]).drop ((p.runs + 1) * runPages)).map Prod.snd).flatten
      rw [List.drop_eq_nil_of_le hall]
      rfl

theorem get_index_of_wrote (h : Wrote owner id P objs objs') :
    Store.get objs' (.pageIndex owner id) = Store.get objs (.pageIndex owner id) := by
  rcases h (.pageIndex owner id) with heq | ⟨k, hk, -⟩
  · exact heq
  · cases hk

/-- The packer with one page more. -/
def Packer.add (p : Packer) (r : BlockRef) (data : List UInt8) : Packer :=
  { p with run := p.run ++ data, pages := p.pages + 1, lines := p.lines ++ [.p r] }

section

variable {r : BlockRef} {rs : List BlockRef} {p : Packer} {w : World FoldKey FoldObj}

theorem packRefs_error {e : FoldError} (hf : fetch r = .error e) :
    packRefs owner id fetch (r :: rs) p w = (.error e, w) := by
  rw [packRefs_cons, hf]
  rfl

theorem packRefs_none (hf : fetch r = .ok none) :
    packRefs owner id fetch (r :: rs) p w = packRefs owner id fetch rs p w := by
  rw [packRefs_cons, hf]
  rfl

variable {data : List UInt8}

theorem packRefs_bad (hf : fetch r = .ok (some data)) (hlen : data.length ≠ zouPageSize) :
    packRefs owner id fetch (r :: rs) p w = (.error (.badPage r data.length), w) := by
  have hstep : (Prog.lift (fetch r) : FoldM _) w = (.ok (some data), w) := by rw [hf]; rfl
  rw [packRefs_cons, Prog.bind_ok hstep]
  dsimp only
  rw [if_pos hlen]
  rfl

theorem packRefs_add (hf : fetch r = .ok (some data)) (hlen : data.length = zouPageSize)
    (hshort : (Packer.add p r data).run.length < runPages * zouPageSize) :
    packRefs owner id fetch (r :: rs) p w
      = packRefs owner id fetch rs (Packer.add p r data) w := by
  have hstep : (Prog.lift (fetch r) : FoldM _) w = (.ok (some data), w) := by rw [hf]; rfl
  rw [packRefs_cons, Prog.bind_ok hstep]
  dsimp only
  have hshort' : ¬ (p.run ++ data).length ≥ runPages * zouPageSize := Nat.not_le.mpr hshort
  rw [if_neg (fun hne => hne hlen), if_neg hshort']
  rfl

theorem packRefs_full (hf : fetch r = .ok (some data)) (hlen : data.length = zouPageSize)
    (hfull : (Packer.add p r data).run.length ≥ runPages * zouPageSize) :
    packRefs owner id fetch (r :: rs) p w
      = (flushRun owner id (Packer.add p r data) >>= packRefs owner id fetch rs) w := by
  have hstep : (Prog.lift (fetch r) : FoldM _) w = (.ok (some data), w) := by rw [hf]; rfl
  rw [packRefs_cons, Prog.bind_ok hstep]
  dsimp only
  have hfull' : (p.run ++ data).length ≥ runPages * zouPageSize := hfull
  rw [if_neg (fun hne => hne hlen), if_pos hfull']
  rfl

end

theorem packRefs_spec (owner id : String)
    (fetch : BlockRef → Except FoldError (Option (List UInt8))) : ∀ {refs : List BlockRef}
    {L : List (BlockRef × List UInt8)} {p : Packer} (w : World FoldKey FoldObj), Packs L p →
    P = L ++ packed fetch refs →
    ∃ w', Wrote owner id P w.objs w'.objs
      ∧ ((∃ p', packRefs owner id fetch refs p w = (.ok p', w') ∧ Packs P p' ∧ p.runs ≤ p'.runs
            ∧ ∀ k, p.runs ≤ k → k < p'.runs → Store.get w'.objs (.pages owner id k) ≠ none)
        ∨ ∃ e, packRefs owner id fetch refs p w = (.error e, w')) := by
  intro refs
  induction refs with
  | nil =>
    intro L p w h hP
    rw [packed, List.append_nil] at hP
    exact ⟨w, Wrote.refl, .inl ⟨p, rfl, hP ▸ h, le_rfl,
      fun k hle hlt => absurd hlt (Nat.not_lt.mpr hle)⟩⟩
  | cons r rs ih =>
    intro L p w h hP
    unfold packed at hP
    cases hf : fetch r with
    | error e => exact ⟨w, Wrote.refl, .inr ⟨e, packRefs_error hf⟩⟩
    | ok found =>
      rw [hf] at hP
      cases found with
      | none =>
        rw [packRefs_none hf]
        exact ih w h hP
      | some data =>
        dsimp only at hP
        by_cases hlen : data.length = zouPageSize
        · rw [if_pos hlen, List.append_cons] at hP
          rcases h.add (r := r) hlen with ⟨hshort, hadd⟩ | ⟨hfull, hnext, himg, hadd⟩
          · rw [packRefs_add hf hlen hshort]
            exact ih w hadd hP
          · rw [packRefs_full hf hlen hfull]
            have himg' : (Packer.add p r data).run = image p.runs P := by
              rw [hP, image, chunk_append (by rw [hnext]; simp)]
              exact himg
            have hne : (Packer.add p r data).run ≠ [] := by
              intro hnil
              have hz := congrArg List.length hnil
              have hpos := zouPageSize_pos
              rw [Packer.add, List.length_append, hlen, List.length_nil] at hz
              omega
            obtain ⟨w₁, hw₁, ⟨hok, hsome⟩ | ⟨e, he⟩⟩ := flushRun_spec owner id w hne himg'
            · obtain ⟨w₂, hw₂, hrest⟩ := ih w₁ hadd hP
              refine ⟨w₂, hw₁.trans hw₂, ?_⟩
              rw [Prog.bind_ok hok]
              rcases hrest with ⟨p', hp', hpacks, hle, hall⟩ | herr
              · refine .inl ⟨p', hp', hpacks, Nat.le_trans (Nat.le_succ _) hle, ?_⟩
                intro k hk hlt
                rcases Nat.eq_or_lt_of_le hk with rfl | hgt
                · exact hw₂.present hsome
                · exact hall k hgt hlt
              · exact .inr herr
            · exact ⟨w₁, hw₁, .inr ⟨e, by rw [Prog.bind_error he]⟩⟩
        · rw [if_neg hlen, List.append_nil] at hP
          exact ⟨w, Wrote.refl, .inr ⟨_, packRefs_bad hf hlen⟩⟩

/-! ## One attempt -/

/-- The index text of a list of packed blocks. -/
def indexText (P : List (BlockRef × List UInt8)) (events : List PagesLine) : PagesText :=
  ⟨runPages, P.map (fun e => .p e.1) ++ events⟩

/-- What an attempt that packs `P` leaves behind: its runs, and then an
index if none is there and every run of what it packed is. -/
def Leaves (owner id : String) (P : List (BlockRef × List UInt8)) (events : List PagesLine)
    (objs objs' : List (FoldKey × FoldObj)) : Prop :=
  Wrote owner id P objs objs'
    ∨ (Store.get objs (.pageIndex owner id) = none
        ∧ ∃ objs₁, Wrote owner id P objs objs₁
          ∧ (∀ k, k * runPages < P.length → Store.get objs₁ (.pages owner id k) ≠ none)
          ∧ objs' = (.pageIndex owner id, .index (indexText P events)) :: objs₁)

theorem packPageRuns_leaves (owner id : String) (refs : List BlockRef) (rels : List RelTag)
    (truncs : List (RelTag × Nat)) (sizes : List (ForkTag × Nat))
    (fetch : BlockRef → Except FoldError (Option (List UInt8))) (w : World FoldKey FoldObj) :
    Leaves owner id (packed fetch refs) (eventLines rels truncs sizes) w.objs
      (packPageRuns owner id refs rels truncs sizes fetch w).2.objs := by
  generalize hP : packed fetch refs = P
  generalize hobjs' : (packPageRuns owner id refs rels truncs sizes fetch w).2.objs = objs'
  obtain ⟨w₁, hobjs₁, hread | hread⟩ := Store.read_cases FoldError.store
    (fun objs => Store.get objs (FoldKey.pageIndex owner id)) w
  · cases hidx : Store.get w.objs (.pageIndex owner id) with
    | some text =>
      refine .inl (Wrote.of_eq ?_)
      rw [← hobjs', packPageRuns, Prog.bind_ok hread, hidx]
      exact hobjs₁
    | none =>
      obtain ⟨w₂, hw₂, ⟨p, hp, hpacks, -, hall⟩ | ⟨e, he⟩⟩ :=
        packRefs_spec owner id fetch w₁ packs_new hP.symm
      · have hrest : ∀ {q : Packer} {w₃ : World FoldKey FoldObj},
            Wrote owner id P w.objs w₃.objs → q.lines = p.lines →
            flushRun owner id p w₂ = (.ok q, w₃) →
            (∀ k, k * runPages < P.length → Store.get w₃.objs (.pages owner id k) ≠ none) →
            Leaves owner id P (eventLines rels truncs sizes) w.objs objs' := by
          intro q w₃ hw₃ hlines hflush hruns
          obtain ⟨w₄, hput, hobjs⟩ := Store.putOrKeep_cases FoldError.store
            (.pageIndex owner id)
            (.index ⟨runPages, q.lines ++ eventLines rels truncs sizes⟩) w₃
          have hend : objs' = w₄.objs := by
            rw [← hobjs', packPageRuns, Prog.bind_ok hread, hidx]
            dsimp only
            rw [Prog.bind_ok hp, Prog.bind_ok hflush, Prog.bind_pure_snd]
            rcases hput with ⟨hok, -⟩ | herr
            · rw [hok]
            · rw [herr]
          rw [hend]
          rcases hobjs with heq | ⟨-, heq⟩
          · exact .inl (heq ▸ hw₃)
          · refine .inr ⟨hidx, w₃.objs, hw₃, hruns, ?_⟩
            rw [heq, hlines, hpacks.lines]
            rfl
        have hw₂' : Wrote owner id P w.objs w₂.objs := hobjs₁ ▸ hw₂
        have hlen := hpacks.run_length
        by_cases hrun : p.run = []
        · refine hrest hw₂' rfl (by rw [flushRun, if_pos hrun]; rfl) fun k hk => ?_
          refine hall k (Nat.zero_le _) ?_
          rw [hpacks.runs]
          have hzero : P.length % runPages = 0 := by
            rw [hrun, List.length_nil] at hlen
            rcases Nat.mul_eq_zero.mp hlen.symm with hz | hz
            · exact hz
            · exact absurd hz (Nat.ne_of_gt zouPageSize_pos)
          have hdiv := Nat.div_add_mod P.length runPages
          rw [hzero, Nat.add_zero, Nat.mul_comm] at hdiv
          rw [← hdiv] at hk
          exact Nat.lt_of_mul_lt_mul_right hk
        · have himg : p.run = image p.runs P := by
            rw [hpacks.run, image, chunk]
            congr 2
            refine (List.take_of_length_le ?_).symm
            rw [List.length_drop, hpacks.runs]
            have hmod := Nat.mod_lt P.length runPages_pos
            have hdiv := Nat.div_add_mod P.length runPages
            rw [Nat.mul_comm] at hdiv
            omega
          obtain ⟨w₃, hw₃, ⟨hok, hsome⟩ | ⟨e, he⟩⟩ := flushRun_spec owner id w₂ hrun himg
          · refine hrest (q := { p with run := [], runs := p.runs + 1 }) (hw₂'.trans hw₃) rfl hok
              fun k hk => ?_
            rcases Nat.lt_or_ge k p.runs with hlt | hge
            · exact hw₃.present (hall k (Nat.zero_le _) hlt)
            · obtain rfl : k = p.runs := by
                refine Nat.le_antisymm ?_ hge
                rw [hpacks.runs]
                exact (Nat.le_div_iff_mul_le runPages_pos).mpr (Nat.le_of_lt hk)
              exact hsome
          · refine .inl ?_
            have hend : objs' = w₃.objs := by
              rw [← hobjs', packPageRuns, Prog.bind_ok hread, hidx]
              dsimp only
              rw [Prog.bind_ok hp, Prog.bind_error he]
            exact hend ▸ hw₂'.trans hw₃
      · refine .inl ?_
        have hend : objs' = w₂.objs := by
          rw [← hobjs', packPageRuns, Prog.bind_ok hread, hidx]
          dsimp only
          rw [Prog.bind_error he]
        exact hend ▸ hobjs₁ ▸ hw₂
  · refine .inl (Wrote.of_eq ?_)
    rw [← hobjs', packPageRuns, Prog.bind_error hread]
    exact hobjs₁

/-- A pack that returns found every block it went through readable. -/
theorem packRefs_complete : ∀ {refs : List BlockRef} {p p' : Packer} {w w' : World FoldKey FoldObj},
    packRefs owner id fetch refs p w = (.ok p', w') → ∀ r ∈ refs,
      fetch r = .ok none ∨ ∃ data, fetch r = .ok (some data) ∧ data.length = zouPageSize := by
  intro refs
  induction refs with
  | nil => exact nofun
  | cons r rs ih =>
    intro p p' w w' h
    have hcons : ∀ {q : Packer} {w₁ : World FoldKey FoldObj},
        packRefs owner id fetch rs q w₁ = (.ok p', w') →
        (fetch r = .ok none ∨ ∃ data, fetch r = .ok (some data) ∧ data.length = zouPageSize) →
        ∀ r' ∈ r :: rs, fetch r' = .ok none
          ∨ ∃ data, fetch r' = .ok (some data) ∧ data.length = zouPageSize := by
      intro q w₁ hrest hr r' hr'
      rcases List.mem_cons.mp hr' with rfl | hr'
      · exact hr
      · exact ih hrest r' hr'
    cases hf : fetch r with
    | error e =>
      rw [packRefs_error hf] at h
      cases h
    | ok found =>
      cases found with
      | none =>
        rw [packRefs_none hf] at h
        exact hcons h (.inl hf)
      | some data =>
        by_cases hlen : data.length = zouPageSize
        · have hr : fetch r = .ok none
              ∨ ∃ data, fetch r = .ok (some data) ∧ data.length = zouPageSize :=
            .inr ⟨data, hf, hlen⟩
          by_cases hshort : (Packer.add p r data).run.length < runPages * zouPageSize
          · rw [packRefs_add hf hlen hshort] at h
            exact hcons h hr
          · rw [packRefs_full hf hlen (Nat.not_lt.mp hshort), Prog.bind_apply] at h
            cases hflush : flushRun owner id (Packer.add p r data) w with
            | mk res w₁ =>
              rw [hflush] at h
              cases res with
              | error e => cases h
              | ok q => exact hcons h hr
        · rw [packRefs_bad hf hlen] at h
          cases h

theorem mem_packed {data : List UInt8}
    (h : ∀ r ∈ refs, fetch r = .ok none
      ∨ ∃ data, fetch r = .ok (some data) ∧ data.length = zouPageSize)
    (hr : r ∈ refs) (hf : fetch r = .ok (some data)) : (r, data) ∈ packed fetch refs := by
  induction refs with
  | nil => cases hr
  | cons a rs ih =>
    have hrest : r ∈ rs → (r, data) ∈ packed fetch rs :=
      fun hr => ih (fun r hr => h r (.tail _ hr)) hr
    unfold packed
    rcases h a List.mem_cons_self with hnone | ⟨d, hd, hlen⟩
    · rw [hnone]
      rcases List.mem_cons.mp hr with rfl | hr
      · rw [hf] at hnone
        cases hnone
      · exact hrest hr
    · rw [hd]
      dsimp only
      rw [if_pos hlen]
      rcases List.mem_cons.mp hr with rfl | hr
      · rw [hf] at hd
        cases hd
        exact List.mem_cons_self
      · exact .tail _ (hrest hr)

theorem packPageRuns_ok {rels : List RelTag} {truncs : List (RelTag × Nat)}
    {sizes : List (ForkTag × Nat)} {n : Nat × Nat} {w w' : World FoldKey FoldObj}
    (h : packPageRuns owner id refs rels truncs sizes fetch w = (.ok n, w'))
    (hidx : Store.get w.objs (.pageIndex owner id) = none) : (∀ r ∈ refs, fetch r = .ok none
        ∨ ∃ data, fetch r = .ok (some data) ∧ data.length = zouPageSize)
      ∧ Store.get w'.objs (.pageIndex owner id) ≠ none := by
  obtain ⟨w₁, hobjs₁, hread | hread⟩ := Store.read_cases FoldError.store
    (fun objs => Store.get objs (FoldKey.pageIndex owner id)) w
  · rw [packPageRuns, Prog.bind_ok hread, hidx] at h
    dsimp only at h
    rw [Prog.bind_apply] at h
    cases hpack : packRefs owner id fetch refs Packer.new w₁ with
    | mk res w₂ =>
      rw [hpack] at h
      cases res with
      | error e => cases h
      | ok p =>
        refine ⟨packRefs_complete hpack, ?_⟩
        dsimp only at h
        rw [Prog.bind_apply] at h
        cases hflush : flushRun owner id p w₂ with
        | mk res w₃ =>
          rw [hflush] at h
          cases res with
          | error e => cases h
          | ok q =>
            obtain ⟨w₄, ⟨hput, hsome⟩ | hput, -⟩ := Store.putOrKeep_cases FoldError.store
              (.pageIndex owner id)
              (.index ⟨runPages, q.lines ++ eventLines rels truncs sizes⟩) w₃
            · dsimp only at h
              rw [Prog.bind_ok hput] at h
              cases h
              exact hsome
            · dsimp only at h
              rw [Prog.bind_error hput] at h
              cases h
  · rw [packPageRuns, Prog.bind_error hread] at h
    cases h

/-! ## The index of a pack -/

section

variable (c : ChkIndex)

theorem foldl_p (P : List (BlockRef × List UInt8)) :
    (P.map fun e => PagesLine.p e.1).foldl ChkIndex.addLine c
      = { c with entries := c.entries ++ P.map Prod.fst } := by
  induction P generalizing c with
  | nil => simp
  | cons e P ih =>
    rw [List.map_cons, List.foldl_cons, ih]
    simp [ChkIndex.addLine]

theorem foldl_r (rels : List RelTag) : (rels.map PagesLine.r).foldl ChkIndex.addLine c
      = { c with rels := rels.foldl (fun s t => insert t s) c.rels } := by
  induction rels generalizing c with
  | nil => rfl
  | cons t rels ih =>
    rw [List.map_cons, List.foldl_cons, ih]
    rfl

theorem foldl_t (truncs : List (RelTag × Nat)) :
    (truncs.map fun t => PagesLine.t t.1 t.2).foldl ChkIndex.addLine c
      = { c with truncs := truncs.foldl (fun m t => m.insert t.1 t.2) c.truncs } := by
  induction truncs generalizing c with
  | nil => rfl
  | cons t truncs ih =>
    rw [List.map_cons, List.foldl_cons, ih]
    rfl

theorem foldl_s (sizes : List (ForkTag × Nat)) :
    (sizes.map fun s => PagesLine.s s.1 s.2).foldl ChkIndex.addLine c
      = { c with sizes := sizes.foldl (fun m s => m.insert s.1 s.2) c.sizes } := by
  induction sizes generalizing c with
  | nil => rfl
  | cons s sizes ih =>
    rw [List.map_cons, List.foldl_cons, ih]
    rfl

end

/-- The index a pack writes, as it is read back. -/
def packedIndex (id owner : String) (P : List (BlockRef × List UInt8)) (rels : List RelTag)
    (truncs : List (RelTag × Nat)) (sizes : List (ForkTag × Nat)) : ChkIndex where
  id := id
  owner := owner
  runPages := runPages
  entries := P.map Prod.fst
  rels := rels.foldl (fun s t => insert t s) ∅
  truncs := truncs.foldl (fun m t => m.insert t.1 t.2) OrdMap.empty
  sizes := sizes.foldl (fun m s => m.insert s.1 s.2) OrdMap.empty

/-- The index of a pack that went through ascending blocks is read back
with what it packed. -/
theorem parse_indexText (id owner : String) (rels : List RelTag) (truncs : List (RelTag × Nat))
    (sizes : List (ForkTag × Nat)) {P : List (BlockRef × List UInt8)}
    (h : (P.map Prod.fst).Pairwise (· < ·)) :
    ChkIndex.parse id owner (indexText P (eventLines rels truncs sizes))
      = .ok (packedIndex id owner P rels truncs sizes) := by
  have hne : ¬ (indexText P (eventLines rels truncs sizes)).runs = 0 :=
    Nat.ne_of_gt runPages_pos
  have hfold : (indexText P (eventLines rels truncs sizes)).lines.foldl ChkIndex.addLine
      ⟨id, owner, (indexText P (eventLines rels truncs sizes)).runs, [], ∅, OrdMap.empty,
        OrdMap.empty⟩ = packedIndex id owner P rels truncs sizes := by
    rw [indexText, eventLines, List.foldl_append, foldl_p, List.foldl_append, List.foldl_append,
      foldl_r, foldl_t, foldl_s]
    simp [packedIndex]
  have hle : (P.map Prod.fst).Pairwise (· ≤ ·) := h.imp fun hlt => le_of_lt hlt
  simp only [ChkIndex.parse, if_neg hne, hfold]
  rw [if_pos]
  exact hle

theorem lookup_mem {chk : ChkIndex} (h : r ∈ chk.entries) : ∃ i, chk.entries[i]? = some r
      ∧ chk.lookup r = some (i / chk.runPages, i % chk.runPages * zouPageSize) := by
  cases hf : chk.entries.findIdx? (· = r) with
  | none =>
    have hno := List.findIdx?_eq_none_iff.mp hf r h
    simp at hno
  | some i =>
    obtain ⟨hlt, hr, -⟩ := List.findIdx?_eq_some_iff_getElem.mp hf
    refine ⟨i, ?_, by rw [ChkIndex.lookup, hf]; rfl⟩
    rw [List.getElem?_eq_getElem hlt]
    simpa using hr

/-! ## Attempts -/

/-- One attempt to pack a checkpoint: the blocks it goes through in order,
what `fetch` says of each, and how the store answers. -/
structure Attempt where
  refs : List BlockRef
  sorted : refs.Pairwise (· < ·)
  rels : List RelTag
  truncs : List (RelTag × Nat)
  sizes : List (ForkTag × Nat)
  fetch : BlockRef → Except FoldError (Option (List UInt8))
  acks : List Store.Ack

namespace Attempt

def found (a : Attempt) : List (BlockRef × List UInt8) := packed a.fetch a.refs

def blocks (a : Attempt) : List BlockRef := a.found.map Prod.fst

/-- The objects an attempt leaves behind. -/
def run (owner id : String) (objs : List (FoldKey × FoldObj)) (a : Attempt) :
    List (FoldKey × FoldObj) :=
  (packPageRuns owner id a.refs a.rels a.truncs a.sizes a.fetch ⟨objs, a.acks⟩).2.objs

def runs (owner id : String) (objs : List (FoldKey × FoldObj)) (as : List Attempt) :
    List (FoldKey × FoldObj) := as.foldl (run owner id) objs

theorem runs_snoc (owner id : String) (objs : List (FoldKey × FoldObj)) (as : List Attempt)
    (a : Attempt) : runs owner id objs (as ++ [a]) = run owner id (runs owner id objs as) a := by
  simp [runs]

theorem leaves (owner id : String) (objs : List (FoldKey × FoldObj)) (a : Attempt) :
    Leaves owner id a.found (eventLines a.rels a.truncs a.sizes) objs (run owner id objs a) :=
  packPageRuns_leaves owner id a.refs a.rels a.truncs a.sizes a.fetch ⟨objs, a.acks⟩

end Attempt

/-- Nothing is stored for the checkpoint. -/
def Fresh (owner id : String) (objs : List (FoldKey × FoldObj)) : Prop :=
  Store.get objs (.pageIndex owner id) = none ∧ ∀ k, Store.get objs (.pages owner id k) = none

/-- Every block the index names is found in the run objects with an image
that `fetch` returned for it in one of the attempts. -/
def Matches (owner id : String) (objs : List (FoldKey × FoldObj)) (as : List Attempt) : Prop :=
  ∀ text, Store.get objs (.pageIndex owner id) = some text →
    ∃ t chk, text = .index t ∧ ChkIndex.parse id owner t = .ok chk
      ∧ ∀ r ∈ chk.entries, ∃ run off bytes, chk.lookup r = some (run, off)
        ∧ Store.get objs (.pages owner id run) = some (.bytes bytes)
        ∧ ∃ a ∈ as, a.fetch r = .ok (some ((bytes.drop off).take zouPageSize))

/-- Attempt `b`, after `pre`, is the one that put run `k`. -/
def PutRun (owner id : String) (objs : List (FoldKey × FoldObj)) (pre : List Attempt)
    (b : Attempt) (k : Nat) : Prop :=
  Store.get (Attempt.runs owner id objs pre) (.pages owner id k) = none
    ∧ Store.get (Attempt.runs owner id objs (pre ++ [b])) (.pages owner id k) ≠ none

/-- Attempt `a`, after `pre`, is the one that put the index. -/
def PutIndex (owner id : String) (objs : List (FoldKey × FoldObj)) (pre : List Attempt)
    (a : Attempt) : Prop :=
  Store.get (Attempt.runs owner id objs pre) (.pageIndex owner id) = none
    ∧ Store.get (Attempt.runs owner id objs (pre ++ [a])) (.pageIndex owner id) ≠ none

/-- The attempt that puts the index finds the blocks of every run that an
earlier one put at the places where that one put them. -/
def Aligned (owner id : String) (objs : List (FoldKey × FoldObj)) (as : List Attempt) : Prop :=
  ∀ pre a post, as = pre ++ a :: post → PutIndex owner id objs pre a →
    ∀ pre' b mid, pre = pre' ++ b :: mid → ∀ k, PutRun owner id objs pre' b k →
      chunk k a.blocks <+: chunk k b.blocks

/-- Where the runs come from. -/
def Traced (owner id : String) (objs : List (FoldKey × FoldObj)) (as : List Attempt) : Prop :=
  ∀ k obj, Store.get (Attempt.runs owner id objs as) (.pages owner id k) = some obj →
    ∃ pre b mid, as = pre ++ b :: mid ∧ PutRun owner id objs pre b k
      ∧ obj = .bytes (image k b.found)

variable {as : List Attempt} {a : Attempt}

theorem Traced.snoc (h : Traced owner id objs as) : Traced owner id objs (as ++ [a]) := by
  intro k obj hobj
  have hrun := Attempt.leaves owner id (Attempt.runs owner id objs as) a
  rw [← Attempt.runs_snoc] at hrun
  have hkey : Store.get (Attempt.runs owner id objs (as ++ [a])) (.pages owner id k)
        = Store.get (Attempt.runs owner id objs as) (.pages owner id k)
      ∨ (Store.get (Attempt.runs owner id objs as) (.pages owner id k) = none
        ∧ Store.get (Attempt.runs owner id objs (as ++ [a])) (.pages owner id k)
          = some (.bytes (image k a.found))) := by
    have hwrote : ∀ objs₁, Wrote owner id a.found (Attempt.runs owner id objs as) objs₁ →
        Store.get objs₁ (.pages owner id k)
            = Store.get (Attempt.runs owner id objs as) (.pages owner id k)
          ∨ (Store.get (Attempt.runs owner id objs as) (.pages owner id k) = none
            ∧ Store.get objs₁ (.pages owner id k) = some (.bytes (image k a.found))) := by
      intro objs₁ hw
      rcases hw (.pages owner id k) with heq | ⟨k', hk, hnone, hnew⟩
      · exact .inl heq
      · cases hk
        exact .inr ⟨hnone, hnew⟩
    rcases hrun with hw | ⟨-, objs₁, hw, -, heq⟩
    · exact hwrote _ hw
    · have hne : FoldKey.pages owner id k ≠ .pageIndex owner id := nofun
      rw [heq, Store.get_cons_ne hne]
      exact hwrote objs₁ hw
  rcases hkey with heq | ⟨hnone, hnew⟩
  · rw [heq] at hobj
    obtain ⟨pre, b, mid, rfl, hput, himg⟩ := h k obj hobj
    exact ⟨pre, b, mid ++ [a], by simp, hput, himg⟩
  · rw [hnew] at hobj
    cases hobj
    exact ⟨as, a, [], rfl, ⟨hnone, by rw [hnew]; simp⟩, rfl⟩

theorem chunk_map {A B : Type} (f : A → B) (k : Nat) (l : List A) :
    chunk k (l.map f) = (chunk k l).map f := by
  simp [chunk, List.map_drop, List.map_take]

/-- A block at its place in a run of an attempt that found it there. -/
theorem slice_image {b : Attempt} {i : Nat}
    (h : (chunk (i / runPages) b.blocks)[i % runPages]? = some r) :
    b.fetch r = .ok (some (((image (i / runPages) b.found).drop (i % runPages * zouPageSize)).take
      zouPageSize)) := by
  rw [Attempt.blocks, chunk_map, List.getElem?_map] at h
  obtain ⟨e, he, rfl⟩ := Option.map_eq_some_iff.mp h
  have hsub : ∀ e ∈ chunk (i / runPages) b.found, e ∈ b.found :=
    fun e he => List.mem_of_mem_drop (List.mem_of_mem_take he)
  have hslice := slice_flatten (L := chunk (i / runPages) b.found)
    (fun e he => (packed_sound (hsub e he)).2) he
  rw [image, hslice]
  exact (packed_sound (hsub e (List.mem_of_getElem? he))).1

theorem matches_putIndex (ht : Traced owner id objs (as ++ [a]))
    (ha : Aligned owner id objs (as ++ [a])) (hput : PutIndex owner id objs as a) :
    Matches owner id (Attempt.runs owner id objs (as ++ [a])) (as ++ [a]) := by
  have hrun := Attempt.leaves owner id (Attempt.runs owner id objs as) a
  rw [← Attempt.runs_snoc] at hrun
  rcases hrun with hw | ⟨-, objs₁, hw, hall, heq⟩
  · exact absurd ((get_index_of_wrote hw).trans hput.1) hput.2
  · intro text htext
    rw [heq, Store.get_cons_self] at htext
    cases htext
    have hsorted : (a.found.map Prod.fst).Pairwise (· < ·) :=
      a.sorted.sublist (packed_sublist a.refs)
    refine ⟨_, _, rfl, parse_indexText id owner a.rels a.truncs a.sizes hsorted, fun r hr => ?_⟩
    obtain ⟨i, hi, hlookup⟩ := lookup_mem hr
    have hi : (a.found.map Prod.fst)[i]? = some r := hi
    have hlt : i < a.found.length := by
      have hlt := (List.getElem?_eq_some_iff.mp hi).1
      rwa [List.length_map] at hlt
    have hk : i / runPages * runPages < a.found.length :=
      Nat.lt_of_le_of_lt (Nat.div_mul_le_self ..) hlt
    have hne : FoldKey.pages owner id (i / runPages) ≠ .pageIndex owner id := nofun
    have hkeep : Store.get (Attempt.runs owner id objs (as ++ [a])) (.pages owner id (i / runPages))
        = Store.get objs₁ (.pages owner id (i / runPages)) := by
      rw [heq, Store.get_cons_ne hne]
    obtain ⟨obj, hobj⟩ := Option.ne_none_iff_exists'.mp (hall _ hk)
    rw [← hkeep] at hobj
    obtain ⟨pre, b, mid, hsplit, hputrun, rfl⟩ := ht _ _ hobj
    refine ⟨_, _, _, hlookup, hobj, b, ?_, slice_image ?_⟩
    · rw [hsplit]
      exact List.mem_append_right _ List.mem_cons_self
    · have hown : (chunk (i / runPages) a.blocks)[i % runPages]? = some r :=
        (getElem?_chunk i).trans hi
      rcases List.eq_nil_or_concat mid with rfl | ⟨mid', c, rfl⟩
      · -- The run is of the attempt that put the index.
        obtain ⟨-, hab⟩ := List.append_inj' hsplit rfl
        cases hab
        exact hown
      · have hsplit' : as = pre ++ b :: mid' := by
          have hsplit₂ : as ++ [a] = (pre ++ b :: mid') ++ [c] := by simpa using hsplit
          exact (List.append_inj' hsplit₂ rfl).1
        have hprefix := ha as a [] (by simp) hput pre b mid' hsplit' _ hputrun
        obtain ⟨rest, hrest⟩ := hprefix
        rw [← hrest, List.getElem?_append_left (List.getElem?_eq_some_iff.mp hown).1]
        exact hown

theorem Aligned.init (h : Aligned owner id objs (as ++ [a])) : Aligned owner id objs as := by
  intro pre b post hsplit
  exact h pre b (post ++ [a]) (by rw [hsplit]; simp)

theorem Matches.snoc (hw : Wrote owner id P objs objs') (h : Matches owner id objs as) :
    Matches owner id objs' (as ++ [a]) := by
  intro text htext
  rw [get_index_of_wrote hw] at htext
  obtain ⟨t, chk, ht, hparse, hall⟩ := h text htext
  refine ⟨t, chk, ht, hparse, fun r hr => ?_⟩
  obtain ⟨run, off, bytes, hlookup, hobj, b, hb, hfetch⟩ := hall r hr
  refine ⟨run, off, bytes, hlookup, ?_, b, List.mem_append_left _ hb, hfetch⟩
  rcases hw (.pages owner id run) with heq | ⟨k, -, hnone, -⟩
  · rw [heq]
    exact hobj
  · rw [hobj] at hnone
    cases hnone

/-- Page runs match their index, however often the pack is tried and
wherever each attempt stops, if the attempt that puts the index finds the
blocks of the runs left behind where they are. -/
theorem runs_match_index {as : List Attempt} (hf : Fresh owner id objs)
    (ha : Aligned owner id objs as) : Matches owner id (Attempt.runs owner id objs as) as := by
  have main : Traced owner id objs as
      ∧ Matches owner id (Attempt.runs owner id objs as) as := by
    induction as using List.reverseRecOn with
    | nil =>
      refine ⟨fun k obj hobj => ?_, fun text htext => ?_⟩
      · have hnone := hf.2 k
        rw [show Attempt.runs owner id objs [] = objs from rfl, hnone] at hobj
        cases hobj
      · have hnone := hf.1
        rw [show Attempt.runs owner id objs [] = objs from rfl, hnone] at htext
        cases htext
    | append_singleton as a ih =>
      obtain ⟨ht, hm⟩ := ih ha.init
      refine ⟨ht.snoc, ?_⟩
      by_cases hput : PutIndex owner id objs as a
      · exact matches_putIndex ht.snoc ha hput
      · have hrun := Attempt.leaves owner id (Attempt.runs owner id objs as) a
        rw [← Attempt.runs_snoc] at hrun
        rcases hrun with hw | ⟨hnone, objs₁, -, -, heq⟩
        · exact hm.snoc hw
        · refine absurd ⟨hnone, ?_⟩ hput
          rw [heq, Store.get_cons_self]
          simp
  exact main.2

/-! ## A block that is gone -/

def filledPage (b : UInt8) : List UInt8 := List.replicate zouPageSize b

@[simp] theorem length_filledPage (b : UInt8) : (filledPage b).length = zouPageSize :=
  List.length_replicate ..

def blockA : BlockRef := ⟨1663, 5, 16384, 0, 0⟩

def blockB : BlockRef := ⟨1663, 5, 16384, 0, 1⟩

/-- Both blocks are there, and the store fails the put of the index. -/
def firstAttempt : Attempt where
  refs := [blockA, blockB]
  sorted := by decide
  rels := []
  truncs := []
  sizes := []
  fetch := fun r => .ok (some (if r = blockA then filledPage 1 else filledPage 2))
  acks := [.reply, .reply, .fail]

theorem aligned_of_blocks {l : List BlockRef} (h : ∀ a ∈ as, a.blocks = l) :
    Aligned owner id objs as := by
  rintro pre a post rfl - pre' b mid rfl k -
  rw [h a (by simp), h b (by simp)]

/-- A retry that finds what the first attempt found. -/
theorem runs_match_index_retry :
    Fresh "t" "0" []
      ∧ Aligned "t" "0" [] [firstAttempt, { firstAttempt with acks := [] }]
      ∧ Matches "t" "0" (Attempt.runs "t" "0" [] [firstAttempt, { firstAttempt with acks := [] }])
          [firstAttempt, { firstAttempt with acks := [] }] := by
  have hf : Fresh "t" "0" [] := ⟨rfl, fun _ => rfl⟩
  have ha : Aligned "t" "0" [] [firstAttempt, { firstAttempt with acks := [] }] := by
    refine aligned_of_blocks (l := firstAttempt.blocks) fun a ha => ?_
    rcases List.mem_cons.mp ha with rfl | ha
    · rfl
    · cases List.mem_singleton.mp ha
      rfl
  exact ⟨hf, ha, runs_match_index hf ha⟩

/-- Block A is gone. -/
def secondAttempt : Attempt where
  refs := [blockA, blockB]
  sorted := by decide
  rels := []
  truncs := []
  sizes := []
  fetch := fun r => .ok (if r = blockA then none else some (filledPage 2))
  acks := []

theorem run_firstAttempt : Attempt.run "t" "0" [] firstAttempt
    = [(.pages "t" "0" 0, .bytes (filledPage 1 ++ filledPage 2))] := by
  have hA : firstAttempt.fetch blockA = .ok (some (filledPage 1)) := rfl
  have hB : firstAttempt.fetch blockB = .ok (some (filledPage 2)) := rfl
  have hlenA : (Packer.add Packer.new blockA (filledPage 1)).run.length
      < runPages * zouPageSize := by
    rw [Packer.add, List.length_append, length_filledPage]
    decide
  have hlenB : (Packer.add (Packer.add Packer.new blockA (filledPage 1)) blockB
      (filledPage 2)).run.length < runPages * zouPageSize := by
    rw [Packer.add, List.length_append, Packer.add, List.length_append, length_filledPage,
      length_filledPage]
    decide
  have hne : filledPage 1 ++ filledPage 2 ≠ [] := by
    intro hnil
    have hlen := congrArg List.length hnil
    rw [List.length_append, length_filledPage, length_filledPage] at hlen
    exact absurd hlen (by decide)
  have hpack : packRefs "t" "0" firstAttempt.fetch firstAttempt.refs Packer.new
      ⟨[], [.reply, .fail]⟩
      = (.ok ⟨[.p blockA, .p blockB], filledPage 1 ++ filledPage 2, 0, 2⟩,
        ⟨[], [.reply, .fail]⟩) := by
    show packRefs "t" "0" firstAttempt.fetch [blockA, blockB] Packer.new _ = _
    rw [packRefs_add hA (length_filledPage 1) hlenA, packRefs_add hB (length_filledPage 2) hlenB]
    rfl
  have hflush : flushRun "t" "0" ⟨[.p blockA, .p blockB], filledPage 1 ++ filledPage 2, 0, 2⟩
      ⟨[], [.reply, .fail]⟩
      = (.ok ⟨[.p blockA, .p blockB], [], 1, 2⟩,
        ⟨[(.pages "t" "0" 0, .bytes (filledPage 1 ++ filledPage 2))], [.fail]⟩) := by
    rw [flushRun, if_neg hne]
    rfl
  have hread : (Store.read .store fun objs => Store.get objs (.pageIndex "t" "0") : FoldM _)
      ⟨[], firstAttempt.acks⟩ = (.ok none, ⟨[], [.reply, .fail]⟩) := rfl
  rw [Attempt.run, packPageRuns, Prog.bind_ok hread]
  dsimp only
  rw [Prog.bind_ok hpack, Prog.bind_ok hflush]
  rfl

theorem run_secondAttempt :
    Attempt.run "t" "0" [(.pages "t" "0" 0, .bytes (filledPage 1 ++ filledPage 2))] secondAttempt
      = [(.pageIndex "t" "0", .index ⟨runPages, [.p blockB]⟩),
        (.pages "t" "0" 0, .bytes (filledPage 1 ++ filledPage 2))] := by
  generalize filledPage 1 ++ filledPage 2 = old
  have hA : secondAttempt.fetch blockA = .ok none := rfl
  have hB : secondAttempt.fetch blockB = .ok (some (filledPage 2)) := rfl
  have hlenB : (Packer.add Packer.new blockB (filledPage 2)).run.length
      < runPages * zouPageSize := by
    rw [Packer.add, List.length_append, length_filledPage]
    decide
  have hne : filledPage 2 ≠ [] := by
    intro hnil
    have hlen := congrArg List.length hnil
    rw [length_filledPage] at hlen
    exact absurd hlen (by decide)
  have hpack : packRefs "t" "0" secondAttempt.fetch secondAttempt.refs Packer.new
      ⟨[(.pages "t" "0" 0, .bytes old)], []⟩
      = (.ok ⟨[.p blockB], filledPage 2, 0, 1⟩, ⟨[(.pages "t" "0" 0, .bytes old)], []⟩) := by
    show packRefs "t" "0" secondAttempt.fetch [blockA, blockB] Packer.new _ = _
    rw [packRefs_none hA, packRefs_add hB (length_filledPage 2) hlenB]
    rfl
  have hflush : flushRun "t" "0" ⟨[.p blockB], filledPage 2, 0, 1⟩
      ⟨[(.pages "t" "0" 0, .bytes old)], []⟩
      = (.ok ⟨[.p blockB], [], 1, 1⟩, ⟨[(.pages "t" "0" 0, .bytes old)], []⟩) := by
    rw [flushRun, if_neg hne]
    rfl
  have hread : (Store.read .store fun objs => Store.get objs (.pageIndex "t" "0") : FoldM _)
      ⟨[(.pages "t" "0" 0, .bytes old)], secondAttempt.acks⟩
      = (.ok none, ⟨[(.pages "t" "0" 0, .bytes old)], []⟩) := rfl
  rw [Attempt.run, packPageRuns, Prog.bind_ok hread]
  dsimp only
  rw [Prog.bind_ok hpack, Prog.bind_ok hflush]
  rfl

/-- The second attempt indexes block B at the place of block A. -/
theorem stale_run_mismatch :
    Fresh "t" "0" []
      ∧ ¬ Matches "t" "0" (Attempt.runs "t" "0" [] [firstAttempt, secondAttempt])
          [firstAttempt, secondAttempt] := by
  refine ⟨⟨rfl, fun _ => rfl⟩, fun h => ?_⟩
  have hruns : Attempt.runs "t" "0" [] [firstAttempt, secondAttempt]
      = [(.pageIndex "t" "0", .index ⟨runPages, [.p blockB]⟩),
        (.pages "t" "0" 0, .bytes (filledPage 1 ++ filledPage 2))] := by
    show Attempt.run "t" "0" (Attempt.run "t" "0" [] firstAttempt) secondAttempt = _
    rw [run_firstAttempt, run_secondAttempt]
  rw [hruns] at h
  obtain ⟨t, chk, ht, hparse, hall⟩ := h _ rfl
  cases ht
  cases hparse
  obtain ⟨run, off, bytes, hlookup, hobj, a, ha, hfetch⟩ := hall blockB (by decide)
  obtain ⟨rfl, rfl⟩ : run = 0 ∧ off = 0 := by
    have h0 : some (0, 0) = some (run, off) := hlookup
    cases h0
    exact ⟨rfl, rfl⟩
  cases hobj
  rw [List.drop_zero, List.take_left' (length_filledPage 1)] at hfetch
  have hB : a.fetch blockB = .ok (some (filledPage 2)) := by
    rcases List.mem_cons.mp ha with rfl | ha
    · rfl
    · cases List.mem_singleton.mp ha
      rfl
  rw [hB] at hfetch
  have hpage : filledPage 2 = filledPage 1 := by
    simpa using hfetch
  have hhead := congrArg List.head? hpage
  simp [filledPage, List.head?_replicate] at hhead
  exact absurd hhead (by decide)

end Packing

end Zou
