import Mathlib.Data.List.Permutation
import Zou.LocalFsSafety

/-!
# The local store is a compare-and-swap store

What the calls were decided to answer is a sequential history of the
object (`Told`), which a step of a thread extends by its own call at most,
as the object's specification says (`Wrote`). What such a history comes to
is `Serial`.
-/

namespace Zou

open Trace

namespace LocalFs

variable {C V : Type} {proc : Nat → Nat} {ver : C → V} [DecidableEq V]

/-! ## The history -/

/-- What the calls were decided to answer is a sequential history of the
object. -/
structure Told (ver : C → V) (file₀ : Option C) (s : LocalFs C V) : Prop where
  booked : ∀ t op st, s.pcs t = .run op st → ∃ c, s.book.current t = some (c, op, st.result)
  idle : ∀ t, s.pcs t = .idle → s.book.current t = none
  ok : s.book.Ok
  legal : Linear.Legal (FsOp.spec ver) file₀ s.book.history s.file

/-- What a step of `t` does to the book. -/
inductive Wrote (ver : C → V) (s s' : LocalFs C V) (t : Nat) (op : FsOp C V)
    (st : FsStage C V) : Prop where
  | quiet (st' : FsStage C V) (same : st'.result = st.result)
      (pcs : s'.pcs = Function.update s.pcs t (.run op st')) (file : s'.file = s.file)
      (book : s'.book = s.book)
  | decided (st' : FsStage C V) (r : FsResult C V) (open_ : st.result = none)
      (now : st'.result = some r) (pcs : s'.pcs = Function.update s.pcs t (.run op st'))
      (spec : op.spec ver s.file = (s'.file, r)) (book : s'.book = s.book.commit t r)
  | ended (pcs : s'.pcs = Function.update s.pcs t .idle) (file : s'.file = s.file)
      (book : s'.book = s.book.finish t st.result)

variable {file₀ : Option C} {s s' : LocalFs C V}

theorem Told.wrote {t : Nat} {op : FsOp C V} {st : FsStage C V} (h : Told ver file₀ s)
    (hpc : s.pcs t = .run op st) (hw : Wrote ver s s' t op st) : Told ver file₀ s' := by
  obtain ⟨c, hcur⟩ := h.booked t op st hpc
  -- The threads but `t` keep their calls and their stages.
  have hothers : ∀ {pc : FsPc C V} {b : Linear.Book (FsOp C V) (FsResult C V)},
      s'.pcs = Function.update s.pcs t pc → s'.book = b →
      (∀ u, u ≠ t → b.current u = s.book.current u) →
      (∀ op' st', pc = .run op' st' → ∃ c, b.current t = some (c, op', st'.result)) →
      (pc = .idle → b.current t = none) →
      (∀ u op' st', s'.pcs u = .run op' st' →
          ∃ c, s'.book.current u = some (c, op', st'.result))
        ∧ ∀ u, s'.pcs u = .idle → s'.book.current u = none := by
    intro pc b hpcs hb hsame hrun hidle
    have hat : ∀ u, s'.pcs u = if u = t then pc else s.pcs u := fun u => by
      rw [hpcs]
      exact Function.update_apply ..
    constructor
    · intro u op' st' hu
      rw [hat] at hu
      rw [hb]
      split at hu
      · rename_i heq
        rw [heq]
        exact hrun op' st' hu
      · rename_i hne
        rw [hsame u hne]
        exact h.booked u op' st' hu
    · intro u hu
      rw [hat] at hu
      rw [hb]
      split at hu
      · rename_i heq
        rw [heq]
        exact hidle hu
      · rename_i hne
        rw [hsame u hne]
        exact h.idle u hu
  cases hw with
  | quiet st' same pcs file book =>
    obtain ⟨hb, hi⟩ := hothers pcs book (fun _ _ => rfl)
      (fun op' st'' heq => by cases heq; exact ⟨c, by rw [same]; exact hcur⟩) nofun
    refine ⟨hb, hi, ?_, ?_⟩
    · rw [book]
      exact h.ok
    · rw [book, file]
      exact h.legal
  | decided st' r open_ now pcs spec book =>
    rw [open_] at hcur
    have hcommit := Linear.Book.commit_eq (r := r) hcur
    obtain ⟨hb, hi⟩ := hothers pcs book
      (fun u hne => by rw [hcommit]; exact Function.update_of_ne hne _ _)
      (fun op' st'' heq => by
        cases heq
        refine ⟨c, ?_⟩
        rw [hcommit, now]
        exact Function.update_self ..) nofun
    refine ⟨hb, hi, ?_, ?_⟩
    · rw [book]
      exact h.ok.commit hcur r
    · have hhist : s'.book.history = s.book.history ++ [(op, r)] := by
        rw [book, hcommit]
        simp [Linear.Book.history]
      rw [hhist]
      exact h.legal.snoc spec
  | ended pcs file book =>
    have hfinish := Linear.Book.finish_eq (r := st.result) hcur
    obtain ⟨hb, hi⟩ := hothers pcs book
      (fun u hne => by rw [hfinish]; exact Function.update_of_ne hne _ _) nofun
      (fun _ => by rw [hfinish]; exact Function.update_self ..)
    refine ⟨hb, hi, ?_, ?_⟩
    · rw [book]
      exact h.ok.finish hcur
    · have hhist : s'.book.history = s.book.history := by
        rw [book, hfinish]
        rfl
      rw [hhist, file]
      exact h.legal

/-! ## What each stage writes into the book -/

section Act

variable {s s' : LocalFs C V} {t : Nat} {yes : Bool} {op : FsOp C V} {x : FsStamp}

theorem goto_wrote {st st' : FsStage C V} (hsame : st'.result = st.result) :
    Wrote ver s (s.goto t op st') t op st :=
  .quiet st' hsame rfl rfl rfl

theorem read_wrote (hn : s.act proc ver t yes op .read = some s') : Wrote ver s s' t op .read := by
  simp only [act] at hn
  split at hn
  · cases hn
    let r : FsResult C V := .value (s.file.map fun c => (c, ver c))
    exact .decided (.leave r) r rfl rfl rfl rfl rfl
  · cases hn

theorem link_wrote (hn : s.act proc ver t yes op .link = some s') : Wrote ver s s' t op .link := by
  simp only [act] at hn
  split at hn
  · rename_i c hnone
    cases hn
    refine .decided (.unlinkTmp (.written (ver c))) (.written (ver c)) rfl rfl rfl ?_ rfl
    rw [FsOp.spec, hnone]
    rfl
  · rename_i c c' hfound
    cases hn
    refine .decided (.unlinkTmp .alreadyExists) .alreadyExists rfl rfl rfl ?_ rfl
    rw [FsOp.spec, hfound]
    exact congrArg (·, _) hfound.symm
  · cases hn

theorem mkdir_wrote (hn : s.act proc ver t yes op .mkdir = some s') :
    Wrote ver s s' t op .mkdir := by
  simp only [act] at hn
  split at hn
  · cases hn
    exact .quiet (.stamp ⟨proc t, s.stamps⟩) rfl rfl rfl rfl
  · cases hn
    exact goto_wrote rfl

theorem breaker_wrote (hn : s.act proc ver t yes op .breaker = some s') :
    Wrote ver s s' t op .breaker := by
  simp only [act] at hn
  split at hn
  · cases hn
    exact .quiet .restat rfl rfl rfl rfl
  · cases hn
    exact goto_wrote rfl

theorem unlinkAll_wrote {xs : List FsStamp}
    (hn : s.act proc ver t yes op (.unlinkAll xs) = some s') :
    Wrote ver s s' t op (.unlinkAll xs) := by
  cases xs with
  | nil =>
    cases hn
    exact goto_wrote rfl
  | cons x xs =>
    cases hn
    exact .quiet (.unlinkAll xs) rfl rfl rfl rfl

theorem readKey_wrote (hn : s.act proc ver t yes op (.readKey x) = some s') :
    Wrote ver s s' t op (.readKey x) := by
  simp only [act] at hn
  split at hn
  · rename_i c expected
    split at hn
    · cases hn
      exact goto_wrote rfl
    · rename_i hother
      cases hn
      refine .decided (.unstamp x .conflict) .conflict rfl rfl rfl ?_ rfl
      rw [FsOp.spec, if_neg hother]
      rfl
  · cases hn

theorem tmp_wrote (hn : s.act proc ver t yes op (.tmp x) = some s') :
    Wrote ver s s' t op (.tmp x) := by
  simp only [act] at hn
  split at hn
  · cases hn
    exact goto_wrote rfl
  · cases hn
    exact goto_wrote rfl

/-- The lock is the thread's own, so its stamp is still there. -/
theorem stillMine_wrote (hlock : s.lock = some ⟨t, [x]⟩)
    (hn : s.act proc ver t yes op (.stillMine x) = some s') :
    Wrote ver s s' t op (.stillMine x) := by
  have hmine : (s.lock.any fun d => x ∈ d.stamps) = true := by
    rw [hlock]
    simp
  simp only [act, hmine, if_true] at hn
  cases hn
  exact goto_wrote rfl

/-- Nothing was linked in since a creation read the key absent, and no one
else wrote since another compare. -/
theorem rename_wrote (hk : Knows proc ver s t op (.rename x)) (hpc : s.pcs t = .run op (.rename x))
    (hs : sound proc s (.step t yes) = true) (hn : s.act proc ver t yes op (.rename x) = some s') :
    Wrote ver s s' t op (.rename x) := by
  have hsame : ∀ c expected, op = .putIfMatch c expected → s.file.map ver = expected := by
    intro c expected hop
    cases expected with
    | none =>
      have hnone : s.file.isNone = true := by simpa [sound, hpc, hop] using hs
      rw [Option.isNone_iff_eq_none.mp hnone]
      rfl
    | some v => exact hk.compared c v hop rfl
  simp only [act] at hn
  split at hn
  · rename_i c expected
    cases hn
    refine .decided (.unstamp x (.written (ver c))) (.written (ver c)) rfl rfl rfl ?_ rfl
    rw [FsOp.spec, if_pos (hsame c expected rfl)]
    rfl
  · rename_i c
    cases hn
    exact .decided (.unstamp x (.written (ver c))) (.written (ver c)) rfl rfl rfl rfl rfl
  · cases hn

theorem unlinkKey_wrote (hn : s.act proc ver t yes op (.unlinkKey x) = some s') :
    Wrote ver s s' t op (.unlinkKey x) := by
  simp only [act] at hn
  split at hn
  · cases hn
    exact .decided (.unstamp x .deleted) .deleted rfl rfl rfl rfl rfl
  · cases hn

theorem rmdir_wrote {r : FsResult C V} (hlock : s.lock = some ⟨t, []⟩)
    (hn : s.act proc ver t yes op (.rmdir x r) = some s') : Wrote ver s s' t op (.rmdir x r) := by
  have hempty : s.rmdirOk = true := by
    rw [rmdirOk, hlock]
    rfl
  simp only [act, hempty, if_true] at hn
  cases hn
  exact .quiet (.leave r) rfl rfl rfl rfl

/-- Every step of a live thread writes into the book what the object's
specification says. -/
theorem act_wrote {st : FsStage C V} (h : Locks proc ver s) (hpc : s.pcs t = .run op st)
    (hlive : s.dead (proc t) = false) (hs : sound proc s (.step t yes) = true)
    (hn : s.act proc ver t yes op st = some s') : Wrote ver s s' t op st := by
  have hk := h.threads t op st hpc hlive
  cases st with
  | read => exact read_wrote hn
  | link => exact link_wrote hn
  | mkdir => exact mkdir_wrote hn
  | stamp x =>
    cases hn
    refine .quiet (enter x op) ?_ rfl rfl rfl
    cases op <;> rfl
  | breaker => exact breaker_wrote hn
  | unlinkAll xs => exact unlinkAll_wrote hn
  | rmdirLock =>
    cases hn
    split
    · exact .quiet .rmdirBreaker rfl rfl rfl rfl
    · exact goto_wrote rfl
  | rmdirBreaker =>
    cases hn
    exact .quiet .wait rfl rfl rfl rfl
  | clearBreaker =>
    cases hn
    exact .quiet .wait rfl rfl rfl rfl
  | wait =>
    cases hn
    split
    · exact .ended rfl rfl rfl
    · exact goto_wrote rfl
  | stat | list | restat | relist | statBreaker =>
    cases hn
    split <;> exact goto_wrote rfl
  | absentTmp | unlinkTmp r | clear =>
    cases hn
    exact goto_wrote rfl
  | readKey x => exact readKey_wrote hn
  | tmp x => exact tmp_wrote hn
  | stillMine x => exact stillMine_wrote (hk.holds [x] rfl) hn
  | rename x => exact rename_wrote hk hpc hs hn
  | unlinkKey x => exact unlinkKey_wrote hn
  | unstamp x r =>
    cases hn
    exact .quiet (.rmdir x r) rfl rfl rfl rfl
  | rmdir x r => exact rmdir_wrote (hk.holds [] rfl) hn
  | settle x r => cases hk.settled
  | leave r =>
    cases hn
    exact .ended rfl rfl rfl

end Act

/-- No lock of a live thread is taken for a stale one, no creation by
`put_if_match` renames over an object, and no live thread's breaker is
removed. -/
def careful (proc : Nat → Nat) (s : LocalFs C V) (l : FsLabel C V) : Prop :=
  punctual proc s l = true ∧ sound proc s l = true

instance (s : LocalFs C V) (l : FsLabel C V) : Decidable (careful proc s l) :=
  inferInstanceAs (Decidable (_ ∧ _))

/-- The book only grows. -/
structure Grows (b b' : Linear.Book (FsOp C V) (FsResult C V)) : Prop where
  log : b.log <+: b'.log
  returned : b.returned <+: b'.returned

omit [DecidableEq V] in
theorem Grows.refl (b : Linear.Book (FsOp C V) (FsResult C V)) : Grows b b :=
  ⟨List.prefix_refl _, List.prefix_refl _⟩

omit [DecidableEq V] in
theorem Grows.trans {b b' b'' : Linear.Book (FsOp C V) (FsResult C V)} (h : Grows b b')
    (h' : Grows b' b'') : Grows b b'' :=
  ⟨h.log.trans h'.log, h.returned.trans h'.returned⟩

theorem Wrote.grows {t : Nat} {op : FsOp C V} {st : FsStage C V} (h : Told ver file₀ s)
    (hpc : s.pcs t = .run op st) (hw : Wrote ver s s' t op st) : Grows s.book s'.book := by
  obtain ⟨c, hcur⟩ := h.booked t op st hpc
  cases hw with
  | quiet st' same pcs file book =>
    rw [book]
    exact .refl _
  | decided st' r open_ now pcs spec book =>
    rw [book, Linear.Book.commit_eq hcur]
    exact ⟨List.prefix_append .., List.prefix_refl _⟩
  | ended pcs file book =>
    rw [book, Linear.Book.finish_eq hcur]
    exact ⟨List.prefix_refl _, List.prefix_append ..⟩

theorem told_next {l : FsLabel C V}
    (hl : Locks proc ver s) (h : Told ver file₀ s) (hc : careful proc s l)
    (hn : next proc ver s l = some s') : Told ver file₀ s' ∧ Grows s.book s'.book := by
  cases l with
  | call t op =>
    simp only [next] at hn
    split at hn
    · split at hn
      · cases hn
      · cases hn
        have hat : ∀ u, Function.update s.pcs t (.run op (start op)) u
            = if u = t then .run op (start op) else s.pcs u := fun u => Function.update_apply ..
        have hcur : ∀ u, (s.book.begun t op).current u
            = if u = t then some (s.book.calls.length, op, none) else s.book.current u :=
          fun u => Function.update_apply ..
        refine ⟨⟨?_, ?_, h.ok.begun t op, h.legal⟩, List.prefix_refl _, List.prefix_refl _⟩
        · intro u op' st hu
          have hu : Function.update s.pcs t (.run op (start op)) u = .run op' st := hu
          show ∃ c, (s.book.begun t op).current u = _
          rw [hat] at hu
          rw [hcur]
          split at hu
          · rename_i heq
            cases hu
            refine ⟨s.book.calls.length, ?_⟩
            rw [if_pos heq]
            cases op <;> rfl
          · rename_i hne
            rw [if_neg hne]
            exact h.booked u op' st hu
        · intro u hu
          have hu : Function.update s.pcs t (.run op (start op)) u = .idle := hu
          show (s.book.begun t op).current u = none
          rw [hat] at hu
          rw [hcur]
          split at hu
          · cases hu
          · rename_i hne
            rw [if_neg hne]
            exact h.idle u hu
    · cases hn
  | step t yes =>
    simp only [next] at hn
    split at hn
    · rename_i op st hpc
      split at hn
      · cases hn
      · rename_i hlive
        have hw := act_wrote hl hpc (Bool.eq_false_of_not_eq_true hlive) hc.2 hn
        exact ⟨h.wrote hpc hw, hw.grows h hpc⟩
    · cases hn
  | crash pid =>
    cases hn
    exact ⟨⟨h.booked, h.idle, h.ok, h.legal⟩, .refl _⟩

end LocalFs

/-! ## Sequential histories of an object -/

namespace FsOp

variable {C V : Type}

/-- The operation creates an object where there is none, or fails. -/
def creates : FsOp C V → Bool
  | .putIfAbsent _ | .putIfMatch _ none => true
  | _ => false

/-- What it writes if it succeeds. -/
def data : FsOp C V → Option C
  | .putIfAbsent c | .putIfMatch c _ | .put c => some c
  | _ => none

end FsOp

def FsResult.wrote {C V : Type} : FsResult C V → Bool
  | .written _ => true
  | _ => false

section Serial

variable {C V : Type} [DecidableEq V] {ver : C → V}

open Linear (Legal)

/-- A creation succeeds exactly on an absent object. -/
theorem creates_spec {f : Option C} {op : FsOp C V} (h : op.creates = true) :
    (op.spec ver f).2.wrote = true ↔ f = none := by
  cases op with
  | putIfAbsent c => cases f <;> simp [FsOp.spec, FsResult.wrote]
  | putIfMatch c expected =>
    cases expected with
    | none => cases f <;> simp [FsOp.spec, FsResult.wrote]
    | some v => cases h
  | _ => cases h

variable {xs : List (FsOp C V × FsResult C V)}

theorem deleted_of_legal {c : C}
    (h : Legal (FsOp.spec ver) (some c) xs none) : ∃ r, (FsOp.delete, r) ∈ xs := by
  induction xs generalizing c with
  | nil => cases h
  | cons x xs ih =>
    obtain ⟨op, r⟩ := x
    have hrest : ∀ c', (op.spec ver (some c)).1 = some c' →
        ∃ r', (FsOp.delete, r') ∈ (op, r) :: xs := by
      intro c' hc'
      have hlegal := h.2
      rw [hc'] at hlegal
      obtain ⟨r', hr'⟩ := ih hlegal
      exact ⟨r', .tail _ hr'⟩
    cases op with
    | get => exact hrest c rfl
    | putIfAbsent d => exact hrest c rfl
    | putIfMatch d expected =>
      by_cases heq : (some c).map ver = expected
      · exact hrest d (by rw [FsOp.spec, if_pos heq])
      · exact hrest c (by rw [FsOp.spec, if_neg heq])
    | put d => exact hrest d rfl
    | delete => exact ⟨r, List.mem_cons_self⟩

/-- What an object holds was there before or is what one operation wrote. -/
theorem written_of_legal {f : Option C} {c : C} (h : Legal (FsOp.spec ver) f xs (some c)) :
    f = some c ∨ ∃ op r, (op, r) ∈ xs ∧ op.data = some c ∧ r.wrote = true := by
  induction xs generalizing f with
  | nil => exact .inl h.symm
  | cons x xs ih =>
    obtain ⟨op, r⟩ := x
    obtain ⟨hres, hrest⟩ := h
    rcases ih hrest with hnow | ⟨op', r', hin, hop⟩
    · have hwrote : ∀ {d : C}, op.data = some d → (op.spec ver f).1 = some d →
          (op.spec ver f).2.wrote = true →
          ∃ op' r', (op', r') ∈ (op, r) :: xs ∧ op'.data = some c ∧ r'.wrote = true := by
        intro d hdata hd hw
        rw [hd] at hnow
        have hres : (op.spec ver f).2 = r := hres
        exact ⟨op, r, List.mem_cons_self, hnow ▸ hdata, hres ▸ hw⟩
      cases op with
      | get => exact .inl hnow
      | putIfAbsent d =>
        cases f with
        | none => exact .inr (hwrote rfl rfl rfl)
        | some c₀ => exact .inl hnow
      | putIfMatch d expected =>
        by_cases heq : f.map ver = expected
        · refine .inr (hwrote rfl ?_ ?_)
          · rw [FsOp.spec, if_pos heq]
          · rw [FsOp.spec, if_pos heq]
            rfl
        · have hkept : (FsOp.spec ver f (.putIfMatch d expected)).1 = f := by
            rw [FsOp.spec, if_neg heq]
          exact .inl (hkept.symm.trans hnow)
      | put d => exact .inr (hwrote rfl rfl rfl)
      | delete => cases hnow
    · exact .inr ⟨op', r', .tail _ hin, hop⟩

/-- What the results of a compare-and-swap store come to: a creation
succeeds exactly on an absent object and two of them have a delete between
them, a compare names what it replaced, and a `get` finds the contents of
one write. -/
structure Serial (ver : C → V) (file₀ file : Option C) (xs : List (FsOp C V × FsResult C V)) :
    Prop where
  legal : Legal (FsOp.spec ver) file₀ xs file
  creates : ∀ as op r bs, xs = as ++ (op, r) :: bs → op.creates = true →
    ∃ f, Legal (FsOp.spec ver) file₀ as f ∧ (r.wrote = true ↔ f = none)
  apart : ∀ as op r bs op' r' cs, xs = as ++ (op, r) :: bs ++ (op', r') :: cs →
    op.creates = true → op'.creates = true → r.wrote = true → r'.wrote = true →
    ∃ r'', (FsOp.delete, r'') ∈ bs
  replaces : ∀ as c v r bs, xs = as ++ (.putIfMatch c (some v), r) :: bs → r.wrote = true →
    ∃ c₀, Legal (FsOp.spec ver) file₀ as (some c₀) ∧ ver c₀ = v
  whole : ∀ as c v bs, xs = as ++ (.get, .value (some (c, v))) :: bs →
    v = ver c ∧ (file₀ = some c ∨ ∃ op r, (op, r) ∈ as ∧ op.data = some c ∧ r.wrote = true)

theorem serial_of_legal {file₀ file : Option C}
    (h : Legal (FsOp.spec ver) file₀ xs file) : Serial ver file₀ file xs where
  legal := h
  creates := by
    rintro as op r bs rfl hop
    obtain ⟨f, hf, hres, -⟩ := h.split
    have hres : (op.spec ver f).2 = r := hres
    exact ⟨f, hf, hres ▸ creates_spec hop⟩
  apart := by
    rintro as op r bs op' r' cs rfl hop hop' hr hr'
    rw [List.append_assoc] at h
    obtain ⟨f, -, hres, hrest⟩ := h.split
    obtain ⟨f', hbs, hres', -⟩ := Legal.split hrest
    have hres : (op.spec ver f).2 = r := hres
    have hres' : (op'.spec ver f').2 = r' := hres'
    obtain rfl := (creates_spec hop).mp (hres ▸ hr)
    obtain rfl := (creates_spec hop').mp (hres' ▸ hr')
    have hmade : ∃ c, (op.spec ver none).1 = some c := by
      cases op with
      | putIfAbsent c => exact ⟨c, rfl⟩
      | putIfMatch c expected =>
        cases expected with
        | none => exact ⟨c, rfl⟩
        | some v => cases hop
      | _ => cases hop
    obtain ⟨c, hc⟩ := hmade
    have hbs : Legal (FsOp.spec ver) (op.spec ver none).1 bs none := hbs
    rw [hc] at hbs
    exact deleted_of_legal hbs
  replaces := by
    rintro as c v r bs rfl hr
    obtain ⟨f, hf, hres, -⟩ := h.split
    have hres : (FsOp.spec ver f (.putIfMatch c (some v))).2 = r := hres
    rw [FsOp.spec] at hres
    split at hres
    · rename_i hv
      obtain ⟨c₀, rfl, hc₀⟩ := Option.map_eq_some_iff.mp hv
      exact ⟨c₀, hf, hc₀⟩
    · rw [← hres] at hr
      cases hr
  whole := by
    rintro as c v bs rfl
    obtain ⟨f, hf, hres, -⟩ := h.split
    have hres : FsResult.value (f.map fun c => (c, ver c)) = .value (some (c, v)) := hres
    obtain ⟨c', rfl, heq⟩ := Option.map_eq_some_iff.mp (FsResult.value.inj hres)
    cases heq
    exact ⟨rfl, written_of_legal hf⟩

end Serial

/-! ## Runs -/

namespace LocalFs

variable {C V : Type} [DecidableEq V] {proc : Nat → Nat} {ver : C → V}

/-- No call is being made. A lock directory may be there, of anyone. -/
structure Init (proc : Nat → Nat) (s : LocalFs C V) : Prop where
  pcs : ∀ t, s.pcs t = .idle
  stamped : ∀ d, s.lock = some d → ∀ x ∈ d.stamps, x.pid = proc d.maker
  book : s.book = .empty

variable {s : LocalFs C V}

theorem Init.holds (h : Init proc s) : Locks proc ver s ∧ Told ver s.file s := by
  refine ⟨⟨fun t op st ht => ?_, h.stamped⟩, fun t op st ht => ?_, fun t _ => ?_, ?_, ?_⟩
  · rw [h.pcs t] at ht
    cases ht
  · rw [h.pcs t] at ht
    cases ht
  · rw [h.book]
    rfl
  · rw [h.book]
    exact Linear.Book.ok_empty
  · rw [h.book]
    rfl

/-- The calls that returned answered as a compare-and-swap store does in the
order of the log, in which each call stands once. -/
structure Atomic (ver : C → V) (file₀ : Option C) (s : LocalFs C V) : Prop where
  serial : Serial ver file₀ s.file s.book.history
  once : (s.book.log.map Prod.fst).Nodup
  called : ∀ x ∈ s.book.log, s.book.calls[x.1]? = some x.2.1
  answered : ∀ c r, (c, some r) ∈ s.book.returned → ∃ op, (c, op, r) ∈ s.book.log
  gaveUp : ∀ c, (c, none) ∈ s.book.returned → c ∉ s.book.log.map Prod.fst

/-- Two live threads are not both inside the lock. -/
def Exclusive (proc : Nat → Nat) (s : LocalFs C V) : Prop :=
  ∀ t u op op' st st', s.pcs t = .run op st → s.pcs u = .run op' st' →
    s.dead (proc t) = false → s.dead (proc u) = false →
    st.inside ≠ none → st'.inside ≠ none → t = u

omit [DecidableEq V] in
theorem Locks.exclusive (h : Locks proc ver s) : Exclusive proc s := by
  intro t u op op' st st' ht hu hlt hlu hit hiu
  obtain ⟨sts, hsts⟩ := Option.ne_none_iff_exists'.mp hit
  by_contra hne
  have hlock := (h.threads t op st ht hlt).holds sts hsts
  exact hiu (h.sole_of_inside hlock hlt u op' st' (Ne.symm hne) hu hlu).1

theorem Told.atomic {file₀ : Option C} (h : Told ver file₀ s) : Atomic ver file₀ s :=
  ⟨serial_of_legal h.legal, h.ok.once, h.ok.logged, h.ok.answered, h.ok.gaveUp⟩

/-- A call that came to be decided later than another one returned. -/
theorem Told.later {file₀ : Option C} {m : LocalFs C V} (hm : Told ver file₀ m)
    (h : Told ver file₀ s) (hg : Grows m.book s.book) : ∃ later, s.book.log = m.book.log ++ later
      ∧ ∀ x ∈ later, ∀ r, (x.1, r) ∉ m.book.returned := by
  obtain ⟨later, hlater⟩ := hg.log
  refine ⟨later, hlater.symm, fun x hx r hr => ?_⟩
  have hin : x ∈ s.book.log := hlater ▸ List.mem_append_right _ hx
  cases r with
  | none => exact h.ok.gaveUp x.1 (hg.returned.subset hr) (List.mem_map_of_mem hin)
  | some r =>
    obtain ⟨op, hop⟩ := hm.ok.answered x.1 r hr
    have honce := h.ok.once
    rw [← hlater, List.map_append] at honce
    exact (List.nodup_append.mp honce).2.2 x.1 (List.mem_map.mpr ⟨_, hop, rfl⟩) x.1
      (List.mem_map_of_mem hx) rfl

/-- In every run in which a directory is past the stale age only when its
maker is dead, a creation by `put_if_match` renames onto nothing and no live
thread's breaker is removed, the calls answer as a compare-and-swap store
does, those that returned before others were decided first, and two live
threads are not both inside the lock. -/
theorem local_store_atomic {s₀ s : LocalFs C V} {ls : List (FsLabel C V)} (h0 : Init proc s₀)
    (hr : run (next proc ver) s₀ ls = some s) (hm : Meets (next proc ver) (careful proc) s₀ ls) :
    Atomic ver s₀.file s ∧ Exclusive proc s
      ∧ ∀ ls₁ ls₂ m, ls = ls₁ ++ ls₂ → run (next proc ver) s₀ ls₁ = some m →
          ∃ later, s.book.log = m.book.log ++ later
            ∧ ∀ x ∈ later, ∀ r, (x.1, r) ∉ m.book.returned := by
  have hstep : ∀ (b : Linear.Book (FsOp C V) (FsResult C V)) (s : LocalFs C V) l s',
      Locks proc ver s ∧ Told ver s₀.file s ∧ Grows b s.book → careful proc s l →
      next proc ver s l = some s' →
      Locks proc ver s' ∧ Told ver s₀.file s' ∧ Grows b s'.book := by
    rintro b s l s' ⟨hl, ht, hg⟩ hc hn
    obtain ⟨ht', hg'⟩ := told_next hl ht hc hn
    exact ⟨locks_next hl hc.1 hc.2 hn, ht', hg.trans hg'⟩
  have hinit : Locks proc ver s₀ ∧ Told ver s₀.file s₀ := h0.holds
  obtain ⟨hl, ht, -⟩ := guarded_invariant (hstep s₀.book) ⟨hinit.1, hinit.2, .refl _⟩ hm hr
  refine ⟨ht.atomic, hl.exclusive, ?_⟩
  rintro ls₁ ls₂ m rfl hrm
  obtain ⟨hm₁, hm₂⟩ := meets_append.mp hm
  obtain ⟨hlm, htm, -⟩ := guarded_invariant (hstep s₀.book) ⟨hinit.1, hinit.2, .refl _⟩ hm₁ hrm
  rw [run_append, hrm] at hr
  obtain ⟨-, -, hg⟩ := guarded_invariant (hstep m.book) ⟨hlm, htm, .refl _⟩ (hm₂ m hrm) hr
  exact htm.later ht hg

/-- A key whose lock and breaker threads of dead processes left behind. -/
def leftBehind : LocalFs Nat Nat where
  file := none
  lock := some ⟨8, [⟨8, 0⟩]⟩
  breaker := some 9
  stamps := 1
  dead pid := pid = 8 || pid = 9
  pcs _ := .idle
  book := .empty

theorem init_leftBehind : Init id leftBehind where
  pcs _ := rfl
  stamped d hd x hx := by
    cases hd
    cases List.mem_singleton.mp hx
    rfl
  book := rfl

/-- The steps of one thread. -/
def steps (t : Nat) (answers : List Bool) : List (FsLabel Nat Nat) := answers.map (.step t)

/-- It finds the lock expired and the breaker stale. -/
def toBreaker (t : Nat) : List (FsLabel Nat Nat) := steps t [false, false, true, false, true]

/-- It removes the stale breaker, makes its own and finds the lock expired
once more. -/
def toClear (t : Nat) : List (FsLabel Nat Nat) :=
  steps t [false, false, false, false, true, false, false, true]

/-- It removes the lock, with one stamp in it, and the breaker, and takes the
lock. -/
def toLock (t : Nat) : List (FsLabel Nat Nat) := steps t (List.replicate 7 false)

/-- A creation over a dead holder's lock, a read, and a swap of what was
read. -/
def overDead : List (FsLabel Nat Nat) :=
  [.call 0 (.putIfMatch 5 none)] ++ toBreaker 0 ++ toClear 0 ++ toLock 0
    ++ steps 0 (List.replicate 8 false)
    ++ [.call 1 .get, .step 1 false, .step 1 false, .call 1 (.putIfMatch 6 (some 5))]
    ++ steps 1 (List.replicate 9 false)

theorem local_store_atomic_overDead :
    ∃ s, run (next id id) leftBehind overDead = some s
      ∧ s.book.returned = [(0, some (.written 5)), (1, some (.value (some (5, 5)))),
          (2, some (.written 6))]
      ∧ s.file = some 6 ∧ Atomic id leftBehind.file s := by
  have hr : run (next id id) leftBehind overDead = some _ := rfl
  exact ⟨_, hr, rfl, rfl, (local_store_atomic init_leftBehind hr (by decide)).1⟩

/-- A creation by link lands between the read and the rename of a creation
by `put_if_match`. -/
def twoCreators : List (FsLabel Nat Nat) :=
  [.call 0 (.putIfMatch 5 none)] ++ steps 0 (List.replicate 5 false)
    ++ [.call 1 (.putIfAbsent 6)] ++ steps 1 (List.replicate 4 false)
    ++ steps 0 (List.replicate 4 false)

/-- Two threads find the breaker stale; the second removes the breaker that
the first made in its place, so that the first removes the lock of the
second. -/
def twoBreakers : List (FsLabel Nat Nat) :=
  [.call 0 (.put 5), .call 1 (.put 6)] ++ toBreaker 0 ++ toBreaker 1 ++ toClear 1 ++ toClear 0
    ++ toLock 0 ++ steps 0 [false] ++ toLock 1 ++ steps 1 [false]

/-- A key that is not there. -/
def noKey : LocalFs Nat Nat := { leftBehind with lock := none, breaker := none }

/-- Both creations of the first run succeed, which no order of them
explains. In the second two live threads are inside the lock. -/
theorem local_store_races :
    (∃ s, run (next id id) noKey twoCreators = some s
        ∧ Meets (next id id) (fun s l => punctual id s l = true) noKey twoCreators
        ∧ s.book.returned = [(1, some (.written 6)), (0, some (.written 5))]
        ∧ ∀ xs, xs.Perm [(.putIfMatch 5 none, .written 5), (.putIfAbsent 6, .written 6)] →
            ∀ file, ¬ Linear.Legal (FsOp.spec id) noKey.file xs file)
      ∧ ∃ s, run (next id id) leftBehind twoBreakers = some s
        ∧ Meets (next id id) (fun s l => punctual id s l = true) leftBehind twoBreakers
        ∧ ¬ Exclusive id s := by
  have hr : run (next id id) noKey twoCreators = some _ := rfl
  have hr' : run (next id id) leftBehind twoBreakers = some _ := rfl
  refine ⟨⟨_, hr, by decide, rfl, ?_⟩, _, hr', by decide, ?_⟩
  · intro xs hxs file hlegal
    -- Two creations succeed with no delete between them.
    have hserial := serial_of_legal hlegal
    rcases List.perm_pair.mp hxs with rfl | rfl
    · obtain ⟨r, hr⟩ := hserial.apart [] _ _ [] _ _ [] rfl rfl rfl rfl rfl
      cases hr
    · obtain ⟨r, hr⟩ := hserial.apart [] _ _ [] _ _ [] rfl rfl rfl rfl rfl
      cases hr
  · intro hex
    exact absurd (hex 0 1 (.put 5) (.put 6) (.tmp ⟨0, 1⟩) (.tmp ⟨1, 2⟩) rfl rfl rfl rfl nofun nofun)
      (by decide)

end LocalFs

end Zou
