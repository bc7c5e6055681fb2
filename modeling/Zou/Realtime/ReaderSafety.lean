import Zou.Realtime.ReaderSpec

/-!
# A subscriber hears every change or a gap

A binding whose join found a tap keeps the loop from letting it go, and a
tap that is lost is told to everyone before it goes. What is left is the
time between the loop's decision and the word of it, in which a join reads
that there is a tap that nobody will read, and a check that fails, which
takes a change from a subscriber without a word.
-/

namespace Zou.Reader

open Trace

variable {A B C : Type} {s s' : State A B C}

/-! ## The invariant -/

variable (asked : B → C → Bool) (visible : A → C → Bool)

structure Inv (s : State A B C) : Prop where
  book : Book s
  tapped : s.tapped = .open → s.tap.isSome ∨ s.phase.Leaving
  opening : s.phase = .opening → s.tap = none
  opened : s.phase = .opened → s.tap.isSome
  /-- A binding whose join found a tap keeps it, or was told, or is gone. -/
  seen : ∀ id j, s.joins id = some j → j.seen = true →
    Excused s id j ∨ j.unbound.isSome ∨ (s.tap.isSome ∧ ¬ s.phase.Leaving)
  answered : ∀ id j, s.joins id = some j → j.answered.isSome → j.seen = true
  unbound_le : ∀ id j u, s.joins id = some j → j.unbound = some u → u ≤ s.log.length
  cursor_le : ∀ tap, s.tap = some tap → tap.cursor ≤ s.log.length
  heard : ∀ id j n, s.joins id = some j → Owes asked visible s j n →
    Handed s id j n ∨ Excused s id j ∨ (j.unbound = none ∧ Ahead s n)
  order : (s.handed.map Handing.n).Pairwise (· ≤ ·)
  handed_lt : ∀ h ∈ s.handed, h.n < s.log.length ∧ ∀ tap, s.tap = some tap → h.n < tap.cursor
  batch : ∀ batch, s.phase = .delivering batch → batch.Pairwise (· < ·) ∧ ∀ n ∈ batch,
    n < s.log.length ∧ (∀ tap, s.tap = some tap → n < tap.cursor) ∧ ∀ h ∈ s.handed, h.n ≤ n

theorem inv_start : Inv asked visible (start : State A B C) := by
  refine ⟨⟨fun id b hb => ?_, fun id j hj => ?_, fun l who hwho => ?_, fun l who hwho => ?_,
    fun id j hj => ?_⟩, fun h => ?_, fun _ => rfl, fun h => ?_, fun id j hj => ?_,
    fun id j hj => ?_, fun id j u hj => ?_, fun tap ht => ?_, fun id j n hj => ?_,
    List.Pairwise.nil, fun h hh => ?_, fun b hb => ?_⟩ <;> contradiction

variable {asked visible} {j : Join A B} {n : Nat}

theorem Owes.seen (h : Owes asked visible s j n) : j.answered.isSome := by
  obtain ⟨⟨a, ha, -⟩, -⟩ := h
  rw [ha]
  rfl

variable {id : Nat}

/-- An owed change that is not ahead any more, for a binding that is excused
or gone. -/
theorem Inv.heard_of (h : Inv asked visible s)
    (hj : s.joins id = some j) (howes : Owes asked visible s j n)
    (hseen : Excused s id j ∨ j.unbound.isSome) : Handed s id j n ∨ Excused s id j := by
  rcases h.heard id j n hj howes with hh | he | ⟨hu, -⟩
  · exact .inl hh
  · exact .inr he
  · rcases hseen with he | hu'
    · exact .inr he
    · rw [hu] at hu'
      cases hu'

theorem Handed.sends (h : Sends s s') (hj : Handed s id j n) : Handed s' id j n := by
  obtain ⟨x, hx, heq⟩ := hj
  exact ⟨x, h.handed x hx, heq⟩

theorem Sends.ahead (h : Sends s s') : Ahead s' n ↔ Ahead s n := by
  unfold Ahead
  rw [h.tap, h.phase]

theorem Sends.owes (h : Sends s s') : Owes asked visible s' j n ↔ Owes asked visible s j n := by
  unfold Owes
  rw [h.log]

theorem Inv.sends (h : Inv asked visible s) (hs : Sends s s') (hhanded : s'.handed = s.handed) :
    Inv asked visible s' where
  book := hs.book h.book
  tapped := by
    rw [hs.tapped, hs.tap, hs.phase]
    exact h.tapped
  opening := by
    rw [hs.tap, hs.phase]
    exact h.opening
  opened := by
    rw [hs.tap, hs.phase]
    exact h.opened
  seen id j hj hseen := by
    rw [hs.tap, hs.phase]
    rw [hs.joins] at hj
    exact (h.seen id j hj hseen).imp_left hs.excused
  answered id j hj := h.answered id j (hs.joins ▸ hj)
  unbound_le id j u hj := by
    rw [hs.log]
    exact h.unbound_le id j u (hs.joins ▸ hj)
  cursor_le tap ht := by
    rw [hs.log]
    exact h.cursor_le tap (hs.tap ▸ ht)
  heard id j n hj howes := by
    rw [hs.ahead]
    exact (h.heard id j n (hs.joins ▸ hj) (hs.owes.mp howes)).imp (Handed.sends hs)
      (Or.imp_left hs.excused)
  order := by
    rw [hhanded]
    exact h.order
  handed_lt := by
    rw [hhanded, hs.log, hs.tap]
    exact h.handed_lt
  batch := by
    rw [hhanded, hs.log, hs.tap, hs.phase]
    exact h.batch

theorem Inv.moves (h : Inv asked visible s) {phase : Phase} {tapped : Tapped} {told : Bool}
    (hbatch : ∀ batch, s.phase = .delivering batch → batch = [])
    (hphase : phase = .opening → s.tap = none) (hopened : phase ≠ .opened)
    (hdelivering : ∀ batch, phase ≠ .delivering batch)
    (htapped : tapped = .open → s.tap.isSome ∨ phase.Leaving)
    (hseen : phase.Leaving → ∀ id j, s.joins id = some j → j.seen = true →
      Excused s id j ∨ j.unbound.isSome) :
    Inv asked visible { s with phase, tapped, told } :=
  { h with
    book := h.book.alike (fun _ => rfl) rfl rfl rfl rfl
    tapped := htapped
    opening := hphase
    opened := fun heq => absurd heq hopened
    seen := fun id j hj hs => by
      by_cases hl : phase.Leaving
      · rcases hseen hl id j hj hs with he | hu
        · exact .inl he
        · exact .inr (.inl hu)
      · rcases h.seen id j hj hs with he | hu | ⟨ht, -⟩
        · exact .inl he
        · exact .inr (.inl hu)
        · exact .inr (.inr ⟨ht, hl⟩)
    heard := fun id j n hj howes => by
      refine (h.heard id j n hj howes).imp_right (Or.imp_right (And.imp_right ?_))
      rintro (htap | ⟨batch, hb, hn⟩)
      · exact .inl htap
      · rw [hbatch batch hb] at hn
        cases hn
    batch := fun batch hb => absurd hb (hdelivering batch) }

/-- The tap goes, and nobody whose join found one is left to hear. -/
theorem Inv.lets (h : Inv asked visible s) (hleaving : s.phase.Leaving) {phase : Phase}
    {told : Bool} (hphase : phase.Leaving) :
    Inv asked visible { s with tap := none, told, phase } := by
  have hseen : ∀ id j, s.joins id = some j → j.seen = true →
      Excused s id j ∨ j.unbound.isSome := by
    intro id j hj hs
    rcases h.seen id j hj hs with he | hu | ⟨-, hno⟩
    · exact .inl he
    · exact .inr hu
    · exact absurd hleaving hno
  refine { h with book := h.book.alike (fun _ => rfl) rfl rfl rfl rfl
                  tapped := fun _ => .inr hphase, opening := fun _ => rfl
                  opened := fun heq => ?_
                  seen := fun id j hj hs => (hseen id j hj hs).imp_right .inl
                  cursor_le := nofun
                  heard := fun id j n hj howes => ?_
                  handed_lt := fun x hx => ⟨(h.handed_lt x hx).1, nofun⟩
                  batch := fun batch hb => ?_ }
  · have heq : phase = .opened := heq
    rw [heq] at hphase
    exact hphase.elim
  · exact (h.heard_of hj howes (hseen id j hj (h.answered id j hj howes.seen))).imp_right .inl
  · have heq : phase = .delivering batch := hb
    rw [heq] at hphase
    exact hphase.elim

theorem Inv.opens (h : Inv asked visible s) (hphase : s.phase = .opening) {told : Bool} :
    Inv asked visible
      { s with tap := some ⟨s.log.length, false⟩, told, phase := .opened } := by
  have hnone := h.opening hphase
  refine { h with book := h.book.alike (fun _ => rfl) rfl rfl rfl rfl
                  tapped := fun _ => .inl rfl, opening := nofun, opened := fun _ => rfl
                  seen := fun id j hj hs => ?_, cursor_le := fun tap ht => ?_
                  heard := fun id j n hj howes => ?_, handed_lt := fun x hx => ?_
                  batch := nofun }
  · refine (h.seen id j hj hs).imp_right (Or.imp_right fun hno => ?_)
    rw [hnone] at hno
    exact ⟨rfl, fun hl => hl.elim⟩
  · cases ht
    exact le_rfl
  · refine (h.heard id j n hj howes).imp_right (Or.imp_right (And.imp_right ?_))
    rintro (⟨tap, ht, -⟩ | ⟨batch, hb, -⟩)
    · rw [hnone] at ht
      cases ht
    · rw [hphase] at hb
      cases hb
  · refine ⟨(h.handed_lt x hx).1, fun tap ht => ?_⟩
    cases ht
    exact (h.handed_lt x hx).1

theorem Inv.polls (h : Inv asked visible s) (hphase : s.phase = .polling) {tap : Tap}
    (htap : s.tap = some tap) {read : Nat} (hread : tap.cursor + read ≤ s.log.length) :
    Inv asked visible
      { s with tap := some { tap with cursor := tap.cursor + read }
               phase := .delivering (List.range' tap.cursor read) } := by
  have hmem : ∀ n, n ∈ List.range' tap.cursor read ↔
      tap.cursor ≤ n ∧ n < tap.cursor + read := fun n => List.mem_range'_1
  refine { h with book := h.book.alike (fun _ => rfl) rfl rfl rfl rfl
                  tapped := fun _ => .inl rfl, opening := nofun, opened := nofun
                  seen := fun id j hj hs => ?_, cursor_le := fun tap' ht => ?_
                  heard := fun id j n hj howes => ?_, handed_lt := fun x hx => ?_
                  batch := fun batch hb => ?_ }
  · exact (h.seen id j hj hs).imp_right (Or.imp_right fun _ => ⟨rfl, fun hl => hl.elim⟩)
  · cases ht
    exact hread
  · refine (h.heard id j n hj howes).imp_right (Or.imp_right (And.imp_right ?_))
    rintro (⟨tap', ht, hle⟩ | ⟨batch, hb, -⟩)
    · obtain rfl := Option.some.inj (ht.symm.trans htap)
      by_cases hlt : n < tap'.cursor + read
      · exact .inr ⟨_, rfl, (hmem n).mpr ⟨hle, hlt⟩⟩
      · exact .inl ⟨_, rfl, not_lt.mp hlt⟩
    · rw [hphase] at hb
      cases hb
  · obtain ⟨hlog, hcursor⟩ := h.handed_lt x hx
    refine ⟨hlog, fun tap' ht => ?_⟩
    cases ht
    exact (hcursor tap htap).trans_le (Nat.le_add_right ..)
  · cases hb
    refine ⟨List.pairwise_lt_range', fun n hn => ?_⟩
    obtain ⟨hle, hlt⟩ := (hmem n).mp hn
    refine ⟨hlt.trans_le hread, fun tap' ht => ?_, fun x hx => ?_⟩
    · cases ht
      exact hlt
    · exact ((h.handed_lt x hx).2 tap htap).le.trans hle

theorem listening_zero (hzero : listening s = 0) {l : Nat} {who : Listener A}
    (hl : s.listeners.get? l = some who) : who.bindings = [] := by
  have hnil := List.filter_eq_nil_iff.mp (List.length_eq_zero_iff.mp hzero) (l, who)
    (OrdMap.get?_eq_some.mp hl)
  simpa using hnil

/-- When nobody is listening, every binding is gone or has nobody to hear. -/
theorem Book.idle (h : Book s) (hzero : listening s = 0)
    (hj : s.joins id = some j) : Excused s id j ∨ j.unbound.isSome := by
  cases hu : j.unbound with
  | some u => exact .inr rfl
  | none =>
    refine .inl (.inr ?_)
    by_contra hl
    obtain ⟨who, j', hwho, hid, -⟩ := h.sub id _ (h.join id j hj hu hl)
    rw [listening_zero hzero hwho] at hid
    cases hid

theorem handed_foldl (n : Nat) : ∀ (xs : List (Nat × List Nat)) (s : State A B C),
    (s.handed.map Handing.n).Pairwise (· ≤ ·) → (∀ h ∈ s.handed, h.n ≤ n) →
    ((xs.foldl (hand n) s).handed.map Handing.n).Pairwise (· ≤ ·) ∧
      ∀ h ∈ (xs.foldl (hand n) s).handed, h ∈ s.handed ∨ h.n = n := by
  intro xs
  induction xs with
  | nil => exact fun s horder _ => ⟨horder, fun h hh => .inl hh⟩
  | cons x xs ih =>
    intro s horder hle
    rcases (sends_hand n s x).2.1 with heq | heq
    · obtain ⟨hpair, hmem⟩ := ih (hand n s x) (heq ▸ horder) (heq ▸ hle)
      rw [heq] at hmem
      exact ⟨hpair, hmem⟩
    · have hput : ((hand n s x).handed.map Handing.n).Pairwise (· ≤ ·) := by
        rw [heq, List.map_append, List.pairwise_append]
        refine ⟨horder, List.pairwise_singleton _ _, fun a ha b hb => ?_⟩
        obtain ⟨h, hh, rfl⟩ := List.mem_map.mp ha
        rw [List.mem_singleton.mp hb]
        exact hle h hh
      have hbound : ∀ h ∈ (hand n s x).handed, h ∈ s.handed ∨ h.n = n := by
        rw [heq]
        intro h hh
        refine (List.mem_append.mp hh).imp_right fun hh => ?_
        rw [List.mem_singleton.mp hh]
      obtain ⟨hpair, hmem⟩ := ih (hand n s x) hput fun h hh =>
        (hbound h hh).elim (hle h) fun heq => heq.le
      refine ⟨hpair, fun h hh => ?_⟩
      rcases hmem h hh with hh | hn
      · exact hbound h hh
      · exact .inr hn

/-- A binding that is held, of a listener that is there, is owed what it asked
for and may see. -/
theorem Book.owed (h : Book s) (hj : s.joins id = some j) (hu : j.unbound = none)
    (hl : s.listeners.get? j.listener ≠ none) {failed : List Nat} (hchecked : j.listener ∉ failed)
    {c : C} (hasked : asked j.binding c = true) (hvisible : visible j.asker c = true) :
    ∃ x ∈ owed asked visible failed s c, x.1 = j.listener ∧ id ∈ x.2 := by
  have hsub := h.join id j hj hu hl
  obtain ⟨who, j', hwho, -, hj', -, -, hasker, -⟩ := h.sub id _ hsub
  obtain rfl := Option.some.inj (hj'.symm.trans hj)
  have hid : id ∈ ids asked s j'.listener c := by
    refine List.mem_map.mpr ⟨(id, ⟨j'.listener, j'.binding⟩), List.mem_filter.mpr
      ⟨OrdMap.get?_eq_some.mp hsub, ?_⟩, rfl⟩
    simp [hasked]
  refine ⟨(j'.listener, ids asked s j'.listener c), List.mem_filterMap.mpr
    ⟨(j'.listener, who), OrdMap.get?_eq_some.mp hwho, ?_⟩, rfl, hid⟩
  rw [if_neg]
  rw [← hasker, hvisible, List.contains_eq_mem, decide_eq_false hchecked]
  cases hids : ids asked s j'.listener c with
  | nil =>
    rw [hids] at hid
    cases hid
  | cons a as => simp

/-- A change is handed over. Where the check fails for a subscriber, it is
owed nothing or was told of a gap. -/
theorem Inv.deliver (h : Inv asked visible s) {batch failed : List Nat}
    (hphase : s.phase = .delivering (n :: batch))
    (hfailed : ∀ x ∈ s.subs.entries, x.2.listener ∈ failed → ∀ j, s.joins x.1 = some j →
      Owes asked visible s j n → Excused s x.1 j) :
    Inv asked visible
      (Reader.deliver asked visible failed { s with phase := .delivering batch } n) := by
  obtain ⟨hpair, hall⟩ := h.batch _ hphase
  obtain ⟨hlt, hrest⟩ := List.pairwise_cons.mp hpair
  obtain ⟨hn, hcursor, hle⟩ := hall n List.mem_cons_self
  unfold Reader.deliver
  rw [List.getElem?_eq_getElem hn]
  dsimp only
  have hbook : Book { s with phase := .delivering batch } :=
    h.book.alike (fun _ => rfl) rfl rfl rfl rfl
  have hfold := sends_foldl
    (P := fun (s : State A B C) x => ⟨x.1, x.2, n⟩ ∈ s.handed ∨ Lost s x.1)
    (f := hand n) (fun s x => ⟨(sends_hand n s x).1, (sends_hand n s x).2.2⟩)
    (fun x hsends hx => hx.imp (hsends.handed _) hsends.lost)
    (owed asked visible failed { s with phase := .delivering batch } s.log[n])
    { s with phase := .delivering batch }
  have hhanded := handed_foldl n
    (owed asked visible failed { s with phase := .delivering batch } s.log[n])
    { s with phase := .delivering batch } h.order hle
  generalize hs' : (owed asked visible failed
    { s with phase := .delivering batch } s.log[n]).foldl
    (hand n) { s with phase := .delivering batch } = s' at hfold hhanded ⊢
  obtain ⟨hs, hgot⟩ := hfold
  obtain ⟨horder, hmem⟩ := hhanded
  have htap : s'.tap = s.tap := hs.tap
  have hlog : s'.log = s.log := hs.log
  refine ⟨hs.book hbook, ?_, ?_, ?_, fun id j hj hseen => ?_,
    fun id j hj => h.answered id j (hs.joins ▸ hj), fun id j u hj => ?_, fun tap ht => ?_,
    fun id j m hj howes => ?_, horder, fun x hx => ?_, fun b hb => ?_⟩
  · rw [hs.tapped, htap]
    intro hopen
    rcases h.tapped hopen with ht | hl
    · exact .inl ht
    · rw [hphase] at hl
      exact hl.elim
  · rw [hs.phase]
    nofun
  · rw [hs.phase]
    nofun
  · rw [hs.joins] at hj
    rcases h.seen id j hj hseen with he | hu | ⟨ht, -⟩
    · exact .inl (hs.excused he)
    · exact .inr (.inl hu)
    · refine .inr (.inr ⟨htap ▸ ht, ?_⟩)
      rw [hs.phase]
      exact fun hno => hno.elim
  · rw [hlog]
    exact h.unbound_le id j u (hs.joins ▸ hj)
  · rw [hlog]
    exact h.cursor_le tap (htap ▸ ht)
  · have hj : s.joins id = some j := hs.joins ▸ hj
    have howes : Owes asked visible s j m := (hs.owes (s := { s with phase := _ })).mp howes
    rcases h.heard id j m hj howes with hh | he | ⟨hu, hahead⟩
    · exact .inl (Handed.sends hs hh)
    · exact .inr (.inl (hs.excused he))
    · by_cases hl : s.listeners.get? j.listener = none
      · exact .inr (.inl (.inr (hs.gone _ hl)))
      · by_cases hmn : m = n
        · subst hmn
          by_cases hin : j.listener ∈ failed
          · have hsub := OrdMap.get?_eq_some.mp (h.book.join id j hj hu hl)
            exact .inr (.inl (hs.excused (hfailed _ hsub hin j hj howes)))
          · obtain ⟨-, -, c, hc, hasked, hvisible⟩ := howes
            obtain rfl := Option.some.inj ((List.getElem?_eq_getElem hn).symm.trans hc)
            obtain ⟨x, hx, hxl, hid⟩ := hbook.owed hj hu hl hin hasked hvisible
            rcases hgot x hx with hput | hlost
            · exact .inl ⟨_, hput, hxl, hid, rfl⟩
            · refine .inr (.inl ?_)
              rw [hxl] at hlost
              exact hlost.excused (hs.next ▸ (h.book.join_le id j hj).1)
        · refine .inr (.inr ⟨hu, ?_⟩)
          rw [hs.ahead]
          rcases hahead with ht | ⟨b, hb, hm⟩
          · exact .inl ht
          · cases hphase.symm.trans hb
            exact .inr ⟨batch, rfl, (List.mem_cons.mp hm).resolve_left hmn⟩
  · rw [hlog, htap]
    rcases hmem x hx with hx | hx
    · exact h.handed_lt x hx
    · rw [hx]
      exact ⟨hn, hcursor⟩
  · rw [hs.phase] at hb
    cases hb
    refine ⟨hrest, fun m hm => ?_⟩
    obtain ⟨hm', hcursor', hle'⟩ := hall m (.tail _ hm)
    rw [hlog, htap]
    refine ⟨hm', hcursor', fun x hx => ?_⟩
    rcases hmem x hx with hx | hx
    · exact hle' x hx
    · rw [hx]
      exact (hlt m hm).le

theorem Inv.tells (h : Inv asked visible s) :
    Inv asked visible (gap { s with told := true, phase := .gapped }) := by
  obtain ⟨hs, hhanded, hlost⟩ := sends_gap { s with told := true, phase := .gapped }
  generalize gap { s with told := true, phase := .gapped } = s' at hs hhanded hlost ⊢
  have hbook : Book { s with told := true, phase := .gapped } :=
    h.book.alike (fun _ => rfl) rfl rfl rfl rfl
  have hexcused : ∀ id j, s'.joins id = some j → Excused s' id j := fun id j hj =>
    (hlost j.listener).excused ((hs.book hbook).join_le id j hj).1
  refine ⟨hs.book hbook, fun _ => .inr ?_, ?_, ?_, fun id j hj _ => .inl (hexcused id j hj),
    fun id j hj => h.answered id j (hs.joins ▸ hj), fun id j u hj => ?_, fun tap ht => ?_,
    fun id j n hj _ => .inr (.inl (hexcused id j hj)), ?_, ?_, ?_⟩
  · rw [hs.phase]
    trivial
  · rw [hs.phase]
    nofun
  · rw [hs.phase]
    nofun
  · rw [hs.log]
    exact h.unbound_le id j u (hs.joins ▸ hj)
  · rw [hs.log]
    exact h.cursor_le tap (hs.tap ▸ ht)
  · rw [hhanded]
    exact h.order
  · rw [hhanded, hs.log, hs.tap]
    exact h.handed_lt
  · rw [hs.phase]
    nofun

/-- A loop that keeps its tap has one where joins read that it does. -/
theorem Inv.taps (h : Inv asked visible s) {phase : Phase} (hphase : s.phase = phase)
    (hstays : ¬ phase.Leaving) (hopen : s.tapped = .open) : s.tap.isSome :=
  (h.tapped hopen).resolve_right (hphase ▸ hstays)

theorem inv_turn {ok : Bool} {count : Nat} (h : Inv asked visible s)
    (hturn : turn asked visible s ok count = some s') : Inv asked visible s' := by
  have hnone : ∀ phase, s.phase = phase → (∀ batch, phase ≠ .delivering batch) →
      ∀ batch, s.phase = .delivering batch → batch = [] :=
    fun phase hphase hne batch hb => absurd (hphase.symm.trans hb) (hne batch)
  unfold turn at hturn
  cases hphase : s.phase with
  | check =>
    rw [hphase] at hturn
    have hopen := h.taps hphase id
    dsimp only at hturn
    split at hturn
    · rename_i hzero
      obtain rfl := Option.some.inj hturn
      exact h.moves (hnone _ hphase fun _ => nofun) nofun nofun (fun _ => nofun)
        (fun ho => .inl (hopen ho)) fun _ id j hj _ => h.book.idle hzero hj
    · cases hturn
      by_cases htap : s.tap.isSome
      · rw [if_pos htap]
        exact h.moves (hnone _ hphase fun _ => nofun) nofun nofun (fun _ => nofun)
          (fun ho => .inl (hopen ho)) fun hl => hl.elim
      · rw [if_neg htap]
        exact h.moves (hnone _ hphase fun _ => nofun)
          (fun _ => Option.not_isSome_iff_eq_none.mp htap) nofun (fun _ => nofun)
          (fun ho => .inl (hopen ho)) fun hl => hl.elim
  | idle =>
    rw [hphase] at hturn
    cases hturn
    exact h.lets (by rw [hphase]; trivial) trivial
  | idled =>
    rw [hphase] at hturn
    cases hturn
    exact h.moves (hnone _ hphase fun _ => nofun) nofun nofun (fun _ => nofun) nofun
      fun hl => hl.elim
  | parked =>
    rw [hphase] at hturn
    obtain ⟨-, heq⟩ := Option.ite_none_right_eq_some.mp hturn
    cases heq
    exact h.moves (hnone _ hphase fun _ => nofun) nofun nofun (fun _ => nofun)
      (fun ho => .inl (h.taps hphase id ho))
      fun hl => hl.elim
  | opening =>
    rw [hphase] at hturn
    have htap := h.opening hphase
    dsimp only at hturn
    split at hturn
    · obtain rfl := Option.some.inj hturn
      exact h.opens hphase
    · cases hturn
      exact h.moves (hnone _ hphase fun _ => nofun) nofun nofun (fun _ => nofun)
        (fun ho => .inl (h.taps hphase id ho))
        fun hl => hl.elim
  | opened =>
    rw [hphase] at hturn
    cases hturn
    exact h.moves (hnone _ hphase fun _ => nofun) nofun nofun (fun _ => nofun)
      (fun _ => .inl (h.opened hphase)) fun hl => hl.elim
  | troubled =>
    rw [hphase] at hturn
    have hfailing : ∀ told, Inv asked visible { s with phase := .failing, tapped := s.tapped, told } :=
      fun told => h.moves (hnone _ hphase fun _ => nofun) nofun nofun (fun _ => nofun)
        (fun ho => .inl (h.taps hphase id ho))
        fun hl => hl.elim
    dsimp only at hturn
    split at hturn
    · obtain rfl := Option.some.inj hturn
      exact hfailing s.told
    · cases hturn
      obtain ⟨hsends, hhanded, -⟩ := sends_gap { s with told := true, phase := .failing }
      exact (hfailing true).sends hsends hhanded
  | failing =>
    rw [hphase] at hturn
    cases hturn
    exact h.moves (hnone _ hphase fun _ => nofun) nofun nofun (fun _ => nofun) nofun
      fun hl => hl.elim
  | polling =>
    rw [hphase] at hturn
    dsimp only at hturn
    split at hturn
    · cases hturn
    · rename_i tap htap
      split at hturn
      · cases hturn
        exact h.moves (hnone _ hphase fun _ => nofun) nofun nofun (fun _ => nofun)
          (fun _ => .inl (by rw [htap]; rfl)) fun hl => hl.elim
      · split at hturn
        · cases hturn
          exact h.moves (hnone _ hphase fun _ => nofun) nofun nofun (fun _ => nofun)
            (fun _ => .inl (by rw [htap]; rfl)) fun hl => hl.elim
        · cases hturn
          have hcursor := h.cursor_le tap htap
          exact h.polls hphase htap (by omega)
  | stopped =>
    rw [hphase] at hturn
    cases hturn
    exact h.tells
  | gapped =>
    rw [hphase] at hturn
    cases hturn
    exact h.lets (by rw [hphase]; trivial) trivial
  | dropped =>
    rw [hphase] at hturn
    cases hturn
    exact h.moves (hnone _ hphase fun _ => nofun) nofun nofun (fun _ => nofun) nofun
      fun hl => hl.elim
  | delivering batch =>
    rw [hphase] at hturn
    cases batch with
    | nil =>
      cases hturn
      refine h.moves (fun batch hb => ?_) nofun nofun (fun _ => nofun)
        (fun ho => .inl (h.taps hphase id ho))
        fun hl => hl.elim
      exact (Phase.delivering.inj (hphase.symm.trans hb)).symm
    | cons n batch =>
      cases hturn
      exact h.deliver hphase fun x _ hin => absurd hin List.not_mem_nil

/-! ## Everyone else -/

/-- What was told is not forgotten, and who has gone does not come back. -/
theorem Excused.mono (h : Excused s id j) (hgaps : s'.gaps = s.gaps)
    (hgone : s.listeners.get? j.listener = none → s'.listeners.get? j.listener = none) :
    Excused s' id j := by
  unfold Excused
  rw [hgaps]
  exact h.imp_right hgone

/-- A step that changes who is listening, and neither the log nor the loop. -/
theorem Inv.listeners (h : Inv asked visible s) (next : Nat) (subs : OrdMap Nat (Sub B))
    (listeners : OrdMap Nat (Listener A)) (joins : Nat → Option (Join A B))
    (hbook : Book { s with next, subs, listeners, joins })
    (hgone : ∀ id j, s.joins id = some j → s.listeners.get? j.listener = none →
      listeners.get? j.listener = none)
    (hjoins : ∀ id j, joins id = some j → s.joins id = some j ∨
      (s.joins id = none ∧ j.seen = false ∧ j.answered = none ∧ j.unbound = none)) :
    Inv asked visible { s with next, subs, listeners, joins } := by
  have hexcused : ∀ id j, s.joins id = some j → Excused s id j →
      Excused { s with next, subs, listeners, joins } id j :=
    fun id j hj he => he.mono rfl (hgone id j hj)
  refine { h with book := hbook, seen := fun id j hj hs => ?_, answered := fun id j hj ha => ?_
                  unbound_le := fun id j u hj hu => ?_, heard := fun id j n hj howes => ?_ }
  · rcases hjoins id j hj with hj | ⟨-, hs', -⟩
    · exact (h.seen id j hj hs).imp_left (hexcused id j hj)
    · rw [hs] at hs'
      cases hs'
  · rcases hjoins id j hj with hj | ⟨-, -, ha', -⟩
    · exact h.answered id j hj ha
    · rw [ha'] at ha
      cases ha
  · rcases hjoins id j hj with hj | ⟨-, -, -, hu'⟩
    · exact h.unbound_le id j u hj hu
    · rw [hu'] at hu
      cases hu
  · rcases hjoins id j hj with hj | ⟨-, -, ha', -⟩
    · exact (h.heard id j n hj howes).imp_right (Or.imp_left (hexcused id j hj))
    · obtain ⟨⟨a, ha, -⟩, -⟩ := howes
      rw [ha'] at ha
      cases ha

theorem Inv.listen (h : Inv asked visible s) (asker : A) (sendTo : To) : Inv asked visible
      { s with next := s.next + 1
               listeners := s.listeners.insert (s.next + 1) ⟨asker, sendTo, [], []⟩ } := by
  have hget : ∀ l, (s.listeners.insert (s.next + 1) ⟨asker, sendTo, [], []⟩).get? l =
      if l = s.next + 1 then some ⟨asker, sendTo, [], []⟩ else s.listeners.get? l :=
    OrdMap.get?_insert _ _ _
  have hold : ∀ l ≤ s.next,
      (s.listeners.insert (s.next + 1) ⟨asker, sendTo, [], []⟩).get? l = s.listeners.get? l :=
    fun l hl => (hget l).trans (if_neg (by omega))
  refine h.listeners _ s.subs _ s.joins ?_ (fun id j hj hno => ?_) fun id j hj => .inl hj
  · refine ⟨fun id b hb => ?_, fun id j hj hu hl => ?_, fun l who hwho id hid => ?_,
      fun l who hwho => ?_, fun id j hj => ?_⟩
    · obtain ⟨who, j, hwho, hj⟩ := h.book.sub id b hb
      exact ⟨who, j, (hold _ (h.book.listener_le _ who hwho)).trans hwho, hj⟩
    · dsimp only at hl
      rw [hold _ (h.book.join_le id j hj).2] at hl
      exact h.book.join id j hj hu hl
    · dsimp only at hwho
      rw [hget] at hwho
      split at hwho
      · cases hwho
        cases hid
      · exact h.book.own l who hwho id hid
    · dsimp only at hwho
      rw [hget] at hwho
      split at hwho
      · rename_i heq
        exact heq.le
      · exact (h.book.listener_le l who hwho).trans (Nat.le_succ _)
    · obtain ⟨hid, hl⟩ := h.book.join_le id j hj
      exact ⟨hid.trans (Nat.le_succ _), hl.trans (Nat.le_succ _)⟩
  · exact (hold _ (h.book.join_le id j hj).2).trans hno

theorem Inv.bind (h : Inv asked visible s) (l : Nat) (binding : B) :
    Inv asked visible (Reader.bind s l binding) := by
  unfold Reader.bind
  cases hl : s.listeners.get? l with
  | none => exact h
  | some who =>
    have hnew : s.joins (s.next + 1) = none := by
      cases hj : s.joins (s.next + 1) with
      | none => rfl
      | some j => exact absurd (h.book.join_le _ j hj).1 (by omega)
    have hsubs : ∀ id, (s.subs.insert (s.next + 1) ⟨l, binding⟩).get? id =
        if id = s.next + 1 then some ⟨l, binding⟩ else s.subs.get? id := OrdMap.get?_insert _ _ _
    have hlisteners : ∀ k,
        (s.listeners.insert l { who with bindings := who.bindings ++ [s.next + 1] }).get? k =
          if k = l then some { who with bindings := who.bindings ++ [s.next + 1] }
          else s.listeners.get? k := OrdMap.get?_insert _ _ _
    have hjoins : ∀ id j, Function.update s.joins (s.next + 1)
        (some ⟨l, who.asker, binding, false, none, none⟩) id = some j →
        id = s.next + 1 ∧ j = ⟨l, who.asker, binding, false, none, none⟩ ∨
          id ≠ s.next + 1 ∧ s.joins id = some j := by
      intro id j hj
      by_cases hid : id = s.next + 1
      · subst hid
        rw [Function.update_self] at hj
        exact .inl ⟨rfl, (Option.some.inj hj).symm⟩
      · rw [Function.update_of_ne hid] at hj
        exact .inr ⟨hid, hj⟩
    refine h.listeners _ _ _ _ ?_ (fun id j hj hno => ?_) fun id j hj => ?_
    · refine ⟨fun id b hb => ?_, fun id j hj hu hjl => ?_, fun k who' hwho' id hid => ?_,
        fun k who' hwho' => ?_, fun id j hj => ?_⟩
      · dsimp only at hb ⊢
        rw [hsubs] at hb
        split at hb
        · rename_i hid
          cases hb
          refine ⟨_, ⟨l, who.asker, binding, false, none, none⟩, (hlisteners l).trans (if_pos rfl),
            List.mem_append_right _ (List.mem_singleton.mpr hid), ?_, rfl, rfl, rfl, rfl⟩
          rw [hid, Function.update_self]
        · rename_i hid
          obtain ⟨who', j, hwho', hid', hj, heq⟩ := h.book.sub id b hb
          have hj' : Function.update s.joins (s.next + 1)
              (some ⟨l, who.asker, binding, false, none, none⟩) id = some j :=
            (Function.update_of_ne hid ..).trans hj
          by_cases hbl : b.listener = l
          · rw [hbl, hl] at hwho'
            cases hwho'
            exact ⟨_, j, (hlisteners _).trans (if_pos hbl), List.mem_append_left _ hid', hj', heq⟩
          · exact ⟨who', j, ((hlisteners _).trans (if_neg hbl)).trans hwho', hid', hj', heq⟩
      · dsimp only at hjl ⊢
        rw [hsubs]
        rcases hjoins id j hj with ⟨hid, rfl⟩ | ⟨hid, hj⟩
        · exact if_pos hid
        · rw [if_neg hid]
          refine h.book.join id j hj hu fun hno => hjl ?_
          rw [hlisteners, if_neg]
          · exact hno
          · intro heq
            rw [heq, hl] at hno
            cases hno
      · dsimp only at hwho' ⊢
        rw [hlisteners] at hwho'
        rw [hsubs]
        split at hwho'
        · rename_i hk
          cases hwho'
          rcases List.mem_append.mp hid with hid | hid
          · obtain ⟨b, hb, hbl⟩ := h.book.own l who hl id hid
            obtain ⟨_, j, -, -, hj, -⟩ := h.book.sub id b hb
            refine ⟨b, ?_, hbl.trans hk.symm⟩
            rw [if_neg]
            · exact hb
            · intro heq
              rw [heq, hnew] at hj
              cases hj
          · exact ⟨_, if_pos (List.mem_singleton.mp hid), hk.symm⟩
        · obtain ⟨b, hb, hbl⟩ := h.book.own k who' hwho' id hid
          obtain ⟨_, j, -, -, hj, -⟩ := h.book.sub id b hb
          refine ⟨b, ?_, hbl⟩
          rw [if_neg]
          · exact hb
          · intro heq
            rw [heq, hnew] at hj
            cases hj
      · dsimp only at hwho' ⊢
        rw [hlisteners] at hwho'
        split at hwho'
        · rename_i hk
          exact hk ▸ (h.book.listener_le l who hl).trans (Nat.le_succ _)
        · exact (h.book.listener_le k who' hwho').trans (Nat.le_succ _)
      · dsimp only
        rcases hjoins id j hj with ⟨hid, rfl⟩ | ⟨-, hj⟩
        · exact ⟨hid.le, (h.book.listener_le l who hl).trans (Nat.le_succ _)⟩
        · obtain ⟨hid, hjl⟩ := h.book.join_le id j hj
          exact ⟨hid.trans (Nat.le_succ _), hjl.trans (Nat.le_succ _)⟩
    · rw [hlisteners, if_neg]
      · exact hno
      · intro heq
        rw [heq, hl] at hno
        cases hno
    · rcases hjoins id j hj with ⟨rfl, rfl⟩ | ⟨-, hj⟩
      · exact .inr ⟨hnew, rfl, rfl, rfl⟩
      · exact .inl hj

variable {j' : Join A B}

theorem Book.rejoin (h : Book s) (hj : s.joins id = some j)
    (hlistener : j'.listener = j.listener) (hasker : j'.asker = j.asker)
    (hbinding : j'.binding = j.binding) (hunbound : j'.unbound = j.unbound) :
    Book { s with joins := Function.update s.joins id (some j') } := by
  have hjoins : ∀ k i, Function.update s.joins id (some j') k = some i →
      k = id ∧ i = j' ∨ k ≠ id ∧ s.joins k = some i := by
    intro k i hi
    by_cases hk : k = id
    · subst hk
      rw [Function.update_self] at hi
      exact .inl ⟨rfl, (Option.some.inj hi).symm⟩
    · rw [Function.update_of_ne hk] at hi
      exact .inr ⟨hk, hi⟩
  refine { h with sub := fun k b hb => ?_, join := fun k i hi hu hl => ?_
                  join_le := fun k i hi => ?_ }
  · obtain ⟨who, i, hwho, hk, hi, hil, hib, hia, hiu⟩ := h.sub k b hb
    by_cases hkid : k = id
    · subst hkid
      cases hi.symm.trans hj
      exact ⟨who, j', hwho, hk, Function.update_self .., hlistener.trans hil,
        hbinding.trans hib, hasker.trans hia, hunbound.trans hiu⟩
    · exact ⟨who, i, hwho, hk, (Function.update_of_ne hkid ..).trans hi, hil, hib, hia, hiu⟩
  · rcases hjoins k i hi with ⟨rfl, rfl⟩ | ⟨-, hi⟩
    · rw [hlistener, hbinding]
      exact h.join k j hj (hunbound.symm.trans hu) (hlistener ▸ hl)
    · exact h.join k i hi hu hl
  · rcases hjoins k i hi with ⟨rfl, rfl⟩ | ⟨-, hi⟩
    · rw [hlistener]
      exact h.join_le k j hj
    · exact h.join_le k i hi

theorem Inv.rejoin (h : Inv asked visible s) (j' : Join A B)
    {subs : OrdMap Nat (Sub B)} {listeners : OrdMap Nat (Listener A)}
    (hj : s.joins id = some j) (hlistener : j'.listener = j.listener)
    (hbook : Book { s with subs, listeners, joins := Function.update s.joins id (some j') })
    (hgone : ∀ l, s.listeners.get? l = none → listeners.get? l = none)
    (hseen : j'.seen = true → Excused s id j ∨ j'.unbound.isSome ∨
      (s.tap.isSome ∧ ¬ s.phase.Leaving))
    (hanswered : j'.answered.isSome → j'.seen = true)
    (hunbound : ∀ u, j'.unbound = some u → u ≤ s.log.length)
    (hheard : ∀ n, Owes asked visible s j' n →
      Handed s id j n ∨ Excused s id j ∨ (j'.unbound = none ∧ Ahead s n)) :
    Inv asked visible
      { s with subs, listeners, joins := Function.update s.joins id (some j') } := by
  have hjoins : ∀ k i, Function.update s.joins id (some j') k = some i →
      k = id ∧ i = j' ∨ k ≠ id ∧ s.joins k = some i := by
    intro k i hi
    by_cases hk : k = id
    · subst hk
      rw [Function.update_self] at hi
      exact .inl ⟨rfl, (Option.some.inj hi).symm⟩
    · rw [Function.update_of_ne hk] at hi
      exact .inr ⟨hk, hi⟩
  have hexcused : ∀ k i, Excused s k i → Excused
      { s with subs, listeners, joins := Function.update s.joins id (some j') } k i :=
    fun k i he => he.mono rfl (hgone _)
  have hsame : Excused s id j → Excused
      { s with subs, listeners, joins := Function.update s.joins id (some j') } id j' := by
    intro he
    have he' := hexcused id j he
    unfold Excused at he' ⊢
    rw [hlistener]
    exact he'
  refine { h with book := hbook, seen := fun k i hi hs => ?_, answered := fun k i hi ha => ?_
                  unbound_le := fun k i u hi hu => ?_, heard := fun k i n hi howes => ?_ }
  · rcases hjoins k i hi with ⟨rfl, rfl⟩ | ⟨-, hi⟩
    · exact (hseen hs).imp_left hsame
    · exact (h.seen k i hi hs).imp_left (hexcused k i)
  · rcases hjoins k i hi with ⟨rfl, rfl⟩ | ⟨-, hi⟩
    · exact hanswered ha
    · exact h.answered k i hi ha
  · rcases hjoins k i hi with ⟨rfl, rfl⟩ | ⟨-, hi⟩
    · exact hunbound u hu
    · exact h.unbound_le k i u hi hu
  · rcases hjoins k i hi with ⟨rfl, rfl⟩ | ⟨-, hi⟩
    · refine (hheard n howes).imp (fun hh => ?_) (Or.imp_left hsame)
      unfold Handed at hh ⊢
      rw [hlistener]
      exact hh
    · exact (h.heard k i n hi howes).imp_right (Or.imp_left (hexcused k i))

theorem Book.unbind (h : Book s) {sub : Sub B} (hsub : s.subs.get? id = some sub) (hlistener : j'.listener = sub.listener) (hunbound : j'.unbound ≠ none) :
    Book { s with
      subs := s.subs.remove id
      listeners := s.listeners.adjust sub.listener fun who =>
        { who with bindings := who.bindings.filter (· ≠ id) }
      joins := Function.update s.joins id (some j') } := by
  have hsubs : ∀ k, (s.subs.remove id).get? k = if k = id then none else s.subs.get? k :=
    OrdMap.get?_remove _ _
  have hlisteners : ∀ l, (s.listeners.adjust sub.listener fun who =>
      { who with bindings := who.bindings.filter (· ≠ id) }).get? l =
        if l = sub.listener then (s.listeners.get? sub.listener).map fun who =>
          { who with bindings := who.bindings.filter (· ≠ id) }
        else s.listeners.get? l := OrdMap.get?_adjust _ _ _
  have hkept : ∀ l who, s.listeners.get? l = some who → ∃ who', (s.listeners.adjust sub.listener
      fun who => { who with bindings := who.bindings.filter (· ≠ id) }).get? l = some who' ∧
      who'.asker = who.asker ∧ ∀ k, k ∈ who.bindings → k ≠ id → k ∈ who'.bindings := by
    intro l who hwho
    rw [hlisteners]
    by_cases hl : l = sub.listener
    · rw [if_pos hl, ← hl, hwho]
      refine ⟨_, rfl, rfl, fun k hk hne => List.mem_filter.mpr ⟨hk, decide_eq_true hne⟩⟩
    · rw [if_neg hl]
      exact ⟨who, hwho, rfl, fun k hk _ => hk⟩
  have hfrom : ∀ l who', (s.listeners.adjust sub.listener
      fun who => { who with bindings := who.bindings.filter (· ≠ id) }).get? l = some who' →
      ∃ who, s.listeners.get? l = some who ∧ ∀ k ∈ who'.bindings,
        k ∈ who.bindings ∧ (l = sub.listener → k ≠ id) := by
    intro l who' hwho'
    rw [hlisteners] at hwho'
    split at hwho'
    · rename_i hl
      obtain ⟨who, hwho, rfl⟩ := Option.map_eq_some_iff.mp hwho'
      refine ⟨who, hl ▸ hwho, fun k hk => ?_⟩
      obtain ⟨hk, hne⟩ := List.mem_filter.mp hk
      exact ⟨hk, fun _ => of_decide_eq_true hne⟩
    · rename_i hl
      exact ⟨who', hwho', fun k hk => ⟨hk, fun hno => absurd hno hl⟩⟩
  refine ⟨fun k b hb => ?_, fun k i hi hu hl => ?_, fun l who' hwho' k hk => ?_,
    fun l who' hwho' => ?_, fun k i hi => ?_⟩
  · dsimp only at hb
    rw [hsubs] at hb
    split at hb
    · cases hb
    · rename_i hne
      obtain ⟨who, i, hwho, hk, hi, hil, hib, hia, hiu⟩ := h.sub k b hb
      obtain ⟨who', hwho', hasker, hbindings⟩ := hkept _ who hwho
      exact ⟨who', i, hwho', hbindings k hk hne, (Function.update_of_ne hne ..).trans hi, hil, hib,
        hia.trans hasker.symm, hiu⟩
  · dsimp only at hi hl ⊢
    by_cases hk : k = id
    · subst hk
      rw [Function.update_self] at hi
      cases hi
      exact absurd hu hunbound
    · rw [Function.update_of_ne hk] at hi
      rw [hsubs, if_neg hk]
      refine h.join k i hi hu fun hno => hl ?_
      rw [hlisteners]
      split
      · rename_i heq
        rw [← heq, hno]
        rfl
      · exact hno
  · dsimp only
    obtain ⟨who, hwho, hmem⟩ := hfrom l who' hwho'
    obtain ⟨hk, hne⟩ := hmem k hk
    obtain ⟨b, hb, hbl⟩ := h.own l who hwho k hk
    refine ⟨b, ?_, hbl⟩
    rw [hsubs, if_neg]
    · exact hb
    · intro heq
      rw [heq] at hb
      cases hsub.symm.trans hb
      exact hne hbl.symm heq
  · obtain ⟨who, hwho, -⟩ := hfrom l who' hwho'
    exact h.listener_le l who hwho
  · dsimp only at hi ⊢
    by_cases hk : k = id
    · subst hk
      rw [Function.update_self] at hi
      cases hi
      obtain ⟨_, j, -, -, hj, hjl, -⟩ := h.sub k sub hsub
      rw [hlistener, ← hjl]
      exact h.join_le k j hj
    · rw [Function.update_of_ne hk] at hi
      exact h.join_le k i hi

theorem Book.gone (h : Book s) (hj : s.joins id = some j) (hsub : s.subs.get? id = none)
    (hlistener : j'.listener = j.listener) (hunbound : j'.unbound ≠ none) :
    Book { s with joins := Function.update s.joins id (some j') } := by
  refine { h with sub := fun k b hb => ?_, join := fun k i hi hu hl => ?_
                  join_le := fun k i hi => ?_ }
  · obtain ⟨who, i, hwho, hk, hi, heq⟩ := h.sub k b hb
    refine ⟨who, i, hwho, hk, (Function.update_of_ne ?_ ..).trans hi, heq⟩
    rintro rfl
    have hb : s.subs.get? k = some b := hb
    rw [hsub] at hb
    cases hb
  · dsimp only at hi
    by_cases hk : k = id
    · subst hk
      rw [Function.update_self] at hi
      cases hi
      exact absurd hu hunbound
    · rw [Function.update_of_ne hk] at hi
      exact h.join k i hi hu hl
  · dsimp only at hi ⊢
    by_cases hk : k = id
    · subst hk
      rw [Function.update_self] at hi
      cases hi
      rw [hlistener]
      exact h.join_le k j hj
    · rw [Function.update_of_ne hk] at hi
      exact h.join_le k i hi

theorem Inv.unbind (h : Inv asked visible s)
    (hok : ∀ j, s.joins id = some j → ∀ n, Owes asked visible s j n → ¬ Ahead s n) :
    Inv asked visible (Reader.unbind s id) := by
  unfold Reader.unbind
  dsimp only
  cases hj : s.joins id with
  | none =>
    have hsub : s.subs.get? id = none := by
      cases hsub : s.subs.get? id with
      | none => rfl
      | some sub =>
        obtain ⟨_, j, -, -, hj', -⟩ := h.book.sub id sub hsub
        rw [hj] at hj'
        cases hj'
    have hsame : Function.update s.joins id none = s.joins := by
      rw [← hj]
      exact Function.update_eq_self id s.joins
    rw [Option.map_none, hsame, hsub]
    exact h
  | some j =>
    rw [Option.map_some]
    generalize hj' : ({ j with unbound := some (j.unbound.getD s.log.length) } : Join A B) = j'
    have hlistener : j'.listener = j.listener := by rw [← hj']
    have hunbound : j'.unbound = some (j.unbound.getD s.log.length) := by rw [← hj']
    have hunbound_ne : j'.unbound ≠ none := by
      rw [hunbound]
      nofun
    have hseen : j'.seen = true → Excused s id j ∨ j'.unbound.isSome ∨
        (s.tap.isSome ∧ ¬ s.phase.Leaving) := fun _ => .inr (.inl (by rw [hunbound]; rfl))
    have hanswered : j'.answered.isSome → j'.seen = true := by
      rw [← hj']
      exact h.answered id j hj
    have hle : ∀ u, j'.unbound = some u → u ≤ s.log.length := by
      intro u hu
      rw [hunbound] at hu
      cases hu
      cases hju : j.unbound with
      | none => exact le_rfl
      | some u => exact h.unbound_le id j u hj hju
    have hheard : ∀ n, Owes asked visible s j' n →
        Handed s id j n ∨ Excused s id j ∨ (j'.unbound = none ∧ Ahead s n) := by
      rintro n ⟨hans, hun, hc⟩
      have howes : Owes asked visible s j n := by
        rw [← hj'] at hans hc
        refine ⟨hans, fun u hu => hun u ?_, hc⟩
        rw [hunbound, hu]
        rfl
      rcases h.heard id j n hj howes with hh | he | ⟨-, hahead⟩
      · exact .inl hh
      · exact .inr (.inl he)
      · exact absurd hahead (hok j hj n howes)
    cases hsub : s.subs.get? id with
    | none =>
      exact h.rejoin j' hj hlistener (h.book.gone hj hsub hlistener hunbound_ne) (fun _ hl => hl) hseen
        hanswered hle hheard
    | some sub =>
      have hsubl : j'.listener = sub.listener := by
        obtain ⟨_, i, -, -, hi, hil, -⟩ := h.book.sub id sub hsub
        cases hi.symm.trans hj
        exact hlistener.trans hil
      refine h.rejoin j' hj hlistener (h.book.unbind hsub hsubl hunbound_ne) (fun l hl => ?_) hseen
        hanswered hle hheard
      rw [OrdMap.get?_adjust]
      split
      · rename_i heq
        rw [← heq, hl]
        rfl
      · exact hl

theorem Inv.commit (h : Inv asked visible s) (c : C) :
    Inv asked visible { s with log := s.log ++ [c] } := by
  have hlength : (s.log ++ [c]).length = s.log.length + 1 := List.length_append
  refine { h with book := h.book.alike (fun _ => rfl) rfl rfl rfl rfl
                  seen := fun id j hj hs => h.seen id j hj hs
                  unbound_le := fun id j u hj hu => ?_, cursor_le := fun tap ht => ?_
                  heard := fun id j n hj howes => ?_, handed_lt := fun x hx => ?_
                  batch := fun batch hb => ?_ }
  · exact (h.unbound_le id j u hj hu).trans (by simp)
  · exact (h.cursor_le tap ht).trans (by simp)
  · obtain ⟨hans, hun, c', hc', hmay⟩ := howes
    by_cases hn : n < s.log.length
    · rw [List.getElem?_append_left hn] at hc'
      exact h.heard id j n hj ⟨hans, hun, c', hc', hmay⟩
    · obtain ⟨a, ha, -⟩ := hans
      rcases h.seen id j hj (h.answered id j hj (by rw [ha]; rfl)) with he | hu | ⟨ht, -⟩
      · exact .inr (.inl he)
      · obtain ⟨u, hu⟩ := Option.isSome_iff_exists.mp hu
        exact absurd ((hun u hu).trans_le (h.unbound_le id j u hj hu)) hn
      · obtain ⟨tap, ht⟩ := Option.isSome_iff_exists.mp ht
        cases hu : j.unbound with
        | some u => exact absurd ((hun u hu).trans_le (h.unbound_le id j u hj hu)) hn
        | none =>
          exact .inr (.inr ⟨rfl, .inl ⟨tap, ht, (h.cursor_le tap ht).trans (not_lt.mp hn)⟩⟩)
  · obtain ⟨hlog, hcursor⟩ := h.handed_lt x hx
    exact ⟨hlog.trans_le (by simp), hcursor⟩
  · obtain ⟨hpair, hall⟩ := h.batch batch hb
    exact ⟨hpair, fun n hn => ⟨(hall n hn).1.trans_le (by simp), (hall n hn).2⟩⟩

/-- The tap's connection goes, and the loop has still to find out. -/
theorem Inv.fails (h : Inv asked visible s) :
    Inv asked visible { s with tap := s.tap.map fun tap => { tap with dead := true } } := by
  have hsome : (s.tap.map fun tap => { tap with dead := true }).isSome = s.tap.isSome :=
    Option.isSome_map
  have hfrom : ∀ tap, (s.tap.map fun tap => { tap with dead := true }) = some tap →
      ∃ old, s.tap = some old ∧ old.cursor = tap.cursor := by
    intro tap ht
    obtain ⟨old, hold, rfl⟩ := Option.map_eq_some_iff.mp ht
    exact ⟨old, hold, rfl⟩
  refine { h with book := h.book.alike (fun _ => rfl) rfl rfl rfl rfl
                  tapped := fun ho => hsome ▸ h.tapped ho
                  opening := fun ho => by rw [h.opening ho]; rfl
                  opened := fun ho => hsome ▸ h.opened ho
                  seen := fun id j hj hs => ?_
                  cursor_le := fun tap ht => ?_
                  heard := fun id j n hj howes => ?_, handed_lt := fun x hx => ?_
                  batch := fun batch hb => ?_ }
  · rw [hsome]
    exact h.seen id j hj hs
  · obtain ⟨old, hold, heq⟩ := hfrom tap ht
    exact heq ▸ h.cursor_le old hold
  · refine (h.heard id j n hj howes).imp_right (Or.imp_right (And.imp_right (Or.imp_left ?_)))
    rintro ⟨tap, ht, hle⟩
    exact ⟨{ tap with dead := true }, by rw [ht]; rfl, hle⟩
  · obtain ⟨hlog, hcursor⟩ := h.handed_lt x hx
    refine ⟨hlog, fun tap ht => ?_⟩
    obtain ⟨old, hold, heq⟩ := hfrom tap ht
    exact heq ▸ hcursor old hold
  · obtain ⟨hpair, hall⟩ := h.batch batch hb
    refine ⟨hpair, fun n hn => ⟨(hall n hn).1, fun tap ht => ?_, (hall n hn).2.2⟩⟩
    obtain ⟨old, hold, heq⟩ := hfrom tap ht
    exact heq ▸ (hall n hn).2.1 old hold

theorem inv_next {a : Act A B C} (hok : Sound asked visible s a) (h : Inv asked visible s)
    (hnext : next asked visible s a = some s') : Inv asked visible s' := by
  cases a with
  | listen asker sendTo =>
    cases hnext
    exact h.listen asker sendTo
  | bind l binding =>
    cases hnext
    exact h.bind l binding
  | tapping id =>
    simp only [next] at hnext
    cases hj : s.joins id with
    | none =>
      rw [hj] at hnext
      cases hnext
    | some j =>
      rw [hj] at hnext
      obtain ⟨hopen, heq⟩ := Option.ite_none_right_eq_some.mp hnext
      cases heq
      refine h.rejoin { j with seen := true } hj rfl (h.book.rejoin hj rfl rfl rfl rfl)
        (fun _ hl => hl) (fun _ => ?_) (fun _ => rfl) (h.unbound_le id j · hj)
        fun n howes => h.heard id j n hj howes
      by_cases hl : s.phase.Leaving
      · exact .inl (hok hl j hj)
      · exact .inr (.inr ⟨(h.tapped hopen).resolve_right hl, hl⟩)
  | reply id =>
    simp only [next] at hnext
    cases hj : s.joins id with
    | none =>
      rw [hj] at hnext
      cases hnext
    | some j =>
      rw [hj] at hnext
      obtain ⟨⟨hseen, -⟩, heq⟩ := Option.ite_none_right_eq_some.mp hnext
      cases heq
      refine h.rejoin { j with answered := some s.log.length } hj rfl
        (h.book.rejoin hj rfl rfl rfl rfl) (fun _ hl => hl) (fun _ => h.seen id j hj hseen)
        (fun _ => hseen) (h.unbound_le id j · hj) fun n howes => ?_
      obtain ⟨⟨a, ha, hle⟩, -, c, hc, -⟩ := howes
      cases ha
      rw [List.getElem?_eq_none hle] at hc
      cases hc
  | unbind id =>
    cases hnext
    exact h.unbind hok
  | hungUp l =>
    cases hnext
    exact h.sends (sends_hungUp s l).1 (sends_hungUp s l).2
  | hear l =>
    cases hnext
    have halike : Alike s.listeners
        (s.listeners.adjust l fun who => { who with queue := who.queue.tail }) := by
      intro k
      rw [OrdMap.get?_adjust]
      split
      · rename_i heq
        rw [heq, Option.map_map]
        rfl
      · rfl
    exact h.sends ⟨rfl, rfl, rfl, rfl, rfl, rfl, fun _ => id, fun _ => id,
      fun k hk => (halike.none k).mpr hk, fun hb => hb.alike halike rfl rfl rfl rfl⟩ rfl
  | drain k =>
    cases hnext
    exact h.sends ⟨rfl, rfl, rfl, rfl, rfl, rfl, fun _ => id, fun _ => id, fun _ => id,
      fun hb => hb.alike (fun _ => rfl) rfl rfl rfl rfl⟩ rfl
  | behind k =>
    cases hnext
    exact h.sends ⟨rfl, rfl, rfl, rfl, rfl, rfl, fun _ => id, fun _ => id, fun _ => id,
      fun hb => hb.alike (fun _ => rfl) rfl rfl rfl rfl⟩ rfl
  | commit c =>
    cases hnext
    exact h.commit c
  | fail =>
    cases hnext
    exact h.fails
  | step ok count => exact inv_turn h hnext
  | unchecked failed =>
    simp only [next] at hnext
    split at hnext
    · rename_i n batch hphase
      cases hnext
      exact h.deliver hphase (hok n (by rw [hphase]; rfl))
    · cases hnext

theorem Inv.promise (h : Inv asked visible s) : Promise asked visible s where
  heard id j hj n howes := (h.heard id j n hj howes).imp_right (Or.imp_right And.right)
  order := h.order

instance decidableExcused (s : State A B C) (id : Nat) (j : Join A B) :
    Decidable (Excused s id j) :=
  decidable_of_iff ((∃ x ∈ s.gaps, x.1 = j.listener ∧ id ≤ x.2) ∨
    (s.listeners.get? j.listener).isNone = true) (or_congr_right Option.isNone_iff_eq_none)

instance decidableAhead (s : State A B C) (n : Nat) : Decidable (Ahead s n) :=
  decidable_of_iff ((s.tap.any fun tap => decide (tap.cursor ≤ n)) = true ∨ n ∈ s.phase.batch) (by
    unfold Ahead
    rw [Option.any_eq_true]
    cases s.phase <;> simp [Phase.batch])

instance decidableHanded (s : State A B C) (id : Nat) (j : Join A B) (n : Nat) :
    Decidable (Handed s id j n) :=
  inferInstanceAs (Decidable (∃ h ∈ s.handed, h.listener = j.listener ∧ id ∈ h.ids ∧ h.n = n))

instance decidableOwes (s : State A B C) (j : Join A B) (n : Nat) :
    Decidable (Owes asked visible s j n) :=
  decidable_of_iff ((j.answered.any fun a => decide (a ≤ n)) = true ∧
      (j.unbound.all fun u => decide (n < u)) = true ∧
      (s.log[n]?.any fun c => asked j.binding c && visible j.asker c) = true) (by
    unfold Owes
    simp only [Option.any_eq_true, Option.all_eq_true, decide_eq_true_eq, Bool.and_eq_true])

instance decidableLeaving : ∀ phase : Phase, Decidable phase.Leaving
  | .idle | .idled | .gapped | .dropped => inferInstanceAs (Decidable True)
  | .check | .parked | .opening | .opened | .troubled | .failing | .polling | .stopped
  | .delivering _ => inferInstanceAs (Decidable False)

theorem owes_lt (h : Owes asked visible s j n) : n < s.log.length := by
  obtain ⟨-, -, c, hc, -⟩ := h
  exact (List.getElem?_eq_some_iff.mp hc).1

instance decidableSound (s : State A B C) : ∀ a, Decidable (Sound asked visible s a)
  | .tapping id =>
    decidable_of_iff (s.phase.Leaving → ((s.joins id).all fun j => decide (Excused s id j)) = true)
      (by simp only [Sound, Option.all_eq_true, decide_eq_true_eq])
  | .unbind id =>
    decidable_of_iff (((s.joins id).all fun j => decide (∀ n ∈ List.range s.log.length,
      Owes asked visible s j n → ¬ Ahead s n)) = true) (by
      simp only [Sound, Option.all_eq_true, decide_eq_true_eq, List.mem_range]
      exact forall₂_congr fun j _ => ⟨fun h n howes => h n (owes_lt howes) howes,
        fun h n _ howes => h n howes⟩)
  | .unchecked failed =>
    decidable_of_iff ((s.phase.batch.head?.all fun n => decide (∀ x ∈ s.subs.entries,
        x.2.listener ∈ failed → ((s.joins x.1).all fun j => decide
          (Owes asked visible s j n → Excused s x.1 j)) = true)) = true)
      (by simp only [Sound, Option.all_eq_true, decide_eq_true_eq])
  | .listen .. | .bind .. | .reply _ | .hungUp _ | .hear _ | .drain _ | .behind _ | .commit _
  | .fail | .step .. => inferInstanceAs (Decidable True)

/-- A project where every change is everyone's. -/
abbrev everyone : Unit → Unit → Bool := fun _ _ => true

/-- A join reads that there is a tap after the loop found nobody listening. -/
def stale : List (Act Unit Unit Unit) :=
  [.listen () .own, .bind 1 (), .step true 0, .step true 0, .step true 0, .tapping 2, .reply 2,
    .unbind 2, .step true 0, .step true 0, .bind 1 (), .tapping 3, .reply 3, .step true 0,
    .commit ()]

/-- The binding is owed the first commit and is left behind. -/
def Missed (id : Nat) (s : State Unit Unit Unit) : Prop :=
  ∃ j, s.joins id = some j ∧ Owes everyone everyone s j 0 ∧
    ¬ (Handed s id j 0 ∨ Excused s id j ∨ Ahead s 0)

instance decidableMissed (id : Nat) (s : State Unit Unit Unit) : Decidable (Missed id s) :=
  decidable_of_iff (((s.joins id).any fun j => decide (Owes everyone everyone s j 0 ∧
    ¬ (Handed s id j 0 ∨ Excused s id j ∨ Ahead s 0))) = true)
    (by simp only [Missed, Option.any_eq_true, decide_eq_true_eq])

theorem Missed.broken {s : State Unit Unit Unit} (h : Missed id s) :
    ¬ Promise everyone everyone s := by
  obtain ⟨j, hj, howes, hno⟩ := h
  exact fun hp => hno (hp.heard id j hj 0 howes)

end Zou.Reader
