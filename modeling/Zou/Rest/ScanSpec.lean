import Zou.Rest.Scan

/-!
# Names and paths read back

The four things the grammars share, each with what its reader is told by
what follows: a quoted name ends itself; a bare name ends at a break or at
an arrow; a bare json key at a key break or at an arrow; and digits are an
index only before what `indexEnds` lists, so a path that ends in an index
keeps what it was followed by (`PathEnds`).
-/

namespace Zou.Rest

open Scanner

/-! ## Quoted names -/

theorem scanQuoted_run (s : Text) : scanQuoted.run ('"' :: s) = unquote s :=
  bind_run (expect_self '"' s) _

theorem unquote_escaped (s r : Text) : unquote (s.flatMap escape ++ '"' :: r) = some (s, r) := by
  induction s with
  | nil => rfl
  | cons c s ih =>
    rw [List.flatMap_cons, List.append_assoc]
    by_cases hc : c = '"' ∨ c = '\\'
    · rw [escape, if_pos hc, List.cons_append, List.singleton_append, unquote, ih]
      rfl
    · obtain ⟨hq, hb⟩ := not_or.mp hc
      rw [escape, if_neg hc, List.singleton_append, unquote, ih]
      · rfl
      · exact hq
      · exact fun h _ => hb h
      · exact fun d t h _ => hb h

/-- A quoted name reads back, whatever follows it. -/
theorem scanQuoted_writeEscaped (s r : Text) :
    scanQuoted.run (writeEscaped s ++ r) = some (s, r) := by
  rw [writeEscaped, List.cons_append, List.append_assoc, List.singleton_append, scanQuoted_run,
    unquote_escaped]

/-! ## Bare names -/

theorem arrow_length : arrow.length = 2 := by decide

variable {s : Text}

theorem arrow_prefix_cons {c : Char} : arrow <+: c :: s ↔ c = '-' ∧ s.head? = some '>' := by
  rw [arrow_eq, List.cons_prefix_cons]
  cases s with
  | nil => simp
  | cons d s => simp [List.cons_prefix_cons, eq_comm]

/-- Characters are checked along a list, not one by one of all there are. -/
theorem forall_mem_of_all {p : Char → Prop} [DecidablePred p]
    (h : s.all (fun c => decide (p c)) = true) : ∀ c ∈ s, p c :=
  fun c hc => of_decide_eq_true (List.all_eq_true.mp h c hc)

/-- A name with no break and no arrow in it. -/
def Bare (brk : Char → Bool) (s : Text) : Prop := (∀ c ∈ s, brk c = false) ∧ ¬ arrow <:+: s

variable {brk : Char → Bool}

theorem Bare.infix {t : Text} (h : Bare brk s) (ht : t <:+: s) : Bare brk t :=
  ⟨fun c hc => h.1 c (ht.subset hc), fun ha => h.2 (ha.trans ht)⟩

/-- Where a bare name ends: at a break or an arrow, or the end. A break is
no `>`, which would turn a dash before it into an arrow. -/
def NameEnds (brk : Char → Bool) (r : Text) : Prop :=
  StopsAt (nameStop brk) r ∧ r.head? ≠ some '>'

theorem NameEnds.nil (brk : Char → Bool) : NameEnds brk [] := ⟨.inl rfl, by decide⟩

theorem NameEnds.cons {brk : Char → Bool} {c : Char} (hc : brk c = true) (hgt : c ≠ '>')
    (r : Text) : NameEnds brk (c :: r) :=
  ⟨.inr (Bool.or_eq_true_iff.mpr (.inl hc)), fun h => hgt (Option.some.inj h)⟩

theorem NameEnds.arrow (brk : Char → Bool) (r : Text) : NameEnds brk (arrow ++ r) := by
  refine ⟨.inr (Bool.or_eq_true_iff.mpr (.inr ?_)), by simp [Rest.arrow]⟩
  exact decide_eq_true (List.prefix_append _ _)

variable {r : Text}

theorem scanName_bare (h : Bare brk s) (hr : NameEnds brk r) :
    (scanName brk).run (s ++ r) = some (s, r) := by
  refine run_readUntil_eq (fun t hne ht => ?_) hr.1
  obtain ⟨hbrk, harrow⟩ := h.infix ht.isInfix
  cases t with
  | nil => exact absurd rfl hne
  | cons c t =>
    refine Bool.or_eq_false_iff.mpr ⟨hbrk c List.mem_cons_self, decide_eq_false fun hp => ?_⟩
    obtain ⟨rfl, hgt⟩ := arrow_prefix_cons.mp hp
    cases t with
    | nil => exact hr.2 hgt
    | cons d t =>
      obtain rfl : d = '>' := Option.some.inj hgt
      exact harrow ⟨[], t, rfl⟩

variable {n : Text}

theorem scanName_spec (h : (scanName brk).run s = some (n, r)) : Bare brk n := by
  obtain ⟨-, hno, -⟩ := readUntil_spec h
  constructor
  · intro c hc
    obtain ⟨t, u, rfl⟩ := List.append_of_mem hc
    exact (Bool.or_eq_false_iff.mp (hno (c :: u) (List.cons_ne_nil _ _)
      (List.suffix_append _ _))).1
  · rintro ⟨t, u, rfl⟩
    have hu := hno (arrow ++ u) (by simp [arrow]) (by
      rw [List.append_assoc]
      exact List.suffix_append _ _)
    have hp := of_decide_eq_false (Bool.or_eq_false_iff.mp hu).2
    rw [List.append_assoc] at hp
    exact hp (List.prefix_append _ _)

/-! ## Trimming -/

theorem trim_infix (s : Text) : trim s <:+: s := by
  have h : (((s.dropWhile blank).reverse.dropWhile blank).reverse) <+: s.dropWhile blank := by
    have hs := List.dropWhile_suffix blank (l := (s.dropWhile blank).reverse)
    have hp := List.reverse_prefix.mpr hs
    rwa [List.reverse_reverse] at hp
  exact h.isInfix.trans (List.dropWhile_suffix blank).isInfix

theorem head_of_trim (h : trim s = s) : s.head?.any blank = false := by
  cases s with
  | nil => rfl
  | cons c s =>
    refine eq_false_of_ne_true fun hc => ?_
    have hc : blank c = true := hc
    have hlen := congrArg List.length h
    have h₁ := (List.dropWhile_suffix blank (l := ((c :: s).dropWhile blank).reverse)).length_le
    have h₂ := (List.dropWhile_suffix blank (l := s)).length_le
    rw [trim, List.length_reverse, List.length_cons] at hlen
    rw [List.length_reverse] at h₁
    rw [List.dropWhile_cons_of_pos hc] at h₁ hlen
    omega

theorem skipSpaces_run (h : s.head?.any blank = false) : skipSpaces.run s = some ((), s) := by
  have hread : (readUntil fun r : Text => !r.head?.any blank).run ([] ++ s) = some ([], s) := by
    refine run_readUntil_eq (fun t hne ht => absurd (List.suffix_nil.mp ht) hne) (.inr ?_)
    simp only [h, Bool.not_false]
  exact bind_run hread _

/-! ## Json keys -/

/-- Where a bare json key ends. -/
def KeyEnds (r : Text) : Prop := r = [] ∨ r.head?.any jsonKeyBreak = true ∨ arrow <+: r

/-- A key that can be written bare. -/
structure BareKey (n : Text) : Prop where
  chars : ∀ c ∈ n, jsonKeyBreak c = false ∧ c ≠ '"'
  pieces : ∀ p ∈ n.splitOn '-', p ≠ [] ∧ trim p = p
  digits : n.all Char.isDigit = false

theorem bareKey_of (h : keyNeedsQuotes n = false) : BareKey n := by
  obtain ⟨h, hdigits⟩ := Bool.or_eq_false_iff.mp h
  obtain ⟨hchars, hpieces⟩ := Bool.or_eq_false_iff.mp h
  refine ⟨fun c hc => ?_, fun p hp => ?_, hdigits⟩
  · have hc := List.any_eq_false.mp hchars c hc
    simp only [Bool.or_eq_true, decide_eq_true_eq, not_or] at hc
    exact ⟨eq_false_of_ne_true hc.1.1, hc.1.2⟩
  · have hp := List.any_eq_false.mp hpieces p hp
    simp only [Bool.or_eq_true, decide_eq_true_eq, not_or, ne_eq, not_not] at hp
    exact hp

/-- No piece of a bare key is empty, so a dash stands between two of its
characters. -/
theorem BareKey.dash {u m : Text} (h : BareKey n) (hn : n = u ++ '-' :: m) :
    u ≠ [] ∧ ∃ c t, m = c :: t ∧ c ≠ '>' := by
  subst hn
  have hp := h.pieces
  rw [List.splitOn_append_cons_self] at hp
  constructor
  · rintro rfl
    exact (hp [] (List.mem_append_left _ (List.mem_singleton.mpr rfl))).1 rfl
  · cases m with
    | nil => exact absurd rfl (hp [] (List.mem_append_right _ (List.mem_singleton.mpr rfl))).1
    | cons c t =>
      refine ⟨c, t, rfl, ?_⟩
      rintro rfl
      have hgt := (h.chars '>' (by simp)).1
      exact absurd hgt (by decide)

theorem BareKey.ne_nil (h : BareKey n) : n ≠ [] := by
  rintro rfl
  exact absurd h.digits (by decide)

theorem BareKey.head (h : BareKey n) (r : Text) :
    (n ++ r).head? ≠ some '-' ∧ (n ++ r).head? ≠ some '"' := by
  cases n with
  | nil => exact absurd rfl h.ne_nil
  | cons c n =>
    constructor
    · intro hc
      obtain rfl : c = '-' := Option.some.inj hc
      exact (h.dash (u := []) rfl).1 rfl
    · intro hc
      exact (h.chars c List.mem_cons_self).2 (Option.some.inj hc)

theorem takeWhile_append_cons {p : Char → Bool} {d : Text} {c : Char} (hd : ∀ x ∈ d, p x = true)
    (hc : p c = false) (m : Text) : (d ++ c :: m).takeWhile p = d := by
  rw [List.takeWhile_append_of_pos hd, List.takeWhile_cons_of_neg (by rw [hc]; decide),
    List.append_nil]

/-- A text that is not all digits is the digits it starts with and a first
character that is none. -/
theorem exists_digits (h : n.all Char.isDigit = false) :
    ∃ d c m, n = d ++ c :: m ∧ (∀ x ∈ d, x.isDigit = true) ∧ c.isDigit = false := by
  induction n with
  | nil => cases h
  | cons c n ih =>
    by_cases hc : c.isDigit = true
    · rw [List.all_cons, hc, Bool.true_and] at h
      obtain ⟨d, e, m, rfl, hd, he⟩ := ih h
      exact ⟨c :: d, e, m, rfl, List.forall_mem_cons.mpr ⟨hc, hd⟩, he⟩
    · exact ⟨[], c, n, rfl, by simp, eq_false_of_ne_true hc⟩

/-- A bare key is no index: behind the digits it starts with stands
something of the key. -/
theorem jsonIndex_bare (h : BareKey n) (r : Text) :
    jsonIndex.run (n ++ r) = some (none, n ++ r) := by
  obtain ⟨d, c, m, hn, hd, hc⟩ := exists_digits h.digits
  have hsign : (n ++ r).head? ≠ some '-' := (h.head r).1
  have hdigits : (n ++ r).takeWhile Char.isDigit = d := by
    rw [hn, List.append_assoc, List.cons_append, takeWhile_append_cons hd hc]
  have hdrop : (n ++ r).drop d.length = c :: (m ++ r) := by
    rw [hn, List.append_assoc, List.cons_append, List.drop_left]
  have hends : indexEnds (c :: (m ++ r)) = false := by
    have hbrk := (h.chars c (by rw [hn]; simp)).1
    have harrow : ¬ arrow <+: c :: (m ++ r) := by
      intro hp
      obtain ⟨rfl, hgt⟩ := arrow_prefix_cons.mp hp
      obtain ⟨-, x, t, rfl, hx⟩ := h.dash hn
      exact hx (Option.some.inj hgt)
    have hcolon : ¬ "::".toList <+: c :: (m ++ r) := by
      intro hp
      obtain rfl : ':' = c := (List.cons_prefix_cons.mp hp).1
      exact absurd hbrk (by decide)
    have hdot : c ≠ '.' := by
      rintro rfl
      exact absurd hbrk (by decide)
    have hcomma : c ≠ ',' := by
      rintro rfl
      exact absurd hbrk (by decide)
    simp only [indexEnds, harrow, hcolon, hdot, hcomma, reduceCtorEq, decide_false,
      List.head?_cons, Option.some.injEq, Bool.or_self]
  unfold jsonIndex
  rw [bind_run (run_rest _)]
  simp only [hsign, decide_false, if_false, List.drop_zero, hdigits,
    Nat.zero_add, hdrop, hends, Bool.not_false, if_true]
  split <;> rfl

theorem keyPiecesTurn_contracts : Contracts keyPiecesTurn := by
  intro n p q h
  refine Alike.behind fun s piece r hr => ?_
  by_cases hne : piece = []
  · exact .inr (by simp only [hne, if_true, fail_bind])
  · refine .inl ⟨?_, ?_⟩
    · simp only [hne, if_false]
      refine Alike.bind (Alike.refl _ _) fun s => ?_
      split
      · exact Alike.bind (Alike.refl _ _) fun _ => Alike.bind h fun _ => Alike.refl _ _
      · exact Alike.refl _ _
    · obtain ⟨rfl, -, -⟩ := readUntil_spec hr
      rw [List.length_append]
      have := List.length_pos_of_ne_nil hne
      omega

theorem keyPieces_eq : keyPieces = keyPiecesTurn keyPieces := fix_eq keyPiecesTurn_contracts

theorem piece_run {p : Text} (hp : ∀ c ∈ p, jsonKeyBreak c = false ∧ c ≠ '-')
    (hr : StopsAt pieceStop r) : (readUntil pieceStop).run (p ++ r) = some (p, r) := by
  refine run_readUntil_eq (fun t hne ht => ?_) hr
  cases t with
  | nil => exact absurd rfl hne
  | cons c t =>
    obtain ⟨hbrk, hdash⟩ := hp c (ht.mem List.mem_cons_self)
    simp only [pieceStop, List.cons_append, List.head?_cons, Option.any_some, hbrk, hdash,
      decide_false, Bool.or_self]

theorem keyPieces_write {ps : List Text} (hne : ps ≠ [])
    (hps : ∀ p ∈ ps, p ≠ [] ∧ trim p = p ∧ ∀ c ∈ p, jsonKeyBreak c = false ∧ c ≠ '-')
    (hr : KeyEnds r) : keyPieces.run (['-'].intercalate ps ++ r) = some (ps, r) := by
  induction ps with
  | nil => exact absurd rfl hne
  | cons p ps ih =>
    obtain ⟨hp, hps⟩ := List.forall_mem_cons.mp hps
    obtain ⟨hpne, htrim, hchars⟩ := hp
    rw [keyPieces_eq, keyPiecesTurn]
    cases ps with
    | nil =>
      have hstop : StopsAt pieceStop r := by
        rcases hr with rfl | hr | ⟨t, rfl⟩
        · exact .inl rfl
        · refine .inr ?_
          cases r with
          | nil => cases hr
          | cons c r => exact Bool.or_eq_true_iff.mpr (.inl hr)
        · exact .inr rfl
      have hend : ¬ (r.head? = some '-' ∧ ¬ arrow <+: r) := by
        rintro ⟨hd, ha⟩
        rcases hr with rfl | hr | hr
        · cases hd
        · rw [hd] at hr
          exact absurd hr (by decide)
        · exact ha hr
      rw [List.intercalate_singleton, bind_run (piece_run hchars hstop)]
      simp only [hpne, if_false]
      rw [bind_run (run_rest r)]
      simp only [hend, if_false, htrim, run_pure]
    | cons q qs =>
      obtain ⟨hqne, -, hqchars⟩ := hps q List.mem_cons_self
      have hnext : ∃ c t, ['-'].intercalate (q :: qs) ++ r = c :: t ∧ c ≠ '>' := by
        cases q with
        | nil => exact absurd rfl hqne
        | cons c q =>
          refine ⟨c, q ++ (['-'].intercalate ([] :: qs) ++ r), ?_, ?_⟩
          · cases qs <;> simp [List.intercalate]
          · rintro rfl
            exact absurd (hqchars '>' List.mem_cons_self).1 (by decide)
      obtain ⟨c, t, hct, hgt⟩ := hnext
      have hgo : ('-' :: (['-'].intercalate (q :: qs) ++ r)).head? = some '-'
          ∧ ¬ arrow <+: '-' :: (['-'].intercalate (q :: qs) ++ r) := by
        refine ⟨rfl, fun ha => ?_⟩
        rw [arrow_prefix_cons, hct] at ha
        exact hgt (Option.some.inj ha.2)
      rw [List.intercalate_cons_cons, List.append_assoc, List.append_assoc,
        bind_run (piece_run hchars (.inr rfl)), List.singleton_append]
      simp only [hpne, if_false]
      rw [bind_run (run_rest _), if_pos hgo, bind_run (run_advance 1 _), List.drop_one,
        List.tail_cons, bind_run (ih (List.cons_ne_nil _ _) hps), htrim]
      rfl

theorem mem_splitOn (n : Text) : ∀ p ∈ n.splitOn '-', '-' ∉ p ∧ ∀ c ∈ p, c ∈ n := by
  induction n with
  | nil =>
    intro p hp
    obtain rfl : p = [] := List.mem_singleton.mp hp
    exact ⟨List.not_mem_nil, fun _ h => h⟩
  | cons x n ih =>
    intro p hp
    rw [List.splitOn_cons_eq_if_modifyHead] at hp
    split at hp
    · rcases List.mem_cons.mp hp with rfl | hp
      · exact ⟨List.not_mem_nil, nofun⟩
      · exact ⟨(ih p hp).1, fun c hc => .tail _ ((ih p hp).2 c hc)⟩
    · rename_i hx
      have hx : '-' ≠ x := fun h => hx (by simp [← h])
      cases hs : n.splitOn '-' with
      | nil => exact absurd hs (List.splitOn_ne_nil _ _)
      | cons q qs =>
        rw [hs] at hp ih
        rcases List.mem_cons.mp hp with rfl | hp
        · obtain ⟨hdash, hmem⟩ := ih q List.mem_cons_self
          refine ⟨fun h => (List.mem_cons.mp h).elim hx hdash, fun c hc => ?_⟩
          rcases List.mem_cons.mp hc with rfl | hc
          · exact List.mem_cons_self
          · exact .tail _ (hmem c hc)
        · obtain ⟨hdash, hmem⟩ := ih p (.tail _ hp)
          exact ⟨hdash, fun c hc => .tail _ (hmem c hc)⟩

theorem exists_pieces (h : BareKey n) : n.splitOn '-' ≠ []
    ∧ (∀ p ∈ n.splitOn '-', p ≠ [] ∧ trim p = p ∧ ∀ c ∈ p, jsonKeyBreak c = false ∧ c ≠ '-')
    ∧ ['-'].intercalate (n.splitOn '-') = n := by
  refine ⟨List.splitOn_ne_nil _ _, fun p hp => ?_, List.intercalate_splitOn _⟩
  obtain ⟨hdash, hmem⟩ := mem_splitOn n p hp
  refine ⟨(h.pieces p hp).1, (h.pieces p hp).2, fun c hc => ⟨(h.chars c (hmem c hc)).1, ?_⟩⟩
  rintro rfl
  exact hdash hc

/-! ## Indexes -/

theorem int64_range (i : Int64) : -2 ^ 63 ≤ i.toInt ∧ i.toInt < 2 ^ 63 :=
  ⟨Int64.le_toInt i, Int64.toInt_lt i⟩

theorem parseI64_digits (i : Int64) :
    parseI64 (decide (i.toInt < 0)) (Nat.toDigits 10 i.toInt.natAbs) = some i := by
  have hval : (if decide (i.toInt < 0) then -(i.toInt.natAbs : Int) else i.toInt.natAbs)
      = i.toInt := by
    by_cases h : i.toInt < 0
    · simp only [h, decide_true, if_true]
      omega
    · simp only [h, decide_false, Bool.false_eq_true, if_false]
      omega
  unfold parseI64
  simp only [Nat.ofDigitChars_ten_toDigits, hval, int64_range i, and_self, if_true, Int64.ofInt_toInt]

theorem digits_isDigit (n : Nat) : ∀ c ∈ Nat.toDigits 10 n, c.isDigit = true :=
  fun _ hc => Nat.isDigit_of_mem_toDigits (by decide) (by decide) hc

theorem indexEnds_head {c : Char} (h : indexEnds (c :: r) = true) : c.isDigit = false := by
  simp only [indexEnds, Bool.or_eq_true, decide_eq_true_eq, List.head?_cons, Option.some.injEq,
    reduceCtorEq, false_or] at h
  rcases h with ((h | h) | rfl) | rfl
  · obtain ⟨rfl, -⟩ := arrow_prefix_cons.mp h
    decide
  · obtain rfl : ':' = c := (List.cons_prefix_cons.mp h).1
    decide
  · decide
  · decide

theorem takeWhile_digits (n : Nat) (hr : indexEnds r = true) :
    (Nat.toDigits 10 n ++ r).takeWhile Char.isDigit = Nat.toDigits 10 n := by
  cases r with
  | nil =>
    rw [List.takeWhile_append_of_pos (digits_isDigit n), List.takeWhile_nil, List.append_nil]
  | cons c r => exact takeWhile_append_cons (digits_isDigit n) (indexEnds_head hr) r

/-- An index reads back before anything an index may stand before. -/
theorem jsonIndex_write (i : Int64) (hr : indexEnds r = true) :
    jsonIndex.run (writeI64 i ++ r) = some (some i, r) := by
  have hne : Nat.toDigits 10 i.toInt.natAbs ≠ [] := Nat.toDigits_ne_nil
  have hparse := parseI64_digits i
  unfold jsonIndex
  rw [bind_run (run_rest _)]
  by_cases hneg : i.toInt < 0
  · simp only [hneg, decide_true] at hparse
    have hdrop : ('-' :: (Nat.toDigits 10 i.toInt.natAbs ++ r)).drop
        (1 + (Nat.toDigits 10 i.toInt.natAbs).length) = r := by
      rw [Nat.add_comm, List.drop_succ_cons, List.drop_left]
    simp only [writeI64, hneg, if_true, List.cons_append, List.head?_cons, decide_true,
      List.drop_succ_cons, List.drop_zero, takeWhile_digits _ hr, hne, if_false, hdrop, hr,
      Bool.not_true, Bool.false_eq_true, hparse]
    rw [bind_run (run_advance _ _), hdrop]
    rfl
  · have hhead : (Nat.toDigits 10 i.toInt.natAbs ++ r).head? ≠ some '-' := by
      cases hd : Nat.toDigits 10 i.toInt.natAbs with
      | nil => exact absurd hd hne
      | cons c d =>
        intro h
        obtain rfl : c = '-' := Option.some.inj h
        have hdig := digits_isDigit i.toInt.natAbs '-' (by rw [hd]; exact List.mem_cons_self)
        exact absurd hdig (by decide)
    have hdrop : (Nat.toDigits 10 i.toInt.natAbs ++ r).drop
        (0 + (Nat.toDigits 10 i.toInt.natAbs).length) = r := by
      rw [Nat.zero_add, List.drop_left]
    simp only [hneg, decide_false] at hparse
    simp only [writeI64, hneg, if_false, hhead, decide_false, Bool.false_eq_true,
      List.drop_zero, takeWhile_digits _ hr, hne, hdrop, hr, Bool.not_true, hparse]
    rw [bind_run (run_advance _ _), hdrop]
    rfl

theorem jsonIndex_spec {i : Int64} (h : jsonIndex.run s = some (some i, r)) :
    indexEnds r = true := by
  unfold jsonIndex at h
  rw [bind_run (run_rest _)] at h
  dsimp only at h
  generalize (if s.head? = some '-' then 1 else 0) = sign at h
  generalize (s.drop sign).takeWhile Char.isDigit = digits at h
  by_cases hd : digits = []
  · rw [if_pos hd] at h
    cases h
  · rw [if_neg hd] at h
    cases hends : indexEnds (s.drop (sign + digits.length)) with
    | false =>
      rw [hends] at h
      cases h
    | true =>
      rw [hends] at h
      cases hp : parseI64 (decide (s.head? = some '-')) digits with
      | none =>
        rw [hp] at h
        cases h
      | some n =>
        rw [hp] at h
        cases h
        exact hends

/-! ## Paths -/

theorem parseJsonKey_write (k : JsonKey) (hr : KeyEnds r)
    (hi : ∀ i, k = .index i → indexEnds r = true) :
    parseJsonKey.run (writeKey k ++ r) = some (k, r) := by
  unfold parseJsonKey
  cases k with
  | index i => 
    rw [writeKey, bind_run (jsonIndex_write i (hi i rfl))]
    rfl
  | name n =>
    rw [writeKey]
    cases hq : keyNeedsQuotes n with
    | true =>
      have hindex : jsonIndex.run (writeEscaped n ++ r) = some (none, writeEscaped n ++ r) := rfl
      have hhead : (writeEscaped n ++ r).head? = some '"' := rfl
      rw [if_pos rfl, bind_run hindex]
      rw [bind_run (run_peek _), if_neg (by rw [hhead]; decide), bind_run (run_peek _),
        if_pos hhead, bind_run (scanQuoted_writeEscaped n r)]
      rfl
    | false =>
      have hb := bareKey_of hq
      obtain ⟨hne, hps, hjoin⟩ := exists_pieces hb
      have hread := keyPieces_write hne hps hr
      rw [hjoin] at hread
      obtain ⟨hdash, hquote⟩ := hb.head r
      rw [if_neg Bool.false_ne_true, bind_run (jsonIndex_bare hb r)]
      rw [bind_run (run_peek _), if_neg hdash, bind_run (run_peek _), if_neg hquote,
        bind_run hread, hjoin]
      rfl

theorem parseJsonKey_index {i : Int64}
    (h : parseJsonKey.run s = some (.index i, r)) : indexEnds r = true := by
  obtain ⟨o, t, ho, h⟩ := bind_eq_some.mp h
  cases o with
  | some n =>
    cases h
    exact jsonIndex_spec ho
  | none =>
    obtain ⟨c, t₁, -, h⟩ := bind_eq_some.mp h
    split at h
    · cases h
    · obtain ⟨c, t₂, -, h⟩ := bind_eq_some.mp h
      split at h
      · obtain ⟨n, t₃, -, h⟩ := bind_eq_some.mp h
        cases h
      · obtain ⟨ps, t₃, -, h⟩ := bind_eq_some.mp h
        cases h

theorem jsonPathTurn_contracts : Contracts jsonPathTurn := by
  intro n p q h
  refine Alike.behind fun s b r hr => ?_
  rcases eatStr_cases hr with ⟨rfl, rfl⟩ | ⟨rfl, -, -⟩
  · refine .inl ⟨?_, by rw [List.length_append, arrow_length]; omega⟩
    exact Alike.bind (Alike.refl _ _) fun _ => Alike.bind (Alike.refl _ _) fun _ =>
      Alike.bind h fun _ => Alike.refl _ _
  · exact .inr rfl

theorem parseJsonPath_eq : parseJsonPath = jsonPathTurn parseJsonPath :=
  fix_eq jsonPathTurn_contracts

def JsonKey.isIndex : JsonKey → Bool
  | .name _ => false
  | .index _ => true

/-- A path that ends in an index stands before what ends one. -/
def PathEnds (path : List JsonStep) (r : Text) : Prop :=
  path.getLast?.any (·.key.isIndex) = true → indexEnds r = true

theorem PathEnds.nil (r : Text) : PathEnds [] r := nofun

theorem parseJsonPath_spec {path : List JsonStep}
    (h : parseJsonPath.run s = some (path, r)) : PathEnds path r ∧ (path = [] → r = s) := by
  refine fix_induct (P := fun s path r => PathEnds path r ∧ (path = [] → r = s)) ?_ h
  clear h
  intro more ih s path r hturn
  obtain ⟨b, t, he, h⟩ := bind_eq_some.mp hturn
  clear hturn
  cases b with
  | true =>
    rw [if_pos rfl] at h
    obtain ⟨text, t₁, -, h⟩ := bind_eq_some.mp h
    obtain ⟨key, t₂, hkey, h⟩ := bind_eq_some.mp h
    obtain ⟨path', t₃, hmore, h⟩ := bind_eq_some.mp h
    cases h
    obtain ⟨hends, hnil⟩ := ih _ _ _ hmore
    refine ⟨fun hlast => ?_, fun hc => absurd hc (List.cons_ne_nil _ _)⟩
    cases path' with
    | nil =>
      rw [hnil rfl]
      cases key with
      | name n => cases hlast
      | index i => exact parseJsonKey_index hkey
    | cons step path' => exact hends (by rwa [List.getLast?_cons_cons] at hlast)
  | false =>
    rcases eatStr_cases he with ⟨hb, -⟩ | ⟨-, rfl, -⟩
    · cases hb
    · cases h
      exact ⟨PathEnds.nil _, fun _ => rfl⟩

theorem writePath_cons (step : JsonStep) (path : List JsonStep) (r : Text) :
    writePath (step :: path) ++ r = arrow ++ ((if step.text then ['>'] else [])
      ++ (writeKey step.key ++ (writePath path ++ r))) := by
  simp only [writePath, List.flatMap_cons, writeStep, List.append_assoc]

theorem indexEnds_path (step : JsonStep) (path : List JsonStep) (r : Text) :
    indexEnds (writePath (step :: path) ++ r) = true := by
  rw [writePath_cons]
  simp only [indexEnds, List.prefix_append, decide_true, Bool.or_true, Bool.true_or]

theorem writeKey_head (k : JsonKey) (r : Text) : (writeKey k ++ r).head? ≠ some '>' := by
  cases k with
  | name n =>
    rw [writeKey]
    cases hq : keyNeedsQuotes n with
    | true => exact fun h => absurd (Option.some.inj h) (by decide)
    | false =>
      rw [if_neg Bool.false_ne_true]
      have hb := bareKey_of hq
      cases n with
      | nil => exact absurd rfl hb.ne_nil
      | cons c n =>
        intro h
        obtain rfl : c = '>' := Option.some.inj h
        exact absurd (hb.chars '>' List.mem_cons_self).1 (by decide)
  | index i =>
    rw [writeKey, writeI64]
    split
    · exact fun h => absurd (Option.some.inj h) (by decide)
    · cases hd : Nat.toDigits 10 i.toInt.natAbs with
      | nil => exact absurd hd Nat.toDigits_ne_nil
      | cons c d =>
        intro h
        obtain rfl : c = '>' := Option.some.inj h
        exact absurd (digits_isDigit _ '>' (by rw [hd]; exact List.mem_cons_self)) (by decide)

theorem parseJsonPath_write {path : List JsonStep} (hends : PathEnds path r)
    (hr : r = [] ∨ r.head?.any jsonKeyBreak = true) :
    parseJsonPath.run (writePath path ++ r) = some (path, r) := by
  induction path with
  | nil =>
    rw [parseJsonPath_eq, jsonPathTurn, writePath, List.flatMap_nil, List.nil_append,
      bind_run (eatStr_neg ?_)]
    · rfl
    · intro ha
      cases r with
      | nil => exact absurd ha (by simp [arrow_eq])
      | cons c r =>
        obtain ⟨rfl, -⟩ := arrow_prefix_cons.mp ha
        rcases hr with hr | hr
        · cases hr
        · have hr : jsonKeyBreak '-' = true := hr
          exact absurd hr (by decide)
  | cons step path ih =>
    have ih := ih (fun hl => hends (by
      cases path with
      | nil => cases hl
      | cons next path => rwa [List.getLast?_cons_cons]))
    have hkey : parseJsonKey.run (writeKey step.key ++ (writePath path ++ r))
        = some (step.key, writePath path ++ r) := by
      refine parseJsonKey_write step.key ?_ fun i hk => ?_
      · cases path with
        | nil => exact hr.elim .inl fun h => .inr (.inl h)
        | cons next path => exact .inr (.inr ⟨_, (writePath_cons next path r).symm⟩)
      · cases path with
        | nil => exact hends (by rw [List.getLast?_singleton, Option.any_some, hk]; rfl)
        | cons next path => exact indexEnds_path next path r
    have htext : (eat '>').run ((if step.text then ['>'] else [])
        ++ (writeKey step.key ++ (writePath path ++ r)))
        = some (step.text, writeKey step.key ++ (writePath path ++ r)) := by
      cases step.text with
      | true => exact eat_self '>' _
      | false => exact eat_neg (writeKey_head step.key _)
    rw [parseJsonPath_eq, jsonPathTurn, writePath_cons, bind_run (eatStr_self arrow _),
      if_pos rfl, bind_run htext, bind_run hkey, bind_run ih]
    rfl

end Zou.Rest
