import Zou.Rest.ScanSpec
import Zou.Rest.Filter

/-!
# The filter grammar reads back what it renders

`Parsed.Fits` says what is true of everything a parse returns: names are not
empty, an operator has the modifier and the kind of value it takes, a list
has an element and a group an item. A pair that fits reads back from its
rendering, by induction over the tree; and the parser returns what fits, by
induction over the recursion of the parser.
-/

namespace Zou.Rest

open Scanner

/-! ## Names -/

variable {n : Text}

theorem bare_of_unquoted (h : nameNeedsQuotes n = false) : n ≠ [] ∧ Bare nameBreak n ∧ trim n = n
      ∧ n ∉ ["or".toList, "and".toList, "not".toList] := by
  simp only [nameNeedsQuotes, Bool.or_eq_false_iff, decide_eq_false_iff_not, ne_eq, not_not,
    List.any_eq_false, Bool.or_eq_true, decide_eq_true_eq, not_or] at h
  obtain ⟨⟨⟨⟨hne, hchars⟩, harrow⟩, htrim⟩, hwords⟩ := h
  exact ⟨hne, ⟨fun c hc => eq_false_of_ne_true (hchars c hc).1, harrow⟩, htrim, hwords⟩

/-- What may follow a segment of a key or the field of an item. -/
def SegmentEnds (r : Text) : Prop := r = [] ∨ ∃ t, r = '.' :: t

variable {r : Text}

theorem SegmentEnds.index (h : SegmentEnds r) : indexEnds r = true := by
  rcases h with rfl | ⟨t, rfl⟩
  · rfl
  · simp only [indexEnds, List.head?_cons, decide_true, Bool.or_true, Bool.true_or]

theorem SegmentEnds.key (h : SegmentEnds r) : r = [] ∨ r.head?.any jsonKeyBreak = true := by
  rcases h with rfl | ⟨t, rfl⟩
  · exact .inl rfl
  · exact .inr rfl

theorem nameEnds_path {brk : Char → Bool} (path : List JsonStep)
    (hr : NameEnds brk r) : NameEnds brk (writePath path ++ r) := by
  cases path with
  | nil => exact hr
  | cons step path =>
    rw [writePath_cons]
    exact NameEnds.arrow brk _

theorem SegmentEnds.name (h : SegmentEnds r) : NameEnds nameBreak r := by
  rcases h with rfl | ⟨t, rfl⟩
  · exact NameEnds.nil _
  · exact NameEnds.cons (by decide) (by decide) t

theorem segmentName_write (hne : n ≠ []) (hr : NameEnds nameBreak r) :
    segmentName.run (writeName n ++ r) = some ((n, nameNeedsQuotes n), r) := by
  unfold segmentName writeName
  rw [bind_run (run_peek _)]
  cases hq : nameNeedsQuotes n with
  | true =>
    have hhead : (writeEscaped n ++ r).head? = some '"' := rfl
    rw [if_pos rfl, if_pos hhead, bind_run (scanQuoted_writeEscaped n r)]
    rfl
  | false =>
    obtain ⟨-, hbare, htrim, -⟩ := bare_of_unquoted hq
    have hhead : (n ++ r).head? ≠ some '"' := by
      cases n with
      | nil => exact absurd rfl hne
      | cons c n =>
        intro h
        obtain rfl : c = '"' := Option.some.inj h
        exact absurd (hbare.1 '"' List.mem_cons_self) (by decide)
    rw [if_neg Bool.false_ne_true, if_neg hhead, bind_run (scanName_bare hbare hr), htrim]
    rfl

theorem parseSegment_write (hne : n ≠ []) (path : List JsonStep)
    (hr : SegmentEnds r) : parseSegment.run (writeName n ++ (writePath path ++ r))
      = some (⟨n, path, nameNeedsQuotes n⟩, r) := by
  have hpath : parseJsonPath.run (writePath path ++ r) = some (path, r) :=
    parseJsonPath_write (fun _ => hr.index) hr.key
  unfold parseSegment
  rw [bind_run (segmentName_write hne (nameEnds_path path hr.name))]
  dsimp only
  rw [if_neg hne, bind_run hpath]
  rfl

variable {s : Text}

theorem parseSegment_spec {seg : Seg} (h : parseSegment.run s = some (seg, r)) : seg.name ≠ [] := by
  obtain ⟨⟨n, quoted⟩, t, -, h⟩ := bind_eq_some.mp h
  dsimp only at h
  by_cases hn : n = []
  · rw [if_pos hn, fail_bind] at h
    cases h
  · rw [if_neg hn] at h
    obtain ⟨path, t₃, -, h⟩ := bind_eq_some.mp h
    cases h
    exact hn

/-! ## Keys -/

theorem segmentsTurn_contracts : Contracts segmentsTurn := by
  intro n p q h
  refine Alike.bind (Alike.refl _ _) fun seg => Alike.behind fun s b r hr => ?_
  rcases eat_cases hr with ⟨rfl, rfl⟩ | ⟨rfl, -, -⟩
  · refine .inl ⟨?_, Nat.lt_succ_self _⟩
    by_cases hp : seg.path ≠ []
    · simp only [if_pos hp, fail_bind]
      exact Alike.refl _ _
    · simp only [if_neg hp]
      exact Alike.bind h fun _ => Alike.refl _ _
  · exact .inr rfl

theorem parseSegments_eq : parseSegments = segmentsTurn parseSegments :=
  fix_eq segmentsTurn_contracts

variable {segs : List Seg}

theorem parseSegments_cons {t u : Text} {seg : Seg}
    (h : parseSegment.run (t ++ '.' :: u) = some (seg, '.' :: u)) (hp : seg.path = [])
    (hu : parseSegments.run u = some (segs, r)) :
    parseSegments.run (t ++ '.' :: u) = some (seg :: segs, r) := by
  rw [parseSegments_eq, segmentsTurn, bind_run h, bind_run (eat_self '.' u), if_pos rfl,
    if_neg (not_not.mpr hp), bind_run hu]
  rfl

theorem parseSegments_last {t : Text} {seg : Seg} (h : parseSegment.run t = some (seg, [])) :
    parseSegments.run t = some ([seg], []) := by
  rw [parseSegments_eq, segmentsTurn, bind_run h]
  rfl

/-- The segment of an embedded resource as the writer puts it. -/
def embedSeg (e : Text) : Seg := ⟨e, [], nameNeedsQuotes e⟩

variable {embed : List Text}

theorem parseSegments_embed (he : ∀ e ∈ embed, e ≠ []) {u : Text} (hu : parseSegments.run u = some (segs, [])) :
    parseSegments.run (writeEmbed embed ++ u) = some (embed.map embedSeg ++ segs, []) := by
  induction embed with
  | nil => exact hu
  | cons e embed ih =>
    obtain ⟨hne, he⟩ := List.forall_mem_cons.mp he
    have hseg := parseSegment_write hne [] (r := '.' :: (writeEmbed embed ++ u))
      (.inr ⟨_, rfl⟩)
    rw [writeEmbed, List.flatMap_cons, List.append_assoc, List.append_assoc,
      List.singleton_append]
    exact parseSegments_cons hseg rfl (ih he)

theorem embedNames_embed (embed : List Text) : embedNames (embed.map embedSeg) = some embed := by
  induction embed with
  | nil => rfl
  | cons e embed ih =>
    rw [embedNames, List.map_cons, List.mapM_cons]
    rw [embedNames] at ih
    rw [ih]
    rfl

theorem embedSeg_isNot (e : Text) : (embedSeg e).isNot = false := by
  unfold Seg.isNot embedSeg
  cases hq : nameNeedsQuotes e with
  | true => rfl
  | false =>
    have hword : e ≠ "not".toList := by
      rintro rfl
      exact absurd hq (by decide)
    simp only [hword, decide_false, Bool.and_false]

theorem parseKey_field {f : Field} (he : ∀ e ∈ f.embed, e ≠ []) (hc : f.column ≠ []) :
    parseKey (writeField f) = some (.field f) := by
  have hlast := parseSegments_last (by
    have h := parseSegment_write hc f.path (r := []) (.inl rfl)
    rwa [List.append_nil] at h)
  have hlogic : Seg.logic ⟨f.column, f.path, nameNeedsQuotes f.column⟩ = none := by
    unfold Seg.logic
    cases hq : nameNeedsQuotes f.column with
    | true => exact if_pos (.inl rfl)
    | false =>
      obtain ⟨-, -, -, hwords⟩ := bare_of_unquoted hq
      by_cases hp : f.path = []
      · simp only [List.mem_cons, List.not_mem_nil, or_false, not_or] at hwords
        simp only [hp, Bool.false_eq_true, ne_eq, not_true_eq_false, or_self, if_false,
          hwords.1, hwords.2.1]
      · exact if_pos (.inr hp)
  unfold parseKey
  rw [writeField, List.append_assoc, parseSegments_embed he hlast, Option.bind_some]
  unfold keyOf
  simp only [List.getLast?_concat, List.dropLast_concat, hlogic, embedNames_embed,
    Option.map_some]

theorem parseKey_logic (he : ∀ e ∈ embed, e ≠ []) (op : LogicOp)
    (negated : Bool) :
    parseKey (writeEmbed embed ++ writeNot negated ++ op.name) = some (.logic embed op negated) := by
  have hop : parseSegments.run op.name = some ([⟨op.name, [], false⟩], []) := by
    cases op <;> exact parseSegments_last rfl
  have hlogic : Seg.logic ⟨op.name, [], false⟩ = some op := by
    cases op <;> rfl
  unfold parseKey
  cases negated with
  | true =>
    have hnot : parseSegments.run ("not".toList ++ '.' :: op.name)
        = some ([⟨"not".toList, [], false⟩, ⟨op.name, [], false⟩], []) := by
      refine parseSegments_cons ?_ rfl hop
      cases op <;> rfl
    have htext : writeEmbed embed ++ writeNot true ++ op.name
        = writeEmbed embed ++ ("not".toList ++ '.' :: op.name) := by
      rw [List.append_assoc]
      rfl
    have hsegs : embed.map embedSeg ++ [⟨"not".toList, [], false⟩, ⟨op.name, [], false⟩]
        = (embed.map embedSeg ++ [⟨"not".toList, [], false⟩]) ++ [⟨op.name, [], false⟩] := by
      rw [List.append_assoc]
      rfl
    have hneg : Seg.isNot ⟨"not".toList, [], false⟩ = true := rfl
    rw [htext, parseSegments_embed he hnot, Option.bind_some, hsegs]
    unfold keyOf
    simp only [List.getLast?_concat, List.dropLast_concat, hlogic, Option.any_some, hneg, if_true,
      embedNames_embed, Option.map_some]
  | false =>
    have hneg : (embed.map embedSeg).getLast?.any Seg.isNot = false := by
      rw [List.getLast?_map]
      cases embed.getLast? with
      | none => rfl
      | some e => exact embedSeg_isNot e
    rw [writeNot, if_neg Bool.false_ne_true, List.append_nil, parseSegments_embed he hop,
      Option.bind_some]
    unfold keyOf
    simp only [List.getLast?_concat, List.dropLast_concat, hlogic, hneg, Bool.false_eq_true,
      if_false, embedNames_embed, Option.map_some]

theorem parseSegments_spec
    (h : parseSegments.run s = some (segs, r)) : ∀ seg ∈ segs, seg.name ≠ [] := by
  refine fix_induct (P := fun _ segs _ => ∀ seg ∈ segs, seg.name ≠ []) ?_ h
  clear h
  intro more ih s segs r hturn
  obtain ⟨seg, t₁, hseg, h⟩ := bind_eq_some.mp hturn
  obtain ⟨b, t₂, -, h⟩ := bind_eq_some.mp h
  cases b with
  | true =>
    rw [if_pos rfl] at h
    by_cases hp : seg.path ≠ []
    · rw [if_pos hp, fail_bind] at h
      cases h
    · rw [if_neg hp] at h
      obtain ⟨segs', t₃, hmore, h⟩ := bind_eq_some.mp h
      cases h
      exact List.forall_mem_cons.mpr ⟨parseSegment_spec hseg, ih _ _ _ hmore⟩
  | false =>
    obtain ⟨b, t₃, -, h⟩ := bind_eq_some.mp h
    cases b with
    | true =>
      cases h
      exact List.forall_mem_singleton.mpr (parseSegment_spec hseg)
    | false => cases h

theorem embedNames_spec (hsegs : ∀ seg ∈ segs, seg.name ≠ []) (h : embedNames segs = some embed) : ∀ e ∈ embed, e ≠ [] := by
  induction segs generalizing embed with
  | nil =>
    cases h
    exact nofun
  | cons seg segs ih =>
    obtain ⟨hseg, hsegs⟩ := List.forall_mem_cons.mp hsegs
    rw [embedNames, List.mapM_cons] at h
    by_cases hp : seg.path ≠ []
    · rw [if_pos hp] at h
      cases h
    · rw [if_neg hp] at h
      obtain ⟨n, hn, h⟩ := Option.bind_eq_some_iff.mp h
      obtain ⟨es, hes, h⟩ := Option.bind_eq_some_iff.mp h
      cases hn
      cases h
      exact List.forall_mem_cons.mpr ⟨hseg, ih hsegs hes⟩

/-- What a key that parses names. -/
def Key.Fits : Key → Prop
  | .field f => (∀ e ∈ f.embed, e ≠ []) ∧ f.column ≠ []
  | .logic embed _ _ => ∀ e ∈ embed, e ≠ []

theorem parseKey_spec {key : Text} {k : Key} (h : parseKey key = some k) : k.Fits := by
  obtain ⟨⟨segs, r⟩, hsegs, h⟩ := Option.bind_eq_some_iff.mp h
  have hne := parseSegments_spec hsegs
  unfold keyOf at h
  cases hlast : segs.getLast? with
  | none =>
    simp only [hlast] at h
    cases h
  | some last =>
    have hmem : last ∈ segs := List.mem_of_getLast? hlast
    have hinit : ∀ seg ∈ segs.dropLast, seg.name ≠ [] :=
      fun seg hs => hne seg (List.mem_of_mem_dropLast hs)
    simp only [hlast] at h
    cases hlogic : last.logic with
    | none =>
      simp only [hlogic] at h
      obtain ⟨embed, he, h⟩ := Option.map_eq_some_iff.mp h
      cases h
      exact ⟨embedNames_spec hinit he, hne last hmem⟩
    | some op =>
      simp only [hlogic] at h
      obtain ⟨embed, he, h⟩ := Option.map_eq_some_iff.mp h
      cases h
      refine embedNames_spec (fun seg hs => ?_) he
      split at hs
      · exact hinit seg (List.mem_of_mem_dropLast hs)
      · exact hinit seg hs

/-! ## Elements -/

theorem element_bare {s : Text} (h : elementNeedsQuotes s = false) :
    s ≠ [] ∧ s.head?.any blank = false ∧ ∀ c ∈ s, c ∉ ",()\"\x7b\x7d\\".toList := by
  simp only [elementNeedsQuotes, Bool.or_eq_false_iff, decide_eq_false_iff_not,
    List.any_eq_false, decide_eq_true_eq] at h
  exact ⟨h.1.1, h.1.2, h.2⟩

/-- An element is written with something that is neither a blank nor a
bracket in front. -/
theorem writeElement_head (s r : Text) :
    ∃ c t, writeElement s ++ r = c :: t ∧ blank c = false ∧ c ≠ '\x7b' ∧ c ≠ '\x7d' := by
  unfold writeElement
  cases hq : elementNeedsQuotes s with
  | true => exact ⟨'"', s.flatMap escape ++ ['"'] ++ r, rfl, by decide, by decide, by decide⟩
  | false =>
    obtain ⟨hne, hblank, hchars⟩ := element_bare hq
    cases s with
    | nil => exact absurd rfl hne
    | cons c s =>
      refine ⟨c, s ++ r, rfl, hblank, ?_, ?_⟩
      · rintro rfl
        exact hchars _ List.mem_cons_self (by decide)
      · rintro rfl
        exact hchars _ List.mem_cons_self (by decide)

theorem scanElement_write {terms : List Char} (hterms : ∀ c ∈ terms, c ∈ ",()\"\x7b\x7d\\".toList)
    (s : Text) {c : Char} (hc : c ∈ terms) (t : Text) :
    (scanElement terms).run (writeElement s ++ c :: t) = some (s, c :: t) := by
  unfold scanElement writeElement
  cases hq : elementNeedsQuotes s with
  | true =>
    rw [if_pos rfl, bind_run (attempt_run (a := s) (r := c :: t) ?_)]
    · rfl
    · rw [bind_run (scanQuoted_writeEscaped s _), bind_run (run_peek _), List.head?_cons,
        Option.all_some, if_pos (decide_eq_true hc)]
      rfl
  | false =>
    obtain ⟨hne, -, hchars⟩ := element_bare hq
    have hquoted : scanQuoted.run (s ++ c :: t) = none := by
      refine bind_none ?_ _
      refine (bind_run (eat_neg ?_) _).trans rfl
      cases s with
      | nil => exact absurd rfl hne
      | cons d s =>
        intro h
        obtain rfl : d = '"' := Option.some.inj h
        exact hchars '"' List.mem_cons_self (by decide)
    rw [if_neg Bool.false_ne_true, bind_run (attempt_none (bind_none hquoted _))]
    refine run_readUntil_eq (fun u hu hsuf => ?_) (.inr ?_)
    · cases u with
      | nil => exact absurd rfl hu
      | cons d u =>
        have hd := hchars d (hsuf.mem List.mem_cons_self)
        simp only [List.cons_append, List.head?_cons, Option.any_some, decide_eq_false_iff_not]
        exact fun hmem => hd (hterms d hmem)
    · simp only [List.head?_cons, Option.any_some, decide_eq_true_eq]
      exact hc

theorem writeElements_cons (s s' : Text) (items : List Text) :
    writeElements (s :: s' :: items) = writeElement s ++ ',' :: writeElements (s' :: items) := by
  unfold writeElements
  rw [List.map_cons, List.map_cons, List.intercalate_cons_cons, List.append_assoc]
  rfl

theorem writeElements_head {items : List Text} (hne : items ≠ []) (r : Text) :
    ∃ c t, writeElements items ++ r = c :: t ∧ blank c = false ∧ c ≠ '\x7d' := by
  cases items with
  | nil => exact absurd rfl hne
  | cons s items =>
    cases items with
    | nil =>
      have hlast : writeElements [s] = writeElement s := List.intercalate_singleton ..
      obtain ⟨c, t, hc, hblank, -, hbrace⟩ := writeElement_head s r
      exact ⟨c, t, by rw [hlast, hc], hblank, hbrace⟩
    | cons s' items =>
      obtain ⟨c, t, hc, hblank, -, hbrace⟩ :=
        writeElement_head s (',' :: writeElements (s' :: items) ++ r)
      exact ⟨c, t, by rw [writeElements_cons, List.append_assoc, hc], hblank, hbrace⟩

theorem elementsTurn_contracts (close : Char) : Contracts (elementsTurn close) := by
  intro n p q h
  refine Alike.bind (Alike.refl _ _) fun s => Alike.behind fun t b r hr => ?_
  rcases eat_cases hr with ⟨rfl, rfl⟩ | ⟨rfl, -, -⟩
  · exact .inl ⟨Alike.bind h fun _ => Alike.refl _ _, Nat.lt_succ_self _⟩
  · exact .inr rfl

theorem parseElements_eq (close : Char) :
    parseElements close = elementsTurn close (parseElements close) :=
  fix_eq (elementsTurn_contracts close)

/-- Elements with commas between them read back before their bracket. -/
theorem parseElements_write {close : Char} (hclose : close = ')' ∨ close = '\x7d')
    {items : List Text} (hne : items ≠ []) (r : Text) :
    (parseElements close).run (writeElements items ++ close :: r) = some (items, r) := by
  have hterms : ∀ c ∈ [',', close], c ∈ ",()\"\x7b\x7d\\".toList := by
    rcases hclose with rfl | rfl <;> exact forall_mem_of_all (by decide)
  have hcomma : close ≠ ',' := by
    rcases hclose with rfl | rfl <;> decide
  induction items with
  | nil => exact absurd rfl hne
  | cons s items ih =>
    rw [parseElements_eq, elementsTurn]
    cases items with
    | nil =>
      have hlast : writeElements [s] = writeElement s := List.intercalate_singleton ..
      rw [hlast, bind_run (scanElement_write hterms s
        (.tail _ (List.mem_singleton.mpr rfl)) r), bind_run (eat_neg ?_),
        if_neg Bool.false_ne_true, bind_run (expect_self close r)]
      · rfl
      · exact fun h => hcomma (Option.some.inj h)
    | cons s' items =>
      rw [writeElements_cons, List.append_assoc, List.cons_append,
        bind_run (scanElement_write hterms s List.mem_cons_self _), bind_run (eat_self ',' _),
        if_pos rfl, bind_run (ih (List.cons_ne_nil _ _))]
      rfl

theorem parseElements_ne_nil {close : Char} {items : List Text}
    (h : (parseElements close).run s = some (items, r)) : items ≠ [] := by
  rw [parseElements_eq] at h
  obtain ⟨x, t₁, -, h⟩ := bind_eq_some.mp h
  obtain ⟨b, t₂, -, h⟩ := bind_eq_some.mp h
  cases b with
  | true =>
    obtain ⟨xs, t₃, -, h⟩ := bind_eq_some.mp h
    cases h
    exact List.cons_ne_nil _ _
  | false =>
    obtain ⟨_, t₃, -, h⟩ := bind_eq_some.mp h
    cases h
    exact List.cons_ne_nil _ _

/-! ## Values -/

/-- The kind of value an operator and its modifier take. -/
inductive Value.Fits (op : Op) (quant : Option Quant) : Value → Prop
  | lit (s : Text) (hop : op ≠ .in) (hquant : quant = none) (his : op = .is → s ∈ isValues) :
      Fits op quant (.lit s)
  | list (items : List Text) (hop : op = .in) (hne : items ≠ []) : Fits op quant (.list items)
  | array (items : List Text) (hop : op ≠ .in) (his : op ≠ .is) (hquant : quant.isSome = true) :
      Fits op quant (.array items)

/-- What a value stands before: the comma or the bracket that ends it in a
tree, and the end at the top, where a list or an array ends itself. -/
def ValueEnds (inTree : Bool) (r : Text) : Prop :=
  if inTree = true then ∃ c t, r = c :: t ∧ c ∈ [',', ')'] else r = []

variable {quant : Option Quant} {op : Op} {v : Value} {inTree : Bool}

theorem parseValue_write (h : v.Fits op quant)
    (hin : op = .in → quant = none) (hr : ValueEnds inTree r) :
    (parseValue op quant inTree).run (writeValue (!inTree) v ++ r) = some (v, r) := by
  unfold parseValue
  cases h with
  | lit s hop hquant his =>
    subst hquant
    rw [if_neg hop, if_neg (by decide)]
    cases inTree with
    | true =>
      obtain ⟨c, t, rfl, hc⟩ := hr
      obtain ⟨d, u, hd, -, hbrace, -⟩ := writeElement_head s (c :: t)
      have harray : scanArray.run (writeElement s ++ c :: t) = none := by
        refine bind_none ?_ _
        rw [hd]
        exact (bind_run (eat_neg (s := d :: u) fun h => hbrace (Option.some.inj h)) _).trans rfl
      rw [if_pos rfl]
      show (attempt scanArray >>= _).run (writeElement s ++ c :: t) = _
      rw [bind_run (attempt_none harray)]
      rw [bind_run (scanElement_write (forall_mem_of_all (by decide)) s hc t)]
      rfl
    | false =>
      obtain rfl : r = [] := hr
      rw [if_neg Bool.false_ne_true, List.append_nil, bind_run (run_takeRest _)]
      rfl
  | list items hop hne =>
    have hblank : ((writeElements items ++ [')'] ++ r).head?).any blank = false := by
      obtain ⟨c, t, hc, hblank, -⟩ := writeElements_head hne (')' :: r)
      rw [List.append_assoc, List.singleton_append, hc]
      exact hblank
    rw [if_pos hop, writeValue, List.cons_append, bind_run (skipSpaces_run rfl),
      bind_run (expect_self '(' _), bind_run (skipSpaces_run hblank), List.append_assoc,
      List.singleton_append, bind_run (parseElements_write (.inl rfl) hne r)]
    rfl
  | array items hop his hquant =>
    rw [if_neg hop, if_pos hquant, writeValue, List.cons_append, bind_run (expect_self _ _)]
    cases items with
    | nil =>
      rw [List.append_assoc]
      exact bind_run (eat_self _ _) _
    | cons s items =>
      have hne := List.cons_ne_nil s items
      obtain ⟨c, t, hc, -, hbrace⟩ := writeElements_head hne ('\x7d' :: r)
      rw [List.append_assoc, List.singleton_append, bind_run (eat_neg ?_),
        if_neg Bool.false_ne_true, bind_run (parseElements_write (.inr rfl) hne r)]
      · rfl
      · rw [hc]
        exact fun h => hbrace (Option.some.inj h)

theorem parseValue_spec (his : op = .is → quant = none)
    (h : (parseValue op quant inTree).run s = some (v, r)) :
    (∃ t, v = .lit t ∧ op ≠ .in ∧ quant = none)
      ∨ v.Fits op quant ∧ op ≠ .is := by
  unfold parseValue at h
  by_cases hop : op = .in
  · rw [if_pos hop] at h
    obtain ⟨_, t₁, -, h⟩ := bind_eq_some.mp h
    obtain ⟨_, t₂, -, h⟩ := bind_eq_some.mp h
    obtain ⟨_, t₃, -, h⟩ := bind_eq_some.mp h
    obtain ⟨items, t₄, hitems, h⟩ := bind_eq_some.mp h
    cases h
    exact .inr ⟨.list items hop (parseElements_ne_nil hitems), by rw [hop]; decide⟩
  · rw [if_neg hop] at h
    by_cases hquant : quant.isSome = true
    · have hnot : op ≠ .is := by
        intro hop
        rw [his hop] at hquant
        cases hquant
      rw [if_pos hquant] at h
      obtain ⟨_, t₁, -, h⟩ := bind_eq_some.mp h
      obtain ⟨b, t₂, -, h⟩ := bind_eq_some.mp h
      cases b with
      | true =>
        cases h
        exact .inr ⟨.array [] hop hnot hquant, hnot⟩
      | false =>
        obtain ⟨items, t₃, -, h⟩ := bind_eq_some.mp h
        cases h
        exact .inr ⟨.array items hop hnot hquant, hnot⟩
    · have hnone : quant = none := Option.not_isSome_iff_eq_none.mp hquant
      rw [if_neg hquant] at h
      cases inTree with
      | true =>
        rw [if_pos rfl] at h
        obtain ⟨o, t₁, -, h⟩ := bind_eq_some.mp h
        cases o with
        | some t =>
          cases h
          exact .inl ⟨t, rfl, hop, hnone⟩
        | none =>
          obtain ⟨t, t₂, -, h⟩ := bind_eq_some.mp h
          cases h
          exact .inl ⟨t, rfl, hop, hnone⟩
      | false =>
        rw [if_neg Bool.false_ne_true] at h
        obtain ⟨t, t₂, -, h⟩ := bind_eq_some.mp h
        cases h
        exact .inl ⟨t, rfl, hop, hnone⟩

/-! ## Conditions -/

/-- The modifier an operator takes. -/
inductive ModifierFits (op : Op) : Option Text → Option Quant → Prop
  | bare : ModifierFits op none none
  | config (m : Text) (hop : op.isFts = true) (hne : m ≠ []) (hbare : Bare nameBreak m) :
      ModifierFits op (some m) none
  | quant (q : Quant) (hop : op.quantifiable = true) : ModifierFits op none (some q)

theorem not_isFts_of_quantifiable (h : op.quantifiable = true) : op.isFts = false := by
  cases op <;> first | rfl | cases h

variable {config : Option Text}

theorem parseModifier_write (h : ModifierFits op config quant) (r : Text) :
    (parseModifier op).run (writeConfig config ++ (writeQuant quant ++ '.' :: r))
      = some ((config, quant), '.' :: r) := by
  unfold parseModifier
  have hquant : writeQuant none = [] := rfl
  cases h with
  | bare =>
    rw [writeConfig, hquant, List.nil_append, List.nil_append, bind_run (run_peek _), if_neg ?_]
    · rfl
    · exact fun h => absurd (Option.some.inj h.1) (by decide)
  | config m hop hne hbare =>
    have hhead : (writeConfig (some m) ++ (writeQuant none ++ '.' :: r)).head? = some '(' := rfl
    have hname := scanName_bare hbare (r := ')' :: '.' :: r)
      (NameEnds.cons (by decide) (by decide) _)
    rw [bind_run (run_peek _), if_pos ⟨hhead, .inl hop⟩, bind_run (run_advance 1 _)]
    rw [writeConfig, List.cons_append, List.append_assoc, List.drop_succ_cons, List.drop_zero]
    rw [hquant, List.nil_append, List.singleton_append, bind_run hname]
    rw [if_pos ⟨hop, hne⟩, pure_bind, bind_run (expect_self ')' _)]
    rfl
  | quant q hop =>
    have hfts : ∀ m : Text, ¬ (op.isFts = true ∧ m ≠ []) := by
      rintro m ⟨hf, -⟩
      rw [not_isFts_of_quantifiable hop] at hf
      cases hf
    have hhead : (writeConfig none ++ (writeQuant (some q) ++ '.' :: r)).head? = some '(' := by
      cases q <;> rfl
    rw [bind_run (run_peek _), if_pos ⟨hhead, .inr hop⟩, bind_run (run_advance 1 _)]
    have hends : NameEnds nameBreak (')' :: '.' :: r) := NameEnds.cons (by decide) (by decide) _
    cases q with
    | any =>
      have hname := scanName_bare (s := "any".toList) ⟨forall_mem_of_all (by decide), by decide⟩ hends
      refine (bind_run hname _).trans ?_
      rw [if_neg (hfts _), if_pos ⟨rfl, hop⟩, pure_bind, bind_run (expect_self ')' _)]
      rfl
    | all =>
      have hname := scanName_bare (s := "all".toList) ⟨forall_mem_of_all (by decide), by decide⟩ hends
      refine (bind_run hname _).trans ?_
      rw [if_neg (hfts _), if_neg (fun h => absurd h.1 (by decide)), if_pos ⟨rfl, hop⟩, pure_bind,
        bind_run (expect_self ')' _)]
      rfl

theorem parseModifier_spec (h : (parseModifier op).run s = some ((config, quant), r)) :
    ModifierFits op config quant := by
  obtain ⟨c, t₁, -, h⟩ := bind_eq_some.mp h
  split at h
  · obtain ⟨_, t₂, -, h⟩ := bind_eq_some.mp h
    obtain ⟨m, t₃, hm, h⟩ := bind_eq_some.mp h
    by_cases hfts : op.isFts = true ∧ m ≠ []
    · rw [if_pos hfts, pure_bind] at h
      obtain ⟨_, t₄, -, h⟩ := bind_eq_some.mp h
      cases h
      exact .config m hfts.1 hfts.2 (scanName_spec hm)
    · rw [if_neg hfts] at h
      by_cases hany : m = "any".toList ∧ op.quantifiable = true
      · rw [if_pos hany, pure_bind] at h
        obtain ⟨_, t₄, -, h⟩ := bind_eq_some.mp h
        cases h
        exact .quant _ hany.2
      · rw [if_neg hany] at h
        by_cases hall : m = "all".toList ∧ op.quantifiable = true
        · rw [if_pos hall, pure_bind] at h
          obtain ⟨_, t₄, -, h⟩ := bind_eq_some.mp h
          cases h
          exact .quant _ hall.2
        · rw [if_neg hall, fail_bind] at h
          cases h
  · cases h
    exact .bare

/-- What is true of the operator half of a condition that parses. -/
structure Cond.Fits (c : Cond) : Prop where
  modifier : ModifierFits c.op c.config c.quant
  value : c.value.Fits c.op c.quant

theorem ModifierFits.quantifiable
    (h : ModifierFits op config quant) (hop : op.quantifiable = false) : quant = none := by
  cases h with
  | bare => rfl
  | config => rfl
  | quant q hq =>
    rw [hop] at hq
    cases hq

theorem isValue_spec {w : Value} (h : (isValue v).run s = some (w, r)) :
    ∃ t, w = .lit t ∧ t ∈ isValues := by
  unfold isValue at h
  cases v with
  | lit t =>
    dsimp only at h
    split at h
    · rename_i ht
      cases h
      exact ⟨_, rfl, ht⟩
    · cases h
  | list items => cases h
  | array items => cases h

theorem isValue_run {t : Text} (ht : t ∈ isValues) (r : Text) :
    (isValue (.lit t)).run r = some (.lit t, r) := by
  have hlower : ∀ t ∈ isValues, t.map Char.toLower = t := by decide
  unfold isValue
  simp only [hlower t ht, ht, if_true, run_pure]

theorem parse_name (op : Op) : Op.parse op.name = some op := by
  cases op <;> decide

theorem bare_opName (op : Op) : Bare nameBreak op.name := by
  cases op <;> exact ⟨forall_mem_of_all (by decide), by decide⟩

theorem not_prefix_opName (op : Op) (r : Text) : ¬ "not.".toList <+: op.name ++ r := by
  have hname : op.name.take 2 ≠ "no".toList ∧ 2 ≤ op.name.length := by
    cases op <;> decide
  rintro ⟨t, ht⟩
  have htake := congrArg (List.take 2) ht
  rw [List.take_append_of_le_length hname.2] at htake
  exact hname.1 (htake.symm.trans rfl)

theorem parseCondRhs_write {c : Cond} (h : c.Fits) (hr : ValueEnds inTree r) :
    (parseCondRhs c.field inTree).run (writeRhs c (!inTree) ++ r) = some (c, r) := by
  obtain ⟨field, negated, op, quant, config, value⟩ := c
  obtain ⟨hmod, hval⟩ := h
  dsimp only at hmod hval
  let tail := writeConfig config ++ (writeQuant quant ++ '.' :: (writeValue (!inTree) value ++ r))
  have htext : writeRhs ⟨field, negated, op, quant, config, value⟩ (!inTree) ++ r
      = writeNot negated ++ (op.name ++ tail) := by
    simp only [writeRhs, List.append_assoc, List.cons_append, List.nil_append, tail]
  have hnot : (eatStr "not.".toList).run (writeNot negated ++ (op.name ++ tail))
      = some (negated, op.name ++ tail) := by
    cases negated with
    | true => exact eatStr_self _ _
    | false => exact eatStr_neg (not_prefix_opName op tail)
  have hends : NameEnds nameBreak tail := by
    cases hmod with
    | bare => exact NameEnds.cons (c := '.') (by decide) (by decide) _
    | config m => exact NameEnds.cons (c := '(') (by decide) (by decide) _
    | quant q => cases q <;> exact NameEnds.cons (c := '(') (by decide) (by decide) _
  have hname := scanName_bare (bare_opName op) hends
  have hmodifier := parseModifier_write hmod (writeValue (!inTree) value ++ r)
  have hvalue := parseValue_write hval (fun ho => hmod.quantifiable (by rw [ho]; rfl)) hr
  unfold parseCondRhs
  rw [htext, bind_run hnot, bind_run hname, parse_name]
  rw [bind_run hmodifier]
  rw [bind_run (expect_self '.' _), bind_run hvalue]
  by_cases his : op = .is
  · obtain ⟨t, rfl, ht⟩ : ∃ t, value = .lit t ∧ t ∈ isValues := by
      cases hval with
      | lit t hop hquant hval => exact ⟨t, rfl, hval his⟩
      | list items hop => exact absurd (his.symm.trans hop) (by decide)
      | array items hop hne => exact absurd his hne
    rw [if_pos his, bind_run (isValue_run ht r)]
    rfl
  · rw [if_neg his]
    rfl

theorem parseCondRhs_spec {f : Field} {c : Cond}
    (h : (parseCondRhs f inTree).run s = some (c, r)) : c.field = f ∧ c.Fits := by
  obtain ⟨negated, t₁, -, h⟩ := bind_eq_some.mp h
  obtain ⟨opname, t₂, -, h⟩ := bind_eq_some.mp h
  cases hop : Op.parse opname with
  | none =>
    rw [hop] at h
    cases h
  | some op =>
    rw [hop] at h
    obtain ⟨⟨config, quant⟩, t₃, hmod, h⟩ := bind_eq_some.mp h
    obtain ⟨_, t₄, -, h⟩ := bind_eq_some.mp h
    obtain ⟨v, t₅, hrun, h⟩ := bind_eq_some.mp h
    have hmod := parseModifier_spec hmod
    have hv := parseValue_spec (fun ho => hmod.quantifiable (by rw [ho]; rfl)) hrun
    clear hrun
    by_cases his : op = .is
    · rw [if_pos his] at h
      obtain ⟨w, t₆, hw, h⟩ := bind_eq_some.mp h
      cases h
      obtain ⟨t, rfl, ht⟩ := isValue_spec hw
      rcases hv with ⟨_, -, hin, hquant⟩ | ⟨-, hnot⟩
      · exact ⟨rfl, hmod, .lit t hin hquant fun _ => ht⟩
      · exact absurd his hnot
    · rw [if_neg his, pure_bind] at h
      cases h
      rcases hv with ⟨t, rfl, hin, hquant⟩ | ⟨hfits, -⟩
      · exact ⟨rfl, hmod, .lit t hin hquant fun h => absurd h his⟩
      · exact ⟨rfl, hmod, hfits⟩

/-! ## Trees -/

theorem skipSpaces_le (h : skipSpaces.run s = some ((), r)) : r.length ≤ s.length :=
  (skipSpaces.suffix h).length_le

theorem openGroup_lt (h : openGroup.run s = some ((), r)) : r.length < s.length := by
  obtain ⟨_, t₁, h₁, h⟩ := bind_eq_some.mp h
  obtain ⟨_, t₂, h₂, h⟩ := bind_eq_some.mp h
  have hle₁ := skipSpaces_le h₁
  have hle₂ := skipSpaces_le h
  rw [expect_eq h₂, List.length_cons] at hle₁
  omega

theorem groupTurn_contracts : Contracts groupTurn := by
  intro n p q h
  have hbody : Alike (n + 1) (openGroup >>= fun _ => p) (openGroup >>= fun _ => q) :=
    Alike.behind fun s _ r hr => .inl ⟨h, openGroup_lt hr⟩
  refine Alike.bind ?_ fun kid => Alike.bind (Alike.refl _ _) fun _ =>
    Alike.behind fun s b r hr => ?_
  · refine Alike.bind (Alike.refl _ _) fun head => ?_
    cases head with
    | none => exact Alike.refl _ _
    | some head => exact Alike.bind hbody fun _ => Alike.refl _ _
  · rcases eat_cases hr with ⟨rfl, rfl⟩ | ⟨rfl, -, -⟩
    · exact .inl ⟨Alike.bind (Alike.refl _ _) fun _ => Alike.bind h fun _ => Alike.refl _ _,
        Nat.lt_succ_self _⟩
    · exact .inr rfl

theorem groupItems_eq : groupItems = groupTurn groupItems := fix_eq groupTurn_contracts

theorem parseGroupBody_eq : parseGroupBody = openGroup >>= fun _ => groupItems := rfl

mutual

/-- What is true of a node that parses. -/
def Node.Fits : Node → Prop
  | .group _ _ kids => kids ≠ [] ∧ KidsFit kids
  | .cond c => c.field.embed = [] ∧ c.field.column ≠ [] ∧ c.Fits

def KidsFit : List Node → Prop
  | [] => True
  | kid :: kids => kid.Fits ∧ KidsFit kids

end

theorem groupHead_write (op : LogicOp) (negated : Bool) (r : Text) :
    groupHead.run (writeNot negated ++ (op.name ++ '(' :: r)) = some (some (op, negated), '(' :: r) := by
  have hnot : (eatStr "not.".toList).run (writeNot negated ++ (op.name ++ '(' :: r))
      = some (negated, op.name ++ '(' :: r) := by
    cases negated with
    | true => exact eatStr_self _ _
    | false => cases op <;> rfl
  have hbare : Bare nameBreak op.name := by
    cases op <;> exact ⟨forall_mem_of_all (by decide), by decide⟩
  have hname := scanName_bare hbare (NameEnds.cons (c := '(') (by decide) (by decide) r)
  refine attempt_run ?_
  rw [bind_run hnot, bind_run hname]
  cases op with
  | and =>
    rw [if_pos (by decide), pure_bind, bind_run (skipSpaces_run rfl), bind_run (run_peek _)]
    rfl
  | or =>
    rw [if_neg (by decide), if_pos (by decide), pure_bind, bind_run (skipSpaces_run rfl),
      bind_run (run_peek _)]
    rfl

/-- The field of a condition is not taken for the head of a group. -/
theorem groupHead_field (hr : NameEnds nameBreak r) :
    groupHead.run (writeName n ++ r) = some (none, writeName n ++ r) := by
  have hscan : ∃ m t, (scanName nameBreak).run (writeName n ++ r) = some (m, t)
      ∧ m ∉ ["or".toList, "and".toList, "not".toList] ∧ trim m = m := by
    unfold writeName
    cases hq : nameNeedsQuotes n with
    | true => exact ⟨[], _, rfl, by decide, rfl⟩
    | false =>
      obtain ⟨-, hbare, htrim, hwords⟩ := bare_of_unquoted hq
      exact ⟨n, r, scanName_bare hbare hr, hwords, htrim⟩
  obtain ⟨m, t, hm, hwords, htrim⟩ := hscan
  have hnot : ¬ "not.".toList <+: writeName n ++ r := by
    rintro ⟨u, hu⟩
    have hread : (scanName nameBreak).run ("not".toList ++ '.' :: u) = some ("not".toList, '.' :: u) :=
      scanName_bare ⟨forall_mem_of_all (by decide), by decide⟩ (NameEnds.cons (by decide) (by decide) u)
    have hsame : ("not".toList ++ '.' :: u) = writeName n ++ r := hu
    rw [hsame, hm] at hread
    obtain ⟨rfl, -⟩ := Prod.mk.inj (Option.some.inj hread)
    exact hwords (by decide)
  simp only [List.mem_cons, List.not_mem_nil, or_false, not_or] at hwords
  refine attempt_none ?_
  rw [bind_run (eatStr_neg hnot), bind_run hm, htrim, if_neg hwords.2.1, if_neg hwords.1]
  rfl

theorem parseCondition_write {c : Cond} (hembed : c.field.embed = []) (hcolumn : c.field.column ≠ [])
    (h : c.Fits) (hr : ValueEnds true r) (body : Cur (List Node)) :
    (parseItem body).run (writeNode (.cond c) ++ r) = some (.cond c, r) := by
  have htext : writeNode (.cond c) ++ r = writeName c.field.column
      ++ (writePath c.field.path ++ '.' :: (writeRhs c false ++ r)) := by
    simp only [writeNode, writeField, writeEmbed, hembed, List.flatMap_nil, List.nil_append,
      List.append_assoc, List.cons_append]
  have hdot : SegmentEnds ('.' :: (writeRhs c false ++ r)) := .inr ⟨_, rfl⟩
  have hfield : (⟨[], c.field.column, c.field.path⟩ : Field) = c.field := by
    rw [← hembed]
  have hrhs : (parseCondRhs c.field true).run (writeRhs c false ++ r) = some (c, r) :=
    parseCondRhs_write h hr
  unfold parseItem
  rw [htext, bind_run (groupHead_field (nameEnds_path c.field.path hdot.name))]
  unfold parseCondition
  rw [bind_run (parseSegment_write hcolumn c.field.path hdot), bind_run (expect_self '.' _), hfield,
    bind_run hrhs]
  rfl

theorem writeKids_cons (kid kid' : Node) (kids : List Node) :
    writeKids (kid :: kid' :: kids) = writeNode kid ++ ',' :: writeKids (kid' :: kids) := by
  rw [writeKids]
  exact List.cons_ne_nil _ _

theorem writeNot_head (negated : Bool) (op : LogicOp) (r : Text) :
    ((writeNot negated ++ (op.name ++ r)).head?).any blank = false := by
  cases negated <;> cases op <;> rfl

theorem writeNode_head {n : Node} (h : n.Fits) (r : Text) :
    ((writeNode n ++ r).head?).any blank = false := by
  cases n with
  | group op negated kids =>
    rw [writeNode, List.append_assoc, List.append_assoc]
    exact writeNot_head negated op _
  | cond c =>
    obtain ⟨hembed, hcolumn, -⟩ := h
    rw [writeNode, writeField, writeEmbed, hembed, List.flatMap_nil, List.nil_append, writeName]
    cases hq : nameNeedsQuotes c.field.column with
    | true => rfl
    | false =>
      obtain ⟨hne, -, htrim, -⟩ := bare_of_unquoted hq
      have hhead := head_of_trim htrim
      cases hc : c.field.column with
      | nil => exact absurd hc hne
      | cons d column =>
        rw [hc] at hhead
        exact hhead

theorem writeKids_head {kids : List Node} (hne : kids ≠ []) (h : KidsFit kids) (r : Text) :
    ((writeKids kids ++ r).head?).any blank = false := by
  match kids, hne, h with
  | [kid], _, h => exact writeNode_head h.1 r
  | kid :: kid' :: kids, _, h =>
    rw [writeKids_cons, List.append_assoc]
    exact writeNode_head h.1 _

theorem valueEnds_comma (r : Text) : ValueEnds true (',' :: r) := ⟨_, r, rfl, by decide⟩

theorem valueEnds_close (r : Text) : ValueEnds true (')' :: r) := ⟨_, r, rfl, by decide⟩

theorem ValueEnds.blank (h : ValueEnds true r) : r.head?.any blank = false := by
  obtain ⟨c, t, rfl, hc⟩ := h
  simp only [List.mem_cons, List.not_mem_nil, or_false] at hc
  rcases hc with rfl | rfl <;> rfl

mutual

theorem parseItem_write : ∀ (n : Node), n.Fits → ∀ {r : Text}, ValueEnds true r →
    (parseItem (openGroup >>= fun _ => groupItems)).run (writeNode n ++ r) = some (n, r)
  | .cond c, h, r, hr => parseCondition_write h.1 h.2.1 h.2.2 hr _
  | .group op negated kids, h, r, hr => by
      have hkids := groupItems_write kids h.1 h.2 hr.blank
      have htext : writeNode (.group op negated kids) ++ r
          = writeNot negated ++ (op.name ++ '(' :: (writeKids kids ++ ')' :: r)) := by
        simp only [writeNode, List.append_assoc, List.cons_append, List.nil_append]
      have hopen : openGroup.run ('(' :: (writeKids kids ++ ')' :: r))
          = some ((), writeKids kids ++ ')' :: r) := by
        have hhead := writeKids_head h.1 h.2 (')' :: r)
        unfold openGroup
        rw [bind_run (skipSpaces_run rfl), bind_run (expect_self '(' _)]
        exact skipSpaces_run hhead
      unfold parseItem
      rw [htext, bind_run (groupHead_write op negated _)]
      rw [bind_run ((bind_run hopen _).trans hkids)]
      rfl

theorem groupItems_write : ∀ (kids : List Node), kids ≠ [] → KidsFit kids → ∀ {r : Text},
    r.head?.any blank = false → groupItems.run (writeKids kids ++ ')' :: r) = some (kids, r)
  | [], hne, _, _, _ => absurd rfl hne
  | [kid], _, h, r, hr => by
      have hkid := parseItem_write kid h.1 (valueEnds_close r)
      rw [groupItems_eq, groupTurn, writeKids, bind_run hkid, bind_run (skipSpaces_run rfl),
        bind_run (eat_neg ?_), if_neg Bool.false_ne_true, bind_run (expect_self ')' _),
        bind_run (skipSpaces_run hr)]
      · rfl
      · exact fun h => absurd (Option.some.inj h) (by decide)
  | kid :: kid' :: kids, _, h, r, hr => by
      have hne := List.cons_ne_nil kid' kids
      have hrest := groupItems_write (kid' :: kids) hne h.2 hr
      have hkid := parseItem_write kid h.1 (valueEnds_comma (writeKids (kid' :: kids) ++ ')' :: r))
      have hhead := writeKids_head hne h.2 (')' :: r)
      rw [groupItems_eq, groupTurn, writeKids_cons, List.append_assoc, List.cons_append,
        bind_run hkid, bind_run (skipSpaces_run rfl), bind_run (eat_self ',' _), if_pos rfl,
        bind_run (skipSpaces_run hhead), bind_run hrest]
      rfl

end

theorem parseItem_spec {body : Cur (List Node)}
    (hbody : ∀ s kids r, body.run s = some (kids, r) → kids ≠ [] ∧ KidsFit kids) {n : Node} (h : (parseItem body).run s = some (n, r)) : n.Fits := by
  obtain ⟨head, t₁, -, h⟩ := bind_eq_some.mp h
  cases head with
  | some head =>
    obtain ⟨kids, t₂, hkids, h⟩ := bind_eq_some.mp h
    cases h
    exact hbody _ _ _ hkids
  | none =>
    obtain ⟨seg, t₂, hseg, h⟩ := bind_eq_some.mp h
    obtain ⟨_, t₃, -, h⟩ := bind_eq_some.mp h
    obtain ⟨c, t₄, hc, h⟩ := bind_eq_some.mp h
    cases h
    obtain ⟨hfield, hfits⟩ := parseCondRhs_spec hc
    refine ⟨?_, ?_, hfits⟩
    · rw [hfield]
    · rw [hfield]
      exact parseSegment_spec hseg

theorem groupItems_spec {kids : List Node} (h : groupItems.run s = some (kids, r)) :
    kids ≠ [] ∧ KidsFit kids := by
  refine fix_induct (P := fun _ kids _ => kids ≠ [] ∧ KidsFit kids) ?_ h
  clear h
  intro items ih s kids r hturn
  obtain ⟨kid, t₁, hkid, h⟩ := bind_eq_some.mp hturn
  have hfits := parseItem_spec (fun s kids r hrun => by
    obtain ⟨_, t, -, hrun⟩ := bind_eq_some.mp hrun
    exact ih _ _ _ hrun) hkid
  obtain ⟨_, t₂, -, h⟩ := bind_eq_some.mp h
  obtain ⟨b, t₃, -, h⟩ := bind_eq_some.mp h
  cases b with
  | true =>
    obtain ⟨_, t₄, -, h⟩ := bind_eq_some.mp h
    obtain ⟨kids', t₅, hkids, h⟩ := bind_eq_some.mp h
    cases h
    exact ⟨List.cons_ne_nil _ _, hfits, (ih _ _ _ hkids).2⟩
  | false =>
    obtain ⟨_, t₄, -, h⟩ := bind_eq_some.mp h
    obtain ⟨_, t₅, -, h⟩ := bind_eq_some.mp h
    cases h
    exact ⟨List.cons_ne_nil _ _, hfits, trivial⟩

/-! ## Pairs -/

/-- What is true of everything a pair parses to. -/
def Parsed.Fits : Parsed → Prop
  | .filter c => (Key.field c.field).Fits ∧ c.Fits
  | .logic embed op negated kids =>
    (Key.logic embed op negated).Fits ∧ kids ≠ [] ∧ KidsFit kids

theorem parsePair_spec {key value : Text} {p : Parsed} (h : parsePair key value = some p) :
    p.Fits := by
  unfold parsePair at h
  cases hkey : parseKey key with
  | none =>
    simp only [hkey] at h
    cases h
  | some k =>
    have hfits := parseKey_spec hkey
    cases k with
    | field f =>
      simp only [hkey] at h
      obtain ⟨⟨c, r⟩, hc, h⟩ := Option.map_eq_some_iff.mp h
      cases h
      obtain ⟨hfield, hcond⟩ := parseCondRhs_spec hc
      refine ⟨?_, hcond⟩
      rw [hfield]
      exact hfits
    | logic embed op negated =>
      simp only [hkey] at h
      obtain ⟨⟨kids, r⟩, hkids, h⟩ := Option.map_eq_some_iff.mp h
      cases h
      obtain ⟨_, t, -, hkids⟩ := bind_eq_some.mp hkids
      exact ⟨hfits, groupItems_spec hkids⟩

theorem parsePair_render {p : Parsed} (h : p.Fits) :
    parsePair (render p).1 (render p).2 = some p := by
  unfold parsePair
  cases p with
  | filter c =>
    obtain ⟨⟨hembed, hcolumn⟩, hcond⟩ := h
    have hends : ValueEnds false [] := rfl
    have hrhs : (parseCondRhs c.field false).run (writeRhs c true ++ []) = some (c, []) :=
      parseCondRhs_write hcond hends
    rw [List.append_nil] at hrhs
    simp only [render, parseKey_field hembed hcolumn, hrhs, Option.map_some]
  | logic embed op negated kids =>
    obtain ⟨hembed, hne, hkids⟩ := h
    have hitems := groupItems_write kids hne hkids (r := []) rfl
    have hopen : openGroup.run ('(' :: (writeKids kids ++ [')']))
        = some ((), writeKids kids ++ [')']) := by
      unfold openGroup
      rw [bind_run (skipSpaces_run rfl), bind_run (expect_self '(' _)]
      exact skipSpaces_run (writeKids_head hne hkids _)
    simp only [render, parseKey_logic hembed op negated]
    rw [parseGroupBody_eq, bind_run hopen, hitems, Option.map_some]

/-- Whatever a query pair parses to is what its rendering parses to, and
renders to the same pair again. -/
theorem filter_grammar {key value : Text} {p : Parsed} (h : parsePair key value = some p) :
    parsePair (render p).1 (render p).2 = some p
      ∧ (parsePair (render p).1 (render p).2).map render = some (render p) := by
  have hread := parsePair_render (parsePair_spec h)
  exact ⟨hread, by rw [hread, Option.map_some]⟩

/-- A tree with a nested group, a list, an array literal and a quoted name. -/
theorem filter_grammar_tree : ∃ p,
    parsePair "a.not.or".toList
        "( x.eq.1,not.and( \"or\"->2.in.(a, b) ,y.cs.\x7b1,2\x7d))".toList = some p
      ∧ render p = ("a.not.or".toList,
          "(x.eq.1,not.and(\"or\"->2.in.(a,\" b\"),y.cs.\"\x7b1,2\x7d\"))".toList)
      ∧ parsePair (render p).1 (render p).2 = some p := by
  have h : (parsePair "a.not.or".toList
      "( x.eq.1,not.and( \"or\"->2.in.(a, b) ,y.cs.\x7b1,2\x7d))".toList).map render
      = some ("a.not.or".toList,
          "(x.eq.1,not.and(\"or\"->2.in.(a,\" b\"),y.cs.\"\x7b1,2\x7d\"))".toList) := by
    decide +kernel
  obtain ⟨p, hp, hr⟩ := Option.map_eq_some_iff.mp h
  exact ⟨p, hp, hr, (filter_grammar hp).1⟩

end Zou.Rest
