import Zou.Realtime.Payload

/-!
# What a payload may be made of

First the recursion equation of `value`: an element of an array literal is
shorter than the literal, so the guard of the recursion is never taken.
Then the payload: what its columns, record and old record may name, and
that it is the same for two changes that agree on the cells the subscriber
may see.
-/

namespace Zou.Realtime

open Scanner

/-! ## Sizes of what is read -/

theorem fromUtf8_size {bs : List UInt8} {s : String} (h : fromUtf8 bs = some s) :
    s.utf8ByteSize = bs.length := by
  unfold fromUtf8 String.fromUTF8? at h
  split at h
  · cases h
    rfl
  · cases h

theorem fromUtf8_iff {bytes : List UInt8} {s : String} :
    fromUtf8 bytes = some s ↔ bytes = asBytes s := by
  unfold fromUtf8 String.fromUTF8? asBytes
  constructor
  · intro h
    split at h
    · cases h
      rfl
    · cases h
  · rintro rfl
    rw [dif_pos s.isValidUTF8]
    rfl

theorem asBytes_length (s : String) : (asBytes s).length = s.utf8ByteSize := rfl

theorem singleton_size (b : UInt8) : (String.singleton (Char.ofNat b.toNat)).utf8ByteSize ≤ 2 := by
  have hb := b.toNat_lt
  rw [String.utf8ByteSize_singleton]
  have hv : (Char.ofNat b.toNat).val.toNat = b.toNat := by
    have hvalid : b.toNat.isValidChar := .inl (by omega)
    rw [Char.ofNat, dif_pos hvalid]
    rfl
  have hle : (Char.ofNat b.toNat).val ≤ 0x7ff := UInt32.le_iff_toNat_le.mpr (by
    rw [hv]
    show b.toNat ≤ 2047
    omega)
  by_cases h : (Char.ofNat b.toNat).val ≤ 0x7f
  · rw [Char.utf8Size_eq_one_iff.mpr h]
    omega
  · exact Nat.le_of_eq (Char.utf8Size_eq_two_iff.mpr ⟨UInt32.not_le.mp h, hle⟩)

theorem readUntil_size {stop : List UInt8 → Bool} {s a r : List UInt8}
    (h : (readUntil stop).run s = some (a, r)) : a.length + r.length = s.length := by
  rw [(readUntil_spec h).1, List.length_append]

/-- Where the front is no stop, reading up to one steps over it. -/
theorem span_cons {stop : List UInt8 → Bool} {b : UInt8} {s : List UInt8}
    (h : stop (b :: s) = false) : (spanUntil stop (b :: s)).2.length ≤ s.length := by
  rw [spanUntil, h, if_neg Bool.false_ne_true]
  have happ := congrArg List.length (spanUntil_append stop s)
  rw [List.length_append] at happ
  show (spanUntil stop s).2.length ≤ _
  omega

theorem quoted_contracts : Contracts quotedTurn := by
  intro n p q h s hs
  cases s with
  | nil => rfl
  | cons b s =>
    rw [List.length_cons] at hs
    simp only [quotedTurn, run_bind, run_peek, List.head?_cons, Option.bind_some]
    by_cases hb : b = BACKSLASH
    · rw [if_pos hb, if_pos hb]
      cases s with
      | nil => rfl
      | cons c s =>
        rw [List.length_cons] at hs
        exact Alike.bind (f := fun w => pure (String.singleton (Char.ofNat c.toNat) ++ w)) h
          (fun _ => Alike.refl n _) s (by omega)
    · rw [if_neg hb, if_neg hb]
      split
      · rfl
      · rename_i hq
        have hspan : (spanUntil quoteStop (b :: s)).2.length ≤ s.length :=
          span_cons (by simp [quoteStop, hb, hq])
        rw [run_bind, run_bind, run_readUntil, Option.bind_some, Option.bind_some]
        cases fromUtf8 (spanUntil quoteStop (b :: s)).1 with
        | none => rfl
        | some t => exact Alike.bind h (fun a => Alike.refl n _) _ (by omega)

/-- The recursion equation of a quoted element. -/
theorem quoted_eq : fix quotedTurn = quotedTurn (fix quotedTurn) := fix_eq quoted_contracts

/-- A quoted element is no longer than what was read, less the quote. -/
theorem quoted_size {s r : List UInt8} {t : String}
    (h : (fix quotedTurn).run s = some (t, r)) : t.utf8ByteSize + r.length ≤ s.length := by
  refine fix_induct (P := fun s t r => t.utf8ByteSize + r.length ≤ s.length) ?_ h
  intro p hp s t r h
  cases s with
  | nil => cases h
  | cons b s =>
    simp only [quotedTurn, run_bind, run_peek, List.head?_cons, Option.bind_some] at h
    by_cases hb : b = BACKSLASH
    · rw [if_pos hb] at h
      cases s with
      | nil => cases h
      | cons c s =>
        obtain ⟨u, r', hu, hret⟩ := bind_eq_some (p := p)
          (f := fun w => pure (String.singleton (Char.ofNat c.toNat) ++ w)) |>.mp h
        cases hret
        have hle := hp s u r hu
        have hc := singleton_size c
        rw [String.utf8ByteSize_append, List.length_cons, List.length_cons]
        omega
    · rw [if_neg hb] at h
      split at h
      · cases h
        rw [List.length_cons]
        exact Nat.le_trans (Nat.le_of_eq (Nat.zero_add _)) (Nat.le_succ _)
      · obtain ⟨run, r₁, hrun, h⟩ := bind_eq_some.mp h
        have hlen := readUntil_size hrun
        cases hf : fromUtf8 run with
        | none =>
          rw [hf] at h
          cases h
        | some w =>
          rw [hf] at h
          obtain ⟨u, r', hu, hret⟩ := bind_eq_some.mp h
          cases hret
          have hle := hp r₁ u r hu
          rw [String.utf8ByteSize_append, fromUtf8_size hf]
          omega

theorem element_size {delim : UInt8} {s r : List UInt8} {e : String × Bool}
    (h : (element delim).run s = some (e, r)) : e.1.utf8ByteSize + r.length ≤ s.length := by
  obtain ⟨a, r₁, hpeek, h⟩ := bind_eq_some.mp h
  cases hpeek
  split at h
  · obtain ⟨u, r₂, hadv, h⟩ := bind_eq_some.mp h
    cases hadv
    obtain ⟨t, r₃, hq, hret⟩ := bind_eq_some.mp h
    cases hret
    have hle : t.utf8ByteSize + r.length ≤ (s.drop 1).length := quoted_size hq
    rw [List.length_drop] at hle
    show t.utf8ByteSize + r.length ≤ s.length
    omega
  · obtain ⟨run, r₂, hrun, h⟩ := bind_eq_some.mp h
    have hlen : run.length + r₂.length = s.length := readUntil_size hrun
    cases hf : fromUtf8 run with
    | none =>
      rw [hf] at h
      cases h
    | some w =>
      rw [hf] at h
      cases h
      show w.utf8ByteSize + r.length ≤ s.length
      rw [fromUtf8_size hf]
      omega

/-! ## The recursion of values -/

/-- Behind the brace that opens it, a literal is read with what `more` does
on less. -/
theorem itemsWith_alike {n : Nat} {p q : Scanner UInt8 (List Value)} (h : Alike n p q) :
    Alike (n + 1) (itemsWith p) (itemsWith q) := by
  intro s hs
  cases he : (expect BRACE).run s with
  | none => rw [itemsWith, itemsWith, bind_none he, bind_none he]
  | some x =>
    obtain ⟨⟨⟩, r⟩ := x
    obtain rfl := expect_eq he
    rw [itemsWith, itemsWith, bind_run he, bind_run he]
    refine Alike.bind (Alike.refl n _) (fun b => ?_) r (by simpa using hs)
    cases b with
    | true => exact Alike.refl n _
    | false => exact Alike.bind h fun _ => Alike.refl n _

/-- Elements are read alike by two conversions that agree on all texts no
longer than what is left. -/
theorem itemsTurn_alike {n : Nat} {delim : UInt8} {conv conv' : String → Value}
    {p q : Scanner UInt8 (List Value)} (h : Alike n p q)
    (hconv : ∀ t : String, t.utf8ByteSize ≤ n → conv t = conv' t) :
    Alike (n + 1) (itemsTurn delim conv p) (itemsTurn delim conv' q) := by
  intro s hs
  have hitem : (item delim conv p).run s = (item delim conv' q).run s := by
    unfold item
    rw [run_bind, run_bind, run_peek, Option.bind_some, Option.bind_some]
    split
    · exact itemsWith_alike h s hs
    · rw [run_bind, run_bind]
      cases he : (element delim).run s with
      | none => rfl
      | some x =>
        have hsize := element_size (e := x.1) (r := x.2) he
        show some (itemOf conv x.1, x.2) = some (itemOf conv' x.1, x.2)
        unfold itemOf
        rw [hconv x.1.1 (by omega)]
  unfold itemsTurn
  rw [run_bind, run_bind, hitem]
  cases hr : (item delim conv' q).run s with
  | none => rfl
  | some x =>
    have hle := ((item delim conv' q).suffix hr).length_le
    show (peek >>= _).run x.2 = (peek >>= _).run x.2
    rw [run_bind, run_bind, run_peek, Option.bind_some, Option.bind_some]
    cases hx : x.2 with
    | nil => rfl
    | cons b r =>
      rw [hx, List.length_cons] at hle
      show Scanner.run (if b = delim then _ else _) _ = Scanner.run (if b = delim then _ else _) _
      split
      · exact Alike.bind (f := fun ws => pure (x.1 :: ws)) h (fun _ => Alike.refl n _) r (by omega)
      · rfl

theorem items_contracts (delim : UInt8) (conv : String → Value) :
    Contracts (itemsTurn delim conv) :=
  fun _ _ _ h => itemsTurn_alike h fun _ _ => rfl

/-- The recursion equation of the elements of a literal. -/
theorem items_eq (delim : UInt8) (conv : String → Value) :
    fix (itemsTurn delim conv) = itemsTurn delim conv (fix (itemsTurn delim conv)) :=
  fix_eq (items_contracts delim conv)

theorem items_congr (delim : UInt8) (conv conv' : String → Value) (body : List UInt8)
    (h : ∀ t : String, t.utf8ByteSize < body.length → conv t = conv' t) :
    (items delim conv).run body = (items delim conv').run body := by
  have hall : ∀ n, n < body.length → Alike (n + 1) (fix (itemsTurn delim conv))
      (fix (itemsTurn delim conv')) := by
    intro n
    induction n with
    | zero =>
      intro hn
      rw [items_eq, items_eq delim conv']
      refine itemsTurn_alike (fun s hs => absurd hs (Nat.not_lt_zero _)) fun t ht => h t ?_
      omega
    | succ n ih =>
      intro hn
      rw [items_eq, items_eq delim conv']
      exact itemsTurn_alike (ih (by omega)) fun t ht => h t (by omega)
  cases hb : body with
  | nil =>
    have hnil : ∀ more : Scanner UInt8 (List Value), (itemsWith more).run [] = none := fun _ => rfl
    exact (hnil _).trans (hnil _).symm
  | cons b r =>
    rw [hb] at hall
    exact itemsWith_alike (hall r.length (Nat.lt_succ_self _)) (b :: r) (by
      rw [List.length_cons]
      omega)

theorem arrayBody_length {bs body : List UInt8} (h : arrayBody bs = some body) :
    body.length ≤ bs.length := by
  unfold arrayBody at h
  split at h
  · have hsuffix := List.dropWhile_suffix (l := bs) fun b => decide (b ≠ 61)
    cases hd : bs.dropWhile fun b => decide (b ≠ 61) with
    | nil =>
      rw [hd] at h
      cases h
    | cons b r =>
      rw [hd] at h hsuffix
      cases h
      exact Nat.le_trans (Nat.le_succ _) hsuffix.length_le
  · cases h
    exact le_rfl

theorem value_array (serde : Serde) (types : Types) (text : String) (elem : UInt32) :
    value serde types text (.array elem) =
      array types (fun s => value serde types s (types.shape elem)) text elem := by
  rw [value]
  unfold array
  cases hb : arrayBody (asBytes text) with
  | none => rfl
  | some body =>
    have hlen := arrayBody_length hb
    rw [asBytes_length] at hlen
    have hrun := items_congr (((types.get elem).map Kind.delim).getD 44)
      (fun s => if _h : s.utf8ByteSize < text.utf8ByteSize then
        value serde types s (types.shape elem) else .string s)
      (fun s => value serde types s (types.shape elem)) body
      (fun t ht => dif_pos (Nat.lt_of_lt_of_le ht hlen))
    simp only [hrun]

/-! ## What a row names -/

theorem getD_eq_true {bs : List Bool} {i : Nat} : bs.getD i false = true ↔ bs[i]? = some true := by
  rw [List.getD_eq_getElem?_getD]
  cases bs[i]? with
  | none => simp
  | some b => simp

section Rows

variable {serde : Serde} {relation : Relation} {cells cells' : List Cell}
  {fallback fallback' : Option (List Cell)} {kept : Option (List Bool)} {types : Types}
  {seen : Seen} {large : Bool}

theorem rowValue_isSome {column : Column} {i : Nat}
    (h : (rowValue serde cells fallback kept types seen large column i).isSome) :
    (∀ ks, kept = some ks → ks[i]? = some true) ∧ seen.columns[i]? = some true := by
  unfold rowValue at h
  split at h
  · cases h
  · rename_i hkept
    split at h
    · cases h
    · rename_i hseen
      refine ⟨?_, getD_eq_true.mp (by simpa using hseen)⟩
      rintro ks rfl
      exact getD_eq_true.mp (by simpa using hkept)

/-- The keys of a map that is built up, when every step adds only keys that
answer for themselves. -/
theorem mem_keys_foldl {α : Type} {k : String} {P : α → Prop} {step : Map → α → Map}
    (hstep : ∀ out x, k ∈ (step out x).keys → k ∈ out.keys ∨ P x) :
    ∀ (xs : List α) (m : Map), k ∈ (xs.foldl step m).keys → k ∈ m.keys ∨ ∃ x ∈ xs, P x := by
  intro xs
  induction xs with
  | nil => exact fun m h => .inl h
  | cons x xs ih =>
    intro m h
    rcases ih _ h with h | ⟨y, hy, hP⟩
    · exact (hstep m x h).imp_right fun hP => ⟨x, List.mem_cons_self, hP⟩
    · exact .inr ⟨y, .tail _ hy, hP⟩

/-- A row names only columns that are kept and that the subscriber may
select. -/
theorem row_keys {k : String}
    (h : k ∈ (row serde relation cells fallback kept types seen large).keys) :
    ∃ (i : Nat) (column : Column), relation.columns[i]? = some column ∧ column.name = k ∧
      (∀ ks, kept = some ks → ks[i]? = some true) ∧ seen.columns[i]? = some true := by
  have hstep := mem_keys_foldl (k := k) (P := fun x : Column × Nat => x.1.name = k ∧
    (rowValue serde cells fallback kept types seen large x.1 x.2).isSome) ?_ _ _ h
  · rcases hstep with h | ⟨x, hx, hname, hv⟩
    · cases h
    · exact ⟨x.2, x.1, List.mem_zipIdx_iff_getElem?.mp hx, hname, rowValue_isSome hv⟩
  · intro out x h
    cases hv : rowValue serde cells fallback kept types seen large x.1 x.2 with
    | none =>
      rw [hv] at h
      exact .inl h
    | some v =>
      rw [hv] at h
      exact (Map.mem_keys_insert h).elim (fun heq => .inr ⟨heq.symm, rfl⟩) .inl

/-- A row is the same for two runs of cells that agree where the row looks. -/
theorem row_congr
    (h : ∀ i, (∀ ks, kept = some ks → ks[i]? = some true) → seen.columns[i]? = some true →
      rowCell cells fallback i = rowCell cells' fallback' i) :
    row serde relation cells fallback kept types seen large =
      row serde relation cells' fallback' kept types seen large := by
  have hvalue : ∀ (column : Column) i,
      rowValue serde cells fallback kept types seen large column i =
        rowValue serde cells' fallback' kept types seen large column i := by
    intro column i
    unfold rowValue
    split
    · rfl
    · rename_i hkept
      split
      · rfl
      · rename_i hseen
        rw [h i ?_ (getD_eq_true.mp (by simpa using hseen))]
        rintro ks rfl
        exact getD_eq_true.mp (by simpa using hkept)
  unfold row
  simp only [hvalue]

end Rows

/-! ## What a payload names -/

theorem cut_at (columns : List Column) {seen : Seen} (f : Column → Bool) {i : Nat}
    (hkeys : seen.keysOnly = true)
    (h : (columns.zipIdx.map fun x =>
      f x.1 && (!seen.keysOnly || seen.keys.getD x.2 false))[i]? = some true) :
    seen.keys[i]? = some true := by
  rw [List.getElem?_map, List.getElem?_zipIdx] at h
  obtain ⟨x, hx, hcut⟩ := Option.map_eq_some_iff.mp h
  obtain ⟨column, -, rfl⟩ := Option.map_eq_some_iff.mp hx
  rw [hkeys, Bool.and_eq_true, Bool.not_true, Bool.false_or, Nat.zero_add] at hcut
  exact getD_eq_true.mp hcut.2

/-- The security cut of `keep`. -/
theorem keep_at {change : Change} {seen : Seen} {i : Nat} (hkeys : seen.keysOnly = true)
    (h : ∀ ks, keep change seen = some ks → ks[i]? = some true) : seen.keys[i]? = some true := by
  refine cut_at change.relation.columns (fun column => !change.oldKey || column.key)
    hkeys (h _ ?_)
  rw [keep, hkeys, Bool.not_true, Bool.and_false, if_neg Bool.false_ne_true]

/-- A name the payload may mention: of a column at which `p` holds. -/
def Names (relation : Relation) (p : Nat → Prop) (name : String) : Prop :=
  ∃ (i : Nat) (column : Column), relation.columns[i]? = some column ∧ column.name = name ∧ p i

/-- The columns the subscriber may select. -/
def Seen.May (seen : Seen) (i : Nat) : Prop := seen.columns[i]? = some true

/-- The columns of an old record: cut to the key as well where it is. -/
def Seen.MayOld (seen : Seen) (i : Nat) : Prop :=
  seen.May i ∧ (seen.keysOnly = true → seen.keys[i]? = some true)

theorem old_keys {serde : Serde} {change : Change} {types : Types} {seen : Seen} {large : Bool}
    {k : String} (h : k ∈ (old serde change types seen large).keys) :
    Names change.relation seen.MayOld k := by
  unfold old at h
  split at h
  · obtain ⟨i, column, hcolumn, hname, hkept, hmay⟩ := row_keys h
    exact ⟨i, column, hcolumn, hname, hmay, fun hkeys => keep_at hkeys hkept⟩
  · split at h
    · obtain ⟨i, column, hcolumn, hname, hkept, hmay⟩ := row_keys h
      exact ⟨i, column, hcolumn, hname, hmay, fun hkeys => cut_at _ Column.key hkeys (hkept _ rfl)⟩
    · cases h

theorem record_keys {serde : Serde} {change : Change} {types : Types} {seen : Seen}
    {large : Bool} {k : String} (h : k ∈ (record serde change types seen large).keys) :
    Names change.relation seen.May k := by
  obtain ⟨i, column, hcolumn, hname, -, hmay⟩ := row_keys h
  exact ⟨i, column, hcolumn, hname, hmay⟩

theorem columns_names {relation : Relation} {types : Types} {seen : Seen} {one : Value}
    (h : one ∈ (columns relation types seen).items) :
    ∃ name, one.get "name" = some (.string name) ∧ Names relation seen.May name := by
  obtain ⟨x, hx, rfl⟩ := List.mem_map.mp h
  obtain ⟨hmem, hseen⟩ := List.mem_filter.mp hx
  exact ⟨x.1.name, by simp [Map.get?], x.2, x.1, List.mem_zipIdx_iff_getElem?.mp hmem, rfl,
    getD_eq_true.mp hseen⟩

/-- A payload that mentions only what the subscriber may see. -/
structure Confined (change : Change) (seen : Seen) (payload : Value) : Prop where
  columns : ∀ cs, payload.get "columns" = some cs → ∀ one ∈ cs.items,
    ∃ name, one.get "name" = some (.string name) ∧ Names change.relation seen.May name
  record : ∀ r, payload.get "record" = some r → ∀ k ∈ r.keys, Names change.relation seen.May k
  oldRecord : ∀ r, payload.get "old_record" = some r → ∀ k ∈ r.keys,
    Names change.relation seen.MayOld k

theorem data_get (serde : Serde) (change : Change) (types : Types) (seen : Seen) :
    (∀ cs, (data serde change types seen).get "columns" = some cs →
      cs = .array [] ∨ cs = columns change.relation types seen) ∧
    (∀ r, (data serde change types seen).get "record" = some r →
      r = .object [] ∨ r = record serde change types seen (MOST < weight change)) ∧
    (∀ r, (data serde change types seen).get "old_record" = some r →
      r = .object [] ∨ r = old serde change types seen (MOST < weight change)) := by
  unfold data
  cases seen.error with
  | some why => cases change.op <;> simp [Map.get?_insert, Map.get?]
  | none => cases change.op <;> simp [Map.get?_insert, Map.get?]

theorem data_confined (serde : Serde) (change : Change) (types : Types) (seen : Seen) :
    Confined change seen (data serde change types seen) := by
  obtain ⟨hcolumns, hrecord, hold⟩ := data_get serde change types seen
  refine ⟨fun cs h one hone => ?_, fun r h k hk => ?_, fun r h k hk => ?_⟩
  · rcases hcolumns cs h with rfl | rfl
    · cases hone
    · exact columns_names hone
  · rcases hrecord r h with rfl | rfl
    · cases hk
    · exact record_keys hk
  · rcases hold r h with rfl | rfl
    · cases hk
    · exact old_keys hk

/-! ## Two changes a subscriber cannot tell apart -/

/-- Whether the subscriber is shown the cells at a position: a delete cut to
the key shows those of the key. -/
def Seen.Shows (seen : Seen) (op : Op) (i : Nat) : Prop :=
  seen.May i ∧ (op = .delete → seen.keysOnly = true → seen.keys[i]? = some true)

/-- Two changes of one shape that agree on every cell shown. -/
structure SameView (seen : Seen) (change change' : Change) : Prop where
  relation : change.relation = change'.relation
  op : change.op = change'.op
  commitTs : change.commitTs = change'.commitTs
  oldKey : change.oldKey = change'.oldKey
  recordLength : change.record.length = change'.record.length
  oldLength : change.old.map List.length = change'.old.map List.length
  record : ∀ i, seen.Shows change.op i → change.record[i]? = change'.record[i]?
  old : ∀ i, seen.Shows change.op i →
    (change.old.bind fun cells => cells[i]?) = change'.old.bind fun cells => cells[i]?
  large : MOST < weight change ↔ MOST < weight change'

section SameView

variable {serde : Serde} {types : Types} {seen : Seen} {change change' : Change} {large : Bool}

theorem rowCell_congr {cells cells' : List Cell} {fallback fallback' : Option (List Cell)}
    {i : Nat} (h : cells[i]? = cells'[i]?)
    (hback : (fallback.bind fun old => old[i]?) = fallback'.bind fun old => old[i]?) :
    rowCell cells fallback i = rowCell cells' fallback' i := by
  unfold rowCell
  rw [h, hback]

theorem SameView.record_eq (h : SameView seen change change') (hop : change.op ≠ .delete) :
    Realtime.record serde change types seen large =
      Realtime.record serde change' types seen large := by
  unfold Realtime.record
  rw [← h.relation]
  refine row_congr fun i _ hmay => ?_
  have hshows : seen.Shows change.op i := ⟨hmay, fun hdelete => absurd hdelete hop⟩
  exact rowCell_congr (h.record i hshows) (h.old i hshows)

theorem SameView.keep_eq (h : SameView seen change change') : keep change seen = keep change' seen := by
  unfold keep
  rw [h.relation, h.oldKey]

theorem SameView.old_eq (h : SameView seen change change') :
    Realtime.old serde change types seen large = Realtime.old serde change' types seen large := by
  have hlen := h.oldLength
  have hold := h.old
  unfold Realtime.old
  cases ho : change.old with
  | some cells =>
    cases ho' : change'.old with
    | none =>
      rw [ho, ho'] at hlen
      cases hlen
    | some cells' =>
      rw [ho, ho'] at hold
      show row _ _ _ _ _ _ _ _ = row _ _ _ _ _ _ _ _
      rw [← h.relation, ← h.keep_eq]
      refine row_congr fun i hkept hmay => rowCell_congr (hold i ⟨hmay, fun _ hkeys => ?_⟩) rfl
      exact keep_at hkeys hkept
  | none =>
    cases ho' : change'.old with
    | some cells' =>
      rw [ho, ho'] at hlen
      cases hlen
    | none =>
      show (if _ then _ else _) = if _ then _ else _
      rw [← h.relation, ← h.op]
      split
      · rename_i hop
        rw [Bool.and_eq_true, decide_eq_true_eq] at hop
        refine row_congr fun i _ hmay => rowCell_congr (h.record i ⟨hmay, fun hdelete => ?_⟩) rfl
        rw [hop.1] at hdelete
        cases hdelete
      · rfl

/-- The payload says the same of two changes that differ only in cells the
subscriber is not shown. -/
theorem data_congr (h : SameView seen change change') :
    data serde change types seen = data serde change' types seen := by
  have hlarge : decide (MOST < weight change) = decide (MOST < weight change') :=
    decide_eq_decide.mpr h.large
  unfold data
  rw [← h.relation, ← h.op, ← h.commitTs, ← hlarge]
  cases seen.error with
  | some why => rfl
  | none =>
    dsimp only
    cases hop : change.op with
    | insert => rw [h.record_eq (by rw [hop]; decide)]
    | update => rw [h.record_eq (by rw [hop]; decide), h.old_eq]
    | delete => rw [h.old_eq]

/-- With a reason there is no record, the payload says nothing of the row. -/
theorem data_error {why : String} (herror : seen.error = some why)
    (hrelation : change.relation = change'.relation) (hop : change.op = change'.op) :
    data serde change types seen = data serde change' types seen := by
  unfold data
  rw [herror, ← hrelation, ← hop]

end SameView

/-- A delete on a table with row level security is cut to the key. -/
theorem seen_delete {allowed : Except String Bool} {facts : Facts} {change : Change} {s : Seen}
    (h : seen allowed facts change = .ok s) (hop : change.op = .delete) (hrls : facts.rls = true) :
    s.keysOnly = true ∧ s.keys = facts.keys := by
  unfold seen at h
  rw [if_pos hop] at h
  cases h
  exact ⟨hrls, rfl⟩

/-- A payload carries no denied cell: it names only columns the subscriber
may select, an old record cut to the key names only the key, two changes
that agree on what is shown read the same, an error says nothing of the row,
and a delete under row level security is cut to the key whatever the replica
identity. -/
theorem payload_confined (serde : Serde) (types : Types) :
    (∀ change seen, Confined change seen (data serde change types seen)) ∧
    (∀ seen change change', SameView seen change change' →
      data serde change types seen = data serde change' types seen) ∧
    (∀ (seen : Seen) change change' why, seen.error = some why →
      change.relation = change'.relation → change.op = change'.op →
      data serde change types seen = data serde change' types seen) ∧
    (∀ allowed relation rls columns keys change s,
      seen allowed (catalogued relation rls columns keys) change = .ok s →
      change.op = .delete → rls = true → s.keysOnly = true) := by
  refine ⟨fun change seen => data_confined serde change types seen, fun _ _ _ h => data_congr h,
    fun _ _ _ _ herror hrelation hop => data_error herror hrelation hop, ?_⟩
  intro allowed relation rls columns keys change s h hop hrls
  exact (seen_delete h hop hrls).1

/-! ## A subscriber who may not read a secret -/

def people : Relation :=
  { oid := 1, schema := "public", table := "people", replica := .full
    columns := [⟨"id", 25, true⟩, ⟨"secret", 25, true⟩] }

def hired (secret : String) : Change :=
  { relation := people, op := .update, record := [.text "7", .text secret]
    old := some [.text "7", .null], oldKey := false, commitTs := 0, lsn := 0 }

def clerk : Seen :=
  { row := true, columns := [true, false], keys := [true, false], keysOnly := false, error := none }

def noJson : Serde := ⟨fun _ => none, fun _ => none⟩

def noTypes : Types := ⟨fun _ => none⟩

theorem payload_confined_hired :
    Confined (hired "a") clerk (data noJson (hired "a") noTypes clerk) ∧
    data noJson (hired "a") noTypes clerk = data noJson (hired "b") noTypes clerk ∧
    data noJson (hired "a") noTypes { clerk with error := some NO_KEY } =
      data noJson (hired "b") noTypes { clerk with error := some NO_KEY } ∧
    ∃ s, seen (.ok true) (catalogued people true [true, true] [true, false])
      { hired "a" with op := .delete } = .ok s ∧ s.keysOnly = true := by
  have hclaim := payload_confined noJson noTypes
  refine ⟨hclaim.1 _ _, hclaim.2.1 _ _ _ ⟨rfl, rfl, rfl, rfl, rfl, rfl, fun i h => ?_,
    fun i h => rfl, ?_⟩, hclaim.2.2.1 _ _ _ NO_KEY rfl rfl rfl,
    _, rfl, hclaim.2.2.2 (.ok true) people true [true, true] [true, false]
      { hired "a" with op := .delete } _ rfl rfl rfl⟩
  · have hmay : [true, false][i]? = some true := h.1
    rcases i with _ | _ | i
    · rfl
    · cases hmay
    · cases hmay
  · have ha : weight (hired "a") = 3 := by decide
    have hb : weight (hired "b") = 3 := by decide
    rw [ha, hb]

end Zou.Realtime
