import Zou.Rest.Query

/-!
# Query strings that are written

What is percent encoded is decoded again, and no separator of a query
string is in it, so the pairs of a written query string are the pairs it
was written from.
-/

namespace Zou.Rest

variable {repair : List UInt8 → Text}

theorem utf8_eq (s : Text) : (⟨(utf8 s).toArray⟩ : ByteArray) = s.utf8Encode := by
  refine ByteArray.ext ?_
  rw [List.utf8Encode, List.data_toByteArray]
  rfl

theorem lossy_utf8 (s : Text) : lossy repair (utf8 s) = s := by
  unfold lossy
  rw [utf8_eq, List.utf8Decode?_utf8Encode]

/-! ## Escaping -/

/-- What a byte is written as. -/
def escapeByte (b : UInt8) : Text :=
  if unreserved b then [Char.ofNat b.toNat] else ['%', hexDigit (b / 16), hexDigit (b % 16)]

theorem escapeQuery_eq (s : Text) : escapeQuery s = (utf8 s).flatMap escapeByte := rfl

theorem decodeBytes_plain {b : UInt8} (hplus : b ≠ 43) (hpercent : b ≠ 37) (bytes : List UInt8) :
    decodeBytes (b :: bytes) = b :: decodeBytes bytes := by
  match bytes with
  | [] => simp [decodeBytes, hplus]
  | [c] => simp [decodeBytes, hplus]
  | hi :: lo :: rest => rw [decodeBytes, if_neg hplus, if_neg hpercent]

theorem utf8_append (s t : Text) : utf8 (s ++ t) = utf8 s ++ utf8 t := List.flatMap_append

/-- The bytes a byte is written as: itself, or a percent sign and digits
that give it. -/
theorem utf8_escapeByte (b : UInt8) : (utf8 (escapeByte b) = [b] ∧ b ≠ 43 ∧ b ≠ 37)
      ∨ ∃ hi lo hi' lo', utf8 (escapeByte b) = [37, hi, lo] ∧ hexVal hi = some hi'
        ∧ hexVal lo = some lo' ∧ hi' <<< 4 ||| lo' = b := by
  have hall : ∀ n < 256, (utf8 (escapeByte (UInt8.ofNat n)) == [UInt8.ofNat n]
        && UInt8.ofNat n != 43 && UInt8.ofNat n != 37)
      || ((utf8 (escapeByte (UInt8.ofNat n))).length == 3
        && (utf8 (escapeByte (UInt8.ofNat n))).getD 0 0 == 37
        && ((hexVal ((utf8 (escapeByte (UInt8.ofNat n))).getD 1 0)).bind fun hi' =>
          (hexVal ((utf8 (escapeByte (UInt8.ofNat n))).getD 2 0)).map fun lo' => hi' <<< 4 ||| lo')
            == some (UInt8.ofNat n)) := by
    decide +kernel
  have hb := hall b.toNat b.toNat_lt
  rw [UInt8.ofNat_toNat, Bool.or_eq_true] at hb
  rcases hb with hb | hb
  · refine .inl ?_
    simpa [and_assoc] using hb
  · refine .inr ?_
    simp only [Bool.and_eq_true, beq_iff_eq] at hb
    obtain ⟨⟨hlen, hp⟩, hb⟩ := hb
    obtain ⟨p, hi, lo, heq⟩ := List.length_eq_three.mp hlen
    rw [heq] at hp hb
    obtain rfl : p = 37 := hp
    obtain ⟨hi', hhi, hb⟩ := Option.bind_eq_some_iff.mp hb
    obtain ⟨lo', hlo, hb⟩ := Option.map_eq_some_iff.mp hb
    exact ⟨hi, lo, hi', lo', heq, hhi, hlo, hb⟩

/-- A byte that is written is read again. -/
theorem decodeBytes_escapeByte (b : UInt8) (bytes : List UInt8) :
    decodeBytes (utf8 (escapeByte b) ++ bytes) = b :: decodeBytes bytes := by
  rcases utf8_escapeByte b with ⟨heq, hplus, hpercent⟩ | ⟨hi, lo, hi', lo', heq, hhi, hlo, hb⟩
  · rw [heq]
    exact decodeBytes_plain hplus hpercent bytes
  · rw [heq]
    show decodeBytes (37 :: hi :: lo :: bytes) = _
    rw [decodeBytes, if_neg (by decide), if_pos rfl, hhi, hlo, ← hb]

theorem decodeBytes_escape (bytes : List UInt8) :
    decodeBytes (utf8 (bytes.flatMap escapeByte)) = bytes := by
  induction bytes with
  | nil => rfl
  | cons b bytes ih => rw [List.flatMap_cons, utf8_append, decodeBytes_escapeByte, ih]

/-- What is written is read again. -/
theorem decode_escapeQuery (s : Text) : decode repair (escapeQuery s) = s := by
  unfold decode
  rw [escapeQuery_eq, decodeBytes_escape, lossy_utf8]

theorem escapeQuery_chars {s : Text} {c : Char} (h : c ∈ escapeQuery s) :
    c ≠ '&' ∧ c ≠ '=' ∧ c ≠ '?' ∧ c ≠ '#' := by
  obtain ⟨b, -, hc⟩ := List.mem_flatMap.mp h
  have hall : ∀ n < 256, (escapeByte (UInt8.ofNat n)).all fun c =>
      c != '&' && c != '=' && c != '?' && c != '#' := by
    decide +kernel
  have hb := hall b.toNat b.toNat_lt
  rw [UInt8.ofNat_toNat] at hb
  have hboth := List.all_eq_true.mp hb c hc
  simpa [and_assoc] using hboth

/-! ## Pairs -/

/-- A pair as it is written. -/
def writePair (pair : Text × Text) : Text := escapeQuery pair.1 ++ '=' :: escapeQuery pair.2

theorem splitPair_writePair (pair : Text × Text) :
    splitPair (writePair pair) = (escapeQuery pair.1, escapeQuery pair.2) := by
  have hkey : ∀ c ∈ escapeQuery pair.1, decide (c ≠ '=') = true :=
    fun c hc => decide_eq_true (escapeQuery_chars hc).2.1
  unfold splitPair writePair
  rw [List.takeWhile_append_of_pos hkey, List.dropWhile_append_of_pos hkey]
  simp

theorem pairsOf_write (pairs : List (Text × Text)) :
    pairsOf repair (['&'].intercalate (pairs.map writePair)) = pairs := by
  unfold pairsOf
  cases pairs with
  | nil => rfl
  | cons pair pairs =>
    have hsep : ∀ l ∈ (pair :: pairs).map writePair, '&' ∉ l := by
      intro l hl hmem
      obtain ⟨p, -, rfl⟩ := List.mem_map.mp hl
      rcases List.mem_append.mp hmem with hmem | hmem
      · exact (escapeQuery_chars hmem).1 rfl
      · rcases List.mem_cons.mp hmem with heq | hmem
        · exact absurd heq (by decide)
        · exact (escapeQuery_chars hmem).1 rfl
    have hfilter : ((pair :: pairs).map writePair).filter (· ≠ []) =
        (pair :: pairs).map writePair := by
      rw [List.filter_eq_self]
      intro l hl
      obtain ⟨p, -, rfl⟩ := List.mem_map.mp hl
      simp [writePair]
    rw [List.splitOn_intercalate '&' hsep (List.cons_ne_nil _ _), hfilter, List.map_map]
    have hid : ((fun l => (decode repair (splitPair l).1, decode repair (splitPair l).2)) ∘
        writePair) = id := by
      funext p
      show (decode repair (splitPair (writePair p)).1, _) = p
      rw [splitPair_writePair, decode_escapeQuery, decode_escapeQuery]
    rw [hid, List.map_id]

end Zou.Rest
