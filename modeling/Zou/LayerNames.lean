import Zou.Lib.Hex
import Zou.LayerCodecSpec

/-!
# Layer names as text

`d-<keymin>-<keymax>-<lsnmin>-<lsnmax>.dl` for a delta and
`i-<keymin>-<keymax>-<lsn>.il` for an image, keys as their fields in fixed
width hex, lsns as sixteen digits. A `LayerName` is what such a text says;
`text` prints it and `read` is the parser. The integer parser of the
standard library is more permissive than the printer: it takes upper case
digits and a leading plus.
-/

namespace Zou

open Hex

/-! ## Printing -/

/-- Fixed width hex, in key order. -/
def LayerKey.hex (k : LayerKey) : List Char :=
  fixed 2 k.kind ++ (fixed 8 k.spc ++ (fixed 8 k.db ++ (fixed 8 k.rel ++ (fixed 2 k.fork
    ++ fixed 8 k.block))))

namespace LayerName

def text : LayerName → List Char
  | .delta minKey maxKey minLsn maxLsn =>
    ['d', '-'] ++ (['-'].intercalate [minKey.hex, maxKey.hex, fixed 16 minLsn, fixed 16 maxLsn]
      ++ ['.', 'd', 'l'])
  | .image minKey maxKey lsn =>
    ['i', '-'] ++ (['-'].intercalate [minKey.hex, maxKey.hex, fixed 16 lsn] ++ ['.', 'i', 'l'])
  | .malformed text => text.toList

/-! ## Parsing -/

/-- The length of a `str`. -/
def byteLen (s : List Char) : Nat := s.foldr (fun c n => c.utf8Size + n) 0

/-- The inverse of `LayerKey.hex`. -/
def readKey (s : List Char) : Option LayerKey :=
  if byteLen s ≠ keyEncodedLen * 2 ∨ (s.all fun c => c.toNat < 128) = false then none
  else do
    let field (lo hi : Nat) := fromStrRadix 32 ((s.drop lo).take (hi - lo))
    let kind ← field 0 2
    let spc ← field 2 10
    let db ← field 10 18
    let rel ← field 18 26
    let fork ← field 26 28
    let block ← field 28 36
    some ⟨kind % 256, spc, db, rel, fork % 256, block⟩

def readLsn (s : List Char) : Option Lsn :=
  if byteLen s ≠ 16 then none else fromStrRadix 64 s

def readDelta (rest : List Char) : Option LayerName := do
  let body ← rest.dropSuffix? ['.', 'd', 'l']
  match body.splitOn '-' with
  | [kmin, kmax, lmin, lmax] => do
      let minKey ← readKey kmin
      let maxKey ← readKey kmax
      let minLsn ← readLsn lmin
      let maxLsn ← readLsn lmax
      some (.delta minKey maxKey minLsn maxLsn)
  | _ => none

def readImage (rest : List Char) : Option LayerName := do
  let body ← rest.dropSuffix? ['.', 'i', 'l']
  match body.splitOn '-' with
  | [kmin, kmax, l] => do
      let lsn ← readLsn l
      let minKey ← readKey kmin
      let maxKey ← readKey kmax
      some (.image minKey maxKey lsn)
  | _ => none

/-- What a text says, if it is a name. -/
def read? (s : List Char) : Option LayerName :=
  match s.dropPrefix? ['d', '-'] with
  | some rest => readDelta rest
  | none =>
    match s.dropPrefix? ['i', '-'] with
    | some rest => readImage rest
    | none => none

def read (s : List Char) : LayerName := (read? s).getD (.malformed (String.ofList s))

end LayerName

/-- `LayerDesc::name`. -/
def LayerDesc.nameText (d : LayerDesc) : List Char := d.name.text

/-- `LayerDesc::parse`. -/
def LayerDesc.parseText (s : List Char) (size : Nat) : Except PageShardError LayerDesc :=
  LayerDesc.parse (LayerName.read s) size

/-- What was read of a plus or an upper case digit is printed without. -/
def PlainName (s : List Char) : Bool := s.all plainChar

theorem plainName_iff {s : List Char} : PlainName s = true ↔ Plain s := List.all_eq_true

/-! ## Fields -/

namespace LayerName

theorem utf8Size_of_ascii {c : Char} (h : c.toNat < 128) : c.utf8Size = 1 := by
  have hle : c.val ≤ 127 := by
    rw [UInt32.le_iff_toNat_le]
    exact Nat.le_of_lt_succ h
  exact if_pos hle

variable {s : List Char}

theorem byteLen_of_ascii (h : ∀ c ∈ s, c.toNat < 128) : byteLen s = s.length := by
  unfold byteLen
  induction s with
  | nil => rfl
  | cons c cs ih =>
    rw [List.foldr_cons, ih fun c hc => h c (.tail _ hc),
      utf8Size_of_ascii (h c List.mem_cons_self), List.length_cons, Nat.add_comm]

theorem length_hex (k : LayerKey) : k.hex.length = 36 := by
  simp [LayerKey.hex, length_fixed]

variable {k : LayerKey}

theorem mem_hex {c : Char} (h : c ∈ k.hex) : ∃ d, d < 16 ∧ c = digit d := by
  simp only [LayerKey.hex, List.mem_append] at h
  rcases h with h | h | h | h | h | h <;> exact mem_fixed h

theorem plain_hex (k : LayerKey) : Plain k.hex := by
  intro c hc
  obtain ⟨d, hd, rfl⟩ := mem_hex hc
  exact plainChar_digit hd

theorem readKey_hex (h : k.Fits) : readKey k.hex = some k := by
  have hascii : ∀ c ∈ k.hex, c.toNat < 128 := by
    intro c hc
    obtain ⟨d, hd, rfl⟩ := mem_hex hc
    exact ascii_digit hd
  have hlen : byteLen k.hex = keyEncodedLen * 2 := by
    rw [byteLen_of_ascii hascii, length_hex]
    rfl
  have hall : (k.hex.all fun c => c.toNat < 128) = true :=
    List.all_eq_true.mpr fun c hc => decide_eq_true (hascii c hc)
  have hfields : (k.hex.drop 0).take 2 = fixed 2 k.kind ∧ (k.hex.drop 2).take 8 = fixed 8 k.spc
      ∧ (k.hex.drop 10).take 8 = fixed 8 k.db ∧ (k.hex.drop 18).take 8 = fixed 8 k.rel
      ∧ (k.hex.drop 26).take 2 = fixed 2 k.fork ∧ (k.hex.drop 28).take 8 = fixed 8 k.block := by
    refine ⟨?_, ?_, ?_, ?_, ?_, ?_⟩ <;> simp [LayerKey.hex]
  obtain ⟨h1, h2, h3, h4, h5, h6⟩ := hfields
  have hkind : fromStrRadix 32 (fixed 2 k.kind) = some k.kind :=
    fromStrRadix_fixed (by decide) h.kind (Nat.lt_trans h.kind (by decide))
  have hfork : fromStrRadix 32 (fixed 2 k.fork) = some k.fork :=
    fromStrRadix_fixed (by decide) h.fork (Nat.lt_trans h.fork (by decide))
  have hwide : ∀ {n : Nat}, n < 2 ^ 32 → fromStrRadix 32 (fixed 8 n) = some n := fun hn =>
    fromStrRadix_fixed (by decide) hn hn
  unfold readKey
  rw [if_neg (by rw [hlen, hall]; decide)]
  simp only [Nat.reduceSub, h1, h2, h3, h4, h5, h6, hkind, hfork, hwide h.spc, hwide h.db,
    hwide h.rel, hwide h.block, Option.bind_eq_bind, Option.bind_some]
  rw [show k.kind % 256 = k.kind from Nat.mod_eq_of_lt h.kind,
    show k.fork % 256 = k.fork from Nat.mod_eq_of_lt h.fork]

theorem field_spec {lo w n : Nat} (hlen : lo + w ≤ s.length)
    (h : fromStrRadix 32 ((s.drop lo).take w) = some n) : n < 16 ^ w ∧ n < 2 ^ 32
      ∧ (Plain ((s.drop lo).take w) → fixed w n = (s.drop lo).take w) := by
  have hw : ((s.drop lo).take w).length = w := by
    rw [List.length_take, List.length_drop]
    omega
  obtain ⟨h32, hn, -⟩ := fromStrRadix_range h
  have heq := fixed_eq_iff h
  rw [hw] at hn heq
  exact ⟨hn, h32, heq.mpr⟩

theorem readKey_spec (h : readKey s = some k) : k.Fits ∧ (Plain s → k.hex = s) := by
  obtain ⟨hguard, h⟩ := Option.ite_none_left_eq_some.mp h
  rw [not_or] at hguard
  obtain ⟨hlen, hascii⟩ := hguard
  have hascii : ∀ c ∈ s, c.toNat < 128 := fun c hc => by
    rw [Bool.not_eq_false] at hascii
    exact of_decide_eq_true (List.all_eq_true.mp hascii c hc)
  rw [byteLen_of_ascii hascii, Decidable.not_not] at hlen
  have hlen : s.length = 36 := hlen
  simp only [Nat.reduceSub, Option.bind_eq_bind] at h
  obtain ⟨kind, h1, h⟩ := Option.bind_eq_some_iff.mp h
  obtain ⟨spc, h2, h⟩ := Option.bind_eq_some_iff.mp h
  obtain ⟨db, h3, h⟩ := Option.bind_eq_some_iff.mp h
  obtain ⟨rel, h4, h⟩ := Option.bind_eq_some_iff.mp h
  obtain ⟨fork, h5, h⟩ := Option.bind_eq_some_iff.mp h
  obtain ⟨block, h6, h⟩ := Option.bind_eq_some_iff.mp h
  cases h
  obtain ⟨b1, -, p1⟩ := field_spec (by omega) h1
  obtain ⟨-, b2, p2⟩ := field_spec (by omega) h2
  obtain ⟨-, b3, p3⟩ := field_spec (by omega) h3
  obtain ⟨-, b4, p4⟩ := field_spec (by omega) h4
  obtain ⟨b5, -, p5⟩ := field_spec (by omega) h5
  obtain ⟨-, b6, p6⟩ := field_spec (by omega) h6
  have hkind : kind % 256 = kind := Nat.mod_eq_of_lt b1
  have hfork : fork % 256 = fork := Nat.mod_eq_of_lt b5
  rw [hkind, hfork]
  refine ⟨⟨b1, b2, b3, b4, b5, b6⟩, fun hp => ?_⟩
  have hpart : ∀ lo w, Plain ((s.drop lo).take w) := fun lo w c hc =>
    hp c (List.mem_of_mem_drop (List.mem_of_mem_take hc))
  rw [LayerKey.hex, p1 (hpart _ _), p2 (hpart _ _), p3 (hpart _ _), p4 (hpart _ _), p5 (hpart _ _),
    p6 (hpart _ _)]
  have hsplit : ∀ lo w, (s.drop lo).take w ++ s.drop (lo + w) = s.drop lo := fun lo w => by
    rw [← List.drop_drop, List.take_append_drop]
  have hlast : (s.drop 28).take 8 = s.drop 28 :=
    List.take_of_length_le (by rw [List.length_drop]; omega)
  rw [hlast, hsplit 26 2, hsplit 18 8, hsplit 10 8, hsplit 2 8, hsplit 0 2, List.drop_zero]

theorem readLsn_fixed {n : Nat} (h : n < 2 ^ 64) : readLsn (fixed 16 n) = some n := by
  have hlen : byteLen (fixed 16 n) = 16 := by
    rw [byteLen_of_ascii fun c hc => ?_, length_fixed]
    obtain ⟨d, hd, rfl⟩ := mem_fixed hc
    exact ascii_digit hd
  unfold readLsn
  rw [if_neg (by rw [hlen]; decide)]
  exact fromStrRadix_fixed (by decide) h h

theorem readLsn_spec {n : Nat} (h : readLsn s = some n) :
    n < 2 ^ 64 ∧ (Plain s → fixed 16 n = s) := by
  obtain ⟨hlen, h⟩ := Option.ite_none_left_eq_some.mp h
  obtain ⟨hn, -, hascii⟩ := fromStrRadix_range h
  rw [byteLen_of_ascii hascii, Decidable.not_not] at hlen
  have heq := fixed_eq_iff h
  rw [hlen] at heq
  exact ⟨hn, heq.mpr⟩

/-! ## Names -/

/-- The bounds a name states are within the widths of the source's types. -/
def Fits : LayerName → Prop
  | .delta minKey maxKey minLsn maxLsn =>
    minKey.Fits ∧ maxKey.Fits ∧ minLsn < 2 ^ 64 ∧ maxLsn < 2 ^ 64
  | .image minKey maxKey lsn => minKey.Fits ∧ maxKey.Fits ∧ lsn < 2 ^ 64
  | .malformed _ => False

theorem dash_not_mem_hex (k : LayerKey) : '-' ∉ k.hex := fun h => by
  obtain ⟨d, hd, heq⟩ := mem_hex h
  exact digit_ne_dash hd heq.symm

theorem dash_not_mem_fixed (w n : Nat) : '-' ∉ fixed w n := fun h => by
  obtain ⟨d, hd, heq⟩ := mem_fixed h
  exact digit_ne_dash hd heq.symm

theorem dropSuffix_append (body suf : List Char) : (body ++ suf).dropSuffix? suf = some body :=
  List.dropSuffix?_eq_some_iff.mpr ⟨suf, rfl, beq_self_eq_true suf⟩

theorem dropPrefix_append (pre rest : List Char) : (pre ++ rest).dropPrefix? pre = some rest :=
  List.dropPrefix?_append_of_beq rest (beq_self_eq_true pre)

variable {n : LayerName}

theorem read?_text (h : n.Fits) : read? n.text = some n := by
  cases n with
  | delta minKey maxKey minLsn maxLsn =>
    obtain ⟨h1, h2, h3, h4⟩ := h
    have hsplit : (['-'].intercalate [minKey.hex, maxKey.hex, fixed 16 minLsn,
        fixed 16 maxLsn]).splitOn '-' = [minKey.hex, maxKey.hex, fixed 16 minLsn,
          fixed 16 maxLsn] := by
      refine List.splitOn_intercalate '-' ?_ (List.cons_ne_nil _ _)
      simp [dash_not_mem_hex, dash_not_mem_fixed]
    unfold read? text
    rw [dropPrefix_append]
    dsimp only
    unfold readDelta
    rw [dropSuffix_append, Option.bind_eq_bind, Option.bind_some, hsplit]
    simp [readKey_hex h1, readKey_hex h2, readLsn_fixed h3, readLsn_fixed h4]
  | image minKey maxKey lsn =>
    obtain ⟨h1, h2, h3⟩ := h
    have hsplit : (['-'].intercalate [minKey.hex, maxKey.hex, fixed 16 lsn]).splitOn '-'
        = [minKey.hex, maxKey.hex, fixed 16 lsn] := by
      refine List.splitOn_intercalate '-' ?_ (List.cons_ne_nil _ _)
      simp [dash_not_mem_hex, dash_not_mem_fixed]
    have hother : (text (.image minKey maxKey lsn)).dropPrefix? ['d', '-'] = none := rfl
    unfold read?
    rw [hother]
    dsimp only [text]
    rw [dropPrefix_append]
    dsimp only
    unfold readImage
    rw [dropSuffix_append, Option.bind_eq_bind, Option.bind_some, hsplit]
    simp [readKey_hex h1, readKey_hex h2, readLsn_fixed h3]
  | malformed text => exact h.elim

theorem plain_dash : Plain ['-'] := fun _ hc => by
  cases List.mem_singleton.mp hc
  decide

theorem plain_text (h : n.Fits) : Plain n.text := by
  cases n with
  | delta minKey maxKey minLsn maxLsn =>
    refine plain_append.mpr ⟨plainName_iff.mp rfl, plain_append.mpr
      ⟨(plain_intercalate plain_dash _).mpr ?_, plainName_iff.mp rfl⟩⟩
    simp [plain_hex, plain_fixed]
  | image minKey maxKey lsn =>
    refine plain_append.mpr ⟨plainName_iff.mp rfl, plain_append.mpr
      ⟨(plain_intercalate plain_dash _).mpr ?_, plainName_iff.mp rfl⟩⟩
    simp [plain_hex, plain_fixed]
  | malformed text => exact h.elim

theorem plain_parts {pre body suf : List Char} {parts : List (List Char)}
    (hsplit : body.splitOn '-' = parts) (h : Plain (pre ++ (body ++ suf))) :
    ∀ p ∈ parts, Plain p := by
  have hjoin : ['-'].intercalate (body.splitOn '-') = body := List.intercalate_splitOn '-'
  have hbody := (plain_append.mp (plain_append.mp h).2).1
  rw [← hjoin, hsplit] at hbody
  exact (plain_intercalate plain_dash parts).mp hbody

theorem readDelta_spec {rest : List Char} (h : readDelta rest = some n) :
    n.Fits ∧ (Plain (['d', '-'] ++ rest) → n.text = ['d', '-'] ++ rest) := by
  obtain ⟨body, hbody, hparse⟩ := Option.bind_eq_some_iff.mp h
  obtain ⟨suf, rfl, hsuf⟩ := List.dropSuffix?_eq_some_iff.mp hbody
  cases eq_of_beq hsuf
  split at hparse
  · rename_i kmin kmax lmin lmax hsplit
    obtain ⟨minKey, h1, hparse⟩ := Option.bind_eq_some_iff.mp hparse
    obtain ⟨maxKey, h2, hparse⟩ := Option.bind_eq_some_iff.mp hparse
    obtain ⟨minLsn, h3, hparse⟩ := Option.bind_eq_some_iff.mp hparse
    obtain ⟨maxLsn, h4, hparse⟩ := Option.bind_eq_some_iff.mp hparse
    cases hparse
    obtain ⟨f1, e1⟩ := readKey_spec h1
    obtain ⟨f2, e2⟩ := readKey_spec h2
    obtain ⟨f3, e3⟩ := readLsn_spec h3
    obtain ⟨f4, e4⟩ := readLsn_spec h4
    refine ⟨⟨f1, f2, f3, f4⟩, fun hp => ?_⟩
    have hparts := plain_parts hsplit hp
    have hjoin : ['-'].intercalate (body.splitOn '-') = body := List.intercalate_splitOn '-'
    rw [hsplit] at hjoin
    rw [text, e1 (hparts _ (by simp)), e2 (hparts _ (by simp)), e3 (hparts _ (by simp)),
      e4 (hparts _ (by simp)), hjoin]
  · cases hparse

theorem readImage_spec {rest : List Char} (h : readImage rest = some n) :
    n.Fits ∧ (Plain (['i', '-'] ++ rest) → n.text = ['i', '-'] ++ rest) := by
  obtain ⟨body, hbody, hparse⟩ := Option.bind_eq_some_iff.mp h
  obtain ⟨suf, rfl, hsuf⟩ := List.dropSuffix?_eq_some_iff.mp hbody
  cases eq_of_beq hsuf
  split at hparse
  · rename_i kmin kmax l hsplit
    obtain ⟨lsn, h3, hparse⟩ := Option.bind_eq_some_iff.mp hparse
    obtain ⟨minKey, h1, hparse⟩ := Option.bind_eq_some_iff.mp hparse
    obtain ⟨maxKey, h2, hparse⟩ := Option.bind_eq_some_iff.mp hparse
    cases hparse
    obtain ⟨f1, e1⟩ := readKey_spec h1
    obtain ⟨f2, e2⟩ := readKey_spec h2
    obtain ⟨f3, e3⟩ := readLsn_spec h3
    refine ⟨⟨f1, f2, f3⟩, fun hp => ?_⟩
    have hparts := plain_parts hsplit hp
    have hjoin : ['-'].intercalate (body.splitOn '-') = body := List.intercalate_splitOn '-'
    rw [hsplit] at hjoin
    rw [text, e1 (hparts _ (by simp)), e2 (hparts _ (by simp)), e3 (hparts _ (by simp)), hjoin]
  · cases hparse

/-- What is read fits, and is printed as it was spelled where that was
plainly. -/
theorem read?_spec (h : read? s = some n) : n.Fits ∧ (n.text = s ↔ Plain s) := by
  have hread : n.Fits ∧ (Plain s → n.text = s) := by
    unfold read? at h
    split at h
    · rename_i rest hpre
      obtain ⟨pre, rfl, heq⟩ := List.dropPrefix?_eq_some_iff.mp hpre
      cases eq_of_beq heq
      exact readDelta_spec h
    · split at h
      · rename_i rest hpre
        obtain ⟨pre, rfl, heq⟩ := List.dropPrefix?_eq_some_iff.mp hpre
        cases eq_of_beq heq
        exact readImage_spec h
      · cases h
  exact ⟨hread.1, fun heq => heq ▸ plain_text hread.1, hread.2⟩

end LayerName

/-! ## Descriptors -/

/-- The ranges of a descriptor are within the widths of the source's types. -/
structure LayerDesc.Fits (d : LayerDesc) : Prop where
  minKey : d.minKey.Fits
  maxKey : d.maxKey.Fits
  minLsn : d.minLsn < 2 ^ 64
  maxLsn : d.maxLsn < 2 ^ 64

variable {d : LayerDesc}

theorem LayerDesc.Fits.name (h : d.Fits) : d.name.Fits := by
  unfold LayerDesc.name
  split
  · exact ⟨h.minKey, h.maxKey, h.minLsn, h.maxLsn⟩
  · exact ⟨h.minKey, h.maxKey, h.minLsn⟩

/-- What a name says of a layer is all there is to it: the manifest keeps no
tag next to it, and an image is of one lsn. -/
def LayerDesc.Nameable (d : LayerDesc) : Prop :=
  d.owner = none ∧ d.upto = none ∧ d.home = none ∧ (d.kind = .image → d.maxLsn = d.minLsn)

theorem LayerDesc.parse_name (d : LayerDesc) : LayerDesc.parse d.name d.size = .ok { d with
      maxLsn := if d.kind = .image then d.minLsn else d.maxLsn
      owner := none
      upto := none
      home := none } := by
  obtain ⟨kind, minKey, maxKey, minLsn, maxLsn, size, owner, upto, home⟩ := d
  cases kind <;> rfl

theorem LayerDesc.parseText_nameText (h : d.Fits) :
    LayerDesc.parseText d.nameText d.size = .ok d ↔ d.Nameable := by
  have hread : LayerName.read d.nameText = d.name := by
    unfold LayerName.read LayerDesc.nameText
    rw [LayerName.read?_text h.name]
    rfl
  unfold LayerDesc.parseText
  rw [hread, LayerDesc.parse_name]
  obtain ⟨kind, minKey, maxKey, minLsn, maxLsn, size, owner, upto, home⟩ := d
  cases kind with
  | delta => simp [LayerDesc.Nameable, eq_comm]
  | image =>
    simp only [LayerDesc.Nameable, Except.ok.injEq, LayerDesc.mk.injEq, if_pos, true_and,
      forall_const]
    constructor
    · rintro ⟨hlsn, howner, hupto, hhome⟩
      exact ⟨howner.symm, hupto.symm, hhome.symm, hlsn.symm⟩
    · rintro ⟨howner, hupto, hhome, hlsn⟩
      exact ⟨hlsn.symm, howner.symm, hupto.symm, hhome.symm⟩

theorem LayerDesc.parseText_spec {s : List Char} {size : Nat}
    (h : LayerDesc.parseText s size = .ok d) : d.nameText = s ↔ Plain s := by
  unfold LayerDesc.parseText LayerName.read at h
  cases hread : LayerName.read? s with
  | none =>
    rw [hread] at h
    cases h
  | some n =>
    rw [hread] at h
    have hname : d.name = n := by
      cases n with
      | delta minKey maxKey minLsn maxLsn => cases h; rfl
      | image minKey maxKey lsn => cases h; rfl
      | malformed text => cases h
    unfold LayerDesc.nameText
    rw [hname]
    exact (LayerName.read?_spec hread).2

/-! ## Order -/

theorem LayerKey.hex_lt_hex {k k' : LayerKey} (h : k.Fits) (h' : k'.Fits) :
    k.hex < k'.hex ↔ k < k' := by
  have heq : ∀ {w n m : Nat}, n < 16 ^ w → m < 16 ^ w →
      (fixed w n = fixed w m ↔ n = m) := fun hn hm => ⟨fixed_inj hn hm, fun h => by rw [h]⟩
  have hlen : ∀ {w n m : Nat}, (fixed w n).length = (fixed w m).length := fun {w n m} => by
    rw [length_fixed, length_fixed]
  have hk : k < k' ↔ k.toTuple < k'.toTuple := .rfl
  rw [LayerKey.hex, LayerKey.hex, append_lt_append hlen, append_lt_append hlen,
    append_lt_append hlen, append_lt_append hlen, append_lt_append hlen,
    fixed_lt_fixed h.kind h'.kind, fixed_lt_fixed h.spc h'.spc, fixed_lt_fixed h.db h'.db,
    fixed_lt_fixed h.rel h'.rel, fixed_lt_fixed h.fork h'.fork, fixed_lt_fixed h.block h'.block,
    heq h.kind h'.kind, heq h.spc h'.spc, heq h.db h'.db, heq h.rel h'.rel, heq h.fork h'.fork, hk]
  simp only [LayerKey.toTuple, Prod.Lex.toLex_lt_toLex]

/-- Names as an encoding. A descriptor whose name is all there is to it
comes back from its name, and no other does. A text that parses is the name
of its result exactly where it has no plus and no upper case digit. And
keys sort as their hex does. -/
theorem layer_names_faithful (d : LayerDesc) (s : List Char) (size : Nat) (k k' : LayerKey) :
    (d.Fits → (LayerDesc.parseText d.nameText d.size = .ok d ↔ d.Nameable))
      ∧ (∀ d', LayerDesc.parseText s size = .ok d' → (d'.nameText = s ↔ PlainName s = true))
      ∧ (k.Fits → k'.Fits → (k.hex < k'.hex ↔ k < k')) :=
  ⟨fun h => LayerDesc.parseText_nameText h,
    fun _ h => (LayerDesc.parseText_spec h).trans plainName_iff.symm,
    fun h h' => LayerKey.hex_lt_hex h h'⟩

/-- An image at lsn 15 over one page, its lsn spelled with a plus. -/
def plusName : List Char :=
  "i-000000000100000002000000030000000004".toList
    ++ "-000000000100000002000000030000000004-+00000000000000f.il".toList

def onePageImage : LayerDesc := .image (.page 1 2 3 0 4) (.page 1 2 3 0 4) 15

theorem layer_names_faithful_onePage :
    LayerDesc.parseText onePageImage.nameText 0 = .ok onePageImage
      ∧ (LayerDesc.parseText plusName 0 = .ok onePageImage ∧ onePageImage.nameText ≠ plusName)
      ∧ (LayerKey.page 1 2 3 0 4).hex < (LayerKey.page 1 2 3 0 10).hex := by
  have hfits : ∀ n < 2 ^ 32, (LayerKey.page 1 2 3 0 n).Fits := fun n hn =>
    ⟨(by decide : 0 < 2 ^ 8), (by decide : 1 < 2 ^ 32), (by decide : 2 < 2 ^ 32),
      (by decide : 3 < 2 ^ 32), (by decide : 0 < 2 ^ 8), hn⟩
  have hd : onePageImage.Fits :=
    ⟨hfits 4 (by decide), hfits 4 (by decide), by decide, by decide⟩
  have hparse : LayerDesc.parseText plusName 0 = .ok onePageImage := by decide +kernel
  obtain ⟨hname, hplain, hhex⟩ := layer_names_faithful onePageImage plusName 0
    (.page 1 2 3 0 4) (.page 1 2 3 0 10)
  refine ⟨(hname hd).mpr ⟨rfl, rfl, rfl, fun _ => rfl⟩, ⟨hparse, fun h => ?_⟩, ?_⟩
  · exact absurd ((hplain _ hparse).mp h) (by decide +kernel)
  · exact (hhex (hfits 4 (by decide)) (hfits 10 (by decide))).mpr (by decide)

/-- The parser takes a second spelling of a name. -/
theorem layer_name_second_spelling :
    ¬ ∀ s size d, LayerDesc.parseText s size = .ok d → d.nameText = s := by
  intro h
  have hparse : LayerDesc.parseText plusName 0 = .ok onePageImage := by decide +kernel
  exact absurd (h _ _ _ hparse) (by decide +kernel)

end Zou
