import Mathlib.Data.List.Sort
import Mathlib.Data.Prod.Lex
import Zou.GcLock
import Zou.Lib.Hex
import Zou.S3Query

/-!
# The signature of an S3 request

What is signed is a text of lines: the method, the path, the query sorted,
the headers the signature names and the hash the request gives of its body.
What is asked is the query taken apart into a map that keeps the last value
of a name. `verified` computes the signature over the first and compares.

Two requests under one authorization that both verify have the same lines,
so their queries are the same pairs in some order. They are the same map
unless a name is repeated with values that decode to different texts, and
then turning the order around makes another request that verifies.
-/

namespace Zou.S3

open GcLock (trimText mem_trimText)
open Rest (Text utf8)

/-! ## Requests -/

/-- The parts of a request that are read. A header is its name in lower case
and its bytes. -/
structure Parts where
  method : Text
  path : Text
  query : Option Text
  headers : List (Text × List UInt8)
  method_line : '\n' ∉ method
  path_line : '\n' ∉ path
  query_line : ∀ q, query = some q → '\n' ∉ q

structure Credentials where
  access : Text
  secret : Text
  region : Text
  deriving DecidableEq

def REGION : Text := "us-east-1".toList

/-- Is this a region a signature may have been computed in? -/
def Credentials.takes (c : Credentials) (region : Text) : Bool :=
  region = c.region || region = REGION

def ALGORITHM : Text := "AWS4-HMAC-SHA256".toList

def SERVICE : Text := "s3".toList

inductive StorageError where
  | missingSignature
  | invalidSignature (why : Text)
  | accessDenied (why : Text)
  | wrongSignature
  deriving DecidableEq, Repr

/-- `HeaderValue::to_str`: visible ASCII and tabs. -/
def toStr (bytes : List UInt8) : Option Text :=
  if bytes.all fun b => (32 ≤ b.toNat && b.toNat < 127) || b.toNat = 9 then
    some (bytes.map fun b => Char.ofNat b.toNat)
  else none

/-- The first value of a header, if it is a text. -/
def headerValue (parts : Parts) (name : Text) : Option Text :=
  (parts.headers.find? fun h => h.1 = name.map Char.toLower).bind fun h => toStr h.2

def authorization (parts : Parts) : Text := (headerValue parts "authorization".toList).getD []

/-! ## The authorization header -/

/-- What the caller signed, taken apart. -/
structure Signed where
  access : Text
  day : Text
  region : Text
  headers : List Text
  signature : Text
  deriving DecidableEq

structure Fields where
  credential : Option Text
  headers : Option Text
  signature : Option Text

def readField (f : Fields) (field : Text) : Fields :=
  let field := trimText field
  match field.dropPrefix? "Credential=".toList with
  | some value => { f with credential := some value }
  | none => match field.dropPrefix? "SignedHeaders=".toList with
    | some value => { f with headers := some value }
    | none => match field.dropPrefix? "Signature=".toList with
      | some value => { f with signature := some value }
      | none => f

/-- Read the authorization header, or say it is not one. -/
def parse (raw : Text) : Except StorageError Signed :=
  match raw.dropPrefix? ALGORITHM with
  | none => .error .missingSignature
  | some rest =>
    match (rest.splitOn ',').foldl readField ⟨none, none, none⟩ with
    | ⟨some credential, some headers, some signature⟩ =>
      match credential.splitOn '/' with
      | access :: day :: region :: _ =>
        .ok ⟨access, day, region, headers.splitOn ';', signature⟩
      | _ => .error (.invalidSignature "Invalid signature format".toList)
    | _ => .error (.invalidSignature "Invalid signature format".toList)

/-! ## The canonical request -/

def writePair (p : Text × Text) : Text := p.1 ++ '=' :: p.2

/-- The query string as the signature sees it: sorted, and a parameter with
no value keeps its `=`. -/
def canonicalQuery (query : Text) : Text :=
  if query = [] then []
  else ['&'].intercalate
    (((pairsOf query).insertionSort fun a b => toLex a ≤ toLex b).map writePair)

/-- The value of a header as it is signed. -/
def signedValue (parts : Parts) (name : Text) : Text :=
  trimText ((headerValue parts name).getD [])

def stampOf (parts : Parts) : Text := (headerValue parts "x-amz-date".toList).getD []

def payloadOf (parts : Parts) : Text :=
  (headerValue parts "x-amz-content-sha256".toList).getD []

def headerLines (parts : Parts) (names : List Text) : Text :=
  names.flatMap fun name => name ++ ':' :: (signedValue parts name ++ ['\n'])

def canonical (parts : Parts) (names : List Text) : Text :=
  parts.method ++ '\n' :: (parts.path ++ '\n' :: (canonicalQuery (parts.query.getD []) ++ '\n'
    :: (headerLines parts names ++ '\n' :: ([';'].intercalate names ++ '\n' :: payloadOf parts))))

/-! ## Verifying -/

/-- HMAC-SHA256 of a key and a message, and SHA-256. -/
structure Digests where
  hmac : List UInt8 → List UInt8 → List UInt8
  sha256 : List UInt8 → List UInt8

/-- No two messages have one digest. -/
structure Digests.Injective (d : Digests) : Prop where
  hmac : ∀ key, Function.Injective (d.hmac key)
  sha256 : Function.Injective d.sha256

def hex (bytes : List UInt8) : Text := bytes.flatMap fun b => Hex.fixed 2 b.toNat

/-- Two hex signatures, compared without letting the time say how much of
the second one was right. -/
def same (ours theirs : Text) : Bool :=
  (utf8 ours).length = (utf8 theirs).length
    && ((utf8 ours).zip (utf8 theirs)).foldl (fun apart p => apart ||| (p.1 ^^^ p.2)) 0 = 0

section

variable (d : Digests)

def sign (key : List UInt8) (message : Text) : List UInt8 := d.hmac key (utf8 message)

def signingKey (secret day region : Text) : List UInt8 :=
  let key := sign d (utf8 ("AWS4".toList ++ secret)) day
  let key := sign d key region
  let key := sign d key SERVICE
  sign d key "aws4_request".toList

def toSign (parts : Parts) (signed : Signed) : Text :=
  let scope := signed.day ++ '/' :: (signed.region ++ '/' :: (SERVICE ++ "/aws4_request".toList))
  ALGORITHM ++ '\n' :: (stampOf parts ++ '\n' :: (scope ++ '\n'
    :: hex (d.sha256 (utf8 (canonical parts signed.headers)))))

/-- Did this request come from somebody holding the project's secret? -/
def verified (s3 : Option Credentials) (parts : Parts) : Except StorageError Credentials :=
  match parse (authorization parts) with
  | .error why => .error why
  | .ok signed =>
    match s3.filter fun c => c.access = signed.access with
    | none => .error (.accessDenied "Invalid Access Key".toList)
    | some credentials =>
      if !credentials.takes signed.region then .error .wrongSignature
      else
        let key := signingKey d credentials.secret signed.day signed.region
        if same (hex (sign d key (toSign d parts signed))) signed.signature then .ok credentials
        else .error .wrongSignature

end

/-! ## What is compared -/

theorem utf8_injective : Function.Injective utf8 :=
  Function.LeftInverse.injective (g := Utf8.lossy) Utf8.lossy_encode

theorem hex_injective : Function.Injective hex := by
  intro a
  induction a with
  | nil =>
    intro b h
    cases b with
    | nil => rfl
    | cons y b =>
      have hlen := congrArg List.length h
      simp [hex, Hex.length_fixed] at hlen
      omega
  | cons x a ih =>
    intro b h
    cases b with
    | nil =>
      have hlen := congrArg List.length h
      simp [hex, Hex.length_fixed] at hlen
    | cons y b =>
      have h : Hex.fixed 2 x.toNat ++ hex a = Hex.fixed 2 y.toNat ++ hex b := h
      obtain ⟨hxy, hab⟩ := List.append_inj h (by rw [Hex.length_fixed, Hex.length_fixed])
      have hx := x.toNat_lt
      have hy := y.toNat_lt
      rw [UInt8.toNat_inj.mp (Hex.fixed_inj (by omega) (by omega) hxy), ih hab]

theorem apart_iff (pairs : List (UInt8 × UInt8)) : ∀ apart : UInt8,
    pairs.foldl (fun apart p => apart ||| (p.1 ^^^ p.2)) apart = 0
      ↔ apart = 0 ∧ ∀ p ∈ pairs, p.1 = p.2 := by
  induction pairs with
  | nil => intro apart; simp
  | cons p pairs ih =>
    intro apart
    rw [List.foldl_cons, ih, UInt8.or_eq_zero_iff, UInt8.xor_eq_zero_iff, List.forall_mem_cons,
      and_assoc]

theorem same_iff (ours theirs : Text) : same ours theirs = true ↔ ours = theirs := by
  have hzip : ∀ {a b : List UInt8}, a.length = b.length → (∀ p ∈ a.zip b, p.1 = p.2) → a = b := by
    intro a
    induction a with
    | nil =>
      intro b hlen _
      exact (List.length_eq_zero_iff.mp hlen.symm).symm
    | cons x a ih =>
      intro b hlen hall
      cases b with
      | nil => cases hlen
      | cons y b =>
        rw [List.zip_cons_cons, List.forall_mem_cons] at hall
        obtain rfl : x = y := hall.1
        rw [ih (Nat.succ.inj hlen) hall.2]
  unfold same
  rw [Bool.and_eq_true, decide_eq_true_eq, decide_eq_true_eq, apart_iff]
  constructor
  · rintro ⟨hlen, -, hall⟩
    exact utf8_injective (hzip hlen hall)
  · rintro rfl
    refine ⟨rfl, rfl, fun p hp => ?_⟩
    rw [List.zip_eq_zipWith, List.zipWith_self] at hp
    obtain ⟨b, -, rfl⟩ := List.mem_map.mp hp
    rfl

/-! ## Lines -/

theorem line_inj {a b x y : Text} (ha : '\n' ∉ a) (hb : '\n' ∉ b)
    (h : a ++ '\n' :: x = b ++ '\n' :: y) : a = b ∧ x = y := by
  have hsplit := congrArg (splitOnce '\n') h
  rw [splitOnce_append ha, splitOnce_append hb] at hsplit
  exact Prod.mk.inj (Option.some.inj hsplit)

theorem toStr_line {bytes : List UInt8} {text : Text} (h : toStr bytes = some text) :
    '\n' ∉ text := by
  unfold toStr at h
  split at h
  · rename_i hall
    cases h
    intro hmem
    obtain ⟨b, hb, heq⟩ := List.mem_map.mp hmem
    have hvisible := List.all_eq_true.mp hall b hb
    have hbytes : ∀ n < 256, ((32 ≤ n && n < 127) || n = 9) = true → Char.ofNat n ≠ '\n' := by
      decide +kernel
    exact hbytes b.toNat b.toNat_lt hvisible heq
  · cases h

theorem headerValue_line (parts : Parts) (name : Text) :
    '\n' ∉ (headerValue parts name).getD [] := by
  cases h : headerValue parts name with
  | none => exact List.not_mem_nil
  | some text =>
    obtain ⟨header, -, htext⟩ := Option.bind_eq_some_iff.mp h
    exact toStr_line htext

theorem signedValue_line (parts : Parts) (name : Text) : '\n' ∉ signedValue parts name :=
  fun h => headerValue_line parts name (mem_trimText h)

variable {r : Parts}

theorem headerLines_inj {r' : Parts} {x y : Text} {names : List Text}
    (h : headerLines r names ++ x = headerLines r' names ++ y) :
    (∀ name ∈ names, signedValue r name = signedValue r' name) ∧ x = y := by
  induction names with
  | nil => exact ⟨fun _ hmem => (List.not_mem_nil hmem).elim, h⟩
  | cons name names ih =>
    unfold headerLines at h ih
    simp only [List.flatMap_cons, List.append_assoc, List.cons_append, List.nil_append,
      List.append_cancel_left_eq, List.cons.injEq, true_and] at h
    obtain ⟨hvalue, hrest⟩ := line_inj (signedValue_line r name) (signedValue_line r' name) h
    obtain ⟨hall, hxy⟩ := ih hrest
    exact ⟨List.forall_mem_cons.mpr ⟨hvalue, hall⟩, hxy⟩

/-! ## Queries as pairs -/

/-- A pair as it is read of a query string. -/
structure IsPair (p : Text × Text) : Prop where
  name_amp : '&' ∉ p.1
  name_eq : '=' ∉ p.1
  value_amp : '&' ∉ p.2

variable {query : Text} {p : Text × Text}

theorem mem_pairsOf (h : p ∈ pairsOf query) : IsPair p ∧ ∀ c, c ∈ p.1 ∨ c ∈ p.2 → c ∈ query := by
  unfold pairsOf at h
  obtain ⟨piece, hpiece, rfl⟩ := List.mem_map.mp h
  have hpiece := (List.mem_filter.mp hpiece).1
  have hamp := not_mem_splitOn '&' query piece hpiece
  have hof := mem_of_mem_splitOn '&' query piece hpiece
  cases hsplit : splitOnce '=' piece with
  | none =>
    refine ⟨⟨hamp, not_mem_of_splitOnce hsplit, List.not_mem_nil⟩, ?_⟩
    rintro c (hc | hc)
    · exact hof c hc
    · exact (List.not_mem_nil hc).elim
  | some p =>
    obtain ⟨name, value⟩ := p
    obtain ⟨rfl, hname⟩ := splitOnce_spec hsplit
    refine ⟨⟨fun hc => hamp (List.mem_append_left _ hc), hname,
      fun hc => hamp (List.mem_append_right _ (.tail _ hc))⟩, ?_⟩
    rintro c (hc | hc)
    · exact hof c (List.mem_append_left _ hc)
    · exact hof c (List.mem_append_right _ (.tail _ hc))

theorem splitOnce_writePair (h : IsPair p) :
    splitOnce '=' (writePair p) = some p := splitOnce_append h.name_eq p.2

theorem writePair_amp (h : IsPair p) : '&' ∉ writePair p := by
  intro hmem
  rcases List.mem_append.mp hmem with hmem | hmem
  · exact h.name_amp hmem
  · rcases List.mem_cons.mp hmem with heq | hmem
    · exact absurd heq (by decide)
    · exact h.value_amp hmem

variable {pairs : List (Text × Text)}

/-- Pairs that are written one behind the other are read again. -/
theorem pairsOf_write (h : ∀ p ∈ pairs, IsPair p) :
    pairsOf (['&'].intercalate (pairs.map writePair)) = pairs := by
  cases pairs with
  | nil => rfl
  | cons p pairs =>
    have hsep : ∀ l ∈ (p :: pairs).map writePair, '&' ∉ l := by
      intro l hl
      obtain ⟨q, hq, rfl⟩ := List.mem_map.mp hl
      exact writePair_amp (h q hq)
    have hfilter : ((p :: pairs).map writePair).filter (· ≠ []) = (p :: pairs).map writePair := by
      rw [List.filter_eq_self]
      intro l hl
      obtain ⟨q, -, rfl⟩ := List.mem_map.mp hl
      simp [writePair]
    have hread : ∀ q ∈ p :: pairs,
        ((fun pair => (splitOnce '=' pair).getD (pair, [])) ∘ writePair) q = q := by
      intro q hq
      show (splitOnce '=' (writePair q)).getD (writePair q, []) = q
      rw [splitOnce_writePair (h q hq)]
      rfl
    unfold pairsOf
    rw [List.splitOn_intercalate '&' hsep (List.cons_ne_nil _ _), hfilter, List.map_map,
      List.map_congr_left hread, List.map_id'']
    exact fun _ => rfl

/-- The pairs in the order they are signed in. -/
def sortedPairs (query : Text) : List (Text × Text) :=
  (pairsOf query).insertionSort fun a b => toLex a ≤ toLex b

theorem sortedPairs_perm (query : Text) : (sortedPairs query).Perm (pairsOf query) :=
  List.perm_insertionSort _ _

theorem sortedPairs_isPair : ∀ p ∈ sortedPairs query, IsPair p :=
  fun _ hp => (mem_pairsOf ((sortedPairs_perm query).subset hp)).1

theorem canonicalQuery_eq (query : Text) :
    canonicalQuery query = ['&'].intercalate ((sortedPairs query).map writePair) := by
  unfold canonicalQuery
  split
  · rename_i hnil
    rw [hnil]
    rfl
  · rfl

/-- Two queries are signed alike exactly when they are the same pairs in
some order. -/
theorem canonicalQuery_iff {q q' : Text} :
    canonicalQuery q = canonicalQuery q' ↔ (pairsOf q).Perm (pairsOf q') := by
  rw [canonicalQuery_eq, canonicalQuery_eq]
  constructor
  · intro h
    have hpairs := congrArg pairsOf h
    rw [pairsOf_write sortedPairs_isPair, pairsOf_write sortedPairs_isPair] at hpairs
    exact ((sortedPairs_perm q).symm.trans (hpairs ▸ .refl _)).trans (sortedPairs_perm q')
  · intro h
    have hperm := ((sortedPairs_perm q).trans h).trans (sortedPairs_perm q').symm
    have hsorted : ∀ q, (sortedPairs q).Pairwise fun a b => toLex a ≤ toLex b := by
      intro q
      have : Std.Total fun a b : Text × Text => toLex a ≤ toLex b := ⟨fun a b => le_total _ _⟩
      have : IsTrans (Text × Text) fun a b => toLex a ≤ toLex b := ⟨fun _ _ _ => le_trans⟩
      exact List.pairwise_insertionSort _ _
    rw [hperm.eq_of_pairwise (fun a b _ _ hab hba => toLex.injective (le_antisymm hab hba))
      (hsorted q) (hsorted q')]

theorem mem_intercalate {sep c : Char} {ls : List Text} (h : c ∈ [sep].intercalate ls) :
    c = sep ∨ ∃ l ∈ ls, c ∈ l := by
  induction ls with
  | nil => exact (List.not_mem_nil h).elim
  | cons l ls ih =>
    cases ls with
    | nil =>
      rw [List.intercalate_singleton] at h
      exact .inr ⟨l, List.mem_cons_self, h⟩
    | cons l' ls =>
      rw [List.intercalate_cons_cons, List.append_assoc] at h
      rcases List.mem_append.mp h with h | h
      · exact .inr ⟨l, List.mem_cons_self, h⟩
      · rcases List.mem_cons.mp h with rfl | h
        · exact .inl rfl
        · rcases ih h with heq | ⟨l'', hl, hc⟩
          · exact .inl heq
          · exact .inr ⟨l'', .tail _ hl, hc⟩

theorem write_line (h : ∀ p ∈ pairs, '\n' ∉ p.1 ∧ '\n' ∉ p.2) :
    '\n' ∉ ['&'].intercalate (pairs.map writePair) := by
  intro hmem
  rcases mem_intercalate hmem with heq | ⟨l, hl, hc⟩
  · exact absurd heq (by decide)
  · obtain ⟨p, hp, rfl⟩ := List.mem_map.mp hl
    rcases List.mem_append.mp hc with hc | hc
    · exact (h p hp).1 hc
    · rcases List.mem_cons.mp hc with heq | hc
      · exact absurd heq (by decide)
      · exact (h p hp).2 hc

theorem Parts.query_getD (r : Parts) : '\n' ∉ r.query.getD [] := by
  cases h : r.query with
  | none => exact List.not_mem_nil
  | some q => exact r.query_line q h

theorem pairs_line (h : '\n' ∉ query) : ∀ p ∈ pairsOf query, '\n' ∉ p.1 ∧ '\n' ∉ p.2 := by
  intro p hp
  have hof := (mem_pairsOf hp).2 '\n'
  exact ⟨fun hc => h (hof (.inl hc)), fun hc => h (hof (.inr hc))⟩

theorem canonicalQuery_line (h : '\n' ∉ query) : '\n' ∉ canonicalQuery query := by
  rw [canonicalQuery_eq]
  exact write_line fun p hp => pairs_line h p ((sortedPairs_perm query).subset hp)

/-! ## What a signature is of -/

/-- What two requests of one canonical text share. -/
structure SameLines (r r' : Parts) (names : List Text) : Prop where
  method : r.method = r'.method
  path : r.path = r'.path
  query : (pairsOf (r.query.getD [])).Perm (pairsOf (r'.query.getD []))
  headers : ∀ name ∈ names, signedValue r name = signedValue r' name
  payload : payloadOf r = payloadOf r'

theorem canonical_iff {r' : Parts} {names : List Text} :
    canonical r names = canonical r' names ↔ SameLines r r' names := by
  constructor
  · intro h
    unfold canonical at h
    obtain ⟨hmethod, h⟩ := line_inj r.method_line r'.method_line h
    obtain ⟨hpath, h⟩ := line_inj r.path_line r'.path_line h
    obtain ⟨hquery, h⟩ := line_inj (canonicalQuery_line r.query_getD)
      (canonicalQuery_line r'.query_getD) h
    obtain ⟨hheaders, h⟩ := headerLines_inj h
    have hpayload := List.append_cancel_left (List.cons.inj h).2
    exact ⟨hmethod, hpath, canonicalQuery_iff.mp hquery, hheaders, (List.cons.inj hpayload).2⟩
  · rintro ⟨hmethod, hpath, hquery, hheaders, hpayload⟩
    have hlines : headerLines r names = headerLines r' names := by
      unfold headerLines
      refine List.flatMap_congr fun name hname => ?_
      rw [hheaders name hname]
    unfold canonical
    rw [hmethod, hpath, canonicalQuery_iff.mpr hquery, hlines, hpayload]

section

variable {d : Digests} {s3 : Option Credentials} {c : Credentials} {r : Parts}

theorem verified_iff : verified d s3 r = .ok c ↔
    ∃ signed, parse (authorization r) = .ok signed
      ∧ s3.filter (fun c => c.access = signed.access) = some c ∧ c.takes signed.region = true
      ∧ hex (sign d (signingKey d c.secret signed.day signed.region) (toSign d r signed))
        = signed.signature := by
  unfold verified
  cases hparse : parse (authorization r) with
  | error why =>
    constructor
    · nofun
    · rintro ⟨signed, hsigned, -⟩
      cases hsigned
  | ok signed =>
    dsimp only
    cases hfilter : s3.filter fun c => c.access = signed.access with
    | none =>
      constructor
      · nofun
      · rintro ⟨signed', hsigned, hsome, -⟩
        cases hsigned
        rw [hfilter] at hsome
        cases hsome
    | some c' =>
      dsimp only
      constructor
      · intro h
        split at h
        · cases h
        · rename_i htakes
          split at h
          · rename_i hsame
            obtain rfl := Except.ok.inj h
            refine ⟨signed, rfl, hfilter, ?_, (same_iff _ _).mp hsame⟩
            simpa using htakes
          · cases h
      · rintro ⟨signed', hsigned, hsome, htakes, hsig⟩
        cases hsigned
        rw [hfilter] at hsome
        cases hsome
        rw [htakes, (same_iff _ _).mpr hsig]
        rfl

variable {r' : Parts}

theorem toSign_inj (hd : d.Injective) {signed : Signed}
    (h : toSign d r signed = toSign d r' signed) :
    stampOf r = stampOf r' ∧ canonical r signed.headers = canonical r' signed.headers := by
  unfold toSign at h
  have h := (List.cons.inj (List.append_cancel_left h)).2
  obtain ⟨hstamp, h⟩ := line_inj (headerValue_line r _) (headerValue_line r' _) h
  have h := (List.cons.inj (List.append_cancel_left h)).2
  exact ⟨hstamp, utf8_injective (hd.sha256 (hex_injective h))⟩

/-- Two requests that verify under one authorization have the same lines and
stamps. -/
theorem verified_same (hd : d.Injective) (h : verified d s3 r = .ok c)
    (h' : verified d s3 r' = .ok c) (hauth : authorization r = authorization r') {signed : Signed}
    (hparse : parse (authorization r) = .ok signed) :
    stampOf r = stampOf r' ∧ SameLines r r' signed.headers := by
  obtain ⟨signed₁, hparse₁, -, -, hsig⟩ := verified_iff.mp h
  obtain ⟨signed₂, hparse₂, -, -, hsig'⟩ := verified_iff.mp h'
  rw [← hauth, hparse] at hparse₂
  rw [hparse] at hparse₁
  cases hparse₁
  cases hparse₂
  have heq := utf8_injective (hd.hmac _ (hex_injective (hsig.trans hsig'.symm)))
  obtain ⟨hstamp, hcanonical⟩ := toSign_inj hd heq
  exact ⟨hstamp, canonical_iff.mp hcanonical⟩

/-- A request with the same lines and stamp under the same authorization
verifies too. -/
theorem verified_of_same (h : verified d s3 r = .ok c)
    (hauth : authorization r' = authorization r) (hstamp : stampOf r' = stampOf r)
    (hlines : ∀ signed, parse (authorization r) = .ok signed → SameLines r' r signed.headers) :
    verified d s3 r' = .ok c := by
  obtain ⟨signed, hparse, haccess, htakes, hsig⟩ := verified_iff.mp h
  refine verified_iff.mpr ⟨signed, by rw [hauth]; exact hparse, haccess, htakes, ?_⟩
  rw [← hsig]
  unfold toSign
  rw [hstamp, canonical_iff.mpr (hlines signed hparse)]

end

/-! ## What is asked -/

/-- The text a value decodes to, where it can be cut. -/
def decodedText (value : Text) : Text :=
  match decoded value with
  | .ok text => text
  | _ => []

theorem decoded_text {value : Text} (h : cuttable (utf8 value) = true) :
    decoded value = .ok (decodedText value) := by
  obtain ⟨text, htext⟩ := decoded_cut h
  unfold decodedText
  rw [htext]

/-- A value of the query panics as it is decoded. -/
def Panics (query : Text) : Prop := ∃ p ∈ pairsOf query, cuttable (utf8 p.2) = false

/-- No name is repeated with values that decode differently. -/
def Unequivocal (query : Text) : Prop :=
  ∀ p ∈ pairsOf query, ∀ p' ∈ pairsOf query, p.1 = p'.1 → decoded p.2 = decoded p'.2

theorem insertAll_cut (h : ∀ p ∈ pairs, cuttable (utf8 p.2) = true) : ∀ asked : OrdMap Text Text,
      insertAll pairs asked
        = .ok (pairs.foldl (fun m p => m.insert p.1 (decodedText p.2)) asked) := by
  induction pairs with
  | nil => exact fun asked => rfl
  | cons p pairs ih =>
    intro asked
    obtain ⟨hp, hpairs⟩ := List.forall_mem_cons.mp h
    rw [insertAll, decoded_text hp]
    exact ih hpairs _

theorem insertAll_panics (hp : p ∈ pairs)
    (h : cuttable (utf8 p.2) = false) : ∀ asked : OrdMap Text Text,
      insertAll pairs asked = .panicked := by
  induction pairs with
  | nil => exact (List.not_mem_nil hp).elim
  | cons q pairs ih =>
    intro asked
    rw [insertAll]
    cases hq : cuttable (utf8 q.2) with
    | false =>
      rw [decoded_panics hq]
      rfl
    | true =>
      rw [decoded_text hq]
      rcases List.mem_cons.mp hp with rfl | hp
      · rw [h] at hq
        cases hq
      · exact ih hp _

theorem cut_of_not_panics (h : ¬ Panics query) :
    ∀ p ∈ pairsOf query, cuttable (utf8 p.2) = true := by
  intro p hp
  by_contra hcut
  exact h ⟨p, hp, Bool.eq_false_iff.mpr hcut⟩

/-- The entries of the map a query without equivocal names is read as. -/
theorem mem_foldl_decoded
    (h : ∀ p ∈ pairs, ∀ p' ∈ pairs, p.1 = p'.1 → decodedText p.2 = decodedText p'.2)
    {e : Text × Text} : e ∈ (pairs.foldl (fun m p => m.insert p.1 (decodedText p.2))
        (OrdMap.empty : OrdMap Text Text)).entries
      ↔ ∃ p ∈ pairs, e = (p.1, decodedText p.2) := by
  constructor
  · intro he
    rcases OrdMap.of_mem_foldl_insert he with hnil | hp
    · exact (List.not_mem_nil hnil).elim
    · exact hp
  · rintro ⟨p, hp, rfl⟩
    obtain ⟨value, hvalue⟩ := OrdMap.key_foldl_insert (k := Prod.fst)
      (v := fun p : Text × Text => decodedText p.2) (m := (OrdMap.empty : OrdMap Text Text))
      (.inr ⟨p, hp, rfl⟩)
    rcases OrdMap.of_mem_foldl_insert hvalue with hnil | ⟨p', hp', heq⟩
    · exact (List.not_mem_nil hnil).elim
    · obtain ⟨hname, rfl⟩ := Prod.mk.inj heq
      rw [h p hp p' hp' hname]
      exact hvalue

theorem queryOf_perm {query' : Text} (hperm : (pairsOf query).Perm (pairsOf query'))
    (h : Panics query ∨ Unequivocal query) : queryOf query = queryOf query' := by
  unfold queryOf
  by_cases hpanics : Panics query
  · obtain ⟨p, hp, hcut⟩ := hpanics
    rw [insertAll_panics hp hcut, insertAll_panics (hperm.mem_iff.mp hp) hcut]
  · have hcut := cut_of_not_panics hpanics
    have hcut' : ∀ p ∈ pairsOf query', cuttable (utf8 p.2) = true :=
      fun p hp => hcut p (hperm.mem_iff.mpr hp)
    have hsame : ∀ p ∈ pairsOf query, ∀ p' ∈ pairsOf query, p.1 = p'.1 →
        decodedText p.2 = decodedText p'.2 := by
      intro p hp p' hp' hname
      have hdecoded := h.resolve_left hpanics p hp p' hp' hname
      rw [decoded_text (hcut p hp), decoded_text (hcut p' hp')] at hdecoded
      exact Outcome.ok.inj hdecoded
    have hsame' : ∀ p ∈ pairsOf query', ∀ p' ∈ pairsOf query', p.1 = p'.1 →
        decodedText p.2 = decodedText p'.2 :=
      fun p hp p' hp' => hsame p (hperm.mem_iff.mpr hp) p' (hperm.mem_iff.mpr hp')
    rw [insertAll_cut hcut, insertAll_cut hcut']
    refine congrArg Outcome.ok (OrdMap.ext_mem fun e => ?_)
    rw [mem_foldl_decoded hsame, mem_foldl_decoded hsame']
    exact exists_congr fun p => and_congr_left' hperm.mem_iff

/-- The value that was inserted last is the one in the map, so one that is
not in it can be put there by moving its pair to the end. -/
theorem exists_reordered (hpanics : ¬ Panics query) (h : ¬ Unequivocal query) :
    ∃ pairs : List (Text × Text), pairs.Perm (pairsOf query)
      ∧ queryOf (['&'].intercalate (pairs.map writePair)) ≠ queryOf query := by
  have hcut := cut_of_not_panics hpanics
  unfold Unequivocal at h
  push Not at h
  obtain ⟨p, hp, p', hp', hname, hne⟩ := h
  rw [decoded_text (hcut p hp), decoded_text (hcut p' hp')] at hne
  have hread : queryOf query = .ok ((pairsOf query).foldl
      (fun m p => m.insert p.1 (decodedText p.2)) OrdMap.empty) := insertAll_cut hcut _
  generalize hm : (pairsOf query).foldl (fun m p => m.insert p.1 (decodedText p.2))
    (OrdMap.empty : OrdMap Text Text) = m at hread
  obtain ⟨u, hu, hother⟩ : ∃ u ∈ pairsOf query, m.get? u.1 ≠ some (decodedText u.2) := by
    by_cases hp₁ : m.get? p.1 = some (decodedText p.2)
    · refine ⟨p', hp', ?_⟩
      rw [← hname, hp₁]
      exact fun heq => hne (congrArg Outcome.ok (Option.some.inj heq))
    · exact ⟨p, hp, hp₁⟩
  have hperm : ((pairsOf query).erase u ++ [u]).Perm (pairsOf query) :=
    (List.perm_append_singleton u _).trans (List.perm_cons_erase hu).symm
  refine ⟨(pairsOf query).erase u ++ [u], hperm, ?_⟩
  have hmoved : queryOf (['&'].intercalate (((pairsOf query).erase u ++ [u]).map writePair))
      = .ok ((((pairsOf query).erase u).foldl (fun m p => m.insert p.1 (decodedText p.2))
          OrdMap.empty).insert u.1 (decodedText u.2)) := by
    unfold queryOf
    rw [pairsOf_write fun q hq => (mem_pairsOf (hperm.mem_iff.mp hq)).1,
      insertAll_cut fun q hq => hcut q (hperm.mem_iff.mp hq), List.foldl_append]
    rfl
  rw [hmoved, hread]
  intro heq
  refine hother ?_
  rw [← Outcome.ok.inj heq, OrdMap.get?_insert, if_pos rfl]

/-! ## What a signature binds -/

/-- The request with its pairs in another order. -/
def Parts.reordered (r : Parts) (pairs : List (Text × Text))
    (h : pairs.Perm (pairsOf (r.query.getD []))) : Parts :=
  { r with
    query := some (['&'].intercalate (pairs.map writePair))
    query_line := by
      intro q hq
      cases hq
      exact write_line fun p hp => pairs_line r.query_getD p (h.mem_iff.mp hp) }

theorem Parts.reordered_lines (h : pairs.Perm (pairsOf (r.query.getD []))) (names : List Text) :
    SameLines (r.reordered pairs h) r names := by
  refine ⟨rfl, rfl, ?_, fun _ _ => rfl, rfl⟩
  show (pairsOf (['&'].intercalate (pairs.map writePair))).Perm (pairsOf (r.query.getD []))
  rw [pairsOf_write fun p hp => (mem_pairsOf (h.mem_iff.mp hp)).1]
  exact h

theorem Parts.reordered_authorization (h : pairs.Perm (pairsOf (r.query.getD []))) :
    authorization (r.reordered pairs h) = authorization r := rfl

theorem Parts.reordered_verified {d : Digests} {s3 : Option Credentials} {c : Credentials} (h : pairs.Perm (pairsOf (r.query.getD [])))
    (hverified : verified d s3 r = .ok c) : verified d s3 (r.reordered pairs h) = .ok c :=
  verified_of_same hverified (reordered_authorization h) rfl fun _ _ => reordered_lines h _

/-- A request that verifies binds, of every request under its authorization
that verifies, the stamp and the signed lines, and no more than these. It
binds the question its query asks exactly when the query panics or repeats
no name with values that decode differently. -/
theorem signature_binds (d : Digests) (hd : d.Injective) (s3 : Option Credentials) (c : Credentials)
    (r : Parts) (h : verified d s3 r = .ok c) (signed : Signed)
    (hparse : parse (authorization r) = .ok signed) : (∀ r', authorization r' = authorization r →
        (verified d s3 r' = .ok c ↔ stampOf r' = stampOf r ∧ SameLines r' r signed.headers))
      ∧ ((∀ r', authorization r' = authorization r → verified d s3 r' = .ok c →
          stampOf r' = stampOf r ∧ SameLines r' r signed.headers
            ∧ queryOf (r'.query.getD []) = queryOf (r.query.getD []))
        ↔ Panics (r.query.getD []) ∨ Unequivocal (r.query.getD [])) := by
  have hbound : ∀ r', authorization r' = authorization r → verified d s3 r' = .ok c →
      stampOf r' = stampOf r ∧ SameLines r' r signed.headers := by
    intro r' hauth h'
    exact verified_same hd h' h hauth (by rw [hauth]; exact hparse)
  refine ⟨fun r' hauth => ⟨hbound r' hauth, ?_⟩, ?_, ?_⟩
  · rintro ⟨hstamp, hlines⟩
    refine verified_of_same h hauth hstamp fun signed' hparse' => ?_
    rw [hparse] at hparse'
    cases hparse'
    exact hlines
  · intro hall
    by_contra hnot
    obtain ⟨hpanics, hequivocal⟩ := not_or.mp hnot
    obtain ⟨pairs, hperm, hne⟩ := exists_reordered hpanics hequivocal
    exact hne (hall (r.reordered pairs hperm) (Parts.reordered_authorization hperm)
      (Parts.reordered_verified hperm h)).2.2
  · intro hcondition r' hauth h'
    obtain ⟨hstamp, hlines⟩ := hbound r' hauth h'
    exact ⟨hstamp, hlines, (queryOf_perm hlines.query.symm hcondition).symm⟩

/-! ## A listing asked with two prefixes -/

/-- The digests of a table, and longer texts for every other message. -/
def digestIn (table : List ((List UInt8 × List UInt8) × List UInt8)) (key message : List UInt8) :
    List UInt8 :=
  match table.find? fun e => e.1 = (key, message) with
  | some e => e.2
  | none => List.replicate 33 0 ++ message

theorem digestIn_injective {table : List ((List UInt8 × List UInt8) × List UInt8)}
    (hnodup : (table.map Prod.snd).Nodup) (hall : (table.all fun e => e.2.length ≤ 32) = true)
    (key : List UInt8) : Function.Injective (digestIn table key) := by
  have hlen : ∀ e ∈ table, e.2.length ≤ 32 := by simpa using hall
  intro m m' h
  unfold digestIn at h
  cases hm : table.find? fun e => e.1 = (key, m) with
  | none =>
    cases hm' : table.find? fun e => e.1 = (key, m') with
    | none =>
      rw [hm, hm'] at h
      exact List.append_cancel_left h
    | some e' =>
      rw [hm, hm'] at h
      have hle := hlen e' (List.mem_of_find?_eq_some hm')
      have heq := congrArg List.length h
      simp at heq
      omega
  | some e =>
    have hmem := List.mem_of_find?_eq_some hm
    have hkey : e.1 = (key, m) := by simpa using List.find?_some hm
    cases hm' : table.find? fun e => e.1 = (key, m') with
    | none =>
      rw [hm, hm'] at h
      have hle := hlen e hmem
      have heq := congrArg List.length h
      simp at heq
      omega
    | some e' =>
      rw [hm, hm'] at h
      have hmem' := List.mem_of_find?_eq_some hm'
      have hkey' : e'.1 = (key, m') := by simpa using List.find?_some hm'
      obtain rfl := List.inj_on_of_nodup_map hnodup hmem hmem' h
      exact (Prod.mk.inj (hkey.symm.trans hkey')).2

def dayKey : List UInt8 :=
  [236, 10, 55, 64, 164, 76, 86, 210, 226, 95, 179, 142, 236, 23, 133, 174, 226, 172, 150, 46,
    125, 245, 26, 186, 124, 159, 136, 249, 112, 48, 90, 24]

def regionKey : List UInt8 :=
  [199, 27, 158, 21, 139, 142, 100, 113, 249, 231, 140, 56, 251, 172, 51, 21, 163, 53, 118, 159,
    112, 31, 196, 52, 11, 83, 234, 175, 225, 34, 234, 167]

def serviceKey : List UInt8 :=
  [113, 204, 122, 69, 207, 19, 32, 229, 102, 111, 206, 131, 10, 177, 72, 146, 178, 201, 237, 207,
    43, 35, 139, 209, 75, 122, 36, 52, 187, 77, 19, 145]

def requestKey : List UInt8 :=
  [63, 69, 1, 206, 82, 182, 249, 107, 33, 132, 132, 100, 91, 172, 164, 217, 7, 243, 235, 213, 166,
    173, 213, 17, 166, 148, 126, 8, 174, 36, 18, 67]

def sampleHash : List UInt8 :=
  [117, 169, 241, 66, 142, 16, 218, 43, 58, 54, 249, 161, 31, 14, 245, 115, 230, 140, 176, 9, 23,
    204, 33, 217, 149, 203, 218, 82, 250, 60, 110, 98]

def sampleSignature : List UInt8 :=
  [32, 69, 73, 120, 241, 166, 122, 177, 250, 104, 38, 156, 101, 33, 38, 194, 28, 138, 6, 7, 210,
    11, 202, 242, 199, 171, 199, 9, 169, 120, 164, 69]

def sampleCanonical : Text :=
  "GET\n/storage/v1/s3/b\nprefix=a&prefix=b\nhost:h\n\nhost\n".toList

def sampleToSign : Text :=
  "AWS4-HMAC-SHA256\n20240101T000000Z\n20240101/local/s3/aws4_request\n".toList ++ hex sampleHash

/-- What HMAC-SHA256 gives on the way to one signature. -/
def sampleHmacs : List ((List UInt8 × List UInt8) × List UInt8) :=
  [((utf8 "AWS4secret".toList, utf8 "20240101".toList), dayKey),
    ((dayKey, utf8 "local".toList), regionKey),
    ((regionKey, utf8 "s3".toList), serviceKey),
    ((serviceKey, utf8 "aws4_request".toList), requestKey),
    ((requestKey, utf8 sampleToSign), sampleSignature)]

def sampleSums : List ((List UInt8 × List UInt8) × List UInt8) :=
  [(([], utf8 sampleCanonical), sampleHash)]

def sampleDigests : Digests where
  hmac := digestIn sampleHmacs
  sha256 := digestIn sampleSums []

theorem sampleDigests_injective : sampleDigests.Injective := by
  have hmacs : (sampleHmacs.map Prod.snd).Nodup := by decide +kernel
  have hmacLengths : (sampleHmacs.all fun e => e.2.length ≤ 32) = true := by decide +kernel
  have sums : (sampleSums.map Prod.snd).Nodup := by decide +kernel
  have sumLengths : (sampleSums.all fun e => e.2.length ≤ 32) = true := by decide +kernel
  have hsha := digestIn_injective sums sumLengths []
  constructor
  · exact digestIn_injective hmacs hmacLengths
  · unfold sampleDigests
    exact hsha

def sampleCredentials : Credentials :=
  ⟨"access".toList, "secret".toList, "local".toList⟩

def sampleHeaders : List (Text × List UInt8) :=
  [("host".toList, utf8 "h".toList),
    ("x-amz-date".toList, utf8 "20240101T000000Z".toList),
    ("authorization".toList, utf8 ("AWS4-HMAC-SHA256 ".toList
      ++ "Credential=access/20240101/local/s3/aws4_request, SignedHeaders=host, Signature=".toList
      ++ hex sampleSignature))]

def asked : Parts where
  method := "GET".toList
  path := "/storage/v1/s3/b".toList
  query := some "prefix=a&prefix=b".toList
  headers := sampleHeaders
  method_line := by decide +kernel
  path_line := by decide +kernel
  query_line := by
    intro q hq
    cases hq
    decide +kernel

def askedTurned : Parts :=
  asked.reordered [("prefix".toList, "b".toList), ("prefix".toList, "a".toList)]
    (by decide +kernel)

def askedSigned : Signed where
  access := "access".toList
  day := "20240101".toList
  region := "local".toList
  headers := ["host".toList]
  signature := hex sampleSignature

theorem asked_parse : parse (authorization asked) = .ok askedSigned := by
  decide +kernel

theorem asked_toSign : toSign sampleDigests asked askedSigned = sampleToSign := by
  have hcanonical : canonical asked askedSigned.headers = sampleCanonical := by
    decide +kernel
  have hhash : hex (sampleDigests.sha256 (utf8 sampleCanonical)) = hex sampleHash := by
    decide +kernel
  have hstamp : stampOf asked = "20240101T000000Z".toList := by
    decide +kernel
  unfold toSign
  rw [hcanonical, hhash, hstamp]
  decide +kernel

theorem askedSigned_key :
    signingKey sampleDigests sampleCredentials.secret askedSigned.day askedSigned.region
      = requestKey := by
  decide +kernel

theorem asked_verified :
    verified sampleDigests (some sampleCredentials) asked = .ok sampleCredentials := by
  refine verified_iff.mpr ⟨askedSigned, asked_parse, by decide +kernel, by decide +kernel, ?_⟩
  rw [askedSigned_key, asked_toSign]
  decide +kernel

theorem askedTurned_verified :
    verified sampleDigests (some sampleCredentials) askedTurned = .ok sampleCredentials :=
  Parts.reordered_verified _ asked_verified

/-- The two orders of a repeated prefix have the same lines. -/
theorem signature_binds_listing :
    stampOf askedTurned = stampOf asked
      ∧ SameLines askedTurned asked askedSigned.headers :=
  ((signature_binds sampleDigests sampleDigests_injective (some sampleCredentials)
    sampleCredentials asked asked_verified askedSigned asked_parse).1 askedTurned
      (Parts.reordered_authorization _)).mp askedTurned_verified

/-- They are listings of two prefixes. -/
theorem turned_query_differs :
    ¬ ∀ (d : Digests) (_ : d.Injective) (s3 : Option Credentials) (c : Credentials)
        (r r' : Parts), verified d s3 r = .ok c → verified d s3 r' = .ok c →
        authorization r' = authorization r →
        queryOf (r'.query.getD []) = queryOf (r.query.getD []) := by
  intro h
  have heq := h sampleDigests sampleDigests_injective (some sampleCredentials) sampleCredentials
    asked askedTurned asked_verified askedTurned_verified (Parts.reordered_authorization _)
  have hlisted := congrArg (fun asked => asked.bind fun m =>
    Outcome.ok (m.get? "prefix".toList)) heq
  revert hlisted
  decide +kernel

end Zou.S3
