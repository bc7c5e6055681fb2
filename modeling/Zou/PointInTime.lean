import Mathlib.Data.List.Induction
import Zou.Branch
import Zou.HorizonFor
import Zou.LeaseFence

/-!
# Point in time lookup

An update that changed the state leaves a snapshot of what it published
under its epoch and its second, by a put that keeps what is there.
`snapshot_at` lists the snapshots and takes the newest at or before a time,
the last one listed where two have the same second.

The protocol runs are those of the lease. What they publish and put is
written down beside them: the updates in the order of their swaps, the
snapshots in the order in which they landed, and the updates whose caller
did not hear of the swap or whose put failed.
-/

namespace Zou.PointInTime

/-! ## The lookup -/

/-- The directory of a tenant's snapshots. -/
def manifestsDir (dir : List Char) : List Char := dir ++ "/manifests/".toList

/-- The stamp inside a history key. -/
def historyUnix (dir key : List Char) : Option Nat := do
  let name ← stripPrefix dir key
  let name ← stripSuffix ".json".toList name
  let (_, unix) ← splitOnce '-' name
  parseU64 unix

/-- One turn of the loop over the listed keys. -/
def newer (dir : List Char) (unixTs : Nat) (best : Option (Nat × List Char)) (key : List Char) :
    Option (Nat × List Char) :=
  match historyUnix dir key with
  | none => best
  | some stamp =>
    if stamp ≤ unixTs ∧ best.all (·.1 ≤ stamp) then some (stamp, key) else best

/-- The key that the loop ends with. -/
def newestKey (dir : List Char) (unixTs : Nat) (keys : List (List Char)) :
    Option (Nat × List Char) :=
  keys.foldl (newer dir unixTs) none

/-- `snapshot_at`, of what the store lists and answers. -/
def snapshotAt (dir : List Char) (list : List (List Char)) (get : List Char → Option Manifest)
    (unixTs : Nat) : Except BranchError Manifest :=
  match newestKey (manifestsDir dir) unixTs list with
  | none => .error (.noHistory unixTs)
  | some (_, key) =>
    match get key with
    | none => .error (.noHistory unixTs)
    | some m => m.fromJson.mapError .manifest

/-- What a store answers that has the snapshots of a history: a listing is
sorted. -/
structure Listing (history : Nat × Nat → Option Manifest) (dir : List Char)
    (list : List (List Char)) (get : List Char → Option Manifest) : Prop where
  sorted : list.Pairwise (· < ·)
  mem : ∀ key, key ∈ list ↔ ∃ epoch unix, history (epoch, unix) ≠ none
    ∧ key = manifestHistory dir epoch unix
  get : ∀ epoch unix, get (manifestHistory dir epoch unix) = history (epoch, unix)

/-! ## Keys -/

theorem historyUnix_manifestHistory (dir : List Char) (epoch : Nat) {unix : Nat}
    (h : unix < 2 ^ 64) :
    historyUnix (manifestsDir dir) (manifestHistory dir epoch unix) = some unix := by
  have hkey : manifestHistory dir epoch unix
      = manifestsDir dir ++ (padded epoch ++ '-' :: padded unix ++ ".json".toList) := by
    simp [manifestHistory, manifestsDir]
  have hsplit : splitOnce '-' (padded epoch ++ '-' :: padded unix)
      = some (padded epoch, padded unix) := splitOnce_append (not_mem_padded rfl _) _
  unfold historyUnix
  rw [hkey, stripPrefix_append]
  simp only [Option.bind_eq_bind, Option.bind_some, stripSuffix_append, hsplit, parseU64_padded h]

theorem padded_length {n : Nat} (h : n < 10 ^ 16) : (padded n).length = 16 := by
  have hdigits : (Nat.toDigits 10 n).length ≤ 16 :=
    (Nat.length_toDigits_le_iff (by decide) (by decide)).mpr h
  unfold padded
  rw [List.length_append, List.length_replicate]
  omega

theorem ofDigitChars_lt {s : List Char} (hs : ∀ c ∈ s, c.isDigit = true) (n : Nat) :
    Nat.ofDigitChars 10 s n < 10 ^ s.length * (n + 1) := by
  induction s generalizing n with
  | nil =>
    rw [Nat.ofDigitChars_nil, List.length_nil]
    omega
  | cons c s ih =>
    rw [List.forall_mem_cons] at hs
    have hc : c.toNat - '0'.toNat < 10 := by
      have hdigit : c.toNat ≤ 57 := (Char.isDigit_iff_toNat.mp hs.1).2
      have hzero : '0'.toNat = 48 := rfl
      omega
    have hle : 10 ^ s.length * (10 * n + (c.toNat - '0'.toNat) + 1)
        ≤ 10 ^ s.length * (10 * (n + 1)) := Nat.mul_le_mul_left _ (by omega)
    rw [Nat.ofDigitChars_cons, List.length_cons, Nat.pow_succ, Nat.mul_assoc]
    exact Nat.lt_of_lt_of_le (ih hs.2 _) hle

/-- Of numbers of as many digits the text order is that of the values. -/
theorem ofDigitChars_mono {s t : List Char} (hlen : s.length = t.length)
    (hs : ∀ c ∈ s, c.isDigit = true) (ht : ∀ c ∈ t, c.isDigit = true) (h : s < t) (n : Nat) :
    Nat.ofDigitChars 10 s n < Nat.ofDigitChars 10 t n := by
  induction s generalizing t n with
  | nil =>
    rw [List.length_nil, eq_comm, List.length_eq_zero_iff] at hlen
    rw [hlen] at h
    cases h
  | cons c s ih =>
    cases t with
    | nil => cases hlen
    | cons d t =>
      rw [List.forall_mem_cons] at hs ht
      rw [List.length_cons, List.length_cons] at hlen
      have hc : '0'.toNat ≤ c.toNat := (Char.isDigit_iff_toNat.mp hs.1).1
      rw [Nat.ofDigitChars_cons, Nat.ofDigitChars_cons]
      rcases List.cons_lt_cons_iff.mp h with hcd | ⟨rfl, htail⟩
      · have hlt : c.toNat < d.toNat := hcd
        have hzero : '0'.toNat = 48 := rfl
        have hstep : 10 * n + (c.toNat - '0'.toNat) + 1 ≤ 10 * n + (d.toNat - '0'.toNat) := by
          omega
        have hlow : 10 ^ t.length * (10 * n + (d.toNat - '0'.toNat))
            ≤ Nat.ofDigitChars 10 t (10 * n + (d.toNat - '0'.toNat)) := by
          rw [Nat.ofDigitChars_eq_ofDigitChars_zero]
          exact Nat.le_add_right _ _
        refine Nat.lt_of_lt_of_le (ofDigitChars_lt hs.2 _) (Nat.le_trans ?_ hlow)
        rw [Nat.succ.inj hlen]
        exact Nat.mul_le_mul_left _ hstep
      · exact ih (Nat.succ.inj hlen) hs.2 ht.2 htail _

theorem lt_append_of_lt {s t : List Char} (hlen : s.length = t.length) (h : s < t)
    (rest rest' : List Char) : s ++ rest < t ++ rest' := by
  induction s generalizing t with
  | nil =>
    rw [List.length_nil, eq_comm, List.length_eq_zero_iff] at hlen
    rw [hlen] at h
    cases h
  | cons c s ih =>
    cases t with
    | nil => cases hlen
    | cons d t =>
      rw [List.cons_append, List.cons_append, List.cons_lt_cons_iff]
      exact (List.cons_lt_cons_iff.mp h).imp id
        fun ⟨heq, htail⟩ => ⟨heq, ih (Nat.succ.inj hlen) htail⟩

/-- The listing has the snapshots of one second in the order of their epochs. -/
theorem manifestHistory_lt (dir : List Char) {e e' : Nat} (unix : Nat) (h : e < e')
    (he' : e' < 10 ^ 16) : manifestHistory dir e unix < manifestHistory dir e' unix := by
  have hlen : (padded e).length = (padded e').length :=
    (padded_length (Nat.lt_trans h he')).trans (padded_length he').symm
  have hlt : padded e < padded e' := by
    by_contra hnot
    rcases List.le_iff_lt_or_eq.mp (List.not_lt.mp hnot) with hgt | heq
    · have hval := ofDigitChars_mono hlen.symm (padded_digits e') (padded_digits e) hgt 0
      rw [ofDigitChars_padded, ofDigitChars_padded] at hval
      omega
    · have hval := congrArg (fun s => Nat.ofDigitChars 10 s 0) heq
      simp only [ofDigitChars_padded] at hval
      omega
  unfold manifestHistory
  simp only [List.append_assoc]
  exact List.append_left_lt (List.append_left_lt (lt_append_of_lt hlen hlt _ _))

/-! ## The newest key -/

/-- What the loop knows of the keys behind it. -/
def Newest (dir : List Char) (unixTs : Nat) (keys : List (List Char)) :
    Option (Nat × List Char) → Prop
  | none => ∀ key ∈ keys, ∀ t, historyUnix dir key = some t → unixTs < t
  | some (stamp, key) => key ∈ keys ∧ historyUnix dir key = some stamp ∧ stamp ≤ unixTs
      ∧ ∀ other ∈ keys, ∀ t, historyUnix dir other = some t → t ≤ unixTs →
        t < stamp ∨ t = stamp ∧ ¬key < other

theorem newest_snoc {dir : List Char} {unixTs : Nat} {keys : List (List Char)} {key : List Char}
    {best : Option (Nat × List Char)} (hlast : ∀ k ∈ keys, k < key)
    (h : Newest dir unixTs keys best) :
    Newest dir unixTs (keys ++ [key]) (newer dir unixTs best key) := by
  have hall : ∀ {P : List Char → Prop}, (∀ k ∈ keys, P k) → P key → ∀ k ∈ keys ++ [key], P k := by
    intro P hkeys hkey k hk
    rcases List.mem_append.mp hk with hk | hk
    · exact hkeys k hk
    · exact List.mem_singleton.mp hk ▸ hkey
  unfold newer
  cases hstamp : historyUnix dir key with
  | none =>
    cases best with
    | none => exact hall h fun t ht => by rw [hstamp] at ht; cases ht
    | some b =>
      obtain ⟨hmem, hb, hle, hmax⟩ := h
      refine ⟨List.mem_append_left _ hmem, hb, hle, hall hmax fun t ht => ?_⟩
      rw [hstamp] at ht
      cases ht
  | some stamp =>
    dsimp only
    by_cases htake : stamp ≤ unixTs ∧ best.all (·.1 ≤ stamp)
    · rw [if_pos htake]
      refine ⟨List.mem_append_right _ List.mem_cons_self, hstamp, htake.1, ?_⟩
      refine hall (fun other hother t ht htle => ?_) fun t ht _ => ?_
      · have hlt : ¬key < other := List.lt_asymm (hlast other hother)
        cases best with
        | none => exact absurd (h other hother t ht) (Nat.not_lt.mpr htle)
        | some b =>
          have hb : b.1 ≤ stamp := of_decide_eq_true htake.2
          rcases h.2.2.2 other hother t ht htle with hless | ⟨heq, -⟩
          · exact .inl (Nat.lt_of_lt_of_le hless hb)
          · rcases Nat.lt_or_ge t stamp with hless | hge
            · exact .inl hless
            · exact .inr ⟨Nat.le_antisymm (heq ▸ hb) hge, hlt⟩
      · rw [hstamp] at ht
        exact .inr ⟨(Option.some.inj ht).symm, List.lt_irrefl key⟩
    · rw [if_neg htake]
      cases best with
      | none =>
        refine hall h fun t ht => ?_
        rw [hstamp] at ht
        cases ht
        exact Nat.lt_of_not_le fun hle => htake ⟨hle, rfl⟩
      | some b =>
        obtain ⟨hmem, hb, hle, hmax⟩ := h
        refine ⟨List.mem_append_left _ hmem, hb, hle, hall hmax fun t ht htle => ?_⟩
        rw [hstamp] at ht
        cases ht
        exact .inl (Nat.lt_of_not_le fun hbs => htake ⟨htle, decide_eq_true hbs⟩)

theorem newest_newestKey (dir : List Char) (unixTs : Nat) {keys : List (List Char)}
    (hsorted : keys.Pairwise (· < ·)) : Newest dir unixTs keys (newestKey dir unixTs keys) := by
  induction keys using List.reverseRecOn with
  | nil =>
    nofun
  | append_singleton keys key ih =>
    rw [List.pairwise_append] at hsorted
    have hlast : ∀ k ∈ keys, k < key := fun k hk =>
      hsorted.2.2 k hk key List.mem_cons_self
    unfold newestKey
    rw [List.foldl_append, List.foldl_cons, List.foldl_nil]
    exact newest_snoc hlast (ih hsorted.1)

/-- The lookup answers with the snapshot of the newest second at or before
the time, and of the highest epoch in it. -/
theorem snapshotAt_newest {history : Nat × Nat → Option Manifest} {dir : List Char}
    {list : List (List Char)} {get : List Char → Option Manifest} {unixTs epoch unix : Nat}
    {m : Manifest} (hlist : Listing history dir list get)
    (hsizes : ∀ e t, history (e, t) ≠ none → e < 10 ^ 16 ∧ t < 2 ^ 64)
    (hm : history (epoch, unix) = some m) (hle : unix ≤ unixTs)
    (hmax : ∀ e t, history (e, t) ≠ none → t ≤ unixTs → t ≤ unix ∧ e ≤ epoch) :
    snapshotAt dir list get unixTs = m.fromJson.mapError .manifest := by
  have hpresent : history (epoch, unix) ≠ none := by
    rw [hm]
    exact Option.some_ne_none m
  have hmem := (hlist.mem _).mpr ⟨epoch, unix, hpresent, rfl⟩
  have hstamp := historyUnix_manifestHistory dir epoch (hsizes _ _ hpresent).2
  have hnewest := newest_newestKey (manifestsDir dir) unixTs hlist.sorted
  unfold snapshotAt
  cases hkey : newestKey (manifestsDir dir) unixTs list with
  | none =>
    rw [hkey] at hnewest
    exact absurd (hnewest _ hmem unix hstamp) (Nat.not_lt.mpr hle)
  | some best =>
    obtain ⟨stamp, key⟩ := best
    rw [hkey] at hnewest
    obtain ⟨hin, hread, hbound, hall⟩ := hnewest
    obtain ⟨e, t, hother, rfl⟩ := (hlist.mem key).mp hin
    have hsize := hsizes e t hother
    rw [historyUnix_manifestHistory dir e hsize.2] at hread
    obtain rfl := Option.some.inj hread
    obtain ⟨ht, he⟩ := hmax e t hother hbound
    have htop : t = unix ∧ e = epoch := by
      rcases hall _ hmem unix hstamp hle with hlt | ⟨rfl, hkeys⟩
      · omega
      · refine ⟨rfl, Nat.le_antisymm he (Nat.le_of_not_lt fun hlt => hkeys ?_)⟩
        exact manifestHistory_lt dir unix hlt (hsizes _ _ hpresent).1
    obtain ⟨rfl, rfl⟩ := htop
    dsimp only
    rw [hlist.get, hm]

theorem snapshotAt_none {history : Nat × Nat → Option Manifest} {dir : List Char}
    {list : List (List Char)} {get : List Char → Option Manifest} {unixTs : Nat}
    (hlist : Listing history dir list get)
    (hsizes : ∀ e t, history (e, t) ≠ none → e < 10 ^ 16 ∧ t < 2 ^ 64)
    (hlate : ∀ e t, history (e, t) ≠ none → unixTs < t) :
    snapshotAt dir list get unixTs = .error (.noHistory unixTs) := by
  have hnewest := newest_newestKey (manifestsDir dir) unixTs hlist.sorted
  unfold snapshotAt
  cases hkey : newestKey (manifestsDir dir) unixTs list with
  | none => rfl
  | some best =>
    obtain ⟨stamp, key⟩ := best
    rw [hkey] at hnewest
    obtain ⟨hin, hread, hbound, -⟩ := hnewest
    obtain ⟨e, t, hother, rfl⟩ := (hlist.mem key).mp hin
    rw [historyUnix_manifestHistory dir e (hsizes e t hother).2] at hread
    obtain rfl := Option.some.inj hread
    exact absurd (hlate e t hother) (Nat.not_lt.mpr hbound)

end Zou.PointInTime
