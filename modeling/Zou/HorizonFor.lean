import Zou.Manifest

/-!
# The horizon a merge may cut at

`horizon_for` takes the oldest checkpoint of the live manifest and of the
snapshots of it that are still in retention. A snapshot says when it was
taken in its key only, `<epoch>-<unix>.json` under `manifests/`.

A key is a list of characters. `fromJson` is the reading of a manifest from
the bytes of an object, and `objs` is `none` for an object that is not
there, which a listed snapshot may have become.
-/

namespace Zou

/-! ## The stamp of a snapshot -/

/-- `str::strip_prefix`. -/
def stripPrefix (front s : List Char) : Option (List Char) :=
  if front.isPrefixOf s then some (s.drop front.length) else none

/-- `str::strip_suffix`. -/
def stripSuffix (suffix s : List Char) : Option (List Char) :=
  if suffix.isSuffixOf s then some (s.take (s.length - suffix.length)) else none

/-- `str::split_once`. -/
def splitOnce (sep : Char) (s : List Char) : Option (List Char × List Char) :=
  match s.dropWhile (· ≠ sep) with
  | [] => none
  | _ :: rest => some (s.takeWhile (· ≠ sep), rest)

/-- `str::parse::<u64>`: digits after at most one plus sign. -/
def parseU64 (s : List Char) : Option Nat :=
  let digits := if s.head? = some '+' then s.tail else s
  if digits ≠ [] ∧ digits.all Char.isDigit then
    let n := Nat.ofDigitChars 10 digits 0
    if n < 2 ^ 64 then some n else none
  else none

/-- When a snapshot was taken, as its key says. -/
def snapshotStamp (key : List Char) : Option Nat := do
  let file ← (key.splitOn '/').getLast?
  let name ← stripSuffix ".json".toList file
  let (_, unix) ← splitOnce '-' name
  parseU64 unix

/-- Sixteen digits or more. -/
def padded (n : Nat) : List Char :=
  let digits := Nat.toDigits 10 n
  List.replicate (16 - digits.length) '0' ++ digits

/-- The key of the snapshot taken at `unix` in `epoch`. -/
def manifestHistory (dir : List Char) (epoch unix : Nat) : List Char :=
  dir ++ "/manifests/".toList ++ padded epoch ++ '-' :: padded unix ++ ".json".toList

theorem padded_digits (n : Nat) : ∀ c ∈ padded n, c.isDigit = true := by
  intro c hc
  rcases List.mem_append.mp hc with h | h
  · rw [List.eq_of_mem_replicate h]
    rfl
  · exact Nat.isDigit_of_mem_toDigits (by decide) (by decide) h

theorem padded_ne_nil (n : Nat) : padded n ≠ [] := by
  intro h
  exact Nat.toDigits_ne_nil (List.append_eq_nil_iff.mp h).2

theorem ofDigitChars_padded (n : Nat) : Nat.ofDigitChars 10 (padded n) 0 = n := by
  rw [padded, Nat.ofDigitChars_append, Nat.ofDigitChars_replicate_zero, Nat.mul_zero,
    Nat.ofDigitChars_ten_toDigits]

theorem not_mem_padded {c : Char} (hc : c.isDigit = false) (n : Nat) : c ∉ padded n := by
  intro h
  rw [padded_digits n c h] at hc
  cases hc

theorem parseU64_padded {n : Nat} (h : n < 2 ^ 64) : parseU64 (padded n) = some n := by
  have hhead : (padded n).head? ≠ some '+' := fun hp =>
    not_mem_padded rfl n (List.mem_of_head? hp)
  have hdigits : (padded n).all Char.isDigit = true := List.all_eq_true.mpr (padded_digits n)
  simp only [parseU64, if_neg hhead, hdigits, and_true, if_pos (padded_ne_nil n),
    ofDigitChars_padded, if_pos h]

theorem parseU64_toDigits {n : Nat} (h : n < 2 ^ 64) : parseU64 (Nat.toDigits 10 n) = some n := by
  have hdigit : ∀ c ∈ Nat.toDigits 10 n, c.isDigit = true := fun c hc =>
    Nat.isDigit_of_mem_toDigits (by decide) (by decide) hc
  have hhead : (Nat.toDigits 10 n).head? ≠ some '+' := fun hp => by
    cases hdigit '+' (List.mem_of_head? hp)
  have hdigits : (Nat.toDigits 10 n).all Char.isDigit = true := List.all_eq_true.mpr hdigit
  have hne : Nat.toDigits 10 n ≠ [] := Nat.toDigits_ne_nil
  simp only [parseU64, if_neg hhead, hdigits, and_true, if_pos hne, Nat.ofDigitChars_ten_toDigits,
    if_pos h]

theorem stripPrefix_append (front s : List Char) : stripPrefix front (front ++ s) = some s := by
  have hfront : front.isPrefixOf (front ++ s) = true :=
    List.isPrefixOf_iff_prefix.mpr (List.prefix_append ..)
  unfold stripPrefix
  rw [if_pos hfront, List.drop_left]

theorem stripSuffix_append (s suffix : List Char) : stripSuffix suffix (s ++ suffix) = some s := by
  have hsuffix : suffix.isSuffixOf (s ++ suffix) = true :=
    List.isSuffixOf_iff_suffix.mpr (List.suffix_append ..)
  rw [stripSuffix, if_pos hsuffix]
  simp

theorem stripPrefix_eq_some {front s r : List Char} :
    stripPrefix front s = some r ↔ s = front ++ r := by
  constructor
  · intro h
    unfold stripPrefix at h
    obtain ⟨hfront, heq⟩ := Option.ite_none_right_eq_some.mp h
    obtain ⟨rest, rfl⟩ := List.isPrefixOf_iff_prefix.mp hfront
    rw [List.drop_left] at heq
    rw [Option.some.inj heq]
  · rintro rfl
    exact stripPrefix_append front r

theorem stripSuffix_eq_some {suffix s r : List Char} :
    stripSuffix suffix s = some r ↔ s = r ++ suffix := by
  constructor
  · intro h
    unfold stripSuffix at h
    obtain ⟨hsuffix, heq⟩ := Option.ite_none_right_eq_some.mp h
    obtain ⟨rest, rfl⟩ := List.isSuffixOf_iff_suffix.mp hsuffix
    rw [List.length_append, Nat.add_sub_cancel, List.take_left] at heq
    rw [Option.some.inj heq]
  · rintro rfl
    exact stripSuffix_append r suffix

theorem splitOnce_append {sep : Char} {s : List Char} (h : sep ∉ s) (rest : List Char) :
    splitOnce sep (s ++ sep :: rest) = some (s, rest) := by
  have hs : ∀ c ∈ s, decide (c ≠ sep) = true := by
    intro c hc
    rw [decide_eq_true_eq]
    rintro rfl
    exact h hc
  have hdrop : (s ++ sep :: rest).dropWhile (fun c => decide (c ≠ sep)) = sep :: rest := by
    rw [List.dropWhile_append_of_pos hs]
    simp
  have htake : (s ++ sep :: rest).takeWhile (fun c => decide (c ≠ sep)) = s := by
    rw [List.takeWhile_append_of_pos hs]
    simp
  simp only [splitOnce, hdrop, htake]

theorem splitOnce_spec {sep : Char} {s a b : List Char} (h : splitOnce sep s = some (a, b)) :
    s = a ++ sep :: b ∧ sep ∉ a := by
  unfold splitOnce at h
  have hsplit := List.takeWhile_append_dropWhile (p := fun c => decide (c ≠ sep)) (l := s)
  have hall := List.all_takeWhile (p := fun c => decide (c ≠ sep)) (l := s)
  have hhead := List.head?_dropWhile_not (fun c => decide (c ≠ sep)) s
  split at h
  · cases h
  · rename_i c rest hdrop
    obtain ⟨rfl, rfl⟩ := Prod.mk.inj (Option.some.inj h)
    rw [hdrop] at hsplit hhead
    obtain rfl : c = sep := by simpa using hhead
    refine ⟨hsplit.symm, fun hmem => ?_⟩
    have hne := List.all_eq_true.mp hall c hmem
    simp at hne

theorem not_mem_of_splitOnce {sep : Char} {s : List Char} (h : splitOnce sep s = none) :
    sep ∉ s := by
  intro hmem
  obtain ⟨a, b, rfl, ha⟩ := List.eq_append_cons_of_mem hmem
  rw [splitOnce_append ha] at h
  cases h

theorem mem_of_mem_splitOn (sep : Char) (s : List Char) : ∀ p ∈ s.splitOn sep, ∀ c ∈ p, c ∈ s := by
  induction s with
  | nil =>
    intro p hp c hc
    cases List.mem_singleton.mp hp
    exact hc
  | cons d s ih =>
    intro p hp c hc
    rw [List.splitOn_cons_eq_if_modifyHead] at hp
    split at hp
    · rcases List.mem_cons.mp hp with rfl | hp
      · exact (List.not_mem_nil hc).elim
      · exact .tail _ (ih p hp c hc)
    · cases hs : s.splitOn sep with
      | nil => exact absurd hs (List.splitOn_ne_nil _ _)
      | cons first rest =>
        rw [hs] at hp ih
        rcases List.mem_cons.mp hp with rfl | hp
        · rcases List.mem_cons.mp hc with rfl | hc
          · exact List.mem_cons_self
          · exact .tail _ (ih first List.mem_cons_self c hc)
        · exact .tail _ (ih p (.tail _ hp) c hc)

theorem not_mem_splitOn (sep : Char) (s : List Char) : ∀ p ∈ s.splitOn sep, sep ∉ p := by
  induction s with
  | nil =>
    intro p hp
    cases List.mem_singleton.mp hp
    exact List.not_mem_nil
  | cons c s ih =>
    intro p hp
    rw [List.splitOn_cons_eq_if_modifyHead] at hp
    split at hp
    · rcases List.mem_cons.mp hp with rfl | hp
      · exact List.not_mem_nil
      · exact ih p hp
    · rename_i hc
      cases hs : s.splitOn sep with
      | nil => exact absurd hs (List.splitOn_ne_nil _ _)
      | cons first rest =>
        rw [hs] at hp ih
        rcases List.mem_cons.mp hp with rfl | hp
        · intro hmem
          rcases List.mem_cons.mp hmem with rfl | hmem
          · exact hc (beq_self_eq_true _)
          · exact ih first List.mem_cons_self hmem
        · exact ih p (.tail _ hp)

theorem snapshotStamp_manifestHistory (dir : List Char) (epoch : Nat) {unix : Nat}
    (h : unix < 2 ^ 64) : snapshotStamp (manifestHistory dir epoch unix) = some unix := by
  let file := padded epoch ++ '-' :: padded unix ++ ".json".toList
  have hkey : manifestHistory dir epoch unix = (dir ++ "/manifests".toList) ++ '/' :: file := by
    simp [manifestHistory, file]
  have hfile : '/' ∉ file := by
    simp only [file, List.mem_append, List.mem_cons, not_or]
    exact ⟨⟨not_mem_padded rfl _, by decide, not_mem_padded rfl _⟩, by decide⟩
  have hlast : ((manifestHistory dir epoch unix).splitOn '/').getLast? = some file := by
    rw [hkey, List.splitOn_append_cons_self, List.splitOn_eq_singleton hfile]
    simp
  have hname : stripSuffix ".json".toList file = some (padded epoch ++ '-' :: padded unix) :=
    stripSuffix_append ..
  have hsplit : splitOnce '-' (padded epoch ++ '-' :: padded unix)
      = some (padded epoch, padded unix) :=
    splitOnce_append (not_mem_padded rfl _) _
  simp only [snapshotStamp, hlast, Option.bind_eq_bind, Option.bind_some, hname, hsplit,
    parseU64_padded h]

/-! ## The horizon -/

section Horizon

variable {α E : Type}

inductive HorizonError (E : Type) where
  | noTenant
  | manifest (e : E)
  deriving DecidableEq, Repr

/-- `take`: the checkpoints of one more manifest. -/
def takeCheckpoints (oldest : Lsn) (m : Manifest) : Lsn :=
  m.checkpoints.foldl (fun oldest c => min oldest c.lsn) oldest

/-- A snapshot the gc has not expired. -/
def inRetention (nowUnix retentionSecs : Nat) (key : List Char) : Bool :=
  (snapshotStamp key).any fun stamp => ! decide (nowUnix - stamp ≥ retentionSecs)

variable (fromJson : α → Except E Manifest) (objs : List Char → Option α)

def takeSnapshots (nowUnix retentionSecs : Nat) :
    Lsn → List (List Char) → Except (HorizonError E) Lsn
  | oldest, [] => .ok oldest
  | oldest, key :: keys =>
    if inRetention nowUnix retentionSecs key then
      match objs key with
      | none => takeSnapshots nowUnix retentionSecs oldest keys
      | some data => match fromJson data with
          | .error e => .error (.manifest e)
          | .ok m => takeSnapshots nowUnix retentionSecs (takeCheckpoints oldest m) keys
    else takeSnapshots nowUnix retentionSecs oldest keys

/-- `horizon_for`, over the object of the live manifest and the keys under
`manifests/`. -/
def horizonFor (live : Option α) (snapshots : List (List Char)) (nowUnix retentionSecs : Nat) :
    Except (HorizonError E) Lsn :=
  match live with
  | none => .error .noTenant
  | some data => match fromJson data with
      | .error e => .error (.manifest e)
      | .ok m =>
        takeSnapshots fromJson objs nowUnix retentionSecs (takeCheckpoints (2 ^ 64 - 1) m)
          snapshots

theorem takeCheckpoints_le (oldest : Lsn) (m : Manifest) :
    takeCheckpoints oldest m ≤ oldest ∧ ∀ c ∈ m.checkpoints, takeCheckpoints oldest m ≤ c.lsn := by
  unfold takeCheckpoints
  induction m.checkpoints generalizing oldest with
  | nil => exact ⟨le_rfl, nofun⟩
  | cons c cs ih =>
    obtain ⟨hle, hall⟩ := ih (min oldest c.lsn)
    refine ⟨Nat.le_trans hle (Nat.min_le_left ..), fun c' hc' => ?_⟩
    rcases List.mem_cons.mp hc' with rfl | hin
    · exact Nat.le_trans hle (Nat.min_le_right ..)
    · exact hall c' hin

variable {fromJson objs}

theorem takeSnapshots_le {nowUnix retentionSecs : Nat} {keys : List (List Char)}
    {oldest horizon : Lsn}
    (h : takeSnapshots fromJson objs nowUnix retentionSecs oldest keys = .ok horizon) :
    horizon ≤ oldest ∧ ∀ key ∈ keys, inRetention nowUnix retentionSecs key = true →
      ∀ data m, objs key = some data → fromJson data = .ok m →
        ∀ c ∈ m.checkpoints, horizon ≤ c.lsn := by
  induction keys generalizing oldest with
  | nil =>
    cases h
    exact ⟨le_rfl, nofun⟩
  | cons key keys ih =>
    -- The rest goes by the induction, whatever this key brought.
    have hrest : ∀ {oldest' : Lsn}, oldest' ≤ oldest →
        takeSnapshots fromJson objs nowUnix retentionSecs oldest' keys = .ok horizon →
        (inRetention nowUnix retentionSecs key = true →
          ∀ data m, objs key = some data → fromJson data = .ok m →
            ∀ c ∈ m.checkpoints, oldest' ≤ c.lsn) →
        horizon ≤ oldest ∧ ∀ key' ∈ key :: keys, inRetention nowUnix retentionSecs key' = true →
          ∀ data m, objs key' = some data → fromJson data = .ok m →
            ∀ c ∈ m.checkpoints, horizon ≤ c.lsn := by
      intro oldest' hle htake hkey
      obtain ⟨hhor, hall⟩ := ih htake
      refine ⟨Nat.le_trans hhor hle, fun key' hkey' hin data m hdata hm c hc => ?_⟩
      rcases List.mem_cons.mp hkey' with rfl | hmem
      · exact Nat.le_trans hhor (hkey hin data m hdata hm c hc)
      · exact hall key' hmem hin data m hdata hm c hc
    rw [takeSnapshots] at h
    split at h
    · cases hobj : objs key with
      | none =>
        rw [hobj] at h
        exact hrest le_rfl h fun _ data m hdata => by cases hobj.symm.trans hdata
      | some data =>
        rw [hobj] at h
        dsimp only at h
        cases hm : fromJson data with
        | error e =>
          rw [hm] at h
          cases h
        | ok m =>
          rw [hm] at h
          obtain ⟨hle, hall⟩ := takeCheckpoints_le oldest m
          refine hrest hle h fun _ data' m' hdata' hm' c hc => ?_
          cases hobj.symm.trans hdata'
          cases hm.symm.trans hm'
          exact hall c hc
    · rename_i hout
      exact hrest le_rfl h fun hin => absurd hin hout

/-- The horizon is at or below every checkpoint of the live manifest and of
every snapshot in retention. -/
theorem horizonFor_le {live : Option α} {snapshots : List (List Char)}
    {nowUnix retentionSecs : Nat} {horizon : Lsn}
    (h : horizonFor fromJson objs live snapshots nowUnix retentionSecs = .ok horizon) :
    (∃ data m, live = some data ∧ fromJson data = .ok m ∧ ∀ c ∈ m.checkpoints, horizon ≤ c.lsn)
      ∧ ∀ key ∈ snapshots, inRetention nowUnix retentionSecs key = true →
        ∀ data m, objs key = some data → fromJson data = .ok m →
          ∀ c ∈ m.checkpoints, horizon ≤ c.lsn := by
  unfold horizonFor at h
  cases hlive : live with
  | none =>
    rw [hlive] at h
    cases h
  | some data =>
    rw [hlive] at h
    dsimp only at h
    cases hm : fromJson data with
    | error e =>
      rw [hm] at h
      cases h
    | ok m =>
      rw [hm] at h
      obtain ⟨hle, hall⟩ := takeSnapshots_le h
      exact ⟨⟨data, m, rfl, hm, fun c hc =>
        Nat.le_trans hle ((takeCheckpoints_le _ m).2 c hc)⟩, hall⟩

end Horizon

end Zou
