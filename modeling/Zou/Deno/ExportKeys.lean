import Mathlib.Data.List.MinMax
import Mathlib.Data.Prod.Lex
import Zou.Deno.Exports

/-!
# The key a subpath is found under

Node looks for the subpath among the keys that are no patterns, and then for
the pattern with the longest base and the longest key. The code looks for it
among all keys, and then takes the first pattern of the longest base, where
a key that ends in its star also matches what is not behind its base.
`RightKey` says where these are one key, which the order of the keys decides
only where two patterns have one base.
-/

namespace Zou.Deno

open Rest (Text utf8)

/-! ## Patterns -/

/-- A key with one star, and the parts around it. -/
structure IsPattern (key before after : Text) : Prop where
  before_star : '*' ∉ before
  after_star : '*' ∉ after
  key_eq : key = before ++ '*' :: after

/-- What a pattern stands for by the rule. -/
def patternMatch (key sub : Text) : Option Text :=
  match key.splitOn '*' with
  | [before, after] =>
    let m := (sub.drop before.length).take (sub.length - before.length - after.length)
    if m ≠ [] ∧ sub = before ++ m ++ after then some m else none
  | _ => none

section

variable {key before after before' after' sub m : Text}

theorem IsPattern.base_eq (h : IsPattern key before after) : base key = before := by
  unfold base
  rw [h.key_eq, splitOnce_append h.before_star]

theorem splitOn_pair : key.splitOn '*' = [before, after] ↔ IsPattern key before after := by
  constructor
  · intro h
    have hmem := not_mem_splitOn '*' key
    rw [h] at hmem
    refine ⟨hmem before (by simp), hmem after (by simp), ?_⟩
    have hjoin : ['*'].intercalate (key.splitOn '*') = key := List.intercalate_splitOn '*'
    rw [h] at hjoin
    simpa [List.intercalate] using hjoin.symm
  · rintro ⟨hbefore, hafter, rfl⟩
    have hparts : ∀ l ∈ [before, after], '*' ∉ l := by simp [hbefore, hafter]
    have hsplit := List.splitOn_intercalate '*' hparts (List.cons_ne_nil _ _)
    simpa [List.intercalate] using hsplit

theorem patternMatch_iff : patternMatch key sub = some m
    ↔ ∃ before after, IsPattern key before after ∧ sub = before ++ m ++ after ∧ m ≠ [] := by
  constructor
  · intro h
    unfold patternMatch at h
    split at h
    · rename_i before after hsplit
      obtain ⟨⟨hne, hsub⟩, heq⟩ := Option.ite_none_right_eq_some.mp h
      cases heq
      exact ⟨before, after, splitOn_pair.mp hsplit, hsub, hne⟩
    · cases h
  · rintro ⟨before, after, hpattern, rfl, hne⟩
    have hm : ((before ++ m ++ after).drop before.length).take
        ((before ++ m ++ after).length - before.length - after.length) = m := by
      rw [List.append_assoc, List.drop_left]
      simp
    unfold patternMatch
    rw [splitOn_pair.mpr hpattern]
    dsimp only
    rw [hm, if_pos ⟨hne, rfl⟩]

theorem stands_iff : stands key sub = some m
    ↔ ∃ before after, IsPattern key before after ∧ sub = before ++ m ++ after
      ∧ (m = [] → after = []) := by
  unfold stands
  cases hsplit : splitOnce '*' key with
  | none =>
    constructor
    · nofun
    · rintro ⟨before, after, hpattern, -⟩
      refine absurd ?_ (not_mem_of_splitOnce hsplit)
      rw [hpattern.key_eq]
      simp
  | some p =>
    obtain ⟨before, after⟩ := p
    obtain ⟨rfl, hbefore⟩ := splitOnce_spec hsplit
    have hpattern : (before ++ '*' :: after).count '*' = 1
        ↔ IsPattern (before ++ '*' :: after) before after := by
      rw [List.count_append, List.count_cons_self, List.count_eq_zero.mpr hbefore, Nat.zero_add,
        Nat.add_eq_right, List.count_eq_zero]
      exact ⟨fun h => ⟨hbefore, h, rfl⟩, fun h => h.after_star⟩
    dsimp only
    constructor
    · intro h
      obtain ⟨hcount, h⟩ := Option.ite_none_left_eq_some.mp h
      refine ⟨before, after, hpattern.mp (not_not.mp hcount), ?_⟩
      cases hfront : stripPrefix before sub with
      | none =>
        rw [hfront] at h
        cases h
      | some rest =>
        rw [hfront] at h
        dsimp only at h
        cases hsuffix : stripSuffix after rest with
        | none =>
          rw [hsuffix] at h
          cases h
        | some matched =>
          rw [hsuffix] at h
          obtain ⟨hempty, heq⟩ := Option.ite_none_left_eq_some.mp h
          obtain rfl := Option.some.inj heq
          rw [stripPrefix_eq_some.mp hfront, stripSuffix_eq_some.mp hsuffix]
          refine ⟨(List.append_assoc ..).symm, fun hnil => ?_⟩
          by_contra hne
          exact hempty ⟨hne, hnil⟩
    · rintro ⟨before', after', hpattern', rfl, hempty⟩
      obtain rfl : before = before' := by
        rw [← hpattern'.base_eq]
        unfold base
        rw [splitOnce_append hbefore]
      obtain rfl : after = after' :=
        (List.cons.inj (List.append_cancel_left hpattern'.key_eq)).2
      have hne : ¬ (after ≠ [] ∧ m = []) := fun h => h.1 (hempty h.2)
      rw [if_neg (not_not.mpr (hpattern.mpr hpattern')), List.append_assoc, stripPrefix_append]
      dsimp only
      rw [stripSuffix_append]
      dsimp only
      rw [if_neg hne]

end

/-! ## Candidates -/

/-- The keys that match, with what they stand for. -/
def candidates (matching : Text → Text → Option Text) (sub : Text)
    (fields : List (Text × Value)) : List (Text × Value × Text) :=
  fields.filterMap fun f => (matching f.1 sub).map fun m => (f.1, f.2, m)

/-- The length of the part before the star, which both rank by. -/
def baseLen (c : Text × Value × Text) : Nat := (base c.1).length

/-- The longest base, and then the longest key. -/
def rank (c : Text × Value × Text) : Nat ×ₗ Nat := toLex (baseLen c, c.1.length)

section

variable {matching : Text → Text → Option Text} {sub : Text} {fields : List (Text × Value)}
  {c c' : Text × Value × Text}

theorem mem_candidates : c ∈ candidates matching sub fields
    ↔ (c.1, c.2.1) ∈ fields ∧ matching c.1 sub = some c.2.2 := by
  unfold candidates
  rw [List.mem_filterMap]
  constructor
  · rintro ⟨f, hf, hc⟩
    obtain ⟨m, hm, rfl⟩ := Option.map_eq_some_iff.mp hc
    exact ⟨hf, hm⟩
  · rintro ⟨hf, hm⟩
    exact ⟨(c.1, c.2.1), hf, by rw [hm]; rfl⟩

theorem base_front {key m : Text} (h : stands key sub = some m) : base key <+: sub := by
  obtain ⟨before, after, hpattern, rfl, -⟩ := stands_iff.mp h
  rw [hpattern.base_eq, List.append_assoc]
  exact List.prefix_append ..

theorem one_le_utf8 (c : Char) : 1 ≤ (String.utf8EncodeChar c).length := by
  rw [String.length_utf8EncodeChar]
  exact c.utf8Size_pos

theorem utf8_prefix_lt {a b : Text} (h : a <+: b) (hlt : a.length < b.length) :
    (utf8 a).length < (utf8 b).length := by
  obtain ⟨rest, rfl⟩ := h
  cases rest with
  | nil => simp at hlt
  | cons c rest =>
    have hc := one_le_utf8 c
    unfold utf8
    rw [List.flatMap_append, List.flatMap_cons, List.length_append, List.length_append]
    omega

theorem utf8_lt_iff {a b : Text} (ha : a <+: sub) (hb : b <+: sub) :
    (utf8 a).length < (utf8 b).length ↔ a.length < b.length := by
  constructor
  · intro h
    by_contra hle
    have hba := List.prefix_of_prefix_length_le hb ha (by omega)
    rcases Nat.lt_or_eq_of_le (Nat.le_of_not_lt hle) with hlt | heq
    · have := utf8_prefix_lt hba hlt
      omega
    · rw [hba.eq_of_length heq] at h
      omega
  · intro h
    exact utf8_prefix_lt (List.prefix_of_prefix_length_le ha hb (Nat.le_of_lt h)) h

theorem candidates_concat (f : Text × Value) : candidates matching sub (fields ++ [f])
    = candidates matching sub fields ++ ((matching f.1 sub).map fun m => (f.1, f.2, m)).toList := by
  unfold candidates
  rw [List.filterMap_append, List.filterMap_cons]
  cases matching f.1 sub with
  | none => rfl
  | some m => rfl

/-- The loop over the pattern keys takes the first of the longest base. -/
theorem foldl_better (fields : List (Text × Value)) :
    fields.foldl (better sub) none = (candidates stands sub fields).argmax baseLen := by
  induction fields using List.reverseRecOn with
  | nil => rfl
  | append_singleton fields f ih =>
    rw [List.foldl_append, List.foldl_cons, List.foldl_nil, ih, candidates_concat]
    unfold better
    cases hm : stands f.1 sub with
    | none =>
      rw [Option.map_none, Option.toList_none, List.append_nil]
    | some m =>
      rw [Option.map_some, Option.toList_some, List.argmax_concat]
      cases hbest : (candidates stands sub fields).argmax baseLen with
      | none => rfl
      | some won =>
        obtain ⟨key, value, m'⟩ := won
        have hwon := (mem_candidates.mp (List.argmax_mem hbest)).2
        have hlt : (utf8 (base key)).length < (utf8 (base f.1)).length
            ↔ baseLen (key, value, m') < baseLen (f.1, f.2, m) :=
          utf8_lt_iff (base_front hwon) (base_front hm)
        dsimp only
        by_cases h : baseLen (key, value, m') < baseLen (f.1, f.2, m)
        · rw [if_pos h, if_pos (hlt.mpr h)]
        · rw [if_neg h, if_neg fun h' => h (hlt.mp h')]

end

/-! ## The key that is taken -/

/-- A key, the value under it and what its star stands for. -/
structure Choice where
  key : Text
  value : Value
  stood_for : Option Text

def Choice.ofCandidate (c : Text × Value × Text) : Choice := ⟨c.1, c.2.1, some c.2.2⟩

/-- The value under the subpath itself, or that of a pattern. -/
def search (sub : Text) (exact : Option Value) (won : Option (Text × Value × Text)) :
    Option Choice :=
  match exact with
  | some exact => some ⟨sub, exact, none⟩
  | none => won.map Choice.ofCandidate

/-- The choice in a map, by what is looked up and what wins. A map with no
subpaths is itself under `.`. -/
def chosen (exact : List (Text × Value) → Option Value)
    (won : List (Text × Value) → Option (Text × Value × Text)) (map : Value) (sub : Text) :
    Option Choice :=
  if subpaths map then
    match map with
    | .object fields => search sub (exact fields) (won fields)
    | _ => none
  else if sub = ['.'] then some ⟨sub, map, none⟩
  else none

/-- What the code takes. -/
def picked (map : Value) (sub : Text) : Option Choice :=
  chosen (fun fields => get fields sub)
    (fun fields => (candidates stands sub fields).argmax baseLen) map sub

/-- What node takes. -/
def ruled (map : Value) (sub : Text) : Option Choice :=
  chosen (fun fields => if '*' ∈ sub then none else get fields sub)
    (fun fields => (candidates patternMatch sub fields).argmax rank) map sub

theorem exported_eq (map : Value) (sub : Text) (conditions : List Text) :
    exported map sub conditions
      = (picked map sub).bind fun p => target conditions p.stood_for p.value := by
  unfold exported picked chosen
  cases subpaths map with
  | false =>
    rw [Bool.not_false, if_pos rfl, if_neg Bool.false_ne_true]
    split <;> rfl
  | true =>
    rw [Bool.not_true, if_neg Bool.false_ne_true, if_pos rfl]
    cases map with
    | object fields =>
      dsimp only
      unfold search
      cases get fields sub with
      | some exact => rfl
      | none =>
        rw [foldl_better]
        cases (candidates stands sub fields).argmax baseLen with
        | none => rfl
        | some c => rfl
    | _ => rfl

/-- Where the key the code takes is the one node takes. -/
structure RightKeyIn (fields : List (Text × Value)) (sub : Text) : Prop where
  /-- The subpath is no key with two stars. -/
  exact_stars : ∀ v, get fields sub = some v → sub.count '*' ≤ 1
  /-- No pattern matches with nothing in the place of its star. -/
  nonempty : get fields sub = none → ∀ f ∈ fields, stands f.1 sub ≠ some []
  /-- The first pattern of the longest base is the longest of them. -/
  longest : get fields sub = none → ∀ c, (candidates stands sub fields).argmax baseLen = some c →
    ∀ c' ∈ candidates stands sub fields, baseLen c' = baseLen c → c'.1.length ≤ c.1.length

def RightKey (map : Value) (sub : Text) : Prop :=
  ∀ fields, subpaths map = true → map = .object fields → RightKeyIn fields sub

section

variable {sub : Text} {fields : List (Text × Value)} {c c' : Text × Value × Text}

theorem argmax_eq_some_append {α β : Type} [LinearOrder β] {f : α → β} {l : List α} {a : α} :
    l.argmax f = some a ↔ ∃ pre post, l = pre ++ a :: post ∧ (∀ b ∈ pre, f b < f a)
      ∧ ∀ b ∈ post, f b ≤ f a := by
  constructor
  · induction l using List.reverseRecOn with
    | nil => exact nofun
    | append_singleton l x ih =>
      intro h
      rw [List.argmax_concat] at h
      cases hl : l.argmax f with
      | none =>
        rw [hl] at h
        cases h
        rw [List.argmax_eq_none.mp hl]
        exact ⟨[], [], rfl, fun _ hb => (List.not_mem_nil hb).elim,
          fun _ hb => (List.not_mem_nil hb).elim⟩
      | some c =>
        rw [hl] at h ih
        dsimp only at h
        split at h
        · rename_i hlt
          cases h
          exact ⟨l, [], rfl, fun b hb => lt_of_le_of_lt (List.le_of_mem_argmax hb hl) hlt,
            fun _ hb => (List.not_mem_nil hb).elim⟩
        · rename_i hle
          obtain ⟨pre, post, rfl, hpre, hpost⟩ := ih h
          cases h
          refine ⟨pre, post ++ [x], by simp, hpre, fun b hb => ?_⟩
          rcases List.mem_append.mp hb with hb | hb
          · exact hpost b hb
          · cases List.mem_singleton.mp hb
            exact le_of_not_gt hle
  · rintro ⟨pre, post, rfl, hpre, hpost⟩
    induction post using List.reverseRecOn with
    | nil =>
      rw [List.argmax_concat]
      cases hl : pre.argmax f with
      | none => rfl
      | some c => exact if_pos (hpre c (List.argmax_mem hl))
    | append_singleton post x ih =>
      have hx : ¬ f a < f x := not_lt_of_ge (hpost x (by simp))
      rw [← List.cons_append, ← List.append_assoc, List.argmax_concat,
        ih fun b hb => hpost b (List.mem_append_left _ hb)]
      exact if_neg hx

/-- What is around the star of a key and of a longer key of the same base. -/
theorem length_candidate (hc : c ∈ candidates stands sub fields) :
    ∃ after, IsPattern c.1 (base c.1) after ∧ sub = base c.1 ++ c.2.2 ++ after
      ∧ c.1.length = baseLen c + 1 + after.length ∧ (c.2.2 = [] → after = []) := by
  obtain ⟨before, after, hpattern, hsub, hempty⟩ := stands_iff.mp (mem_candidates.mp hc).2
  obtain rfl := hpattern.base_eq
  refine ⟨after, hpattern, hsub, ?_, hempty⟩
  have hlen := congrArg List.length hpattern.key_eq
  rw [List.length_append, List.length_cons] at hlen
  unfold baseLen
  omega

/-- What the rule matches is what the code matches and is not empty. -/
theorem mem_candidates_rule : c ∈ candidates patternMatch sub fields
    ↔ c ∈ candidates stands sub fields ∧ c.2.2 ≠ [] := by
  rw [mem_candidates, mem_candidates, patternMatch_iff, stands_iff, and_assoc]
  refine and_congr_right fun _ => ?_
  constructor
  · rintro ⟨before, after, hpattern, hsub, hne⟩
    exact ⟨⟨before, after, hpattern, hsub, fun h => absurd h hne⟩, hne⟩
  · rintro ⟨⟨before, after, hpattern, hsub, -⟩, hne⟩
    exact ⟨before, after, hpattern, hsub, hne⟩

theorem candidates_eq (h : ∀ f ∈ fields, stands f.1 sub ≠ some []) :
    candidates stands sub fields = candidates patternMatch sub fields := by
  unfold candidates
  refine List.filterMap_congr fun f hf => ?_
  congr 1
  refine Option.ext fun m => ?_
  rw [stands_iff, patternMatch_iff]
  constructor
  · rintro ⟨before, after, hpattern, hsub, hempty⟩
    refine ⟨before, after, hpattern, hsub, ?_⟩
    rintro rfl
    exact h f hf (stands_iff.mpr ⟨before, after, hpattern, hsub, hempty⟩)
  · rintro ⟨before, after, hpattern, hsub, hne⟩
    exact ⟨before, after, hpattern, hsub, fun h => absurd h hne⟩

theorem rank_le_iff : rank c ≤ rank c'
    ↔ baseLen c < baseLen c' ∨ (baseLen c = baseLen c' ∧ c.1.length ≤ c'.1.length) := by
  unfold rank
  rw [Prod.Lex.toLex_le_toLex]

theorem rank_lt_iff : rank c < rank c'
    ↔ baseLen c < baseLen c' ∨ (baseLen c = baseLen c' ∧ c.1.length < c'.1.length) := by
  unfold rank
  rw [Prod.Lex.toLex_lt_toLex]

/-- Where the first of the longest base is the longest it is the choice of
the rule too. -/
theorem argmax_rank (hc : (candidates stands sub fields).argmax baseLen = some c)
    (hlongest : ∀ c' ∈ candidates stands sub fields, baseLen c' = baseLen c →
      c'.1.length ≤ c.1.length) :
    (candidates stands sub fields).argmax rank = some c := by
  obtain ⟨pre, post, heq, hpre, hpost⟩ := argmax_eq_some_append.mp hc
  refine argmax_eq_some_append.mpr ⟨pre, post, heq, fun b hb => ?_, fun b hb => ?_⟩
  · exact rank_lt_iff.mpr (.inl (hpre b hb))
  · rw [rank_le_iff]
    rcases Nat.lt_or_eq_of_le (hpost b hb) with hlt | hsame
    · exact .inl hlt
    · exact .inr ⟨hsame, hlongest b (by rw [heq]; simp [hb]) hsame⟩

/-- A subpath with one star is itself the greatest of the patterns it
matches. -/
theorem rank_le_self {v : Value} {m : Text} (h : sub.count '*' = 1)
    (hc : c ∈ candidates stands sub fields) (hne : c.2.2 ≠ []) :
    rank c ≤ rank (sub, v, m) ∧ (c.1 ≠ sub → rank c < rank (sub, v, m)) := by
  obtain ⟨before, after, hself, hbefore⟩ :=
    List.eq_append_cons_of_mem (List.count_pos_iff.mp (by omega : 0 < sub.count '*'))
  have hbase : baseLen (sub, v, m) = before.length := by
    unfold baseLen base
    rw [hself, splitOnce_append hbefore]
  obtain ⟨after', hpattern, hsub, hlen, -⟩ := length_candidate hc
  have hpos : 0 < c.2.2.length := List.length_pos_of_ne_nil hne
  have hlens : before.length + 1 + after.length = baseLen c + c.2.2.length + after'.length := by
    have heq := congrArg List.length (hself.symm.trans hsub)
    simp only [List.length_append, List.length_cons] at heq
    unfold baseLen
    omega
  have hself_len : sub.length = before.length + 1 + after.length := by
    rw [hself, List.length_append, List.length_cons]
    omega
  have hfront : base c.1 <+: sub := base_front (mem_candidates.mp hc).2
  have hle : baseLen c ≤ before.length := by
    by_contra hlt
    have hstar : before ++ ['*'] <+: sub := ⟨after, by rw [hself]; simp⟩
    have hlonger : (before ++ ['*']).length ≤ (base c.1).length := by
      rw [List.length_append, List.length_singleton]
      unfold baseLen at hlt
      omega
    exact hpattern.before_star
      ((List.prefix_of_prefix_length_le hstar hfront hlonger).subset (by simp))
  rw [rank_le_iff, rank_lt_iff, hbase]
  dsimp only
  rcases Nat.lt_or_eq_of_le hle with hlt | heq
  · exact ⟨.inl hlt, fun _ => .inl hlt⟩
  · refine ⟨.inr ⟨heq, by omega⟩, fun hkey => .inr ⟨heq, ?_⟩⟩
    by_contra hlt
    -- of one length, so one character stands for the star
    refine hkey ?_
    have hbefore' : base c.1 = before :=
      (List.prefix_of_prefix_length_le hfront ⟨_, hself.symm⟩ hle).eq_of_length heq
    obtain ⟨x, hx⟩ := List.length_eq_one_iff.mp (by omega : c.2.2.length = 1)
    rw [hself, hbefore', hx, List.append_assoc] at hsub
    rw [hpattern.key_eq, hself, hbefore', (List.cons.inj (List.append_cancel_left hsub)).2]
    rfl

/-- The pattern with the key of the subpath is the choice of the rule. -/
theorem argmax_rank_self {v : Value} (hget : get fields sub = some v) (h : sub.count '*' = 1) :
    (candidates patternMatch sub fields).argmax rank = some (sub, v, ['*']) := by
  obtain ⟨f, hfind, rfl⟩ := Option.map_eq_some_iff.mp hget
  obtain ⟨hf, pre, post, rfl, hpre⟩ := List.find?_eq_some_iff_append.mp hfind
  obtain rfl := of_decide_eq_true hf
  have hself : patternMatch f.1 f.1 = some ['*'] := by
    obtain ⟨before, after, hkey, hbefore⟩ :=
      List.eq_append_cons_of_mem (List.count_pos_iff.mp (by omega : 0 < f.1.count '*'))
    rw [hkey, List.count_append, List.count_cons_self, List.count_eq_zero.mpr hbefore] at h
    have hafter : after.count '*' = 0 := by omega
    exact patternMatch_iff.mpr ⟨before, after, ⟨hbefore, List.count_eq_zero.mp hafter, hkey⟩,
      by rw [hkey]; simp, by simp⟩
  have hrank : ∀ c ∈ candidates patternMatch f.1 (pre ++ f :: post),
      rank c ≤ rank (f.1, f.2, ['*']) ∧ (c.1 ≠ f.1 → rank c < rank (f.1, f.2, ['*'])) := by
    intro c hc
    obtain ⟨hc, hne⟩ := mem_candidates_rule.mp hc
    exact rank_le_self h hc hne
  have hsplit : candidates patternMatch f.1 (pre ++ f :: post)
      = candidates patternMatch f.1 pre ++ (f.1, f.2, ['*']) :: candidates patternMatch f.1 post := by
    unfold candidates
    rw [List.filterMap_append, List.filterMap_cons, hself]
    rfl
  rw [hsplit] at hrank ⊢
  refine argmax_eq_some_append.mpr ⟨_, _, rfl, fun b hb => ?_, fun b hb => ?_⟩
  · refine (hrank b (List.mem_append_left _ hb)).2 ?_
    have hkey := hpre _ (mem_candidates.mp hb).1
    simpa using hkey
  · exact (hrank b (List.mem_append_right _ (.tail _ hb))).1

theorem filled_star (s : Text) : filled (some ['*']) s = s := by
  unfold filled replaceStar
  induction s with
  | nil => rfl
  | cons c s ih =>
    dsimp only at ih ⊢
    rw [List.flatMap_cons, ih]
    split
    · rename_i hc
      rw [hc]
      rfl
    · rfl

end

/-- The same key and value, with the same string for its star. -/
structure Choice.Same (p q : Choice) : Prop where
  key : p.key = q.key
  value : p.value = q.value
  filled_eq : ∀ s, filled p.stood_for s = filled q.stood_for s

section

variable {sub : Text} {fields : List (Text × Value)}

theorem search_same (h : RightKeyIn fields sub) :
    let p := search sub (get fields sub) ((candidates stands sub fields).argmax baseLen)
    let q := search sub (if '*' ∈ sub then none else get fields sub)
      ((candidates patternMatch sub fields).argmax rank)
    (p = none ∧ q = none) ∨ ∃ a b, p = some a ∧ q = some b ∧ a.Same b := by
  cases hget : get fields sub with
  | none =>
    have hcandidates := candidates_eq (h.nonempty hget)
    have hexact : (if '*' ∈ sub then none else (none : Option Value)) = none := ite_self _
    rw [hexact, ← hcandidates]
    cases hc : (candidates stands sub fields).argmax baseLen with
    | none =>
      rw [List.argmax_eq_none.mp hc]
      exact .inl ⟨rfl, rfl⟩
    | some c =>
      rw [argmax_rank hc (h.longest hget c hc)]
      exact .inr ⟨_, _, rfl, rfl, rfl, rfl, fun _ => rfl⟩
  | some v =>
    right
    by_cases hstar : '*' ∈ sub
    · have hone : sub.count '*' = 1 :=
        Nat.le_antisymm (h.exact_stars v hget) (List.count_pos_iff.mpr hstar)
      rw [if_pos hstar, argmax_rank_self hget hone]
      exact ⟨_, _, rfl, rfl, rfl, rfl, fun s => (filled_star s).symm⟩
    · rw [if_neg hstar]
      exact ⟨_, _, rfl, rfl, rfl, rfl, fun _ => rfl⟩

theorem search_apart (h : ¬ RightKeyIn fields sub) :
    ∃ p, search sub (get fields sub) ((candidates stands sub fields).argmax baseLen) = some p
      ∧ ∀ q, search sub (if '*' ∈ sub then none else get fields sub)
        ((candidates patternMatch sub fields).argmax rank) = some q → q.key ≠ p.key := by
  cases hget : get fields sub with
  | some v =>
    refine ⟨⟨sub, v, none⟩, rfl, fun q hq => ?_⟩
    have hstars : 1 < sub.count '*' := by
      by_contra hle
      refine h ⟨fun _ _ => by omega, fun hnone => ?_, fun hnone => ?_⟩
      · rw [hget] at hnone
        cases hnone
      · rw [hget] at hnone
        cases hnone
    rw [if_pos (List.count_pos_iff.mp (by omega : 0 < sub.count '*'))] at hq
    obtain ⟨c, hc, rfl⟩ := Option.map_eq_some_iff.mp hq
    obtain ⟨before, after, hpattern, -, -⟩ :=
      patternMatch_iff.mp (mem_candidates.mp (List.argmax_mem hc)).2
    intro hkey
    have hcount := congrArg (List.count '*') (hpattern.key_eq.symm.trans hkey)
    rw [List.count_append, List.count_cons_self, List.count_eq_zero.mpr hpattern.before_star,
      List.count_eq_zero.mpr hpattern.after_star] at hcount
    dsimp only at hcount
    omega
  | none =>
    have hexact : (if '*' ∈ sub then none else (none : Option Value)) = none := ite_self _
    rw [hexact]
    by_cases hnonempty : ∀ f ∈ fields, stands f.1 sub ≠ some []
    · have hlongest : ¬ ∀ c, (candidates stands sub fields).argmax baseLen = some c →
          ∀ c' ∈ candidates stands sub fields, baseLen c' = baseLen c →
            c'.1.length ≤ c.1.length := by
        intro hlongest
        refine h ⟨fun v hv => ?_, fun _ => hnonempty, fun _ => hlongest⟩
        rw [hget] at hv
        cases hv
      push Not at hlongest
      obtain ⟨c, hc, c', hc', hsame, hlonger⟩ := hlongest
      rw [← candidates_eq hnonempty, hc]
      refine ⟨Choice.ofCandidate c, rfl, fun q hq hkey => ?_⟩
      obtain ⟨d, hd, rfl⟩ := Option.map_eq_some_iff.mp hq
      have hkey : d.1 = c.1 := hkey
      have hbase : baseLen d = baseLen c := by
        unfold baseLen
        rw [hkey]
      have hle := rank_le_iff.mp (List.le_of_mem_argmax hc' hd)
      rw [hkey, hbase] at hle
      omega
    · push Not at hnonempty
      obtain ⟨f, hf, hstands⟩ := hnonempty
      have hmem : (f.1, f.2, []) ∈ candidates stands sub fields :=
        mem_candidates.mpr ⟨hf, hstands⟩
      cases hc : (candidates stands sub fields).argmax baseLen with
      | none =>
        rw [List.argmax_eq_none.mp hc] at hmem
        exact (List.not_mem_nil hmem).elim
      | some c =>
        refine ⟨Choice.ofCandidate c, rfl, fun q hq hkey => ?_⟩
        obtain ⟨d, hd, rfl⟩ := Option.map_eq_some_iff.mp hq
        have hkey : d.1 = c.1 := hkey
        obtain ⟨hd, hne⟩ := mem_candidates_rule.mp (List.argmax_mem hd)
        -- its base is all of the subpath, so nothing is left for its star
        obtain ⟨after, -, hsub, -, -⟩ := length_candidate (List.argmax_mem hc)
        obtain ⟨after', -, hsub', -, hempty⟩ := length_candidate hmem
        have hle := List.le_of_mem_argmax hmem hc
        have hlen := congrArg List.length hsub
        have hlen' := congrArg List.length hsub'
        rw [hempty rfl] at hlen'
        simp only [List.length_append, List.length_nil] at hlen hlen'
        unfold baseLen at hle
        dsimp only at hle hlen'
        have hnil : c.2.2 = [] := List.eq_nil_of_length_eq_zero (by omega)
        have hstood := (mem_candidates.mp hd).2
        rw [hkey, (mem_candidates.mp (List.argmax_mem hc)).2, hnil] at hstood
        exact hne (Option.some.inj hstood).symm

end

end Zou.Deno
