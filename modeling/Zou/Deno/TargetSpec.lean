import Zou.Deno.Exports

/-!
# Targets read by node's rule

Node decides a target at the first condition that holds and has something
to say, and what it says may be a refusal. `target` goes on behind a
refusal. The two agree where nothing is refused on the way to the first
string that is reached, whatever the strings are, and where something is
there are strings in their places for which they differ.
-/

namespace Zou.Deno

open Rest (Text utf8)

/-! ## The rule for a target -/

/-- What a value says of a subpath: nothing yet, no, or a target. -/
inductive Decision where
  | undecided
  | refused
  | given (s : Text)

def Decision.text : Decision → Option Text
  | .given s => some s
  | _ => none

/-- The same with another string. -/
def Decision.fill (u : Text) : Decision → Decision
  | .given _ => .given u
  | .undecided => .undecided
  | .refused => .refused

theorem Decision.fill_eq_given {u : Text} {d : Decision} :
    d.fill u = .given u ↔ ∃ s, d = .given s := by
  cases d <;> simp [Decision.fill]

theorem Decision.fill_eq_undecided {u : Text} {d : Decision} :
    d.fill u = .undecided ↔ d = .undecided := by
  cases d <;> simp [Decision.fill]

section

variable (conditions : List Text)

mutual

/-- A map of conditions is decided by the first condition that holds and is
not undecided, and a list by its first entry that gives a string. -/
def decision : Value → Decision
  | .string s => .given s
  | .array list => decisionOf list
  | .object fields => decisionIn fields
  | .null => .refused
  | .bool _ => .refused
  | .number _ => .refused

def decisionOf : List Value → Decision
  | [] => .refused
  | it :: list =>
    match decision it with
    | .given s => .given s
    | _ => decisionOf list

def decisionIn : List (Text × Value) → Decision
  | [] => .undecided
  | (condition, value) :: fields =>
    if holds conditions condition then
      match decision value with
      | .undecided => decisionIn fields
      | .refused => .refused
      | .given s => .given s
    else decisionIn fields

end

mutual

/-- Is there a string that is reached at all? -/
def reaches : Value → Bool
  | .string _ => true
  | .array list => reachesOf list
  | .object fields => reachesIn fields
  | .null => false
  | .bool _ => false
  | .number _ => false

def reachesOf : List Value → Bool
  | [] => false
  | it :: list => reaches it || reachesOf list

def reachesIn : List (Text × Value) → Bool
  | [] => false
  | (condition, value) :: fields =>
    (holds conditions condition && reaches value) || reachesIn fields

end

mutual

/-- Is no map on the way to the first string that is reached refused before
the condition the way goes through? -/
def kept : Value → Bool
  | .string _ => true
  | .array list => keptOf list
  | .object fields => keptIn fields
  | .null => true
  | .bool _ => true
  | .number _ => true

def keptOf : List Value → Bool
  | [] => true
  | it :: list => if reaches conditions it then kept it else keptOf list

def keptIn : List (Text × Value) → Bool
  | [] => true
  | (condition, value) :: fields =>
    if holds conditions condition then
      if reaches conditions value then kept value
      else
        match decision conditions value with
        | .undecided => keptIn fields
        | _ => !reachesIn conditions fields
    else keptIn fields

end

end

/-! ## The first string and the decision -/

section

variable {conditions : List Text} {stood_for : Option Text}

theorem decisionOf_ne (list : List Value) : decisionOf conditions list ≠ .undecided := by
  induction list with
  | nil => exact nofun
  | cons it list ih =>
    rw [decisionOf]
    split
    · exact nofun
    · exact ih

/-- How a target compares to the decision: it is there exactly where a
string is reached, and is the decision where nothing was refused. -/
def Compares (stood_for : Option Text) (found : Option Text) (d : Decision)
    (reached kept : Bool) : Prop :=
  if reached then
    ∃ s, found = some (filled stood_for s) ∧ d ≠ .undecided ∧ (kept = true → d = .given s)
  else found = none ∧ kept = true ∧ ∀ s, d ≠ .given s

mutual

theorem target_compares (v : Value) :
    Compares stood_for (target conditions stood_for v) (decision conditions v)
      (reaches conditions v) (kept conditions v) := by
  cases v with
  | string s => exact ⟨s, rfl, nofun, fun _ => rfl⟩
  | array list => exact targetOf_compares list
  | object fields => exact targetIn_compares fields
  | null => exact ⟨rfl, rfl, nofun⟩
  | bool b => exact ⟨rfl, rfl, nofun⟩
  | number text => exact ⟨rfl, rfl, nofun⟩

theorem targetOf_compares (list : List Value) :
    Compares stood_for (targetOf conditions stood_for list) (decisionOf conditions list)
      (reachesOf conditions list) (keptOf conditions list) := by
  match list with
  | [] => exact ⟨rfl, rfl, nofun⟩
  | it :: list =>
    have hit := target_compares it
    have hlist := targetOf_compares list
    unfold Compares at hit
    rw [targetOf, decisionOf, reachesOf, keptOf]
    split at hit
    · rename_i hreach
      obtain ⟨s, hfound, -, hkept⟩ := hit
      rw [hfound, hreach, Bool.true_or, if_pos rfl]
      refine ⟨s, rfl, ?_, fun h => by rw [hkept h]⟩
      split
      · exact nofun
      · exact decisionOf_ne list
    · rename_i hreach
      obtain ⟨hfound, -, hgiven⟩ := hit
      rw [hfound, Bool.eq_false_iff.mpr hreach, Bool.false_or, if_neg Bool.false_ne_true]
      cases hd : decision conditions it with
      | given s => exact absurd hd (hgiven s)
      | undecided => exact hlist
      | refused => exact hlist

theorem targetIn_compares (fields : List (Text × Value)) :
    Compares stood_for (targetIn conditions stood_for fields) (decisionIn conditions fields)
      (reachesIn conditions fields) (keptIn conditions fields) := by
  match fields with
  | [] => exact ⟨rfl, rfl, nofun⟩
  | (condition, value) :: fields =>
    have hvalue := target_compares value
    have hfields := targetIn_compares fields
    unfold Compares at hvalue
    rw [targetIn, decisionIn, reachesIn, keptIn]
    by_cases hc : holds conditions condition = true
    · rw [if_pos hc, if_pos hc, if_pos hc, hc, Bool.true_and]
      split at hvalue
      · rename_i hreach
        obtain ⟨s, hfound, hdecided, hkept⟩ := hvalue
        rw [hfound, hreach, Bool.true_or, if_pos rfl]
        cases hd : decision conditions value with
        | undecided => exact absurd hd hdecided
        | refused => exact ⟨s, rfl, nofun, fun h => by rw [← hkept h, hd]⟩
        | given s' => exact ⟨s, rfl, nofun, fun h => by rw [← hkept h, hd]⟩
      · rename_i hreach
        obtain ⟨hfound, -, hgiven⟩ := hvalue
        rw [hfound, Bool.eq_false_iff.mpr hreach, Bool.false_or, if_neg Bool.false_ne_true]
        cases hd : decision conditions value with
        | given s => exact absurd hd (hgiven s)
        | undecided => exact hfields
        | refused =>
          -- what is behind the refusal is reached by the code alone
          unfold Compares at hfields ⊢
          split at hfields
          · rename_i hbehind
            obtain ⟨s, hfound', -, -⟩ := hfields
            rw [hbehind, if_pos rfl]
            exact ⟨s, hfound', nofun, nofun⟩
          · rename_i hbehind
            rw [if_neg hbehind, Bool.eq_false_iff.mpr hbehind]
            exact ⟨hfields.1, rfl, nofun⟩
    · rw [if_neg hc, if_neg hc, if_neg hc, Bool.eq_false_iff.mpr hc, Bool.false_and,
        Bool.false_or]
      exact hfields

end

/-- Where nothing was refused on the way the target is the decision. -/
theorem target_of_kept {v : Value} (h : kept conditions v = true) :
    target conditions stood_for v = (decision conditions v).text.map (filled stood_for) := by
  have hv := @target_compares conditions stood_for v
  unfold Compares at hv
  split at hv
  · obtain ⟨s, hfound, -, hkept⟩ := hv
    rw [hfound, hkept h]
    rfl
  · obtain ⟨hfound, -, hgiven⟩ := hv
    rw [hfound]
    cases hd : decision conditions v with
    | given s => exact absurd hd (hgiven s)
    | undecided => rfl
    | refused => rfl

theorem target_of_unreached (stood_for : Option Text) {v : Value} (h : reaches conditions v = false) :
    target conditions stood_for v = none ∧ ∀ s, decision conditions v ≠ .given s := by
  have hv := @target_compares conditions stood_for v
  unfold Compares at hv
  rw [h] at hv
  exact ⟨hv.1, hv.2.2⟩

theorem reaches_of_not_kept {v : Value} (h : kept conditions v = false) :
    reaches conditions v = true := by
  have hv := @target_compares conditions none v
  unfold Compares at hv
  by_contra hreach
  rw [if_neg hreach, h] at hv
  exact absurd hv.2.1 Bool.false_ne_true

theorem decided_of_reaches {v : Value} (h : reaches conditions v = true) :
    decision conditions v ≠ .undecided := by
  have hv := @target_compares conditions none v
  unfold Compares at hv
  rw [if_pos h] at hv
  obtain ⟨s, -, hdecided, -⟩ := hv
  exact hdecided

end

/-! ## Other strings in the same places -/

mutual

/-- The value with one string in place of all of its strings. -/
def fill (u : Text) : Value → Value
  | .string _ => .string u
  | .array list => .array (fillOf u list)
  | .object fields => .object (fillIn u fields)
  | .null => .null
  | .bool b => .bool b
  | .number text => .number text

def fillOf (u : Text) : List Value → List Value
  | [] => []
  | it :: list => fill u it :: fillOf u list

def fillIn (u : Text) : List (Text × Value) → List (Text × Value)
  | [] => []
  | (key, value) :: fields => (key, fill u value) :: fillIn u fields

end

/-- Are these the same but for their strings? -/
def Alike (v v' : Value) : Prop := fill [] v = fill [] v'

section

variable {conditions : List Text} {t u : Text}

mutual

theorem fill_fill (w : Text) (v : Value) : fill u (fill w v) = fill u v := by
  cases v with
  | array list => exact congrArg Value.array (fillOf_fillOf w list)
  | object fields => exact congrArg Value.object (fillIn_fillIn w fields)
  | string s => rfl
  | null => rfl
  | bool b => rfl
  | number text => rfl

theorem fillOf_fillOf (w : Text) (list : List Value) : fillOf u (fillOf w list) = fillOf u list := by
  match list with
  | [] => rfl
  | it :: list => rw [fillOf, fillOf, fillOf, fill_fill w it, fillOf_fillOf w list]

theorem fillIn_fillIn (w : Text) (fields : List (Text × Value)) :
    fillIn u (fillIn w fields) = fillIn u fields := by
  match fields with
  | [] => rfl
  | (key, value) :: fields =>
    rw [fillIn, fillIn, fillIn, fill_fill w value, fillIn_fillIn w fields]

end

theorem fill_alike (v : Value) : Alike (fill u v) v := fill_fill u v

mutual

/-- The strings do not matter to what is reached, kept and decided. -/
theorem fill_shape (v : Value) : reaches conditions (fill u v) = reaches conditions v
      ∧ kept conditions (fill u v) = kept conditions v
      ∧ decision conditions (fill u v) = (decision conditions v).fill u := by
  cases v with
  | array list =>
    obtain ⟨hreach, hkept, hdecision⟩ := fillOf_shape list
    exact ⟨hreach, hkept, hdecision⟩
  | object fields =>
    obtain ⟨hreach, hkept, hdecision⟩ := fillIn_shape fields
    exact ⟨hreach, hkept, hdecision⟩
  | string s => exact ⟨rfl, rfl, rfl⟩
  | null => exact ⟨rfl, rfl, rfl⟩
  | bool b => exact ⟨rfl, rfl, rfl⟩
  | number text => exact ⟨rfl, rfl, rfl⟩

theorem fillOf_shape (list : List Value) :
    reachesOf conditions (fillOf u list) = reachesOf conditions list
      ∧ keptOf conditions (fillOf u list) = keptOf conditions list
      ∧ decisionOf conditions (fillOf u list) = (decisionOf conditions list).fill u := by
  match list with
  | [] => exact ⟨rfl, rfl, rfl⟩
  | it :: list =>
    obtain ⟨hreach, hkept, hdecision⟩ := fill_shape it
    obtain ⟨hreaches, hkepts, hdecisions⟩ := fillOf_shape list
    rw [fillOf, reachesOf, reachesOf, keptOf, keptOf, decisionOf, decisionOf, hreach, hkept,
      hdecision, hreaches, hkepts, hdecisions]
    refine ⟨rfl, rfl, ?_⟩
    cases decision conditions it with
    | given s => rfl
    | undecided => rfl
    | refused => rfl

theorem fillIn_shape (fields : List (Text × Value)) :
    reachesIn conditions (fillIn u fields) = reachesIn conditions fields
      ∧ keptIn conditions (fillIn u fields) = keptIn conditions fields
      ∧ decisionIn conditions (fillIn u fields) = (decisionIn conditions fields).fill u := by
  match fields with
  | [] => exact ⟨rfl, rfl, rfl⟩
  | (condition, value) :: fields =>
    obtain ⟨hreach, hkept, hdecision⟩ := fill_shape value
    obtain ⟨hreaches, hkepts, hdecisions⟩ := fillIn_shape fields
    rw [fillIn, reachesIn, reachesIn, keptIn, keptIn, decisionIn, decisionIn, hreach, hkept,
      hdecision, hreaches, hkepts, hdecisions]
    refine ⟨rfl, ?_, ?_⟩
    · cases decision conditions value with
      | given s => rfl
      | undecided => rfl
      | refused => rfl
    · by_cases hc : holds conditions condition = true
      · rw [if_pos hc, if_pos hc]
        cases decision conditions value with
        | given s => rfl
        | undecided => rfl
        | refused => rfl
      · rw [if_neg hc, if_neg hc]

end

variable {v v' : Value}

theorem Alike.reaches (h : Alike v v') : reaches conditions v = reaches conditions v' := by
  rw [← (fill_shape (u := []) v).1, ← (fill_shape (u := []) v').1, h]

theorem Alike.kept (h : Alike v v') : kept conditions v = kept conditions v' := by
  rw [← (fill_shape (u := []) v).2.1, ← (fill_shape (u := []) v').2.1, h]

theorem Alike.decision (h : Alike v v') :
    (decision conditions v).fill [] = (decision conditions v').fill [] := by
  rw [← (fill_shape v).2.2, ← (fill_shape v').2.2, h]

theorem Alike.given_iff (h : Alike v v') :
    (∃ s, Deno.decision conditions v = .given s) ↔ ∃ s, Deno.decision conditions v' = .given s := by
  rw [← Decision.fill_eq_given (u := []), ← Decision.fill_eq_given (u := []), h.decision]

theorem Alike.undecided_iff (h : Alike v v') :
    Deno.decision conditions v = .undecided ↔ Deno.decision conditions v' = .undecided := by
  rw [← Decision.fill_eq_undecided (u := []), h.decision]
  exact Decision.fill_eq_undecided

theorem fill_given {s : Text} {d : Decision} (h : d.fill u = .given s) : s = u := by
  cases d with
  | given s' => exact (Decision.given.inj h).symm
  | undecided => cases h
  | refused => cases h

end

/-! ## Strings that tell -/

section

variable (conditions : List Text) (t u : Text)

mutual

/-- One string where the first string is reached and another behind it in
its lists. -/
def mark : Value → Value
  | .string _ => .string t
  | .array list => .array (markOf list)
  | .object fields => .object (markIn fields)
  | .null => .null
  | .bool b => .bool b
  | .number text => .number text

def markOf : List Value → List Value
  | [] => []
  | it :: list => mark it :: if reaches conditions it then fillOf u list else markOf list

def markIn : List (Text × Value) → List (Text × Value)
  | [] => []
  | (key, value) :: fields => (key, mark value) :: markIn fields

end

end

section

variable {conditions : List Text} {stood_for : Option Text} {t u : Text}

mutual

theorem mark_alike (v : Value) : Alike (mark conditions t u v) v := by
  cases v with
  | array list => exact congrArg Value.array (markOf_alike list)
  | object fields => exact congrArg Value.object (markIn_alike fields)
  | string s => rfl
  | null => rfl
  | bool b => rfl
  | number text => rfl

theorem markOf_alike (list : List Value) :
    fillOf [] (markOf conditions t u list) = fillOf [] list := by
  match list with
  | [] => rfl
  | it :: list =>
    have hit : fill [] (mark conditions t u it) = fill [] it := mark_alike it
    rw [markOf, fillOf, fillOf, hit]
    split
    · rw [fillOf_fillOf]
    · rw [markOf_alike list]

theorem markIn_alike (fields : List (Text × Value)) :
    fillIn [] (markIn conditions t u fields) = fillIn [] fields := by
  match fields with
  | [] => rfl
  | (key, value) :: fields =>
    have hvalue : fill [] (mark conditions t u value) = fill [] value := mark_alike value
    rw [markIn, fillIn, fillIn, hvalue, markIn_alike fields]

end

mutual

/-- The one string is the target. The decision gives none but the other
where something was refused on the way. -/
theorem mark_tells (v : Value) : (reaches conditions v = true →
        target conditions stood_for (mark conditions t u v) = some (filled stood_for t))
      ∧ (kept conditions v = false →
          ∀ s, decision conditions (mark conditions t u v) = .given s → s = u) := by
  cases v with
  | string s => exact ⟨fun _ => rfl, nofun⟩
  | array list => exact markOf_tells list
  | object fields => exact markIn_tells fields
  | null => exact ⟨nofun, nofun⟩
  | bool b => exact ⟨nofun, nofun⟩
  | number text => exact ⟨nofun, nofun⟩

theorem markOf_tells (list : List Value) : (reachesOf conditions list = true →
        targetOf conditions stood_for (markOf conditions t u list) = some (filled stood_for t))
      ∧ (keptOf conditions list = false →
          ∀ s, decisionOf conditions (markOf conditions t u list) = .given s → s = u) := by
  match list with
  | [] => exact ⟨nofun, nofun⟩
  | it :: list =>
    obtain ⟨hfound, hrefused⟩ := mark_tells it
    obtain ⟨hfounds, hrefuseds⟩ := markOf_tells list
    rw [markOf, targetOf, decisionOf, reachesOf, keptOf]
    cases hreach : reaches conditions it with
    | true =>
      rw [if_pos rfl, if_pos rfl, hfound hreach]
      refine ⟨fun _ => rfl, fun hkept => ?_⟩
      cases hd : decision conditions (mark conditions t u it) with
      | given s =>
        intro s' heq
        exact hrefused hkept s' (hd.trans heq)
      | undecided =>
        intro s' heq
        rw [(fillOf_shape list).2.2] at heq
        exact fill_given heq
      | refused =>
        intro s' heq
        rw [(fillOf_shape list).2.2] at heq
        exact fill_given heq
    | false =>
      have hmark : reaches conditions (mark conditions t u it) = false := by
        rw [(mark_alike it).reaches, hreach]
      obtain ⟨hnone, hgiven⟩ := target_of_unreached stood_for hmark
      rw [if_neg Bool.false_ne_true, if_neg Bool.false_ne_true, hnone, Bool.false_or]
      refine ⟨hfounds, fun hkept => ?_⟩
      cases hd : decision conditions (mark conditions t u it) with
      | given s => exact absurd hd (hgiven s)
      | undecided => exact hrefuseds hkept
      | refused => exact hrefuseds hkept

theorem markIn_tells (fields : List (Text × Value)) : (reachesIn conditions fields = true →
        targetIn conditions stood_for (markIn conditions t u fields) = some (filled stood_for t))
      ∧ (keptIn conditions fields = false →
          ∀ s, decisionIn conditions (markIn conditions t u fields) = .given s → s = u) := by
  match fields with
  | [] => exact ⟨nofun, nofun⟩
  | (condition, value) :: fields =>
    obtain ⟨hfound, hrefused⟩ := mark_tells value
    obtain ⟨hfounds, hrefuseds⟩ := markIn_tells fields
    rw [markIn, targetIn, decisionIn, reachesIn, keptIn]
    by_cases hc : holds conditions condition = true
    · rw [if_pos hc, if_pos hc, if_pos hc, hc, Bool.true_and]
      have hmark : reaches conditions (mark conditions t u value) = reaches conditions value :=
        (mark_alike value).reaches
      cases hreach : reaches conditions value with
      | true =>
        rw [hreach] at hmark
        rw [if_pos rfl, hfound hreach]
        refine ⟨fun _ => rfl, fun hkept => ?_⟩
        have hne := hrefused hkept
        have hdecided := decided_of_reaches hmark
        cases hd : decision conditions (mark conditions t u value) with
        | undecided => exact absurd hd hdecided
        | refused => exact nofun
        | given s => exact fun s' heq => hne s' (hd.trans heq)
      | false =>
        rw [hreach] at hmark
        obtain ⟨hnone, hgiven⟩ := target_of_unreached stood_for hmark
        rw [if_neg Bool.false_ne_true, hnone, Bool.false_or]
        refine ⟨hfounds, fun hkept => ?_⟩
        cases hd : decision conditions (mark conditions t u value) with
        | given s => exact absurd hd (hgiven s)
        | refused => exact nofun
        | undecided =>
          rw [(mark_alike value).undecided_iff.mp hd] at hkept
          exact hrefuseds hkept
    · rw [if_neg hc, if_neg hc, if_neg hc, Bool.eq_false_iff.mpr hc, Bool.false_and,
        Bool.false_or]
      exact ⟨hfounds, hrefuseds⟩

end

end

end Zou.Deno
