import Zou.HorizonFor
import Zou.Rest.Query

/-!
# The export map of a package

`exports` and `imports` map subpaths to targets. A key is a subpath or a
pattern with one `*`, and a target is a string, a list of targets to try in
order or a map of conditions to more of the same. The keys of a map are in
the order they are listed in.
-/

namespace Zou.Deno

open Rest (Text utf8)

inductive Value where
  | null
  | bool (b : Bool)
  | number (text : Text)
  | string (s : Text)
  | array (list : List Value)
  | object (fields : List (Text × Value))

/-- `Map::get`. -/
def get (fields : List (Text × Value)) (key : Text) : Option Value :=
  (fields.find? fun f => f.1 = key).map Prod.snd

/-- `str::replace` of every `*`. -/
def replaceStar (stood s : Text) : Text := s.flatMap fun c => if c = '*' then stood else [c]

/-- A target with what its `*` stands for. -/
def filled (stood_for : Option Text) (target : Text) : Text :=
  match stood_for with
  | some stood_for => replaceStar stood_for target
  | none => target

/-- The conditions this runtime satisfies, most specific first. -/
def CONDITIONS : List Text :=
  ["deno".toList, "node".toList, "import".toList, "default".toList]

/-- Is this a condition that holds? -/
def holds (conditions : List Text) (condition : Text) : Bool :=
  condition = "default".toList || conditions.contains condition

/-! ## Targets -/

section

variable (conditions : List Text) (stood_for : Option Text)

mutual

/-- One target, out of a string, a list of them to try in order, or a map of
conditions to more of the same. -/
def target : Value → Option Text
  | .string s => some (filled stood_for s)
  | .array list => targetOf list
  | .object fields => targetIn fields
  | .null => none
  | .bool _ => none
  | .number _ => none

/-- The first entry of a list that resolves to anything. -/
def targetOf : List Value → Option Text
  | [] => none
  | it :: list =>
    match target it with
    | some found => some found
    | none => targetOf list

/-- The loop over the conditions of a map. -/
def targetIn : List (Text × Value) → Option Text
  | [] => none
  | (condition, value) :: fields =>
    if holds conditions condition then
      match target value with
      | some found => some found
      | none => targetIn fields
    else targetIn fields

end

end

/-! ## Subpaths -/

/-- Are the keys of this map subpaths? Its first key says so. -/
def subpaths : Value → Bool
  | .object ((key, _) :: _) => key.head? = some '.' || key.head? = some '#'
  | _ => false

/-- What the `*` of a key stands for in a subpath. -/
def stands (key sub : Text) : Option Text :=
  match splitOnce '*' key with
  | none => none
  | some (before, after) =>
    if key.count '*' ≠ 1 then none
    else
      match stripPrefix before sub with
      | none => none
      | some rest =>
        match stripSuffix after rest with
        | none => none
        | some rest => if after ≠ [] ∧ rest = [] then none else some rest

/-- The part of a key before its `*`. -/
def base (key : Text) : Text :=
  match splitOnce '*' key with
  | some (before, _) => before
  | none => key

/-- One turn of the loop over the pattern keys. -/
def better (sub : Text) (best : Option (Text × Value × Text)) (f : Text × Value) :
    Option (Text × Value × Text) :=
  match stands f.1 sub with
  | none => best
  | some rest =>
    match best with
    | none => some (f.1, f.2, rest)
    | some (won, _, _) =>
      if (utf8 (base won)).length < (utf8 (base f.1)).length then some (f.1, f.2, rest) else best

/-- What `exports` or `imports` says a subpath is, as the target it names,
or nothing for a subpath the package does not have. -/
def exported (map : Value) (sub : Text) (conditions : List Text) : Option Text :=
  if !subpaths map then
    if sub = ['.'] then target conditions none map else none
  else
    match map with
    | .object fields =>
      match get fields sub with
      | some exact => target conditions none exact
      | none =>
        match fields.foldl (better sub) none with
        | none => none
        | some (_, value, stood_for) => target conditions (some stood_for) value
    | _ => none

end Zou.Deno
