import Zou.Rest.Query

/-!
# Which rows a page holds

The planner rewrites every route to the keys the levels of the select tree
answer to, and a level takes the first limit and the first offset on its
own path. `Paged.Holds` is what the two make of the rows of the level.
-/

namespace Zou.Rest

/-- What a select tree holds, as far as routes go: embeds and spreads, and
anything else. -/
inductive SelectItem where
  | embed (relation : Text) (alias_ : Option Text) (items : List SelectItem)
  | other

namespace SelectItem

/-- Whether a segment names the embed, by its alias or the relation it
reads. -/
def named (segment : Text) : SelectItem → Bool
  | .embed relation alias_ _ => relation = segment || alias_ = some segment
  | .other => false

end SelectItem

/-- The keys of the embeds a route names. -/
def resolveRoute : List SelectItem → Route → Option Route
  | _, [] => some []
  | level, segment :: route =>
    match level.find? (·.named segment) with
    | some (.embed relation alias_ items) =>
      (resolveRoute items route).map (alias_.getD relation :: ·)
    | _ => none

/-- Everything routed somewhere, with every route rewritten. -/
def routed {α : Type} (items : List SelectItem) (xs : List (Route × α)) :
    Option (List (Route × α)) :=
  xs.mapM fun x => (resolveRoute items x.1).map fun path => (path, x.2)

/-- The limit and the offset of a level. -/
structure Paged where
  limit : Option Nat
  offset : Option Nat
  deriving DecidableEq

def onPath {α : Type} (path : Route) (xs : List (Route × α)) : Option α :=
  (xs.find? (·.1 = path)).map Prod.snd

/-- What the planner emits for the level at a path. -/
def paged {Term : Type} (q : Query SelectItem Term) (path : Route) : Option Paged :=
  (routed q.select q.limit).bind fun limit =>
    (routed q.select q.offset).map fun offset => ⟨onPath path limit, onPath path offset⟩

/-- Row `r`, from zero, is among the rows of the page. -/
def Paged.Holds (p : Paged) (r : Nat) : Prop :=
  p.offset.getD 0 ≤ r ∧ ∀ n, p.limit = some n → r < p.offset.getD 0 + n

end Zou.Rest
