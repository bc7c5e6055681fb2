import Mathlib.Algebra.Order.Ring.Nat

/-!
# Json values

What `serde_json` hands the realtime side: a value, and a map in the order
its keys were first inserted. The reader of a text is a parameter of what
uses it, since it is not part of this program.
-/

namespace Zou.Realtime

inductive Number where
  | posInt (n : UInt64)
  | negInt (n : Int64)
  /-- A double, by its bits. -/
  | float (bits : UInt64)
  deriving DecidableEq

inductive Value where
  | null
  | bool (b : Bool)
  | number (n : Number)
  | string (s : String)
  | array (vs : List Value)
  | object (m : List (String × Value))

abbrev Map := List (String × Value)

namespace Map

/-- Put a value under a key: in place where the key is held, else at the end. -/
def insert (m : Map) (k : String) (v : Value) : Map :=
  match m with
  | [] => [(k, v)]
  | e :: es => if e.1 = k then (k, v) :: es else e :: insert es k v

def get? (m : Map) (k : String) : Option Value :=
  match m with
  | [] => none
  | e :: es => if e.1 = k then some e.2 else get? es k

def keys (m : Map) : List String := m.map Prod.fst

@[simp] theorem get?_nil (k : String) : get? [] k = none := rfl

theorem get?_insert (m : Map) (k : String) (v : Value) (k' : String) :
    (m.insert k v).get? k' = if k = k' then some v else m.get? k' := by
  induction m with
  | nil => rfl
  | cons e es ih =>
    unfold insert
    by_cases he : e.1 = k
    · rw [if_pos he]
      unfold get?
      by_cases hk : k = k'
      · rw [if_pos hk, if_pos hk]
      · rw [if_neg hk, if_neg hk, if_neg (fun h => hk (he.symm.trans h))]
    · rw [if_neg he]
      unfold get?
      by_cases hek : e.1 = k'
      · rw [if_pos hek, if_pos hek, if_neg (fun h => he (hek.trans h.symm))]
      · rw [if_neg hek, if_neg hek, ih]

theorem mem_keys_insert {m : Map} {k k' : String} {v : Value} :
    k' ∈ (m.insert k v).keys → k' = k ∨ k' ∈ m.keys := by
  induction m with
  | nil =>
    intro h
    exact .inl (List.mem_singleton.mp h)
  | cons e es ih =>
    intro h
    unfold insert at h
    split at h
    · rename_i he
      rcases List.mem_cons.mp h with rfl | h
      · exact .inl rfl
      · exact .inr (.tail _ h)
    · rcases List.mem_cons.mp h with rfl | h
      · exact .inr List.mem_cons_self
      · rcases ih h with rfl | h
        · exact .inl rfl
        · exact .inr (.tail _ h)

end Map

namespace Value

/-- The value under a name, of an object. -/
def get (v : Value) (name : String) : Option Value :=
  match v with
  | .object m => Map.get? m name
  | _ => none

def asStr : Value → Option String
  | .string s => some s
  | _ => none

/-- The keys of an object, none of anything else. -/
def keys : Value → List String
  | .object m => Map.keys m
  | _ => []

def items : Value → List Value
  | .array vs => vs
  | _ => []

@[simp] theorem get_object (m : Map) (name : String) : (object m).get name = m.get? name := rfl

@[simp] theorem keys_object (m : Map) : (object m).keys = m.keys := rfl

@[simp] theorem items_array (vs : List Value) : (array vs).items = vs := rfl

end Value

end Zou.Realtime
