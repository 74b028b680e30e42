import Mathlib

/-!
# JSON values and dictionaries

The payloads of requests and events are what `json.loads` builds: dictionaries with text keys over
numbers, texts, lists and further dictionaries. A number is a Python `int` or a `float`, and
`json.loads` also yields the floats that are not finite.

A dictionary is a list of items in insertion order; reading a key finds its first item.
-/

namespace Morphflow

/-- A Python float, the finite ones by their values. -/
inductive PyFloat
  | finite (value : ℚ)
  | inf
  | negInf
  | nan
  deriving DecidableEq

/-- A value that `json.loads` can build. -/
inductive Json
  | null
  | bool (value : Bool)
  | int (value : ℤ)
  | float (value : PyFloat)
  | str (value : String)
  | arr (values : List Json)
  | obj (items : List (String × Json))

/-- A dictionary with text keys, its items in insertion order. -/
abbrev Dict := List (String × Json)

/-- `d.get(key)`, `none` when the key is missing. -/
def Dict.get? (d : Dict) (key : String) : Option Json :=
  d.lookup key

/-- `d.get(key)` as a value: a missing key reads as null. -/
def Dict.getOrNull (d : Dict) (key : String) : Json :=
  (d.get? key).getD .null

@[simp] theorem Dict.get?_nil (key : String) : Dict.get? [] key = none := rfl

@[simp] theorem Dict.get?_cons_self (key : String) (v : Json) (d : Dict) :
    Dict.get? ((key, v) :: d) key = some v := by
  simp [Dict.get?]

theorem Dict.get?_cons_of_ne {key k : String} (h : key ≠ k) (v : Json) (d : Dict) :
    Dict.get? ((k, v) :: d) key = Dict.get? d key := by
  simp [Dict.get?, List.lookup, beq_eq_false_iff_ne.mpr h]

/-- The integer a JSON value is, if it is one. -/
def Json.toInt? : Json → Option ℤ
  | .int n => some n
  | _ => none

/-- The text a JSON value is, if it is one. -/
def Json.toStr? : Json → Option String
  | .str s => some s
  | _ => none

/-- The dictionary a JSON value is, if it is one. -/
def Json.toObj? : Json → Option Dict
  | .obj d => some d
  | _ => none

end Morphflow
