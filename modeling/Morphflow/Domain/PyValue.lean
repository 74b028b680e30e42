import Morphflow.Domain.Json
import Morphflow.Domain.PyNumber

/-!
# Operations of the interpreter on values of unknown type

What `dict.get`, `int`, `float` and `len` do with a value that `json.loads` built, and what they
raise where they do not accept it.

## Main definitions

* `PyException`.
* `Dict.getDict`, `Json.len`.
* `pyMax`, `Json.toPyInt?`, `Json.toPyFloat?`: the conversions of a number.
* `PyFloat.clamp`, `PyFloat.above`.
-/

namespace Morphflow

inductive ExceptionType
  | attributeError
  | overflowError
  | runtimeError
  | typeError
  | valueError
  deriving DecidableEq

/-- An exception, with the text `str(exc)`. -/
structure PyException where
  type : ExceptionType
  message : String
  deriving DecidableEq

namespace Json

/-- The name of the type of a value. -/
def typeName : Json → String
  | .null => "NoneType"
  | .bool _ => "bool"
  | .int _ => "int"
  | .float _ => "float"
  | .str _ => "str"
  | .arr _ => "list"
  | .obj _ => "dict"

/-- `len(value)`. -/
def len : Json → Except PyException ℕ
  | .str s => .ok s.length
  | .arr values => .ok values.length
  | .obj items => .ok items.length
  | v => .error ⟨.typeError, s!"object of type '{v.typeName}' has no len()"⟩

end Json

/-- `d.get(key, {})` as the object of an attribute `get`, which only dictionaries have. -/
def Dict.getDict (d : Dict) (key : String) : Except PyException Dict :=
  match d.get? key with
  | none => .ok []
  | some (.obj items) => .ok items
  | some v => .error ⟨.attributeError, s!"'{v.typeName}' object has no attribute 'get'"⟩

/-! ### Numbers -/

/-- `max(values)`. -/
def pyMax (values : List ℤ) : Except PyException ℤ :=
  match values.max? with
  | some value => .ok value
  | none => .error ⟨.valueError, "max() iterable argument is empty"⟩

theorem pyMax_eq_ok_iff {values : List ℤ} {value : ℤ} :
    pyMax values = .ok value ↔ values.max? = some value := by
  unfold pyMax
  cases values.max? <;> simp

namespace PyFloat

/-- `int(x)`. -/
def toPyInt : PyFloat → Except PyException ℤ
  | .finite q => .ok (truncate q)
  | .nan => .error ⟨.valueError, "cannot convert float NaN to integer"⟩
  | _ => .error ⟨.overflowError, "cannot convert float infinity to integer"⟩

/-- `min(max(x, 0.0), 1.0)`; a comparison with `nan` is false. -/
def clamp : PyFloat → PyFloat
  | .finite q => .finite (min (max q 0) 1)
  | .inf => .finite 1
  | .negInf => .finite 0
  | .nan => .nan

/-- `draw < x`. -/
def above (draw : ℚ) : PyFloat → Bool
  | .finite q => draw < q
  | .inf => true
  | .negInf => false
  | .nan => false

end PyFloat

namespace Json

/-- `int(value)` when `isinstance(value, (int, float))`. -/
def toPyInt? : Json → Option (Except PyException ℤ)
  | .bool b => some (.ok b.toNat)
  | .int n => some (.ok n)
  | .float x => some x.toPyInt
  | _ => none

/-- `float(value)` when `isinstance(value, (int, float))`. The rounding of an integer is left
out. -/
def toPyFloat? : Json → Option (Except PyException PyFloat)
  | .bool b => some (.ok (.finite b.toNat))
  | .int n => some (if overflowsFloat n then
      .error ⟨.overflowError, "int too large to convert to float"⟩
    else .ok (.finite n))
  | .float x => some (.ok x)
  | _ => none

/-- Only a float that is not finite is refused by `int`. -/
theorem toPyInt?_getD_eq_ok_iff {v : Json} (base : ℤ) :
    (∃ n, v.toPyInt?.getD (.ok base) = .ok n) ↔ ∀ x, v = .float x → ∃ q, x = .finite q := by
  cases v with
  | float x => cases x <;> simp [toPyInt?, PyFloat.toPyInt]
  | _ => simp [toPyInt?]

/-- Only an integer beyond the floats is refused by `float`. -/
theorem toPyFloat?_getD_eq_ok_iff {v : Json} (base : PyFloat) :
    (∃ x, v.toPyFloat?.getD (.ok base) = .ok x) ↔ ∀ n, v = .int n → overflowsFloat n = false := by
  cases v with
  | int n => cases h : overflowsFloat n <;> simp [toPyFloat?, h]
  | _ => simp [toPyFloat?]

/-- A value with a length: a text, a list or an object. -/
def HasLen : Json → Prop
  | .str _ => True
  | .arr _ => True
  | .obj _ => True
  | _ => False

theorem len_eq_ok_iff {v : Json} : (∃ n, v.len = .ok n) ↔ v.HasLen := by
  cases v <;> simp [len, HasLen]

end Json

end Morphflow
