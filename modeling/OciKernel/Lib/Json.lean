import OciKernel.Lib.Text

/-!
# Lib.Json

JSON values as a parser leaves them, with the accessors that take one kind of value apart.

* `Value.get`: a member of an object, `null` where there is none.
* `get_eq_iff`: any other result is a member that is present.
-/

namespace Json

open Text

/-- An integer is in the first form that holds it. -/
inductive Number where
  | posInt (n : UInt64)
  /-- Less than zero. -/
  | negInt (n : Int64)
  | float (x : Rat)
deriving DecidableEq

def Number.toRat : Number → Rat
  | .posInt n => n.toNat
  | .negInt n => n.toInt
  | .float x => x

/-- An object is a finite map: of two members with one name the first counts. -/
inductive Value where
  | null
  | bool (b : Bool)
  | number (n : Number)
  | string (s : Str)
  | array (vs : List Value)
  | object (members : List (Str × Value))

namespace Value

def member? : Value → Str → Option Value
  | .object members, key => members.lookup key
  | _, _ => none

/-- `v[key]`. -/
def get (v : Value) (key : Str) : Value := (v.member? key).getD .null

def asStr : Value → Option Str
  | .string s => some s
  | _ => none

/-- Not of a `float`, whatever its value. -/
def asU64 : Value → Option UInt64
  | .number (.posInt n) => some n
  | _ => none

def asArray : Value → Option (List Value)
  | .array vs => some vs
  | _ => none

variable {v x : Value} {key : Str} {vs : List Value}

theorem get_eq_iff (h : x ≠ .null) : v.get key = x ↔ v.member? key = some x := by
  unfold get
  cases v.member? key with
  | none => exact iff_of_false h.symm nofun
  | some y => rw [Option.getD_some, Option.some_inj]

theorem asArray_eq_some_iff : v.asArray = some vs ↔ v = .array vs := by
  cases v <;> simp [asArray]

theorem asArray_get : (v.get key).asArray = some vs ↔ v.member? key = some (.array vs) := by
  have harray : Value.array vs ≠ .null := nofun
  rw [asArray_eq_some_iff, get_eq_iff harray]

end Value

end Json
