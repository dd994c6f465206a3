import Mathlib.Algebra.Group.Int.Defs
import Mathlib.Algebra.Group.Nat.Defs

/-!
# Lib.Profile

Machine arithmetic in the two profiles of a build. Where a result does not fit its type, a `dev` build
panics and a `release` build wraps. `none` is a panic.
-/

inductive Profile where
  | dev
  | release
deriving DecidableEq, Repr

namespace Profile

variable {profile : Profile} {α : Type*} {fits : Prop} [Decidable fits] {a b : α}

/-- An operation with result `wrapped` modulo the size of its type, which is exact if it `fits`. -/
def checked (profile : Profile) (fits : Prop) [Decidable fits] (wrapped : α) : Option α :=
  match profile with
  | .dev => if fits then some wrapped else none
  | .release => some wrapped

/-- A result that exists is the wrapped one. -/
theorem eq_of_checked (h : profile.checked fits a = some b) : b = a := by
  cases profile with
  | release => exact (Option.some.inj h).symm
  | dev =>
    unfold checked at h
    dsimp only at h
    split at h
    · exact (Option.some.inj h).symm
    · cases h

/-- Where the result fits, the two profiles agree. -/
theorem checked_of_fits (a : α) (h : fits) : profile.checked fits a = some a := by
  cases profile with
  | release => rfl
  | dev => exact if_pos h

/-- `a + b` in `u32`. -/
def add32 (profile : Profile) (a b : UInt32) : Option UInt32 :=
  profile.checked (a.toNat + b.toNat < 2 ^ 32) (a + b)

/-- `a * b` in `i64`. -/
def mul64 (profile : Profile) (a b : Int64) : Option Int64 :=
  profile.checked (-2 ^ 63 ≤ a.toInt * b.toInt ∧ a.toInt * b.toInt < 2 ^ 63) (a * b)

end Profile
