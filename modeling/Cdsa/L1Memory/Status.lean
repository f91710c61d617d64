import Mathlib.Init

/-!
# Status codes

Every fallible operation of the library answers a `CDSA_STATUS`.
-/
namespace Cdsa

/-- mirrors include/CDSA/error.h:4-13 -/
inductive Status where
  | ok | errOom | errNotFound | errExists | errInvalid | errFull | errEmpty | errIterInvalidated
  deriving DecidableEq, Repr

/-- What an iterator answers where the next value, if any, is `v`: the status
and what is stored through `out_value`. -/
def yields {V : Type} : Option V → Status × Option V
  | none => (.errNotFound, none)
  | some v => (.ok, some v)

@[simp] theorem yields_snd {V : Type} (v : Option V) : (yields v).2 = v := by cases v <;> rfl

end Cdsa
