import Mathlib.Order.Lattice
import Mathlib.Data.List.Lex
import Mathlib.Data.List.Infix
import Mathlib.Data.List.TakeWhile

/-!
# NUL-terminated strings

A C string is its bytes before the terminator, none of which is NUL
(`CStr`). `byteAt` reads through the pointer: the terminator is a byte like
any other. `strcmp` compares as `unsigned char`; `strcmp_eq_zero` and
`strcmp_neg` tie it to equality and to the linear order on strings.
`term` is the string with its terminator: no string's `term` is a proper
prefix of another's, which is what lets a radix tree file a key that is a
prefix of another one.
-/
namespace Cdsa.Core

structure CStr where
  bytes : List UInt8
  noNul : (0 : UInt8) ∉ bytes
  deriving DecidableEq

namespace CStr

@[ext] theorem ext {a b : CStr} (h : a.bytes = b.bytes) : a = b := by
  cases a; cases b; cases h; rfl

def strlen (s : CStr) : Nat := s.bytes.length

/-- The bytes with their terminator. -/
def term (s : CStr) : List UInt8 := s.bytes ++ [0]

/-- `s[i]`. -/
def byteAt (s : CStr) (i : Nat) : UInt8 := s.term.getD i 0

/-- `strcmp`, on the bytes before the terminators. -/
def cmpBytes : List UInt8 → List UInt8 → Int
  | [], [] => 0
  | [], _ :: _ => -1
  | _ :: _, [] => 1
  | a :: as, b :: bs => if a < b then -1 else if b < a then 1 else cmpBytes as bs

def strcmp (s t : CStr) : Int := cmpBytes s.bytes t.bytes

theorem length_term (s : CStr) : s.term.length = s.strlen + 1 := by simp [term, strlen]

/-- Only the terminator ends a string. -/
theorem prefix_bytes {s : CStr} {p : List UInt8} {c : UInt8} (h : p ++ [c] <+: s.term) :
    p <+: s.bytes := by
  have hl := h.length_le
  rw [length_term, List.length_append, List.length_singleton] at hl
  exact List.prefix_of_prefix_length_le ((List.prefix_append _ _).trans h)
    (List.prefix_append _ _) (Nat.le_of_succ_le_succ hl)

/-- The string in an array: its bytes up to the first NUL. -/
def ofArray (bytes : List UInt8) : CStr where
  bytes := bytes.takeWhile (· != 0)
  noNul hmem := by simpa using List.mem_takeWhile_imp hmem

@[simp] theorem bytes_ofArray (bytes : List UInt8) :
    (ofArray bytes).bytes = bytes.takeWhile (· != 0) := rfl

/-! ## `strcmp` decides equality and order -/

theorem cmpBytes_eq_zero : ∀ {a b : List UInt8}, cmpBytes a b = 0 ↔ a = b
  | [], [] => by simp [cmpBytes]
  | [], _ :: _ => by simp [cmpBytes]
  | _ :: _, [] => by simp [cmpBytes]
  | a :: as, b :: bs => by
    rw [cmpBytes, List.cons.injEq, ← cmpBytes_eq_zero (a := as)]
    split
    · next h => simp [UInt8.ne_of_lt h]
    · next h1 =>
      split
      · next h => simp [(UInt8.ne_of_lt h).symm]
      · next h2 =>
        have : a = b := UInt8.le_antisymm (UInt8.not_lt.mp h2) (UInt8.not_lt.mp h1)
        simp [this]

theorem strcmp_eq_zero {s t : CStr} : strcmp s t = 0 ↔ s = t := by
  rw [strcmp, cmpBytes_eq_zero]; exact ⟨ext, congrArg _⟩

@[simp] theorem strcmp_self (s : CStr) : strcmp s s = 0 := strcmp_eq_zero.mpr rfl

/-- The bytes as numbers; strings are ordered lexicographically by them. -/
def ords (s : CStr) : List Nat := s.bytes.map UInt8.toNat

theorem ords_injective : Function.Injective ords := fun _ _ h =>
  ext (List.map_injective_iff.mpr (fun _ _ => UInt8.toNat_inj.mp) h)

instance : LinearOrder CStr := LinearOrder.lift' ords ords_injective

theorem lt_iff {s t : CStr} : s < t ↔ s.ords < t.ords := Iff.rfl

theorem cmpBytes_neg : ∀ {a b : List UInt8},
    cmpBytes a b < 0 ↔ a.map UInt8.toNat < b.map UInt8.toNat
  | [], [] => by simp [cmpBytes]
  | [], _ :: _ => by simp [cmpBytes]
  | _ :: _, [] => by simp [cmpBytes]
  | a :: as, b :: bs => by
    rw [cmpBytes, List.map_cons, List.map_cons, List.cons_lt_cons_iff, ← cmpBytes_neg (a := as),
      ← UInt8.lt_iff_toNat_lt]
    split
    · next h => simp [h]
    · next h1 =>
      split
      · next h =>
        have := (UInt8.ne_of_lt h).symm
        simp only [UInt8.toNat_inj]
        simp [h1, this]
      · next h2 =>
        have : a = b := UInt8.le_antisymm (UInt8.not_lt.mp h2) (UInt8.not_lt.mp h1)
        simp [this]

theorem strcmp_neg {s t : CStr} : strcmp s t < 0 ↔ s < t := by
  rw [strcmp, cmpBytes_neg, lt_iff]; rfl

end CStr

end Cdsa.Core
