import Mathlib.Algebra.GroupWithZero.Nat
import Cdsa.Core.Block

/-!
# Little-endian words in a block

`wordBytes k n` are the `k` low bytes of `n`, the lowest first; `wordValue`
reads them back. `loadWord` and `storeWord` access 8 of them at an address of
a block that starts at `base`.
-/
namespace Cdsa.Core

def wordBytes : Nat → Nat → List UInt8
  | 0, _ => []
  | k + 1, n => UInt8.ofNat (n % 256) :: wordBytes k (n / 256)

def wordValue : List UInt8 → Nat
  | [] => 0
  | b :: bs => b.toNat + 256 * wordValue bs

@[simp] theorem length_wordBytes (k n : Nat) : (wordBytes k n).length = k := by
  induction k generalizing n with
  | zero => rfl
  | succ k ih => rw [wordBytes, List.length_cons, ih]

theorem wordValue_wordBytes (k n : Nat) : wordValue (wordBytes k n) = n % 256 ^ k := by
  induction k generalizing n with
  | zero => rw [Nat.pow_zero, Nat.mod_one]; rfl
  | succ k ih =>
    rw [wordBytes, wordValue, ih, UInt8.toNat_ofNat', Nat.mod_mod, Nat.pow_succ, Nat.mul_comm (256 ^ k),
      Nat.mod_mul]

/-- The word at address `a`. -/
def loadWord (block : List UInt8) (base a : Nat) : Option Nat :=
  if base ≤ a then (readAt block (a - base) 8).map wordValue else none

/-- Writing the word at address `a`. -/
def storeWord (block : List UInt8) (base a n : Nat) : Option (List UInt8) :=
  if base ≤ a then writeAt block (a - base) (wordBytes 8 n) else none

section
variable {block block' : List UInt8} {off n : Nat}

theorem loadWord_add (block : List UInt8) (base off : Nat) :
    loadWord block base (base + off) = (readAt block off 8).map wordValue := by
  rw [loadWord, if_pos (Nat.le_add_right ..), Nat.add_sub_cancel_left]

theorem exists_storeWord (block : List UInt8) (base off n : Nat) (h : off + 8 ≤ block.length) :
    ∃ block', storeWord block base (base + off) n = some block' ∧
      writeAt block off (wordBytes 8 n) = some block' := by
  obtain ⟨block', hw⟩ := exists_writeAt block off (wordBytes 8 n) (by rw [length_wordBytes]; exact h)
  exact ⟨block', by rw [storeWord, if_pos (Nat.le_add_right ..), Nat.add_sub_cancel_left, hw], hw⟩

theorem loadWord_stored (hw : writeAt block off (wordBytes 8 n) = some block') (hn : n < 2 ^ 64)
    (base : Nat) : loadWord block' base (base + off) = some n := by
  have h := readAt_writeAt_self hw
  rw [length_wordBytes] at h
  rw [loadWord_add, h, Option.map_some, wordValue_wordBytes,
    Nat.mod_eq_of_lt (show n < 256 ^ 8 by omega)]

theorem storeWord_length {base a : Nat} (h : storeWord block base a n = some block') :
    block'.length = block.length := by
  unfold storeWord at h
  split at h
  · exact writeAt_length h
  · cases h

end

end Cdsa.Core
