import Mathlib.Algebra.GroupWithZero.Nat
import Cdsa.Core.Block

/-!
# Allocation, byte by byte

Where it matters how many bytes an allocation has, a block is the list of its
bytes. `Grant` is one answer of the system's `malloc` or `realloc`, to any
number of bytes: NULL, or a block of at least that many bytes with whatever is
in them. No block fills the whole address space.

The tracked functions ask for 8 bytes more, for the hidden header, modulo
2^64. A block into which the header does not fit gives `none`: writing it is
undefined. `cdsaMallocTrack_bytes` and `cdsaReallocTrack_cases` say what is
left for the caller.
-/
namespace Cdsa.Raw

open Cdsa.Core

structure Grant where
  answer : Nat → Option (List UInt8)
  holds : ∀ n block, answer n = some block → n ≤ block.length
  bounded : ∀ n block, answer n = some block → block.length < 2 ^ 64

/-- A system that never refuses and hands out zeroed blocks. -/
def Grant.zeros : Grant where
  answer n := if n < 2 ^ 64 then some (List.replicate n 0) else none
  holds n block h := by
    split at h
    · cases h; exact Nat.le_of_eq (List.length_replicate ..).symm
    · cases h
  bounded n block h := by
    split at h
    · next hn => cases h; rw [List.length_replicate]; exact hn
    · cases h

/-- A system whose blocks have 8 bytes at least, also the one for 0 bytes. -/
def Grant.words : Grant where
  answer n := if n < 2 ^ 64 then some (List.replicate (max n 8) 0) else none
  holds n block h := by
    split at h
    · cases h
      rw [List.length_replicate]
      exact Nat.le_max_left n 8
    · cases h
  bounded n block h := by
    split at h
    · cases h
      rw [List.length_replicate]
      omega
    · cases h

/-- A system out of memory. -/
def Grant.refuses : Grant where
  answer _ := none
  holds _ _ h := by cases h
  bounded _ _ h := by cases h

/-- An allocation function: `none` if the call is undefined, `some none` for
NULL. -/
abbrev Malloc := Nat → Option (Option (List UInt8))

/-- `malloc` itself, as a user may define `CDSA_MALLOC`. -/
def Grant.malloc (g : Grant) : Malloc := fun size => some (g.answer size)

/-- mirrors src/allocator.c:9-19 -/
def cdsaMallocTrack (g : Grant) : Malloc := fun size =>
  match g.answer ((size + 8) % 2 ^ 64) with
  | none => some none
  | some block => if block.length < 8 then none else some (some (block.drop 8))

/-- mirrors src/allocator.c:32-38 -/
def cdsaCallocTrack (g : Grant) (count size : Nat) : Option (Option (List UInt8)) :=
  let total := count * size % 2 ^ 64
  (cdsaMallocTrack g total).bind fun
    | none => some none
    | some block => (writeAt block 0 (List.replicate total 0)).map some

/-- The answer, and what the caller still owns under the old pointer.
mirrors src/allocator.c:40-61 -/
def cdsaReallocTrack (g : Grant) (old : List UInt8) (newSize : Nat) :
    Option (Option (List UInt8) × List UInt8) :=
  if newSize = 0 then some (none, [])
  else
    match g.answer ((newSize + 8) % 2 ^ 64) with
    | none => some (none, old)
    | some block =>
      if block.length < 8 then none
      else
        let fresh := block.drop 8
        some (some (old.take fresh.length ++ fresh.drop old.length), [])

/-- A block holds what was asked for, if the request does not wrap. -/
theorem cdsaMallocTrack_bytes {g : Grant} {size : Nat} {block : List UInt8}
    (h : cdsaMallocTrack g size = some (some block)) :
    block.length + 8 < 2 ^ 64 ∧ (size + 8 < 2 ^ 64 → size ≤ block.length) := by
  unfold cdsaMallocTrack at h
  split at h
  · simp at h
  · next b hb =>
    have h1 := g.holds _ _ hb
    have h2 := g.bounded _ _ hb
    split at h
    · cases h
    · cases h
      rw [List.length_drop]
      refine ⟨by omega, fun hs => ?_⟩
      rw [Nat.mod_eq_of_lt hs] at h1
      omega

theorem cdsaCallocTrack_bytes {g : Grant} {count size : Nat} {block : List UInt8}
    (h : cdsaCallocTrack g count size = some (some block)) :
    block.length + 8 < 2 ^ 64 ∧
      (count * size % 2 ^ 64 + 8 < 2 ^ 64 → count * size % 2 ^ 64 ≤ block.length) := by
  obtain ⟨r, hr, h⟩ := Option.bind_eq_some_iff.mp h
  cases r with
  | none => simp at h
  | some b =>
    obtain ⟨b', hw, h⟩ := Option.map_eq_some_iff.mp h
    cases h
    rw [writeAt_length hw]
    exact cdsaMallocTrack_bytes hr

/-- The request can be met: it is not for 0 bytes, does not wrap, and is
granted. -/
def Grant.Meets (g : Grant) (newSize : Nat) : Prop :=
  0 < newSize ∧ newSize + 8 < 2 ^ 64 ∧ (g.answer (newSize + 8)).isSome

/-- A request that can be met gives a block that starts as the old one did. -/
theorem cdsaReallocTrack_met {g : Grant} {newSize : Nat} (h : g.Meets newSize)
    (old : List UInt8) :
    ∃ block, cdsaReallocTrack g old newSize = some (some block, []) ∧
      newSize ≤ block.length ∧ block.length + 8 < 2 ^ 64 ∧
      ∀ i, i < old.length → i < newSize → block[i]? = old[i]? := by
  obtain ⟨h0, hs, hg⟩ := h
  obtain ⟨b, hb⟩ := Option.isSome_iff_exists.mp hg
  have h1 := g.holds _ _ hb
  have h2 := g.bounded _ _ hb
  have hl : (old.take (b.drop 8).length ++ (b.drop 8).drop old.length).length = b.length - 8 := by
    simp only [List.length_append, List.length_take, List.length_drop]; omega
  refine ⟨old.take (b.drop 8).length ++ (b.drop 8).drop old.length, ?_, by omega, by omega,
    fun i hi hn => ?_⟩
  · rw [cdsaReallocTrack, if_neg (by omega), Nat.mod_eq_of_lt hs, hb]
    exact if_neg (by omega)
  · have hd : i < (b.drop 8).length := by rw [List.length_drop]; omega
    rw [List.getElem?_append_left (by rw [List.length_take]; omega), List.getElem?_take_of_lt hd]

/-- Only a request that can be met, or that wraps, gives a block. -/
theorem cdsaReallocTrack_some {g : Grant} {old block rest : List UInt8} {newSize : Nat}
    (h : cdsaReallocTrack g old newSize = some (some block, rest)) :
    block.length + 8 < 2 ^ 64 ∧ (newSize + 8 < 2 ^ 64 → g.Meets newSize) := by
  unfold cdsaReallocTrack at h
  split at h
  · cases h
  · next h0 =>
    split at h
    · cases h
    · next b hb =>
      have hbound := g.bounded _ _ hb
      split at h
      · cases h
      · cases h
        refine ⟨?_, fun hs => ⟨Nat.pos_of_ne_zero h0, hs, ?_⟩⟩
        · simp only [List.length_append, List.length_take, List.length_drop]; omega
        · rw [Nat.mod_eq_of_lt hs] at hb
          rw [hb]; rfl

end Cdsa.Raw
