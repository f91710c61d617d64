import Cdsa.Core.LTS
import Cdsa.L1Memory.Bytes
import Cdsa.L1Memory.Status

/-!
# The growable array

`cdsa_vector` keeps `size` elements of `elem_size` bytes each at the front of
the block `data`, and doubles `capacity` when the block is full. Copying an
element outside the block is undefined, hence `none`. All sizes are `size_t`.

`Good v` is a vector whose block has room for `capacity` elements, and `Lists
v l` says that its elements are `l`. `cdsa_push_vector` doubles `capacity`
before it reallocates; if the reallocation then gives nothing, `capacity` stays
doubled over the old block (`push_unmet`).
-/
namespace Cdsa.Vector

open Cdsa.Core Cdsa.Raw

/-- mirrors src/vector.c:8 -/
def INITIAL_CAPACITY : Nat := 4

/-- mirrors src/vector.c:10-16 -/
structure CdsaVector where
  data : List UInt8
  size : Nat
  capacity : Nat
  elemSize : Nat
  version : Nat
  deriving DecidableEq

/-- What an element pointer points to. -/
abbrev Elem (elemSize : Nat) := { bytes : List UInt8 // bytes.length = elemSize }

/-- mirrors src/vector.c:18-35 -/
def cdsaCreateVector (self data : Malloc) (elemSize : Nat) : Option (Option CdsaVector) :=
  (self 40).bind fun
    | none => some none
    | some _ => (data (INITIAL_CAPACITY * elemSize % 2 ^ 64)).map fun r => r.map fun data =>
      { data, size := 0, capacity := INITIAL_CAPACITY, elemSize, version := 0 }

/-- The copy at the end of `cdsa_push_vector`.
mirrors src/vector.c:51-55 -/
def append (vec : CdsaVector) (elem : List UInt8) : Option (Status × CdsaVector) :=
  (writeAt vec.data (vec.size * vec.elemSize % 2 ^ 64) elem).map fun data =>
    (.ok, { vec with data, size := (vec.size + 1) % 2 ^ 64, version := (vec.version + 1) % 2 ^ 64 })

/-- mirrors src/vector.c:37-56 -/
def cdsaPushVector (g : Grant) (vec : CdsaVector) (elem : List UInt8) :
    Option (Status × CdsaVector) :=
  if vec.size ≥ vec.capacity then
    let vec := { vec with capacity := vec.capacity * 2 % 2 ^ 64 }
    (cdsaReallocTrack g vec.data (vec.capacity * vec.elemSize % 2 ^ 64)).bind fun
      | (none, data) => some (.errOom, { vec with data })
      | (some data, _) => append { vec with data } elem
  else append vec elem

/-- The pointer, as an offset into `data`.
mirrors src/vector.c:58-62 -/
def getVector (vec : CdsaVector) (index : Nat) : Option Nat :=
  if index ≥ vec.size then none else some (index * vec.elemSize % 2 ^ 64)

/-- mirrors src/vector.c:71-83 -/
def cdsaPopVector (vec : CdsaVector) : Status × CdsaVector :=
  if vec.size = 0 then (.errNotFound, vec)
  else (.ok, { vec with size := vec.size - 1, version := (vec.version + 1) % 2 ^ 64 })

/-- mirrors src/vector.c:109-121 -/
def setVector (vec : CdsaVector) (index : Nat) (elem : List UInt8) : Option (Status × CdsaVector) :=
  if index ≥ vec.size then some (.errNotFound, vec)
  else (writeAt vec.data (index * vec.elemSize % 2 ^ 64) elem).map fun data =>
    (.ok, { vec with data })

/-- mirrors src/vector.c:123-127 -/
def cdsaClearVector (vec : CdsaVector) : CdsaVector := { vec with size := 0 }

inductive Op (elemSize : Nat) where
  | push (g : Grant) (elem : Elem elemSize)
  | pop
  | set (index : Nat) (elem : Elem elemSize)
  | get (index : Nat)
  | clear

inductive Out where
  | status (s : Status)
  | elem (bytes : Option (List UInt8))
  | cleared
  deriving DecidableEq

/-- One operation; the caller reads through the pointer that `get_vector`
returns. -/
def step {es : Nat} (vec : CdsaVector) : Op es → Option (Out × CdsaVector)
  | .push g elem => (cdsaPushVector g vec elem.1).map fun r => (.status r.1, r.2)
  | .pop => some (.status (cdsaPopVector vec).1, (cdsaPopVector vec).2)
  | .set index elem => (setVector vec index elem.1).map fun r => (.status r.1, r.2)
  | .get index =>
    match getVector vec index with
    | none => some (.elem none, vec)
    | some off => (readAt vec.data off vec.elemSize).map fun bytes => (.elem (some bytes), vec)
  | .clear => some (.cleared, cdsaClearVector vec)

/-! ## Good vectors -/

structure Good (es : Nat) (v : CdsaVector) : Prop where
  elemSize : v.elemSize = es
  size_le : v.size ≤ v.capacity
  holds : v.capacity * es ≤ v.data.length
  bounded : v.data.length + 8 < 2 ^ 64
  capacity_lt : v.capacity < 2 ^ 64
  pow : ∃ k, v.capacity = 2 ^ k

/-- The elements, in order. -/
structure Lists {es : Nat} (v : CdsaVector) (l : List (Elem es)) : Prop where
  size : v.size = l.length
  cells : ∀ i (h : i < l.length), cellAt v.data es i = some l[i].1

section
variable {es : Nat} {v : CdsaVector} {l : List (Elem es)}

/-- A vector has one list of elements. -/
theorem Lists.unique (L : Lists v l) {l' : List (Elem es)} (L' : Lists v l') : l' = l := by
  have hlen : l'.length = l.length := by rw [← L.size, ← L'.size]
  refine List.ext_getElem hlen fun i h' h => Subtype.ext ?_
  exact Option.some.inj ((L'.cells i h').symm.trans (L.cells i h))

theorem Good.capacity_pos (G : Good es v) : 0 < v.capacity := by
  obtain ⟨k, hk⟩ := G.pow
  rw [hk]; exact Nat.two_pow_pos k

theorem Good.fits (G : Good es v) {i : Nat} (hi : i < v.capacity) : i * es + es ≤ v.data.length :=
  Nat.le_trans (cell_fits hi) G.holds

theorem Good.offset (G : Good es v) {i : Nat} (hi : i < v.capacity) :
    i * v.elemSize % 2 ^ 64 = i * es := by
  have := G.fits hi
  have := G.bounded
  rw [G.elemSize]
  exact Nat.mod_eq_of_lt (by omega)

theorem Good.append (G : Good es v) (L : Lists v l) (hs : v.size < v.capacity) (e : Elem es) :
    ∃ v', append v e.1 = some (.ok, v') ∧ Good es v' ∧ Lists v' (l ++ [e]) := by
  obtain ⟨data, hw⟩ := exists_writeAt v.data (v.size * es) e.1
    (by rw [e.2]; exact G.fits hs)
  have hl := writeAt_length hw
  have hsize : (v.size + 1) % 2 ^ 64 = v.size + 1 := Nat.mod_eq_of_lt (by have := G.capacity_lt; omega)
  refine ⟨{ v with data, size := v.size + 1, version := (v.version + 1) % 2 ^ 64 }, ?_,
    ⟨G.elemSize, hs, hl ▸ G.holds, hl ▸ G.bounded, G.capacity_lt, G.pow⟩,
    ⟨by rw [List.length_append, ← L.size]; rfl, fun i hi => ?_⟩⟩
  · rw [Vector.append, G.offset hs, hw, Option.map_some, hsize]
  · show cellAt data es i = _
    rw [List.length_append, List.length_singleton, ← L.size] at hi
    by_cases h : i = v.size
    · subst h
      rw [cellAt_writeAt_self hw e.2, List.getElem_concat_length L.size]
    · have hi : i < l.length := by rw [← L.size]; omega
      rw [cellAt_writeAt_of_ne hw e.2 (Ne.symm h), L.cells i hi, List.getElem_append_left hi]

/-- The block after a reallocation that doubles the capacity. -/
theorem Good.grown (G : Good es v) (L : Lists v l) {block : List UInt8}
    (hlen : v.capacity * 2 * es ≤ block.length) (hb : block.length + 8 < 2 ^ 64)
    (hc : v.capacity * 2 < 2 ^ 64)
    (he : ∀ i, i < v.data.length → i < v.capacity * 2 * es → block[i]? = v.data[i]?) :
    Good es { v with data := block, capacity := v.capacity * 2 } ∧
      Lists { v with data := block, capacity := v.capacity * 2 } l := by
  obtain ⟨k, hk⟩ := G.pow
  have hs := Nat.le_trans G.size_le (Nat.le_mul_of_pos_right v.capacity Nat.two_pos)
  refine ⟨⟨G.elemSize, hs, hlen, hb, hc, k + 1, ?_⟩, L.size, fun i hi => ?_⟩
  · show v.capacity * 2 = _
    rw [hk, Nat.pow_succ]
  · have hi' : i < v.capacity := by have := L.size; have := G.size_le; omega
    have h1 := G.fits hi'
    have h2 : i * es + es ≤ v.capacity * 2 * es := cell_fits (by omega)
    exact readAt_of_agree (L.cells i hi) (by show _ ≤ block.length; omega)
      fun j hj => he _ (by omega) (by omega)

end

end Cdsa.Vector
