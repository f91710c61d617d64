import Cdsa.Core.Cursor
import Cdsa.L2Vector.Vector

/-!
# The vector's iterator

The iterator counts up an index and tests the vector's version first. What a
mutator can do to the three fields that it reads is one of three things:
`SameShape`, `Counted`, or emptying the vector without a new version, which is
what `cdsa_clear_vector` does.
-/
namespace Cdsa.Vector

open Cdsa.Core Cdsa.Raw

/-- mirrors src/vector.c:137-141 -/
structure CdsaVectorIterator where
  currentIndex : Nat
  snapshotVersion : Nat
  deriving DecidableEq

/-- mirrors src/vector.c:143-156 -/
def cdsaCreateVectorIterator (self : Malloc) (vec : CdsaVector) :
    Option (Option CdsaVectorIterator) :=
  (self 24).map fun r => r.map fun _ => { currentIndex := 0, snapshotVersion := vec.version }

/-- mirrors src/vector.c:158-168 -/
def cdsaHasNextVector (vec : CdsaVector) (iter : CdsaVectorIterator) : Bool :=
  if vec.version ≠ iter.snapshotVersion then false else iter.currentIndex < vec.size

/-- The status and the pointer stored, as an offset into `data`.
mirrors src/vector.c:170-192 -/
def cdsaNextVector (vec : CdsaVector) (iter : CdsaVectorIterator) :
    (Status × Option Nat) × CdsaVectorIterator :=
  if vec.version ≠ iter.snapshotVersion then ((.errIterInvalidated, none), iter)
  else if !cdsaHasNextVector vec iter then ((.errNotFound, none), iter)
  else ((.ok, some (iter.currentIndex * vec.elemSize % 2 ^ 64)),
    { iter with currentIndex := (iter.currentIndex + 1) % 2 ^ 64 })

section
variable {vec : CdsaVector} {iter : CdsaVectorIterator}

theorem cdsaHasNextVector_stale (h : vec.version ≠ iter.snapshotVersion) :
    cdsaHasNextVector vec iter = false := by
  unfold cdsaHasNextVector
  rw [if_pos h]

theorem cdsaNextVector_stale (h : vec.version ≠ iter.snapshotVersion) :
    cdsaNextVector vec iter = ((.errIterInvalidated, none), iter) := by
  unfold cdsaNextVector
  rw [if_pos h]

theorem cdsaHasNextVector_fresh (h : vec.version = iter.snapshotVersion) :
    cdsaHasNextVector vec iter = decide (iter.currentIndex < vec.size) := by
  unfold cdsaHasNextVector
  rw [if_neg (not_not_intro h)]

/-- A current iterator yields what `get_vector` does at its index. -/
theorem cdsaNextVector_fresh (h : vec.version = iter.snapshotVersion) (hs : vec.size < 2 ^ 64) :
    (cdsaNextVector vec iter).1 = yields (getVector vec iter.currentIndex) ∧
      (cdsaNextVector vec iter).2.snapshotVersion = iter.snapshotVersion ∧
      (cdsaNextVector vec iter).2.currentIndex =
        iter.currentIndex + (getVector vec iter.currentIndex).toList.length := by
  unfold cdsaNextVector getVector
  rw [if_neg (not_not_intro h), cdsaHasNextVector_fresh h]
  by_cases hi : iter.currentIndex < vec.size
  · have hlt : iter.currentIndex + 1 < 2 ^ 64 := by omega
    rw [decide_eq_true hi, if_neg (by decide), if_neg (Nat.not_le_of_lt hi), Nat.mod_eq_of_lt hlt]
    exact ⟨rfl, rfl, rfl⟩
  · rw [decide_eq_false hi, if_pos (by decide), if_pos (Nat.le_of_not_lt hi)]
    exact ⟨rfl, rfl, rfl⟩

end

/-! ## What a mutator does to the fields the iterator reads -/

structure SameShape (v v' : CdsaVector) : Prop where
  size : v'.size = v.size
  elemSize : v'.elemSize = v.elemSize
  version : v'.version = v.version

/-- The number of elements changes, and the version says so. -/
structure Counted (v v' : CdsaVector) : Prop where
  size_ne : v'.size ≠ v.size
  elemSize : v'.elemSize = v.elemSize
  version : v'.version = (v.version + 1) % 2 ^ 64

variable {v v' v'' : CdsaVector}

theorem SameShape.refl (v : CdsaVector) : SameShape v v := ⟨rfl, rfl, rfl⟩

theorem SameShape.trans (h : SameShape v v') (h' : SameShape v' v'') : SameShape v v'' :=
  ⟨h'.size.trans h.size, h'.elemSize.trans h.elemSize, h'.version.trans h.version⟩

theorem Counted.trans (h : Counted v v') (h' : SameShape v' v'') : Counted v v'' :=
  ⟨h'.size ▸ h.size_ne, h'.elemSize.trans h.elemSize, h'.version.trans h.version⟩

theorem SameShape.trans_counted (h : SameShape v v') (h' : Counted v' v'') : Counted v v'' :=
  ⟨h.size ▸ h'.size_ne, h'.elemSize.trans h.elemSize, h.version ▸ h'.version⟩

theorem append_counted {elem : List UInt8} {s : Status} (h : append v elem = some (s, v')) :
    s = .ok ∧ Counted v v' ∧ v'.size < 2 ^ 64 := by
  obtain ⟨data, -, he⟩ := Option.map_eq_some_iff.mp h
  cases he
  refine ⟨rfl, ⟨?_, rfl, rfl⟩, Nat.mod_lt _ (by decide)⟩
  show (v.size + 1) % 2 ^ 64 ≠ v.size
  exact add_mod_ne Nat.one_pos (by decide)

/-- A push appends an element, or finds no memory and leaves the shape. -/
theorem cdsaPushVector_cases {g : Grant} {elem : List UInt8} {s : Status}
    (h : cdsaPushVector g v elem = some (s, v')) :
    (s = .ok ∧ Counted v v' ∧ v'.size < 2 ^ 64) ∨ (s = .errOom ∧ SameShape v v') := by
  unfold cdsaPushVector at h
  split at h
  · obtain ⟨⟨r, data⟩, -, h⟩ := Option.bind_eq_some_iff.mp h
    cases r with
    | none =>
      cases h
      exact .inr ⟨rfl, rfl, rfl, rfl⟩
    | some block =>
      obtain ⟨hs, ⟨hsize, helem, hversion⟩, hlt⟩ := append_counted h
      exact .inl ⟨hs, ⟨hsize, helem, hversion⟩, hlt⟩
  · exact .inl (append_counted h)

/-- A pop takes an element away, or finds none. -/
theorem cdsaPopVector_cases (v : CdsaVector) :
    ((cdsaPopVector v).1 = .ok ∧ Counted v (cdsaPopVector v).2 ∧
      (cdsaPopVector v).2.size < v.size) ∨
    ((cdsaPopVector v).1 = .errNotFound ∧ (cdsaPopVector v).2 = v) := by
  unfold cdsaPopVector
  split
  · exact .inr ⟨rfl, rfl⟩
  · next h =>
    have hlt : v.size - 1 < v.size := by omega
    exact .inl ⟨rfl, ⟨Nat.ne_of_lt hlt, rfl, rfl⟩, hlt⟩

theorem setVector_sameShape {index : Nat} {elem : List UInt8} {s : Status}
    (h : setVector v index elem = some (s, v')) : SameShape v v' := by
  unfold setVector at h
  split at h
  · cases h
    exact .refl v
  · obtain ⟨data, -, he⟩ := Option.map_eq_some_iff.mp h
    cases he
    exact ⟨rfl, rfl, rfl⟩

end Cdsa.Vector
