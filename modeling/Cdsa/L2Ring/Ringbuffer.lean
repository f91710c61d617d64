import Cdsa.Core.Ring
import Cdsa.L1Memory.Bytes
import Cdsa.L1Memory.Status
import Cdsa.L2Vector.Vector

/-!
# The ring buffer

`cdsa_ringbuffer` keeps its elements in a block of `capacity` slots, from slot
`head` on and around; `tail` is the next slot to fill, and `size` is counted
apart. Every `% capacity` is `modChk`, which has no value for a zero divisor,
and all sums are `size_t`: that neither goes wrong is part of what is proved.

`Inv rb l` says that the elements from front to back are `l`. Each operation
has one lemma, which says what it does to `l`.
-/
namespace Cdsa.Ring

open Cdsa.Core Cdsa.Raw Cdsa.Vector

/-- `a % c` -/
def modChk (a c : Nat) : Option Nat := if c = 0 then none else some (a % c)

/-- mirrors src/ringbuffer.c:9-17 -/
structure CdsaRingbuffer where
  data : List UInt8
  head : Nat
  tail : Nat
  size : Nat
  capacity : Nat
  elemSize : Nat
  version : Nat
  deriving DecidableEq

/-- mirrors src/ringbuffer.c:21-42 -/
def cdsaCreateRingbuffer (self data : Malloc) (capacity elemSize : Nat) :
    Option (Option CdsaRingbuffer) :=
  (self 56).bind fun
    | none => some none
    | some _ => (data (capacity * elemSize % 2 ^ 64)).map fun r => r.map fun data =>
      { data, head := 0, tail := 0, size := 0, capacity, elemSize, version := 0 }

/-- mirrors src/ringbuffer.c:53-57 -/
def cdsaSizeRingbuffer (rb : CdsaRingbuffer) : Nat := rb.size

/-- mirrors src/ringbuffer.c:59-63 -/
def cdsaIsEmptyRingbuffer (rb : CdsaRingbuffer) : Bool := rb.size = 0

/-- mirrors src/ringbuffer.c:65-69 -/
def cdsaIsFullRingbuffer (rb : CdsaRingbuffer) : Bool := rb.size = rb.capacity

/-- mirrors src/ringbuffer.c:73-91 -/
def cdsaPushBackRingbuffer (rb : CdsaRingbuffer) (elem : List UInt8) :
    Option (Status × CdsaRingbuffer) :=
  if cdsaIsFullRingbuffer rb then some (.errFull, rb)
  else
    (writeAt rb.data (rb.tail * rb.elemSize % 2 ^ 64) elem).bind fun data =>
      (modChk ((rb.tail + 1) % 2 ^ 64) rb.capacity).map fun tail =>
        (.ok, { rb with
          data, tail
          size := (rb.size + 1) % 2 ^ 64
          version := (rb.version + 1) % 2 ^ 64 })

/-- mirrors src/ringbuffer.c:93-109 -/
def cdsaPopFrontRingbuffer (rb : CdsaRingbuffer) : Option (Status × CdsaRingbuffer) :=
  if cdsaIsEmptyRingbuffer rb then some (.errEmpty, rb)
  else
    (modChk ((rb.head + 1) % 2 ^ 64) rb.capacity).map fun head =>
      (.ok, { rb with head, size := rb.size - 1, version := (rb.version + 1) % 2 ^ 64 })

/-- The pointer, as an offset into `data`.
mirrors src/ringbuffer.c:111-117 -/
def cdsaFrontRingbuffer (rb : CdsaRingbuffer) : Option Nat :=
  if cdsaIsEmptyRingbuffer rb then none else some (rb.head * rb.elemSize % 2 ^ 64)

/-- `(i + capacity - 1) % capacity`, as `size_t`. -/
def stepBack (rb : CdsaRingbuffer) (i : Nat) : Option Nat :=
  modChk ((i + rb.capacity + (2 ^ 64 - 1)) % 2 ^ 64) rb.capacity

/-- mirrors src/ringbuffer.c:121-139 -/
def cdsaPushFrontRingbuffer (rb : CdsaRingbuffer) (elem : List UInt8) :
    Option (Status × CdsaRingbuffer) :=
  if cdsaIsFullRingbuffer rb then some (.errFull, rb)
  else
    (stepBack rb rb.head).bind fun head =>
      (writeAt rb.data (head * rb.elemSize % 2 ^ 64) elem).map fun data =>
        (.ok, { rb with
          data, head
          size := (rb.size + 1) % 2 ^ 64
          version := (rb.version + 1) % 2 ^ 64 })

/-- mirrors src/ringbuffer.c:141-156 -/
def cdsaPopBackRingbuffer (rb : CdsaRingbuffer) : Option (Status × CdsaRingbuffer) :=
  if cdsaIsEmptyRingbuffer rb then some (.errEmpty, rb)
  else
    (stepBack rb rb.tail).map fun tail =>
      (.ok, { rb with tail, size := rb.size - 1, version := (rb.version + 1) % 2 ^ 64 })

/-- The pointer, as an offset into `data`; `none` for a zero divisor.
mirrors src/ringbuffer.c:158-166 -/
def cdsaBackRingbuffer (rb : CdsaRingbuffer) : Option (Option Nat) :=
  if cdsaIsEmptyRingbuffer rb then some none
  else (stepBack rb rb.tail).map fun last => some (last * rb.elemSize % 2 ^ 64)

/-- mirrors src/ringbuffer.c:170-174 -/
structure CdsaRingbufferIterator where
  progress : Nat
  snapshotVersion : Nat

/-- mirrors src/ringbuffer.c:176-191 -/
def cdsaCreateRingbufferIterator (rb : CdsaRingbuffer) : CdsaRingbufferIterator where
  progress := 0
  snapshotVersion := rb.version

/-- mirrors src/ringbuffer.c:193-203 -/
def cdsaHasNextRingbuffer (rb : CdsaRingbuffer) (iter : CdsaRingbufferIterator) : Bool :=
  if rb.version ≠ iter.snapshotVersion then false else iter.progress < rb.size

/-- The status, the pointer stored through `out_value`, and the iterator.
mirrors src/ringbuffer.c:205-229 -/
def cdsaNextRingbuffer (rb : CdsaRingbuffer) (iter : CdsaRingbufferIterator) :
    Option (Status × Option Nat × CdsaRingbufferIterator) :=
  if rb.version ≠ iter.snapshotVersion then some (.errIterInvalidated, none, iter)
  else if cdsaHasNextRingbuffer rb iter then
    (modChk ((rb.head + iter.progress) % 2 ^ 64) rb.capacity).map fun physicalIndex =>
      (.ok, some (physicalIndex * rb.elemSize % 2 ^ 64), { iter with progress := iter.progress + 1 })
  else some (.errNotFound, none, iter)

/-! ## What the slots hold -/

/-- The elements, from front to back, are `l`. -/
structure Inv {es : Nat} (rb : CdsaRingbuffer) (l : List (Elem es)) : Prop where
  elemSize : rb.elemSize = es
  size : rb.size = l.length
  size_le : rb.size ≤ rb.capacity
  head : 0 < rb.capacity → rb.head < rb.capacity
  tail : 0 < rb.capacity → rb.tail = (rb.head + rb.size) % rb.capacity
  holds : rb.capacity * es ≤ rb.data.length
  fits : rb.capacity * es < 2 ^ 64
  twice : 2 * rb.capacity < 2 ^ 64
  cells : ∀ i (h : i < l.length), cellAt rb.data es ((rb.head + i) % rb.capacity) = some l[i].1

section
variable {es : Nat} {rb : CdsaRingbuffer} {l : List (Elem es)}

theorem Inv.capacity_pos (I : Inv rb l) (h : l.length ≠ rb.capacity ∨ l ≠ []) : 0 < rb.capacity := by
  have := I.size_le
  have := I.size
  rcases h with h | h
  · omega
  · have := List.length_pos_of_ne_nil h
    omega

theorem Inv.tail_lt (I : Inv rb l) (hc : 0 < rb.capacity) : rb.tail < rb.capacity := by
  rw [I.tail hc]; exact Nat.mod_lt _ hc

/-- A slot below `capacity` lies in the block. -/
theorem Inv.slot (I : Inv rb l) {i : Nat} (hi : i < rb.capacity) :
    i * rb.elemSize % 2 ^ 64 = i * es ∧ i * es + es ≤ rb.data.length := by
  have := cell_fits (w := es) hi
  have := I.fits
  have := I.holds
  rw [I.elemSize]
  exact ⟨Nat.mod_eq_of_lt (by omega), by omega⟩

theorem Inv.stepBack (I : Inv rb l) (hc : 0 < rb.capacity) {i : Nat} (hi : i < rb.capacity) :
    stepBack rb i = some ((i + (rb.capacity - 1)) % rb.capacity) := by
  have := I.twice
  have hmod : (i + rb.capacity + (2 ^ 64 - 1)) % 2 ^ 64 = i + (rb.capacity - 1) := by omega
  unfold Ring.stepBack modChk
  rw [hmod, if_neg (by omega)]

theorem Inv.isFull (I : Inv rb l) : cdsaIsFullRingbuffer rb = decide (l.length = rb.capacity) := by
  unfold cdsaIsFullRingbuffer; rw [I.size]

theorem Inv.isEmpty (I : Inv rb l) : cdsaIsEmptyRingbuffer rb = l.isEmpty := by
  unfold cdsaIsEmptyRingbuffer
  rw [I.size]
  cases l <;> simp

theorem Inv.pushBack (I : Inv rb l) (e : Elem es) (hl : l.length ≠ rb.capacity) :
    ∃ rb', cdsaPushBackRingbuffer rb e.1 = some (.ok, rb') ∧ Inv rb' (l ++ [e]) ∧
      rb'.capacity = rb.capacity := by
  have hc := I.capacity_pos (Or.inl hl)
  have ht := I.tail_lt hc
  have h2 := I.twice
  have hs := I.size
  have hle := I.size_le
  obtain ⟨hoff, hfit⟩ := I.slot ht
  obtain ⟨data, hw⟩ := exists_writeAt rb.data (rb.tail * es) e.1 (by rw [e.2]; exact hfit)
  have hlen := writeAt_length hw
  refine ⟨{ rb with
    data
    tail := (rb.tail + 1) % rb.capacity
    size := rb.size + 1
    version := (rb.version + 1) % 2 ^ 64 }, ?_, ⟨I.elemSize, ?_, ?_, I.head, fun _ => ?_,
      hlen ▸ I.holds, I.fits, h2, fun i hi => ?_⟩, rfl⟩
  · unfold cdsaPushBackRingbuffer modChk
    rw [I.isFull, if_neg (by simpa using hl), hoff, hw, Option.bind_some, if_neg (by omega),
      Option.map_some, Nat.mod_eq_of_lt (show rb.tail + 1 < 2 ^ 64 by omega),
      Nat.mod_eq_of_lt (show rb.size + 1 < 2 ^ 64 by omega)]
  · show rb.size + 1 = _
    rw [List.length_append, hs]; rfl
  · show rb.size + 1 ≤ rb.capacity
    omega
  · show (rb.tail + 1) % rb.capacity = (rb.head + (rb.size + 1)) % rb.capacity
    rw [I.tail hc, ring_succ]
  · show cellAt data es ((rb.head + i) % rb.capacity) = _
    rw [List.length_append, List.length_singleton] at hi
    by_cases h : i = l.length
    · subst h
      have he : (rb.head + l.length) % rb.capacity = rb.tail := by rw [I.tail hc, hs]
      rw [he, cellAt_writeAt_self hw e.2, List.getElem_concat_length rfl]
    · -- the other elements are in other slots
      have hne : rb.tail ≠ (rb.head + i) % rb.capacity := fun he => by
        rw [I.tail hc] at he
        have := ring_inj (by omega) (by omega) he
        omega
      rw [cellAt_writeAt_of_ne hw e.2 hne, I.cells i (by omega), List.getElem_append_left]

theorem Inv.popFront {e : Elem es} (I : Inv rb (e :: l)) :
    ∃ rb', cdsaPopFrontRingbuffer rb = some (.ok, rb') ∧ Inv rb' l ∧
      rb'.capacity = rb.capacity := by
  have hc := I.capacity_pos (Or.inr (List.cons_ne_nil e l))
  have hh := I.head hc
  have h2 := I.twice
  have hs := I.size
  have hle := I.size_le
  rw [List.length_cons] at hs
  refine ⟨{ rb with
    head := (rb.head + 1) % rb.capacity
    size := rb.size - 1
    version := (rb.version + 1) % 2 ^ 64 }, ?_, ⟨I.elemSize, ?_, ?_, fun _ => Nat.mod_lt _ hc,
      fun _ => ?_, I.holds, I.fits, h2, fun i hi => ?_⟩, rfl⟩
  · unfold cdsaPopFrontRingbuffer modChk
    rw [I.isEmpty, if_neg (by simp), if_neg (by omega), Option.map_some,
      Nat.mod_eq_of_lt (show rb.head + 1 < 2 ^ 64 by omega)]
  · show rb.size - 1 = l.length
    omega
  · show rb.size - 1 ≤ rb.capacity
    omega
  · show rb.tail = ((rb.head + 1) % rb.capacity + (rb.size - 1)) % rb.capacity
    rw [I.tail hc, Nat.mod_add_mod]
    congr 1; omega
  · show cellAt rb.data es (((rb.head + 1) % rb.capacity + i) % rb.capacity) = _
    have := I.cells (i + 1) (by rw [List.length_cons]; omega)
    rw [Nat.mod_add_mod, show rb.head + 1 + i = rb.head + (i + 1) by omega, this]
    rfl

theorem Inv.pushFront (I : Inv rb l) (e : Elem es) (hl : l.length ≠ rb.capacity) :
    ∃ rb', cdsaPushFrontRingbuffer rb e.1 = some (.ok, rb') ∧ Inv rb' (e :: l) ∧
      rb'.capacity = rb.capacity := by
  have hc := I.capacity_pos (Or.inl hl)
  have hh := I.head hc
  have h2 := I.twice
  have hs := I.size
  have hle := I.size_le
  have hlt : (rb.head + (rb.capacity - 1)) % rb.capacity < rb.capacity := Nat.mod_lt _ hc
  obtain ⟨hoff, hfit⟩ := I.slot hlt
  obtain ⟨data, hw⟩ := exists_writeAt rb.data ((rb.head + (rb.capacity - 1)) % rb.capacity * es) e.1
    (by rw [e.2]; exact hfit)
  have hlen := writeAt_length hw
  refine ⟨{ rb with
    data
    head := (rb.head + (rb.capacity - 1)) % rb.capacity
    size := rb.size + 1
    version := (rb.version + 1) % 2 ^ 64 }, ?_, ⟨I.elemSize, ?_, ?_, fun _ => hlt, fun _ => ?_,
      hlen ▸ I.holds, I.fits, h2, fun i hi => ?_⟩, rfl⟩
  · unfold cdsaPushFrontRingbuffer
    rw [I.isFull, if_neg (by simpa using hl), I.stepBack hc hh, Option.bind_some, hoff, hw,
      Option.map_some, Nat.mod_eq_of_lt (show rb.size + 1 < 2 ^ 64 by omega)]
  · show rb.size + 1 = (e :: l).length
    rw [List.length_cons, hs]
  · show rb.size + 1 ≤ rb.capacity
    omega
  · show rb.tail = ((rb.head + (rb.capacity - 1)) % rb.capacity + (rb.size + 1)) % rb.capacity
    rw [I.tail hc, Nat.mod_add_mod,
      show rb.head + (rb.capacity - 1) + (rb.size + 1) = rb.head + rb.size + rb.capacity by omega,
      Nat.add_mod_right]
  · show cellAt data es (((rb.head + (rb.capacity - 1)) % rb.capacity + i) % rb.capacity) = _
    cases i with
    | zero =>
      rw [Nat.add_zero, Nat.mod_mod, cellAt_writeAt_self hw e.2]
      rfl
    | succ i =>
      rw [List.length_cons] at hi
      have hne : (rb.head + (rb.capacity - 1)) % rb.capacity ≠ (rb.head + i) % rb.capacity :=
        fun he => by
          have := ring_inj (by omega) (by omega) he
          omega
      rw [Nat.mod_add_mod,
        show rb.head + (rb.capacity - 1) + (i + 1) = rb.head + i + rb.capacity by omega,
        Nat.add_mod_right, cellAt_writeAt_of_ne hw e.2 hne, I.cells i (by omega)]
      rfl

theorem Inv.popBack {e : Elem es} (I : Inv rb (l ++ [e])) :
    ∃ rb', cdsaPopBackRingbuffer rb = some (.ok, rb') ∧ Inv rb' l ∧
      rb'.capacity = rb.capacity := by
  have hc := I.capacity_pos (Or.inr (by simp))
  have ht := I.tail_lt hc
  have hs := I.size
  have hle := I.size_le
  rw [List.length_append, List.length_singleton] at hs
  have hback : (rb.tail + (rb.capacity - 1)) % rb.capacity = (rb.head + l.length) % rb.capacity := by
    rw [I.tail hc, hs, ring_back _ _ hc]
  refine ⟨{ rb with
    tail := (rb.tail + (rb.capacity - 1)) % rb.capacity
    size := rb.size - 1
    version := (rb.version + 1) % 2 ^ 64 }, ?_, ⟨I.elemSize, ?_, ?_, I.head, fun _ => ?_, I.holds,
      I.fits, I.twice, fun i hi => ?_⟩, rfl⟩
  · unfold cdsaPopBackRingbuffer
    rw [I.isEmpty, if_neg (by simp), I.stepBack hc ht, Option.map_some]
  · show rb.size - 1 = l.length
    omega
  · show rb.size - 1 ≤ rb.capacity
    omega
  · show (rb.tail + (rb.capacity - 1)) % rb.capacity = (rb.head + (rb.size - 1)) % rb.capacity
    rw [hback, hs, Nat.add_sub_cancel]
  · have := I.cells i (by rw [List.length_append]; omega)
    rw [List.getElem_append_left hi] at this
    exact this

end

end Cdsa.Ring
