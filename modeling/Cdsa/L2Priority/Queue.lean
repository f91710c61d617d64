import Cdsa.Core.Heap
import Cdsa.L2Vector.Runs

/-!
# The priority queue

`cdsa_priority_queue` is a binary heap in a vector, ordered by the caller's
`cmp`. Pushing and popping change the vector first and then sift, and a sift
begins by allocating a scratch element for its swaps. An element pointer is read
where the code reads through it; a read past the vector's elements, of which
`get_vector` gives NULL, has no value.

`Queue cmp pq l` says that the elements, in the order of the array, are `l`. The
loops get as fuel what bounds them, and `Cdsa.L2Priority.Sift` shows that they
end before it does.
-/
namespace Cdsa.Priority

open Cdsa.Core Cdsa.Raw Cdsa.Vector

/-- mirrors src/priority_queue.c:8-12 -/
structure CdsaPriorityQueue where
  data : CdsaVector
  elemSize : Nat
  cmp : List UInt8 → List UInt8 → Bool

/-- The `n` bytes at `get_vector(vec, index)`. -/
def elemAt (vec : CdsaVector) (index n : Nat) : Option (List UInt8) :=
  (getVector vec index).bind fun off => readAt vec.data off n

/-- The three copies that exchange two elements through `temp`.
mirrors src/priority_queue.c:34-36, 82-84 -/
def swapThrough (pq : CdsaPriorityQueue) (temp : List UInt8) (i j : Nat) :
    Option (CdsaPriorityQueue × List UInt8) :=
  (elemAt pq.data i pq.elemSize).bind fun val =>
    (writeAt temp 0 val).bind fun temp =>
      (elemAt pq.data j pq.data.elemSize).bind fun other =>
        (setVector pq.data i other).bind fun r =>
          (readAt temp 0 r.2.elemSize).bind fun saved =>
            (setVector r.2 j saved).map fun r => ({ pq with data := r.2 }, temp)

/-- mirrors src/priority_queue.c:26-42 -/
def siftUpLoop : Nat → CdsaPriorityQueue → List UInt8 → Nat → Option CdsaPriorityQueue
  | 0, _, _, _ => none
  | fuel + 1, pq, temp, index =>
    if index > 0 then
      let parentIdx := (index - 1) / 2
      (elemAt pq.data index pq.elemSize).bind fun currentVal =>
        (elemAt pq.data parentIdx pq.elemSize).bind fun parentVal =>
          if pq.cmp currentVal parentVal then
            (swapThrough pq temp index parentIdx).bind fun r => siftUpLoop fuel r.1 r.2 parentIdx
          else some pq
    else some pq

/-- mirrors src/priority_queue.c:16-46 -/
def siftUp (scratch : Grant) (pq : CdsaPriorityQueue) (index : Nat) :
    Option (Status × CdsaPriorityQueue) :=
  if index = 0 then some (.ok, pq)
  else (cdsaMallocTrack scratch pq.elemSize).bind fun
    | none => some (.errOom, pq)
    | some temp => (siftUpLoop (index + 1) pq temp index).map fun pq => (.ok, pq)

/-- `child` if it is in the heap and goes before `highestPriority`.
mirrors src/priority_queue.c:61-67, 69-75 -/
def preferChild (pq : CdsaPriorityQueue) (size child highestPriority : Nat) : Option Nat :=
  if child < size then
    (elemAt pq.data child pq.elemSize).bind fun val =>
      (elemAt pq.data highestPriority pq.elemSize).map fun targetVal =>
        if pq.cmp val targetVal then child else highestPriority
  else some highestPriority

/-- mirrors src/priority_queue.c:56-90 -/
def siftDownLoop : Nat → CdsaPriorityQueue → List UInt8 → Nat → Nat → Option CdsaPriorityQueue
  | 0, _, _, _, _ => none
  | fuel + 1, pq, temp, size, index =>
    (preferChild pq size ((2 * index + 1) % 2 ^ 64) index).bind fun highestPriority =>
      (preferChild pq size ((2 * index + 2) % 2 ^ 64) highestPriority).bind fun highestPriority =>
        if highestPriority ≠ index then
          (swapThrough pq temp index highestPriority).bind fun r =>
            siftDownLoop fuel r.1 r.2 size highestPriority
        else some pq

/-- mirrors src/priority_queue.c:48-94 -/
def siftDown (scratch : Grant) (pq : CdsaPriorityQueue) (index : Nat) :
    Option (Status × CdsaPriorityQueue) :=
  (cdsaMallocTrack scratch pq.elemSize).bind fun
    | none => some (.errOom, pq)
    | some temp =>
      (siftDownLoop (pq.data.size + 1) pq temp pq.data.size index).map fun pq => (.ok, pq)

/-- mirrors src/priority_queue.c:98-114 -/
def cdsaCreatePq (self vec block : Malloc) (elemSize : Nat)
    (cmpFunc : List UInt8 → List UInt8 → Bool) : Option (Option CdsaPriorityQueue) :=
  (self 24).bind fun
    | none => some none
    | some _ => (cdsaCreateVector vec block elemSize).map fun r => r.map fun data =>
      { data, elemSize, cmp := cmpFunc }

/-- mirrors src/priority_queue.c:125-137 -/
def cdsaPushPq (growth scratch : Grant) (pq : CdsaPriorityQueue) (elem : List UInt8) :
    Option (Status × CdsaPriorityQueue) :=
  (cdsaPushVector growth pq.data elem).bind fun
    | (.ok, data) => siftUp scratch { pq with data } (data.size - 1)
    | (cdsaPushStatus, data) => some (cdsaPushStatus, { pq with data })

/-- The status, what is written to `out_elem`, and the queue.
mirrors src/priority_queue.c:139-164 -/
def cdsaPopPq (scratch : Grant) (pq : CdsaPriorityQueue) :
    Option (Status × Option (List UInt8) × CdsaPriorityQueue) :=
  if pq.data.size = 0 then some (.errEmpty, none, pq)
  else
    (readAt pq.data.data 0 pq.elemSize).bind fun outElem =>
      (readAt pq.data.data ((pq.data.size - 1) * pq.data.elemSize % 2 ^ 64)
        pq.data.elemSize).bind fun lastVal =>
        (setVector pq.data 0 lastVal).bind fun r =>
          let pq := { pq with data := (cdsaPopVector r.2).2 }
          if pq.data.size ≠ 0 then
            (siftDown scratch pq 0).map fun r => (r.1, some outElem, r.2)
          else some (.ok, some outElem, pq)

/-- What the caller reads at the pointer, or NULL.
mirrors src/priority_queue.c:166-170 -/
def cdsaPeekPq (pq : CdsaPriorityQueue) : Option (Option (List UInt8)) :=
  if pq.data.size = 0 then some none else (readAt pq.data.data 0 pq.elemSize).map some

/-- mirrors src/priority_queue.c:184-188 -/
def cdsaClearPq (pq : CdsaPriorityQueue) : CdsaPriorityQueue :=
  { pq with data := cdsaClearVector pq.data }

inductive Op (es : Nat) where
  | push (growth scratch : Grant) (elem : Elem es)
  | pop (scratch : Grant)
  | peek
  | clear

inductive Out where
  | pushed (s : Status)
  | popped (s : Status) (outElem : Option (List UInt8))
  | peeked (elem : Option (List UInt8))
  | cleared
  deriving DecidableEq

def step {es : Nat} (pq : CdsaPriorityQueue) : Op es → Option (Out × CdsaPriorityQueue)
  | .push growth scratch elem =>
    (cdsaPushPq growth scratch pq elem.1).map fun r => (.pushed r.1, r.2)
  | .pop scratch => (cdsaPopPq scratch pq).map fun r => (.popped r.1 r.2.1, r.2.2)
  | .peek => (cdsaPeekPq pq).map fun r => (.peeked r, pq)
  | .clear => some (.cleared, cdsaClearPq pq)

/-! ## The elements of a queue -/

/-- `cmp` as the order of the elements: `a` has higher priority. -/
def Before {es : Nat} (cmp : List UInt8 → List UInt8 → Bool) (a b : Elem es) : Prop :=
  cmp a.1 b.1 = true

structure Queue {es : Nat} (cmp : List UInt8 → List UInt8 → Bool) (pq : CdsaPriorityQueue)
    (l : List (Elem es)) : Prop where
  good : Good es pq.data
  lists : Lists pq.data l
  elemSize : pq.elemSize = es
  cmp : pq.cmp = cmp

section
variable {es : Nat} {cmp : List UInt8 → List UInt8 → Bool} {pq : CdsaPriorityQueue}
  {l : List (Elem es)}

theorem Queue.with_data (Q : Queue cmp pq l) {data : CdsaVector} {l' : List (Elem es)}
    (G : Good es data) (L : Lists data l') : Queue cmp { pq with data } l' :=
  ⟨G, L, Q.elemSize, Q.cmp⟩

theorem Queue.elemAt (Q : Queue cmp pq l) {i : Nat} (hi : i < l.length) :
    elemAt pq.data i es = some l[i].1 := by
  have hsize := Q.lists.size
  have hcap : i < pq.data.capacity := by have := Q.good.size_le; omega
  rw [Priority.elemAt, getVector, if_neg (by omega), Option.bind_some, Q.good.offset hcap]
  exact Q.lists.cells i hi

/-- A byte string of the right length is an element. -/
theorem Queue.setVector (Q : Queue cmp pq l) {i : Nat} (hi : i < l.length) (e : Elem es) :
    ∃ data, setVector pq.data i e.1 = some (.ok, data) ∧ Queue cmp { pq with data } (l.set i e) := by
  obtain ⟨s, data, hs, G, L, rfl⟩ := Q.good.set Q.lists i e
  rw [if_pos hi] at hs
  exact ⟨data, hs, Q.with_data G L⟩

/-- The swap through a scratch element that is large enough. -/
theorem Queue.swap (Q : Queue cmp pq l) {i j : Nat} (hi : i < l.length) (hj : j < l.length)
    {temp : List UInt8} (ht : es ≤ temp.length) :
    ∃ pq' temp', swapThrough pq temp i j = some (pq', temp') ∧
      Queue cmp pq' (swapAt l i j) ∧ es ≤ temp'.length := by
  obtain ⟨temp', hw⟩ := exists_writeAt temp 0 l[i].1 (by rw [l[i].2]; omega)
  have hsaved : readAt temp' 0 es = some l[i].1 := by
    have h := readAt_writeAt_self hw
    rwa [l[i].2] at h
  obtain ⟨d1, h1, Q1⟩ := Q.setVector hi l[j]
  obtain ⟨d2, h2, Q2⟩ := Q1.setVector (i := j) (by simpa using hj) l[i]
  refine ⟨{ pq with data := d2 }, temp', ?_, swapAt_eq hi hj ▸ Q2, by rw [writeAt_length hw]; exact ht⟩
  have hes : d1.elemSize = es := Q1.good.elemSize
  have h2 : Vector.setVector d1 j l[i].1 = some (.ok, d2) := h2
  rw [swapThrough, Q.elemSize, Q.elemAt hi, Option.bind_some, hw, Option.bind_some,
    Q.good.elemSize, Q.elemAt hj, Option.bind_some, h1, Option.bind_some, hes, hsaved,
    Option.bind_some, h2, Option.map_some]

/-- The scratch allocation does not wrap: it gives an element, or NULL. -/
theorem Queue.scratch (Q : Queue cmp pq l) (g : Grant) :
    (∃ temp, cdsaMallocTrack g pq.elemSize = some (some temp) ∧ es ≤ temp.length ∧
      (g.answer (es + 8)).isSome) ∨
    (cdsaMallocTrack g pq.elemSize = some none ∧ g.answer (es + 8) = none) := by
  have hfits := Q.good.fits Q.good.capacity_pos
  have hbound := Q.good.bounded
  have hlt : es + 8 < 2 ^ 64 := by omega
  rw [Q.elemSize]
  cases ha : g.answer (es + 8) with
  | none =>
    refine Or.inr ⟨?_, rfl⟩
    rw [cdsaMallocTrack, Nat.mod_eq_of_lt hlt, ha]
  | some block =>
    have hlen := g.holds _ _ ha
    refine Or.inl ⟨block.drop 8, ?_, ?_, rfl⟩
    · simp only [cdsaMallocTrack, Nat.mod_eq_of_lt hlt, ha]
      rw [if_neg (by omega)]
    · rw [List.length_drop]
      omega

end

end Cdsa.Priority
