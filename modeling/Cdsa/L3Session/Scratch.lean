import Cdsa.L2Priority.Comparisons
import Cdsa.L3Session.Arrays

/-!
# The priority queue, in the heap

A push may reallocate the vector's block, as for the vector, and its sift
allocates a scratch element and frees it again; so does the sift of a pop. The
sifts write elements and leave the block alone (`siftUp_capacity`,
`siftDown_capacity`), so all that a queue holds between two operations is its
vector's block, and that also if a sift has been refused its scratch element.
-/
namespace Cdsa.Session

open Cdsa.Core Cdsa.Memory Cdsa.Vector Cdsa.Priority

theorem setVector_capacity {v v' : CdsaVector} {i : Nat} {e : List UInt8} {s : Status}
    (h : setVector v i e = some (s, v')) : v'.capacity = v.capacity := by
  unfold setVector at h
  split at h
  · cases h
    rfl
  · obtain ⟨data, -, h⟩ := Option.map_eq_some_iff.mp h
    cases h
    rfl

theorem swapThrough_capacity {pq : CdsaPriorityQueue} {temp : List UInt8} {i j : Nat}
    {r : CdsaPriorityQueue × List UInt8} (h : swapThrough pq temp i j = some r) :
    r.1.data.capacity = pq.data.capacity := by
  obtain ⟨val, -, h⟩ := Option.bind_eq_some_iff.mp h
  obtain ⟨temp', -, h⟩ := Option.bind_eq_some_iff.mp h
  obtain ⟨other, -, h⟩ := Option.bind_eq_some_iff.mp h
  obtain ⟨⟨s1, v1⟩, h1, h⟩ := Option.bind_eq_some_iff.mp h
  obtain ⟨saved, -, h⟩ := Option.bind_eq_some_iff.mp h
  obtain ⟨⟨s2, v2⟩, h2, h⟩ := Option.map_eq_some_iff.mp h
  rw [← h]
  exact (setVector_capacity h2).trans (setVector_capacity h1)

theorem siftUpLoop_capacity : ∀ (fuel : Nat) {pq pq' : CdsaPriorityQueue} {temp : List UInt8}
    {index : Nat}, siftUpLoop fuel pq temp index = some pq' → pq'.data.capacity = pq.data.capacity
  | 0, _, _, _, _, h => by cases h
  | fuel + 1, pq, pq', temp, index, h => by
    unfold siftUpLoop at h
    split at h
    · obtain ⟨currentVal, -, h⟩ := Option.bind_eq_some_iff.mp h
      obtain ⟨parentVal, -, h⟩ := Option.bind_eq_some_iff.mp h
      split at h
      · obtain ⟨r, hr, h⟩ := Option.bind_eq_some_iff.mp h
        exact (siftUpLoop_capacity fuel h).trans (swapThrough_capacity hr)
      · cases h
        rfl
    · cases h
      rfl

theorem siftUp_capacity {g : Raw.Grant} {pq : CdsaPriorityQueue} {index : Nat}
    {r : Status × CdsaPriorityQueue} (h : siftUp g pq index = some r) :
    r.2.data.capacity = pq.data.capacity := by
  unfold siftUp at h
  split at h
  · cases h
    rfl
  · obtain ⟨temp, -, h⟩ := Option.bind_eq_some_iff.mp h
    cases temp with
    | none =>
      cases h
      rfl
    | some temp =>
      obtain ⟨pq', hr, h⟩ := Option.map_eq_some_iff.mp h
      rw [← h]
      exact siftUpLoop_capacity _ hr

theorem siftDownLoop_capacity : ∀ (fuel : Nat) {pq pq' : CdsaPriorityQueue} {temp : List UInt8}
    {size index : Nat}, siftDownLoop fuel pq temp size index = some pq' →
    pq'.data.capacity = pq.data.capacity
  | 0, _, _, _, _, _, h => by cases h
  | fuel + 1, pq, pq', temp, size, index, h => by
    unfold siftDownLoop at h
    obtain ⟨left, -, h⟩ := Option.bind_eq_some_iff.mp h
    obtain ⟨right, -, h⟩ := Option.bind_eq_some_iff.mp h
    split at h
    · obtain ⟨r, hr, h⟩ := Option.bind_eq_some_iff.mp h
      exact (siftDownLoop_capacity fuel h).trans (swapThrough_capacity hr)
    · cases h
      rfl

theorem siftDown_capacity {g : Raw.Grant} {pq : CdsaPriorityQueue} {index : Nat}
    {r : Status × CdsaPriorityQueue} (h : siftDown g pq index = some r) :
    r.2.data.capacity = pq.data.capacity := by
  obtain ⟨temp, -, h⟩ := Option.bind_eq_some_iff.mp h
  cases temp with
  | none =>
    cases h
    rfl
  | some temp =>
    obtain ⟨pq', hr, h⟩ := Option.map_eq_some_iff.mp h
    rw [← h]
    exact siftDownLoop_capacity _ hr

theorem popVector_capacity (v : CdsaVector) : (cdsaPopVector v).2.capacity = v.capacity := by
  unfold cdsaPopVector
  split <;> rfl

theorem popPq_capacity {g : Raw.Grant} {pq : CdsaPriorityQueue}
    {r : Status × Option (List UInt8) × CdsaPriorityQueue} (h : cdsaPopPq g pq = some r) :
    r.2.2.data.capacity = pq.data.capacity := by
  unfold cdsaPopPq at h
  split at h
  · cases h
    rfl
  · obtain ⟨outElem, -, h⟩ := Option.bind_eq_some_iff.mp h
    obtain ⟨lastVal, -, h⟩ := Option.bind_eq_some_iff.mp h
    obtain ⟨⟨s, v⟩, hset, h⟩ := Option.bind_eq_some_iff.mp h
    have hv : (cdsaPopVector v).2.capacity = pq.data.capacity :=
      (popVector_capacity v).trans (setVector_capacity hset)
    dsimp only at h
    split at h
    · obtain ⟨q, hq, h⟩ := Option.map_eq_some_iff.mp h
      rw [← h]
      exact (siftDown_capacity hq).trans hv
    · cases h
      exact hv

section
variable {es : Nat} {cmp : List UInt8 → List UInt8 → Bool}

theorem pushPq_capacity {pq : CdsaPriorityQueue} {l : List (Elem es)} (Q : Queue cmp pq l)
    {growth scratch : Raw.Grant} {e : Elem es}
    (hg : pq.data.capacity ≤ pq.data.size → growth.Meets (pq.data.capacity * 2 * es))
    {r : Status × CdsaPriorityQueue} (h : cdsaPushPq growth scratch pq e.1 = some r) :
    r.2.data.capacity =
      if pq.data.size ≥ pq.data.capacity then pq.data.capacity * 2 else pq.data.capacity := by
  obtain ⟨v, hv, -⟩ := Q.good.push Q.lists growth e hg
  unfold cdsaPushPq at h
  rw [hv, Option.bind_some] at h
  exact (siftUp_capacity h).trans (push_size Q.good hg hv).2

/-! ## The queue as a tenant -/

inductive PqOp (es : Nat) where
  | push (elem : Elem es)
  | pop
  | peek
  | clear

/-- A scratch element, allocated and freed by a sift.
mirrors src/priority_queue.c:20-24, 44, 50-54, 92 -/
def siftScratch (es : Nat) (m : Mem) : Option Mem :=
  match cdsaMallocTrack m es with
  | (none, m) => some m
  | (some temp, m) => cdsaFreeTrack m (some temp)

/-- mirrors src/priority_queue.c:125-188 -/
def stepPq (fill : Ptr → Fill) (op : PqOp es) (s : CdsaPriorityQueue × Ptr) (m : Mem) :
    Option ((CdsaPriorityQueue × Ptr) × Mem) :=
  match op with
  | .push elem =>
    (growVector s.1.data s.2 m).bind fun r =>
      (cdsaPushPq (grant fill m) (grant fill r.2.2) s.1 elem.1).bind fun q =>
        (if r.1 ∧ 0 < s.1.data.size then siftScratch s.1.elemSize r.2.2 else some r.2.2).map
          fun m => ((q.2, r.2.1), m)
  | .pop =>
    (cdsaPopPq (grant fill m) s.1).bind fun q =>
      (if 1 < s.1.data.size then siftScratch s.1.elemSize m else some m).map
        fun m => ((q.2.2, s.2), m)
  | .peek => (cdsaPeekPq s.1).map fun _ => (s, m)
  | .clear => some ((cdsaClearPq s.1, s.2), m)

theorem siftScratch_spec {base : UInt64} {bs : List (Ptr × Nat)} {m : Mem} (O : Owns base bs m)
    (needed : Prop) [Decidable needed] (es : Nat) :
    ∃ m', (if needed then siftScratch es m else some m) = some m' ∧ Owns base bs m' := by
  split
  · unfold siftScratch
    rcases O.malloc es with ⟨m1, e1, -, O1⟩ | ⟨temp, m1, e1, -, O1⟩
    · exact ⟨m1, by rw [e1], O1⟩
    · obtain ⟨m2, e2, O2, -, -⟩ := O1.free
      exact ⟨m2, by rw [e1]; exact e2, O2⟩
  · exact ⟨m, rfl, O⟩

/-- mirrors src/priority_queue.c:98-121 -/
def pqBody (fill : Ptr → Fill) (es : Nat) (cmp : List UInt8 → List UInt8 → Bool) : Body where
  State := CdsaPriorityQueue
  Arg := Unit
  Op := PqOp es
  size _ := INITIAL_CAPACITY * es % 2 ^ 64
  make _ g :=
    cdsaCreatePq (Raw.cdsaMallocTrack .zeros) (Raw.cdsaMallocTrack .zeros) (Raw.cdsaMallocTrack g) es
      cmp
  step := stepPq fill
  bytes pq := pq.data.capacity * es
  Good pq := ∃ l : List (Elem es), Queue cmp pq l
  Creates _ := 4 * es + 8 < 2 ^ 64
  Meets op pq m := match op with
    | .push elem => GrowthMet pq.data (.push (grant fill m) elem)
    | _ => True
  made {a g} hc ht := by
    obtain ⟨v, hv, G, hb⟩ := createVector_granted hc ht
    have hmake : cdsaCreatePq (Raw.cdsaMallocTrack .zeros) (Raw.cdsaMallocTrack .zeros)
        (Raw.cdsaMallocTrack g) es cmp = some (some ⟨v, es, cmp⟩) := by
      have hself : Raw.cdsaMallocTrack .zeros 24 = some (some (List.replicate 24 0)) := rfl
      simp only [cdsaCreatePq, hself, hv, Option.bind_some]
      rfl
    exact ⟨_, hmake, ⟨[], cdsaCreatePq_queue hmake hc⟩, hb⟩
  stepped {base bs m pq block op} G O hm := by
    obtain ⟨l, Q⟩ := G
    cases op with
    | push elem =>
      have hg : pq.data.capacity ≤ pq.data.size →
          (grant fill m).Meets (pq.data.capacity * 2 * es) := by
        rw [← Q.good.elemSize]
        exact hm
      obtain ⟨block', m1, e1, O1⟩ := growVector_spec Q.good O hg
      obtain ⟨pq', l', n, e2, Q', -⟩ := Q.pushCalls (grant fill m1) hm
      have e3 : cdsaPushPq (grant fill m) (grant fill m1) pq elem.1 =
          some (sifted es (grant fill m1) (0 < l.length), pq') := by
        rw [← pushCalls_fst, e2, Option.map_some]
      have hcap := pushPq_capacity Q hg e3
      obtain ⟨m2, e4, O2⟩ := siftScratch_spec O1 (0 < pq.data.size) pq.elemSize
      refine ⟨pq', block', m2, ?_, ⟨l', Q'⟩, by rw [hcap]; exact O2⟩
      simp only [stepPq, e1, e3, Option.bind_some, true_and, e4, Option.map_some]
    | pop =>
      obtain ⟨r, e, Q'⟩ : ∃ r, cdsaPopPq (grant fill m) pq = some r ∧
          ∃ l' : List (Elem es), Queue cmp r.2.2 l' := by
        cases l with
        | nil => exact ⟨_, Q.pop_empty rfl _, [], Q⟩
        | cons x l =>
          obtain ⟨pq', l', n, e, Q', -⟩ := Q.popCalls (grant fill m) (m := x) rfl
          exact ⟨_, by rw [← popCalls_fst, e, Option.map_some], l', Q'⟩
      obtain ⟨m1, e1, O1⟩ := siftScratch_spec O (1 < pq.data.size) pq.elemSize
      refine ⟨r.2.2, block, m1, ?_, Q', by rw [popPq_capacity e]; exact O1⟩
      simp only [stepPq, e, e1, Option.bind_some, Option.map_some]
    | peek => exact ⟨pq, block, m, by rw [stepPq, Q.peek, Option.map_some], ⟨l, Q⟩, O⟩
    | clear =>
      obtain ⟨G, L⟩ := Q.good.clear
      exact ⟨_, block, m, rfl, ⟨[], Q.with_data G L⟩, O⟩

end

end Cdsa.Session
