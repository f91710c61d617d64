import Cdsa.Core.Probing
import Cdsa.L2Hashmap.Runs

/-!
# What the keys of a hash map decide

A laid-out table with a gap is a table of `Core/Probing.lean` whose homes are
the raw hashes. So, of every reachable map:

* `canonical_layout`: with the capacity, the set of keys decides which slots
  are taken, the home and the PSL in each, and the largest PSL. Two maps that
  came about differently, by insertions in another order, by removals with
  their backward shifts or through another number of resizes, look alike.
* `furthest_is_least`: no other way to put the same keys into the slots has a
  smaller largest distance from home.
-/
namespace Cdsa.Hashmap

open Cdsa.Core

variable {V W : Type}

/-- Slot `i` as a cell: the key and its PSL. -/
def cellOf (es : List (Option (HashEntry CStr V))) (i : Nat) : Option (CStr × Nat) :=
  (slot es i).map fun e => (e.key, e.psl)

theorem cellOf_eq_some {es : List (Option (HashEntry CStr V))} {i : Nat} {k : CStr} {d : Nat} :
    cellOf es i = some (k, d) ↔ ∃ e, slot es i = some e ∧ e.key = k ∧ e.psl = d := by
  simp [cellOf]

theorem cellOf_eq_none {es : List (Option (HashEntry CStr V))} {i : Nat} :
    cellOf es i = none ↔ slot es i = none := by
  simp [cellOf]

theorem holds_cellOf {m : CdsaHashmap CStr V} {k : CStr} : Holds (cellOf m.entries) k ↔ k ∈ keys m := by
  rw [mem_keys]
  constructor
  · rintro ⟨i, d, h⟩
    obtain ⟨e, he, hk, -⟩ := cellOf_eq_some.mp h
    exact ⟨i, e, he, hk⟩
  · rintro ⟨i, e, he, rfl⟩
    exact ⟨i, e.psl, cellOf_eq_some.mpr ⟨e, he, rfl, rfl⟩⟩

/-- A laid-out table is ordered in the sense of the library. -/
theorem Roomy.probing {m : CdsaHashmap CStr V} (R : Roomy m) :
    Probing m.capacity getRawHash (cellOf m.entries) where
  rest i k d h := by
    obtain ⟨e, he, rfl, rfl⟩ := cellOf_eq_some.mp h
    rw [← R.layout.hash_of he]
    exact R.layout.home i e he
  order i k d hi h hd := by
    obtain ⟨e, he, rfl, rfl⟩ := cellOf_eq_some.mp h
    obtain ⟨e', he', hle⟩ := R.layout.order i e hi he hd
    exact ⟨e'.key, e'.psl, cellOf_eq_some.mpr ⟨e', he', rfl, rfl⟩, hle⟩
  once i j k d d' hi hj := by
    obtain ⟨e, he, rfl, -⟩ := cellOf_eq_some.mp hi
    obtain ⟨e', he', hk, -⟩ := cellOf_eq_some.mp hj
    exact R.layout.slot_key he he' hk.symm
  gap := by
    obtain ⟨i, hi, he⟩ := R.gap
    exact ⟨i, hi, cellOf_eq_none.mpr he⟩

/-! ## One layout for one set of keys -/

/-- What a slot says about its entry other than which key it is: the home and
the PSL. -/
def mark (m : CdsaHashmap CStr V) (i : Nat) : Option (Nat × Nat) :=
  (slot m.entries i).map fun e => (e.hash % m.capacity, e.psl)

theorem mark_eq {m : CdsaHashmap CStr V} (L : Layout m.capacity m.entries) (i : Nat) :
    mark m i = (cellOf m.entries i).map fun p => (getRawHash p.1 % m.capacity, p.2) := by
  rw [mark, cellOf, Option.map_map]
  apply Option.map_congr
  intro e he
  rw [L.hash_of he]
  rfl

/-- `recalculate_max_psl` reads nothing but PSLs. -/
theorem raiseMax_congr {m : CdsaHashmap CStr V} {m' : CdsaHashmap CStr W} (h : ∀ i, mark m i = mark m' i)
    (a i : Nat) : raiseMax m.entries a i = raiseMax m'.entries a i := by
  have hi := h i
  unfold mark at hi
  unfold raiseMax
  cases hs : slot m.entries i <;> cases hs' : slot m'.entries i <;> simp_all

theorem slot_none_of_le {m : CdsaHashmap CStr V} (hlen : m.entries.length = m.capacity) {i : Nat}
    (h : m.capacity ≤ i) : slot m.entries i = none := by
  cases hs : slot m.entries i with
  | none => rfl
  | some e =>
    have := slot_lt hs
    omega

/-- The capacity and the set of keys decide the layout of a reachable map:
which slots are taken, the home and the PSL in each, and what
`recalculate_max_psl` makes of them. -/
theorem canonical_layout (m : CdsaHashmap CStr V) (m' : CdsaHashmap CStr W)
    (h : (hashmapLTS V).Reachable m) (h' : (hashmapLTS W).Reachable m')
    (hcap : m.capacity = m'.capacity) (hkeys : ∀ k, k ∈ keys m ↔ k ∈ keys m') :
    (∀ i, mark m i = mark m' i) ∧
      ∃ r r', recalculateMaxPsl m = some r ∧ recalculateMaxPsl m' = some r' ∧ r.maxPsl = r'.maxPsl := by
  obtain ⟨I, -⟩ := reachable_inv h
  obtain ⟨I', -⟩ := reachable_inv h'
  have P := I.roomy.probing
  have P' := I'.roomy.probing
  rw [← hcap] at P'
  have hmark : ∀ i, mark m i = mark m' i := by
    intro i
    by_cases hi : i < m.capacity
    · rw [mark_eq I.layout, mark_eq I'.layout, ← hcap]
      apply P.unique P' _ hi
      intro k
      rw [holds_cellOf, holds_cellOf]
      exact hkeys k
    · rw [mark, mark, slot_none_of_le I.layout.len (Nat.le_of_not_lt hi),
        slot_none_of_le I'.layout.len (by omega)]
      rfl
  refine ⟨hmark, _, _, recalculateMaxPsl_eq I.layout.len, recalculateMaxPsl_eq I'.layout.len, ?_⟩
  have hraise : raiseMax m.entries = raiseMax m'.entries := by
    funext a i
    exact raiseMax_congr hmark a i
  simp only [hraise, hcap]

/-- `"d"` and then `"h"`, which has the same home, in a map of capacity 4. -/
theorem dh_reachable : (hashmapLTS Nat).Reachable
    ⟨4, 2, 1, 0, [some ⟨⟨[100], by decide⟩, some 1, 100, 0⟩,
      some ⟨⟨[104], by decide⟩, some 2, 104, 1⟩, none, none]⟩ := by
  have h0 : (hashmapLTS Nat).Reachable ⟨4, 0, 0, 0, [none, none, none, none]⟩ :=
    .init ⟨⟨4, rfl⟩, by decide⟩
  have h1 : (hashmapLTS Nat).Reachable
      ⟨4, 1, 0, 0, [some ⟨⟨[100], by decide⟩, some 1, 100, 0⟩, none, none, none]⟩ :=
    .step (l := .insert ⟨[100], by decide⟩ (some 1) true) h0 ⟨⟨.status .ok, by decide⟩, by decide⟩
  exact .step (l := .insert ⟨[104], by decide⟩ (some 2) true) h1
    ⟨⟨.status .ok, by decide⟩, by decide⟩

/-- The same two keys in the other order. -/
theorem hd_reachable : (hashmapLTS Nat).Reachable
    ⟨4, 2, 1, 0, [some ⟨⟨[104], by decide⟩, some 2, 104, 0⟩,
      some ⟨⟨[100], by decide⟩, some 1, 100, 1⟩, none, none]⟩ := by
  have h0 : (hashmapLTS Nat).Reachable ⟨4, 0, 0, 0, [none, none, none, none]⟩ :=
    .init ⟨⟨4, rfl⟩, by decide⟩
  have h1 : (hashmapLTS Nat).Reachable
      ⟨4, 1, 0, 0, [some ⟨⟨[104], by decide⟩, some 2, 104, 0⟩, none, none, none]⟩ :=
    .step (l := .insert ⟨[104], by decide⟩ (some 2) true) h0 ⟨⟨.status .ok, by decide⟩, by decide⟩
  exact .step (l := .insert ⟨[100], by decide⟩ (some 1) true) h1
    ⟨⟨.status .ok, by decide⟩, by decide⟩

/-- Two ways to a map of capacity 4 with the keys `"d"` and `"h"`, which share
their home: in one order and in the other. -/
theorem canonical_layout_swapped : ∃ m m' : CdsaHashmap CStr Nat, m ≠ m' ∧
    (∀ i, mark m i = mark m' i) ∧
      ∃ r r', recalculateMaxPsl m = some r ∧ recalculateMaxPsl m' = some r' ∧ r.maxPsl = r'.maxPsl := by
  refine ⟨_, _, by decide, canonical_layout _ _ dh_reachable hd_reachable rfl fun k => ?_⟩
  simp [keys, live, or_comm]

/-! ## No layout is tighter -/

/-- However else the keys of a reachable map are given slots, each `move k`
slots after its home and no two the same, one of them is at least as far from
home as any entry of the map. -/
theorem furthest_is_least (m : CdsaHashmap CStr V) (h : (hashmapLTS V).Reachable m) (move : CStr → Nat)
    (inj : ∀ k ∈ keys m, ∀ k' ∈ keys m,
      (getRawHash k + move k) % m.capacity = (getRawHash k' + move k') % m.capacity → k = k') :
    ∀ e ∈ live m.entries, ∃ k ∈ keys m, e.psl ≤ move k := by
  intro e he
  obtain ⟨I, -⟩ := reachable_inv h
  obtain ⟨i, hi⟩ := mem_live.mp he
  obtain ⟨k, hk, hle⟩ := I.roomy.probing.least move
    (fun k k' hk hk' => inj k (holds_cellOf.mp hk) k' (holds_cellOf.mp hk'))
    (cellOf_eq_some.mpr ⟨e, hi, rfl, rfl⟩)
  exact ⟨k, holds_cellOf.mp hk, hle⟩

/-- Two keys of one home, moved the other way round. -/
theorem furthest_is_least_two : ∃ m : CdsaHashmap CStr Nat, ∃ e ∈ live m.entries,
    e.psl = 1 ∧ ∃ k ∈ keys m, e.psl ≤ if k.bytes = [100] then 2 else 0 := by
  exact ⟨_, _, List.mem_cons_of_mem _ List.mem_cons_self, rfl,
    furthest_is_least _ dh_reachable (fun k => if k.bytes = [100] then 2 else 0) (by decide) _
      (List.mem_cons_of_mem _ List.mem_cons_self)⟩

end Cdsa.Hashmap
