import Mathlib.Data.Prod.Lex
import Cdsa.Core.Lanes
import Cdsa.L2Skiplist.List

/-!
# The towers of a skip list

A `Tower` is what never changes about a node: its address, its data and its
height. `Towers sl H L`: the list consists of the header `H` and the nodes
`L`, sorted, and on each level i the links lead through exactly the towers
taller than i, in the order of `L`.

A search splits `L` into the nodes `A` that pass its test and the rest. The
breadcrumb it leaves on level i is then the last tower of `A` that is taller
than i, or the header (`crumb`): the search is one over express lanes
(`descend_eq_lanes`).
-/
namespace Cdsa.Skiplist

open Cdsa.Core Cdsa.Memory

variable {S : Type}

structure Tower (S : Type) where
  ptr : Ptr
  score : S
  value : CStr
  valuePtr : Ptr
  level : Nat
  forwardPtr : Ptr

namespace Tower

/-- The node, with its links. -/
def node (t : Tower S) (forward : List (Option Ptr)) : SkipNode S :=
  ⟨t.score, t.value, t.valuePtr, t.level, forward, t.forwardPtr⟩

/-- Score and value, in the order of the list. -/
def item (t : Tower S) : S ×ₗ CStr := toLex (t.score, t.value)

def Stands (nodes : Ptr → Option (SkipNode S)) (t : Tower S) : Prop :=
  ∃ forward, nodes t.ptr = some (t.node forward) ∧ forward.length = t.level

/-- The three allocations of a node. -/
def blocks (t : Tower S) : List (Ptr × Nat) :=
  [(t.ptr, 32), (t.valuePtr, t.value.strlen + 1), (t.forwardPtr, t.level * 8 % 2 ^ 64)]

theorem Stands.forwardAt {nodes : Ptr → Option (SkipNode S)} {t : Tower S} (h : t.Stands nodes)
    {i : Nat} (hi : i < t.level) : ∃ next, forwardAt nodes i t.ptr = some next := by
  obtain ⟨forward, hn, hl⟩ := h
  exact ⟨forward[i], by simp [Skiplist.forwardAt, hn, node, hl, hi]⟩

end Tower

/-- The allocations of a list with header `H` and nodes `L`. -/
def owned (self : Ptr) (H : Tower S) (L : List (Tower S)) : List (Ptr × Nat) :=
  L.flatMap Tower.blocks ++ (H.blocks ++ [(self, 32)])

theorem owned_perm (self : Ptr) (H N : Tower S) (A B : List (Tower S)) :
    (owned self H (A ++ N :: B)).Perm (N.blocks ++ owned self H (A ++ B)) := by
  have h : ((A ++ N :: B).flatMap Tower.blocks).Perm (N.blocks ++ (A ++ B).flatMap Tower.blocks) :=
    List.Perm.flatMap_right _ List.perm_middle
  rw [owned, owned, ← List.append_assoc N.blocks]
  exact h.append_right _

theorem mem_owned_of_tower {self : Ptr} {H t : Tower S} {L : List (Tower S)} (h : t ∈ H :: L) :
    (t.ptr, 32) ∈ owned self H L := by
  rcases List.mem_cons.mp h with rfl | h
  · simp [owned, Tower.blocks]
  · exact List.mem_append_left _ (List.mem_flatMap.mpr ⟨t, h, List.mem_cons_self⟩)

/-- The towers that reach level `i`. -/
def tall (i : Nat) (L : List (Tower S)) : List (Tower S) := L.filter fun t => i < t.level

/-- The last tower of `A` on level `i`, or the header. -/
def crumb (H : Tower S) (A : List (Tower S)) (i : Nat) : Tower S := (tall i A).getLastD H

@[simp] theorem tall_append (i : Nat) (A B : List (Tower S)) : tall i (A ++ B) = tall i A ++ tall i B :=
  List.filter_append ..

theorem tall_cons_of_lt {i : Nat} {t : Tower S} (h : i < t.level) (L : List (Tower S)) :
    tall i (t :: L) = t :: tall i L := List.filter_cons_of_pos (by simpa using h)

theorem tall_cons_of_le {i : Nat} {t : Tower S} (h : t.level ≤ i) (L : List (Tower S)) :
    tall i (t :: L) = tall i L := List.filter_cons_of_neg (by simpa using h)

theorem mem_tall {i : Nat} {t : Tower S} {L : List (Tower S)} : t ∈ tall i L ↔ t ∈ L ∧ i < t.level := by
  simp [tall]

theorem tall_eq_nil {i : Nat} {L : List (Tower S)} (h : ∀ t ∈ L, t.level ≤ i) : tall i L = [] :=
  List.filter_eq_nil_iff.mpr fun t ht => by simpa using h t ht

theorem tall_zero {L : List (Tower S)} (h : ∀ t ∈ L, 1 ≤ t.level) : tall 0 L = L :=
  List.filter_eq_self.mpr fun t ht => decide_eq_true (h t ht)

theorem crumb_mem (H : Tower S) (A : List (Tower S)) (i : Nat) :
    crumb H A i ∈ H :: A := by
  rcases List.mem_cons.mp (List.getLastD_mem_cons (l := tall i A) (a := H)) with h | h
  · exact List.mem_cons.mpr (Or.inl h)
  · exact List.mem_cons_of_mem _ (mem_tall.mp h).1

theorem crumb_level {H : Tower S} {i : Nat} (hi : i < H.level) (A : List (Tower S)) :
    i < (crumb H A i).level := by
  rcases List.mem_cons.mp (List.getLastD_mem_cons (l := tall i A) (a := H)) with h | h
  · rw [crumb, h]; exact hi
  · exact (mem_tall.mp h).2

theorem crumb_of_tall_nil {H : Tower S} {A : List (Tower S)} {i : Nat} (h : tall i A = []) :
    crumb H A i = H := by rw [crumb, h]; rfl

theorem crumb_ptr (H : Tower S) (A : List (Tower S)) (i : Nat) :
    ((tall i A).map Tower.ptr).getLastD H.ptr = (crumb H A i).ptr := List.getLastD_map

theorem descend_eq_lanes (nodes : Ptr → Option (SkipNode S)) (test : SkipNode S → Bool) (fuel : Nat) :
    ∀ n p, descend nodes test fuel n p =
      lanes (forwardAt nodes) (fun q => (nodes q).map test) fuel n p
  | 0, _ => rfl
  | n + 1, p => by simp only [descend, lanes, descend_eq_lanes nodes test fuel n]

variable [LinearOrder S]

structure Towers (sl : CdsaSkiplist S) (H : Tower S) (L : List (Tower S)) : Prop where
  header : H.ptr = sl.header
  full : H.level = SKIPLIST_MAX_LEVEL
  stands : ∀ t ∈ H :: L, t.Stands sl.nodes
  nodup : ((H :: L).map Tower.ptr).Nodup
  links : ∀ i, i < SKIPLIST_MAX_LEVEL →
    Links (forwardAt sl.nodes i) H.ptr ((tall i L).map Tower.ptr)
  level_le : sl.level ≤ SKIPLIST_MAX_LEVEL
  heights : ∀ t ∈ L, 1 ≤ t.level ∧ t.level ≤ sl.level
  top : 1 ≤ sl.level ∧ (sl.level = 1 ∨ tall (sl.level - 1) L ≠ [])
  sorted : (L.map Tower.item).Pairwise (· ≤ ·)
  size : sl.size = L.length

/-! ## Searching -/

/-- The search from the header over the levels in use. -/
theorem Towers.descend {sl : CdsaSkiplist S} {H : Tower S} {A B : List (Tower S)}
    (T : Towers sl H (A ++ B)) {test : SkipNode S → Bool}
    (hA : ∀ a ∈ A, ∀ forward, test (a.node forward) = true)
    (hB : ∀ b ∈ B, ∀ forward, test (b.node forward) = false) :
    descend sl.nodes test (sl.size + 1) sl.level sl.header =
      some ((crumb H A 0).ptr, (List.range sl.level).map fun i => (crumb H A i).ptr) := by
  have htest : ∀ t ∈ A ++ B, ∃ forward, sl.nodes t.ptr = some (t.node forward) := fun t ht => by
    obtain ⟨forward, h, -⟩ := T.stands t (List.mem_cons_of_mem _ ht)
    exact ⟨forward, h⟩
  obtain ⟨n, hn⟩ := Nat.exists_eq_succ_of_ne_zero (show sl.level ≠ 0 by have := T.top.1; omega)
  have hlanes := lanes_spec (forwardAt sl.nodes) (fun q => (sl.nodes q).map test) (sl.size + 1) Tower.ptr
    (fun i t => decide (i < t.level)) H (A := A) (B := B) (fun i t => by simp only [decide_eq_true_eq]; omega)
    (fun a ha => by
      obtain ⟨forward, h⟩ := htest a (List.mem_append_left _ ha)
      rw [h, Option.map_some, hA a ha])
    (fun b hb => by
      obtain ⟨forward, h⟩ := htest b (List.mem_append_right _ hb)
      rw [h, Option.map_some, hB b hb])
    (by rw [T.size, List.length_append]; omega) n
    (fun i hi => T.links i (by have := T.level_le; omega)) (fun _ => false) (by simp)
  rw [List.filter_false, List.getLastD_nil, T.header] at hlanes
  rw [descend_eq_lanes, hn]
  exact hlanes

end Cdsa.Skiplist
