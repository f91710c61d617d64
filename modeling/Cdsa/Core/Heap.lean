import Mathlib.Data.Multiset.AddSub
import Mathlib.Logic.Equiv.Basic
import Mathlib.Order.Defs.Unbundled

/-!
# Binary heaps in a list

The parent of index `j` is `(j - 1) / 2`. In a heap no index beats its parent,
for a strict weak order `r`; ties may stand either way round.

While an element moves up, only its own edge may be wrong (`UpOrder`); while one
moves down, only the edges to its children (`DownOrder`). In both, what hangs
below the element also respects what is above it, so that one swap carries the
property over to the place the element moves to.
-/
namespace Cdsa.Core

def parent (j : Nat) : Nat := (j - 1) / 2

section
variable {α : Type} (r : α → α → Prop)

/-- The element at `j` goes before the one at `k`; both are there. -/
def Beats (l : List α) (j k : Nat) : Prop := ∃ a b, l[j]? = some a ∧ l[k]? = some b ∧ r a b

def HeapOrder (l : List α) : Prop := ∀ j, 0 < j → ¬ Beats r l j (parent j)

/-- A heap but for the edge above `i`. -/
structure UpOrder (l : List α) (i : Nat) : Prop where
  edge : ∀ j, 0 < j → j ≠ i → ¬ Beats r l j (parent j)
  skip : ∀ j, 0 < j → 0 < i → parent j = i → ¬ Beats r l j (parent i)

/-- A heap but for the edges below `i`. -/
structure DownOrder (l : List α) (i : Nat) : Prop where
  edge : ∀ j, 0 < j → parent j ≠ i → ¬ Beats r l j (parent j)
  skip : ∀ j, 0 < j → 0 < i → parent j = i → ¬ Beats r l j (parent i)

end

/-- The list with the elements at `i` and `j` exchanged. -/
def swapAt {α : Type} (l : List α) (i j : Nat) : List α :=
  match l[i]?, l[j]? with
  | some a, some b => (l.set i b).set j a
  | _, _ => l

theorem parent_lt {j : Nat} (h : 0 < j) : parent j < j := by
  unfold parent; omega

theorem parent_eq_iff {j i : Nat} (h : 0 < j) : parent j = i ↔ j = 2 * i + 1 ∨ j = 2 * i + 2 := by
  unfold parent; omega

section
variable {α : Type} {l : List α} {i j : Nat}

theorem swapAt_eq (hi : i < l.length) (hj : j < l.length) :
    swapAt l i j = (l.set i l[j]).set j l[i] := by
  simp [swapAt, hi, hj]

theorem swapAt_perm (l : List α) (i j : Nat) : (swapAt l i j).Perm l := by
  by_cases hi : i < l.length
  · by_cases hj : j < l.length
    · rw [swapAt_eq hi hj]
      exact List.set_set_perm hi hj
    · simp [swapAt, List.getElem?_eq_none (Nat.le_of_not_lt hj)]
  · simp [swapAt, List.getElem?_eq_none (Nat.le_of_not_lt hi)]

theorem getElem?_swapAt (hi : i < l.length) (hj : j < l.length) (k : Nat) :
    (swapAt l i j)[k]? = l[Equiv.swap i j k]? := by
  rw [swapAt_eq hi hj]
  by_cases hkj : k = j
  · subst hkj
    rw [List.getElem?_set_self (by simpa using hj), Equiv.swap_apply_right, List.getElem?_eq_getElem hi]
  · rw [List.getElem?_set_ne (Ne.symm hkj)]
    by_cases hki : k = i
    · subst hki
      rw [List.getElem?_set_self hi, Equiv.swap_apply_left, List.getElem?_eq_getElem hj]
    · rw [List.getElem?_set_ne (Ne.symm hki), Equiv.swap_apply_of_ne_of_ne hki hkj]

variable {r : α → α → Prop}

theorem beats_swapAt (hi : i < l.length) (hj : j < l.length) (a b : Nat) :
    Beats r (swapAt l i j) a b ↔ Beats r l (Equiv.swap i j a) (Equiv.swap i j b) := by
  simp only [Beats, getElem?_swapAt hi hj]

theorem Beats.lt {a b : Nat} (h : Beats r l a b) : a < l.length ∧ b < l.length := by
  obtain ⟨x, y, hx, hy, -⟩ := h
  exact ⟨(List.getElem?_eq_some_iff.mp hx).1, (List.getElem?_eq_some_iff.mp hy).1⟩

/-! ## Where an element starts and ends -/

theorem HeapOrder.append (h : HeapOrder r l) (e : α) : UpOrder r (l ++ [e]) l.length where
  edge j hj hne hb := by
    obtain ⟨hlt, -⟩ := hb.lt
    rw [List.length_append, List.length_singleton] at hlt
    have hp := parent_lt hj
    refine h j hj ?_
    unfold Beats at hb ⊢
    rwa [List.getElem?_append_left (by omega), List.getElem?_append_left (by omega)] at hb
  skip j hj _ hp hb := by
    obtain ⟨hlt, -⟩ := hb.lt
    rw [List.length_append, List.length_singleton] at hlt
    have := parent_lt hj
    omega

theorem UpOrder.heapOrder_zero (h : UpOrder r l 0) : HeapOrder r l :=
  fun j hj => h.edge j hj (by omega)

theorem UpOrder.heapOrder (h : UpOrder r l i) (hn : ¬ Beats r l i (parent i)) : HeapOrder r l := by
  intro j hj
  by_cases hji : j = i
  · rw [hji]; exact hn
  · exact h.edge j hj hji

/-- The root is overwritten, and the last element removed. -/
theorem HeapOrder.dropRoot (h : HeapOrder r l) (x : α) : DownOrder r (l.set 0 x).dropLast 0 where
  edge j hj hp hb := by
    obtain ⟨hlt, hplt⟩ := hb.lt
    unfold Beats at hb
    rw [List.getElem?_eq_getElem hlt, List.getElem?_eq_getElem hplt, List.getElem_dropLast,
      List.getElem_dropLast, List.getElem_set_ne (by omega), List.getElem_set_ne (Ne.symm hp),
      ← List.getElem?_eq_getElem, ← List.getElem?_eq_getElem] at hb
    exact h j hj hb
  skip j _ h0 := absurd h0 (Nat.lt_irrefl 0)

theorem DownOrder.heapOrder (h : DownOrder r l i)
    (hn : ∀ k, 0 < k → parent k = i → ¬ Beats r l k i) : HeapOrder r l := by
  intro j hj
  by_cases hp : parent j = i
  · rw [hp]; exact hn j hj hp
  · exact h.edge j hj hp

/-- What is left after the root was overwritten with the last element. -/
theorem dropRoot_perm {m x : α} (hm : l[0]? = some m) (hx : l.getLast? = some x) :
    (m :: (l.set 0 x).dropLast).Perm l := by
  cases l with
  | nil => simp at hm
  | cons a t =>
    obtain rfl : a = m := by simpa using hm
    cases ht : t.getLast? with
    | none =>
      obtain rfl : t = [] := List.getLast?_eq_none_iff.mp ht
      simp
    | some y =>
      obtain rfl : y = x := by simpa [List.getLast?_cons, ht] using hx
      obtain ⟨s, rfl⟩ := List.getLast?_eq_some_iff.mp ht
      have hset : ((a :: (s ++ [y])).set 0 y).dropLast = y :: s := by
        rw [List.set_cons_zero, ← List.cons_append, List.dropLast_concat]
      rw [hset]
      exact (List.perm_append_singleton y s).symm.cons a

/-! ## Strict weak orders -/

/-- What is between two elements is beaten by the first or beats the second. -/
theorem lt_or_lt_of_lt [IsStrictWeakOrder α r] {a c : α} (h : r a c) (b : α) : r a b ∨ r b c := by
  by_contra hn
  obtain ⟨hab, hbc⟩ := not_or.mp hn
  have hba : ¬ r b a := fun hba => hbc (trans_of r hba h)
  have hcb : ¬ r c b := fun hcb => hab (trans_of r h hcb)
  exact (IsStrictWeakOrder.incomp_trans a b c ⟨hab, hba⟩ ⟨hbc, hcb⟩).1 h

variable [IsStrictWeakOrder α r]

theorem not_beats_self (l : List α) (j : Nat) : ¬ Beats r l j j := by
  rintro ⟨a, b, ha, hb, hab⟩
  rw [ha] at hb
  cases hb
  exact irrefl a hab

theorem Beats.asymm {a b : Nat} (h : Beats r l a b) : ¬ Beats r l b a := by
  rintro ⟨y', x', hy', hx', hyx⟩
  obtain ⟨x, y, hx, hy, hxy⟩ := h
  rw [hx] at hx'
  rw [hy] at hy'
  cases hx'
  cases hy'
  exact asymm_of r hxy hyx

theorem not_beats_trans {a b c : Nat} (hb : b < l.length) (h1 : ¬ Beats r l a b)
    (h2 : ¬ Beats r l b c) : ¬ Beats r l a c := by
  rintro ⟨x, z, hx, hz, hxz⟩
  rcases lt_or_lt_of_lt hxz l[b] with h | h
  · exact h1 ⟨x, _, hx, List.getElem?_eq_getElem hb, h⟩
  · exact h2 ⟨_, z, List.getElem?_eq_getElem hb, hz, h⟩

/-! ## One swap -/

/-- The element at `i` beats its parent and changes places with it. -/
theorem UpOrder.swap (h : UpOrder r l i) (h0 : 0 < i) (hb : Beats r l i (parent i)) :
    UpOrder r (swapAt l i (parent i)) (parent i) := by
  obtain ⟨hi, hp⟩ := hb.lt
  have hlt := parent_lt h0
  -- the parent that moves down is above all that was below `i`
  have habove : 0 < parent i → ¬ Beats r l (parent i) (parent (parent i)) :=
    fun hp0 => h.edge _ hp0 (by omega)
  constructor
  · intro j hj hne
    rw [beats_swapAt hi hp]
    by_cases hji : j = i
    · rw [hji, Equiv.swap_apply_left, Equiv.swap_apply_right]
      exact hb.asymm
    · rw [Equiv.swap_apply_of_ne_of_ne hji hne]
      by_cases hpi : parent j = i
      · rw [hpi, Equiv.swap_apply_left]
        exact h.skip j hj h0 hpi
      · by_cases hpp : parent j = parent i
        · -- the other child of the parent
          have hjp : ¬ Beats r l j (parent i) := hpp ▸ h.edge j hj hji
          rw [hpp, Equiv.swap_apply_right]
          exact not_beats_trans hp hjp hb.asymm
        · rw [Equiv.swap_apply_of_ne_of_ne hpi hpp]
          exact h.edge j hj hji
  · intro j hj hp0 hpj
    have hlt2 := parent_lt hp0
    have hltj := parent_lt hj
    rw [beats_swapAt hi hp, Equiv.swap_apply_of_ne_of_ne (show parent (parent i) ≠ i by omega)
      (show parent (parent i) ≠ parent i by omega)]
    by_cases hji : j = i
    · rw [hji, Equiv.swap_apply_left]
      exact habove hp0
    · have hjp : ¬ Beats r l j (parent i) := hpj ▸ h.edge j hj hji
      rw [Equiv.swap_apply_of_ne_of_ne hji (by omega)]
      exact not_beats_trans hp hjp (habove hp0)

/-- The element at `i` changes places with the child `c` that beats it and that
its other child does not beat. -/
theorem DownOrder.swap {c : Nat} (h : DownOrder r l i) (hc : 0 < c) (hpc : parent c = i)
    (hb : Beats r l c i) (hbest : ∀ k, 0 < k → parent k = i → ¬ Beats r l k c) :
    DownOrder r (swapAt l i c) c := by
  obtain ⟨hcl, hi⟩ := hb.lt
  have hlt := parent_lt hc
  constructor
  · intro j hj hp
    have hltj := parent_lt hj
    rw [beats_swapAt hi hcl]
    by_cases hjc : j = c
    · rw [hjc, hpc, Equiv.swap_apply_right, Equiv.swap_apply_left]
      exact hb.asymm
    · by_cases hpi : parent j = i
      · -- the other child
        rw [hpi, Equiv.swap_apply_left, Equiv.swap_apply_of_ne_of_ne (by omega) hjc]
        exact hbest j hj hpi
      · rw [Equiv.swap_apply_of_ne_of_ne hpi hp]
        by_cases hji : j = i
        · rw [hji, Equiv.swap_apply_left]
          exact h.skip c hc (hji ▸ hj) hpc
        · rw [Equiv.swap_apply_of_ne_of_ne hji hjc]
          exact h.edge j hj hpi
  · intro j hj _ hp
    have hltj := parent_lt hj
    have hpj : ¬ Beats r l j (parent j) := h.edge j hj (by omega)
    rw [beats_swapAt hi hcl, hpc, Equiv.swap_apply_left,
      Equiv.swap_apply_of_ne_of_ne (by omega) (by omega)]
    rwa [hp] at hpj

/-! ## The root -/

theorem HeapOrder.root (h : HeapOrder r l) (j : Nat) : ¬ Beats r l j 0 := by
  induction j using Nat.strongRecOn with
  | ind j ih =>
    by_cases hj : 0 < j
    · intro hb
      have hlt := parent_lt hj
      exact not_beats_trans (Nat.lt_trans hlt hb.lt.1) (h j hj) (ih _ hlt) hb
    · rw [Nat.eq_zero_of_not_pos hj]
      exact not_beats_self l 0

/-- No element of a heap beats its root. -/
theorem HeapOrder.root_unbeaten {m : α} (h : HeapOrder r l) (hm : l[0]? = some m) :
    ∀ x ∈ l, ¬ r x m := by
  intro x hx hr
  obtain ⟨j, hj, rfl⟩ := List.mem_iff_getElem.mp hx
  exact h.root j ⟨_, m, List.getElem?_eq_getElem hj, hm, hr⟩

end

/-! ## Priority queues as multisets -/

/-- `l` lists `s`, each time one of the elements that no remaining one beats. -/
inductive Drains {α : Type} (r : α → α → Prop) : Multiset α → List α → Prop
  | nil : Drains r 0 []
  | cons {m : α} {s : Multiset α} {l : List α} : (∀ x ∈ s, ¬ r x m) → Drains r s l →
      Drains r (m ::ₘ s) (m :: l)

theorem Drains.coe_eq {α : Type} {r : α → α → Prop} {s : Multiset α} {l : List α}
    (h : Drains r s l) : (l : Multiset α) = s := by
  induction h with
  | nil => rfl
  | cons _ _ ih => rw [← Multiset.cons_coe, ih]

/-- It lists them in non-increasing priority. -/
theorem Drains.sorted {α : Type} {r : α → α → Prop} {s : Multiset α} {l : List α}
    (h : Drains r s l) : l.Pairwise fun a b => ¬ r b a := by
  induction h with
  | nil => exact .nil
  | cons hm hd ih =>
    refine .cons (fun x hx => hm x ?_) ih
    rw [← hd.coe_eq]
    exact Multiset.mem_coe.mpr hx

end Cdsa.Core
