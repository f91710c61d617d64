import Mathlib.Data.List.Basic

/-!
# Blocks of storage

A block is a list of units (bytes, as a rule). `readAt b off n` and
`writeAt b off xs` access `n`, or `xs.length`, units from `off` on; an access
that leaves the block gives `none`. What a write does to a later read is in
`readAt_writeAt_self` and `readAt_writeAt_of_disjoint`.

Cell `i` of width `w` is the units from `i * w` on; distinct cells are
disjoint (`cell_disjoint`). `cells b w n` lists the first `n` of them.
-/
namespace Cdsa.Core

variable {α : Type}

def readAt (b : List α) (off n : Nat) : Option (List α) :=
  if off + n ≤ b.length then some ((b.drop off).take n) else none

def writeAt (b : List α) (off : Nat) (xs : List α) : Option (List α) :=
  if off + xs.length ≤ b.length then some (b.take off ++ xs ++ b.drop (off + xs.length)) else none

section
variable {b b' xs : List α} {off n : Nat}

theorem readAt_eq (h : off + n ≤ b.length) : readAt b off n = some ((b.drop off).take n) := if_pos h

theorem readAt_some_iff {ys : List α} : readAt b off n = some ys ↔
    off + n ≤ b.length ∧ ys.length = n ∧ ∀ i, i < n → ys[i]? = b[off + i]? := by
  unfold readAt
  split
  · next h =>
    rw [Option.some.injEq]
    constructor
    · rintro rfl
      refine ⟨h, by rw [List.length_take, List.length_drop]; omega, fun i hi => ?_⟩
      rw [List.getElem?_take_of_lt hi, List.getElem?_drop]
    · rintro ⟨-, hl, he⟩
      refine List.ext_getElem? fun i => ?_
      by_cases hi : i < n
      · rw [List.getElem?_take_of_lt hi, List.getElem?_drop, he i hi]
      · rw [List.getElem?_eq_none (by rw [List.length_take]; omega),
          List.getElem?_eq_none (by omega)]
  · next h => simp [h]

theorem readAt_length {ys : List α} (h : readAt b off n = some ys) : ys.length = n :=
  (readAt_some_iff.mp h).2.1

theorem exists_readAt (h : off + n ≤ b.length) : ∃ ys, readAt b off n = some ys := ⟨_, readAt_eq h⟩

/-- Reads agree where the units agree. -/
theorem readAt_congr (hl : b'.length = b.length) (h : ∀ i, i < n → b'[off + i]? = b[off + i]?) :
    readAt b' off n = readAt b off n := by
  refine Option.ext fun ys => ?_
  rw [readAt_some_iff, readAt_some_iff, hl]
  exact and_congr_right fun _ => and_congr_right fun _ =>
    forall_congr' fun i => forall_congr' fun hi => by rw [h i hi]

theorem readAt_of_agree {ys : List α} (h : readAt b off n = some ys) (hl : off + n ≤ b'.length)
    (he : ∀ i, i < n → b'[off + i]? = b[off + i]?) : readAt b' off n = some ys := by
  obtain ⟨-, hn, hy⟩ := readAt_some_iff.mp h
  exact readAt_some_iff.mpr ⟨hl, hn, fun i hi => (hy i hi).trans (he i hi).symm⟩

theorem writeAt_eq_none : writeAt b off xs = none ↔ b.length < off + xs.length := by
  unfold writeAt; split <;> simp <;> omega

theorem exists_writeAt (b : List α) (off : Nat) (xs : List α) (h : off + xs.length ≤ b.length) :
    ∃ b', writeAt b off xs = some b' :=
  ⟨_, if_pos h⟩

theorem writeAt_fits (h : writeAt b off xs = some b') : off + xs.length ≤ b.length := by
  by_contra hn
  rw [writeAt_eq_none.mpr (by omega)] at h
  cases h

theorem writeAt_length (h : writeAt b off xs = some b') : b'.length = b.length := by
  have hf := writeAt_fits h
  rw [writeAt, if_pos hf] at h
  cases h
  simp only [List.length_append, List.length_take, List.length_drop]
  omega

theorem getElem?_writeAt (h : writeAt b off xs = some b') (i : Nat) :
    b'[i]? = if off ≤ i ∧ i < off + xs.length then xs[i - off]? else b[i]? := by
  have hf := writeAt_fits h
  rw [writeAt, if_pos hf] at h
  cases h
  have hoff : (b.take off).length = off := List.length_take_of_le (by omega)
  by_cases h1 : i < off
  · rw [if_neg (by omega), List.append_assoc, List.getElem?_append_left (by omega),
      List.getElem?_take_of_lt h1]
  · rw [List.append_assoc, List.getElem?_append_right (by omega), hoff]
    by_cases h2 : i < off + xs.length
    · rw [if_pos (by omega), List.getElem?_append_left (by omega)]
    · rw [if_neg (by omega), List.getElem?_append_right (by omega), List.getElem?_drop]
      congr 1; omega

/-- What was written is read back. -/
theorem readAt_writeAt_self (h : writeAt b off xs = some b') :
    readAt b' off xs.length = some xs := by
  refine readAt_some_iff.mpr ⟨by rw [writeAt_length h]; exact writeAt_fits h, rfl, fun i hi => ?_⟩
  rw [getElem?_writeAt h, if_pos (by omega), Nat.add_sub_cancel_left]

/-- A write leaves the rest alone. -/
theorem readAt_writeAt_of_disjoint (h : writeAt b off xs = some b') {o : Nat}
    (hd : o + n ≤ off ∨ off + xs.length ≤ o) : readAt b' o n = readAt b o n :=
  readAt_congr (writeAt_length h) fun i hi => by rw [getElem?_writeAt h, if_neg (by omega)]

end

/-! ## Cells -/

theorem cell_disjoint {w i j : Nat} (h : i ≠ j) : i * w + w ≤ j * w ∨ j * w + w ≤ i * w := by
  rcases Nat.lt_or_gt_of_ne h with h | h
  · exact Or.inl (by rw [← Nat.succ_mul]; exact Nat.mul_le_mul_right w h)
  · exact Or.inr (by rw [← Nat.succ_mul]; exact Nat.mul_le_mul_right w h)

theorem cell_fits {w i n : Nat} (h : i < n) : i * w + w ≤ n * w := by
  rw [← Nat.succ_mul]; exact Nat.mul_le_mul_right w h

/-- The cell `i`. -/
def cellAt (b : List α) (w i : Nat) : Option (List α) := readAt b (i * w) w

section
variable {b b' xs : List α} {w i j : Nat}

theorem cellAt_writeAt_self (h : writeAt b (i * w) xs = some b') (hl : xs.length = w) :
    cellAt b' w i = some xs := by
  have := readAt_writeAt_self h
  rwa [hl] at this

theorem cellAt_writeAt_of_ne (h : writeAt b (i * w) xs = some b') (hl : xs.length = w)
    (hne : i ≠ j) : cellAt b' w j = cellAt b w j :=
  readAt_writeAt_of_disjoint h (by rw [hl]; exact (cell_disjoint hne).symm)

theorem exists_cellAt {n : Nat} (hi : i < n) (hb : n * w ≤ b.length) :
    ∃ xs, cellAt b w i = some xs := exists_readAt (Nat.le_trans (cell_fits hi) hb)

theorem cellAt_length (h : cellAt b w i = some xs) : xs.length = w := readAt_length h

end

end Cdsa.Core
