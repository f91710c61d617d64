import Mathlib.Algebra.BigOperators.Field
import Mathlib.Algebra.Order.BigOperators.Group.Finset
import Mathlib.Algebra.Order.Field.Rat
import Mathlib.Data.Fintype.BigOperators
import Mathlib.Tactic.Ring

/-!
# Independent draws

A finite set of names `ι`, and for each of them a draw from `C`, all outcomes
alike: what is meant by an average over the draws is the average over all
functions from `ι` to `C`. Drawing one name anew changes no total
(`sum_redraw`), so a draw is independent of whatever forgets it
(`sum_mul_forgets`).

A `streak` counts, along a list, the elements met since the last one that breaks
it. If a draw is no more likely to count than to break, the streak is one at
most on average, however long the list is (`sum_streak_le`).
-/
namespace Cdsa.Core

variable {ι C α : Type}

/-! ## Streaks -/

/-- How many elements have counted since the last one that broke the streak. -/
def streak (counts breaks : α → Bool) (l : List α) : Nat :=
  l.foldl (fun n x => if breaks x then 0 else if counts x then n + 1 else n) 0

theorem streak_concat (counts breaks : α → Bool) (l : List α) (x : α) :
    streak counts breaks (l ++ [x]) =
      if breaks x then 0 else if counts x then streak counts breaks l + 1
        else streak counts breaks l := by
  simp [streak]

theorem streak_zero {counts : α → Bool} (breaks : α → Bool) {l : List α}
    (h : ∀ x ∈ l, counts x = false) : streak counts breaks l = 0 := by
  induction l using List.reverseRecOn with
  | nil => rfl
  | append_singleton l x ih =>
    rw [streak_concat, h x (by simp), ih fun y hy => h y (by simp [hy])]
    simp

theorem streak_unbroken (counts breaks : α → Bool) (U : List α) {V : List α}
    (hV : ∀ x ∈ V, breaks x = false) :
    streak counts breaks (U ++ V) = streak counts breaks U + (V.filter counts).length := by
  induction V using List.reverseRecOn with
  | nil => simp
  | append_singleton V x ih =>
    have hx := hV x (by simp)
    have ih := ih fun y hy => hV y (by simp [hy])
    rw [← List.append_assoc, streak_concat, ih, hx, List.filter_append, List.length_append]
    cases hc : counts x <;> simp [hc, Nat.add_assoc]

/-- The part of a list after the last element that breaks. -/
theorem exists_break (breaks : α → Bool) (l : List α) :
    ∃ U V, l = U ++ V ∧ (∀ x ∈ V, breaks x = false) ∧
      (U = [] ∨ ∃ U' x, U = U' ++ [x] ∧ breaks x = true) := by
  induction l using List.reverseRecOn with
  | nil => exact ⟨[], [], rfl, by simp, Or.inl rfl⟩
  | append_singleton l x ih =>
    cases hx : breaks x with
    | true => exact ⟨l ++ [x], [], by simp, by simp, Or.inr ⟨l, x, rfl, hx⟩⟩
    | false =>
      obtain ⟨U, V, rfl, hV, hU⟩ := ih
      refine ⟨U, V ++ [x], by simp, fun y hy => ?_, hU⟩
      rcases List.mem_append.mp hy with hy | hy
      · exact hV y hy
      · rw [List.mem_singleton.mp hy]
        exact hx

theorem streak_map {β : Type} (f : β → α) (counts breaks : α → Bool) (l : List β) :
    streak counts breaks (l.map f) = streak (fun x => counts (f x)) (fun x => breaks (f x)) l := by
  rw [streak, List.foldl_map]
  rfl

/-! ## Averages -/

section
variable [Fintype ι] [DecidableEq ι] [Fintype C]

/-- Drawing `j` anew. -/
theorem sum_redraw (j : ι) (f : (ι → C) → ℕ) :
    ∑ ω : ι → C, ∑ c, f (Function.update ω j c) = Fintype.card C * ∑ ω, f ω := by
  have hinv : Function.Involutive fun p : (ι → C) × C => (Function.update p.1 j p.2, p.1 j) := by
    intro p
    simp
  have hswap := Equiv.sum_comp hinv.toPerm fun p => f p.1
  rw [Fintype.sum_prod_type, Fintype.sum_prod_type] at hswap
  calc ∑ ω : ι → C, ∑ c, f (Function.update ω j c)
      = ∑ ω : ι → C, ∑ _c : C, f ω := hswap
    _ = Fintype.card C * ∑ ω, f ω := by simp [Finset.mul_sum]

/-- What does not depend on draw `j` is independent of it. -/
theorem sum_mul_forgets {j : ι} {F : (ι → C) → ℕ} (hF : ∀ ω c, F (Function.update ω j c) = F ω)
    (g : C → ℕ) :
    Fintype.card C * ∑ ω, g (ω j) * F ω = (∑ c, g c) * ∑ ω, F ω := by
  rw [← sum_redraw j]
  simp only [Function.update_self, hF]
  rw [Finset.sum_mul_sum, Finset.sum_comm]

theorem sum_draw (j : ι) (g : C → ℕ) :
    Fintype.card C * ∑ ω : ι → C, g (ω j) = (∑ c, g c) * Fintype.card (ι → C) := by
  have h := sum_mul_forgets (j := j) (F := fun _ : ι → C => 1) (fun _ _ => rfl) g
  simpa using h

theorem sum_draws (l : List ι) (g : C → ℕ) :
    Fintype.card C * ∑ ω : ι → C, (l.map fun i => g (ω i)).sum =
      l.length * (∑ c, g c) * Fintype.card (ι → C) := by
  induction l with
  | nil => simp
  | cons i l ih =>
    simp only [List.map_cons, List.sum_cons, Finset.sum_add_distrib, Nat.mul_add, ih, sum_draw,
      List.length_cons]
    ring

/-- One more draw: how the totals of a streak go on. -/
theorem sum_streak_concat (counts breaks : C → Bool) {l : List ι} {j : ι} (hj : j ∉ l) :
    Fintype.card C * ∑ ω : ι → C, streak counts breaks ((l ++ [j]).map ω) +
        (Finset.univ.filter fun c => breaks c).card * ∑ ω : ι → C, streak counts breaks (l.map ω) =
      Fintype.card C * ∑ ω : ι → C, streak counts breaks (l.map ω) +
        (Finset.univ.filter fun c => counts c ∧ !breaks c).card * Fintype.card (ι → C) := by
  have hforgets : ∀ (ω : ι → C) c, streak counts breaks (l.map (Function.update ω j c)) =
      streak counts breaks (l.map ω) := by
    intro ω c
    congr 1
    apply List.map_congr_left
    intro i hi
    apply Function.update_of_ne
    rintro rfl
    exact hj hi
  have hbreak := sum_mul_forgets (F := fun ω => streak counts breaks (l.map ω)) hforgets
    fun c => if breaks c then 1 else 0
  have hcount := sum_draw (ι := ι) j fun c : C => if counts c ∧ !breaks c then 1 else 0
  rw [Finset.card_filter, Finset.card_filter, ← hbreak, ← hcount, ← Nat.mul_add, ← Nat.mul_add,
    ← Finset.sum_add_distrib, ← Finset.sum_add_distrib]
  congr 1
  apply Finset.sum_congr rfl
  intro ω _
  rw [List.map_append, List.map_singleton, streak_concat]
  cases breaks (ω j) <;> cases counts (ω j) <;> simp

/-- A streak that is no more likely to go on than to break. -/
theorem sum_streak_le [Nonempty C] {counts breaks : C → Bool}
    (hle : (Finset.univ.filter fun c => counts c ∧ !breaks c).card ≤
      (Finset.univ.filter fun c => breaks c).card) {l : List ι} (hl : l.Nodup) :
    ∑ ω : ι → C, streak counts breaks (l.map ω) ≤ Fintype.card (ι → C) := by
  induction l using List.reverseRecOn with
  | nil => simp [streak]
  | append_singleton l j ih =>
    obtain ⟨hl, -, hj⟩ := List.nodup_append.mp hl
    have hj : j ∉ l := fun h => hj j h j (by simp) rfl
    have hrec := sum_streak_concat counts breaks hj
    have ih := ih hl
    have hcard : (Finset.univ.filter fun c => breaks c).card ≤ Fintype.card C :=
      Finset.card_le_univ _
    have hpos : 0 < Fintype.card C := Fintype.card_pos
    obtain ⟨rest, hrest⟩ := Nat.exists_eq_add_of_le hcard
    apply Nat.le_of_mul_le_mul_left _ hpos
    generalize (Finset.univ.filter fun c => breaks c).card = breaking at *
    generalize (Finset.univ.filter fun c => counts c ∧ !breaks c).card = counting at *
    rw [hrest, Nat.add_mul, Nat.add_mul] at *
    have hrests := Nat.mul_le_mul_left rest ih
    have hcounts := Nat.mul_le_mul_right (Fintype.card (ι → C)) hle
    omega

/-- A streak that nothing breaks. -/
theorem sum_streak_eq {counts breaks : C → Bool} (hnone : ∀ c, breaks c = false) {l : List ι}
    (hl : l.Nodup) :
    Fintype.card C * ∑ ω : ι → C, streak counts breaks (l.map ω) =
      l.length * (Finset.univ.filter fun c => counts c).card * Fintype.card (ι → C) := by
  induction l using List.reverseRecOn with
  | nil => simp [streak]
  | append_singleton l j ih =>
    obtain ⟨hl, -, hj⟩ := List.nodup_append.mp hl
    have hj : j ∉ l := fun h => hj j h j (by simp) rfl
    have hrec := sum_streak_concat counts breaks hj
    simp only [hnone, Bool.false_eq_true, Finset.filter_false, Finset.card_empty, Nat.zero_mul,
      Nat.add_zero, Bool.not_false, and_true] at hrec
    rw [hrec, ih hl, List.length_append, List.length_singleton]
    ring

/-- The average over all outcomes of the draws. -/
def average (f : (ι → C) → ℕ) : ℚ := (∑ ω, f ω : ℕ) / Fintype.card (ι → C)

theorem average_mono {f g : (ι → C) → ℕ} (h : ∀ ω, f ω ≤ g ω) : average f ≤ average g := by
  have hsum : ∑ ω, f ω ≤ ∑ ω, g ω := Finset.sum_le_sum fun ω _ => h ω
  rw [average, average]
  gcongr

theorem average_le [Nonempty C] {f : (ι → C) → ℕ} {n : ℕ}
    (h : Fintype.card C * ∑ ω, f ω ≤ n * Fintype.card (ι → C)) :
    average f ≤ n / Fintype.card C := by
  have hC : (0 : ℚ) < Fintype.card C := Nat.cast_pos.mpr Fintype.card_pos
  have hall : (0 : ℚ) < Fintype.card (ι → C) := Nat.cast_pos.mpr Fintype.card_pos
  rw [average, div_le_div_iff₀ hall hC, mul_comm]
  exact_mod_cast h

theorem average_eq [Nonempty C] {f : (ι → C) → ℕ} {n : ℕ}
    (h : Fintype.card C * ∑ ω, f ω = n * Fintype.card (ι → C)) :
    average f = n / Fintype.card C := by
  have hC : (Fintype.card C : ℚ) ≠ 0 := Nat.cast_ne_zero.mpr Fintype.card_ne_zero
  have hall : (Fintype.card (ι → C) : ℚ) ≠ 0 := Nat.cast_ne_zero.mpr Fintype.card_ne_zero
  rw [average, div_eq_div_iff hall hC, mul_comm]
  exact_mod_cast h

end

end Cdsa.Core
