import Mathlib.Data.Nat.ModEq

/-!
# Positions on a ring of `c` cells

Open-addressing tables walk their array with `(i + 1) % c`. A position is
written `(a + t) % c`: start `a`, distance `t`.
-/
namespace Cdsa.Core

theorem ring_succ (a t c : Nat) : ((a + t) % c + 1) % c = (a + (t + 1)) % c := by
  rw [Nat.mod_add_mod, Nat.add_assoc]

/-- One step back from the next position. -/
theorem ring_back {c : Nat} (a t : Nat) (hc : 0 < c) :
    ((a + (t + 1)) % c + (c - 1)) % c = (a + t) % c := by
  rw [Nat.mod_add_mod, show a + (t + 1) + (c - 1) = a + t + c by omega, Nat.add_mod_right]

/-- Every cell is met within `c` steps from anywhere. -/
theorem ring_reach {c i : Nat} (a : Nat) (hi : i < c) : ∃ t, t < c ∧ (a + t) % c = i := by
  have hc : 0 < c := by omega
  have ha := Nat.mod_lt a hc
  refine ⟨(i + (c - a % c)) % c, Nat.mod_lt _ hc, ?_⟩
  rw [Nat.add_mod_mod, ← Nat.mod_add_mod]
  rw [show a % c + (i + (c - a % c)) = i + c by omega, Nat.add_mod_right, Nat.mod_eq_of_lt hi]

/-- Two distances below `c` that name the same cell are equal. -/
theorem ring_inj {a c s t : Nat} (hs : s < c) (ht : t < c) (h : (a + s) % c = (a + t) % c) :
    s = t := by
  have h' : s % c = t % c := Nat.ModEq.add_left_cancel' a h
  rwa [Nat.mod_eq_of_lt hs, Nat.mod_eq_of_lt ht] at h'

/-- A cell has one predecessor. -/
theorem ring_pred {c i j : Nat} (hi : i < c) (hj : j < c) (h : (i + 1) % c = (j + 1) % c) :
    i = j := by
  have h' : i % c = j % c := Nat.ModEq.add_right_cancel' 1 h
  rwa [Nat.mod_eq_of_lt hi, Nat.mod_eq_of_lt hj] at h'

/-- On more than one cell no cell is its own successor. -/
theorem ring_succ_ne {c i j : Nat} (hi : i < c) (hj : j < c) (hne : j ≠ i) : (i + 1) % c ≠ i := by
  by_cases h : i + 1 < c
  · rw [Nat.mod_eq_of_lt h]; omega
  · rw [show i + 1 = c by omega, Nat.mod_self]; omega

end Cdsa.Core
