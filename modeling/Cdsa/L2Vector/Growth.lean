import Cdsa.Core.Amortised
import Cdsa.L2Vector.Runs

/-!
# What reallocation costs a vector over a run

A push that finds the vector full reallocates, which may move the whole block:
`capacity` elements. The capacity doubles, so over a run in which every growth
is met no more than two elements are moved for each push
(`pushes_amortised`), whatever is popped, set or cleared in between.
-/
namespace Cdsa.Vector

open Cdsa.Core Cdsa.Raw

variable {es : Nat} {v : CdsaVector} {l : List (Elem es)}

/-- The elements in the block that an operation reallocates. -/
def moved (v : CdsaVector) : Op es → Nat
  | .push _ _ => if v.size ≥ v.capacity then v.capacity else 0
  | _ => 0

def isPush : Op es → Bool
  | .push _ _ => true
  | _ => false

/-- How far the size is beyond half of the capacity, twice. -/
def potential (v : CdsaVector) : Nat := 2 * v.size - v.capacity

theorem append_size {v v' : CdsaVector} {e : List UInt8} (h : append v e = some (.ok, v')) :
    v'.size ≤ v.size + 1 ∧ v'.capacity = v.capacity := by
  obtain ⟨data, -, h⟩ := Option.map_eq_some_iff.mp h
  cases h
  exact ⟨Nat.mod_le _ _, rfl⟩

/-- A push that succeeds doubles the capacity if it finds the vector full. -/
theorem push_size (G : Good es v) {g : Grant} {e : Elem es} {v' : CdsaVector}
    (hg : v.capacity ≤ v.size → g.Meets (v.capacity * 2 * es))
    (h : cdsaPushVector g v e.1 = some (.ok, v')) : v'.size ≤ v.size + 1 ∧
      v'.capacity = if v.size ≥ v.capacity then v.capacity * 2 else v.capacity := by
  obtain rfl := G.elemSize
  rw [cdsaPushVector] at h
  split at h
  · next hs =>
    have hM := hg hs
    have he : 0 < v.elemSize := Nat.pos_of_ne_zero fun h0 => by
      have := hM.1
      rw [h0, Nat.mul_zero] at this
      omega
    have hc : v.capacity * 2 < 2 ^ 64 := by
      have := Nat.le_mul_of_pos_right (v.capacity * 2) he
      have := hM.2.1
      omega
    obtain ⟨⟨answer, old⟩, -, h⟩ := Option.bind_eq_some_iff.mp h
    cases answer with
    | none => cases h
    | some data =>
      rw [if_pos hs]
      obtain ⟨h1, h2⟩ := append_size h
      exact ⟨h1, h2.trans (Nat.mod_eq_of_lt hc)⟩
  · next hs =>
    rw [if_neg hs]
    exact append_size h

/-- An operation pays for what it moves and for the rise of the potential. -/
theorem Good.pays (G : Good es v) (L : Lists v l) (op : Op es) (hg : GrowthMet v op) :
    ∃ out v', Vector.step v op = some (out, v') ∧ Good es v' ∧
      moved v op + potential v' ≤ potential v + if isPush op then 2 else 0 := by
  obtain ⟨out, v', he, G', -, -⟩ := G.step L op hg
  refine ⟨out, v', he, G', ?_⟩
  have hle := G.size_le
  cases op with
  | push g e =>
    obtain ⟨w, hw, -, -⟩ := G.push L g e (by rw [← G.elemSize]; exact hg)
    rw [Vector.step, hw] at he
    cases he
    obtain ⟨hsize, hcap⟩ := push_size G (by rw [← G.elemSize]; exact hg) hw
    simp only [moved, potential, isPush, hcap, if_true]
    split <;> omega
  | pop =>
    cases he
    have : (cdsaPopVector v).2.size ≤ v.size ∧ (cdsaPopVector v).2.capacity = v.capacity := by
      unfold cdsaPopVector
      split <;> simp
    simp [moved, potential, isPush]
    omega
  | set i e =>
    obtain ⟨r, hr, he⟩ := Option.map_eq_some_iff.mp he
    cases he
    have : r.2.size = v.size ∧ r.2.capacity = v.capacity := by
      unfold setVector at hr
      split at hr
      · cases hr
        exact ⟨rfl, rfl⟩
      · obtain ⟨data, -, hr⟩ := Option.map_eq_some_iff.mp hr
        cases hr
        exact ⟨rfl, rfl⟩
    simp [moved, potential, isPush, this]
  | get i =>
    rw [G.get L i] at he
    cases he
    simp [moved, isPush]
  | clear =>
    cases he
    simp [moved, potential, isPush, cdsaClearVector]

/-- A run from creation whose growths are met moves at most two elements for
each push. -/
theorem pushes_amortised (self block : Grant) (es : Nat) (v : CdsaVector) (ops : List (Op es))
    (hc : cdsaCreateVector (cdsaMallocTrack self) (cdsaMallocTrack block) es = some (some v))
    (hs : 4 * es + 8 < 2 ^ 64) (hrun : RunMeets step GrowthMet v ops) :
    totalCost step moved v ops ≤ 2 * ops.countP isPush := by
  obtain ⟨G, L⟩ := (cdsaCreateVector_spec hc).2 hs
  have hzero : potential v = 0 := by simp [potential, L.size]
  refine totalCost_le_count (fun v op G hg => ?_) G hzero hrun
  obtain ⟨l, L⟩ := G.exists_lists
  exact G.pays L op hg

/-- Five pushes, the last of which moves four elements. -/
theorem pushes_amortised_five : ∃ v : CdsaVector,
    cdsaCreateVector (cdsaMallocTrack .zeros) (cdsaMallocTrack .zeros) 1 = some (some v) ∧
      totalCost step moved v (List.replicate 5 (.push .zeros ⟨[7], rfl⟩) : List (Op 1)) ≤ 2 * 5 := by
  refine ⟨_, rfl, pushes_amortised .zeros .zeros 1 _ _ rfl (by decide) ?_⟩
  refine .cons (fun h => absurd h (by decide)) rfl (.cons (fun h => absurd h (by decide)) rfl
    (.cons (fun h => absurd h (by decide)) rfl (.cons (fun h => absurd h (by decide)) rfl
      (.cons (fun _ => ?_) rfl trivial))))
  exact ⟨by decide, by decide, rfl⟩

end Cdsa.Vector
