import Cdsa.Core.Draws
import Cdsa.L2Skiplist.List

/-!
# The coins of `random_level`

A height is decided by at most 15 coins: a node grows past level l if the coins
of the levels 1 to l all show heads (`lt_height`). Among all outcomes of the 15
coins half as many let it grow past each level as past the one below
(`card_lt_height`). `rand() % 2` is taken to be such a coin.
-/
namespace Cdsa.Skiplist

/-- The coin that is flipped at level `l`.
mirrors src/skiplist.c:30 -/
def flips (c : Fin 15 → Bool) (l : Nat) : Bool := if h : l - 1 < 15 then c ⟨l - 1, h⟩ else false

/-- The height that the coins `c` decide on. -/
def height (c : Fin 15 → Bool) : Nat := randomLevel (flips c)

theorem lt_levelLoop {coins : Nat → Bool} : ∀ {left level k : Nat}, level ≤ k → k < level + left →
    (k < levelLoop coins left level ↔ ∀ l, level ≤ l → l ≤ k → coins l = true)
  | 0, level, k, h1, h2 => by omega
  | left + 1, level, k, h1, h2 => by
    rw [levelLoop]
    cases hc : coins level with
    | false =>
      rw [if_neg (by simp)]
      constructor
      · intro h
        omega
      · intro h
        rw [h level (Nat.le_refl _) h1] at hc
        cases hc
    | true =>
      rw [if_pos rfl]
      rcases Nat.lt_or_eq_of_le h1 with hlt | rfl
      · rw [lt_levelLoop hlt (by omega)]
        constructor
        · intro h l hl hlk
          rcases Nat.lt_or_eq_of_le hl with hl | rfl
          · exact h l hl hlk
          · exact hc
        · intro h l hl
          exact h l (Nat.le_of_succ_le hl)
      · have hge := (levelLoop_range coins left (level + 1)).1
        constructor
        · intro _ l hl hlk
          rw [Nat.le_antisymm hlk hl]
          exact hc
        · intro _
          omega

theorem height_range (c : Fin 15 → Bool) : 1 ≤ height c ∧ height c ≤ 16 := randomLevel_range _

/-- Past level `k` a node grows by heads alone. -/
theorem lt_height {c : Fin 15 → Bool} {k : Nat} (hk : k ≤ 15) :
    k < height c ↔ ∀ i : Fin 15, i.1 < k → c i = true := by
  rcases Nat.eq_zero_or_pos k with rfl | hpos
  · have := (height_range c).1
    simp
    omega
  · have hloop : k < height c ↔ ∀ l, 1 ≤ l → l ≤ k → flips c l = true :=
      lt_levelLoop hpos (show k < 1 + 15 by omega)
    refine hloop.trans ⟨fun h i hi => ?_, fun h l hl hlk => ?_⟩
    · have := h (i.1 + 1) (by omega) hi
      simpa [flips, i.2] using this
    · have hlt : l - 1 < 15 := by omega
      rw [flips, dif_pos hlt]
      exact h ⟨l - 1, hlt⟩ (show l - 1 < k by omega)

section
variable {c : Fin 15 → Bool} {k : Nat}

theorem succ_lt_height (hk : k < 15) :
    k + 1 < height c ↔ k < height c ∧ c ⟨k, hk⟩ = true := by
  rw [lt_height (Nat.le_of_lt hk), lt_height hk]
  constructor
  · intro h
    exact ⟨fun i hi => h i (by omega), h _ (Nat.lt_succ_self k)⟩
  · rintro ⟨h, hc⟩ i hi
    rcases Nat.lt_or_eq_of_le (Nat.le_of_lt_succ hi) with hi | hi
    · exact h i hi
    · rw [show i = ⟨k, hk⟩ from Fin.ext hi]
      exact hc

theorem lt_height_update (hk : k < 15) (b : Bool) :
    k < height (Function.update c ⟨k, hk⟩ b) ↔ k < height c := by
  rw [lt_height (Nat.le_of_lt hk), lt_height (Nat.le_of_lt hk)]
  refine forall_congr' fun i => forall_congr' fun hi => ?_
  rw [Function.update_of_ne (by rintro rfl; exact Nat.lt_irrefl _ hi)]

/-- The coin of level `k + 1` lets as many grow as it stops. -/
theorem card_height_eq (hk : k < 15) :
    (Finset.univ.filter fun c => decide (k < height c) ∧ !decide (k + 1 < height c)).card =
      (Finset.univ.filter fun c => decide (k + 1 < height c)).card := by
  let flip : (Fin 15 → Bool) → Fin 15 → Bool := fun c => Function.update c ⟨k, hk⟩ (!c ⟨k, hk⟩)
  have hflip : ∀ c, flip (flip c) = c := fun c => by simp [flip]
  have hgrows : ∀ c, k + 1 < height (flip c) ↔ k < height c ∧ ¬ k + 1 < height c := by
    intro c
    rw [succ_lt_height hk, succ_lt_height hk, lt_height_update hk]
    simp [flip]
    tauto
  refine Finset.card_nbij' flip flip ?_ ?_ (fun c _ => hflip c) (fun c _ => hflip c)
  · intro c hc
    have hc : k < height c ∧ ¬ k + 1 < height c := by simpa using hc
    simpa using (hgrows c).mpr hc
  · intro c hc
    have hc : k + 1 < height (flip (flip c)) := by
      rw [hflip]
      simpa using hc
    simpa using (hgrows (flip c)).mp hc

end

theorem card_lt_height_top : (Finset.univ.filter fun c => decide (15 < height c)).card = 1 := by
  rw [Finset.card_eq_one]
  refine ⟨fun _ => true, Finset.ext fun c => ?_⟩
  simp only [Finset.mem_filter, Finset.mem_univ, true_and, decide_eq_true_eq,
    lt_height (Nat.le_refl 15), Finset.mem_singleton, funext_iff]
  exact forall_congr' fun i => ⟨fun h => h i.2, fun h _ => h⟩

/-- Of the `2 ^ 15` outcomes, `2 ^ (15 - k)` let a node grow past level `k`. -/
theorem card_lt_height : ∀ {j k : Nat}, j + k = 15 →
    (Finset.univ.filter fun c => decide (k < height c)).card = 2 ^ j
  | 0, k, h => by
    obtain rfl : k = 15 := by omega
    exact card_lt_height_top
  | j + 1, k, h => by
    have hnext := card_lt_height (j := j) (k := k + 1) (by omega)
    have hsplit := Finset.card_filter_add_card_filter_not (s := Finset.univ.filter fun c =>
      decide (k < height c)) (fun c => decide (k + 1 < height c) = true)
    rw [Finset.filter_filter, Finset.filter_filter] at hsplit
    have htall : (Finset.univ.filter fun c => decide (k < height c) = true ∧
        decide (k + 1 < height c) = true) = Finset.univ.filter fun c => decide (k + 1 < height c) := by
      ext c
      simp
      omega
    have hstop := card_height_eq (show k < 15 by omega)
    simp only [Bool.not_eq_true'] at hstop
    simp only [Bool.not_eq_true] at hsplit
    rw [htall, hstop, hnext] at hsplit
    rw [← hsplit, Nat.pow_succ]
    omega

theorem card_lt_height_le (k : Nat) :
    (Finset.univ.filter fun c => decide (k < height c)).card * 2 ^ k ≤ 2 ^ 15 := by
  rcases Nat.lt_or_ge 15 k with hk | hk
  · have hnone : (Finset.univ.filter fun c => decide (k < height c)) = ∅ := by
      apply Finset.filter_eq_empty_iff.mpr
      intro c _
      have hle := (height_range c).2
      simp
      omega
    rw [hnone, Finset.card_empty, Nat.zero_mul]
    exact Nat.zero_le _
  · rw [card_lt_height (Nat.sub_add_cancel hk), ← Nat.pow_add, Nat.sub_add_cancel hk]

/-- The heights of all outcomes together: 2 - 2^-15 on average. -/
theorem sum_height : ∑ c, height c = 2 ^ 16 - 1 := by
  have hcount : ∀ c, height c = ∑ k ∈ Finset.range 16, if k < height c then 1 else 0 := fun c => by
    have hle := (height_range c).2
    rw [← Finset.card_filter]
    have hrange : (Finset.range 16).filter (fun k => k < height c) = Finset.range (height c) := by
      ext k
      simp
      omega
    rw [hrange, Finset.card_range]
  calc ∑ c, height c = ∑ c, ∑ k ∈ Finset.range 16, if k < height c then 1 else 0 :=
        Finset.sum_congr rfl fun c _ => hcount c
    _ = ∑ k ∈ Finset.range 16, ∑ c, if k < height c then 1 else 0 := Finset.sum_comm
    _ = ∑ k ∈ Finset.range 16, 2 ^ (15 - k) := by
        apply Finset.sum_congr rfl
        intro k hk
        have hk := Finset.mem_range.mp hk
        have hcard := card_lt_height (j := 15 - k) (k := k) (by omega)
        simp only [decide_eq_true_eq] at hcard
        rw [← Finset.card_filter, hcard]
    _ = 2 ^ 16 - 1 := by decide

end Cdsa.Skiplist
