import Mathlib.Data.Finset.Card
import Mathlib.Data.List.Sort
import Mathlib.Order.Interval.Finset.Nat
import Cdsa.Core.Ring

/-!
# Open addressing with ordered displacements

A ring of `c` cells holds keys; a key rests some `d` cells after `home key`.
`Probing` asks of the displacements only that they rise by at most one from a
cell to the next, and that some cell is empty.

Read from an empty cell onwards, the homes of the keys are then in order
(`Probing.homes_le`), and a key does not lie beyond an empty cell from its
home (`Probing.lt_offset`). Two consequences:

* `Probing.least`: no other way to lay out the same keys brings them all
  nearer to their homes than the furthest one is here.
* `Probing.unique`: the keys alone decide which cells are taken, and the
  displacement in each. How the table came about leaves no trace.
-/
namespace Cdsa.Core

variable {K : Type} {c : Nat} {home : K → Nat} {cell cell' : Nat → Option (K × Nat)}

structure Probing (c : Nat) (home : K → Nat) (cell : Nat → Option (K × Nat)) : Prop where
  rest : ∀ i k d, cell i = some (k, d) → i = (home k + d) % c
  order : ∀ i k d, i < c → cell ((i + 1) % c) = some (k, d) → 0 < d →
    ∃ k' d', cell i = some (k', d') ∧ d ≤ d' + 1
  once : ∀ i j k d d', cell i = some (k, d) → cell j = some (k, d') → i = j
  gap : ∃ i, i < c ∧ cell i = none

/-- The keys of a table. -/
def Holds (cell : Nat → Option (K × Nat)) (k : K) : Prop := ∃ i d, cell i = some (k, d)

/-- Two distances below `2 * c` to one cell differ by one round at most. -/
theorem ring_eq_cases {a s t : Nat} (hs : s < 2 * c) (ht : t < c)
    (h : (a + s) % c = (a + t) % c) : s = t ∨ s = t + c := by
  by_cases hsc : s < c
  · exact Or.inl (ring_inj hsc ht h)
  · right
    have hback : (a + (s - c)) % c = (a + t) % c := by
      rw [← h, ← Nat.add_mod_right (a + (s - c)) c]
      congr 1
      omega
    have := ring_inj (by omega) ht hback
    omega

/-- Where two lists of options skip the same places, their values agree place
by place if they agree as lists. -/
theorem filterMap_inj {α β : Type} {f f' : α → Option β} : ∀ {l : List α},
    (∀ x ∈ l, (f x).isSome = (f' x).isSome) → l.filterMap f = l.filterMap f' →
      ∀ x ∈ l, f x = f' x
  | [], _, _ => by simp
  | a :: l, hs, he => by
    have ha := hs a List.mem_cons_self
    have hl := fun x hx => hs x (List.mem_cons_of_mem a hx)
    cases hf : f a with
    | none =>
      cases hf' : f' a with
      | some y => simp [hf, hf'] at ha
      | none =>
        rw [List.filterMap_cons_none hf, List.filterMap_cons_none hf'] at he
        simpa [hf, hf'] using filterMap_inj hl he
    | some y =>
      cases hf' : f' a with
      | none => simp [hf, hf'] at ha
      | some y' =>
        rw [List.filterMap_cons_some hf, List.filterMap_cons_some hf', List.cons.injEq] at he
        simpa [hf, hf', he.1] using filterMap_inj hl he.2

namespace Probing

section
variable (T : Probing c home cell)
include T

theorem pos : 0 < c := by
  obtain ⟨i, hi, -⟩ := T.gap
  omega

theorem lt {i : Nat} {p : K × Nat} (h : cell i = some p) : i < c := by
  rw [T.rest i p.1 p.2 h]
  exact Nat.mod_lt _ T.pos

/-- The ordering clause at distances from a fixed start. -/
theorem order_at {g n d : Nat} {k : K} (h : cell ((g + (n + 1)) % c) = some (k, d)) (hd : 0 < d) :
    ∃ k' d', cell ((g + n) % c) = some (k', d') ∧ d ≤ d' + 1 := by
  apply T.order _ k d (Nat.mod_lt _ T.pos) _ hd
  rw [ring_succ]
  exact h

/-- Seen from an empty cell, a key's home is further on than that cell. -/
theorem lt_offset {g : Nat} (hg : cell (g % c) = none) :
    ∀ n k d, cell ((g + n) % c) = some (k, d) → d < n := by
  intro n
  induction n with
  | zero =>
    intro k d h
    rw [Nat.add_zero, hg] at h
    cases h
  | succ n ih =>
    intro k d h
    by_cases hd : 0 < d
    · obtain ⟨k', d', h', hle⟩ := T.order_at h hd
      have := ih k' d' h'
      omega
    · omega

/-- Seen from an empty cell, the homes stand in the order of the cells. -/
theorem homes_le {g n : Nat} {k : K} {d : Nat} (h : cell ((g + n) % c) = some (k, d)) :
    ∀ m k' d', n ≤ m → cell ((g + m) % c) = some (k', d') → n + d' ≤ m + d := by
  intro m
  induction m with
  | zero =>
    intro k' d' hnm h'
    obtain rfl : n = 0 := by omega
    rw [h] at h'
    cases h'
    rfl
  | succ m ih =>
    intro k' d' hnm h'
    by_cases hn : n = m + 1
    · subst hn
      rw [h] at h'
      cases h'
      rfl
    · by_cases hd : 0 < d'
      · obtain ⟨k'', d'', h'', hle⟩ := T.order_at h' hd
        have := ih k'' d'' (by omega) h''
        omega
      · omega

/-- The home of a key, as a distance from `g`. -/
theorem home_offset {g n d : Nat} {k : K} (h : cell ((g + n) % c) = some (k, d)) (hd : d ≤ n) :
    home k % c = (g + (n - d)) % c := by
  have hr := T.rest _ k d h
  apply Nat.ModEq.add_right_cancel' d
  unfold Nat.ModEq
  rw [← hr]
  congr 1
  omega

/-- A key of a table, seen from one of its empty cells. -/
theorem seen {g : Nat} (hg : cell (g % c) = none) {k : K} (hk : Holds cell k) :
    ∃ n d, d < n ∧ n < c ∧ cell ((g + n) % c) = some (k, d) := by
  obtain ⟨i, d, hi⟩ := hk
  obtain ⟨n, hn, rfl⟩ := ring_reach g (T.lt hi)
  exact ⟨n, d, T.lt_offset hg n k d hi, hn, hi⟩

/-- In front of a key: an empty cell, and nothing but keys from there on. -/
theorem behind {i : Nat} {p : K × Nat} (h : cell i = some p) : ∃ g n, g < c ∧ cell g = none ∧
    0 < n ∧ n < c ∧ i = (g + n) % c ∧
    ∀ j, 0 < j → j ≤ n → ∃ k d, cell ((g + j) % c) = some (k, d) := by
  obtain ⟨g, hg, hgn⟩ := T.gap
  obtain ⟨m, hm, rfl⟩ := ring_reach g (T.lt h)
  -- the last empty cell before `m`, by induction on the distance
  have last : ∀ m, ∃ b, b ≤ m ∧ cell ((g + b) % c) = none ∧
      ∀ j, b < j → j ≤ m → ∃ k d, cell ((g + j) % c) = some (k, d) := by
    intro m
    induction m with
    | zero => exact ⟨0, Nat.le_refl _, by rw [Nat.add_zero, Nat.mod_eq_of_lt hg, hgn], by omega⟩
    | succ m ih =>
      cases hs : cell ((g + (m + 1)) % c) with
      | none => exact ⟨m + 1, Nat.le_refl _, hs, by omega⟩
      | some q =>
        obtain ⟨b, hb, hbn, hall⟩ := ih
        refine ⟨b, by omega, hbn, fun j hj hjm => ?_⟩
        by_cases hj' : j = m + 1
        · exact ⟨q.1, q.2, hj' ▸ hs⟩
        · exact hall j hj (by omega)
  obtain ⟨b, hb, hbn, hall⟩ := last m
  have hbm : b ≠ m := by
    rintro rfl
    rw [h] at hbn
    cases hbn
  have hshift : ∀ j, ((g + b) % c + j) % c = (g + (b + j)) % c := fun j => by
    rw [Nat.mod_add_mod, Nat.add_assoc]
  refine ⟨(g + b) % c, m - b, Nat.mod_lt _ T.pos, hbn, by omega, by omega, ?_, fun j hj hjm => ?_⟩
  · rw [hshift]
    congr 2
    omega
  · rw [hshift]
    exact hall (b + j) (by omega) (by omega)

/-- Pigeonhole: however the `n` keys of a run are placed, one of them is
outside the first `n - 1` cells of the run. -/
theorem overflows {g n : Nat} (hn : 0 < n) (hnc : n < c)
    (run : ∀ j, 0 < j → j ≤ n → ∃ k d, cell ((g + j) % c) = some (k, d)) (place : K → Nat)
    (inj : ∀ k k', Holds cell k → Holds cell k' → place k % c = place k' % c → k = k') :
    ∃ j k d, 0 < j ∧ j ≤ n ∧ cell ((g + j) % c) = some (k, d) ∧
      ∀ s, 0 < s → s < n → place k % c ≠ (g + s) % c := by
  by_contra hno
  push Not at hno
  have hmap : ∀ j, ∃ s, 0 < j → j ≤ n → 0 < s ∧ s < n ∧
      ∃ k d, cell ((g + j) % c) = some (k, d) ∧ place k % c = (g + s) % c := by
    intro j
    by_cases hj : 0 < j ∧ j ≤ n
    · obtain ⟨k, d, hk⟩ := run j hj.1 hj.2
      obtain ⟨s, hs, hsn, he⟩ := hno j k d hj.1 hj.2 hk
      exact ⟨s, fun _ _ => ⟨hs, hsn, k, d, hk, he⟩⟩
    · exact ⟨0, fun h h' => absurd ⟨h, h'⟩ hj⟩
  choose f hf using hmap
  obtain ⟨x, hx, y, hy, hxy, he⟩ := Finset.exists_ne_map_eq_of_card_lt_of_maps_to
    (s := Finset.Icc 1 n) (t := Finset.Icc 1 (n - 1)) (by simp; omega) (f := f) (by
      intro j hj
      rw [Finset.mem_coe, Finset.mem_Icc] at hj
      obtain ⟨h1, h2, -⟩ := hf j (by omega) hj.2
      rw [Finset.mem_coe, Finset.mem_Icc]
      omega)
  rw [Finset.mem_Icc] at hx hy
  obtain ⟨-, -, k, d, hk, hpk⟩ := hf x (by omega) hx.2
  obtain ⟨-, -, k', d', hk', hpk'⟩ := hf y (by omega) hy.2
  have hkk : k = k' := inj k k' ⟨_, _, hk⟩ ⟨_, _, hk'⟩ (by rw [hpk, hpk', he])
  subst hkk
  exact hxy (ring_inj (by omega) (by omega) (T.once _ _ k d d' hk hk'))

/-- However else the keys are laid out, some key is at least as far from home
as any key is here. -/
theorem least (move : K → Nat)
    (inj : ∀ k k', Holds cell k → Holds cell k' →
      (home k + move k) % c = (home k' + move k') % c → k = k')
    {i d : Nat} {k : K} (h : cell i = some (k, d)) : ∃ k', Holds cell k' ∧ d ≤ move k' := by
  obtain ⟨g, n, hg, hgn, hn, hnc, rfl, run⟩ := T.behind h
  obtain ⟨j, k', d', hj, hjn, hk', hout⟩ := T.overflows hn hnc run (fun k => home k + move k) inj
  refine ⟨k', ⟨_, _, hk'⟩, ?_⟩
  by_contra hlt
  have hd' := T.lt_offset (by rw [Nat.mod_eq_of_lt hg]; exact hgn) j k' d' hk'
  have hle := T.homes_le hk' n k d hjn h
  apply hout (j - d' + move k') (by omega) (by omega)
  rw [← Nat.mod_add_mod, T.home_offset hk' (Nat.le_of_lt hd'), Nat.mod_add_mod, Nat.add_assoc]

end

/-! ## Two tables of the same keys -/

section
variable (T : Probing c home cell) (T' : Probing c home cell')
include T T'

/-- The keys decide which cells are empty. -/
theorem empty_of (same : ∀ k, Holds cell k ↔ Holds cell' k) {i : Nat} (hi : cell i = none)
    (hic : i < c) : cell' i = none := by
  cases hs : cell' i with
  | none => rfl
  | some p =>
    obtain ⟨g, n, hg, hgn, hn, hnc, rfl, run⟩ := T'.behind hs
    have hempty : cell ((g + n) % c % c) = none := by rw [Nat.mod_mod, hi]
    -- where the first table keeps a key
    have hplace : ∀ k, ∃ q, Holds cell k → ∃ d, cell q = some (k, d) := by
      intro k
      by_cases hk : Holds cell k
      · obtain ⟨q, d, hq⟩ := hk
        exact ⟨q, fun _ => ⟨d, hq⟩⟩
      · exact ⟨0, fun h => absurd h hk⟩
    choose place hplace using hplace
    have inj : ∀ k k', Holds cell' k → Holds cell' k' → place k % c = place k' % c → k = k' := by
      intro k k' hk hk' he
      obtain ⟨d, hd⟩ := hplace k ((same k).mpr hk)
      obtain ⟨d', hd'⟩ := hplace k' ((same k').mpr hk')
      rw [Nat.mod_eq_of_lt (T.lt hd), Nat.mod_eq_of_lt (T.lt hd')] at he
      rw [he, hd'] at hd
      cases hd
      rfl
    obtain ⟨j, k, d', hj, hjn, hk, hout⟩ := T'.overflows hn hnc run place inj
    have hkc : Holds cell k := (same k).mpr ⟨_, _, hk⟩
    obtain ⟨m, d, hdm, hmc, hm⟩ := T.seen hempty hkc
    obtain ⟨d2, hd2⟩ := hplace k hkc
    have hp : place k = ((g + n) % c + m) % c := T.once _ _ k d2 d hd2 hm
    have hd' := T'.lt_offset (by rw [Nat.mod_eq_of_lt hg]; exact hgn) j k d' hk
    -- both tables agree on the home of `k`
    have h1 := T.home_offset hm (Nat.le_of_lt hdm)
    have h2 := T'.home_offset hk (Nat.le_of_lt hd')
    rw [h1, Nat.mod_add_mod, Nat.add_assoc] at h2
    have hround := ring_eq_cases (by omega) (by omega) h2
    exfalso
    apply hout (n + m - c) (by omega) (by omega)
    rw [hp, Nat.mod_mod, Nat.mod_add_mod, Nat.add_assoc, ← Nat.add_mod_right (g + (n + m - c)) c]
    congr 1
    omega

end

/-- The homes of the keys in the order of the cells after `g`, as distances
from `g`. -/
def offsets (c : Nat) (cell : Nat → Option (K × Nat)) (g : Nat) : List Nat :=
  (List.range c).filterMap fun n => (cell ((g + n) % c)).map fun p => n - p.2

/-- The keys in the order of the cells after `g`. -/
def keysFrom (c : Nat) (cell : Nat → Option (K × Nat)) (g : Nat) : List K :=
  (List.range c).filterMap fun n => (cell ((g + n) % c)).map Prod.fst

section
variable (T : Probing c home cell)
include T

theorem offsets_sorted {g : Nat} (hg : cell (g % c) = none) :
    (offsets c cell g).Pairwise (· ≤ ·) := by
  rw [offsets, List.pairwise_filterMap]
  apply List.pairwise_lt_range.imp
  intro n m hnm x hx y hy
  rw [Option.map_eq_some_iff] at hx hy
  obtain ⟨⟨k, d⟩, hk, rfl⟩ := hx
  obtain ⟨⟨k', d'⟩, hk', rfl⟩ := hy
  have := T.homes_le hk m k' d' (Nat.le_of_lt hnm) hk'
  have := T.lt_offset hg n k d hk
  simp only
  omega

theorem mem_keysFrom (g : Nat) {k : K} : k ∈ keysFrom c cell g ↔ Holds cell k := by
  simp only [keysFrom, List.mem_filterMap, List.mem_range, Option.map_eq_some_iff]
  constructor
  · rintro ⟨n, -, ⟨k', d⟩, h, rfl⟩
    exact ⟨_, d, h⟩
  · rintro ⟨i, d, h⟩
    obtain ⟨n, hn, rfl⟩ := ring_reach g (T.lt h)
    exact ⟨n, hn, (k, d), h, rfl⟩

theorem keysFrom_nodup (g : Nat) : (keysFrom c cell g).Nodup := by
  rw [keysFrom, List.Nodup, List.pairwise_filterMap]
  apply (List.nodup_range (n := c)).imp_of_mem
  intro n m hn hm hne x hx y hy he
  rw [Option.map_eq_some_iff] at hx hy
  obtain ⟨⟨k, d⟩, hk, rfl⟩ := hx
  obtain ⟨⟨k', d'⟩, hk', rfl⟩ := hy
  simp only at he
  subst he
  rw [List.mem_range] at hn hm
  exact hne (ring_inj hn hm (T.once _ _ k d d' hk hk'))

/-- The distances are a function of the keys. -/
theorem offsets_eq {g : Nat} (hg : cell (g % c) = none) :
    offsets c cell g = (keysFrom c cell g).map fun k => (home k % c + (c - g % c)) % c := by
  rw [offsets, keysFrom, List.map_filterMap]
  apply List.filterMap_congr
  intro n hn
  rw [List.mem_range] at hn
  rw [Option.map_map]
  apply Option.map_congr
  rintro ⟨k, d⟩ hk
  have hd := T.lt_offset hg n k d hk
  have hgc := Nat.mod_lt g T.pos
  have hround : g + (n - d) + (c - g % c) = (n - d) + c * (g / c + 1) := by
    have := Nat.div_add_mod g c
    rw [Nat.mul_add]
    omega
  simp only [Function.comp_apply]
  rw [T.home_offset hk (Nat.le_of_lt hd), Nat.mod_add_mod, hround]
  rw [Nat.add_mul_mod_self_left, Nat.mod_eq_of_lt (by omega)]

end

/-- One set of keys, one layout: the same cells are taken, each by a key
equally far from the same home. -/
theorem unique (T : Probing c home cell) (T' : Probing c home cell')
    (same : ∀ k, Holds cell k ↔ Holds cell' k) {i : Nat} (hi : i < c) :
    (cell i).map (fun p => (home p.1 % c, p.2)) = (cell' i).map (fun p => (home p.1 % c, p.2)) := by
  obtain ⟨g, hg, hgn⟩ := T.gap
  have hgm : cell (g % c) = none := by rw [Nat.mod_eq_of_lt hg, hgn]
  have hgm' : cell' (g % c) = none := by
    rw [Nat.mod_eq_of_lt hg]
    exact T.empty_of T' same hgn hg
  have hkeys : (keysFrom c cell g).Perm (keysFrom c cell' g) := by
    rw [List.perm_ext_iff_of_nodup (T.keysFrom_nodup g) (T'.keysFrom_nodup g)]
    intro k
    rw [T.mem_keysFrom, T'.mem_keysFrom, same]
  have hoff : offsets c cell g = offsets c cell' g := by
    apply List.Perm.eq_of_pairwise (fun a b _ _ => Nat.le_antisymm)
      (T.offsets_sorted hgm) (T'.offsets_sorted hgm')
    rw [T.offsets_eq hgm, T'.offsets_eq hgm']
    exact hkeys.map _
  obtain ⟨n, hn, rfl⟩ := ring_reach g hi
  have hpoint := filterMap_inj (fun m _ => ?_) hoff n (List.mem_range.mpr hn)
  · cases h : cell ((g + n) % c) with
    | none =>
      rw [T.empty_of T' same h hi]
    | some p =>
      cases h' : cell' ((g + n) % c) with
      | none =>
        rw [T'.empty_of T (fun k => (same k).symm) h' hi] at h
        cases h
      | some p' =>
        have hd := T.lt_offset hgm n p.1 p.2 h
        have hd' := T'.lt_offset hgm' n p'.1 p'.2 h'
        rw [h, h'] at hpoint
        simp only [Option.map_some, Option.some.injEq] at hpoint
        simp only [Option.map_some, Option.some.injEq, Prod.mk.injEq]
        have hp : p.2 = p'.2 := by omega
        refine ⟨?_, hp⟩
        rw [T.home_offset h (Nat.le_of_lt hd), T'.home_offset h' (Nat.le_of_lt hd'), hp]
  · have hm := Nat.mod_lt (g + m) T.pos
    rw [Option.isSome_map, Option.isSome_map]
    cases h : cell ((g + m) % c) with
    | none => rw [T.empty_of T' same h hm]
    | some p =>
      cases h' : cell' ((g + m) % c) with
      | none =>
        rw [T'.empty_of T (fun k => (same k).symm) h' hm] at h
        cases h
      | some p' => rfl

end Probing

end Cdsa.Core
