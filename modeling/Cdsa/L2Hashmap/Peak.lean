import Cdsa.L2Hashmap.Remove

/-!
# `max_psl` across a removal

`remove_hashmap` recomputes `max_psl` only if the entry it takes out, or one
that it shifts back, held the maximum. The flag is raised before the PSL of a
shifted entry drops, so while it is down every entry at the maximum is still
there, with the PSL it had (`Shifted`). Skipping the recomputation then gives
what it would have given.

Nothing of this rests on the order of the table: a gap is enough, for the
shift to end.
-/
namespace Cdsa.Hashmap

open Cdsa.Core

variable {V : Type} {c : Nat}

/-- `max_psl` is the largest PSL stored, and 0 in an empty table. -/
structure Peaked (m : CdsaHashmap CStr V) : Prop where
  within : Within m
  attained : m.maxPsl = 0 ∨ ∃ e ∈ live m.entries, e.psl = m.maxPsl

/-- The running maximum is the start, or the PSL of an entry. -/
theorem foldl_raiseMax_attained (es : List (Option (HashEntry CStr V))) : ∀ (l : List Nat) a,
    l.foldl (raiseMax es) a = a ∨ ∃ e ∈ live es, e.psl = l.foldl (raiseMax es) a := by
  intro l
  induction l with
  | nil => exact fun a => Or.inl rfl
  | cons j l ih =>
    intro a
    rw [List.foldl_cons]
    rcases ih (raiseMax es a j) with h | h
    · rw [h]
      unfold raiseMax
      cases hs : slot es j with
      | none => exact Or.inl rfl
      | some e =>
        simp only
        split
        · exact Or.inr ⟨e, mem_live.mpr ⟨j, hs⟩, rfl⟩
        · exact Or.inl rfl
    · exact Or.inr h

/-- `recalculate_max_psl` computes the largest PSL. -/
theorem foldl_raiseMax_peaked {m : CdsaHashmap CStr V} (hlen : m.entries.length = m.capacity) :
    Peaked { m with maxPsl := (List.range m.capacity).foldl (raiseMax m.entries) 0 } :=
  ⟨foldl_raiseMax_within hlen, foldl_raiseMax_attained m.entries _ 0⟩

/-- There is one largest PSL. -/
theorem Peaked.unique {m : CdsaHashmap CStr V} {n : Nat} (h : Peaked m)
    (h' : Peaked { m with maxPsl := n }) : n = m.maxPsl := by
  apply Nat.le_antisymm
  · rcases h'.attained with h0 | ⟨e, he, hp⟩
    · exact h0.trans_le (Nat.zero_le _)
    · exact hp.symm.trans_le (h.within e he)
  · rcases h.attained with h0 | ⟨e, he, hp⟩
    · exact h0.trans_le (Nat.zero_le _)
    · exact hp.symm.trans_le (h'.within e he)

theorem Peaked.recalculate {m : CdsaHashmap CStr V} (h : Peaked m)
    (hlen : m.entries.length = m.capacity) : recalculateMaxPsl m = some m := by
  have := h.unique (foldl_raiseMax_peaked hlen)
  rw [recalculateMaxPsl_eq hlen, this]

/-- What shifting does to the entries outside the hole, and to the flag. -/
structure Shifted (maxPsl : Nat) (T T' : List (Option (HashEntry CStr V))) (affected affected' : Bool) :
    Prop where
  lowered : ∀ e ∈ live T', ∃ e0 ∈ live T, e.psl ≤ e0.psl
  kept : affected' = false → affected = false ∧ ∀ e ∈ live T, e.psl = maxPsl → e ∈ live T'

namespace Shifted

variable {maxPsl : Nat} {T T' T'' : List (Option (HashEntry CStr V))} {a a' a'' : Bool}

theorem refl : Shifted maxPsl T T a a := ⟨fun e he => ⟨e, he, Nat.le_refl _⟩, fun h => ⟨h, fun _ he _ => he⟩⟩

theorem trans (h : Shifted maxPsl T T' a a') (h' : Shifted maxPsl T' T'' a' a'') :
    Shifted maxPsl T T'' a a'' where
  lowered e he := by
    obtain ⟨e1, he1, hle1⟩ := h'.lowered e he
    obtain ⟨e0, he0, hle0⟩ := h.lowered e1 he1
    exact ⟨e0, he0, Nat.le_trans hle1 hle0⟩
  kept hdown := by
    obtain ⟨hmid, hkeep'⟩ := h'.kept hdown
    obtain ⟨hflag, hkeep⟩ := h.kept hmid
    exact ⟨hflag, fun e he hp => hkeep' e (hkeep e he hp) hp⟩

end Shifted

/-- One entry moved into the hole, and compared with the maximum before. -/
theorem Moved.shifted {T T' : List (Option (HashEntry CStr V))} {curr next : Nat} {y : HashEntry CStr V}
    (M : Moved T T' curr next y) (hs : slot T next = some y) (maxPsl : Nat) (affected : Bool) :
    Shifted maxPsl T T' affected (affected || y.psl == maxPsl) where
  lowered e he := by
    rcases List.mem_cons.mp (M.perm.subset (List.mem_cons_of_mem _ he)) with rfl | h
    · exact ⟨y, mem_live.mpr ⟨_, hs⟩, Nat.sub_le _ _⟩
    · exact ⟨e, h, Nat.le_refl _⟩
  kept hdown := by
    rw [Bool.or_eq_false_iff, beq_eq_false_iff_ne] at hdown
    refine ⟨hdown.1, fun e he hp => ?_⟩
    rcases List.mem_cons.mp (M.perm.symm.subset (List.mem_cons_of_mem _ he)) with rfl | h
    · exact absurd hp hdown.2
    · exact h

/-- The shift ends at a gap, whatever the order of the table. -/
theorem shiftLoop_shifted (maxPsl : Nat) : ∀ n (es : List (Option (HashEntry CStr V))) curr affected,
    es.length = c → curr < c → (∃ x, slot es curr = some x) → GapAhead c es ((curr + 1) % c) n →
    ∃ es' curr' affected', shiftLoop c maxPsl n es curr affected = some (es', curr', affected') ∧
      es'.length = c ∧ Shifted maxPsl (es.set curr none) (es'.set curr' none) affected affected' := by
  intro n
  induction n with
  | zero => rintro es curr affected - - - ⟨d, hd, -⟩; omega
  | succ n ih =>
    intro es curr affected hlen hc hx hgap
    have hnc : (curr + 1) % c < c := Nat.mod_lt _ (by omega)
    have hne := hgap.succ_ne hc hx
    cases hs : slot es ((curr + 1) % c) with
    | none => exact ⟨es, curr, affected, by
        simp only [shiftLoop, getElem?_of_empty (hlen.symm ▸ hnc) hs], hlen, .refl⟩
    | some y =>
      by_cases hp : 0 < y.psl
      · have hy : slot (es.set curr none) ((curr + 1) % c) = some y := (slot_set_ne hne none).trans hs
        have M := moved_into (show curr < (es.set curr none).length by simpa [hlen] using hc)
          (slot_set_self (hlen ▸ hc) none) hy
        rw [List.set_set] at M
        obtain ⟨x, hx⟩ := hx
        obtain ⟨es', curr', affected', h1, h2, h3⟩ :=
          ih (es.set curr (some { y with psl := y.psl - 1 })) ((curr + 1) % c)
            (affected || y.psl == maxPsl) (by simpa using hlen) hnc
            ⟨y, by rw [slot_set_ne hne]; exact hs⟩ ((hgap.next hnc hs).set hx _)
        exact ⟨es', curr', affected', by
          simp only [shiftLoop, getElem?_of_slot hs, hp, if_true]
          exact h1, h2,
          (M.shifted hy maxPsl affected).trans h3⟩
      · exact ⟨es, curr, affected, by
          simp only [shiftLoop, getElem?_of_slot hs, hp, if_false], hlen, .refl⟩

/-! ## `remove_hashmap` -/

/-- On any table with a gap whose `max_psl` is the largest PSL, removal leaves
the largest PSL there, recomputed or not. -/
theorem max_psl_maintained (m : CdsaHashmap CStr V) (hlen : m.entries.length = m.capacity)
    (gap : ∃ i, i < m.capacity ∧ slot m.entries i = none) (hm : Peaked m) (key : CStr) :
    ∃ st m', removeHashmap some m key = some (st, m') ∧
      (st = .ok → Peaked m' ∧ recalculateMaxPsl m' = some m') := by
  obtain ⟨i, hi, he⟩ := gap
  rcases findSlot_cases hlen (Nat.zero_lt_of_lt hi) key with hf | ⟨s, hf⟩
  · refine ⟨.errNotFound, m, ?_, fun h => by cases h⟩
    simp only [removeHashmap, hf, Option.bind_some]
  · obtain ⟨x, hs, -⟩ := findSlot_sound hf
    have hsc : s < m.capacity := hlen ▸ slot_lt hs
    obtain ⟨es', curr', affected', h1, h2, h3⟩ := shiftLoop_shifted m.maxPsl m.capacity m.entries s
      ((slot m.entries s).any (·.psl == m.maxPsl)) hlen hsc ⟨x, hs⟩ (gap_of_empty _ hi he)
    have hlen' : (es'.set curr' none).length = m.capacity := by simpa using h2
    refine ⟨.ok, _, removeHashmap_of_shift hf h1 h2, fun _ => ?_⟩
    have hpeak : ∀ m' : CdsaHashmap CStr V, m'.entries.length = m'.capacity → Peaked m' →
        Peaked m' ∧ recalculateMaxPsl m' = some m' := fun m' hl hp => ⟨hp, hp.recalculate hl⟩
    cases affected' with
    | true =>
      exact hpeak _ hlen' (foldl_raiseMax_peaked (m := { m with
        size := m.size - 1
        version := (m.version + 1) % 2 ^ 64
        entries := es'.set curr' none }) hlen')
    | false =>
      obtain ⟨hflag, hkeep⟩ := h3.kept rfl
      have hperm := set_none_perm hs
      refine hpeak _ hlen' ⟨fun e he => ?_, ?_⟩
      · obtain ⟨e0, he0, hle⟩ := h3.lowered e he
        exact Nat.le_trans hle (hm.within e0 (hperm.subset (List.mem_cons_of_mem _ he0)))
      · -- the entry at the maximum is not the one removed
        refine hm.attained.imp id fun hmax => ?_
        obtain ⟨e, he, hp⟩ := hmax
        refine ⟨e, hkeep e ?_ hp, hp⟩
        rcases List.mem_cons.mp (hperm.symm.subset he) with rfl | h
        · rw [hs, Option.any_some, hp, beq_self_eq_true] at hflag
          cases hflag
        · exact h

/-- Homes 0, 0 and 1 in four slots: taking out the key that was swapped in
shifts the last one back to its home. -/
theorem max_psl_maintained_cluster : ∃ m' : CdsaHashmap CStr Nat,
    removeHashmap some ⟨4, 3, 1, 0, [some ⟨⟨[100], by decide⟩, some 1, 100, 0⟩,
      some ⟨⟨[104], by decide⟩, some 3, 104, 1⟩, some ⟨⟨[101], by decide⟩, some 2, 101, 1⟩, none]⟩
      ⟨[104], by decide⟩ = some (.ok, m') ∧ Peaked m' ∧ recalculateMaxPsl m' = some m' := by
  have hm : Peaked (V := Nat) ⟨4, 3, 1, 0, [some ⟨⟨[100], by decide⟩, some 1, 100, 0⟩,
      some ⟨⟨[104], by decide⟩, some 3, 104, 1⟩, some ⟨⟨[101], by decide⟩, some 2, 101, 1⟩, none]⟩ :=
    ⟨by unfold Within; decide, Or.inr (by decide)⟩
  obtain ⟨st, m', h, hpeak⟩ := max_psl_maintained _ rfl ⟨3, by decide, rfl⟩ hm ⟨[104], by decide⟩
  have hst : some st = some .ok := by
    rw [← show (some (st, m')).map Prod.fst = some st from rfl, ← h]
    decide
  cases hst
  exact ⟨m', h, hpeak rfl⟩

end Cdsa.Hashmap
