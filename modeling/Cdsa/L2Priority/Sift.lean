import Cdsa.L2Priority.Queue

/-!
# The sifts restore the heap

`siftUpLoop` and `siftDownLoop` end, within the array, in a heap of the elements
they started from. One round is one `UpOrder.swap` or `DownOrder.swap`; the
index falls, or rises below the size, so the fuel that the callers give is
enough. No index wraps: a vector with 2^63 elements has no child index that fits
a `size_t`, but `cdsa_pop_pq` sifts only after it has removed one.
-/
namespace Cdsa.Priority

open Cdsa.Core Cdsa.Raw Cdsa.Vector

variable {es : Nat} {cmp : List UInt8 → List UInt8 → Bool} {pq : CdsaPriorityQueue}
  {l : List (Elem es)}

/-- Comparing two elements in place. -/
theorem beats_iff {i j : Nat} (hi : i < l.length) (hj : j < l.length) :
    Beats (Before cmp) l i j ↔ cmp l[i].1 l[j].1 = true := by
  constructor
  · rintro ⟨a, b, ha, hb, hab⟩
    rw [List.getElem?_eq_getElem hi] at ha
    rw [List.getElem?_eq_getElem hj] at hb
    cases ha
    cases hb
    exact hab
  · intro h
    exact ⟨_, _, List.getElem?_eq_getElem hi, List.getElem?_eq_getElem hj, h⟩

variable [IsStrictWeakOrder (Elem es) (Before cmp)]

/-! ## sift_up -/

theorem siftUpLoop_spec : ∀ fuel {pq : CdsaPriorityQueue} {l : List (Elem es)} {temp : List UInt8}
    {index : Nat}, Queue cmp pq l → UpOrder (Before cmp) l index → index < l.length →
    es ≤ temp.length → index < fuel →
    ∃ pq' l', siftUpLoop fuel pq temp index = some pq' ∧ Queue cmp pq' l' ∧ l'.Perm l ∧
      HeapOrder (Before cmp) l'
  | 0, _, _, _, _, _, _, _, _, hf => absurd hf (Nat.not_lt_zero _)
  | fuel + 1, pq, l, temp, index, Q, U, hi, ht, hf => by
    unfold siftUpLoop
    by_cases h0 : index > 0
    · have hlt : parent index < index := parent_lt h0
      have hp : parent index < l.length := Nat.lt_trans hlt hi
      rw [if_pos h0, show (index - 1) / 2 = parent index from rfl]
      simp only [Q.elemSize, Q.elemAt hi, Q.elemAt hp, Option.bind_some, Q.cmp]
      split
      · next hc =>
        have hb : Beats (Before cmp) l index (parent index) := (beats_iff hi hp).mpr hc
        obtain ⟨pq', temp', hs, Q', ht'⟩ := Q.swap hi hp ht
        obtain ⟨pq'', l', hr, Q'', hperm, H⟩ := siftUpLoop_spec fuel Q' (U.swap h0 hb)
          (by rw [(swapAt_perm l _ _).length_eq]; exact hp) ht' (by omega)
        exact ⟨pq'', l', by rw [hs, Option.bind_some, hr], Q'', hperm.trans (swapAt_perm l _ _), H⟩
      · next hc =>
        have hn : ¬ Beats (Before cmp) l index (parent index) := fun hb => hc ((beats_iff hi hp).mp hb)
        exact ⟨pq, l, rfl, Q, .refl l, U.heapOrder hn⟩
    · obtain rfl : index = 0 := by omega
      exact ⟨pq, l, if_neg h0, Q, .refl l, U.heapOrder_zero⟩

theorem siftUp_granted (Q : Queue cmp pq l) {index : Nat} (U : UpOrder (Before cmp) l index)
    (hi : index < l.length) {g : Grant} (hg : 0 < index → (g.answer (es + 8)).isSome) :
    ∃ pq' l', siftUp g pq index = some (.ok, pq') ∧ Queue cmp pq' l' ∧ l'.Perm l ∧
      HeapOrder (Before cmp) l' := by
  unfold siftUp
  by_cases h0 : index = 0
  · subst h0
    exact ⟨pq, l, if_pos rfl, Q, .refl l, U.heapOrder_zero⟩
  · rw [if_neg h0]
    rcases Q.scratch g with ⟨temp, hm, ht, -⟩ | ⟨-, hnone⟩
    · obtain ⟨pq', l', hr, h⟩ := siftUpLoop_spec (index + 1) Q U hi ht (Nat.lt_succ_self _)
      exact ⟨pq', l', by simp only [hm, Option.bind_some, hr, Option.map_some], h⟩
    · have h := hg (Nat.pos_of_ne_zero h0)
      rw [hnone] at h
      cases h

omit [IsStrictWeakOrder (Elem es) (Before cmp)] in
/-- Without a scratch element nothing is moved. -/
theorem siftUp_refused (Q : Queue cmp pq l) {index : Nat} (h0 : 0 < index) {g : Grant}
    (hg : ¬ (g.answer (es + 8)).isSome) : siftUp g pq index = some (.errOom, pq) := by
  unfold siftUp
  rw [if_neg (by omega)]
  rcases Q.scratch g with ⟨temp, -, -, h⟩ | ⟨hm, -⟩
  · exact absurd h hg
  · rw [hm, Option.bind_some]

/-! ## sift_down -/

/-- The better of a child and what is the best so far. -/
theorem preferChild_spec (Q : Queue cmp pq l) (child : Nat) {best : Nat} (hb : best < l.length) :
    ∃ k, preferChild pq l.length child best = some k ∧ k < l.length ∧ (k = best ∨ k = child) ∧
      ¬ Beats (Before cmp) l child k ∧ ¬ Beats (Before cmp) l best k ∧
      (k ≠ best → Beats (Before cmp) l k best) := by
  unfold preferChild
  have hself : ∀ j, ¬ Beats (Before cmp) l j j := not_beats_self l
  by_cases hc : child < l.length
  · rw [if_pos hc]
    simp only [Q.elemSize, Q.elemAt hc, Q.elemAt hb, Option.bind_some, Option.map_some, Q.cmp]
    by_cases h : cmp l[child].1 l[best].1 = true
    · have hbeats : Beats (Before cmp) l child best := (beats_iff hc hb).mpr h
      exact ⟨child, by rw [if_pos h], hc, Or.inr rfl, hself child, hbeats.asymm, fun _ => hbeats⟩
    · exact ⟨best, by rw [if_neg h], hb, Or.inl rfl, fun h' => h ((beats_iff hc hb).mp h'),
        hself best, fun h => absurd rfl h⟩
  · exact ⟨best, if_neg hc, hb, Or.inl rfl, fun h => hc h.lt.1, hself best, fun h => absurd rfl h⟩

theorem siftDownLoop_spec : ∀ fuel {pq : CdsaPriorityQueue} {l : List (Elem es)} {temp : List UInt8}
    {index : Nat}, Queue cmp pq l → DownOrder (Before cmp) l index → index < l.length →
    l.length < 2 ^ 63 → es ≤ temp.length → l.length - index < fuel →
    ∃ pq' l', siftDownLoop fuel pq temp l.length index = some pq' ∧ Queue cmp pq' l' ∧
      l'.Perm l ∧ HeapOrder (Before cmp) l'
  | 0, _, _, _, _, _, _, _, _, _, hf => absurd hf (Nat.not_lt_zero _)
  | fuel + 1, pq, l, temp, index, Q, D, hi, hl, ht, hf => by
    unfold siftDownLoop
    rw [Nat.mod_eq_of_lt (show 2 * index + 1 < 2 ^ 64 by omega),
      Nat.mod_eq_of_lt (show 2 * index + 2 < 2 ^ 64 by omega)]
    obtain ⟨a, ha, hal, ha', hleft, hself, hbeat⟩ := preferChild_spec Q (2 * index + 1) hi
    obtain ⟨c, hc, hcl, hc', hright, hbest, hbeat'⟩ := preferChild_spec Q (2 * index + 2) hal
    simp only [ha, hc, Option.bind_some]
    -- `c` is not beaten by either child, nor by the element itself
    have hleftc : ¬ Beats (Before cmp) l (2 * index + 1) c := not_beats_trans hal hleft hbest
    have hindex : ¬ Beats (Before cmp) l index c := not_beats_trans hal hself hbest
    have hchildren : ∀ k, 0 < k → parent k = index → ¬ Beats (Before cmp) l k c := by
      intro k hk hpk
      rcases (parent_eq_iff hk).mp hpk with rfl | rfl
      · exact hleftc
      · exact hright
    split
    · next hne =>
      have hcc : c = 2 * index + 1 ∨ c = 2 * index + 2 := by omega
      have hc0 : 0 < c := by omega
      have hb : Beats (Before cmp) l c index := by
        rcases eq_or_ne c a with hca | hca
        · exact hca ▸ hbeat (hca ▸ hne)
        · -- the right child beats the best so far, which the element does not beat
          obtain ⟨x, y, hx, hy, hxy⟩ := hbeat' hca
          by_contra hn
          exact not_beats_trans hi hn hself ⟨x, y, hx, hy, hxy⟩
      obtain ⟨pq', temp', hs, Q', ht'⟩ := Q.swap hi hcl ht
      have hlen : (swapAt l index c).length = l.length := (swapAt_perm l _ _).length_eq
      obtain ⟨pq'', l', hr, Q'', hperm, H⟩ := siftDownLoop_spec fuel Q'
        (D.swap hc0 ((parent_eq_iff hc0).mpr hcc) hb hchildren) (by omega) (by omega) ht' (by omega)
      rw [hlen] at hr
      exact ⟨pq'', l', by rw [hs, Option.bind_some, hr], Q'', hperm.trans (swapAt_perm l _ _), H⟩
    · next heq =>
      obtain rfl : c = index := not_not.mp heq
      exact ⟨pq, l, rfl, Q, .refl l, D.heapOrder hchildren⟩

theorem siftDown_granted (Q : Queue cmp pq l) (D : DownOrder (Before cmp) l 0) (h0 : 0 < l.length)
    (hl : l.length < 2 ^ 63) {g : Grant} (hg : (g.answer (es + 8)).isSome) :
    ∃ pq' l', siftDown g pq 0 = some (.ok, pq') ∧ Queue cmp pq' l' ∧ l'.Perm l ∧
      HeapOrder (Before cmp) l' := by
  unfold siftDown
  rcases Q.scratch g with ⟨temp, hm, ht, -⟩ | ⟨-, hnone⟩
  · obtain ⟨pq', l', hr, h⟩ := siftDownLoop_spec (l.length + 1) Q D h0 hl ht (by omega)
    exact ⟨pq', l', by simp only [hm, Option.bind_some, Q.lists.size, hr, Option.map_some], h⟩
  · rw [hnone] at hg
    cases hg

omit [IsStrictWeakOrder (Elem es) (Before cmp)] in
theorem siftDown_refused (Q : Queue cmp pq l) {g : Grant} (hg : ¬ (g.answer (es + 8)).isSome) :
    siftDown g pq 0 = some (.errOom, pq) := by
  unfold siftDown
  rcases Q.scratch g with ⟨temp, -, -, h⟩ | ⟨hm, -⟩
  · exact absurd h hg
  · rw [hm, Option.bind_some]

end Cdsa.Priority
