import Cdsa.L2Skiplist.Remove

/-!
# Range queries

The search leaves `get_range_skiplist` at the first node whose score is not
below the minimum; from there both loops follow level 0 through the nodes
with a score up to the maximum. `countRange_spec` and `copyRange_spec` say
what the loops do, `getRangeSkiplist_cases` puts them together. The counter
is an `int`: with more than `intMax` matches the call is undefined
(`getRangeSkiplist_overflow`).
-/
namespace Cdsa.Skiplist

open Cdsa.Core Cdsa.Memory

variable {S : Type}

/-- The nodes with a score in the range. -/
def inRange [LinearOrder S] (minScore maxScore : S) (L : List (Tower S)) : List (Tower S) :=
  L.filter fun t => minScore ≤ t.score ∧ t.score ≤ maxScore

/-- The allocations behind an array of strings. -/
def copies (results : List (Ptr × CStr)) : List (Ptr × Nat) :=
  results.map fun r => (r.1, r.2.strlen + 1)

/-- The list `M ++ D` hangs off the pointer `current` on level 0. -/
structure Hangs (nodes : Ptr → Option (SkipNode S)) (current : Option Ptr) (l : List (Tower S)) :
    Prop where
  head : current = (l.map Tower.ptr).head?
  stands : ∀ t ∈ l, t.Stands nodes
  links : ∀ t l', l = t :: l' → Links (forwardAt nodes 0) t.ptr (l'.map Tower.ptr)

theorem Hangs.tail {nodes : Ptr → Option (SkipNode S)} {current : Option Ptr} {t : Tower S}
    {l : List (Tower S)} (h : Hangs nodes current (t :: l)) :
    ∃ next, forwardAt nodes 0 t.ptr = some next ∧ Hangs nodes next l := by
  have hl := h.links t l rfl
  refine ⟨_, hl.next_eq, rfl, fun u hu => h.stands u (List.mem_cons_of_mem _ hu), fun u l' he => ?_⟩
  subst he
  exact hl.2

variable [LinearOrder S]

theorem countRange_spec {nodes : Ptr → Option (SkipNode S)} {maxScore : S} {D : List (Tower S)}
    (hD : ∀ d ∈ D, ¬ d.score ≤ maxScore) :
    ∀ (M : List (Tower S)) fuel current count, Hangs nodes current (M ++ D) →
      (∀ t ∈ M, t.score ≤ maxScore) → M.length < fuel → count ≤ intMax →
      countRange nodes maxScore fuel current count =
        if count + M.length ≤ intMax then some (count + M.length) else none
  | [], 0, _, _, _, _, hf, _ => by simp at hf
  | [], fuel + 1, current, count, h, _, _, hc => by
    rw [if_pos (show count + ([] : List (Tower S)).length ≤ intMax from hc), h.head]
    cases D with
    | nil => rfl
    | cons d D =>
      obtain ⟨forward, hn, -⟩ := h.stands d (by simp)
      have := hD d (by simp)
      simp only [List.nil_append, List.map_cons, List.head?_cons, countRange, hn, Option.bind_some,
        Tower.node, this, if_false]
      rfl
  | t :: M, 0, _, _, _, _, hf, _ => by simp at hf
  | t :: M, fuel + 1, current, count, h, hM, hf, hc => by
    obtain ⟨forward, hn, -⟩ := h.stands t (by simp)
    obtain ⟨next, hnext, h'⟩ := h.tail
    have ht := hM t (by simp)
    rw [h.head]
    simp only [List.cons_append, List.map_cons, List.head?_cons, countRange, hn, Option.bind_some,
      Tower.node, ht, if_true, List.length_cons]
    split
    · next hlt =>
      rw [hnext, Option.bind_some, countRange_spec hD M fuel next (count + 1) h'
        (fun u hu => hM u (List.mem_cons_of_mem _ hu)) (by simpa using hf) hlt,
        show count + 1 + M.length = count + (M.length + 1) by omega]
    · next hge => rw [if_neg (by omega)]

theorem copyRange_spec {nodes : Ptr → Option (SkipNode S)} {maxScore : S} {D : List (Tower S)}
    (hD : ∀ d ∈ D, ¬ d.score ≤ maxScore) {base : UInt64} {bs : List (Ptr × Nat)} :
    ∀ (M : List (Tower S)) fuel current results mem, Hangs nodes current (M ++ D) →
      (∀ t ∈ M, t.score ≤ maxScore) → M.length < fuel → Owns base (copies results ++ bs) mem →
      ∃ ok results' mem', copyRange nodes maxScore fuel current results mem =
          some (ok, results', mem') ∧ Owns base (copies results' ++ bs) mem' ∧
        mem'.answers = mem.answers ∧ (ok = false → ¬ mem.NeverFails) ∧
        (ok = true → results'.map Prod.snd = results.map Prod.snd ++ M.map Tower.value)
  | [], 0, _, _, _, _, _, hf, _ => by simp at hf
  | [], fuel + 1, current, results, mem, h, _, _, O => by
    refine ⟨true, results, mem, ?_, O, rfl, fun h => (by cases h), fun _ => by simp⟩
    rw [h.head]
    cases D with
    | nil => rfl
    | cons d D =>
      obtain ⟨forward, hn, -⟩ := h.stands d (by simp)
      have := hD d (by simp)
      simp only [List.nil_append, List.map_cons, List.head?_cons, copyRange, hn, Option.bind_some,
        Tower.node, this, if_false]
  | t :: M, 0, _, _, _, _, _, hf, _ => by simp at hf
  | t :: M, fuel + 1, current, results, mem, h, hM, hf, O => by
    obtain ⟨forward, hn, -⟩ := h.stands t (by simp)
    obtain ⟨next, hnext, h'⟩ := h.tail
    have ht := hM t (by simp)
    rw [h.head]
    simp only [List.cons_append, List.map_cons, List.head?_cons, copyRange, hn, Option.bind_some,
      Tower.node, ht, if_true, safeStrdup]
    cases ha : mem.answers mem.asked with
    | false =>
      obtain ⟨m1, e1, O1, a1, -⟩ := O.alloc_fail ha (t.value.strlen + 1)
      exact ⟨false, results, m1, by rw [e1], O1, a1, fun _ hn => by simp [hn _] at ha,
        fun h => (by cases h)⟩
    | true =>
      obtain ⟨m1, e1, O1, a1, -⟩ := O.alloc ha (t.value.strlen + 1)
      have hp : ((mem.asked, t.value.strlen + 1) :: (copies results ++ bs)).Perm
          (copies (results ++ [(mem.asked, t.value)]) ++ bs) := by
        rw [copies, copies, List.map_append, List.append_assoc]
        exact List.perm_middle.symm
      obtain ⟨ok, results', m2, e2, O2, a2, hfail, hok⟩ := copyRange_spec hD M fuel next
        (results ++ [(mem.asked, t.value)]) m1 h' (fun u hu => hM u (List.mem_cons_of_mem _ hu))
        (by simpa using hf) (O1.of_perm hp)
      refine ⟨ok, results', m2, by rw [e1]; simp only [hnext, Option.bind_some]; exact e2, O2,
        a2.trans a1, fun h hn => hfail h (fun n => by rw [a1]; exact hn n), fun h => ?_⟩
      rw [hok h]; simp

theorem freeResults_spec {base : UInt64} {array : Ptr} {size : Nat} {bs : List (Ptr × Nat)} :
    ∀ (results : List (Ptr × CStr)) (mem : Mem),
      Owns base (copies results ++ (array, size) :: bs) mem →
      ∃ mem', freeResults array results mem = some mem' ∧ Owns base bs mem' ∧
        mem'.answers = mem.answers
  | [], mem, O => by
    obtain ⟨m1, e1, O1, a1, -⟩ := O.free
    exact ⟨m1, e1, O1, a1⟩
  | r :: results, mem, O => by
    obtain ⟨m1, e1, O1, a1, -⟩ := O.free
    obtain ⟨m2, e2, O2, a2⟩ := freeResults_spec results m1 O1
    exact ⟨m2, by rw [freeResults, e1, Option.bind_some, e2], O2, a2.trans a1⟩

/-! ## `get_range_skiplist` -/

theorem score_le_of_item_le {a b : Tower S} (h : a.item ≤ b.item) : a.score ≤ b.score := by
  rw [Tower.item, Tower.item, Prod.Lex.toLex_le_toLex] at h
  rcases h with h | h
  · exact h.le
  · exact h.1.le

/-- Below the range, in it, above it. -/
theorem Towers.range_split {sl : CdsaSkiplist S} {H : Tower S} {L : List (Tower S)}
    (T : Towers sl H L) (minScore maxScore : S) :
    ∃ A D, L = A ++ (inRange minScore maxScore L ++ D) ∧ (∀ a ∈ A, a.score < minScore) ∧
      (∀ b ∈ inRange minScore maxScore L ++ D, ¬ b.score < minScore) ∧
      (∀ d ∈ D, ¬ d.score ≤ maxScore) := by
  obtain ⟨A, B, rfl, hA, hB⟩ := exists_split (List.pairwise_map.mp T.sorted)
    (f := fun t => decide (t.score < minScore)) (fun a _ b _ hab hb => by
      simp only [decide_eq_true_eq] at hb ⊢; exact lt_of_le_of_lt (score_le_of_item_le hab) hb)
  have hs := T.sorted
  rw [List.map_append, List.pairwise_append] at hs
  obtain ⟨M, D, rfl, hM, hD⟩ := exists_split (List.pairwise_map.mp hs.2.1)
    (f := fun t => decide (t.score ≤ maxScore)) (fun a _ b _ hab hb => by
      simp only [decide_eq_true_eq] at hb ⊢; exact le_trans (score_le_of_item_le hab) hb)
  simp only [decide_eq_true_eq, decide_eq_false_iff_not] at hA hB hM hD
  have hin : inRange minScore maxScore (A ++ (M ++ D)) = M := by
    rw [inRange, List.filter_append, List.filter_append, List.filter_eq_nil_iff.mpr,
      List.filter_eq_self.mpr, List.filter_eq_nil_iff.mpr]
    · simp
    · intro d hd; simp [lt_of_not_ge (hD d hd)]
    · intro m hm; simp [hM m hm, le_of_not_gt (hB m (List.mem_append_left _ hm))]
    · intro a ha; simp [hA a ha]
  rw [hin]
  exact ⟨A, D, rfl, hA, hB, hD⟩

/-- What follows the towers `A` on level 0. -/
theorem Towers.hangs {sl : CdsaSkiplist S} {H : Tower S} {A B : List (Tower S)}
    (T : Towers sl H (A ++ B)) :
    ∃ current, forwardAt sl.nodes 0 (crumb H A 0).ptr = some current ∧ Hangs sl.nodes current B := by
  have hl := T.links 0 (by decide)
  rw [tall_zero fun t ht => (T.heights t ht).1, List.map_append] at hl
  have hd := hl.drop
  rw [← tall_zero (L := A) fun t ht => (T.heights t (List.mem_append_left _ ht)).1,
    crumb_ptr] at hd
  refine ⟨_, hd.next_eq, rfl,
    fun t ht => T.stands t (List.mem_cons_of_mem _ (List.mem_append_right _ ht)), fun t l' he => ?_⟩
  subst he
  exact hd.2

/-- Where the search of `get_range_skiplist` ends. -/
theorem Towers.range_start {sl : CdsaSkiplist S} {H : Tower S} {A B : List (Tower S)}
    (T : Towers sl H (A ++ B)) {minScore : S} (hA : ∀ a ∈ A, a.score < minScore)
    (hB : ∀ b ∈ B, ¬ b.score < minScore) :
    ∃ r current, Skiplist.descend sl.nodes (fun n => n.score < minScore) (sl.size + 1) sl.level
        sl.header = some r ∧ forwardAt sl.nodes 0 r.1 = some current ∧ Hangs sl.nodes current B := by
  obtain ⟨current, hc, hh⟩ := T.hangs
  exact ⟨_, current, T.descend (fun a ha _ => decide_eq_true (hA a ha))
    (fun b hb _ => decide_eq_false (hB b hb)), hc, hh⟩

/-- `get_range_skiplist` finds nothing, gives up on a failed allocation and
frees what it had, or returns the values in the range. -/
theorem getRangeSkiplist_cases {sl : CdsaSkiplist S} {H : Tower S} {L : List (Tower S)} {mem : Mem}
    {base : UInt64} {bs : List (Ptr × Nat)} (T : Towers sl H L) (O : Owns base bs mem)
    (minScore maxScore : S) (hn : (inRange minScore maxScore L).length ≤ intMax) :
    (∃ mem', getRangeSkiplist sl mem minScore maxScore = some ((none, 0), mem') ∧
      Owns base bs mem' ∧ mem'.answers = mem.answers ∧
      (inRange minScore maxScore L = [] ∨ ¬ mem.NeverFails)) ∨
    ∃ array results mem', getRangeSkiplist sl mem minScore maxScore =
        some ((some (array, results), (inRange minScore maxScore L).length), mem') ∧
      inRange minScore maxScore L ≠ [] ∧
      results.map Prod.snd = (inRange minScore maxScore L).map Tower.value ∧
      Owns base (copies results ++
        (array, (inRange minScore maxScore L).length * 8) :: bs) mem' ∧
      mem'.answers = mem.answers := by
  obtain ⟨A, D, hL, hA, hB, hD⟩ := T.range_split minScore maxScore
  have hsize := T.size
  have hM : ∀ t ∈ inRange minScore maxScore L, t.score ≤ maxScore := fun t ht => by
    simp only [inRange, List.mem_filter, decide_eq_true_eq] at ht; exact ht.2.2
  generalize inRange minScore maxScore L = M at *
  subst hL
  obtain ⟨r, current, hd, hc, hh⟩ := T.range_start hA hB
  have hfuel : M.length < sl.size + 1 := by
    rw [hsize]; simp only [List.length_append]; omega
  have hcount := countRange_spec hD M (sl.size + 1) current 0 hh hM hfuel (Nat.zero_le _)
  rw [Nat.zero_add, if_pos hn] at hcount
  simp only [getRangeSkiplist, hd, Option.bind_some, hc, hcount]
  by_cases h0 : M.length = 0
  · exact Or.inl ⟨mem, by rw [if_pos h0], O, rfl, Or.inl (List.length_eq_zero_iff.mp h0)⟩
  · rw [if_neg h0]
    cases ha : mem.answers mem.asked with
    | false =>
      obtain ⟨m1, e1, O1, a1, -⟩ := O.alloc_fail ha (M.length * 8)
      exact Or.inl ⟨m1, by rw [e1], O1, a1, Or.inr fun h => by simp [h _] at ha⟩
    | true =>
      obtain ⟨m1, e1, O1, a1, -⟩ := O.alloc ha (M.length * 8)
      obtain ⟨ok, results, m2, e2, O2, a2, hfail, hok⟩ := copyRange_spec hD M (sl.size + 1) current [] m1 hh hM hfuel O1
      rw [e1]
      simp only [e2, Option.bind_some]
      cases ok with
      | true =>
        exact Or.inr ⟨mem.asked, results, m2, rfl, fun h => h0 (by rw [h]; rfl),
          by simpa using hok rfl, O2, a2.trans a1⟩
      | false =>
        obtain ⟨m3, e3, O3, a3⟩ := freeResults_spec results m2 O2
        exact Or.inl ⟨m3, by simp only [e3, Option.map_some], O3, by rw [a3, a2, a1],
          Or.inr fun h => hfail rfl fun n => by rw [a1]; exact h n⟩

/-- Too many matches for an `int`. -/
theorem getRangeSkiplist_overflow {sl : CdsaSkiplist S} {H : Tower S} {L : List (Tower S)}
    (T : Towers sl H L) (mem : Mem) (minScore maxScore : S)
    (hn : intMax < (inRange minScore maxScore L).length) :
    getRangeSkiplist sl mem minScore maxScore = none := by
  obtain ⟨A, D, hL, hA, hB, hD⟩ := T.range_split minScore maxScore
  have hsize := T.size
  have hM : ∀ t ∈ inRange minScore maxScore L, t.score ≤ maxScore := fun t ht => by
    simp only [inRange, List.mem_filter, decide_eq_true_eq] at ht; exact ht.2.2
  generalize inRange minScore maxScore L = M at *
  subst hL
  obtain ⟨r, current, hd, hc, hh⟩ := T.range_start hA hB
  have hcount := countRange_spec hD M (sl.size + 1) current 0 hh hM
    (by rw [hsize]; simp only [List.length_append]; omega) (Nat.zero_le _)
  rw [Nat.zero_add, if_neg (Nat.not_le.mpr hn)] at hcount
  simp only [getRangeSkiplist, hd, Option.bind_some, hc, hcount, Option.bind_none]

end Cdsa.Skiplist
