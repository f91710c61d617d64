import Cdsa.L2Skiplist.Runs

/-!
# The levels of a reachable skip list

`chain sl i` reads off the nodes on level i by following `forward[i]` from the
header, and `Consistent sl` says how these chains, the heights of the nodes and
`sl->level` fit together. Whatever the coins, and whichever allocations fail,
every list that a run reaches is consistent (`reachable_consistent`). Reading
or writing `forward[i]` past the end of a node's array is undefined in the
model, so the operations that return never do so.
-/
namespace Cdsa.Skiplist

open Cdsa.Core Cdsa.Memory

variable {S : Type}

/-- The nodes on level `i`, in order. -/
def chain (sl : CdsaSkiplist S) (i : Nat) : Option (List Ptr) :=
  trace (forwardAt sl.nodes i) sl.size sl.header

/-- `p->level` -/
def heightAt (sl : CdsaSkiplist S) (p : Ptr) : Nat := (sl.nodes p).elim 0 SkipNode.level

structure Consistent (sl : CdsaSkiplist S) (ps : List Ptr) : Prop where
  /-- the nodes of the list, in order -/
  nodes : chain sl 0 = some ps
  /-- level i is the nodes taller than i -/
  levels : ∀ i, i < SKIPLIST_MAX_LEVEL → chain sl i = some (ps.filter fun p => i < heightAt sl p)
  /-- an array has the length of its node's height -/
  arrays : ∀ p ∈ sl.header :: ps, ∃ n, sl.nodes p = some n ∧ n.forward.length = n.level
  /-- no height is 0 or above the header's -/
  heights : ∀ p ∈ ps, 1 ≤ heightAt sl p ∧ heightAt sl p ≤ SKIPLIST_MAX_LEVEL
  /-- above the level of the list there is nothing -/
  header : heightAt sl sl.header = SKIPLIST_MAX_LEVEL ∧
    ∀ i, sl.level ≤ i → i < SKIPLIST_MAX_LEVEL → forwardAt sl.nodes i sl.header = some none
  /-- the level of the list is the greatest height, or 1 -/
  level : sl.level = (ps.map (heightAt sl)).foldr max 1

theorem Tower.Stands.heightAt {sl : CdsaSkiplist S} {t : Tower S} (h : t.Stands sl.nodes) :
    heightAt sl t.ptr = t.level := by
  obtain ⟨forward, hn, -⟩ := h
  rw [Skiplist.heightAt, hn]; rfl

theorem foldr_max_le {l : List Nat} {m : Nat} (h1 : 1 ≤ m) (hle : ∀ h ∈ l, h ≤ m) :
    l.foldr max 1 ≤ m := by
  induction l with
  | nil => exact h1
  | cons h l ih =>
    exact Nat.max_le.mpr ⟨hle h List.mem_cons_self, ih fun k hk => hle k (List.mem_cons_of_mem _ hk)⟩

theorem one_le_foldr_max (l : List Nat) : 1 ≤ l.foldr max 1 := by
  induction l with
  | nil => exact Nat.le_refl 1
  | cons h l ih => exact ih.trans (Nat.le_max_right ..)

theorem le_foldr_max {l : List Nat} {h : Nat} (hm : h ∈ l) : h ≤ l.foldr max 1 := by
  induction l with
  | nil => simp at hm
  | cons k l ih =>
    rcases List.mem_cons.mp hm with rfl | hm
    · exact Nat.le_max_left ..
    · exact (ih hm).trans (Nat.le_max_right ..)

variable [LinearOrder S]

theorem Towers.chain_eq {sl : CdsaSkiplist S} {H : Tower S} {L : List (Tower S)}
    (T : Towers sl H L) {i : Nat} (hi : i < SKIPLIST_MAX_LEVEL) :
    chain sl i = some ((tall i L).map Tower.ptr) := by
  rw [chain, ← T.header]
  refine (T.links i hi).trace_eq ?_
  rw [List.length_map, T.size]
  exact List.length_filter_le ..

/-- All nodes are on the lowest level. -/
theorem Towers.chain_zero {sl : CdsaSkiplist S} {H : Tower S} {L : List (Tower S)}
    (T : Towers sl H L) : chain sl 0 = some (L.map Tower.ptr) := by
  rw [T.chain_eq (by decide), tall_zero fun t ht => (T.heights t ht).1]

theorem Towers.heightAt {sl : CdsaSkiplist S} {H t : Tower S} {L : List (Tower S)}
    (T : Towers sl H L) (ht : t ∈ H :: L) : heightAt sl t.ptr = t.level := (T.stands t ht).heightAt

theorem Towers.tall_ptr {sl : CdsaSkiplist S} {H : Tower S} {L : List (Tower S)}
    (T : Towers sl H L) (i : Nat) :
    (tall i L).map Tower.ptr = (L.map Tower.ptr).filter fun p => i < Skiplist.heightAt sl p := by
  rw [tall, List.filter_map]
  congr 1
  refine List.filter_congr fun t ht => ?_
  simp only [Function.comp_apply, T.heightAt (List.mem_cons_of_mem _ ht)]

theorem Towers.level_eq {sl : CdsaSkiplist S} {H : Tower S} {L : List (Tower S)}
    (T : Towers sl H L) : sl.level = (L.map Tower.level).foldr max 1 := by
  refine Nat.le_antisymm ?_ (foldr_max_le T.top.1 fun h hh => ?_)
  · rcases T.top.2 with h1 | hne
    · rw [h1]; exact one_le_foldr_max _
    · -- a tower on the topmost level is as high as the list
      obtain ⟨t, ht⟩ := List.exists_mem_of_ne_nil _ hne
      obtain ⟨ht, hlt⟩ := mem_tall.mp ht
      have := le_foldr_max (List.mem_map_of_mem (f := Tower.level) ht)
      omega
  · obtain ⟨t, ht, rfl⟩ := List.mem_map.mp hh
    exact (T.heights t ht).2

theorem Towers.consistent {sl : CdsaSkiplist S} {H : Tower S} {L : List (Tower S)}
    (T : Towers sl H L) : Consistent sl (L.map Tower.ptr) where
  nodes := T.chain_zero
  levels i hi := by rw [T.chain_eq hi, T.tall_ptr]
  arrays p hp := by
    rw [← T.header, ← List.map_cons] at hp
    obtain ⟨t, ht, rfl⟩ := List.mem_map.mp hp
    obtain ⟨forward, hn, hl⟩ := T.stands t ht
    exact ⟨_, hn, hl⟩
  heights p hp := by
    obtain ⟨t, ht, rfl⟩ := List.mem_map.mp hp
    rw [T.heightAt (List.mem_cons_of_mem _ ht)]
    exact ⟨(T.heights t ht).1, (T.heights t ht).2.trans T.level_le⟩
  header := by
    refine ⟨by rw [← T.header, T.heightAt List.mem_cons_self, T.full], fun i hl hi => ?_⟩
    have := (T.links i hi).next_eq
    rwa [T.header, tall_eq_nil fun t ht => (T.heights t ht).2.trans hl] at this
  level := by
    rw [T.level_eq, List.map_map]
    congr 1
    exact List.map_congr_left fun t ht => (T.heightAt (List.mem_cons_of_mem _ ht)).symm

/-! ## Runs -/

/-- Some towers account for the list and for its memory. -/
def Kept (w : CdsaSkiplist S × Mem) : Prop :=
  ∃ H L base rest, Towers w.1 H L ∧ Owns base (owned w.1.self H L ++ rest) w.2

theorem Kept.insert {w : CdsaSkiplist S × Mem} (K : Kept w) (s : S) (v : CStr)
    (coins : Nat → Bool) : ∃ r w', insertSkiplist w.1 w.2 s v coins = some (r, w') ∧ Kept w' := by
  obtain ⟨H, L, base, rest, T, O⟩ := K
  rcases insertSkiplist_cases T O s v coins with ⟨mem', he, O', -, -⟩ |
    ⟨A, B, N, sl', mem', -, he, T', O', -, -, -⟩
  · exact ⟨_, (w.1, mem'), he, H, L, base, rest, T, O'⟩
  · exact ⟨_, (sl', mem'), he, H, A ++ N :: B, base, rest, T', O'⟩

theorem Kept.remove {w : CdsaSkiplist S × Mem} (K : Kept w) (s : S) (v : CStr) :
    ∃ r w', removeSkiplist w.1 w.2 s v = some (r, w') ∧ Kept w' := by
  obtain ⟨H, L, base, rest, T, O⟩ := K
  rcases removeSkiplist_cases T O s v with ⟨-, he⟩ | ⟨A, B, N, sl', mem', -, -, he, T', O', -⟩
  · exact ⟨_, w, he, H, L, base, rest, T, O⟩
  · exact ⟨_, (sl', mem'), he, H, A ++ B, base, rest, T', O'⟩

/-- The number of pairs in a range. -/
def countIn (l : List (S ×ₗ CStr)) (minScore maxScore : S) : Nat :=
  l.countP fun x => minScore ≤ (ofLex x).1 ∧ (ofLex x).1 ≤ maxScore

theorem countIn_items (L : List (Tower S)) (minScore maxScore : S) :
    countIn (L.map Tower.item) minScore maxScore = (inRange minScore maxScore L).length := by
  rw [countIn, List.countP_map, List.countP_eq_length_filter]
  rfl

/-- Unless it counts more than an `int` holds, a query returns. -/
theorem Kept.getRange {w : CdsaSkiplist S × Mem} (K : Kept w) (lo hi : S) :
    (∃ r mem', getRangeSkiplist w.1 w.2 lo hi = some (r, mem') ∧ Kept (w.1, mem')) ∨
      getRangeSkiplist w.1 w.2 lo hi = none ∧
        ∃ l, contents w.1 = some l ∧ intMax < countIn l lo hi := by
  obtain ⟨H, L, base, rest, T, O⟩ := K
  by_cases hn : (inRange lo hi L).length ≤ intMax
  · rcases getRangeSkiplist_cases T O lo hi hn with ⟨mem', he, O', -, -⟩ |
      ⟨array, results, mem', he, -, -, O', -⟩
    · exact Or.inl ⟨_, mem', he, H, L, base, rest, T, O'⟩
    · refine Or.inl ⟨_, mem', he, H, L, base, rest ++ (copies results ++
        [(array, (inRange lo hi L).length * 8)]), T, O'.of_perm ?_⟩
      rw [← List.append_assoc (owned w.1.self H L), List.append_cons]
      exact List.perm_append_comm
  · have hn := Nat.not_le.mp hn
    exact Or.inr ⟨getRangeSkiplist_overflow T w.2 lo hi hn, _, T.contents_eq, by
      rw [countIn_items]; exact hn⟩

theorem Kept.step {w w' : CdsaSkiplist S × Mem} {op : Op S} {o : Out} (K : Kept w)
    (h : Skiplist.step w op = some (o, w')) : Kept w' := by
  cases op with
  | insert s v coins =>
    obtain ⟨r, w1, he, K'⟩ := K.insert s v coins
    simp only [Skiplist.step, he, Option.map_some] at h
    cases h; exact K'
  | remove s v =>
    obtain ⟨r, w1, he, K'⟩ := K.remove s v
    simp only [Skiplist.step, he, Option.map_some] at h
    cases h; exact K'
  | getRange lo hi =>
    rcases K.getRange lo hi with ⟨r, mem', he, K'⟩ | ⟨he, -⟩
    · simp only [Skiplist.step, he, Option.map_some] at h
      cases h; exact K'
    · simp [Skiplist.step, he] at h
  | size => cases h; exact K

theorem cdsaCreateSkiplist_kept {base : UInt64} {bs : List (Ptr × Nat)} {mem mem' : Mem}
    (O : Owns base bs mem) (zero : S) {sl : CdsaSkiplist S}
    (h : cdsaCreateSkiplist zero mem = some (some sl, mem')) : Kept (sl, mem') := by
  cases ha : mem.answers mem.asked with
  | false => simp [cdsaCreateSkiplist, cdsaMallocTrack_fail ha] at h
  | true =>
    obtain ⟨m1, e1, O1, -, -⟩ := O.alloc ha 32
    rcases cdsaCreateNode_spec O1 SKIPLIST_MAX_LEVEL zero ⟨[], by simp⟩ with ⟨m2, e2, -, -, -⟩ |
      ⟨H, m2, e2, O2, -, -, hl, -⟩
    · simp [cdsaCreateSkiplist, e1, e2] at h
    · simp only [cdsaCreateSkiplist, e1, e2, Option.bind_some] at h
      cases h
      refine ⟨H, [], base, bs, emptyList_towers _ hl, O2.of_perm (List.Perm.of_eq ?_)⟩
      rw [owned, List.flatMap_nil, List.nil_append, List.append_assoc]; rfl

/-- Every list that a run reaches is consistent, and from there no operation
reads or writes an array past its end. -/
theorem reachable_consistent (zero : S) (base : UInt64) (bs : List (Ptr × Nat)) (mem : Mem)
    (O : Owns base bs mem) (sl : CdsaSkiplist S) (mem' : Mem)
    (hc : cdsaCreateSkiplist zero mem = some (some sl, mem')) (ops : List (Op S)) (outs : List Out)
    (w : CdsaSkiplist S × Mem) (hr : runOps Skiplist.step (sl, mem') ops = some (outs, w)) :
    (∃ ps, Consistent w.1 ps) ∧
      (∀ s v coins, ∃ r, insertSkiplist w.1 w.2 s v coins = some r) ∧
      (∀ s v, ∃ r, removeSkiplist w.1 w.2 s v = some r) ∧
      ∀ lo hi, (∃ r, getRangeSkiplist w.1 w.2 lo hi = some r) ∨
        ∃ l, contents w.1 = some l ∧ intMax < countIn l lo hi := by
  have K : Kept w := runOps_inv (P := fun _ _ => True) (fun _ _ _ _ K _ h => K.step h) ops _ _ _
    (cdsaCreateSkiplist_kept O zero hc) (RunMeets.of_forall fun _ _ => trivial) hr
  refine ⟨?_, fun s v coins => ?_, fun s v => ?_, fun lo hi => ?_⟩
  · obtain ⟨H, L, base, rest, T, -⟩ := K
    exact ⟨_, T.consistent⟩
  · obtain ⟨r, w', he, -⟩ := K.insert s v coins
    exact ⟨_, he⟩
  · obtain ⟨r, w', he, -⟩ := K.remove s v
    exact ⟨_, he⟩
  · exact (K.getRange lo hi).imp (fun ⟨r, m, he, _⟩ => ⟨_, he⟩) fun h => h.2

/-- A tower of height 2 over one of height 1, then removed again. -/
theorem reachable_consistent_two : ∃ (sl : CdsaSkiplist Nat) (mem : Mem) (outs : List Out)
    (w : CdsaSkiplist Nat × Mem), cdsaCreateSkiplist 0 ⟨0, [], 0, fun _ => true⟩ =
      some (some sl, mem) ∧
    runOps Skiplist.step (sl, mem) [.insert 1 ⟨[97], by decide⟩ (fun l => l == 1),
      .insert 1 ⟨[98], by decide⟩ (fun _ => false), .remove 1 ⟨[97], by decide⟩] =
      some (outs, w) ∧ ∃ ps, Consistent w.1 ps := by
  have O : Owns 0 [] (⟨0, [], 0, fun _ => true⟩ : Mem) := ⟨.nil, by simp, by simp, rfl⟩
  obtain ⟨sl, mem', hc, R0⟩ := cdsaCreateSkiplist_spec O (fun _ => rfl) 0
  obtain ⟨w, hw, -⟩ := refine_run_spec (R := Refines) (P := CountOk)
    (fun w M op R hc => R.step op hc)
    [.insert 1 ⟨[97], by decide⟩ (fun l => l == 1), .insert 1 ⟨[98], by decide⟩ (fun _ => false),
      .remove 1 ⟨[97], by decide⟩] _ _ R0 ⟨trivial, trivial, trivial, trivial⟩
  exact ⟨sl, mem', _, w, hc, hw, (reachable_consistent 0 0 [] _ O sl mem' hc _ _ w hw).1⟩

end Cdsa.Skiplist
