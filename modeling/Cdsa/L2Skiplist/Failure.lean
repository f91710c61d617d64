import Cdsa.L2Skiplist.Levels

/-!
# Failing allocations in a skip list

An insertion asks `malloc` three times, a range query with `n` matches `n + 1`
times. If any of these requests is refused, the operation says so, the list is
as it was, its raised level put back, and what had been allocated before is
freed again (`failure_changes_nothing`). Freeing a block that is not live is
undefined, so no block is freed twice.
-/
namespace Cdsa.Skiplist

open Cdsa.Core Cdsa.Memory

variable {S : Type}

/-- A node is made of three allocations. -/
theorem cdsaCreateNode_granted {mem mem' : Mem} {level : Nat} {score : S} {value : CStr}
    {r : Ptr × SkipNode S} (h : cdsaCreateNode mem level score value = some (some r, mem')) :
    ¬ mem.Refuses 3 := by
  unfold cdsaCreateNode safeStrdup cdsaCallocTrack at h
  rcases h1 : cdsaMallocTrack mem 32 with ⟨_ | node, m1⟩
  · simp [h1] at h
  rcases h2 : cdsaMallocTrack m1 (value.strlen + 1) with ⟨_ | valuePtr, m2⟩
  · simp [h1, h2] at h
  rcases h3 : cdsaMallocTrack m2 (level * 8 % 2 ^ 64) with ⟨_ | forwardPtr, m3⟩
  · simp only [h1, h2, h3] at h
    obtain ⟨m4, -, h⟩ := Option.bind_eq_some_iff.mp h
    obtain ⟨m5, -, h⟩ := Option.map_eq_some_iff.mp h
    cases h
  exact Mem.not_refuses_succ h1 (Mem.not_refuses_succ h2 (Mem.not_refuses_succ h3 m3.not_refuses_zero))

variable [LinearOrder S]

theorem insertSkiplist_granted {sl sl' : CdsaSkiplist S} {mem mem' : Mem} {s : S} {v : CStr}
    {coins : Nat → Bool} (h : insertSkiplist sl mem s v coins = some (.ok, sl', mem')) :
    ¬ mem.Refuses 3 := by
  obtain ⟨r, -, h⟩ := Option.bind_eq_some_iff.mp h
  obtain ⟨⟨o, m1⟩, hn, h⟩ := Option.bind_eq_some_iff.mp h
  cases o with
  | none => cases h
  | some node => exact cdsaCreateNode_granted hn

/-- Every string copied is one request. -/
theorem copyRange_granted {nodes : Ptr → Option (SkipNode S)} {maxScore : S} :
    ∀ {fuel : Nat} {current : Option Ptr} {results results' : List (Ptr × CStr)} {mem mem' : Mem},
      copyRange nodes maxScore fuel current results mem = some (true, results', mem') →
      ∃ n, results'.length = results.length + n ∧ ¬ mem.Refuses n := by
  intro fuel
  induction fuel with
  | zero => intro current results results' mem mem' h; cases h
  | succ fuel ih =>
    intro current results results' mem mem' h
    have hstop : ∃ n, results.length = results.length + n ∧ ¬ mem.Refuses n :=
      ⟨0, rfl, mem.not_refuses_zero⟩
    cases current with
    | none => cases h; exact hstop
    | some p =>
      unfold copyRange at h
      obtain ⟨n, -, h⟩ := Option.bind_eq_some_iff.mp h
      split at h
      · rcases hd : safeStrdup mem n.value with ⟨_ | q, m1⟩
        · rw [hd] at h
          cases h
        · simp only [hd] at h
          obtain ⟨next, -, h⟩ := Option.bind_eq_some_iff.mp h
          obtain ⟨k, hlen, hk⟩ := ih h
          exact ⟨k + 1, by rw [hlen]; simp; omega, Mem.not_refuses_succ hd hk⟩
      · cases h
        exact hstop

/-- The array, and a copy for each match. -/
theorem getRangeSkiplist_granted {sl : CdsaSkiplist S} {mem mem' : Mem} {lo hi : S} {array : Ptr}
    {results : List (Ptr × CStr)} {count : Nat}
    (h : getRangeSkiplist sl mem lo hi = some ((some (array, results), count), mem')) :
    ¬ mem.Refuses (results.length + 1) := by
  obtain ⟨r, -, h⟩ := Option.bind_eq_some_iff.mp h
  obtain ⟨current, -, h⟩ := Option.bind_eq_some_iff.mp h
  obtain ⟨n, -, h⟩ := Option.bind_eq_some_iff.mp h
  split at h
  · cases h
  · rcases ha : cdsaMallocTrack mem (n * 8) with ⟨_ | a, m1⟩
    · rw [ha] at h
      cases h
    · simp only [ha] at h
      obtain ⟨⟨ok, copied, m2⟩, hc, h⟩ := Option.bind_eq_some_iff.mp h
      cases ok with
      | false =>
        obtain ⟨m3, -, h⟩ := Option.map_eq_some_iff.mp h
        cases h
      | true =>
        cases h
        obtain ⟨k, hlen, hk⟩ := copyRange_granted hc
        rw [List.length_nil, Nat.zero_add] at hlen
        rw [hlen]
        exact Mem.not_refuses_succ ha hk

/-- On every list that a run reaches: an insertion one of whose requests is refused
leaves the list and the live blocks as they were, and so does a range query, which
finds `n` matches and is refused the array or the copy of one of them. Above
`intMax` matches the count, an `int`, overflows before anything is asked for. -/
theorem failure_changes_nothing (zero : S) (base : UInt64) (bs : List (Ptr × Nat)) (mem : Mem)
    (O : Owns base bs mem) (sl : CdsaSkiplist S) (mem0 : Mem)
    (hc : cdsaCreateSkiplist zero mem = some (some sl, mem0)) (ops : List (Op S)) (outs : List Out)
    (w : CdsaSkiplist S × Mem) (hr : runOps Skiplist.step (sl, mem0) ops = some (outs, w)) :
    (∀ s v coins, w.2.Refuses 3 → ∃ mem', insertSkiplist w.1 w.2 s v coins =
      some (.errOom, w.1, mem') ∧ mem'.used = w.2.used ∧ mem'.blocks.Perm w.2.blocks) ∧
    ∀ lo hi l, contents w.1 = some l → 0 < countIn l lo hi → countIn l lo hi ≤ intMax →
      w.2.Refuses (countIn l lo hi + 1) → ∃ mem', getRangeSkiplist w.1 w.2 lo hi =
        some ((none, 0), mem') ∧ mem'.used = w.2.used ∧ mem'.blocks.Perm w.2.blocks := by
  have K : Kept w := runOps_inv (P := fun _ _ => True) (fun _ _ _ _ K _ h => K.step h) ops _ _ _
    (cdsaCreateSkiplist_kept O zero hc) (RunMeets.of_forall fun _ _ => trivial) hr
  obtain ⟨H, L, base, rest, T, O⟩ := K
  refine ⟨fun s v coins hrefuses => ?_, fun lo hi l hl _ hint hrefuses => ?_⟩
  · rcases insertSkiplist_cases T O s v coins with ⟨mem', he, O', -, -⟩ |
      ⟨A, B, N, sl', mem', -, he, -, -, -, -, -⟩
    · exact ⟨mem', he, O.same O'⟩
    · exact absurd hrefuses (insertSkiplist_granted he)
  · rw [T.contents_eq, Option.some.injEq] at hl
    rw [← hl, countIn_items] at hint hrefuses
    rcases getRangeSkiplist_cases T O lo hi hint with ⟨mem', he, O', -, -⟩ |
      ⟨array, results, mem', he, -, hvalues, -, -⟩
    · exact ⟨mem', he, O.same O'⟩
    · have hlen := congrArg List.length hvalues
      rw [List.length_map, List.length_map] at hlen
      rw [← hlen] at hrefuses
      exact absurd hrefuses (getRangeSkiplist_granted he)

/-- One pair in the list, and the next request but one refused. -/
theorem failure_changes_nothing_copy : ∃ (sl : CdsaSkiplist Nat) (mem0 : Mem) (outs : List Out)
    (w : CdsaSkiplist Nat × Mem) (mem1 mem2 : Mem),
    cdsaCreateSkiplist 0 ⟨7, [], 0, fun n => n ≠ 8⟩ = some (some sl, mem0) ∧
    runOps Skiplist.step (sl, mem0) [.insert 1 ⟨[97], by decide⟩ (fun l => l == 1)] = some (outs, w) ∧
    insertSkiplist w.1 w.2 2 ⟨[98], by decide⟩ (fun _ => true) = some (.errOom, w.1, mem1) ∧
    getRangeSkiplist w.1 w.2 1 1 = some ((none, 0), mem2) ∧ mem2.blocks.Perm w.2.blocks := by
  have hrun : ((cdsaCreateSkiplist 0 ⟨7, [], 0, fun n => n ≠ 8⟩).bind fun r => r.1.bind fun sl =>
      (runOps Skiplist.step (sl, r.2) [.insert 1 ⟨[97], by decide⟩ (fun l => l == 1)]).map fun q =>
        (q.2.2.answers (q.2.2.asked + 1), (contents q.2.1).map fun l => countIn l 1 1)) =
      some (false, some 1) := by
    decide +kernel
  obtain ⟨⟨o, mem0⟩, hc, h⟩ := Option.bind_eq_some_iff.mp hrun
  obtain ⟨sl, rfl, h⟩ := Option.bind_eq_some_iff.mp h
  obtain ⟨⟨outs, w⟩, hr, h⟩ := Option.map_eq_some_iff.mp h
  simp only [Prod.mk.injEq, Option.map_eq_some_iff] at h
  obtain ⟨hrefused, l, hl, hcount⟩ := h
  obtain ⟨hinsert, hquery⟩ := failure_changes_nothing 0 7 [] ⟨7, [], 0, fun n => n ≠ 8⟩
    ⟨.nil, by simp, by simp, rfl⟩ sl mem0 hc _ outs w hr
  obtain ⟨mem1, hi, -⟩ := hinsert 2 ⟨[98], by decide⟩ (fun _ => true) ⟨1, by decide, hrefused⟩
  obtain ⟨mem2, hq, -, hperm⟩ := hquery 1 1 l hl (by omega) (by rw [hcount]; decide)
    ⟨1, by omega, hrefused⟩
  exact ⟨sl, mem0, outs, w, mem1, mem2, hc, hr, hi, hq, hperm⟩

end Cdsa.Skiplist
