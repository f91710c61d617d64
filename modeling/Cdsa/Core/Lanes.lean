import Cdsa.Core.Chain

/-!
# Express lanes

Lane i of a list links those of its elements that `keep i`; a higher lane keeps
fewer. `lanes` is the search that moves along the topmost lane while a test
holds, drops to the lane below and goes on from there, and notes where it left
each lane. If the test holds of a front part of the list and of nothing after
it, then on each lane it stops at the last element of the front part that the
lane keeps (`lanes_spec`), as a scan of that lane from its start would.
-/
namespace Cdsa.Core

variable {P α : Type}

/-- Where the search over the lanes below its first argument ends, and where it
left lane 0, lane 1, …. -/
def lanes (next : Nat → P → Option (Option P)) (test : P → Option Bool) (fuel : Nat) :
    Nat → P → Option (P × List P)
  | 0, p => some (p, [])
  | i + 1, p =>
    (walk (next i) test fuel p).bind fun q =>
      (lanes next test fuel i q).map fun r => (r.1, r.2 ++ [q])

/-- A list splits where a test that is kept backwards fails. -/
theorem exists_split {r : α → α → Prop} {l : List α} (h : l.Pairwise r) {f : α → Bool}
    (hf : ∀ a ∈ l, ∀ b ∈ l, r a b → f b → f a) :
    ∃ A B, l = A ++ B ∧ (∀ a ∈ A, f a) ∧ ∀ b ∈ B, f b = false := by
  induction l with
  | nil => exact ⟨[], [], rfl, by simp, by simp⟩
  | cons x l ih =>
    rw [List.pairwise_cons] at h
    cases hx : f x with
    | true =>
      obtain ⟨A, B, rfl, hA, hB⟩ := ih h.2 fun a ha b hb =>
        hf a (List.mem_cons_of_mem _ ha) b (List.mem_cons_of_mem _ hb)
      exact ⟨x :: A, B, rfl, List.forall_mem_cons.mpr ⟨hx, hA⟩, hB⟩
    | false =>
      refine ⟨[], x :: l, rfl, by simp, List.forall_mem_cons.mpr ⟨hx, fun b hb => ?_⟩⟩
      by_contra hfb
      have := hf x List.mem_cons_self b (List.mem_cons_of_mem _ hb) (h.1 b hb) (by simpa using hfb)
      rw [hx] at this
      cases this

section
variable {next : Nat → P → Option (Option P)} {test : P → Option Bool} {fuel : Nat} {ptr : α → P}
  {keep : Nat → α → Bool} {A B : List α} {start : α}

/-- One lane, entered at the last element of the front part that some higher lane
keeps. -/
theorem lane_walk (hA : ∀ x ∈ A, test (ptr x) = some true) (hB : ∀ x ∈ B, test (ptr x) = some false)
    (hf : A.length < fuel) {i : Nat}
    (hl : Links (next i) (ptr start) (((A ++ B).filter (keep i)).map ptr)) {f : α → Bool}
    (hkeep : ∀ x, f x → keep i x) :
    walk (next i) test fuel (ptr ((A.filter f).getLastD start)) =
      some (ptr ((A.filter (keep i)).getLastD start)) := by
  obtain ⟨X, Y, hXY, hlast⟩ := getLastD_filter_split A start hkeep
  have hY : ∀ y ∈ Y, y ∈ A := fun y hy =>
    (List.mem_filter.mp (hXY ▸ List.mem_append_right X hy)).1
  have hlast' : (A.filter (keep i)).getLastD start = Y.getLastD (X.getLastD start) := by
    rw [hXY, getLastD_append]
  rw [List.filter_append, hXY, List.append_assoc, List.map_append, List.map_append] at hl
  have hdrop := hl.drop
  rw [List.getLastD_map, ← hlast] at hdrop
  rw [hlast', ← hlast, ← List.getLastD_map (f := ptr) (l := Y)]
  refine walk_spec hdrop (fun q hq => ?_) (fun q hq => ?_) ?_
  · obtain ⟨y, hy, rfl⟩ := List.mem_map.mp hq
    exact hA y (hY y hy)
  · obtain ⟨b, hb, rfl⟩ := List.mem_map.mp (List.mem_of_mem_head? hq)
    exact hB b (List.mem_filter.mp hb).1
  · have h1 : Y.length ≤ (A.filter (keep i)).length := by
      rw [hXY, List.length_append]; omega
    have h2 : (A.filter (keep i)).length ≤ A.length := List.length_filter_le ..
    rw [List.length_map]; omega

variable (next test fuel ptr keep start) in
/-- Every lane is left at the last element of the front part that it keeps. -/
theorem lanes_spec (hkeep : ∀ i x, keep (i + 1) x → keep i x)
    (hA : ∀ x ∈ A, test (ptr x) = some true) (hB : ∀ x ∈ B, test (ptr x) = some false)
    (hf : A.length < fuel) : ∀ n,
      (∀ i, i ≤ n → Links (next i) (ptr start) (((A ++ B).filter (keep i)).map ptr)) →
      ∀ f : α → Bool, (∀ x, f x → keep n x) →
        lanes next test fuel (n + 1) (ptr ((A.filter f).getLastD start)) =
          some (ptr ((A.filter (keep 0)).getLastD start),
            (List.range (n + 1)).map fun i => ptr ((A.filter (keep i)).getLastD start)) := by
  intro n
  induction n with
  | zero =>
    intro hl f hfk
    rw [lanes, lane_walk hA hB hf (hl 0 (Nat.le_refl _)) hfk]
    rfl
  | succ n ih =>
    intro hl f hfk
    rw [lanes, lane_walk hA hB hf (hl (n + 1) (Nat.le_refl _)) hfk, Option.bind_some,
      ih (fun i hi => hl i (Nat.le_succ_of_le hi)) _ (hkeep n), Option.map_some,
      List.range_succ (n := n + 1), List.map_append]
    rfl

end

end Cdsa.Core
