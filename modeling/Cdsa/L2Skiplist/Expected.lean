import Cdsa.Core.LaneCost
import Cdsa.L2Skiplist.Coins
import Cdsa.L2Skiplist.Placed

/-!
# What the coins buy

The coins of a run are drawn at random, 15 fair ones for each operation, of
which only an insertion flips any. The answers do not depend on them; how far a
search has to go does. On the 15 lower lanes a search moves forward once at most
on average, and on the topmost one it meets each node with probability 2^-15: on
a list of n nodes that makes 15 + n / 2^15 moves (`expected_moves`). Sixteen
levels are enough for some 2^16 nodes, and beyond that the topmost lane is an
ordinary linked list. A node has 2 - 2^-15 forward pointers on average, and the
list reaches past level k with probability n / 2^k at most (`expected_heights`).

The average is over the coins of the run, the operations being fixed before: they
do not react to heights they have seen.
-/
namespace Cdsa.Skiplist

open Cdsa.Core Cdsa.Memory

variable {S : Type}

/-! ## The moves of a search -/

/-- `descend`, and how often it has moved forward. -/
def descendMoves (nodes : Ptr → Option (SkipNode S)) (test : SkipNode S → Bool) (fuel : Nat) :
    Nat → Ptr → Option (Ptr × Nat) :=
  lanesMoves (forwardAt nodes) (fun q => (nodes q).map test) fuel

theorem descendMoves_fst (nodes : Ptr → Option (SkipNode S)) (test : SkipNode S → Bool)
    (fuel n : Nat) (p : Ptr) :
    (descendMoves nodes test fuel n p).map Prod.fst = (descend nodes test fuel n p).map Prod.fst := by
  rw [descend_eq_lanes]
  exact lanesMoves_fst ..

variable [LinearOrder S]

/-- The searches of `insert_skiplist` and `remove_skiplist`, and that of
`get_range_skiplist`. -/
inductive Target (S : Type) where
  | item (score : S) (value : CStr)
  | atLeast (minScore : S)

def Target.test : Target S → SkipNode S → Bool
  | .item score value => before score value
  | .atLeast minScore => fun n => n.score < minScore

def Target.passes : Target S → S ×ₗ CStr → Bool
  | .item score value => fun x => x < toLex (score, value)
  | .atLeast minScore => fun x => (ofLex x).1 < minScore

theorem Target.test_node (target : Target S) (t : Tower S) (forward : List (Option Ptr)) :
    target.test (t.node forward) = target.passes t.item := by
  cases target with
  | item score value => exact before_node score value t forward
  | atLeast minScore => rfl

theorem Target.passes_down (target : Target S) {x y : S ×ₗ CStr} (hle : x ≤ y)
    (hy : target.passes y = true) : target.passes x = true := by
  cases target with
  | item score value =>
    simp only [Target.passes, decide_eq_true_eq] at hy ⊢
    exact lt_of_le_of_lt hle hy
  | atLeast minScore =>
    simp only [Target.passes, decide_eq_true_eq] at hy ⊢
    rw [Prod.Lex.le_iff] at hle
    rcases hle with hlt | heq
    · exact lt_trans hlt hy
    · exact heq.1 ▸ hy

/-- How often the search for the target moves forward. -/
def searchMoves (sl : CdsaSkiplist S) (target : Target S) : Option Nat :=
  (descendMoves sl.nodes target.test (sl.size + 1) sl.level sl.header).map Prod.snd

/-- What a search passes whose way leads past nodes of these heights: on each lane
those since the last one of the lane above. -/
def passing (heights : List Nat) : Nat :=
  ∑ i ∈ Finset.range 16, streak (fun h => decide (i < h)) (fun h => decide (i + 1 < h)) heights

section
variable {sl : CdsaSkiplist S} {H : Tower S} {A B : List (Tower S)}

/-- Above `sl->level` there is nothing to pass. -/
theorem Towers.searchMoves (T : Towers sl H (A ++ B)) (target : Target S)
    (hA : ∀ a ∈ A, target.passes a.item = true) (hB : ∀ b ∈ B, target.passes b.item = false) :
    searchMoves sl target = some (passing (A.map Tower.level)) := by
  have htest : ∀ t ∈ A ++ B, (sl.nodes t.ptr).map target.test = some (target.passes t.item) := by
    intro t ht
    obtain ⟨forward, h, -⟩ := T.stands t (List.mem_cons_of_mem _ ht)
    rw [h, Option.map_some, target.test_node]
  have hlow : ∀ a ∈ A, a.level ≤ sl.level := fun a ha =>
    (T.heights a (List.mem_append_left B ha)).2
  have hmoves := lanesMoves_spec (forwardAt sl.nodes) (fun q => (sl.nodes q).map target.test)
    (sl.size + 1) Tower.ptr (fun i t => decide (i < t.level)) H (A := A) (B := B)
    (fun i t => by simp only [decide_eq_true_eq]; omega)
    (fun a ha => by rw [htest a (List.mem_append_left B ha), hA a ha])
    (fun b hb => by rw [htest b (List.mem_append_right A hb), hB b hb])
    (by rw [T.size, List.length_append]; omega) sl.level
    fun i hi => T.links i (Nat.lt_of_lt_of_le hi T.level_le)
  have hentry : (A.filter fun t => decide (sl.level < t.level)) = [] :=
    List.filter_eq_nil_iff.mpr fun a ha => by simpa using hlow a ha
  rw [hentry, List.getLastD_nil, T.header] at hmoves
  obtain ⟨p, hp⟩ := hmoves
  have hlanes : passing (A.map Tower.level) = ∑ i ∈ Finset.range sl.level,
      streak (fun t => decide (i < t.level)) (fun t => decide (i + 1 < t.level)) A := by
    have hsub : Finset.range sl.level ⊆ Finset.range 16 :=
      Finset.range_subset_range.mpr T.level_le
    rw [passing, ← Finset.sum_subset hsub]
    · apply Finset.sum_congr rfl
      intro i _
      rw [streak_map]
    · intro i _ hi
      apply streak_zero
      intro h hh
      obtain ⟨a, ha, rfl⟩ := List.mem_map.mp hh
      have hle := hlow a ha
      rw [Finset.mem_range] at hi
      apply decide_eq_false
      omega
  rw [Skiplist.searchMoves, descendMoves, hp, hlanes]
  rfl

theorem Standing.searchMoves {ι : Type} {coins : ι → Nat → Bool} {placed : List (ι × (S ×ₗ CStr))}
    (P : Standing coins sl placed) (target : Target S) :
    Skiplist.searchMoves sl target = some (passing
      (((placed.filter fun q => target.passes q.2).map Prod.fst).map fun j =>
        randomLevel (coins j))) := by
  obtain ⟨H, L, T, hL⟩ := P
  obtain ⟨A, B, rfl, hA, hB⟩ := exists_split (List.pairwise_map.mp T.sorted)
    (f := fun t => target.passes t.item) fun a _ b _ hle hb => target.passes_down hle hb
  have hfront := front_stature (p := target.passes) hL hA hB
  have hlevels : A.map Tower.level = ((placed.filter fun q => target.passes q.2).map Prod.fst).map
      fun j => randomLevel (coins j) := by
    have hsnd := congrArg (List.map Prod.snd) hfront
    rw [List.map_map, List.map_map] at hsnd
    rw [List.map_map]
    exact hsnd
  rw [T.searchMoves target hA hB, hlevels]

end

/-! ## The coins of a run -/

/-- The run, each operation with the coins drawn for it. -/
def tossed (ops : List (Op S)) (draws : Fin ops.length → Fin 15 → Bool) : List (Op S) :=
  (List.finRange ops.length).map fun i => (ops.get i).tossed (flips (draws i))

/-- What a run answers and where its nodes stand is settled before the coins are
drawn. -/
theorem tossed_run {w0 : CdsaSkiplist S × Mem} (R0 : Refines w0 0) (ops : List (Op S))
    (hc : SpecMeets astep CountOk 0 ops) :
    ∃ placed : List (Fin ops.length × (S ×ₗ CStr)), (placed.map Prod.fst).Nodup ∧
      placed.length = (specRun astep 0 ops).2.card ∧
      ∀ draws, ∃ w, runOps Skiplist.step w0 (tossed ops draws) = some ((specRun astep 0 ops).1, w) ∧
        Refines w (specRun astep 0 ops).2 ∧ Standing (fun i => flips (draws i)) w.1 placed := by
  have hempty : ∀ coins : Fin ops.length → Nat → Bool, Standing coins w0.1 [] := by
    intro coins
    obtain ⟨H, L, T, -, hL⟩ := R0.towers
    have hnil : L = [] := List.map_eq_nil_iff.mp ((Multiset.coe_eq_zero _).mp hL.symm)
    exact ⟨H, L, T, by rw [hnil]; rfl⟩
  have hrun := fun draws : Fin ops.length → Fin 15 → Bool =>
    standing_run (fun i => flips (draws i)) ops.get (List.finRange ops.length) w0 0 [] R0 (hempty _)
      (by rw [List.map_get_finRange]; exact hc)
  simp only [List.map_get_finRange] at hrun
  obtain ⟨w, -, R, P⟩ := hrun fun _ _ => false
  refine ⟨_, ?_, P.card R, hrun⟩
  exact placed_nodup ops.get _ [] (List.nodup_finRange ops.length)

/-- On average over the coins a search moves once on each lane but the topmost. -/
theorem average_passing {ι : Type} [Fintype ι] [DecidableEq ι] {l : List ι} (hl : l.Nodup) :
    average (fun draws : ι → Fin 15 → Bool => passing (l.map fun j => height (draws j))) ≤
      15 + l.length / 2 ^ 15 := by
  have hmap : ∀ (i : Nat) (draws : ι → Fin 15 → Bool), streak (fun h => decide (i < h))
      (fun h => decide (i + 1 < h)) (l.map fun j => height (draws j)) =
        streak (fun c => decide (i < height c)) (fun c => decide (i + 1 < height c)) (l.map draws) := by
    intro i draws
    rw [streak_map, streak_map]
  have hlow : ∀ i ∈ Finset.range 15, ∑ draws : ι → Fin 15 → Bool, streak (fun h => decide (i < h))
      (fun h => decide (i + 1 < h)) (l.map fun j => height (draws j)) ≤
        Fintype.card (ι → Fin 15 → Bool) := by
    intro i hi
    simp only [hmap]
    apply sum_streak_le _ hl
    exact (card_height_eq (Finset.mem_range.mp hi)).le
  have htop : Fintype.card (Fin 15 → Bool) * ∑ draws : ι → Fin 15 → Bool,
      streak (fun h => decide (15 < h)) (fun h => decide (15 + 1 < h))
        (l.map fun j => height (draws j)) = l.length * Fintype.card (ι → Fin 15 → Bool) := by
    have hnone : ∀ c, decide (15 + 1 < height c) = false := fun c =>
      decide_eq_false (Nat.not_lt.mpr (height_range c).2)
    simp only [hmap]
    rw [sum_streak_eq hnone hl, card_lt_height_top, Nat.mul_one]
  have htotal : Fintype.card (Fin 15 → Bool) * ∑ draws : ι → Fin 15 → Bool,
      passing (l.map fun j => height (draws j)) ≤
        (15 * 2 ^ 15 + l.length) * Fintype.card (ι → Fin 15 → Bool) := by
    have hlanes := Finset.sum_le_card_nsmul _ _ _ hlow
    rw [Finset.card_range, Nat.nsmul_eq_mul] at hlanes
    have hcoins : Fintype.card (Fin 15 → Bool) = 2 ^ 15 := by simp
    simp only [passing]
    rw [Finset.sum_comm, Finset.sum_range_succ, Nat.mul_add, htop, hcoins, Nat.add_mul]
    apply Nat.add_le_add_right
    calc 2 ^ 15 * _ ≤ 2 ^ 15 * (15 * Fintype.card (ι → Fin 15 → Bool)) := Nat.mul_le_mul_left _ hlanes
      _ = 15 * 2 ^ 15 * Fintype.card (ι → Fin 15 → Bool) := by ring
  apply (average_le htotal).trans_eq
  simp
  ring

/-- The answers of a run in which no allocation fails do not depend on the coins,
and on average over them a search in the list it leaves moves forward at most
15 + n / 2^15 times. -/
theorem expected_moves (zero : S) (base : UInt64) (bs : List (Ptr × Nat)) (mem : Mem)
    (O : Owns base bs mem) (hm : mem.NeverFails) (ops : List (Op S))
    (hc : SpecMeets astep CountOk 0 ops) (target : Target S) :
    ∃ sl mem', cdsaCreateSkiplist zero mem = some (some sl, mem') ∧
      ∃ moves : (Fin ops.length → Fin 15 → Bool) → Nat,
        (∀ draws, ∃ w, runOps Skiplist.step (sl, mem') (tossed ops draws) =
            some ((specRun astep 0 ops).1, w) ∧ searchMoves w.1 target = some (moves draws)) ∧
        average moves ≤ 15 + (specRun astep 0 ops).2.card / 2 ^ 15 := by
  obtain ⟨sl, mem', he, R0⟩ := cdsaCreateSkiplist_spec O hm zero
  obtain ⟨placed, hnodup, hcard, hrun⟩ := tossed_run R0 ops hc
  have hpassed : ((placed.filter fun q => target.passes q.2).map Prod.fst).Nodup :=
    hnodup.sublist (List.filter_sublist.map Prod.fst)
  have hlen : ((placed.filter fun q => target.passes q.2).map Prod.fst).length ≤
      (specRun astep 0 ops).2.card := by
    rw [List.length_map, ← hcard]
    exact List.length_filter_le ..
  refine ⟨sl, mem', he, fun draws => passing (((placed.filter fun q => target.passes q.2).map
    Prod.fst).map fun j => height (draws j)), ?_, ?_⟩
  · intro draws
    obtain ⟨w, hw, -, P⟩ := hrun draws
    exact ⟨w, hw, P.searchMoves target⟩
  · apply (average_passing hpassed).trans
    gcongr

/-- Three insertions and a removal, then the way to the score 2. -/
theorem expected_moves_three : ∃ (sl : CdsaSkiplist Nat) (mem : Mem)
    (moves : (Fin 4 → Fin 15 → Bool) → Nat),
    (∀ draws, ∃ w, runOps Skiplist.step (sl, mem) (tossed [.insert 1 ⟨[97], by decide⟩ fun _ => false,
        .insert 2 ⟨[97], by decide⟩ fun _ => false, .remove 1 ⟨[97], by decide⟩,
        .insert 1 ⟨[98], by decide⟩ fun _ => false] draws) =
          some ([.status .ok, .status .ok, .status .ok, .status .ok], w) ∧
        searchMoves w.1 (.atLeast 2) = some (moves draws)) ∧
      average moves ≤ 15 + (2 : Nat) / 2 ^ 15 := by
  obtain ⟨sl, mem, -, moves, hrun, hle⟩ := expected_moves (S := Nat) 0 0 []
    ⟨0, [], 0, fun _ => true⟩ ⟨.nil, by simp, by simp, rfl⟩ (fun _ => rfl)
    [.insert 1 ⟨[97], by decide⟩ fun _ => false, .insert 2 ⟨[97], by decide⟩ fun _ => false,
      .remove 1 ⟨[97], by decide⟩, .insert 1 ⟨[98], by decide⟩ fun _ => false]
    ⟨trivial, trivial, trivial, trivial, trivial⟩ (.atLeast 2)
  exact ⟨sl, mem, moves, hrun, hle⟩

/-! ## The heights of the nodes -/

/-- How many forward pointers the nodes of the list have. -/
def pointers (sl : CdsaSkiplist S) : Option Nat :=
  (chain sl 0).map fun ps => (ps.map fun p => (sl.nodes p).elim 0 fun n => n.forward.length).sum

theorem Standing.heights {ι : Type} {coins : ι → Nat → Bool} {sl : CdsaSkiplist S}
    {placed : List (ι × (S ×ₗ CStr))} (P : Standing coins sl placed) :
    ∃ H L, Towers sl H L ∧
      L.map Tower.level = (placed.map Prod.fst).map fun j => randomLevel (coins j) := by
  obtain ⟨H, L, T, hL⟩ := P
  refine ⟨H, L, T, ?_⟩
  have hsnd := congrArg (List.map Prod.snd) hL
  rw [List.map_map, List.map_map] at hsnd
  rw [List.map_map]
  exact hsnd

theorem Towers.pointers {sl : CdsaSkiplist S} {H : Tower S} {L : List (Tower S)}
    (T : Towers sl H L) : pointers sl = some (L.map Tower.level).sum := by
  rw [Skiplist.pointers, T.chain_zero, Option.map_some, List.map_map]
  congr 2
  apply List.map_congr_left
  intro t ht
  obtain ⟨forward, hn, hl⟩ := T.stands t (List.mem_cons_of_mem H ht)
  rw [Function.comp_apply, hn]
  exact hl

/-- The list reaches past a level if one of its nodes does. -/
theorem Towers.lt_level {sl : CdsaSkiplist S} {H : Tower S} {L : List (Tower S)}
    (T : Towers sl H L) {k : Nat} (hk : 1 ≤ k) :
    (if k < sl.level then 1 else 0) ≤ ((L.map Tower.level).map fun h => if k < h then 1 else 0).sum := by
  split
  · rename_i hlt
    rcases T.top.2 with h1 | hne
    · omega
    · obtain ⟨t, ht⟩ := List.exists_mem_of_ne_nil _ hne
      obtain ⟨ht, hlt'⟩ := mem_tall.mp ht
      apply List.le_sum_of_mem
      rw [List.map_map]
      refine List.mem_map.mpr ⟨t, ht, ?_⟩
      rw [Function.comp_apply, if_pos]
      omega
  · exact Nat.zero_le _

section
variable {ι : Type} [Fintype ι] [DecidableEq ι] (l : List ι)

theorem average_height :
    average (fun draws : ι → Fin 15 → Bool => (l.map fun j => height (draws j)).sum) =
      l.length * (2 - 1 / 2 ^ 15) := by
  have hcoins : Fintype.card (Fin 15 → Bool) = 2 ^ 15 := by simp
  rw [average_eq (sum_draws l height), sum_height, hcoins]
  push_cast
  ring

theorem average_taller (k : Nat) :
    average (fun draws : ι → Fin 15 → Bool =>
      (l.map fun j => if k < height (draws j) then 1 else 0).sum) ≤ l.length / 2 ^ k := by
  have hcoins : Fintype.card (Fin 15 → Bool) = 2 ^ 15 := by simp
  have hcard := card_lt_height_le k
  simp only [decide_eq_true_eq] at hcard
  rw [average_eq (sum_draws l fun c => if k < height c then 1 else 0), ← Finset.card_filter, hcoins,
    div_le_div_iff₀ (by positivity) (by positivity)]
  exact_mod_cast (Nat.mul_assoc ..).le.trans (Nat.mul_le_mul_left l.length hcard)

end

/-- On average over the coins a node has 2 - 2^-15 forward pointers, and the list
reaches past level k with probability n / 2^k at most. -/
theorem expected_heights (zero : S) (base : UInt64) (bs : List (Ptr × Nat)) (mem : Mem)
    (O : Owns base bs mem) (hm : mem.NeverFails) (ops : List (Op S))
    (hc : SpecMeets astep CountOk 0 ops) :
    ∃ sl mem', cdsaCreateSkiplist zero mem = some (some sl, mem') ∧
      ∃ count level : (Fin ops.length → Fin 15 → Bool) → Nat,
        (∀ draws, ∃ w, runOps Skiplist.step (sl, mem') (tossed ops draws) =
            some ((specRun astep 0 ops).1, w) ∧
          pointers w.1 = some (count draws) ∧ w.1.level = level draws) ∧
        average count = (specRun astep 0 ops).2.card * (2 - 1 / 2 ^ 15) ∧
        ∀ k, 1 ≤ k → average (fun draws => if k < level draws then 1 else 0) ≤
          (specRun astep 0 ops).2.card / 2 ^ k := by
  obtain ⟨sl, mem', he, R0⟩ := cdsaCreateSkiplist_spec O hm zero
  obtain ⟨placed, -, hcard, hrun⟩ := tossed_run R0 ops hc
  have hlen : (placed.map Prod.fst).length = (specRun astep 0 ops).2.card := by
    rw [List.length_map, hcard]
  choose w hw R P using hrun
  have hheights := fun draws => (P draws).heights
  refine ⟨sl, mem', he, fun draws => ((placed.map Prod.fst).map fun j => height (draws j)).sum,
    fun draws => (w draws).1.level, ?_, ?_, ?_⟩
  · intro draws
    obtain ⟨H, L, T, hL⟩ := hheights draws
    refine ⟨w draws, hw draws, ?_, rfl⟩
    rw [T.pointers, hL]
    rfl
  · rw [average_height, hlen]
  · intro k hk
    rw [← hlen]
    apply le_trans _ (average_taller (placed.map Prod.fst) k)
    apply average_mono
    intro draws
    obtain ⟨H, L, T, hL⟩ := hheights draws
    have hlevel := T.lt_level hk
    rw [hL, List.map_map] at hlevel
    exact hlevel

/-- Three insertions and a removal leave two nodes. -/
theorem expected_heights_three : ∃ (sl : CdsaSkiplist Nat) (mem : Mem)
    (count : (Fin 4 → Fin 15 → Bool) → Nat),
    (∀ draws, ∃ w, runOps Skiplist.step (sl, mem) (tossed [.insert 1 ⟨[97], by decide⟩ fun _ => false,
        .insert 2 ⟨[97], by decide⟩ fun _ => false, .remove 1 ⟨[97], by decide⟩,
        .insert 1 ⟨[98], by decide⟩ fun _ => false] draws) =
          some ([.status .ok, .status .ok, .status .ok, .status .ok], w) ∧
        pointers w.1 = some (count draws)) ∧
      average count = (2 : Nat) * (2 - 1 / 2 ^ 15) := by
  obtain ⟨sl, mem, -, count, level, hrun, hcount, -⟩ := expected_heights (S := Nat) 0 0 []
    ⟨0, [], 0, fun _ => true⟩ ⟨.nil, by simp, by simp, rfl⟩ (fun _ => rfl)
    [.insert 1 ⟨[97], by decide⟩ fun _ => false, .insert 2 ⟨[97], by decide⟩ fun _ => false,
      .remove 1 ⟨[97], by decide⟩, .insert 1 ⟨[98], by decide⟩ fun _ => false]
    ⟨trivial, trivial, trivial, trivial, trivial⟩
  refine ⟨sl, mem, count, ?_, hcount⟩
  intro draws
  obtain ⟨w, hw, hp, -⟩ := hrun draws
  exact ⟨w, hw, hp⟩

end Cdsa.Skiplist
