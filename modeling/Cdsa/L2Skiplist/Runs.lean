import Mathlib.Data.Multiset.Sort
import Cdsa.Core.LTS
import Cdsa.L2Skiplist.Range

/-!
# The skip list over whole runs

`contents` follows level 0 from the header. In every run in which no
allocation fails, whatever the coins, the skip list answers as a multiset of
pairs and `contents` is that multiset in order (`refines_sorted_multiset`), as
long as no range query meets more than `intMax` pairs: the count it returns is
an `int` (`too_many_matches`).
-/
namespace Cdsa.Skiplist

open Cdsa.Core Cdsa.Memory

variable {S : Type}

inductive Op (S : Type) where
  | insert (score : S) (value : CStr) (coins : Nat → Bool)
  | remove (score : S) (value : CStr)
  | getRange (minScore maxScore : S)
  | size

inductive Out where
  | status (s : Status)
  | values (strings : Option (List CStr)) (count : Nat)
  | size (n : Nat)
  deriving DecidableEq

/-- The pairs from `current` on, along level 0. -/
def follow (nodes : Ptr → Option (SkipNode S)) : Nat → Option Ptr → Option (List (S ×ₗ CStr))
  | _, none => some []
  | 0, some _ => none
  | fuel + 1, some p =>
    (nodes p).bind fun n =>
      (forwardAt nodes 0 p).bind fun next =>
        (follow nodes fuel next).map fun l => toLex (n.score, n.value) :: l

/-- The level-0 list. -/
def contents (sl : CdsaSkiplist S) : Option (List (S ×ₗ CStr)) :=
  (forwardAt sl.nodes 0 sl.header).bind (follow sl.nodes sl.size)

theorem follow_spec {nodes : Ptr → Option (SkipNode S)} :
    ∀ (L : List (Tower S)) current, Hangs nodes current L →
      follow nodes L.length current = some (L.map Tower.item)
  | [], current, h => by rw [h.head]; rfl
  | t :: L, current, h => by
    obtain ⟨forward, hn, -⟩ := h.stands t List.mem_cons_self
    obtain ⟨next, hnext, h'⟩ := h.tail
    rw [h.head]
    simp only [List.map_cons, List.head?_cons, List.length_cons, follow, hn, Option.bind_some, hnext,
      follow_spec L next h', Option.map_some]
    rfl

variable [LinearOrder S]

def step (w : CdsaSkiplist S × Mem) : Op S → Option (Out × (CdsaSkiplist S × Mem))
  | .insert score value coins =>
    (insertSkiplist w.1 w.2 score value coins).map fun r => (.status r.1, r.2)
  | .remove score value => (removeSkiplist w.1 w.2 score value).map fun r => (.status r.1, r.2)
  | .getRange minScore maxScore =>
    (getRangeSkiplist w.1 w.2 minScore maxScore).map fun r =>
      (.values (r.1.1.map fun a => a.2.map Prod.snd) r.1.2, (w.1, r.2))
  | .size => some (.size (cdsaSizeSkiplist w.1), w)

/-- The pairs of `M` with a score in the range, in order. -/
def matching (M : Multiset (S ×ₗ CStr)) (minScore maxScore : S) : List (S ×ₗ CStr) :=
  M.sort.filter fun x => minScore ≤ (ofLex x).1 ∧ (ofLex x).1 ≤ maxScore

/-- The abstract machine: a multiset of pairs. -/
def astep (M : Multiset (S ×ₗ CStr)) : Op S → Out × Multiset (S ×ₗ CStr)
  | .insert score value _ => (.status .ok, toLex (score, value) ::ₘ M)
  | .remove score value =>
    if toLex (score, value) ∈ M then (.status .ok, M.erase (toLex (score, value)))
    else (.status .errNotFound, M)
  | .getRange minScore maxScore =>
    let found := matching M minScore maxScore
    (if found = [] then .values none 0
      else .values (some (found.map fun x => (ofLex x).2)) found.length, M)
  | .size => (.size M.card, M)

/-- What a range query finds can be counted by an `int`. -/
def CountOk (M : Multiset (S ×ₗ CStr)) : Op S → Prop
  | .getRange minScore maxScore => (matching M minScore maxScore).length ≤ intMax
  | _ => True

/-- The list is in order and holds the pairs of `M`. -/
structure Refines (w : CdsaSkiplist S × Mem) (M : Multiset (S ×ₗ CStr)) : Prop where
  towers : ∃ H L, Towers w.1 H L ∧ (∃ base rest, Owns base (owned w.1.self H L ++ rest) w.2) ∧
    M = (L.map Tower.item : List (S ×ₗ CStr))
  never : w.2.NeverFails

theorem Towers.sort_eq {sl : CdsaSkiplist S} {H : Tower S} {L : List (Tower S)}
    (T : Towers sl H L) : ((L.map Tower.item : List (S ×ₗ CStr)) : Multiset _).sort = L.map Tower.item :=
  (Multiset.coe_eq_coe.mp (Multiset.sort_eq ..)).eq_of_pairwise'
    (Multiset.pairwise_sort ..) T.sorted

theorem Towers.contents_eq {sl : CdsaSkiplist S} {H : Tower S} {L : List (Tower S)}
    (T : Towers sl H L) : contents sl = some (L.map Tower.item) := by
  obtain ⟨current, hc, hh⟩ := Towers.hangs (A := []) (B := L) T
  have hc : forwardAt sl.nodes 0 sl.header = some current := T.header ▸ hc
  rw [contents, hc, Option.bind_some, T.size, follow_spec L current hh]

theorem matching_eq {sl : CdsaSkiplist S} {H : Tower S} {L : List (Tower S)} (T : Towers sl H L)
    (minScore maxScore : S) :
    matching (L.map Tower.item : List (S ×ₗ CStr)) minScore maxScore =
      (inRange minScore maxScore L).map Tower.item := by
  rw [matching, T.sort_eq, inRange, List.filter_map]
  rfl

/-! ## The simulation -/

theorem Refines.insert {w : CdsaSkiplist S × Mem} {M : Multiset (S ×ₗ CStr)} (R : Refines w M)
    (s : S) (v : CStr) (coins : Nat → Bool) :
    ∃ w', insertSkiplist w.1 w.2 s v coins = some (.ok, w') ∧ Refines w' (toLex (s, v) ::ₘ M) := by
  obtain ⟨H, L, T, ⟨base, rest, O⟩, rfl⟩ := R.towers
  rcases insertSkiplist_cases T O s v coins with ⟨mem', -, -, -, hn⟩ |
    ⟨A, B, N, sl', mem', rfl, he, T', O', ha, hi, -⟩
  · exact absurd R.never hn
  · refine ⟨(sl', mem'), he, ⟨H, A ++ N :: B, T', ⟨base, rest, O'⟩, ?_⟩, fun n => ?_⟩
    · rw [Multiset.cons_coe, Multiset.coe_eq_coe, ← hi, ← List.map_cons]
      exact (List.perm_middle.map _).symm
    · rw [ha]; exact R.never n

theorem Refines.remove {w : CdsaSkiplist S × Mem} {M : Multiset (S ×ₗ CStr)} (R : Refines w M)
    (s : S) (v : CStr) :
    (toLex (s, v) ∉ M ∧ removeSkiplist w.1 w.2 s v = some (.errNotFound, w)) ∨
    (toLex (s, v) ∈ M ∧ ∃ w', removeSkiplist w.1 w.2 s v = some (.ok, w') ∧
      Refines w' (M.erase (toLex (s, v)))) := by
  obtain ⟨H, L, T, ⟨base, rest, O⟩, rfl⟩ := R.towers
  rcases removeSkiplist_cases T O s v with ⟨hne, he⟩ | ⟨A, B, N, sl', mem', rfl, hi, he, T', O', ha⟩
  · refine Or.inl ⟨fun hm => ?_, he⟩
    obtain ⟨t, ht, hx⟩ := List.mem_map.mp (Multiset.mem_coe.mp hm)
    exact hne t ht hx
  · have hp : ((A ++ N :: B).map Tower.item).Perm (toLex (s, v) :: (A ++ B).map Tower.item) := by
      rw [← hi, ← List.map_cons]; exact List.perm_middle.map _
    refine Or.inr ⟨?_, (sl', mem'), he, ⟨H, A ++ B, T', ⟨base, rest, O'⟩, ?_⟩, fun n => ?_⟩
    · exact Multiset.mem_coe.mpr (hp.mem_iff.mpr List.mem_cons_self)
    · rw [Multiset.coe_eq_coe.mpr hp, ← Multiset.cons_coe, Multiset.erase_cons_head]
    · rw [ha]; exact R.never n

theorem Refines.getRange {w : CdsaSkiplist S × Mem} {M : Multiset (S ×ₗ CStr)} (R : Refines w M)
    (lo hi : S) (hc : CountOk M (.getRange lo hi)) :
    ∃ w', step w (.getRange lo hi) = some ((astep M (.getRange lo hi)).1, w') ∧ Refines w' M := by
  obtain ⟨H, L, T, ⟨base, rest, O⟩, rfl⟩ := R.towers
  have hm := matching_eq T lo hi
  rw [CountOk, hm, List.length_map] at hc
  have hT : ∀ mem', mem'.answers = w.2.answers → (∃ rest, Owns base (owned w.1.self H L ++ rest) mem') →
      Refines (w.1, mem') (L.map Tower.item : List (S ×ₗ CStr)) := fun mem' ha ⟨rest', O'⟩ =>
    ⟨⟨H, L, T, ⟨base, rest', O'⟩, rfl⟩, fun n => by rw [ha]; exact R.never n⟩
  rcases getRangeSkiplist_cases T O lo hi hc with ⟨mem', he, O', ha, hnil | hn⟩ |
    ⟨array, results, mem', he, hne, hv, O', ha⟩
  · refine ⟨(w.1, mem'), ?_, hT mem' ha ⟨rest, O'⟩⟩
    simp only [step, he, astep, hm, hnil, List.map_nil, if_true]; rfl
  · exact absurd R.never hn
  · -- the array and the strings now belong to the caller
    have hp : (copies results ++ (array, (inRange lo hi L).length * 8) ::
        (owned w.1.self H L ++ rest)).Perm (owned w.1.self H L ++
          (rest ++ (copies results ++ [(array, (inRange lo hi L).length * 8)]))) := by
      rw [← List.append_assoc (owned w.1.self H L), List.append_cons]
      exact List.perm_append_comm
    refine ⟨(w.1, mem'), ?_, hT mem' ha ⟨_, O'.of_perm hp⟩⟩
    · have hne' : ¬ (inRange lo hi L).map Tower.item = [] := by simpa using hne
      simp only [step, he, astep, hm, hne', if_false, Option.map_some, hv, List.map_map,
        List.length_map]
      rfl

/-- One operation against the abstract machine. -/
theorem Refines.step {w : CdsaSkiplist S × Mem} {M : Multiset (S ×ₗ CStr)} (R : Refines w M)
    (op : Op S) (hc : CountOk M op) :
    ∃ w', Skiplist.step w op = some ((astep M op).1, w') ∧ Refines w' (astep M op).2 := by
  cases op with
  | insert s v coins =>
    obtain ⟨w', he, R'⟩ := R.insert s v coins
    exact ⟨w', by simp only [Skiplist.step, he, Option.map_some]; rfl, R'⟩
  | remove s v =>
    rcases R.remove s v with ⟨hn, he⟩ | ⟨hm, w', he, R'⟩
    · exact ⟨w, by simp only [Skiplist.step, he, Option.map_some, astep, hn, if_false],
        by simp only [astep, hn, if_false]; exact R⟩
    · exact ⟨w', by simp only [Skiplist.step, he, Option.map_some, astep, hm, if_true],
        by simp only [astep, hm, if_true]; exact R'⟩
  | getRange lo hi =>
    obtain ⟨w', he, R'⟩ := R.getRange lo hi hc
    exact ⟨w', he, R'⟩
  | size =>
    obtain ⟨H, L, T, -, rfl⟩ := R.towers
    refine ⟨w, ?_, R⟩
    simp only [Skiplist.step, cdsaSizeSkiplist, T.size, astep, Multiset.coe_card, List.length_map]

/-! ## A fresh list -/

/-- An empty list with header `H`. -/
def emptyList (self : Ptr) (H : Tower S) : CdsaSkiplist S where
  self
  header := H.ptr
  level := 1
  size := 0
  version := 0
  nodes := Function.update (fun _ => none) H.ptr
    (some (H.node (List.replicate SKIPLIST_MAX_LEVEL none)))

theorem emptyList_towers (self : Ptr) {H : Tower S} (hl : H.level = SKIPLIST_MAX_LEVEL) :
    Towers (emptyList self H) H [] where
  header := rfl
  full := hl
  stands t ht := by
    rw [List.mem_singleton.mp ht]
    exact ⟨List.replicate SKIPLIST_MAX_LEVEL none, by simp [emptyList],
      by rw [List.length_replicate, hl]⟩
  nodup := by simp
  links i hi := by
    show forwardAt _ i H.ptr = some none
    simp [emptyList, forwardAt, Tower.node, hi]
  level_le := show 1 ≤ SKIPLIST_MAX_LEVEL by decide
  heights := by simp
  top := ⟨Nat.le_refl _, Or.inl rfl⟩
  sorted := by simp
  size := rfl

theorem cdsaCreateSkiplist_spec {base : UInt64} {bs : List (Ptr × Nat)} {mem : Mem}
    (O : Owns base bs mem) (hm : mem.NeverFails) (zero : S) :
    ∃ sl mem', cdsaCreateSkiplist zero mem = some (some sl, mem') ∧ Refines (sl, mem') 0 := by
  obtain ⟨m1, e1, O1, a1, -⟩ := O.alloc (hm _) 32
  rcases cdsaCreateNode_spec O1 SKIPLIST_MAX_LEVEL zero ⟨[], by simp⟩ with ⟨m2, -, -, -, hn⟩ |
    ⟨H, m2, e2, O2, a2, hp, hl, -⟩
  · exact absurd (fun n => by rw [a1]; exact hm n) hn
  · refine ⟨emptyList mem.asked H, m2, ?_,
      ⟨H, [], emptyList_towers _ hl, ⟨base, bs, O2.of_perm ?_⟩, rfl⟩, fun n => ?_⟩
    · simp only [cdsaCreateSkiplist, e1, e2, Option.bind_some]; rfl
    · exact List.Perm.of_eq (by rw [owned, List.flatMap_nil, List.nil_append, List.append_assoc]; rfl)
    · rw [a2, a1]; exact hm n

/-- In every run in which no allocation fails the list answers as a multiset
and is that multiset in order; a removal that finds nothing changes nothing. -/
theorem refines_sorted_multiset (zero : S) (base : UInt64) (bs : List (Ptr × Nat)) (mem : Mem)
    (O : Owns base bs mem) (hm : mem.NeverFails) (ops : List (Op S))
    (hc : SpecMeets astep CountOk 0 ops) :
    ∃ sl mem' w, cdsaCreateSkiplist zero mem = some (some sl, mem') ∧
      runOps Skiplist.step (sl, mem') ops = some ((specRun astep 0 ops).1, w) ∧
      contents w.1 = some (specRun astep 0 ops).2.sort ∧
      ∀ s v, toLex (s, v) ∉ (specRun astep 0 ops).2 →
        removeSkiplist w.1 w.2 s v = some (.errNotFound, w) := by
  obtain ⟨sl, mem', he, R0⟩ := cdsaCreateSkiplist_spec O hm zero
  obtain ⟨w, hw, R⟩ := refine_run_spec (R := Refines) (P := CountOk)
    (fun w M op R hc => R.step op hc) ops _ _ R0 hc
  refine ⟨sl, mem', w, he, hw, ?_, fun s v hn => ?_⟩
  · obtain ⟨H, L, T, -, hM⟩ := R.towers
    rw [T.contents_eq, hM, T.sort_eq]
  · rcases R.remove s v with ⟨-, he⟩ | ⟨hm, -⟩
    · exact he
    · exact absurd hm hn

/-- The same pair twice, one of the two removed, the other found. -/
theorem refines_sorted_multiset_twice : ∃ (w0 w : CdsaSkiplist Nat × Mem),
    runOps Skiplist.step w0 [.insert 1 ⟨[97], by decide⟩ (fun _ => true),
      .insert 1 ⟨[97], by decide⟩ (fun _ => false), .remove 1 ⟨[97], by decide⟩, .getRange 0 5,
      .size] =
      some ([.status .ok, .status .ok, .status .ok, .values (some [⟨[97], by decide⟩]) 1, .size 1],
        w) := by
  obtain ⟨sl, mem', w, -, h, -⟩ := refines_sorted_multiset (S := Nat) 0 0 []
    ⟨0, [], 0, fun _ => true⟩ ⟨.nil, by simp, by simp, rfl⟩ (fun _ => rfl)
    [.insert 1 ⟨[97], by decide⟩ (fun _ => true), .insert 1 ⟨[97], by decide⟩ (fun _ => false),
      .remove 1 ⟨[97], by decide⟩, .getRange 0 5, .size]
    ⟨trivial, trivial, trivial, by simp [astep, CountOk, matching, intMax], trivial, trivial⟩
  refine ⟨(sl, mem'), w, h.trans ?_⟩
  simp [specRun, astep, matching]

/-! ## More matches than an `int` counts -/

theorem specRun_insert (x : S) (v : CStr) (coins : Nat → Bool) : ∀ (n : Nat) (M : Multiset (S ×ₗ CStr)),
    SpecMeets astep CountOk M (List.replicate n (.insert x v coins)) ∧
      (specRun astep M (List.replicate n (.insert x v coins))).2 =
        M + Multiset.replicate n (toLex (x, v))
  | 0, M => ⟨trivial, by simp [specRun]⟩
  | n + 1, M => by
    obtain ⟨h1, h2⟩ := specRun_insert x v coins n (toLex (x, v) ::ₘ M)
    refine ⟨⟨trivial, h1⟩, ?_⟩
    rw [List.replicate_succ, specRun]
    show (specRun astep (toLex (x, v) ::ₘ M) (List.replicate n (.insert x v coins))).2 = _
    rw [h2, Multiset.replicate_succ, Multiset.cons_add, Multiset.add_cons]

theorem matching_replicate (x : S) (v : CStr) (n : Nat) :
    (matching (Multiset.replicate n (toLex (x, v))) x x).length = n := by
  have hall : ∀ y ∈ (Multiset.replicate n (toLex (x, v))).sort, x ≤ (ofLex y).1 ∧ (ofLex y).1 ≤ x := by
    intro y hy
    rw [Multiset.mem_sort, Multiset.mem_replicate] at hy
    simp [hy.2]
  rw [matching, List.filter_eq_self.mpr fun y hy => decide_eq_true (hall y hy),
    Multiset.length_sort, Multiset.card_replicate]

/-- After more than `intMax` insertions of one pair a query for its score is
undefined. -/
theorem getRange_undefined (x zero : S) (v : CStr) (coins : Nat → Bool) {n : Nat} (hn : intMax < n)
    {base : UInt64} {bs : List (Ptr × Nat)} {mem : Mem} (O : Owns base bs mem)
    (hm : mem.NeverFails) :
    ∃ sl mem' outs w, cdsaCreateSkiplist zero mem = some (some sl, mem') ∧
      runOps Skiplist.step (sl, mem') (List.replicate n (.insert x v coins)) = some (outs, w) ∧
      Skiplist.step w (.getRange x x) = none := by
  obtain ⟨sl, mem', he, R0⟩ := cdsaCreateSkiplist_spec O hm zero
  obtain ⟨hc, hM⟩ := specRun_insert x v coins n 0
  obtain ⟨w, hw, R⟩ := refine_run_spec (R := Refines) (P := CountOk)
    (fun w M op R hc => R.step op hc) _ _ _ R0 hc
  refine ⟨sl, mem', _, w, he, hw, ?_⟩
  obtain ⟨H, L, T, -, hL⟩ := R.towers
  rw [hM, Multiset.zero_add] at hL
  have hlen : (inRange x x L).length = n := by
    rw [← List.length_map (f := Tower.item), ← matching_eq T, ← hL, matching_replicate]
  simp only [Skiplist.step, getRangeSkiplist_overflow T w.2 x x (by omega), Option.map_none]

/-- 2^31 insertions of one pair into a fresh list, then a query that matches
them all. -/
theorem too_many_matches : ∃ (sl : CdsaSkiplist Nat) (mem : Mem) (outs : List Out)
    (w : CdsaSkiplist Nat × Mem),
    cdsaCreateSkiplist 0 ⟨0, [], 0, fun _ => true⟩ = some (some sl, mem) ∧
      runOps Skiplist.step (sl, mem) (List.replicate (2 ^ 31)
        (.insert 1 ⟨[97], by decide⟩ fun _ => false)) = some (outs, w) ∧
      Skiplist.step w (.getRange 1 1) = none :=
  getRange_undefined 1 0 _ _ (by decide)
    (show Owns 0 [] _ from ⟨.nil, by simp, by simp, rfl⟩) fun _ => rfl

end Cdsa.Skiplist
