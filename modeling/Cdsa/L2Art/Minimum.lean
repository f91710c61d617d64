import Cdsa.L2Art.Teardown

/-!
# Whether an insertion ends

The descent of an insertion uses up a byte of the key with every node. What may
not end is `find_minimum_leaf`, which it calls where a prefix is longer than the
ten bytes stored or has to be split: a round that finds no child in a Node48 or
Node256 leaves the cursor where it is. `minimumRound` is one round of that loop,
and `findMinimumLeaf` finds a leaf exactly if some number of rounds comes to one
(`findMinimumLeaf_iff`).

Deletions never take an empty Node256 out of the tree, for its count stays above
48. So after all keys below a Node256 have been deleted an insertion that calls
`find_minimum_leaf` on it does not return (`emptied_never_ends`); on runs whose
deletions leave every Node256 a child, every insertion does (`insertion_ends`).
-/
namespace Cdsa.Art

open Cdsa.Core Cdsa.Memory

variable {V : Type}

/-- One round of the loop: the node that the cursor is at afterwards.
mirrors src/art.c:704-736 -/
def minimumRound : Node V → Option (Node V)
  | .leaf l => some (.leaf l)
  | .inner (.node4 n) | .inner (.node16 n) => n.cells.head?.bind Prod.snd
  | .inner (.node48 n) =>
    match allBytes.find? fun c => n.childIndex c ≠ ART_EMPTY_SLOT with
    | some c => slot n.children (n.childIndex c).toNat
    | none => some (.inner (.node48 n))
  | .inner (.node256 n) =>
    match allBytes.findSome? fun c => slot n.children c.toNat with
    | some x => some x
    | none => some (.inner (.node256 n))

def minimumRounds : Nat → Node V → Option (Node V)
  | 0, node => some node
  | k + 1, node => (minimumRound node).bind (minimumRounds k)

/-- A child the loop goes on to is lower. -/
theorem height_firstChild {n : Inner (Node V)} {x : Node V} (h : firstChild n = some x) :
    x.height < (Node.inner n).height := by
  have hcells : ∀ {cells : List (UInt8 × Option (Node V))}, cells.head?.bind Prod.snd = some x →
      x.height ≤ cellsHeight cells := by
    intro cells hc
    obtain ⟨⟨c, o⟩, hq, rfl⟩ := Option.bind_eq_some_iff.mp hc
    exact cellsHeight_mem (List.mem_of_mem_head? hq)
  cases n with
  | node4 n => rw [Node.height]; exact Nat.lt_succ_of_le (hcells h)
  | node16 n => rw [Node.height]; exact Nat.lt_succ_of_le (hcells h)
  | node48 n =>
    obtain ⟨c, -, hs⟩ := Option.bind_eq_some_iff.mp h
    rw [Node.height]
    exact Nat.lt_succ_of_le (slotsHeight_slot hs)
  | node256 n =>
    obtain ⟨-, c, -, -, hs, -⟩ := List.findSome?_eq_some_iff.mp h
    rw [Node.height]
    exact Nat.lt_succ_of_le (slotsHeight_slot hs)

/-- A round goes on to the first child, or stays, or is undefined. -/
theorem minimumRound_inner (n : Inner (Node V)) :
    minimumRound (.inner n) = firstChild n ∨
      firstChild n = none ∧ minimumRound (.inner n) = some (.inner n) := by
  cases n with
  | node4 n => exact .inl rfl
  | node16 n => exact .inl rfl
  | node48 n =>
    simp only [minimumRound, firstChild]
    cases allBytes.find? fun c => n.childIndex c ≠ ART_EMPTY_SLOT with
    | some c => exact .inl rfl
    | none => exact .inr ⟨rfl, rfl⟩
  | node256 n =>
    simp only [minimumRound, firstChild]
    cases allBytes.findSome? fun c => slot n.children c.toNat with
    | some x => exact .inl rfl
    | none => exact .inr ⟨rfl, rfl⟩

theorem minimumRounds_stay {node : Node V} (h : minimumRound node = some node) :
    ∀ k, minimumRounds k node = some node
  | 0 => rfl
  | k + 1 => by rw [minimumRounds, h, Option.bind_some, minimumRounds_stay h k]

theorem minimumRounds_of_loop : ∀ {fuel : Nat} {node : Node V} {l : ArtLeaf V},
    minimumLeafLoop fuel node = some l → minimumRounds fuel node = some (.leaf l)
  | fuel, .leaf l, m, h => by
    have hl : l = m := by cases fuel <;> exact Option.some.inj h
    rw [minimumRounds_stay rfl, hl]
  | fuel + 1, .inner n, l, h => by
    obtain ⟨x, hx, h⟩ := Option.bind_eq_some_iff.mp h
    have hround : minimumRound (.inner n) = some x := by
      rcases minimumRound_inner n with he | ⟨hnone, -⟩
      · rw [he, hx]
      · rw [hx] at hnone
        cases hnone
    rw [minimumRounds, hround, Option.bind_some, minimumRounds_of_loop h]

/-- The height of the node is fuel enough. -/
theorem loop_of_minimumRounds : ∀ {k : Nat} {node : Node V} {l : ArtLeaf V},
    minimumRounds k node = some (.leaf l) → ∀ {fuel : Nat}, node.height ≤ fuel →
      minimumLeafLoop fuel node = some l
  | k, .leaf m, l, h, fuel, _ => by
    rw [minimumRounds_stay rfl] at h
    cases h
    cases fuel <;> rfl
  | k + 1, .inner n, l, h, fuel, hf => by
    obtain ⟨x, hx, hk⟩ := Option.bind_eq_some_iff.mp h
    rcases minimumRound_inner n with he | ⟨-, hstay⟩
    · rw [he] at hx
      have hlt := height_firstChild hx
      obtain ⟨fuel, rfl⟩ := Nat.exists_eq_succ_of_ne_zero (show fuel ≠ 0 by omega)
      rw [minimumLeafLoop, hx, Option.bind_some]
      exact loop_of_minimumRounds hk (by omega)
    · rw [minimumRounds_stay hstay] at h
      cases h

theorem findMinimumLeaf_iff {node : Node V} {l : ArtLeaf V} :
    findMinimumLeaf node = some l ↔ ∃ k, minimumRounds k node = some (.leaf l) :=
  ⟨fun h => ⟨_, minimumRounds_of_loop h⟩, fun ⟨_, h⟩ => loop_of_minimumRounds h (Nat.le_refl _)⟩

/-! ## Runs -/

/-- After every run in which no pool is exhausted and every deletion leaves a
Node256 another child, an insertion of any key returns, and from every inner
node the loop of `find_minimum_leaf` comes to a leaf. -/
theorem insertion_ends (base : UInt64) (bs : List (Ptr × Nat)) (mem : Mem) (O : Owns base bs mem)
    (hm : mem.NeverFails) (nodesPerTier version : Nat) (hn : 0 < nodesPerTier)
    (hfit : 2080 * nodesPerTier + 8 < 2 ^ 64) :
    ∃ (t : CdsaArtTree V) (mem1 : Mem),
      cdsaCreateArt mem nodesPerTier version = some (some t, mem1) ∧ ∀ ops,
        RunMeets exec (fun t op => Meets KeepsChild t op ∧ NoneFails t op) t ops →
        ∃ outs t', runOps exec t ops = some (outs, t') ∧
          (∀ (key : CStr) (value : Option V),
            (∀ l ∈ t'.leaves, agree l.key.bytes key.bytes ≤ intMax) →
            ∃ s t1, cdsaInsertArt t' key value = some (s, t1)) ∧
          ∀ r m, t'.root = some r → r.Has m → ∃ k l, minimumRounds k (.inner m) = some (.leaf l) := by
  obtain ⟨t, mem1, hc, -, hs⟩ := create_sound (Q := Loose) (V := V) O hm hn hfit version
  refine ⟨t, mem1, hc, fun ops hops => ?_⟩
  obtain ⟨outs, t', hr, hs'⟩ := hs.run loose_grows loose_shrinks
    (hops.mono fun _ _ h => ⟨h.1, .inr h.2⟩)
  refine ⟨outs, t', hr, fun key value hk => ?_, fun r m hr hm => ?_⟩
  · obtain ⟨s, t1, he, -⟩ := hs'.insert loose_grows value hk
    exact ⟨s, t1, he⟩
  · obtain ⟨-, l, hl⟩ := hs'.counts hr hm
    obtain ⟨k, hk⟩ := findMinimumLeaf_iff.mp hl
    exact ⟨k, l, hk⟩

/-- After the session another key is inserted, and the loop of `find_minimum_leaf`
comes to a leaf from the root. -/
theorem insertion_ends_session : ∃ (t : CdsaArtTree Nat) (mem : Mem) (t' t1 : CdsaArtTree Nat)
    (s : Status) (m : Inner (Node Nat)),
    cdsaCreateArt ⟨0, [], 0, fun _ => true⟩ 1024 0 = some (some t, mem) ∧
      runOps exec t session = some (sessionOuts, t') ∧
      cdsaInsertArt t' (byteKey 7) (some 3) = some (s, t1) ∧ t'.root = some (.inner m) ∧
      ∃ k l, minimumRounds k (.inner m) = some (.leaf l) := by
  obtain ⟨t, mem, t', hc, hmeets, hr, hroot⟩ :=
    session_meets (D := KeepsChild) fun _ _ _ h _ he => absurd he h
  obtain ⟨t2, mem2, hc2, hall⟩ := insertion_ends (V := Nat) 0 [] ⟨0, [], 0, fun _ => true⟩
    ⟨.nil, by simp, by simp, rfl⟩ (fun _ => rfl) 1024 0 (by decide) (by decide)
  rw [hc] at hc2
  cases hc2
  obtain ⟨outs, t3, hr3, hins, hmin⟩ := hall session hmeets
  rw [hr] at hr3
  cases hr3
  obtain ⟨s, t1, he⟩ := hins (byteKey 7) (some 3) fun l _ => by
    have := agree_le_right (a := l.key.bytes) (b := (byteKey 7).bytes)
    have h1 : (byteKey 7).bytes.length = 1 := by decide
    unfold intMax
    omega
  obtain ⟨r, hr', hcounts⟩ := Option.bind_eq_some_iff.mp hroot
  cases r with
  | leaf l => cases hcounts
  | inner m => exact ⟨t, mem, t', t1, s, m, hc, hr, he, hr', hmin _ m hr' (.self m)⟩

/-- The letter a and another byte. -/
def behindA (c : UInt8) : CStr := ⟨[97, c].filter (· ≠ 0), by simp⟩

/-- 49 keys behind the letter a are inserted, then deleted. -/
def fillAndEmpty : List (Op Nat) :=
  (List.range 49).map (fun i => .insert (behindA (UInt8.ofNat (i + 1))) (some i)) ++
    (List.range 49).map fun i => .delete (behindA (UInt8.ofNat (i + 1)))

/-- An empty Node256. -/
def Node.emptied : Node V → Bool
  | .inner (.node256 n) => (allBytes.findSome? fun c => slot n.children c.toNat).isNone
  | _ => false

theorem Node.emptied_stays {node : Node V} (h : node.emptied = true) :
    ∀ k, minimumRounds k node = some node := by
  refine minimumRounds_stay ?_
  cases node with
  | leaf l => cases h
  | inner n =>
    rcases minimumRound_inner n with he | ⟨-, hstay⟩
    · cases n with
      | node256 n =>
        have hnone : firstChild (.node256 n) = none := Option.isNone_iff_eq_none.mp h
        rw [hnone] at he
        simp only [minimumRound] at he
        split at he <;> cases he
      | _ => cases h
    · exact hstay

/-- After that an insertion of "b" does not return: no number of rounds of
`find_minimum_leaf` from the root comes to a leaf. -/
theorem emptied_never_ends : ∃ (t t' : CdsaArtTree Nat) (mem : Mem) (r : Node Nat),
    cdsaCreateArt ⟨0, [], 0, fun _ => true⟩ 1024 0 = some (some t, mem) ∧
    runOps exec t fillAndEmpty = some (List.replicate 98 (.status .ok), t') ∧
    t'.env.failed = 0 ∧ t'.root = some r ∧ (∀ k l, minimumRounds k r ≠ some (.leaf l)) ∧
    cdsaInsertArt t' (byteKey 98) (some 0) = none := by
  obtain ⟨t, mem, hc, hrun⟩ : ∃ (t : CdsaArtTree Nat) (mem : Mem),
      cdsaCreateArt ⟨0, [], 0, fun _ => true⟩ 1024 0 = some (some t, mem) ∧
      (runOps exec t fillAndEmpty).map (fun q => (q.1, q.2.env.failed, q.2.root.map Node.emptied,
        (cdsaInsertArt q.2 (byteKey 98) (some 0)).isNone)) =
        some (List.replicate 98 (.status .ok), 0, some true, true) := by
    refine ⟨_, _, rfl, ?_⟩
    decide +kernel
  obtain ⟨⟨outs, t'⟩, hr, he⟩ := Option.map_eq_some_iff.mp hrun
  simp only [Prod.mk.injEq] at he
  obtain ⟨rfl, hf, hroot, hnone⟩ := he
  obtain ⟨r, hroot, hempty⟩ := Option.map_eq_some_iff.mp hroot
  refine ⟨t, t', mem, r, hc, hr, hf, hroot, fun k l h => ?_, Option.isNone_iff_eq_none.mp hnone⟩
  rw [Node.emptied_stays hempty] at h
  cases h
  cases hempty

end Cdsa.Art
