import Cdsa.L2Art.Absent

/-!
# How full the nodes are

Two properties of every node, over whole runs from a fresh tree.

* `occupancy_tight`: where no pool is exhausted, `num_children` is exact and
  the layout is the smallest that fits. `*child_ptr = new_child` clears the
  slot before `remove_child_node256` looks at it, so a Node256 never counts
  down (`node256_miscounts`); the result is for runs that take no leaf from
  one.
* `never_hollow`: where pools may be exhausted, every node keeps two children.
  An insertion that fails after the upgrade leaves a larger layout with the
  count at which deletions look for the downgrade already passed
  (`failed_upgrade_hollows`); the result is for runs that take no leaf from a
  Node16 or Node48 with two children, nor from a Node256.
-/
namespace Cdsa.Art

open Cdsa.Core Cdsa.Memory

variable {V : Type}

/-- The smallest number of children for which a layout is used; a leaf has none. -/
def NodeType.least : NodeType → Nat
  | .node4 => 2
  | .node16 => 5
  | .node48 => 17
  | .node256 => 49
  | .leafNode => 1

def Tight (t : NodeType) (n k : Nat) : Prop := n = k ∧ t.least ≤ k ∧ k ≤ t.capacity

theorem tight_grows : Grows Tight where
  pair := by simp [Tight, NodeType.least, NodeType.capacity]
  add t k _ hk h := ⟨rfl, Nat.le_succ_of_le h.2.1, hk⟩
  add256 n k hk h := by
    obtain ⟨rfl, h2, -⟩ := h
    exact ⟨Nat.mod_eq_of_lt (by omega), Nat.le_succ_of_le h2, hk⟩
  grow4 := by simp [Tight, NodeType.least, NodeType.capacity]
  grow16 := by simp [Tight, NodeType.least, NodeType.capacity]
  grow48 := by simp [Tight, NodeType.least, NodeType.capacity]

/-- Not a Node256. -/
def Below256 (t : NodeType) (_ _ : Nat) : Prop := t ≠ .node256

theorem tight_shrinks : Shrinks Tight Below256 where
  two t n k h hd := by
    obtain ⟨-, h, hcap⟩ := h
    cases t <;> simp only [NodeType.least, NodeType.capacity] at h hcap <;> omega
  node4 k h2 h _ := ⟨rfl, h2, Nat.le_of_succ_le h.2.2⟩
  node16 k hk h _ := by
    have h1 := h.2.1
    exact ⟨rfl, by simp only [NodeType.least] at h1 ⊢; omega, Nat.le_of_succ_le h.2.2⟩
  node48 k hk h _ := by
    have h1 := h.2.1
    exact ⟨rfl, by simp only [NodeType.least] at h1 ⊢; omega, Nat.le_of_succ_le h.2.2⟩
  node256 n k _ hd := absurd rfl hd
  down16 := by simp [Tight, NodeType.least, NodeType.capacity]
  down48 := by simp [Tight, NodeType.least, NodeType.capacity]

/-- Neither a Node256 nor a Node16 or Node48 with just two children. -/
def NotHollowing (t : NodeType) (_ k : Nat) : Prop :=
  t ≠ .node256 ∧ (t = .node16 ∨ t = .node48 → k ≠ 2)

theorem exact_shrinks : Shrinks Exact NotHollowing where
  two t n k h _ := h.2.1
  node4 k h2 h _ := ⟨rfl, h2, Nat.le_of_succ_le h.2.2⟩
  node16 k hk h hd := by
    have h1 := h.2.1
    have h2 := hd.2 (Or.inl rfl)
    exact ⟨rfl, by omega, Nat.le_of_succ_le h.2.2⟩
  node48 k hk h hd := by
    have h1 := h.2.1
    have h2 := hd.2 (Or.inr rfl)
    exact ⟨rfl, by omega, Nat.le_of_succ_le h.2.2⟩
  node256 n k _ hd := absurd rfl hd.1
  down16 := by simp [Exact, NodeType.capacity]
  down48 := by simp [Exact, NodeType.capacity]

/-- `Q` of every inner node of a sound tree. -/
theorem Sound.counts {Q : NodeType → Nat → Nat → Prop} {base : UInt64} {bs : List (Ptr × Nat)}
    {t : CdsaArtTree V} (h : Sound Q base bs t) {r : Node V} (hr : t.root = some r)
    {m : Inner (Node V)} (hm : r.Has m) :
    m.Counts Q ∧ ∃ l, findMinimumLeaf (.inner m) = some l := by
  obtain ⟨path, hwf⟩ := WF.has hm (h.shape r hr)
  obtain ⟨l, hl, -⟩ := hwf.minimumLeaf
  cases hwf with
  | inner _ _ _ _ count => exact ⟨count, l, hl⟩

/-- In every run in which no pool is exhausted and every deletion takes its leaf
from a Node4, Node16 or Node48, counts are exact and layouts fit. -/
theorem occupancy_tight (base : UInt64) (bs : List (Ptr × Nat)) (mem : Mem) (O : Owns base bs mem)
    (hm : mem.NeverFails) (nodesPerTier version : Nat) (hn : 0 < nodesPerTier)
    (hfit : 2080 * nodesPerTier + 8 < 2 ^ 64) :
    ∃ (t : CdsaArtTree V) (mem' : Mem),
      cdsaCreateArt mem nodesPerTier version = some (some t, mem') ∧ ∀ ops,
        RunMeets exec (fun t op => Meets Below256 t op ∧ NoneFails t op) t ops →
        ∃ outs t', runOps exec t ops = some (outs, t') ∧ ∀ r m, t'.root = some r → r.Has m →
          Tight m.type m.numChildren m.kids.length := by
  obtain ⟨t, mem', hc, -, hs⟩ := create_sound (Q := Tight) (V := V) O hm hn hfit version
  refine ⟨t, mem', hc, fun ops hops => ?_⟩
  obtain ⟨outs, t', hr, hs'⟩ := runOps_returns (I := Sound Tight base bs)
    (fun _ _ h hmeets => h.exec tight_grows tight_shrinks hmeets.1 (Or.inr hmeets.2)) ops t hs hops
  exact ⟨outs, t', hr, fun r m hr hm => (hs'.counts hr hm).1⟩

/-- In every run that takes no leaf from a Node256, nor from a Node16 or Node48
with two children, every node keeps two children whichever pools are exhausted. -/
theorem never_hollow (base : UInt64) (bs : List (Ptr × Nat)) (mem : Mem) (O : Owns base bs mem)
    (hm : mem.NeverFails) (nodesPerTier version : Nat) (hn : 0 < nodesPerTier)
    (hfit : 2080 * nodesPerTier + 8 < 2 ^ 64) :
    ∃ (t : CdsaArtTree V) (mem' : Mem),
      cdsaCreateArt mem nodesPerTier version = some (some t, mem') ∧ ∀ ops,
        RunMeets exec (Meets NotHollowing) t ops →
        ∃ outs t', runOps exec t ops = some (outs, t') ∧ ∀ r m, t'.root = some r → r.Has m →
          2 ≤ m.kids.length ∧ ∃ l, findMinimumLeaf (.inner m) = some l := by
  obtain ⟨t, mem', hc, -, hs⟩ := create_sound (Q := Exact) (V := V) O hm hn hfit version
  refine ⟨t, mem', hc, fun ops hops => ?_⟩
  obtain ⟨outs, t', hr, hs'⟩ := runOps_returns (I := Sound Exact base bs)
    (fun _ _ h hmeets => h.exec exact_grows exact_shrinks hmeets (Or.inl exact_stalls)) ops t hs hops
  exact ⟨outs, t', hr, fun r m hr hm => ⟨(hs'.counts hr hm).1.2.1, (hs'.counts hr hm).2⟩⟩

/-! ## Runs on one-byte keys -/

/-- The string of one byte. -/
def byteKey (c : UInt8) : CStr := ⟨[c].filter (· ≠ 0), by simp⟩

/-- Insert the first `n` one-byte keys. -/
def insertBytes (n : Nat) : List (Op Nat) :=
  (List.range n).map fun i => .insert (byteKey (UInt8.ofNat (i + 1))) (some i)

/-- What the root of a tree is, counts and has. -/
def rootCounts (t : CdsaArtTree Nat) : Option (NodeType × Nat × Nat) :=
  t.root.bind fun
    | .leaf _ => none
    | .inner m => some (m.type, m.numChildren, m.kids.length)

/-- There is no node but the root, whose prefix is empty. -/
def flat (t : CdsaArtTree V) : Bool :=
  match t.root with
  | some (.inner n) => n.header.prefixLen == 0 && n.kids.all fun q =>
      match q.2 with
      | .leaf _ => true
      | .inner _ => false
  | _ => true

theorem flat_leaf {t : CdsaArtTree V} {n : Inner (Node V)} (hr : t.root = some (.inner n))
    (hf : flat t = true) : n.header.prefixLen = 0 ∧ ∀ c x, n.look c = some x → ∃ l, x = .leaf l := by
  simp only [flat, hr, Bool.and_eq_true, beq_iff_eq, List.all_eq_true] at hf
  refine ⟨hf.1, fun c x hx => ?_⟩
  have hleaf := hf.2 (c, x) (mem_kids.mpr hx)
  cases x with
  | leaf l => exact ⟨l, rfl⟩
  | inner m => cases hleaf

theorem flat_notCuts {t : CdsaArtTree V} (hf : flat t = true) (key : CStr) : ¬ CutsTree key t := by
  rintro ⟨r, hr, hc⟩
  cases r with
  | leaf l => exact not_cuts_leaf l hc
  | inner n =>
    obtain ⟨h0, hleaf⟩ := flat_leaf hr hf
    rcases hc.cases with hp | ⟨d, c, x, -, -, hl, hx⟩
    · rw [enter, if_pos h0] at hp
      cases hp
    · obtain ⟨l, rfl⟩ := hleaf c x hl
      exact not_cuts_leaf l hx

/-- A walk in a flat tree comes to the root only. -/
theorem flat_takes {t : CdsaArtTree V} (hf : flat t = true) {key : CStr} {m : Inner (Node V)}
    (h : TakesFromTree key t m) : t.root = some (.inner m) := by
  obtain ⟨r, hr, d, f, c, l, hv, -⟩ := h
  cases hv with
  | here => exact hr
  | down _ _ hl hx =>
    obtain ⟨l, rfl⟩ := (flat_leaf hr hf).2 _ _ hl
    cases hx

/-- What can be looked up of the conditions on an operation, while the tree is
flat: a leaf is taken from below a node with more than two children. -/
def flatCheck (t : CdsaArtTree Nat) : Op Nat → Bool
  | .insert key _ => t.leaves.all fun l => agree l.key.bytes key.bytes ≤ intMax
  | .delete _ => flat t && (rootCounts t).all fun r => r.1 ≠ .node256 ∧ 2 < r.2.2
  | .search _ => true

theorem meets_of_flatCheck {D : NodeType → Nat → Nat → Prop}
    (hD : ∀ type n k, type ≠ .node256 → 2 < k → D type n k) {t : CdsaArtTree Nat} {op : Op Nat}
    (h : flatCheck t op = true) : Meets D t op := by
  cases op with
  | insert key value =>
    intro l hl
    exact of_decide_eq_true (List.all_eq_true.mp h l hl)
  | delete key =>
    simp only [flatCheck, Bool.and_eq_true] at h
    obtain ⟨hf, hcounts⟩ := h
    refine ⟨flat_notCuts hf key, fun m hm => ?_⟩
    have hroot := flat_takes hf hm
    simp only [rootCounts, hroot, Option.bind_some, Option.all_some, decide_eq_true_eq] at hcounts
    exact hD _ _ _ hcounts.1 hcounts.2
  | search key => trivial

/-- No pool is found exhausted. -/
def failsNone (t : CdsaArtTree Nat) (op : Op Nat) : Bool :=
  (exec t op).all fun r => r.2.env.failed == t.env.failed

theorem noneFails_of_check {t : CdsaArtTree Nat} {op : Op Nat} (h : failsNone t op = true) :
    NoneFails t op := by
  intro o t' he
  simpa [failsNone, he] using h

/-- Five keys, which make the root a Node16; one is found and one deleted, which
makes it a Node4 again; and one is not there. -/
def session : List (Op Nat) :=
  insertBytes 5 ++ [.search (byteKey 2), .delete (byteKey 1), .delete (byteKey 6)]

def sessionOuts : List (Out Nat) :=
  List.replicate 5 (.status .ok) ++ [.found (some 1), .status .ok, .status .errNotFound]

theorem session_meets {D : NodeType → Nat → Nat → Prop}
    (hD : ∀ type n k, type ≠ .node256 → 2 < k → D type n k) :
    ∃ (t : CdsaArtTree Nat) (mem : Mem) (t' : CdsaArtTree Nat),
      cdsaCreateArt ⟨0, [], 0, fun _ => true⟩ 1024 0 = some (some t, mem) ∧
      RunMeets exec (fun t op => Meets D t op ∧ NoneFails t op) t session ∧
      runOps exec t session = some (sessionOuts, t') ∧ rootCounts t' = some (.node4, 4, 4) := by
  obtain ⟨t, mem, hc, hcheck, hrun⟩ : ∃ (t : CdsaArtTree Nat) (mem : Mem),
      cdsaCreateArt ⟨0, [], 0, fun _ => true⟩ 1024 0 = some (some t, mem) ∧
      runCheck exec (fun t op => flatCheck t op && failsNone t op) t session = true ∧
      (runOps exec t session).map (fun r => (r.1, rootCounts r.2)) =
        some (sessionOuts, some (.node4, 4, 4)) := by
    refine ⟨_, _, rfl, ?_, ?_⟩ <;> decide +kernel
  obtain ⟨⟨outs, t'⟩, hr, he⟩ := Option.map_eq_some_iff.mp hrun
  obtain ⟨rfl, hroot⟩ := Prod.mk.inj he
  refine ⟨t, mem, t', hc, RunMeets.of_check (fun u op h => ?_) hcheck, hr, hroot⟩
  rw [Bool.and_eq_true] at h
  exact ⟨meets_of_flatCheck hD h.1, noneFails_of_check h.2⟩

/-- After the session the root has four children. -/
theorem occupancy_tight_session : ∃ (t : CdsaArtTree Nat) (mem : Mem) (t' : CdsaArtTree Nat),
    cdsaCreateArt ⟨0, [], 0, fun _ => true⟩ 1024 0 = some (some t, mem) ∧
      runOps exec t session = some (sessionOuts, t') ∧ rootCounts t' = some (.node4, 4, 4) ∧
      ∀ r m, t'.root = some r → r.Has m → Tight m.type m.numChildren m.kids.length := by
  obtain ⟨t, mem, t', hc, hmeets, hr, hroot⟩ := session_meets (D := Below256) fun _ _ _ h _ => h
  obtain ⟨t1, mem1, hc1, hall⟩ := occupancy_tight (V := Nat) 0 [] ⟨0, [], 0, fun _ => true⟩
    ⟨.nil, by simp, by simp, rfl⟩ (fun _ => rfl) 1024 0 (by decide) (by decide)
  rw [hc] at hc1
  cases hc1
  obtain ⟨outs, t2, hr2, htight⟩ := hall session hmeets
  rw [hr] at hr2
  cases hr2
  exact ⟨t, mem, t', hc, hr, hroot, htight⟩

/-- Pools of four: the fifth key makes the root a Node16 and finds no leaf. Then
two keys are deleted. -/
def crowdedRoot : List (Op Nat) := insertBytes 5 ++ [.delete (byteKey 1), .delete (byteKey 2)]

theorem never_hollow_crowded : ∃ (t : CdsaArtTree Nat) (mem : Mem) (t' : CdsaArtTree Nat),
    cdsaCreateArt ⟨0, [], 0, fun _ => true⟩ 4 0 = some (some t, mem) ∧
      runOps exec t crowdedRoot = some (List.replicate 4 (.status .ok) ++ [.status .errOom,
        .status .ok, .status .ok], t') ∧ rootCounts t' = some (.node16, 2, 2) ∧
      ∀ r m, t'.root = some r → r.Has m →
        2 ≤ m.kids.length ∧ ∃ l, findMinimumLeaf (.inner m) = some l := by
  obtain ⟨t, mem, hc, hcheck, hrun⟩ : ∃ (t : CdsaArtTree Nat) (mem : Mem),
      cdsaCreateArt ⟨0, [], 0, fun _ => true⟩ 4 0 = some (some t, mem) ∧
      runCheck exec flatCheck t crowdedRoot = true ∧
      (runOps exec t crowdedRoot).map (fun r => (r.1, rootCounts r.2)) =
        some (List.replicate 4 (.status .ok) ++ [.status .errOom, .status .ok, .status .ok],
          some (.node16, 2, 2)) := by
    refine ⟨_, _, rfl, ?_, ?_⟩ <;> decide +kernel
  obtain ⟨t1, mem1, hc1, hall⟩ := never_hollow (V := Nat) 0 [] ⟨0, [], 0, fun _ => true⟩
    ⟨.nil, by simp, by simp, rfl⟩ (fun _ => rfl) 4 0 (by decide) (by decide)
  rw [hc] at hc1
  cases hc1
  have hmeets : RunMeets exec (Meets NotHollowing) t crowdedRoot :=
    RunMeets.of_check (fun u op h => meets_of_flatCheck (fun _ _ _ ht hk => ⟨ht, fun _ => by omega⟩) h)
      hcheck
  obtain ⟨outs, t', hr, hfull⟩ := hall crowdedRoot hmeets
  rw [hr, Option.map_some, Option.some.injEq] at hrun
  obtain ⟨rfl, hroot⟩ := Prod.mk.inj hrun
  exact ⟨t, mem, t', hc, hr, hroot, hfull⟩

/-- A Node256 with 49 children loses one and still counts 49. -/
theorem node256_miscounts : ∃ (t : CdsaArtTree Nat) (mem : Mem),
    cdsaCreateArt ⟨0, [], 0, fun _ => true⟩ 1024 0 = some (some t, mem) ∧
    (runOps exec t (insertBytes 49 ++ [.delete (byteKey 1)])).map
      (fun r => (r.1, r.2.env.failed, rootCounts r.2)) =
      some (List.replicate 50 (.status .ok), 0, some (.node256, 49, 48)) := by
  refine ⟨_, _, rfl, ?_⟩
  decide +kernel

/-- Pools of four: the fifth key upgrades the root and finds no leaf; deleting
the four others then leaves a Node16 without children. -/
theorem failed_upgrade_hollows : ∃ (t : CdsaArtTree Nat) (mem : Mem),
    cdsaCreateArt ⟨0, [], 0, fun _ => true⟩ 4 0 = some (some t, mem) ∧
    (runOps exec t (insertBytes 5 ++ [.delete (byteKey 1), .delete (byteKey 2),
      .delete (byteKey 3)])).map (fun r => (r.1, rootCounts r.2)) =
      some (List.replicate 4 (.status .ok) ++ .status .errOom :: List.replicate 3 (.status .ok),
        some (.node16, 1, 1)) ∧
    (runOps exec t (insertBytes 5 ++ [.delete (byteKey 1), .delete (byteKey 2),
      .delete (byteKey 3), .delete (byteKey 4)])).map
        (fun r => (rootCounts r.2, (r.2.root.bind findMinimumLeaf).isSome)) =
      some (some (.node16, 0, 0), false) := by
  refine ⟨_, _, rfl, ?_, ?_⟩ <;> decide +kernel

end Cdsa.Art
