import Cdsa.Core.Dfs
import Cdsa.L2Art.Iterate
import Cdsa.L2Art.Teardown

/-!
# The walk of the iterator

`advance_art_iterator` is a depth-first search that pauses at every leaf. A
frame stands for the children of its node that are still to come (`rest`), and
can be followed where the arrays of the nodes agree. `dfs` lists the leaves of a
subtree in the order in which each node has its children.
-/
namespace Cdsa.Art

open Cdsa.Core Cdsa.Memory

variable {V : Type}

/-! ## Over the children in their order -/

section
variable {A : Type} (f : ArtLeaf V → A) (g : List A → A)

def foldLoop : Nat → Node V → A
  | _, .leaf l => f l
  | 0, .inner _ => g []
  | fuel + 1, .inner n => g (n.children.map (foldLoop fuel))

/-- What `f` gives for the leaves and `g` for a node from what its children give. -/
def Node.fold (node : Node V) : A := foldLoop f g node.height node

theorem height_children {n : Inner (Node V)} {x : Node V} (h : x ∈ n.children) :
    x.height < (Node.inner n).height := by
  have hcells : ∀ {cells : List (UInt8 × Option (Node V))}, x ∈ cells.filterMap Prod.snd →
      x.height ≤ cellsHeight cells := fun hx => by
    obtain ⟨⟨c, o⟩, hq, ho⟩ := List.mem_filterMap.mp hx
    cases ho
    exact cellsHeight_mem hq
  have hkids : x ∈ n.kids.map Prod.snd → x.height < (Node.inner n).height := fun hx => by
    obtain ⟨⟨c, y⟩, hq, rfl⟩ := List.mem_map.mp hx
    exact height_look (mem_kids.mp hq)
  cases n with
  | node4 n => rw [Node.height]; exact Nat.lt_succ_of_le (hcells h)
  | node16 n => rw [Node.height]; exact Nat.lt_succ_of_le (hcells h)
  | node48 n => exact hkids h
  | node256 n => exact hkids h

theorem foldLoop_fuel : ∀ {i j : Nat} {node : Node V}, node.height ≤ i → node.height ≤ j →
    foldLoop f g i node = foldLoop f g j node
  | i, j, .leaf l, _, _ => by cases i <;> cases j <;> rfl
  | i, j, .inner n, hi, hj => by
    have hnil : ∀ {k}, (Node.inner n).height ≤ k → k = 0 → n.children = [] := fun hk h0 => by
      refine List.eq_nil_iff_forall_not_mem.mpr fun x hx => ?_
      have := height_children hx
      omega
    cases i with
    | zero => cases j <;> simp [foldLoop, hnil hi rfl]
    | succ i =>
      cases j with
      | zero => simp [foldLoop, hnil hj rfl]
      | succ j =>
        refine congrArg g (List.map_congr_left fun x hx => ?_)
        have := height_children hx
        exact foldLoop_fuel (by omega) (by omega)

@[simp] theorem fold_leaf (l : ArtLeaf V) : (Node.leaf l).fold f g = f l := rfl

@[simp] theorem fold_inner (n : Inner (Node V)) :
    (Node.inner n).fold f g = g (n.children.map (Node.fold f g)) := by
  rw [Node.fold, foldLoop_fuel f g (Nat.le_refl _) (Nat.le_succ _)]
  exact congrArg g (List.map_congr_left fun x hx =>
    foldLoop_fuel f g (Nat.le_of_lt (height_children hx)) (Nat.le_refl _))

end

/-- The leaves below a node, depth first. -/
def Node.dfs (node : Node V) : List (ArtLeaf V) := node.fold (fun l => [l]) List.flatten

/-- How many inner nodes are nested in a subtree. -/
def Node.nesting (node : Node V) : Nat :=
  node.fold (fun _ => 0) fun hs => (hs.map (· + 1)).foldr max 0

theorem nesting_inner_le {n : Inner (Node V)} {h : Nat} :
    (Node.inner n).nesting ≤ h ↔ ∀ x ∈ n.children, x.nesting + 1 ≤ h := by
  have hmax : ∀ (hs : List Nat), hs.foldr max 0 ≤ h ↔ ∀ i ∈ hs, i ≤ h := fun hs => by
    induction hs with
    | nil => simp
    | cons i hs ih => simp [ih]
  rw [Node.nesting, fold_inner, hmax]
  simp [Node.nesting]

/-- The rounds that a node takes, from its push to its pop. -/
def Node.rounds (node : Node V) : Nat := node.fold (fun _ => 1) fun rs => (rs.map (· + 1)).sum + 1

theorem roundsLoop_eq : ∀ {fuel : Nat} {node : Node V}, node.height ≤ fuel →
    roundsLoop fuel node = node.rounds
  | fuel, .leaf l, _ => by cases fuel <;> rfl
  | 0, .inner n, h => by
    have hnil : n.children = [] := List.eq_nil_iff_forall_not_mem.mpr fun x hx => by
      have := height_children hx
      omega
    simp [roundsLoop, Node.rounds, hnil]
  | fuel + 1, .inner n, h => by
    simp only [roundsLoop, Node.rounds, fold_inner, List.map_map]
    congr 2
    refine List.map_congr_left fun x hx => ?_
    have := height_children hx
    exact congrArg (· + 1) (roundsLoop_eq (by omega))

theorem look_of_children {n : Inner (Node V)} (valid : n.Valid) {x : Node V} (h : x ∈ n.children) :
    ∃ c, n.look c = some x := by
  obtain ⟨⟨c, y⟩, hq, rfl⟩ := List.mem_map.mp ((children_perm valid).mem_iff.mp h)
  exact ⟨c, mem_kids.mp hq⟩

/-- Depth first every leaf comes up once. -/
theorem dfs_perm : ∀ (fuel : Nat) {node : Node V}, node.height ≤ fuel →
    (∀ m, node.Has m → m.Valid) → node.dfs.Perm node.leaves
  | _, .leaf l, _, _ => .refl _
  | 0, .inner n, hf, _ => by have := Node.height_inner_pos n; omega
  | fuel + 1, .inner n, hf, valid => by
    have hv := valid n (.self n)
    have hchild : ∀ x ∈ n.children, x.dfs.Perm x.leaves := fun x hx => by
      obtain ⟨c, hc⟩ := look_of_children hv hx
      exact dfs_perm fuel (by have := height_children hx; omega) (Node.Has.down hc valid)
    have hp := (children_perm hv).flatMap_right (f := Node.leaves)
    rw [List.flatMap_map, ← leaves_inner] at hp
    refine List.Perm.trans ?_ hp
    rw [Node.dfs, fold_inner, ← List.flatMap_def]
    exact List.Perm.flatMap_left _ hchild

/-! ## The children still to come -/

/-- The children from the cursor on: a position in a Node4 or Node16, a byte in a
Node48 or Node256. -/
def rest : Inner (Node V) → Nat → List (Node V)
  | .node4 n, idx | .node16 n, idx => (n.cells.drop idx).filterMap Prod.snd
  | .node48 n, idx => (allBytes.drop idx).filterMap (Inner.node48 n).look
  | .node256 n, idx => (allBytes.drop idx).filterMap (Inner.node256 n).look

theorem kids_snd (n : Inner (Node V)) : n.kids.map Prod.snd = allBytes.filterMap n.look := by
  rw [Inner.kids, graph, List.map_filterMap]
  congr 1; funext c
  cases n.look c <;> rfl

theorem rest_zero (n : Inner (Node V)) : rest n 0 = n.children := by
  cases n with
  | node4 n => rfl
  | node16 n => rfl
  | node48 n => exact (kids_snd _).symm
  | node256 n => exact (kids_snd _).symm

theorem rest_sublist (n : Inner (Node V)) (idx : Nat) : (rest n idx).Sublist n.children := by
  rw [← rest_zero]
  cases n with
  | node4 n => exact (List.drop_sublist ..).filterMap _
  | node16 n => exact (List.drop_sublist ..).filterMap _
  | node48 n => exact (List.drop_sublist ..).filterMap _
  | node256 n => exact (List.drop_sublist ..).filterMap _

/-- The first byte from `idx` on with `p`, and the bytes behind it. -/
theorem find_bytes {p : UInt8 → Bool} {idx : Nat} {c : UInt8}
    (h : (allBytes.drop idx).find? p = some c) :
    p c ∧ ∃ pre, allBytes.drop idx = pre ++ c :: allBytes.drop (c.toNat + 1) ∧
      ∀ d ∈ pre, p d = false := by
  obtain ⟨hp, pre, post, he, hpre⟩ := List.find?_eq_some_iff_append.mp h
  refine ⟨hp, pre, ?_, fun d hd => by simpa using hpre d hd⟩
  -- the byte stands at its own place
  have hat : allBytes[idx + pre.length]? = some c := by
    rw [← List.getElem?_drop, he, List.getElem?_append_right (Nat.le_refl _), Nat.sub_self]
    rfl
  have hc : idx + pre.length = c.toNat := by
    obtain ⟨hlt, hat⟩ := List.getElem?_eq_some_iff.mp hat
    simp only [allBytes, List.length_map, List.length_range] at hlt
    simp only [allBytes, List.getElem_map, List.getElem_range] at hat
    rw [← hat, UInt8.toNat_ofNat_of_lt' hlt]
  have hpost : allBytes.drop (idx + pre.length + 1) = post := by
    rw [Nat.add_assoc, ← List.drop_drop, he]
    simp
  rw [he, ← hc, hpost]

/-- The cell at the cursor. -/
theorem drop_cells {capacity : Nat} {p : Packed (Node V)} (hp : p.Valid capacity) (idx : Nat) :
    (¬ idx < p.numChildren ∧ p.cells.drop idx = []) ∨ ∃ c x, idx < p.numChildren ∧
      p.cells[idx]? = some (c, some x) ∧ p.cells.drop idx = (c, some x) :: p.cells.drop (idx + 1) := by
  rw [hp.count]
  rcases Nat.lt_or_ge idx p.cells.length with hi | hi
  · obtain ⟨c, x, hq⟩ : ∃ c x, p.cells[idx] = (c, some x) := by
      obtain ⟨x, hx⟩ := Option.isSome_iff_exists.mp (hp.full _ (List.getElem_mem hi))
      exact ⟨p.cells[idx].1, x, by rw [← hx]⟩
    exact .inr ⟨c, x, hi, by rw [List.getElem?_eq_getElem hi, hq],
      by rw [← hq, ← List.drop_eq_getElem_cons hi]⟩
  · exact .inl ⟨Nat.not_lt.mpr hi, List.drop_eq_nil_of_le hi⟩

/-- The loop that skips the bytes without a child. -/
theorem skip_bytes {n : Inner (Node V)} {p : UInt8 → Bool} (hp : ∀ c, (n.look c).isSome = p c)
    (idx : Nat) :
    ((allBytes.drop idx).find? p = none ∧ (allBytes.drop idx).filterMap n.look = []) ∨
      ∃ c x, (allBytes.drop idx).find? p = some c ∧ n.look c = some x ∧
        (allBytes.drop idx).filterMap n.look =
          x :: (allBytes.drop (c.toNat + 1)).filterMap n.look := by
  have hnil : ∀ {cs : List UInt8}, (∀ c ∈ cs, p c = false) → cs.filterMap n.look = [] := fun h =>
    List.filterMap_eq_nil_iff.mpr fun c hc => by
      have := (hp c).trans (h c hc)
      simpa using this
  cases hf : (allBytes.drop idx).find? p with
  | none => exact .inl ⟨rfl, hnil fun c hc => by simpa using List.find?_eq_none.mp hf c hc⟩
  | some c =>
    obtain ⟨hc, pre, hpre, hno⟩ := find_bytes hf
    obtain ⟨x, hx⟩ := Option.isSome_iff_exists.mp ((hp c).trans hc)
    refine .inr ⟨c, x, rfl, hx, ?_⟩
    rw [hpre, List.filterMap_append, hnil hno, List.filterMap_cons, hx]
    rfl

/-- The next child of a node whose arrays agree, and those after it. -/
theorem nextChild_spec {n : Inner (Node V)} (valid : n.Valid) (idx : Nat) :
    (rest n idx = [] ∧ ∃ i, nextChild n idx = some (none, i)) ∨
      ∃ x i, nextChild n idx = some (some x, i) ∧ rest n idx = x :: rest n i := by
  cases n with
  | node4 p =>
    rcases drop_cells valid idx with ⟨hi, hd⟩ | ⟨c, x, hi, hx, hd⟩
    · exact .inl ⟨by simp [rest, hd], idx, by simp [nextChild, hi]⟩
    · exact .inr ⟨x, idx + 1, by simp [nextChild, hi, hx], by simp [rest, hd]⟩
  | node16 p =>
    rcases drop_cells valid idx with ⟨hi, hd⟩ | ⟨c, x, hi, hx, hd⟩
    · exact .inl ⟨by simp [rest, hd], idx, by simp [nextChild, hi]⟩
    · exact .inr ⟨x, idx + 1, by simp [nextChild, hi, hx], by simp [rest, hd]⟩
  | node48 p =>
    have hp : ∀ c, ((Inner.node48 p).look c).isSome = decide (p.childIndex c ≠ ART_EMPTY_SLOT) :=
      fun c => by
        rw [look_node48]
        by_cases hc : p.childIndex c = ART_EMPTY_SLOT
        · simp [hc]
        · obtain ⟨x, hx⟩ := Node48.Valid.hit valid c hc
          simp [hc, hx]
    rcases skip_bytes hp idx with ⟨hf, hr⟩ | ⟨c, x, hf, hx, hr⟩
    · exact .inl ⟨hr, 256, by simp only [nextChild, hf]⟩
    · exact .inr ⟨x, c.toNat + 1, by simp only [nextChild, hf, (Node48.index_of_look hx).2], hr⟩
  | node256 p =>
    have hp : ∀ c, ((Inner.node256 p).look c).isSome = (slot p.children c.toNat).isSome :=
      fun c => rfl
    rcases skip_bytes hp idx with ⟨hf, hr⟩ | ⟨c, x, hf, hx, hr⟩
    · exact .inl ⟨hr, 256, by simp only [nextChild, hf]⟩
    · rw [look_node256] at hx
      exact .inr ⟨x, c.toNat + 1, by simp only [nextChild, hf, hx], hr⟩

/-! ## Frames -/

/-- The node of a frame, if it is a leaf, or its next child. -/
def frameView (f : ArtIterFrame V) : Option (View (ArtIterFrame V) (ArtLeaf V)) :=
  match f.node with
  | .leaf l => some (.leaf l)
  | .inner n => (nextChild n f.childIdx).map fun
    | (some child, childIdx) => .push ⟨child, 0⟩ { f with childIdx }
    | (none, _) => .done

/-- What is still to come below a frame. -/
def below {A : Type} (f : ArtLeaf V → A) (g : List A → A) (frame : ArtIterFrame V) : A :=
  match frame.node with
  | .leaf l => f l
  | .inner n => g ((rest n frame.childIdx).map (Node.fold f g))

theorem below_start {A : Type} (f : ArtLeaf V → A) (g : List A → A) (node : Node V) :
    below f g ⟨node, 0⟩ = node.fold f g := by
  cases node with
  | leaf l => rfl
  | inner n =>
    rw [fold_inner, ← rest_zero]
    rfl

/-- The walk over frames whose nodes are valid. -/
def artTraversal : Traversal (frameView (V := V)) where
  Good f := ∀ m, f.node.Has m → m.Valid
  leaves := below (fun l => [l]) List.flatten
  nesting := below (fun _ => 0) fun hs => (hs.map (· + 1)).foldr max 0
  rounds := below (fun _ => 1) fun rs => (rs.map (· + 1)).sum + 1
  turn := by
    rintro ⟨node, idx⟩ good
    cases node with
    | leaf l => exact ⟨_, rfl, .leaf rfl rfl Nat.one_pos⟩
    | inner n =>
      have hv := good n (.self n)
      rcases nextChild_spec hv idx with ⟨hr, i, hn⟩ | ⟨x, i, hn, hr⟩
      · refine ⟨.done, by simp [frameView, hn], .done ?_ ?_ ?_⟩ <;> simp [below, hr]
      · have hx : x ∈ n.children := (rest_sublist n idx).subset (by rw [hr]; exact List.mem_cons_self)
        obtain ⟨c, hc⟩ := look_of_children hv hx
        refine ⟨.push ⟨x, 0⟩ ⟨.inner n, i⟩, by simp [frameView, hn],
          .push (Node.Has.down hc good) good ?_ ?_ ?_⟩
        · rw [below_start]
          simp [below, hr]
        · rw [below_start]
          simp [below, hr]
        · rw [below_start]
          simp only [below, hr, List.map_cons, List.sum_cons]
          omega

/-! ## Calls -/

theorem advanceLoop_eq : ∀ (fuel : Nat) (s : List (ArtIterFrame V)),
    advanceLoop fuel s =
      (stop frameView ART_MAX_DEPTH fuel s).map fun r => (r.1, r.2.bind ArtLeaf.value)
  | fuel, [] => by cases fuel <;> rfl
  | 0, _ :: _ => rfl
  | fuel + 1, ⟨.leaf l, idx⟩ :: s => rfl
  | fuel + 1, ⟨.inner n, idx⟩ :: s => by
    rw [advanceLoop, stop]
    simp only [frameView]
    cases nextChild n idx with
    | none => rfl
    | some r =>
      obtain ⟨o, i⟩ := r
      simp only [Option.bind_some, Option.map_some]
      cases o with
      | none => exact advanceLoop_eq fuel s
      | some x =>
        simp only
        split
        · exact advanceLoop_eq fuel _
        · rfl

/-- More rounds than a call takes. -/
def callRounds (s : List (ArtIterFrame V)) : Nat :=
  (s.map fun f => roundsLoop f.node.height f.node).sum

theorem sum_map_le {A : Type} {f g : A → Nat} (hfg : ∀ a, f a ≤ g a) {as bs : List A}
    (h : as.Sublist bs) : (as.map f).sum ≤ (bs.map g).sum := by
  induction h with
  | slnil => exact Nat.le_refl _
  | cons b _ ih =>
    rw [List.map_cons, List.sum_cons]
    exact ih.trans (Nat.le_add_left _ _)
  | cons_cons a _ ih =>
    rw [List.map_cons, List.map_cons, List.sum_cons, List.sum_cons]
    exact Nat.add_le_add (hfg a) ih

theorem roundsOf_le (s : List (ArtIterFrame V)) : artTraversal.roundsOf s ≤ callRounds s := by
  refine sum_map_le (fun f => ?_) (.refl s)
  obtain ⟨node, idx⟩ := f
  rw [roundsLoop_eq (Nat.le_refl _)]
  cases node with
  | leaf l => exact Nat.le_refl _
  | inner n =>
    show ((List.map _ (rest n idx)).map _).sum + 1 ≤ _
    rw [Node.rounds, fold_inner]
    exact Nat.succ_le_succ (sum_map_le (fun _ => Nat.le_refl _) ((rest_sublist n idx).map _))

/-- One call and the leaf, if any, at which it stops. -/
def stopCall (s : List (ArtIterFrame V)) :
    Option (List (ArtIterFrame V) × Option (ArtLeaf V)) :=
  stop frameView ART_MAX_DEPTH (callRounds s) s

/-- `advance_art_iterator` caches the value of the leaf at which it stops. -/
theorem advanceArtIterator_eq (iter : ArtIterator V) : advanceArtIterator iter =
    (stopCall iter.stack).map fun r =>
      { iter with stack := r.1, nextValue := r.2.bind ArtLeaf.value } := by
  rw [advanceArtIterator, advanceLoop_eq, Option.map_map]
  rfl

/-- The leaves at which calls of `advance_art_iterator` stop until `top` is -1, if
`n` calls are enough. -/
def stopsLoop : Nat → ArtIterator V → Option (List (ArtLeaf V))
  | 0, iter => if iter.stack.isEmpty then some [] else none
  | n + 1, iter =>
    if iter.stack.isEmpty then some []
    else (stopCall iter.stack).bind fun r => (advanceArtIterator iter).bind fun iter =>
      (stopsLoop n iter).map fun ls => r.2.toList ++ ls

theorem stopsLoop_eq : ∀ (n : Nat) (iter : ArtIterator V),
    stopsLoop n iter = stops stopCall n iter.stack
  | 0, ⟨[], _, _⟩ | n + 1, ⟨[], _, _⟩ | 0, ⟨_ :: _, _, _⟩ => rfl
  | n + 1, ⟨f :: s, version, value⟩ => by
    rw [stopsLoop, if_neg (by simp), advanceArtIterator_eq, stops]
    cases h : stopCall (f :: s) with
    | none => rfl
    | some r =>
      simp only [Option.bind_some, Option.map_some, stopsLoop_eq n]

/-- The iterator before the first call: the root on the stack, if there is one. -/
def seeded (t : CdsaArtTree V) : ArtIterator V :=
  ⟨t.root.toList.map fun r => ⟨r, 0⟩, t.version, none⟩

/-- The leaves of a tree in the order of the walk. -/
def CdsaArtTree.dfs (t : CdsaArtTree V) : List (ArtLeaf V) := t.root.toList.flatMap Node.dfs

/-- Every node of the tree has its children right. -/
def CdsaArtTree.Valid (t : CdsaArtTree V) : Prop := ∀ r m, t.root = some r → r.Has m → m.Valid

/-- How many inner nodes are nested. -/
def CdsaArtTree.nesting (t : CdsaArtTree V) : Nat := (t.root.map Node.nesting).getD 0

section
variable {t : CdsaArtTree V}

theorem CdsaArtTree.Valid.dfs_perm (valid : t.Valid) : t.dfs.Perm t.leaves := by
  rw [CdsaArtTree.dfs, CdsaArtTree.leaves, leavesAt]
  cases hr : t.root with
  | none => exact .refl _
  | some r =>
    simp only [Option.toList_some, List.flatMap_cons, List.flatMap_nil, List.append_nil]
    exact Art.dfs_perm _ (Nat.le_refl _) fun m => valid r m hr

theorem seeded_good (valid : t.Valid) : ∀ f ∈ (seeded t).stack, artTraversal.Good f := by
  rintro f hf m hm
  obtain ⟨r, hr, rfl⟩ := List.mem_map.mp hf
  exact valid r m (Option.mem_toList.mp hr) hm

theorem seeded_leaves (t : CdsaArtTree V) : artTraversal.leavesOf (seeded t).stack = t.dfs := by
  rw [Traversal.leavesOf, seeded, List.flatMap_map, CdsaArtTree.dfs]
  exact List.flatMap_congr fun r _ => below_start _ _ r

theorem seeded_fits_iff : artTraversal.Fits ART_MAX_DEPTH (seeded t).stack ↔
    t.nesting < ART_MAX_DEPTH := by
  unfold seeded CdsaArtTree.nesting
  cases t.root with
  | none => exact iff_of_true trivial (show 0 < ART_MAX_DEPTH by decide)
  | some r =>
    have hn : artTraversal.nesting (⟨r, 0⟩ : ArtIterFrame V) = r.nesting :=
      below_start (fun _ => 0) (fun hs => (hs.map (· + 1)).foldr max 0) r
    simp [Traversal.Fits, hn]

end

/-- The walk from the root stops at every leaf once, in depth-first order. -/
theorem dfs_visits_each_leaf_once (t : CdsaArtTree V) (valid : t.Valid)
    (deep : t.nesting < ART_MAX_DEPTH) :
    stopsLoop (t.leaves.length + 1) (seeded t) = some t.dfs ∧ t.dfs.Perm t.leaves := by
  refine ⟨?_, valid.dfs_perm⟩
  rw [stopsLoop_eq, ← seeded_leaves]
  refine artTraversal.stops_spec roundsOf_le (seeded_good valid) (seeded_fits_iff.mpr deep) ?_
  rw [seeded_leaves, valid.dfs_perm.length_eq]
  exact Nat.lt_succ_self _

theorem WellFormed.valid {t : CdsaArtTree V} (h : WellFormed t) : t.Valid :=
  fun r m hr hm => (h.counts r m hr hm).1

/-- The keys "ab" and "ac" below the prefix "a". -/
theorem dfs_visits_each_leaf_once_two :
    (stopsLoop 3 (seeded (smallTree (some abNode) 2))).map (List.map ArtLeaf.value) =
      some [some 1, some 2] := by
  have hlen : (smallTree (some abNode) 2).leaves.length = 2 := abNode_formed.size.symm
  have h := (dfs_visits_each_leaf_once _ abNode_formed.wellFormed.valid (by decide +kernel)).1
  rw [hlen] at h
  rw [h]
  rfl

end Cdsa.Art
