import Cdsa.L2Art.Walk

/-!
# Printing a tree

`print_node_visual` keeps in `is_last` for every level whether the child it is
printing there is the last one, and draws the rails in front of a node from the
levels above it. A line of the output is a node with its rails and its byte; the
words on it are left out. Reading or writing past the end of `is_last` is
undefined, and happens exactly if the tree nests deeper than `is_last` is long
(`printNodeVisual_returns`).
-/
namespace Cdsa.Art

open Cdsa.Core Cdsa.Memory

variable {V : Type}

structure Line (V : Type) where
  rails : List Bool
  edgeChar : UInt8
  node : Node V

/-- The slots whose children are printed, with their bytes. -/
def Inner.printed : Inner (Node V) → List (UInt8 × Option (Node V))
  | .node4 n | .node16 n => n.cells
  | .node48 n => n.cells
  | .node256 n => n.cells

/-- `is_last[level] = b`. -/
def setFlag (isLast : List Bool) (level : Nat) (b : Bool) : Option (List Bool) :=
  if level < isLast.length then some (isLast.set level b) else none

/-- The loops over the children; `count` is `child_count`.
mirrors src/art.c:423-454 -/
def printChildren (print : Option (Node V) → UInt8 → List Bool → Option (List (Line V) × List Bool))
    (level total : Nat) :
    Nat → List (UInt8 × Option (Node V)) → List Bool → Option (List (Line V) × List Bool)
  | _, [], isLast => some ([], isLast)
  | count, q :: cells, isLast =>
    (setFlag isLast level (count + 1 = total)).bind fun isLast =>
      (print q.2 q.1 isLast).bind fun r =>
        (printChildren print level total (count + 1) cells r.2).map fun r' => (r.1 ++ r'.1, r'.2)

/-- The lines, and `is_last` afterwards.
mirrors src/art.c:361-455 -/
def printNodeVisual :
    Nat → Nat → Option (Node V) → UInt8 → List Bool → Option (List (Line V) × List Bool)
  | _, _, none, _, isLast => some ([], isLast)
  | fuel, level, some node, edgeChar, isLast =>
    if level ≤ isLast.length then
      let line := ⟨isLast.take level, edgeChar, node⟩
      match fuel, node with
      | _, .leaf _ => some ([line], isLast)
      | 0, .inner _ => none
      | fuel + 1, .inner n =>
        (printChildren (printNodeVisual fuel (level + 1)) level n.numChildren 0 n.printed isLast).map
          fun r => (line :: r.1, r.2)
    else none

/-- mirrors src/art.c:773-784 -/
def printArt (t : CdsaArtTree V) : Option (List (Line V)) :=
  match t.root with
  | none => some []
  | some root =>
    (printNodeVisual root.height 0 (some root) 0 (List.replicate 256 false)).map Prod.fst

/-! ## How long `is_last` has to be -/

theorem setFlag_length {isLast isLast' : List Bool} {level : Nat} {b : Bool}
    (h : setFlag isLast level b = some isLast') :
    level < isLast.length ∧ isLast'.length = isLast.length := by
  unfold setFlag at h
  split at h
  · next hl =>
    cases h
    exact ⟨hl, List.length_set ..⟩
  · cases h

/-- The children that are printed are those of the node. -/
theorem mem_printed {n : Inner (Node V)} (valid : n.Valid) {o : Option (Node V)} :
    o ∈ n.printed.map Prod.snd ↔ ∃ x ∈ n.children, o = some x := by
  have hcells : ∀ {capacity : Nat} {p : Packed (Node V)}, p.Valid capacity →
      (o ∈ p.cells.map Prod.snd ↔ ∃ x ∈ p.cells.filterMap Prod.snd, o = some x) := by
    intro capacity p hp
    constructor
    · intro h
      obtain ⟨q, hq, rfl⟩ := List.mem_map.mp h
      obtain ⟨x, hx⟩ := Option.isSome_iff_exists.mp (hp.full q hq)
      exact ⟨x, List.mem_filterMap.mpr ⟨q, hq, hx⟩, hx⟩
    · rintro ⟨x, hx, rfl⟩
      obtain ⟨q, hq, hx⟩ := List.mem_filterMap.mp hx
      exact List.mem_map.mpr ⟨q, hq, hx⟩
  have hkids : ∀ m : Inner (Node V), o ∈ (kidCells m).map Prod.snd ↔
      ∃ x ∈ m.kids.map Prod.snd, o = some x := fun m => by
    simp only [kidCells, List.map_map, List.mem_map, Function.comp_apply]
    constructor
    · rintro ⟨q, hq, rfl⟩; exact ⟨q.2, ⟨q, hq, rfl⟩, rfl⟩
    · rintro ⟨x, ⟨q, hq, rfl⟩, rfl⟩; exact ⟨q, hq, rfl⟩
  cases n with
  | node4 p => exact hcells valid
  | node16 p => exact hcells valid
  | node48 p =>
    rw [Inner.printed, Node48.cells_eq (Node48.Valid.tabled valid)]
    exact hkids _
  | node256 p =>
    rw [Inner.printed, Node256.cells_eq]
    exact hkids _

section
variable {print : Option (Node V) → UInt8 → List Bool → Option (List (Line V) × List Bool)}
  {level total : Nat}

theorem printChildren_length
    (keep : ∀ {o c isLast r}, print o c isLast = some r → r.2.length = isLast.length) :
    ∀ {cells : List (UInt8 × Option (Node V))} {count isLast r},
      printChildren print level total count cells isLast = some r → r.2.length = isLast.length
  | [], _, isLast, r, h => by cases h; rfl
  | q :: cells, count, isLast, r, h => by
    obtain ⟨isLast1, h1, h⟩ := Option.bind_eq_some_iff.mp h
    obtain ⟨r1, hr1, h⟩ := Option.bind_eq_some_iff.mp h
    obtain ⟨r2, hr2, rfl⟩ := Option.map_eq_some_iff.mp h
    exact (printChildren_length keep hr2).trans ((keep hr1).trans (setFlag_length h1).2)

/-- The children are printed if there is a flag for them, and each can be. -/
theorem printChildren_returns
    (keep : ∀ {o c isLast r}, print o c isLast = some r → r.2.length = isLast.length) {size : Nat}
    {P : UInt8 × Option (Node V) → Prop} : ∀ {cells : List (UInt8 × Option (Node V))},
      (∀ q ∈ cells, ∀ isLast, isLast.length = size → ((print q.2 q.1 isLast).isSome ↔ P q)) →
      ∀ count isLast, isLast.length = size →
        ((printChildren print level total count cells isLast).isSome ↔
          ∀ q ∈ cells, level < size ∧ P q)
  | [], _, _, _, _ => by simp [printChildren]
  | q :: cells, h, count, isLast, hlen => by
    have ⟨hq, hcells⟩ := List.forall_mem_cons.mp h
    rw [List.forall_mem_cons, printChildren]
    by_cases hl : level < size
    · obtain ⟨isLast1, h1⟩ : ∃ isLast1, setFlag isLast level (count + 1 = total) = some isLast1 :=
        ⟨_, if_pos (hlen ▸ hl)⟩
      have hlen1 := (setFlag_length h1).2.trans hlen
      rw [h1, Option.bind_some, ← hq isLast1 hlen1]
      cases hp : print q.2 q.1 isLast1 with
      | none => simp
      | some r =>
        have := printChildren_returns keep hcells (count + 1) r.2 ((keep hp).trans hlen1)
        simp [this, hl]
    · have hnone : setFlag isLast level (count + 1 = total) = none := if_neg (hlen ▸ hl)
      simp [hnone, hl]

end

theorem printNodeVisual_length : ∀ {fuel level : Nat} {o : Option (Node V)} {c : UInt8}
    {isLast : List Bool} {r : List (Line V) × List Bool},
    printNodeVisual fuel level o c isLast = some r → r.2.length = isLast.length
  | fuel, level, none, c, isLast, r, h => by cases fuel <;> cases h <;> rfl
  | fuel, level, some (.leaf l), c, isLast, r, h => by
    cases fuel <;> (unfold printNodeVisual at h; split at h <;> cases h; rfl)
  | 0, level, some (.inner n), c, isLast, r, h => by
    unfold printNodeVisual at h
    split at h <;> cases h
  | fuel + 1, level, some (.inner n), c, isLast, r, h => by
    unfold printNodeVisual at h
    split at h
    · obtain ⟨r', hr', rfl⟩ := Option.map_eq_some_iff.mp h
      exact (printChildren_length (fun h => printNodeVisual_length h) hr' :)
    · cases h

/-- A subtree is printed exactly if `is_last` has a flag for every level that it nests. -/
theorem printNodeVisual_returns : ∀ {fuel level : Nat} {node : Node V} {c : UInt8}
    {isLast : List Bool}, node.height ≤ fuel → (∀ m, node.Has m → m.Valid) →
      ((printNodeVisual fuel level (some node) c isLast).isSome ↔
        level + node.nesting ≤ isLast.length)
  | fuel, level, .leaf l, c, isLast, _, _ => by
    by_cases hl : level ≤ isLast.length <;> cases fuel <;> simp [printNodeVisual, hl, Node.nesting]
  | 0, level, .inner n, c, isLast, hf, _ => by have := Node.height_inner_pos n; omega
  | fuel + 1, level, .inner n, c, isLast, hf, valid => by
    have hv := valid n (.self n)
    unfold printNodeVisual
    by_cases hl : level ≤ isLast.length
    · have hchild : ∀ q ∈ n.printed, ∀ isLast', isLast'.length = isLast.length →
          ((printNodeVisual fuel (level + 1) q.2 q.1 isLast').isSome ↔
            ∀ x, q.2 = some x → level + 1 + x.nesting ≤ isLast.length) := fun q hq isLast' hlen => by
        obtain ⟨x, hx, ho⟩ := (mem_printed hv).mp (List.mem_map_of_mem (f := Prod.snd) hq)
        obtain ⟨d, hd⟩ := look_of_children hv hx
        rw [ho, printNodeVisual_returns (by have := height_children hx; omega)
          (Node.Has.down hd valid), hlen]
        exact ⟨fun h y hy => by cases hy; exact h, fun h => h x rfl⟩
      rw [if_pos hl, Option.isSome_map,
        printChildren_returns (fun h => printNodeVisual_length h) hchild 0 isLast rfl,
        show level + (Node.inner n).nesting ≤ isLast.length ↔
          (Node.inner n).nesting ≤ isLast.length - level by omega, nesting_inner_le]
      constructor
      · intro h x hx
        obtain ⟨q, hq, ho⟩ := List.mem_map.mp ((mem_printed hv).mpr ⟨x, hx, rfl⟩)
        have := (h q hq).2 x ho
        omega
      · intro h q hq
        obtain ⟨x, hx, ho⟩ := (mem_printed hv).mp (List.mem_map_of_mem (f := Prod.snd) hq)
        have := h x hx
        refine ⟨by omega, fun y hy => ?_⟩
        rw [ho] at hy
        cases hy
        omega
    · rw [if_neg hl]
      exact iff_of_false (by simp) (by omega)

/-- `is_last` has 256 entries. -/
theorem printArt_returns {t : CdsaArtTree V} (valid : t.Valid) :
    (printArt t).isSome ↔ t.nesting ≤ 256 := by
  unfold printArt CdsaArtTree.nesting
  cases hr : t.root with
  | none => simp
  | some r =>
    simp only [Option.isSome_map, Option.map_some, Option.getD_some]
    rw [printNodeVisual_returns (Nat.le_refl _) fun m => valid r m hr, Nat.zero_add,
      List.length_replicate]

end Cdsa.Art
