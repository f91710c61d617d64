import Mathlib.Algebra.GroupWithZero.Nat
import Cdsa.L2Art.Account
import Cdsa.L2Art.Occupancy
import Cdsa.L2Art.Room

/-!
# The stock of the pools

The blocks of a pool are on its free list or in the tree (`Partitioned`), in a
fresh tree and after every operation of a run (`Sound.exec_moves`). So
what is left in a pool is its capacity less the nodes of its type
(`free_length`). An inner node has two children at least; there are fewer of
them than leaves (`inner_lt_leaves`), and as long as there are fewer leaves than
blocks in a pool no pool is exhausted (`Sound.stocked`).
-/
namespace Cdsa.Art

open Cdsa.Core Cdsa.Memory

variable {V : Type} {Q Q' D : NodeType → Nat → Nat → Prop}

/-! ## A fresh slab -/

theorem artSlabCreate_fresh {mem mem' : Mem} {nodesPerTier : Nat} {slab : CdsaArtSlab}
    (h : artSlabCreate mem nodesPerTier = some (some slab, mem')) (type : NodeType) :
    (slab.pools type).capacity = nodesPerTier ∧
      (slab.pools type).freeList = List.range nodesPerTier := by
  unfold artSlabCreate at h
  split at h
  · cases h
  obtain ⟨⟨p4, m4⟩, h4, h⟩ := Option.bind_eq_some_iff.mp h
  obtain ⟨⟨p16, m16⟩, h16, h⟩ := Option.bind_eq_some_iff.mp h
  obtain ⟨⟨p48, m48⟩, h48, h⟩ := Option.bind_eq_some_iff.mp h
  obtain ⟨⟨p256, m256⟩, h256, h⟩ := Option.bind_eq_some_iff.mp h
  obtain ⟨⟨pLeaf, mLeaf⟩, hLeaf, h⟩ := Option.bind_eq_some_iff.mp h
  simp only at h
  split at h
  · cases h
    cases type with
    | node4 => exact kpoolCreate_fresh h4
    | node16 => exact kpoolCreate_fresh h16
    | node48 => exact kpoolCreate_fresh h48
    | node256 => exact kpoolCreate_fresh h256
    | leafNode => exact kpoolCreate_fresh hLeaf
  · obtain ⟨_, -, he⟩ := Option.map_eq_some_iff.mp h
    cases he

/-- Every block of a fresh tree is free. -/
theorem cdsaCreateArt_fresh {mem mem' : Mem} {nodesPerTier version : Nat} {t : CdsaArtTree V}
    (h : cdsaCreateArt mem nodesPerTier version = some (some t, mem')) (type : NodeType) :
    (t.env.slab.pools type).capacity = nodesPerTier ∧
      t.env.free type = List.range nodesPerTier := by
  unfold cdsaCreateArt at h
  split at h
  · cases h
  obtain ⟨⟨o, m⟩, hs, h⟩ := Option.bind_eq_some_iff.mp h
  cases o with
  | none =>
    obtain ⟨_, -, he⟩ := Option.map_eq_some_iff.mp h
    cases he
  | some slab =>
    cases h
    exact artSlabCreate_fresh hs type

theorem cdsaCreateArt_partitioned {mem mem' : Mem} {nodesPerTier version : Nat} {t : CdsaArtTree V}
    (h : cdsaCreateArt mem nodesPerTier version = some (some t, mem')) : t.Partitioned := by
  intro type
  obtain ⟨hcap, hfree⟩ := cdsaCreateArt_fresh h type
  rw [hfree, (cdsaCreateArt_empty h).1]
  simp [hcap]

/-! ## A run -/

theorem WF.mono (hQ : ∀ t n k, Q t n k → Q' t n k) {path : List UInt8} {node : Node V}
    (h : WF Q path node) : WF Q' path node := by
  induction h with
  | leaf follows => exact .leaf follows
  | inner valid header bound occupied count _ ih =>
    exact .inner valid header bound occupied (hQ _ _ _ count) ih

theorem Formed.mono (hQ : ∀ t n k, Q t n k → Q' t n k) {t : CdsaArtTree V} (h : Formed Q t) :
    Formed Q' t := ⟨fun r hr => (h.shape r hr).mono hQ, h.size⟩

theorem Sound.mono (hQ : ∀ t n k, Q t n k → Q' t n k) {base : UInt64} {bs : List (Ptr × Nat)}
    {t : CdsaArtTree V} (h : Sound Q base bs t) : Sound Q' base bs t :=
  ⟨h.toFormed.mono hQ, h.owns, h.never⟩

theorem Tight.exact (t : NodeType) (n k : Nat) (h : Tight t n k) : Exact t n k := by
  obtain ⟨hn, hleast, hcap⟩ := h
  refine ⟨hn, ?_, hcap⟩
  cases t <;> simp only [NodeType.least, NodeType.capacity] at hleast hcap <;> omega

/-- A deletion that finds its leaf takes no other block out of the tree. -/
theorem cdsaDeleteArt_moves {t t' : CdsaArtTree V} {key : CStr}
    (counts : ∀ r m, t.root = some r → r.Has m → m.Valid ∧ m.Counts Exact)
    (h : cdsaDeleteArt t key = some (.ok, t')) :
    Moves t.env (usedAt t.root) t'.env (usedAt t'.root) := by
  unfold cdsaDeleteArt at h
  cases hr : t.root with
  | none =>
    rw [hr] at h
    cases h
  | some r =>
    rw [hr] at h
    obtain ⟨⟨o, deleted, e⟩, hrec, he⟩ := Option.map_eq_some_iff.mp h
    cases deleted with
    | false => cases he
    | true =>
      cases he
      rw [usedAt_some]
      exact recursiveDelete_moves key (fun m hm => counts r m hr hm) hrec

section
variable {base : UInt64} {bs : List (Ptr × Nat)} {t t' : CdsaArtTree V}

theorem Sound.placed (h : Sound Q base bs t) : t.Placed := fun r hr => (h.filed r hr).placed

/-- An operation exchanges what the tree uses with the pools. -/
theorem Sound.exec_moves (hS : Shrinks Q D) (hQ : ∀ t n k, Q t n k → Exact t n k)
    (h : Sound Q base bs t) {op : Op V} (hm : Meets D t op) {o : Out V}
    (he : Art.exec t op = some (o, t')) : Moves t.env (usedAt t.root) t'.env (usedAt t'.root) := by
  cases op with
  | insert key value =>
    obtain ⟨⟨s, t1⟩, hi, he⟩ := Option.map_eq_some_iff.mp he
    cases he
    exact cdsaInsertArt_moves h.placed hi
  | delete key =>
    obtain ⟨⟨s, t1⟩, hd, he⟩ := Option.map_eq_some_iff.mp he
    cases he
    have hcase := cdsaDeleteArt_discarded hS h.toFormed key hm.2
    rw [hd] at hcase
    cases hcase with
    | absent => exact .refl _ _
    | cut cuts => exact absurd cuts hm.1
    | removed => exact cdsaDeleteArt_moves (h.toFormed.mono hQ).wellFormed.counts hd
  | search key =>
    obtain ⟨v, -, he⟩ := Option.map_eq_some_iff.mp he
    cases he
    exact .refl _ _

end

/-! ## What is left in the pools -/

theorem Inner.type_ne_leaf {P : Type} (n : Inner P) : n.type ≠ .leafNode := by
  cases n <;> simp [Inner.type]

/-- How many nodes of a type there are below a slot. -/
def usedOf (o : Option (Node V)) (type : NodeType) : Nat := ((usedAt o).map Prod.fst).count type

/-- What is not in the tree is free. -/
theorem free_length {t : CdsaArtTree V} (h : t.Partitioned) (type : NodeType) :
    (t.env.free type).length + usedOf t.root type = (t.env.slab.pools type).capacity := by
  have hl := (h type).length_eq
  rw [List.length_append, List.length_map, List.length_range] at hl
  rw [← hl, usedOf, List.count_eq_countP, List.countP_map, List.countP_eq_length_filter]
  rfl

theorem sum_add_length_le {A : Type} {f g : A → Nat} : ∀ {l : List A}, (∀ q ∈ l, f q < g q) →
    (l.map f).sum + l.length ≤ (l.map g).sum
  | [], _ => Nat.le_refl _
  | q :: l, h => by
    have hq := h q List.mem_cons_self
    have hl := sum_add_length_le fun r hr => h r (List.mem_cons_of_mem q hr)
    simp only [List.map_cons, List.sum_cons, List.length_cons]
    omega

/-- A tree has a leaf block for each leaf, and fewer inner nodes than leaves. -/
theorem inner_lt_leaves {path : List UInt8} {node : Node V} (hf : Filed path node)
    (two : ∀ m, node.Has m → 2 ≤ m.kids.length) :
    (node.used.map Prod.fst).count .leafNode = node.leaves.length ∧
      (node.used.map Prod.fst).countP (· ≠ .leafNode) < node.leaves.length := by
  induction hf with
  | leaf => simp
  | @inner path shared n _ _ _ kids ih =>
    have hn := two n (.self n)
    have hkid := fun (q : UInt8 × Node V) (hq : q ∈ n.kids) =>
      ih q.1 q.2 (mem_kids.mp hq) (Node.Has.down (mem_kids.mp hq) two)
    have htype := n.type_ne_leaf
    rw [used_inner, leaves_inner, List.map_cons, List.map_flatMap, List.length_flatMap]
    constructor
    · rw [List.count_cons_of_ne htype, List.count_flatMap]
      congr 1
      apply List.map_congr_left
      intro q hq
      exact (hkid q hq).1
    · rw [List.countP_cons_of_pos (by simpa using htype), List.countP_flatMap]
      -- each child has one more leaf than inner nodes, and there are two children
      have hsum := sum_add_length_le fun q hq => (hkid q hq).2
      simp only [Function.comp_def]
      omega

theorem count_le_inner {l : List NodeType} {type : NodeType} (ht : type ≠ .leafNode) :
    l.count type ≤ l.countP (· ≠ .leafNode) := by
  rw [List.count_eq_countP]
  apply List.countP_mono_left
  intro t _ h
  simp_all

/-- As long as a pool has more blocks than the tree has leaves, it has one left;
the pool of the leaves has as many left as there are leaves less. -/
theorem Sound.left {base : UInt64} {bs : List (Ptr × Nat)} {t : CdsaArtTree V}
    (hQ : ∀ t n k, Q t n k → Exact t n k) (h : Sound Q base bs t) (hp : t.Partitioned) :
    (t.env.free .leafNode).length + t.env.size = (t.env.slab.pools .leafNode).capacity ∧
      ∀ type, type ≠ .leafNode →
        (t.env.slab.pools type).capacity ≤ (t.env.free type).length + t.env.size ∧
        (0 < t.env.size →
          (t.env.slab.pools type).capacity < (t.env.free type).length + t.env.size) := by
  have hsize := h.size
  have hleaf := free_length hp .leafNode
  unfold usedOf CdsaArtTree.leaves at *
  cases hr : t.root with
  | none =>
    rw [hr] at hleaf hsize
    refine ⟨by simp_all, fun type _ => ?_⟩
    have hfree := free_length hp type
    rw [usedOf, hr] at hfree
    simp at *
    omega
  | some r =>
    rw [hr] at hleaf hsize
    rw [usedAt_some] at hleaf
    rw [leavesAt_some] at hsize
    have hcounts := (h.toFormed.mono hQ).wellFormed.counts r
    obtain ⟨hl, hi⟩ := inner_lt_leaves (h.filed r hr) fun m hm => (hcounts m hr hm).2.2.1
    refine ⟨by omega, fun type ht => ?_⟩
    have hfree := free_length hp type
    rw [usedOf, hr, usedAt_some] at hfree
    have hle := count_le_inner (l := r.used.map Prod.fst) ht
    omega

/-- With fewer leaves than blocks in each pool, every pool has a block. -/
theorem Sound.stocked {base : UInt64} {bs : List (Ptr × Nat)} {t : CdsaArtTree V}
    (hQ : ∀ t n k, Q t n k → Exact t n k) (h : Sound Q base bs t) (hp : t.Partitioned)
    (room : ∀ type, t.env.size < (t.env.slab.pools type).capacity) : t.env.Stocked := by
  obtain ⟨hleaf, hinner⟩ := h.left hQ hp
  intro type hnil
  have hroom := room type
  by_cases ht : type = .leafNode
  · subst ht
    rw [hnil, List.length_nil] at hleaf
    omega
  · have hle := (hinner type ht).1
    rw [hnil, List.length_nil] at hle
    omega

end Cdsa.Art
