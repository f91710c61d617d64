import Cdsa.L2Art.Morph

/-!
# Well-formed trees

`WF Q path node`: the subtree `node` hangs below the key bytes `path`. All its
leaves continue `path`; an inner node's prefix is the bytes they go on to share,
its children are filed under the byte after those, and `Q` relates the type of
a node, its `num_children` and the number of children it really has.

`Filed path node` says the same without bound and counts; it is all that a
search needs.

`leaves` lists the leaves of a subtree. Changing one child of a node exchanges
the leaves of that child (`leaves_perm`).
-/
namespace Cdsa.Art

open Cdsa.Core Cdsa.Memory

variable {V : Type}

/-! ## Heights -/

theorem cellsHeight_mem {c : UInt8} {x : Node V} : ∀ {cells : List (UInt8 × Option (Node V))},
    (c, some x) ∈ cells → x.height ≤ cellsHeight cells
  | (d, none) :: cells, h => by
    rw [cellsHeight]
    exact cellsHeight_mem ((List.mem_cons.mp h).resolve_left fun he => by cases he)
  | (d, some y) :: cells, h => by
    rw [cellsHeight]
    rcases List.mem_cons.mp h with he | h
    · cases he; exact Nat.le_max_left _ _
    · exact (cellsHeight_mem h).trans (Nat.le_max_right _ _)

theorem slotsHeight_slot {x : Node V} : ∀ {children : List (Option (Node V))} {i : Nat},
    slot children i = some x → x.height ≤ slotsHeight children
  | none :: children, 0, h => by cases h
  | some y :: children, 0, h => by cases h; rw [slotsHeight]; exact Nat.le_max_left _ _
  | none :: children, i + 1, h => by rw [slotsHeight]; exact slotsHeight_slot h
  | some y :: children, i + 1, h => by
    rw [slotsHeight]; exact (slotsHeight_slot (i := i) h).trans (Nat.le_max_right _ _)

theorem cell_of_cellLook {cells : List (UInt8 × Option (Node V))} {c : UInt8} {x : Node V}
    (h : cellLook cells c = some x) : (c, some x) ∈ cells := by
  obtain ⟨⟨d, o⟩, hf, rfl⟩ := Option.map_eq_some_iff.mp (Option.join_eq_some_iff.mp h)
  have hd : d = c := by simpa using List.find?_some hf
  exact hd ▸ List.mem_of_find?_eq_some hf

/-- A child is lower than its node. -/
theorem height_look {n : Inner (Node V)} {c : UInt8} {x : Node V} (h : n.look c = some x) :
    x.height < (Node.inner n).height := by
  cases n with
  | node4 n => rw [Node.height]; exact Nat.lt_succ_of_le (cellsHeight_mem (cell_of_cellLook h))
  | node16 n => rw [Node.height]; exact Nat.lt_succ_of_le (cellsHeight_mem (cell_of_cellLook h))
  | node48 n =>
    rw [Node.height]
    exact Nat.lt_succ_of_le (slotsHeight_slot (Node48.index_of_look h).2)
  | node256 n => rw [Node.height]; exact Nat.lt_succ_of_le (slotsHeight_slot h)

theorem Node.height_inner_pos (n : Inner (Node V)) : 0 < (Node.inner n).height := by
  cases n <;> rw [Node.height] <;> exact Nat.succ_pos _

/-! ## What is below a node -/

section
variable {A : Type} (f : ArtLeaf V → List A) (g : Inner (Node V) → List A)

def collectLoop : Nat → Node V → List A
  | _, .leaf l => f l
  | 0, .inner n => g n
  | fuel + 1, .inner n => g n ++ n.kids.flatMap fun q => collectLoop fuel q.2

/-- What `f` lists for the leaves and `g` for the inner nodes of a subtree. -/
def Node.collect (node : Node V) : List A := collectLoop f g node.height node

theorem collectLoop_fuel : ∀ {i j : Nat} {node : Node V}, node.height ≤ i → node.height ≤ j →
    collectLoop f g i node = collectLoop f g j node
  | i, j, .leaf l, _, _ => by cases i <;> cases j <;> rfl
  | i, j, .inner n, hi, hj => by
    have hkid : ∀ q ∈ n.kids, q.2.height < (Node.inner n).height := fun q hq =>
      height_look (mem_kids.mp hq)
    cases i with
    | zero =>
      cases hk : n.kids with
      | nil => cases j <;> simp [collectLoop, hk]
      | cons q _ => have := hkid q (by simp [hk]); omega
    | succ i =>
      cases j with
      | zero =>
        cases hk : n.kids with
        | nil => simp [collectLoop, hk]
        | cons q _ => have := hkid q (by simp [hk]); omega
      | succ j =>
        refine congrArg (g n ++ ·) (List.flatMap_congr fun q hq => ?_)
        have := hkid q hq
        exact collectLoop_fuel (by omega) (by omega)

theorem collect_inner (n : Inner (Node V)) :
    (Node.inner n).collect f g = g n ++ n.kids.flatMap fun q => q.2.collect f g := by
  rw [Node.collect, collectLoop_fuel f g (Nat.le_refl _) (Nat.le_succ _)]
  exact congrArg (g n ++ ·) (List.flatMap_congr fun q hq =>
    collectLoop_fuel f g (Nat.le_of_lt (height_look (mem_kids.mp hq))) (Nat.le_refl _))

end

/-- What is below the children of a node, once the one for `c` is `o`. -/
theorem flatMap_kids_perm {A : Type} (F : Node V → List A) {n n' : Inner (Node V)} {c : UInt8}
    {o : Option (Node V)} (h : n'.look = Function.update n.look c o) :
    (n'.kids.flatMap fun q => F q.2).Perm (o.toList.flatMap F ++
      (graph allBytes (Function.update n.look c none)).flatMap fun q => F q.2) := by
  have hp := graph_update_perm allBytes_nodup (mem_allBytes c) (Function.update n.look c none) o
  rw [Function.update_idem, Function.update_self, ← h] at hp
  have hf := hp.flatMap_right (f := fun q : UInt8 × Node V => F q.2)
  rw [List.flatMap_append, List.flatMap_append] at hf
  cases o <;> simpa [Inner.kids] using hf

/-! ## Leaves -/

def leavesLoop : Nat → Node V → List (ArtLeaf V)
  | _, .leaf l => [l]
  | 0, .inner _ => []
  | fuel + 1, .inner n => n.kids.flatMap fun q => leavesLoop fuel q.2

/-- The leaves below a node. -/
def Node.leaves (node : Node V) : List (ArtLeaf V) := leavesLoop node.height node

/-- The leaves below a slot. -/
def leavesAt (o : Option (Node V)) : List (ArtLeaf V) := o.toList.flatMap Node.leaves

@[simp] theorem leavesAt_none : leavesAt (none : Option (Node V)) = [] := rfl

@[simp] theorem leavesAt_some (x : Node V) : leavesAt (some x) = x.leaves := by simp [leavesAt]

@[simp] theorem leaves_leaf (l : ArtLeaf V) : (Node.leaf l).leaves = [l] := rfl

theorem leavesLoop_eq : ∀ (fuel : Nat) (node : Node V),
    leavesLoop fuel node = collectLoop (fun l => [l]) (fun _ => []) fuel node
  | fuel, .leaf l => by cases fuel <;> rfl
  | 0, .inner n => rfl
  | fuel + 1, .inner n => List.flatMap_congr fun q _ => leavesLoop_eq fuel q.2

theorem leaves_inner (n : Inner (Node V)) :
    (Node.inner n).leaves = n.kids.flatMap fun q => q.2.leaves := by
  rw [Node.leaves, leavesLoop_eq]
  exact (collect_inner ..).trans (List.flatMap_congr fun q _ => (leavesLoop_eq ..).symm)

theorem mem_leaves_inner {n : Inner (Node V)} {l : ArtLeaf V} :
    l ∈ (Node.inner n).leaves ↔ ∃ c x, n.look c = some x ∧ l ∈ x.leaves := by
  rw [leaves_inner, List.mem_flatMap]
  constructor
  · rintro ⟨⟨c, x⟩, hq, hl⟩; exact ⟨c, x, mem_kids.mp hq, hl⟩
  · rintro ⟨c, x, hc, hl⟩; exact ⟨(c, x), mem_kids.mpr hc, hl⟩

/-- The leaves below the children of other bytes. -/
def others (n : Inner (Node V)) (c : UInt8) : List (ArtLeaf V) :=
  (graph allBytes (Function.update n.look c none)).flatMap fun q => q.2.leaves

theorem leaves_perm {n n' : Inner (Node V)} {c : UInt8} {o : Option (Node V)}
    (h : n'.look = Function.update n.look c o) :
    (Node.inner n').leaves.Perm (leavesAt o ++ others n c) := by
  rw [leaves_inner]
  exact flatMap_kids_perm Node.leaves h

theorem leaves_split {n : Inner (Node V)} {c : UInt8} (o : Option (Node V)) (h : n.look c = o) :
    (Node.inner n).leaves.Perm (leavesAt o ++ others n c) :=
  leaves_perm (by rw [← h, Function.update_eq_self])

theorem leaves_setHeader (n : Inner (Node V)) (h : NodeHeader) :
    (Node.inner (n.setHeader h)).leaves = (Node.inner n).leaves := by
  rw [leaves_inner, leaves_inner, setHeader_kids]

/-! ## Well-formed subtrees -/

/-- The header of a node below which all leaves share `shared`: its length and
its first ten bytes. -/
structure NodeHeader.Describes (h : NodeHeader) (shared : List UInt8) : Prop where
  len : h.prefixLen = shared.length
  room : h.prefixBytes.length = 10
  bytes : h.prefixBytes.take shared.length = shared.take 10

/-- A header whose prefix is written anew. -/
theorem store_describes {h : NodeHeader} (room : h.prefixBytes.length = 10) (s : List UInt8) :
    (h.store s.length (s.take 10)).Describes s := by
  have hl : (s.take 10).length = min 10 s.length := List.length_take
  refine ⟨rfl, ?_, ?_⟩
  · simp only [NodeHeader.store, List.length_append, List.length_drop, room]; omega
  · simp only [NodeHeader.store]
    rcases Nat.le_total s.length 10 with hs | hs
    · rw [List.take_of_length_le hs, List.take_left]
    · rw [List.drop_eq_nil_of_le (by omega), List.append_nil, List.take_take,
        Nat.min_eq_right hs]

theorem zero_room : NodeHeader.zero.prefixBytes.length = 10 := rfl

/-- `Q` of a node: its type, `num_children` and how many children it has. -/
def Inner.Counts (Q : NodeType → Nat → Nat → Prop) {P : Type} (n : Inner P) : Prop :=
  Q n.type n.numChildren n.kids.length

/-- The leaves below `path` continue it, and every node has its children under the
byte after the prefix they share, whatever it counts. -/
inductive Filed : List UInt8 → Node V → Prop
  | leaf {path : List UInt8} {l : ArtLeaf V} (follows : path <+: l.key.term) : Filed path (.leaf l)
  | inner {path shared : List UInt8} {n : Inner (Node V)} (coherent : n.Coherent)
    (header : n.header.Describes shared) (occupied : n.kids ≠ [])
    (kids : ∀ c x, n.look c = some x → Filed (path ++ shared ++ [c]) x) : Filed path (.inner n)

inductive WF (Q : NodeType → Nat → Nat → Prop) : List UInt8 → Node V → Prop
  | leaf {path : List UInt8} {l : ArtLeaf V} (follows : path <+: l.key.term) : WF Q path (.leaf l)
  | inner {path shared : List UInt8} {n : Inner (Node V)} (valid : n.Valid)
    (header : n.header.Describes shared) (bound : (path ++ shared).length ≤ intMax)
    (occupied : n.kids ≠ []) (count : n.Counts Q)
    (kids : ∀ c x, n.look c = some x → WF Q (path ++ shared ++ [c]) x) : WF Q path (.inner n)

/-- Below a node at `depth` the bytes that a prefix ends behind are counted by an
`int`. -/
inductive Shallow : Nat → Node V → Prop
  | leaf {depth : Nat} (l : ArtLeaf V) : Shallow depth (.leaf l)
  | inner {depth : Nat} {n : Inner (Node V)} (bound : depth + n.header.prefixLen ≤ intMax)
    (kids : ∀ c x, n.look c = some x → Shallow (depth + n.header.prefixLen + 1) x) :
    Shallow depth (.inner n)

/-- A key continues a path with one byte only. -/
theorem byte_unique {p k : List UInt8} {c d : UInt8} (hc : p ++ [c] <+: k) (hd : p ++ [d] <+: k) :
    c = d := by
  have h := (List.prefix_of_prefix_length_le hc hd (by simp)).eq_of_length (by simp)
  exact List.head_eq_of_cons_eq (List.append_cancel_left h)

namespace Filed
variable {path : List UInt8} {node : Node V}

/-- Every leaf continues the path. -/
theorem follows (h : Filed path node) : ∀ l ∈ node.leaves, path <+: l.key.term := by
  induction h with
  | leaf follows => intro l hl; rw [leaves_leaf, List.mem_singleton] at hl; exact hl ▸ follows
  | inner _ _ _ _ ih =>
    intro l hl
    obtain ⟨c, x, hc, hl⟩ := mem_leaves_inner.mp hl
    refine List.IsPrefix.trans ?_ (ih c x hc l hl)
    rw [List.append_assoc]; exact List.prefix_append _ _

/-- No subtree is without leaves, and `find_minimum_leaf` finds one. -/
theorem minimumLeaf (h : Filed path node) :
    ∃ l, findMinimumLeaf node = some l ∧ l ∈ node.leaves := by
  suffices hs : ∀ fuel, node.height ≤ fuel →
      ∃ l, minimumLeafLoop fuel node = some l ∧ l ∈ node.leaves from hs _ (Nat.le_refl _)
  induction h with
  | @leaf _ l _ => intro fuel _; exact ⟨l, by cases fuel <;> rfl, by simp⟩
  | @inner _ _ n coherent _ occupied _ ih =>
    intro fuel hf
    obtain ⟨c, x, hfirst, hc⟩ := firstChild_spec coherent occupied
    have hlt := height_look hc
    obtain ⟨fuel, rfl⟩ : ∃ f, fuel = f + 1 := ⟨fuel - 1, by omega⟩
    obtain ⟨l, hl, hm⟩ := ih c x hc fuel (by omega)
    exact ⟨l, by rw [minimumLeafLoop, hfirst, Option.bind_some, hl],
      mem_leaves_inner.mpr ⟨c, x, hc, hm⟩⟩

theorem nonempty (h : Filed path node) : ∃ l, l ∈ node.leaves :=
  let ⟨l, _, hl⟩ := h.minimumLeaf
  ⟨l, hl⟩

/-- Two leaves of a subtree have different keys. -/
theorem keys_nodup (h : Filed path node) : (node.leaves.map ArtLeaf.key).Nodup := by
  induction h with
  | leaf => simp
  | @inner path shared n _ _ _ kids ih =>
    rw [leaves_inner, List.map_flatMap, List.nodup_flatMap]
    have hk : (n.kids.map Prod.fst).Nodup := graph_nodup allBytes_nodup n.look
    refine ⟨fun q hq => ih q.1 q.2 (mem_kids.mp hq), ?_⟩
    refine (List.pairwise_map.mp hk).imp_of_mem fun {q r} hq hr hne => ?_
    -- a key in both would continue the path with either byte
    refine List.disjoint_left.mpr fun k h1 h2 => hne ?_
    obtain ⟨l1, hl1, rfl⟩ := List.mem_map.mp h1
    obtain ⟨l2, hl2, he⟩ := List.mem_map.mp h2
    have p1 := (kids q.1 q.2 (mem_kids.mp hq)).follows l1 hl1
    have p2 := (kids r.1 r.2 (mem_kids.mp hr)).follows l2 hl2
    exact byte_unique p1 (he ▸ p2)

/-- An inner node's bytes end before the terminator of every key below. -/
theorem inside {n : Inner (Node V)} {shared : List UInt8} (occupied : n.kids ≠ [])
    (kids : ∀ c x, n.look c = some x → Filed (path ++ shared ++ [c]) x) :
    ∃ l ∈ (Node.inner n).leaves, path ++ shared <+: l.key.bytes := by
  obtain ⟨⟨c, x⟩, hq⟩ := List.exists_mem_of_ne_nil _ occupied
  have hc := mem_kids.mp hq
  obtain ⟨l, hl⟩ := (kids c x hc).nonempty
  exact ⟨l, mem_leaves_inner.mpr ⟨c, x, hc, hl⟩, CStr.prefix_bytes ((kids c x hc).follows l hl)⟩

theorem noNul {n : Inner (Node V)} {shared : List UInt8} (occupied : n.kids ≠ [])
    (kids : ∀ c x, n.look c = some x → Filed (path ++ shared ++ [c]) x) : 0 ∉ path ++ shared := by
  obtain ⟨l, -, hp⟩ := inside occupied kids
  exact fun h => l.key.noNul (hp.subset h)

end Filed

namespace WF
variable {Q : NodeType → Nat → Nat → Prop} {path : List UInt8} {node : Node V}

theorem filed (h : WF Q path node) : Filed path node := by
  induction h with
  | leaf follows => exact .leaf follows
  | inner valid header _ occupied _ _ ih => exact .inner valid.coherent header occupied ih

theorem follows (h : WF Q path node) : ∀ l ∈ node.leaves, path <+: l.key.term := h.filed.follows

theorem minimumLeaf (h : WF Q path node) :
    ∃ l, findMinimumLeaf node = some l ∧ l ∈ node.leaves := h.filed.minimumLeaf

theorem nonempty (h : WF Q path node) : ∃ l, l ∈ node.leaves := h.filed.nonempty

theorem noNul {n : Inner (Node V)} {shared : List UInt8} (occupied : n.kids ≠ [])
    (kids : ∀ c x, n.look c = some x → WF Q (path ++ shared ++ [c]) x) : 0 ∉ path ++ shared :=
  Filed.noNul occupied fun c x hc => (kids c x hc).filed

end WF

/-! ## The inner nodes of a tree -/

/-- `m` is an inner node of the subtree. -/
inductive Node.Has : Node V → Inner (Node V) → Prop
  | self (n : Inner (Node V)) : Has (.inner n) n
  | child {n m : Inner (Node V)} {c : UInt8} {x : Node V} (h : n.look c = some x) (hm : Has x m) :
    Has (.inner n) m

/-- What holds of the inner nodes of a tree holds of those below a child. -/
theorem Node.Has.down {n : Inner (Node V)} {c : UInt8} {x : Node V} (hc : n.look c = some x)
    {P : Inner (Node V) → Prop} (h : ∀ m, (Node.inner n).Has m → P m) : ∀ m, x.Has m → P m :=
  fun m hm => h m (.child hc hm)

/-- No well-formed subtree is too deep. -/
theorem WF.shallow {Q : NodeType → Nat → Nat → Prop} {path : List UInt8} {node : Node V}
    (h : WF Q path node) : Shallow path.length node := by
  induction h with
  | leaf => exact .leaf _
  | @inner path shared n _ header bound _ _ _ ih =>
    have hdepth : path.length + n.header.prefixLen = (path ++ shared).length := by
      rw [header.len, List.length_append]
    refine .inner (hdepth ▸ bound) fun c x hc => ?_
    have := ih c x hc
    rwa [List.length_append, List.length_singleton, ← hdepth] at this

/-- Nor is one whose keys an `int` can measure. -/
theorem Filed.shallow {path : List UInt8} {node : Node V} (h : Filed path node)
    (short : ∀ l ∈ node.leaves, l.key.strlen ≤ intMax) : Shallow path.length node := by
  induction h with
  | leaf => exact .leaf _
  | @inner path shared n _ header occupied kids ih =>
    have hdepth : path.length + n.header.prefixLen = (path ++ shared).length := by
      rw [header.len, List.length_append]
    obtain ⟨l, hl, hp⟩ := Filed.inside occupied kids
    refine .inner (hdepth ▸ hp.length_le.trans (short l hl)) fun c x hc => ?_
    have := ih c x hc fun m hm => short m (mem_leaves_inner.mpr ⟨c, x, hc, hm⟩)
    rwa [List.length_append, List.length_singleton, ← hdepth] at this

theorem WF.has {Q : NodeType → Nat → Nat → Prop} {node : Node V} {m : Inner (Node V)}
    (hm : node.Has m) {path : List UInt8} (h : WF Q path node) : ∃ path', WF Q path' (.inner m) := by
  induction hm generalizing path with
  | self n => exact ⟨path, h⟩
  | child hc _ ih =>
    cases h with
    | inner _ _ _ _ _ kids => exact ih (kids _ _ hc)

/-- Below keys that an `int` can measure no path is longer than one. -/
theorem Filed.wf {Q : NodeType → Nat → Nat → Prop} {path : List UInt8} {node : Node V}
    (h : Filed path node) (counts : ∀ m, node.Has m → m.Valid ∧ m.Counts Q)
    (short : ∀ l ∈ node.leaves, l.key.strlen ≤ intMax) : WF Q path node := by
  induction h with
  | leaf follows => exact .leaf follows
  | @inner path shared n _ header occupied kids ih =>
    obtain ⟨valid, count⟩ := counts n (.self n)
    obtain ⟨l, hl, hp⟩ := Filed.inside occupied kids
    exact .inner valid header (hp.length_le.trans (short l hl)) occupied count fun c x hx =>
      ih c x hx (Node.Has.down hx counts) fun m hm => short m (mem_leaves_inner.mpr ⟨c, x, hx, hm⟩)

end Cdsa.Art
