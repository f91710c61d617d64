import Cdsa.L2Art.Prefix
import Cdsa.L2Art.Slab

/-!
# Adding a leaf to a node

What `Q` has to allow for when a node gets one more child (`Grows`): the next
count in the same layout, or, in a full node, the next layout. If the leaf
cannot be allocated after the node has been upgraded, the larger layout stays
with the old count (`Stalls`).

`addChild_added`: a node without a child for `c` either gets the new leaf
there, or, with `CDSA_ERR_OOM`, keeps its children.
-/
namespace Cdsa.Art

open Cdsa.Core Cdsa.Memory

variable {V : Type} {Q : NodeType → Nat → Nat → Prop}

/-- How many children a node can have. -/
def NodeType.capacity : NodeType → Nat
  | .node4 => 4
  | .node16 => 16
  | .node48 => 48
  | .node256 => 256
  | .leafNode => 0

structure Grows (Q : NodeType → Nat → Nat → Prop) : Prop where
  pair : Q .node4 2 2
  add : ∀ t k, t ≠ .node256 → k < t.capacity → Q t k k → Q t (k + 1) (k + 1)
  add256 : ∀ n k, k < 256 → Q .node256 n k → Q .node256 ((n + 1) % 2 ^ 16) (k + 1)
  grow4 : Q .node16 5 5
  grow16 : Q .node48 17 17
  grow48 : Q .node256 49 49

/-- Full nodes that have been upgraded for nothing. -/
structure Stalls (Q : NodeType → Nat → Nat → Prop) : Prop where
  node16 : Q .node16 4 4
  node48 : Q .node48 16 16
  node256 : Q .node256 48 48

theorem kids_length_le {P : Type} (n : Inner P) : n.kids.length ≤ 256 :=
  (graph_length_le allBytes n.look).trans (by simp [allBytes])

theorem Grows.counts_add {P : Type} (hQ : Grows Q) {n n' : Inner P} {c : UInt8} {x : P} (valid : n.Valid)
    (hc : n.look c = none) (hl : n'.look = Function.update n.look c (some x))
    (count : n.Counts Q) (ht : n'.type = n.type) (h256 : n.type ≠ .node256)
    (hn : n'.numChildren = n.numChildren + 1) (room : n.numChildren < n.type.capacity) :
    n'.Counts Q := by
  unfold Inner.Counts at count ⊢
  have hk := valid.count h256
  rw [length_of_perm_update hc hl, ht, hn, ← hk]
  rw [← hk] at count
  exact hQ.add _ _ h256 room count

/-- What adding a leaf for byte `c` to node `n` can come to. -/
inductive Added (Q : NodeType → Nat → Nat → Prop) (n : Inner (Node V)) (c : UInt8) (key : CStr)
    (value : Option V) (e : Env) : Option (Status × Inner (Node V) × Env) → Prop
  | undefined (refused : e.mem.answers e.mem.asked = false) : Added Q n c key value e none
  | oom {n' : Inner (Node V)} {e' : Env} (routes : Routes n n' n.look)
    (count : Stalls Q → n'.Counts Q) (alike : Alike e e') (failed : e.failed < e'.failed) :
    Added Q n c key value e (some (.errOom, n', e'))
  | ok {n' : Inner (Node V)} {l : ArtLeaf V} {e' : Env} (hkey : l.key = key)
    (hvalue : l.value = value) (routes : Routes n n' (Function.update n.look c (some (.leaf l))))
    (count : n'.Counts Q) (grown : Grown e l e') : Added Q n c key value e (some (.ok, n', e'))

/-- Allocating the leaf once the node, perhaps upgraded to `n0`, has room. -/
theorem addLeaf_added {n n0 : Inner (Node V)} {c : UInt8} {key : CStr} {value : Option V} {e e0 : Env}
    {put : Node V → Option (Inner (Node V))} (alike : Alike e e0) (failed : e0.failed = e.failed)
    (routes : Routes n n0 n.look) (count : Stalls Q → n0.Counts Q)
    (hput : ∀ x, ∃ n', put x = some n' ∧ Routes n n' (Function.update n.look c (some x)) ∧
      n'.Counts Q) : Added Q n c key value e (addLeaf e0 n0 key value put) := by
  unfold addLeaf
  rcases allocLeaf_cases e0 key value with ⟨h, hno⟩ | ⟨e', h, ha, hf⟩ | ⟨l, e', h, hk, hv, hg⟩
  · rw [h]; exact .undefined (by rw [← alike.mem]; exact hno)
  · rw [h]; exact .oom routes count (alike.trans ha) (by omega)
  · obtain ⟨n', hn', hr, hq⟩ := hput (.leaf l)
    rw [h, Option.bind_some]
    simp only [hn', Option.map_some]
    exact .ok hk hv hr hq (.of_alike alike failed hg)

theorem Routes.refl {P : Type} {n : Inner P} (valid : n.Valid) : Routes n n n.look := ⟨rfl, valid, rfl⟩

/-! ## A full node is upgraded first -/

section
variable {c : UInt8} {key : CStr} {value : Option V} {e : Env}

/-- The leaf goes to a copy of the node in the next layout. -/
theorem Copies.added {n m : Inner (Node V)} {b : Nat} (C : Copies n m b)
    (hn : n.numChildren = n.kids.length) (hc : n.look c = none) {e1 : Env} (alike : Alike e e1)
    (failed : e1.failed = e.failed) (stall : Stalls Q → Q m.type n.kids.length n.kids.length)
    {put : Node V → Option (Inner (Node V))}
    (hput : ∀ x, ∃ n', put x = some n' ∧ Routes m n' (Function.update m.look c (some x)) ∧
      Q n'.type n'.numChildren (n.kids.length + 1)) (type : NodeType) (block : Nat) :
    Added Q n c key value e (addLeaf (e1.freeBlock type block) m key value put) := by
  refine addLeaf_added (alike.trans (freeBlock_alike _ _ _)) failed
    ⟨C.look, C.valid hn, C.header⟩ (fun hs => ?_) fun x => ?_
  · unfold Inner.Counts
    rw [C.numChildren, kids_length_of_look C.look, hn]
    exact stall hs
  · obtain ⟨n', hp, hr, hq⟩ := hput x
    have hl := hr.look
    rw [C.look] at hl
    refine ⟨n', hp, ⟨hl, hr.valid, hr.header.trans C.header⟩, ?_⟩
    unfold Inner.Counts
    rwa [length_of_perm_update hc hl]

theorem addChild_full4 (hQ : Grows Q) {p : Packed (Node V)} (hv : p.Valid 4)
    (hc : (Inner.node4 p).look c = none) (count : (Inner.node4 p).Counts Q)
    (full : ¬ p.numChildren < 4) :
    Added Q (.node4 p) c key value e (addChild e c key value (.node4 p)) := by
  have valid : (Inner.node4 p).Valid := hv
  have hn : p.numChildren = (Inner.node4 p).kids.length := valid.count (by simp [Inner.type])
  have h4 : p.numChildren = 4 := by have := hv.count; have := hv.room; omega
  rw [addChild, if_neg full]
  rcases allocBlock_cases .node16 e with ⟨e1, h1, ha, hf⟩ | ⟨b, e1, h1, ha, hf⟩
  · rw [upgradeNode4ToNode16, h1]
    exact .oom (.refl valid) (fun _ => count) ha (by omega)
  · obtain ⟨m, hu, C⟩ := upgradeNode4ToNode16_spec hv h1
    have hm : m.numChildren = 4 := C.numChildren.trans h4
    rw [hu]
    refine C.added hn hc ha hf (fun hs => ?_) (fun x => ⟨_, rfl, ?_, ?_⟩) _ _
    · rw [← hn, h4]; exact hs.node16
    · obtain ⟨hv', hl⟩ := Packed.append_valid (show m.Valid 16 from C.coherent) x
        (show (Inner.node16 m).look c = none by rw [C.look]; exact hc) (by omega)
      exact ⟨hl, hv', rfl⟩
    · show Q .node16 (m.numChildren + 1) _
      rw [hm, ← hn, h4]; exact hQ.grow4

theorem addChild_full16 (hQ : Grows Q) {p : Packed (Node V)} (hv : p.Valid 16)
    (hc : (Inner.node16 p).look c = none) (count : (Inner.node16 p).Counts Q)
    (full : ¬ p.numChildren < 16) :
    Added Q (.node16 p) c key value e (addChild e c key value (.node16 p)) := by
  have valid : (Inner.node16 p).Valid := hv
  have hn : p.numChildren = (Inner.node16 p).kids.length := valid.count (by simp [Inner.type])
  have h16 : p.numChildren = 16 := by have := hv.count; have := hv.room; omega
  rw [addChild, if_neg full]
  rcases allocBlock_cases .node48 e with ⟨e1, h1, ha, hf⟩ | ⟨b, e1, h1, ha, hf⟩
  · rw [upgradeNode16ToNode48, h1]
    exact .oom (.refl valid) (fun _ => count) ha (by omega)
  · obtain ⟨m, hu, C, hfree⟩ := upgradeNode16ToNode48_spec hv h1
    have hm : m.numChildren = 16 := C.numChildren.trans h16
    rw [hu, Option.bind_some]
    refine C.added hn hc ha hf (fun hs => ?_) (fun x => ⟨_, rfl, ?_, ?_⟩) _ _
    · rw [← hn, h16]; exact hs.node48
    · exact Node48.put_spec (C.valid hn) x (by rw [C.look]; exact hc)
        (show m.numChildren < 48 by omega) (hfree _ (by omega))
    · show Q .node48 (m.numChildren + 1) _
      rw [hm, ← hn, h16]; exact hQ.grow16

theorem addChild_full48 (hQ : Grows Q) {p : Node48 (Node V)} (hv : p.Valid)
    (hc : (Inner.node48 p).look c = none) (count : (Inner.node48 p).Counts Q)
    (full : ¬ p.numChildren < 48) :
    Added Q (.node48 p) c key value e (addChild e c key value (.node48 p)) := by
  have hn := hv.count
  have hle := hv.tabled.kids_le
  have h48 : p.numChildren = 48 := by omega
  rw [addChild, if_neg full]
  rcases allocBlock_cases .node256 e with ⟨e1, h1, ha, hf⟩ | ⟨b, e1, h1, ha, hf⟩
  · rw [upgradeNode48ToNode256, h1]
    exact .oom (.refl hv) (fun _ => count) ha (by omega)
  · obtain ⟨m, hu, C⟩ := upgradeNode48ToNode256_spec p h1
    have hm : m.numChildren = 48 := C.numChildren.trans h48
    rw [hu]
    refine C.added hn hc ha hf (fun hs => ?_) (fun x => ⟨_, rfl, ?_, ?_⟩) _ _
    · rw [← hn, h48]; exact hs.node256
    · exact Node256.put_spec C.coherent c x
    · show Q .node256 ((m.numChildren + 1) % 2 ^ 16) _
      rw [hm, ← hn, h48]; exact hQ.grow48

end

theorem addChild_added (hQ : Grows Q) {n : Inner (Node V)} {c : UInt8} (valid : n.Valid)
    (hc : n.look c = none) (count : n.Counts Q) (key : CStr) (value : Option V) (e : Env) :
    Added Q n c key value e (addChild e c key value n) := by
  cases n with
  | node4 p =>
    by_cases room : p.numChildren < 4
    · rw [addChild, if_pos room]
      refine addLeaf_added (.refl e) rfl (.refl valid) (fun _ => count) fun x => ⟨_, rfl, ?_⟩
      obtain ⟨hv', hl⟩ := Packed.append_valid (show p.Valid 4 from valid) x hc room
      exact ⟨⟨hl, hv', rfl⟩, hQ.counts_add valid hc hl count rfl (by simp [Inner.type]) rfl room⟩
    · exact addChild_full4 hQ valid hc count room
  | node16 p =>
    by_cases room : p.numChildren < 16
    · rw [addChild, if_pos room]
      refine addLeaf_added (.refl e) rfl (.refl valid) (fun _ => count) fun x => ⟨_, rfl, ?_⟩
      obtain ⟨hv', hl⟩ := Packed.append_valid (show p.Valid 16 from valid) x hc room
      exact ⟨⟨hl, hv', rfl⟩, hQ.counts_add valid hc hl count rfl (by simp [Inner.type]) rfl room⟩
    · exact addChild_full16 hQ valid hc count room
  | node48 p =>
    by_cases room : p.numChildren < 48
    · rw [addChild, if_pos room]
      refine addLeaf_added (.refl e) rfl (.refl valid) (fun _ => count) fun x => ?_
      obtain ⟨i, hi, hlt, hs⟩ := freeIndex_spec (show p.Valid from valid) room
      have hr := Node48.put_spec (show p.Valid from valid) x hc hlt hs
      exact ⟨_, by rw [hi]; rfl, hr,
        hQ.counts_add valid hc hr.look count rfl (by simp [Inner.type]) rfl room⟩
    · exact addChild_full48 hQ valid hc count room
  | node256 p =>
    rw [addChild]
    refine addLeaf_added (.refl e) rfl (.refl valid) (fun _ => count) fun x => ⟨_, rfl, ?_⟩
    have hr := Node256.put_spec valid c x
    refine ⟨hr, ?_⟩
    have hk := length_of_perm_update hc hr.look
    have hle := kids_length_le (Inner.node256 (p.put c x))
    show Q .node256 ((p.numChildren + 1) % 2 ^ 16) (Inner.node256 _).kids.length
    rw [hk]
    exact hQ.add256 _ _ (by omega) count

end Cdsa.Art
