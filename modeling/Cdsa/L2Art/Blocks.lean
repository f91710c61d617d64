import Cdsa.Core.Pools
import Cdsa.L2Art.Remove

/-!
# The blocks of the slab

`used` lists the type and the block of every node below a node. `Moves e us e' us'`:
from `e` to `e'` the blocks `us` have been exchanged with the pools for `us'`, and
none was lost or handed out twice.

A deletion takes one leaf out and may move or dissolve the node above it, and
gives every block back to the pool it came from: if it finds its leaf, it
`Moves` what was used for what is used (`recursiveDelete_moves`), so the pools
stay partitioned and the one key string is freed (`delete_conserves`).
-/
namespace Cdsa.Art

open Cdsa.Core Cdsa.Memory

variable {V : Type}

/-! ## What a tree uses -/

def Node.used (node : Node V) : List (NodeType × Nat) :=
  node.collect (fun l => [(.leafNode, l.block)]) fun n => [(n.type, n.block)]

/-- What is used below a slot. -/
def usedAt (o : Option (Node V)) : List (NodeType × Nat) := o.toList.flatMap Node.used

@[simp] theorem usedAt_none : usedAt (none : Option (Node V)) = [] := rfl

@[simp] theorem usedAt_some (x : Node V) : usedAt (some x) = x.used := by simp [usedAt]

@[simp] theorem used_leaf (l : ArtLeaf V) : (Node.leaf l).used = [(.leafNode, l.block)] := rfl

theorem used_inner (n : Inner (Node V)) :
    (Node.inner n).used = (n.type, n.block) :: n.kids.flatMap fun q => q.2.used :=
  collect_inner ..

/-- What the children of other bytes use. -/
def otherUsed (n : Inner (Node V)) (c : UInt8) : List (NodeType × Nat) :=
  (graph allBytes (Function.update n.look c none)).flatMap fun q => q.2.used

theorem used_perm {n n' : Inner (Node V)} {c : UInt8} {o : Option (Node V)}
    (h : n'.look = Function.update n.look c o) :
    (Node.inner n').used.Perm ((n'.type, n'.block) :: (usedAt o ++ otherUsed n c)) := by
  rw [used_inner]
  exact (flatMap_kids_perm Node.used h).cons _

theorem used_split {n : Inner (Node V)} {c : UInt8} (o : Option (Node V)) (h : n.look c = o) :
    (Node.inner n).used.Perm ((n.type, n.block) :: (usedAt o ++ otherUsed n c)) :=
  used_perm (by rw [← h, Function.update_eq_self])

theorem used_setHeader (n : Inner (Node V)) (h : NodeHeader) :
    (Node.inner (n.setHeader h)).used = (Node.inner n).used := by
  rw [used_inner, used_inner, setHeader_kids, setHeader_type, setHeader_block]

/-! ## Exchanges with the pools -/

/-- The free lists. -/
def Env.free (e : Env) (type : NodeType) : List Nat := (e.slab.pools type).freeList

structure Moves (e : Env) (us : List (NodeType × Nat)) (e' : Env) (us' : List (NodeType × Nat)) :
    Prop where
  conserves : Conserves e.free us e'.free us'
  capacity : ∀ type, (e'.slab.pools type).capacity = (e.slab.pools type).capacity

namespace Moves
variable {e e' e'' : Env} {us us' us'' : List (NodeType × Nat)}

theorem of_slab (h : e'.slab = e.slab) (us : List (NodeType × Nat)) : Moves e us e' us := by
  refine ⟨?_, fun type => by rw [h]⟩
  have hfree : e'.free = e.free := by
    unfold Env.free
    rw [h]
  rw [hfree]
  exact .refl _ _

theorem refl (e : Env) (us : List (NodeType × Nat)) : Moves e us e us := .of_slab rfl us

theorem trans (h : Moves e us e' us') (h' : Moves e' us' e'' us'') : Moves e us e'' us'' :=
  ⟨h.conserves.trans h'.conserves, fun type => (h'.capacity type).trans (h.capacity type)⟩

theorem of_perm (e : Env) (h : us.Perm us') : Moves e us e us' := ⟨.of_perm _ h, fun _ => rfl⟩

theorem frame (h : Moves e us e' us') (rest : List (NodeType × Nat)) :
    Moves e (us ++ rest) e' (us' ++ rest) := ⟨h.conserves.frame rest, h.capacity⟩

/-- In use besides: what is listed before. -/
theorem behind (h : Moves e us e' us') (first : List (NodeType × Nat)) :
    Moves e (first ++ us) e' (first ++ us') :=
  (of_perm e List.perm_append_comm).trans ((h.frame first).trans (of_perm e' List.perm_append_comm))

end Moves

theorem free_update (e : Env) (type : NodeType) (pool : Kpool) :
    Env.free { e with slab := { e.slab with pools := Function.update e.slab.pools type pool } } =
      Function.update e.free type pool.freeList := by
  funext t
  unfold Env.free
  by_cases ht : t = type
  · subst ht
    simp
  · simp [ht]

theorem capacity_update {pools : NodeType → Kpool} {type : NodeType} {pool : Kpool}
    (h : pool.capacity = (pools type).capacity) (t : NodeType) :
    (Function.update pools type pool t).capacity = (pools t).capacity := by
  by_cases ht : t = type
  · subst ht
    rw [Function.update_self, h]
  · rw [Function.update_of_ne ht]

theorem allocBlock_moves {type : NodeType} {e e' : Env} {o : Option Nat}
    (h : e.allocBlock type = (o, e')) : Moves e [] e' (o.toList.map (Prod.mk type)) := by
  unfold Env.allocBlock kpoolAlloc at h
  cases hl : (e.slab.pools type).freeList with
  | nil =>
    rw [hl] at h
    cases h
    refine .of_slab ?_ []
    rfl
  | cons block rest =>
    rw [hl] at h
    cases h
    refine ⟨?_, capacity_update rfl⟩
    rw [free_update]
    exact .take hl

theorem freeBlock_moves (type : NodeType) (block : Nat) (e : Env) :
    Moves e [(type, block)] (e.freeBlock type block) [] := by
  refine ⟨?_, capacity_update rfl⟩
  unfold Env.freeBlock
  rw [free_update]
  exact .give type block

/-- Each pool's blocks are partitioned into those on its free list and those of
the nodes of its type that the tree has. -/
def CdsaArtTree.Partitioned (t : CdsaArtTree V) : Prop :=
  Partition (fun type => List.range (t.env.slab.pools type).capacity) t.env.free (usedAt t.root)

theorem Moves.partitioned_iff {t t' : CdsaArtTree V}
    (h : Moves t.env (usedAt t.root) t'.env (usedAt t'.root)) : t.Partitioned ↔ t'.Partitioned := by
  unfold CdsaArtTree.Partitioned
  rw [funext fun type => congrArg List.range (h.capacity type)]
  exact h.conserves.partition_iff

/-! ## A node that has lost a child -/

/-- A node is copied to a block of another pool and its own is given back. -/
theorem Copies.moves {n m : Inner (Node V)} {b : Nat} (C : Copies n m b) {e e1 : Env}
    (ha : e.allocBlock m.type = (some b, e1)) :
    Moves e (Node.inner n).used (e1.freeBlock n.type n.block) (Node.inner m).used := by
  have hk : m.kids = n.kids := by rw [Inner.kids, C.look, Inner.kids]
  rw [used_inner, used_inner, hk, C.block]
  refine ((allocBlock_moves ha).frame _).trans ?_
  -- the new block and the old one change places
  refine (Moves.of_perm e1 (List.Perm.swap ..)).trans ?_
  exact (freeBlock_moves n.type n.block e1).frame _

/-- The block that is asked for may not be there: then nothing has moved. -/
theorem stay_moves {type : NodeType} {e e1 : Env} (ha : e.allocBlock type = (none, e1))
    (us : List (NodeType × Nat)) : Moves e us e1 us := (allocBlock_moves ha).frame us

/-- The last child of a node takes its place. -/
theorem last_moves {n : Inner (Node V)} {y : Node V} {d : UInt8} (only : n.kids.Perm [(d, y)])
    (e : Env) : Moves e (Node.inner n).used (e.freeBlock n.type n.block) y.used := by
  have hused : (Node.inner n).used.Perm ((n.type, n.block) :: y.used) := by
    have hf := only.flatMap_right (f := fun q => q.2.used)
    rw [used_inner]
    exact List.Perm.cons _ (by simpa using hf)
  exact (Moves.of_perm e hused).trans ((freeBlock_moves n.type n.block e).frame y.used)

theorem Resized.moves {n : Inner (Node V)} {e e' : Env} {o : Option (Node V)}
    (h : Resized n e o e') : Moves e (Node.inner n).used e' (usedAt o) := by
  cases h with
  | keep =>
    rw [usedAt_some]
    exact .refl _ _
  | stay _ ha =>
    rw [usedAt_some]
    exact stay_moves ha _
  | copy _ ha copies =>
    rw [usedAt_some]
    exact copies.moves ha
  | empty none_left =>
    rw [used_inner, none_left]
    exact freeBlock_moves n.type n.block e
  | leaf only =>
    rw [usedAt_some]
    exact last_moves only e
  | inner only =>
    rw [usedAt_some, used_setHeader]
    exact last_moves only e

/-! ## The walk -/

/-- A deletion that finds its leaf has moved no other block out of the tree. -/
theorem recursiveDelete_moves (key : CStr) : ∀ {fuel : Nat} {e e' : Env} {node : Node V}
    {depth : Nat} {o : Option (Node V)}, (∀ m, node.Has m → m.Valid ∧ m.Counts Exact) →
      recursiveDelete key fuel e node depth = some (o, true, e') → Moves e node.used e' (usedAt o) := by
  intro fuel
  induction fuel with
  | zero =>
    intro e e' node depth o _ h
    cases h
  | succ fuel ih =>
    intro e e' node depth o counts h
    cases node with
    | leaf l =>
      rw [recursiveDelete] at h
      split at h
      · obtain ⟨mem, -, he⟩ := Option.map_eq_some_iff.mp h
        cases he
        refine Moves.trans (.of_slab ?_ _) (freeBlock_moves .leafNode l.block _)
        rfl
      · cases h
    | inner n =>
      rw [recursiveDelete] at h
      obtain ⟨entry, -, h⟩ := Option.bind_eq_some_iff.mp h
      cases entry with
      | mismatch => cases h
      | past => cases h
      | below depth =>
        obtain ⟨c, -, h⟩ := Option.bind_eq_some_iff.mp h
        cases hc : n.look c with
        | none =>
          rw [hc] at h
          cases h
        | some x =>
          rw [hc] at h
          obtain ⟨⟨y, deleted, e1⟩, hx, h⟩ := Option.bind_eq_some_iff.mp h
          obtain ⟨hn, count⟩ := counts n (.self n)
          have hsplit := used_split _ hc
          rw [usedAt_some] at hsplit
          -- below the child, and beside it
          have hbelow : deleted = true → Moves e (Node.inner n).used e1
              ((n.type, n.block) :: (usedAt y ++ otherUsed n c)) := fun hd => by
            subst hd
            have hm := ih (Node.Has.down hc counts) hx
            exact (Moves.of_perm e hsplit).trans ((hm.frame _).behind [(n.type, n.block)])
          split at h
          · next hnone =>
            obtain ⟨hd, hy⟩ := hnone
            obtain ⟨⟨z, e2⟩, hs, he⟩ := Option.map_eq_some_iff.mp h
            cases he
            have hy : y = none := Option.isNone_iff_eq_none.mp hy
            subst hy
            obtain ⟨⟨hl, hv, -⟩, -⟩ := removeChild_spec hn hc
            obtain ⟨z', e3, hs', R⟩ := shrink_resized hv (removed_fits hn count hc) e1
            rw [hs] at hs'
            cases hs'
            have hused := used_perm hl
            rw [removeChild_type, setChild_type, removeChild_block, setChild_block] at hused
            exact ((hbelow hd).trans (.of_perm e1 hused.symm)).trans R.moves
          · next hsome =>
            cases h
            cases y with
            | none => exact absurd ⟨rfl, rfl⟩ hsome
            | some y =>
              have hused := used_perm (look_setChild hn.coherent hc (some y))
              rw [setChild_type, setChild_block] at hused
              rw [usedAt_some (Node.inner _)]
              exact (hbelow rfl).trans (.of_perm e1 hused.symm)

/-- Deleting a stored key, of less than 2^31 bytes, from a well-formed tree keeps
the pools partitioned, whichever downgrades fail, and frees the copy of that key
and nothing else. -/
theorem delete_conserves (t : CdsaArtTree V) (h : WellFormed t) (hp : t.Partitioned)
    (l : ArtLeaf V) (hl : l ∈ t.leaves) (short : l.key.strlen ≤ intMax)
    (live : (t.env.mem.blocks.lookup l.keyPtr).isSome) :
    ∃ t', cdsaDeleteArt t l.key = some (.ok, t') ∧ t'.Partitioned ∧
      cdsaFreeTrack t.env.mem (some l.keyPtr) = some t'.env.mem ∧
      t'.env.mem.blocks.lookup l.keyPtr = none ∧
      ∀ p, p ≠ l.keyPtr → t'.env.mem.blocks.lookup p = t.env.mem.blocks.lookup p := by
  obtain ⟨t', hdel, -, -, shed⟩ := cdsaDeleteArt_removes h hl short live
  have hmoves : Moves t.env (usedAt t.root) t'.env (usedAt t'.root) := by
    unfold cdsaDeleteArt at hdel
    cases hr : t.root with
    | none =>
      rw [hr] at hdel
      cases hdel
    | some r =>
      rw [hr] at hdel
      obtain ⟨⟨o, deleted, e⟩, hrec, he⟩ := Option.map_eq_some_iff.mp hdel
      cases deleted with
      | false => cases he
      | true =>
        cases he
        rw [usedAt_some]
        exact recursiveDelete_moves l.key (fun m hm => h.counts r m hr hm) hrec
  obtain ⟨size, hsize⟩ := Option.isSome_iff_exists.mp live
  have hmem := shed.mem
  rw [cdsaFreeTrack_live hsize] at hmem
  have hblocks := congrArg Mem.blocks (Option.some.inj hmem)
  refine ⟨t', hdel, hmoves.partitioned_iff.mp hp, shed.mem, ?_, fun p hp => ?_⟩
  · rw [← hblocks]
    exact lookup_del_self ..
  · rw [← hblocks]
    exact lookup_del hp _

/-! ## The pools of two blocks -/

theorem pairNode_used {block : Nat} {header : NodeHeader} {c c' : UInt8} (x x' : Node V)
    (hne : c ≠ c') :
    (pairNode block header c x c' x').used.Perm ((.node4, block) :: (x.used ++ x'.used)) := by
  rw [pairNode, used_inner]
  refine List.Perm.cons _ ?_
  simpa using (pairNode_kids block header x x' hne).flatMap_right (f := fun q => q.2.used)

theorem pairTree_partitioned {r : Node Nat} {m n : Nat}
    (h : r.used.Perm [(.node4, 0), (.leafNode, 0), (.leafNode, 1)]) :
    (pairTree r m n).Partitioned := by
  unfold CdsaArtTree.Partitioned
  rw [show usedAt (pairTree r m n).root = r.used from usedAt_some r]
  refine (Conserves.of_perm _ h).partition_iff.mpr fun type => ?_
  cases type with
  | node4 => exact (show List.Perm [1, 0] (List.range 2) by decide)
  | leafNode => exact (show List.Perm [0, 1] (List.range 2) by decide)
  | node16 => exact .refl _
  | node48 => exact .refl _
  | node256 => exact .refl _

/-- Deleting "ab" from the tree of "ab" and "ac". -/
theorem delete_conserves_ab : ∃ t', cdsaDeleteArt (pairTree abNode 3 3) ⟨[97, 98], by decide⟩ =
      some (.ok, t') ∧ t'.Partitioned ∧ t'.env.mem.blocks.lookup 1 = none ∧
    t'.env.mem.blocks.lookup 2 = some 3 := by
  have hp : abNode.leaves.Perm _ := pairNode_leaves _ _ (by decide)
  have hformed : WellFormed (pairTree abNode 3 3) :=
    pairTree_formed (abNode_formed.shape _ rfl) hp.length_eq
  obtain ⟨t', hdel, hpart, -, hgone, hothers⟩ := delete_conserves _ hformed
    (pairTree_partitioned (pairNode_used _ _ (by decide)))
    ⟨0, 1, ⟨[97, 98], by decide⟩, some 1⟩ (hp.mem_iff.mpr (by simp)) (by decide) rfl
  exact ⟨t', hdel, hpart, hgone, hothers 2 (by decide)⟩

/-- The deletion of a key of 2^31 bytes loses the three blocks of the tree, and
does not free the key. -/
theorem long_key_loses_blocks :
    WellFormed (pairTree (longNode (longKey (2 ^ 31))) 3 (2 ^ 31 + 1)) ∧
    (pairTree (longNode (longKey (2 ^ 31))) 3 (2 ^ 31 + 1)).Partitioned ∧
    ⟨1, 2, longKey (2 ^ 31), some 2⟩ ∈ (pairTree (longNode (longKey (2 ^ 31))) 3 (2 ^ 31 + 1)).leaves ∧
    ∃ t', cdsaDeleteArt (pairTree (longNode (longKey (2 ^ 31))) 3 (2 ^ 31 + 1)) (longKey (2 ^ 31)) =
        some (.errNotFound, t') ∧ ¬ t'.Partitioned ∧
      t'.env.mem.blocks.lookup 2 = some (2 ^ 31 + 1) := by
  have hb := longKey_bytes (n := 2 ^ 31) (by omega)
  have hlen := longKey_strlen (2 ^ 31)
  have hp := longTree_leaves (longKey (2 ^ 31)) 3 (2 ^ 31 + 1)
  have hf : WellFormed (pairTree (longNode (longKey (2 ^ 31))) 3 (2 ^ 31 + 1)) :=
    pairTree_formed (longNode_wf hb) hp.length_eq
  have hlong := hp.mem_iff.mpr (List.mem_cons_of_mem _ List.mem_cons_self)
  refine ⟨hf, pairTree_partitioned (pairNode_used _ _ (by decide)), hlong, _,
    delete_long hb (by omega) (by omega) _ _, fun hpart => ?_, rfl⟩
  -- the pool of the Node4s has lost its first block
  have hlost := (hpart .node4).length_eq
  have hleft : 1 = 2 := hlost
  omega

end Cdsa.Art
