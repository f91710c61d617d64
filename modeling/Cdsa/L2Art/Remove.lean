import Cdsa.L2Art.Refine

/-!
# Deleting a stored key

Where an `int` can say the length of the key, a deletion does not stop above its
leaf, whichever downgrades find their pool exhausted. If it can say the length of
the other keys as well, the nodes that the leaf was below keep their leaves where
a search looks for them (`recursiveDelete_removes`), so exactly that key is gone
(`delete_removes`).

A Node256 with an exact count of 48 is moved to a Node48 that counts one child
more than it has; `Filed` does not ask for counts. A longer key is negative as
an `int`, and its deletion loses the whole tree (`long_key_takes_all`).
-/
namespace Cdsa.Art

open Cdsa.Core Cdsa.Memory

variable {V : Type}

/-! ## The node above the leaf -/

/-- What is left of the node `n` without its child for `c`. -/
structure Remains (path : List UInt8) (e : Env) (n : Inner (Node V)) (c : UInt8) (y : Node V)
    (e' : Env) : Prop where
  alike : Alike e e'
  failed : e.failed ≤ e'.failed
  leaves : y.leaves.Perm (others n c)
  filed : (∀ l ∈ (Node.inner n).leaves, l.key.strlen ≤ intMax) → Filed path y

section
variable {path shared : List UInt8} {n n' : Inner (Node V)} {c : UInt8} {x : Node V}

/-- A child that is left is filed as before. -/
theorem filed_child (hl : n'.look = Function.update n.look c none)
    (kids : ∀ c x, n.look c = some x → Filed (path ++ shared ++ [c]) x) :
    ∀ d y, n'.look d = some y → Filed (path ++ shared ++ [d]) y := by
  intro d y hy
  rw [hl, Function.update_apply] at hy
  split at hy
  · cases hy
  · exact kids d y hy

/-- The same children in a coherent node with the same header. -/
theorem Filed.layout {m : Inner (Node V)} (coherent : m.Coherent) (hd : m.header.Describes shared)
    (left : 0 < n'.kids.length) (hm : m.look = n'.look)
    (kids : ∀ d y, n'.look d = some y → Filed (path ++ shared ++ [d]) y) :
    Filed path (.inner m) := by
  refine .inner coherent hd (fun he => ?_) fun d y hy => kids d y (hm ▸ hy)
  rw [← kids_length_of_look hm, he] at left
  cases left

/-- The last child of a node takes its place; what is glued in front of its prefix
has to fit. -/
theorem filed_last (hl : n'.look = Function.update n.look c none)
    (hd : n'.header.Describes shared)
    (kids : ∀ c x, n.look c = some x → Filed (path ++ shared ++ [c]) x)
    (below : ∀ c x, n.look c = some x → ∀ m, x.Has m → m.Valid ∧ m.Counts Exact) {d : UInt8}
    {y : Node V} (only : n'.kids.Perm [(d, y)]) : y.leaves.Perm (others n c) ∧
      ((∀ l ∈ (Node.inner n).leaves, l.key.strlen ≤ intMax) → WF Exact path (match y with
        | .leaf l => .leaf l
        | .inner ch => .inner (ch.setHeader (glue n'.header d ch.header)))) := by
  have hdy : n'.look d = some y := mem_kids.mp (only.mem_iff.mpr List.mem_cons_self)
  have hny : n.look d = some y := by
    rw [hl, Function.update_apply] at hdy
    split at hdy
    · cases hdy
    · exact hdy
  have hperm := only.flatMap_right (f := fun q => q.2.leaves)
  rw [← leaves_inner] at hperm
  refine ⟨(List.Perm.symm (by simpa using hperm)).trans (leaves_rest hl rfl), fun short => ?_⟩
  refine wf_last hd ((kids d y hny).wf (below d y hny) fun l hm => short l ?_)
  exact mem_leaves_inner.mpr ⟨d, y, hny, hm⟩

/-- A Node256 that counts 48 has one child less. -/
theorem removed_fits (valid : n.Valid) (count : n.Counts Exact) (hc : n.look c = some x)
    (ht : ((n.setChild c none).removeChild c).type = .node256)
    (h48 : ((n.setChild c none).removeChild c).numChildren = 48) :
    ((n.setChild c none).removeChild c).kids.length ≤ 48 := by
  obtain ⟨⟨hl, -, -⟩, hnum⟩ := removeChild_spec valid hc
  have hk := length_of_perm_erase hc hl
  obtain ⟨heq, -, -⟩ := count
  rw [removeChild_type, setChild_type] at ht
  rw [if_pos ht] at hnum
  omega

theorem shrink_remains (valid : n.Valid) (header : n.header.Describes shared)
    (count : n.Counts Exact) (kids : ∀ c x, n.look c = some x → Filed (path ++ shared ++ [c]) x)
    (below : ∀ c x, n.look c = some x → ∀ m, x.Has m → m.Valid ∧ m.Counts Exact)
    (hc : n.look c = some x) (e : Env) :
    ∃ y e', shrink e ((n.setChild c none).removeChild c) = some (some y, e') ∧
      Remains path e n c y e' := by
  have hfits := removed_fits valid count hc
  obtain ⟨⟨hl, hv, hh⟩, -⟩ := removeChild_spec valid hc
  have hk := length_of_perm_erase hc hl
  have htwo := count.2.1
  generalize (n.setChild c none).removeChild c = n' at *
  have left : 0 < n'.kids.length := by omega
  have hkids := filed_child hl kids
  have hd : n'.header.Describes shared := hh ▸ header
  obtain ⟨o, e', he, R⟩ := shrink_resized hv hfits e
  obtain ⟨alike, failed⟩ := R.alike
  cases R with
  | keep =>
    exact ⟨_, _, he, alike, failed, leaves_rest hl rfl, fun _ =>
      .layout hv.coherent hd left rfl hkids⟩
  | stay =>
    exact ⟨_, _, he, alike, failed, leaves_rest hl rfl, fun _ =>
      .layout hv.coherent hd left rfl hkids⟩
  | copy _ _ copies =>
    exact ⟨_, _, he, alike, failed, leaves_rest hl copies.look, fun _ =>
      .layout copies.coherent (copies.header ▸ hd) left copies.look hkids⟩
  | empty none_left =>
    rw [none_left] at left
    cases left
  | leaf only =>
    obtain ⟨hleaves, hwf⟩ := filed_last hl hd kids below only
    exact ⟨_, _, he, alike, failed, hleaves, fun short => (hwf short).filed⟩
  | inner only =>
    obtain ⟨hleaves, hwf⟩ := filed_last hl hd kids below only
    refine ⟨_, _, he, alike, failed, ?_, fun short => (hwf short).filed⟩
    rw [leaves_setHeader]
    exact hleaves

/-! ## The nodes further up -/

/-- Exchanging a child for one that is filed as well. -/
theorem Filed.setChild (coherent : n.Coherent) (header : n.header.Describes shared)
    (occupied : n.kids ≠ []) (kids : ∀ c x, n.look c = some x → Filed (path ++ shared ++ [c]) x)
    (hc : n.look c = some x) {y : Node V} (hy : Filed (path ++ shared ++ [c]) y) :
    Filed path (.inner (n.setChild c (some y))) := by
  have hlen := kids_setChild_length coherent hc y
  refine .inner (coherent.setChild hc y) (by rwa [setChild_header]) (fun hk => occupied ?_)
    fun d z hz => ?_
  · rw [hk] at hlen
    exact List.length_eq_zero_iff.mp hlen.symm
  · rw [look_setChild coherent hc, Function.update_apply] at hz
    split at hz
    · next hdc =>
      cases hz
      exact hdc ▸ hy
    · exact kids d z hz

end

/-- The leaf `l` has been taken from `node`, and `o` is what is left. -/
structure Removed (path : List UInt8) (e : Env) (node : Node V) (l : ArtLeaf V)
    (o : Option (Node V)) (e' : Env) : Prop where
  before : node.leaves.Perm (l :: leavesAt o)
  filed : (∀ m ∈ node.leaves, m.key.strlen ≤ intMax) → ∀ x, o = some x → Filed path x
  shed : Shed e l e'

theorem recursiveDelete_removes {path : List UInt8} {node : Node V} (h : Filed path node)
    (counts : ∀ m, node.Has m → m.Valid ∧ m.Counts Exact) {l : ArtLeaf V} (hl : l ∈ node.leaves)
    (short : l.key.strlen ≤ intMax) :
    ∀ {fuel : Nat} {e : Env}, l.key.strlen + 2 ≤ fuel + path.length →
      (e.mem.blocks.lookup l.keyPtr).isSome →
      ∃ o e', recursiveDelete l.key fuel e node path.length = some (o, true, e') ∧
        Removed path e node l o e' := by
  induction h with
  | @leaf path m follows =>
    intro fuel e hf live
    rw [leaves_leaf, List.mem_singleton] at hl
    subst hl
    have hle := follows.length_le
    rw [CStr.length_term] at hle
    obtain ⟨fuel, rfl⟩ : ∃ f, fuel = f + 1 := ⟨fuel - 1, by omega⟩
    obtain ⟨size, hsize⟩ := Option.isSome_iff_exists.mp live
    rw [recursiveDelete, CStr.strcmp_self, if_pos rfl, cdsaFreeTrack_live hsize]
    exact ⟨none, _, rfl, .refl _, fun _ x hx => (by cases hx),
      rfl, cdsaFreeTrack_live hsize, .update rfl, Nat.le_refl _⟩
  | @inner path shared n coherent header occupied kids ih =>
    intro fuel e hf live
    obtain ⟨valid, count⟩ := counts n (.self n)
    have below := fun c x (hc : n.look c = some x) => Node.Has.down hc counts
    obtain ⟨c, x, hc, hx⟩ := mem_leaves_inner.mp hl
    have hpre := (kids c x hc).follows l hx
    have hread := read_follows hpre
    have h0 : 0 ∉ shared := fun hm => Filed.noNul occupied kids (List.mem_append_right _ hm)
    have hle := read_le hread
    rw [List.length_append] at hle
    obtain ⟨fuel, rfl⟩ : ∃ f, fuel = f + 1 := ⟨fuel - 1, by omega⟩
    have henter := enter_follows header h0 short ((List.prefix_append _ _).trans hpre) hle
    obtain ⟨o, e1, hrec, R⟩ := @ih c x hc (below c x hc) hx fuel e (by
      rw [List.length_append, List.length_append, List.length_singleton]; omega) live
    rw [List.length_append, List.length_singleton] at hrec
    have hsplit := leaves_split _ hc
    rw [leavesAt_some] at hsplit
    rw [recursiveDelete, henter, Option.bind_some]
    simp only [hread, Option.bind_some, hc, hrec, true_and]
    cases o with
    | some y =>
      have hset := leaves_perm (look_setChild coherent hc (some y))
      refine ⟨_, e1, rfl, ?_, fun hshort z hz => ?_, R.shed⟩
      · rw [leavesAt_some]
        exact hsplit.trans ((R.before.append_right _).trans (hset.symm.cons l))
      · cases hz
        refine .setChild coherent header occupied kids hc (R.filed (fun m hm => ?_) y rfl)
        exact hshort m (mem_leaves_inner.mpr ⟨c, x, hc, hm⟩)
    | none =>
      obtain ⟨y, e2, he, S⟩ := shrink_remains valid header count kids below hc e1
      refine ⟨some y, e2, by simp [he], ?_, fun hshort z hz => ?_, ?_⟩
      · rw [leavesAt_some]
        exact hsplit.trans ((R.before.append_right _).trans (S.leaves.symm.cons l))
      · cases hz
        exact S.filed hshort
      · exact ⟨S.alike.size.trans R.shed.size, by rw [S.alike.mem]; exact R.shed.mem,
          R.shed.slab.trans S.alike.slab, R.shed.failed.trans S.failed⟩

/-! ## Trees -/

/-- A deletion of a stored key finds and frees its leaf. -/
theorem cdsaDeleteArt_removes {t : CdsaArtTree V} (h : WellFormed t) {l : ArtLeaf V}
    (hl : l ∈ t.leaves) (short : l.key.strlen ≤ intMax)
    (live : (t.env.mem.blocks.lookup l.keyPtr).isSome) :
    ∃ t', cdsaDeleteArt t l.key = some (.ok, t') ∧ t.leaves.Perm (l :: t'.leaves) ∧
      ((∀ m ∈ t.leaves, m.key.strlen ≤ intMax) → t'.Filed) ∧ Shed t.env l t'.env := by
  unfold cdsaDeleteArt CdsaArtTree.leaves at *
  cases hr : t.root with
  | none =>
    rw [hr] at hl
    cases hl
  | some r =>
    rw [hr, leavesAt_some] at hl
    obtain ⟨o, e', he, R⟩ := recursiveDelete_removes (h.filed r hr) (fun m hm => h.counts r m hr hm)
      hl short (Nat.le_refl _) live
    change recursiveDelete l.key (l.key.strlen + 2) t.env r 0 = _ at he
    refine ⟨{ t with root := o, env := e' }, by simp only [he, Option.map_some, if_true], ?_, ?_,
      R.shed⟩
    · rw [leavesAt_some]
      exact R.before
    · rw [leavesAt_some]
      exact R.filed

/-- Below 2^31 bytes, deleting a stored key removes exactly that key, and every
other one stays where a search looks for it, whichever downgrades fail. -/
theorem delete_removes (t : CdsaArtTree V) (h : WellFormed t)
    (short : ∀ l ∈ t.leaves, l.key.strlen ≤ intMax) (l : ArtLeaf V) (hl : l ∈ t.leaves)
    (live : (t.env.mem.blocks.lookup l.keyPtr).isSome) :
    ∃ t', cdsaDeleteArt t l.key = some (.ok, t') ∧ cdsaSearchArt t' l.key = some none ∧
      (∀ k, k ≠ l.key → cdsaSearchArt t' k = cdsaSearchArt t k) ∧
      cdsaSizeArt t' + 1 = cdsaSizeArt t ∧ t'.Filed ∧ t.leaves.Perm (l :: t'.leaves) := by
  obtain ⟨t', hdel, before, hfiled, shed⟩ := cdsaDeleteArt_removes h hl (short l hl) live
  have filed := hfiled short
  have hn := h.filed.keys_nodup
  obtain ⟨M, hM⟩ := Models.exists_of_nodup hn
  have hM' := (hM.del l.key).perm (del_pairs before hn).symm
  have short' : ∀ m ∈ t'.leaves, m.key.strlen ≤ intMax := fun m hm =>
    short m (before.mem_iff.mpr (List.mem_cons_of_mem _ hm))
  refine ⟨t', hdel, ?_, fun k hk => ?_, ?_, filed, before⟩
  · rw [search_lookup filed short' hM', Finmap.lookup_erase]
    rfl
  · rw [search_lookup filed short' hM', search_lookup h.filed short hM, Finmap.lookup_erase_ne hk]
  · have hlen := before.length_eq
    have hsize := shed.size
    rw [List.length_cons, ← h.size] at hlen
    unfold cdsaSizeArt
    omega

/-! ## Two keys in pools of two blocks -/

/-- A tree with one Node4 and two leaves, whose keys take `m` and `n` bytes, and
the blocks that are left. -/
def pairTree (r : Node Nat) (m n : Nat) : CdsaArtTree Nat where
  self := 0
  root := some r
  version := 0
  env := {
    size := 2
    slab := ⟨0, fun type => ⟨0, type.bytes, 2, 0, match type with
      | .node4 => [1]
      | .leafNode => []
      | _ => [0, 1]⟩⟩
    mem := ⟨0, [(1, m), (2, n)], 7, fun _ => true⟩
    failed := 0 }

theorem pairTree_formed {r : Node Nat} (h : WF Exact [] r) {m n : Nat}
    (hlen : (pairTree r m n).leaves.length = 2) : WellFormed (pairTree r m n) :=
  Formed.wellFormed ⟨fun _ hr => by cases hr; exact h, hlen.symm⟩

/-- Deleting "ab" from the tree of "ab" and "ac". -/
theorem delete_removes_ab : ∃ t', cdsaDeleteArt (pairTree abNode 3 3) ⟨[97, 98], by decide⟩ =
      some (.ok, t') ∧ cdsaSearchArt t' ⟨[97, 98], by decide⟩ = some none ∧
    cdsaSearchArt t' ⟨[97, 99], by decide⟩ = some (some 2) ∧ cdsaSizeArt t' = 1 := by
  have hp : abNode.leaves.Perm _ := pairNode_leaves _ _ (by decide)
  have hformed : WellFormed (pairTree abNode 3 3) :=
    pairTree_formed (abNode_formed.shape _ rfl) hp.length_eq
  obtain ⟨t', hdel, hnone, hothers, hsize, -, -⟩ := delete_removes _ hformed abNode_short
    ⟨0, 1, ⟨[97, 98], by decide⟩, some 1⟩ (hp.mem_iff.mpr (by simp)) rfl
  refine ⟨t', hdel, hnone, (hothers _ (by decide)).trans ?_, Nat.succ.inj hsize⟩
  decide +kernel

/-- "ab" and a key that begins with two letters a, below the prefix "a". -/
def longNode (key : CStr) : Node Nat :=
  pairNode 0 (NodeHeader.zero.store 1 [97]) 98 (.leaf ⟨0, 1, .ofArray [97, 98], some 1⟩)
    97 (.leaf ⟨1, 2, key, some 2⟩)

theorem longTree_leaves (key : CStr) (m n : Nat) : (pairTree (longNode key) m n).leaves.Perm
    [⟨0, 1, ⟨[97, 98], by decide⟩, some 1⟩, ⟨1, 2, key, some 2⟩] := by
  rw [CdsaArtTree.leaves, pairTree, leavesAt_some]
  exact pairNode_leaves _ _ (by decide)

theorem longNode_wf {key : CStr} {rest : List UInt8} (hb : key.bytes = 97 :: 97 :: rest) :
    WF Exact [] (longNode key) := by
  refine pairNode_wf exact_grows (store_describes zero_room [97]) (by decide) (by decide)
    (.leaf ⟨[0], rfl⟩) (.leaf ⟨rest ++ [0], ?_⟩)
  unfold CStr.term
  rw [hb]
  rfl

/-- A long key makes the deletion give up at the root, and the root is lost. -/
theorem delete_long {key : CStr} {rest : List UInt8} (hb : key.bytes = 97 :: 97 :: rest)
    (h1 : 2 ^ 31 ≤ key.strlen) (h2 : key.strlen < 2 ^ 32) (m n : Nat) :
    cdsaDeleteArt (pairTree (longNode key) m n) key =
      some (.errNotFound, { pairTree (longNode key) m n with root := none }) := by
  have hread : read key 0 = some 97 := by simp [read, CStr.term, hb]
  have hcheck : checkPrefix (NodeHeader.zero.store 1 [97]) key 0 = some 1 := by
    simp [checkPrefix, NodeHeader.store, checkPrefixLoop, hread]
  have henter : enter (NodeHeader.zero.store 1 [97]) key 0 = some .past :=
    enter_past (by decide) hcheck ((toInt_long h1 h2).trans_le (by decide))
  simp [cdsaDeleteArt, pairTree, longNode, pairNode, recursiveDelete, Inner.header, henter]

/-- A stored key of 2^31 bytes is not found, and "ab" is gone as well. -/
theorem long_key_takes_all :
    WellFormed (pairTree (longNode (longKey (2 ^ 31))) 3 (2 ^ 31 + 1)) ∧
    ⟨1, 2, longKey (2 ^ 31), some 2⟩ ∈ (pairTree (longNode (longKey (2 ^ 31))) 3 (2 ^ 31 + 1)).leaves ∧
    cdsaSearchArt (pairTree (longNode (longKey (2 ^ 31))) 3 (2 ^ 31 + 1)) ⟨[97, 98], by decide⟩ =
      some (some 1) ∧
    ∃ t', cdsaDeleteArt (pairTree (longNode (longKey (2 ^ 31))) 3 (2 ^ 31 + 1)) (longKey (2 ^ 31)) =
        some (.errNotFound, t') ∧ cdsaSearchArt t' ⟨[97, 98], by decide⟩ = some none := by
  have hb := longKey_bytes (n := 2 ^ 31) (by omega)
  have hlen := longKey_strlen (2 ^ 31)
  have hp := longTree_leaves (longKey (2 ^ 31)) 3 (2 ^ 31 + 1)
  have hf : WellFormed (pairTree (longNode (longKey (2 ^ 31))) 3 (2 ^ 31 + 1)) :=
    pairTree_formed (longNode_wf hb) hp.length_eq
  have hab := hp.mem_iff.mpr List.mem_cons_self
  have hlong := hp.mem_iff.mpr (List.mem_cons_of_mem _ List.mem_cons_self)
  have hfound := search_stored hf.filed hab (by decide)
  exact ⟨hf, hlong, hfound, _, delete_long hb (by omega) (by omega) _ _, rfl⟩

end Cdsa.Art
