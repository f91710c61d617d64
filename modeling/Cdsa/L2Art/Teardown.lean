import Cdsa.L2Art.Occupancy

/-!
# Teardown gives back what the tree has allocated

`cdsa_free_node` frees the key of every leaf it can reach, and
`art_slab_destroy` the slab with all nodes in it. So `cdsa_free_art` gives back
everything exactly if every leaf is still reachable (`teardown_returns_all`).
A deletion that cuts a subtree off loses the keys below it
(`cut_leaks_keys`).
-/
namespace Cdsa.Art

open Cdsa.Core Cdsa.Memory

variable {V : Type} {Q : NodeType → Nat → Nat → Prop}

/-- The children a teardown visits are the children of the node. -/
theorem children_perm {n : Inner (Node V)} (valid : n.Valid) :
    n.children.Perm (n.kids.map Prod.snd) := by
  have hcells : ∀ {capacity : Nat} {p : Packed (Node V)}, p.Valid capacity →
      (p.cells.filterMap Prod.snd).Perm ((graph allBytes (cellLook p.cells)).map Prod.snd) := by
    intro capacity p hp
    have hc : p.cells.filterMap Prod.snd = (cellKids p.cells).map Prod.snd := by
      rw [cellKids, List.map_filterMap]
      congr 1; funext q
      cases q.2 <;> rfl
    rw [hc]
    exact (cellKids_perm hp.keys hp.full).map _
  cases n with
  | node4 p => exact hcells valid
  | node16 p => exact hcells valid
  | node48 p => exact .refl _
  | node256 p => exact .refl _

/-- From `e` to `e'` the keys in `ks` have been freed. -/
structure Freed (base : UInt64) (rest : List (Ptr × Nat)) (e e' : Env) : Prop where
  owns : Owns base rest e'.mem
  slab : SameSlab e.slab e'.slab

theorem freeChildren_spec {base : UInt64} {rest : List (Ptr × Nat)} {fuel : Nat} :
    ∀ {xs : List (Node V)} {e : Env},
      (∀ x ∈ xs, ∀ {e : Env} {rest : List (Ptr × Nat)}, Owns base (keyBlocks x.leaves ++ rest) e.mem →
        ∃ e', freeNodeLoop fuel e x = some e' ∧ Freed base rest e e') →
      Owns base (keyBlocks (xs.flatMap Node.leaves) ++ rest) e.mem →
      ∃ e', xs.foldlM (freeNodeLoop fuel) e = some e' ∧ Freed base rest e e'
  | [], e, _, O => ⟨e, rfl, O, .refl _⟩
  | x :: xs, e, ih, O => by
    have O' : Owns base (keyBlocks x.leaves ++ (keyBlocks (xs.flatMap Node.leaves) ++ rest)) e.mem := by
      rw [List.flatMap_cons, keyBlocks, List.map_append, List.append_assoc] at O
      exact O
    obtain ⟨e1, h1, F1⟩ := ih x List.mem_cons_self O'
    obtain ⟨e2, h2, F2⟩ := freeChildren_spec (fun y hy => ih y (List.mem_cons_of_mem _ hy)) F1.owns
    exact ⟨e2, by rw [List.foldlM_cons, h1]; exact h2, F2.owns, F1.slab.trans F2.slab⟩

theorem freeNodeLoop_spec {base : UInt64} {path : List UInt8} {node : Node V} (h : WF Q path node) :
    ∀ {fuel : Nat}, node.height ≤ fuel → ∀ {e : Env} {rest : List (Ptr × Nat)},
      Owns base (keyBlocks node.leaves ++ rest) e.mem →
      ∃ e', freeNodeLoop fuel e node = some e' ∧ Freed base rest e e' := by
  induction h with
  | @leaf path l _ =>
    intro fuel _ e rest O
    obtain ⟨m, hm, hO, -⟩ := O.free
    have hl : freeNodeLoop fuel e (.leaf l) = some (Env.freeBlock .leafNode l.block { e with mem := m }) := by
      cases fuel <;> simp only [freeNodeLoop, hm, Option.map_some]
    exact ⟨_, hl, hO, .update rfl⟩
  | @inner path shared n valid header bound occupied count kids ih =>
    intro fuel hf e rest O
    have hheight : ∀ {c x}, n.look c = some x → x.height < fuel := fun hx =>
      Nat.lt_of_lt_of_le (height_look hx) hf
    obtain ⟨fuel, rfl⟩ : ∃ f, fuel = f + 1 := by
      obtain ⟨⟨c, x⟩, hq⟩ := List.exists_mem_of_ne_nil _ occupied
      have := hheight (mem_kids.mp hq)
      exact ⟨fuel - 1, by omega⟩
    have hp := children_perm valid
    have hleaves : (Node.inner n).leaves.Perm (n.children.flatMap Node.leaves) := by
      have := hp.flatMap_right (f := Node.leaves)
      rw [List.flatMap_map] at this
      rw [leaves_inner]; exact this.symm
    have O' := O.of_perm ((hleaves.map _).append_right rest)
    obtain ⟨e1, h1, F⟩ := @freeChildren_spec _ _ _ fuel _ _ (fun x hx => by
      obtain ⟨⟨c, y⟩, hq, rfl⟩ := List.mem_map.mp (hp.mem_iff.mp hx)
      have hy := mem_kids.mp hq
      intro e rest
      exact ih c y hy (Nat.le_of_lt_succ (hheight hy))) O'
    exact ⟨e1.freeBlock n.type n.block, by rw [freeNodeLoop, h1]; rfl, F.owns,
      F.slab.trans (freeBlock_alike _ _ _).slab⟩

theorem artSlabDestroy_spec {base : UInt64} {bs : List (Ptr × Nat)} {mem : Mem} {slab : CdsaArtSlab}
    (O : Owns base (slab.blocks ++ bs) mem) :
    ∃ mem', artSlabDestroy mem slab.self (fun type => some (slab.pools type)) = some mem' ∧
      Owns base bs mem' := by
  simp only [CdsaArtSlab.blocks, List.append_assoc] at O
  obtain ⟨m1, e1, O1, -⟩ := kpoolDestroy_spec O
  obtain ⟨m2, e2, O2, -⟩ := kpoolDestroy_spec O1
  obtain ⟨m3, e3, O3, -⟩ := kpoolDestroy_spec O2
  obtain ⟨m4, e4, O4, -⟩ := kpoolDestroy_spec O3
  obtain ⟨m5, e5, O5, -⟩ := kpoolDestroy_spec O4
  obtain ⟨m6, e6, O6, -⟩ := O5.free
  exact ⟨m6, by simp only [artSlabDestroy, e1, e2, e3, e4, e5, e6, Option.bind_some], O6⟩

/-- Freeing a sound tree leaves what was live before it. -/
theorem Sound.free {base : UInt64} {bs : List (Ptr × Nat)} {t : CdsaArtTree V}
    (h : Sound Q base bs t) : ∃ mem, cdsaFreeArt t = some mem ∧ Owns base bs mem := by
  have O := h.owns
  rw [CdsaArtTree.blocks, List.append_assoc, List.append_assoc] at O
  obtain ⟨e, he, F⟩ : ∃ e, cdsaFreeNode t.env t.root = some e ∧
      Freed base (t.env.slab.blocks ++ ([(t.self, 32)] ++ bs)) t.env e := by
    cases hr : t.root with
    | none =>
      rw [CdsaArtTree.leaves, hr] at O
      exact ⟨t.env, rfl, O, .refl _⟩
    | some r =>
      rw [CdsaArtTree.leaves, hr, leavesAt_some] at O
      exact freeNodeLoop_spec (h.shape r hr) (Nat.le_refl _) O
  have O1 := F.owns
  rw [← F.slab.blocks_eq] at O1
  obtain ⟨m1, h1, O2⟩ := artSlabDestroy_spec O1
  obtain ⟨m2, h2, O3, -⟩ := O2.free
  exact ⟨m2, by rw [cdsaFreeArt, he, Option.bind_some, h1, Option.bind_some, h2], O3⟩

/-! ## Runs -/

/-- Layouts fit, and counts are exact outside Node256. -/
def Loose (t : NodeType) (n k : Nat) : Prop := t ≠ .node256 → Tight t n k

theorem loose_grows : Grows Loose where
  pair _ := tight_grows.pair
  add t k ht hk h _ := tight_grows.add t k ht hk (h ht)
  add256 _ _ _ _ ht := absurd rfl ht
  grow4 _ := tight_grows.grow4
  grow16 _ := tight_grows.grow16
  grow48 ht := absurd rfl ht

/-- A Node256 with another child to lose, whose count is not 48. -/
def KeepsChild (t : NodeType) (n k : Nat) : Prop := t = .node256 → n ≠ 48 ∧ 2 ≤ k

theorem loose_shrinks : Shrinks Loose KeepsChild where
  two t n k h hd := by
    by_cases ht : t = .node256
    · exact (hd ht).2
    · exact tight_shrinks.two t n k (h ht) ht
  node4 k h2 h _ _ := tight_shrinks.node4 k h2 (h (by decide)) (by simp [Below256])
  node16 k hk h _ _ := tight_shrinks.node16 k hk (h (by decide)) (by simp [Below256])
  node48 k hk h _ _ := tight_shrinks.node48 k hk (h (by decide)) (by simp [Below256])
  node256 _ _ _ hd := ⟨(hd rfl).1, fun ht => absurd rfl ht⟩
  down16 _ := tight_shrinks.down16
  down48 _ := tight_shrinks.down48

/-- After every run that loses no subtree, `cdsa_free_art` gives back all that
was allocated since `cdsa_create_art`. -/
theorem teardown_returns_all (base : UInt64) (bs : List (Ptr × Nat)) (mem : Mem)
    (O : Owns base bs mem) (hm : mem.NeverFails) (nodesPerTier version : Nat)
    (hn : 0 < nodesPerTier) (hfit : 2080 * nodesPerTier + 8 < 2 ^ 64) :
    ∃ (t : CdsaArtTree V) (mem1 : Mem),
      cdsaCreateArt mem nodesPerTier version = some (some t, mem1) ∧ ∀ ops,
        RunMeets exec (fun t op => Meets KeepsChild t op ∧ NoneFails t op) t ops →
        ∃ outs t' mem', runOps exec t ops = some (outs, t') ∧ cdsaFreeArt t' = some mem' ∧
          mem'.used = mem.used ∧ mem'.blocks.Perm mem.blocks := by
  obtain ⟨t, mem1, hc, -, hs⟩ := create_sound (Q := Loose) (V := V) O hm hn hfit version
  refine ⟨t, mem1, hc, fun ops hops => ?_⟩
  obtain ⟨outs, t', hr, hs'⟩ := runOps_returns (I := Sound Loose base bs)
    (fun _ _ h hmeets => h.exec loose_grows loose_shrinks hmeets.1 (Or.inr hmeets.2)) ops t hs hops
  obtain ⟨mem', hf, O'⟩ := hs'.free
  have hp := O'.perm.trans O.perm.symm
  exact ⟨outs, t', mem', hr, hf, by rw [O'.used, O.used, total_perm hp], hp⟩

/-- The session, which leaves four leaves below the root, then `cdsa_free_art`. -/
theorem teardown_returns_all_session : ∃ (t : CdsaArtTree Nat) (mem1 : Mem) (t' : CdsaArtTree Nat)
    (mem' : Mem), cdsaCreateArt ⟨0, [], 0, fun _ => true⟩ 1024 0 = some (some t, mem1) ∧
      runOps exec t session = some (sessionOuts, t') ∧ rootCounts t' = some (.node4, 4, 4) ∧
      cdsaFreeArt t' = some mem' ∧ mem'.used = 0 := by
  obtain ⟨t, mem1, t', hc, hmeets, hr, hroot⟩ :=
    session_meets (D := KeepsChild) fun _ _ _ h _ he => absurd he h
  obtain ⟨t1, mem2, hc1, hall⟩ := teardown_returns_all (V := Nat) 0 [] ⟨0, [], 0, fun _ => true⟩
    ⟨.nil, by simp, by simp, rfl⟩ (fun _ => rfl) 1024 0 (by decide) (by decide)
  rw [hc] at hc1
  cases hc1
  obtain ⟨outs, t2, mem', hr2, hf, hused, -⟩ := hall session hmeets
  rw [hr] at hr2
  cases hr2
  exact ⟨t, mem1, t', mem', hc, hr, hroot, hf, hused⟩

/-- Two keys that share twelve bytes, and a deletion of ten of them: the copies
of both keys, of 14 bytes each, are never freed. -/
theorem cut_leaks_keys : ∃ (t : CdsaArtTree Nat) (mem : Mem),
    cdsaCreateArt ⟨0, [], 0, fun _ => true⟩ 1024 0 = some (some t, mem) ∧
    ((runOps exec t [.insert (aaaKey 88 (by decide)) (some 1),
      .insert (aaaKey 89 (by decide)) (some 2), .delete ⟨List.replicate 10 97, by decide⟩]).bind
      fun r => (cdsaFreeArt r.2).map fun mem => (r.1, r.2.env.failed, mem.used)) =
      some ([.status .ok, .status .ok, .status .errNotFound], 0, 28) := by
  refine ⟨_, _, rfl, ?_⟩
  decide +kernel

end Cdsa.Art
