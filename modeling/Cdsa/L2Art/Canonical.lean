import Cdsa.L2Art.Forks
import Cdsa.L2Art.Stock

/-!
# One tree for one set of keys

Where counts are exact and layouts fit (`Tight`), the keys decide the tree: an
inner node stands wherever two of them part, its prefix is what the keys below
share, its layout is the smallest for the bytes they go on with. `Same` says of
two subtrees that they agree in all of that; only the blocks the nodes lie in,
the order of the cells and the values may differ.

`shape_canonical`: two runs from a fresh tree that leave the same keys leave the
same shape, and the same number of free blocks in every pool. Which operations
led there, in which order, leaves no trace.
-/
namespace Cdsa.Art

open Cdsa.Core Cdsa.Memory

variable {V : Type}

/-- The same shape over the same keys. -/
inductive Same : Node V → Node V → Prop
  | leaf {l l' : ArtLeaf V} (key : l.key = l'.key) : Same (.leaf l) (.leaf l')
  | inner {n n' : Inner (Node V)} (type : n.type = n'.type)
    (count : n.numChildren = n'.numChildren) (len : n.header.prefixLen = n'.header.prefixLen)
    (bytes : n.header.prefixBytes.take n.header.prefixLen =
      n'.header.prefixBytes.take n'.header.prefixLen)
    (filed : ∀ c, (n.look c).isSome = (n'.look c).isSome)
    (kids : ∀ c x x', n.look c = some x → n'.look c = some x' → Same x x') :
    Same (.inner n) (.inner n')

/-- The keys below a node. -/
def Node.keys (node : Node V) : List CStr := node.leaves.map ArtLeaf.key

theorem mem_keys_inner {n : Inner (Node V)} {k : CStr} :
    k ∈ (Node.inner n).keys ↔ ∃ c x, n.look c = some x ∧ k ∈ x.keys := by
  simp only [Node.keys, List.mem_map, mem_leaves_inner]
  constructor
  · rintro ⟨l, ⟨c, x, hc, hl⟩, rfl⟩
    exact ⟨c, x, hc, l, hl, rfl⟩
  · rintro ⟨c, x, hc, l, hl, rfl⟩
    exact ⟨l, ⟨c, x, hc, hl⟩, rfl⟩

theorem Filed.key_follows {path : List UInt8} {node : Node V} (h : Filed path node) :
    ∀ k ∈ node.keys, path <+: k.term := by
  intro k hk
  obtain ⟨l, hl, rfl⟩ := List.mem_map.mp hk
  exact h.follows l hl

theorem Filed.exists_key {path : List UInt8} {node : Node V} (h : Filed path node) :
    ∃ k, k ∈ node.keys := by
  obtain ⟨l, hl⟩ := h.nonempty
  exact ⟨l.key, List.mem_map_of_mem hl⟩

/-! ## What the keys say about a node -/

section
variable {path shared : List UInt8} {n : Inner (Node V)}
  (kids : ∀ c x, n.look c = some x → Filed (path ++ shared ++ [c]) x)
include kids

/-- The keys below a child are those that go on with its byte. -/
theorem mem_keys_child {c : UInt8} {x : Node V} (hc : n.look c = some x) {k : CStr} :
    k ∈ x.keys ↔ k ∈ (Node.inner n).keys ∧ path ++ shared ++ [c] <+: k.term := by
  constructor
  · intro hk
    exact ⟨mem_keys_inner.mpr ⟨c, x, hc, hk⟩, (kids c x hc).key_follows k hk⟩
  · rintro ⟨hk, hp⟩
    obtain ⟨d, y, hd, hy⟩ := mem_keys_inner.mp hk
    have hdc := byte_unique ((kids d y hd).key_follows k hy) hp
    subst hdc
    rw [hc] at hd
    cases hd
    exact hy

/-- There is a child for every byte that a key goes on with, and for no other. -/
theorem look_isSome_iff (c : UInt8) : (n.look c).isSome = true ↔
    ∃ k ∈ (Node.inner n).keys, path ++ shared ++ [c] <+: k.term := by
  constructor
  · intro h
    obtain ⟨x, hc⟩ := Option.isSome_iff_exists.mp h
    obtain ⟨k, hk⟩ := (kids c x hc).exists_key
    exact ⟨k, (mem_keys_child kids hc).mp hk⟩
  · rintro ⟨k, hk, hp⟩
    obtain ⟨d, y, hd, hy⟩ := mem_keys_inner.mp hk
    rw [byte_unique hp ((kids d y hd).key_follows k hy), hd]
    rfl

theorem key_follows_inner : ∀ k ∈ (Node.inner n).keys, path ++ shared <+: k.term := by
  intro k hk
  obtain ⟨c, x, hc, hx⟩ := mem_keys_inner.mp hk
  exact (List.prefix_append _ _).trans ((kids c x hc).key_follows k hx)

/-- Below a node with two children two keys part where its prefix ends. -/
theorem exists_parting (two : 2 ≤ n.kids.length) : ∃ k ∈ (Node.inner n).keys,
    ∃ k' ∈ (Node.inner n).keys, k ≠ k' ∧ agree k.bytes k'.bytes = (path ++ shared).length := by
  obtain ⟨⟨c, x⟩, hq⟩ := List.exists_mem_of_ne_nil n.kids (List.ne_nil_of_length_pos (by omega))
  have hc := mem_kids.mp hq
  obtain ⟨d, y, hd, hdc⟩ := exists_other_kid two c
  obtain ⟨k, hk⟩ := (kids c x hc).exists_key
  obtain ⟨k', hk'⟩ := (kids d y hd).exists_key
  have hfork := agree_fork ((kids c x hc).key_follows k hk) ((kids d y hd).key_follows k' hk')
    (Ne.symm hdc)
  exact ⟨k, mem_keys_inner.mpr ⟨c, x, hc, hk⟩, k', mem_keys_inner.mpr ⟨d, y, hd, hk'⟩, hfork⟩

end

/-- No prefix goes on beyond the place where two keys below part. -/
theorem shared_length_le {path s s' : List UInt8} {n n' : Inner (Node V)}
    (kids : ∀ c x, n.look c = some x → Filed (path ++ s ++ [c]) x) (two : 2 ≤ n.kids.length)
    (kids' : ∀ c x, n'.look c = some x → Filed (path ++ s' ++ [c]) x)
    (same : ∀ k, k ∈ (Node.inner n).keys ↔ k ∈ (Node.inner n').keys) : s'.length ≤ s.length := by
  obtain ⟨k, hk, k', hk', hne, he⟩ := exists_parting kids two
  have hle := agree_below (key_follows_inner kids' k ((same k).mp hk))
    (key_follows_inner kids' k' ((same k').mp hk')) hne
  rw [he, List.length_append, List.length_append] at hle
  omega

/-- A prefix is what the keys below share. -/
theorem shared_eq {path s s' : List UInt8} {n n' : Inner (Node V)}
    (kids : ∀ c x, n.look c = some x → Filed (path ++ s ++ [c]) x) (two : 2 ≤ n.kids.length)
    (kids' : ∀ c x, n'.look c = some x → Filed (path ++ s' ++ [c]) x) (two' : 2 ≤ n'.kids.length)
    (same : ∀ k, k ∈ (Node.inner n).keys ↔ k ∈ (Node.inner n').keys) : s = s' := by
  have hlen : s.length = s'.length :=
    Nat.le_antisymm (shared_length_le kids' two' kids fun k => (same k).symm)
      (shared_length_le kids two kids' same)
  obtain ⟨k, hk, -⟩ := exists_parting kids two
  have h := key_follows_inner kids k hk
  have h' := key_follows_inner kids' k ((same k).mp hk)
  have hle : (path ++ s).length = (path ++ s').length := by
    rw [List.length_append, List.length_append, hlen]
  exact List.append_cancel_left
    ((List.prefix_of_prefix_length_le h h' hle.le).eq_of_length hle)

/-- A tight node has two children at least. -/
theorem Inner.Counts.two {P : Type} {n : Inner P} (h : n.Counts Tight) : 2 ≤ n.kids.length := by
  have hleast := h.2.1
  have hne := n.type_ne_leaf
  cases ht : n.type <;> simp_all [NodeType.least] <;> omega

/-- The smallest layout that fits is one. -/
theorem Inner.Counts.type_eq {P P' : Type} {n : Inner P} {n' : Inner P'} (h : n.Counts Tight)
    (h' : n'.Counts Tight) (hk : n.kids.length = n'.kids.length) : n.type = n'.type := by
  obtain ⟨-, hleast, hcap⟩ := h
  obtain ⟨-, hleast', hcap'⟩ := h'
  have hne := n.type_ne_leaf
  have hne' := n'.type_ne_leaf
  cases ht : n.type <;> cases ht' : n'.type <;>
    simp_all only [NodeType.least, NodeType.capacity, ne_eq, not_true_eq_false, reduceCtorEq] <;> omega

theorem graph_length_congr {K P P' : Type} {f : K → Option P} {g : K → Option P'} {ks : List K}
    (h : ∀ c, (f c).isSome = (g c).isSome) : (graph ks f).length = (graph ks g).length := by
  induction ks with
  | nil => rfl
  | cons c ks ih =>
    have hc := h c
    simp only [graph, List.filterMap_cons] at *
    cases hf : f c <;> cases hg : g c <;> simp_all

/-- Two tight subtrees over the same keys have the same shape. -/
theorem WF.same {path : List UInt8} {node : Node V} (h : WF Tight path node) :
    ∀ {node' : Node V}, WF Tight path node' → (∀ k, k ∈ node.keys ↔ k ∈ node'.keys) →
      Same node node' := by
  induction h with
  | @leaf path l _ =>
    intro node' h' same
    have hone : ∀ k, k ∈ node'.keys ↔ k = l.key := fun k => by
      rw [← same k]
      simp [Node.keys]
    cases h' with
    | @leaf _ l' _ =>
      exact .leaf ((hone l'.key).mp (by simp [Node.keys])).symm
    | inner _ _ _ _ count kids =>
      -- two keys below an inner node
      obtain ⟨k, hk, k', hk', hne, -⟩ := exists_parting (fun c x hc => (kids c x hc).filed) count.two
      exact absurd (((hone k).mp hk).trans ((hone k').mp hk').symm) hne
  | @inner path s n _ header _ _ count kids ih =>
    intro node' h' same
    have hkids := fun c x hc => (kids c x hc).filed
    cases h' with
    | @leaf _ l' _ =>
      obtain ⟨k, hk, k', hk', hne, -⟩ := exists_parting hkids count.two
      have hone : ∀ k ∈ (Node.inner n).keys, k = l'.key := fun k hk => by
        simpa [Node.keys] using (same k).mp hk
      exact absurd ((hone k hk).trans (hone k' hk').symm) hne
    | @inner _ s' n' _ header' _ _ count' kids' =>
      have hkids' := fun c x hc => (kids' c x hc).filed
      obtain rfl := shared_eq hkids count.two hkids' count'.two same
      have hfiled : ∀ c, (n.look c).isSome = (n'.look c).isSome := fun c => by
        rw [Bool.eq_iff_iff, look_isSome_iff hkids, look_isSome_iff hkids']
        simp only [same]
      have hlen : n.kids.length = n'.kids.length := graph_length_congr hfiled
      refine .inner (count.type_eq count' hlen) ?_ ?_ ?_ hfiled fun c x x' hc hc' => ?_
      · rw [count.1, count'.1, hlen]
      · rw [header.len, header'.len]
      · rw [header.len, header'.len, header.bytes, header'.bytes]
      · apply ih c x hc (kids' c x' hc')
        intro k
        rw [mem_keys_child hkids hc, mem_keys_child hkids' hc', same]

/-! ## What the shape uses -/

theorem flatMap_graph {K P A : Type} (f : K → Option P) (F : P → List A) (ks : List K) :
    (graph ks f).flatMap (fun q => F q.2) = ks.flatMap fun c => (f c).toList.flatMap F := by
  induction ks with
  | nil => rfl
  | cons c ks ih =>
    rw [List.flatMap_cons, ← ih, graph, List.filterMap_cons]
    cases f c <;> simp [graph]

/-- The same types of blocks, in the same order. -/
theorem Same.used {x x' : Node V} (h : Same x x') :
    x.used.map Prod.fst = x'.used.map Prod.fst := by
  induction h with
  | leaf => rfl
  | @inner n n' type _ _ _ filed _ ih =>
    rw [used_inner, used_inner, List.map_cons, List.map_cons, type]
    congr 1
    rw [Inner.kids, Inner.kids, flatMap_graph, flatMap_graph, List.map_flatMap, List.map_flatMap]
    apply List.flatMap_congr
    intro c _
    have hc := filed c
    cases hx : n.look c with
    | none =>
      cases hx' : n'.look c with
      | none => rfl
      | some x' => simp [hx, hx'] at hc
    | some x =>
      cases hx' : n'.look c with
      | none => simp [hx, hx'] at hc
      | some x' => simpa using ih c x x' hx hx'

/-- The same shape below two slots. -/
inductive SameAt : Option (Node V) → Option (Node V) → Prop
  | none : SameAt none none
  | some {x x' : Node V} (h : Same x x') : SameAt (some x) (some x')

theorem SameAt.used {o o' : Option (Node V)} (h : SameAt o o') :
    (usedAt o).map Prod.fst = (usedAt o').map Prod.fst := by
  cases h with
  | none => rfl
  | some h => simpa using h.used

/-! ## Two runs -/

section
variable {base : UInt64} {bs : List (Ptr × Nat)}

/-- What a run keeps besides: the pools are partitioned, and as large as they
were. -/
theorem run_stock {t t' : CdsaArtTree V} {ops : List (Op V)} {outs : List (Out V)}
    (h : Sound Tight base bs t) (hp : t.Partitioned)
    (hops : RunMeets exec (fun t op => Meets Below256 t op ∧ NoneFails t op) t ops)
    (hr : runOps exec t ops = some (outs, t')) :
    Sound Tight base bs t' ∧ t'.Partitioned ∧
      ∀ type, (t'.env.slab.pools type).capacity = (t.env.slab.pools type).capacity := by
  refine runOps_inv (I := fun u => Sound Tight base bs u ∧ u.Partitioned ∧
    ∀ type, (u.env.slab.pools type).capacity = (t.env.slab.pools type).capacity)
    (fun u op o u' hI hm he => ?_) ops t outs t' ⟨h, hp, fun _ => rfl⟩ hops hr
  obtain ⟨hu, hup, hcap⟩ := hI
  obtain ⟨o', u'', he', hu'⟩ := hu.exec tight_grows tight_shrinks hm.1 (Or.inr hm.2)
  rw [he] at he'
  cases he'
  have hmoves := hu.exec_moves tight_shrinks Tight.exact hm.1 he
  exact ⟨hu', hmoves.partitioned_iff.mp hup, fun type => (hmoves.capacity type).trans (hcap type)⟩

end

/-- Two runs from a fresh tree in which no pool is exhausted and no leaf is taken
from a Node256: if they leave the same keys, they leave the same shape, and as
many free blocks of each type. -/
theorem shape_canonical (base : UInt64) (bs : List (Ptr × Nat)) (mem : Mem) (O : Owns base bs mem)
    (hm : mem.NeverFails) (nodesPerTier version : Nat) (hn : 0 < nodesPerTier)
    (hfit : 2080 * nodesPerTier + 8 < 2 ^ 64) :
    ∃ (t : CdsaArtTree V) (mem' : Mem),
      cdsaCreateArt mem nodesPerTier version = some (some t, mem') ∧
      ∀ ops ops' outs outs' t1 t2,
        RunMeets exec (fun t op => Meets Below256 t op ∧ NoneFails t op) t ops →
        RunMeets exec (fun t op => Meets Below256 t op ∧ NoneFails t op) t ops' →
        runOps exec t ops = some (outs, t1) → runOps exec t ops' = some (outs', t2) →
        (∀ k, k ∈ t1.leaves.map ArtLeaf.key ↔ k ∈ t2.leaves.map ArtLeaf.key) →
        SameAt t1.root t2.root ∧
          ∀ type, (t1.env.free type).length = (t2.env.free type).length := by
  obtain ⟨t, mem', hc, -, hs⟩ := create_sound (Q := Tight) (V := V) O hm hn hfit version
  refine ⟨t, mem', hc, fun ops ops' outs outs' t1 t2 hops hops' hr hr' same => ?_⟩
  have hp := cdsaCreateArt_partitioned hc
  obtain ⟨h1, hp1, hcap1⟩ := run_stock hs hp hops hr
  obtain ⟨h2, hp2, hcap2⟩ := run_stock hs hp hops' hr'
  have hshape : SameAt t1.root t2.root := by
    unfold CdsaArtTree.leaves at same
    cases hr1 : t1.root with
    | none =>
      cases hr2 : t2.root with
      | none => exact .none
      | some r2 =>
        obtain ⟨k, hk⟩ := (h2.filed r2 hr2).exists_key
        have := (same k).mpr (by rw [hr2, leavesAt_some]; exact hk)
        simp [hr1] at this
    | some r1 =>
      cases hr2 : t2.root with
      | none =>
        obtain ⟨k, hk⟩ := (h1.filed r1 hr1).exists_key
        have := (same k).mp (by rw [hr1, leavesAt_some]; exact hk)
        simp [hr2] at this
      | some r2 =>
        rw [hr1, hr2, leavesAt_some, leavesAt_some] at same
        exact .some ((h1.shape r1 hr1).same (h2.shape r2 hr2) same)
  refine ⟨hshape, fun type => ?_⟩
  have hf1 := free_length hp1 type
  have hf2 := free_length hp2 type
  have hused : usedOf t1.root type = usedOf t2.root type := by
    rw [usedOf, usedOf, hshape.used]
  have hc1 := hcap1 type
  have hc2 := hcap2 type
  omega

/-- The keys that the session leaves, in another order. -/
def backwards : List (Op Nat) :=
  [.insert (byteKey 5) none, .insert (byteKey 4) none, .insert (byteKey 3) none,
    .insert (byteKey 2) none]

/-- The session has made the root a Node16 and a Node4 again; the other run keeps
it a Node4. -/
theorem shape_canonical_session : ∃ (t : CdsaArtTree Nat) (mem : Mem) (t1 t2 : CdsaArtTree Nat),
    cdsaCreateArt ⟨0, [], 0, fun _ => true⟩ 1024 0 = some (some t, mem) ∧
      runOps exec t session = some (sessionOuts, t1) ∧ rootCounts t1 = some (.node4, 4, 4) ∧
      runOps exec t backwards = some (List.replicate 4 (.status .ok), t2) ∧
      SameAt t1.root t2.root ∧
      ∀ type, (t1.env.free type).length = (t2.env.free type).length := by
  obtain ⟨t, mem, t1, hc, hmeets, hr, hroot⟩ := session_meets (D := Below256) fun _ _ _ h _ => h
  obtain ⟨t', mem', hc', hall⟩ := shape_canonical (V := Nat) 0 [] ⟨0, [], 0, fun _ => true⟩
    ⟨.nil, by simp, by simp, rfl⟩ (fun _ => rfl) 1024 0 (by decide) (by decide)
  rw [hc] at hc'
  cases hc'
  have hruns : ((cdsaCreateArt (V := Nat) ⟨0, [], 0, fun _ => true⟩ 1024 0).bind fun r =>
      r.1.bind fun t => (runOps exec t session).bind fun r1 =>
        (runOps exec t backwards).map fun r2 =>
          (r1.2.leaves.map ArtLeaf.key, r2.2.leaves.map ArtLeaf.key, r2.1,
            runCheck exec (fun t op => flatCheck t op && failsNone t op) t backwards)) =
      some ([byteKey 2, byteKey 3, byteKey 4, byteKey 5], [byteKey 2, byteKey 3, byteKey 4, byteKey 5],
        List.replicate 4 (.status .ok), true) := by
    decide +kernel
  simp only [hc, hr, Option.bind_some] at hruns
  obtain ⟨⟨outs, t2⟩, hr2, he⟩ := Option.map_eq_some_iff.mp hruns
  simp only [Prod.mk.injEq] at he
  obtain ⟨hkeys1, hkeys2, rfl, hcheck⟩ := he
  have hmeets2 : RunMeets exec (fun t op => Meets Below256 t op ∧ NoneFails t op) t backwards := by
    refine RunMeets.of_check (fun u op h => ?_) hcheck
    rw [Bool.and_eq_true] at h
    exact ⟨meets_of_flatCheck (fun _ _ _ h _ => h) h.1, noneFails_of_check h.2⟩
  obtain ⟨hsame, hfree⟩ := hall _ _ _ _ _ _ hmeets hmeets2 hr hr2 fun k => by rw [hkeys1, hkeys2]
  exact ⟨t, mem, t1, t2, hc, hr, hroot, hr2, hsame, hfree⟩

end Cdsa.Art
