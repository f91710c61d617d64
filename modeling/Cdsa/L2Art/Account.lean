import Cdsa.L2Art.Blocks

/-!
# Insertions and the pools

An insertion takes at most a leaf, and a Node4 or a larger layout; what it does
not use it gives back. So if it returns, it `Moves` what was used for what is
used, whatever status it answers (`insertLoop_moves`). It does not return where
the copy of the key is refused after the leaf's block has been taken:
`alloc_leaf` then calls `CDSA_FREE` on that block, which is the pool's.

`asks` says whether an insertion comes that far. `insert_conserves_iff`: the
pools stay partitioned exactly if the copy is granted or not asked for.

Trees need not be well formed for that. `Placed` allows counts to be wrong and
nodes to be empty, as deletions and failed insertions leave them.
-/
namespace Cdsa.Art

open Cdsa.Core Cdsa.Memory

variable {V : Type}

/-- Arrays, prefixes and filing bytes are right. -/
inductive Placed : List UInt8 → Node V → Prop
  | leaf {path : List UInt8} {l : ArtLeaf V} (follows : path <+: l.key.term) : Placed path (.leaf l)
  | inner {path shared : List UInt8} {n : Inner (Node V)} (coherent : n.Coherent)
    (header : n.header.Describes shared) (noNul : 0 ∉ path ++ shared)
    (kids : ∀ c x, n.look c = some x → Placed (path ++ shared ++ [c]) x) : Placed path (.inner n)

theorem Filed.placed {path : List UInt8} {node : Node V} (h : Filed path node) : Placed path node := by
  induction h with
  | leaf follows => exact .leaf follows
  | inner coherent header occupied kids ih =>
    exact .inner coherent header (Filed.noNul occupied kids) ih

theorem Placed.follows {path : List UInt8} {node : Node V} (h : Placed path node) :
    ∀ l ∈ node.leaves, path <+: l.key.term := by
  induction h with
  | leaf follows =>
    intro l hl
    rw [leaves_leaf, List.mem_singleton] at hl
    exact hl ▸ follows
  | inner _ _ _ _ ih =>
    intro l hl
    obtain ⟨c, x, hc, hl⟩ := mem_leaves_inner.mp hl
    refine List.IsPrefix.trans ?_ (ih c x hc l hl)
    rw [List.append_assoc]
    exact List.prefix_append _ _

theorem Placed.coherent {path : List UInt8} {node : Node V} (h : Placed path node) :
    ∀ m, node.Has m → m.Coherent := by
  induction h with
  | leaf =>
    intro m hm
    cases hm
  | inner coherent _ _ _ ih =>
    intro m hm
    cases hm with
    | self => exact coherent
    | child hc hm => exact ih _ _ hc m hm

/-- What `find_minimum_leaf` finds is below the node. -/
theorem Placed.mem_minimumLeaf {path : List UInt8} {node : Node V} (h : Placed path node)
    {l : ArtLeaf V} : ∀ {fuel : Nat}, minimumLeafLoop fuel node = some l → l ∈ node.leaves := by
  induction h with
  | @leaf _ m _ =>
    intro fuel hl
    have he : m = l := by cases fuel <;> exact Option.some.inj hl
    simp [he]
  | @inner _ _ n coherent _ _ _ ih =>
    intro fuel hl
    cases fuel with
    | zero => cases hl
    | succ fuel =>
      obtain ⟨x, hx, hl⟩ := Option.bind_eq_some_iff.mp hl
      obtain ⟨c, hc⟩ := look_of_firstChild coherent hx
      exact mem_leaves_inner.mpr ⟨c, x, hc, ih c x hc hl⟩

theorem Placed.minimum_follows {path shared : List UInt8} {n : Inner (Node V)} (coherent : n.Coherent)
    (header : n.header.Describes shared) (noNul : 0 ∉ path ++ shared)
    (kids : ∀ c x, n.look c = some x → Placed (path ++ shared ++ [c]) x) :
    ∀ l, findMinimumLeaf (.inner n) = some l → path ++ shared <+: l.key.term := by
  intro l hl
  have hplaced : Placed path (.inner n) := .inner coherent header noNul kids
  obtain ⟨c, x, hc, hx⟩ := mem_leaves_inner.mp (hplaced.mem_minimumLeaf hl)
  exact (List.prefix_append _ _).trans ((kids c x hc).follows l hx)

/-! ## What moves -/

section
variable {key : CStr} {value : Option V} {e e' : Env}

theorem allocLeaf_moves {o : Option (ArtLeaf V)} (h : allocLeaf e key value = some (o, e')) :
    Moves e [] e' (o.toList.map fun l => (.leafNode, l.block)) := by
  unfold allocLeaf at h
  rcases allocBlock_cases .leafNode e with ⟨e1, ha, -⟩ | ⟨b, e1, ha, -⟩
  · rw [ha] at h
    cases h
    exact allocBlock_moves ha
  · rw [ha] at h
    simp only at h
    split at h
    · cases h
    · cases h
      refine (allocBlock_moves ha).trans (.of_slab ?_ _)
      rfl

/-- A new leaf beside what is in use. -/
theorem allocLeaf_adds {l : ArtLeaf V} (h : allocLeaf e key value = some (some l, e'))
    (us : List (NodeType × Nat)) (size : Nat) :
    Moves e us { e' with size } ((.leafNode, l.block) :: us) := by
  refine ((allocLeaf_moves h).frame us).trans (.of_slab ?_ _)
  rfl

/-- A block that is taken, then given back for want of a leaf. -/
theorem abort_moves {type : NodeType} {e1 : Env} {b : Nat} (ha : e.allocBlock type = (some b, e1))
    (hl : allocLeaf e1 key value = some (none, e')) (us : List (NodeType × Nat)) :
    Moves e us (e'.freeBlock type b) us :=
  (((allocBlock_moves ha).frame us).trans ((allocLeaf_moves hl).frame _)).trans
    ((freeBlock_moves type b e').frame us)

/-- A Node4 over what was there and a new leaf. -/
theorem pair_moves {e1 : Env} {b : Nat} (ha : e.allocBlock .node4 = (some b, e1)) {l : ArtLeaf V}
    (hl : allocLeaf e1 key value = some (some l, e')) (size : Nat) (header : NodeHeader)
    {c c' : UInt8} (hne : c ≠ c') (x : Node V) :
    Moves e x.used { e' with size } (pairNode b header c x c' (.leaf l)).used := by
  refine ((allocBlock_moves ha).frame x.used).trans ((allocLeaf_adds hl _ size).trans ?_)
  refine .of_perm _ ((List.Perm.swap ..).trans ?_)
  refine List.Perm.trans (.cons _ ?_) (pairNode_used x (.leaf l) hne).symm
  exact (List.perm_append_singleton ..).symm

theorem splitLeaf_moves {l : ArtLeaf V} {depth : Nat} {s : Status} {y : Node V}
    (h : splitLeaf e l key value depth = some (s, y, e')) : Moves e (Node.leaf l).used e' y.used := by
  unfold splitLeaf at h
  simp only at h
  split at h
  · cases h
  split at h
  · cases h
    exact .refl _ _
  next hdiffer =>
  have hne : l.key ≠ key := fun he => hdiffer (ends_iff.mpr he)
  rcases allocBlock_cases .node4 e with ⟨e1, ha, -⟩ | ⟨b, e1, ha, -⟩
  · rw [ha] at h
    cases h
    exact stay_moves ha _
  · rw [ha] at h
    obtain ⟨bs, -, h⟩ := Option.bind_eq_some_iff.mp h
    obtain ⟨⟨o, e2⟩, hl, he⟩ := Option.map_eq_some_iff.mp h
    cases o with
    | none =>
      cases he
      exact abort_moves ha hl _
    | some m =>
      cases he
      exact pair_moves ha hl _ _ (byteAt_agree hne) _

/-- The key leaves the prefix at a byte at which the leaves below go on otherwise. -/
theorem splitPrefix_moves {path shared : List UInt8} {n : Inner (Node V)}
    (h0 : 0 ∉ path ++ shared)
    (hfollow : ∀ l, findMinimumLeaf (.inner n) = some l → path ++ shared <+: l.key.term)
    (hk : path <+: key.term) (hlt : agree shared (key.term.drop path.length) < shared.length)
    {s : Status} {y : Node V}
    (h : splitPrefix e n key value path.length (agree shared (key.term.drop path.length)) =
      some (s, y, e')) : Moves e (Node.inner n).used e' y.used := by
  obtain ⟨s1, o, s2, k, rfl, hlen, hkp, hne⟩ := exists_fork h0 hk hlt
  rw [← hlen] at h
  unfold splitPrefix at h
  rcases allocBlock_cases .node4 e with ⟨e1, ha, -⟩ | ⟨b, e1, ha, -⟩
  · rw [ha] at h
    cases h
    exact stay_moves ha _
  · rw [ha] at h
    obtain ⟨⟨m, e2⟩, hl, h⟩ := Option.bind_eq_some_iff.mp h
    cases m with
    | none =>
      cases h
      exact abort_moves ha hl _
    | some m =>
      obtain ⟨bs, -, h⟩ := Option.bind_eq_some_iff.mp h
      obtain ⟨leaf, hleaf, h⟩ := Option.bind_eq_some_iff.mp h
      obtain ⟨oldChar, hold, h⟩ := Option.bind_eq_some_iff.mp h
      obtain ⟨rest, -, h⟩ := Option.bind_eq_some_iff.mp h
      obtain ⟨newChar, hnew, he⟩ := Option.map_eq_some_iff.mp h
      cases he
      have hfork : path ++ s1 ++ [o] <+: leaf.key.term := by
        refine List.IsPrefix.trans ⟨s2, ?_⟩ (hfollow leaf hleaf)
        simp
      have hreado := read_follows hfork
      have hreadk := read_follows hkp
      rw [List.length_append] at hreado hreadk
      rw [hreado] at hold
      rw [Nat.add_comm, hreadk] at hnew
      cases hold
      cases hnew
      have hmoves := pair_moves ha hl (e2.size + 1) (NodeHeader.zero.store s1.length bs) hne
        (.inner (n.setHeader (n.header.store (n.header.prefixLen - (s1.length + 1)) rest)))
      rwa [used_setHeader] at hmoves

/-! ## Adding a child -/

/-- The leaf goes to the byte `c` of a node that keeps its block. -/
theorem addLeaf_moves {n n' : Inner (Node V)} {c : UInt8} (hc : n.look c = none)
    {put : Node V → Option (Inner (Node V))}
    (hput : ∀ x m, put x = some m → m.look = Function.update n.look c (some x) ∧
      m.type = n.type ∧ m.block = n.block) {s : Status}
    (h : addLeaf e n key value put = some (s, n', e')) :
    Moves e (Node.inner n).used e' (Node.inner n').used := by
  unfold addLeaf at h
  obtain ⟨⟨o, e1⟩, hl, h⟩ := Option.bind_eq_some_iff.mp h
  cases o with
  | none =>
    cases h
    exact (allocLeaf_moves hl).frame _
  | some l =>
    obtain ⟨m, hm, he⟩ := Option.map_eq_some_iff.mp h
    cases he
    obtain ⟨hlook, ht, hb⟩ := hput _ _ hm
    have hused := used_perm hlook
    have hsplit := used_split _ hc
    rw [ht, hb, usedAt_some, used_leaf] at hused
    rw [usedAt_none, List.nil_append] at hsplit
    refine (Moves.of_perm e hsplit).trans ((allocLeaf_adds hl _ (e1.size + 1)).trans ?_)
    exact .of_perm _ ((List.Perm.swap ..).trans hused.symm)

/-- It goes to a copy of the node in the next layout. -/
theorem Copies.addLeaf_moves {n m n' : Inner (Node V)} {b : Nat} (C : Copies n m b) {e1 : Env}
    (ha : e.allocBlock m.type = (some b, e1)) {c : UInt8} (hc : n.look c = none)
    {put : Node V → Option (Inner (Node V))}
    (hput : ∀ x k, put x = some k → k.look = Function.update m.look c (some x) ∧
      k.type = m.type ∧ k.block = m.block) {s : Status}
    (h : addLeaf (e1.freeBlock n.type n.block) m key value put = some (s, n', e')) :
    Moves e (Node.inner n).used e' (Node.inner n').used :=
  (C.moves ha).trans (Art.addLeaf_moves (by rw [C.look]; exact hc) hput h)

theorem addChild_moves {n n' : Inner (Node V)} (coherent : n.Coherent) {c : UInt8}
    (hc : n.look c = none) {s : Status} (h : addChild e c key value n = some (s, n', e')) :
    Moves e (Node.inner n).used e' (Node.inner n').used := by
  cases n with
  | node4 p =>
    have hv : p.Valid 4 := coherent
    rw [addChild] at h
    split at h
    · next room =>
      refine addLeaf_moves hc (fun x k hk => ?_) h
      cases hk
      exact ⟨(Packed.append_valid hv x hc room).2, rfl, rfl⟩
    rcases allocBlock_cases .node16 e with ⟨e1, ha, -⟩ | ⟨b, e1, ha, -⟩
    · rw [upgradeNode4ToNode16, ha] at h
      cases h
      exact stay_moves ha _
    · obtain ⟨m, hm, C⟩ := upgradeNode4ToNode16_spec hv ha
      rw [hm] at h
      refine C.addLeaf_moves ha hc (fun x k hk => ?_) h
      cases hk
      have hroom : m.numChildren < 16 := by
        have hcopy : m.numChildren = p.numChildren := C.numChildren
        have hcount := hv.count
        have hle := hv.room
        omega
      exact ⟨(Packed.append_valid (show m.Valid 16 from C.coherent) x
        (show (Inner.node16 m).look c = none by rw [C.look]; exact hc) hroom).2, rfl, rfl⟩
  | node16 p =>
    have hv : p.Valid 16 := coherent
    rw [addChild] at h
    split at h
    · next room =>
      refine addLeaf_moves hc (fun x k hk => ?_) h
      cases hk
      exact ⟨(Packed.append_valid hv x hc room).2, rfl, rfl⟩
    rcases allocBlock_cases .node48 e with ⟨e1, ha, -⟩ | ⟨b, e1, ha, -⟩
    · rw [upgradeNode16ToNode48, ha] at h
      cases h
      exact stay_moves ha _
    · obtain ⟨m, hm, C, hfree⟩ := upgradeNode16ToNode48_spec hv ha
      rw [hm, Option.bind_some] at h
      refine C.addLeaf_moves ha hc (fun x k hk => ?_) h
      cases hk
      have hcopy : m.numChildren = p.numChildren := C.numChildren
      have hcount := hv.count
      have hle := hv.room
      exact ⟨(Node48.put_tabled C.coherent x (by rw [C.look]; exact hc) (by omega)
        (hfree _ (by omega))).1, rfl, rfl⟩
  | node48 p =>
    have hv : p.Tabled := coherent
    rw [addChild] at h
    split at h
    · refine addLeaf_moves hc (fun x k hk => ?_) h
      obtain ⟨i, hi, he⟩ := Option.map_eq_some_iff.mp hk
      cases he
      obtain ⟨hlt, hs⟩ := slot_of_freeIndex hi
      exact ⟨(Node48.put_tabled hv x hc (hv.len ▸ hlt) hs).1, rfl, rfl⟩
    rcases allocBlock_cases .node256 e with ⟨e1, ha, -⟩ | ⟨b, e1, ha, -⟩
    · rw [upgradeNode48ToNode256, ha] at h
      cases h
      exact stay_moves ha _
    · obtain ⟨m, hm, C⟩ := upgradeNode48ToNode256_spec p ha
      rw [hm] at h
      refine C.addLeaf_moves ha hc (fun x k hk => ?_) h
      cases hk
      exact ⟨(Node256.put_spec C.coherent c x).look, rfl, rfl⟩
  | node256 p =>
    rw [addChild] at h
    refine addLeaf_moves hc (fun x k hk => ?_) h
    cases hk
    exact ⟨(Node256.put_spec coherent c x).look, rfl, rfl⟩

end

/-! ## The walk -/

theorem insertLoop_moves (key : CStr) (value : Option V) {path : List UInt8} {node : Node V}
    (h : Placed path node) : ∀ {fuel : Nat} {e e' : Env} {s : Status} {y : Node V},
      path <+: key.term → insertLoop key value fuel e node path.length = some (s, y, e') →
      Moves e node.used e' y.used := by
  induction h with
  | @leaf path l _ =>
    intro fuel e e' s y _ ho
    cases fuel with
    | zero => cases ho
    | succ fuel => exact splitLeaf_moves ho
  | @inner path shared n coherent header noNul kids ih =>
    intro fuel e e' s y hk ho
    cases fuel with
    | zero => cases ho
    | succ fuel =>
      have hfollow := Placed.minimum_follows coherent header noNul kids
      have hin : path.length ≤ key.strlen :=
        (Fits.of_prefix hk).inner fun hm => noNul (List.mem_append_left _ hm)
      rw [insertLoop_inner coherent] at ho
      obtain ⟨matchLen, hm, ho⟩ := Option.bind_eq_some_iff.mp ho
      obtain rfl := matchPrefix_some header (fun hm => noNul (List.mem_append_right _ hm)) hin hfollow hm
      rw [header.len] at ho
      split at ho
      · next hlt => exact splitPrefix_moves noNul hfollow hk hlt ho
      next hfull =>
      have hps := follows_of_agree hk hfull
      split at ho
      · cases ho
        exact .refl _ _
      split at ho
      · cases ho
      obtain ⟨c, hread, ho⟩ := Option.bind_eq_some_iff.mp ho
      rw [← List.length_append] at hread
      have hpc := prefix_of_read hps hread
      cases hc : n.look c with
      | some x =>
        rw [hc] at ho
        obtain ⟨⟨s, z, e1⟩, hx, he⟩ := Option.map_eq_some_iff.mp ho
        cases he
        have hlen : (path ++ shared ++ [c]).length = path.length + shared.length + 1 := by
          rw [List.length_append, List.length_append, List.length_singleton]
        have hmoves := ih c x hc hpc (hlen ▸ hx)
        have hsplit := used_split _ hc
        have hused := used_perm (look_setChild coherent hc (some z))
        rw [usedAt_some] at hsplit
        rw [setChild_type, setChild_block, usedAt_some] at hused
        refine (Moves.of_perm e hsplit).trans (Moves.trans ?_ (.of_perm e1 hused.symm))
        exact (hmoves.frame _).behind [(n.type, n.block)]
      | none =>
        rw [hc] at ho
        obtain ⟨⟨s, n', e1⟩, ha, he⟩ := Option.map_eq_some_iff.mp ho
        cases he
        exact addChild_moves coherent hc ha

/-! ## Whether the copy is asked for -/

/-- The pool of `type` has a free block. -/
def Env.has (type : NodeType) (e : Env) : Bool := !(e.slab.pools type).freeList.isEmpty

/-- The next `malloc` fails. -/
def Env.refused (e : Env) : Bool := !e.mem.answers e.mem.asked

/-- The node has room, or there is a block of the next layout. -/
def roomFor (e : Env) : Inner (Node V) → Bool
  | .node4 n => n.numChildren < 4 || e.has .node16
  | .node16 n => n.numChildren < 16 || e.has .node48
  | .node48 n => n.numChildren < 48 || e.has .node256
  | .node256 _ => true

/-- An insertion below `node` comes to copy the key, with the leaf's block in
hand: it meets a leaf with another key or leaves a prefix, or it finds no child,
and the pools have the blocks that are taken before. -/
def asksLoop (key : CStr) (e : Env) : Nat → Node V → Nat → Bool
  | 0, _, _ => false
  | _ + 1, .leaf l, _ => l.key ≠ key && e.has .node4 && e.has .leafNode
  | fuel + 1, .inner n, depth =>
    match matchPrefix n key depth with
    | none => false
    | some matchLen =>
      if matchLen < n.header.prefixLen then e.has .node4 && e.has .leafNode
      else if 0 < n.header.prefixLen ∧ toInt key.strlen < toInt (depth + n.header.prefixLen) then false
      else if toInt (depth + n.header.prefixLen) ≠ (depth + n.header.prefixLen : Nat) then false
      else
        match read key (depth + n.header.prefixLen) with
        | none => false
        | some c =>
          match n.look c with
          | some x => asksLoop key e fuel x (depth + n.header.prefixLen + 1)
          | none => roomFor e n && e.has .leafNode

def asks (t : CdsaArtTree V) (key : CStr) : Bool :=
  match t.root with
  | none => t.env.has .leafNode
  | some root => asksLoop key t.env (key.strlen + 2) root 0

/-- The same with a `malloc` that grants everything. -/
def Env.granting (e : Env) : Env := { e with mem := { e.mem with answers := fun _ => true } }

def CdsaArtTree.granting (t : CdsaArtTree V) : CdsaArtTree V := { t with env := t.env.granting }

section
variable {key : CStr} {value : Option V} {e : Env}

/-- The pools answer alike, whatever `malloc` does. -/
theorem allocBlock_granting (type : NodeType) (e : Env) :
    (∃ e', e.allocBlock type = (none, e') ∧ e.granting.allocBlock type = (none, e'.granting) ∧
      e.has type = false) ∨
    ∃ b e', e.allocBlock type = (some b, e') ∧ e.granting.allocBlock type = (some b, e'.granting) ∧
      e.has type = true ∧ (type ≠ .leafNode → e'.has .leafNode = e.has .leafNode) ∧
      e'.refused = e.refused := by
  unfold Env.allocBlock Env.has Env.granting kpoolAlloc
  cases h : (e.slab.pools type).freeList with
  | nil => exact .inl ⟨_, rfl, rfl, rfl⟩
  | cons b rest =>
    refine .inr ⟨b, _, rfl, rfl, rfl, fun ht => ?_, rfl⟩
    simp only [Function.update_of_ne (Ne.symm ht)]

theorem freeBlock_has {type : NodeType} (ht : type ≠ .leafNode) (b : Nat) (e : Env) :
    (e.freeBlock type b).has .leafNode = e.has .leafNode := by
  simp only [Env.has, Env.freeBlock, Function.update_of_ne (Ne.symm ht)]

/-- A leaf is had unless there is no block for it; the copy decides the rest. -/
theorem allocLeaf_granting (e : Env) (key : CStr) (value : Option V) :
    (e.has .leafNode = false ∧ (∃ e1, allocLeaf e key value = some (none, e1)) ∧
      ∃ e1, allocLeaf e.granting key value = some (none, e1)) ∨
    e.has .leafNode = true ∧ (∃ l e1, allocLeaf e.granting key value = some (some l, e1)) ∧
      (e.refused = true ∧ allocLeaf e key value = none ∨
        e.refused = false ∧ ∃ l e1, allocLeaf e key value = some (some l, e1)) := by
  unfold allocLeaf
  rcases allocBlock_granting .leafNode e with ⟨e1, h, hg, hn⟩ | ⟨b, e1, h, hg, hn, -, hr⟩
  · rw [h, hg]
    exact .inl ⟨hn, ⟨_, rfl⟩, _, rfl⟩
  · rw [h, hg]
    refine .inr ⟨hn, ?_, ?_⟩
    · simp only [safeStrdup, @cdsaMallocTrack_ok e1.granting.mem rfl]
      exact ⟨_, _, rfl⟩
    · rw [← hr, Env.refused]
      cases ha : e1.mem.answers e1.mem.asked with
      | false =>
        refine .inl ⟨rfl, ?_⟩
        simp only [safeStrdup, cdsaMallocTrack_fail ha]
      | true =>
        simp only [safeStrdup, cdsaMallocTrack_ok ha]
        exact .inr ⟨rfl, _, _, rfl⟩

theorem splitLeaf_returns (l : ArtLeaf V) (depth : Nat) :
    (splitLeaf e l key value depth).isSome = ((splitLeaf e.granting l key value depth).isSome &&
      !(decide (l.key ≠ key) && e.has .node4 && e.has .leafNode && e.refused)) := by
  unfold splitLeaf
  simp only
  split
  · rfl
  split
  · next hz => simp [ends_iff.mp hz]
  next hz =>
  have hne : l.key ≠ key := fun he => hz (ends_iff.mpr he)
  rcases allocBlock_granting .node4 e with ⟨e1, h, hg, hn⟩ | ⟨b, e1, h, hg, hn, hleaf, hr⟩
  · rw [h, hg, hn]
    simp
  · rw [h, hg, hn, ← hleaf (by decide), ← hr]
    cases readRange key depth (min (toU32 (agree l.key.bytes key.bytes - depth)) 10) with
    | none => rfl
    | some bs =>
      rcases allocLeaf_granting e1 key value with
        ⟨hl, ⟨e2, h2⟩, e3, h3⟩ | ⟨hl, ⟨m, e3, h3⟩, ⟨hno, h2⟩ | ⟨hyes, m', e2, h2⟩⟩
      · simp [h2, h3, hl]
      · simp [h2, h3, hl, hno, hne]
      · simp [h2, h3, hl, hyes]

theorem splitPrefix_returns (n : Inner (Node V)) (depth matchLen : Nat) :
    (splitPrefix e n key value depth matchLen).isSome =
      ((splitPrefix e.granting n key value depth matchLen).isSome &&
        !(e.has .node4 && e.has .leafNode && e.refused)) := by
  unfold splitPrefix
  rcases allocBlock_granting .node4 e with ⟨e1, h, hg, hn⟩ | ⟨b, e1, h, hg, hn, hleaf, hr⟩
  · rw [h, hg, hn]
    simp
  · rw [h, hg, hn, ← hleaf (by decide), ← hr]
    rcases allocLeaf_granting e1 key value with
      ⟨hl, ⟨e2, h2⟩, e3, h3⟩ | ⟨hl, ⟨m, e3, h3⟩, ⟨hno, h2⟩ | ⟨hyes, m', e2, h2⟩⟩
    · simp [h2, h3, hl]
    · simp [h2, hl, hno]
    · -- the reads that follow do not depend on the leaf
      simp [h2, h3, hl, hyes, Option.isSome_bind]

theorem addLeaf_returns (n : Inner (Node V)) {put : Node V → Option (Inner (Node V))}
    (hput : ∀ x y, (put x).isSome = (put y).isSome) :
    (addLeaf e n key value put).isSome =
      ((addLeaf e.granting n key value put).isSome && !(e.has .leafNode && e.refused)) := by
  unfold addLeaf
  rcases allocLeaf_granting e key value with
    ⟨hl, ⟨e2, h2⟩, e3, h3⟩ | ⟨hl, ⟨m, e3, h3⟩, ⟨hno, h2⟩ | ⟨hyes, m', e2, h2⟩⟩
  · simp [h2, h3, hl]
  · simp [h2, hl, hno]
  · simp [h2, h3, hl, hyes, hput (.leaf m') (.leaf m)]

/-- The same after a block of another type has been given back. -/
theorem addLeaf_freeBlock_returns {e1 : Env} (hleaf : e1.has .leafNode = e.has .leafNode)
    (hr : e1.refused = e.refused) {type : NodeType} (ht : type ≠ .leafNode) (b : Nat)
    (n : Inner (Node V)) {put : Node V → Option (Inner (Node V))}
    (hput : ∀ x y, (put x).isSome = (put y).isSome) :
    (addLeaf (e1.freeBlock type b) n key value put).isSome =
      ((addLeaf (e1.granting.freeBlock type b) n key value put).isSome &&
        !(e.has .leafNode && e.refused)) := by
  rw [addLeaf_returns n hput, freeBlock_has ht, hleaf, ← hr]
  rfl

theorem addChild_returns (c : UInt8) (n : Inner (Node V)) :
    (addChild e c key value n).isSome = ((addChild e.granting c key value n).isSome &&
      !(roomFor e n && e.has .leafNode && e.refused)) := by
  cases n with
  | node4 p =>
    rw [addChild, addChild, roomFor]
    by_cases room : p.numChildren < 4
    · rw [if_pos room, if_pos room, addLeaf_returns _ fun _ _ => rfl]
      simp [room]
    · rw [if_neg room, if_neg room]
      unfold upgradeNode4ToNode16
      rcases allocBlock_granting .node16 e with ⟨e1, h, hg, hn⟩ | ⟨b, e1, h, hg, hn, hleaf, hr⟩
      · simp [h, hg, hn, room]
      · simp only [h, hg, hn, Bool.or_true, Bool.true_and]
        exact addLeaf_freeBlock_returns (hleaf (by decide)) hr (by decide) _ _ fun _ _ => rfl
  | node16 p =>
    rw [addChild, addChild, roomFor]
    by_cases room : p.numChildren < 16
    · rw [if_pos room, if_pos room, addLeaf_returns _ fun _ _ => rfl]
      simp [room]
    · rw [if_neg room, if_neg room]
      unfold upgradeNode16ToNode48
      rcases allocBlock_granting .node48 e with ⟨e1, h, hg, hn⟩ | ⟨b, e1, h, hg, hn, hleaf, hr⟩
      · simp [h, hg, hn, room]
      · simp only [h, hg, hn, Bool.or_true, Bool.true_and]
        cases tabulate b p.header p.numChildren p.cells with
        | none => rfl
        | some m =>
          simp only [Option.map_some, Option.bind_some]
          exact addLeaf_freeBlock_returns (hleaf (by decide)) hr (by decide) _ _ fun _ _ => rfl
  | node48 p =>
    rw [addChild, addChild, roomFor]
    by_cases room : p.numChildren < 48
    · rw [if_pos room, if_pos room, addLeaf_returns _ fun _ _ => ?_]
      · simp [room]
      · rw [Option.isSome_map, Option.isSome_map]
    · rw [if_neg room, if_neg room]
      unfold upgradeNode48ToNode256
      rcases allocBlock_granting .node256 e with ⟨e1, h, hg, hn⟩ | ⟨b, e1, h, hg, hn, hleaf, hr⟩
      · simp [h, hg, hn, room]
      · simp only [h, hg, hn, Bool.or_true, Bool.true_and]
        exact addLeaf_freeBlock_returns (hleaf (by decide)) hr (by decide) _ _ fun _ _ => rfl
  | node256 p =>
    rw [addChild, addChild, addLeaf_returns _ fun _ _ => rfl]
    simp [roomFor]

end

/-- An insertion returns as it does where every copy is granted, unless it asks
for a copy that is refused. -/
theorem insertLoop_returns (key : CStr) (value : Option V) (e : Env) : ∀ {fuel : Nat}
    {node : Node V} {depth : Nat}, (∀ m, node.Has m → m.Coherent) →
      (insertLoop key value fuel e node depth).isSome =
        ((insertLoop key value fuel e.granting node depth).isSome &&
          !(asksLoop key e fuel node depth && e.refused)) := by
  intro fuel
  induction fuel with
  | zero =>
    intro node depth _
    rfl
  | succ fuel ih =>
    intro node depth coherent
    cases node with
    | leaf l => exact splitLeaf_returns l depth
    | inner n =>
      have hn := coherent n (.self n)
      rw [insertLoop_inner hn, insertLoop_inner hn, asksLoop]
      cases matchPrefix n key depth with
      | none => rfl
      | some matchLen =>
        rw [Option.bind_some, Option.bind_some]
        by_cases hlt : matchLen < n.header.prefixLen
        · simp only [if_pos hlt]
          exact splitPrefix_returns n depth matchLen
        simp only [if_neg hlt]
        by_cases hlong : 0 < n.header.prefixLen ∧
            toInt key.strlen < toInt (depth + n.header.prefixLen)
        · simp only [if_pos hlong]
          rfl
        simp only [if_neg hlong]
        by_cases hwrap : toInt (depth + n.header.prefixLen) ≠ (depth + n.header.prefixLen : Nat)
        · simp only [if_pos hwrap]
          rfl
        simp only [if_neg hwrap]
        cases read key (depth + n.header.prefixLen) with
        | none => rfl
        | some c =>
          rw [Option.bind_some, Option.bind_some]
          cases hc : n.look c with
          | some x =>
            simp only [hc, Option.isSome_map]
            exact ih (Node.Has.down hc coherent)
          | none =>
            simp only [hc, Option.isSome_map]
            exact addChild_returns c n

/-! ## Trees -/

/-- The keys are where the prefixes and filing bytes say. -/
def CdsaArtTree.Placed (t : CdsaArtTree V) : Prop := ∀ r, t.root = some r → Art.Placed [] r

theorem cdsaInsertArt_returns {t : CdsaArtTree V} (h : t.Placed) (key : CStr) (value : Option V) :
    (cdsaInsertArt t key value).isSome =
      ((cdsaInsertArt t.granting key value).isSome && !(asks t key && t.env.refused)) := by
  unfold cdsaInsertArt insertArtInternal CdsaArtTree.granting asks
  cases hr : t.root with
  | none =>
    simp only [Option.isSome_map]
    rcases allocLeaf_granting t.env key value with
      ⟨hl, ⟨e2, h2⟩, e3, h3⟩ | ⟨hl, ⟨m, e3, h3⟩, ⟨hno, h2⟩ | ⟨hyes, m', e2, h2⟩⟩
    · simp [h2, h3, hl]
    · simp [h2, hl, hno]
    · simp [h2, h3, hl, hyes]
  | some r =>
    simp only [Option.isSome_map]
    exact insertLoop_returns key value t.env (h r hr).coherent

theorem cdsaInsertArt_moves {t t' : CdsaArtTree V} (h : t.Placed) {key : CStr} {value : Option V}
    {s : Status} (ho : cdsaInsertArt t key value = some (s, t')) :
    Moves t.env (usedAt t.root) t'.env (usedAt t'.root) := by
  obtain ⟨⟨s, t1⟩, hi, he⟩ := Option.map_eq_some_iff.mp ho
  simp only [Prod.mk.injEq] at he
  obtain ⟨rfl, rfl⟩ := he
  suffices hm : Moves t.env (usedAt t.root) t1.env (usedAt t1.root) by
    split <;> exact hm
  unfold insertArtInternal at hi
  cases hr : t.root with
  | none =>
    rw [hr] at hi
    obtain ⟨⟨o, e⟩, hl, he⟩ := Option.map_eq_some_iff.mp hi
    cases o with
    | none =>
      cases he
      exact allocLeaf_moves hl
    | some l =>
      cases he
      exact allocLeaf_adds hl [] (e.size + 1)
  | some r =>
    rw [hr] at hi
    obtain ⟨⟨s, y, e⟩, hl, he⟩ := Option.map_eq_some_iff.mp hi
    cases he
    rw [usedAt_some, usedAt_some]
    exact insertLoop_moves key value (h r hr) List.nil_prefix hl

/-- Where an insertion returns if the key's copy is granted, it returns with the
pools partitioned as before exactly if the copy is granted or not asked for. -/
theorem insert_conserves_iff (t : CdsaArtTree V) (h : t.Placed) (hp : t.Partitioned) (key : CStr)
    (value : Option V) (defined : (cdsaInsertArt t.granting key value).isSome) :
    (∃ s t', cdsaInsertArt t key value = some (s, t') ∧ t'.Partitioned) ↔
      (asks t key = true → t.env.mem.answers t.env.mem.asked = true) := by
  have hreturns := cdsaInsertArt_returns h key value
  rw [defined, Bool.true_and] at hreturns
  constructor
  · rintro ⟨s, t', ho, -⟩ hasks
    rw [ho, hasks] at hreturns
    simpa [Env.refused] using hreturns
  · intro hgranted
    have hsome : (cdsaInsertArt t key value).isSome = true := by
      rw [hreturns]
      cases hasks : asks t key with
      | false => rfl
      | true => simp [Env.refused, hgranted hasks]
    obtain ⟨⟨s, t'⟩, ho⟩ := Option.isSome_iff_exists.mp hsome
    exact ⟨s, t', ho, (cdsaInsertArt_moves h ho).partitioned_iff.mp hp⟩

/-- The key "a" in pools of two blocks. -/
def oneTree (answers : Nat → Bool) : CdsaArtTree Nat where
  self := 0
  root := some (.leaf ⟨0, 1, .ofArray [97], some 1⟩)
  version := 0
  env := {
    size := 1
    slab := ⟨0, fun type => ⟨0, type.bytes, 2, 0, match type with
      | .leafNode => [1]
      | _ => [0, 1]⟩⟩
    mem := ⟨0, [(1, 2)], 7, answers⟩
    failed := 0 }

theorem oneTree_placed (answers : Nat → Bool) : (oneTree answers).Placed := fun _ hr => by
  cases hr
  exact .leaf List.nil_prefix

theorem oneTree_partitioned (answers : Nat → Bool) : (oneTree answers).Partitioned := fun type => by
  cases type with
  | leafNode => exact (show List.Perm [1, 0] (List.range 2) by decide)
  | node4 => exact .refl _
  | node16 => exact .refl _
  | node48 => exact .refl _
  | node256 => exact .refl _

/-- Inserting "b" with a copy that is granted. -/
theorem insert_conserves_b : ∃ s t', cdsaInsertArt (oneTree fun _ => true) ⟨[98], by decide⟩ (some 2) =
    some (s, t') ∧ t'.Partitioned :=
  (insert_conserves_iff _ (oneTree_placed _) (oneTree_partitioned _) ⟨[98], by decide⟩ (some 2)
    (by decide)).mpr fun _ => rfl

/-- Inserting "b" with a copy that is refused: `alloc_leaf` has taken block 1 of
the pool of leaves, and `CDSA_FREE` is called on it. -/
theorem refused_copy_frees_block : (oneTree fun _ => false).Partitioned ∧
    asks (oneTree fun _ => false) ⟨[98], by decide⟩ = true ∧
    ((oneTree fun _ => false).env.allocBlock .leafNode).1 = some 1 ∧
    (safeStrdup (oneTree fun _ => false).env.mem ⟨[98], by decide⟩).1 = none ∧
    cdsaInsertArt (oneTree fun _ => false) ⟨[98], by decide⟩ (some 2) = none :=
  ⟨oneTree_partitioned _, by decide, rfl, rfl, by decide⟩

end Cdsa.Art
