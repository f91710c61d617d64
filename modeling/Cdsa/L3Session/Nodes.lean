import Cdsa.L1Memory.Tenants
import Cdsa.L2Art.Account
import Cdsa.L2Art.Teardown
import Cdsa.L2Linkedlist.List
import Cdsa.L2Skiplist.Teardown

/-!
# Containers of many blocks, in the heap

The linked list, the skip list and the tree allocate for every element, and
their models already pass the allocator around. A tenant's state is the model's
without the allocator; what it holds is what the model's own invariant says it
owns.

Of the tree's operations only an insertion that comes to copy its key asks the
heap for something, and must be granted it. A tree whose pools are exhausted
stays a tenant like any other.
-/
namespace Cdsa.Session

open Cdsa.Core Cdsa.Memory

/-! ## Linked lists -/

section
open Cdsa.Linkedlist

/-- A list, its nodes and the elements' bytes. -/
structure ListState where
  list : CdsaLinkedlist
  nodes : Ptr → Option Node
  payload : Ptr → Option (List UInt8)

def ListState.store (s : ListState) (m : Mem) : Store := ⟨s.nodes, s.payload, m⟩

def ListState.of (list : CdsaLinkedlist) (h : Store) : ListState := ⟨list, h.nodes, h.payload⟩

inductive ListOp (es : Nat) where
  | pushFront (value : Option (Vector.Elem es))
  | popFront
  | clear

/-- mirrors src/linkedlist.c:62-118 -/
def stepList {es : Nat} (op : ListOp es) (s : ListState) (m : Mem) : Option (ListState × Mem) :=
  match op with
  | .pushFront value => (cdsaPushFrontLinkedlist s.list (s.store m) (value.map Subtype.val)).map
      fun r => (.of r.2.1 r.2.2, r.2.2.mem)
  | .popFront => (cdsaPopFrontLinkedlist s.list (s.store m)).map
      fun r => (.of r.2.1 r.2.2, r.2.2.mem)
  | .clear => (cdsaClearLinkedlist s.list (s.store m)).map fun r => (.of r.1 r.2, r.2.mem)

/-- What the list is made of, apart from the allocator. -/
def ListState.Made (es : Nat) (s : ListState) (l : List (Ptr × Nat)) : Prop :=
  s.list.elemSize = es ∧ ∃ cells, l = owned s.list cells ∧
    (∀ m, Strung (s.store m) s.list.head cells) ∧ s.list.size = cells.length ∧
    ∀ c ∈ cells, c.elem.length = s.list.elemSize

theorem ListState.Made.holds {es : Nat} {s : ListState} {l bs : List (Ptr × Nat)} {base : UInt64}
    {m : Mem} (h : s.Made es l) (O : Owns base (l ++ bs) m) :
    ∃ cells, Linkedlist.Holds base bs (s.list, s.store m) cells := by
  obtain ⟨-, cells, rfl, hs, hsize, helems⟩ := h
  exact ⟨cells, hs m, hsize, helems, O⟩

theorem made_of_holds {es : Nat} {list : CdsaLinkedlist} {h : Store} {bs : List (Ptr × Nat)}
    {base : UInt64} {cells : List Cell} (H : Linkedlist.Holds base bs (list, h) cells)
    (hes : list.elemSize = es) :
    (ListState.of list h).Made es (owned list cells) ∧ Owns base (owned list cells ++ bs) h.mem :=
  ⟨⟨hes, cells, rfl, fun _ => H.strung.congr (fun _ _ => rfl) fun _ _ => rfl, H.size, H.elems⟩,
    H.owns⟩

/-- An element and its header must fit a `size_t`.
mirrors src/linkedlist.c:23-60 -/
def linkedlist (es : Nat) : Tenant where
  State := ListState
  Arg := Unit
  Op := ListOp es
  create _ m :=
    let r := cdsaCreateLinkedlist es ⟨fun _ => none, fun _ => none, m⟩
    some (r.1.map fun list => .of list r.2, r.2.mem)
  step := stepList
  free s m := (cdsaFreeLinkedlist s.list (s.store m)).map Store.mem
  Creates _ _ := es + 8 < 2 ^ 64
  Meets _ _ _ := True
  Closes _ := True
  Holds s l := s.Made es l
  created {base bs m a} O _ := by
    unfold cdsaCreateLinkedlist
    rcases O.malloc 32 with ⟨m1, e1, -, O1⟩ | ⟨self, m1, e1, -, O1⟩
    · refine Or.inl ⟨m1, ?_, O1⟩
      simp only [e1, Option.map_none]
    · refine Or.inr ⟨.of ⟨self, none, 0, es, 0⟩ ⟨fun _ => none, fun _ => none, m1⟩, m1,
        [(self, 32)], ?_, ⟨rfl, [], rfl, fun _ => rfl, rfl, fun _ h => nomatch h⟩, O1⟩
      simp only [e1, Option.map_some]
  stepped {base bs m s l op} H O _ := by
    obtain ⟨cells, HH⟩ := H.holds O
    cases op with
    | pushFront value =>
      obtain ⟨hes, -⟩ := H
      subst hes
      rcases HH.pushFront value with ⟨st, mem, -, e, H'⟩ | ⟨x, c, list', h', -, -, e, -, hes', H'⟩
      · obtain ⟨M, O'⟩ := made_of_holds H' rfl
        exact ⟨_, mem, _, by rw [stepList, e, Option.map_some], M, O'⟩
      · obtain ⟨M, O'⟩ := made_of_holds H' hes'
        exact ⟨_, h'.mem, _, by rw [stepList, e, Option.map_some], M, O'⟩
    | popFront =>
      rcases HH.popFront with ⟨-, e⟩ | ⟨c, cells', list', h', -, e, -, hes', H'⟩
      · exact ⟨s, m, l, by rw [stepList, e, Option.map_some]; rfl, H, O⟩
      · obtain ⟨M, O'⟩ := made_of_holds H' (hes'.trans H.1)
        exact ⟨_, h'.mem, _, by rw [stepList, e, Option.map_some], M, O'⟩
    | clear =>
      obtain ⟨list', h', e, -, hes', H'⟩ := HH.clear
      obtain ⟨M, O'⟩ := made_of_holds H' (hes'.trans H.1)
      exact ⟨_, h'.mem, _, by rw [stepList, e, Option.map_some], M, O'⟩
  freed {base bs m s l} H O _ := by
    obtain ⟨cells, HH⟩ := H.holds O
    obtain ⟨h', e, O'⟩ := HH.free
    exact ⟨h'.mem, by rw [e, Option.map_some], O'⟩

end

/-! ## Skip lists -/

section
open Cdsa.Skiplist

/-- The arrays that range queries have returned belong to the caller, who gives
them back before the list is freed.
mirrors src/skiplist.c:70-290 -/
def skiplist (S : Type) [LinearOrder S] (zero : S) : Tenant where
  State := CdsaSkiplist S × List (Ptr × List (Ptr × CStr))
  Arg := Unit
  Op := CallerOp S
  create _ m := (cdsaCreateSkiplist zero m).map fun r => (r.1.map fun sl => (sl, []), r.2)
  step op s m := (Caller.step ⟨s.1, m, s.2⟩ op).map fun r => ((r.2.list, r.2.held), r.2.mem)
  free s m := cdsaFreeSkiplist s.1 m
  Creates _ _ := True
  Meets op s m := Caller.Proper ⟨s.1, m, s.2⟩ op
  Closes s := s.2 = []
  Holds s l := ∃ H L, Towers s.1 H L ∧ l = owned s.1.self H L ++ s.2.flatMap resultBlocks
  created {base bs m a} O _ := by
    rcases cdsaCreateSkiplist_accounts O zero with ⟨m', e, O'⟩ | ⟨sl, m', e, H, L, T, O'⟩
    · exact Or.inl ⟨m', by rw [e, Option.map_some]; rfl, O'⟩
    · refine Or.inr ⟨(sl, []), m', _, by rw [e, Option.map_some]; rfl, ⟨H, L, T, rfl⟩, ?_⟩
      rw [List.append_assoc]
      exact O'
  stepped {base bs m s l op} H O hm := by
    obtain ⟨H, L, T, rfl⟩ := H
    rw [List.append_assoc] at O
    have A : Accounts base bs ⟨s.1, m, s.2⟩ := ⟨H, L, T, O⟩
    obtain ⟨o, c, e, H', L', T', O'⟩ := A.step hm
    refine ⟨(c.list, c.held), c.mem, _, by rw [e, Option.map_some], ⟨H', L', T', rfl⟩, ?_⟩
    rw [List.append_assoc]
    exact O'
  freed {base bs m s l} H O hc := by
    obtain ⟨H, L, T, rfl⟩ := H
    have hc : s.2 = [] := hc
    rw [hc, List.flatMap_nil, List.append_nil] at O
    exact cdsaFreeSkiplist_spec T O

end

/-! ## Pools -/

section
variable {base : UInt64} {bs : List (Ptr × Nat)} {m : Mem}

/-- What there is of a pool. -/
def poolBlocks (pool : Option Kpool) : List (Ptr × Nat) := pool.toList.flatMap Kpool.blocks

/-- What the creation of a pool can come to: without its slab the structure is
given back. -/
theorem kpoolCreate_cases (O : Owns base bs m) {blockSize capacity : Nat}
    (hfit : paddedBlockSize blockSize * capacity + 8 < 2 ^ 64) :
    ∃ pool m', kpoolCreate m blockSize capacity = some (pool, m') ∧
      Owns base (poolBlocks pool ++ bs) m' := by
  unfold kpoolCreate
  split
  · exact ⟨none, m, rfl, O⟩
  rcases O.malloc 32 with ⟨m1, e1, -, O1⟩ | ⟨self, m1, e1, -, O1⟩
  · exact ⟨none, m1, by simp only [e1], O1⟩
  rcases O1.malloc (paddedBlockSize blockSize * capacity % 2 ^ 64) with
    ⟨m2, e2, -, O2⟩ | ⟨slab, m2, e2, -, O2⟩
  · obtain ⟨m3, e3, O3, -, -⟩ := O2.free
    exact ⟨none, m3, by simp only [e1, e2, e3, Option.map_some], O3⟩
  · refine ⟨some ⟨self, paddedBlockSize blockSize, capacity, slab, List.range capacity⟩, m2, ?_, O2⟩
    simp only [e1, e2, if_pos hfit]

theorem kpoolDestroy_cases {pool : Option Kpool} (O : Owns base (poolBlocks pool ++ bs) m) :
    ∃ m', kpoolDestroy m pool = some m' ∧ Owns base bs m' := by
  cases pool with
  | none => exact ⟨m, rfl, O⟩
  | some pool =>
    obtain ⟨m', e, O', -⟩ := kpoolDestroy_spec O
    exact ⟨m', e, O'⟩

end

/-- `some block` gives the block back. The slab of a pool and its header must fit a
`size_t`.
mirrors src/allocator.c:74-168 -/
def pool : Tenant where
  State := Kpool
  Arg := Nat × Nat
  Op := Option Nat
  create a m := kpoolCreate m a.1 a.2
  step op p m := some (match op with
    | none => ((kpoolAlloc p).2, m)
    | some block => (kpoolFree p block, m))
  free p m := kpoolDestroy m (some p)
  Creates a _ := paddedBlockSize a.1 * a.2 + 8 < 2 ^ 64
  Meets _ _ _ := True
  Closes _ := True
  Holds p l := l = p.blocks
  created {base bs m a} O hfit := by
    obtain ⟨p, m', e, O'⟩ := kpoolCreate_cases O hfit
    cases p with
    | none => exact Or.inl ⟨m', e, O'⟩
    | some p => exact Or.inr ⟨p, m', p.blocks, e, rfl, O'⟩
  stepped {base bs m p l op} H O _ := by
    have hp : l = p.blocks := H
    subst hp
    cases op with
    | some block => exact ⟨_, m, p.blocks, rfl, rfl, O⟩
    | none =>
      refine ⟨_, m, p.blocks, rfl, ?_, O⟩
      unfold kpoolAlloc
      cases p.freeList <;> rfl
  freed {base bs m p l} H O _ := by
    subst H
    obtain ⟨m', e, O', -⟩ := kpoolDestroy_spec O
    exact ⟨m', e, O'⟩

/-! ## Radix trees -/

section
open Cdsa.Art

variable {V : Type}

/-- The five pools, as far as they could be made, and the structure. -/
theorem artSlabDestroy_cases {base : UInt64} {bs : List (Ptr × Nat)} {m : Mem} {self : Ptr}
    {pools : NodeType → Option Kpool}
    (O : Owns base (poolBlocks (pools .leafNode) ++ (poolBlocks (pools .node256) ++
      (poolBlocks (pools .node48) ++ (poolBlocks (pools .node16) ++ (poolBlocks (pools .node4) ++
        ((self, 40) :: bs)))))) m) :
    ∃ m', artSlabDestroy m self pools = some m' ∧ Owns base bs m' := by
  have O0 : Owns base (poolBlocks (pools .node4) ++ (poolBlocks (pools .node16) ++
      (poolBlocks (pools .node48) ++ (poolBlocks (pools .node256) ++
        (poolBlocks (pools .leafNode) ++ ((self, 40) :: bs)))))) m := by
    refine O.of_perm (List.perm_iff_count.mpr fun b => ?_)
    simp only [List.count_append]
    omega
  obtain ⟨m1, e1, O1⟩ := kpoolDestroy_cases O0
  obtain ⟨m2, e2, O2⟩ := kpoolDestroy_cases O1
  obtain ⟨m3, e3, O3⟩ := kpoolDestroy_cases O2
  obtain ⟨m4, e4, O4⟩ := kpoolDestroy_cases O3
  obtain ⟨m5, e5, O5⟩ := kpoolDestroy_cases O4
  obtain ⟨m6, e6, O6, -⟩ := O5.free
  exact ⟨m6, by simp only [artSlabDestroy, e1, e2, e3, e4, e5, e6, Option.bind_some], O6⟩

theorem artSlabCreate_cases {base : UInt64} {bs : List (Ptr × Nat)} {m : Mem} (O : Owns base bs m)
    {nodesPerTier : Nat} (hfit : 2080 * nodesPerTier + 8 < 2 ^ 64) :
    (∃ m', artSlabCreate m nodesPerTier = some (none, m') ∧ Owns base bs m') ∨
      ∃ slab m', artSlabCreate m nodesPerTier = some (some slab, m') ∧
        Owns base (slab.blocks ++ bs) m' := by
  rcases O.malloc 40 with ⟨m0, e0, -, O0⟩ | ⟨self, m0, e0, -, O0⟩
  · exact Or.inl ⟨m0, by simp only [artSlabCreate, e0], O0⟩
  obtain ⟨p4, m1, e1, O1⟩ := kpoolCreate_cases O0 (slab_fits hfit .node4)
  obtain ⟨p16, m2, e2, O2⟩ := kpoolCreate_cases O1 (slab_fits hfit .node16)
  obtain ⟨p48, m3, e3, O3⟩ := kpoolCreate_cases O2 (slab_fits hfit .node48)
  obtain ⟨p256, m4, e4, O4⟩ := kpoolCreate_cases O3 (slab_fits hfit .node256)
  obtain ⟨pLeaf, m5, e5, O5⟩ := kpoolCreate_cases O4 (slab_fits hfit .leafNode)
  simp only [artSlabCreate, e0, e1, e2, e3, e4, e5, Option.bind_some]
  split
  · refine Or.inr ⟨_, m5, rfl, O5.of_perm (List.perm_iff_count.mpr fun b => ?_)⟩
    simp only [CdsaArtSlab.blocks, poolBlocks, Option.toList_some, List.flatMap_singleton,
      List.count_append, List.count_cons, List.count_nil]
    omega
  · -- whatever pools there are, are destroyed
    have hdestroy : ∀ pools : NodeType → Option Kpool, pools .node4 = p4 → pools .node16 = p16 →
        pools .node48 = p48 → pools .node256 = p256 → pools .leafNode = pLeaf →
        ∃ m', (artSlabDestroy m5 self pools).map (fun m => ((none : Option CdsaArtSlab), m)) =
          some (none, m') ∧ Owns base bs m' := by
      rintro pools rfl rfl rfl rfl rfl
      obtain ⟨m6, e6, O6⟩ := artSlabDestroy_cases O5
      exact ⟨m6, by rw [e6, Option.map_some], O6⟩
    exact Or.inl (hdestroy _ rfl rfl rfl rfl rfl)

/-- The tree over the heap as it is. -/
def treeAt (t : CdsaArtTree V) (m : Mem) : CdsaArtTree V := { t with env := { t.env with mem := m } }

section
variable {base : UInt64} {bs : List (Ptr × Nat)} {t t' : CdsaArtTree V}

theorem owns_alike (O : Owns base (t.blocks ++ bs) t.env.mem)
    (keys : (keyBlocks t'.leaves).Perm (keyBlocks t.leaves)) (self : t'.self = t.self)
    (alike : Alike t.env t'.env) : Owns base (t'.blocks ++ bs) t'.env.mem := by
  rw [alike.mem, CdsaArtTree.blocks, alike.slab.blocks_eq, self]
  exact O.of_perm ((keys.symm.append_right _).append_right _)

/-- An insertion that is granted its key, if it comes to copy it, returns. -/
theorem insert_returns (F : Formed Exact t) {key : CStr} (value : Option V)
    (hk : ∀ l ∈ t.leaves, agree l.key.bytes key.bytes ≤ intMax)
    (hg : asks t key = true → t.env.mem.answers t.env.mem.asked = true) :
    (cdsaInsertArt t key value).isSome := by
  have hplaced : t.Placed := fun r hr => (F.filed r hr).placed
  have hgranting : (cdsaInsertArt t.granting key value).isSome := by
    have hi := cdsaInsertArt_stored exact_grows (t := t.granting) ⟨F.shape, F.size⟩ key value
    generalize cdsaInsertArt t.granting key value = res at hi
    cases hi with
    | undefined refused =>
      rcases refused with hno | ⟨l, hl, hbig⟩
      · cases hno
      · exact absurd (hk l hl) (Nat.not_le.mpr hbig)
    | _ => rfl
  rw [cdsaInsertArt_returns hplaced, hgranting, Bool.true_and]
  cases ha : asks t key with
  | false => rfl
  | true => simp [Env.refused, hg ha]

theorem insert_owns (F : Formed Exact t) (O : Owns base (t.blocks ++ bs) t.env.mem) {key : CStr}
    {value : Option V} {s : Status} (h : cdsaInsertArt t key value = some (s, t')) :
    Formed Exact t' ∧ Owns base (t'.blocks ++ bs) t'.env.mem := by
  have hi := cdsaInsertArt_stored exact_grows F key value
  rw [h] at hi
  cases hi with
  | replaced formed hkey before after self env =>
    have hkeys : (keyBlocks t.leaves).Perm (keyBlocks (_ :: _)) := before.map _
    exact ⟨formed, owns_alike O ((after.map _).trans hkeys.symm) self (by rw [env]; exact .refl _)⟩
  | @added l _ formed fresh hkey hvalue after self grown =>
    refine ⟨formed, ?_⟩
    have hg : cdsaMallocTrack t.env.mem (l.key.strlen + 1) = (some l.keyPtr, t'.env.mem) := grown.mem
    rcases O.malloc (l.key.strlen + 1) with ⟨m1, e1, -, -⟩ | ⟨p, m1, e1, -, O1⟩
    · rw [hg] at e1
      cases e1
    · rw [hg] at e1
      cases e1
      rw [CdsaArtTree.blocks, grown.slab.blocks_eq, self]
      have hk : (keyBlocks t'.leaves).Perm ((l.keyPtr, l.key.strlen + 1) :: keyBlocks t.leaves) :=
        after.map _
      exact O1.of_perm ((hk.symm.append_right _).append_right _)
  | oom formed after self alike failed =>
    exact ⟨formed exact_stalls, owns_alike O (after.map _) self alike⟩
  | invalid => exact ⟨F, O⟩

theorem delete_owns (F : Formed Exact t) (O : Owns base (t.blocks ++ bs) t.env.mem) {key : CStr}
    (hm : Art.Meets NotHollowing t (.delete key)) :
    ∃ s t', cdsaDeleteArt t key = some (s, t') ∧ Formed Exact t' ∧
      Owns base (t'.blocks ++ bs) t'.env.mem := by
  have hd := cdsaDeleteArt_discarded exact_shrinks F key hm.2
  generalize cdsaDeleteArt t key = res at hd
  cases hd with
  | @undefined l hl hkey dead =>
    have hlive : (l.keyPtr, l.key.strlen + 1) ∈ t.env.mem.blocks := by
      apply O.perm.mem_iff.mpr
      exact List.mem_append_left _ (List.mem_append_left _ (List.mem_map.mpr ⟨l, hl, rfl⟩))
    rw [lookup_of_mem O.distinct hlive] at dead
    cases dead
  | absent => exact ⟨_, _, rfl, F, O⟩
  | cut cuts => exact absurd cuts hm.1
  | @removed l t' hkey formed before self shed =>
    refine ⟨_, _, rfl, formed (Or.inl exact_stalls), ?_⟩
    have O1 := O.of_perm (((before.map _).append_right _).append_right _)
    obtain ⟨m1, e1, O2, -, -⟩ := O1.free
    have hs := shed.mem
    rw [e1] at hs
    cases hs
    rw [CdsaArtTree.blocks, shed.slab.blocks_eq, self]
    exact O2

theorem exec_owns (F : Formed Exact t) (O : Owns base (t.blocks ++ bs) t.env.mem) {op : Art.Op V}
    (hm : Art.Meets NotHollowing t op)
    (hg : ∀ key value, op = .insert key value → asks t key = true →
      t.env.mem.answers t.env.mem.asked = true) :
    ∃ o t', exec t op = some (o, t') ∧ Formed Exact t' ∧
      Owns base (t'.blocks ++ bs) t'.env.mem := by
  cases op with
  | insert key value =>
    obtain ⟨⟨s, t'⟩, e⟩ := Option.isSome_iff_exists.mp
      (insert_returns F value hm (hg key value rfl))
    exact ⟨_, t', by rw [exec, e, Option.map_some], insert_owns F O e⟩
  | delete key =>
    obtain ⟨s, t', e, h⟩ := delete_owns F O hm
    exact ⟨_, t', by rw [exec, e, Option.map_some], h⟩
  | search key =>
    obtain ⟨v, e, -⟩ := search_sound F.filed F.shallow key
    exact ⟨_, t, by rw [exec, e, Option.map_some], F, O⟩

theorem freeArt_owns (F : Formed Exact t) (O : Owns base (t.blocks ++ bs) t.env.mem) :
    ∃ m', cdsaFreeArt t = some m' ∧ Owns base bs m' := by
  rw [CdsaArtTree.blocks, List.append_assoc, List.append_assoc] at O
  obtain ⟨e, he, D⟩ : ∃ e, cdsaFreeNode t.env t.root = some e ∧
      Freed base (t.env.slab.blocks ++ ([(t.self, 32)] ++ bs)) t.env e := by
    unfold CdsaArtTree.leaves at O
    cases hr : t.root with
    | none =>
      rw [hr] at O
      exact ⟨t.env, rfl, O, .refl _⟩
    | some r =>
      rw [hr, leavesAt_some] at O
      exact freeNodeLoop_spec (F.shape r hr) (Nat.le_refl _) O
  have O1 := D.owns
  rw [← D.slab.blocks_eq] at O1
  obtain ⟨m1, e1, O2⟩ := artSlabDestroy_spec O1
  obtain ⟨m2, e2, O3, -⟩ := O2.free
  exact ⟨m2, by rw [cdsaFreeArt, he, Option.bind_some, e1, Option.bind_some, e2], O3⟩

end

/-- The largest slab and its header must fit a `size_t`. An insertion meets what it
has to, and is granted its key if it comes to copy it.
mirrors src/art.c:741-765 -/
def art (V : Type) : Tenant where
  State := CdsaArtTree V
  Arg := Nat × Nat
  Op := Art.Op V
  create a m := cdsaCreateArt m a.1 a.2
  step op t m := (exec (treeAt t m) op).map fun r => (r.2, r.2.env.mem)
  free t m := cdsaFreeArt (treeAt t m)
  Creates a _ := 2080 * a.1 + 8 < 2 ^ 64
  Meets op t m := Art.Meets NotHollowing t op ∧
    ∀ key value, op = .insert key value → asks (treeAt t m) key = true → m.answers m.asked = true
  Closes _ := True
  Holds t l := l = t.blocks ∧ Formed Exact t
  created {base bs m a} O hfit := by
    unfold cdsaCreateArt
    rcases O.malloc 32 with ⟨m1, e1, -, O1⟩ | ⟨self, m1, e1, -, O1⟩
    · exact Or.inl ⟨m1, by simp only [e1], O1⟩
    rcases artSlabCreate_cases O1 hfit with ⟨m2, e2, O2⟩ | ⟨slab, m2, e2, O2⟩
    · obtain ⟨m3, e3, O3, -, -⟩ := O2.free
      exact Or.inl ⟨m3, by simp only [e1, e2, e3, Option.bind_some, Option.map_some], O3⟩
    · refine Or.inr ⟨_, m2, _, by simp only [e1, e2, Option.bind_some]; rfl,
        ⟨rfl, fun r hr => (by cases hr), rfl⟩, ?_⟩
      rw [CdsaArtTree.blocks, List.append_assoc, List.append_assoc]
      exact O2
  stepped {base bs m t l op} H O hm := by
    obtain ⟨rfl, F⟩ := H
    obtain ⟨o, t', e, F', O'⟩ := exec_owns (t := treeAt t m) ⟨F.shape, F.size⟩ O
      (by cases op <;> exact hm.1) hm.2
    exact ⟨t', t'.env.mem, t'.blocks, by rw [e, Option.map_some], ⟨rfl, F'⟩, O'⟩
  freed {base bs m t l} H O _ := by
    obtain ⟨rfl, F⟩ := H
    exact freeArt_owns (t := treeAt t m) ⟨F.shape, F.size⟩ O

end

/-! ## Iterators -/

/-- The life of an iterator as the allocator sees it: a block of `size` bytes.
Neither the first prefetch nor asking for the next element allocates; they read
the container it walks over and write to its own block, and are no part of this.
mirrors src/vector.c:143-156, 194-198, src/art.c:1224-1229, 1282-1286 -/
def iterator (size : Nat) : Tenant where
  State := Ptr
  Arg := Unit
  Op := Empty
  create _ m := some (cdsaMallocTrack m size)
  step op := op.elim
  free iter m := cdsaFreeTrack m (some iter)
  Creates _ _ := True
  Meets _ _ _ := True
  Closes _ := True
  Holds iter l := l = [(iter, size)]
  created {base bs m a} O _ := by
    rcases O.malloc size with ⟨m1, e1, -, O1⟩ | ⟨iter, m1, e1, -, O1⟩
    · exact Or.inl ⟨m1, by rw [e1], O1⟩
    · exact Or.inr ⟨iter, m1, _, by rw [e1], rfl, O1⟩
  stepped {base bs m iter l op} := op.elim
  freed {base bs m iter l} H O _ := by
    subst H
    obtain ⟨m', e, O', -, -⟩ := O.free
    exact ⟨m', e, O'⟩

end Cdsa.Session
