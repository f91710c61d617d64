import Cdsa.Core.LTS
import Cdsa.L2Art.Delete
import Cdsa.L2Art.Search

/-!
# Operations on a whole tree

`Stored` lifts the outcomes of an insertion from a subtree to the tree,
`Discarded` those of a deletion. `Sound Q base bs t` adds what the tree owns to
its shape: the key strings of its leaves, the slab and the structure itself,
next to the blocks `bs` that were live before.

* `create_sound`: a fresh tree.
* `Sound.exec`: every operation returns, and keeps `Sound` if the deletion's
  leaf is taken from a node that meets `D` and either no pool was exhausted or
  `Q` tolerates that.
-/
namespace Cdsa.Art

open Cdsa.Core Cdsa.Memory

variable {V : Type} {Q D : NodeType → Nat → Nat → Prop}

/-! ## Insertion -/

/-- What inserting into a tree can come to. -/
inductive Stored (Q : NodeType → Nat → Nat → Prop) (t : CdsaArtTree V) (key : CStr)
    (value : Option V) : Option (Status × CdsaArtTree V) → Prop
  | undefined (refused : t.env.mem.answers t.env.mem.asked = false ∨
      ∃ l ∈ t.leaves, intMax < agree l.key.bytes key.bytes) : Stored Q t key value none
  | replaced {l : ArtLeaf V} {rest : List (ArtLeaf V)} {t' : CdsaArtTree V} (formed : Formed Q t')
    (hkey : l.key = key) (before : t.leaves.Perm (l :: rest))
    (after : t'.leaves.Perm ({ l with value } :: rest)) (self : t'.self = t.self)
    (env : t'.env = t.env) : Stored Q t key value (some (.ok, t'))
  | added {l : ArtLeaf V} {t' : CdsaArtTree V} (formed : Formed Q t')
    (fresh : ∀ m ∈ t.leaves, m.key ≠ key) (hkey : l.key = key) (hvalue : l.value = value)
    (after : t'.leaves.Perm (l :: t.leaves)) (self : t'.self = t.self)
    (grown : Grown t.env l t'.env) : Stored Q t key value (some (.ok, t'))
  | oom {t' : CdsaArtTree V} (formed : Stalls Q → Formed Q t') (after : t'.leaves.Perm t.leaves)
    (self : t'.self = t.self) (alike : Alike t.env t'.env) (failed : t.env.failed < t'.env.failed) :
    Stored Q t key value (some (.errOom, t'))
  | invalid (long : intMax < key.strlen) : Stored Q t key value (some (.errInvalid, t))

theorem Formed.of_root {t : CdsaArtTree V} {r : Node V} (hr : t.root = some r) (h : WF Q [] r)
    (size : t.env.size = r.leaves.length) : Formed Q t :=
  ⟨fun r' hr' => by rw [hr] at hr'; cases hr'; exact h,
    by rw [CdsaArtTree.leaves, hr, leavesAt_some]; exact size⟩

theorem insertArtInternal_stored (hQ : Grows Q) {t : CdsaArtTree V} (h : Formed Q t) (key : CStr)
    (value : Option V) : Stored Q t key value (insertArtInternal t key value) := by
  unfold insertArtInternal
  have hsize := h.size
  cases hr : t.root with
  | none =>
    have hnil : t.leaves = [] := by rw [CdsaArtTree.leaves, hr, leavesAt_none]
    simp only
    rcases allocLeaf_cases t.env key value with ⟨he, hno⟩ | ⟨e, he, ha, hf⟩ | ⟨l, e, he, hk, hv, hg⟩
    · rw [he]; exact .undefined (Or.inl hno)
    · rw [he]
      refine .oom (fun _ => ⟨fun r hr' => (by cases hr'), ?_⟩) ?_ rfl ha (by simp only; omega)
      · exact ha.size.trans (hsize.trans (by rw [hnil]; rfl))
      · rw [hnil]; exact .refl _
    · rw [he]
      refine .added (l := l) (.of_root rfl (.leaf (List.nil_prefix)) ?_) (by simp [hnil]) hk hv ?_ rfl hg
      · rw [hnil] at hsize
        exact hg.size.trans (by rw [hsize]; rfl)
      · rw [hnil]; exact .refl _
  | some r =>
    have hleaves : t.leaves = r.leaves := by rw [CdsaArtTree.leaves, hr, leavesAt_some]
    have hi := insertLoop_inserted hQ (h.shape r hr) key value (e := t.env) (List.nil_prefix)
      (Nat.le_refl _)
    simp only
    rw [hleaves] at hsize
    change Inserted Q [] key value t.env r (insertLoop key value (key.strlen + 2) t.env r 0) at hi
    generalize insertLoop key value (key.strlen + 2) t.env r 0 = res at hi
    cases hi with
    | undefined refused => exact .undefined (hleaves ▸ refused)
    | @replaced l rest r' wf hkey before after =>
      refine .replaced (.of_root rfl wf ?_) hkey (hleaves ▸ before) ?_ rfl rfl
      · exact hsize.trans (before.length_eq.trans after.length_eq.symm)
      · rw [CdsaArtTree.leaves, leavesAt_some]; exact after
    | @added l r' e' wf fresh hkey hvalue after grown =>
      refine .added (.of_root rfl wf ?_) (hleaves ▸ fresh) hkey hvalue ?_ rfl grown
      · rw [after.length_eq, List.length_cons]
        exact grown.size.trans (by rw [hsize])
      · rw [CdsaArtTree.leaves, leavesAt_some, hleaves]; exact after
    | @oom r' e' wf after alike failed =>
      refine .oom (fun hs => .of_root rfl (wf hs) ?_) ?_ rfl alike failed
      · exact (alike.size.trans hsize).trans after.length_eq.symm
      · rw [CdsaArtTree.leaves, leavesAt_some, hleaves]; exact after
    | invalid long =>
      have ht : { t with root := some r, env := t.env } = t := by rw [← hr]
      rw [Option.map_some, ht]
      exact .invalid long

theorem cdsaInsertArt_stored (hQ : Grows Q) {t : CdsaArtTree V} (h : Formed Q t) (key : CStr)
    (value : Option V) : Stored Q t key value (cdsaInsertArt t key value) := by
  have hi := insertArtInternal_stored hQ h key value
  unfold cdsaInsertArt
  generalize insertArtInternal t key value = res at hi
  cases hi with
  | undefined refused => exact .undefined refused
  | @replaced l rest t' formed hkey before after self env =>
    exact .replaced ⟨formed.shape, formed.size⟩ hkey before after self env
  | @added l t' formed fresh hkey hvalue after self grown =>
    exact .added ⟨formed.shape, formed.size⟩ fresh hkey hvalue after self grown
  | @oom t' formed after self alike failed => exact .oom formed after self alike failed
  | invalid long => exact .invalid long

/-! ## Deletion -/

/-- Deleting `key` loses a whole subtree. -/
def CutsTree (key : CStr) (t : CdsaArtTree V) : Prop := ∃ r, t.root = some r ∧ Cuts key r 0

/-- Deleting `key` takes its leaf from below `m`. -/
def TakesFromTree (key : CStr) (t : CdsaArtTree V) (m : Inner (Node V)) : Prop :=
  ∃ r, t.root = some r ∧ TakesFrom key r 0 m

/-- What deleting from a tree can come to. -/
inductive Discarded (Q : NodeType → Nat → Nat → Prop) (t : CdsaArtTree V) (key : CStr) :
    Option (Status × CdsaArtTree V) → Prop
  | undefined {l : ArtLeaf V} (hl : l ∈ t.leaves) (hkey : l.key = key)
    (dead : t.env.mem.blocks.lookup l.keyPtr = none) : Discarded Q t key none
  | absent (fresh : ∀ l ∈ t.leaves, l.key ≠ key) (whole : ¬ CutsTree key t) :
    Discarded Q t key (some (.errNotFound, t))
  | cut {t' : CdsaArtTree V} {lost : List (ArtLeaf V)} (cuts : CutsTree key t)
    (some_lost : lost ≠ []) (before : t.leaves.Perm (t'.leaves ++ lost)) (env : t'.env = t.env) :
    Discarded Q t key (some (.errNotFound, t'))
  | removed {l : ArtLeaf V} {t' : CdsaArtTree V} (hkey : l.key = key)
    (formed : Stalls Q ∨ t'.env.failed = t.env.failed → Formed Q t')
    (before : t.leaves.Perm (l :: t'.leaves)) (self : t'.self = t.self)
    (shed : Shed t.env l t'.env) : Discarded Q t key (some (.ok, t'))

theorem cdsaDeleteArt_discarded (hS : Shrinks Q D) {t : CdsaArtTree V} (h : Formed Q t)
    (key : CStr) (hD : ∀ m, TakesFromTree key t m → m.Counts D) :
    Discarded Q t key (cdsaDeleteArt t key) := by
  unfold cdsaDeleteArt
  have hsize := h.size
  cases hr : t.root with
  | none =>
    refine .absent (fun l hl => ?_) fun ⟨r, hr', _⟩ => by rw [hr] at hr'; cases hr'
    rw [CdsaArtTree.leaves, hr] at hl; cases hl
  | some r =>
    have hleaves : t.leaves = r.leaves := by rw [CdsaArtTree.leaves, hr, leavesAt_some]
    have hi := recursiveDelete_deleted hS (h.shape r hr) key (e := t.env) (.nil key)
      (Nat.le_refl _) fun m hm => hD m ⟨r, hr, hm⟩
    simp only
    rw [hleaves] at hsize
    change Deleted Q [] key t.env r (recursiveDelete key (key.strlen + 2) t.env r 0) at hi
    generalize recursiveDelete key (key.strlen + 2) t.env r 0 = res at hi
    cases hi with
    | undefined hl hkey dead => exact .undefined (hleaves ▸ hl) hkey dead
    | absent fresh whole =>
      have ht : { t with root := some r, env := t.env } = t := by rw [← hr]
      rw [Option.map_some, ht]
      refine .absent (hleaves ▸ fresh) fun ⟨r', hr', hc⟩ => whole ?_
      rw [hr] at hr'; cases hr'; exact hc
    | @cut o lost cuts some_lost before =>
      show Discarded Q t key (some (.errNotFound, { t with root := o, env := t.env }))
      exact .cut ⟨r, hr, cuts⟩ some_lost (hleaves ▸ before) rfl
    | @removed l o e' hkey before gone wf shed =>
      show Discarded Q t key (some (.ok, { t with root := o, env := e' }))
      refine .removed hkey (fun hs => ⟨fun x hx =>
        wf hs x hx, ?_⟩) (hleaves ▸ before) rfl shed
      have hl := before.length_eq
      rw [List.length_cons] at hl
      show e'.size = (leavesAt o).length
      rw [shed.size, hsize, hl]; rfl

/-! ## Ownership -/

/-- The copies of the keys. -/
def keyBlocks (ls : List (ArtLeaf V)) : List (Ptr × Nat) := ls.map fun l => (l.keyPtr, l.key.strlen + 1)

/-- The allocations of a slab, in the order of `art_slab_destroy`. -/
def CdsaArtSlab.blocks (s : CdsaArtSlab) : List (Ptr × Nat) :=
  (s.pools .node4).blocks ++ ((s.pools .node16).blocks ++ ((s.pools .node48).blocks ++
    ((s.pools .node256).blocks ++ ((s.pools .leafNode).blocks ++ [(s.self, 40)]))))

theorem SameSlab.blocks_eq {s s' : CdsaArtSlab} (h : SameSlab s s') : s'.blocks = s.blocks := by
  simp only [CdsaArtSlab.blocks, h.blocks, h.self]

/-- What a tree has allocated: its keys, its slab and itself. -/
def CdsaArtTree.blocks (t : CdsaArtTree V) : List (Ptr × Nat) :=
  keyBlocks t.leaves ++ (t.env.slab.blocks ++ [(t.self, 32)])

/-- A well-formed tree that owns its blocks, next to `bs`. -/
structure Sound (Q : NodeType → Nat → Nat → Prop) (base : UInt64) (bs : List (Ptr × Nat))
    (t : CdsaArtTree V) : Prop extends Formed Q t where
  owns : Owns base (t.blocks ++ bs) t.env.mem
  never : t.env.mem.NeverFails

section
variable {base : UInt64} {bs : List (Ptr × Nat)} {t : CdsaArtTree V}

theorem Sound.replaced (h : Sound Q base bs t) {t' : CdsaArtTree V} (formed : Formed Q t')
    (keys : (keyBlocks t'.leaves).Perm (keyBlocks t.leaves)) (self : t'.self = t.self)
    (alike : Alike t.env t'.env) : Sound Q base bs t' := by
  refine ⟨formed, ?_, by rw [alike.mem]; exact h.never⟩
  rw [alike.mem, CdsaArtTree.blocks, alike.slab.blocks_eq, self]
  exact h.owns.of_perm ((keys.symm.append_right _).append_right _)

theorem Sound.added (h : Sound Q base bs t) {t' : CdsaArtTree V} {l : ArtLeaf V}
    (formed : Formed Q t') (after : t'.leaves.Perm (l :: t.leaves)) (self : t'.self = t.self)
    (grown : Grown t.env l t'.env) : Sound Q base bs t' := by
  obtain ⟨m, hm, hO, ha, -⟩ := h.owns.alloc (h.never _) (l.key.strlen + 1)
  have hg := grown.mem
  rw [safeStrdup, hm] at hg
  injection hg with hp hg
  injection hp with hp
  refine ⟨formed, ?_, by rw [← hg]; exact fun n => by rw [ha]; exact h.never n⟩
  rw [← hg, CdsaArtTree.blocks, grown.slab.blocks_eq, self]
  rw [hp] at hO
  have hk : (keyBlocks t'.leaves).Perm ((l.keyPtr, l.key.strlen + 1) :: keyBlocks t.leaves) :=
    after.map _
  exact hO.of_perm ((hk.symm.append_right _).append_right _)

theorem Sound.removed (h : Sound Q base bs t) {t' : CdsaArtTree V} {l : ArtLeaf V}
    (formed : Formed Q t') (before : t.leaves.Perm (l :: t'.leaves)) (self : t'.self = t.self)
    (shed : Shed t.env l t'.env) : Sound Q base bs t' := by
  have hO := h.owns.of_perm (((before.map _).append_right _).append_right _)
  obtain ⟨m, hm, hO, ha, -⟩ := hO.free
  have hs := shed.mem
  rw [hm] at hs
  cases hs
  refine ⟨formed, ?_, fun n => by rw [ha]; exact h.never n⟩
  rw [CdsaArtTree.blocks, shed.slab.blocks_eq, self]
  exact hO

/-- A stored key is live. -/
theorem Sound.live (h : Sound Q base bs t) {l : ArtLeaf V} (hl : l ∈ t.leaves) :
    t.env.mem.blocks.lookup l.keyPtr = some (l.key.strlen + 1) := by
  refine lookup_of_mem h.owns.distinct (h.owns.perm.mem_iff.mpr ?_)
  exact List.mem_append_left _ (List.mem_append_left _ (List.mem_map.mpr ⟨l, hl, rfl⟩))

end

/-! ## One operation after the other -/

inductive Op (V : Type) where
  | insert (key : CStr) (value : Option V)
  | delete (key : CStr)
  | search (key : CStr)

inductive Out (V : Type) where
  | status (s : Status)
  | found (value : Option V)
  deriving DecidableEq

def exec (t : CdsaArtTree V) : Op V → Option (Out V × CdsaArtTree V)
  | .insert key value => (cdsaInsertArt t key value).map fun r => (.status r.1, r.2)
  | .delete key => (cdsaDeleteArt t key).map fun r => (.status r.1, r.2)
  | .search key => (cdsaSearchArt t key).map fun value => (.found value, t)

/-- An inserted key agrees with no stored one on more bytes than an `int`
counts; a deletion does not cut, and a leaf is taken only from below a node
that meets `D`. -/
def Meets (D : NodeType → Nat → Nat → Prop) (t : CdsaArtTree V) : Op V → Prop
  | .insert key _ => ∀ l ∈ t.leaves, agree l.key.bytes key.bytes ≤ intMax
  | .delete key => ¬ CutsTree key t ∧ ∀ m, TakesFromTree key t m → m.Counts D
  | .search _ => True

/-- No pool is found exhausted. -/
def NoneFails (t : CdsaArtTree V) (op : Op V) : Prop :=
  ∀ o t', exec t op = some (o, t') → t'.env.failed = t.env.failed

section
variable {base : UInt64} {bs : List (Ptr × Nat)} {t : CdsaArtTree V}

theorem Sound.insert (hQ : Grows Q) (h : Sound Q base bs t) {key : CStr} (value : Option V)
    (hk : ∀ l ∈ t.leaves, agree l.key.bytes key.bytes ≤ intMax) :
    ∃ s t', cdsaInsertArt t key value = some (s, t') ∧
      (Stalls Q ∨ t'.env.failed = t.env.failed → Sound Q base bs t') := by
  have hi := cdsaInsertArt_stored hQ h.toFormed key value
  generalize cdsaInsertArt t key value = res at hi
  cases hi with
  | undefined refused =>
    rcases refused with hno | ⟨l, hl, hbig⟩
    · rw [h.never] at hno; cases hno
    · exact absurd (hk l hl) (Nat.not_le.mpr hbig)
  | replaced formed hkey before after self env =>
    have hkeys : (keyBlocks t.leaves).Perm (keyBlocks (_ :: _)) := before.map _
    exact ⟨_, _, rfl, fun _ => h.replaced formed ((after.map _).trans hkeys.symm) self
      (by rw [env]; exact .refl _)⟩
  | added formed fresh hkey hvalue after self grown =>
    exact ⟨_, _, rfl, fun _ => h.added formed after self grown⟩
  | oom formed after self alike failed =>
    refine ⟨_, _, rfl, fun hs => h.replaced (formed ?_) (after.map _) self alike⟩
    exact hs.resolve_right fun he => by omega
  | invalid => exact ⟨_, _, rfl, fun _ => h⟩

theorem Sound.delete (hS : Shrinks Q D) (h : Sound Q base bs t) {key : CStr}
    (hcut : ¬ CutsTree key t) (hD : ∀ m, TakesFromTree key t m → m.Counts D) :
    ∃ s t', cdsaDeleteArt t key = some (s, t') ∧
      (Stalls Q ∨ t'.env.failed = t.env.failed → Sound Q base bs t') := by
  have hd := cdsaDeleteArt_discarded hS h.toFormed key hD
  generalize cdsaDeleteArt t key = res at hd
  cases hd with
  | undefined hl hkey dead => rw [h.live hl] at dead; cases dead
  | absent => exact ⟨_, _, rfl, fun _ => h⟩
  | cut cuts => exact absurd cuts hcut
  | removed hkey formed before self shed =>
    exact ⟨_, _, rfl, fun hs => h.removed (formed hs) before self shed⟩

theorem Sound.exec (hQ : Grows Q) (hS : Shrinks Q D) (h : Sound Q base bs t) {op : Op V}
    (hm : Meets D t op) (hf : Stalls Q ∨ NoneFails t op) :
    ∃ o t', Art.exec t op = some (o, t') ∧ Sound Q base bs t' := by
  cases op with
  | insert key value =>
    obtain ⟨s, t', he, ht⟩ := h.insert hQ value hm
    have he' : Art.exec t (.insert key value) = some (.status s, t') := by rw [Art.exec, he]; rfl
    exact ⟨_, t', he', ht (hf.imp_right fun hn => hn _ _ he')⟩
  | delete key =>
    obtain ⟨s, t', he, ht⟩ := h.delete hS hm.1 hm.2
    have he' : Art.exec t (.delete key) = some (.status s, t') := by rw [Art.exec, he]; rfl
    exact ⟨_, t', he', ht (hf.imp_right fun hn => hn _ _ he')⟩
  | search key =>
    obtain ⟨v, hv, -⟩ := search_sound h.filed h.shallow key
    exact ⟨_, t, by rw [Art.exec, hv]; rfl, h⟩

/-- A run whose operations meet the conditions returns, and leaves a sound tree. -/
theorem Sound.run (hQ : Grows Q) (hS : Shrinks Q D) (h : Sound Q base bs t) {ops : List (Op V)}
    (hops : RunMeets Art.exec (fun t op => Meets D t op ∧ (Stalls Q ∨ NoneFails t op)) t ops) :
    ∃ outs t', runOps Art.exec t ops = some (outs, t') ∧ Sound Q base bs t' :=
  runOps_returns (fun _ _ h hm => h.exec hQ hS hm.1 hm.2) ops t h hops

end

/-! ## A fresh tree -/

/-- Where the largest slab of a tree does not wrap, none does. -/
theorem slab_fits {nodesPerTier : Nat} (hfit : 2080 * nodesPerTier + 8 < 2 ^ 64) (type : NodeType) :
    paddedBlockSize type.bytes * nodesPerTier + 8 < 2 ^ 64 := by
  have hle : paddedBlockSize type.bytes ≤ 2080 := by cases type <;> decide
  have := Nat.mul_le_mul_right nodesPerTier hle
  omega

theorem artSlabCreate_spec {base : UInt64} {bs : List (Ptr × Nat)} {mem : Mem}
    (O : Owns base bs mem) (hm : mem.NeverFails) {nodesPerTier : Nat} (hn : 0 < nodesPerTier)
    (hfit : 2080 * nodesPerTier + 8 < 2 ^ 64) :
    ∃ slab mem', artSlabCreate mem nodesPerTier = some (some slab, mem') ∧
      Owns base (slab.blocks ++ bs) mem' ∧ mem'.NeverFails := by
  have hb : ∀ t : NodeType, 0 < t.bytes := fun t => by cases t <;> decide
  obtain ⟨m0, e0, O0, a0, -⟩ := O.alloc (hm _) 40
  have hm0 : m0.NeverFails := fun n => by rw [a0]; exact hm n
  obtain ⟨p4, m1, e1, O1, hm1, -⟩ := kpoolCreate_spec O0 hm0 (hb .node4) hn (slab_fits hfit _)
  obtain ⟨p16, m2, e2, O2, hm2, -⟩ := kpoolCreate_spec O1 hm1 (hb .node16) hn (slab_fits hfit _)
  obtain ⟨p48, m3, e3, O3, hm3, -⟩ := kpoolCreate_spec O2 hm2 (hb .node48) hn (slab_fits hfit _)
  obtain ⟨p256, m4, e4, O4, hm4, -⟩ := kpoolCreate_spec O3 hm3 (hb .node256) hn (slab_fits hfit _)
  obtain ⟨pLeaf, m5, e5, O5, hm5, -⟩ := kpoolCreate_spec O4 hm4 (hb .leafNode) hn (slab_fits hfit _)
  refine ⟨_, m5, by simp only [artSlabCreate, e0, e1, e2, e3, e4, e5, Option.bind_some]; rfl,
    O5.of_perm ?_, hm5⟩
  refine List.perm_iff_count.mpr fun b => ?_
  simp only [CdsaArtSlab.blocks, List.count_append, List.count_cons, List.count_nil]
  omega

theorem create_sound {base : UInt64} {bs : List (Ptr × Nat)} {mem : Mem} (O : Owns base bs mem)
    (hm : mem.NeverFails) {nodesPerTier : Nat} (hn : 0 < nodesPerTier)
    (hfit : 2080 * nodesPerTier + 8 < 2 ^ 64) (version : Nat) :
    ∃ (t : CdsaArtTree V) (mem' : Mem), cdsaCreateArt mem nodesPerTier version = some (some t, mem') ∧
      t.root = none ∧ Sound Q base bs t := by
  obtain ⟨m0, e0, O0, a0, -⟩ := O.alloc (hm _) 32
  obtain ⟨slab, m1, e1, O1, hm1⟩ := artSlabCreate_spec O0 (fun n => by rw [a0]; exact hm n) hn hfit
  refine ⟨_, m1, by simp only [cdsaCreateArt, e0, e1, Option.bind_some]; rfl, rfl,
    ⟨fun r hr => (by cases hr), rfl⟩, O1.of_perm ?_, hm1⟩
  rw [CdsaArtTree.blocks, List.append_assoc, List.append_assoc]
  exact .refl _

end Cdsa.Art
