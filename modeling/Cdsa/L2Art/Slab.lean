import Cdsa.L2Art.Tree

/-!
# What an allocation changes

Blocks come from the pools of the slab, key strings from the tracked
allocator. `Alike e e'`: from `e` to `e'` only the free lists of the pools
have changed; the ghost `failed` tells apart whether a pool was found
exhausted in between.

* `allocBlock_cases`: a block, or a pool found exhausted.
* `allocLeaf_cases`: a leaf whose key is a new string (`Grown`), an exhausted
  pool, or the refused copy that ends in `CDSA_FREE` on a block of the pool.
-/
namespace Cdsa.Art

open Cdsa.Core Cdsa.Memory

variable {V P : Type}

/-- The same slab with the same five pools, whatever is free in them. -/
structure SameSlab (s s' : CdsaArtSlab) : Prop where
  self : s'.self = s.self
  blocks : ∀ type, (s'.pools type).blocks = (s.pools type).blocks

theorem SameSlab.refl (s : CdsaArtSlab) : SameSlab s s := ⟨rfl, fun _ => rfl⟩

theorem SameSlab.trans {a b c : CdsaArtSlab} (h : SameSlab a b) (h' : SameSlab b c) :
    SameSlab a c := ⟨h'.self.trans h.self, fun t => (h'.blocks t).trans (h.blocks t)⟩

theorem SameSlab.update {s : CdsaArtSlab} {type : NodeType} {pool : Kpool}
    (h : pool.blocks = (s.pools type).blocks) :
    SameSlab s { s with pools := Function.update s.pools type pool } := by
  refine ⟨rfl, fun t => ?_⟩
  by_cases ht : t = type
  · subst ht; simp only [Function.update_self, h]
  · simp only [Function.update_of_ne ht]

structure Alike (e e' : Env) : Prop where
  size : e'.size = e.size
  mem : e'.mem = e.mem
  slab : SameSlab e.slab e'.slab

theorem Alike.refl (e : Env) : Alike e e := ⟨rfl, rfl, .refl _⟩

theorem Alike.trans {a b c : Env} (h : Alike a b) (h' : Alike b c) : Alike a c :=
  ⟨h'.size.trans h.size, h'.mem.trans h.mem, h.slab.trans h'.slab⟩

theorem freeBlock_alike (type : NodeType) (block : Nat) (e : Env) :
    Alike e (e.freeBlock type block) := ⟨rfl, rfl, .update rfl⟩

@[simp] theorem freeBlock_failed (type : NodeType) (block : Nat) (e : Env) :
    (e.freeBlock type block).failed = e.failed := rfl

theorem allocBlock_cases (type : NodeType) (e : Env) :
    (∃ e', e.allocBlock type = (none, e') ∧ Alike e e' ∧ e'.failed = e.failed + 1) ∨
      ∃ block e', e.allocBlock type = (some block, e') ∧ Alike e e' ∧ e'.failed = e.failed := by
  unfold Env.allocBlock kpoolAlloc
  cases h : (e.slab.pools type).freeList with
  | nil => exact Or.inl ⟨_, rfl, ⟨rfl, rfl, .refl _⟩, rfl⟩
  | cons block rest => exact Or.inr ⟨block, _, rfl, ⟨rfl, rfl, .update rfl⟩, rfl⟩

theorem allocBlock_none {type : NodeType} {e e' : Env} (h : e.allocBlock type = (none, e')) :
    Alike e e' ∧ e'.failed = e.failed + 1 := by
  rcases allocBlock_cases type e with ⟨e1, h1, hA, hf⟩ | ⟨b, e1, h1, -⟩
  · rw [h] at h1
    cases h1
    exact ⟨hA, hf⟩
  · rw [h] at h1
    cases h1

theorem allocBlock_some {type : NodeType} {e e' : Env} {block : Nat}
    (h : e.allocBlock type = (some block, e')) : Alike e e' ∧ e'.failed = e.failed := by
  rcases allocBlock_cases type e with ⟨e1, h1, -⟩ | ⟨b, e1, h1, hA, hf⟩
  · rw [h] at h1
    cases h1
  · rw [h] at h1
    cases h1
    exact ⟨hA, hf⟩

/-- From `e` to `e'` the new leaf `l` has been added: its key was copied, and
the tree counts one more. -/
structure Grown (e : Env) (l : ArtLeaf V) (e' : Env) : Prop where
  size : e'.size = e.size + 1
  mem : safeStrdup e.mem l.key = (some l.keyPtr, e'.mem)
  slab : SameSlab e.slab e'.slab
  failed : e'.failed = e.failed

theorem Grown.of_alike {e a e' : Env} {l : ArtLeaf V} (h : Alike e a) (hf : a.failed = e.failed)
    (g : Grown a l e') : Grown e l e' :=
  ⟨by rw [g.size, h.size], by rw [← h.mem]; exact g.mem, h.slab.trans g.slab, g.failed.trans hf⟩

theorem allocLeaf_cases (e : Env) (key : CStr) (value : Option V) :
    (allocLeaf e key value = none ∧ e.mem.answers e.mem.asked = false) ∨
      (∃ e', allocLeaf e key value = some (none, e') ∧ Alike e e' ∧ e'.failed = e.failed + 1) ∨
      ∃ l e', allocLeaf e key value = some (some l, e') ∧ l.key = key ∧ l.value = value ∧
        Grown e l { e' with size := e'.size + 1 } := by
  unfold allocLeaf
  rcases allocBlock_cases .leafNode e with ⟨e1, h1, ha, hf⟩ | ⟨block, e1, h1, ha, hf⟩
  · exact Or.inr (Or.inl ⟨e1, by rw [h1], ha, hf⟩)
  · rw [h1]
    cases hg : e.mem.answers e.mem.asked with
    | false =>
      refine Or.inl ⟨?_, rfl⟩
      simp only [safeStrdup, ha.mem, cdsaMallocTrack_fail hg]
    | true =>
      refine Or.inr (Or.inr ⟨⟨block, e.mem.asked, key, value⟩,
        { e1 with mem := (safeStrdup e.mem key).2 }, ?_, rfl, rfl, ?_⟩)
      · simp only [safeStrdup, ha.mem, cdsaMallocTrack_ok hg]
      · exact ⟨by simp only [ha.size], by simp only [safeStrdup, cdsaMallocTrack_ok hg], ha.slab, hf⟩

end Cdsa.Art
