import Cdsa.L1Memory.Tracked

/-!
# Fixed-size block pools

A `kpool` is one tracked slab cut into `capacity` blocks. A block is named by
its index in the slab; the free list is threaded through the free blocks, and
is the list of their indices here. `kpoolCreate_spec` and
`kpoolDestroy_spec` say what a pool takes from the tracked allocator and that
it gives the same back.
-/
namespace Cdsa.Memory

/-- `self` is the address of the structure itself.
mirrors src/allocator.c:67-72 -/
structure Kpool where
  self : Ptr
  blockSize : Nat
  capacity : Nat
  memoryBlock : Ptr
  freeList : List Nat

/-- The block size that is used: room for a pointer, and a multiple of 8.
mirrors src/allocator.c:78-86 -/
def paddedBlockSize (blockSize : Nat) : Nat :=
  let blockSize := if blockSize < 8 then 8 else blockSize
  if blockSize % 8 ≠ 0 then blockSize + (8 - blockSize % 8) else blockSize

/-- The wiring writes to the first word of every block. It is not defined, that
is, `none`, where the size of the slab has wrapped: the slab is then too short
for its blocks.
mirrors src/allocator.c:74-119 -/
def kpoolCreate (mem : Mem) (blockSize capacity : Nat) : Option (Option Kpool × Mem) :=
  if blockSize = 0 ∨ capacity = 0 then some (none, mem)
  else
    let blockSize := paddedBlockSize blockSize
    match cdsaMallocTrack mem 32 with
    | (none, mem) => some (none, mem)
    | (some self, mem) =>
      match cdsaMallocTrack mem (blockSize * capacity % 2 ^ 64) with
      | (none, mem) => (cdsaFreeTrack mem (some self)).map fun mem => (none, mem)
      | (some memoryBlock, mem) =>
        if blockSize * capacity + 8 < 2 ^ 64 then
          some (some { self, blockSize, capacity, memoryBlock, freeList := List.range capacity },
            mem)
        else none

/-- mirrors src/allocator.c:121-138 -/
def kpoolAlloc (pool : Kpool) : Option Nat × Kpool :=
  match pool.freeList with
  | [] => (none, pool)
  | block :: rest => (some block, { pool with freeList := rest })

/-- mirrors src/allocator.c:140-153 -/
def kpoolFree (pool : Kpool) (block : Nat) : Kpool :=
  { pool with freeList := block :: pool.freeList }

/-- mirrors src/allocator.c:155-168 -/
def kpoolDestroy (mem : Mem) : Option Kpool → Option Mem
  | none => some mem
  | some pool =>
    (cdsaFreeTrack mem (some pool.memoryBlock)).bind fun mem => cdsaFreeTrack mem (some pool.self)

/-- The two allocations of a pool. -/
def Kpool.blocks (pool : Kpool) : List (Ptr × Nat) :=
  [(pool.memoryBlock, pool.blockSize * pool.capacity % 2 ^ 64), (pool.self, 32)]

theorem kpoolCreate_spec {base : UInt64} {bs : List (Ptr × Nat)} {mem : Mem} (O : Owns base bs mem)
    (hm : mem.NeverFails) {blockSize capacity : Nat} (hb : 0 < blockSize) (hc : 0 < capacity)
    (hfit : paddedBlockSize blockSize * capacity + 8 < 2 ^ 64) :
    ∃ pool mem', kpoolCreate mem blockSize capacity = some (some pool, mem') ∧
      Owns base (pool.blocks ++ bs) mem' ∧ mem'.NeverFails ∧ pool.freeList = List.range capacity := by
  obtain ⟨m1, e1, O1, a1, -⟩ := O.alloc (hm _) 32
  obtain ⟨m2, e2, O2, a2, -⟩ := O1.alloc (by rw [a1]; exact hm _)
    (paddedBlockSize blockSize * capacity % 2 ^ 64)
  refine ⟨⟨mem.asked, paddedBlockSize blockSize, capacity, m1.asked, List.range capacity⟩, m2, ?_,
    O2, fun n => by rw [a2, a1]; exact hm n, rfl⟩
  rw [kpoolCreate, if_neg (by omega)]
  simp only [e1, e2, if_pos hfit]

/-- Every block of a fresh pool is free. -/
theorem kpoolCreate_fresh {mem mem' : Mem} {blockSize capacity : Nat} {pool : Kpool}
    (h : kpoolCreate mem blockSize capacity = some (some pool, mem')) :
    pool.capacity = capacity ∧ pool.freeList = List.range capacity := by
  unfold kpoolCreate at h
  simp only at h
  split at h
  · cases h
  split at h
  · cases h
  split at h
  · obtain ⟨_, -, he⟩ := Option.map_eq_some_iff.mp h
    cases he
  · split at h
    · cases h
      exact ⟨rfl, rfl⟩
    · cases h

theorem kpoolDestroy_spec {base : UInt64} {bs : List (Ptr × Nat)} {mem : Mem} {pool : Kpool}
    (O : Owns base (pool.blocks ++ bs) mem) :
    ∃ mem', kpoolDestroy mem (some pool) = some mem' ∧ Owns base bs mem' ∧
      mem'.answers = mem.answers := by
  obtain ⟨m1, e1, O1, a1, -⟩ := O.free
  obtain ⟨m2, e2, O2, a2, -⟩ := O1.free
  exact ⟨m2, by rw [kpoolDestroy, e1, Option.bind_some, e2], O2, a2.trans a1⟩

end Cdsa.Memory
