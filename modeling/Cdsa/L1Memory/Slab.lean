import Cdsa.Core.LTS
import Cdsa.Core.Word
import Cdsa.L1Memory.Bytes
import Cdsa.L1Memory.Kpool

/-!
# The pool in its slab

`Cdsa.Memory.Kpool` keeps the free blocks of a pool as a list. Here the list is
where the code has it: in the first 8 bytes of each free block, as the address
of the next one. The bytes of an outstanding block are the client's.

`Inv` ties the two together: the links of the slab run through the blocks
`free`, and these and the outstanding blocks are the blocks of the slab, each
once. Writes of a client stay inside outstanding blocks, so they meet no link.
-/
namespace Cdsa.Slab

open Cdsa.Core Cdsa.Raw

/-- Addresses; NULL is 0.
mirrors src/allocator.c:67-72 -/
structure Kpool where
  blockSize : Nat
  capacity : Nat
  memoryBlock : Nat
  freeList : Nat
  deriving DecidableEq

/-- The first half of `kpool_create`: the block size in use and the slab.
mirrors src/allocator.c:74-102 -/
def kpoolAllocate (self slab : Malloc) (blockSize capacity : Nat) :
    Option (Option (Nat × List UInt8)) :=
  if blockSize = 0 ∨ capacity = 0 then some none
  else
    let blockSize := Memory.paddedBlockSize blockSize % 2 ^ 64
    (self 32).bind fun
      | none => some none
      | some _ => (slab (blockSize * capacity % 2 ^ 64)).map fun r => r.map fun slab =>
        (blockSize, slab)

/-- The wiring loop, `left` rounds from `i` on, over the slab at `base`.
mirrors src/allocator.c:109-114 -/
def wireLoop (base blockSize : Nat) : Nat → Nat → Nat → List UInt8 → Option (Nat × List UInt8)
  | 0, _, current, slab => some (current, slab)
  | left + 1, i, current, slab =>
    let nextNode := base + (i + 1) * blockSize % 2 ^ 64
    (storeWord slab base current nextNode).bind fun slab =>
      wireLoop base blockSize left (i + 1) nextNode slab

/-- The pool and its slab, which lies at `base`.
mirrors src/allocator.c:74-119 -/
def kpoolCreate (self slab : Malloc) (base blockSize capacity : Nat) :
    Option (Option (Kpool × List UInt8)) :=
  (kpoolAllocate self slab blockSize capacity).bind fun
    | none => some none
    | some (blockSize, slab) =>
      (wireLoop base blockSize (capacity - 1) 0 base slab).bind fun r =>
        (storeWord r.2 base r.1 0).map fun slab =>
          some ({ blockSize, capacity, memoryBlock := base, freeList := base }, slab)

/-- The block handed out, or NULL.
mirrors src/allocator.c:121-138 -/
def kpoolAlloc (pool : Kpool) (slab : List UInt8) : Option (Nat × Kpool) :=
  if pool.freeList = 0 then some (0, pool)
  else
    (loadWord slab pool.memoryBlock pool.freeList).map fun next =>
      (pool.freeList, { pool with freeList := next })

/-- mirrors src/allocator.c:140-153 -/
def kpoolFree (pool : Kpool) (slab : List UInt8) (ptr : Nat) : Option (Kpool × List UInt8) :=
  if ptr = 0 then some (pool, slab)
  else
    (storeWord slab pool.memoryBlock ptr pool.freeList).map fun slab =>
      ({ pool with freeList := ptr }, slab)

/-! ## Runs -/

inductive Op where
  | alloc
  | free (ptr : Nat)
  | write (ptr offset : Nat) (bytes : List UInt8)

/-- The pool, its slab, and the blocks that clients hold. -/
structure State where
  pool : Kpool
  slab : List UInt8
  outstanding : List Nat

def step (w : State) : Op → Option (Nat × State)
  | .alloc =>
    (kpoolAlloc w.pool w.slab).map fun r =>
      (r.1, ⟨r.2, w.slab, if r.1 = 0 then w.outstanding else r.1 :: w.outstanding⟩)
  | .free ptr =>
    (kpoolFree w.pool w.slab ptr).map fun r => (0, ⟨r.1, r.2, w.outstanding.erase ptr⟩)
  | .write ptr offset bytes =>
    (writeAt w.slab (ptr - w.pool.memoryBlock + offset) bytes).map fun slab => (0, { w with slab })

/-- Clients free what they hold, and write inside what they hold. -/
def Allowed (w : State) : Op → Prop
  | .alloc => True
  | .free ptr => ptr ∈ w.outstanding
  | .write ptr offset bytes => ptr ∈ w.outstanding ∧ offset + bytes.length ≤ w.pool.blockSize

/-- The links lead from address `a` through the blocks `l` to NULL. -/
def Threads (slab : List UInt8) (base blockSize : Nat) : Nat → List Nat → Prop
  | a, [] => a = 0
  | a, i :: l => a = base + i * blockSize ∧
      ∃ next, loadWord slab base a = some next ∧ Threads slab base blockSize next l

theorem Threads.congr {slab slab' : List UInt8} {base bs : Nat} :
    ∀ {l : List Nat} {a : Nat}, Threads slab base bs a l →
      (∀ i ∈ l, readAt slab' (i * bs) 8 = readAt slab (i * bs) 8) → Threads slab' base bs a l
  | [], _, h, _ => h
  | i :: l, a, ⟨ha, next, hn, h⟩, he => by
    refine ⟨ha, next, ?_, h.congr fun j hj => he j (List.mem_cons_of_mem _ hj)⟩
    rw [ha, loadWord_add] at hn ⊢
    rw [he i List.mem_cons_self, hn]

/-- The blocks `free` are free, the others are outstanding. -/
structure Inv (w : State) (free : List Nat) : Prop where
  blockSize : 8 ≤ w.pool.blockSize
  base : 0 < w.pool.memoryBlock
  space : w.pool.memoryBlock + w.pool.capacity * w.pool.blockSize ≤ 2 ^ 64
  room : w.pool.capacity * w.pool.blockSize ≤ w.slab.length
  threads : Threads w.slab w.pool.memoryBlock w.pool.blockSize w.pool.freeList free
  parts : (free.map (fun i => w.pool.memoryBlock + i * w.pool.blockSize) ++ w.outstanding).Perm
    ((List.range w.pool.capacity).map fun i => w.pool.memoryBlock + i * w.pool.blockSize)

section
variable {w : State} {free : List Nat}

/-- The address of block `i`. -/
def addr (w : State) (i : Nat) : Nat := w.pool.memoryBlock + i * w.pool.blockSize

theorem Inv.addr_inj (I : Inv w free) {i j : Nat} (h : addr w i = addr w j) : i = j := by
  have := I.blockSize
  exact Nat.eq_of_mul_eq_mul_right (by omega) (Nat.add_left_cancel h)

theorem Inv.all_nodup (I : Inv w free) : (free.map (addr w) ++ w.outstanding).Nodup :=
  I.parts.nodup_iff.mpr
    ((List.nodup_map_iff fun _ _ h => I.addr_inj h).mpr List.nodup_range)

theorem Inv.free_lt (I : Inv w free) {i : Nat} (hi : i ∈ free) : i < w.pool.capacity := by
  have := I.parts.mem_iff.mp (List.mem_append_left _ (List.mem_map_of_mem hi))
  obtain ⟨j, hj, he⟩ := List.mem_map.mp this
  exact I.addr_inj he ▸ List.mem_range.mp hj

theorem Inv.outstanding_lt (I : Inv w free) {p : Nat} (hp : p ∈ w.outstanding) :
    ∃ i, i < w.pool.capacity ∧ p = addr w i ∧ i ∉ free := by
  obtain ⟨i, hi, he⟩ := List.mem_map.mp (I.parts.mem_iff.mp (List.mem_append_right _ hp))
  refine ⟨i, List.mem_range.mp hi, he.symm, fun hf => ?_⟩
  exact (List.nodup_append.mp I.all_nodup).2.2 _ (List.mem_map_of_mem hf) p hp he

theorem Inv.fits (I : Inv w free) {i : Nat} (hi : i < w.pool.capacity) :
    i * w.pool.blockSize + w.pool.blockSize ≤ w.slab.length :=
  Nat.le_trans (cell_fits hi) I.room

theorem Inv.addr_lt (I : Inv w free) {i : Nat} (hi : i < w.pool.capacity) :
    addr w i + w.pool.blockSize ≤ 2 ^ 64 := by
  have := cell_fits (w := w.pool.blockSize) hi
  have := I.space
  unfold addr
  omega

/-- A write inside block `j` meets no link of another block. -/
theorem Inv.threads_write (I : Inv w free) {l : List Nat} {a j offset : Nat} {bytes slab' : List UInt8}
    (h : Threads w.slab w.pool.memoryBlock w.pool.blockSize a l) (hj : j ∉ l)
    (hw : writeAt w.slab (j * w.pool.blockSize + offset) bytes = some slab')
    (hin : offset + bytes.length ≤ w.pool.blockSize) :
    Threads slab' w.pool.memoryBlock w.pool.blockSize a l := by
  refine h.congr fun i hi => readAt_writeAt_of_disjoint hw ?_
  have hne : i ≠ j := fun he => hj (he ▸ hi)
  have := I.blockSize
  rcases cell_disjoint (w := w.pool.blockSize) hne with h | h <;> omega

/-! ## One operation -/

theorem Inv.alloc (I : Inv w free) :
    (free = [] ∧ kpoolAlloc w.pool w.slab = some (0, w.pool)) ∨
    ∃ i l next, free = i :: l ∧
      kpoolAlloc w.pool w.slab = some (addr w i, { w.pool with freeList := next }) ∧
      Inv ⟨{ w.pool with freeList := next }, w.slab, addr w i :: w.outstanding⟩ l := by
  cases free with
  | nil =>
    have h0 : w.pool.freeList = 0 := I.threads
    exact Or.inl ⟨rfl, by rw [kpoolAlloc, if_pos h0]⟩
  | cons i l =>
    obtain ⟨ha, next, hn, ht⟩ := I.threads
    refine Or.inr ⟨i, l, next, rfl, ?_, ⟨I.blockSize, I.base, I.space, I.room, ht, ?_⟩⟩
    · have := I.base
      rw [kpoolAlloc, if_neg (by omega), hn, Option.map_some, ha]
      rfl
    · exact List.perm_middle.trans I.parts

theorem Inv.release (I : Inv w free) {p : Nat} (hp : p ∈ w.outstanding) :
    ∃ j slab', p = addr w j ∧
      kpoolFree w.pool w.slab p = some ({ w.pool with freeList := p }, slab') ∧
      Inv ⟨{ w.pool with freeList := p }, slab', w.outstanding.erase p⟩ (j :: free) := by
  obtain ⟨j, hj, rfl, hjf⟩ := I.outstanding_lt hp
  have hbs := I.blockSize
  have hfit := I.fits hj
  obtain ⟨slab', hst, hw⟩ := exists_storeWord w.slab w.pool.memoryBlock
    (j * w.pool.blockSize) w.pool.freeList (by omega)
  -- the old head of the list is an address, or NULL
  have hhead : w.pool.freeList < 2 ^ 64 := by
    cases free with
    | nil =>
      have : w.pool.freeList = 0 := I.threads
      omega
    | cons i l =>
      obtain ⟨ha, -⟩ := I.threads
      have : addr w i + _ ≤ _ := I.addr_lt (I.free_lt List.mem_cons_self)
      unfold addr at this
      omega
  have ht := I.threads_write I.threads hjf
    (show writeAt w.slab (j * w.pool.blockSize + 0) _ = _ by rw [Nat.add_zero]; exact hw)
    (by rw [length_wordBytes]; omega)
  refine ⟨j, slab', rfl, ?_, ⟨hbs, I.base, I.space, ?_, ⟨rfl, _, loadWord_stored hw hhead _, ht⟩, ?_⟩⟩
  · have := I.base
    rw [kpoolFree, if_neg (by unfold addr; omega), addr, hst, Option.map_some]
  · show _ ≤ slab'.length
    rw [writeAt_length hw]; exact I.room
  · have h1 := (List.perm_cons_erase hp).symm
    exact List.perm_middle.symm.trans ((h1.append_left _).trans I.parts)

theorem Inv.write (I : Inv w free) {p offset : Nat} {bytes : List UInt8} (hp : p ∈ w.outstanding)
    (hin : offset + bytes.length ≤ w.pool.blockSize) :
    ∃ slab', writeAt w.slab (p - w.pool.memoryBlock + offset) bytes = some slab' ∧
      Inv ⟨w.pool, slab', w.outstanding⟩ free := by
  obtain ⟨j, hj, rfl, hjf⟩ := I.outstanding_lt hp
  have hfit := I.fits hj
  have hoff : addr w j - w.pool.memoryBlock + offset = j * w.pool.blockSize + offset := by
    rw [addr, Nat.add_sub_cancel_left]
  obtain ⟨slab', hw⟩ := exists_writeAt w.slab (j * w.pool.blockSize + offset) bytes (by omega)
  refine ⟨slab', by rw [hoff, hw], ⟨I.blockSize, I.base, I.space, ?_,
    I.threads_write I.threads hjf hw hin, I.parts⟩⟩
  show _ ≤ slab'.length
  rw [writeAt_length hw]; exact I.room

/-- An allowed operation returns, and keeps the pool where and what it is. -/
theorem Inv.step (I : Inv w free) {op : Op} (hop : Allowed w op) :
    ∃ r w' free', Slab.step w op = some (r, w') ∧ Inv w' free' ∧
      w'.pool = { w.pool with freeList := w'.pool.freeList } := by
  have hpos := I.base
  cases op with
  | alloc =>
    rcases I.alloc with ⟨rfl, he⟩ | ⟨i, l, next, rfl, he, I'⟩
    · exact ⟨_, w, [], by rw [Slab.step, he]; rfl, I, rfl⟩
    · have hne : addr w i ≠ 0 := by unfold addr; omega
      exact ⟨_, _, l, by rw [Slab.step, he, Option.map_some, if_neg hne], I', rfl⟩
  | free p =>
    obtain ⟨j, slab', -, he, I'⟩ := I.release hop
    exact ⟨_, _, j :: free, by rw [Slab.step, he, Option.map_some], I', rfl⟩
  | write p offset bytes =>
    obtain ⟨slab', he, I'⟩ := I.write hop.1 hop.2
    exact ⟨_, _, free, by rw [Slab.step, he, Option.map_some], I', rfl⟩

end

/-! ## The wiring -/

theorem wireLoop_spec {base bs : Nat} (hbs : 8 ≤ bs) : ∀ left i (slab : List UInt8),
    base + (i + left + 1) * bs ≤ 2 ^ 64 → (i + left + 1) * bs ≤ slab.length →
    ∃ slab', wireLoop base bs left i (base + i * bs) slab = some (base + (i + left) * bs, slab') ∧
      slab'.length = slab.length ∧
      (∀ k, k < i → readAt slab' (k * bs) 8 = readAt slab (k * bs) 8) ∧
      ∀ k, i ≤ k → k < i + left → loadWord slab' base (base + k * bs) = some (base + (k + 1) * bs)
  | 0, i, slab, _, _ => ⟨slab, rfl, rfl, fun _ _ => rfl, fun k h1 h2 => by omega⟩
  | left + 1, i, slab, hspace, hroom => by
    have hi : i * bs + bs ≤ (i + (left + 1) + 1) * bs := cell_fits (by omega)
    have hi1 : (i + 1) * bs + bs ≤ (i + (left + 1) + 1) * bs := cell_fits (by omega)
    obtain ⟨s1, hst, hw⟩ := exists_storeWord slab base (i * bs) (base + (i + 1) * bs) (by omega)
    have hl1 := writeAt_length hw
    have he : i + 1 + left = i + (left + 1) := by omega
    obtain ⟨s2, hr, hl2, hlow, hlinks⟩ := wireLoop_spec hbs left (i + 1) s1 (he ▸ hspace)
      (by rw [hl1, he]; exact hroom)
    rw [he] at hr hlinks
    refine ⟨s2, ?_, hl2.trans hl1, fun k hk => ?_, fun k h1 h2 => ?_⟩
    · have hmod : (i + 1) * bs % 2 ^ 64 = (i + 1) * bs := Nat.mod_eq_of_lt (by omega)
      rw [wireLoop, hmod, hst, Option.bind_some, hr]
    · -- the store at block i meets no earlier block
      rw [hlow k (by omega)]
      have : k * bs + bs ≤ i * bs := cell_fits hk
      exact readAt_writeAt_of_disjoint hw (Or.inl (by omega))
    · rcases Nat.lt_or_eq_of_le h1 with h1 | rfl
      · exact hlinks k h1 h2
      · rw [loadWord_add, hlow i (by omega), ← loadWord_add _ base]
        exact loadWord_stored hw (by omega) base

/-- The links of a wired slab lead through all its blocks. -/
theorem threads_range (slab : List UInt8) (base bs capacity : Nat)
    (hlinks : ∀ k, k + 1 < capacity → loadWord slab base (base + k * bs) = some (base + (k + 1) * bs))
    (hlast : ∀ k, k + 1 = capacity → loadWord slab base (base + k * bs) = some 0) :
    ∀ n i, i + n = capacity → 0 < n → Threads slab base bs (base + i * bs) (List.range' i n)
  | 0, _, _, h => absurd h (Nat.lt_irrefl 0)
  | 1, i, h, _ => ⟨rfl, 0, hlast i h, rfl⟩
  | n + 2, i, h, _ =>
    ⟨rfl, _, hlinks i (by omega), threads_range slab base bs capacity hlinks hlast (n + 1) (i + 1) (by omega) (by omega)⟩

theorem paddedBlockSize_ge (blockSize : Nat) :
    8 ≤ Memory.paddedBlockSize blockSize ∧ blockSize ≤ Memory.paddedBlockSize blockSize := by
  simp only [Memory.paddedBlockSize]
  split <;> split <;> omega

/-- The slab after the wiring: every block is free. -/
theorem wired {base bs capacity : Nat} {block : List UInt8} (hbs : 8 ≤ bs) (hc : 0 < capacity)
    (hbase : 0 < base) (hspace : base + capacity * bs ≤ 2 ^ 64) (hroom : capacity * bs ≤ block.length) :
    ∃ current s1 s2, wireLoop base bs (capacity - 1) 0 base block = some (current, s1) ∧
      storeWord s1 base current 0 = some s2 ∧
      Inv ⟨⟨bs, capacity, base, base⟩, s2, []⟩ (List.range capacity) := by
  have hcap : 0 + (capacity - 1) + 1 = capacity := by omega
  obtain ⟨s1, hw, hl1, -, hlinks⟩ := wireLoop_spec hbs (capacity - 1) 0 block
    (by rw [hcap]; exact hspace) (by rw [hcap]; exact hroom)
  rw [Nat.zero_mul, Nat.add_zero, Nat.zero_add] at hw
  have hfits : (capacity - 1) * bs + bs ≤ capacity * bs := cell_fits (by omega)
  obtain ⟨s2, hst, hw2⟩ := exists_storeWord s1 base ((capacity - 1) * bs) 0 (by omega)
  refine ⟨_, s1, s2, hw, hst, ⟨hbs, hbase, hspace, ?_, ?_, ?_⟩⟩
  · show capacity * bs ≤ s2.length
    rw [writeAt_length hw2, hl1]; exact hroom
  · show Threads s2 base bs base (List.range capacity)
    have h0 : base + 0 * bs = base := by rw [Nat.zero_mul, Nat.add_zero]
    rw [List.range_eq_range']
    nth_rewrite 2 [← h0]
    refine threads_range s2 base bs capacity (fun k hk => ?_) (fun k hk => ?_) capacity 0
      (by omega) hc
    · -- the last store meets no link before it
      have : k * bs + bs ≤ (capacity - 1) * bs := cell_fits (by omega)
      rw [loadWord_add, readAt_writeAt_of_disjoint hw2 (Or.inl (by omega)), ← loadWord_add _ base]
      exact hlinks k (by omega) (by omega)
    · rw [show k = capacity - 1 by omega]
      exact loadWord_stored hw2 (by decide) base
  · rw [List.append_nil]

theorem kpoolAllocate_spec (self slab : Grant) {blockSize capacity : Nat} (hb : 0 < blockSize)
    (hc : 0 < capacity) (hfit : Memory.paddedBlockSize blockSize * capacity < 2 ^ 64) :
    kpoolAllocate self.malloc slab.malloc blockSize capacity = some none ∨
    ∃ block, kpoolAllocate self.malloc slab.malloc blockSize capacity =
        some (some (Memory.paddedBlockSize blockSize, block)) ∧
      capacity * Memory.paddedBlockSize blockSize ≤ block.length := by
  have hlt := Nat.lt_of_le_of_lt (Nat.le_mul_of_pos_right (Memory.paddedBlockSize blockSize) hc) hfit
  unfold kpoolAllocate
  rw [if_neg (by omega)]
  simp only [Nat.mod_eq_of_lt hlt, Nat.mod_eq_of_lt hfit, Grant.malloc]
  cases self.answer 32 with
  | none => exact Or.inl rfl
  | some _ =>
    cases hslab : slab.answer (Memory.paddedBlockSize blockSize * capacity) with
    | none => exact Or.inl rfl
    | some block =>
      exact Or.inr ⟨block, rfl, by rw [Nat.mul_comm]; exact slab.holds _ _ hslab⟩

/-- `kpool_create` stays inside the slab, and leaves every block free. -/
theorem kpoolCreate_inv (self slab : Grant) {base blockSize capacity : Nat} (hb : 0 < blockSize)
    (hc : 0 < capacity) (hfit : Memory.paddedBlockSize blockSize * capacity < 2 ^ 64)
    (hbase : 0 < base) (hspace : base + Memory.paddedBlockSize blockSize * capacity ≤ 2 ^ 64) :
    kpoolCreate self.malloc slab.malloc base blockSize capacity = some none ∨
    ∃ bytes, kpoolCreate self.malloc slab.malloc base blockSize capacity =
        some (some (⟨Memory.paddedBlockSize blockSize, capacity, base, base⟩, bytes)) ∧
      Inv ⟨⟨Memory.paddedBlockSize blockSize, capacity, base, base⟩, bytes, []⟩
        (List.range capacity) := by
  unfold kpoolCreate
  rcases kpoolAllocate_spec self slab hb hc hfit with he | ⟨block, he, hroom⟩
  · exact Or.inl (by rw [he]; rfl)
  · obtain ⟨current, s1, s2, hw, hst, I⟩ := wired (paddedBlockSize_ge blockSize).1 hc hbase
      (by rw [Nat.mul_comm]; exact hspace) hroom
    refine Or.inr ⟨s2, ?_, I⟩
    rw [he, Option.bind_some]
    simp only [hw, Option.bind_some, hst, Option.map_some]

/-! ## The pool over whole runs -/

/-- What clients and pool share: blocks of `blockSize` bytes from `base` on. -/
structure Shared (base blockSize capacity : Nat) (w : State) : Prop where
  /-- the free list ends, and is the blocks that are not outstanding, each once -/
  free : ∃ free, Threads w.slab base blockSize w.pool.freeList free ∧ free.Nodup ∧
    ∀ i, i ∈ free ↔ i < capacity ∧ base + i * blockSize ∉ w.outstanding
  /-- a block is held by one client, and lies in the slab -/
  held : w.outstanding.Nodup ∧ ∀ p ∈ w.outstanding, ∃ i, i < capacity ∧ p = base + i * blockSize ∧
    i * blockSize + blockSize ≤ w.slab.length
  /-- outstanding blocks do not overlap -/
  apart : ∀ p ∈ w.outstanding, ∀ q ∈ w.outstanding, p ≠ q →
    p + blockSize ≤ q ∨ q + blockSize ≤ p
  /-- the next allocation gives a block that nobody holds, or NULL if there is none -/
  next : ∃ p pool, kpoolAlloc w.pool w.slab = some (p, pool) ∧
    (p = 0 ↔ w.outstanding.length = capacity) ∧
    (p ≠ 0 → p ∉ w.outstanding ∧ ∃ i, i < capacity ∧ p = base + i * blockSize)

theorem Inv.shared {w : State} {free : List Nat} (I : Inv w free) :
    Shared w.pool.memoryBlock w.pool.blockSize w.pool.capacity w where
  free := by
    have hnd := List.nodup_append.mp I.all_nodup
    refine ⟨free, I.threads, (List.nodup_map_iff fun _ _ h => I.addr_inj h).mp hnd.1, fun i =>
      ⟨fun hi => ⟨I.free_lt hi, fun ho => hnd.2.2 _ (List.mem_map_of_mem hi) _ ho rfl⟩, fun ⟨hi, hn⟩ => ?_⟩⟩
    have hm := I.parts.mem_iff.mpr (List.mem_map_of_mem (List.mem_range.mpr hi))
    rcases List.mem_append.mp hm with hm | hm
    · obtain ⟨j, hj, he⟩ := List.mem_map.mp hm
      exact I.addr_inj he ▸ hj
    · exact absurd hm hn
  held := by
    refine ⟨(List.nodup_append.mp I.all_nodup).2.1, fun p hp => ?_⟩
    obtain ⟨i, hi, he, -⟩ := I.outstanding_lt hp
    exact ⟨i, hi, he, I.fits hi⟩
  apart p hp q hq hne := by
    obtain ⟨i, -, rfl, -⟩ := I.outstanding_lt hp
    obtain ⟨j, -, rfl, -⟩ := I.outstanding_lt hq
    have hij : i ≠ j := fun h => hne (by rw [h])
    have := cell_disjoint (w := w.pool.blockSize) hij
    unfold addr
    omega
  next := by
    have hlen := I.parts.length_eq
    simp only [List.length_append, List.length_map, List.length_range] at hlen
    rcases I.alloc with ⟨rfl, he⟩ | ⟨i, l, next, rfl, he, I'⟩
    · refine ⟨0, _, he, iff_of_true rfl ?_, fun h => absurd rfl h⟩
      rw [List.length_nil] at hlen
      omega
    · have hbase := I.base
      rw [List.length_cons] at hlen
      refine ⟨addr w i, _, he, iff_of_false (by unfold addr; omega) (by omega), fun _ =>
        ⟨fun ho => ?_, i, I.free_lt List.mem_cons_self, rfl⟩⟩
      exact (List.nodup_append.mp I.all_nodup).2.2 _ (List.mem_map_of_mem List.mem_cons_self) _ ho rfl

/-- A pool hands out each block exactly once, whatever its clients write. -/
theorem blocks_handed_out_once (self slab : Grant) (base blockSize capacity : Nat)
    (hb : 0 < blockSize) (hc : 0 < capacity)
    (hfit : Memory.paddedBlockSize blockSize * capacity < 2 ^ 64) (hbase : 0 < base)
    (hspace : base + Memory.paddedBlockSize blockSize * capacity ≤ 2 ^ 64) :
    blockSize ≤ Memory.paddedBlockSize blockSize ∧
    (∃ r, kpoolCreate self.malloc slab.malloc base blockSize capacity = some r) ∧
    ∀ pool bytes, kpoolCreate self.malloc slab.malloc base blockSize capacity =
        some (some (pool, bytes)) →
      ∀ ops, RunMeets step Allowed ⟨pool, bytes, []⟩ ops →
        ∃ answers w, runOps step ⟨pool, bytes, []⟩ ops = some (answers, w) ∧
          Shared base (Memory.paddedBlockSize blockSize) capacity w := by
  refine ⟨(paddedBlockSize_ge blockSize).2, ?_, fun pool bytes hcreate ops hops => ?_⟩
  · rcases kpoolCreate_inv self slab hb hc hfit hbase hspace with
      he | ⟨bytes, he, -⟩
    · exact ⟨_, he⟩
    · exact ⟨_, he⟩
  · rcases kpoolCreate_inv self slab hb hc hfit hbase hspace with
      he | ⟨bytes', he, I⟩
    · rw [he] at hcreate; cases hcreate
    · rw [he] at hcreate
      cases hcreate
      obtain ⟨answers, w, hr, ⟨free, Iw⟩, hpool⟩ := runOps_returns
        (I := fun w => (∃ free, Inv w free) ∧ w.pool =
          ⟨Memory.paddedBlockSize blockSize, capacity, base, w.pool.freeList⟩)
        (fun w op ⟨⟨free, Iw⟩, hp⟩ hop => by
          obtain ⟨r, w', free', he, I', hp'⟩ := Iw.step hop
          refine ⟨r, w', he, ⟨free', I'⟩, ?_⟩
          rw [hp', hp]) ops _ ⟨⟨_, I⟩, rfl⟩ hops
      have hs := Iw.shared
      rw [hpool] at hs
      exact ⟨answers, w, hr, hs⟩

/-- Two blocks, overwritten by their clients, and a third that is not there. -/
theorem blocks_handed_out_once_two : ∃ pool bytes answers w,
    kpoolCreate Grant.zeros.malloc Grant.zeros.malloc 16 1 2 = some (some (pool, bytes)) ∧
      runOps step ⟨pool, bytes, []⟩ [.alloc, .write 16 0 [1, 2, 3], .alloc, .alloc, .free 16] =
        some (answers, w) ∧ Shared 16 8 2 w := by
  obtain ⟨-, -, h⟩ := blocks_handed_out_once .zeros .zeros 16 1 2 (by decide) (by decide)
    (by decide) (by decide) (by decide)
  obtain ⟨answers, w, hr, hs⟩ := h _ _ rfl
    [.alloc, .write 16 0 [1, 2, 3], .alloc, .alloc, .free 16]
    (.cons trivial rfl (.cons ⟨by decide, by decide⟩ rfl (.cons trivial rfl (.cons trivial rfl
      (.cons (List.mem_cons_of_mem _ List.mem_cons_self) rfl trivial)))))
  exact ⟨_, _, answers, w, rfl, hr, hs⟩

end Cdsa.Slab
