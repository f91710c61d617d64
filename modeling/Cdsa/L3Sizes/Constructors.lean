import Cdsa.L1Memory.Slab
import Cdsa.L2Hashmap.Table
import Cdsa.L2Ring.Ringbuffer

/-!
# What the constructors allocate

A constructor multiplies its capacity by the size of an element, allocates that
many bytes and stores both factors; all later indexing trusts them. The product
is a `size_t`, and the allocator adds its header to it. Nothing on the way looks
for a wrap, so the block covers the stored capacity exactly if there is none
(`covered_iff`).
-/
namespace Cdsa.Sizes

open Cdsa.Core Cdsa.Raw Cdsa.Vector Cdsa.Ring Cdsa.Slab
open Cdsa.Hashmap (sizeofHashEntry)

/-- `cdsa_create_hashmap` with its entries in bytes: the stored capacity, and
the block.
mirrors src/hashmap.c:32-56 -/
def cdsaCreateHashmap (self : Malloc) (entries : Grant) (capacity : Nat) :
    Option (Option (Nat × List UInt8)) :=
  (self 40).bind fun
    | none => some none
    | some _ =>
      let capacity := if capacity = 0 then 1 else capacity
      (cdsaCallocTrack entries capacity sizeofHashEntry).map fun r => r.map fun entries =>
        (capacity, entries)

section
variable {g : Grant} {self data : Malloc} {block : List UInt8}

/-- A block for `n` bytes, asked for as a `size_t`, has them if neither `n` nor
the header wraps, and only then: a longer block fits no address space. -/
theorem cdsaMallocTrack_covers {n : Nat} (h : cdsaMallocTrack g (n % 2 ^ 64) = some (some block)) :
    n ≤ block.length ↔ n + 8 < 2 ^ 64 := by
  obtain ⟨hb, hn⟩ := cdsaMallocTrack_bytes h
  constructor
  · intro hle
    omega
  · intro hlt
    rw [Nat.mod_eq_of_lt (show n < 2 ^ 64 by omega)] at hn
    exact hn hlt

theorem cdsaCallocTrack_covers {count size : Nat}
    (h : cdsaCallocTrack g count size = some (some block)) :
    count * size ≤ block.length ↔ count * size + 8 < 2 ^ 64 := by
  obtain ⟨hb, hn⟩ := cdsaCallocTrack_bytes h
  constructor
  · intro hle
    omega
  · intro hlt
    rw [Nat.mod_eq_of_lt (show count * size < 2 ^ 64 by omega)] at hn
    exact hn hlt

/-! ## What each constructor asked for -/

theorem cdsaCreateHashmap_some {capacity stored : Nat}
    (h : cdsaCreateHashmap self g capacity = some (some (stored, block))) :
    stored = max 1 capacity ∧
      cdsaCallocTrack g stored sizeofHashEntry = some (some block) := by
  obtain ⟨r, -, h⟩ := Option.bind_eq_some_iff.mp h
  cases r with
  | none => simp at h
  | some _ =>
    obtain ⟨r, hr, h⟩ := Option.map_eq_some_iff.mp h
    obtain ⟨block', rfl, he⟩ := Option.map_eq_some_iff.mp h
    cases he
    refine ⟨?_, hr⟩
    split <;> omega

theorem cdsaCreateRingbuffer_some {capacity elemSize : Nat} {rb : CdsaRingbuffer}
    (h : cdsaCreateRingbuffer self data capacity elemSize = some (some rb)) :
    rb.capacity = capacity ∧ rb.elemSize = elemSize ∧
      data (capacity * elemSize % 2 ^ 64) = some (some rb.data) := by
  obtain ⟨r, -, h⟩ := Option.bind_eq_some_iff.mp h
  cases r with
  | none => simp at h
  | some _ =>
    obtain ⟨r, hr, h⟩ := Option.map_eq_some_iff.mp h
    obtain ⟨block, rfl, rfl⟩ := Option.map_eq_some_iff.mp h
    exact ⟨rfl, rfl, hr⟩

theorem cdsaCreateVector_some {elemSize : Nat} {v : CdsaVector}
    (h : cdsaCreateVector self data elemSize = some (some v)) :
    v.capacity = INITIAL_CAPACITY ∧ v.elemSize = elemSize ∧
      data (INITIAL_CAPACITY * elemSize % 2 ^ 64) = some (some v.data) := by
  obtain ⟨r, -, h⟩ := Option.bind_eq_some_iff.mp h
  cases r with
  | none => simp at h
  | some _ =>
    obtain ⟨r, hr, h⟩ := Option.map_eq_some_iff.mp h
    obtain ⟨block, rfl, rfl⟩ := Option.map_eq_some_iff.mp h
    exact ⟨rfl, rfl, hr⟩

theorem kpoolAllocate_some {blockSize capacity stored : Nat}
    (h : kpoolAllocate self data blockSize capacity = some (some (stored, block))) :
    stored = Memory.paddedBlockSize blockSize % 2 ^ 64 ∧
      data (stored * capacity % 2 ^ 64) = some (some block) := by
  unfold kpoolAllocate at h
  split at h
  · cases h
  · obtain ⟨r, -, h⟩ := Option.bind_eq_some_iff.mp h
    cases r with
    | none => simp at h
    | some _ =>
      obtain ⟨r, hr, h⟩ := Option.map_eq_some_iff.mp h
      obtain ⟨block', rfl, he⟩ := Option.map_eq_some_iff.mp h
      cases he
      exact ⟨rfl, hr⟩

theorem wireLoop_length {base bs : Nat} : ∀ left i current (slab : List UInt8) r,
    wireLoop base bs left i current slab = some r → r.2.length = slab.length
  | 0, _, _, _, _, h => by cases h; rfl
  | left + 1, i, _, _, r, h => by
    obtain ⟨slab', hst, h⟩ := Option.bind_eq_some_iff.mp h
    rw [wireLoop_length left (i + 1) _ slab' r h, storeWord_length hst]

/-- The wiring leaves the slab as long as it is. -/
theorem kpoolCreate_some {base blockSize capacity : Nat} {pool : Kpool}
    (h : kpoolCreate self data base blockSize capacity = some (some (pool, block))) :
    ∃ slab, kpoolAllocate self data blockSize capacity = some (some (pool.blockSize, slab)) ∧
      pool.capacity = capacity ∧ block.length = slab.length := by
  obtain ⟨r, hr, h⟩ := Option.bind_eq_some_iff.mp h
  cases r with
  | none => simp at h
  | some r =>
    obtain ⟨wired, hw, h⟩ := Option.bind_eq_some_iff.mp h
    obtain ⟨slab', hst, he⟩ := Option.map_eq_some_iff.mp h
    cases he
    exact ⟨r.2, hr, rfl, by rw [storeWord_length hst, wireLoop_length _ _ _ _ _ hw]⟩

end

/-- The slots of the map are within the block, and they are the stored capacity if
and only if the bytes of that, and the header, are a `size_t`. -/
theorem cdsaCreateHashmap_slots {self : Malloc} {g : Grant} {capacity stored : Nat}
    {block : List UInt8} (h : cdsaCreateHashmap self g capacity = some (some (stored, block)))
    (K V : Type) : ∃ m : Hashmap.CdsaHashmap K V,
      Hashmap.cdsaCreateHashmap true true capacity = some m ∧ m.capacity = stored ∧
        m.entries.length * sizeofHashEntry ≤ block.length ∧
        (m.entries.length = stored ↔ stored * sizeofHashEntry + 8 < 2 ^ 64) := by
  obtain ⟨hstored, hc⟩ := cdsaCreateHashmap_some h
  have hcap : (if capacity = 0 then 1 else capacity) = stored := by
    rw [hstored]
    split <;> omega
  have hlen : (Hashmap.callocEntries stored : List (Option (Hashmap.HashEntry K V))).length =
      stored * sizeofHashEntry % 2 ^ 64 / sizeofHashEntry := List.length_replicate
  obtain ⟨-, hb⟩ := cdsaCallocTrack_bytes hc
  refine ⟨⟨stored, 0, 0, 0, Hashmap.callocEntries stored⟩, ?_, rfl, ?_, ?_⟩
  · rw [Hashmap.cdsaCreateHashmap, hcap]
    rfl
  · rw [hlen]
    -- what is left of the product is still a multiple of 32
    simp only [sizeofHashEntry] at *
    omega
  · rw [hlen]
    simp only [sizeofHashEntry]
    omega

/-- A constructor that returns has a block for its stored capacity if and only
if the bytes it needs, and the header, are a `size_t`. For a pool this holds of
the slab as allocated, and after the wiring. -/
theorem covered_iff (self block : Grant) :
    (∀ capacity stored entries,
      cdsaCreateHashmap (cdsaMallocTrack self) block capacity = some (some (stored, entries)) →
        (stored * sizeofHashEntry ≤ entries.length ↔
          max 1 capacity * sizeofHashEntry + 8 < 2 ^ 64)) ∧
    (∀ capacity elemSize rb, cdsaCreateRingbuffer (cdsaMallocTrack self) (cdsaMallocTrack block)
        capacity elemSize = some (some rb) →
        (rb.capacity * rb.elemSize ≤ rb.data.length ↔ capacity * elemSize + 8 < 2 ^ 64)) ∧
    (∀ elemSize v, cdsaCreateVector (cdsaMallocTrack self) (cdsaMallocTrack block) elemSize =
        some (some v) →
        (v.capacity * v.elemSize ≤ v.data.length ↔ INITIAL_CAPACITY * elemSize + 8 < 2 ^ 64)) ∧
    (∀ blockSize capacity stored slab, kpoolAllocate (cdsaMallocTrack self) (cdsaMallocTrack block)
        blockSize capacity = some (some (stored, slab)) →
        (stored * capacity ≤ slab.length ↔
          Memory.paddedBlockSize blockSize % 2 ^ 64 * capacity + 8 < 2 ^ 64)) ∧
    ∀ base blockSize capacity pool slab, kpoolCreate (cdsaMallocTrack self) (cdsaMallocTrack block)
        base blockSize capacity = some (some (pool, slab)) →
        (pool.blockSize * pool.capacity ≤ slab.length ↔
          Memory.paddedBlockSize blockSize % 2 ^ 64 * capacity + 8 < 2 ^ 64) := by
  have hpool : ∀ blockSize capacity stored slab, kpoolAllocate (cdsaMallocTrack self)
      (cdsaMallocTrack block) blockSize capacity = some (some (stored, slab)) →
      (stored * capacity ≤ slab.length ↔
        Memory.paddedBlockSize blockSize % 2 ^ 64 * capacity + 8 < 2 ^ 64) := by
    intro blockSize capacity stored slab h
    obtain ⟨rfl, hslab⟩ := kpoolAllocate_some h
    exact cdsaMallocTrack_covers hslab
  refine ⟨?_, ?_, ?_, hpool, ?_⟩
  · intro capacity stored entries h
    obtain ⟨rfl, hc⟩ := cdsaCreateHashmap_some h
    exact cdsaCallocTrack_covers hc
  · intro capacity elemSize rb h
    obtain ⟨hcap, hes, hd⟩ := cdsaCreateRingbuffer_some h
    rw [hcap, hes]
    exact cdsaMallocTrack_covers hd
  · intro elemSize v h
    obtain ⟨hcap, hes, hd⟩ := cdsaCreateVector_some h
    rw [hcap, hes]
    exact cdsaMallocTrack_covers hd
  · intro base blockSize capacity pool slab h
    obtain ⟨slab', ha, rfl, hl⟩ := kpoolCreate_some h
    rw [hl]
    exact hpool _ _ _ _ ha

/-- Small arguments, whose blocks cover what is stored. -/
theorem covered_iff_small : ∃ m rb v pool slab,
    cdsaCreateHashmap (cdsaMallocTrack .zeros) .zeros 0 = some (some m) ∧
    cdsaCreateRingbuffer (cdsaMallocTrack .zeros) (cdsaMallocTrack .zeros) 3 2 = some (some rb) ∧
    cdsaCreateVector (cdsaMallocTrack .zeros) (cdsaMallocTrack .zeros) 2 = some (some v) ∧
    kpoolCreate (cdsaMallocTrack .zeros) (cdsaMallocTrack .zeros) 16 1 2 = some (some (pool, slab)) ∧
    m.1 * sizeofHashEntry ≤ m.2.length ∧ rb.capacity * rb.elemSize ≤ rb.data.length ∧
    v.capacity * v.elemSize ≤ v.data.length ∧ pool.blockSize * pool.capacity ≤ slab.length := by
  obtain ⟨hm, hr, hv, -, hp⟩ := covered_iff .zeros .zeros
  refine ⟨_, _, _, _, _, rfl, rfl, rfl, rfl, (hm 0 _ _ rfl).mpr ?_, (hr 3 2 _ rfl).mpr ?_,
    (hv 2 _ rfl).mpr ?_, (hp 16 1 2 _ _ rfl).mpr ?_⟩ <;> decide

/-- A ring buffer for 2^63 elements of two bytes over an empty block: the first
push writes outside it. -/
theorem wrapped_ring : ∃ rb,
    cdsaCreateRingbuffer (cdsaMallocTrack .zeros) (cdsaMallocTrack .zeros) (2 ^ 63) 2 =
      some (some rb) ∧
    rb.capacity = 2 ^ 63 ∧ rb.elemSize = 2 ∧ rb.data = [] ∧
    ¬ rb.capacity * rb.elemSize ≤ rb.data.length ∧
    cdsaPushBackRingbuffer rb [1, 2] = none := by
  refine ⟨⟨[], 0, 0, 0, 2 ^ 63, 2, 0⟩, rfl, rfl, rfl, rfl, ?_, rfl⟩
  decide

end Cdsa.Sizes
