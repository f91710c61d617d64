import Mathlib.Data.UInt
import Cdsa.Core.FinMap
import Cdsa.Core.LTS
import Cdsa.Core.Word
import Cdsa.L1Memory.Bytes
import Cdsa.L1Memory.Tracked

/-!
# The counter and the hidden headers

The four tracked functions over a heap whose blocks are bytes: a block starts
with the 8-byte header, and the caller's pointer is the address behind it.
`Heap.malloc`, `Heap.realloc` and `Heap.free` are the system's functions. Their
n-th call answers as `grants n` says (any block of at least the bytes asked
for, or NULL), and a block that is granted gets a new name. A `realloc` to 0
bytes that answers NULL may or may not have freed the block: `frees n`.

An access outside a live block is undefined (`none`). The size asked of the
system is `size + sizeof(size_t)` in 64 bits and is not checked, so a request
of 2^64 - 8 bytes or more asks for 0 to 7.

* `Exact base s`: the counter is `base` plus the sizes last requested for the
  live blocks, and every live block has its size in its header.
* `telemetry_exact_iff`: a run that frees and resizes live blocks only is exact
  throughout if and only if no step is short of room (`Roomy`).
* `Tracks.owns`, `malloc_refines`, `free_refines`: such states are those of
  `Cdsa.Memory`.
-/
namespace Cdsa.Telemetry

open Cdsa.Core Cdsa.Raw

/-- A pointer: a block and an offset into it. -/
structure Addr where
  block : Nat
  off : Nat
  deriving DecidableEq, Repr

/-- `ptr + 1` for a `size_t *` -/
def Addr.next (p : Addr) : Addr := { p with off := p.off + 8 }

/-- `ptr - 1` for a `size_t *` -/
def Addr.prev (p : Addr) : Option Addr := if 8 ≤ p.off then some { p with off := p.off - 8 } else none

structure Heap where
  /-- `cdsa_global_memory_used` -/
  used : UInt64
  /-- the live blocks of the system's allocator -/
  blocks : List (Nat × List UInt8)
  /-- calls of the system's allocator so far -/
  asked : Nat
  grants : Nat → Grant
  frees : Nat → Bool

namespace Heap

/-- The answer of the system's next call. -/
def answer (h : Heap) (n : UInt64) : Option (List UInt8) := (h.grants h.asked).answer n.toNat

def malloc (h : Heap) (n : UInt64) : Option Addr × Heap :=
  match h.answer n with
  | none => (none, { h with asked := h.asked + 1 })
  | some bytes =>
    (some ⟨h.asked, 0⟩, { h with blocks := (h.asked, bytes) :: h.blocks, asked := h.asked + 1 })

/-- The live block that starts at `p`. -/
def blockAt (h : Heap) (p : Addr) : Option (List UInt8) :=
  if p.off = 0 then h.blocks.lookup p.block else none

def free (h : Heap) (p : Addr) : Option Heap :=
  (h.blockAt p).map fun _ => { h with blocks := del p.block h.blocks }

def realloc (h : Heap) (p : Addr) (n : UInt64) : Option (Option Addr × Heap) :=
  (h.blockAt p).map fun old =>
    match h.answer n with
    | none =>
      (none, { h with
        blocks := if n = 0 ∧ h.frees h.asked = true then del p.block h.blocks else h.blocks
        asked := h.asked + 1 })
    | some bytes =>
      (some ⟨h.asked, 0⟩, { h with
        blocks := (h.asked, old.take bytes.length ++ bytes.drop old.length) :: del p.block h.blocks
        asked := h.asked + 1 })

def load (h : Heap) (p : Addr) : Option UInt64 :=
  (h.blocks.lookup p.block).bind fun block => (loadWord block 0 p.off).map UInt64.ofNat

def write (h : Heap) (p : Addr) (bytes : List UInt8) : Option Heap :=
  (h.blocks.lookup p.block).bind fun block =>
    (writeAt block p.off bytes).map fun block' => { h with blocks := upd p.block block' h.blocks }

def store (h : Heap) (p : Addr) (n : UInt64) : Option Heap := h.write p (wordBytes 8 n.toNat)

def memset (h : Heap) (p : Addr) (byte : UInt8) (n : UInt64) : Option Heap :=
  h.write p (List.replicate n.toNat byte)

end Heap

/-- mirrors src/allocator.c:9-19 -/
def cdsaMallocTrack (size : UInt64) (h : Heap) : Option (Option Addr × Heap) :=
  match h.malloc (size + 8) with
  | (none, h) => some (none, h)
  | (some ptr, h) =>
    (h.store ptr size).map fun h => (some ptr.next, { h with used := h.used + size })

/-- mirrors src/allocator.c:21-30 -/
def cdsaFreeTrack (userPtr : Option Addr) (h : Heap) : Option Heap :=
  match userPtr with
  | none => some h
  | some user =>
    user.prev.bind fun ptr => (h.load ptr).bind fun size =>
      Heap.free { h with used := h.used - size } ptr

/-- mirrors src/allocator.c:32-38 -/
def cdsaCallocTrack (count size : UInt64) (h : Heap) : Option (Option Addr × Heap) :=
  let total := count * size
  (cdsaMallocTrack total h).bind fun
    | (none, h) => some (none, h)
    | (some ptr, h) => (h.memset ptr 0 total).map fun h => (some ptr, h)

/-- mirrors src/allocator.c:40-61 -/
def cdsaReallocTrack (userPtr : Option Addr) (newSize : UInt64) (h : Heap) :
    Option (Option Addr × Heap) :=
  match userPtr with
  | none => cdsaMallocTrack newSize h
  | some user =>
    if newSize = 0 then (cdsaFreeTrack (some user) h).map fun h => (none, h)
    else
      user.prev.bind fun oldPtr => (h.load oldPtr).bind fun oldSize =>
        (h.realloc oldPtr (newSize + 8)).bind fun
          | (none, h) => some (none, h)
          | (some newPtr, h) => (h.store newPtr newSize).map fun h =>
            (some newPtr.next, { h with used := h.used - oldSize + newSize })

/-! ## Runs -/

/-- The heap, and what the callers hold. -/
structure Sess where
  heap : Heap
  /-- the blocks handed out and not given back, each with the size last
  requested for it -/
  held : List (Addr × UInt64)

inductive Op where
  | malloc (size : UInt64)
  | calloc (count size : UInt64)
  | realloc (userPtr : Option Addr) (newSize : UInt64)
  | free (userPtr : Option Addr)

/-- What the callers hold once they have been given `answer`. -/
def hold (answer : Option Addr) (size : UInt64) (held : List (Addr × UInt64)) :
    List (Addr × UInt64) :=
  match answer with
  | none => held
  | some p => (p, size) :: held

/-- What they hold once they have resized `p`: a refused request leaves the
block theirs. -/
def rehold (p : Addr) (answer : Option Addr) (size : UInt64) (held : List (Addr × UInt64)) :
    List (Addr × UInt64) :=
  match answer with
  | none => if size = 0 then del p held else held
  | some q => (q, size) :: del p held

def step (s : Sess) : Op → Option (Option Addr × Sess)
  | .malloc size =>
    (cdsaMallocTrack size s.heap).map fun r => (r.1, ⟨r.2, hold r.1 size s.held⟩)
  | .calloc count size =>
    (cdsaCallocTrack count size s.heap).map fun r => (r.1, ⟨r.2, hold r.1 (count * size) s.held⟩)
  | .realloc none newSize =>
    (cdsaReallocTrack none newSize s.heap).map fun r => (r.1, ⟨r.2, hold r.1 newSize s.held⟩)
  | .realloc (some p) newSize =>
    (cdsaReallocTrack (some p) newSize s.heap).map fun r => (r.1, ⟨r.2, rehold p r.1 newSize s.held⟩)
  | .free none => (cdsaFreeTrack none s.heap).map fun h => (none, ⟨h, s.held⟩)
  | .free (some p) => (cdsaFreeTrack (some p) s.heap).map fun h => (none, ⟨h, del p s.held⟩)

/-- Only live blocks are freed or resized. -/
def Legal (s : Sess) : Op → Prop
  | .realloc (some p) _ | .free (some p) => p ∈ s.held.map Prod.fst
  | _ => True

/-- The hidden header of the block at the caller's pointer `p`. -/
def Heap.header (h : Heap) (p : Addr) : Option UInt64 := p.prev.bind h.load

/-- The live blocks as `Cdsa.Memory` lists them. -/
def sizes (held : List (Addr × UInt64)) : List (Memory.Ptr × Nat) :=
  held.map fun b => (b.1.block, b.2.toNat)

/-- The counter and the headers are right. -/
structure Exact (base : UInt64) (s : Sess) : Prop where
  used : s.heap.used = base + Memory.total (sizes s.held)
  header : ∀ p size, (p, size) ∈ s.held → s.heap.header p = some size

/-- Block names are used once. -/
structure Heap.Named (h : Heap) : Prop where
  nodup : (h.blocks.map Prod.fst).Nodup
  fresh : ∀ b ∈ h.blocks, b.1 < h.asked

/-! ## What each function does -/

namespace Heap

/-- After a call of the system's allocator that gave nothing. -/
def asks (h : Heap) : Heap := { h with asked := h.asked + 1 }

/-- After a request for `size` bytes that was met by `block`. -/
def take (h : Heap) (size : UInt64) (block : List UInt8) : Heap :=
  { h with used := h.used + size, blocks := (h.asked, block) :: h.blocks, asked := h.asked + 1 }

/-- After block `n`, of `size` bytes, was given back. -/
def give (h : Heap) (n : Nat) (size : UInt64) : Heap :=
  { h with used := h.used - size, blocks := del n h.blocks }

section
variable {h : Heap}

theorem Named.fresh_notMem (hn : h.Named) : h.asked ∉ h.blocks.map Prod.fst := fun hm => by
  obtain ⟨b, hb, he⟩ := List.mem_map.mp hm
  exact Nat.ne_of_lt (hn.fresh b hb) he

theorem Named.asks (hn : h.Named) : h.asks.Named :=
  ⟨hn.nodup, fun b hb => Nat.lt_succ_of_lt (hn.fresh b hb)⟩

theorem Named.take (hn : h.Named) (size : UInt64) (block : List UInt8) : (h.take size block).Named where
  nodup := List.nodup_cons.mpr ⟨hn.fresh_notMem, hn.nodup⟩
  fresh b hb := by
    rcases List.mem_cons.mp hb with rfl | hb
    · exact Nat.lt_succ_self _
    · exact Nat.lt_succ_of_lt (hn.fresh b hb)

theorem Named.give (hn : h.Named) (n : Nat) (size : UInt64) : (h.give n size).Named :=
  ⟨nodup_del hn.nodup, fun b hb => hn.fresh b (mem_del.mp hb).1⟩

/-- A write into the newest block. -/
theorem write_new {n off : Nat} {block data : List UInt8} {rest : List (Nat × List UInt8)}
    (hb : h.blocks = (n, block) :: rest) (hn : n ∉ rest.map Prod.fst) :
    h.write ⟨n, off⟩ data =
      (writeAt block off data).map fun block' => { h with blocks := (n, block') :: rest } := by
  have hd : del n ((n, block) :: rest) = rest := by
    rw [show del n ((n, block) :: rest) = del n rest by simp [del], del_eq_self hn]
  unfold write upd
  rw [hb, List.lookup_cons_self, hd]
  rfl

end

end Heap

/-- The header of a block. -/
def headerOf (block : List UInt8) : Option UInt64 := (loadWord block 0 0).map UInt64.ofNat

theorem headerOf_stored {block block' : List UInt8} {size : UInt64}
    (hw : writeAt block 0 (wordBytes 8 size.toNat) = some block') : headerOf block' = some size := by
  unfold headerOf
  rw [show loadWord block' 0 0 = some size.toNat from loadWord_stored hw size.toNat_lt 0,
    Option.map_some, UInt64.ofNat_toNat]

section
variable {h : Heap} {size : UInt64} {bytes : List UInt8}

theorem malloc_refused (ha : h.answer size = none) : h.malloc size = (none, h.asks) := by
  unfold Heap.malloc
  rw [ha]
  rfl

theorem cdsaMallocTrack_refused (ha : h.answer (size + 8) = none) :
    cdsaMallocTrack size h = some (none, h.asks) := by
  unfold cdsaMallocTrack
  rw [malloc_refused ha]

theorem cdsaMallocTrack_granted (hn : h.Named) (ha : h.answer (size + 8) = some bytes) :
    cdsaMallocTrack size h = (writeAt bytes 0 (wordBytes 8 size.toNat)).map fun block =>
      (some ⟨h.asked, 8⟩, h.take size block) := by
  unfold cdsaMallocTrack Heap.malloc Heap.store
  rw [ha]
  show (Heap.write { h with blocks := (h.asked, bytes) :: h.blocks, asked := h.asked + 1 }
    ⟨h.asked, 0⟩ (wordBytes 8 size.toNat)).map _ = _
  rw [Heap.write_new (h := { h with blocks := (h.asked, bytes) :: h.blocks, asked := h.asked + 1 }) rfl
    hn.fresh_notMem, Option.map_map]
  rfl

theorem cdsaCallocTrack_refused {count : UInt64} (ha : h.answer (count * size + 8) = none) :
    cdsaCallocTrack count size h = some (none, h.asks) := by
  simp only [cdsaCallocTrack, cdsaMallocTrack_refused ha, Option.bind_some]

theorem cdsaCallocTrack_granted {count : UInt64} (hn : h.Named)
    (ha : h.answer (count * size + 8) = some bytes) :
    cdsaCallocTrack count size h =
      (writeAt bytes 0 (wordBytes 8 (count * size).toNat)).bind fun block =>
        (writeAt block 8 (List.replicate (count * size).toNat 0)).map fun block =>
          (some ⟨h.asked, 8⟩, h.take (count * size) block) := by
  simp only [cdsaCallocTrack, cdsaMallocTrack_granted hn ha, Option.bind_map]
  refine congrArg _ (funext fun block => ?_)
  show ((h.take (count * size) block).memset ⟨h.asked, 8⟩ 0 (count * size)).map _ = _
  unfold Heap.memset
  rw [Heap.write_new (h := h.take (count * size) block) rfl hn.fresh_notMem, Option.map_map]
  rfl

end

/-- The blocks held are live, are different blocks, and have the right headers. -/
structure Tracks (base : UInt64) (s : Sess) : Prop extends Exact base s where
  named : s.heap.Named
  distinct : (s.held.map Prod.fst).Nodup
  off : ∀ b ∈ s.held, b.1.off = 8

namespace Tracks
variable {base : UInt64} {s : Sess} {p : Addr} {size : UInt64}

theorem header_eq (hp : p.off = 8) (h : Heap) :
    h.header p = (h.blocks.lookup p.block).bind headerOf := by
  unfold Heap.header Addr.prev
  rw [if_pos (by omega), Option.bind_some, hp]
  rfl

/-- A block that is held is live. -/
theorem live (t : Tracks base s) (hp : (p, size) ∈ s.held) :
    ∃ block, s.heap.blocks.lookup p.block = some block ∧ headerOf block = some size := by
  have hh := t.header p size hp
  rw [header_eq (t.off _ hp)] at hh
  exact Option.bind_eq_some_iff.mp hh

theorem block_lt (t : Tracks base s) {b : Addr × UInt64} (hb : b ∈ s.held) :
    b.1.block < s.heap.asked := by
  obtain ⟨block, hl, -⟩ := t.live hb
  obtain ⟨l1, l2, he, -⟩ := List.lookup_eq_some_iff.mp hl
  exact t.named.fresh _ (he ▸ List.mem_append_right _ List.mem_cons_self)

/-- Two pointers held are equal if their blocks are. -/
theorem eq_of_block (t : Tracks base s) {a b : Addr × UInt64} (ha : a ∈ s.held) (hb : b ∈ s.held)
    (he : a.1.block = b.1.block) : a.1 = b.1 := by
  have h1 := t.off a ha
  have h2 := t.off b hb
  cases h : a.1
  cases h' : b.1
  simp only [h, h'] at h1 h2 he
  rw [h1, h2, he]

theorem asks (t : Tracks base s) : Tracks base { s with heap := s.heap.asks } :=
  ⟨⟨t.used, t.header⟩, t.named.asks, t.distinct, t.off⟩

theorem take (t : Tracks base s) (size : UInt64) {block : List UInt8}
    (hb : headerOf block = some size) :
    Tracks base ⟨s.heap.take size block, (⟨s.heap.asked, 8⟩, size) :: s.held⟩ where
  used := by
    show s.heap.used + size = base + (UInt64.ofNat size.toNat + Memory.total (sizes s.held))
    rw [t.used, UInt64.ofNat_toNat, UInt64.add_assoc, UInt64.add_comm (Memory.total _)]
  header p n hp := by
    rcases List.mem_cons.mp hp with he | hp
    · cases he
      rw [header_eq rfl]
      show (List.lookup s.heap.asked ((s.heap.asked, block) :: s.heap.blocks)).bind headerOf = _
      rw [List.lookup_cons_self, Option.bind_some, hb]
    · rw [header_eq (t.off _ hp)]
      show (List.lookup p.block ((s.heap.asked, block) :: s.heap.blocks)).bind headerOf = _
      rw [List.lookup_cons, beq_false_of_ne (Nat.ne_of_lt (t.block_lt hp)), ← header_eq (t.off _ hp)]
      exact t.header p n hp
  named := t.named.take size block
  distinct := List.nodup_cons.mpr ⟨fun hm => by
    obtain ⟨b, hb, he⟩ := List.mem_map.mp hm
    exact Nat.ne_of_lt (t.block_lt hb) (congrArg Addr.block he), t.distinct⟩
  off b hb := by
    rcases List.mem_cons.mp hb with rfl | hb
    · rfl
    · exact t.off b hb

theorem give (t : Tracks base s) (hp : (p, size) ∈ s.held) :
    Tracks base ⟨s.heap.give p.block size, del p s.held⟩ where
  used := by
    show s.heap.used - size = base + Memory.total (sizes (del p s.held))
    have hperm : (sizes s.held).Perm ((p.block, size.toNat) :: sizes (del p s.held)) :=
      (perm_cons_del t.distinct hp).map _
    rw [t.used, Memory.total_perm hperm, Memory.total_cons, UInt64.ofNat_toNat,
      UInt64.add_comm size, ← UInt64.add_assoc, UInt64.add_sub_cancel]
  header q n hq := by
    obtain ⟨hq, hne⟩ := mem_del.mp hq
    rw [header_eq (t.off _ hq)]
    show (List.lookup q.block (del p.block s.heap.blocks)).bind headerOf = _
    rw [lookup_del fun he => hne (t.eq_of_block hq hp he), ← header_eq (t.off _ hq)]
    exact t.header q n hq
  named := t.named.give _ _
  distinct := nodup_del t.distinct
  off b hb := t.off b (mem_del.mp hb).1

/-! ## Steps -/

theorem prev_held (t : Tracks base s) (hp : (p, size) ∈ s.held) : p.prev = some ⟨p.block, 0⟩ := by
  have ho : p.off = 8 := t.off _ hp
  unfold Addr.prev
  rw [if_pos (by omega), ho]

theorem load_held (t : Tracks base s) (hp : (p, size) ∈ s.held) :
    s.heap.load ⟨p.block, 0⟩ = some size := by
  obtain ⟨block, hl, hh⟩ := t.live hp
  unfold Heap.load
  rw [hl, Option.bind_some]
  exact hh

theorem cdsaFreeTrack_held (t : Tracks base s) (hp : (p, size) ∈ s.held) :
    cdsaFreeTrack (some p) s.heap = some (s.heap.give p.block size) := by
  obtain ⟨block, hl, -⟩ := t.live hp
  simp only [cdsaFreeTrack, t.prev_held hp, Option.bind_some, t.load_held hp]
  unfold Heap.free Heap.blockAt
  rw [if_pos rfl]
  simp only [hl, Option.map_some]
  rfl

/-- A `realloc` that gives nothing. -/
def refused (h : Heap) (p : Addr) (n : UInt64) : Heap :=
  { h with
    blocks := if n = 0 ∧ h.frees h.asked = true then del p.block h.blocks else h.blocks
    asked := h.asked + 1 }

theorem cdsaReallocTrack_refused (t : Tracks base s) (hp : (p, size) ∈ s.held) {n : UInt64}
    (h0 : n ≠ 0) (ha : s.heap.answer (n + 8) = none) :
    cdsaReallocTrack (some p) n s.heap = some (none, refused s.heap p (n + 8)) := by
  obtain ⟨block, hl, -⟩ := t.live hp
  simp only [cdsaReallocTrack, if_neg h0, t.prev_held hp, Option.bind_some, t.load_held hp]
  unfold Heap.realloc Heap.blockAt
  rw [if_pos rfl]
  simp only [hl, Option.map_some, ha, Option.bind_some]
  rfl

theorem cdsaReallocTrack_granted (t : Tracks base s) (hp : (p, size) ∈ s.held) {n : UInt64}
    (h0 : n ≠ 0) {bytes : List UInt8} (ha : s.heap.answer (n + 8) = some bytes) :
    ∃ moved : List UInt8, moved.length = bytes.length ∧
      cdsaReallocTrack (some p) n s.heap = (writeAt moved 0 (wordBytes 8 n.toNat)).map fun block =>
        (some ⟨s.heap.asked, 8⟩, (s.heap.give p.block size).take n block) := by
  obtain ⟨old, hl, -⟩ := t.live hp
  have hnew : s.heap.asked ∉ (del p.block s.heap.blocks).map Prod.fst :=
    (t.named.give p.block size).fresh_notMem
  refine ⟨old.take bytes.length ++ bytes.drop old.length, ?_, ?_⟩
  · rw [List.length_append, List.length_take, List.length_drop]
    omega
  · simp only [cdsaReallocTrack, if_neg h0, t.prev_held hp, Option.bind_some, t.load_held hp]
    unfold Heap.realloc Heap.blockAt
    rw [if_pos rfl]
    simp only [hl, Option.map_some, ha, Option.bind_some]
    unfold Heap.store
    rw [Heap.write_new (h := { s.heap with
      blocks := (s.heap.asked, old.take bytes.length ++ bytes.drop old.length) ::
        del p.block s.heap.blocks
      asked := s.heap.asked + 1 }) rfl hnew, Option.map_map]
    rfl

end Tracks

/-! ## Room for the header -/

/-- If the system grants `n` bytes now, its block has at least `m`. -/
def Heap.Room (h : Heap) (n : UInt64) (m : Nat) : Prop :=
  ∀ bytes, h.answer n = some bytes → m ≤ bytes.length

/-- What the step is granted has room for its header, and for what is cleared;
no block is lost to a `realloc` that asks for nothing. -/
def Roomy (s : Sess) : Op → Prop
  | .malloc size | .realloc none size => s.heap.Room (size + 8) 8
  | .calloc count size => s.heap.Room (count * size + 8) (8 + (count * size).toNat)
  | .realloc (some _) newSize => newSize ≠ 0 → s.heap.Room (newSize + 8) 8 ∧
      ¬ (s.heap.answer (newSize + 8) = none ∧ newSize + 8 = 0 ∧ s.heap.frees s.heap.asked = true)
  | .free _ => True

/-- The size asked of the system is the size requested and 8 bytes more. -/
def Op.Fits : Op → Prop
  | .malloc size | .realloc _ size => size.toNat + 8 < 2 ^ 64
  | .calloc count size => (count * size).toNat + 8 < 2 ^ 64
  | .free _ => True

theorem toNat_add_eight {n : UInt64} (h : n.toNat + 8 < 2 ^ 64) : (n + 8).toNat = n.toNat + 8 := by
  rw [UInt64.toNat_add]
  exact Nat.mod_eq_of_lt h

theorem Heap.room_of_fits {n : UInt64} (hn : n.toNat + 8 < 2 ^ 64) (h : Heap) :
    h.Room (n + 8) (8 + n.toNat) := fun bytes hb => by
  have hlen := (h.grants h.asked).holds _ _ hb
  rw [toNat_add_eight hn] at hlen
  omega

/-- A request that does not wrap is never short of room. -/
theorem Op.Fits.roomy {op : Op} (h : op.Fits) (s : Sess) : Roomy s op := by
  have hroom : ∀ {n : UInt64}, n.toNat + 8 < 2 ^ 64 → s.heap.Room (n + 8) 8 := fun hn bytes hb =>
    Nat.le_trans (Nat.le_add_right 8 _) (s.heap.room_of_fits hn bytes hb)
  cases op with
  | malloc size => exact hroom h
  | calloc count size => exact s.heap.room_of_fits h
  | realloc p newSize =>
    cases p with
    | none => exact hroom h
    | some p =>
      refine fun _ => ⟨hroom h, fun ⟨_, h0, _⟩ => ?_⟩
      have hz := congrArg UInt64.toNat h0
      rw [toNat_add_eight h, UInt64.toNat_zero] at hz
      omega
  | free p => trivial

theorem exists_header {bytes : List UInt8} (h : 8 ≤ bytes.length) (size : UInt64) :
    ∃ block, writeAt bytes 0 (wordBytes 8 size.toNat) = some block ∧ headerOf block = some size ∧
      block.length = bytes.length := by
  obtain ⟨block, hw⟩ := exists_writeAt bytes 0 (wordBytes 8 size.toNat) (by rw [length_wordBytes]; omega)
  exact ⟨block, hw, headerOf_stored hw, writeAt_length hw⟩

theorem header_fits {bytes block : List UInt8} {n : Nat}
    (h : writeAt bytes 0 (wordBytes 8 n) = some block) : 8 ≤ bytes.length := by
  have := writeAt_fits h
  rw [length_wordBytes] at this
  omega

/-- Clearing what is behind the header leaves the header. -/
theorem headerOf_cleared {block block' data : List UInt8} (h : writeAt block 8 data = some block') :
    headerOf block' = headerOf block := by
  unfold headerOf loadWord
  rw [readAt_writeAt_of_disjoint h (Or.inl (Nat.le_refl 8))]

namespace Tracks
variable {base : UInt64} {s s' : Sess}

theorem malloc (t : Tracks base s) {size : UInt64} (hr : s.heap.Room (size + 8) 8) :
    ∃ o h, cdsaMallocTrack size s.heap = some (o, h) ∧ Tracks base ⟨h, hold o size s.held⟩ := by
  cases ha : s.heap.answer (size + 8) with
  | none => exact ⟨_, _, cdsaMallocTrack_refused ha, t.asks⟩
  | some bytes =>
    obtain ⟨block, hw, hh, -⟩ := exists_header (hr bytes ha) size
    refine ⟨some ⟨s.heap.asked, 8⟩, _, ?_, t.take size hh⟩
    rw [cdsaMallocTrack_granted t.named ha, hw, Option.map_some]

theorem calloc (t : Tracks base s) {count size : UInt64}
    (hr : s.heap.Room (count * size + 8) (8 + (count * size).toNat)) :
    ∃ o h, cdsaCallocTrack count size s.heap = some (o, h) ∧
      Tracks base ⟨h, hold o (count * size) s.held⟩ := by
  cases ha : s.heap.answer (count * size + 8) with
  | none => exact ⟨_, _, cdsaCallocTrack_refused ha, t.asks⟩
  | some bytes =>
    have hlen := hr bytes ha
    obtain ⟨block, hw, hh, hl⟩ := exists_header (show 8 ≤ bytes.length by omega) (count * size)
    obtain ⟨block', hw'⟩ := exists_writeAt block 8 (List.replicate (count * size).toNat 0)
      (by rw [List.length_replicate]; omega)
    refine ⟨some ⟨s.heap.asked, 8⟩, _, ?_, t.take (count * size) ((headerOf_cleared hw').trans hh)⟩
    rw [cdsaCallocTrack_granted t.named ha, hw, Option.bind_some, hw', Option.map_some]

theorem free (t : Tracks base s) {p : Addr} (hp : p ∈ s.held.map Prod.fst) :
    ∃ h, cdsaFreeTrack (some p) s.heap = some h ∧ Tracks base ⟨h, del p s.held⟩ := by
  obtain ⟨⟨q, size⟩, hm, rfl⟩ := List.mem_map.mp hp
  exact ⟨_, t.cdsaFreeTrack_held hm, t.give hm⟩

theorem realloc (t : Tracks base s) {p : Addr} (hp : p ∈ s.held.map Prod.fst) {n : UInt64}
    (hr : Roomy s (.realloc (some p) n)) :
    ∃ o h, cdsaReallocTrack (some p) n s.heap = some (o, h) ∧
      Tracks base ⟨h, rehold p o n s.held⟩ := by
  obtain ⟨⟨q, size⟩, hm, rfl⟩ := List.mem_map.mp hp
  by_cases h0 : n = 0
  · refine ⟨none, s.heap.give q.block size, ?_, ?_⟩
    · simp only [cdsaReallocTrack, if_pos h0, t.cdsaFreeTrack_held hm]
      rfl
    · unfold rehold
      simp only [if_pos h0]
      exact t.give hm
  · obtain ⟨hroom, hfree⟩ := hr h0
    cases ha : s.heap.answer (n + 8) with
    | none =>
      refine ⟨_, _, t.cdsaReallocTrack_refused hm h0 ha, ?_⟩
      have he : refused s.heap q (n + 8) = s.heap.asks := by
        unfold refused
        rw [if_neg fun h => hfree ⟨ha, h⟩]
        rfl
      unfold rehold
      simp only [he, if_neg h0]
      exact t.asks
    | some bytes =>
      obtain ⟨moved, hlen, hre⟩ := t.cdsaReallocTrack_granted hm h0 ha
      have hroom := hroom bytes ha
      obtain ⟨block, hw, hh, -⟩ := exists_header (show 8 ≤ moved.length by omega) n
      refine ⟨some ⟨s.heap.asked, 8⟩, _, ?_, (t.give hm).take n hh⟩
      rw [hre, hw, Option.map_some]

/-- With room, every function returns and keeps the counter and the headers. -/
theorem step (t : Tracks base s) {op : Op} (hl : Legal s op) (hr : Roomy s op) :
    ∃ o s', step s op = some (o, s') ∧ Tracks base s' := by
  cases op with
  | malloc size =>
    obtain ⟨o, h, he, t'⟩ := t.malloc hr
    refine ⟨o, _, ?_, t'⟩
    simp only [Telemetry.step, he, Option.map_some]
  | calloc count size =>
    obtain ⟨o, h, he, t'⟩ := t.calloc hr
    refine ⟨o, _, ?_, t'⟩
    simp only [Telemetry.step, he, Option.map_some]
  | realloc p newSize =>
    cases p with
    | none =>
      obtain ⟨o, h, he, t'⟩ := t.malloc hr
      refine ⟨o, _, ?_, t'⟩
      simp only [Telemetry.step, cdsaReallocTrack, he, Option.map_some]
    | some p =>
      obtain ⟨o, h, he, t'⟩ := t.realloc hl hr
      refine ⟨o, _, ?_, t'⟩
      simp only [Telemetry.step, he, Option.map_some]
  | free p =>
    cases p with
    | none => exact ⟨_, _, rfl, t⟩
    | some p =>
      obtain ⟨h, he, t'⟩ := t.free hl
      refine ⟨none, _, ?_, t'⟩
      simp only [Telemetry.step, he, Option.map_some]

theorem room_of_malloc (t : Tracks base s) {size : UInt64} {r : Option Addr × Heap}
    (h : cdsaMallocTrack size s.heap = some r) : s.heap.Room (size + 8) 8 := fun bytes ha => by
  rw [cdsaMallocTrack_granted t.named ha] at h
  obtain ⟨block, hw, -⟩ := Option.map_eq_some_iff.mp h
  exact header_fits hw

theorem room_of_calloc (t : Tracks base s) {count size : UInt64} {r : Option Addr × Heap}
    (h : cdsaCallocTrack count size s.heap = some r) :
    s.heap.Room (count * size + 8) (8 + (count * size).toNat) := fun bytes ha => by
  rw [cdsaCallocTrack_granted t.named ha] at h
  obtain ⟨block, hw, h⟩ := Option.bind_eq_some_iff.mp h
  obtain ⟨block', hw', -⟩ := Option.map_eq_some_iff.mp h
  have hfits := writeAt_fits hw'
  rw [List.length_replicate, writeAt_length hw] at hfits
  exact hfits

/-- A block that the system has freed has no header. -/
theorem header_freed {h : Heap} {p : Addr} (hp : p.off = 8) {n : UInt64} (h0 : n = 0)
    (hf : h.frees h.asked = true) : (refused h p n).header p = none := by
  rw [header_eq hp]
  unfold refused
  simp only [if_pos (show n = 0 ∧ h.frees h.asked = true from ⟨h0, hf⟩), lookup_del_self]
  rfl

/-- A step that returns with the counter and the headers right had room. -/
theorem roomy (t : Tracks base s) {op : Op} (hl : Legal s op) {o : Option Addr}
    (h : Telemetry.step s op = some (o, s')) (he : Exact base s') : Roomy s op := by
  cases op with
  | malloc size =>
    obtain ⟨r, hr, -⟩ := Option.map_eq_some_iff.mp h
    exact t.room_of_malloc hr
  | calloc count size =>
    obtain ⟨r, hr, -⟩ := Option.map_eq_some_iff.mp h
    exact t.room_of_calloc hr
  | free p => trivial
  | realloc p newSize =>
    cases p with
    | none =>
      obtain ⟨r, hr, -⟩ := Option.map_eq_some_iff.mp h
      exact t.room_of_malloc hr
    | some p =>
      obtain ⟨⟨q, size⟩, hm, rfl⟩ := List.mem_map.mp hl
      intro h0
      refine ⟨fun bytes ha => ?_, fun ⟨ha, hz, hf⟩ => ?_⟩
      · obtain ⟨moved, hlen, hre⟩ := t.cdsaReallocTrack_granted hm h0 ha
        obtain ⟨r, hr, -⟩ := Option.map_eq_some_iff.mp h
        rw [hre] at hr
        obtain ⟨block, hw, -⟩ := Option.map_eq_some_iff.mp hr
        exact hlen ▸ header_fits hw
      -- the caller still holds the block, the system has freed it
      · simp only [Telemetry.step, t.cdsaReallocTrack_refused hm h0 ha, Option.map_some] at h
        cases h
        have hheld : (q, size) ∈ rehold q none newSize s.held := by
          unfold rehold
          simp only [if_neg h0]
          exact hm
        have hhead := he.header q size hheld
        rw [header_freed (t.off _ hm) hz hf] at hhead
        cases hhead

theorem start {h : Heap} (hn : h.Named) : Tracks h.used ⟨h, []⟩ where
  used := (UInt64.add_zero _).symm
  header _ _ hp := nomatch hp
  named := hn
  distinct := List.nodup_nil
  off _ hb := nomatch hb

end Tracks

/-- In every run that frees and resizes live blocks only, the counter and the
headers are right in every state exactly if no step is short of room. -/
theorem telemetry_exact_iff (h : Heap) (hn : h.Named) (ops : List Op)
    (hl : RunMeets step Legal ⟨h, []⟩ ops) :
    RunKeeps step (Exact h.used) ⟨h, []⟩ ops ↔ RunMeets step Roomy ⟨h, []⟩ ops :=
  runKeeps_iff (J := Tracks h.used) (fun _ t => t.toExact) (fun _ _ t hl hr => t.step hl hr)
    (fun _ _ _ _ t hl hs he => t.roomy hl hs he) ops _ (.start hn) hl

/-- A heap with 3 bytes in use, on a system that never refuses. -/
def roomyHeap : Heap := ⟨3, [], 0, fun _ => .zeros, fun _ => true⟩

theorem roomyHeap_named : roomyHeap.Named := ⟨List.nodup_nil, fun _ hb => nomatch hb⟩

/-- A block is taken, resized and given back. -/
theorem telemetry_exact_iff_resized :
    RunKeeps step (Exact 3) ⟨roomyHeap, []⟩
      [.malloc 5, .realloc (some ⟨0, 8⟩) 7, .free (some ⟨1, 8⟩)] := by
  refine (telemetry_exact_iff roomyHeap roomyHeap_named _ ?_).mpr ?_
  · refine ⟨trivial, fun o s h => ⟨?_, fun o' s' h' => ⟨?_, fun _ _ _ => trivial⟩⟩⟩
    · cases h
      exact List.mem_cons_self
    · cases h
      cases h'
      exact List.mem_cons_self
  · have h5 : (Op.malloc 5).Fits := show (5 : UInt64).toNat + 8 < 2 ^ 64 by decide
    have h7 : (Op.realloc (some ⟨0, 8⟩) 7).Fits := show (7 : UInt64).toNat + 8 < 2 ^ 64 by decide
    exact ⟨h5.roomy _, fun _ _ _ => ⟨h7.roomy _, fun _ _ _ => ⟨trivial, fun _ _ _ => trivial⟩⟩⟩

/-- A request for 2^64 - 8 bytes asks the system for none: the header is
written behind the block. -/
theorem header_overruns :
    RunMeets step Legal ⟨roomyHeap, []⟩ [.malloc (2 ^ 64 - 8)] ∧
    ¬ RunKeeps step (Exact 3) ⟨roomyHeap, []⟩ [.malloc (2 ^ 64 - 8)] := by
  refine ⟨⟨trivial, fun _ _ _ => trivial⟩, ?_⟩
  rintro ⟨-, o, s, hs, -⟩
  have hnone : step ⟨roomyHeap, []⟩ (.malloc (2 ^ 64 - 8)) = none := by decide +kernel
  rw [hnone] at hs
  cases hs

/-! ## As `Cdsa.Memory` has it -/

/-- The heap without the bytes. -/
def Sess.mem (s : Sess) (answers : Nat → Bool) : Memory.Mem :=
  ⟨s.heap.used, sizes s.held, s.heap.asked, answers⟩

theorem map_fst_sizes (held : List (Addr × UInt64)) :
    (sizes held).map Prod.fst = (held.map Prod.fst).map Addr.block := by
  unfold sizes
  rw [List.map_map, List.map_map]
  rfl

namespace Tracks
variable {base : UInt64} {s s' : Sess}

/-- The invariant that the containers' proofs rest on. -/
theorem owns (t : Tracks base s) (answers : Nat → Bool) :
    Memory.Owns base (sizes s.held) (s.mem answers) where
  perm := .refl _
  distinct := by
    show ((sizes s.held).map Prod.fst).Nodup
    rw [map_fst_sizes]
    refine List.Nodup.map_on (fun p hp q hq he => ?_) t.distinct
    obtain ⟨a, ha, rfl⟩ := List.mem_map.mp hp
    obtain ⟨b, hb, rfl⟩ := List.mem_map.mp hq
    exact t.eq_of_block ha hb he
  fresh b hb := by
    obtain ⟨a, ha, rfl⟩ := List.mem_map.mp hb
    exact t.block_lt ha
  used := t.used

/-- An allocation that returns is the one `Cdsa.Memory` has. -/
theorem malloc_refines (t : Tracks base s) {size : UInt64} {o : Option Addr}
    {answers : Nat → Bool} (ha : answers s.heap.asked = (s.heap.answer (size + 8)).isSome)
    (h : Telemetry.step s (.malloc size) = some (o, s')) :
    Memory.cdsaMallocTrack (s.mem answers) size.toNat = (o.map Addr.block, s'.mem answers) := by
  unfold Telemetry.step at h
  cases hb : s.heap.answer (size + 8) with
  | none =>
    rw [hb] at ha
    simp only [cdsaMallocTrack_refused hb, Option.map_some] at h
    cases h
    exact Memory.cdsaMallocTrack_fail ha _
  | some bytes =>
    rw [hb] at ha
    simp only [cdsaMallocTrack_granted t.named hb, Option.map_map] at h
    obtain ⟨block, -, h⟩ := Option.map_eq_some_iff.mp h
    cases h
    rw [Memory.cdsaMallocTrack_ok ha]
    show (_, Memory.Mem.mk (s.heap.used + UInt64.ofNat size.toNat) _ _ _) = _
    rw [UInt64.ofNat_toNat]
    rfl

/-- So is the release of a live block. -/
theorem free_refines (t : Tracks base s) {p : Addr} {o : Option Addr} (answers : Nat → Bool)
    (hp : p ∈ s.held.map Prod.fst) (h : Telemetry.step s (.free (some p)) = some (o, s')) :
    Memory.cdsaFreeTrack (s.mem answers) (some p.block) = some (s'.mem answers) := by
  obtain ⟨⟨q, size⟩, hm, rfl⟩ := List.mem_map.mp hp
  simp only [Telemetry.step, t.cdsaFreeTrack_held hm, Option.map_some] at h
  cases h
  have hin : (q.block, size.toNat) ∈ sizes s.held := List.mem_map.mpr ⟨_, hm, rfl⟩
  have hlook := lookup_of_mem (t.owns answers).distinct hin
  rw [Memory.cdsaFreeTrack_live hlook]
  have hdel : del q.block (sizes s.held) = sizes (del q s.held) := by
    unfold sizes del
    rw [List.filter_map]
    refine congrArg _ (List.filter_congr fun b hb => ?_)
    have hiff : b.1.block = q.block ↔ b.1 = q :=
      ⟨fun he => t.eq_of_block hb hm he, congrArg Addr.block⟩
    simp [hiff]
  show some (Memory.Mem.mk (s.heap.used - UInt64.ofNat size.toNat) (del q.block (sizes s.held)) _ _) = _
  rw [UInt64.ofNat_toNat, hdel]
  rfl

end Tracks

end Cdsa.Telemetry
