import Mathlib.Logic.Function.Basic
import Cdsa.L1Memory.Slab

/-!
# The pool its clients see

`Slab` keeps the free list in the bytes of the free blocks. Its clients see
blocks by index (`Cdsa.Memory.Kpool`) and the bytes they have written to a block
since it was handed out: a `Store`. `Answers` lists what a store may answer; the
bytes of a block that nobody has written are unknown.

`slab_refines_pool`: as long as clients stay inside the blocks they hold, the
pool in its slab answers as the store does, so no operation on the pool and no
other client changes a byte that was written.
-/
namespace Cdsa.Slab

open Cdsa.Core Cdsa.Raw

inductive Access where
  | op (op : Op)
  | read (ptr offset n : Nat)

/-- The address handed out and the bytes read. -/
def access (w : State) : Access → Option ((Nat × List UInt8) × State)
  | .op op => (step w op).map fun r => ((r.1, []), r.2)
  | .read ptr offset n =>
    (readAt w.slab (ptr - w.pool.memoryBlock + offset) n).map fun bytes => ((0, bytes), w)

/-- Clients also read inside what they hold. -/
def Permitted (w : State) : Access → Prop
  | .op op => Allowed w op
  | .read ptr offset n => ptr ∈ w.outstanding ∧ offset + n ≤ w.pool.blockSize

/-! ## The store -/

/-- The free blocks, and what has been written to the others. -/
structure Store where
  pool : Memory.Kpool
  written : Nat → Nat → Option UInt8

/-- `bytes` written over `old` from `offset` on. -/
def overlay (old : Nat → Option UInt8) (offset : Nat) (bytes : List UInt8) (k : Nat) : Option UInt8 :=
  if offset ≤ k ∧ k < offset + bytes.length then bytes[k - offset]? else old k

inductive Answers (base blockSize : Nat) (s : Store) : Access → Nat × List UInt8 → Store → Prop
  | exhausted (h : Memory.kpoolAlloc s.pool = (none, s.pool)) :
    Answers base blockSize s (.op .alloc) (0, []) s
  | alloc {i : Nat} {pool : Memory.Kpool} (h : Memory.kpoolAlloc s.pool = (some i, pool)) :
    Answers base blockSize s (.op .alloc) (base + i * blockSize, [])
      ⟨pool, Function.update s.written i fun _ => none⟩
  | free (i : Nat) :
    Answers base blockSize s (.op (.free (base + i * blockSize))) (0, [])
      ⟨Memory.kpoolFree s.pool i, s.written⟩
  | write (i offset : Nat) (bytes : List UInt8) :
    Answers base blockSize s (.op (.write (base + i * blockSize) offset bytes)) (0, [])
      ⟨s.pool, Function.update s.written i (overlay (s.written i) offset bytes)⟩
  | read (i offset n : Nat) {bytes : List UInt8} (length : bytes.length = n)
    (kept : ∀ k b, k < n → s.written i (offset + k) = some b → bytes[k]? = some b) :
    Answers base blockSize s (.read (base + i * blockSize) offset n) (0, bytes) s

/-- The slab has the bytes that the store knows. -/
structure Agrees (base blockSize : Nat) (w : State) (s : Store) : Prop where
  inv : Inv w s.pool.freeList
  place : w.pool.memoryBlock = base
  size : w.pool.blockSize = blockSize
  bytes : ∀ i offset b, base + i * blockSize ∈ w.outstanding → s.written i offset = some b →
    offset < blockSize ∧ w.slab[i * blockSize + offset]? = some b

section
variable {base blockSize : Nat} {w : State} {s : Store}

/-- Where distinct blocks are. -/
theorem offset_disjoint {i j offset k n : Nat} (hne : i ≠ j) (ho : offset < blockSize)
    (hk : k + n ≤ blockSize) :
    ¬ (j * blockSize + k ≤ i * blockSize + offset ∧
      i * blockSize + offset < j * blockSize + k + n) := by
  rcases cell_disjoint (w := blockSize) hne with h | h <;> omega

namespace Agrees

theorem address (A : Agrees base blockSize w s) (i : Nat) : addr w i = base + i * blockSize := by
  rw [addr, A.place, A.size]

theorem held (A : Agrees base blockSize w s) {p : Nat} (hp : p ∈ w.outstanding) :
    ∃ i, p = base + i * blockSize ∧ i ∉ s.pool.freeList := by
  obtain ⟨i, -, he, hi⟩ := A.inv.outstanding_lt hp
  exact ⟨i, he.trans (A.address i), hi⟩

theorem alloc (A : Agrees base blockSize w s) :
    ∃ o w' s', access w (.op .alloc) = some (o, w') ∧
      Answers base blockSize s (.op .alloc) o s' ∧ Agrees base blockSize w' s' := by
  rcases A.inv.alloc with ⟨hnil, he⟩ | ⟨i, l, next, hcons, he, I⟩
  · refine ⟨(0, []), w, s, ?_, .exhausted ?_, A⟩
    · rw [access, step, he]
      rfl
    · rw [Memory.kpoolAlloc, hnil]
  · have hne : addr w i ≠ 0 := by
      have := A.inv.base
      unfold addr
      omega
    refine ⟨(addr w i, []), _, ⟨{ s.pool with freeList := l },
      Function.update s.written i fun _ => none⟩, ?_, ?_, ⟨I, A.place, A.size, ?_⟩⟩
    · rw [access, step, he, Option.map_some, if_neg hne]
      rfl
    · rw [A.address]
      apply Answers.alloc
      rw [Memory.kpoolAlloc, hcons]
    · intro j offset b hj hb
      simp only at hj hb
      by_cases hji : j = i
      · subst hji
        rw [Function.update_self] at hb
        cases hb
      · rw [Function.update_of_ne hji] at hb
        refine A.bytes j offset b ((List.mem_cons.mp hj).resolve_left ?_) hb
        intro haddr
        rw [← A.address j] at haddr
        exact hji (A.inv.addr_inj haddr)

/-- The link goes into the block that is given back. -/
theorem free (A : Agrees base blockSize w s) {p : Nat} (hp : p ∈ w.outstanding) :
    ∃ o w' s', access w (.op (.free p)) = some (o, w') ∧
      Answers base blockSize s (.op (.free p)) o s' ∧ Agrees base blockSize w' s' := by
  obtain ⟨j, slab', hj, he, I⟩ := A.inv.release hp
  have hsize := A.inv.blockSize
  have hbase := A.inv.base
  rw [A.address] at hj
  refine ⟨(0, []), _, ⟨Memory.kpoolFree s.pool j, s.written⟩, ?_, ?_, ⟨I, A.place, A.size, ?_⟩⟩
  · rw [access, step, he]
    rfl
  · rw [hj]
    exact .free j
  · intro i offset b hi hb
    obtain ⟨ho, hold⟩ := A.bytes i offset b (List.mem_of_mem_erase hi) hb
    have hne : i ≠ j := by
      intro hij
      have hnodup := (List.nodup_append.mp A.inv.all_nodup).2.1
      rw [hnodup.mem_erase_iff, hij, hj] at hi
      exact hi.1 rfl
    refine ⟨ho, ?_⟩
    rw [← hold]
    unfold kpoolFree at he
    rw [if_neg (by have := A.place; omega)] at he
    obtain ⟨slab1, hst, he⟩ := Option.map_eq_some_iff.mp he
    cases he
    rw [storeWord, if_pos (by have := A.place; omega), hj, A.place, Nat.add_sub_cancel_left] at hst
    rw [getElem?_writeAt hst, length_wordBytes, if_neg]
    exact offset_disjoint (k := 0) hne ho (by rw [← A.size]; omega)

theorem write (A : Agrees base blockSize w s) {p offset : Nat} {bytes : List UInt8}
    (hp : p ∈ w.outstanding) (hin : offset + bytes.length ≤ w.pool.blockSize) :
    ∃ o w' s', access w (.op (.write p offset bytes)) = some (o, w') ∧
      Answers base blockSize s (.op (.write p offset bytes)) o s' ∧ Agrees base blockSize w' s' := by
  obtain ⟨slab', he, I⟩ := A.inv.write hp hin
  obtain ⟨j, rfl, -⟩ := A.held hp
  rw [A.size] at hin
  refine ⟨(0, []), _, ⟨s.pool, Function.update s.written j (overlay (s.written j) offset bytes)⟩, ?_,
    .write j offset bytes, ⟨I, A.place, A.size, ?_⟩⟩
  · rw [access, step, he]
    rfl
  rw [A.place, Nat.add_sub_cancel_left] at he
  intro i k b hi hb
  simp only at hi hb ⊢
  rw [getElem?_writeAt he]
  by_cases hij : i = j
  · subst hij
    rw [Function.update_self, overlay] at hb
    split at hb
    · refine ⟨by omega, ?_⟩
      rw [if_pos (by omega), ← hb]
      congr 1
      omega
    · obtain ⟨hk, hold⟩ := A.bytes i k b hi hb
      exact ⟨hk, by rw [if_neg (by omega), hold]⟩
  · rw [Function.update_of_ne hij] at hb
    obtain ⟨hk, hold⟩ := A.bytes i k b hi hb
    exact ⟨hk, by rw [if_neg (offset_disjoint hij hk hin), hold]⟩

theorem read (A : Agrees base blockSize w s) {p offset n : Nat} (hp : p ∈ w.outstanding)
    (hin : offset + n ≤ w.pool.blockSize) :
    ∃ o w' s', access w (.read p offset n) = some (o, w') ∧
      Answers base blockSize s (.read p offset n) o s' ∧ Agrees base blockSize w' s' := by
  obtain ⟨i, hi, haddr, -⟩ := A.inv.outstanding_lt hp
  have hfit := A.inv.fits hi
  rw [A.size] at hin hfit
  rw [A.address] at haddr
  subst haddr
  obtain ⟨bytes, hr⟩ : ∃ bytes, readAt w.slab (i * blockSize + offset) n = some bytes :=
    exists_readAt (by omega)
  obtain ⟨-, hlen, hget⟩ := readAt_some_iff.mp hr
  refine ⟨(0, bytes), w, s, ?_, .read i offset n hlen ?_, A⟩
  · rw [access, A.place, Nat.add_sub_cancel_left, hr]
    rfl
  · intro k b hk hb
    rw [hget k hk, Nat.add_assoc]
    exact (A.bytes i (offset + k) b hp hb).2

theorem step (A : Agrees base blockSize w s) {a : Access} (ha : Permitted w a) :
    ∃ o w' s', access w a = some (o, w') ∧ Answers base blockSize s a o s' ∧
      Agrees base blockSize w' s' := by
  cases a with
  | op op =>
    cases op with
    | alloc => exact A.alloc
    | free p => exact A.free ha
    | write p offset bytes => exact A.write ha.1 ha.2
  | read p offset n => exact A.read ha.1 ha.2

end Agrees

end

/-- Every run of clients that stay inside what they hold, on the pool in its
slab, is one of the pool of indices with the bytes they have written; at its
end the links run through the free indices. -/
theorem slab_refines_pool (self slab : Grant) (base blockSize capacity : Nat)
    (hb : 0 < blockSize) (hc : 0 < capacity)
    (hfit : Memory.paddedBlockSize blockSize * capacity < 2 ^ 64) (hbase : 0 < base)
    (hspace : base + Memory.paddedBlockSize blockSize * capacity ≤ 2 ^ 64)
    (mem mem' : Memory.Mem) (indices : Memory.Kpool)
    (hindices : Memory.kpoolCreate mem blockSize capacity = some (some indices, mem'))
    (pool : Kpool) (bytes : List UInt8)
    (hcreate : kpoolCreate self.malloc slab.malloc base blockSize capacity =
      some (some (pool, bytes)))
    (accesses : List Access) (hruns : RunMeets access Permitted ⟨pool, bytes, []⟩ accesses) :
    ∃ outs w s, runOps access ⟨pool, bytes, []⟩ accesses = some (outs, w) ∧
      RelRun (Answers base (Memory.paddedBlockSize blockSize)) ⟨indices, fun _ _ => none⟩
        accesses outs s ∧
      Threads w.slab base (Memory.paddedBlockSize blockSize) w.pool.freeList s.pool.freeList := by
  rcases kpoolCreate_inv self slab hb hc hfit hbase hspace with he | ⟨bytes', he, I⟩
  · rw [he] at hcreate
    cases hcreate
  rw [he] at hcreate
  cases hcreate
  rw [← (Memory.kpoolCreate_fresh hindices).2] at I
  have A : Agrees base (Memory.paddedBlockSize blockSize)
      ⟨⟨Memory.paddedBlockSize blockSize, capacity, base, base⟩, bytes, []⟩
      ⟨indices, fun _ _ => none⟩ := ⟨I, rfl, rfl, fun _ _ _ hi => by cases hi⟩
  obtain ⟨outs, w, s, hrun, hrel, A'⟩ :=
    refine_relRun (fun _ _ _ A ha => A.step ha) accesses _ _ A hruns
  have hthreads := A'.inv.threads
  rw [A'.place, A'.size] at hthreads
  exact ⟨outs, w, s, hrun, hrel, hthreads⟩

/-- Two clients; the first one's bytes survive the second one's and the links. -/
theorem slab_refines_pool_two : ∃ pool bytes outs w s,
    kpoolCreate Grant.zeros.malloc Grant.zeros.malloc 16 1 3 = some (some (pool, bytes)) ∧
      runOps access ⟨pool, bytes, []⟩ [.op .alloc, .op (.write 16 0 [1, 2]), .op .alloc,
        .op (.write 24 0 [3]), .op (.free 24), .read 16 0 2] = some (outs, w) ∧
      (∃ indices, RelRun (Answers 16 8) ⟨indices, fun _ _ => none⟩ [.op .alloc,
        .op (.write 16 0 [1, 2]), .op .alloc, .op (.write 24 0 [3]), .op (.free 24), .read 16 0 2]
        outs s) ∧ outs.getLast? = some (0, [1, 2]) := by
  have hm : Memory.kpoolCreate ⟨0, [], 0, fun _ => true⟩ 1 3 =
    some (some ⟨0, 8, 3, 1, [0, 1, 2]⟩, _) := rfl
  obtain ⟨outs, w, s, hr, hrel, -⟩ := slab_refines_pool .zeros .zeros 16 1 3 (by decide) (by decide)
    (by decide) (by decide) (by decide) _ _ _ hm _ _ rfl
    [.op .alloc, .op (.write 16 0 [1, 2]), .op .alloc, .op (.write 24 0 [3]), .op (.free 24),
      .read 16 0 2]
    (.cons trivial rfl (.cons ⟨by decide, by decide⟩ rfl (.cons trivial rfl
      (.cons ⟨by decide, by decide⟩ rfl (.cons (List.mem_cons_self) rfl
        (.cons ⟨by decide, by decide⟩ rfl trivial))))))
  refine ⟨_, _, outs, w, s, rfl, hr, ⟨_, hrel⟩, ?_⟩
  cases hr
  rfl

end Cdsa.Slab
