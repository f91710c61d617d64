import Cdsa.Core.CStr
import Cdsa.Core.FinMap

/-!
# The tracked allocator

Every allocation of the library goes through `cdsa_malloc_track`, which keeps
the requested size in a hidden header and adds it to
`cdsa_global_memory_used`; `cdsa_free_track` subtracts the header again. The
counter is a `size_t`, so it is a `UInt64` here.

The system's `malloc` is outside the repository: its n-th call succeeds if
`answers n`, and then hands out a block that is not live, named by n. Freeing
anything but a live block is undefined, hence `none`. The 8 bytes of the header
are not counted here, and so no size wraps: a caller whose size is a product
asks for that where it matters, and `Raw.cdsaMallocTrack` has the bytes.

* `Owns base bs m`: the live blocks are `bs`, each once, and the counter is
  `base` plus their sizes. `Owns.alloc` and `Owns.free` are what the two
  functions do to it.
-/
namespace Cdsa.Memory

open Cdsa.Core

/-- A non-NULL pointer returned by an allocator. -/
abbrev Ptr := Nat

structure Mem where
  /-- `cdsa_global_memory_used` -/
  used : UInt64
  /-- the live blocks with their headers -/
  blocks : List (Ptr × Nat)
  /-- calls of `malloc` so far -/
  asked : Nat
  answers : Nat → Bool

/-- mirrors src/allocator.c:9-19 -/
def cdsaMallocTrack (m : Mem) (size : Nat) : Option Ptr × Mem :=
  if m.answers m.asked then
    (some m.asked, { m with
      used := m.used + UInt64.ofNat size
      blocks := (m.asked, size) :: m.blocks
      asked := m.asked + 1 })
  else (none, { m with asked := m.asked + 1 })

/-- mirrors src/allocator.c:21-30 -/
def cdsaFreeTrack (m : Mem) : Option Ptr → Option Mem
  | none => some m
  | some p => (m.blocks.lookup p).map fun size =>
    { m with used := m.used - UInt64.ofNat size, blocks := del p m.blocks }

theorem cdsaMallocTrack_ok {m : Mem} (h : m.answers m.asked = true) (size : Nat) :
    cdsaMallocTrack m size = (some m.asked, { m with
      used := m.used + UInt64.ofNat size
      blocks := (m.asked, size) :: m.blocks
      asked := m.asked + 1 }) := if_pos h

theorem cdsaMallocTrack_fail {m : Mem} (h : m.answers m.asked = false) (size : Nat) :
    cdsaMallocTrack m size = (none, { m with asked := m.asked + 1 }) := if_neg (by simp [h])

theorem cdsaMallocTrack_answers (m : Mem) (size : Nat) :
    (cdsaMallocTrack m size).2.answers = m.answers := by
  unfold cdsaMallocTrack; split <;> rfl

theorem cdsaFreeTrack_live {m : Mem} {p : Ptr} {size : Nat} (h : m.blocks.lookup p = some size) :
    cdsaFreeTrack m (some p) =
      some { m with used := m.used - UInt64.ofNat size, blocks := del p m.blocks } := by
  rw [cdsaFreeTrack, h, Option.map_some]

/-- mirrors src/allocator.c:32-38 -/
def cdsaCallocTrack (m : Mem) (count size : Nat) : Option Ptr × Mem :=
  cdsaMallocTrack m (count * size % 2 ^ 64)

/-- The copy has the contents of `s`.
mirrors src/art.c:168-174, src/skiplist.c:37-43 -/
def safeStrdup (m : Mem) (s : CStr) : Option Ptr × Mem := cdsaMallocTrack m (s.strlen + 1)

/-- What the live blocks add to the counter. -/
def total (bs : List (Ptr × Nat)) : UInt64 := bs.foldr (fun b n => UInt64.ofNat b.2 + n) 0

@[simp] theorem total_nil : total [] = 0 := rfl

@[simp] theorem total_cons (b : Ptr × Nat) (bs : List (Ptr × Nat)) :
    total (b :: bs) = UInt64.ofNat b.2 + total bs := rfl

theorem total_perm {bs bs' : List (Ptr × Nat)} (h : bs.Perm bs') : total bs = total bs' := by
  induction h with
  | nil => rfl
  | cons b _ ih => simp [ih]
  | swap a b l => simp only [total_cons, ← UInt64.add_assoc, UInt64.add_comm]
  | trans _ _ ih1 ih2 => exact ih1.trans ih2

/-- The live blocks are `bs`. -/
structure Owns (base : UInt64) (bs : List (Ptr × Nat)) (m : Mem) : Prop where
  perm : m.blocks.Perm bs
  distinct : (m.blocks.map Prod.fst).Nodup
  fresh : ∀ b ∈ m.blocks, b.1 < m.asked
  used : m.used = base + total m.blocks

/-- One of the next `n` calls of `malloc` fails. -/
def Mem.Refuses (m : Mem) (n : Nat) : Prop := ∃ k < n, m.answers (m.asked + k) = false

theorem Mem.not_refuses_zero (m : Mem) : ¬ m.Refuses 0 := fun ⟨_, hk, _⟩ => absurd hk (Nat.not_lt_zero _)

/-- A request that is granted, and then the others. -/
theorem Mem.not_refuses_succ {m m' : Mem} {p : Ptr} {size n : Nat}
    (h : cdsaMallocTrack m size = (some p, m')) (hn : ¬ m'.Refuses n) : ¬ m.Refuses (n + 1) := by
  cases ha : m.answers m.asked with
  | false =>
    rw [cdsaMallocTrack_fail ha] at h
    cases h
  | true =>
    rw [cdsaMallocTrack_ok ha] at h
    cases h
    rintro ⟨k, hk, hrefused⟩
    cases k with
    | zero =>
      rw [Nat.add_zero, ha] at hrefused
      cases hrefused
    | succ k => exact hn ⟨k, Nat.lt_of_succ_lt_succ hk, by rw [Nat.add_assoc, Nat.add_comm 1]; exact hrefused⟩

/-- No call of `malloc` fails. -/
def Mem.NeverFails (m : Mem) : Prop := ∀ n, m.answers n = true

namespace Owns
variable {base : UInt64} {bs : List (Ptr × Nat)} {m : Mem}

theorem of_perm (h : Owns base bs m) {bs' : List (Ptr × Nat)} (hp : bs.Perm bs') :
    Owns base bs' m := ⟨h.perm.trans hp, h.distinct, h.fresh, h.used⟩

/-- Two states with the same live blocks. -/
theorem same {m' : Mem} (h : Owns base bs m) (h' : Owns base bs m') :
    m'.used = m.used ∧ m'.blocks.Perm m.blocks := by
  have hp := h'.perm.trans h.perm.symm
  exact ⟨by rw [h'.used, h.used, total_perm hp], hp⟩

theorem alloc (h : Owns base bs m) (ha : m.answers m.asked = true) (size : Nat) :
    ∃ m', cdsaMallocTrack m size = (some m.asked, m') ∧ Owns base ((m.asked, size) :: bs) m' ∧
      m'.answers = m.answers ∧ m'.asked = m.asked + 1 := by
  refine ⟨_, cdsaMallocTrack_ok ha size, ⟨h.perm.cons _, ?_, ?_, ?_⟩, rfl, rfl⟩
  · refine List.nodup_cons.mpr ⟨fun hm => ?_, h.distinct⟩
    obtain ⟨b, hb, he⟩ := List.mem_map.mp hm
    exact Nat.ne_of_lt (h.fresh b hb) he
  · intro b hb
    rcases List.mem_cons.mp hb with rfl | hb
    · exact Nat.lt_succ_self _
    · exact Nat.lt_succ_of_lt (h.fresh b hb)
  · show m.used + UInt64.ofNat size = base + (UInt64.ofNat size + total m.blocks)
    rw [h.used, UInt64.add_assoc, UInt64.add_comm (total _)]

theorem alloc_fail (h : Owns base bs m) (ha : m.answers m.asked = false) (size : Nat) :
    ∃ m', cdsaMallocTrack m size = (none, m') ∧ Owns base bs m' ∧ m'.answers = m.answers ∧
      m'.asked = m.asked + 1 :=
  ⟨_, cdsaMallocTrack_fail ha size,
    ⟨h.perm, h.distinct, fun b hb => Nat.lt_succ_of_lt (h.fresh b hb), h.used⟩, rfl, rfl⟩

theorem free {p : Ptr} {size : Nat} (h : Owns base ((p, size) :: bs) m) :
    ∃ m', cdsaFreeTrack m (some p) = some m' ∧ Owns base bs m' ∧ m'.answers = m.answers ∧
      m'.asked = m.asked := by
  have hm : (p, size) ∈ m.blocks := h.perm.mem_iff.mpr List.mem_cons_self
  have hs := perm_cons_del h.distinct hm
  refine ⟨_, cdsaFreeTrack_live (lookup_of_mem h.distinct hm),
    ⟨?_, nodup_del h.distinct, ?_, ?_⟩, rfl, rfl⟩
  · exact (hs.symm.trans h.perm).cons_inv
  · exact fun b hb => h.fresh b (mem_del.mp hb).1
  · show m.used - UInt64.ofNat size = base + total (del p m.blocks)
    rw [h.used, total_perm hs, total_cons, UInt64.add_comm (UInt64.ofNat size), ← UInt64.add_assoc,
      UInt64.add_sub_cancel]

end Owns

end Cdsa.Memory
