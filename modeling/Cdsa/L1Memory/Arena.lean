import Mathlib.Algebra.GroupWithZero.Nat
import Mathlib.Data.Nat.Basic
import Cdsa.Core.LTS

/-!
# Arenas

A `cdsa_arena` hands out pieces of one buffer by moving an offset forward.
All its arithmetic is `size_t` and `uintptr_t`, hence `UInt64` here, and the
check `offset + padding + size > capacity` is made on the wrapped sum. A
request whose sum wraps past 2^64 to something small is therefore granted
(`huge_request_granted`): the block leaves the buffer and the offset goes back.

`alloc_run_iff` is the exact condition. A run of requests and resets hands out
aligned, disjoint blocks inside the buffer if and only if no request is of that
kind (`NoFalseFit`).
-/
namespace Cdsa.Memory

open Cdsa.Core

/-- mirrors src/allocator.c:174-178 -/
structure CdsaArena where
  capacity : UInt64
  offset : UInt64
  buffer : UInt64
  deriving DecidableEq

/-- mirrors src/allocator.c:181 -/
def ALIGN_FORWARD (x align : UInt64) : UInt64 := (x + (align - 1)) &&& ~~~(align - 1)

/-- The two calls of `CDSA_MALLOC` answer `self` and `buffer`.
mirrors src/allocator.c:182-200 -/
def arenaCreate (capacity : UInt64) (self buffer : Option UInt64) : Option CdsaArena :=
  if capacity = 0 then none
  else self.bind fun _ => buffer.map fun buffer => { capacity, offset := 0, buffer }

/-- mirrors src/allocator.c:202-224 -/
def arenaAlloc (arena : CdsaArena) (size : UInt64) : Option UInt64 × CdsaArena :=
  if size = 0 then (none, arena)
  else
    let currentAddr := arena.buffer + arena.offset
    let alignedAddr := ALIGN_FORWARD currentAddr 8
    let padding := alignedAddr - currentAddr
    if arena.offset + padding + size > arena.capacity then (none, arena)
    else (some alignedAddr, { arena with offset := arena.offset + (padding + size) })

/-- mirrors src/allocator.c:226-231 -/
def arenaReset (arena : CdsaArena) : CdsaArena := { arena with offset := 0 }

/-! ## Rounding up -/

theorem and_not_seven (x : BitVec 64) : x &&& ~~~7#64 = (x >>> 3) <<< 3 := by
  ext i hi
  have hbit : ∀ i (h : i < 64), (~~~7#64)[i] = decide (3 ≤ i) := by decide
  rw [BitVec.getElem_and, hbit i hi]
  rcases Nat.lt_or_ge i 3 with h | h
  · simp [h, Nat.not_le.mpr h]
  · simp [h, Nat.not_lt.mpr h, ← BitVec.getLsbD_eq_getElem, hi]

theorem ALIGN_FORWARD_toNat (x : UInt64) :
    (ALIGN_FORWARD x 8).toNat = (x.toNat + 7) % 2 ^ 64 / 8 * 8 := by
  show ((x.toBitVec + 7#64) &&& ~~~7#64).toNat = _
  rw [and_not_seven, BitVec.toNat_shiftLeft, BitVec.toNat_ushiftRight, BitVec.toNat_add]
  simp only [Nat.shiftRight_eq_div_pow, Nat.shiftLeft_eq, BitVec.reduceToNat, UInt64.toNat_toBitVec]
  omega

/-- How far the end of what is in use is from the next multiple of 8. -/
def CdsaArena.padding (arena : CdsaArena) : Nat :=
  (8 - (arena.buffer.toNat + arena.offset.toNat) % 8) % 8

/-- Buffer and offset are those of a buffer that lies in the address space. -/
structure CdsaArena.Sound (arena : CdsaArena) : Prop where
  buffer : arena.buffer ≠ 0
  fits : arena.buffer.toNat + arena.capacity.toNat < 2 ^ 64
  offset : arena.offset ≤ arena.capacity

/-- What `arena_alloc` computes, as numbers. -/
theorem CdsaArena.Sound.computed {arena : CdsaArena} (A : arena.Sound) :
    (ALIGN_FORWARD (arena.buffer + arena.offset) 8).toNat =
        (arena.buffer.toNat + arena.offset.toNat + arena.padding) % 2 ^ 64 ∧
      (ALIGN_FORWARD (arena.buffer + arena.offset) 8 - (arena.buffer + arena.offset)).toNat =
        arena.padding ∧
      arena.buffer.toNat + arena.offset.toNat + arena.padding ≤ 2 ^ 64 := by
  have hf := A.fits
  have ho := UInt64.le_iff_toNat_le.mp A.offset
  have hadd : (arena.buffer + arena.offset).toNat = arena.buffer.toNat + arena.offset.toNat := by
    rw [UInt64.toNat_add]; omega
  rw [UInt64.toNat_sub, ALIGN_FORWARD_toNat, hadd, CdsaArena.padding]
  omega

/-! ## Requests -/

/-- The offset that a request asks for. -/
def CdsaArena.demand (arena : CdsaArena) (size : UInt64) : Nat :=
  arena.offset.toNat + arena.padding + size.toNat

/-- What `arena_alloc` answers: NULL, or the next aligned address. -/
theorem CdsaArena.Sound.alloc_cases {arena : CdsaArena} (A : arena.Sound) (size : UInt64) :
    (arenaAlloc arena size = (none, arena) ∧
      (size = 0 ∨ arena.capacity.toNat < arena.demand size % 2 ^ 64)) ∨
    ∃ p offset, arenaAlloc arena size = (some p, { arena with offset }) ∧ size ≠ 0 ∧
      arena.demand size % 2 ^ 64 ≤ arena.capacity.toNat ∧
      p.toNat = (arena.buffer.toNat + arena.offset.toNat + arena.padding) % 2 ^ 64 ∧
      offset.toNat = arena.demand size % 2 ^ 64 := by
  obtain ⟨hal, hpad, -⟩ := A.computed
  by_cases h0 : size = 0
  · exact Or.inl ⟨by rw [arenaAlloc, if_pos h0], Or.inl h0⟩
  have hsum : (arena.offset + (ALIGN_FORWARD (arena.buffer + arena.offset) 8 -
      (arena.buffer + arena.offset)) + size).toNat = arena.demand size % 2 ^ 64 := by
    rw [UInt64.toNat_add, UInt64.toNat_add, hpad, Nat.mod_add_mod, demand]
  by_cases hc : arena.capacity.toNat < arena.demand size % 2 ^ 64
  · refine Or.inl ⟨?_, Or.inr hc⟩
    rw [arenaAlloc, if_neg h0]
    exact if_pos (UInt64.lt_iff_toNat_lt.mpr (hsum ▸ hc))
  · refine Or.inr ⟨_, arena.offset + (ALIGN_FORWARD (arena.buffer + arena.offset) 8 -
      (arena.buffer + arena.offset) + size), ?_, h0, Nat.not_lt.mp hc, hal, ?_⟩
    · rw [arenaAlloc, if_neg h0]
      exact if_neg fun h => hc (hsum ▸ UInt64.lt_iff_toNat_lt.mp h)
    · rw [← UInt64.add_assoc]; exact hsum

/-- Not the case that the sum of the request wraps and then seems to fit. -/
def NoFalseFit (arena : CdsaArena) (size : UInt64) : Prop :=
  arena.demand size < 2 ^ 64 ∨ arena.capacity.toNat < arena.demand size % 2 ^ 64

/-! ## Runs -/

inductive ArenaOp where
  | alloc (size : UInt64)
  | reset

/-- The arena and the blocks handed out since the last reset, as address and
requested size. -/
structure ArenaRun where
  arena : CdsaArena
  blocks : List (UInt64 × UInt64)

/-- `b` ends where `c` starts or before, or the other way round. -/
def Apart (b c : UInt64 × UInt64) : Prop :=
  b.1.toNat + b.2.toNat ≤ c.1.toNat ∨ c.1.toNat + c.2.toNat ≤ b.1.toNat

def arenaStep (w : ArenaRun) : ArenaOp → Option (Option UInt64 × ArenaRun)
  | .alloc size =>
    match arenaAlloc w.arena size with
    | (none, arena) => some (none, ⟨arena, w.blocks⟩)
    | (some p, arena) => some (some p, ⟨arena, (p, size) :: w.blocks⟩)
  | .reset => some (none, ⟨arenaReset w.arena, []⟩)

/-- What a request is to do: an aligned block inside the buffer, apart from the
blocks handed out before, or nothing. -/
def HandsOut (w : ArenaRun) : ArenaOp → Prop
  | .alloc size =>
    ((arenaAlloc w.arena size).1 = none → (arenaAlloc w.arena size).2 = w.arena) ∧
    ∀ p, (arenaAlloc w.arena size).1 = some p →
      p.toNat % 8 = 0 ∧ w.arena.buffer ≤ p ∧
      p.toNat + size.toNat ≤ w.arena.buffer.toNat + w.arena.capacity.toNat ∧
      (∀ b ∈ w.blocks, Apart b (p, size)) ∧
      w.arena.offset ≤ (arenaAlloc w.arena size).2.offset ∧
      (arenaAlloc w.arena size).2.offset ≤ w.arena.capacity
  | .reset => True

/-- No request is granted by mistake. -/
def Honest (w : ArenaRun) : ArenaOp → Prop
  | .alloc size => NoFalseFit w.arena size
  | .reset => True

/-- Every block handed out ends before the offset. -/
structure ArenaRun.Inv (w : ArenaRun) : Prop where
  sound : w.arena.Sound
  blocks : ∀ b ∈ w.blocks, b.1.toNat + b.2.toNat ≤ w.arena.buffer.toNat + w.arena.offset.toNat

theorem handsOut_iff {w : ArenaRun} (W : w.Inv) (op : ArenaOp) : HandsOut w op ↔ Honest w op := by
  cases op with
  | reset => exact Iff.rfl
  | alloc size =>
    have hb : 0 < w.arena.buffer.toNat := Nat.pos_of_ne_zero fun h =>
      W.sound.buffer (UInt64.toNat_inj.mp h)
    have hf := W.sound.fits
    have ho := UInt64.le_iff_toNat_le.mp W.sound.offset
    have hpad := W.sound.computed.2.2
    have hs := size.toNat_lt
    have hd : w.arena.demand size = w.arena.offset.toNat + w.arena.padding + size.toNat := rfl
    simp only [HandsOut, Honest, NoFalseFit]
    rcases W.sound.alloc_cases size with ⟨he, h0⟩ | ⟨p, offset, he, h0, hle, hp, hoff⟩
    · refine iff_of_true ⟨fun _ => by rw [he], fun p h => by rw [he] at h; cases h⟩ ?_
      rcases h0 with rfl | h0
      · rw [hd, UInt64.toNat_zero]; omega
      · exact Or.inr h0
    · rw [he]
      simp only [reduceCtorEq, false_imp_iff, true_and, Option.some.injEq, forall_eq',
        UInt64.le_iff_toNat_le]
      constructor
      · rintro ⟨-, hlow, hend, -⟩
        -- the block would have to start below 2^64 and to end past it
        refine Or.inl (Nat.lt_of_not_le fun hw => ?_)
        omega
      · intro hfit
        have hlt : w.arena.demand size < 2 ^ 64 := by omega
        rw [Nat.mod_eq_of_lt hlt] at hle hoff
        have hpn : p.toNat = w.arena.buffer.toNat + w.arena.offset.toNat + w.arena.padding := by
          rw [hp]; exact Nat.mod_eq_of_lt (by omega)
        refine ⟨?_, by omega, by omega, fun b hbm => Or.inl ?_, by omega, by omega⟩
        · rw [hpn, CdsaArena.padding]; omega
        · have := W.blocks b hbm
          simp only [hpn]; omega

theorem ArenaRun.Inv.step {w w' : ArenaRun} {op : ArenaOp} {o : Option UInt64} (W : w.Inv)
    (hop : Honest w op) (h : arenaStep w op = some (o, w')) : w'.Inv := by
  have hf := W.sound.fits
  have ho := UInt64.le_iff_toNat_le.mp W.sound.offset
  cases op with
  | reset =>
    cases h
    exact ⟨⟨W.sound.buffer, hf, UInt64.le_iff_toNat_le.mpr (Nat.zero_le _)⟩, by simp⟩
  | alloc size =>
    have hH := (handsOut_iff W (.alloc size)).mpr hop
    have hd : w.arena.demand size = w.arena.offset.toNat + w.arena.padding + size.toNat := rfl
    have hpad := W.sound.computed.2.2
    rcases W.sound.alloc_cases size with ⟨he, -⟩ | ⟨p, offset, he, h0, hle, hp, hoff⟩
    · simp only [arenaStep, he] at h
      cases h; exact W
    · simp only [arenaStep, he] at h
      cases h
      obtain ⟨-, -, -, -, hup, hcap⟩ := hH.2 p (by rw [he])
      rw [he] at hup hcap
      have hup : w.arena.offset.toNat ≤ offset.toNat := UInt64.le_iff_toNat_le.mp hup
      have hlt : w.arena.demand size < 2 ^ 64 := by
        rcases hop with hop | hop <;> omega
      rw [Nat.mod_eq_of_lt hlt] at hoff hle
      rw [Nat.mod_eq_of_lt (by omega)] at hp
      refine ⟨⟨W.sound.buffer, hf, hcap⟩, List.forall_mem_cons.mpr ⟨?_, fun b hb => ?_⟩⟩
      · show p.toNat + size.toNat ≤ w.arena.buffer.toNat + offset.toNat
        omega
      · have := W.blocks b hb
        show _ ≤ w.arena.buffer.toNat + offset.toNat
        omega

/-- A run since creation hands out what it should, request by request, exactly
if it is honest. -/
theorem alloc_run_iff (capacity self buffer : UInt64) (hb : buffer ≠ 0)
    (hfit : buffer.toNat + capacity.toNat < 2 ^ 64) (arena : CdsaArena)
    (hc : arenaCreate capacity (some self) (some buffer) = some arena) (ops : List ArenaOp) :
    RunMeets arenaStep HandsOut ⟨arena, []⟩ ops ↔ RunMeets arenaStep Honest ⟨arena, []⟩ ops := by
  have hW : (⟨arena, []⟩ : ArenaRun).Inv := by
    rw [arenaCreate] at hc
    split at hc
    · cases hc
    · cases hc
      exact ⟨⟨hb, hfit, UInt64.le_iff_toNat_le.mpr (Nat.zero_le _)⟩, by simp⟩
  exact runMeets_iff (I := ArenaRun.Inv) (fun w op W => handsOut_iff W op)
    (fun w op o w' W hop h => W.step hop h) ops _ hW

/-- Two requests out of a buffer of 16 bytes. -/
theorem alloc_run_iff_two : RunMeets arenaStep HandsOut ⟨⟨16, 0, 4097⟩, []⟩ [.alloc 3, .alloc 4] :=
  (alloc_run_iff 16 64 4097 (by decide) (by decide) _ rfl _).mpr
    ⟨Or.inl (by decide), fun _ _ h => by cases h; exact ⟨Or.inl (by decide), fun _ _ _ => trivial⟩⟩

/-- After 8 of 16 bytes a request for 2^64 - 8 bytes is granted: its block
leaves the buffer, and the offset is back at 0. -/
theorem huge_request_granted :
    arenaAlloc ⟨16, 8, 4096⟩ (0 - 8) = (some 4104, ⟨16, 0, 4096⟩) ∧
      ¬ RunMeets arenaStep HandsOut ⟨⟨16, 0, 4096⟩, []⟩ [.alloc 8, .alloc (0 - 8)] := by
  refine ⟨by decide, fun h => ?_⟩
  obtain ⟨-, hp⟩ := (h.2 _ _ rfl).1
  exact absurd (hp 4104 (by decide)).2.2.1 (by decide)

end Cdsa.Memory
