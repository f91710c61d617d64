import Mathlib.Data.List.Count
import Mathlib.Data.List.Perm.Basic
import Mathlib.Logic.Function.Basic

/-!
# Blocks between pools and their users

A family of pools keeps its free blocks in lists `free i`; `used` lists the
blocks that are handed out, each with its pool. `Conserves` says of two such
accounts that they are about the same blocks, each as often. It is proved piece
by piece: `take` and `give` move one block, `frame` adds blocks that stay where
they are.

`Partition all free used`: the blocks of pool `i` are the list `all i`. What
conserves blocks keeps a partition, and what does not breaks it
(`Conserves.partition_iff`).
-/
namespace Cdsa.Core

variable {I B : Type} [DecidableEq I] [DecidableEq B]

def Conserves (free : I → List B) (used : List (I × B)) (free' : I → List B)
    (used' : List (I × B)) : Prop :=
  ∀ i b, (free i).count b + used.count (i, b) = (free' i).count b + used'.count (i, b)

namespace Conserves
variable {free free' free'' : I → List B} {used used' used'' rest : List (I × B)}

theorem refl (free : I → List B) (used : List (I × B)) : Conserves free used free used :=
  fun _ _ => rfl

theorem trans (h : Conserves free used free' used') (h' : Conserves free' used' free'' used'') :
    Conserves free used free'' used'' := fun i b => (h i b).trans (h' i b)

/-- It does not matter in which order the blocks are listed. -/
theorem of_perm (free : I → List B) (h : used.Perm used') : Conserves free used free used' :=
  fun i b => by rw [h.count_eq]

/-- Blocks that are in use before and after. -/
theorem frame (h : Conserves free used free' used') (rest : List (I × B)) :
    Conserves free (used ++ rest) free' (used' ++ rest) := by
  intro i b
  have := h i b
  rw [List.count_append, List.count_append]
  omega

/-- The first free block is handed out. -/
theorem take {i : I} {b : B} {bs : List B} (h : free i = b :: bs) :
    Conserves free [] (Function.update free i bs) [(i, b)] := by
  intro j d
  by_cases hj : j = i
  · subst hj
    by_cases hd : b = d
    · subst hd
      simp [h]
    · have hne : (j, b) ≠ (j, d) := fun he => hd (Prod.mk.inj he).2
      simp [h, hd, hne]
  · have hne : (i, b) ≠ (j, d) := fun he => hj (Prod.mk.inj he).1.symm
    simp [Function.update_of_ne hj, hne]

/-- A block is given back. -/
theorem give (i : I) (b : B) :
    Conserves free [(i, b)] (Function.update free i (b :: free i)) [] := fun j d => by
  have h : Conserves (Function.update free i (b :: free i)) [] _ [(i, b)] :=
    take (Function.update_self ..)
  rw [Function.update_idem, Function.update_eq_self] at h
  exact (h j d).symm

end Conserves

/-- The blocks of each pool are free or in use, each once if `all` has it once. -/
def Partition (all free : I → List B) (used : List (I × B)) : Prop :=
  ∀ i, (free i ++ (used.filter fun q => q.1 = i).map Prod.snd).Perm (all i)

theorem count_in_use (used : List (I × B)) (i : I) (b : B) :
    ((used.filter fun q => q.1 = i).map Prod.snd).count b = used.count (i, b) := by
  induction used with
  | nil => rfl
  | cons q used ih =>
    obtain ⟨j, d⟩ := q
    by_cases hj : j = i
    · subst hj
      by_cases hd : d = b
      · simp [hd, ih]
      · have hne : (j, d) ≠ (j, b) := fun he => hd (Prod.mk.inj he).2
        simp [hd, hne, ih]
    · have hne : (j, d) ≠ (i, b) := fun he => hj (Prod.mk.inj he).1
      simp [hj, hne, ih]

theorem partition_iff_count {all free : I → List B} {used : List (I × B)} :
    Partition all free used ↔ ∀ i b, (free i).count b + used.count (i, b) = (all i).count b := by
  refine forall_congr' fun i => List.perm_iff_count.trans (forall_congr' fun b => ?_)
  rw [List.count_append, count_in_use]

theorem Conserves.partition_iff {all free free' : I → List B} {used used' : List (I × B)}
    (h : Conserves free used free' used') : Partition all free used ↔ Partition all free' used' := by
  rw [partition_iff_count, partition_iff_count]
  exact forall_congr' fun i => forall_congr' fun b => by rw [h i b]

end Cdsa.Core
