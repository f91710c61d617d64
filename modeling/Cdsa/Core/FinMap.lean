import Mathlib.Data.Finmap
import Mathlib.Data.List.Perm.Basic

/-!
# Association lists as finite maps

`Models l M`: the list `l` of key/value pairs, in whatever order, is the
graph of the finite map `M`. The order of `l` never matters, so an
implementation only has to show what each operation does to its pairs up to
permutation: `upd` and `del` are then `Finmap.insert` and `Finmap.erase`.
-/
namespace Cdsa.Core

variable {K W : Type} [DecidableEq K]

/-- A finite map from `K` to `W`. -/
abbrev FMap (K W : Type) := Finmap fun _ : K => W

/-- The pairs of other keys. -/
def del (k : K) (l : List (K × W)) : List (K × W) := l.filter fun p => p.1 ≠ k

/-- `k` now has value `w`. -/
def upd (k : K) (w : W) (l : List (K × W)) : List (K × W) := (k, w) :: del k l

theorem mem_del {k : K} {l : List (K × W)} {p : K × W} : p ∈ del k l ↔ p ∈ l ∧ p.1 ≠ k := by
  simp [del]

theorem mem_upd {k : K} {w : W} {l : List (K × W)} {p : K × W} :
    p ∈ upd k w l ↔ p = (k, w) ∨ (p ∈ l ∧ p.1 ≠ k) := by
  simp [upd, mem_del]

theorem del_eq_self {k : K} {l : List (K × W)} (h : k ∉ l.map Prod.fst) : del k l = l :=
  List.filter_eq_self.mpr fun p hp => by
    simpa using fun he : p.1 = k => h (he ▸ List.mem_map_of_mem hp)

theorem del_perm {k : K} {l l' : List (K × W)} (h : l.Perm l') : (del k l).Perm (del k l') :=
  h.filter _

/-- Where keys are unique, a stored pair is the only one that `del` drops. -/
theorem perm_cons_del {k : K} {w : W} {l : List (K × W)} (hn : (l.map Prod.fst).Nodup)
    (hm : (k, w) ∈ l) : l.Perm ((k, w) :: del k l) := by
  obtain ⟨l1, l2, rfl⟩ := List.append_of_mem hm
  have hp : (l1 ++ (k, w) :: l2).Perm ((k, w) :: (l1 ++ l2)) := List.perm_middle
  have hn' := (hp.map Prod.fst).nodup_iff.mp hn
  rw [List.map_cons, List.nodup_cons] at hn'
  have hd : del k (l1 ++ (k, w) :: l2) = l1 ++ l2 := by
    have := del_eq_self hn'.1
    simpa [del] using this
  rw [hd]; exact hp

/-- Where keys are unique, `lookup` finds every stored pair. -/
theorem lookup_of_mem {k : K} {w : W} {l : List (K × W)} (hn : (l.map Prod.fst).Nodup)
    (hm : (k, w) ∈ l) : l.lookup k = some w := by
  obtain ⟨l1, l2, rfl⟩ := List.append_of_mem hm
  refine List.lookup_eq_some_iff.mpr ⟨l1, l2, rfl, fun p hp => ?_⟩
  rw [List.map_append, List.map_cons] at hn
  have hne := List.disjoint_of_nodup_append hn (List.mem_map_of_mem hp)
  simpa using fun he : k = p.1 => hne (he ▸ List.mem_cons_self)

theorem lookup_del {k k' : K} (h : k' ≠ k) (l : List (K × W)) :
    (del k l).lookup k' = l.lookup k' := by
  induction l with
  | nil => rfl
  | cons p l ih =>
    by_cases hp : p.1 = k
    · have hd : del k (p :: l) = del k l := List.filter_cons_of_neg (by simpa using hp)
      rw [hd, ih, List.lookup_cons, hp, beq_false_of_ne h]
    · have hd : del k (p :: l) = p :: del k l := List.filter_cons_of_pos (by simpa using hp)
      rw [hd, List.lookup_cons, List.lookup_cons, ih]

theorem lookup_del_self (k : K) (l : List (K × W)) : (del k l).lookup k = none := by
  refine List.lookup_eq_none_iff.mpr fun p hp => ?_
  simpa using fun he : k = p.1 => (mem_del.mp hp).2 he.symm

theorem nodup_del {k : K} {l : List (K × W)} (hn : (l.map Prod.fst).Nodup) :
    ((del k l).map Prod.fst).Nodup :=
  List.Sublist.nodup (List.Sublist.map _ List.filter_sublist) hn

theorem nodup_upd {k : K} {w : W} {l : List (K × W)} (hn : (l.map Prod.fst).Nodup) :
    ((upd k w l).map Prod.fst).Nodup := by
  rw [upd, List.map_cons, List.nodup_cons]
  refine ⟨fun h => ?_, nodup_del hn⟩
  obtain ⟨p, hp, he⟩ := List.mem_map.mp h
  exact (mem_del.mp hp).2 he

/-- `l` is the graph of `M`. -/
structure Models (l : List (K × W)) (M : FMap K W) : Prop where
  nodup : (l.map Prod.fst).Nodup
  lookup : ∀ k w, (k, w) ∈ l ↔ M.lookup k = some w

namespace Models
variable {l l' : List (K × W)} {M : FMap K W}

theorem nil : Models ([] : List (K × W)) ∅ := ⟨by simp, by simp⟩

theorem perm (h : Models l M) (hp : l'.Perm l) : Models l' M :=
  ⟨(hp.map _).nodup_iff.mpr h.nodup, fun k w => by rw [hp.mem_iff, h.lookup]⟩

theorem upd (h : Models l M) (k : K) (w : W) : Models (Core.upd k w l) (M.insert k w) := by
  refine ⟨nodup_upd h.nodup, fun k' w' => ?_⟩
  rw [mem_upd, h.lookup]
  by_cases hk : k' = k
  · subst hk; simp [eq_comm]
  · simp [hk, Finmap.lookup_insert_of_ne M hk]

theorem del (h : Models l M) (k : K) : Models (Core.del k l) (M.erase k) := by
  refine ⟨nodup_del h.nodup, fun k' w' => ?_⟩
  rw [mem_del, h.lookup]
  by_cases hk : k' = k
  · subst hk; simp [Finmap.lookup_erase]
  · simp [hk, Finmap.lookup_erase_ne hk]

/-- Every list with unique keys is the graph of a map. -/
theorem exists_of_nodup : ∀ {l : List (K × W)}, (l.map Prod.fst).Nodup → ∃ M, Models l M
  | [], _ => ⟨∅, .nil⟩
  | (k, w) :: l, h => by
    rw [List.map_cons, List.nodup_cons] at h
    obtain ⟨M, hM⟩ := exists_of_nodup h.2
    have hw := hM.upd k w
    rw [Core.upd, del_eq_self h.1] at hw
    exact ⟨_, hw⟩

theorem mem_keys (h : Models l M) (k : K) : k ∈ l.map Prod.fst ↔ k ∈ M := by
  rw [Finmap.mem_iff, List.mem_map]
  constructor
  · rintro ⟨⟨k', w⟩, hp, rfl⟩; exact ⟨w, (h.lookup _ _).mp hp⟩
  · rintro ⟨w, hw⟩; exact ⟨(k, w), (h.lookup _ _).mpr hw, rfl⟩

/-- As many pairs as keys. -/
theorem length (h : Models l M) : l.length = M.keys.card := by
  have hk : (l.map Prod.fst).toFinset = M.keys := by
    ext k; rw [List.mem_toFinset, h.mem_keys, Finmap.mem_keys]
  rw [← hk, List.toFinset_card_of_nodup h.nodup, List.length_map]

end Models

end Cdsa.Core
