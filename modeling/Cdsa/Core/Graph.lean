import Mathlib.Data.List.Nodup
import Mathlib.Data.List.Perm.Lattice
import Mathlib.Logic.Function.Basic

/-!
# Graphs of partial functions

`graph ks f` lists the pairs of a partial function `f` at the arguments `ks`.
Where `ks` has every argument once, the list is determined by `f` up to order
(`graph_perm`), and changing `f` at one argument exchanges one pair
(`graph_update_perm`).
-/
namespace Cdsa.Core

variable {K P : Type}

def graph (ks : List K) (f : K → Option P) : List (K × P) :=
  ks.filterMap fun c => (f c).map fun x => (c, x)

theorem mem_graph {ks : List K} {f : K → Option P} {c : K} {x : P} :
    (c, x) ∈ graph ks f ↔ c ∈ ks ∧ f c = some x := by
  simp only [graph, List.mem_filterMap, Option.map_eq_some_iff, Prod.mk.injEq]
  constructor
  · rintro ⟨_, hc, _, hf, rfl, rfl⟩; exact ⟨hc, hf⟩
  · rintro ⟨hc, hf⟩; exact ⟨c, hc, x, hf, rfl, rfl⟩

theorem graph_keys_sublist (ks : List K) (f : K → Option P) :
    ((graph ks f).map Prod.fst).Sublist ks := by
  induction ks with
  | nil => exact List.Sublist.refl _
  | cons c ks ih =>
    rw [graph, List.filterMap_cons]
    cases h : f c with
    | none => exact ih.cons c
    | some x => exact ih.cons_cons c

theorem graph_nodup {ks : List K} (h : ks.Nodup) (f : K → Option P) :
    ((graph ks f).map Prod.fst).Nodup := (graph_keys_sublist ks f).nodup h

/-- Any list of the pairs of `f`, with each argument once, is its graph. -/
theorem graph_perm {ks : List K} (hk : ks.Nodup) (hall : ∀ c, c ∈ ks) {f : K → Option P}
    {l : List (K × P)} (hn : (l.map Prod.fst).Nodup) (hl : ∀ c x, (c, x) ∈ l ↔ f c = some x) :
    l.Perm (graph ks f) := by
  refine (List.perm_ext_iff_of_nodup hn.of_map (graph_nodup hk f).of_map).mpr fun p => ?_
  rw [mem_graph, ← hl]
  exact (and_iff_right (hall _)).symm

theorem graph_length_le (ks : List K) (f : K → Option P) : (graph ks f).length ≤ ks.length :=
  List.length_filterMap_le ..

theorem graph_congr {ks : List K} {f g : K → Option P} (h : ∀ c ∈ ks, f c = g c) :
    graph ks f = graph ks g := List.filterMap_congr fun c hc => by rw [h c hc]

variable [DecidableEq K]

/-- Changing the function at one argument: its pair leaves, the new one enters. -/
theorem graph_update_perm {ks : List K} (hk : ks.Nodup) {c : K} (hc : c ∈ ks) (f : K → Option P)
    (o : Option P) :
    ((f c).toList.map (Prod.mk c) ++ graph ks (Function.update f c o)).Perm
      (o.toList.map (Prod.mk c) ++ graph ks f) := by
  obtain ⟨k1, k2, rfl⟩ := List.append_of_mem hc
  rw [List.nodup_middle, List.nodup_cons, List.mem_append, not_or] at hk
  have h1 : graph k1 (Function.update f c o) = graph k1 f :=
    graph_congr fun d hd => Function.update_of_ne (fun he : d = c => hk.1.1 (he ▸ hd)) ..
  have h2 : graph k2 (Function.update f c o) = graph k2 f :=
    graph_congr fun d hd => Function.update_of_ne (fun he : d = c => hk.1.2 (he ▸ hd)) ..
  have hsplit : ∀ g : K → Option P, graph (k1 ++ c :: k2) g =
      graph k1 g ++ ((g c).toList.map (Prod.mk c) ++ graph k2 g) := fun g => by
    rw [graph, List.filterMap_append, List.filterMap_cons]
    cases g c <;> rfl
  rw [hsplit, hsplit, h1, h2, Function.update_self]
  -- the new pair and the old one each move past `graph k1 f`
  have key : ∀ a b : List (K × P), (a ++ (graph k1 f ++ (b ++ graph k2 f))).Perm
      (graph k1 f ++ (a ++ (b ++ graph k2 f))) := fun a b => by
    rw [← List.append_assoc, ← List.append_assoc (graph k1 f)]
    exact List.perm_append_comm.append_right _
  have swap : ∀ a b : List (K × P), (a ++ (b ++ graph k2 f)).Perm (b ++ (a ++ graph k2 f)) :=
    fun a b => by
      rw [← List.append_assoc, ← List.append_assoc b]
      exact List.perm_append_comm.append_right _
  exact (key _ _).trans (((swap _ _).append_left _).trans (key _ _).symm)

end Cdsa.Core
