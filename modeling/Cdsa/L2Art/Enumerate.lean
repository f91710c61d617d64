import Cdsa.L2Art.Walk

/-!
# The client's loop over an iterator

`cdsa_has_next_art` takes a NULL in the cache for the end. So the loop
`while (cdsa_has_next_art(it)) cdsa_next_art(it, &v)` over a tree that does not
change yields the value of every key exactly if no key is stored with NULL
(`client_enumerates_iff`).
-/
namespace Cdsa.Art

open Cdsa.Core Cdsa.Memory

variable {V : Type}

/-- The values that the loop yields, if `n` rounds are enough. -/
def clientLoop (t : CdsaArtTree V) : Nat → ArtIterator V → Option (List (Option V))
  | 0, iter => if cdsaHasNextArt t iter then none else some []
  | n + 1, iter =>
    if cdsaHasNextArt t iter then
      (cdsaNextArt t iter).bind fun r =>
        (clientLoop t n r.2.2).map fun vs => if r.1 = .ok then r.2.1 :: vs else vs
    else some []

/-- Only values that are not NULL are yielded. -/
theorem clientLoop_some {t : CdsaArtTree V} : ∀ {n : Nat} {iter : ArtIterator V}
    {vs : List (Option V)}, clientLoop t n iter = some vs → ∀ v ∈ vs, v ≠ none
  | 0, iter, vs, h => by
    rw [clientLoop] at h
    split at h
    · cases h
    · cases h
      simp
  | n + 1, iter, vs, h => by
    rw [clientLoop] at h
    split at h
    · next hnext =>
      obtain ⟨⟨s, v, iter'⟩, hr, h⟩ := Option.bind_eq_some_iff.mp h
      obtain ⟨ws, hws, rfl⟩ := Option.map_eq_some_iff.mp h
      have ih := clientLoop_some hws
      unfold cdsaNextArt at hr
      split at hr
      · cases hr
        exact ih
      · split at hr
        · cases hr
          exact ih
        · obtain ⟨it, -, he⟩ := Option.map_eq_some_iff.mp hr
          cases he
          exact List.forall_mem_cons.mpr ⟨by simp, ih⟩
    · cases h
      simp

/-- The iterator holds the value of `o`, and the leaves below its stack come after. -/
structure Ahead (t : CdsaArtTree V) (iter : ArtIterator V) (o : Option (ArtLeaf V)) : Prop where
  version : t.version = iter.snapshotVersion
  good : ∀ f ∈ iter.stack, artTraversal.Good f
  fits : artTraversal.Fits ART_MAX_DEPTH iter.stack
  cached : iter.nextValue = o.bind ArtLeaf.value
  last : o = none → iter.stack = []

/-- Every call of `advance_art_iterator` goes on to the next leaf. -/
theorem advance_ahead {t : CdsaArtTree V} {iter : ArtIterator V}
    (version : t.version = iter.snapshotVersion) (good : ∀ f ∈ iter.stack, artTraversal.Good f)
    (fits : artTraversal.Fits ART_MAX_DEPTH iter.stack) :
    ∃ iter' o, advanceArtIterator iter = some iter' ∧ Ahead t iter' o ∧
      artTraversal.leavesOf iter.stack = o.toList ++ artTraversal.leavesOf iter'.stack := by
  obtain ⟨s, o, h, good', fits', hl, hnone⟩ :=
    artTraversal.stop_spec good fits (roundsOf_le iter.stack)
  refine ⟨{ iter with stack := s, nextValue := o.bind ArtLeaf.value }, o, ?_,
    ⟨version, good', fits', rfl, hnone⟩, hl⟩
  rw [advanceArtIterator_eq, stopCall, h]
  rfl

/-- Where no value is NULL, the loop yields all that are left. -/
theorem clientLoop_ahead {t : CdsaArtTree V} : ∀ {n : Nat} {iter : ArtIterator V}
    {o : Option (ArtLeaf V)}, Ahead t iter o →
      (∀ l ∈ o.toList ++ artTraversal.leavesOf iter.stack, l.value ≠ none) →
      (o.toList ++ artTraversal.leavesOf iter.stack).length ≤ n →
      clientLoop t n iter =
        some ((o.toList ++ artTraversal.leavesOf iter.stack).map ArtLeaf.value)
  | n, iter, none, A, _, _ => by
    have hnext : cdsaHasNextArt t iter = false := by simp [cdsaHasNextArt, A.version, A.cached]
    rw [A.last rfl]
    cases n <;> simp [clientLoop, hnext, Traversal.leavesOf]
  | 0, iter, some l, A, _, hn => by simp at hn
  | n + 1, iter, some l, A, hval, hn => by
    obtain ⟨v, hv⟩ := Option.ne_none_iff_exists'.mp (hval l (by simp))
    have hcached : iter.nextValue = some v := A.cached.trans hv
    obtain ⟨iter', o', hadv, A', hl⟩ := advance_ahead A.version A.good A.fits
    rw [Option.toList_some, List.singleton_append] at hval hn ⊢
    rw [hl] at hval hn ⊢
    have ih := clientLoop_ahead (n := n) A' (fun m hm => hval m (List.mem_cons_of_mem _ hm))
      (Nat.le_of_succ_le_succ hn)
    simp only [clientLoop, cdsaHasNextArt, cdsaNextArt, A.version, ne_eq, not_true, if_false,
      hcached, Option.isSome_some, if_true, hadv, Option.map_some, Option.bind_some, ih,
      List.map_cons, hv]

theorem cdsaCreateArtIterator_ahead {t : CdsaArtTree V} (valid : t.Valid)
    (deep : t.nesting < ART_MAX_DEPTH) :
    ∃ iter o, cdsaCreateArtIterator true t = some (some iter) ∧ Ahead t iter o ∧
      t.dfs = o.toList ++ artTraversal.leavesOf iter.stack := by
  have version : t.version = (seeded t).snapshotVersion := rfl
  obtain ⟨iter, o, h, A, hl⟩ := advance_ahead version (seeded_good valid) (seeded_fits_iff.mpr deep)
  rw [seeded_leaves] at hl
  cases hr : t.root with
  | some r =>
    refine ⟨iter, o, ?_, A, hl⟩
    simp only [seeded, hr] at h
    simp only [cdsaCreateArtIterator, hr, if_true]
    exact congrArg (Option.map some) h
  | none =>
    refine ⟨⟨[], t.version, none⟩, none, by simp [cdsaCreateArtIterator, hr], ⟨rfl, by simp, trivial,
      rfl, fun _ => rfl⟩, ?_⟩
    rw [CdsaArtTree.dfs, hr]
    rfl

/-- The loop yields as many values as the tree has keys, and these are the values of
the keys, exactly if no key is stored with NULL. -/
theorem client_enumerates_iff (t : CdsaArtTree V) (built : Built t)
    (deep : t.nesting < ART_MAX_DEPTH) :
    (∃ iter n vs, cdsaCreateArtIterator true t = some (some iter) ∧
      clientLoop t n iter = some vs ∧ vs.length = cdsaSizeArt t ∧
      vs.Perm (t.leaves.map ArtLeaf.value)) ↔ ∀ l ∈ t.leaves, l.value ≠ none := by
  constructor
  · rintro ⟨iter, n, vs, -, hc, -, hp⟩ l hl
    exact clientLoop_some hc _ (hp.mem_iff.mpr (List.mem_map.mpr ⟨l, hl, rfl⟩))
  · intro hval
    have valid := built.formed.wellFormed.valid
    obtain ⟨iter, o, h, A, hl⟩ := cdsaCreateArtIterator_ahead valid deep
    have hp := valid.dfs_perm
    refine ⟨iter, t.dfs.length, t.dfs.map ArtLeaf.value, h, ?_, ?_, hp.map _⟩
    · rw [hl]
      exact clientLoop_ahead A (fun m hm => hval m (hp.mem_iff.mp (hl ▸ hm))) (Nat.le_refl _)
    · rw [List.length_map, hp.length_eq, cdsaSizeArt, built.formed.size]

/-- Two keys with values. -/
theorem client_enumerates_iff_two : ∃ (t : CdsaArtTree Nat) (iter : ArtIterator Nat) (n : Nat)
    (vs : List (Option Nat)), Built t ∧ cdsaCreateArtIterator true t = some (some iter) ∧
      clientLoop t n iter = some vs ∧ vs.length = 2 := by
  obtain ⟨t0, mem, t1, t, h0, h1, h2, hdeep, hvals⟩ : ∃ t0 mem t1 t,
      cdsaCreateArt (V := Nat) ⟨0, [], 0, fun _ => true⟩ 8 0 = some (some t0, mem) ∧
      cdsaInsertArt t0 ⟨[97], by decide⟩ (some 1) = some (.ok, t1) ∧
      cdsaInsertArt t1 ⟨[98], by decide⟩ (some 2) = some (.ok, t) ∧
      t.nesting < ART_MAX_DEPTH ∧ t.leaves.map ArtLeaf.value = [some 1, some 2] :=
    ⟨_, _, _, _, rfl, rfl, rfl, by decide +kernel, by decide +kernel⟩
  have built : Built t := .insert (.insert (.create h0) h1) h2
  obtain ⟨iter, n, vs, hc, hvs, -, hp⟩ := (client_enumerates_iff t built hdeep).mpr fun l hl => by
    have hm := List.mem_map_of_mem (f := ArtLeaf.value) hl
    rw [hvals] at hm
    intro hn
    rw [hn] at hm
    simp at hm
  exact ⟨t, iter, n, vs, built, hc, hvs, by rw [hp.length_eq, hvals]; rfl⟩

/-- "a" stored with NULL, then "b" with a value. -/
def nullFirst : List (CStr × Option Nat) :=
  [(.ofArray [97], none), (.ofArray [98], some 2)]

/-- The loop ends before it has yielded anything. -/
theorem null_value_ends_loop : ∃ (t : CdsaArtTree Nat) (iter : ArtIterator Nat), Built t ∧
    t.nesting < ART_MAX_DEPTH ∧ cdsaCreateArtIterator true t = some (some iter) ∧
    cdsaSizeArt t = 2 ∧ t.leaves.map ArtLeaf.value = [none, some 2] ∧
    ∀ n, clientLoop t n iter = some [] := by
  obtain ⟨t0, mem, h0, hrun, hfacts⟩ : ∃ t0 mem,
      cdsaCreateArt (V := Nat) ⟨0, [], 0, fun _ => true⟩ 1024 0 = some (some t0, mem) ∧
      (runOps insertStep t0 nullFirst).map Prod.fst = some [.ok, .ok] ∧
      ((runOps insertStep t0 nullFirst).bind fun r =>
        (cdsaCreateArtIterator true r.2).map fun iter => (r.2.nesting, cdsaSizeArt r.2,
          r.2.leaves.map ArtLeaf.value, iter.map (cdsaHasNextArt r.2))) =
        some (1, 2, [none, some 2], some false) := by
    refine ⟨_, _, rfl, ?_, ?_⟩ <;> decide +kernel
  obtain ⟨⟨outs, t⟩, hr, houts⟩ := Option.map_eq_some_iff.mp hrun
  rw [hr] at hfacts
  obtain ⟨o, ho, he⟩ := Option.map_eq_some_iff.mp hfacts
  simp only [Prod.mk.injEq] at he houts
  obtain ⟨hdeep, hsize, hvals, hnext⟩ := he
  obtain ⟨iter, rfl, hno⟩ := Option.map_eq_some_iff.mp hnext
  have hno : cdsaHasNextArt t iter = false := hno
  refine ⟨t, iter, (Built.create h0).run hr (by rw [houts]; decide), by rw [hdeep]; decide, ho,
    hsize, hvals, fun n => ?_⟩
  cases n <;> simp [clientLoop, hno]

end Cdsa.Art
