import Cdsa.L2Art.Refine

/-!
# Deleting an absent key

In a tree built by insertions, deleting a key that is not stored changes
nothing, except where the walk meets a node whose stored prefix bytes match
while the prefix reaches past the end of the key: `recursive_delete` then
answers NULL for the whole subtree, the caller writes that over the child
pointer, and the leaves below are lost while `size` still counts them
(`delete_absent_iff`).
-/
namespace Cdsa.Art

open Cdsa.Core Cdsa.Memory

variable {V : Type}

/-- A tree that successful insertions have built. -/
inductive Built : CdsaArtTree V → Prop
  | create {mem mem' : Mem} {nodesPerTier version : Nat} {t : CdsaArtTree V}
    (h : cdsaCreateArt mem nodesPerTier version = some (some t, mem')) : Built t
  | insert {t t' : CdsaArtTree V} {key : CStr} {value : Option V} (hb : Built t)
    (h : cdsaInsertArt t key value = some (.ok, t')) : Built t'

theorem cdsaCreateArt_empty {mem mem' : Mem} {nodesPerTier version : Nat} {t : CdsaArtTree V}
    (h : cdsaCreateArt mem nodesPerTier version = some (some t, mem')) :
    t.root = none ∧ t.env.size = 0 := by
  unfold cdsaCreateArt at h
  cases hm : cdsaMallocTrack mem 32 with
  | mk p mem1 =>
    rw [hm] at h
    cases p with
    | none => cases h
    | some self =>
      obtain ⟨⟨slab, mem2⟩, -, h⟩ := Option.bind_eq_some_iff.mp h
      cases slab with
      | none =>
        obtain ⟨mem3, -, h⟩ := Option.map_eq_some_iff.mp h
        cases h
      | some slab => cases h; exact ⟨rfl, rfl⟩

theorem Built.formed {t : CdsaArtTree V} (h : Built t) : Formed Exact t := by
  induction h with
  | create h =>
    obtain ⟨hroot, hsize⟩ := cdsaCreateArt_empty h
    refine ⟨fun r hr => (by rw [hroot] at hr; cases hr), ?_⟩
    rw [hsize, CdsaArtTree.leaves, hroot]; rfl
  | @insert t t' key value _ h ih =>
    have hi := cdsaInsertArt_stored exact_grows ih key value
    rw [h] at hi
    cases hi with
    | replaced formed => exact formed
    | added formed => exact formed

/-- A run of insertions that all answer `CDSA_OK`. -/
theorem Built.run : ∀ {kvs : List (CStr × Option V)} {t t' : CdsaArtTree V} {outs : List Status},
    Built t → runOps insertStep t kvs = some (outs, t') → (∀ s ∈ outs, s = .ok) → Built t'
  | [], t, t', outs, h, hr, _ => by cases hr; exact h
  | q :: kvs, t, t', outs, h, hr, hok => by
    obtain ⟨⟨s, t1⟩, h1, hr⟩ := Option.bind_eq_some_iff.mp hr
    obtain ⟨⟨outs', t2⟩, h2, he⟩ := Option.map_eq_some_iff.mp hr
    cases he
    have hs : s = .ok := hok s List.mem_cons_self
    subst hs
    exact Built.run (.insert h h1) h2 fun s hs => hok s (List.mem_cons_of_mem _ hs)

/-- A deletion stays below the node it started from. -/
theorem Visits.leaves {key : CStr} {node : Node V} {m : Inner (Node V)} {depth d : Nat}
    (h : Visits key node depth m d) : ∀ l ∈ (Node.inner m).leaves, l ∈ node.leaves := by
  induction h with
  | here => exact fun l hl => hl
  | down _ _ hlook _ ih => exact fun l hl => mem_leaves_inner.mpr ⟨_, _, hlook, ih l hl⟩

/-- Only a stored key has a leaf to take. -/
theorem TakesFromTree.stored {key : CStr} {t : CdsaArtTree V} {m : Inner (Node V)}
    (h : TakesFromTree key t m) : ∃ l ∈ t.leaves, l.key = key := by
  obtain ⟨r, hr, d, f, c, l, hv, -, -, hl, hkey⟩ := h
  refine ⟨l, ?_, hkey⟩
  rw [CdsaArtTree.leaves, hr, leavesAt_some]
  exact hv.leaves l (mem_leaves_inner.mpr ⟨c, _, hl, by simp⟩)

/-- `Exact` where no leaf is taken at all. -/
theorem exact_shrinks_never : Shrinks Exact fun _ _ _ => False where
  two _ _ _ _ h := h.elim
  node4 _ _ _ h := h.elim
  node16 _ _ _ h := h.elim
  node48 _ _ _ h := h.elim
  node256 _ _ _ h := h.elim
  down16 := by simp [Exact, NodeType.capacity]
  down48 := by simp [Exact, NodeType.capacity]

/-- Deleting an absent key is a no-op exactly if the walk does not cut. -/
theorem delete_absent_iff (t : CdsaArtTree V) (h : Built t) (key : CStr)
    (habs : key ∉ t.leaves.map ArtLeaf.key) :
    (∃ t', cdsaDeleteArt t key = some (.errNotFound, t') ∧
      (∀ k, cdsaSearchArt t' k = cdsaSearchArt t k) ∧ cdsaSizeArt t' = t'.leaves.length) ↔
      ¬ CutsTree key t := by
  have hno : ∀ l ∈ t.leaves, l.key ≠ key := fun l hl he =>
    habs (List.mem_map.mpr ⟨l, hl, he⟩)
  have hd := cdsaDeleteArt_discarded exact_shrinks_never h.formed key fun m hm =>
    let ⟨l, hl, he⟩ := hm.stored
    hno l hl he
  generalize cdsaDeleteArt t key = res at hd
  cases hd with
  | undefined hl hkey => exact absurd hkey (hno _ hl)
  | absent _ whole =>
    exact ⟨fun _ => whole, fun _ => ⟨t, rfl, fun _ => rfl, h.formed.size⟩⟩
  | @cut t' lost cuts some_lost before env =>
    refine ⟨fun ⟨t1, he, _, hsize⟩ => ?_, fun hn => absurd cuts hn⟩
    cases he
    -- the lost leaves are still counted
    have hlen := before.length_eq
    rw [List.length_append, ← h.formed.size] at hlen
    have hpos := List.length_pos_iff.mpr some_lost
    rw [cdsaSizeArt, env] at hsize
    omega
  | removed hkey _ before =>
    exact absurd hkey (hno _ (before.mem_iff.mpr List.mem_cons_self))

/-- Twelve letters a and one more byte. -/
def aaaKey (c : UInt8) (h : c ≠ 0) : CStr := ⟨List.replicate 12 97 ++ [c], by simp [Ne.symm h]⟩

/-- Two keys that share twelve bytes, and the absent key of ten of them. -/
theorem delete_absent_loses : ∃ (t t' : CdsaArtTree Nat), Built t ∧
    (⟨List.replicate 10 97, by decide⟩ : CStr) ∉ t.leaves.map ArtLeaf.key ∧
    cdsaDeleteArt t ⟨List.replicate 10 97, by decide⟩ = some (.errNotFound, t') ∧
    cdsaSearchArt t (aaaKey 88 (by decide)) = some (some 1) ∧
    cdsaSearchArt t' (aaaKey 88 (by decide)) = some none ∧
    cdsaSizeArt t' = 2 ∧ t'.leaves.length = 0 := by
  obtain ⟨t0, mem, h0, hrun, hkeys, hdel⟩ : ∃ t0 mem,
      cdsaCreateArt (V := Nat) ⟨0, [], 0, fun _ => true⟩ 1024 0 = some (some t0, mem) ∧
      (runOps insertStep t0 [(aaaKey 88 (by decide), some 1), (aaaKey 89 (by decide), some 2)]).map
        Prod.fst = some [.ok, .ok] ∧
      (runOps insertStep t0 [(aaaKey 88 (by decide), some 1), (aaaKey 89 (by decide), some 2)]).map
        (fun r => r.2.leaves.map ArtLeaf.key) = some [aaaKey 88 (by decide), aaaKey 89 (by decide)] ∧
      ((runOps insertStep t0 [(aaaKey 88 (by decide), some 1), (aaaKey 89 (by decide), some 2)]).bind
        fun r => (cdsaDeleteArt r.2 ⟨List.replicate 10 97, by decide⟩).map fun q =>
          (q.1, cdsaSearchArt r.2 (aaaKey 88 (by decide)),
            cdsaSearchArt q.2 (aaaKey 88 (by decide)), q.2.env.size, q.2.leaves.length)) =
        some (.errNotFound, some (some 1), some none, 2, 0) := by
    refine ⟨_, _, rfl, ?_, ?_, ?_⟩ <;> decide +kernel
  obtain ⟨⟨outs, t⟩, hr, houts⟩ := Option.map_eq_some_iff.mp hrun
  rw [hr] at hkeys hdel
  obtain ⟨⟨s, t'⟩, hd, he⟩ := Option.map_eq_some_iff.mp hdel
  simp only [Prod.mk.injEq] at he houts
  obtain ⟨rfl, hs, hs', hsize, hlen⟩ := he
  refine ⟨t, t', (Built.create h0).run hr (by rw [houts]; decide), ?_, hd, hs, hs', hsize, hlen⟩
  rw [show t.leaves.map ArtLeaf.key = _ from Option.some.inj hkeys]
  decide

/-- The absent key "b" against "ab" and "ac". -/
theorem delete_absent_iff_other : ∃ (t t' : CdsaArtTree Nat), t.leaves.length = 2 ∧
    cdsaDeleteArt t ⟨[98], by decide⟩ = some (.errNotFound, t') ∧
    (∀ k, cdsaSearchArt t' k = cdsaSearchArt t k) ∧ cdsaSizeArt t' = t'.leaves.length := by
  obtain ⟨t0, mem, t1, t, h0, h1, h2, hkeys, n, hroot, henter⟩ : ∃ t0 mem t1 t,
      cdsaCreateArt (V := Nat) ⟨0, [], 0, fun _ => true⟩ 8 0 = some (some t0, mem) ∧
      cdsaInsertArt t0 ⟨[97, 98], by decide⟩ (some 1) = some (.ok, t1) ∧
      cdsaInsertArt t1 ⟨[97, 99], by decide⟩ (some 2) = some (.ok, t) ∧
      t.leaves.map ArtLeaf.key = [⟨[97, 98], by decide⟩, ⟨[97, 99], by decide⟩] ∧
      ∃ n, t.root = some (.inner n) ∧ enter n.header ⟨[98], by decide⟩ 0 = some .mismatch :=
    ⟨_, _, _, _, rfl, rfl, rfl, by decide +kernel, _, rfl, by decide +kernel⟩
  have hcut : ¬ CutsTree ⟨[98], by decide⟩ t := fun ⟨r, hr, hc⟩ => by
    rw [hroot] at hr
    cases hr
    rcases hc.cases with hp | ⟨_, _, _, hp, _⟩ <;> rw [henter] at hp <;> cases hp
  obtain ⟨t', hd, hs, hsize⟩ :=
    (delete_absent_iff t (.insert (.insert (.create h0) h1) h2) ⟨[98], by decide⟩
      (by rw [hkeys]; decide)).mpr hcut
  exact ⟨t, t', by rw [← List.length_map (f := ArtLeaf.key), hkeys]; rfl, hd, hs, hsize⟩

end Cdsa.Art
