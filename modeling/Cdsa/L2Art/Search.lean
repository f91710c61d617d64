import Cdsa.L2Art.Prefix

/-!
# Search

A search compares ten bytes of each prefix only, but the leaf it arrives at
has the whole key. `search_stored` finds every stored key that an `int` can
measure, `search_sound` finds no other; `search_lookup` puts the two together
as the lookup of a finite map.
-/
namespace Cdsa.Art

open Cdsa.Core Cdsa.Memory

variable {V : Type} {path : List UInt8} {node : Node V}

theorem searchLoop_stored (h : Filed path node) {l : ArtLeaf V} (hl : l ∈ node.leaves)
    (short : l.key.strlen ≤ intMax) : ∀ {fuel : Nat}, l.key.strlen + 2 ≤ fuel + path.length →
      searchLoop l.key fuel node path.length = some l.value := by
  induction h with
  | @leaf path m follows =>
    intro fuel hf
    rw [leaves_leaf, List.mem_singleton] at hl
    subst hl
    have hle := follows.length_le
    rw [CStr.length_term] at hle
    obtain ⟨fuel, rfl⟩ : ∃ f, fuel = f + 1 := ⟨fuel - 1, by omega⟩
    rw [searchLoop, CStr.strcmp_self, if_pos rfl]
  | @inner path shared n coherent header occupied kids ih =>
    intro fuel hf
    obtain ⟨c, x, hc, hx⟩ := mem_leaves_inner.mp hl
    have hpre := (kids c x hc).follows l hx
    have hread := read_follows hpre
    have h0 : 0 ∉ shared := fun hm => Filed.noNul occupied kids (List.mem_append_right _ hm)
    have hle := read_le hread
    rw [List.length_append] at hle
    obtain ⟨fuel, rfl⟩ : ∃ f, fuel = f + 1 := ⟨fuel - 1, by omega⟩
    have henter := enter_follows header h0 short ((List.prefix_append _ _).trans hpre) hle
    have hih := @ih c x hc hx fuel (by
      rw [List.length_append, List.length_append, List.length_singleton]; omega)
    rw [List.length_append, List.length_singleton] at hih
    rw [searchLoop, henter, Option.bind_some]
    simp only [hread, Option.bind_some, hc]
    exact hih

/-- A search returns, and what it returns is stored under the key. -/
theorem searchLoop_sound {key : CStr} (h : Filed path node) : Shallow path.length node →
    ∀ {fuel : Nat}, Fits key path → key.strlen + 2 ≤ fuel + path.length →
      ∃ v, searchLoop key fuel node path.length = some v ∧
        (v = none ∨ ∃ l ∈ node.leaves, l.key = key ∧ v = l.value) := by
  induction h with
  | @leaf path l _ =>
    intro _ fuel fits hf
    have := fits.le
    obtain ⟨fuel, rfl⟩ : ∃ f, fuel = f + 1 := ⟨fuel - 1, by omega⟩
    rw [searchLoop]
    split
    · next he => exact ⟨_, rfl, Or.inr ⟨l, by simp, CStr.strcmp_eq_zero.mp he, rfl⟩⟩
    · exact ⟨_, rfl, Or.inl rfl⟩
  | @inner path shared n coherent header occupied kids ih =>
    intro hs fuel fits hf
    cases hs with | inner bound shallow => ?_
    rw [header.len] at bound shallow
    have hn := Filed.noNul occupied kids
    have hle := fits.inner fun hm => hn (List.mem_append_left _ hm)
    obtain ⟨fuel, rfl⟩ : ∃ f, fuel = f + 1 := ⟨fuel - 1, by omega⟩
    rw [searchLoop]
    rcases enter_cases header (fun hm => hn (List.mem_append_right _ hm)) hle bound with
      ⟨he, -⟩ | ⟨he, -⟩ | ⟨he, hin⟩
    · rw [he]; exact ⟨_, rfl, Or.inl rfl⟩
    · rw [he]; exact ⟨_, rfl, Or.inl rfl⟩
    · rw [← List.length_append] at he hin
      obtain ⟨c, hc⟩ := read_some hin
      rw [he, Option.bind_some]
      simp only [hc, Option.bind_some]
      cases hx : n.look c with
      | none => exact ⟨_, rfl, Or.inl rfl⟩
      | some x =>
        have hlen : (path ++ shared ++ [c]).length = path.length + shared.length + 1 := by
          rw [List.length_append, List.length_append, List.length_singleton]
        have hih := @ih c x hx (hlen ▸ shallow c x hx) fuel (.read hc) (by rw [hlen]; omega)
        rw [List.length_append, List.length_singleton] at hih
        obtain ⟨v, hv, hor⟩ := hih
        refine ⟨v, hv, hor.imp_right ?_⟩
        intro ⟨l, hl, hkey⟩
        exact ⟨l, mem_leaves_inner.mpr ⟨c, x, hx, hl⟩, hkey⟩

/-! ## Trees -/

/-- The leaves reachable from the root. -/
def CdsaArtTree.leaves (t : CdsaArtTree V) : List (ArtLeaf V) := leavesAt t.root

/-- The pairs stored in some leaves. -/
def pairs (ls : List (ArtLeaf V)) : List (CStr × Option V) := ls.map fun l => (l.key, l.value)

/-- Every key is where a search looks for it. -/
def CdsaArtTree.Filed (t : CdsaArtTree V) : Prop := ∀ r, t.root = some r → Art.Filed [] r

/-- No prefix ends where an `int` cannot say. -/
def CdsaArtTree.Shallow (t : CdsaArtTree V) : Prop := ∀ r, t.root = some r → Art.Shallow 0 r

/-- The tree is well formed and counts its leaves. -/
structure Formed (Q : NodeType → Nat → Nat → Prop) (t : CdsaArtTree V) : Prop where
  shape : ∀ r, t.root = some r → WF Q [] r
  size : t.env.size = t.leaves.length

theorem Formed.filed {Q : NodeType → Nat → Nat → Prop} {t : CdsaArtTree V} (h : Formed Q t) :
    t.Filed := fun r hr => (h.shape r hr).filed

theorem Formed.shallow {Q : NodeType → Nat → Nat → Prop} {t : CdsaArtTree V} (h : Formed Q t) :
    t.Shallow := fun r hr => (h.shape r hr).shallow

theorem CdsaArtTree.Filed.shallow {t : CdsaArtTree V} (h : t.Filed)
    (short : ∀ l ∈ t.leaves, l.key.strlen ≤ intMax) : t.Shallow := fun r hr =>
  (h r hr).shallow fun l hl => short l (by rwa [CdsaArtTree.leaves, hr, leavesAt_some])

theorem search_stored {t : CdsaArtTree V} (h : t.Filed) {l : ArtLeaf V} (hl : l ∈ t.leaves)
    (short : l.key.strlen ≤ intMax) : cdsaSearchArt t l.key = some l.value := by
  unfold CdsaArtTree.leaves at hl
  unfold cdsaSearchArt
  cases hr : t.root with
  | none => rw [hr] at hl; cases hl
  | some r =>
    rw [hr, leavesAt_some] at hl
    exact searchLoop_stored (h r hr) hl short (Nat.le_refl _)

theorem search_sound {t : CdsaArtTree V} (h : t.Filed) (hs : t.Shallow) (key : CStr) :
    ∃ v, cdsaSearchArt t key = some v ∧ (v = none ∨ ∃ l ∈ t.leaves, l.key = key ∧ v = l.value) := by
  unfold CdsaArtTree.leaves cdsaSearchArt
  cases hr : t.root with
  | none => exact ⟨none, rfl, Or.inl rfl⟩
  | some r =>
    rw [leavesAt_some]
    exact searchLoop_sound (h r hr) (hs r hr) (.nil key) (Nat.le_refl _)

theorem search_absent {t : CdsaArtTree V} (h : t.Filed) (hs : t.Shallow) {key : CStr}
    (habs : ∀ l ∈ t.leaves, l.key ≠ key) : cdsaSearchArt t key = some none := by
  obtain ⟨v, hv, rfl | ⟨l, hl, he, -⟩⟩ := search_sound h hs key
  · exact hv
  · exact absurd he (habs l hl)

theorem CdsaArtTree.Filed.keys_nodup {t : CdsaArtTree V} (h : t.Filed) :
    ((pairs t.leaves).map Prod.fst).Nodup := by
  have hk : (pairs t.leaves).map Prod.fst = t.leaves.map ArtLeaf.key := by simp [pairs]
  rw [hk, CdsaArtTree.leaves]
  cases hr : t.root with
  | none => simp
  | some r => rw [leavesAt_some]; exact (h r hr).keys_nodup

/-- Where no stored key is longer than an `int` can say, search is the lookup
of the finite map of the leaves. -/
theorem search_lookup {t : CdsaArtTree V} (h : t.Filed)
    (short : ∀ l ∈ t.leaves, l.key.strlen ≤ intMax) {M : FMap CStr (Option V)}
    (hM : Models (pairs t.leaves) M) (key : CStr) :
    cdsaSearchArt t key = some (M.lookup key).join := by
  by_cases hk : ∃ l ∈ t.leaves, l.key = key
  · obtain ⟨l, hl, rfl⟩ := hk
    have hm : (l.key, l.value) ∈ pairs t.leaves := List.mem_map.mpr ⟨l, hl, rfl⟩
    rw [search_stored h hl (short l hl), (hM.lookup _ _).mp hm]; rfl
  · have hno : M.lookup key = none := by
      refine Option.eq_none_iff_forall_ne_some.mpr fun v hv => hk ?_
      obtain ⟨l, hl, he⟩ := List.mem_map.mp ((hM.lookup key v).mpr hv)
      exact ⟨l, hl, congrArg Prod.fst he⟩
    rw [hno]
    exact search_absent h (h.shallow short) fun l hl he => hk ⟨l, hl, he⟩

end Cdsa.Art
