import Cdsa.L2Art.Forks
import Cdsa.L2Art.Print
import Cdsa.L2Art.Room

/-!
# The buffers of fixed depth

The iterator has a stack of 512 frames and `print_art` an array of 256 flags;
nothing checks that a tree nests no deeper. How deep it nests is up to its keys
(`nesting_le_iff`), and 1024 blocks are enough for keys that overrun both
(`nested_keys_overrun`).
-/
namespace Cdsa.Art

open Cdsa.Core Cdsa.Memory

variable {V : Type}

/-- The calls come to an end exactly if the stack has room. -/
theorem iteration_returns {t : CdsaArtTree V} (valid : t.Valid) :
    (∃ n ls, stopsLoop n (seeded t) = some ls) ↔ t.nesting < ART_MAX_DEPTH := by
  constructor
  · rintro ⟨n, ls, h⟩
    by_contra hdeep
    have hlen : (seeded t).stack.length ≤ ART_MAX_DEPTH := by
      rw [seeded, List.length_map]
      exact (show _ ≤ 1 by cases t.root <;> simp).trans (by decide)
    have hnone : stops stopCall n (seeded t).stack = none :=
      artTraversal.stops_unfit (seeded_good valid) (fun hf => hdeep (seeded_fits_iff.mp hf)) hlen
    rw [stopsLoop_eq, hnone] at h
    cases h
  · intro hdeep
    exact ⟨_, _, (dfs_visits_each_leaf_once t valid hdeep).1⟩

/-- A run of insertions that all answer `CDSA_OK` stores their keys. -/
theorem run_keys : ∀ {kvs : List (CStr × Option V)} {t t' : CdsaArtTree V} {outs : List Status},
    Formed Exact t → runOps insertStep t kvs = some (outs, t') → (∀ s ∈ outs, s = .ok) →
      ∀ k, k ∈ t'.leaves.map ArtLeaf.key ↔ k ∈ t.leaves.map ArtLeaf.key ∨ k ∈ kvs.map Prod.fst
  | [], t, t', outs, _, h, _, k => by cases h; simp
  | q :: kvs, t, t', outs, hform, h, hok, k => by
    obtain ⟨⟨s, t1⟩, h1, h⟩ := Option.bind_eq_some_iff.mp h
    obtain ⟨⟨outs', t2⟩, h2, he⟩ := Option.map_eq_some_iff.mp h
    cases he
    have hs : s = .ok := hok s List.mem_cons_self
    subst hs
    have hi := cdsaInsertArt_stored exact_grows hform q.1 q.2
    rw [show cdsaInsertArt t q.1 q.2 = some (.ok, t1) from h1] at hi
    have hkeys : Formed Exact t1 ∧
        (k ∈ t1.leaves.map ArtLeaf.key ↔ k = q.1 ∨ k ∈ t.leaves.map ArtLeaf.key) := by
      cases hi with
      | replaced formed hkey before after =>
        refine ⟨formed, ?_⟩
        rw [(before.map ArtLeaf.key).mem_iff, (after.map ArtLeaf.key).mem_iff]
        simp [hkey]
      | added formed _ hkey _ after =>
        refine ⟨formed, ?_⟩
        rw [(after.map ArtLeaf.key).mem_iff]
        simp [hkey]
    rw [run_keys hkeys.1 h2 (fun s hs => hok s (List.mem_cons_of_mem _ hs)) k, hkeys.2, List.map_cons,
      List.mem_cons]
    tauto

theorem Built.nesting_le_iff {t : CdsaArtTree V} (built : Built t) (h : Nat) :
    t.nesting ≤ h ↔
      ∀ k ∈ t.leaves.map ArtLeaf.key, (forks (t.leaves.map ArtLeaf.key) k).card ≤ h := by
  have hform := built.formed
  rw [List.forall_mem_map, CdsaArtTree.nesting, CdsaArtTree.leaves]
  cases hr : t.root with
  | none => simp
  | some r =>
    rw [leavesAt_some]
    exact Art.nesting_le_iff (hform.shape r hr).filed (fun m hm => by
      obtain ⟨valid, count⟩ := hform.wellFormed.counts r m hr hm
      exact ⟨valid, count.2.1⟩) h

/-- The keys of a tree that was empty before the run. -/
theorem created_keys {mem mem' : Mem} {nodesPerTier version : Nat} {t0 t : CdsaArtTree V}
    (hc : cdsaCreateArt mem nodesPerTier version = some (some t0, mem'))
    {kvs : List (CStr × Option V)} {outs : List Status}
    (hr : runOps insertStep t0 kvs = some (outs, t)) (hok : ∀ s ∈ outs, s = .ok) (k : CStr) :
    k ∈ t.leaves.map ArtLeaf.key ↔ k ∈ kvs.map Prod.fst := by
  rw [run_keys (Built.create hc).formed hr hok, CdsaArtTree.leaves, (cdsaCreateArt_empty hc).1]
  simp

/-- A complete iteration and a printout both stay inside their buffers exactly if no
inserted key parts from the others at more than 256 different lengths. -/
theorem buffers_fit_iff {mem mem' : Mem} {nodesPerTier version : Nat} {t0 t : CdsaArtTree V}
    (hc : cdsaCreateArt mem nodesPerTier version = some (some t0, mem'))
    {kvs : List (CStr × Option V)} {outs : List Status}
    (hr : runOps insertStep t0 kvs = some (outs, t)) (hok : ∀ s ∈ outs, s = .ok) :
    ((∃ n ls, stopsLoop n (seeded t) = some ls) ∧ ∃ lines, printArt t = some lines) ↔
      ∀ q ∈ kvs, (forks (kvs.map Prod.fst) q.1).card ≤ 256 := by
  have built := (Built.create hc).run hr hok
  have valid := built.formed.wellFormed.valid
  have hkeys := created_keys hc hr hok
  have hnest : t.nesting ≤ 256 ↔ ∀ q ∈ kvs, (forks (kvs.map Prod.fst) q.1).card ≤ 256 := by
    rw [built.nesting_le_iff]
    simp only [hkeys, forks_congr hkeys, List.forall_mem_map]
  rw [iteration_returns valid, ← Option.isSome_iff_exists, printArt_returns valid, ← hnest]
  exact and_iff_right_of_imp fun h => Nat.lt_of_le_of_lt h (by decide)

/-! ## Keys that are prefixes of each other -/

/-- The keys "a", "aa", "aaa", … -/
def nestedKeys (n : Nat) : List (CStr × Option Nat) :=
  (List.range n).map fun i => (longKey (i + 1), some i)

theorem agree_replicate (c : UInt8) : ∀ i j : Nat,
    agree (List.replicate i c) (List.replicate j c) = min i j
  | 0, j => by simp [agree]
  | i + 1, 0 => by simp [agree, List.replicate_succ]
  | i + 1, j + 1 => by
    rw [List.replicate_succ, List.replicate_succ, agree, if_pos rfl, agree_replicate c i j]
    omega

/-- The longest key shares a length with each of the others. -/
theorem nestedKeys_forks (n : Nat) :
    n ≤ (forks ((nestedKeys (n + 1)).map Prod.fst) (longKey (n + 1))).card := by
  have hsub : (Finset.range n).image (· + 1) ⊆
      forks ((nestedKeys (n + 1)).map Prod.fst) (longKey (n + 1)) := fun i hi => by
    obtain ⟨j, hj, rfl⟩ := Finset.mem_image.mp hi
    have hj := Finset.mem_range.mp hj
    refine mem_forks.mpr ⟨longKey (j + 1), ?_, fun he => ?_, ?_⟩
    · rw [nestedKeys, List.map_map]
      exact List.mem_map.mpr ⟨j, List.mem_range.mpr (by omega), rfl⟩
    · have := congrArg CStr.strlen he
      rw [longKey_strlen, longKey_strlen] at this
      omega
    · exact (agree_replicate 97 (n + 1) (j + 1)).trans (by omega)
  have := Finset.card_le_card hsub
  rwa [Finset.card_image_of_injective _ (fun _ _ => Nat.succ.inj), Finset.card_range] at this

/-- A fresh tree has 1024 blocks of every type. -/
theorem nested_run {n : Nat} (hn : n ≤ 1024) : ∃ (t0 t : CdsaArtTree Nat) (mem : Mem)
    (outs : List Status), cdsaCreateArt ⟨0, [], 0, fun _ => true⟩ 1024 0 = some (some t0, mem) ∧
      runOps insertStep t0 (nestedKeys n) = some (outs, t) ∧ ∀ s ∈ outs, s = .ok := by
  obtain ⟨t0, mem, hc, hfree, hnever⟩ : ∃ (t0 : CdsaArtTree Nat) (mem : Mem),
      cdsaCreateArt ⟨0, [], 0, fun _ => true⟩ 1024 0 = some (some t0, mem) ∧
      (∀ type, (t0.env.free type).length = 1024) ∧ t0.env.mem.NeverFails :=
    ⟨_, _, rfl, fun type => by cases type <;> decide +kernel, fun _ => rfl⟩
  have hnil : t0.leaves = [] := by rw [CdsaArtTree.leaves, (cdsaCreateArt_empty hc).1, leavesAt_none]
  have hlen : (nestedKeys n).length = n := by rw [nestedKeys, List.length_map, List.length_range]
  obtain ⟨outs, t, hr, -, hend⟩ := insert_run (nestedKeys n) t0 ∅ (Built.create hc).formed
    (by simp [hnil]) hnever (fun q hq => by
      obtain ⟨i, hi, rfl⟩ := List.mem_map.mp hq
      rw [longKey_strlen]
      exact Nat.le_trans (List.mem_range.mp hi) (Nat.le_trans hn (by decide)))
    (by rw [hnil]; exact .nil)
  refine ⟨t0, t, mem, outs, hc, hr, (hend (run_draws (fun type => ?_) hr)).1⟩
  rw [hlen, hfree]
  exact hn

/-- "a" and "aa" leave both buffers alone. -/
theorem buffers_fit_iff_two : ∃ (t0 t : CdsaArtTree Nat) (outs : List Status),
    runOps insertStep t0 (nestedKeys 2) = some (outs, t) ∧
      (∃ n ls, stopsLoop n (seeded t) = some ls) ∧ ∃ lines, printArt t = some lines := by
  obtain ⟨t0, t, mem, outs, hc, hr, hok⟩ := nested_run (n := 2) (by decide)
  exact ⟨t0, t, outs, hr, (buffers_fit_iff hc hr hok).mpr (by decide +kernel)⟩

/-- Six hundred keys overrun both. -/
theorem nested_keys_overrun : ∃ (t0 t : CdsaArtTree Nat) (mem : Mem) (outs : List Status),
    cdsaCreateArt ⟨0, [], 0, fun _ => true⟩ 1024 0 = some (some t0, mem) ∧
      runOps insertStep t0 (nestedKeys 600) = some (outs, t) ∧ (∀ s ∈ outs, s = .ok) ∧
      (∀ n, stopsLoop n (seeded t) = none) ∧ printArt t = none := by
  obtain ⟨t0, t, mem, outs, hc, hr, hok⟩ := nested_run (n := 600) (by decide)
  have built := (Built.create hc).run hr hok
  have valid := built.formed.wellFormed.valid
  have hdeep : 599 ≤ t.nesting := by
    by_contra hlt
    have hkeys := created_keys hc hr hok
    have hlong : longKey 600 ∈ (nestedKeys 600).map Prod.fst := by
      rw [nestedKeys, List.map_map]
      exact List.mem_map.mpr ⟨599, List.mem_range.mpr (by omega), rfl⟩
    have hle := (built.nesting_le_iff 598).mp (by omega) _ ((hkeys _).mpr hlong)
    rw [forks_congr hkeys] at hle
    have hforks : 599 ≤ (forks ((nestedKeys 600).map Prod.fst) (longKey 600)).card :=
      nestedKeys_forks 599
    omega
  refine ⟨t0, t, mem, outs, hc, hr, hok, fun n => ?_, ?_⟩
  · refine Option.eq_none_iff_forall_ne_some.mpr fun ls h => ?_
    have := (iteration_returns valid).mp ⟨n, ls, h⟩
    have hmax : ART_MAX_DEPTH = 512 := rfl
    omega
  · refine Option.not_isSome_iff_eq_none.mp fun h => ?_
    have := (printArt_returns valid).mp h
    omega

end Cdsa.Art
