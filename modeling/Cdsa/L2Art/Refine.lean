import Cdsa.L2Art.Ops

/-!
# Insertion and search refine a finite map

`Exact`: `num_children` is the number of children, at least two and no more
than the layout holds. For trees with exact counts whose keys an `int` can
measure, inserting is updating a finite map, and search and size are its lookup
and its cardinality (`insert_refines_finite_map`).

Longer keys are different: behind a compressed prefix their length, converted
to `int`, is negative (`long_key_refused`, `long_key_hidden`).
-/
namespace Cdsa.Art

open Cdsa.Core Cdsa.Memory

variable {V : Type}

def Exact (t : NodeType) (n k : Nat) : Prop := n = k ∧ 2 ≤ k ∧ k ≤ t.capacity

theorem exact_grows : Grows Exact where
  pair := by simp [Exact, NodeType.capacity]
  add t k _ hk h := ⟨rfl, by have := h.2.1; omega, hk⟩
  add256 n k hk h := by
    obtain ⟨rfl, h2, -⟩ := h
    exact ⟨Nat.mod_eq_of_lt (by omega), by omega, hk⟩
  grow4 := by simp [Exact, NodeType.capacity]
  grow16 := by simp [Exact, NodeType.capacity]
  grow48 := by simp [Exact, NodeType.capacity]

theorem exact_stalls : Stalls Exact := by
  constructor <;> simp [Exact, NodeType.capacity]

/-! ## One insertion -/

/-- Without `key`, the leaves besides the one of `key`. -/
theorem del_pairs {ls rest : List (ArtLeaf V)} {l : ArtLeaf V} (hp : ls.Perm (l :: rest))
    (hn : ((pairs ls).map Prod.fst).Nodup) : (del l.key (pairs ls)).Perm (pairs rest) := by
  have hpp : (pairs ls).Perm ((l.key, l.value) :: pairs rest) := hp.map _
  have hn' := (hpp.map Prod.fst).nodup_iff.mp hn
  rw [List.map_cons, List.nodup_cons] at hn'
  refine (del_perm hpp).trans ?_
  have hd : del l.key ((l.key, l.value) :: pairs rest) = del l.key (pairs rest) := by simp [del]
  rw [hd, del_eq_self hn'.1]

/-- The prefixes and filing bytes are right, the nodes are valid with exact counts
of two at least, and the tree counts its leaves, however long the keys are. -/
structure WellFormed (t : CdsaArtTree V) : Prop where
  filed : t.Filed
  counts : ∀ r m, t.root = some r → r.Has m → m.Valid ∧ m.Counts Exact
  size : t.env.size = t.leaves.length

theorem Formed.wellFormed {t : CdsaArtTree V} (h : Formed Exact t) : WellFormed t := by
  refine ⟨h.filed, fun r m hr hm => ?_, h.size⟩
  obtain ⟨path, hwf⟩ := WF.has hm (h.shape r hr)
  cases hwf with
  | inner valid _ _ _ count _ => exact ⟨valid, count⟩

theorem WellFormed.formed {t : CdsaArtTree V} (h : WellFormed t)
    (short : ∀ l ∈ t.leaves, l.key.strlen ≤ intMax) : Formed Exact t := by
  refine ⟨fun r hr => (h.filed r hr).wf (fun m hm => h.counts r m hr hm) fun l hl => ?_, h.size⟩
  refine short l ?_
  rwa [CdsaArtTree.leaves, hr, leavesAt_some]

/-- What one insertion into a tree of short keys comes to. -/
theorem insert_step {t : CdsaArtTree V} (h : Formed Exact t)
    (short : ∀ l ∈ t.leaves, l.key.strlen ≤ intMax) {key : CStr} (hk : key.strlen ≤ intMax)
    (value : Option V) (granted : t.env.mem.answers t.env.mem.asked = true) :
    ∃ s t', cdsaInsertArt t key value = some (s, t') ∧ Formed Exact t' ∧
      (∀ l ∈ t'.leaves, l.key.strlen ≤ intMax) ∧ t'.env.mem.answers = t.env.mem.answers ∧
      (t.env.failed < t'.env.failed ∨ t'.env.failed = t.env.failed ∧ s = .ok ∧
        (pairs t'.leaves).Perm (upd key value (pairs t.leaves)) ∧
        (key ∈ t.leaves.map ArtLeaf.key ∧ t'.env.size = t.env.size ∨
          key ∉ t.leaves.map ArtLeaf.key ∧ t'.env.size = t.env.size + 1)) := by
  have hi := cdsaInsertArt_stored exact_grows h key value
  have hn := h.filed.keys_nodup
  generalize cdsaInsertArt t key value = res at hi
  cases hi with
  | undefined refused =>
    rcases refused with hno | ⟨l, -, hbig⟩
    · rw [granted] at hno; cases hno
    · have := agree_le_right (a := l.key.bytes) (b := key.bytes)
      unfold CStr.strlen at hk; omega
  | @replaced l rest t' formed hkey before after self env =>
    subst hkey
    refine ⟨_, _, rfl, formed, fun m hm => ?_, by rw [env], Or.inr ⟨by rw [env], rfl, ?_, Or.inl
      ⟨?_, by rw [env]⟩⟩⟩
    · rcases List.mem_cons.mp (after.mem_iff.mp hm) with rfl | hm
      · exact hk
      · exact short m (before.mem_iff.mpr (List.mem_cons_of_mem _ hm))
    · exact (after.map _).trans ((del_pairs before hn).symm.cons _)
    · exact List.mem_map.mpr ⟨l, before.mem_iff.mpr List.mem_cons_self, rfl⟩
  | @added l t' formed fresh hkey hvalue after self grown =>
    have hno : key ∉ t.leaves.map ArtLeaf.key := fun hm => by
      obtain ⟨m, hm, he⟩ := List.mem_map.mp hm
      exact fresh m hm he
    refine ⟨_, _, rfl, formed, fun m hm => ?_, ?_, Or.inr ⟨grown.failed, rfl, ?_, Or.inr
      ⟨hno, grown.size⟩⟩⟩
    · rcases List.mem_cons.mp (after.mem_iff.mp hm) with rfl | hm
      · exact hkey ▸ hk
      · exact short m hm
    · have := cdsaMallocTrack_answers t.env.mem (l.key.strlen + 1)
      rwa [show cdsaMallocTrack t.env.mem (l.key.strlen + 1) = _ from grown.mem] at this
    · have hd : del key (pairs t.leaves) = pairs t.leaves := del_eq_self (by simpa [pairs] using hno)
      rw [upd, hd, ← hkey, ← hvalue]
      exact after.map _
  | oom formed after self alike failed =>
    exact ⟨_, _, rfl, formed exact_stalls, fun m hm => short m (after.mem_iff.mp hm),
      by rw [alike.mem], Or.inl failed⟩
  | invalid long => exact absurd hk (Nat.not_le.mpr long)

/-! ## Runs -/

/-- The map after a run of insertions. -/
def insertAll (M : FMap CStr (Option V)) (kvs : List (CStr × Option V)) : FMap CStr (Option V) :=
  kvs.foldl (fun M q => M.insert q.1 q.2) M

def insertStep (t : CdsaArtTree V) (q : CStr × Option V) : Option (Status × CdsaArtTree V) :=
  cdsaInsertArt t q.1 q.2

/-- A run of insertions updates the map, unless a pool is found exhausted. -/
theorem insert_run : ∀ (kvs : List (CStr × Option V)) (t : CdsaArtTree V) (M : FMap CStr (Option V)),
    Formed Exact t → (∀ l ∈ t.leaves, l.key.strlen ≤ intMax) → t.env.mem.NeverFails →
    (∀ q ∈ kvs, q.1.strlen ≤ intMax) → Models (pairs t.leaves) M →
    ∃ outs t', runOps insertStep t kvs = some (outs, t') ∧ t.env.failed ≤ t'.env.failed ∧
      (t'.env.failed = t.env.failed → (∀ s ∈ outs, s = .ok) ∧ Formed Exact t' ∧
        (∀ l ∈ t'.leaves, l.key.strlen ≤ intMax) ∧ Models (pairs t'.leaves) (insertAll M kvs))
  | [], t, M, h, short, _, _, hM => ⟨[], t, rfl, Nat.le_refl _, fun _ => ⟨by simp, h, short, hM⟩⟩
  | q :: kvs, t, M, h, short, never, hks, hM => by
    obtain ⟨s, t1, he, h1, short1, ha, hor⟩ := insert_step h short (hks q List.mem_cons_self) q.2
      (never _)
    have never1 : t1.env.mem.NeverFails := fun n => by rw [ha]; exact never n
    have hks1 := fun r hr => hks r (List.mem_cons_of_mem _ hr)
    have hrun : ∀ {outs t'}, runOps insertStep t1 kvs = some (outs, t') →
        runOps insertStep t (q :: kvs) = some (s :: outs, t') := fun hr => by
      rw [runOps_cons (show insertStep t q = some (s, t1) from he), hr]; rfl
    rcases hor with hfail | ⟨hsame, hok, hp, -⟩
    · -- the rest of the run still returns
      obtain ⟨M1, hM1⟩ := Models.exists_of_nodup h1.filed.keys_nodup
      obtain ⟨outs, t', hr, hle, -⟩ := insert_run kvs t1 M1 h1 short1 never1 hks1 hM1
      exact ⟨_, t', hrun hr, by omega, fun hf => by omega⟩
    · obtain ⟨outs, t', hr, hle, hend⟩ := insert_run kvs t1 (M.insert q.1 q.2) h1 short1 never1 hks1
        ((hM.upd q.1 q.2).perm hp)
      refine ⟨_, t', hrun hr, by omega, fun hf => ?_⟩
      obtain ⟨hoks, hrest⟩ := hend (by omega)
      refine ⟨fun s' hs' => ?_, hrest⟩
      rcases List.mem_cons.mp hs' with rfl | hs'
      · exact hok
      · exact hoks s' hs'

/-- Where `malloc` and the pools do not fail, an insertion of a key shorter than
2^31 bytes into a well-formed tree of such keys answers `CDSA_OK` and updates
the finite map that search and size read; so does a run from an empty tree. -/
theorem insert_refines_finite_map :
    (∀ (t : CdsaArtTree V) (key : CStr) (value : Option V), Formed Exact t →
      (∀ l ∈ t.leaves, l.key.strlen ≤ intMax) → key.strlen ≤ intMax →
      t.env.mem.answers t.env.mem.asked = true →
      ∃ s t', cdsaInsertArt t key value = some (s, t') ∧ (t'.env.failed = t.env.failed →
        s = .ok ∧ Formed Exact t' ∧ cdsaSearchArt t' key = some value ∧
        (∀ k, k ≠ key → cdsaSearchArt t' k = cdsaSearchArt t k) ∧
        (key ∈ t.leaves.map ArtLeaf.key ∧ cdsaSizeArt t' = cdsaSizeArt t ∨
          key ∉ t.leaves.map ArtLeaf.key ∧ cdsaSizeArt t' = cdsaSizeArt t + 1))) ∧
    ∀ (t : CdsaArtTree V) (kvs : List (CStr × Option V)), t.root = none → t.env.size = 0 →
      t.env.mem.NeverFails → (∀ q ∈ kvs, q.1.strlen ≤ intMax) →
      ∃ outs t', runOps insertStep t kvs = some (outs, t') ∧ (t'.env.failed = t.env.failed →
        (∀ s ∈ outs, s = .ok) ∧
        (∀ k, cdsaSearchArt t' k = some ((insertAll ∅ kvs).lookup k).join) ∧
        cdsaSizeArt t' = (insertAll ∅ kvs).keys.card) := by
  refine ⟨fun t key value h short hk granted => ?_, fun t kvs hroot hsize never hks => ?_⟩
  · obtain ⟨s, t', he, h', short', -, hor⟩ := insert_step h short hk value granted
    refine ⟨s, t', he, fun hf => ?_⟩
    obtain ⟨-, hok, hp, hsize⟩ := hor.resolve_left (by omega)
    obtain ⟨M, hM⟩ := Models.exists_of_nodup h.filed.keys_nodup
    have hM' := (hM.upd key value).perm hp
    refine ⟨hok, h', ?_, fun k hne => ?_, hsize⟩
    · rw [search_lookup h'.filed short' hM', Finmap.lookup_insert]; rfl
    · rw [search_lookup h'.filed short' hM', search_lookup h.filed short hM, Finmap.lookup_insert_of_ne M hne]
  · have hnil : t.leaves = [] := by rw [CdsaArtTree.leaves, hroot, leavesAt_none]
    have h : Formed Exact t := ⟨fun r hr => (by rw [hroot] at hr; cases hr), by rw [hnil, hsize]; rfl⟩
    obtain ⟨outs, t', hr, -, hend⟩ := insert_run kvs t ∅ h (by simp [hnil]) never hks
      (by rw [hnil]; exact .nil)
    refine ⟨outs, t', hr, fun hf => ?_⟩
    obtain ⟨hoks, h', short', hM⟩ := hend hf
    refine ⟨hoks, fun k => search_lookup h'.filed short' hM k, ?_⟩
    rw [cdsaSizeArt, h'.size, ← hM.length, pairs, List.length_map]

/-! ## Small trees -/

/-- Pools with four free blocks each, and a `malloc` that never fails. -/
def smallEnv (size : Nat) : Env where
  size
  slab := ⟨0, fun _ => ⟨0, 8, 6, 0, [2, 3, 4, 5]⟩⟩
  mem := ⟨0, [], 7, fun _ => true⟩
  failed := 0

/-- A tree with root `r` and no version yet. -/
def smallTree (r : Option (Node Nat)) (size : Nat) : CdsaArtTree Nat := ⟨0, r, 0, smallEnv size⟩

/-- The keys "ab" and "ac" below the prefix "a". -/
def abNode : Node Nat :=
  pairNode 0 (NodeHeader.zero.store 1 [97]) 98 (.leaf ⟨0, 1, ⟨[97, 98], by decide⟩, some 1⟩)
    99 (.leaf ⟨1, 2, ⟨[97, 99], by decide⟩, some 2⟩)

theorem abNode_formed : Formed Exact (smallTree (some abNode) 2) := by
  have hwf : WF Exact [] abNode :=
    pairNode_wf exact_grows (store_describes zero_room [97]) (by decide) (by decide)
      (.leaf ⟨[0], rfl⟩) (.leaf ⟨[0], rfl⟩)
  have hlen : abNode.leaves.length = 2 := (pairNode_leaves _ _ (by decide)).length_eq
  exact .of_root rfl hwf hlen.symm

theorem abNode_short : ∀ l ∈ (smallTree (some abNode) 2).leaves, l.key.strlen ≤ intMax := by
  intro l hl
  have hp : abNode.leaves.Perm _ := pairNode_leaves _ _ (by decide)
  have hm := hp.mem_iff.mp (show l ∈ abNode.leaves by simpa [CdsaArtTree.leaves, smallTree] using hl)
  simp only [leaves_leaf, List.mem_append, List.mem_singleton] at hm
  rcases hm with rfl | rfl <;> decide

/-- Adding "abc" to the tree of "ab" and "ac", and a run with a key that is
replaced. -/
theorem insert_refines_finite_map_three :
    (∃ t, cdsaInsertArt (smallTree (some abNode) 2) ⟨[97, 98, 99], by decide⟩ (some 3) = some (.ok, t) ∧
      cdsaSearchArt t ⟨[97, 98, 99], by decide⟩ = some (some 3) ∧ cdsaSizeArt t = 3) ∧
    ∃ outs t, runOps insertStep (smallTree none 0) [(⟨[97], by decide⟩, some 1),
        (⟨[97, 98], by decide⟩, some 2), (⟨[97], by decide⟩, some 3)] = some (outs, t) ∧
      cdsaSearchArt t ⟨[97], by decide⟩ = some (some 3) ∧ cdsaSizeArt t = 2 := by
  obtain ⟨step, run⟩ := insert_refines_finite_map (V := Nat)
  constructor
  · obtain ⟨s, t, he, hend⟩ := step (smallTree (some abNode) 2) ⟨[97, 98, 99], by decide⟩ (some 3)
      abNode_formed abNode_short (by decide) rfl
    have hf : (cdsaInsertArt (smallTree (some abNode) 2) ⟨[97, 98, 99], by decide⟩ (some 3)).map
        (fun r => (r.2.env.failed, r.2.env.size)) = some (0, 3) := by decide +kernel
    rw [he] at hf
    injection hf with hf
    injection hf with hf hs
    obtain ⟨rfl, -, hv, -⟩ := hend hf
    exact ⟨t, he, hv, hs⟩
  · obtain ⟨outs, t, hr, hend⟩ := run (smallTree none 0) [(⟨[97], by decide⟩, some 1),
      (⟨[97, 98], by decide⟩, some 2), (⟨[97], by decide⟩, some 3)] rfl rfl (fun _ => rfl) (by decide)
    have hf : (runOps insertStep (smallTree none 0) [(⟨[97], by decide⟩, some 1),
        (⟨[97, 98], by decide⟩, some 2), (⟨[97], by decide⟩, some 3)]).map
        (fun r => r.2.env.failed) = some 0 := by decide +kernel
    rw [hr] at hf
    obtain ⟨-, hv, hs⟩ := hend (Option.some.inj hf)
    refine ⟨outs, t, hr, (hv _).trans (by decide), hs.trans (by decide)⟩

/-- A long key behind the prefix "a" is refused. -/
theorem long_key_refused {key : CStr} {rest : List UInt8} (hb : key.bytes = 97 :: rest)
    (h1 : 2 ^ 31 ≤ key.strlen) (h2 : key.strlen < 2 ^ 32) (value : Option Nat) :
    cdsaInsertArt (smallTree (some abNode) 2) key value =
      some (.errInvalid, smallTree (some abNode) 2) := by
  have hread : read key 0 = some 97 := by simp [read, CStr.term, hb]
  have hneg : toInt key.strlen < toInt 1 := (toInt_long h1 h2).trans_le (by decide)
  have hcheck : checkPrefix (NodeHeader.zero.store 1 [97]) key 0 = some 1 := by
    simp [checkPrefix, NodeHeader.store, checkPrefixLoop, hread]
  simp only [cdsaInsertArt, insertArtInternal, smallTree, abNode, insertLoop, pairNode, matchPrefix,
    Inner.header, hcheck]
  simp [NodeHeader.store, hneg]

/-- A long key is lost from search when a prefix appears above it. -/
theorem long_key_hidden {key : CStr} {rest : List UInt8} (hb : key.bytes = 97 :: 97 :: rest)
    (h1 : 2 ^ 31 ≤ key.strlen) (h2 : key.strlen < 2 ^ 32) :
    cdsaSearchArt (smallTree (some (.leaf ⟨0, 1, key, some 1⟩)) 1) key = some (some 1) ∧
      ∃ t, cdsaInsertArt (smallTree (some (.leaf ⟨0, 1, key, some 1⟩)) 1) ⟨[97, 98], by decide⟩ (some 2) =
        some (.ok, t) ∧ cdsaSearchArt t key = some none := by
  have hread : read key 0 = some 97 := by simp [read, CStr.term, hb]
  have hcheck : checkPrefix (NodeHeader.zero.store 1 [97]) key 0 = some 1 := by
    simp [checkPrefix, NodeHeader.store, checkPrefixLoop, hread]
  have henter : enter (NodeHeader.zero.store 1 [97]) key 0 = some .past :=
    enter_past (by decide) hcheck ((toInt_long h1 h2).trans_le (by decide))
  have hagree : agree key.bytes [97, 98] = 1 := by simp [hb, agree]
  have hbyte : key.byteAt 1 = 97 := by simp [CStr.byteAt, CStr.term, hb]
  have hrange : readRange ⟨[97, 98], by decide⟩ 0 1 = some [97] := by decide
  refine ⟨by simp [cdsaSearchArt, smallTree, searchLoop], ?_⟩
  simp only [cdsaInsertArt, insertArtInternal, smallTree, insertLoop, splitLeaf, hagree, hbyte]
  simp only [Env.allocBlock, smallEnv, kpoolAlloc]
  refine ⟨_, by simp [toU32, intMax, hrange, allocLeaf, Env.allocBlock, kpoolAlloc, safeStrdup, cdsaMallocTrack, CStr.byteAt, CStr.term]; rfl, ?_⟩
  simp [cdsaSearchArt, searchLoop, pairNode, Inner.header, henter]

/-- `n` times the letter a. -/
def longKey (n : Nat) : CStr := ⟨List.replicate n 97, fun h => by simp [List.mem_replicate] at h⟩

theorem longKey_bytes {n : Nat} (h : 2 ≤ n) :
    (longKey n).bytes = 97 :: 97 :: List.replicate (n - 2) 97 := by
  obtain ⟨m, rfl⟩ : ∃ m, n = m + 2 := ⟨n - 2, by omega⟩
  show List.replicate (m + 2) 97 = _
  rw [Nat.add_sub_cancel, List.replicate_succ, List.replicate_succ]

theorem longKey_strlen (n : Nat) : (longKey n).strlen = n := List.length_replicate

/-- A key of 2^31 bytes: an insertion that fails although nothing is exhausted,
and a stored key that the insertion of another one hides. -/
theorem long_keys_break : Formed Exact (smallTree (some abNode) 2) ∧
    cdsaInsertArt (smallTree (some abNode) 2) (longKey (2 ^ 31)) (some 3) =
      some (.errInvalid, smallTree (some abNode) 2) ∧
    cdsaSearchArt (smallTree (some (.leaf ⟨0, 1, longKey (2 ^ 31), some 1⟩)) 1) (longKey (2 ^ 31)) =
      some (some 1) ∧
    ∃ t, cdsaInsertArt (smallTree (some (.leaf ⟨0, 1, longKey (2 ^ 31), some 1⟩)) 1)
        ⟨[97, 98], by decide⟩ (some 2) = some (.ok, t) ∧
      cdsaSearchArt t (longKey (2 ^ 31)) = some none := by
  have hb := longKey_bytes (n := 2 ^ 31) (by omega)
  have hlen := longKey_strlen (2 ^ 31)
  exact ⟨abNode_formed, long_key_refused hb (by omega) (by omega) _,
    long_key_hidden hb (by omega) (by omega)⟩

end Cdsa.Art
