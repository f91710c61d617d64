import Cdsa.L2Art.Stock
import Mathlib.Data.Finset.Card
import Mathlib.Data.Finset.Insert

/-!
# A bounded finite map

Pools of `cap` blocks, a `malloc` that does not fail, and keys with no more than
47 different bytes between them, so that no node comes to have 49 children: over
every mix of insertions, deletions and searches the tree is a finite map with
room for `cap` keys (`bounded_map`). A new key that finds no room is answered
with `CDSA_ERR_OOM` and changes nothing; nothing else fails.

Deletions are the delicate part. None follows a refusal, which may have left a
larger layout behind (`never_hollow`); and an absent key has fewer than ten
bytes or meets no longer key in the map, so that the deletion does not cut
(`Cuts.longer`).
-/
namespace Cdsa.Art

open Cdsa.Core Cdsa.Memory

variable {V : Type} {Q D : NodeType → Nat → Nat → Prop}

/-! ## The abstract map -/

/-- A finite map, and whether it has refused a key. -/
structure BoundedMap (V : Type) where
  map : FMap CStr (Option V)
  refused : Bool

namespace BoundedMap

def step (cap : Nat) (a : BoundedMap V) : Op V → Out V × BoundedMap V
  | .insert key value =>
    if key ∈ a.map ∨ a.map.keys.card < cap then
      (.status .ok, { a with map := a.map.insert key value })
    else (.status .errOom, { a with refused := true })
  | .delete key =>
    if key ∈ a.map then (.status .ok, { a with map := a.map.erase key })
    else (.status .errNotFound, a)
  | .search key => (.found (a.map.lookup key).join, a)

/-- What the operations have to respect. -/
def Admits (letters : Finset UInt8) (a : BoundedMap V) : Op V → Prop
  | .insert key _ => key.strlen ≤ intMax ∧ ∀ c ∈ key.bytes, c ∈ letters
  | .delete key => a.refused = false ∧ key.strlen ≤ intMax ∧
      (key ∈ a.map ∨ key.strlen < 10 ∨ ∀ k ∈ a.map.keys, k.strlen ≤ key.strlen)
  | .search _ => True

end BoundedMap

/-! ## Inserting a stored key -/

/-- The walk arrives at the leaf and allocates nothing. -/
theorem insertLoop_stored {path : List UInt8} {node : Node V} (h : WF Q path node) {l : ArtLeaf V}
    (hl : l ∈ node.leaves) (short : l.key.strlen ≤ intMax) (value : Option V) (e : Env) :
    ∀ {fuel : Nat}, l.key.strlen + 2 ≤ fuel + path.length →
      ∃ y, insertLoop l.key value fuel e node path.length = some (.ok, y, e) := by
  induction h with
  | @leaf path m follows =>
    intro fuel hf
    rw [leaves_leaf, List.mem_singleton] at hl
    subst hl
    have hle := follows.length_le
    rw [CStr.length_term] at hle
    obtain ⟨fuel, rfl⟩ : ∃ f, fuel = f + 1 := ⟨fuel - 1, by omega⟩
    have hagree := agree_le_left (a := l.key.bytes) (b := l.key.bytes)
    rw [insertLoop, splitLeaf]
    simp only
    rw [if_neg (Nat.not_lt.mpr (Nat.le_trans hagree short)), if_pos (ends_iff.mpr rfl)]
    exact ⟨_, rfl⟩
  | @inner path shared n valid hd bound occupied count kids ih =>
    intro fuel hf
    obtain ⟨c, x, hc, hx⟩ := mem_leaves_inner.mp hl
    have hpre := (kids c x hc).follows l hx
    have hread := read_follows hpre
    have hps := (List.prefix_append _ _).trans hpre
    have hin := read_le hread
    have hagree := agree_eq_length.mpr ((prefix_drop ((List.prefix_append _ _).trans hps)).mpr hps)
    have hdepth := toInt_short bound
    rw [List.length_append] at hin hread hdepth
    obtain ⟨fuel, rfl⟩ : ∃ f, fuel = f + 1 := ⟨fuel - 1, by omega⟩
    obtain ⟨y, hy⟩ := @ih c x hc hx fuel (by
      rw [List.length_append, List.length_append, List.length_singleton]; omega)
    rw [List.length_append, List.length_append, List.length_singleton] at hy
    rw [insertLoop_inner valid.coherent, matchPrefix_spec valid hd bound occupied count kids (by omega),
      Option.bind_some, hd.len, hagree, if_neg (Nat.lt_irrefl _), hdepth, toInt_short short,
      if_neg (by omega), if_neg (not_not.mpr rfl), hread, Option.bind_some]
    simp only [hc, hy, Option.map_some]
    exact ⟨_, rfl⟩

theorem cdsaInsertArt_stored_key {t : CdsaArtTree V} (h : Formed Q t) {l : ArtLeaf V}
    (hl : l ∈ t.leaves) (short : l.key.strlen ≤ intMax) (value : Option V) :
    ∃ t', cdsaInsertArt t l.key value = some (.ok, t') ∧ t'.env = t.env := by
  unfold cdsaInsertArt insertArtInternal
  unfold CdsaArtTree.leaves at hl
  cases hr : t.root with
  | none =>
    rw [hr] at hl
    cases hl
  | some r =>
    rw [hr, leavesAt_some] at hl
    have hfuel : l.key.strlen + 2 ≤ l.key.strlen + 2 + ([] : List UInt8).length := Nat.le_refl _
    obtain ⟨y, hy⟩ := insertLoop_stored (h.shape r hr) hl short value t.env hfuel
    simp only [List.length_nil] at hy
    simp only [hy, Option.map_some]
    exact ⟨_, rfl, rfl⟩

/-! ## Deleting an absent key -/

/-- A deletion that cuts has read ten bytes of a prefix and run out of its key:
every key below is longer. -/
theorem Cuts.longer {path : List UInt8} {node : Node V} (h : WF Q path node) {key : CStr}
    (short : key.strlen ≤ intMax) : Fits key path → Cuts key node path.length →
      10 ≤ key.strlen ∧ ∃ l ∈ node.leaves, key.strlen < l.key.strlen := by
  induction h with
  | leaf => exact fun _ hc => absurd hc (not_cuts_leaf _)
  | @inner path shared n valid hd bound occupied count kids ih =>
    intro fits hc
    have hn := WF.noNul occupied kids
    have hle := fits.inner fun hm => hn (List.mem_append_left _ hm)
    have h0 : 0 ∉ shared := fun hm => hn (List.mem_append_right _ hm)
    rcases hc.cases with hp | ⟨d, c, x, henter, hread, hx, hcut⟩
    · have hpast : key.strlen < path.length + shared.length := by
        rcases enter_cases hd h0 hle (List.length_append ▸ bound) with ⟨he, -⟩ | ⟨-, hlt⟩ | ⟨he, -⟩
        · rw [hp] at he
          cases he
        · rw [toInt_short short] at hlt
          omega
        · rw [hp] at he
          cases he
      -- the bytes that are stored are those of the key
      have hten : shared.take 10 <+: key.term.drop path.length := by
        unfold enter at hp
        split at hp
        · cases hp
        rw [checkPrefix_spec hd h0 hle, Option.bind_some, hd.len] at hp
        split at hp
        · cases hp
        · next hm =>
          apply agree_eq_length.mp
          rw [List.length_take, Nat.min_comm]
          exact not_not.mp hm
      have hwithin := within (fun hm => h0 (List.mem_of_mem_take hm)) hten hle
      rw [List.length_take] at hwithin
      obtain ⟨l, hl⟩ := (WF.inner valid hd bound occupied count kids).nonempty
      obtain ⟨c, x, hc, hx⟩ := mem_leaves_inner.mp hl
      have hlong := read_le (read_follows ((kids c x hc).follows l hx))
      rw [List.length_append] at hlong
      exact ⟨by omega, l, hl, by omega⟩
    · rcases enter_cases hd h0 hle (List.length_append ▸ bound) with ⟨he, -⟩ | ⟨he, -⟩ | ⟨he, -⟩
      · rw [henter] at he
        cases he
      · rw [henter] at he
        cases he
      · rw [henter] at he
        cases he
        have hlen : (path ++ shared ++ [c]).length = path.length + shared.length + 1 := by
          simp [Nat.add_assoc]
        obtain ⟨h10, l, hl, hlong⟩ := ih c x hx (.read (by rw [List.length_append]; exact hread))
          (by rw [hlen]; exact hcut)
        exact ⟨h10, l, mem_leaves_inner.mpr ⟨c, x, hx, hl⟩, hlong⟩

/-- Nor does the deletion of a stored key cut. -/
theorem not_cuts_stored {path : List UInt8} {node : Node V} (h : WF Q path node) {l : ArtLeaf V}
    (hl : l ∈ node.leaves) (short : l.key.strlen ≤ intMax) : ¬ Cuts l.key node path.length := by
  induction h with
  | leaf => exact not_cuts_leaf _
  | @inner path shared n valid hd bound occupied count kids ih =>
    obtain ⟨c, x, hc, hx⟩ := mem_leaves_inner.mp hl
    have hpre := (kids c x hc).follows l hx
    have hread := read_follows hpre
    have h0 : 0 ∉ shared := fun hm => WF.noNul occupied kids (List.mem_append_right _ hm)
    have hle := read_le hread
    rw [List.length_append] at hle
    have hih := ih c x hc hx
    rw [List.length_append, List.length_singleton] at hih
    rw [cuts_below_iff (enter_follows hd h0 short ((List.prefix_append _ _).trans hpre) hle) hread hc]
    exact hih

/-! ## What a deletion takes from the pools -/

/-- Every pool of inner nodes has a block. -/
def Env.Spare (e : Env) : Prop := ∀ type, type ≠ .leafNode → e.free type ≠ []

section
variable {e e' : Env} {o : Option (Node V)}

theorem Env.Spare.freeBlock (h : e.Spare) (type : NodeType) (block : Nat) :
    (e.freeBlock type block).Spare := by
  intro t ht
  have hroom := ((Draws.of_free rfl rfl : Draws e [] e).freeBlock type block).room t
  have hpos := List.length_pos_iff.mpr (h t ht)
  rw [List.count_nil] at hroom
  exact List.length_pos_iff.mp (by omega)

/-- A node is moved to one block, or gives its own back. -/
theorem shrink_spares {n : Inner (Node V)} (hs : e.Spare) (h : shrink e n = some (o, e')) :
    e'.failed = e.failed ∧ (o = none → e'.Spare) := by
  cases n with
  | node256 p =>
    obtain ⟨b, e1, hb, D, -⟩ := allocBlock_draws (hs .node48 (by simp))
    rw [shrink] at h
    split at h
    · rw [downgradeNode256ToNode48, hb] at h
      simp only [Option.map_map] at h
      obtain ⟨m, -, he⟩ := Option.map_eq_some_iff.mp h
      cases he
      exact ⟨D.failed, fun hn => by cases hn⟩
    · cases h
      exact ⟨rfl, fun hn => by cases hn⟩
  | node48 p =>
    obtain ⟨b, e1, hb, D, -⟩ := allocBlock_draws (hs .node16 (by simp))
    rw [shrink] at h
    split at h
    · rw [downgradeNode48ToNode16, hb] at h
      simp only at h
      split at h
      · cases h
        exact ⟨D.failed, fun hn => by cases hn⟩
      · cases h
    · cases h
      exact ⟨rfl, fun hn => by cases hn⟩
  | node16 p =>
    obtain ⟨b, e1, hb, D, -⟩ := allocBlock_draws (hs .node4 (by simp))
    rw [shrink] at h
    split at h
    · rw [downgradeNode16ToNode4, hb] at h
      cases h
      exact ⟨D.failed, fun hn => by cases hn⟩
    · cases h
      exact ⟨rfl, fun hn => by cases hn⟩
  | node4 p =>
    rw [shrink] at h
    split at h
    · cases h
      exact ⟨rfl, fun _ => hs.freeBlock _ _⟩
    split at h
    · split at h
      · cases h
        exact ⟨rfl, fun hn => by cases hn⟩
      · cases h
        exact ⟨rfl, fun hn => by cases hn⟩
      · cases h
    · cases h
      exact ⟨rfl, fun hn => by cases hn⟩

theorem recursiveDelete_spares (key : CStr) : ∀ {fuel : Nat} {e e' : Env} {node : Node V}
    {depth : Nat} {o : Option (Node V)} {deleted : Bool}, e.Spare →
      recursiveDelete key fuel e node depth = some (o, deleted, e') →
      e'.failed = e.failed ∧ (o = none → e'.Spare) := by
  intro fuel
  induction fuel with
  | zero =>
    intro e e' node depth o deleted _ h
    cases h
  | succ fuel ih =>
    intro e e' node depth o deleted hs h
    cases node with
    | leaf l =>
      rw [recursiveDelete] at h
      split at h
      · obtain ⟨mem, -, he⟩ := Option.map_eq_some_iff.mp h
        cases he
        exact ⟨rfl, fun _ => Env.Spare.freeBlock hs _ _⟩
      · cases h
        exact ⟨rfl, fun hn => by cases hn⟩
    | inner n =>
      rw [recursiveDelete] at h
      obtain ⟨entry, -, h⟩ := Option.bind_eq_some_iff.mp h
      cases entry with
      | mismatch =>
        cases h
        exact ⟨rfl, fun hn => by cases hn⟩
      | past =>
        cases h
        exact ⟨rfl, fun _ => hs⟩
      | below depth =>
        obtain ⟨c, -, h⟩ := Option.bind_eq_some_iff.mp h
        cases hc : n.look c with
        | none =>
          rw [hc] at h
          cases h
          exact ⟨rfl, fun hn => by cases hn⟩
        | some x =>
          rw [hc] at h
          obtain ⟨⟨y, d, e1⟩, hx, h⟩ := Option.bind_eq_some_iff.mp h
          obtain ⟨hf, hspare⟩ := ih hs hx
          split at h
          · next hnone =>
            obtain ⟨⟨z, e2⟩, hz, he⟩ := Option.map_eq_some_iff.mp h
            cases he
            have hshrink := shrink_spares (hspare (Option.isNone_iff_eq_none.mp hnone.2)) hz
            exact ⟨hshrink.1.trans hf, hshrink.2⟩
          · cases h
            exact ⟨hf, fun hn => by cases hn⟩

/-- A deletion takes one block at most. -/
theorem cdsaDeleteArt_spares {t t' : CdsaArtTree V} {key : CStr} {s : Status} (hs : t.env.Spare)
    (h : cdsaDeleteArt t key = some (s, t')) : t'.env.failed = t.env.failed := by
  unfold cdsaDeleteArt at h
  cases hr : t.root with
  | none =>
    rw [hr] at h
    cases h
    rfl
  | some r =>
    rw [hr] at h
    obtain ⟨⟨o, deleted, e⟩, hrec, he⟩ := Option.map_eq_some_iff.mp h
    cases he
    exact (recursiveDelete_spares key hs hrec).1

end

/-! ## Few letters -/

/-- A node has a child for every letter and for the end of a key at most. -/
theorem WF.kids_le {path : List UInt8} {n : Inner (Node V)} (h : WF Q path (.inner n))
    {letters : Finset UInt8} (spelled : ∀ l ∈ (Node.inner n).leaves, ∀ c ∈ l.key.bytes, c ∈ letters) :
    n.kids.length ≤ letters.card + 1 := by
  cases h with
  | @inner _ shared _ valid hd bound occupied count kids =>
    have hnodup : (n.kids.map Prod.fst).Nodup := graph_nodup allBytes_nodup n.look
    have hsub : (n.kids.map Prod.fst).toFinset ⊆ insert 0 letters := by
      intro c hc
      obtain ⟨⟨d, x⟩, hx, rfl⟩ := List.mem_map.mp (List.mem_toFinset.mp hc)
      have hx := mem_kids.mp hx
      obtain ⟨l, hl⟩ := (kids d x hx).nonempty
      have hread := read_follows ((kids d x hx).follows l hl)
      have hmem : d ∈ l.key.term := List.mem_of_getElem? hread
      rw [CStr.term, List.mem_append, List.mem_singleton] at hmem
      rw [Finset.mem_insert]
      rcases hmem with hm | hm
      · exact .inr (spelled l (mem_leaves_inner.mpr ⟨d, x, hx, hl⟩) d hm)
      · exact .inl hm
    have hcard := Finset.card_le_card hsub
    rw [List.toFinset_card_of_nodup hnodup, List.length_map] at hcard
    exact hcard.trans (Finset.card_insert_le _ _)

theorem Visits.has {key : CStr} {node : Node V} {m : Inner (Node V)} {depth d : Nat}
    (h : Visits key node depth m d) : node.Has m := by
  induction h with
  | here n => exact .self n
  | down _ _ hlook _ ih => exact .child hlook ih

/-- With 47 letters no leaf is taken from a Node256. -/
theorem Formed.below256 {t : CdsaArtTree V} (h : Formed Tight t) {letters : Finset UInt8}
    (few : letters.card ≤ 47) (spelled : ∀ l ∈ t.leaves, ∀ c ∈ l.key.bytes, c ∈ letters) {key : CStr}
    {m : Inner (Node V)} (hm : TakesFromTree key t m) : m.Counts Below256 := by
  obtain ⟨r, hr, d, f, c, l, hv, -⟩ := hm
  obtain ⟨path, hwf⟩ := WF.has hv.has (h.shape r hr)
  have hkids : m.kids.length ≤ letters.card + 1 := by
    apply hwf.kids_le
    intro l hl
    apply spelled l
    rw [CdsaArtTree.leaves, hr, leavesAt_some]
    exact hv.leaves l hl
  intro h256
  cases hwf with
  | inner _ _ _ _ count =>
    have hleast := count.2.1
    rw [h256] at hleast
    simp only [NodeType.least] at hleast
    omega

/-! ## The simulation -/

/-- The tree holds the map `a`, and its pools every block that is not in it. -/
structure Represents (letters : Finset UInt8) (cap : Nat) (base : UInt64) (bs : List (Ptr × Nat))
    (t : CdsaArtTree V) (a : BoundedMap V) : Prop where
  sound : Sound Exact base bs t
  tight : a.refused = false → Formed Tight t
  models : Models (pairs t.leaves) a.map
  short : ∀ l ∈ t.leaves, l.key.strlen ≤ intMax
  spelled : ∀ l ∈ t.leaves, ∀ c ∈ l.key.bytes, c ∈ letters
  partitioned : t.Partitioned
  capacity : ∀ type, (t.env.slab.pools type).capacity = cap

section
variable {letters : Finset UInt8} {cap : Nat} {base : UInt64} {bs : List (Ptr × Nat)}
  {t t' : CdsaArtTree V} {a : BoundedMap V} {key : CStr}

theorem mem_pairs_keys {ls : List (ArtLeaf V)} {k : CStr} :
    k ∈ (pairs ls).map Prod.fst ↔ ∃ l ∈ ls, l.key = k := by
  simp [pairs]

namespace Represents

theorem size (R : Represents letters cap base bs t a) : t.env.size = a.map.keys.card := by
  rw [R.sound.size, ← R.models.length, pairs, List.length_map]

theorem mem_iff (R : Represents letters cap base bs t a) : key ∈ a.map ↔ ∃ l ∈ t.leaves, l.key = key := by
  rw [← R.models.mem_keys, mem_pairs_keys]

/-- There is a leaf block for each key. -/
theorem size_le (R : Represents letters cap base bs t a) : t.env.size ≤ cap := by
  have hleaf := (R.sound.left (fun _ _ _ h => h) R.partitioned).1
  rw [R.capacity] at hleaf
  omega

/-- What happens to the leaves is what happens to the map. -/
theorem next (R : Represents letters cap base bs t a) {b : BoundedMap V}
    (sound : Sound Exact base bs t') (tight : b.refused = false → Formed Tight t')
    (moves : Moves t.env (usedAt t.root) t'.env (usedAt t'.root))
    (models : Models (pairs t'.leaves) b.map)
    (kept : ∀ l ∈ t'.leaves, (∃ m ∈ t.leaves, m.key = l.key) ∨
      l.key.strlen ≤ intMax ∧ ∀ c ∈ l.key.bytes, c ∈ letters) :
    Represents letters cap base bs t' b where
  sound := sound
  tight := tight
  models := models
  short l hl := by
    rcases kept l hl with ⟨m, hm, he⟩ | hnew
    · exact he ▸ R.short m hm
    · exact hnew.1
  spelled l hl := by
    rcases kept l hl with ⟨m, hm, he⟩ | hnew
    · exact he ▸ R.spelled m hm
    · exact hnew.2
  partitioned := moves.partitioned_iff.mp R.partitioned
  capacity type := (moves.capacity type).trans (R.capacity type)

/-- Where an insertion finds a block in every pool it uses. -/
theorem inserted (R : Represents letters cap base bs t a) (value : Option V)
    (hk : key.strlen ≤ intMax) (hl : ∀ c ∈ key.bytes, c ∈ letters)
    (hfound : ∀ s t', cdsaInsertArt t key value = some (s, t') → t'.env.failed = t.env.failed) :
    ∃ t', cdsaInsertArt t key value = some (.ok, t') ∧
      Represents letters cap base bs t' { a with map := a.map.insert key value } := by
  obtain ⟨s, t', he, -, -, -, hor⟩ := insert_step R.sound.toFormed R.short hk value (R.sound.never _)
  have hf := hfound s t' he
  obtain ⟨-, rfl, hp, -⟩ := hor.resolve_left (by omega)
  have hagree : ∀ l ∈ t.leaves, agree l.key.bytes key.bytes ≤ intMax := fun l _ =>
    Nat.le_trans agree_le_right hk
  obtain ⟨s', t1, he', hsound⟩ := R.sound.insert exact_grows value hagree
  rw [he] at he'
  cases he'
  refine ⟨t', he, R.next (hsound (.inl exact_stalls)) (fun hr => ?_)
    (cdsaInsertArt_moves R.sound.placed he) ((R.models.upd key value).perm hp) fun l hl' => ?_⟩
  · have hT : Sound Tight base bs t := ⟨R.tight hr, R.sound.owns, R.sound.never⟩
    obtain ⟨s', t1, he', htight⟩ := hT.insert tight_grows value hagree
    rw [he] at he'
    cases he'
    exact (htight (.inr hf)).toFormed
  · have hm : (l.key, l.value) ∈ pairs t'.leaves := List.mem_map.mpr ⟨l, hl', rfl⟩
    rcases mem_upd.mp (hp.mem_iff.mp hm) with hnew | ⟨hold, -⟩
    · rw [(Prod.mk.inj hnew).1]
      exact .inr ⟨hk, hl⟩
    · exact .inl (mem_pairs_keys.mp (List.mem_map_of_mem hold))

/-- A new key when every leaf block is in the tree. -/
theorem refused (R : Represents letters cap base bs t a) (value : Option V)
    (hk : key.strlen ≤ intMax) (habs : key ∉ a.map) (full : ¬ a.map.keys.card < cap) :
    ∃ t', cdsaInsertArt t key value = some (.errOom, t') ∧
      Represents letters cap base bs t' { a with refused := true } := by
  have hno : ∀ l ∈ t.leaves, l.key ≠ key := fun l hl he => habs (R.mem_iff.mpr ⟨l, hl, he⟩)
  have hi := cdsaInsertArt_stored exact_grows R.sound.toFormed key value
  have hmoves : ∀ s t', cdsaInsertArt t key value = some (s, t') →
      Moves t.env (usedAt t.root) t'.env (usedAt t'.root) := fun s t' =>
    cdsaInsertArt_moves R.sound.placed
  generalize cdsaInsertArt t key value = res at hi hmoves
  cases hi with
  | undefined hu =>
    rcases hu with hr | ⟨l, -, hbig⟩
    · rw [R.sound.never] at hr
      cases hr
    · exact absurd (Nat.le_trans agree_le_right hk) (Nat.not_le.mpr hbig)
  | replaced formed hkey before => exact absurd hkey (hno _ (before.mem_iff.mpr List.mem_cons_self))
  | @added l t' formed fresh hkey hvalue after self grown =>
    -- one leaf more than the pool has blocks
    have hm := hmoves _ _ rfl
    have hleaf := ((R.sound.added formed after self grown).left (fun _ _ _ h => h)
      (hm.partitioned_iff.mp R.partitioned)).1
    rw [hm.capacity, R.capacity, grown.size, R.size] at hleaf
    omega
  | @oom t' formed after self alike failed =>
    refine ⟨t', rfl, R.next (R.sound.replaced (formed exact_stalls) (after.map _) self alike)
      (fun hr => by cases hr) (hmoves _ _ rfl) (R.models.perm (after.map _)) fun l hl => ?_⟩
    exact .inl ⟨l, after.mem_iff.mp hl, rfl⟩
  | invalid long => exact absurd hk (Nat.not_le.mpr long)

theorem insert (R : Represents letters cap base bs t a) (value : Option V)
    (hk : key.strlen ≤ intMax) (hl : ∀ c ∈ key.bytes, c ∈ letters) :
    ∃ t', exec t (.insert key value) = some ((a.step cap (.insert key value)).1, t') ∧
      Represents letters cap base bs t' (a.step cap (.insert key value)).2 := by
  rw [BoundedMap.step]
  by_cases hroom : key ∈ a.map ∨ a.map.keys.card < cap
  · obtain ⟨t', he, R'⟩ := R.inserted value hk hl fun s t' he => by
      rcases hroom with hmem | hless
      · obtain ⟨l, hleaf, rfl⟩ := R.mem_iff.mp hmem
        obtain ⟨t1, he', henv⟩ := cdsaInsertArt_stored_key R.sound.toFormed hleaf hk value
        rw [he] at he'
        cases he'
        rw [henv]
      · refine (cdsaInsertArt_draws ?_ he).1
        refine R.sound.stocked (fun _ _ _ h => h) R.partitioned fun type => ?_
        rw [R.capacity, R.size]
        exact hless
    rw [if_pos hroom]
    exact ⟨t', by rw [exec, he]; rfl, R'⟩
  · obtain ⟨t', he, R'⟩ := R.refused value hk (fun h => hroom (.inl h)) (fun h => hroom (.inr h))
    rw [if_neg hroom]
    exact ⟨t', by rw [exec, he]; rfl, R'⟩

/-- A deletion that is admitted does not cut. -/
theorem whole (R : Represents letters cap base bs t a) (hk : key.strlen ≤ intMax)
    (hshort : key ∈ a.map ∨ key.strlen < 10 ∨ ∀ k ∈ a.map.keys, k.strlen ≤ key.strlen) :
    ¬ CutsTree key t := by
  rintro ⟨r, hr, hc⟩
  have hleaves : t.leaves = r.leaves := by rw [CdsaArtTree.leaves, hr, leavesAt_some]
  have hshape := R.sound.shape r hr
  rcases hshort with hmem | hten | hlong
  · obtain ⟨l, hl, rfl⟩ := R.mem_iff.mp hmem
    exact not_cuts_stored hshape (hleaves ▸ hl) hk hc
  · have := (Cuts.longer hshape hk (.nil key) hc).1
    omega
  · obtain ⟨-, l, hl, hlt⟩ := Cuts.longer hshape hk (.nil key) hc
    have hmem := R.mem_iff.mpr ⟨l, hleaves ▸ hl, rfl⟩
    have := hlong l.key (Finmap.mem_keys.mpr hmem)
    omega

/-- A key in the map has a leaf, and fewer inner nodes than leaves are in the tree. -/
theorem spare (R : Represents letters cap base bs t a) (hmem : key ∈ a.map) : t.env.Spare := by
  intro type ht hnil
  obtain ⟨l, hl, -⟩ := R.mem_iff.mp hmem
  have hpos := List.length_pos_of_mem hl
  rw [← R.sound.size] at hpos
  have hleft := ((R.sound.left (fun _ _ _ h => h) R.partitioned).2 type ht).2 hpos
  have hle := R.size_le
  rw [R.capacity, hnil, List.length_nil] at hleft
  omega

theorem delete (R : Represents letters cap base bs t a) (few : letters.card ≤ 47)
    (hok : a.refused = false) (hk : key.strlen ≤ intMax)
    (hshort : key ∈ a.map ∨ key.strlen < 10 ∨ ∀ k ∈ a.map.keys, k.strlen ≤ key.strlen) :
    ∃ t', exec t (.delete key) = some ((a.step cap (.delete key)).1, t') ∧
      Represents letters cap base bs t' (a.step cap (.delete key)).2 := by
  have hT : Sound Tight base bs t := ⟨R.tight hok, R.sound.owns, R.sound.never⟩
  have hD := fun m (hm : TakesFromTree key t m) => (R.tight hok).below256 few R.spelled hm
  have hd := cdsaDeleteArt_discarded tight_shrinks hT.toFormed key hD
  have hspares : ∀ s t', t.env.Spare → cdsaDeleteArt t key = some (s, t') →
      t'.env.failed = t.env.failed := fun s t' => cdsaDeleteArt_spares
  have hmoves : ∀ t', cdsaDeleteArt t key = some (.ok, t') →
      Moves t.env (usedAt t.root) t'.env (usedAt t'.root) := fun t' =>
    cdsaDeleteArt_moves R.sound.toFormed.wellFormed.counts
  rw [BoundedMap.step, exec]
  generalize cdsaDeleteArt t key = res at hd hspares hmoves
  cases hd with
  | undefined hl hkey dead =>
    rw [R.sound.live hl] at dead
    cases dead
  | absent fresh =>
    have habs : key ∉ a.map := fun hm => by
      obtain ⟨l, hl, he⟩ := R.mem_iff.mp hm
      exact fresh l hl he
    rw [if_neg habs]
    exact ⟨t, rfl, R⟩
  | cut cuts => exact absurd cuts (R.whole hk hshort)
  | @removed l t' hkey formed before self shed =>
    have hmem : key ∈ a.map := R.mem_iff.mpr ⟨l, before.mem_iff.mpr List.mem_cons_self, hkey⟩
    have hf := hspares _ _ (R.spare hmem) rfl
    have hmodels : Models (pairs t'.leaves) (a.map.erase key) := by
      have hn := R.sound.filed.keys_nodup
      rw [← hkey]
      exact (R.models.del l.key).perm (del_pairs before hn).symm
    rw [if_pos hmem]
    refine ⟨t', rfl, R.next (R.sound.removed ((formed (.inr hf)).mono Tight.exact) before self shed)
      (fun _ => formed (.inr hf)) (hmoves _ rfl) hmodels fun m hm => ?_⟩
    exact .inl ⟨m, before.mem_iff.mpr (List.mem_cons_of_mem _ hm), rfl⟩

/-- One operation of the tree is one of the map. -/
theorem step (R : Represents letters cap base bs t a) (few : letters.card ≤ 47) {op : Op V}
    (hop : a.Admits letters op) :
    ∃ t', exec t op = some ((a.step cap op).1, t') ∧
      Represents letters cap base bs t' (a.step cap op).2 := by
  cases op with
  | insert key value => exact R.insert value hop.1 hop.2
  | delete key => exact R.delete few hop.1 hop.2.1 hop.2.2
  | search key =>
    refine ⟨t, ?_, R⟩
    rw [exec, search_lookup R.sound.filed R.short R.models]
    rfl

end Represents

end

theorem cdsaCreateArt_represents (letters : Finset UInt8) {base : UInt64} {bs : List (Ptr × Nat)}
    {mem : Mem} (O : Owns base bs mem) (hm : mem.NeverFails) {cap : Nat} (hcap : 0 < cap)
    (hfit : 2080 * cap + 8 < 2 ^ 64) (version : Nat) :
    ∃ (t : CdsaArtTree V) (mem' : Mem), cdsaCreateArt mem cap version = some (some t, mem') ∧
      Represents letters cap base bs t ⟨∅, false⟩ := by
  obtain ⟨t, mem', hc, hr, hs⟩ := create_sound (V := V) (Q := Tight) O hm hcap hfit version
  have hnil : t.leaves = [] := by rw [CdsaArtTree.leaves, hr, leavesAt_none]
  refine ⟨t, mem', hc, hs.mono Tight.exact, fun _ => hs.toFormed, ?_, ?_, ?_,
    cdsaCreateArt_partitioned hc, fun type => (cdsaCreateArt_fresh hc type).1⟩
  · rw [hnil]
    exact .nil
  · simp [hnil]
  · simp [hnil]

/-- Every run of a fresh tree with pools of `cap` blocks that the map admits
answers as a finite map with room for `cap` keys, and has its size. -/
theorem bounded_map (letters : Finset UInt8) (few : letters.card ≤ 47) (base : UInt64)
    (bs : List (Ptr × Nat)) (mem : Mem) (O : Owns base bs mem) (hm : mem.NeverFails)
    (cap version : Nat) (hcap : 0 < cap) (hfit : 2080 * cap + 8 < 2 ^ 64) :
    ∃ (t : CdsaArtTree V) (mem' : Mem), cdsaCreateArt mem cap version = some (some t, mem') ∧
      ∀ ops, SpecMeets (BoundedMap.step cap) (BoundedMap.Admits letters) ⟨∅, false⟩ ops →
        ∃ t', runOps exec t ops = some ((specRun (BoundedMap.step cap) ⟨∅, false⟩ ops).1, t') ∧
          cdsaSizeArt t' = (specRun (BoundedMap.step cap) ⟨∅, false⟩ ops).2.map.keys.card := by
  obtain ⟨t, mem', hc, R⟩ := cdsaCreateArt_represents (V := V) letters O hm hcap hfit version
  refine ⟨t, mem', hc, fun ops hops => ?_⟩
  have hsim : ∀ (t : CdsaArtTree V) (a : BoundedMap V) (op : Op V),
      Represents letters cap base bs t a → a.Admits letters op →
      ∃ t', exec t op = some ((a.step cap op).1, t') ∧
        Represents letters cap base bs t' (a.step cap op).2 := fun _ _ _ R hop => R.step few hop
  obtain ⟨t', hrun, R'⟩ := refine_run_spec hsim ops t ⟨∅, false⟩ R hops
  exact ⟨t', hrun, R'.size⟩

/-- A third key in pools of two blocks. -/
def crowdedSession : List (Op Nat) :=
  [.insert (byteKey 97) (some 1), .insert (byteKey 98) (some 2), .delete (byteKey 97),
    .insert (byteKey 99) (some 3), .insert (byteKey 98) (some 4), .insert (byteKey 100) (some 5),
    .search (byteKey 98), .search (byteKey 100)]

theorem bounded_map_crowded : ∃ (t : CdsaArtTree Nat) (mem : Mem) (t' : CdsaArtTree Nat),
    cdsaCreateArt ⟨0, [], 0, fun _ => true⟩ 2 0 = some (some t, mem) ∧
      runOps exec t crowdedSession = some ([.status .ok, .status .ok, .status .ok, .status .ok,
        .status .ok, .status .errOom, .found (some 4), .found none], t') ∧ cdsaSizeArt t' = 2 := by
  obtain ⟨t, mem, hc, hall⟩ := bounded_map (V := Nat) {97, 98, 99, 100} (by decide) 0 []
    ⟨0, [], 0, fun _ => true⟩ ⟨.nil, by simp, by simp, rfl⟩ (fun _ => rfl) 2 0 (by decide) (by decide)
  obtain ⟨t', hr, hsize⟩ := hall crowdedSession (by
    simp only [crowdedSession, SpecMeets, BoundedMap.Admits]
    decide +kernel)
  have houts : (specRun (BoundedMap.step 2) ⟨∅, false⟩ crowdedSession).1 = [.status .ok, .status .ok,
      .status .ok, .status .ok, .status .ok, .status .errOom, .found (some 4), .found none] := by
    decide +kernel
  rw [houts] at hr
  exact ⟨t, mem, t', hc, hr, hsize.trans (by decide +kernel)⟩

end Cdsa.Art
