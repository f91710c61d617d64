import Cdsa.L2Art.Blocks

/-!
# What an insertion takes from the pools

An insertion takes at most one block of each type: a leaf, and a Node4 or the
next larger layout. `Draws e ts e'`: from `e` to `e'` no pool was found
exhausted, and no pool gave more blocks than `ts` lists. So as many insertions as
every pool has free blocks find no pool exhausted (`run_draws`).
-/
namespace Cdsa.Art

open Cdsa.Core Cdsa.Memory

variable {V : Type}

structure Draws (e : Env) (ts : List NodeType) (e' : Env) : Prop where
  failed : e'.failed = e.failed
  room : ∀ type, (e.free type).length ≤ (e'.free type).length + ts.count type

namespace Draws
variable {e e' e'' : Env} {ts ts' : List NodeType}

theorem of_free (hf : e'.failed = e.failed) (h : e'.free = e.free) : Draws e [] e' :=
  ⟨hf, fun type => by rw [h]; exact Nat.le_add_right _ _⟩

theorem trans (h : Draws e ts e') (h' : Draws e' ts' e'') : Draws e (ts ++ ts') e'' := by
  refine ⟨h'.failed.trans h.failed, fun type => ?_⟩
  have h1 := h.room type
  have h2 := h'.room type
  rw [List.count_append]
  omega

theorem freeBlock (h : Draws e ts e') (type : NodeType) (block : Nat) :
    Draws e ts (e'.freeBlock type block) := by
  refine ⟨h.failed, fun t => (h.room t).trans (Nat.add_le_add_right ?_ _)⟩
  unfold Env.freeBlock
  rw [free_update]
  by_cases ht : t = type
  · subst ht
    rw [Function.update_self]
    exact Nat.le_succ _
  · rw [Function.update_of_ne ht]

end Draws

/-- Every pool has a block. -/
def Env.Stocked (e : Env) : Prop := ∀ type, e.free type ≠ []

section
variable {e e' : Env} {key : CStr} {value : Option V} {s : Status}

theorem allocBlock_draws {type : NodeType} (h : e.free type ≠ []) :
    ∃ b e1, e.allocBlock type = (some b, e1) ∧ Draws e [type] e1 ∧
      ∀ t, t ≠ type → e1.free t = e.free t := by
  obtain ⟨b, bs, hl⟩ := List.exists_cons_of_ne_nil h
  have hpool : (e.slab.pools type).freeList = b :: bs := hl
  let pool : Kpool := { e.slab.pools type with freeList := bs }
  refine ⟨b, { e with slab := { e.slab with pools := Function.update e.slab.pools type pool } }, ?_,
    ⟨rfl, fun t => ?_⟩, fun t ht => ?_⟩
  · rw [Env.allocBlock, kpoolAlloc, hpool]
  · rw [free_update]
    by_cases ht : t = type
    · subst ht
      rw [Function.update_self, hl]
      simp [pool]
    · rw [Function.update_of_ne ht]
      exact Nat.le_add_right _ _
  · rw [free_update, Function.update_of_ne ht]

theorem allocLeaf_draws (h : e.free .leafNode ≠ []) {o : Option (ArtLeaf V)}
    (ha : allocLeaf e key value = some (o, e')) :
    (∃ l, o = some l) ∧ ∀ size, Draws e [.leafNode] { e' with size } := by
  obtain ⟨b, e1, hb, D, -⟩ := allocBlock_draws h
  unfold allocLeaf at ha
  rw [hb] at ha
  simp only at ha
  split at ha
  · cases ha
  · cases ha
    exact ⟨⟨_, rfl⟩, fun size => ⟨D.failed, D.room⟩⟩

/-- A block of an inner node, then a leaf. -/
theorem pair_draws (h : e.Stocked) (type : NodeType) (ht : type ≠ .leafNode) :
    ∃ b e1, e.allocBlock type = (some b, e1) ∧ Draws e [type] e1 ∧ e1.free .leafNode ≠ [] := by
  obtain ⟨b, e1, hb, D, hother⟩ := allocBlock_draws (h type)
  exact ⟨b, e1, hb, D, by rw [hother _ (Ne.symm ht)]; exact h _⟩

theorem splitLeaf_draws (hs : e.Stocked) {l : ArtLeaf V} {depth : Nat} {y : Node V}
    (h : splitLeaf e l key value depth = some (s, y, e')) :
    ∃ ts : List NodeType, ts.Nodup ∧ Draws e ts e' := by
  obtain ⟨b, e1, hb, D, hleaf⟩ := pair_draws hs .node4 (by decide)
  unfold splitLeaf at h
  simp only [hb] at h
  split at h
  · cases h
  split at h
  · cases h
    exact ⟨[], List.nodup_nil, .of_free rfl rfl⟩
  obtain ⟨bs, -, h⟩ := Option.bind_eq_some_iff.mp h
  obtain ⟨⟨o, e2⟩, ha, he⟩ := Option.map_eq_some_iff.mp h
  obtain ⟨⟨m, rfl⟩, D2⟩ := allocLeaf_draws hleaf ha
  cases he
  exact ⟨[.node4, .leafNode], by decide, D.trans (D2 _)⟩

theorem splitPrefix_draws (hs : e.Stocked) {n : Inner (Node V)} {depth matchLen : Nat} {y : Node V}
    (h : splitPrefix e n key value depth matchLen = some (s, y, e')) :
    ∃ ts : List NodeType, ts.Nodup ∧ Draws e ts e' := by
  obtain ⟨b, e1, hb, D, hleaf⟩ := pair_draws hs .node4 (by decide)
  unfold splitPrefix at h
  simp only [hb] at h
  obtain ⟨⟨o, e2⟩, ha, h⟩ := Option.bind_eq_some_iff.mp h
  obtain ⟨⟨m, rfl⟩, D2⟩ := allocLeaf_draws hleaf ha
  obtain ⟨bs, -, h⟩ := Option.bind_eq_some_iff.mp h
  obtain ⟨leaf, -, h⟩ := Option.bind_eq_some_iff.mp h
  obtain ⟨oldChar, -, h⟩ := Option.bind_eq_some_iff.mp h
  obtain ⟨rest, -, h⟩ := Option.bind_eq_some_iff.mp h
  obtain ⟨newChar, -, he⟩ := Option.map_eq_some_iff.mp h
  cases he
  exact ⟨[.node4, .leafNode], by decide, D.trans (D2 _)⟩

theorem addLeaf_draws (hleaf : e.free .leafNode ≠ []) {n y : Inner (Node V)}
    {put : Node V → Option (Inner (Node V))}
    (h : addLeaf e n key value put = some (s, y, e')) : Draws e [.leafNode] e' := by
  obtain ⟨⟨o, e2⟩, ha, h⟩ := Option.bind_eq_some_iff.mp h
  obtain ⟨⟨m, rfl⟩, D⟩ := allocLeaf_draws hleaf ha
  obtain ⟨n', -, he⟩ := Option.map_eq_some_iff.mp h
  cases he
  exact D _

/-- In a larger layout, whose old block has been given back. -/
theorem addLeaf_upgraded_draws {type old : NodeType} {b : Nat} {e1 : Env} (ht : type ≠ .leafNode)
    (D : Draws e [type] e1) (hleaf : e1.free .leafNode ≠ []) {n y : Inner (Node V)}
    {put : Node V → Option (Inner (Node V))}
    (h : addLeaf (e1.freeBlock old b) n key value put = some (s, y, e')) :
    ∃ ts : List NodeType, ts.Nodup ∧ Draws e ts e' := by
  refine ⟨[type, .leafNode], by simp [ht], (D.freeBlock old b).trans (addLeaf_draws ?_ h)⟩
  have := ((Draws.of_free rfl rfl : Draws e1 [] e1).freeBlock old b).room .leafNode
  have hpos := List.length_pos_iff.mpr hleaf
  rw [List.count_nil] at this
  exact List.length_pos_iff.mp (by omega)

theorem addChild_draws (hs : e.Stocked) {c : UInt8} {n y : Inner (Node V)}
    (h : addChild e c key value n = some (s, y, e')) :
    ∃ ts : List NodeType, ts.Nodup ∧ Draws e ts e' := by
  have hadd : ∀ {put : Node V → Option (Inner (Node V))},
      addLeaf e n key value put = some (s, y, e') → ∃ ts : List NodeType, ts.Nodup ∧ Draws e ts e' :=
    fun h => ⟨[.leafNode], by decide, addLeaf_draws (hs _) h⟩
  cases n with
  | node4 p =>
    rw [addChild] at h
    split at h
    · exact hadd h
    · obtain ⟨b, e1, hb, D, hleaf⟩ := pair_draws hs .node16 (by decide)
      rw [upgradeNode4ToNode16, hb] at h
      exact addLeaf_upgraded_draws (by decide) D hleaf h
  | node16 p =>
    rw [addChild] at h
    split at h
    · exact hadd h
    · obtain ⟨b, e1, hb, D, hleaf⟩ := pair_draws hs .node48 (by decide)
      rw [upgradeNode16ToNode48, hb] at h
      obtain ⟨⟨o, e2⟩, hu, h⟩ := Option.bind_eq_some_iff.mp h
      obtain ⟨m, -, he⟩ := Option.map_eq_some_iff.mp hu
      cases he
      exact addLeaf_upgraded_draws (by decide) D hleaf h
  | node48 p =>
    rw [addChild] at h
    split at h
    · exact hadd h
    · obtain ⟨b, e1, hb, D, hleaf⟩ := pair_draws hs .node256 (by decide)
      rw [upgradeNode48ToNode256, hb] at h
      exact addLeaf_upgraded_draws (by decide) D hleaf h
  | node256 p =>
    rw [addChild] at h
    exact hadd h

theorem insertLoop_draws (hs : e.Stocked) : ∀ {fuel : Nat} {node : Node V} {depth : Nat} {s : Status}
    {y : Node V} {e' : Env}, insertLoop key value fuel e node depth = some (s, y, e') →
      ∃ ts : List NodeType, ts.Nodup ∧ Draws e ts e'
  | 0, _, _, _, _, _, h => by cases h
  | fuel + 1, .leaf l, _, _, _, _, h => splitLeaf_draws hs h
  | fuel + 1, .inner n, depth, s, y, e', h => by
    have hstay : ∃ ts : List NodeType, ts.Nodup ∧ Draws e ts e :=
      ⟨[], List.nodup_nil, .of_free rfl rfl⟩
    obtain ⟨matchLen, -, h⟩ := Option.bind_eq_some_iff.mp h
    split at h
    · exact splitPrefix_draws hs h
    split at h
    · cases h
      exact hstay
    split at h
    · cases h
    obtain ⟨c, -, h⟩ := Option.bind_eq_some_iff.mp h
    split at h
    · obtain ⟨r, hr, he⟩ := Option.map_eq_some_iff.mp h
      cases he
      exact insertLoop_draws hs hr
    · obtain ⟨r, hr, he⟩ := Option.map_eq_some_iff.mp h
      cases he
      exact addChild_draws hs hr
    · obtain ⟨r, hr, he⟩ := Option.map_eq_some_iff.mp h
      cases he
      exact addChild_draws hs hr
    · cases h
      exact hstay

theorem cdsaInsertArt_draws {t t' : CdsaArtTree V} (hs : t.env.Stocked)
    (h : cdsaInsertArt t key value = some (s, t')) :
    t'.env.failed = t.env.failed ∧
      ∀ type, (t.env.free type).length ≤ (t'.env.free type).length + 1 := by
  suffices hd : ∃ ts : List NodeType, ts.Nodup ∧ Draws t.env ts t'.env by
    obtain ⟨ts, hn, D⟩ := hd
    exact ⟨D.failed, fun type =>
      (D.room type).trans (Nat.add_le_add_left (List.nodup_iff_count_le_one.mp hn type) _)⟩
  obtain ⟨⟨s, t1⟩, hi, he⟩ := Option.map_eq_some_iff.mp h
  have henv : t'.env = t1.env := by
    have := congrArg (fun r => r.2.env) he
    simp only at this
    rw [← this]
    split <;> rfl
  rw [henv]
  unfold insertArtInternal at hi
  split at hi
  · obtain ⟨⟨o, e2⟩, ha, he⟩ := Option.map_eq_some_iff.mp hi
    obtain ⟨⟨l, rfl⟩, D⟩ := allocLeaf_draws (hs _) ha
    cases he
    exact ⟨[.leafNode], by decide, D _⟩
  · obtain ⟨⟨s', y, e2⟩, hr, he⟩ := Option.map_eq_some_iff.mp hi
    cases he
    exact insertLoop_draws hs hr

end

/-- As many insertions as every pool has blocks. -/
theorem run_draws : ∀ {kvs : List (CStr × Option V)} {t t' : CdsaArtTree V} {outs : List Status},
    (∀ type, kvs.length ≤ (t.env.free type).length) → runOps insertStep t kvs = some (outs, t') →
      t'.env.failed = t.env.failed
  | [], t, t', outs, _, h => by cases h; rfl
  | q :: kvs, t, t', outs, hroom, h => by
    obtain ⟨⟨s, t1⟩, h1, h⟩ := Option.bind_eq_some_iff.mp h
    obtain ⟨⟨outs', t2⟩, h2, he⟩ := Option.map_eq_some_iff.mp h
    cases he
    obtain ⟨hf, hless⟩ := cdsaInsertArt_draws (fun type hnil => by
      have := hroom type
      rw [hnil] at this
      simp at this) h1
    refine (run_draws (fun type => ?_) h2).trans hf
    have h3 := hroom type
    have h4 : _ ≤ (t1.env.free type).length + 1 := hless type
    rw [List.length_cons] at h3
    exact Nat.le_of_succ_le_succ (h3.trans h4)

end Cdsa.Art
