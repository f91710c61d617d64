import Cdsa.L2Art.Occupancy

/-!
# Insertions that run out of memory

`CDSA_ERR_OOM` may leave a larger layout in the tree, where a node was upgraded
before the leaf could not be allocated. `SameSearch x y`: searches below `y`
find what they find below `x`, and exchanging a child for such a one keeps that
(`sameSearch_setChild`). So whichever allocation has failed, no search tells the
tree from the one before (`oom_keeps_mapping`).
-/
namespace Cdsa.Art

open Cdsa.Core Cdsa.Memory

variable {V : Type}

def SameSearch (x y : Node V) : Prop :=
  ∀ (key : CStr) (fuel depth : Nat), searchLoop key fuel y depth = searchLoop key fuel x depth

theorem SameSearch.refl (x : Node V) : SameSearch x x := fun _ _ _ => rfl

section
variable {n n' : Inner (Node V)}

/-- The same header and, byte for byte, children that are searched alike. -/
theorem sameSearch_inner (hh : n'.header = n.header)
    (hl : ∀ c, n'.look c = n.look c ∨
      ∃ x y, n.look c = some x ∧ n'.look c = some y ∧ SameSearch x y) :
    SameSearch (.inner n) (.inner n') := by
  intro key fuel depth
  cases fuel with
  | zero => rfl
  | succ fuel =>
    simp only [searchLoop, hh]
    refine Option.bind_congr fun entry _ => ?_
    cases entry with
    | mismatch => rfl
    | past => rfl
    | below depth =>
      refine Option.bind_congr fun c _ => ?_
      rcases hl c with he | ⟨x, y, hx, hy, hs⟩
      · rw [he]
      · rw [hx, hy]
        exact hs key fuel (depth + 1)

theorem sameSearch_setChild (valid : n.Valid) {c : UInt8} {x y : Node V} (hc : n.look c = some x)
    (hs : SameSearch x y) : SameSearch (.inner n) (.inner (n.setChild c (some y))) := by
  refine sameSearch_inner (setChild_header ..) fun d => ?_
  rw [look_setChild valid.coherent hc]
  by_cases hd : d = c
  · subst hd
    exact .inr ⟨x, y, hc, Function.update_self .., hs⟩
  · exact .inl (Function.update_of_ne hd ..)

end

/-! ## The places where an allocation fails -/

section
variable {key : CStr} {value : Option V} {e e' : Env} {y : Node V}

theorem allocLeaf_size {l : Option (ArtLeaf V)} (h : allocLeaf e key value = some (l, e')) :
    e'.size = e.size := by
  rcases allocLeaf_cases e key value with ⟨hn, -⟩ | ⟨e1, h1, ha, -⟩ | ⟨m, e1, h1, -, -, hg⟩
  · rw [hn] at h
    cases h
  · rw [h1] at h
    cases h
    exact ha.size
  · rw [h1] at h
    cases h
    exact Nat.succ.inj hg.size

theorem splitLeaf_oom {l : ArtLeaf V} {depth : Nat}
    (h : splitLeaf e l key value depth = some (.errOom, y, e')) :
    y = .leaf l ∧ e'.size = e.size := by
  unfold splitLeaf at h
  simp only at h
  split at h
  · cases h
  split at h
  · cases h
  rcases allocBlock_cases .node4 e with ⟨e1, ha, hA, -⟩ | ⟨b, e1, ha, hA, -⟩
  · rw [ha] at h
    cases h
    exact ⟨rfl, hA.size⟩
  · rw [ha] at h
    obtain ⟨bs, -, h⟩ := Option.bind_eq_some_iff.mp h
    obtain ⟨⟨o, e2⟩, hl, he⟩ := Option.map_eq_some_iff.mp h
    cases o with
    | none =>
      cases he
      exact ⟨rfl, (allocLeaf_size hl).trans hA.size⟩
    | some m => cases he

theorem splitPrefix_oom {n : Inner (Node V)} {depth matchLen : Nat}
    (h : splitPrefix e n key value depth matchLen = some (.errOom, y, e')) :
    y = .inner n ∧ e'.size = e.size := by
  unfold splitPrefix at h
  rcases allocBlock_cases .node4 e with ⟨e1, ha, hA, -⟩ | ⟨b, e1, ha, hA, -⟩
  · rw [ha] at h
    cases h
    exact ⟨rfl, hA.size⟩
  · rw [ha] at h
    obtain ⟨⟨o, e2⟩, hl, h⟩ := Option.bind_eq_some_iff.mp h
    cases o with
    | none =>
      cases h
      exact ⟨rfl, (allocLeaf_size hl).trans hA.size⟩
    | some m =>
      -- past the two allocations every way out is a success
      obtain ⟨_, -, h⟩ := Option.bind_eq_some_iff.mp h
      obtain ⟨_, -, h⟩ := Option.bind_eq_some_iff.mp h
      obtain ⟨_, -, h⟩ := Option.bind_eq_some_iff.mp h
      obtain ⟨_, -, h⟩ := Option.bind_eq_some_iff.mp h
      obtain ⟨_, -, he⟩ := Option.map_eq_some_iff.mp h
      cases he

/-- The layout may have changed, the routing has not. -/
theorem addChild_oom {n n' : Inner (Node V)} (valid : n.Valid) {c : UInt8} (hc : n.look c = none)
    (h : addChild e c key value n = some (.errOom, n', e')) :
    SameSearch (.inner n) (.inner n') ∧ e'.size = e.size := by
  have hadd := addChild_added (Q := fun _ _ _ => True) ⟨trivial, fun _ _ _ _ _ => trivial,
    fun _ _ _ _ => trivial, trivial, trivial, trivial⟩ valid hc trivial key value e
  rw [h] at hadd
  cases hadd with
  | oom routes _ alike _ =>
    exact ⟨sameSearch_inner routes.header fun d => .inl (by rw [routes.look]), alike.size⟩

end

theorem insertLoop_oom (key : CStr) (value : Option V) : ∀ {fuel : Nat} {e e' : Env}
    {node : Node V} {depth : Nat} {y : Node V}, (∀ m, node.Has m → m.Valid) →
      insertLoop key value fuel e node depth = some (.errOom, y, e') →
      SameSearch node y ∧ e'.size = e.size := by
  intro fuel
  induction fuel with
  | zero =>
    intro e e' node depth y _ ho
    cases ho
  | succ fuel ih =>
    intro e e' node depth y valid ho
    cases node with
    | leaf l =>
      obtain ⟨rfl, hs⟩ := splitLeaf_oom ho
      exact ⟨.refl _, hs⟩
    | inner n =>
      have hn := valid n (.self n)
      rw [insertLoop_inner hn.coherent] at ho
      obtain ⟨matchLen, -, ho⟩ := Option.bind_eq_some_iff.mp ho
      split at ho
      · obtain ⟨rfl, hs⟩ := splitPrefix_oom ho
        exact ⟨.refl _, hs⟩
      split at ho
      · cases ho
      split at ho
      · cases ho
      obtain ⟨c, -, ho⟩ := Option.bind_eq_some_iff.mp ho
      cases hc : n.look c with
      | some x =>
        rw [hc] at ho
        obtain ⟨⟨s, z, e1⟩, hx, he⟩ := Option.map_eq_some_iff.mp ho
        cases he
        obtain ⟨hs, hsize⟩ := ih (Node.Has.down hc valid) hx
        exact ⟨sameSearch_setChild hn hc hs, hsize⟩
      | none =>
        rw [hc] at ho
        obtain ⟨⟨s, n', e1⟩, ha, he⟩ := Option.map_eq_some_iff.mp ho
        cases he
        exact addChild_oom hn hc ha

/-- Whichever pool was exhausted, an insertion into a well-formed tree that
answers `CDSA_ERR_OOM` has changed no search, nor size or version. -/
theorem oom_keeps_mapping (t t' : CdsaArtTree V) (h : WellFormed t) (key : CStr)
    (value : Option V) (ho : cdsaInsertArt t key value = some (.errOom, t')) :
    (∀ k, cdsaSearchArt t' k = cdsaSearchArt t k) ∧ cdsaSizeArt t' = cdsaSizeArt t ∧
      t'.version = t.version := by
  obtain ⟨⟨s, t1⟩, hi, he⟩ := Option.map_eq_some_iff.mp ho
  simp only [Prod.mk.injEq] at he
  obtain ⟨rfl, rfl⟩ := he
  rw [if_neg (show Status.errOom ≠ .ok by decide)]
  unfold insertArtInternal at hi
  cases hr : t.root with
  | none =>
    rw [hr] at hi
    obtain ⟨⟨o, e⟩, hl, he⟩ := Option.map_eq_some_iff.mp hi
    cases o with
    | none =>
      cases he
      refine ⟨fun k => ?_, allocLeaf_size hl, rfl⟩
      unfold cdsaSearchArt
      rw [hr]
    | some l => cases he
  | some r =>
    rw [hr] at hi
    obtain ⟨⟨s, y, e⟩, hl, he⟩ := Option.map_eq_some_iff.mp hi
    cases he
    obtain ⟨hs, hsize⟩ := insertLoop_oom key value (fun m hm => (h.counts r m hr hm).1) hl
    refine ⟨fun k => ?_, hsize, rfl⟩
    unfold cdsaSearchArt
    rw [hr]
    exact hs k _ _

set_option synthInstance.maxSize 1000 in
/-- Pools of four: the fifth key upgrades the root to a Node16 and then finds no
leaf. -/
theorem oom_keeps_mapping_upgraded : ∃ t t' : CdsaArtTree Nat,
    cdsaInsertArt t (byteKey 5) (some 4) = some (.errOom, t') ∧
    rootCounts t = some (.node4, 4, 4) ∧ rootCounts t' = some (.node16, 4, 4) ∧
    (∀ k, cdsaSearchArt t' k = cdsaSearchArt t k) ∧ cdsaSizeArt t' = cdsaSizeArt t := by
  obtain ⟨t0, mem, hc, hrun⟩ : ∃ (t0 : CdsaArtTree Nat) (mem : Mem),
      cdsaCreateArt ⟨0, [], 0, fun _ => true⟩ 4 0 = some (some t0, mem) ∧
      ((runOps insertStep t0 ((List.range 4).map fun i =>
        (byteKey (UInt8.ofNat (i + 1)), some i))).bind fun q =>
          (cdsaInsertArt q.2 (byteKey 5) (some 4)).map fun p =>
            (q.1.all (· == .ok), p.1, rootCounts q.2, rootCounts p.2)) =
        some (true, .errOom, some (.node4, 4, 4), some (.node16, 4, 4)) := by
    refine ⟨_, _, rfl, ?_⟩
    decide +kernel
  obtain ⟨⟨outs, t⟩, hr, hrun⟩ := Option.bind_eq_some_iff.mp hrun
  obtain ⟨⟨s, t'⟩, hi, he⟩ := Option.map_eq_some_iff.mp hrun
  simp only [Prod.mk.injEq, List.all_eq_true, beq_iff_eq] at he
  obtain ⟨hok, rfl, h4, h16⟩ := he
  have hb : Built t := (Built.create hc).run hr hok
  obtain ⟨hsearch, hsize, -⟩ := oom_keeps_mapping t t' hb.formed.wellFormed (byteKey 5) (some 4) hi
  exact ⟨t, t', hi, h4, h16, hsearch, hsize⟩

end Cdsa.Art
