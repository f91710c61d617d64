import Cdsa.L2Art.Shrink

/-!
# One map in four layouts

Whatever the layout, a node is a map from bytes to children. Upgrading a full
node and downgrading one that fits the smaller layout keep the map and the
prefix; adding and removing a child change it at one byte.
-/
namespace Cdsa.Art

open Cdsa.Core Cdsa.Memory

variable {V P : Type}

/-- The layout for a node that has outgrown its own. -/
def NodeType.larger : NodeType → Option NodeType
  | .node4 => some .node16
  | .node16 => some .node48
  | .node48 => some .node256
  | .node256 | .leafNode => none

/-- `upgrade_node4_to_node16` and its siblings; a Node256 stays. -/
def Inner.upgrade (e : Env) : Inner P → Option (Option (Inner P) × Env)
  | .node4 n => let r := upgradeNode4ToNode16 e n; some (r.1.map .node16, r.2)
  | .node16 n => (upgradeNode16ToNode48 e n).map fun r => (r.1.map .node48, r.2)
  | .node48 n => let r := upgradeNode48ToNode256 e n; some (r.1.map .node256, r.2)
  | .node256 n => some (some (.node256 n), e)

/-- `downgrade_node256_to_node48` and its siblings; a Node4 stays. -/
def Inner.downgrade (e : Env) : Inner P → Option (Option (Inner P) × Env)
  | .node256 n => (downgradeNode256ToNode48 e n).map fun r => (r.1.map .node48, r.2)
  | .node48 n => (downgradeNode48ToNode16 e n).map fun r => (r.1.map .node16, r.2)
  | .node16 n => let r := downgradeNode16ToNode4 e n; some (r.1.map .node4, r.2)
  | .node4 n => some (some (.node4 n), e)

/-- The arrays agree and `num_children` is the number of children. -/
structure Inner.Exact (n : Inner P) : Prop where
  valid : n.Valid
  count : n.numChildren = n.kids.length

section
variable {n : Inner P} {t : NodeType} {e e' : Env} {b : Nat}

/-- Only a full node needs upgrading, but any node can be. -/
theorem upgrade_copies (hn : n.Exact) (ht : n.type.larger = some t)
    (ha : e.allocBlock t = (some b, e')) :
    ∃ m, n.upgrade e = some (some m, e'.freeBlock n.type n.block) ∧ m.type = t ∧ Copies n m b := by
  cases n with
  | node4 p =>
    cases ht
    obtain ⟨m, hm, C⟩ := upgradeNode4ToNode16_spec (show p.Valid 4 from hn.valid) ha
    exact ⟨_, by simp only [Inner.upgrade, hm]; rfl, rfl, C⟩
  | node16 p =>
    cases ht
    obtain ⟨m, hm, C, -⟩ := upgradeNode16ToNode48_spec (show p.Valid 16 from hn.valid) ha
    exact ⟨_, by simp only [Inner.upgrade, hm]; rfl, rfl, C⟩
  | node48 p =>
    cases ht
    obtain ⟨m, hm, C⟩ := upgradeNode48ToNode256_spec p ha
    exact ⟨_, by simp only [Inner.upgrade, hm]; rfl, rfl, C⟩
  | node256 p => cases ht

theorem downgrade_copies (hn : n.Exact) {k : Nat} (ht : n.type.smaller = some (t, k))
    (fits : n.numChildren ≤ k) (ha : e.allocBlock t = (some b, e')) :
    ∃ m, n.downgrade e = some (some m, e'.freeBlock n.type n.block) ∧ m.type = t ∧
      Copies n m b := by
  cases n with
  | node4 p => cases ht
  | node16 p =>
    cases ht
    obtain ⟨m, hm, C⟩ := downgradeNode16ToNode4_spec (show p.Valid 16 from hn.valid) fits ha
    exact ⟨_, by simp only [Inner.downgrade, hm]; rfl, rfl, C⟩
  | node48 p =>
    cases ht
    obtain ⟨m, hm, C⟩ := downgradeNode48ToNode16_spec (show p.Valid from hn.valid) fits ha
    exact ⟨_, by simp only [Inner.downgrade, hm]; rfl, rfl, C⟩
  | node256 p =>
    cases ht
    obtain ⟨m, hm, C⟩ := downgradeNode256ToNode48_spec (by rw [← hn.count]; exact fits) ha
    exact ⟨_, by simp only [Inner.downgrade, hm]; rfl, rfl, C⟩

end

/-- `addChild` for a byte without a child either puts a leaf there or fails with
the map as it was; only a refused copy of the key leaves it undefined. -/
theorem addChild_routes {n : Inner (Node V)} (hv : n.Valid) {c : UInt8} (hc : n.look c = none)
    (key : CStr) (value : Option V) (e : Env) :
    (addChild e c key value n = none → e.mem.answers e.mem.asked = false) ∧
    ∀ s n' e', addChild e c key value n = some (s, n', e') → n'.header = n.header ∧
      ((s = .ok ∧ ∃ l, l.key = key ∧ l.value = value ∧
          n'.look = Function.update n.look c (some (.leaf l))) ∨
        (s ≠ .ok ∧ n'.look = n.look)) := by
  have A := addChild_added (Q := fun _ _ _ => True)
    ⟨trivial, fun _ _ _ _ _ => trivial, fun _ _ _ _ => trivial, trivial, trivial, trivial⟩
    hv hc trivial key value e
  revert A
  generalize addChild e c key value n = r
  intro A
  cases A with
  | undefined refused => exact ⟨fun _ => refused, by simp⟩
  | oom routes =>
    refine ⟨by simp, fun s n' e' h => ?_⟩
    cases h
    exact ⟨routes.header, .inr ⟨by simp, routes.look⟩⟩
  | ok hkey hvalue routes =>
    refine ⟨by simp, fun s n' e' h => ?_⟩
    cases h
    exact ⟨routes.header, .inl ⟨rfl, _, hkey, hvalue, routes.look⟩⟩

/-- Conversions keep the children and the prefix, additions and removals change
the child of one byte, and a Node48 with room has a free slot. -/
theorem morphing_preserves_routing (n : Inner (Node V)) (hn : n.Exact) :
    (∀ t e b e', n.type.larger = some t → n.numChildren = n.type.capacity →
      e.allocBlock t = (some b, e') →
      ∃ m, n.upgrade e = some (some m, e'.freeBlock n.type n.block) ∧ m.type = t ∧
        m.header = n.header ∧ ∀ c, m.look c = n.look c) ∧
    (∀ t k e b e', n.type.smaller = some (t, k) → n.numChildren ≤ k →
      e.allocBlock t = (some b, e') →
      ∃ m, n.downgrade e = some (some m, e'.freeBlock n.type n.block) ∧ m.type = t ∧
        m.header = n.header ∧ ∀ c, m.look c = n.look c) ∧
    (∀ c, n.look c = none → ∀ key value e,
      (addChild e c key value n = none → e.mem.answers e.mem.asked = false) ∧
      ∀ s n' e', addChild e c key value n = some (s, n', e') → n'.header = n.header ∧
        ((s = .ok ∧ ∃ l, l.key = key ∧ l.value = value ∧
            n'.look = Function.update n.look c (some (.leaf l))) ∨
          (s ≠ .ok ∧ n'.look = n.look))) ∧
    (∀ c x, n.look c = some x → ((n.setChild c none).removeChild c).header = n.header ∧
      ((n.setChild c none).removeChild c).look = Function.update n.look c none) ∧
    ∀ p, n = .node48 p → p.numChildren < 48 → ∃ i, freeIndex p.children = some i ∧ i < 48 := by
  refine ⟨fun t e b e' ht _ ha => ?_, fun t k e b e' ht fits ha => ?_,
    fun c hc key value e => addChild_routes hn.valid hc key value e, fun c x hc => ?_, ?_⟩
  · obtain ⟨m, hm, htype, C⟩ := upgrade_copies hn ht ha
    exact ⟨m, hm, htype, C.header, congrFun C.look⟩
  · obtain ⟨m, hm, htype, C⟩ := downgrade_copies hn ht fits ha
    exact ⟨m, hm, htype, C.header, congrFun C.look⟩
  · have R := (removeChild_spec hn.valid hc).1
    exact ⟨R.header, R.look⟩
  · rintro p rfl room
    obtain ⟨i, hi, hlt, -⟩ := freeIndex_spec (show p.Valid from hn.valid) room
    exact ⟨i, hi, hlt⟩

/-- A Node48 as its allocation leaves it. -/
def emptyNode48 : Node48 P := ⟨0, .zero, 0, fun _ => ART_EMPTY_SLOT, List.replicate 48 none⟩

theorem emptyNode48_look : (Inner.node48 (emptyNode48 : Node48 P)).look = fun _ => none := by
  funext c
  exact (look_node48 _ c).trans (if_pos rfl)

theorem emptyNode48_valid : (emptyNode48 : Node48 P).Valid := by
  refine ⟨List.length_replicate, fun c hc => absurd rfl hc, fun c d hc => absurd rfl hc,
    fun i x hx => ?_, ?_⟩
  · have hnone : slot (emptyNode48 : Node48 P).children i = none := by
      simp only [emptyNode48, slot, List.getD_eq_getElem?_getD, List.getElem?_replicate]
      split <;> rfl
    rw [hnone] at hx; cases hx
  · simp only [Inner.kids, emptyNode48_look, graph, Option.map_none, List.filterMap_none]
    rfl

/-- Its only child sits behind a hole. -/
def holedNode : Node48 (Node Nat) :=
  emptyNode48.put 97 1 (.leaf ⟨0, 0, .ofArray [97], none⟩)

theorem morphing_preserves_routing_holed : (∃ x, slot holedNode.children 1 = some x) ∧
    ∃ i, freeIndex holedNode.children = some i ∧ i < 48 := by
  have R : Routes (.node48 emptyNode48) (.node48 holedNode) _ :=
    Node48.put_spec emptyNode48_valid _ (congrFun emptyNode48_look _) (by decide) rfl
  have hexact : (Inner.node48 holedNode).Exact :=
    ⟨R.valid, Inner.Valid.count R.valid (by simp [Inner.type])⟩
  exact ⟨⟨_, rfl⟩, (morphing_preserves_routing _ hexact).2.2.2.2 holedNode rfl (by decide)⟩

end Cdsa.Art
