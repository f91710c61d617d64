import Mathlib.Data.Finset.Card
import Mathlib.Data.Finset.Insert
import Cdsa.L2Art.Walk

/-!
# How deep a set of keys nests

On the way to a leaf there is one inner node for every length at which its key
parts from another stored key (`forks`). So the nesting of a tree in which every
inner node has two children at least can be read off its keys
(`nesting_le_iff`).
-/
namespace Cdsa.Art

open Cdsa.Core Cdsa.Memory

variable {V : Type}

/-- The lengths that `key` shares with the other keys. -/
def forks (keys : List CStr) (key : CStr) : Finset Nat :=
  ((keys.filter fun k => k ≠ key).map fun k => agree key.bytes k.bytes).toFinset

theorem mem_forks {keys : List CStr} {key : CStr} {i : Nat} :
    i ∈ forks keys key ↔ ∃ k ∈ keys, k ≠ key ∧ agree key.bytes k.bytes = i := by
  simp [forks, and_assoc]

/-- Only which keys there are matters. -/
theorem forks_congr {keys keys' : List CStr} (h : ∀ k, k ∈ keys ↔ k ∈ keys') (key : CStr) :
    forks keys key = forks keys' key := by
  ext i
  simp only [mem_forks, h]

/-- Keys that go on with different bytes share what comes before. -/
theorem agree_fork {q : List UInt8} {k k' : CStr} {c d : UInt8} (hk : q ++ [c] <+: k.term)
    (hk' : q ++ [d] <+: k'.term) (hne : c ≠ d) : k ≠ k' ∧ agree k.bytes k'.bytes = q.length := by
  have hdiff : k ≠ k' := fun he => hne (byte_unique hk (he ▸ hk'))
  refine ⟨hdiff, ?_⟩
  rw [← agree_term k.noNul k'.noNul fun he => hdiff (CStr.ext he)]
  obtain ⟨r, hr⟩ := hk
  obtain ⟨r', hr'⟩ := hk'
  rw [show k.bytes ++ [0] = q ++ (c :: r) by simpa [CStr.term] using hr.symm,
    show k'.bytes ++ [0] = q ++ (d :: r') by simpa [CStr.term] using hr'.symm,
    agree_append (List.prefix_append _ _), List.drop_left, agree, if_neg hne, Nat.add_zero]

/-- Keys below the same child share its byte as well. -/
theorem agree_below {p : List UInt8} {k k' : CStr} (hk : p <+: k.term) (hk' : p <+: k'.term)
    (hne : k ≠ k') : p.length ≤ agree k.bytes k'.bytes := by
  rw [← agree_term k.noNul k'.noNul fun he => hne (CStr.ext he)]
  exact le_agree hk hk'

theorem exists_other_kid {P : Type} {n : Inner P} (two : 2 ≤ n.kids.length) (c : UInt8) :
    ∃ d y, n.look d = some y ∧ d ≠ c := by
  by_contra hall
  push Not at hall
  have hn : (n.kids.map Prod.fst).Nodup := graph_nodup allBytes_nodup n.look
  have hsub : n.kids.map Prod.fst ⊆ [c] := fun d hd => by
    obtain ⟨q, hq, rfl⟩ := List.mem_map.mp hd
    exact List.mem_singleton.mpr (hall q.1 q.2 (mem_kids.mp hq))
  have hle := (hn.subperm hsub).length_le
  rw [List.length_map, List.length_singleton] at hle
  omega

/-- With a fork at the end of the path, and those below the child. -/
theorem forks_inner {path shared : List UInt8} {n : Inner (Node V)} (two : 2 ≤ n.kids.length)
    (kids : ∀ c x, n.look c = some x → Filed (path ++ shared ++ [c]) x) {c : UInt8} {x : Node V}
    (hc : n.look c = some x) {l : ArtLeaf V} (hl : l ∈ x.leaves) :
    (forks ((Node.inner n).leaves.map ArtLeaf.key) l.key).card =
      (forks (x.leaves.map ArtLeaf.key) l.key).card + 1 := by
  have hlc := (kids c x hc).follows l hl
  have hnot : (path ++ shared).length ∉ forks (x.leaves.map ArtLeaf.key) l.key := fun hm => by
    obtain ⟨k, hk, hne, he⟩ := mem_forks.mp hm
    obtain ⟨l', hl', rfl⟩ := List.mem_map.mp hk
    have := agree_below hlc ((kids c x hc).follows l' hl') (Ne.symm hne)
    simp only [List.length_append, List.length_singleton] at this he
    omega
  rw [← Finset.card_insert_of_notMem hnot]
  congr 1
  ext i
  rw [Finset.mem_insert, mem_forks, mem_forks]
  constructor
  · rintro ⟨k, hk, hne, he⟩
    obtain ⟨l', hl', rfl⟩ := List.mem_map.mp hk
    obtain ⟨d, y, hd, hy⟩ := mem_leaves_inner.mp hl'
    by_cases hdc : d = c
    · subst hdc
      rw [hc] at hd
      cases hd
      exact .inr ⟨_, List.mem_map.mpr ⟨l', hy, rfl⟩, hne, he⟩
    · exact .inl (he.symm.trans (agree_fork hlc ((kids d y hd).follows l' hy) (Ne.symm hdc)).2)
  · rintro (rfl | ⟨k, hk, hne, he⟩)
    · -- another child has a leaf, too
      obtain ⟨d, y, hd, hdc⟩ := exists_other_kid two c
      obtain ⟨l', hl'⟩ := (kids d y hd).nonempty
      obtain ⟨hne, he⟩ := agree_fork hlc ((kids d y hd).follows l' hl') (Ne.symm hdc)
      exact ⟨_, List.mem_map.mpr ⟨l', mem_leaves_inner.mpr ⟨d, y, hd, hl'⟩, rfl⟩, Ne.symm hne, he⟩
    · obtain ⟨l', hl', rfl⟩ := List.mem_map.mp hk
      exact ⟨_, List.mem_map.mpr ⟨l', mem_leaves_inner.mpr ⟨c, x, hc, hl'⟩, rfl⟩, hne, he⟩

/-- No subtree nests deeper than the forks of one of its keys. -/
theorem nesting_le_iff {path : List UInt8} {node : Node V} (hf : Filed path node)
    (counts : ∀ m, node.Has m → m.Valid ∧ 2 ≤ m.kids.length) : ∀ h, node.nesting ≤ h ↔
      ∀ l ∈ node.leaves, (forks (node.leaves.map ArtLeaf.key) l.key).card ≤ h := by
  induction hf with
  | leaf => intro h; simp [Node.nesting, forks]
  | @inner path shared n _ _ _ kids ih =>
    intro h
    obtain ⟨valid, two⟩ := counts n (.self n)
    -- below each child
    have hchild : ∀ c x, n.look c = some x → (x.nesting + 1 ≤ h ↔ ∀ l ∈ x.leaves,
        (forks ((Node.inner n).leaves.map ArtLeaf.key) l.key).card ≤ h) := fun c x hc => by
      obtain ⟨l, hl⟩ := (kids c x hc).nonempty
      have hforks := fun l hl => forks_inner (l := l) two kids hc hl
      cases h with
      | zero =>
        refine iff_of_false (by omega) fun hall => ?_
        have := hall l hl
        rw [hforks l hl] at this
        omega
      | succ h =>
        rw [Nat.add_le_add_iff_right, ih c x hc (Node.Has.down hc counts) h]
        refine forall₂_congr fun l hl => ?_
        rw [hforks l hl, Nat.add_le_add_iff_right]
    rw [nesting_inner_le]
    constructor
    · intro hall l hl
      obtain ⟨c, x, hc, hx⟩ := mem_leaves_inner.mp hl
      have hm : x ∈ n.children :=
        (children_perm valid).mem_iff.mpr (List.mem_map.mpr ⟨(c, x), mem_kids.mpr hc, rfl⟩)
      exact (hchild c x hc).mp (hall x hm) l hx
    · intro hall x hx
      obtain ⟨c, hc⟩ := look_of_children valid hx
      exact (hchild c x hc).mpr fun l hl => hall l (mem_leaves_inner.mpr ⟨c, x, hc, hl⟩)

end Cdsa.Art
