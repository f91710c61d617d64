import Cdsa.L2Art.Prefix
import Cdsa.L2Art.Slab
import Cdsa.L2Art.Grow

/-!
# A node that has lost a child

After a leaf has been taken out of a node, `shrink` moves the rest to the next
smaller layout at the exact counts 48, 16 and 4, and puts the last child of a
Node4 in the Node4's place, gluing the two prefixes and the byte between them
together (`glue_describes`). `Resized` lists what can come of it
(`shrink_resized`).

`Shrinks Q D` is what `Q` has to allow for where the node meets `D`;
`shrink_spec` then says that the remaining leaves stay and the result is well
formed, unless a pool was exhausted and `Q` does not tolerate that.
-/
namespace Cdsa.Art

open Cdsa.Core Cdsa.Memory

variable {V : Type} {Q D : NodeType → Nat → Nat → Prop}

structure Shrinks (Q D : NodeType → Nat → Nat → Prop) : Prop where
  two : ∀ t n k, Q t n k → D t n k → 2 ≤ k
  node4 : ∀ k, 2 ≤ k → Q .node4 (k + 1) (k + 1) → D .node4 (k + 1) (k + 1) → Q .node4 k k
  node16 : ∀ k, k ≠ 4 → Q .node16 (k + 1) (k + 1) → D .node16 (k + 1) (k + 1) → Q .node16 k k
  node48 : ∀ k, k ≠ 16 → Q .node48 (k + 1) (k + 1) → D .node48 (k + 1) (k + 1) → Q .node48 k k
  node256 : ∀ n k, Q .node256 n (k + 1) → D .node256 n (k + 1) → n ≠ 48 ∧ Q .node256 n k
  down16 : Q .node4 4 4
  down48 : Q .node16 16 16

/-! ## What it does to the node -/

/-- The layout that a node with this many children is moved to. -/
def NodeType.smaller : NodeType → Option (NodeType × Nat)
  | .node256 => some (.node48, 48)
  | .node48 => some (.node16, 16)
  | .node16 => some (.node4, 4)
  | _ => none

/-- What `shrink` makes of a node. -/
inductive Resized (n : Inner (Node V)) (e : Env) : Option (Node V) → Env → Prop
  | keep (large : ∀ type k, n.type.smaller = some (type, k) → n.numChildren ≠ k)
    (two : n.type = .node4 → 2 ≤ n.numChildren) : Resized n e (some (.inner n)) e
  | stay {type : NodeType} {e1 : Env} (small : n.type.smaller = some (type, n.numChildren))
    (ha : e.allocBlock type = (none, e1)) : Resized n e (some (.inner n)) e1
  | copy {m : Inner (Node V)} {b : Nat} {e1 : Env}
    (small : n.type.smaller = some (m.type, n.numChildren))
    (ha : e.allocBlock m.type = (some b, e1)) (copies : Copies n m b) :
    Resized n e (some (.inner m)) (e1.freeBlock n.type n.block)
  | empty (none_left : n.kids = []) : Resized n e none (e.freeBlock n.type n.block)
  | leaf {d : UInt8} {l : ArtLeaf V} (only : n.kids.Perm [(d, .leaf l)]) :
    Resized n e (some (.leaf l)) (e.freeBlock n.type n.block)
  | inner {d : UInt8} {ch : Inner (Node V)} (only : n.kids.Perm [(d, .inner ch)]) :
    Resized n e (some (.inner (ch.setHeader (glue n.header d ch.header))))
      (e.freeBlock n.type n.block)

/-- The only child of a Node4. -/
theorem Packed.Valid.only {p : Packed (Node V)} (hv : p.Valid 4) (h1 : p.numChildren = 1) :
    ∃ d y, p.cells = [(d, some y)] ∧ (Inner.node4 p).kids.Perm [(d, y)] := by
  obtain ⟨⟨d, o⟩, hcells⟩ := List.length_eq_one_iff.mp (hv.count.symm.trans h1)
  obtain ⟨y, rfl⟩ := Option.isSome_iff_exists.mp (hv.full (d, o) (by simp [hcells]))
  refine ⟨d, y, hcells, ?_⟩
  have := cellKids_perm hv.keys hv.full
  rw [hcells] at this
  rw [Inner.kids, look_node4, hcells]
  exact this.symm

/-- A Node256 that counts 48 has to have no more. -/
theorem shrink_resized {n : Inner (Node V)} (valid : n.Valid)
    (fits : n.type = .node256 → n.numChildren = 48 → n.kids.length ≤ 48) (e : Env) :
    ∃ o e', shrink e n = some (o, e') ∧ Resized n e o e' := by
  have small : ∀ {type k}, n.type.smaller = some (type, k) → n.numChildren = k →
      n.type.smaller = some (type, n.numChildren) := fun h hk => hk ▸ h
  have large : ∀ {type k}, n.type.smaller = some (type, k) → n.numChildren ≠ k →
      ∀ type' k', n.type.smaller = some (type', k') → n.numChildren ≠ k' := fun h hk type' k' h' => by
    rw [h] at h'
    cases h'
    exact hk
  cases n with
  | node256 p =>
    rw [shrink]
    by_cases h48 : p.numChildren = 48
    · rw [if_pos h48]
      rcases allocBlock_cases .node48 e with ⟨e1, ha, -⟩ | ⟨b, e1, ha, -⟩
      · rw [downgradeNode256ToNode48, ha]
        exact ⟨_, _, rfl, .stay (small rfl h48) ha⟩
      · obtain ⟨m, hm, C⟩ := downgradeNode256ToNode48_spec (fits rfl h48) ha
        rw [hm]
        exact ⟨_, _, rfl, .copy (small rfl h48) ha C⟩
    · rw [if_neg h48]
      exact ⟨_, _, rfl, .keep (large rfl h48) fun h => by cases h⟩
  | node48 p =>
    rw [shrink]
    by_cases h16 : p.numChildren = 16
    · rw [if_pos h16]
      rcases allocBlock_cases .node16 e with ⟨e1, ha, -⟩ | ⟨b, e1, ha, -⟩
      · rw [downgradeNode48ToNode16, ha]
        exact ⟨_, _, rfl, .stay (small rfl h16) ha⟩
      · obtain ⟨m, hm, C⟩ := downgradeNode48ToNode16_spec valid (Nat.le_of_eq h16) ha
        rw [hm]
        exact ⟨_, _, rfl, .copy (small rfl h16) ha C⟩
    · rw [if_neg h16]
      exact ⟨_, _, rfl, .keep (large rfl h16) fun h => by cases h⟩
  | node16 p =>
    rw [shrink]
    by_cases h4 : p.numChildren = 4
    · rw [if_pos h4]
      rcases allocBlock_cases .node4 e with ⟨e1, ha, -⟩ | ⟨b, e1, ha, -⟩
      · rw [downgradeNode16ToNode4, ha]
        exact ⟨_, _, rfl, .stay (small rfl h4) ha⟩
      · obtain ⟨m, hm, C⟩ := downgradeNode16ToNode4_spec valid (Nat.le_of_eq h4) ha
        rw [hm]
        exact ⟨_, _, rfl, .copy (small rfl h4) ha C⟩
    · rw [if_neg h4]
      exact ⟨_, _, rfl, .keep (large rfl h4) fun h => by cases h⟩
  | node4 p =>
    have hcount := valid.count (by simp [Inner.type])
    rw [shrink]
    by_cases h0 : p.numChildren = 0
    · rw [if_pos h0]
      exact ⟨_, _, rfl, .empty (List.length_eq_zero_iff.mp (hcount.symm.trans h0))⟩
    rw [if_neg h0]
    by_cases h1 : p.numChildren = 1
    · obtain ⟨d, y, hcells, only⟩ := Packed.Valid.only valid h1
      rw [if_pos h1, hcells]
      cases y with
      | leaf l => exact ⟨_, _, rfl, .leaf only⟩
      | inner ch => exact ⟨_, _, rfl, .inner only⟩
    · rw [if_neg h1]
      refine ⟨_, _, rfl, .keep (fun _ _ h => by cases h) fun _ => ?_⟩
      show 2 ≤ p.numChildren
      omega

theorem Resized.alike {n : Inner (Node V)} {e e' : Env} {o : Option (Node V)}
    (h : Resized n e o e') : Alike e e' ∧ e.failed ≤ e'.failed := by
  cases h with
  | keep => exact ⟨.refl e, Nat.le_refl _⟩
  | stay _ ha =>
    obtain ⟨hA, hf⟩ := allocBlock_none ha
    exact ⟨hA, by omega⟩
  | copy _ ha =>
    obtain ⟨hA, hf⟩ := allocBlock_some ha
    exact ⟨hA.trans (freeBlock_alike _ _ _), by rw [freeBlock_failed]; omega⟩
  | empty => exact ⟨freeBlock_alike _ _ _, Nat.le_refl _⟩
  | leaf => exact ⟨freeBlock_alike _ _ _, Nat.le_refl _⟩
  | inner => exact ⟨freeBlock_alike _ _ _, Nat.le_refl _⟩

/-! ## Gluing two prefixes -/

theorem take_take_append (a b : List UInt8) (c : UInt8) :
    (a.take 10 ++ c :: b.take 10).take 10 = (a ++ c :: b).take 10 := by
  rcases Nat.le_total 10 a.length with ha | ha
  · rw [List.take_append_of_le_length (by simpa using ha), List.take_take, Nat.min_self,
      List.take_append_of_le_length ha]
  · rw [List.take_of_length_le ha, List.take_append, List.take_append]
    congr 1
    cases h : 10 - a.length with
    | zero => rfl
    | succ n => rw [List.take_succ_cons, List.take_succ_cons, List.take_take,
        Nat.min_eq_left (by omega)]

/-- Taking the bytes of a prefix that is there is no more than `len` of them. -/
theorem NodeHeader.Describes.take {h : NodeHeader} {shared : List UInt8} (hd : h.Describes shared) :
    h.prefixBytes.take h.prefixLen = shared.take 10 := by rw [hd.len, hd.bytes]

theorem glue_describes {h ch : NodeHeader} {s s' : List UInt8} {c : UInt8} (hd : h.Describes s)
    (hd' : ch.Describes s') (bound : (s ++ c :: s').length ≤ intMax) :
    (glue h c ch).Describes (s ++ c :: s') := by
  unfold intMax at bound
  have hlen : (h.prefixLen + 1 + ch.prefixLen) % 2 ^ 32 = (s ++ c :: s').length := by
    rw [List.length_append, List.length_cons] at bound ⊢
    rw [hd.len, hd'.len, Nat.mod_eq_of_lt (by omega)]; omega
  have hbytes : (h.prefixBytes.take h.prefixLen ++ c :: ch.prefixBytes.take ch.prefixLen).take
      (min (s ++ c :: s').length 10) = (s ++ c :: s').take 10 := by
    rw [hd.take, hd'.take, ← List.take_take, take_take_append]
    exact List.take_of_length_le (by rw [List.length_take]; exact Nat.min_le_right _ _)
  simp only [glue, hlen, hbytes]
  exact store_describes hd'.room _

/-! ## The node that stays, and its smaller layouts -/

section
variable {path shared : List UInt8} {n n' : Inner (Node V)} {c : UInt8} {x : Node V}

/-- The leaves that are left once a child has gone. -/
theorem leaves_rest (hl : n'.look = Function.update n.look c none) {m : Inner (Node V)}
    (hm : m.look = n'.look) : (Node.inner m).leaves.Perm (others n c) := by
  have : (Node.inner m).leaves.Perm _ := leaves_perm (hm.trans hl)
  simpa using this

/-- `n'` is the well-formed node `n` without its child for `c`, and has another. -/
structure Loses (Q : NodeType → Nat → Nat → Prop) (path shared : List UInt8) (c : UInt8)
    (n n' : Inner (Node V)) : Prop where
  describes : n.header.Describes shared
  bound : (path ++ shared).length ≤ intMax
  kids : ∀ c x, n.look c = some x → WF Q (path ++ shared ++ [c]) x
  look : n'.look = Function.update n.look c none
  valid : n'.Valid
  header : n'.header = n.header
  left : 0 < n'.kids.length

/-- What becomes of a node without one of its children. -/
structure Shrunk (Q : NodeType → Nat → Nat → Prop) (path : List UInt8) (e : Env)
    (rest : List (ArtLeaf V)) (y : Node V) (e' : Env) : Prop where
  alike : Alike e e'
  failed : e.failed ≤ e'.failed
  leaves : y.leaves.Perm rest
  wf : Stalls Q ∨ e'.failed = e.failed → WF Q path y

/-- A child that is left, as a child of `n`. -/
theorem Loses.child (L : Loses Q path shared c n n') {d : UInt8} {y : Node V}
    (hy : n'.look d = some y) : n.look d = some y := by
  rw [L.look, Function.update_apply] at hy
  split at hy
  · cases hy
  · exact hy

/-- The same children, in this layout or another. -/
theorem Loses.keep (L : Loses Q path shared c n n') {m : Inner (Node V)} {e e' : Env}
    (valid : m.Valid) (hm : m.look = n'.look) (hh : m.header = n'.header) (alike : Alike e e')
    (failed : e.failed ≤ e'.failed) (count : Stalls Q ∨ e'.failed = e.failed → m.Counts Q) :
    Shrunk Q path e (others n c) (.inner m) e' := by
  refine ⟨alike, failed, leaves_rest L.look hm, fun hs => ?_⟩
  refine .inner valid (by rw [hh, L.header]; exact L.describes) L.bound (fun he => ?_) (count hs)
    fun d y hy => L.kids d y (L.child (hm ▸ hy))
  have := L.left
  rw [← kids_length_of_look hm, he] at this
  cases this

theorem counts_of_look {m : Inner (Node V)} (hm : m.look = n'.look)
    (hn : m.numChildren = n'.kids.length) (hq : Q m.type n'.kids.length n'.kids.length) :
    m.Counts Q := by
  unfold Inner.Counts
  rwa [hn, kids_length_of_look hm]

/-- The last child of a node takes its place. -/
theorem wf_last (hd : n.header.Describes shared) {d : UInt8} {y : Node V}
    (hy : WF Q (path ++ shared ++ [d]) y) :
    WF Q path (match y with
      | .leaf l => .leaf l
      | .inner ch => .inner (ch.setHeader (glue n.header d ch.header))) := by
  cases hy with
  | leaf follows =>
    refine .leaf (List.IsPrefix.trans ?_ follows)
    rw [List.append_assoc]; exact List.prefix_append _ _
  | @inner _ shared' ch valid hd' bound occupied count kids =>
    have hassoc : path ++ (shared ++ d :: shared') = path ++ shared ++ [d] ++ shared' := by simp
    refine .inner (valid.setHeader _) (show NodeHeader.Describes _ (shared ++ d :: shared') from ?_)
      (hassoc ▸ bound)
      (by simpa using occupied) (by simpa [Inner.Counts] using count) ?_
    · rw [setHeader_header]
      refine glue_describes hd hd' ?_
      rw [← hassoc, List.length_append] at bound; omega
    · rw [setHeader_look, hassoc]; exact kids

/-- The last child of a node that is left has all its leaves. -/
theorem Loses.last (L : Loses Q path shared c n n') {d : UInt8} {y : Node V}
    (only : n'.kids.Perm [(d, y)]) : y.leaves.Perm (others n c) ∧
      WF Q path (match y with
        | .leaf l => .leaf l
        | .inner ch => .inner (ch.setHeader (glue n.header d ch.header))) := by
  have hdy : n'.look d = some y := mem_kids.mp (only.mem_iff.mpr List.mem_cons_self)
  have h := only.flatMap_right (f := fun q => q.2.leaves)
  rw [← leaves_inner] at h
  exact ⟨(List.Perm.symm (by simpa using h)).trans (leaves_rest L.look rfl),
    wf_last L.describes (L.kids d y (L.child hdy))⟩

/-- What `Q` says of a node that has lost a child, in its layout and the next
smaller one. -/
structure Recounts (Q : NodeType → Nat → Nat → Prop) (n' : Inner (Node V)) : Prop where
  keep : (∀ type k, n'.type.smaller = some (type, k) → n'.numChildren ≠ k) →
    (n'.type = .node4 → 2 ≤ n'.numChildren) → n'.Counts Q
  stay : ∀ type, n'.type.smaller = some (type, n'.numChildren) → Stalls Q → n'.Counts Q
  copy : ∀ type, n'.type.smaller = some (type, n'.numChildren) →
    n'.numChildren = n'.kids.length ∧ Q type n'.kids.length n'.kids.length

theorem Shrinks.recounts (hS : Shrinks Q D) (valid : n.Valid) (count : n.Counts Q) (hD : n.Counts D)
    (hk : n'.kids.length + 1 = n.kids.length) (ht : n'.type = n.type)
    (hnum : n'.numChildren = if n.type = .node256 then n.numChildren else n.numChildren - 1) :
    Recounts Q n' := by
  unfold Inner.Counts at count hD
  rw [← hk, ← ht] at count hD
  rw [← ht] at hnum
  by_cases h256 : n'.type = .node256
  · rw [if_pos h256] at hnum
    rw [h256, ← hnum] at count hD
    obtain ⟨hne, hq⟩ := hS.node256 _ _ count hD
    -- a Node256 keeps its layout: it does not count 48
    have hlarge : ∀ type, n'.type.smaller ≠ some (type, n'.numChildren) := fun type hsmall => by
      rw [h256] at hsmall
      exact hne (Prod.mk.inj (Option.some.inj hsmall)).2.symm
    exact ⟨fun _ _ => by unfold Inner.Counts; rwa [h256], fun _ hs => absurd hs (hlarge _),
      fun _ hs => absurd hs (hlarge _)⟩
  · -- elsewhere the count is exact before and after
    rw [if_neg h256] at hnum
    have hn := valid.count (ht ▸ h256)
    rw [hn, ← hk] at count hD
    have hp : n'.numChildren = n'.kids.length := by omega
    refine ⟨fun large two => ?_, fun type small stalls => ?_, fun type small => ⟨hp, ?_⟩⟩
    · unfold Inner.Counts
      rw [hp] at large two ⊢
      cases n' with
      | node256 p => exact absurd rfl h256
      | node48 p => exact hS.node48 _ (large _ _ rfl) count hD
      | node16 p => exact hS.node16 _ (large _ _ rfl) count hD
      | node4 p => exact hS.node4 _ (two rfl) count hD
    · unfold Inner.Counts
      rw [hp] at small ⊢
      cases n' with
      | node256 p => exact absurd rfl h256
      | node48 p =>
        obtain ⟨-, h16⟩ := Prod.mk.inj (Option.some.inj small)
        rw [← h16]; exact stalls.node48
      | node16 p =>
        obtain ⟨-, h4⟩ := Prod.mk.inj (Option.some.inj small)
        rw [← h4]; exact stalls.node16
      | node4 p => cases small
    · rw [hp] at small
      cases n' with
      | node256 p => exact absurd rfl h256
      | node48 p =>
        obtain ⟨rfl, h16⟩ := Prod.mk.inj (Option.some.inj small)
        rw [← h16]; exact hS.down48
      | node16 p =>
        obtain ⟨rfl, h4⟩ := Prod.mk.inj (Option.some.inj small)
        rw [← h4]; exact hS.down16
      | node4 p => cases small

theorem shrink_spec (hS : Shrinks Q D) (valid : n.Valid) (hd : n.header.Describes shared)
    (bound : (path ++ shared).length ≤ intMax) (count : n.Counts Q) (hD : n.Counts D)
    (kids : ∀ c x, n.look c = some x → WF Q (path ++ shared ++ [c]) x) (hc : n.look c = some x)
    (e : Env) :
    ∃ y e', shrink e ((n.setChild c none).removeChild c) = some (some y, e') ∧
      Shrunk Q path e (others n c) y e' := by
  obtain ⟨⟨hl, hv, hh⟩, hnum⟩ := removeChild_spec valid hc
  have hk := length_of_perm_erase hc hl
  have htwo := hS.two _ _ _ count hD
  have htype : ((n.setChild c none).removeChild c).type = n.type := by
    rw [removeChild_type, setChild_type]
  generalize (n.setChild c none).removeChild c = n' at *
  have L : Loses Q path shared c n n' := ⟨hd, bound, kids, hl, hv, hh, by omega⟩
  have C := hS.recounts valid count hD hk htype hnum
  obtain ⟨o, e', he, R⟩ := shrink_resized hv (fun ht h48 => by
    have hexact := (C.copy .node48 (by rw [ht, h48]; rfl)).1
    omega) e
  obtain ⟨alike, failed⟩ := R.alike
  cases R with
  | keep large two =>
    exact ⟨_, _, he, L.keep hv rfl rfl alike failed fun _ => C.keep large two⟩
  | stay small ha =>
    refine ⟨_, _, he, L.keep hv rfl rfl alike failed fun hs => C.stay _ small ?_⟩
    have hfailed := (allocBlock_none ha).2
    exact hs.resolve_right (by omega)
  | copy small ha copies =>
    obtain ⟨hp, hq⟩ := C.copy _ small
    exact ⟨_, _, he, L.keep (copies.valid hp) copies.look copies.header alike failed fun _ =>
      counts_of_look copies.look (copies.numChildren.trans hp) hq⟩
  | empty none_left =>
    have hleft := L.left
    rw [none_left] at hleft
    cases hleft
  | leaf only =>
    obtain ⟨hleaves, hwf⟩ := L.last only
    exact ⟨_, _, he, alike, failed, hleaves, fun _ => hwf⟩
  | inner only =>
    obtain ⟨hleaves, hwf⟩ := L.last only
    refine ⟨_, _, he, alike, failed, ?_, fun _ => ?_⟩
    · rw [leaves_setHeader]; exact hleaves
    · rw [hh]; exact hwf

end

end Cdsa.Art
