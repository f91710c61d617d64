import Cdsa.L2Art.Insert
import Cdsa.L2Art.Shrink

/-!
# Deletion

`Visits key node depth m d`: a deletion of `key` that gets to `node` at `depth`
comes to the inner node `m` at depth `d`. Two things can happen to it there
that its effect depends on: the stored bytes of the prefix match but the prefix
reaches past the end of the key (`Cuts`), and the leaf of the key is a child of
`m` (`TakesFrom`).

`Deleted Q path key e node r` lists what a deletion below a well-formed `node`
may come to: nothing, where the key is not stored; the loss of a whole subtree
without freeing it, where the key `Cuts`; the removal of the key's leaf.
`recursiveDelete_deleted` is proved by induction over the tree.
-/
namespace Cdsa.Art

open Cdsa.Core Cdsa.Memory

variable {V : Type} {Q D : NodeType → Nat → Nat → Prop}

inductive Visits (key : CStr) : Node V → Nat → Inner (Node V) → Nat → Prop
  | here (n : Inner (Node V)) (depth : Nat) : Visits key (.inner n) depth n depth
  | down {n m : Inner (Node V)} {depth d f : Nat} {c : UInt8} {x : Node V}
    (henter : enter n.header key depth = some (.below d)) (hread : read key d = some c)
    (hlook : n.look c = some x) (hx : Visits key x (d + 1) m f) : Visits key (.inner n) depth m f

/-- A deletion of `key` comes to a node whose stored prefix bytes match but
whose prefix reaches past the end of `key`. -/
def Cuts (key : CStr) (node : Node V) (depth : Nat) : Prop :=
  ∃ m d, Visits key node depth m d ∧ enter m.header key d = some .past

/-- A deletion of `key` finds its leaf directly below `m`. -/
def TakesFrom (key : CStr) (node : Node V) (depth : Nat) (m : Inner (Node V)) : Prop :=
  ∃ d f c l, Visits key node depth m d ∧ enter m.header key d = some (.below f) ∧
    read key f = some c ∧ m.look c = some (.leaf l) ∧ l.key = key

section
variable {key : CStr} {n : Inner (Node V)} {depth d : Nat} {c : UInt8} {x : Node V}

theorem Cuts.below (henter : enter n.header key depth = some (.below d))
    (hread : read key d = some c) (hlook : n.look c = some x) (h : Cuts key x (d + 1)) :
    Cuts key (.inner n) depth :=
  let ⟨m, f, hv, hp⟩ := h
  ⟨m, f, .down henter hread hlook hv, hp⟩

theorem TakesFrom.below (henter : enter n.header key depth = some (.below d))
    (hread : read key d = some c) (hlook : n.look c = some x) {m : Inner (Node V)}
    (h : TakesFrom key x (d + 1) m) : TakesFrom key (.inner n) depth m :=
  let ⟨f, g, b, l, hv, hrest⟩ := h
  ⟨f, g, b, l, .down henter hread hlook hv, hrest⟩

/-- Where a deletion cuts, it does so here or further down. -/
theorem Cuts.cases (h : Cuts key (.inner n) depth) :
    enter n.header key depth = some .past ∨ ∃ d c x, enter n.header key depth = some (.below d) ∧
      read key d = some c ∧ n.look c = some x ∧ Cuts key x (d + 1) := by
  obtain ⟨m, f, hv, hp⟩ := h
  cases hv with
  | here => exact Or.inl hp
  | down henter hread hlook hx => exact Or.inr ⟨_, _, _, henter, hread, hlook, m, f, hx, hp⟩

theorem not_cuts_leaf (l : ArtLeaf V) : ¬ Cuts key (.leaf l) depth := fun ⟨_, _, hv, _⟩ => by
  cases hv

theorem cuts_below_iff (henter : enter n.header key depth = some (.below d))
    (hread : read key d = some c) (hlook : n.look c = some x) :
    Cuts key (.inner n) depth ↔ Cuts key x (d + 1) := by
  refine ⟨fun h => ?_, .below henter hread hlook⟩
  rcases h.cases with hp | ⟨d', c', x', he, hr, hl, hx⟩
  · rw [henter] at hp; cases hp
  · rw [henter] at he; cases he
    rw [hread] at hr; cases hr
    rw [hlook] at hl; cases hl
    exact hx

end

/-! ## Outcomes -/

/-- From `e` to `e'` the leaf `l` has been freed with its key. -/
structure Shed (e : Env) (l : ArtLeaf V) (e' : Env) : Prop where
  size : e'.size = e.size - 1
  mem : cdsaFreeTrack e.mem (some l.keyPtr) = some e'.mem
  slab : SameSlab e.slab e'.slab
  failed : e.failed ≤ e'.failed

inductive Deleted (Q : NodeType → Nat → Nat → Prop) (path : List UInt8) (key : CStr) (e : Env)
    (node : Node V) : Option (Option (Node V) × Bool × Env) → Prop
  | undefined {l : ArtLeaf V} (hl : l ∈ node.leaves) (hkey : l.key = key)
    (dead : e.mem.blocks.lookup l.keyPtr = none) : Deleted Q path key e node none
  | absent (fresh : ∀ l ∈ node.leaves, l.key ≠ key) (whole : ¬ Cuts key node path.length) :
    Deleted Q path key e node (some (some node, false, e))
  | cut {o : Option (Node V)} {lost : List (ArtLeaf V)} (cuts : Cuts key node path.length)
    (some_lost : lost ≠ []) (before : node.leaves.Perm (leavesAt o ++ lost)) :
    Deleted Q path key e node (some (o, false, e))
  | removed {l : ArtLeaf V} {o : Option (Node V)} {e' : Env} (hkey : l.key = key)
    (before : node.leaves.Perm (l :: leavesAt o)) (gone : o = none → node = .leaf l)
    (wf : Stalls Q ∨ e'.failed = e.failed → ∀ x, o = some x → WF Q path x) (shed : Shed e l e') :
    Deleted Q path key e node (some (o, true, e'))

section
variable {path shared : List UInt8} {n : Inner (Node V)}

/-- What a deletion does with the outcome below a child. -/
theorem Deleted.lift (hS : Shrinks Q D) (valid : n.Valid) (hd : n.header.Describes shared)
    (bound : (path ++ shared).length ≤ intMax) (occupied : n.kids ≠ []) (count : n.Counts Q)
    (kids : ∀ c x, n.look c = some x → WF Q (path ++ shared ++ [c]) x) {c : UInt8} {x : Node V}
    (hc : n.look c = some x) {key : CStr} (hD : ∀ l, x = .leaf l → l.key = key → n.Counts D)
    (hcuts : Cuts key (.inner n) path.length ↔ Cuts key x (path ++ shared ++ [c]).length)
    (hfar : ∀ m ∈ others n c, m.key ≠ key) {e : Env} {r : Option (Option (Node V) × Bool × Env)}
    (h : Deleted Q (path ++ shared ++ [c]) key e x r) :
    Deleted Q path key e (.inner n) (r.bind fun r =>
      if r.2.1 ∧ r.1.isNone then
        (shrink r.2.2 ((n.setChild c r.1).removeChild c)).map fun q => (q.1, true, q.2)
      else some (some (.inner (n.setChild c r.1)), r.2.1, r.2.2)) := by
  have hsplit := leaves_split _ hc
  rw [leavesAt_some] at hsplit
  have hset : ∀ o, (Node.inner (n.setChild c o)).leaves.Perm (leavesAt o ++ others n c) :=
    fun o => leaves_perm (look_setChild valid.coherent hc o)
  cases h with
  | undefined hl hkey dead =>
    exact .undefined (hsplit.mem_iff.mpr (List.mem_append_left _ hl)) hkey dead
  | absent fresh whole =>
    rw [Option.bind_some, if_neg (by simp), setChild_self hc]
    refine .absent (fun m hm => ?_) fun h => whole (hcuts.mp h)
    exact (List.mem_append.mp (hsplit.mem_iff.mp hm)).elim (fresh m) (hfar m)
  | @cut o lost cuts some_lost before =>
    rw [Option.bind_some, if_neg (by simp)]
    refine .cut (hcuts.mpr cuts) some_lost ?_
    -- the leaves below other children stay in front of the lost ones
    rw [leavesAt_some]
    refine hsplit.trans ((before.append_right _).trans ?_)
    refine List.Perm.trans ?_ ((hset o).symm.append_right _)
    rw [List.append_assoc, List.append_assoc]
    exact (List.perm_append_comm.append_left _)
  | @removed l o e' hkey before gone wf shed =>
    rw [Option.bind_some]
    cases o with
    | some y =>
      rw [if_neg (by simp)]
      refine .removed hkey ?_ (fun h => by cases h) (fun hs z hz => ?_) shed
      · rw [leavesAt_some]
        exact hsplit.trans ((before.append_right _).trans ((hset (some y)).symm.cons l))
      · cases hz
        exact .setChild valid hd bound occupied count kids hc (wf hs y rfl)
    | none =>
      have hx := gone rfl
      rw [if_pos ⟨rfl, rfl⟩]
      obtain ⟨y, e2, he, hs⟩ := shrink_spec hS valid hd bound count (hD l hx hkey) kids hc e'
      simp only [he, Option.map_some]
      refine .removed hkey ?_ (fun h => by cases h) (fun hst z hz => ?_) ?_
      · rw [leavesAt_some]
        exact hsplit.trans ((before.append_right _).trans (hs.leaves.symm.cons l))
      · cases hz
        refine hs.wf (hst.imp_right fun hf => ?_)
        have := shed.failed
        have := hs.failed
        omega
      · exact ⟨hs.alike.size.trans shed.size, by rw [hs.alike.mem]; exact shed.mem,
          shed.slab.trans hs.alike.slab, shed.failed.trans hs.failed⟩

end

theorem recursiveDelete_deleted (hS : Shrinks Q D) {path : List UInt8} {node : Node V}
    (h : WF Q path node) (key : CStr) : ∀ {fuel : Nat} {e : Env}, Fits key path →
      key.strlen + 2 ≤ fuel + path.length →
      (∀ m, TakesFrom key node path.length m → m.Counts D) →
      Deleted Q path key e node (recursiveDelete key fuel e node path.length) := by
  induction h with
  | @leaf path l follows =>
    intro fuel e fits hf _
    have := fits.le
    obtain ⟨fuel, rfl⟩ : ∃ f, fuel = f + 1 := ⟨fuel - 1, by omega⟩
    rw [recursiveDelete]
    split
    · next heq =>
      have hkey := CStr.strcmp_eq_zero.mp heq
      cases hb : e.mem.blocks.lookup l.keyPtr with
      | none =>
        rw [cdsaFreeTrack, hb]
        exact .undefined (l := l) (by simp) hkey hb
      | some size =>
        rw [cdsaFreeTrack_live hb]
        exact .removed hkey (.refl _) (fun _ => rfl) (fun _ _ hx => by cases hx)
          ⟨rfl, cdsaFreeTrack_live hb, .update rfl, Nat.le_refl _⟩
    · next hne =>
      refine .absent (fun m hm he => hne ?_) (not_cuts_leaf l)
      rw [leaves_leaf, List.mem_singleton] at hm
      exact CStr.strcmp_eq_zero.mpr (hm ▸ he)
  | @inner path shared n valid hd bound occupied count kids ih =>
    intro fuel e fits hf hD
    have hn := WF.noNul occupied kids
    have hle := fits.inner fun hm => hn (List.mem_append_left _ hm)
    obtain ⟨fuel, rfl⟩ : ∃ f, fuel = f + 1 := ⟨fuel - 1, by omega⟩
    rw [recursiveDelete]
    rcases enter_cases hd (fun hm => hn (List.mem_append_right _ hm)) hle
        (List.length_append ▸ bound) with
      ⟨he, hno⟩ | ⟨he, -⟩ | ⟨he, hin⟩
    · rw [he, Option.bind_some]
      refine .absent (fun l hl hkey => hno ?_) fun hc => ?_
      · obtain ⟨c, x, hc, hx⟩ := mem_leaves_inner.mp hl
        have hp := hkey ▸ (List.prefix_append _ _).trans ((kids c x hc).follows l hx)
        exact (prefix_drop ((List.prefix_append _ _).trans hp)).mpr hp
      · rcases hc.cases with hp | ⟨_, _, _, hp, _⟩ <;> rw [he] at hp <;> cases hp
    · rw [he, Option.bind_some]
      obtain ⟨l, hl⟩ := (WF.inner valid hd bound occupied count kids).nonempty
      exact .cut ⟨n, _, .here n _, he⟩ (List.ne_nil_of_mem hl) (.refl _)
    · rw [← List.length_append] at he hin
      obtain ⟨c, hc⟩ := read_some hin
      rw [he, Option.bind_some]
      simp only [hc, Option.bind_some]
      cases hx : n.look c with
      | none =>
        refine .absent (fun l hl hkey => ?_) fun h => ?_
        · obtain ⟨d, y, hy, hm⟩ := mem_leaves_inner.mp hl
          rw [filed_under kids hc hy hm hkey, hx] at hy
          cases hy
        · rcases h.cases with hp | ⟨d, b, y, hp, hr, hy, _⟩
          · rw [he] at hp; cases hp
          · rw [he] at hp; cases hp
            rw [hc] at hr; cases hr
            rw [hx] at hy; cases hy
      | some x =>
        have hlen : (path ++ shared ++ [c]).length = (path ++ shared).length + 1 := by
          rw [List.length_append, List.length_singleton]
        have hih := @ih c x hx fuel e (.read hc)
          (by rw [hlen, List.length_append]; omega)
          (fun m hm => hD m (.below he hc hx (hlen ▸ hm)))
        have hcuts := cuts_below_iff he hc hx
        rw [← hlen] at hcuts
        have := Deleted.lift hS valid hd bound occupied count kids hx
          (fun l hxl hkey => hD n ⟨_, _, c, l, .here n _, he, hc, hxl ▸ hx, hkey⟩) hcuts
          (others_ne kids hc) hih
        rwa [hlen] at this

end Cdsa.Art
