import Cdsa.L2Art.Grow

/-!
# Insertion

`Inserted Q path key value e node r`: `r` is what an insertion below a
well-formed `node` may come to. The key was stored and its leaf has the new
value; or it was not, and there is one more leaf; or a pool was exhausted and
the leaves are the same; or the key is longer than an `int` can say and the
node is as before. It is undefined if the key's copy is refused, or if the key
agrees with a stored one on more bytes than an `int` counts.

* `splitLeaf_inserted`, `splitPrefix_inserted`: the two ways to put a Node4 in
  place of a node.
* `insertLoop_inserted`: the walk, by induction over the tree.
-/
namespace Cdsa.Art

open Cdsa.Core Cdsa.Memory

variable {V : Type} {Q : NodeType → Nat → Nat → Prop}

inductive Inserted (Q : NodeType → Nat → Nat → Prop) (path : List UInt8) (key : CStr)
    (value : Option V) (e : Env) (node : Node V) : Option (Status × Node V × Env) → Prop
  | undefined (refused : e.mem.answers e.mem.asked = false ∨
      ∃ l ∈ node.leaves, intMax < agree l.key.bytes key.bytes) :
    Inserted Q path key value e node none
  | replaced {l : ArtLeaf V} {rest : List (ArtLeaf V)} {node' : Node V} (wf : WF Q path node')
    (hkey : l.key = key) (before : node.leaves.Perm (l :: rest))
    (after : node'.leaves.Perm ({ l with value } :: rest)) :
    Inserted Q path key value e node (some (.ok, node', e))
  | added {l : ArtLeaf V} {node' : Node V} {e' : Env} (wf : WF Q path node')
    (fresh : ∀ m ∈ node.leaves, m.key ≠ key) (hkey : l.key = key) (hvalue : l.value = value)
    (after : node'.leaves.Perm (l :: node.leaves)) (grown : Grown e l e') :
    Inserted Q path key value e node (some (.ok, node', e'))
  | oom {node' : Node V} {e' : Env} (wf : Stalls Q → WF Q path node')
    (after : node'.leaves.Perm node.leaves) (alike : Alike e e') (failed : e.failed < e'.failed) :
    Inserted Q path key value e node (some (.errOom, node', e'))
  | invalid (long : intMax < key.strlen) : Inserted Q path key value e node (some (.errInvalid, node, e))

/-! ## A Node4 over two nodes -/

theorem pairNode_valid (block : Nat) (header : NodeHeader) {c c' : UInt8} (x x' : Node V)
    (hne : c ≠ c') : Packed.Valid 4 ⟨block, header, 2, [(c, some x), (c', some x')]⟩ where
  keys := by simpa using hne
  full := by simp
  count := rfl
  room := by simp

theorem pairNode_kids (block : Nat) (header : NodeHeader) {c c' : UInt8} (x x' : Node V)
    (hne : c ≠ c') :
    (Inner.node4 ⟨block, header, 2, [(c, some x), (c', some x')]⟩).kids.Perm [(c, x), (c', x')] :=
  have hv := pairNode_valid block header x x' hne
  (cellKids_perm hv.keys hv.full).symm

theorem pairNode_leaves {block : Nat} {header : NodeHeader} {c c' : UInt8} (x x' : Node V)
    (hne : c ≠ c') :
    (pairNode block header c x c' x').leaves.Perm (x.leaves ++ x'.leaves) := by
  rw [pairNode, leaves_inner]
  simpa using (pairNode_kids block header x x' hne).flatMap_right
    (f := fun q => q.2.leaves)

theorem pairNode_look {block : Nat} {header : NodeHeader} {c c' : UInt8} {x x' : Node V}
    (hne : c ≠ c') {d : UInt8} {y : Node V}
    (hy : (Inner.node4 ⟨block, header, 2, [(c, some x), (c', some x')]⟩).look d = some y) :
    d = c ∧ y = x ∨ d = c' ∧ y = x' := by
  have := (pairNode_kids block header x x' hne).mem_iff.mp (mem_kids.mpr hy)
  simpa using this

theorem pairNode_occupied {block : Nat} {header : NodeHeader} {c c' : UInt8} {x x' : Node V}
    (hne : c ≠ c') :
    (Inner.node4 ⟨block, header, 2, [(c, some x), (c', some x')]⟩).kids ≠ [] := fun hk => by
  have := (pairNode_kids block header x x' hne).length_eq
  rw [hk] at this
  cases this

theorem pairNode_wf (hQ : Grows Q) {block : Nat} {header : NodeHeader} {path shared : List UInt8}
    {c c' : UInt8} {x x' : Node V} (hd : header.Describes shared)
    (bound : (path ++ shared).length ≤ intMax) (hne : c ≠ c')
    (hx : WF Q (path ++ shared ++ [c]) x) (hx' : WF Q (path ++ shared ++ [c']) x') :
    WF Q path (pairNode block header c x c' x') := by
  refine .inner (pairNode_valid _ _ x x' hne) hd bound (pairNode_occupied hne) ?_ fun d y hy => ?_
  · show Q .node4 2 _
    rw [(pairNode_kids block header x x' hne).length_eq]
    exact hQ.pair
  · rcases pairNode_look hne hy with ⟨rfl, rfl⟩ | ⟨rfl, rfl⟩
    · exact hx
    · exact hx'

/-- However long the prefix is. -/
theorem pairNode_filed {block : Nat} {header : NodeHeader} {path shared : List UInt8} {c c' : UInt8}
    {x x' : Node V} (hd : header.Describes shared) (hne : c ≠ c')
    (hx : Filed (path ++ shared ++ [c]) x) (hx' : Filed (path ++ shared ++ [c']) x') :
    Filed path (pairNode block header c x c' x') := by
  have valid : Inner.Valid (.node4 _) := pairNode_valid block header x x' hne
  refine .inner valid.coherent hd (pairNode_occupied hne) fun d y hy => ?_
  rcases pairNode_look hne hy with ⟨rfl, rfl⟩ | ⟨rfl, rfl⟩
  · exact hx
  · exact hx'

theorem readRange_spec {s : CStr} : ∀ {n i : Nat}, i + n ≤ s.strlen + 1 →
    readRange s i n = some ((s.term.drop i).take n)
  | 0, i, _ => by simp [readRange]
  | n + 1, i, h => by
    obtain ⟨c, hc⟩ := @read_some s i (by omega)
    rw [readRange, hc, Option.bind_some, readRange_spec (by omega), drop_read hc]
    rfl

/-- The bytes a key goes on with, as far as a prefix stores them. -/
theorem readRange_follows {key : CStr} {path s : List UInt8} (h : path ++ s <+: key.term) :
    readRange key path.length (min s.length 10) = some (s.take 10) := by
  have hl := h.length_le
  rw [CStr.length_term, List.length_append] at hl
  rw [readRange_spec (by omega)]
  obtain ⟨r, hr⟩ := h
  rw [← hr, List.append_assoc, List.drop_left, Nat.min_comm]
  congr 1
  rcases Nat.le_total s.length 10 with hs | hs
  · rw [Nat.min_eq_right hs, List.take_left, List.take_of_length_le hs]
  · rw [Nat.min_eq_left hs, List.take_append_of_le_length hs]

/-! ## Splitting a leaf -/

theorem agree_term : ∀ {a b : List UInt8}, 0 ∉ a → 0 ∉ b → a ≠ b →
    agree (a ++ [0]) (b ++ [0]) = agree a b
  | [], [], _, _, h => absurd rfl h
  | [], y :: b, _, hb, _ => by
    rw [List.mem_cons, not_or] at hb
    simp [agree, hb.1]
  | x :: a, [], ha, _, _ => by
    rw [List.mem_cons, not_or] at ha
    simp [agree, Ne.symm ha.1]
  | x :: a, y :: b, ha, hb, h => by
    rw [List.mem_cons, not_or] at ha hb
    rw [List.cons_append, List.cons_append, agree, agree]
    split
    · next hxy =>
      rw [agree_term ha.2 hb.2 fun he => h (by rw [hxy, he])]
    · rfl

theorem le_agree {p a b : List UInt8} (ha : p <+: a) (hb : p <+: b) : p.length ≤ agree a b := by
  obtain ⟨r, rfl⟩ := ha
  rw [agree_append hb]; exact Nat.le_add_right _ _

theorem read_byteAt {s : CStr} {i : Nat} (h : i ≤ s.strlen) : read s i = some (s.byteAt i) := by
  obtain ⟨c, hc⟩ := read_some h
  rw [hc, CStr.byteAt, List.getD_eq_getElem?_getD, show s.term[i]? = some c from hc]; rfl

/-- Two different keys after their common start. -/
theorem byteAt_agree {s t : CStr} (h : s ≠ t) :
    s.byteAt (agree s.bytes t.bytes) ≠ t.byteAt (agree s.bytes t.bytes) := by
  have hb : s.bytes ≠ t.bytes := fun he => h (CStr.ext he)
  have hs := read_byteAt (s := s) (agree_le_left (a := s.bytes) (b := t.bytes))
  have ht := read_byteAt (s := t) (agree_le_right (a := s.bytes) (b := t.bytes))
  rw [← agree_term s.noNul t.noNul hb] at hs ht ⊢
  exact agree_ne hs ht

/-- Two keys both end where the comparison stops exactly if they are the same. -/
theorem ends_iff {s t : CStr} :
    s.byteAt (agree s.bytes t.bytes) = 0 ∧ t.byteAt (agree s.bytes t.bytes) = 0 ↔ s = t := by
  constructor
  · intro hz
    by_contra h
    exact byteAt_agree h (hz.1.trans hz.2.symm)
  · rintro rfl
    have hi : agree s.bytes s.bytes = s.strlen := agree_eq_length.mpr (List.prefix_refl _)
    have hz : s.byteAt s.strlen = 0 := by
      rw [CStr.byteAt, CStr.term, CStr.strlen, List.getD_eq_getElem?_getD,
        List.getElem?_concat_length]
      rfl
    rw [hi]
    exact ⟨hz, hz⟩

/-- What two different keys that follow `path` go on to share. -/
theorem exists_shared {s t : CStr} (hne : s ≠ t) {path : List UInt8} (hs : path <+: s.term)
    (ht : path <+: t.term) :
    ∃ shared, path.length + shared.length = agree s.bytes t.bytes ∧
      path ++ shared ++ [s.byteAt (agree s.bytes t.bytes)] <+: s.term ∧
      path ++ shared ++ [t.byteAt (agree s.bytes t.bytes)] <+: t.term := by
  have hb : s.bytes ≠ t.bytes := fun he => hne (CStr.ext he)
  have hterm : agree s.term t.term = agree s.bytes t.bytes := agree_term s.noNul t.noNul hb
  have hle := le_agree hs ht
  have htake : s.term.take _ = t.term.take _ := take_agree
  rw [hterm] at hle htake
  have hls := agree_le_left (a := s.bytes) (b := t.bytes)
  have hlt := agree_le_right (a := s.bytes) (b := t.bytes)
  generalize agree s.bytes t.bytes = i at *
  have hlen : (s.term.take i).length = i := by
    rw [List.length_take, CStr.length_term]; exact Nat.min_eq_left (Nat.le_succ_of_le hls)
  obtain ⟨shared, hsh⟩ := List.prefix_of_prefix_length_le hs (List.take_prefix i s.term) (by omega)
  have hpl : (path ++ shared).length = i := by rw [hsh, hlen]
  refine ⟨shared, by rw [← List.length_append, hpl], prefix_of_read ?_ ?_, prefix_of_read ?_ ?_⟩
  · rw [hsh]; exact List.take_prefix _ _
  · rw [hpl]; exact read_byteAt hls
  · rw [hsh, htake]; exact List.take_prefix _ _
  · rw [hpl]; exact read_byteAt hlt

theorem toU32_sub {a b : Nat} (h : a + b ≤ intMax) : toU32 ((a + b : Nat) - (a : Int)) = b := by
  unfold intMax at h
  unfold toU32; omega

theorem splitLeaf_inserted (hQ : Grows Q) {path : List UInt8} {l : ArtLeaf V} {key : CStr}
    (follows : path <+: l.key.term) (hk : path <+: key.term) (value : Option V) (e : Env) :
    Inserted Q path key value e (.leaf l) (splitLeaf e l key value path.length) := by
  unfold splitLeaf
  simp only
  by_cases hbig : intMax < agree l.key.bytes key.bytes
  · rw [if_pos hbig]
    exact .undefined (Or.inr ⟨l, by simp, hbig⟩)
  rw [if_neg hbig]
  by_cases heq : l.key = key
  · rw [if_pos (ends_iff.mpr heq)]
    exact .replaced (.leaf follows) heq (show [l].Perm (l :: []) from .refl _) (.refl _)
  have hne := byteAt_agree heq
  obtain ⟨shared, hlen, hl, hn⟩ := exists_shared heq follows hk
  rw [if_neg fun hz => heq (ends_iff.mp hz)]
  generalize agree l.key.bytes key.bytes = i at *
  subst hlen
  have hfresh : ∀ m ∈ (Node.leaf l).leaves, m.key ≠ key := fun m hm => by
    rw [leaves_leaf, List.mem_singleton] at hm; exact hm ▸ heq
  rcases allocBlock_cases .node4 e with ⟨e1, ha, hA, hf⟩ | ⟨b, e1, ha, hA, hf⟩
  · rw [ha]; exact .oom (fun _ => .leaf follows) (.refl _) hA (by omega)
  rw [ha]
  simp only [toU32_sub (Nat.not_lt.mp hbig), readRange_follows ((List.prefix_append _ _).trans hn),
    Option.bind_some]
  rcases allocLeaf_cases e1 key value with ⟨h, hno⟩ | ⟨e2, h, hA2, hf2⟩ | ⟨m, e2, h, hkey, hv, hg⟩
  · rw [h]; exact .undefined (Or.inl (by rw [← hA.mem]; exact hno))
  · rw [h]
    exact .oom (fun _ => .leaf follows) (.refl _) ((hA.trans hA2).trans (freeBlock_alike _ _ _))
      (by rw [freeBlock_failed]; omega)
  · rw [h]
    refine .added ?_ hfresh hkey hv ?_ (.of_alike hA hf hg)
    · refine pairNode_wf hQ (store_describes zero_room shared) ?_ hne (.leaf hl) (.leaf (hkey ▸ hn))
      rw [List.length_append]; exact Nat.not_lt.mp hbig
    · exact (pairNode_leaves _ _ hne).trans (List.Perm.swap _ _ _)

/-! ## Splitting a prefix -/

/-- Where a key leaves a prefix. -/
theorem exists_fork {path shared : List UInt8} {key : CStr} (h0 : 0 ∉ path ++ shared)
    (hk : path <+: key.term)
    (hlt : agree shared (key.term.drop path.length) < shared.length) :
    ∃ s1 o s2 k, shared = s1 ++ o :: s2 ∧ s1.length = agree shared (key.term.drop path.length) ∧
      path ++ s1 ++ [k] <+: key.term ∧ o ≠ k := by
  have hne := @agree_ne shared (key.term.drop path.length)
  have htake : shared.take _ = _ := take_agree (a := shared) (b := key.term.drop path.length)
  generalize agree shared (key.term.drop path.length) = m at *
  have hp1 : path ++ shared.take m <+: key.term :=
    (prefix_drop hk).mp (by rw [htake]; exact List.take_prefix _ _)
  have hlen : (path ++ shared.take m).length = path.length + m := by
    rw [List.length_append, List.length_take, Nat.min_eq_left (Nat.le_of_lt hlt)]
  have hin : (path ++ shared.take m).length ≤ key.strlen := by
    have hz : 0 ∉ path ++ shared.take m := fun hm =>
      h0 ((List.mem_append.mp hm).elim (List.mem_append_left _) fun hm =>
        List.mem_append_right _ (List.mem_of_mem_take hm))
    simpa using within (i := 0) hz (by simpa using hp1) (Nat.zero_le _)
  obtain ⟨k, hk'⟩ := read_some hin
  refine ⟨shared.take m, shared[m], shared.drop (m + 1), k, ?_, ?_, prefix_of_read hp1 hk', ?_⟩
  · rw [← List.drop_eq_getElem_cons hlt, List.take_append_drop]
  · rw [List.length_take, Nat.min_eq_left (Nat.le_of_lt hlt)]
  · rw [hlen] at hk'
    exact hne (List.getElem?_eq_getElem hlt) (by rw [List.getElem?_drop]; exact hk')

section
variable {path shared : List UInt8} {n : Inner (Node V)}

theorem splitPrefix_inserted (hQ : Grows Q) (valid : n.Valid) (hd : n.header.Describes shared)
    (bound : (path ++ shared).length ≤ intMax) (occupied : n.kids ≠ []) (count : n.Counts Q)
    (kids : ∀ c x, n.look c = some x → WF Q (path ++ shared ++ [c]) x) {key : CStr}
    (hk : path <+: key.term)
    (hlt : agree shared (key.term.drop path.length) < shared.length) (value : Option V) (e : Env) :
    Inserted Q path key value e (.inner n)
      (splitPrefix e n key value path.length (agree shared (key.term.drop path.length))) := by
  have hwf : WF Q path (.inner n) := .inner valid hd bound occupied count kids
  obtain ⟨s1, o, s2, k, rfl, hlen, hkp, hne⟩ := exists_fork (WF.noNul occupied kids) hk hlt
  rw [← hlen]
  have hold : ∀ m ∈ (Node.inner n).leaves, path ++ s1 ++ [o] ++ s2 <+: m.key.term := fun m hm => by
    obtain ⟨c, x, hc, hx⟩ := mem_leaves_inner.mp hm
    have := (List.prefix_append _ _).trans ((kids c x hc).follows m hx)
    simpa using this
  have hfresh : ∀ m ∈ (Node.inner n).leaves, m.key ≠ key := fun m hm he => by
    have h1 := (List.prefix_append _ _).trans (hold m hm)
    exact hne (byte_unique (he ▸ h1) hkp)
  obtain ⟨leaf, hleaf, hmem⟩ := hwf.minimumLeaf
  have hleafp := hold leaf hmem
  have hread1 := @readRange_follows key path _ ((List.prefix_append _ _).trans hkp)
  have hreado := read_follows ((List.prefix_append _ s2).trans hleafp)
  have hreads := readRange_follows hleafp
  have hreadk := read_follows hkp
  rw [List.length_append, Nat.add_comm] at hreadk
  simp only [List.length_append, List.length_singleton] at hreado hreads
  have hnew : n.header.prefixLen - (s1.length + 1) = s2.length := by
    rw [hd.len]; simp only [List.length_append, List.length_cons]; omega
  unfold splitPrefix
  rcases allocBlock_cases .node4 e with ⟨e1, ha, hA, hf⟩ | ⟨b, e1, ha, hA, hf⟩
  · rw [ha]; exact .oom (fun _ => hwf) (.refl _) hA (by omega)
  rw [ha]
  simp only
  rcases allocLeaf_cases e1 key value with ⟨h, hno⟩ | ⟨e2, h, hA2, hf2⟩ | ⟨m, e2, h, hkey, hv, hg⟩
  · rw [h]; exact .undefined (Or.inl (by rw [← hA.mem]; exact hno))
  · rw [h]
    exact .oom (fun _ => hwf) (.refl _) ((hA.trans hA2).trans (freeBlock_alike _ _ _))
      (by rw [freeBlock_failed]; omega)
  · rw [h, Option.bind_some]
    simp only [hread1, hleaf, hreado, hnew, hreads, hreadk,
      Option.bind_some, Option.map_some]
    refine .added ?_ hfresh hkey hv ?_ (.of_alike hA hf hg)
    · rw [List.append_cons, ← List.append_assoc] at bound
      refine pairNode_wf hQ (store_describes zero_room s1) ?_ hne ?_ (.leaf (hkey ▸ hkp))
      · simp only [List.length_append] at bound ⊢; omega
      · refine .inner (valid.setHeader _) ?_ (by simpa using bound) (by simpa using occupied) ?_ ?_
        · rw [setHeader_header]; exact store_describes hd.room s2
        · simpa [Inner.Counts] using count
        · simpa using kids
    · refine (pairNode_leaves _ _ hne).trans ?_
      rw [leaves_setHeader]
      exact List.perm_append_comm

/-! ## The walk -/

/-- Exchanging a child for one that is as good. -/
theorem WF.setChild (valid : n.Valid) (hd : n.header.Describes shared)
    (bound : (path ++ shared).length ≤ intMax) (occupied : n.kids ≠ []) (count : n.Counts Q)
    (kids : ∀ c x, n.look c = some x → WF Q (path ++ shared ++ [c]) x) {c : UInt8} {x y : Node V}
    (hc : n.look c = some x) (hy : WF Q (path ++ shared ++ [c]) y) :
    WF Q path (.inner (n.setChild c (some y))) := by
  have hlen := kids_setChild_length valid.coherent hc y
  have hd' : (n.setChild c (some y)).header.Describes shared := by rwa [setChild_header]
  refine .inner (valid.setChild hc y) hd' bound
    (fun hk => occupied ?_) ?_ fun d z hz => ?_
  · rw [hk] at hlen; exact List.length_eq_zero_iff.mp hlen.symm
  · unfold Inner.Counts at count ⊢
    rwa [setChild_type, setChild_numChildren, hlen]
  · rw [look_setChild valid.coherent hc, Function.update_apply] at hz
    split at hz
    · next hdc => cases hz; exact hdc ▸ hy
    · exact kids d z hz

/-- What happens below a child happens below its node. -/
theorem Inserted.lift (valid : n.Valid) (hd : n.header.Describes shared)
    (bound : (path ++ shared).length ≤ intMax) (occupied : n.kids ≠ []) (count : n.Counts Q)
    (kids : ∀ c x, n.look c = some x → WF Q (path ++ shared ++ [c]) x) {c : UInt8} {x : Node V}
    (hc : n.look c = some x) {key : CStr} {value : Option V} {e : Env}
    (hfar : ∀ m ∈ others n c, m.key ≠ key) {r : Option (Status × Node V × Env)}
    (h : Inserted Q (path ++ shared ++ [c]) key value e x r) :
    Inserted Q path key value e (.inner n)
      (r.map fun r => (r.1, .inner (n.setChild c (some r.2.1)), r.2.2)) := by
  have hsplit := leaves_split _ hc
  rw [leavesAt_some] at hsplit
  have hset : ∀ y, (Node.inner (n.setChild c (some y))).leaves.Perm (y.leaves ++ others n c) :=
    fun y => by simpa using leaves_perm (look_setChild valid.coherent hc (some y))
  have hwf : ∀ {y}, WF Q (path ++ shared ++ [c]) y → WF Q path (.inner (n.setChild c (some y))) :=
    fun hy => .setChild valid hd bound occupied count kids hc hy
  cases h with
  | undefined refused =>
    refine .undefined (refused.imp_right ?_)
    intro ⟨l, hl, hbig⟩
    exact ⟨l, hsplit.mem_iff.mpr (List.mem_append_left _ hl), hbig⟩
  | @replaced l rest y wf hkey before after =>
    exact .replaced (hwf wf) hkey
      (hsplit.trans (before.append_right _)) ((hset y).trans (after.append_right _))
  | @added l y e' wf fresh hkey hvalue after grown =>
    refine .added (hwf wf) (fun m hm => ?_) hkey hvalue ?_ grown
    · exact (List.mem_append.mp (hsplit.mem_iff.mp hm)).elim (fresh m) (hfar m)
    · exact (hset y).trans ((after.append_right _).trans (hsplit.symm.cons l))
  | @oom y e' wf after alike failed =>
    exact .oom (fun hs => hwf (wf hs)) ((hset y).trans ((after.append_right _).trans hsplit.symm))
      alike failed
  | invalid long =>
    have : Inserted Q path key value e (.inner n) _ := .invalid long
    simpa only [Option.map_some, setChild_self hc] using this

/-- A new leaf, or none, at a byte without a child. -/
theorem Added.inserted (hd : n.header.Describes shared)
    (bound : (path ++ shared).length ≤ intMax) (occupied : n.kids ≠ [])
    (kids : ∀ c x, n.look c = some x → WF Q (path ++ shared ++ [c]) x) {c : UInt8}
    (hc : n.look c = none) {key : CStr} (hkey : path ++ shared ++ [c] <+: key.term)
    {value : Option V} {e : Env} {r : Option (Status × Inner (Node V) × Env)}
    (h : Added Q n c key value e r) :
    Inserted Q path key value e (.inner n) (r.map fun r => (r.1, .inner r.2.1, r.2.2)) := by
  cases h with
  | undefined refused => exact .undefined (Or.inl refused)
  | @oom n' e' routes count alike failed =>
    refine .oom (fun hs => ?_) ?_ alike failed
    · refine .inner routes.valid (by rwa [routes.header]) bound (fun hk => occupied ?_) (count hs)
        fun d y hy => kids d y (by rwa [routes.look] at hy)
      rwa [Inner.kids, routes.look] at hk
    · rw [leaves_inner, leaves_inner, Inner.kids, routes.look, Inner.kids]
  | @ok n' l e' hk hv routes count grown =>
    have hperm := leaves_perm routes.look
    have hsplit := leaves_split _ hc
    rw [leavesAt_none, List.nil_append] at hsplit
    rw [leavesAt_some, leaves_leaf] at hperm
    refine .added ?_ (fun m hm he => ?_) hk hv (hperm.trans (hsplit.symm.append_left _)) grown
    · refine .inner routes.valid (by rwa [routes.header]) bound (fun hn => ?_) count fun d y hy => ?_
      · have := length_of_perm_update hc routes.look
        rw [hn] at this; cases this
      · rw [routes.look, Function.update_apply] at hy
        split at hy
        · next hdc => cases hy; exact .leaf (hdc ▸ hk ▸ hkey)
        · exact kids d y hy
    · -- a leaf with this key would be filed under `c`
      obtain ⟨d, y, hy, hm⟩ := mem_leaves_inner.mp hm
      have hdc : d = c := byte_unique (he ▸ (kids d y hy).follows m hm) hkey
      rw [hdc, hc] at hy; cases hy

end

/-- A round at a coherent node, where the slot of a byte is empty only in a Node256. -/
theorem insertLoop_inner {n : Inner (Node V)} (coherent : n.Coherent) (key : CStr)
    (value : Option V) (fuel : Nat) (e : Env) (depth : Nat) :
    insertLoop key value (fuel + 1) e (.inner n) depth =
      (matchPrefix n key depth).bind fun matchLen =>
        if matchLen < n.header.prefixLen then splitPrefix e n key value depth matchLen
        else if 0 < n.header.prefixLen ∧ toInt key.strlen < toInt (depth + n.header.prefixLen) then
          some (.errInvalid, .inner n, e)
        else if toInt (depth + n.header.prefixLen) ≠ (depth + n.header.prefixLen : Nat) then none
        else (read key (depth + n.header.prefixLen)).bind fun c =>
          match n.look c with
          | some x => (insertLoop key value fuel e x (depth + n.header.prefixLen + 1)).map fun r =>
              (r.1, .inner (n.setChild c (some r.2.1)), r.2.2)
          | none => (addChild e c key value n).map fun r => (r.1, .inner r.2.1, r.2.2) := by
  rw [insertLoop]
  refine Option.bind_congr fun matchLen _ => ?_
  split
  · rfl
  split
  · rfl
  split
  · rfl
  refine Option.bind_congr fun c _ => ?_
  have hfind := coherent.findChild c
  cases hl : n.look c with
  | some x =>
    have hfind : n.findChild c = some (some x) := by rw [hfind, hl]; split <;> rfl
    simp only [hfind]
  | none =>
    by_cases ht : n.type = .node256
    · rw [hl, if_pos ht] at hfind
      simp only [hfind, ht]
    · rw [hl, if_neg ht, Option.map_none] at hfind
      simp only [hfind]

theorem insertLoop_inserted (hQ : Grows Q) {path : List UInt8} {node : Node V} (h : WF Q path node)
    (key : CStr) (value : Option V) : ∀ {fuel : Nat} {e : Env}, path <+: key.term →
      key.strlen + 2 ≤ fuel + path.length →
      Inserted Q path key value e node (insertLoop key value fuel e node path.length) := by
  induction h with
  | @leaf path l follows =>
    intro fuel e hk hf
    have hle := hk.length_le
    rw [CStr.length_term] at hle
    obtain ⟨fuel, rfl⟩ : ∃ f, fuel = f + 1 := ⟨fuel - 1, by omega⟩
    exact splitLeaf_inserted hQ follows hk value e
  | @inner path shared n valid hd bound occupied count kids ih =>
    intro fuel e hk hf
    have h0 := WF.noNul occupied kids
    have hin := (Fits.of_prefix hk).inner fun hm => h0 (List.mem_append_left _ hm)
    obtain ⟨fuel, rfl⟩ : ∃ f, fuel = f + 1 := ⟨fuel - 1, by omega⟩
    rw [insertLoop_inner valid.coherent, matchPrefix_spec valid hd bound occupied count kids hin,
      Option.bind_some, hd.len]
    by_cases hlt : agree shared (key.term.drop path.length) < shared.length
    · rw [if_pos hlt]
      exact splitPrefix_inserted hQ valid hd bound occupied count kids hk hlt value e
    rw [if_neg hlt]
    have hps := follows_of_agree hk hlt
    have hin' := (Fits.of_prefix hps).inner h0
    have hdepth := toInt_short bound
    rw [List.length_append] at hdepth
    rw [hdepth]
    split
    · next hlong =>
      refine .invalid (Nat.lt_of_not_le fun hs => ?_)
      rw [toInt_short hs, ← List.length_append] at hlong
      omega
    rw [if_neg (not_not.mpr rfl)]
    obtain ⟨c, hc⟩ := read_some hin'
    have hpc := prefix_of_read hps hc
    rw [List.length_append] at hc
    rw [hc, Option.bind_some]
    cases hl : n.look c with
    | some x =>
      have hlift := Inserted.lift valid hd bound occupied count kids hl (others_ne kids (read_follows hpc))
        (@ih c x hl fuel e hpc (by
          rw [List.length_append, List.length_append, List.length_singleton]; omega))
      rw [List.length_append, List.length_append, List.length_singleton] at hlift
      simpa only [hl] using hlift
    | none =>
      have hadd := (addChild_added hQ valid hl count key value e).inserted hd bound occupied kids hl hpc
      simpa only [hl] using hadd

end Cdsa.Art
