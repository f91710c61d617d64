import Cdsa.L2Skiplist.Towers

/-!
# Inserting into a skip list

`setForward_spec`: what one write to a link changes. `spliceLoop_spec`: on
the levels it runs over, the new tower follows the breadcrumb; nothing else
moves. `Towers.inserts`: the new tower stands right after the towers with a
smaller item, and nothing else about the list changes.
-/
namespace Cdsa.Skiplist

open Cdsa.Core Cdsa.Memory

variable {S : Type}

/-- `nodes'` differs from `nodes` by the write `p->forward[i] = q`. -/
structure Wrote (nodes nodes' : Ptr → Option (SkipNode S)) (p : Ptr) (i : Nat) (q : Option Ptr) :
    Prop where
  here : forwardAt nodes' i p = some q
  level : ∀ j, j ≠ i → ∀ r, forwardAt nodes' j r = forwardAt nodes j r
  node : ∀ j r, r ≠ p → forwardAt nodes' j r = forwardAt nodes j r
  stands : ∀ t : Tower S, t.Stands nodes → t.Stands nodes'

theorem setForward_spec {nodes : Ptr → Option (SkipNode S)} {t : Tower S} (hs : t.Stands nodes)
    {i : Nat} (hi : i < t.level) (q : Option Ptr) :
    ∃ nodes', setForward nodes t.ptr i q = some nodes' ∧ Wrote nodes nodes' t.ptr i q := by
  obtain ⟨forward, hn, hl⟩ := hs
  have hi' : i < forward.length := hl ▸ hi
  refine ⟨Function.update nodes t.ptr (some (t.node (forward.set i q))),
    by simp [setForward, hn, Tower.node, hi'], ⟨?_, fun j hj r => ?_, fun j r hr => ?_, fun u hu => ?_⟩⟩
  · simp [forwardAt, Tower.node, hi']
  · by_cases hr : r = t.ptr
    · subst hr; simp [forwardAt, hn, Tower.node, List.getElem?_set_ne hj.symm]
    · simp [forwardAt, Function.update_of_ne hr]
  · simp [forwardAt, Function.update_of_ne hr]
  · obtain ⟨forward', hu, hl'⟩ := hu
    by_cases hr : u.ptr = t.ptr
    · rw [hr, hn] at hu
      simp only [Tower.node, Option.some.injEq, SkipNode.mk.injEq] at hu
      refine ⟨forward.set i q, ?_, by rw [List.length_set, hu.2.2.2.2.1, hl']⟩
      rw [hr, Function.update_self]
      simp [Tower.node, hu]
    · exact ⟨forward', by rw [Function.update_of_ne hr]; exact hu, hl'⟩

/-- The links after the tower `N` has been spliced in after `U j` on the levels `j` of `R`. -/
structure Spliced (nodes nodes' : Ptr → Option (SkipNode S)) (N : Tower S) (U : Nat → Tower S)
    (R : Nat → Prop) : Prop where
  crumb : ∀ j, R j → forwardAt nodes' j (U j).ptr = some (some N.ptr)
  new : ∀ j, R j → forwardAt nodes' j N.ptr = forwardAt nodes j (U j).ptr
  rest : ∀ j, R j → ∀ r, r ≠ N.ptr → r ≠ (U j).ptr → forwardAt nodes' j r = forwardAt nodes j r
  other : ∀ j, ¬ R j → ∀ r, forwardAt nodes' j r = forwardAt nodes j r
  stands : ∀ t : Tower S, t.Stands nodes → t.Stands nodes'

theorem spliceLoop_spec {N : Tower S} {U : Nat → Tower S} {update : List Ptr} :
    ∀ left i (nodes : Ptr → Option (SkipNode S)), N.Stands nodes → i + left ≤ N.level →
      (∀ j, j < i + left → update[j]? = some (U j).ptr ∧ (U j).Stands nodes ∧ j < (U j).level ∧
        (U j).ptr ≠ N.ptr) →
      ∃ nodes', spliceLoop N.ptr update left i nodes = some nodes' ∧
        Spliced nodes nodes' N U (fun j => i ≤ j ∧ j < i + left) := by
  intro left
  induction left with
  | zero =>
    intro i nodes _ _ _
    exact ⟨nodes, rfl, fun j h => by omega, fun j h => by omega, fun j h => by omega,
      fun _ _ _ => rfl, fun _ h => h⟩
  | succ left ih =>
    intro i nodes hN hlev hU
    obtain ⟨hup, hst, hlt, hne⟩ := hU i (by omega)
    obtain ⟨next, hnext⟩ := hst.forwardAt hlt
    obtain ⟨nodes1, h1, W1⟩ := setForward_spec hN (show i < N.level by omega) next
    obtain ⟨nodes2, h2, W2⟩ := setForward_spec (W1.stands _ hst) hlt (some N.ptr)
    obtain ⟨nodes', h', P⟩ := ih (i + 1) nodes2 (W2.stands _ (W1.stands _ hN)) (by omega)
      (fun j hj => by
        obtain ⟨ha, hb, hc, hd⟩ := hU j (by omega)
        exact ⟨ha, W2.stands _ (W1.stands _ hb), hc, hd⟩)
    -- the other levels of `nodes2` are those of `nodes`
    have hsame : ∀ j, j ≠ i → ∀ r, forwardAt nodes2 j r = forwardAt nodes j r := fun j hj r =>
      (W2.level j hj r).trans (W1.level j hj r)
    have hlvl : ∀ r, forwardAt nodes' i r = forwardAt nodes2 i r := P.other i (by omega)
    refine ⟨nodes', by rw [spliceLoop, hup]; simp only [Option.bind_some, hnext, h1, h2]; exact h',
      fun j hj => ?_, fun j hj => ?_, fun j hj r hr1 hr2 => ?_, fun j hj r => ?_,
      fun t ht => P.stands t (W2.stands t (W1.stands t ht))⟩
    · by_cases hji : j = i
      · subst hji; rw [hlvl]; exact W2.here
      · exact P.crumb j (by omega)
    · by_cases hji : j = i
      · subst hji; rw [hlvl, W2.node j _ hne.symm, W1.here, hnext]
      · rw [P.new j (by omega), hsame j hji]
    · by_cases hji : j = i
      · subst hji; rw [hlvl, W2.node j _ hr2, W1.node j _ hr1]
      · rw [P.rest j (by omega) r hr1 hr2, hsame j hji]
    · rw [P.other j (by omega), hsame j (by omega)]

/-! ## The new node -/

/-- Either an allocation fails and what had been allocated is freed again, or
a node stands at a fresh address. -/
theorem cdsaCreateNode_spec {base : UInt64} {bs : List (Ptr × Nat)} {mem : Mem}
    (O : Owns base bs mem) (level : Nat) (score : S) (value : CStr) :
    (∃ mem', cdsaCreateNode mem level score value = some (none, mem') ∧ Owns base bs mem' ∧
      mem'.answers = mem.answers ∧ ¬ mem.NeverFails) ∨
    ∃ (N : Tower S) (mem' : Mem), cdsaCreateNode mem level score value =
        some (some (N.ptr, N.node (List.replicate level none)), mem') ∧
      Owns base (N.blocks ++ bs) mem' ∧ mem'.answers = mem.answers ∧ N.ptr = mem.asked ∧
      N.level = level ∧ N.item = toLex (score, value) := by
  cases h1 : mem.answers mem.asked with
  | false =>
    obtain ⟨m1, e1, O1, a1, -⟩ := O.alloc_fail h1 32
    exact Or.inl ⟨m1, by simp only [cdsaCreateNode, e1], O1, a1, fun h => by simp [h _] at h1⟩
  | true =>
    obtain ⟨m1, e1, O1, a1, -⟩ := O.alloc h1 32
    cases h2 : m1.answers m1.asked with
    | false =>
      obtain ⟨m2, e2, O2, a2, -⟩ := O1.alloc_fail h2 (value.strlen + 1)
      obtain ⟨m3, e3, O3, a3, -⟩ := O2.free
      refine Or.inl ⟨m3, by simp only [cdsaCreateNode, safeStrdup, e1, e2, e3, Option.map_some], O3,
        by rw [a3, a2, a1], fun h => ?_⟩
      rw [a1, h] at h2; cases h2
    | true =>
      obtain ⟨m2, e2, O2, a2, -⟩ := O1.alloc h2 (value.strlen + 1)
      cases h3 : m2.answers m2.asked with
      | false =>
        obtain ⟨m3, e3, O3, a3, -⟩ := O2.alloc_fail h3 (level * 8 % 2 ^ 64)
        obtain ⟨m4, e4, O4, a4, -⟩ := O3.free
        obtain ⟨m5, e5, O5, a5, -⟩ := O4.free
        refine Or.inl ⟨m5, by simp only [cdsaCreateNode, safeStrdup, cdsaCallocTrack, e1, e2, e3, e4,
          e5, Option.map_some, Option.bind_some], O5, by rw [a5, a4, a3, a2, a1], fun h => ?_⟩
        rw [a2, a1, h] at h3; cases h3
      | true =>
        obtain ⟨m3, e3, O3, a3, -⟩ := O2.alloc h3 (level * 8 % 2 ^ 64)
        refine Or.inr ⟨⟨mem.asked, score, value, m1.asked, level, m2.asked⟩, m3,
          by simp only [cdsaCreateNode, safeStrdup, cdsaCallocTrack, e1, e2, e3]; rfl,
          O3.of_perm ?_, by rw [a3, a2, a1], rfl, rfl, rfl⟩
        simp only [Tower.blocks, List.cons_append, List.nil_append]
        exact (List.Perm.swap ..).trans ((List.Perm.swap ..).cons _ |>.trans (.swap ..))

/-- The new tower is none of the old ones. -/
theorem fresh_ptr {base : UInt64} {rest : List (Ptr × Nat)} {self : Ptr} {H : Tower S}
    {L : List (Tower S)} {mem : Mem} (O : Owns base (owned self H L ++ rest) mem) :
    mem.asked ∉ (H :: L).map Tower.ptr := by
  intro h
  obtain ⟨t, ht, he⟩ := List.mem_map.mp h
  have := O.fresh _ (O.perm.mem_iff.mpr (List.mem_append_left _ (mem_owned_of_tower ht)))
  exact Nat.ne_of_lt this he

theorem Tower.Stands.update {nodes : Ptr → Option (SkipNode S)} {t : Tower S} (h : t.Stands nodes)
    {p : Ptr} (hp : t.ptr ≠ p) (n : Option (SkipNode S)) :
    t.Stands (Function.update nodes p n) := by
  obtain ⟨forward, hn, hl⟩ := h
  exact ⟨forward, by rw [Function.update_of_ne hp]; exact hn, hl⟩

theorem forwardAt_update {nodes : Ptr → Option (SkipNode S)} {p r : Ptr} (h : r ≠ p)
    (n : Option (SkipNode S)) (i : Nat) :
    forwardAt (Function.update nodes p n) i r = forwardAt nodes i r := by
  simp [forwardAt, Function.update_of_ne h]

/-! ## `insert_skiplist` -/

theorem tall_ptr_subset (H : Tower S) (L : List (Tower S)) (i : Nat) :
    H.ptr :: (tall i L).map Tower.ptr ⊆ (H :: L).map Tower.ptr :=
  ((List.filter_sublist.map _).cons_cons _).subset

theorem nodup_tall {H : Tower S} {L : List (Tower S)} (h : ((H :: L).map Tower.ptr).Nodup) (i : Nat) :
    (H.ptr :: (tall i L).map Tower.ptr).Nodup :=
  h.sublist ((List.filter_sublist.map _).cons_cons _)

variable [LinearOrder S]

theorem before_node (s : S) (v : CStr) (t : Tower S) (forward : List (Option Ptr)) :
    before s v (t.node forward) = decide (t.item < toLex (s, v)) := by
  simp [before, Tower.item, Tower.node, Prod.Lex.toLex_lt_toLex, CStr.strcmp_neg]

/-- Splitting at an item: what sorts before it, and the rest. -/
theorem Towers.split {sl : CdsaSkiplist S} {H : Tower S} {L : List (Tower S)} (T : Towers sl H L)
    (x : S ×ₗ CStr) : ∃ A B, L = A ++ B ∧ (∀ a ∈ A, a.item < x) ∧ ∀ b ∈ B, x ≤ b.item := by
  obtain ⟨A, B, h, hA, hB⟩ := exists_split (List.pairwise_map.mp T.sorted)
    (f := fun t => decide (t.item < x)) (fun a _ b _ hab hb => by simpa using lt_of_le_of_lt hab (by simpa using hb))
  exact ⟨A, B, h, fun a ha => by simpa using hA a ha, fun b hb => by simpa using hB b hb⟩

theorem Towers.search {sl : CdsaSkiplist S} {H : Tower S} {A B : List (Tower S)}
    (T : Towers sl H (A ++ B)) {s : S} {v : CStr} (hA : ∀ a ∈ A, a.item < toLex (s, v))
    (hB : ∀ b ∈ B, toLex (s, v) ≤ b.item) :
    Skiplist.descend sl.nodes (before s v) (sl.size + 1) sl.level sl.header =
      some ((crumb H A 0).ptr, (List.range sl.level).map fun i => (crumb H A i).ptr) :=
  T.descend (fun a ha forward => by rw [before_node]; exact decide_eq_true (hA a ha))
    (fun b hb forward => by rw [before_node]; exact decide_eq_false (not_lt.mpr (hB b hb)))

theorem sorted_insert {A B : List (Tower S)} {N : Tower S}
    (h : ((A ++ B).map Tower.item).Pairwise (· ≤ ·)) (hA : ∀ a ∈ A, a.item < N.item)
    (hB : ∀ b ∈ B, N.item ≤ b.item) : ((A ++ N :: B).map Tower.item).Pairwise (· ≤ ·) := by
  rw [List.map_append, List.pairwise_append] at h
  rw [List.map_append, List.map_cons, List.pairwise_append, List.pairwise_cons]
  refine ⟨h.1, ⟨?_, h.2.1⟩, ?_⟩
  · intro x hx
    obtain ⟨b, hb, rfl⟩ := List.mem_map.mp hx
    exact hB b hb
  · intro x hx y hy
    obtain ⟨a, ha, rfl⟩ := List.mem_map.mp hx
    rcases List.mem_cons.mp hy with rfl | hy
    · exact (hA a ha).le
    · exact h.2.2 _ hx _ hy

theorem update_getElem? {sl : CdsaSkiplist S} {H : Tower S} {A B : List (Tower S)}
    (T : Towers sl H (A ++ B)) {h j : Nat} (hj : j < h) :
    ((List.range sl.level).map (fun i => (crumb H A i).ptr) ++
      List.replicate (h - sl.level) sl.header)[j]? = some (crumb H A j).ptr := by
  by_cases hl : j < sl.level
  · rw [List.getElem?_append_left (by simpa using hl)]
    simp [hl]
  · have hnil : tall j A = [] := tall_eq_nil fun t ht =>
      Nat.le_trans (T.heights t (List.mem_append_left _ ht)).2 (Nat.not_lt.mp hl)
    rw [List.getElem?_append_right (by simpa using hl), crumb_of_tall_nil hnil, T.header,
      List.getElem?_replicate, if_pos]
    simp; omega

/-- Linking in the tower `N` keeps the towers in order. -/
theorem Towers.spliced {sl : CdsaSkiplist S} {H N : Tower S} {A B : List (Tower S)}
    (T : Towers sl H (A ++ B)) (hA : ∀ a ∈ A, a.item < N.item) (hB : ∀ b ∈ B, N.item ≤ b.item)
    (hN : N.ptr ∉ (H :: (A ++ B)).map Tower.ptr) (h1 : 1 ≤ N.level)
    (h16 : N.level ≤ SKIPLIST_MAX_LEVEL) {forward : List (Option Ptr)}
    (hf : forward.length = N.level) {nodes' : Ptr → Option (SkipNode S)}
    (P : Spliced (Function.update sl.nodes N.ptr (some (N.node forward))) nodes' N (crumb H A)
      (fun j => 0 ≤ j ∧ j < 0 + N.level)) :
    Towers { sl with
      level := if N.level > sl.level then N.level else sl.level
      size := sl.size + 1
      version := (sl.version + 1) % 2 ^ 64
      nodes := nodes' } H (A ++ N :: B) := by
  have hne : ∀ t ∈ H :: (A ++ B), t.ptr ≠ N.ptr := fun t ht he =>
    hN (he ▸ List.mem_map_of_mem ht)
  have hlinks : ∀ i, i < SKIPLIST_MAX_LEVEL →
      Links (forwardAt (Function.update sl.nodes N.ptr (some (N.node forward))) i) H.ptr
        ((tall i (A ++ B)).map Tower.ptr) := fun i hi =>
    (T.links i hi).congr fun r hr => forwardAt_update (fun he => hN (by
      rw [← he]
      exact tall_ptr_subset H _ i hr)) _ i
  refine ⟨T.header, T.full, fun t ht => P.stands t ?_, ?_, fun i hi => ?_, ?_, fun t ht => ?_, ?_,
    sorted_insert T.sorted hA hB, ?_⟩
  · have ht : t = N ∨ t ∈ H :: (A ++ B) := by
      simp only [List.mem_cons, List.mem_append] at ht ⊢; tauto
    rcases ht with rfl | ht
    · exact ⟨forward, Function.update_self .., hf⟩
    · exact (T.stands t ht).update (hne t ht) _
  · have hp : ((H :: (A ++ N :: B)).map Tower.ptr).Perm
        (N.ptr :: (H :: (A ++ B)).map Tower.ptr) :=
      ((List.perm_middle.cons H).trans (List.Perm.swap ..)).map Tower.ptr
    exact hp.nodup_iff.mpr (List.nodup_cons.mpr ⟨hN, T.nodup⟩)
  · have hl := hlinks i hi
    by_cases hh : i < N.level
    · rw [tall_append, tall_cons_of_lt hh, List.map_append, List.map_cons]
      rw [tall_append, List.map_append] at hl
      have hn := nodup_tall T.nodup i
      rw [tall_append, List.map_append] at hn
      refine hl.splice hn (fun hm => hN ?_) ?_ ?_ fun r hr1 hr2 => ?_
      · rw [← List.map_append, ← tall_append] at hm
        exact tall_ptr_subset H _ i hm
      · rw [crumb_ptr]; exact P.crumb i ⟨Nat.zero_le _, by omega⟩
      · rw [crumb_ptr]; exact P.new i ⟨Nat.zero_le _, by omega⟩
      · rw [crumb_ptr] at hr2
        exact P.rest i ⟨Nat.zero_le _, by omega⟩ r hr1 hr2
    · rw [tall_append, tall_cons_of_le (Nat.not_lt.mp hh), ← tall_append]
      exact hl.congr fun r _ => P.other i (fun h => hh (by omega)) r
  · have := T.level_le
    simp only; split <;> omega
  · have ht : t = N ∨ t ∈ A ++ B := by
      simp only [List.mem_cons, List.mem_append] at ht ⊢; tauto
    rcases ht with rfl | ht
    · simp only; split <;> omega
    · have := T.heights t ht
      simp only; split <;> omega
  · simp only
    split
    · refine ⟨h1, Or.inr (List.ne_nil_of_mem (a := N) (mem_tall.mpr ⟨by simp, by omega⟩))⟩
    · refine ⟨T.top.1, T.top.2.imp_right fun hne => ?_⟩
      obtain ⟨t, ht⟩ := List.exists_mem_of_ne_nil _ hne
      rw [mem_tall] at ht
      refine List.ne_nil_of_mem (a := t) (mem_tall.mpr ⟨?_, ht.2⟩)
      have := ht.1
      simp only [List.mem_append, List.mem_cons] at this ⊢; tauto
  · have := T.size
    simp only [List.length_append, List.length_cons] at this ⊢; omega

section
variable {sl : CdsaSkiplist S} {H : Tower S} {mem : Mem} {base : UInt64} {rest : List (Ptr × Nat)}

/-- `insert_skiplist` gives up on a failed allocation, or adds a tower between
those with a smaller item and the others. -/
theorem Towers.inserts {A B : List (Tower S)} (T : Towers sl H (A ++ B))
    (O : Owns base (owned sl.self H (A ++ B) ++ rest) mem) {s : S} {v : CStr}
    (hA : ∀ a ∈ A, a.item < toLex (s, v)) (hB : ∀ b ∈ B, toLex (s, v) ≤ b.item)
    (coins : Nat → Bool) :
    (∃ mem', insertSkiplist sl mem s v coins = some (.errOom, sl, mem') ∧
      Owns base (owned sl.self H (A ++ B) ++ rest) mem' ∧ mem'.answers = mem.answers ∧
      ¬ mem.NeverFails) ∨
    ∃ N sl' mem', insertSkiplist sl mem s v coins = some (.ok, sl', mem') ∧
      Towers sl' H (A ++ N :: B) ∧ Owns base (owned sl'.self H (A ++ N :: B) ++ rest) mem' ∧
      mem'.answers = mem.answers ∧ N.item = toLex (s, v) ∧ N.level = randomLevel coins := by
  have hd := T.search hA hB
  obtain ⟨h1, h16⟩ := randomLevel_range coins
  rcases cdsaCreateNode_spec O (randomLevel coins) s v with ⟨mem', he, O', ha, hn⟩ |
    ⟨N, mem', he, O', ha, hp, hl, hi⟩
  · refine Or.inl ⟨mem', ?_, O', ha, hn⟩
    simp only [insertSkiplist, hd, Option.bind_some, he]
  · have hN : N.ptr ∉ (H :: (A ++ B)).map Tower.ptr := hp ▸ fresh_ptr O
    have hf : (List.replicate (randomLevel coins) (none : Option Ptr)).length = N.level := by
      rw [List.length_replicate, hl]
    obtain ⟨nodes', hs, P⟩ := @spliceLoop_spec _ N (crumb H A)
      ((List.range sl.level).map (fun i => (crumb H A i).ptr) ++
        List.replicate (randomLevel coins - sl.level) sl.header) (randomLevel coins) 0
      (Function.update sl.nodes N.ptr (some (N.node (List.replicate (randomLevel coins) none))))
      ⟨_, Function.update_self .., hf⟩ (by omega) (fun j hj => by
        have hm : crumb H A j ∈ H :: (A ++ B) := by
          have := crumb_mem H A j
          simp only [List.mem_cons, List.mem_append] at this ⊢; tauto
        have hne : (crumb H A j).ptr ≠ N.ptr := fun he => hN (he ▸ List.mem_map_of_mem hm)
        exact ⟨update_getElem? T (by omega), (T.stands _ hm).update hne _,
          crumb_level (by rw [T.full]; omega) A, hne⟩)
    refine Or.inr ⟨N, _, mem', ?_, T.spliced (hi ▸ hA) (hi ▸ hB) hN (by omega) (by omega)
      hf (by rw [hl]; exact P), O'.of_perm ?_, ha, hi, hl⟩
    · simp only [insertSkiplist, hd, Option.bind_some, he, hs, Option.map_some, hl]
    · rw [← List.append_assoc]
      exact (owned_perm ..).symm.append_right rest

theorem insertSkiplist_cases {L : List (Tower S)} (T : Towers sl H L)
    (O : Owns base (owned sl.self H L ++ rest) mem) (s : S) (v : CStr) (coins : Nat → Bool) :
    (∃ mem', insertSkiplist sl mem s v coins = some (.errOom, sl, mem') ∧
      Owns base (owned sl.self H L ++ rest) mem' ∧ mem'.answers = mem.answers ∧
      ¬ mem.NeverFails) ∨
    ∃ A B N sl' mem', L = A ++ B ∧
      insertSkiplist sl mem s v coins = some (.ok, sl', mem') ∧ Towers sl' H (A ++ N :: B) ∧
      Owns base (owned sl'.self H (A ++ N :: B) ++ rest) mem' ∧ mem'.answers = mem.answers ∧
      N.item = toLex (s, v) ∧ N.level = randomLevel coins := by
  obtain ⟨A, B, rfl, hA, hB⟩ := T.split (toLex (s, v))
  rcases T.inserts O hA hB coins with hfail | ⟨N, sl', mem', he, hrest⟩
  · exact Or.inl hfail
  · exact Or.inr ⟨A, B, N, sl', mem', rfl, he, hrest⟩

end

end Cdsa.Skiplist
