import Cdsa.L2Skiplist.Insert

/-!
# Removing from a skip list

The search stops right before the first tower whose item is not smaller than
the one to remove. On the levels that tower reaches it follows the breadcrumb
and is bypassed; the loop over the levels stops at the first one it does not
reach (`unlinkLoop_spec`). `removeSkiplist_cases`: either nothing holds the
item and nothing changes, or one tower that does is gone.
-/
namespace Cdsa.Skiplist

open Cdsa.Core Cdsa.Memory

variable {S : Type}

/-- The links after `N` has been bypassed on the levels of `R`. -/
structure Bypassed (nodes nodes' : Ptr → Option (SkipNode S)) (N : Tower S) (U : Nat → Tower S)
    (R : Nat → Prop) : Prop where
  crumb : ∀ j, R j → forwardAt nodes' j (U j).ptr = forwardAt nodes j N.ptr
  rest : ∀ j, R j → ∀ r, r ≠ (U j).ptr → forwardAt nodes' j r = forwardAt nodes j r
  other : ∀ j, ¬ R j → ∀ r, forwardAt nodes' j r = forwardAt nodes j r
  stands : ∀ t : Tower S, t.Stands nodes → t.Stands nodes'

theorem unlinkLoop_spec {N : Tower S} {U : Nat → Tower S} {update : List Ptr} :
    ∀ left i (nodes : Ptr → Option (SkipNode S)), N.Stands nodes → N.level ≤ i + left →
      (∀ j, i ≤ j → j < i + left → update[j]? = some (U j).ptr ∧ (U j).Stands nodes ∧
        j < (U j).level ∧ (forwardAt nodes j (U j).ptr = some (some N.ptr) ↔ j < N.level)) →
      ∃ nodes', unlinkLoop N.ptr update left i nodes = some nodes' ∧
        Bypassed nodes nodes' N U (fun j => i ≤ j ∧ j < N.level) := by
  intro left
  induction left with
  | zero =>
    intro i nodes _ hlev _
    exact ⟨nodes, rfl, fun j h => by omega, fun j h => by omega, fun _ _ _ => rfl, fun _ h => h⟩
  | succ left ih =>
    intro i nodes hN hlev hU
    obtain ⟨hup, hst, hlt, hiff⟩ := hU i (Nat.le_refl _) (by omega)
    by_cases hi : i < N.level
    · obtain ⟨after, hafter⟩ := hN.forwardAt hi
      obtain ⟨nodes1, h1, W⟩ := setForward_spec hst hlt after
      obtain ⟨nodes', h', P⟩ := ih (i + 1) nodes1 (W.stands _ hN) (by omega) (fun j h1 h2 => by
        obtain ⟨ha, hb, hc, hd⟩ := hU j (by omega) (by omega)
        exact ⟨ha, W.stands _ hb, hc, by rw [W.level j (by omega)]; exact hd⟩)
      have hlvl : ∀ r, forwardAt nodes' i r = forwardAt nodes1 i r := P.other i (by omega)
      refine ⟨nodes', ?_, fun j hj => ?_, fun j hj r hr => ?_, fun j hj r => ?_,
        fun t ht => P.stands t (W.stands t ht)⟩
      · rw [unlinkLoop, hup]
        simp only [Option.bind_some, hiff.mpr hi, ne_eq, not_true_eq_false, if_false, hafter, h1]
        exact h'
      · by_cases hji : j = i
        · subst hji; rw [hlvl, W.here, hafter]
        · rw [P.crumb j (by omega), W.level j hji]
      · by_cases hji : j = i
        · subst hji; rw [hlvl, W.node j r hr]
        · rw [P.rest j (by omega) r hr, W.level j hji]
      · rw [P.other j (by omega), W.level j (by omega)]
    · -- the tower does not reach this level: the loop breaks
      obtain ⟨next, hnext⟩ := hst.forwardAt hlt
      have hne : next ≠ some N.ptr := fun he => hi (hiff.mp (he ▸ hnext))
      refine ⟨nodes, ?_, fun j h => by omega, fun j h => by omega, fun _ _ _ => rfl, fun _ h => h⟩
      rw [unlinkLoop, hup]
      simp only [Option.bind_some, hnext, ne_eq, hne, not_false_eq_true, if_true]

theorem lowerLevel_spec {nodes : Ptr → Option (SkipNode S)} {header : Ptr} {L : List (Tower S)} :
    ∀ n, 1 ≤ n →
      (∀ i, i < n → forwardAt nodes i header = some ((tall i L).map Tower.ptr).head?) →
      ∃ m, lowerLevel nodes header n = some m ∧ 1 ≤ m ∧ m ≤ n ∧
        (∀ i, m ≤ i → i < n → tall i L = []) ∧ (m = 1 ∨ tall (m - 1) L ≠ [])
  | 0, h, _ => by omega
  | 1, _, _ => ⟨1, rfl, Nat.le_refl _, Nat.le_refl _, fun i h1 h2 => by omega, Or.inl rfl⟩
  | n + 2, _, hn => by
    have htop := hn (n + 1) (by omega)
    rw [lowerLevel, htop, Option.bind_some]
    cases hl : tall (n + 1) L with
    | nil =>
      obtain ⟨m, he, h1, h2, h3, h4⟩ := lowerLevel_spec (n + 1) (by omega)
        (fun i hi => hn i (by omega))
      refine ⟨m, by simpa using he, h1, by omega, fun i hi hi' => ?_, h4⟩
      by_cases hin : i = n + 1
      · rw [hin, hl]
      · exact h3 i hi (by omega)
    | cons t l =>
      exact ⟨n + 2, by simp, by omega, Nat.le_refl _, fun i h1 h2 => by omega,
        Or.inr (by rw [show n + 2 - 1 = n + 1 from rfl, hl]; simp)⟩

theorem Owns.free_tower {base : UInt64} {bs : List (Ptr × Nat)} {mem : Mem} {N : Tower S}
    (O : Owns base (N.blocks ++ bs) mem) :
    ∃ m1 m2 m3, cdsaFreeTrack mem (some N.valuePtr) = some m1 ∧
      cdsaFreeTrack m1 (some N.forwardPtr) = some m2 ∧ cdsaFreeTrack m2 (some N.ptr) = some m3 ∧
      Owns base bs m3 ∧ m3.answers = mem.answers := by
  have hp : (N.blocks ++ bs).Perm ((N.valuePtr, N.value.strlen + 1) ::
      (N.forwardPtr, N.level * 8 % 2 ^ 64) :: (N.ptr, 32) :: bs) := by
    simp only [Tower.blocks, List.cons_append, List.nil_append]
    exact (List.Perm.swap ..).trans ((List.Perm.swap ..).cons _)
  obtain ⟨m1, e1, O1, a1, -⟩ := (O.of_perm hp).free
  obtain ⟨m2, e2, O2, a2, -⟩ := O1.free
  obtain ⟨m3, e3, O3, a3, -⟩ := O2.free
  exact ⟨m1, m2, m3, e1, e2, e3, O3, by rw [a3, a2, a1]⟩

theorem item_eq_iff {t : Tower S} {s : S} {v : CStr} :
    t.item = toLex (s, v) ↔ t.score = s ∧ CStr.strcmp t.value v = 0 := by
  rw [CStr.strcmp_eq_zero, Tower.item, toLex_inj, Prod.mk.injEq]

variable [LinearOrder S]

/-- Which breadcrumbs lead to the first tower after `A`. -/
theorem Towers.crumb_next {sl : CdsaSkiplist S} {H N : Tower S} {A B : List (Tower S)}
    (T : Towers sl H (A ++ N :: B)) {j : Nat} (hj : j < SKIPLIST_MAX_LEVEL) :
    forwardAt sl.nodes j (crumb H A j).ptr = some (some N.ptr) ↔ j < N.level := by
  have hl := T.links j hj
  rw [tall_append, List.map_append] at hl
  have hd := hl.drop.next_eq
  rw [crumb_ptr] at hd
  constructor
  · intro h
    by_contra hlt
    rw [tall_cons_of_le (Nat.not_lt.mp hlt), h, Option.some.injEq] at hd
    obtain ⟨b, hb, hp⟩ := List.mem_map.mp (List.mem_of_mem_head? hd.symm)
    have hn := T.nodup
    rw [← List.cons_append, List.map_append, List.map_cons] at hn
    exact (List.nodup_cons.mp (List.nodup_append.mp hn).2.1).1
      (List.mem_map.mpr ⟨b, (mem_tall.mp hb).1, hp⟩)
  · intro hlt
    rw [hd, tall_cons_of_lt hlt]; rfl

/-- Taking the tower `N` out keeps the others in order. -/
theorem Towers.bypassed {sl : CdsaSkiplist S} {H N : Tower S} {A B : List (Tower S)}
    (T : Towers sl H (A ++ N :: B)) {nodes' : Ptr → Option (SkipNode S)}
    (P : Bypassed sl.nodes nodes' N (crumb H A) (fun j => 0 ≤ j ∧ j < N.level)) :
    ∃ level, lowerLevel nodes' sl.header sl.level = some level ∧
      Towers { sl with
        level
        size := sl.size - 1
        version := (sl.version + 1) % 2 ^ 64
        nodes := Function.update nodes' N.ptr none } H (A ++ B) := by
  have hnod : (N.ptr :: (H :: (A ++ B)).map Tower.ptr).Nodup := by
    have hp : ((H :: (A ++ N :: B)).map Tower.ptr).Perm (N.ptr :: (H :: (A ++ B)).map Tower.ptr) :=
      ((List.perm_middle.cons H).trans (List.Perm.swap ..)).map Tower.ptr
    exact hp.nodup_iff.mp T.nodup
  obtain ⟨hN, hnod⟩ := List.nodup_cons.mp hnod
  have hmem : ∀ t ∈ A ++ B, t ∈ A ++ N :: B := fun t ht => by
    simp only [List.mem_append, List.mem_cons] at ht ⊢; tauto
  have hlinks : ∀ i, i < SKIPLIST_MAX_LEVEL →
      Links (forwardAt nodes' i) H.ptr ((tall i (A ++ B)).map Tower.ptr) := by
    intro i hi
    have hl := T.links i hi
    have hn := nodup_tall T.nodup i
    by_cases hh : i < N.level
    · rw [tall_append, tall_cons_of_lt hh, List.map_append, List.map_cons] at hl hn
      rw [tall_append, List.map_append]
      refine hl.bypass hn ?_ fun r _ hr => ?_
      · rw [crumb_ptr]; exact P.crumb i ⟨Nat.zero_le _, hh⟩
      · rw [crumb_ptr] at hr; exact P.rest i ⟨Nat.zero_le _, hh⟩ r hr
    · rw [tall_append, tall_cons_of_le (Nat.not_lt.mp hh), ← tall_append] at hl
      exact hl.congr fun r _ => P.other i (fun h => hh h.2) r
  obtain ⟨m, he, h1, h2, h3, h4⟩ := lowerLevel_spec sl.level T.top.1 (fun i hi =>
    (hlinks i (Nat.lt_of_lt_of_le hi T.level_le)).next_eq)
  rw [T.header] at he
  refine ⟨m, he, T.header, T.full, fun t ht => ?_, hnod, fun i hi => ?_,
    Nat.le_trans h2 T.level_le, fun t ht => ?_, ⟨h1, h4⟩, ?_, ?_⟩
  · have hne : t.ptr ≠ N.ptr := fun h => hN (h ▸ List.mem_map_of_mem ht)
    refine (P.stands t (T.stands t ?_)).update hne _
    rcases List.mem_cons.mp ht with rfl | ht
    · exact List.mem_cons_self
    · exact List.mem_cons_of_mem _ (hmem t ht)
  · exact (hlinks i hi).congr fun r hr =>
      forwardAt_update (fun h => hN (by rw [← h]; exact tall_ptr_subset H _ i hr)) _ i
  · obtain ⟨ht1, ht2⟩ := T.heights t (hmem t ht)
    refine ⟨ht1, ?_⟩
    by_contra hlt
    simp only [not_le] at hlt
    -- a tower above the new level would stand on a level just found empty
    have hnil := h3 (t.level - 1) (by omega) (by omega)
    have : t ∈ tall (t.level - 1) (A ++ B) := mem_tall.mpr ⟨ht, by omega⟩
    rw [hnil] at this; cases this
  · exact T.sorted.sublist (((List.sublist_cons_self N B).append_left A).map _)
  · have := T.size
    simp only [List.length_append, List.length_cons] at this ⊢; omega

section
variable {sl : CdsaSkiplist S} {H : Tower S} {mem : Mem} {base : UInt64} {rest : List (Ptr × Nat)}

/-- `remove_skiplist` finds no tower with the item, or takes out the first one. -/
theorem Towers.removes {A B : List (Tower S)} (T : Towers sl H (A ++ B))
    (O : Owns base (owned sl.self H (A ++ B) ++ rest) mem) {s : S} {v : CStr}
    (hA : ∀ a ∈ A, a.item < toLex (s, v)) (hB : ∀ b ∈ B, toLex (s, v) ≤ b.item) :
    ((∀ t ∈ A ++ B, t.item ≠ toLex (s, v)) ∧
      removeSkiplist sl mem s v = some (.errNotFound, sl, mem)) ∨
    ∃ N B' sl' mem', B = N :: B' ∧ N.item = toLex (s, v) ∧
      removeSkiplist sl mem s v = some (.ok, sl', mem') ∧ Towers sl' H (A ++ B') ∧
      Owns base (owned sl'.self H (A ++ B') ++ rest) mem' ∧ mem'.answers = mem.answers := by
  have hd := T.search hA hB
  have hnext : forwardAt sl.nodes 0 (crumb H A 0).ptr = some (B.map Tower.ptr).head? := by
    have hl := T.links 0 (by decide)
    rw [tall_zero fun t ht => (T.heights t ht).1, List.map_append] at hl
    have := hl.drop.next_eq
    rwa [← tall_zero (L := A) fun t ht => (T.heights t (List.mem_append_left _ ht)).1,
      crumb_ptr] at this
  cases B with
  | nil =>
    refine Or.inl ⟨fun t ht => ?_, ?_⟩
    · exact (hA t (by simpa using ht)).ne
    · simp only [removeSkiplist, hd, Option.bind_some, hnext, List.map_nil, List.head?_nil]
  | cons N B =>
    obtain ⟨forward, hN, hlen⟩ := T.stands N (by simp)
    by_cases hx : N.item = toLex (s, v)
    · obtain ⟨nodes', hu, P⟩ := @unlinkLoop_spec _ N (crumb H A)
        ((List.range sl.level).map fun i => (crumb H A i).ptr) sl.level 0 sl.nodes
        ⟨forward, hN, hlen⟩ (by have := (T.heights N (by simp)).2; omega) (fun j _ hj => by
          have hj' := Nat.lt_of_lt_of_le (show j < sl.level by omega) T.level_le
          have hm : crumb H A j ∈ H :: (A ++ N :: B) := by
            have := crumb_mem H A j
            simp only [List.mem_cons, List.mem_append] at this ⊢; tauto
          exact ⟨by simp [show j < sl.level by omega], T.stands _ hm,
            crumb_level (T.full ▸ hj') A, T.crumb_next hj'⟩)
      obtain ⟨level, hlow, T'⟩ := T.bypassed P
      obtain ⟨m1, m2, m3, e1, e2, e3, O3, a3⟩ := Owns.free_tower (O.of_perm
        (((owned_perm sl.self H N A B).append_right rest).trans (by rw [List.append_assoc])))
      refine Or.inr ⟨N, B, _, m3, rfl, hx, ?_, T', O3, a3⟩
      obtain ⟨hs, hv⟩ := item_eq_iff.mp hx
      simp only [removeSkiplist, hd, Option.bind_some, hnext, List.map_cons, List.head?_cons, hN,
        Tower.node, hs, hv, and_self, if_true, hu, hlow, e1, e2, e3, Option.map_some]
    · refine Or.inl ⟨fun t ht => ?_, ?_⟩
      · have hlt : toLex (s, v) < N.item := lt_of_le_of_ne (hB N (by simp)) (Ne.symm hx)
        have hsort := T.sorted
        rw [List.map_append, List.map_cons, List.pairwise_append, List.pairwise_cons] at hsort
        rcases List.mem_append.mp ht with ht | ht
        · exact (hA t ht).ne
        · rcases List.mem_cons.mp ht with rfl | ht
          · exact hx
          · exact (lt_of_lt_of_le hlt (hsort.2.1.1 _ (List.mem_map_of_mem ht))).ne'
      · have hne : ¬ (N.score = s ∧ CStr.strcmp N.value v = 0) := fun h => hx (item_eq_iff.mpr h)
        simp only [removeSkiplist, hd, Option.bind_some, hnext, List.map_cons, List.head?_cons, hN,
          Tower.node, hne, if_false]

theorem removeSkiplist_cases {L : List (Tower S)} (T : Towers sl H L)
    (O : Owns base (owned sl.self H L ++ rest) mem) (s : S) (v : CStr) :
    ((∀ t ∈ L, t.item ≠ toLex (s, v)) ∧
      removeSkiplist sl mem s v = some (.errNotFound, sl, mem)) ∨
    ∃ A B N sl' mem', L = A ++ N :: B ∧ N.item = toLex (s, v) ∧
      removeSkiplist sl mem s v = some (.ok, sl', mem') ∧ Towers sl' H (A ++ B) ∧
      Owns base (owned sl'.self H (A ++ B) ++ rest) mem' ∧ mem'.answers = mem.answers := by
  obtain ⟨A, B, rfl, hA, hB⟩ := T.split (toLex (s, v))
  rcases T.removes O hA hB with habsent | ⟨N, B, sl', mem', rfl, hrest⟩
  · exact Or.inl habsent
  · exact Or.inr ⟨A, B, N, sl', mem', rfl, hrest⟩

end

end Cdsa.Skiplist
