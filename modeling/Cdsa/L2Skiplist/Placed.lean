import Cdsa.L2Skiplist.Levels

/-!
# Where the nodes stand

The operations of a run are named, and each insertion has coins of its own.
`place` puts the name of an insertion where its node goes, and takes the name of
a node away that is removed. Neither looks at the coins: in every run the nodes
stand, in order, as the names do, and each is as tall as its own coins decide
(`standing_run`). So the searches of one insertion may take other ways for other
coins of the earlier ones, but lead to the same place.
-/
namespace Cdsa.Skiplist

open Cdsa.Core Cdsa.Memory

variable {S ι : Type}

/-- The operation, with other coins. -/
def Op.tossed (coins : Nat → Bool) : Op S → Op S
  | .insert score value _ => .insert score value coins
  | op => op

/-- What a tower is apart from where it lies. -/
def Tower.stature (t : Tower S) : (S ×ₗ CStr) × Nat := (t.item, t.level)

/-- What the node of a name is. -/
def stature (coins : ι → Nat → Bool) (q : ι × (S ×ₗ CStr)) : (S ×ₗ CStr) × Nat :=
  (q.2, randomLevel (coins q.1))

section
variable {coins : ι → Nat → Bool} {A B : List (Tower S)} {placed : List (ι × (S ×ₗ CStr))}
  {p : S ×ₗ CStr → Bool}

/-- The names of a front part of the towers. -/
theorem front_stature (h : (A ++ B).map Tower.stature = placed.map (stature coins))
    (hA : ∀ a ∈ A, p a.item = true) (hB : ∀ b ∈ B, p b.item = false) :
    A.map Tower.stature = (placed.filter fun q => p q.2).map (stature coins) := by
  have hfront : (A ++ B).filter (fun t => p t.item) = A := by
    rw [List.filter_append, List.filter_eq_self.mpr hA,
      List.filter_eq_nil_iff.mpr fun b hb => by simp [hB b hb], List.append_nil]
  have hf := congrArg (List.filter fun x => p x.1) h
  rw [List.filter_map, List.filter_map] at hf
  rw [← hfront]
  exact hf

theorem back_stature (h : (A ++ B).map Tower.stature = placed.map (stature coins))
    (hA : ∀ a ∈ A, p a.item = true) (hB : ∀ b ∈ B, p b.item = false) :
    B.map Tower.stature = (placed.filter fun q => !p q.2).map (stature coins) := by
  have hback : (A ++ B).filter (fun t => !p t.item) = B := by
    rw [List.filter_append, List.filter_eq_nil_iff.mpr fun a ha => by simp [hA a ha],
      List.filter_eq_self.mpr fun b hb => by simp [hB b hb], List.nil_append]
  have hf := congrArg (List.filter fun x => !p x.1) h
  rw [List.filter_map, List.filter_map] at hf
  rw [← hback]
  exact hf

end

/-- A tower is known by its address. -/
def towerAt (nodes : Ptr → Option (SkipNode S)) (p : Ptr) : Option (Tower S) :=
  (nodes p).map fun n => ⟨p, n.score, n.value, n.valuePtr, n.level, n.forwardPtr⟩

theorem Tower.Stands.towerAt {nodes : Ptr → Option (SkipNode S)} {t : Tower S} (h : t.Stands nodes) :
    towerAt nodes t.ptr = some t := by
  obtain ⟨forward, hn, -⟩ := h
  rw [Skiplist.towerAt, hn]
  rfl

variable [LinearOrder S]

theorem Towers.unique {sl : CdsaSkiplist S} {H H' : Tower S} {L L' : List (Tower S)}
    (T : Towers sl H L) (T' : Towers sl H' L') : H = H' ∧ L = L' := by
  have hall : ∀ {H : Tower S} {L : List (Tower S)}, Towers sl H L →
      (L.map Tower.ptr).map (towerAt sl.nodes) = L.map some := by
    intro H L T
    rw [List.map_map]
    apply List.map_congr_left
    intro t ht
    exact (T.stands t (List.mem_cons_of_mem H ht)).towerAt
  have hptr : L.map Tower.ptr = L'.map Tower.ptr := Option.some.inj (T.chain_zero.symm.trans T'.chain_zero)
  constructor
  · have h := (T.stands H List.mem_cons_self).towerAt
    rw [T.header, ← T'.header, (T'.stands H' List.mem_cons_self).towerAt] at h
    exact (Option.some.inj h).symm
  · have h := hall T
    rw [hptr, hall T'] at h
    exact (List.map_injective_iff.mpr (Option.some_injective _) h).symm

/-- What an operation named `i` does to the names of the nodes. -/
def place (f : ι → Op S) (placed : List (ι × (S ×ₗ CStr))) (i : ι) : List (ι × (S ×ₗ CStr)) :=
  match f i with
  | .insert s v _ =>
    placed.filter (fun q => q.2 < toLex (s, v)) ++
      (i, toLex (s, v)) :: placed.filter fun q => !decide (q.2 < toLex (s, v))
  | .remove s v => placed.eraseP fun q => q.2 = toLex (s, v)
  | _ => placed

/-- The nodes stand where the names are, and are as tall as their coins decide. -/
def Standing (coins : ι → Nat → Bool) (sl : CdsaSkiplist S) (placed : List (ι × (S ×ₗ CStr))) : Prop :=
  ∃ H L, Towers sl H L ∧ L.map Tower.stature = placed.map (stature coins)

/-- The first tower with the item goes, and so does its name. -/
theorem erase_stature {coins : ι → Nat → Bool} {A B : List (Tower S)}
    {placed : List (ι × (S ×ₗ CStr))} {x : S ×ₗ CStr} {N : Tower S}
    (h : (A ++ N :: B).map Tower.stature = placed.map (stature coins)) (hA : ∀ a ∈ A, a.item < x)
    (hN : N.item = x) :
    (A ++ B).map Tower.stature = (placed.eraseP fun q => q.2 = x).map (stature coins) := by
  have hf := congrArg (List.eraseP fun y => decide (y.1 = x)) h
  rw [List.eraseP_map, List.eraseP_map, List.eraseP_append_right, List.eraseP_cons_of_pos] at hf
  · exact hf
  · exact decide_eq_true hN
  · intro a ha
    show ¬ decide (a.item = x) = true
    simpa using (hA a ha).ne

/-! ## One operation -/

section
variable {coins : ι → Nat → Bool} {w : CdsaSkiplist S × Mem} {M : Multiset (S ×ₗ CStr)}
  {placed : List (ι × (S ×ₗ CStr))} {f : ι → Op S} {i : ι} {s : S} {v : CStr}

theorem Standing.insert (R : Refines w M) (P : Standing coins w.1 placed) {old : Nat → Bool}
    (hop : f i = .insert s v old) :
    ∃ w', insertSkiplist w.1 w.2 s v (coins i) = some (.ok, w') ∧
      Refines w' (toLex (s, v) ::ₘ M) ∧ Standing coins w'.1 (place f placed i) := by
  obtain ⟨w', he, R'⟩ := R.insert s v (coins i)
  refine ⟨w', he, R', ?_⟩
  obtain ⟨H, L, T, ⟨base, rest, O⟩, -⟩ := R.towers
  obtain ⟨_, _, T1, hL⟩ := P
  obtain ⟨rfl, rfl⟩ := T.unique T1
  obtain ⟨A, B, rfl, hA, hB⟩ := T.split (toLex (s, v))
  rcases T.inserts O hA hB (coins i) with ⟨mem', he', -⟩ | ⟨N, sl', mem', he', T', -, -, hi, hl⟩
  · rw [he] at he'
    cases he'
  · rw [he] at he'
    cases he'
    have hA' : ∀ a ∈ A, decide (a.item < toLex (s, v)) = true := fun a ha => decide_eq_true (hA a ha)
    have hB' : ∀ b ∈ B, decide (b.item < toLex (s, v)) = false := fun b hb =>
      decide_eq_false (not_lt.mpr (hB b hb))
    refine ⟨H, A ++ N :: B, T', ?_⟩
    have hfront := front_stature (p := fun x => decide (x < toLex (s, v))) hL hA' hB'
    have hback := back_stature (p := fun x => decide (x < toLex (s, v))) hL hA' hB'
    simp only [place, hop, List.map_append, List.map_cons, hfront, hback]
    simp only [Tower.stature, stature, hi, hl]

theorem Standing.remove (R : Refines w M) (P : Standing coins w.1 placed) (hop : f i = .remove s v) :
    ∃ w', Skiplist.step w (.remove s v) = some ((astep M (.remove s v)).1, w') ∧
      Refines w' (astep M (.remove s v)).2 ∧ Standing coins w'.1 (place f placed i) := by
  obtain ⟨w', he, R'⟩ := R.step (.remove s v) trivial
  refine ⟨w', he, R', ?_⟩
  obtain ⟨⟨st, w1⟩, he1, heq⟩ := Option.map_eq_some_iff.mp he
  obtain ⟨-, rfl⟩ := Prod.mk.inj heq
  obtain ⟨H, L, T, ⟨base, rest, O⟩, -⟩ := R.towers
  obtain ⟨_, _, T1, hL⟩ := P
  obtain ⟨rfl, rfl⟩ := T.unique T1
  obtain ⟨A, B, rfl, hA, hB⟩ := T.split (toLex (s, v))
  rcases T.removes O hA hB with ⟨habsent, he'⟩ | ⟨N, B', sl', mem', rfl, hN, he', T', -⟩
  · rw [he1] at he'
    cases he'
    refine ⟨H, A ++ B, T, ?_⟩
    have hno : ∀ q ∈ placed, ¬ (decide (q.2 = toLex (s, v)) = true) := by
      intro q hq hx
      have hmem : stature coins q ∈ (A ++ B).map Tower.stature := hL ▸ List.mem_map_of_mem hq
      obtain ⟨t, ht, hts⟩ := List.mem_map.mp hmem
      exact habsent t ht ((congrArg Prod.fst hts).trans (of_decide_eq_true hx))
    simp only [place, hop, List.eraseP_of_forall_not hno, hL]
  · rw [he1] at he'
    cases he'
    refine ⟨H, A ++ B', T', ?_⟩
    rw [erase_stature hL hA hN]
    simp only [place, hop]

/-- The operation answers as the multiset does, and its node stands where its
name is. -/
theorem Standing.step (R : Refines w M) (P : Standing coins w.1 placed) (hc : CountOk M (f i)) :
    ∃ w', Skiplist.step w ((f i).tossed (coins i)) = some ((astep M (f i)).1, w') ∧
      Refines w' (astep M (f i)).2 ∧ Standing coins w'.1 (place f placed i) := by
  cases hop : f i with
  | insert s v old =>
    obtain ⟨w', he, R', P'⟩ := P.insert R hop
    exact ⟨w', by simp only [Op.tossed, Skiplist.step, he, Option.map_some]; rfl, R', P'⟩
  | remove s v => exact P.remove R hop
  | getRange lo hi =>
    rw [hop] at hc
    obtain ⟨w', he, R'⟩ := R.getRange lo hi hc
    refine ⟨w', he, R', ?_⟩
    obtain ⟨r, -, heq⟩ := Option.map_eq_some_iff.mp he
    obtain ⟨-, rfl⟩ := Prod.mk.inj heq
    simpa only [place, hop] using P
  | size =>
    obtain ⟨w', he, R'⟩ := R.step .size trivial
    obtain ⟨-, rfl⟩ := Prod.mk.inj (Option.some.inj he)
    exact ⟨w, he, R', by simpa only [place, hop] using P⟩

/-- So does a run. -/
theorem standing_run (coins : ι → Nat → Bool) (f : ι → Op S) : ∀ (names : List ι)
    (w : CdsaSkiplist S × Mem) (M : Multiset (S ×ₗ CStr)) (placed : List (ι × (S ×ₗ CStr))),
    Refines w M → Standing coins w.1 placed → SpecMeets astep CountOk M (names.map f) →
    ∃ w', runOps Skiplist.step w (names.map fun i => (f i).tossed (coins i)) =
        some ((specRun astep M (names.map f)).1, w') ∧
      Refines w' (specRun astep M (names.map f)).2 ∧ Standing coins w'.1 (names.foldl (place f) placed)
  | [], w, M, placed, R, P, _ => ⟨w, rfl, R, P⟩
  | i :: names, w, M, placed, R, P, hc => by
    obtain ⟨w1, he, R1, P1⟩ := P.step R hc.1
    obtain ⟨w', hr, R', P'⟩ := standing_run coins f names w1 _ _ R1 P1 hc.2
    exact ⟨w', by rw [List.map_cons, runOps_cons he, hr]; rfl, R', P'⟩

end

/-! ## The names -/

/-- Only the name of the operation itself is new. -/
theorem place_sub (f : ι → Op S) (placed : List (ι × (S ×ₗ CStr))) (i : ι) :
    ∃ l, l.Perm (i :: placed.map Prod.fst) ∧ ((place f placed i).map Prod.fst).Sublist l := by
  have hkept : ∀ {l : List (ι × (S ×ₗ CStr))}, l.Sublist placed →
      (l.map Prod.fst).Sublist (i :: placed.map Prod.fst) := fun h =>
    List.Sublist.cons i (h.map Prod.fst)
  rw [place]
  cases f i with
  | insert s v old =>
    refine ⟨_, ?_, List.Sublist.refl _⟩
    rw [List.map_append, List.map_cons]
    apply List.perm_middle.trans
    apply List.Perm.cons
    rw [← List.map_append]
    exact (List.filter_append_perm _ placed).map Prod.fst
  | remove s v => exact ⟨_, List.Perm.refl _, hkept List.eraseP_sublist⟩
  | getRange lo hi => exact ⟨_, List.Perm.refl _, hkept (List.Sublist.refl _)⟩
  | size => exact ⟨_, List.Perm.refl _, hkept (List.Sublist.refl _)⟩

/-- A name is placed once. -/
theorem placed_nodup (f : ι → Op S) : ∀ (names : List ι) (placed : List (ι × (S ×ₗ CStr))),
    (placed.map Prod.fst ++ names).Nodup → ((names.foldl (place f) placed).map Prod.fst).Nodup
  | [], placed, h => by simpa using h
  | i :: names, placed, h => by
    apply placed_nodup f names
    obtain ⟨l, hperm, hsub⟩ := place_sub f placed i
    have hl : (l ++ names).Nodup := by
      apply (List.perm_middle.trans (hperm.symm.append_right names)).nodup
      exact h
    exact hl.sublist (hsub.append_right names)

theorem Standing.card {coins : ι → Nat → Bool} {w : CdsaSkiplist S × Mem}
    {M : Multiset (S ×ₗ CStr)} {placed : List (ι × (S ×ₗ CStr))} (R : Refines w M)
    (P : Standing coins w.1 placed) : placed.length = M.card := by
  obtain ⟨H, L, T, -, rfl⟩ := R.towers
  obtain ⟨_, _, T1, hL⟩ := P
  obtain ⟨rfl, rfl⟩ := T.unique T1
  have hlen := congrArg List.length hL
  rw [List.length_map, List.length_map] at hlen
  rw [Multiset.coe_card, List.length_map, hlen]

end Cdsa.Skiplist
