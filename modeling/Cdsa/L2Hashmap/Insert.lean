import Cdsa.L2Hashmap.Layout

/-!
# `internal_insert` on a laid-out table

The loop carries one entry in hand. `Hand` is what it knows about that
entry: where it would go next, and that the slot just passed holds an entry
at least as far from home. Placing the entry in hand, at an empty slot or by
a swap with a richer entry, keeps the layout, so the layout is an invariant
of the loop itself; nothing is lost because a swap exchanges the entry in
hand with one of the table.

* `insertLoop_fresh`: a key that is not stored is added; `placements` reads
  off the table before the call where the loop will write, and at which PSL.
* `internalInsert_stored`: a stored key is met before any swap, and only its
  value changes.
-/
namespace Cdsa.Hashmap

open Cdsa.Core

variable {V : Type} {c : Nat} {es : List (Option (HashEntry CStr V))}

/-- Where the walk of a new entry writes, in order, with the PSL of what it
puts there: the slots it swaps at, then the empty slot it ends at. -/
def placements (c : Nat) (es : List (Option (HashEntry CStr V))) : Nat → Nat → Nat → List (Nat × Nat)
  | 0, _, _ => []
  | fuel + 1, index, psl =>
    match slot es index with
    | none => [(index, psl)]
    | some e =>
      if e.psl < psl then (index, psl) :: placements c es fuel ((index + 1) % c) (e.psl + 1)
      else placements c es fuel ((index + 1) % c) (psl + 1)

/-- The loop holds `e` and is about to look at `index`. -/
structure Hand (c : Nat) (es : List (Option (HashEntry CStr V))) (index : Nat) (e : HashEntry CStr V) :
    Prop where
  here : index = (e.hash + e.psl) % c
  hash : e.hash = getRawHash e.key
  fresh : e.key ∉ (live es).map (·.key)
  prev : ∀ p, e.psl = p + 1 →
    ∃ e', slot es ((e.hash + p) % c) = some e' ∧ e.psl ≤ e'.psl + 1

/-- An empty slot `d` steps ahead. -/
def GapAhead (c : Nat) (es : List (Option (HashEntry CStr V))) (index n : Nat) : Prop :=
  ∃ d, d < n ∧ slot es ((index + d) % c) = none

theorem gap_of_empty {i : Nat} (index : Nat) (hi : i < c) (he : slot es i = none) :
    GapAhead c es index c := by
  obtain ⟨d, hd, hdi⟩ := ring_reach index hi
  exact ⟨d, hd, hdi ▸ he⟩

theorem GapAhead.next {index n : Nat} {e : HashEntry CStr V} (h : GapAhead c es index (n + 1))
    (hi : index < c) (hs : slot es index = some e) : GapAhead c es ((index + 1) % c) n := by
  obtain ⟨d, hd, he⟩ := h
  cases d with
  | zero => rw [Nat.add_zero, Nat.mod_eq_of_lt hi, hs] at he; cases he
  | succ d =>
    refine ⟨d, by omega, ?_⟩
    rw [Nat.mod_add_mod, show index + 1 + d = index + (d + 1) by omega, he]

/-- Writing to an occupied slot closes no gap. -/
theorem GapAhead.set {index n i : Nat} {e : HashEntry CStr V} (h : GapAhead c es index n)
    (hs : slot es i = some e) (o : Option (HashEntry CStr V)) : GapAhead c (es.set i o) index n := by
  obtain ⟨d, hd, he⟩ := h
  refine ⟨d, hd, ?_⟩
  rw [slot_set_ne, he]
  rintro rfl; rw [hs] at he; cases he

/-! ## One placement keeps the layout -/

/-- Writing the entry in hand keeps the ordering clause: behind it stands the
slot just passed, and what it displaces (if anything) was closer to home. -/
theorem order_place (L : Layout c es) {index : Nat} {e : HashEntry CStr V} (hi : index < c)
    (H : Hand c es index e) (hne : 0 < e.psl → ∃ j, j < c ∧ j ≠ index)
    (hold : ∀ v, slot es index = some v → v.psl < e.psl) {i : Nat} {x : HashEntry CStr V} (hic : i < c)
    (h : slot (es.set index (some e)) ((i + 1) % c) = some x) (hp : 0 < x.psl) :
    ∃ e', slot (es.set index (some e)) i = some e' ∧ x.psl ≤ e'.psl + 1 := by
  have hlen : index < es.length := L.len ▸ hi
  rw [slot_set hlen] at h
  by_cases hii : index = i
  · subst hii
    rw [slot_set_self hlen]
    split at h
    · next he =>
      cases h
      obtain ⟨j, hj, hji⟩ := hne hp
      exact absurd he.symm (ring_succ_ne hi hj hji)
    · obtain ⟨v, hv, hle⟩ := L.order index x hic h hp
      have := hold v hv
      exact ⟨e, rfl, by omega⟩
  · rw [slot_set_ne hii]
    split at h
    · next he =>
      cases h
      obtain ⟨p, hpp⟩ : ∃ p, e.psl = p + 1 := ⟨e.psl - 1, by omega⟩
      obtain ⟨e', h', hle⟩ := H.prev p hpp
      have hsame : (e.hash + p) % c = i :=
        ring_pred (Nat.mod_lt _ (by omega)) hic (by rw [ring_succ, ← hpp, ← H.here, he])
      exact ⟨e', hsame ▸ h', hle⟩
    · exact L.order i x hic h hp

/-- Writing the entry in hand keeps the layout. -/
theorem layout_place (L : Layout c es) {index : Nat} {e : HashEntry CStr V} (hi : index < c)
    (H : Hand c es index e) (hne : 0 < e.psl → ∃ j, j < c ∧ j ≠ index)
    (hold : ∀ v, slot es index = some v → v.psl < e.psl) :
    Layout c (es.set index (some e)) := by
  have hlen : index < es.length := L.len ▸ hi
  have hperm := set_perm (some e) es index hlen
  have hkeys := (hperm.map (·.key)).nodup_iff.mpr
    (by simpa using ⟨by simpa using H.fresh, L.keys⟩)
  refine ⟨by simp [L.len], ?_, ?_, fun i x hic => order_place L hi H hne hold hic, ?_⟩
  · intro i x h
    rw [slot_set hlen] at h
    split at h
    · next he => cases h; subst he; exact H.here
    · exact L.home i x h
  · intro x hx
    have := hperm.subset (List.mem_append_right _ hx)
    simp only [Option.toList_some, List.singleton_append, List.mem_cons] at this
    rcases this with rfl | hx'
    · exact H.hash
    · exact L.hash x hx'
  · rw [List.map_append] at hkeys
    exact (List.nodup_append.mp hkeys).2.1

/-! ## A key that is not stored -/

/-- What inserting the entry `e` in hand did, writing at `L`. -/
structure Inserted (m : CdsaHashmap CStr V) (e : HashEntry CStr V) (L : List (Nat × Nat))
    (m' : CdsaHashmap CStr V) : Prop where
  layout : Layout m'.capacity m'.entries
  capacity : m'.capacity = m.capacity
  version : m'.version = m.version
  size : m'.size = m.size + 1
  perm : (pairs m'.entries).Perm (e.pair :: pairs m.entries)
  maxPsl : ∃ s p, L.getLast? = some (s, p) ∧ m'.maxPsl = max m.maxPsl p
  hand : ∃ w ∈ L, slot m'.entries w.1 = some { e with psl := w.2 }
  moved : ∀ i x, slot m.entries i = some x → slot m'.entries i = some x ∨
    ∃ w ∈ L, slot m'.entries w.1 = some { x with psl := w.2 } ∧ i ∈ L.map Prod.fst

/-- The walk looks no further than the next gap. -/
theorem placements_congr (es' : List (Option (HashEntry CStr V))) :
    ∀ n index psl d, d < n → slot es ((index + d) % c) = none → index < c →
      (∀ t, t ≤ d → slot es' ((index + t) % c) = slot es ((index + t) % c)) →
      placements c es' n index psl = placements c es n index psl := by
  intro n
  induction n with
  | zero => intro _ _ d hd; omega
  | succ n ih =>
    intro index psl d hd hgap hi hsame
    have h0 := hsame 0 (Nat.zero_le _)
    rw [Nat.add_zero, Nat.mod_eq_of_lt hi] at h0
    cases d with
    | zero =>
      rw [Nat.add_zero, Nat.mod_eq_of_lt hi] at hgap
      simp only [placements, h0, hgap]
    | succ d =>
      have hpos : ∀ t, ((index + 1) % c + t) % c = (index + (t + 1)) % c := fun t => by
        rw [Nat.mod_add_mod]; congr 1; omega
      have hrec := fun p => ih ((index + 1) % c) p d (by omega) (by rw [hpos]; exact hgap)
        (Nat.mod_lt _ (by omega)) (fun t ht => by rw [hpos]; exact hsame (t + 1) (by omega))
      simp only [placements, h0, hrec]

/-- Where the walk goes next does not see the write it leaves behind. -/
theorem placements_set {index n : Nat} {v : HashEntry CStr V} (hi : index < c)
    (hn : n + 1 ≤ c) (hgap : GapAhead c es index (n + 1)) (hs : slot es index = some v)
    (o : Option (HashEntry CStr V)) (psl : Nat) :
    placements c (es.set index o) n ((index + 1) % c) psl =
      placements c es n ((index + 1) % c) psl := by
  obtain ⟨d, hd, he⟩ := hgap.next hi hs
  refine placements_congr _ n _ _ d hd he (Nat.mod_lt _ (by omega)) (fun t ht => ?_)
  refine slot_set_ne (fun heq => ?_) _
  have h0 : (index + 0) % c = (index + (t + 1)) % c := by
    rw [Nat.add_zero, Nat.mod_eq_of_lt hi]
    exact heq.trans (by rw [Nat.mod_add_mod]; congr 1; omega)
  have := ring_inj (by omega) (by omega) h0
  omega

/-- Swapping the entry in hand with a richer one leaves the richer one in
hand, for the next slot. -/
theorem Hand.swap (L : Layout c es) {index : Nat} {e v : HashEntry CStr V}
    (H : Hand c es index e) (hs : slot es index = some v) (hlt : v.psl < e.psl) :
    Hand c (es.set index (some e)) ((index + 1) % c) { v with psl := v.psl + 1 } := by
  have hv := L.home index v hs
  have hperm := (set_full_perm hs e).map (·.key)
  have hnd := hperm.nodup_iff.mpr (by simpa using ⟨by simpa using H.fresh, L.keys⟩)
  have hh : v.hash = getRawHash v.key := L.hash_of hs
  refine ⟨by rw [hv]; exact ring_succ _ _ _, hh, (List.nodup_cons.mp hnd).1, ?_⟩
  intro p hp
  obtain rfl : v.psl = p := by simpa using hp
  exact ⟨e, by rw [← hv, slot_set_self (slot_lt hs)], by simpa using Nat.le_of_lt hlt⟩

/-- Passing an entry at least as far from home. -/
theorem Hand.advance {index : Nat} {e v : HashEntry CStr V} (H : Hand c es index e)
    (hs : slot es index = some v) (hle : e.psl ≤ v.psl) :
    Hand c es ((index + 1) % c) { e with psl := e.psl + 1 } := by
  refine ⟨by rw [H.here]; exact ring_succ _ _ _, H.hash, H.fresh, ?_⟩
  intro p hp
  obtain rfl : e.psl = p := by simpa using hp
  exact ⟨v, by rw [← H.here]; exact hs, by simpa using hle⟩

theorem Hand.not_matches {index i : Nat} {e v : HashEntry CStr V} (H : Hand c es index e)
    (hs : slot es i = some v) : v.matches some e.key e.hash = some false := by
  apply HashEntry.matches_of_ne
  rintro hk
  exact H.fresh (hk ▸ List.mem_map_of_mem (mem_live.mpr ⟨i, hs⟩))

theorem GapAhead.elsewhere {index n : Nat} {v : HashEntry CStr V} (h : GapAhead c es index n)
    (hc : 0 < c) (hs : slot es index = some v) : ∃ i, i < c ∧ i ≠ index := by
  obtain ⟨d, -, he⟩ := h
  refine ⟨(index + d) % c, Nat.mod_lt _ hc, ?_⟩
  intro heq; rw [heq, hs] at he; cases he

/-- An entry that has passed a slot is not alone on the ring. -/
theorem Hand.elsewhere {index : Nat} {e : HashEntry CStr V} (H : Hand c es index e) (hi : index < c)
    (hs : slot es index = none) (hp : 0 < e.psl) : ∃ j, j < c ∧ j ≠ index := by
  obtain ⟨e', h', -⟩ := H.prev (e.psl - 1) (by omega)
  refine ⟨(e.hash + (e.psl - 1)) % c, Nat.mod_lt _ (by omega), ?_⟩
  intro heq; rw [heq, hs] at h'; cases h'

section
variable {m m' : CdsaHashmap CStr V} {index n : Nat} {e v : HashEntry CStr V} {L : List (Nat × Nat)}

/-- The entry in hand at an empty slot. -/
theorem Inserted.place (hL : Layout m.capacity m.entries) (H : Hand m.capacity m.entries index e)
    (hi : index < m.capacity) (hs : slot m.entries index = none) :
    Inserted m e [(index, e.psl)] { m with
      entries := m.entries.set index (some e)
      size := m.size + 1
      maxPsl := if m.maxPsl < e.psl then e.psl else m.maxPsl } where
  layout := layout_place hL hi H (H.elsewhere hi hs) (fun v hv => by rw [hs] at hv; cases hv)
  capacity := rfl
  version := rfl
  size := rfl
  perm := (set_empty_perm (hL.len ▸ hi) hs e).map HashEntry.pair
  maxPsl := ⟨index, e.psl, rfl, by simp only [Nat.max_def]; split <;> split <;> omega⟩
  hand := ⟨(index, e.psl), by simp, slot_set_self (hL.len ▸ hi) _⟩
  moved i x hx := Or.inl (by
    rw [slot_set_ne _ _]
    · exact hx
    · rintro rfl; rw [hs] at hx; cases hx)

/-- The entry in hand swapped in, the displaced one carried on. -/
theorem Inserted.swap (hs : slot m.entries index = some v)
    (I : Inserted { m with entries := m.entries.set index (some e) }
      { v with psl := v.psl + 1 } L m') : Inserted m e ((index, e.psl) :: L) m' where
  layout := I.layout
  capacity := I.capacity
  version := I.version
  size := I.size
  perm := I.perm.trans ((set_full_perm hs e).map HashEntry.pair)
  maxPsl := by
    obtain ⟨s, p, hlast, hmax⟩ := I.maxPsl
    exact ⟨s, p, by rw [List.getLast?_cons, hlast]; rfl, hmax⟩
  hand := by
    rcases I.moved index e (slot_set_self (slot_lt hs) _) with h | ⟨w, hw, hws, -⟩
    · exact ⟨(index, e.psl), by simp, h⟩
    · exact ⟨w, List.mem_cons_of_mem _ hw, hws⟩
  moved i x hx := by
    by_cases hii : index = i
    · subst hii
      rw [hs] at hx; cases hx
      obtain ⟨w, hw, hws⟩ := I.hand
      exact Or.inr ⟨w, List.mem_cons_of_mem _ hw, hws, by simp⟩
    · rcases I.moved i x (by rw [slot_set_ne hii]; exact hx) with h | ⟨w, hw, hws, hiw⟩
      · exact Or.inl h
      · exact Or.inr ⟨w, List.mem_cons_of_mem _ hw, hws, by simp [hiw]⟩

/-- The entry in hand carried past an occupied slot. -/
theorem Inserted.pass (I : Inserted m { e with psl := e.psl + 1 } L m') : Inserted m e L m' :=
  ⟨I.layout, I.capacity, I.version, I.size, I.perm, I.maxPsl, I.hand, I.moved⟩

end

/-- The loop adds the entry in hand, losing nothing. -/
theorem insertLoop_fresh : ∀ n (m : CdsaHashmap CStr V) index e,
    Layout m.capacity m.entries → Hand m.capacity m.entries index e → index < m.capacity →
    n ≤ m.capacity → GapAhead m.capacity m.entries index n →
    ∃ m', insertLoop some n m index e = some (.ok, m') ∧
      Inserted m e (placements m.capacity m.entries n index e.psl) m' := by
  intro n
  induction n with
  | zero => rintro m index e - - - - ⟨d, hd, -⟩; omega
  | succ n ih =>
    intro m index e L H hi hn hgap
    cases hs : slot m.entries index with
    | none =>
      have hget := getElem?_of_empty (L.len.symm ▸ hi) hs
      refine ⟨_, by rw [insertLoop, hget], ?_⟩
      rw [placements, hs]
      exact Inserted.place L H hi hs
    | some v =>
      have hnext : (index + 1) % m.capacity < m.capacity := Nat.mod_lt _ (by omega)
      have hget := getElem?_of_slot hs
      have hnm := H.not_matches hs
      by_cases hlt : v.psl < e.psl
      · have L1 := layout_place L hi H (fun _ => hgap.elsewhere (by omega) hs)
          (fun w hw => by rw [hs] at hw; cases hw; exact hlt)
        obtain ⟨m', hm', I⟩ := ih { m with entries := m.entries.set index (some e) } _ _ L1
          (H.swap L hs hlt) hnext (Nat.le_of_succ_le hn) ((hgap.next hi hs).set hs _)
        simp only [placements_set hi hn hgap hs] at I
        refine ⟨m', by
          simp only [insertLoop, hget, hnm, Option.bind_some, Bool.false_eq_true, if_false, hlt, if_true]
          exact hm', ?_⟩
        simp only [placements, hs, hlt, if_true]
        exact I.swap hs
      · obtain ⟨m', hm', I⟩ := ih m _ _ L (H.advance hs (by omega)) hnext (Nat.le_of_succ_le hn)
          (hgap.next hi hs)
        refine ⟨m', by
          simp only [insertLoop, hget, hnm, Option.bind_some, Bool.false_eq_true, if_false, hlt]
          exact hm', ?_⟩
        simp only [placements, hs, hlt, if_false]
        exact I.pass

theorem internalInsert_fresh {m : CdsaHashmap CStr V} (L : Layout m.capacity m.entries)
    {i : Nat} (hi : i < m.capacity) (he : slot m.entries i = none) {key : CStr}
    (hf : key ∉ (live m.entries).map (·.key)) (value : Option V) :
    ∃ m', internalInsert some m key value (getRawHash key) = some (.ok, m') ∧
      Inserted m ⟨key, value, getRawHash key, 0⟩
        (placements m.capacity m.entries m.capacity (getRawHash key % m.capacity) 0) m' := by
  have hmod := Nat.mod_lt (getRawHash key) (show 0 < m.capacity by omega)
  exact insertLoop_fresh _ m _ _ L ⟨rfl, rfl, hf, fun p hp => by cases hp⟩ hmod (Nat.le_refl _)
    (gap_of_empty _ hi he)

/-- An entry of the new table is one the walk wrote, or stood there before. -/
theorem Inserted.mem {m m' : CdsaHashmap CStr V} {e y : HashEntry CStr V} {L : List (Nat × Nat)}
    (I : Inserted m e L m') (hy : y ∈ live m'.entries) :
    (∃ w ∈ L, y.psl = w.2) ∨ y ∈ live m.entries := by
  obtain ⟨j, hj⟩ := mem_live.mp hy
  have hkey : y.key ∈ (pairs m'.entries).map Prod.fst :=
    keys_eq_pairs m'.entries ▸ List.mem_map_of_mem hy
  have hin := (I.perm.map Prod.fst).subset hkey
  rw [List.map_cons, ← keys_eq_pairs, List.mem_cons] at hin
  rcases hin with hk | hk
  · obtain ⟨w, hw, hws⟩ := I.hand
    have := I.layout.slot_key hj hws hk
    subst this
    rw [hj] at hws; cases hws
    exact Or.inl ⟨w, hw, rfl⟩
  · obtain ⟨x, hx, hxk⟩ := List.mem_map.mp hk
    obtain ⟨i, hi⟩ := mem_live.mp hx
    rcases I.moved i x hi with h | ⟨w, hw, hws, -⟩
    · have := I.layout.slot_key hj h hxk.symm
      subst this
      rw [hj] at h; cases h
      exact Or.inr hx
    · have := I.layout.slot_key hj hws hxk.symm
      subst this
      rw [hj] at hws; cases hws
      exact Or.inl ⟨w, hw, rfl⟩

/-! ## A key that is stored -/

/-- Storing another value changes no position. -/
theorem layout_setValue (L : Layout c es) {s : Nat} {x : HashEntry CStr V} (hs : slot es s = some x)
    (value : Option V) : Layout c (es.set s (some { x with value })) := by
  have hlen := slot_lt hs
  have hperm := set_full_perm hs { x with value }
  -- every slot holds what it held, up to the value
  have hsame : ∀ i y, slot (es.set s (some { x with value })) i = some y →
      ∃ z, slot es i = some z ∧ z.key = y.key ∧ z.hash = y.hash ∧ z.psl = y.psl := by
    intro i y h
    rw [slot_set hlen] at h
    split at h
    · next he => cases h; subst he; exact ⟨x, hs, rfl, rfl, rfl⟩
    · exact ⟨y, h, rfl, rfl, rfl⟩
  refine ⟨by simp [L.len], ?_, ?_, ?_, ?_⟩
  · intro i y h
    obtain ⟨z, hz, -, hh, hp⟩ := hsame i y h
    rw [← hh, ← hp]; exact L.home i z hz
  · intro y hy
    obtain ⟨i, h⟩ := mem_live.mp hy
    obtain ⟨z, hz, hk, hh, -⟩ := hsame i y h
    rw [← hh, ← hk]; exact L.hash_of hz
  · intro i y hic h hpos
    obtain ⟨z, hz, -, -, hp⟩ := hsame _ y h
    obtain ⟨e', h', hle⟩ := L.order i z hic hz (by omega)
    rw [slot_set hlen]
    split
    · next he =>
      subst he
      rw [hs] at h'; cases h'
      exact ⟨_, rfl, hp ▸ hle⟩
    · exact ⟨e', h', hp ▸ hle⟩
  · have hk := hperm.map (·.key)
    simp only [List.map_cons] at hk
    exact (hk.cons_inv).nodup_iff.mpr L.keys

/-- The walk meets a stored key before it could swap. -/
theorem insertLoop_stored {m : CdsaHashmap CStr V} (L : Layout m.capacity m.entries) {s : Nat}
    {x : HashEntry CStr V} (hs : slot m.entries s = some x) :
    ∀ n index (e : HashEntry CStr V), e.key = x.key → e.hash = x.hash → e.psl ≤ x.psl →
      index = (x.hash + e.psl) % m.capacity → x.psl < n + e.psl →
      insertLoop some n m index e =
        some (.ok, { m with entries := m.entries.set s (some { x with value := e.value }) }) := by
  intro n
  induction n with
  | zero => intro index e _ _ hle _ hlt; omega
  | succ n ih =>
    intro index e hk hh hle hidx hlt
    have hhome := L.home s x hs
    obtain ⟨y, hy, hyp⟩ := L.chain (hhome ▸ hs) (Nat.le_refl _) e.psl hle
    rw [← hidx] at hy
    by_cases hm : y.key = x.key
    · have hsi : index = s := L.slot_key hy hs hm
      subst hsi
      rw [hs] at hy; cases hy
      have hself : x.matches some e.key e.hash = some true := by
        rw [hk, hh]
        exact x.matches_self
      simp only [insertLoop, getElem?_of_slot hs, hself, Option.bind_some, if_true]
    · have hnm : y.matches some e.key e.hash = some false :=
        HashEntry.matches_of_ne _ fun h => hm (h.trans hk)
      have hne : e.psl ≠ x.psl := by
        intro he
        rw [hidx, he, ← hhome, hs] at hy; cases hy
        exact hm rfl
      simp only [insertLoop, getElem?_of_slot hy, hnm, Option.bind_some,
        show ¬ y.psl < e.psl by omega, if_false, Bool.false_eq_true]
      exact ih _ { e with psl := e.psl + 1 } hk hh (show e.psl + 1 ≤ x.psl by omega)
        (by rw [hidx]; exact ring_succ _ _ _) (show x.psl < n + (e.psl + 1) by omega)

theorem internalInsert_stored {m : CdsaHashmap CStr V} (L : Layout m.capacity m.entries) {s : Nat}
    {x : HashEntry CStr V} (hs : slot m.entries s = some x) (hx : x.psl < m.capacity)
    (value : Option V) :
    internalInsert some m x.key value (getRawHash x.key) =
      some (.ok, { m with entries := m.entries.set s (some { x with value }) }) :=
  insertLoop_stored L hs m.capacity _ ⟨x.key, value, getRawHash x.key, 0⟩ rfl
    (L.hash_of hs).symm (Nat.zero_le _) (by rw [L.hash_of hs]; rfl) hx

end Cdsa.Hashmap
