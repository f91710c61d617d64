import Cdsa.L2Hashmap.Resize

/-!
# Lookup and `remove_hashmap`

The probe loops stop at an empty slot or `max_psl` steps from home, so they
meet every stored key whose PSL is at most `max_psl` (`findSlot_of_within`),
and what they meet is the key (`findSlot_sound`).

Removal shifts the rest of the cluster back by one slot. `Hole c T curr` is
the loop invariant, about the table `T` with the slot `curr` taken as empty:
laid out everywhere except that the entry after the hole has lost its
predecessor; it is at most two PSLs above the slot before the hole, so it
fits there with its PSL lowered by one.
-/
namespace Cdsa.Hashmap

open Cdsa.Core

variable {V : Type} {c : Nat}

/-! ## The probe loop -/

/-- A round of the loop at an entry. -/
theorem probe_entry {m : CdsaHashmap CStr V} {index : Nat} {e : HashEntry CStr V}
    (hs : slot m.entries index = some e) (key : CStr) (h left : Nat) :
    probe some m key h (left + 1) index =
      if e.hash = h ∧ e.key = key then some (some index)
      else probe some m key h left ((index + 1) % m.capacity) := by
  rw [probe, getElem?_of_slot hs]
  simp only [HashEntry.matches_eq, Option.bind_some, decide_eq_true_eq]

theorem probe_sound {m : CdsaHashmap CStr V} {key : CStr} {h : Nat} :
    ∀ left index i, probe some m key h left index = some (some i) →
      ∃ e, slot m.entries i = some e ∧ e.key = key := by
  intro left
  induction left with
  | zero =>
    intro index i hp
    obtain ⟨o, -, ho⟩ := Option.map_eq_some_iff.mp hp
    cases ho
  | succ left ih =>
    intro index i hp
    cases hs : slot m.entries index with
    | none =>
      rw [probe] at hp
      split at hp
      · cases hp
      · cases hp
      · next e he =>
        rw [slot_of_getElem? he] at hs
        cases hs
    | some e =>
      rw [probe_entry hs] at hp
      split at hp
      · next hm => cases hp; exact ⟨e, hs, hm.2⟩
      · exact ih _ _ hp

/-- On a whole array the loop reads slots only. -/
theorem probe_defined {m : CdsaHashmap CStr V} (hlen : m.entries.length = m.capacity) (key : CStr)
    (h : Nat) : ∀ left index, index < m.capacity → ∃ o, probe some m key h left index = some o := by
  intro left
  induction left with
  | zero =>
    intro index hi
    exact ⟨none, by rw [probe, getElem?_of_lt (hlen ▸ hi), Option.map_some]⟩
  | succ left ih =>
    intro index hi
    cases hs : slot m.entries index with
    | none => exact ⟨none, by rw [probe, getElem?_of_empty (hlen ▸ hi) hs]⟩
    | some e =>
      rw [probe_entry hs]
      split
      · exact ⟨some index, rfl⟩
      · exact ih _ (Nat.mod_lt _ (Nat.zero_lt_of_lt hi))

theorem findSlot_eq (m : CdsaHashmap CStr V) (key : CStr) : findSlot some m key =
    probe some m key (getRawHash key) (m.maxPsl + 1) (getRawHash key % m.capacity) := rfl

theorem findSlot_sound {m : CdsaHashmap CStr V} {key : CStr} {i : Nat}
    (h : findSlot some m key = some (some i)) : ∃ e, slot m.entries i = some e ∧ e.key = key :=
  probe_sound _ _ _ h

/-- What the probe loops come to. -/
theorem findSlot_cases {m : CdsaHashmap CStr V} (hlen : m.entries.length = m.capacity)
    (hpos : 0 < m.capacity) (key : CStr) :
    findSlot some m key = some none ∨ ∃ s, findSlot some m key = some (some s) := by
  obtain ⟨o, ho⟩ := probe_defined hlen key (getRawHash key) (m.maxPsl + 1) _ (Nat.mod_lt _ hpos)
  rw [findSlot_eq, ho]
  cases o with
  | none => exact Or.inl rfl
  | some s => exact Or.inr ⟨s, rfl⟩

theorem findSlot_none {m : CdsaHashmap CStr V} (hlen : m.entries.length = m.capacity)
    (hpos : 0 < m.capacity) {key : CStr} (h : key ∉ keys m) : findSlot some m key = some none := by
  rcases findSlot_cases hlen hpos key with hf | ⟨i, hf⟩
  · exact hf
  · obtain ⟨e, he, hk⟩ := findSlot_sound hf
    exact absurd (mem_keys.mpr ⟨i, e, he, hk⟩) h

/-- The walk reaches an entry that many steps from home, nothing on the way
matching its key. -/
theorem probe_reaches {m : CdsaHashmap CStr V} (L : Layout m.capacity m.entries) {s : Nat}
    {x : HashEntry CStr V} (hs : slot m.entries s = some x) :
    ∀ left p, p ≤ x.psl → x.psl < left + p →
      probe some m x.key x.hash left ((x.hash + p) % m.capacity) = some (some s) := by
  intro left
  induction left with
  | zero => intro p hp hlt; omega
  | succ left ih =>
    intro p hp hlt
    obtain ⟨y, hy, hyp⟩ := L.chain (L.home s x hs ▸ hs) (Nat.le_refl _) p hp
    rw [probe_entry hy]
    by_cases hm : y.key = x.key
    · have := L.slot_key hy hs hm
      rw [this, hs] at hy; cases hy
      rw [if_pos ⟨rfl, rfl⟩, this]
    · have hne : p ≠ x.psl := by
        rintro rfl
        rw [← L.home s x hs, hs] at hy; cases hy
        exact hm rfl
      rw [if_neg fun h => hm h.2, ring_succ]
      exact ih (p + 1) (by omega) (by omega)

theorem findSlot_of_within {m : CdsaHashmap CStr V} (L : Layout m.capacity m.entries) (hw : Within m)
    {s : Nat} {x : HashEntry CStr V} (hs : slot m.entries s = some x) :
    findSlot some m x.key = some (some s) := by
  have := probe_reaches L hs (m.maxPsl + 1) 0 (Nat.zero_le _)
    (Nat.lt_succ_of_le (hw x (mem_live.mpr ⟨s, hs⟩)))
  rw [findSlot_eq, ← L.hash_of hs]; exact this

/-- On a table whose entries are all within reach, `get_hashmap` reads the
stored pair. -/
theorem getHashmap_of_within {m : CdsaHashmap CStr V} (L : Layout m.capacity m.entries)
    (hw : Within m) {k : CStr} {v : Option V} (h : (k, v) ∈ pairs m.entries) :
    getHashmap some m k = some v := by
  obtain ⟨x, hx, he⟩ := List.mem_map.mp h
  obtain ⟨s, hs⟩ := mem_live.mp hx
  cases he
  simp only [getHashmap, findSlot_of_within L hw hs, hs, Option.map_some, Option.bind_some]

theorem getHashmap_absent {m : CdsaHashmap CStr V} (hlen : m.entries.length = m.capacity)
    (hpos : 0 < m.capacity) {k : CStr} (h : k ∉ keys m) : getHashmap some m k = some none := by
  simp only [getHashmap, findSlot_none hlen hpos h, Option.map_some]

/-! ## The backward shift -/

/-- `T` is laid out but for the empty slot `curr` in the middle of a cluster. -/
structure Hole (c : Nat) (T : List (Option (HashEntry CStr V))) (curr : Nat) : Prop where
  len : T.length = c
  here : curr < c
  hole : slot T curr = none
  home : ∀ i e, slot T i = some e → i = (e.hash + e.psl) % c
  hash : ∀ e ∈ live T, e.hash = getRawHash e.key
  order : ∀ i e, i < c → i ≠ curr → slot T ((i + 1) % c) = some e → 0 < e.psl →
    ∃ e', slot T i = some e' ∧ e.psl ≤ e'.psl + 1
  next : ∀ i e, i < c → (i + 1) % c = curr → slot T ((curr + 1) % c) = some e → 1 < e.psl →
    ∃ e', slot T i = some e' ∧ e.psl ≤ e'.psl + 2
  keys : ((live T).map (·.key)).Nodup

/-- Taking an entry out opens a hole. -/
theorem Layout.hole {es : List (Option (HashEntry CStr V))} (L : Layout c es) {s : Nat}
    {x : HashEntry CStr V} (hs : slot es s = some x) : Hole c (es.set s none) s := by
  have hlen := slot_lt hs
  have hget : ∀ i e, slot (es.set s none) i = some e → s ≠ i ∧ slot es i = some e := by
    intro i e h
    rw [slot_set hlen] at h
    split at h
    · cases h
    · next hne => exact ⟨hne, h⟩
  have hperm := set_none_perm hs
  refine ⟨by simp [L.len], L.lt hs, slot_set_self hlen _, ?_, ?_, ?_, ?_, ?_⟩
  · intro i e h; exact L.home i e (hget i e h).2
  · intro e he; exact L.hash e (hperm.subset (List.mem_cons_of_mem _ he))
  · intro i e hic hne h hp
    obtain ⟨e', h', hle⟩ := L.order i e hic (hget _ e h).2 hp
    exact ⟨e', by rw [slot_set_ne (Ne.symm hne)]; exact h', hle⟩
  · intro i e hic hi h hp
    obtain ⟨hne, h0⟩ := hget _ e h
    obtain ⟨x', hx', hle⟩ := L.order s e (L.lt hs) h0 (by omega)
    rw [hs] at hx'; cases hx'
    obtain ⟨e', h', hle'⟩ := L.order i x hic (by rw [hi]; exact hs) (by omega)
    have his : s ≠ i := by rintro rfl; exact hne hi.symm
    exact ⟨e', by rw [slot_set_ne his]; exact h', by omega⟩
  · have := (hperm.map (·.key)).nodup_iff.mpr L.keys
    exact (List.nodup_cons.mp this).2

/-- The hole has reached the end of the cluster. -/
theorem Hole.layout {T : List (Option (HashEntry CStr V))} {curr : Nat} (H : Hole c T curr)
    (hend : ∀ e, slot T ((curr + 1) % c) = some e → e.psl = 0) : Layout c T where
  len := H.len
  home := H.home
  hash := H.hash
  order i e hic h hp := by
    by_cases hne : i = curr
    · subst hne; have := hend e h; omega
    · exact H.order i e hic hne h hp
  keys := H.keys

/-- `T'` is `T` with the entry `e` of slot `next` moved into the hole `curr`. -/
structure Moved (T T' : List (Option (HashEntry CStr V))) (curr next : Nat) (e : HashEntry CStr V) :
    Prop where
  len : T'.length = T.length
  ne : curr ≠ next
  hole : slot T' next = none
  filled : slot T' curr = some { e with psl := e.psl - 1 }
  rest : ∀ i, i ≠ curr → i ≠ next → slot T' i = slot T i
  perm : (e :: live T').Perm ({ e with psl := e.psl - 1 } :: live T)

theorem moved_into {T : List (Option (HashEntry CStr V))} {curr next : Nat} {e : HashEntry CStr V}
    (hl1 : curr < T.length) (hole : slot T curr = none) (hs : slot T next = some e) :
    Moved T ((T.set curr (some { e with psl := e.psl - 1 })).set next none) curr next e := by
  have hne : curr ≠ next := by rintro rfl; rw [hole] at hs; cases hs
  have hs' : slot (T.set curr (some { e with psl := e.psl - 1 })) next = some e := by
    rw [slot_set_ne hne]; exact hs
  exact {
    len := by simp
    ne := hne
    hole := slot_set_self (slot_lt hs') _
    filled := by rw [slot_set_ne hne.symm, slot_set_self hl1]
    rest := fun i h1 h2 => by rw [slot_set_ne h2.symm, slot_set_ne h1.symm]
    perm := (set_none_perm hs').trans (set_empty_perm hl1 hole _) }

/-- Moving the next entry into the hole moves the hole. -/
theorem Hole.shift {T T' : List (Option (HashEntry CStr V))} {curr : Nat} {e : HashEntry CStr V}
    (H : Hole c T curr) (hs : slot T ((curr + 1) % c) = some e) (hp : 0 < e.psl)
    (M : Moved T T' curr ((curr + 1) % c) e) : Hole c T' ((curr + 1) % c) := by
  have hc := H.here
  have hnc : (curr + 1) % c < c := Nat.mod_lt _ (by omega)
  refine ⟨M.len.trans H.len, hnc, M.hole, ?_, ?_, ?_, ?_, ?_⟩
  · intro i x h
    by_cases hi : i = curr
    · rw [hi, M.filled] at h; cases h
      have hh := H.home _ e hs
      rw [hi]
      refine ring_pred hc (Nat.mod_lt _ (by omega)) ?_
      rw [ring_succ, hh]; congr 2
      show e.psl = e.psl - 1 + 1
      omega
    · by_cases hi' : i = (curr + 1) % c
      · rw [hi', M.hole] at h; cases h
      · rw [M.rest i hi hi'] at h; exact H.home i x h
  · intro x hx
    have := M.perm.subset (List.mem_cons_of_mem _ hx)
    rcases List.mem_cons.mp this with rfl | hx'
    · exact H.hash e (mem_live.mpr ⟨_, hs⟩)
    · exact H.hash x hx'
  · intro i x hic hi h hxp
    -- the successor of `i` is the filled hole, or an untouched slot
    by_cases hj : (i + 1) % c = curr
    · rw [hj, M.filled] at h; cases h
      have hicurr : i ≠ curr := by
        rintro rfl; exact M.ne hj.symm
      obtain ⟨e', h', hle⟩ := H.next i e hic hj hs (Nat.lt_of_sub_pos hxp)
      exact ⟨e', by rw [M.rest i hicurr hi]; exact h', by simp only; omega⟩
    · have hj' : (i + 1) % c ≠ (curr + 1) % c := by
        intro heq; rw [heq, M.hole] at h; cases h
      have hicurr : i ≠ curr := by rintro rfl; exact hj' rfl
      rw [M.rest _ hj hj'] at h
      obtain ⟨e', h', hle⟩ := H.order i x hic hicurr h hxp
      exact ⟨e', by rw [M.rest i hicurr hi]; exact h', hle⟩
  · intro i x hic hi h hxp
    have : i = curr := ring_pred hic hc hi
    subst this
    refine ⟨_, M.filled, ?_⟩
    by_cases hj : ((i + 1) % c + 1) % c = i
    · rw [hj, M.filled] at h; cases h; simp
    · have hj' : ((i + 1) % c + 1) % c ≠ (i + 1) % c := by
        intro heq; rw [heq, M.hole] at h; cases h
      rw [M.rest _ hj hj'] at h
      obtain ⟨e', h', hle⟩ := H.order _ x hnc M.ne.symm h (by omega)
      rw [hs] at h'; cases h'
      simp only; omega
  · have hk := M.perm.map (·.key)
    simp only [List.map_cons] at hk
    exact (hk.cons_inv).nodup_iff.mpr H.keys

/-- With a gap around, an occupied slot is not its own successor. -/
theorem GapAhead.succ_ne {es : List (Option (HashEntry CStr V))} {curr n : Nat}
    (h : GapAhead c es ((curr + 1) % c) n) (hc : curr < c) (hx : ∃ x, slot es curr = some x) :
    curr ≠ (curr + 1) % c := by
  obtain ⟨d, -, hd⟩ := h
  obtain ⟨x, hx⟩ := hx
  intro heq
  -- on one slot the gap would be the occupied slot itself
  have : ((curr + 1) % c + d) % c ≠ curr := by
    intro h; rw [h, hx] at hd; cases hd
  exact ring_succ_ne hc (Nat.mod_lt _ (by omega)) this heq.symm

/-- The shift loop ends with the hole at the end of the cluster, the other
entries where they were or one slot (and one PSL) earlier. -/
theorem shiftLoop_spec (maxPsl : Nat) : ∀ n (es : List (Option (HashEntry CStr V))) curr affected,
    (∃ x, slot es curr = some x) → Hole c (es.set curr none) curr →
    GapAhead c es ((curr + 1) % c) n →
    ∃ es' curr' affected', shiftLoop c maxPsl n es curr affected = some (es', curr', affected') ∧
      Layout c (es'.set curr' none) ∧
      (pairs (es'.set curr' none)).Perm (pairs (es.set curr none)) ∧
      ∀ e ∈ live (es'.set curr' none), ∃ e0 ∈ live (es.set curr none), e.psl ≤ e0.psl := by
  intro n
  induction n with
  | zero => rintro es curr affected - - ⟨d, hd, -⟩; omega
  | succ n ih =>
    intro es curr affected hx H hgap
    have hc := H.here
    have hnc : (curr + 1) % c < c := Nat.mod_lt _ (by omega)
    have hlen : es.length = c := by simpa using H.len
    have hne := hgap.succ_ne hc hx
    have hnext : slot (es.set curr none) ((curr + 1) % c) = slot es ((curr + 1) % c) :=
      slot_set_ne hne _
    have hstop : (∀ e, slot es ((curr + 1) % c) = some e → e.psl = 0) →
        Layout c (es.set curr none) := fun h => H.layout fun e he => h e (hnext ▸ he)
    cases hs : slot es ((curr + 1) % c) with
    | none =>
      exact ⟨es, curr, affected, by simp only [shiftLoop, getElem?_of_empty (hlen.symm ▸ hnc) hs],
        hstop (fun e he => by rw [hs] at he; cases he), List.Perm.refl _,
        fun e he => ⟨e, he, Nat.le_refl _⟩⟩
    | some e =>
      by_cases hp : 0 < e.psl
      · rw [hs] at hnext
        have M := moved_into (H.len ▸ hc) H.hole hnext
        rw [List.set_set] at M
        obtain ⟨x, hx⟩ := hx
        obtain ⟨es', curr', affected', h1, h2, h3, h4⟩ :=
          ih (es.set curr (some { e with psl := e.psl - 1 })) ((curr + 1) % c)
            (affected || e.psl == maxPsl) ⟨e, by rw [slot_set_ne hne]; exact hs⟩
            (H.shift hnext hp M) ((hgap.next hnc hs).set hx _)
        have hpairs := (M.perm.map HashEntry.pair).cons_inv
        refine ⟨es', curr', affected', by
          simp only [shiftLoop, getElem?_of_slot hs, hp, if_true]
          exact h1, h2,
          h3.trans hpairs, fun y hy => ?_⟩
        obtain ⟨y0, hy0, hle⟩ := h4 y hy
        rcases List.mem_cons.mp (M.perm.subset (List.mem_cons_of_mem _ hy0)) with rfl | h
        · exact ⟨e, mem_live.mpr ⟨_, hnext⟩, by simp only at hle; omega⟩
        · exact ⟨y0, h, hle⟩
      · exact ⟨es, curr, affected, by simp only [shiftLoop, getElem?_of_slot hs, hp, if_false],
          hstop (fun x hx => by rw [hs] at hx; cases hx; omega), List.Perm.refl _,
          fun e he => ⟨e, he, Nat.le_refl _⟩⟩

/-! ## `remove_hashmap` -/

theorem le_raiseMax (es : List (Option (HashEntry CStr V))) (a i : Nat) : a ≤ raiseMax es a i := by
  unfold raiseMax; split
  · split <;> omega
  · exact Nat.le_refl _

/-- The running maximum only grows, and passes every entry on the way. -/
theorem foldl_raiseMax {es : List (Option (HashEntry CStr V))} {i : Nat} {e : HashEntry CStr V}
    (hs : slot es i = some e) : ∀ (l : List Nat) a, a ≤ l.foldl (raiseMax es) a ∧
      (i ∈ l → e.psl ≤ l.foldl (raiseMax es) a) := by
  intro l
  induction l with
  | nil => exact fun a => ⟨Nat.le_refl _, fun h => by cases h⟩
  | cons j l ih =>
    intro a
    rw [List.foldl_cons]
    refine ⟨Nat.le_trans (le_raiseMax es a j) (ih _).1, fun h => ?_⟩
    rcases List.mem_cons.mp h with rfl | h
    · refine Nat.le_trans ?_ (ih _).1
      unfold raiseMax; rw [hs]
      simp only; split <;> omega
    · exact (ih _).2 h

/-- On a whole array the loop reads slots only. -/
theorem recalculateMaxPsl_eq {m : CdsaHashmap CStr V} (hlen : m.entries.length = m.capacity) :
    recalculateMaxPsl m =
      some { m with maxPsl := (List.range m.capacity).foldl (raiseMax m.entries) 0 } :=
  if_pos hlen.ge

/-- `recalculate_max_psl` bounds every PSL. -/
theorem foldl_raiseMax_within {m : CdsaHashmap CStr V} (hlen : m.entries.length = m.capacity) :
    Within { m with maxPsl := (List.range m.capacity).foldl (raiseMax m.entries) 0 } := by
  intro e he
  obtain ⟨i, hi⟩ := mem_live.mp (show e ∈ live m.entries from he)
  exact (foldl_raiseMax hi _ 0).2 (List.mem_range.mpr (hlen ▸ slot_lt hi))

/-- What `remove_hashmap` leaves, once the shift has ended. -/
theorem removeHashmap_of_shift {m : CdsaHashmap CStr V} {key : CStr} {s curr' : Nat}
    {es' : List (Option (HashEntry CStr V))} {affected' : Bool}
    (hf : findSlot some m key = some (some s))
    (hs : shiftLoop m.capacity m.maxPsl m.capacity m.entries s
      ((slot m.entries s).any (·.psl == m.maxPsl)) = some (es', curr', affected'))
    (hlen : es'.length = m.capacity) :
    removeHashmap some m key = some (.ok, { m with
      size := m.size - 1
      version := (m.version + 1) % 2 ^ 64
      entries := es'.set curr' none
      maxPsl := if affected' then (List.range m.capacity).foldl (raiseMax (es'.set curr' none)) 0
        else m.maxPsl }) := by
  simp only [removeHashmap, hf, hs, Option.bind_some]
  cases affected' with
  | false => rfl
  | true =>
    rw [if_pos rfl, recalculateMaxPsl_eq (by simpa using hlen)]
    rfl

structure Removed (m : CdsaHashmap CStr V) (k : CStr) (m' : CdsaHashmap CStr V) : Prop where
  stored : k ∈ keys m
  inv : Inv m'
  capacity : m'.capacity = m.capacity
  version : m'.version = (m.version + 1) % 2 ^ 64
  perm : (pairs m'.entries).Perm (del k (pairs m.entries))
  within : Within m → Within m'

/-- `remove_hashmap` ends; it takes out the key it finds, or answers
CDSA_ERR_NOT_FOUND and touches nothing. -/
theorem removeHashmap_cases {m : CdsaHashmap CStr V} (I : Inv m) (k : CStr) :
    (findSlot some m k = some none ∧ removeHashmap some m k = some (.errNotFound, m)) ∨
    (∃ s, findSlot some m k = some (some s)) ∧ ∃ m', removeHashmap some m k = some (.ok, m') ∧ Removed m k m' := by
  rcases findSlot_cases I.layout.len I.pos k with hf | ⟨s, hf⟩
  · exact Or.inl ⟨hf, by simp only [removeHashmap, hf, Option.bind_some]⟩
  · obtain ⟨x, hs, hk⟩ := findSlot_sound hf
    have L := I.layout
    obtain ⟨i, hi, he⟩ := I.roomy.gap
    obtain ⟨es', curr', affected', h1, h2, h3, h4⟩ := shiftLoop_spec m.maxPsl m.capacity m.entries s
      ((slot m.entries s).any (·.psl == m.maxPsl)) ⟨x, hs⟩ (L.hole hs)
      (gap_of_empty _ hi he)
    have hperm : (pairs (es'.set curr' none)).Perm (del k (pairs m.entries)) := by
      have h5 := (set_none_perm hs).map HashEntry.pair
      have hm : x.pair ∈ pairs m.entries := List.mem_map_of_mem (mem_live.mpr ⟨s, hs⟩)
      have h6 := h5.trans (perm_cons_del (k := x.key) (w := x.value) (keys_eq m ▸ L.keys) hm)
      exact h3.trans (hk ▸ h6.cons_inv)
    have hsize : m.size - 1 = (live (es'.set curr' none)).length := by
      have h5 := (set_none_perm hs).length_eq
      have h6 : (live (es'.set curr' none)).length = (live (m.entries.set s none)).length := by
        simpa [pairs] using h3.length_eq
      rw [List.length_cons] at h5
      rw [I.size, h6]; omega
    refine Or.inr ⟨⟨s, hf⟩, _, removeHashmap_of_shift hf h1 (by simpa using h2.len), ?_⟩
    have hload := I.load
    exact {
      stored := mem_keys.mpr ⟨s, x, hs, hk⟩
      inv := ⟨I.pos, h2, hsize, show m.size - 1 ≤ m.capacity * 3 / 4 by omega⟩
      capacity := rfl
      version := rfl
      perm := hperm
      within := fun hw => by
        cases affected' with
        | true => exact foldl_raiseMax_within (m := { m with entries := es'.set curr' none }) h2.len
        | false =>
          intro e he
          obtain ⟨e0, he0, hle⟩ := h4 e he
          have := (set_none_perm hs).subset (List.mem_cons_of_mem _ he0)
          exact Nat.le_trans hle (hw e0 this) }

theorem Removed.fits {m m' : CdsaHashmap CStr V} {k : CStr} (R : Removed m k m') (hf : Fits m) :
    Fits m' := by
  unfold Fits
  rw [R.capacity]
  exact hf

end Cdsa.Hashmap
