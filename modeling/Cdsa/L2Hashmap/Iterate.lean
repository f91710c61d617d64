import Cdsa.L2Hashmap.Runs

/-!
# Iterating over a map that is being changed

The iterator walks the array by slot index and compares the version it saw
at creation with the map's. `resize_hashmap` and `remove_hashmap` bump the
version; an insertion without a resize does not, although it may move
entries. A move across the cursor makes the walk yield an entry twice
(`yields_twice`) or miss it.

A `Session` is a map, one iterator on it, the keys yielded so far and the
keys that have been stored ever since the iterator was created. `EvOk` is
the condition under which iteration is sound (`session_sound`): an insertion
that leaves the version alone writes on one side of the cursor only, the version
counter does not come round to the snapshot, and a table that is granted has the
slots that were meant.
-/
namespace Cdsa.Hashmap

open Cdsa.Core

variable {V : Type}

/-- The map is kept apart; see `Session`.
mirrors src/hashmap.c:277-281 -/
structure HashmapIterator where
  currentIndex : Nat
  snapshotVersion : Nat
  deriving DecidableEq

/-- mirrors src/hashmap.c:283-295 -/
def cdsaCreateHashmapIterator (m : CdsaHashmap CStr V) : HashmapIterator := ⟨0, m.version⟩

/-- The `while` of `cdsa_has_next_hashmap`; the first argument is
`capacity - current_index`. It reads each slot it passes.
mirrors src/hashmap.c:305-313 -/
def skipEmpty (es : List (Option (HashEntry CStr V))) : Nat → Nat → Option (Bool × Nat)
  | 0, index => some (false, index)
  | left + 1, index =>
    match es[index]? with
    | none => none
    | some none => skipEmpty es left (index + 1)
    | some (some _) => some (true, index)

/-- mirrors src/hashmap.c:297-314 -/
def cdsaHasNextHashmap (m : CdsaHashmap CStr V) (it : HashmapIterator) :
    Option (Bool × HashmapIterator) :=
  if m.version ≠ it.snapshotVersion then some (false, it)
  else
    (skipEmpty m.entries (m.capacity - it.currentIndex) it.currentIndex).map fun r =>
      (r.1, { it with currentIndex := r.2 })

/-- The status and the pair written to `out_key`, `out_value`.
mirrors src/hashmap.c:316-336 -/
def cdsaNextHashmap (m : CdsaHashmap CStr V) (it : HashmapIterator) :
    Option (Status × Option (CStr × Option V) × HashmapIterator) :=
  if m.version ≠ it.snapshotVersion then some (.errIterInvalidated, none, it)
  else
    (cdsaHasNextHashmap m it).map fun r =>
      if r.1 then
        (.ok, (slot m.entries r.2.currentIndex).map HashEntry.pair,
          { r.2 with currentIndex := r.2.currentIndex + 1 })
      else (.errNotFound, none, r.2)

/-! ## Sessions -/

structure Session (V : Type) where
  map : CdsaHashmap CStr V
  iter : HashmapIterator
  /-- ghost: the keys yielded by `cdsa_next_hashmap`, latest first -/
  yielded : List CStr
  /-- ghost: the keys stored in every state since the iterator was created -/
  kept : List CStr

def Session.start (m : CdsaHashmap CStr V) : Session V := ⟨m, cdsaCreateHashmapIterator m, [], keys m⟩

inductive Ev (V : Type) where
  | hasNext
  | next
  | insert (key : CStr) (value : Option V) (ok : Bool)
  | remove (key : CStr)
  | resize (ok : Bool)

/-- The map has changed to `m'`. -/
def Session.become (s : Session V) (m' : CdsaHashmap CStr V) : Session V :=
  { s with map := m', kept := s.kept.filter (· ∈ keys m') }

/-- One event, and what `cdsa_next_hashmap` answered if it was one. -/
def Session.step (s : Session V) : Ev V → Option (Option Status × Session V)
  | .hasNext => (cdsaHasNextHashmap s.map s.iter).map fun r => (none, { s with iter := r.2 })
  | .next =>
    (cdsaNextHashmap s.map s.iter).map fun r =>
      (some r.1, { s with
        iter := r.2.2
        yielded := (r.2.1.map Prod.fst).toList ++ s.yielded })
  | .insert k v ok => (insertHashmap some ok s.map k v).map fun r => (none, s.become r.2)
  | .remove k => (removeHashmap some s.map k).map fun r => (none, s.become r.2)
  | .resize ok => (resizeHashmap some ok s.map).map fun r => (none, s.become r.2)

/-- Everything the insertion writes is on one side of the cursor. -/
def OneSide (m : CdsaHashmap CStr V) (k : CStr) (cursor : Nat) : Prop :=
  (∀ w ∈ writes m k, w.1 < cursor) ∨ ∀ w ∈ writes m k, cursor ≤ w.1

/-- A bump of the version does not make it equal to the snapshot again. -/
def NoWrap (s : Session V) : Prop := (s.map.version + 1) % 2 ^ 64 ≠ s.iter.snapshotVersion

def EvOk (s : Session V) : Ev V → Prop
  | .insert k _ ok =>
    if needsResize s.map then ok = true → Fits (doubled s.map) ∧ NoWrap s
    else s.map.version = s.iter.snapshotVersion → OneSide s.map k s.iter.currentIndex
  | .remove k => (∃ i, findSlot some s.map k = some (some i)) → NoWrap s
  | .resize ok => ok = true → Fits (doubled s.map) ∧ NoWrap s
  | _ => True

/-- Every interleaving on one iterator of a reachable map, as long as each
event meets `EvOk`. -/
def sessionLTS (V : Type) : LTS (Session V) (Ev V) where
  init s := ∃ m, (hashmapLTS V).Reachable m ∧ s = Session.start m
  step s ev s' := EvOk s ev ∧ ∃ ans, s.step ev = some (ans, s')

/-! ## The cursor -/

/-- Within the table the cursor moves over empty slots, to an entry or to the end. -/
theorem skipEmpty_spec {es : List (Option (HashEntry CStr V))} : ∀ left index,
    index + left ≤ es.length → ∃ b j, skipEmpty es left index = some (b, j) ∧
      index ≤ j ∧ (∀ i, index ≤ i → i < j → slot es i = none) ∧
      (b = true → ∃ x, slot es j = some x) ∧ (b = false → j = index + left) := by
  intro left
  induction left with
  | zero =>
    intro index _
    exact ⟨false, index, rfl, Nat.le_refl _, fun i h1 h2 => by omega, fun hb => (by cases hb),
      fun _ => rfl⟩
  | succ left ih =>
    intro index hle
    have hlt : index < es.length := by omega
    rw [skipEmpty, getElem?_of_lt hlt]
    cases hs : slot es index with
    | some x =>
      exact ⟨true, index, rfl, Nat.le_refl _, fun i h1 h2 => by omega, fun _ => ⟨x, hs⟩,
        fun hb => (by cases hb)⟩
    | none =>
      obtain ⟨b, j, h, h1, h2, h3, h4⟩ := ih (index + 1) (by omega)
      refine ⟨b, j, h, by omega, fun i hi hj => ?_, h3, fun hb => by have := h4 hb; omega⟩
      by_cases he : i = index
      · rw [he, hs]
      · exact h2 i (by omega) hj

/-- `cdsa_has_next_hashmap` on an iterator that stands. -/
theorem cdsaHasNextHashmap_spec {m : CdsaHashmap CStr V} {it : HashmapIterator}
    (hlen : m.entries.length = m.capacity) (hv : m.version = it.snapshotVersion) :
    ∃ b j, cdsaHasNextHashmap m it = some (b, { it with currentIndex := j }) ∧
      it.currentIndex ≤ j ∧ (∀ i, it.currentIndex ≤ i → i < j → slot m.entries i = none) ∧
      (b = true → ∃ x, slot m.entries j = some x) ∧ (b = false → m.capacity ≤ j) := by
  rw [cdsaHasNextHashmap, if_neg (not_not.mpr hv)]
  by_cases hle : it.currentIndex ≤ m.capacity
  · have hfit : it.currentIndex + (m.capacity - it.currentIndex) ≤ m.entries.length := by omega
    obtain ⟨b, j, h, h1, h2, h3, h4⟩ := skipEmpty_spec _ _ hfit
    exact ⟨b, j, by rw [h, Option.map_some], h1, h2, h3, fun hb => by have := h4 hb; omega⟩
  · have hzero : m.capacity - it.currentIndex = 0 := by omega
    refine ⟨false, it.currentIndex, ?_, Nat.le_refl _, fun i h1 h2 => by omega,
      fun hb => (by cases hb), fun _ => by omega⟩
    rw [hzero, skipEmpty, Option.map_some]

/-- The invariant of a session: while the version stands, what was yielded
lies behind the cursor and everything else that was there from the start
still lies ahead of it. -/
structure SInv (s : Session V) : Prop where
  inv : Inv s.map
  fits : Fits s.map
  distinct : s.yielded.Nodup
  behind : s.map.version = s.iter.snapshotVersion → ∀ k ∈ s.yielded,
    ∃ i x, slot s.map.entries i = some x ∧ x.key = k ∧ i < s.iter.currentIndex
  ahead : s.map.version = s.iter.snapshotVersion → ∀ k ∈ s.kept, k ∈ s.yielded ∨
    ∃ i x, slot s.map.entries i = some x ∧ x.key = k ∧ s.iter.currentIndex ≤ i

theorem sInv_start {m : CdsaHashmap CStr V} (I : Inv m) (hf : Fits m) : SInv (Session.start m) where
  inv := I
  fits := hf
  distinct := List.nodup_nil
  behind _ k hk := by cases hk
  ahead _ k hk := by
    obtain ⟨i, x, hi, hx⟩ := mem_keys.mp hk
    exact Or.inr ⟨i, x, hi, hx, Nat.zero_le _⟩

/-- Moving the cursor over empty slots. -/
theorem SInv.skip {s : Session V} (I : SInv s) {j : Nat} (hle : s.iter.currentIndex ≤ j)
    (hempty : ∀ i, s.iter.currentIndex ≤ i → i < j → slot s.map.entries i = none) :
    SInv { s with iter := { s.iter with currentIndex := j } } := by
  refine ⟨I.inv, I.fits, I.distinct, fun hv k hk => ?_, fun hv k hk => ?_⟩
  · obtain ⟨i, x, hs, hx, hlt⟩ := I.behind hv k hk
    exact ⟨i, x, hs, hx, Nat.lt_of_lt_of_le hlt hle⟩
  · rcases I.ahead hv k hk with hy | ⟨i, x, hs, hx, hge⟩
    · exact Or.inl hy
    · refine Or.inr ⟨i, x, hs, hx, ?_⟩
      by_contra hlt
      rw [hempty i hge (Nat.not_le.mp hlt)] at hs
      cases hs

theorem SInv.hasNext {s : Session V} (I : SInv s) :
    ∃ r, cdsaHasNextHashmap s.map s.iter = some r ∧ SInv { s with iter := r.2 } := by
  by_cases hv : s.map.version = s.iter.snapshotVersion
  · obtain ⟨b, j, h, hle, hempty, -⟩ := cdsaHasNextHashmap_spec I.inv.layout.len hv
    exact ⟨_, h, I.skip hle hempty⟩
  · exact ⟨_, by rw [cdsaHasNextHashmap, if_pos hv], I⟩

/-- The three answers of `cdsa_next_hashmap`. The cursor has first moved over
empty slots to `j`. -/
theorem SInv.next_cases {s : Session V} (I : SInv s) :
    (s.map.version ≠ s.iter.snapshotVersion ∧
      cdsaNextHashmap s.map s.iter = some (.errIterInvalidated, none, s.iter)) ∨
    (s.map.version = s.iter.snapshotVersion ∧ ∃ j,
      SInv { s with iter := { s.iter with currentIndex := j } } ∧
      ((∃ x, slot s.map.entries j = some x ∧
          cdsaNextHashmap s.map s.iter =
            some (.ok, some x.pair, { s.iter with currentIndex := j + 1 })) ∨
        (s.map.capacity ≤ j ∧
          cdsaNextHashmap s.map s.iter =
            some (.errNotFound, none, { s.iter with currentIndex := j })))) := by
  by_cases hv : s.map.version = s.iter.snapshotVersion
  · obtain ⟨b, j, h, hle, hempty, hfound, hend⟩ := cdsaHasNextHashmap_spec I.inv.layout.len hv
    refine Or.inr ⟨hv, j, I.skip hle hempty, ?_⟩
    rw [cdsaNextHashmap, if_neg (not_not.mpr hv), h, Option.map_some]
    cases b with
    | true =>
      obtain ⟨x, hx⟩ := hfound rfl
      exact Or.inl ⟨x, hx, by simp only [hx, Option.map_some, if_true]⟩
    | false => exact Or.inr ⟨hend rfl, rfl⟩
  · exact Or.inl ⟨hv, by rw [cdsaNextHashmap, if_pos hv]⟩

/-- The key at the cursor is none of those behind it. -/
theorem SInv.not_yielded {s : Session V} (I : SInv s) (hv : s.map.version = s.iter.snapshotVersion)
    {x : HashEntry CStr V} (hx : slot s.map.entries s.iter.currentIndex = some x) :
    x.key ∉ s.yielded := by
  intro hy
  obtain ⟨i, y, hi, hk, hlt⟩ := I.behind hv _ hy
  exact absurd (I.inv.layout.slot_key hi hx hk) (Nat.ne_of_lt hlt)

/-- Yielding the entry at the cursor and moving on. -/
theorem SInv.yield {s : Session V} (I : SInv s) (hv : s.map.version = s.iter.snapshotVersion)
    {x : HashEntry CStr V} (hx : slot s.map.entries s.iter.currentIndex = some x) :
    SInv { s with
      iter := { s.iter with currentIndex := s.iter.currentIndex + 1 }
      yielded := x.key :: s.yielded } where
  inv := I.inv
  fits := I.fits
  distinct := List.nodup_cons.mpr ⟨I.not_yielded hv hx, I.distinct⟩
  behind _ k hk := by
    rcases List.mem_cons.mp hk with rfl | hk
    · exact ⟨_, x, hx, rfl, Nat.lt_succ_self _⟩
    · obtain ⟨i, y, hi, hy, hlt⟩ := I.behind hv k hk
      exact ⟨i, y, hi, hy, Nat.lt_succ_of_lt hlt⟩
  ahead _ k hk := by
    rcases I.ahead hv k hk with hy | ⟨i, y, hi, hy, hge⟩
    · exact Or.inl (List.mem_cons_of_mem _ hy)
    · rcases Nat.eq_or_lt_of_le hge with he | hlt
      · rw [← he, hx] at hi; cases hi
        exact Or.inl (hy ▸ List.mem_cons_self)
      · exact Or.inr ⟨i, y, hi, hy, hlt⟩

theorem SInv.next {s : Session V} (I : SInv s) :
    ∃ r, cdsaNextHashmap s.map s.iter = some r ∧
      SInv { s with iter := r.2.2, yielded := (r.2.1.map Prod.fst).toList ++ s.yielded } := by
  rcases I.next_cases with ⟨-, h⟩ | ⟨hv, j, Ij, ⟨x, hx, h⟩ | ⟨-, h⟩⟩
  · exact ⟨_, h, I⟩
  · exact ⟨_, h, Ij.yield hv hx⟩
  · exact ⟨_, h, Ij⟩

/-! ## Changing the map -/

/-- The version stands and no entry crosses the cursor. -/
theorem SInv.keep {s : Session V} {m' : CdsaHashmap CStr V} (I : SInv s) (I' : Inv m') (hf : Fits m')
    (hv : m'.version = s.map.version)
    (hmove : s.map.version = s.iter.snapshotVersion → ∀ i x, slot s.map.entries i = some x →
      ∃ j y, slot m'.entries j = some y ∧ y.key = x.key ∧
        (j < s.iter.currentIndex ↔ i < s.iter.currentIndex)) : SInv (s.become m') where
  inv := I'
  fits := hf
  distinct := I.distinct
  behind hv' k hk := by
    have hv' := hv.symm.trans hv'
    obtain ⟨i, x, hi, hx, hlt⟩ := I.behind hv' k hk
    obtain ⟨j, y, hj, hy, hiff⟩ := hmove hv' i x hi
    exact ⟨j, y, hj, hy.trans hx, hiff.mpr hlt⟩
  ahead hv' k hk := by
    have hv' := hv.symm.trans hv'
    rcases I.ahead hv' k (List.mem_of_mem_filter hk) with hy | ⟨i, x, hi, hx, hge⟩
    · exact Or.inl hy
    · obtain ⟨j, y, hj, hy, hiff⟩ := hmove hv' i x hi
      exact Or.inr ⟨j, y, hj, hy.trans hx, Nat.not_lt.mp fun h => Nat.not_lt.mpr hge (hiff.mp h)⟩

theorem SInv.same {s : Session V} (I : SInv s) : SInv (s.become s.map) :=
  I.keep I.inv I.fits rfl fun _ i x h => ⟨i, x, h, rfl, Iff.rfl⟩

/-- The version moves away from the snapshot: nothing is promised any more. -/
theorem SInv.bump {s : Session V} {m' : CdsaHashmap CStr V} (I : SInv s) (I' : Inv m') (hf : Fits m')
    (hv : m'.version = (s.map.version + 1) % 2 ^ 64) (hn : NoWrap s) : SInv (s.become m') where
  inv := I'
  fits := hf
  distinct := I.distinct
  behind h := absurd (hv.symm.trans h) hn
  ahead h := absurd (hv.symm.trans h) hn

theorem OneSide.iff {m : CdsaHashmap CStr V} {k : CStr} {cursor i j : Nat} (h : OneSide m k cursor)
    (hi : i ∈ (writes m k).map Prod.fst) (hj : j ∈ (writes m k).map Prod.fst) :
    j < cursor ↔ i < cursor := by
  obtain ⟨u, hu, rfl⟩ := List.mem_map.mp hi
  obtain ⟨w, hw, rfl⟩ := List.mem_map.mp hj
  rcases h with h | h
  · exact iff_of_true (h w hw) (h u hu)
  · exact iff_of_false (Nat.not_lt.mpr (h w hw)) (Nat.not_lt.mpr (h u hu))

theorem SInv.insert {s : Session V} (I : SInv s) {ok : Bool} {k : CStr} {v : Option V}
    (he : EvOk s (.insert k v ok)) :
    ∃ r, insertHashmap some ok s.map k v = some r ∧ SInv (s.become r.2) := by
  have hd : needsResize s.map = true → ok = true → Fits (doubled s.map) ∧ NoWrap s := by
    intro hr
    simpa only [EvOk, hr, if_true] using he
  rcases insertHashmap_cases I.inv I.fits ok k v (fun hr hok => (hd hr hok).1) with ⟨-, -, h⟩ |
    ⟨hr, hok, m1, m', -, R, P, I', h⟩ | ⟨hr, m', P, I', h⟩
  · exact ⟨_, h, I.same⟩
  · obtain ⟨hdf, hn⟩ := hd hr hok
    exact ⟨_, h, I.bump I' (P.fits (R.fits I.fits hdf)) (P.version.trans R.version) hn⟩
  · simp only [EvOk, hr, Bool.false_eq_true, if_false] at he
    refine ⟨_, h, I.keep I' (P.fits I.fits) P.version fun hv i x hi => ?_⟩
    obtain ⟨j, y, hj, hy, rfl | ⟨hwi, hwj⟩⟩ := P.slots i x hi
    · exact ⟨j, y, hj, hy, Iff.rfl⟩
    · exact ⟨j, y, hj, hy, (he hv).iff hwi hwj⟩

theorem SInv.remove {s : Session V} (I : SInv s) {k : CStr} (he : EvOk s (.remove k)) :
    ∃ r, removeHashmap some s.map k = some r ∧ SInv (s.become r.2) := by
  rcases removeHashmap_cases I.inv k with ⟨-, h⟩ | ⟨hs, m', h, R⟩
  · exact ⟨_, h, I.same⟩
  · exact ⟨_, h, I.bump R.inv (R.fits I.fits) R.version (he hs)⟩

theorem SInv.resize {s : Session V} (I : SInv s) {ok : Bool} (he : EvOk s (.resize ok)) :
    ∃ r, resizeHashmap some ok s.map = some r ∧ SInv (s.become r.2) := by
  cases ok with
  | false => exact ⟨_, resizeHashmap_oom s.map, I.same⟩
  | true =>
    obtain ⟨hd, hn⟩ := he rfl
    obtain ⟨m', h, R⟩ := resizeHashmap_spec I.inv I.fits hd
    exact ⟨_, h, I.bump R.inv (R.fits I.fits hd) R.version hn⟩

/-- Every event returns, within the table, and keeps the invariant. -/
theorem SInv.step {s : Session V} (I : SInv s) {ev : Ev V} (he : EvOk s ev) :
    ∃ ans s', s.step ev = some (ans, s') ∧ SInv s' := by
  cases ev with
  | hasNext =>
    obtain ⟨r, h, I'⟩ := I.hasNext
    exact ⟨_, _, by rw [Session.step, h, Option.map_some], I'⟩
  | next =>
    obtain ⟨r, h, I'⟩ := I.next
    exact ⟨_, _, by rw [Session.step, h, Option.map_some], I'⟩
  | insert k v ok =>
    obtain ⟨r, h, I'⟩ := I.insert he
    exact ⟨_, _, by rw [Session.step, h, Option.map_some], I'⟩
  | remove k =>
    obtain ⟨r, h, I'⟩ := I.remove he
    exact ⟨_, _, by rw [Session.step, h, Option.map_some], I'⟩
  | resize ok =>
    obtain ⟨r, h, I'⟩ := I.resize he
    exact ⟨_, _, by rw [Session.step, h, Option.map_some], I'⟩

theorem sessionLTS_inductive : (sessionLTS V).Inductive SInv where
  init s := by
    rintro ⟨m, hm, rfl⟩
    obtain ⟨I, hf⟩ := reachable_inv hm
    exact sInv_start I hf
  step s ev s' := by
    rintro I ⟨he, ans, h⟩
    obtain ⟨ans', s1, h', I'⟩ := I.step he
    rw [h'] at h
    cases h
    exact I'

/-! ## What iteration promises -/

/-- What the keys yielded so far and the next answer satisfy. -/
structure Sound (s : Session V) (answer : Status) (out : Option (CStr × Option V)) : Prop where
  distinct : s.yielded.Nodup
  ok : answer = .ok → ∃ p ∈ pairs s.map.entries, out = some p ∧ p.1 ∉ s.yielded
  complete : answer = .errNotFound → ∀ k ∈ s.kept, k ∈ s.yielded
  otherwise : answer ≠ .ok → answer ≠ .errNotFound → answer = .errIterInvalidated
  invalidated : answer = .errIterInvalidated ↔ s.map.version ≠ s.iter.snapshotVersion

theorem SInv.sound {s : Session V} (I : SInv s) :
    ∃ st out it, cdsaNextHashmap s.map s.iter = some (st, out, it) ∧ Sound s st out := by
  rcases I.next_cases with ⟨hv, h⟩ | ⟨hv, j, Ij, ⟨x, hx, h⟩ | ⟨hj, h⟩⟩
  · exact ⟨_, _, _, h, I.distinct, fun h => (by cases h), fun h => (by cases h), fun _ _ => rfl,
      iff_of_true rfl hv⟩
  · exact ⟨_, _, _, h, I.distinct,
      fun _ => ⟨x.pair, List.mem_map_of_mem (mem_live.mpr ⟨j, hx⟩), rfl, Ij.not_yielded hv hx⟩,
      fun h => (by cases h), fun h => absurd rfl h,
      iff_of_false (fun h => (by cases h)) (not_not.mpr hv)⟩
  · refine ⟨_, _, _, h, I.distinct, fun h => (by cases h), fun _ k hk => ?_, fun _ h => absurd rfl h,
      iff_of_false (fun h => (by cases h)) (not_not.mpr hv)⟩
    rcases Ij.ahead hv k hk with hy | ⟨i, y, hi, -, hge⟩
    · exact hy
    · exact absurd (I.inv.layout.lt hi) (Nat.not_lt.mpr (Nat.le_trans hj hge))

/-- In every interleaving whose events meet `EvOk`, iteration is sound. -/
theorem session_sound (s : Session V) (h : (sessionLTS V).Reachable s) :
    ∃ st out it, cdsaNextHashmap s.map s.iter = some (st, out, it) ∧ Sound s st out :=
  (sessionLTS_inductive.reachable s h).sound

/-- "d" yielded, then "h" stored ahead of the cursor, where it displaces "e". -/
theorem session_sound_cluster : ∃ s : Session Nat, s.map = cluster ∧
    s.yielded = [⟨[100], by decide⟩] ∧ s.kept = [⟨[100], by decide⟩, ⟨[101], by decide⟩] ∧
    Sound s .ok (some (⟨[104], by decide⟩, some 3)) := by
  have s0 : (sessionLTS Nat).Reachable (Session.start twoKeys) :=
    .init ⟨_, twoKeys_reachable, rfl⟩
  have s1 : (sessionLTS Nat).Reachable
      ⟨_, ⟨1, 0⟩, [⟨[100], by decide⟩], [⟨[100], by decide⟩, ⟨[101], by decide⟩]⟩ :=
    .step (l := .next) s0 ⟨trivial, some .ok, rfl⟩
  have s2 : (sessionLTS Nat).Reachable
      ⟨cluster, ⟨1, 0⟩, [⟨[100], by decide⟩], [⟨[100], by decide⟩, ⟨[101], by decide⟩]⟩ :=
    .step (l := .insert ⟨[104], by decide⟩ (some 3) true) s1
      ⟨fun _ => Or.inr (by decide), none, by rfl⟩
  obtain ⟨st, out, it, h, S⟩ := session_sound _ s2
  have hnext : cdsaNextHashmap cluster ⟨1, 0⟩ =
      some (.ok, some (⟨[104], by decide⟩, some 3), ⟨2, 0⟩) := by
    decide
  rw [hnext] at h
  cases h
  exact ⟨_, rfl, rfl, rfl, S⟩

/-- A map of capacity 8 with "o" in slot 7 and "h" in slot 0. The iterator
yields "h"; storing "w" (home 7) moves "h" on to slot 1, ahead of the cursor,
and the iterator yields it again. -/
theorem yields_twice : ∃ m : CdsaHashmap CStr Nat, (hashmapLTS Nat).Reachable m ∧
    ∃ s1 s2 s3, (Session.start m).step .next = some (some .ok, s1) ∧
      s1.step (.insert ⟨[119], by decide⟩ (some 3) true) = some (none, s2) ∧
      s2.step .next = some (some .ok, s3) ∧
      s3.yielded = [⟨[104], by decide⟩, ⟨[104], by decide⟩] := by
  have h0 : (hashmapLTS Nat).Reachable ⟨8, 0, 0, 0, List.replicate 8 none⟩ :=
    .init ⟨⟨8, rfl⟩, by decide⟩
  have h1 : (hashmapLTS Nat).Reachable ⟨8, 1, 0, 0,
      List.replicate 7 none ++ [some ⟨⟨[111], by decide⟩, some 1, 111, 0⟩]⟩ :=
    .step (l := .insert ⟨[111], by decide⟩ (some 1) true) h0 ⟨⟨.status .ok, by decide⟩, by decide⟩
  have h2 : (hashmapLTS Nat).Reachable ⟨8, 2, 0, 0,
      some ⟨⟨[104], by decide⟩, some 2, 104, 0⟩ :: List.replicate 6 none ++
        [some ⟨⟨[111], by decide⟩, some 1, 111, 0⟩]⟩ :=
    .step (l := .insert ⟨[104], by decide⟩ (some 2) true) h1 ⟨⟨.status .ok, by decide⟩, by decide⟩
  exact ⟨_, h2, _, _, _, rfl, rfl, rfl, rfl⟩

end Cdsa.Hashmap
