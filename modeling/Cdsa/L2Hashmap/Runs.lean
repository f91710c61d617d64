import Cdsa.Core.LTS
import Cdsa.L2Hashmap.Remove

/-!
# The hash map over whole runs

An operation carries the answer of the allocation it may make. Two readings
of a run:

* `hashmapLTS`: any interleaving, allocations failing or not. Its states
  satisfy `Inv` (`reachable_inv`), whence `layout_invariant` and
  `no_entry_lost`.
* `runOps step` against the abstract finite map (`astep`). `max_psl` is
  raised only to where an insertion ends, so the probe loops can miss an
  entry that a swap left further from home (`hidden_key`); in a run whose
  insertions are all `CallOk` the map is a finite map (`refines_finite_map`).

A table asks for `32 * capacity` bytes and a header, as a `size_t`. Both
readings are of runs in which none of these requests wraps (`Fits`, `OpFits`);
a request that wraps is granted a block that is too small, and the loops leave
it (`wrapped`).
-/
namespace Cdsa.Hashmap

open Cdsa.Core

variable {V : Type}

inductive Op (V : Type) where
  | insert (key : CStr) (value : Option V) (ok : Bool)
  | remove (key : CStr)
  | resize (ok : Bool)
  | get (key : CStr)
  | size

inductive Out (V : Type) where
  | status (s : Status)
  | value (v : Option V)
  | size (n : Nat)
  deriving DecidableEq

def step (m : CdsaHashmap CStr V) : Op V → Option (Out V × CdsaHashmap CStr V)
  | .insert k v ok => (insertHashmap some ok m k v).map fun r => (.status r.1, r.2)
  | .remove k => (removeHashmap some m k).map fun r => (.status r.1, r.2)
  | .resize ok => (resizeHashmap some ok m).map fun r => (.status r.1, r.2)
  | .get k => (getHashmap some m k).map fun v => (.value v, m)
  | .size => some (.size (cdsaSizeHashmap m), m)

/-- The operation is granted another table. -/
def resizes (m : CdsaHashmap CStr V) : Op V → Bool
  | .insert _ _ ok => needsResize m && ok
  | .resize ok => ok
  | _ => false

/-- The table it is granted, if any, has the slots that were meant. -/
def OpFits (m : CdsaHashmap CStr V) (op : Op V) : Prop := resizes m op = true → Fits (doubled m)

instance (m : CdsaHashmap CStr V) (op : Op V) : Decidable (OpFits m op) :=
  inferInstanceAs (Decidable (_ → _))

theorem OpFits.insert {m : CdsaHashmap CStr V} {k : CStr} {v : Option V} {ok : Bool}
    (h : OpFits m (.insert k v ok)) : needsResize m = true → ok = true → Fits (doubled m) :=
  fun hr hok => h (by rw [resizes, hr, hok]; rfl)

/-- Every run of the four mutators and readers on a fresh map. -/
def hashmapLTS (V : Type) : LTS (CdsaHashmap CStr V) (Op V) where
  init m := (∃ capacity, cdsaCreateHashmap true true capacity = some m) ∧ Fits m
  step m op m' := (∃ out, step m op = some (out, m')) ∧ OpFits m op

section
variable {m : CdsaHashmap CStr V}

theorem insertHashmap_inv (I : Inv m) (hf : Fits m) {ok : Bool} {k : CStr} {v : Option V}
    (ho : OpFits m (.insert k v ok)) :
    ∃ r, insertHashmap some ok m k v = some r ∧ Inv r.2 ∧ Fits r.2 := by
  rcases insertHashmap_cases I hf ok k v ho.insert with ⟨-, -, h⟩ |
    ⟨hr, hok, m1, m', -, R, P, I', h⟩ | ⟨-, m', P, I', h⟩
  · exact ⟨_, h, I, hf⟩
  · exact ⟨_, h, I', P.fits (R.fits hf (ho.insert hr hok))⟩
  · exact ⟨_, h, I', P.fits hf⟩

theorem resizeHashmap_inv (I : Inv m) (hf : Fits m) {ok : Bool} (ho : OpFits m (.resize ok)) :
    ∃ r, resizeHashmap some ok m = some r ∧ Inv r.2 ∧ Fits r.2 := by
  cases ok with
  | false => exact ⟨_, resizeHashmap_oom m, I, hf⟩
  | true =>
    obtain ⟨m', h, R⟩ := resizeHashmap_spec I hf (ho rfl)
    exact ⟨_, h, R.inv, R.fits hf (ho rfl)⟩

theorem removeHashmap_inv (I : Inv m) (hf : Fits m) (k : CStr) :
    ∃ r, removeHashmap some m k = some r ∧ Inv r.2 ∧ Fits r.2 := by
  rcases removeHashmap_cases I k with ⟨-, h⟩ | ⟨-, m', h, R⟩
  · exact ⟨_, h, I, hf⟩
  · exact ⟨_, h, R.inv, R.fits hf⟩

theorem getHashmap_defined (I : Inv m) (k : CStr) : ∃ v, getHashmap some m k = some v := by
  rcases findSlot_cases I.layout.len I.pos k with h | ⟨s, h⟩
  · exact ⟨none, by simp only [getHashmap, h, Option.map_some]⟩
  · exact ⟨_, by simp only [getHashmap, h, Option.map_some]; rfl⟩

/-- Every operation ends, within the table, and keeps the invariant. -/
theorem step_inv (I : Inv m) (hf : Fits m) (op : Op V) (ho : OpFits m op) :
    ∃ o m', step m op = some (o, m') ∧ Inv m' ∧ Fits m' := by
  cases op with
  | insert k v ok =>
    obtain ⟨r, h, I'⟩ := insertHashmap_inv I hf ho
    exact ⟨_, r.2, by simp only [step, h, Option.map_some]; rfl, I'⟩
  | remove k =>
    obtain ⟨r, h, I'⟩ := removeHashmap_inv I hf k
    exact ⟨_, r.2, by simp only [step, h, Option.map_some]; rfl, I'⟩
  | resize ok =>
    obtain ⟨r, h, I'⟩ := resizeHashmap_inv I hf ho
    exact ⟨_, r.2, by simp only [step, h, Option.map_some]; rfl, I'⟩
  | get k =>
    obtain ⟨v, h⟩ := getHashmap_defined I k
    exact ⟨_, m, by simp only [step, h, Option.map_some]; rfl, I, hf⟩
  | size => exact ⟨_, m, rfl, I, hf⟩

end

theorem hashmapLTS_inductive : (hashmapLTS V).Inductive fun m => Inv m ∧ Fits m where
  init m := by
    rintro ⟨⟨capacity, h⟩, hf⟩
    exact ⟨(cdsaCreateHashmap_inv h hf).1, hf⟩
  step m op m' := by
    rintro ⟨I, hf⟩ ⟨⟨out, h⟩, ho⟩
    obtain ⟨o, m1, h1, I'⟩ := step_inv I hf op ho
    rw [h1] at h; cases h
    exact I'

theorem reachable_inv {m : CdsaHashmap CStr V} (h : (hashmapLTS V).Reachable m) : Inv m ∧ Fits m :=
  hashmapLTS_inductive.reachable m h

/-! ## Three tables -/

/-- `"d"` and `"e"` in four slots, at home. -/
def twoKeys : CdsaHashmap CStr Nat :=
  ⟨4, 2, 0, 0, [some ⟨⟨[100], by decide⟩, some 1, 100, 0⟩, some ⟨⟨[101], by decide⟩, some 2, 101, 0⟩,
    none, none]⟩

/-- Then `"h"`, of the same home as `"d"`, has displaced `"e"`. -/
def cluster : CdsaHashmap CStr Nat :=
  ⟨4, 3, 1, 0, [some ⟨⟨[100], by decide⟩, some 1, 100, 0⟩, some ⟨⟨[104], by decide⟩, some 3, 104, 1⟩,
    some ⟨⟨[101], by decide⟩, some 2, 101, 1⟩, none]⟩

theorem twoKeys_reachable : (hashmapLTS Nat).Reachable twoKeys := by
  have h0 : (hashmapLTS Nat).Reachable ⟨4, 0, 0, 0, [none, none, none, none]⟩ :=
    .init ⟨⟨4, rfl⟩, by decide⟩
  have h1 : (hashmapLTS Nat).Reachable
      ⟨4, 1, 0, 0, [some ⟨⟨[100], by decide⟩, some 1, 100, 0⟩, none, none, none]⟩ :=
    .step (l := .insert ⟨[100], by decide⟩ (some 1) true) h0 ⟨⟨.status .ok, by decide⟩, by decide⟩
  exact .step (l := .insert ⟨[101], by decide⟩ (some 2) true) h1
    ⟨⟨.status .ok, by decide⟩, by decide⟩

theorem cluster_reachable : (hashmapLTS Nat).Reachable cluster :=
  .step (l := .insert ⟨[104], by decide⟩ (some 3) true) twoKeys_reachable
    ⟨⟨.status .ok, by decide⟩, by decide⟩

/-- `2 ^ 59` slots of 32 bytes are 0 bytes. -/
def wrapped : CdsaHashmap CStr Nat := ⟨2 ^ 59, 0, 0, 0, []⟩

theorem cdsaCreateHashmap_wrapped : cdsaCreateHashmap true true (2 ^ 59) = some wrapped := rfl

theorem insertLoop_wrapped (fuel index : Nat) (e : HashEntry CStr Nat) :
    insertLoop some fuel wrapped index e = none := by
  cases fuel with
  | zero => rfl
  | succ fuel => rw [insertLoop, wrapped, List.getElem?_nil]

/-- The first insertion writes outside the block. -/
theorem insertHashmap_wrapped (ok : Bool) (k : CStr) (v : Option Nat) :
    insertHashmap some ok wrapped k v = none := by
  have hr : needsResize wrapped = false := by decide
  simp only [insertHashmap, hr, Bool.false_eq_true, if_false, Option.bind_some, internalInsert,
    insertLoop_wrapped]

/-! ## The layout of every reachable map -/

/-- The Robin Hood layout, slot by slot, and the load factor. -/
structure RobinHood (m : CdsaHashmap CStr V) : Prop where
  slots : m.entries.length = m.capacity
  home : ∀ i e, slot m.entries i = some e →
    e.psl < m.capacity ∧ i = (e.hash + e.psl) % m.capacity ∧ e.hash = getRawHash e.key
  order : ∀ i e, i < m.capacity → slot m.entries ((i + 1) % m.capacity) = some e → 0 < e.psl →
    ∃ e', slot m.entries i = some e' ∧ e.psl - 1 ≤ e'.psl
  distinct : ∀ i j e e', slot m.entries i = some e → slot m.entries j = some e' →
    e.key = e'.key → i = j
  size : m.size = m.entries.countP Option.isSome
  load : m.size ≤ 3 * m.capacity / 4
  gap : ∃ i, i < m.capacity ∧ slot m.entries i = none

theorem Inv.robinHood {m : CdsaHashmap CStr V} (I : Inv m) : RobinHood m := by
  have L := I.layout
  obtain ⟨g, hg, hge⟩ := I.roomy.gap
  exact {
    slots := L.len
    home := fun i e h => ⟨L.psl_lt h hg hge, L.home i e h, L.hash_of h⟩
    order := fun i e hi h hp => by
      obtain ⟨e', h', hle⟩ := L.order i e hi h hp
      exact ⟨e', h', by omega⟩
    distinct := fun i j e e' hi hj hk => L.slot_key hi hj hk
    size := by
      rw [I.size, live, List.reduceOption_length_eq, List.countP_eq_length_filter]
    load := by have := I.load; omega
    gap := ⟨g, hg, hge⟩ }

/-- Every reachable map has the Robin Hood layout. -/
theorem layout_invariant (m : CdsaHashmap CStr V) (h : (hashmapLTS V).Reachable m) : RobinHood m :=
  (reachable_inv h).1.robinHood

/-- A displaced cluster. -/
theorem layout_invariant_cluster : RobinHood cluster := layout_invariant _ cluster_reachable

/-- A fresh map whose `capacity * 3` does not wrap, but whose array does: it has
no slot, empty or not, and the first insertion writes outside it. -/
theorem layout_of_wrapped : cdsaCreateHashmap true true (2 ^ 59) = some wrapped ∧
    wrapped.capacity * 3 < 2 ^ 64 ∧ ¬ RobinHood wrapped ∧
    ∀ ok k v, insertHashmap some ok wrapped k v = none := by
  refine ⟨cdsaCreateHashmap_wrapped, by decide, fun R => ?_, insertHashmap_wrapped⟩
  have hlen : (0 : Nat) = 2 ^ 59 := R.slots
  omega

/-! ## Nothing is lost or duplicated -/

/-- On the pairs in the table of a map, `insert_hashmap` that succeeds is an
update, `resize_hashmap` changes nothing and `remove_hashmap` that succeeds
is a deletion; any other status leaves the map alone. -/
structure PairsKept (m : CdsaHashmap CStr V) : Prop where
  distinct : ((pairs m.entries).map Prod.fst).Nodup
  insert : ∀ ok k v, OpFits m (.insert k v ok) → ∃ st m', insertHashmap some ok m k v = some (st, m') ∧
    (st = .ok → (pairs m'.entries).Perm (upd k v (pairs m.entries))) ∧ (st ≠ .ok → m' = m)
  resize : ∀ ok, OpFits m (.resize ok) → ∃ st m', resizeHashmap some ok m = some (st, m') ∧
    (st = .ok → (pairs m'.entries).Perm (pairs m.entries)) ∧ (st ≠ .ok → m' = m)
  remove : ∀ k, ∃ st m', removeHashmap some m k = some (st, m') ∧
    (st = .ok → k ∈ (pairs m.entries).map Prod.fst ∧
      (pairs m'.entries).Perm (del k (pairs m.entries))) ∧ (st ≠ .ok → m' = m)

theorem Put.perm_of_resized {m m1 m' : CdsaHashmap CStr V} {k : CStr} {v : Option V}
    (R : Resized m m1) (P : Put m1 k v m') :
    (pairs m'.entries).Perm (upd k v (pairs m.entries)) :=
  P.perm.trans ((del_perm R.perm).cons _)

/-- No entry is lost or duplicated, whatever the reachable map and whether or
not allocations fail. -/
theorem no_entry_lost (m : CdsaHashmap CStr V) (h : (hashmapLTS V).Reachable m) : PairsKept m := by
  obtain ⟨I, hf⟩ := reachable_inv h
  refine ⟨keys_eq m ▸ I.layout.keys, fun ok k v ho => ?_, fun ok ho => ?_, fun k => ?_⟩
  · rcases insertHashmap_cases I hf ok k v ho.insert with ⟨-, -, he⟩ |
      ⟨-, -, m1, m', -, R, P, -, he⟩ | ⟨-, m', P, -, he⟩
    · exact ⟨_, m, he, fun h => (by cases h), fun _ => rfl⟩
    · exact ⟨_, m', he, fun _ => P.perm_of_resized R, fun h => absurd rfl h⟩
    · exact ⟨_, m', he, fun _ => P.perm, fun h => absurd rfl h⟩
  · cases ok with
    | false => exact ⟨_, m, resizeHashmap_oom m, fun h => (by cases h), fun _ => rfl⟩
    | true =>
      obtain ⟨m', he, R⟩ := resizeHashmap_spec I hf (ho rfl)
      exact ⟨_, m', he, fun _ => R.perm, fun h => absurd rfl h⟩
  · rcases removeHashmap_cases I k with ⟨-, he⟩ | ⟨-, m', he, R⟩
    · exact ⟨_, m, he, fun h => (by cases h), fun _ => rfl⟩
    · exact ⟨_, m', he, fun _ => ⟨keys_eq m ▸ R.stored, R.perm⟩, fun h => absurd rfl h⟩

/-- Another insertion into the cluster resizes it. -/
theorem no_entry_lost_cluster : needsResize cluster = true ∧ PairsKept cluster :=
  ⟨by decide, no_entry_lost _ cluster_reachable⟩

/-- A map whose array wraps loses what is inserted. -/
theorem pairs_of_wrapped : cdsaCreateHashmap true true (2 ^ 59) = some wrapped ∧ ¬ PairsKept wrapped := by
  refine ⟨cdsaCreateHashmap_wrapped, fun h => ?_⟩
  obtain ⟨st, m', he, -⟩ := h.insert true ⟨[97], by decide⟩ (some 5) (by decide)
  rw [insertHashmap_wrapped] at he
  cases he

/-! ## The map as a finite map -/

/-- The abstract machine: a finite map from strings to values. -/
def astep (M : FMap CStr (Option V)) : Op V → Out V × FMap CStr (Option V)
  | .insert k v _ => (.status .ok, M.insert k v)
  | .remove k => if k ∈ M then (.status .ok, M.erase k) else (.status .errNotFound, M)
  | .resize _ => (.status .ok, M)
  | .get k => (.value (M.lookup k).join, M)
  | .size => (.size M.keys.card, M)

/-- The calls of `internal_insert` an `insert_hashmap` makes: those of the
resize, if there is one, then its own. -/
def insertCalls (m : CdsaHashmap CStr V) (key : CStr) : List (CdsaHashmap CStr V × CStr) :=
  if needsResize m then
    reinsertCalls (doubled m) m.entries ++ match resizeHashmap some true m with
      | some r => [(r.2, key)]
      | none => []
  else [(m, key)]

/-- No allocation fails, no table wraps, and no insertion on the way hides an
entry. -/
def StepOk (m : CdsaHashmap CStr V) : Op V → Prop
  | .insert k v ok => ok = true ∧ OpFits m (.insert k v ok) ∧ ∀ q ∈ insertCalls m k, CallOk q.1 q.2
  | .resize ok => ok = true ∧ OpFits m (.resize ok) ∧
    ∀ q ∈ reinsertCalls (doubled m) m.entries, CallOk q.1 q.2
  | _ => True

instance (m : CdsaHashmap CStr V) : (op : Op V) → Decidable (StepOk m op)
  | .insert _ _ _ => inferInstanceAs (Decidable (_ ∧ _ ∧ _))
  | .resize _ => inferInstanceAs (Decidable (_ ∧ _ ∧ _))
  | .remove _ | .get _ | .size => .isTrue trivial

/-- The map is in order and holds the pairs of `M`. -/
structure Refines (m : CdsaHashmap CStr V) (M : FMap CStr (Option V)) : Prop where
  inv : Inv m
  fits : Fits m
  within : Within m
  models : Models (pairs m.entries) M

theorem Refines.mem_keys {m : CdsaHashmap CStr V} {M : FMap CStr (Option V)} (R : Refines m M)
    (k : CStr) : k ∈ keys m ↔ k ∈ M := by rw [keys_eq]; exact R.models.mem_keys k

theorem Refines.get {m : CdsaHashmap CStr V} {M : FMap CStr (Option V)} (R : Refines m M) (k : CStr) :
    getHashmap some m k = some (M.lookup k).join := by
  cases hl : M.lookup k with
  | some v => exact getHashmap_of_within R.inv.layout R.within ((R.models.lookup k v).mpr hl)
  | none =>
    refine getHashmap_absent R.inv.layout.len R.inv.pos fun hk => ?_
    have := Finmap.mem_iff.mp ((R.mem_keys k).mp hk)
    simp [hl] at this

theorem Refines.insert {m : CdsaHashmap CStr V} {M : FMap CStr (Option V)} (R : Refines m M) (k : CStr)
    (v : Option V) (ho : OpFits m (.insert k v true)) (hc : ∀ q ∈ insertCalls m k, CallOk q.1 q.2) :
    ∃ m', insertHashmap some true m k v = some (.ok, m') ∧ Refines m' (M.insert k v) := by
  rcases insertHashmap_cases R.inv R.fits true k v ho.insert with ⟨-, h, -⟩ |
    ⟨hr, -, m1, m', h1, S, P, I', he⟩ | ⟨hr, m', P, I', he⟩
  · cases h
  · simp only [insertCalls, hr, if_true, h1, List.mem_append, List.mem_singleton] at hc
    exact ⟨m', he, I', P.fits (S.fits R.fits (ho.insert hr rfl)),
      P.within (S.within fun q hq => hc q (Or.inl hq)) (hc (m1, k) (Or.inr rfl)),
      (R.models.upd k v).perm (P.perm_of_resized S)⟩
  · simp only [insertCalls, hr, Bool.false_eq_true, if_false, List.mem_singleton] at hc
    exact ⟨m', he, I', P.fits R.fits, P.within R.within (hc (m, k) rfl), (R.models.upd k v).perm P.perm⟩

theorem Refines.remove {m : CdsaHashmap CStr V} {M : FMap CStr (Option V)} (R : Refines m M)
    (k : CStr) : ∃ m', removeHashmap some m k =
      some (if k ∈ M then .ok else .errNotFound, m') ∧
      Refines m' (if k ∈ M then M.erase k else M) := by
  rcases removeHashmap_cases R.inv k with ⟨hn, he⟩ | ⟨-, m', he, S⟩
  · have hk : k ∉ M := by
      rw [← R.mem_keys, Hashmap.mem_keys]
      rintro ⟨i, x, hx, rfl⟩
      rw [findSlot_of_within R.inv.layout R.within hx] at hn; cases hn
    simp only [hk, if_false]
    exact ⟨m, he, R⟩
  · have hk : k ∈ M := (R.mem_keys k).mp S.stored
    simp only [hk, if_true]
    exact ⟨m', he, S.inv, S.fits R.fits, S.within R.within, (R.models.del k).perm S.perm⟩

/-- One operation against the abstract machine. -/
theorem Refines.step {m : CdsaHashmap CStr V} {M : FMap CStr (Option V)} (R : Refines m M) (op : Op V)
    (hok : StepOk m op) :
    ∃ m', Hashmap.step m op = some ((astep M op).1, m') ∧ Refines m' (astep M op).2 := by
  cases op with
  | insert k v ok =>
    obtain ⟨rfl, ho, hc⟩ := hok
    obtain ⟨m', he, R'⟩ := R.insert k v ho hc
    exact ⟨m', by simp only [Hashmap.step, he, Option.map_some]; rfl, R'⟩
  | remove k =>
    obtain ⟨m', he, R'⟩ := R.remove k
    refine ⟨m', ?_, ?_⟩
    · simp only [Hashmap.step, he, Option.map_some, astep]; split <;> rfl
    · simp only [astep]; split at R' <;> simp_all
  | resize ok =>
    obtain ⟨rfl, ho, hc⟩ := hok
    obtain ⟨m', he, S⟩ := resizeHashmap_spec R.inv R.fits (ho rfl)
    exact ⟨m', by simp only [Hashmap.step, he, Option.map_some]; rfl, S.inv,
      S.fits R.fits (ho rfl), S.within hc,
      R.models.perm S.perm⟩
  | get k => exact ⟨m, by simp only [Hashmap.step, R.get, astep, Option.map_some], R⟩
  | size =>
    refine ⟨m, ?_, R⟩
    have : m.size = M.keys.card := by
      rw [R.inv.size, ← R.models.length]; simp [pairs]
    simp only [Hashmap.step, cdsaSizeHashmap, this, astep]

/-- In a run whose tables do not wrap and whose insertions hide no entry, the map
answers as a finite map. -/
theorem refines_finite_map (capacity : Nat) (m : CdsaHashmap CStr V) (ops : List (Op V))
    (hm : cdsaCreateHashmap true true capacity = some m) (hf : Fits m)
    (hok : RunMeets Hashmap.step StepOk m ops) :
    ∃ m', runOps Hashmap.step m ops = some ((specRun astep ∅ ops).1, m') ∧
      Models (pairs m'.entries) (specRun astep ∅ ops).2 := by
  obtain ⟨I, hp, hw⟩ := cdsaCreateHashmap_inv hm hf
  obtain ⟨m', h, R⟩ := refine_run (fun m M op R hok => Refines.step R op hok) ops m ∅
    ⟨I, hf, hw, by rw [hp]; exact Models.nil⟩ hok
  exact ⟨m', h, R.models⟩

/-- `"h"` displaces `"e"`, and `"l"` comes with a resize and displaces it again. -/
def clusterOps : List (Op Nat) :=
  [.insert ⟨[100], by decide⟩ (some 1) true, .insert ⟨[101], by decide⟩ (some 2) true,
    .insert ⟨[104], by decide⟩ (some 3) true, .insert ⟨[108], by decide⟩ (some 4) true,
    .remove ⟨[100], by decide⟩, .get ⟨[101], by decide⟩, .get ⟨[100], by decide⟩]

theorem refines_finite_map_cluster : ∃ m' : CdsaHashmap CStr Nat,
    runOps Hashmap.step ⟨4, 0, 0, 0, [none, none, none, none]⟩ clusterOps =
      some ([.status .ok, .status .ok, .status .ok, .status .ok, .status .ok, .value (some 2),
        .value none], m') := by
  obtain ⟨m', h, -⟩ := refines_finite_map (V := Nat) 4 ⟨4, 0, 0, 0, [none, none, none, none]⟩
    clusterOps rfl (by decide) (RunMeets.of_check (p := fun m op => decide (StepOk m op))
      (fun _ _ h => of_decide_eq_true h) (by decide))
  have hs : (specRun astep (∅ : FMap CStr (Option Nat)) clusterOps).1 =
      [.status .ok, .status .ok, .status .ok, .status .ok, .status .ok, .value (some 2),
        .value none] := by
    simp [clusterOps, specRun, astep]
  exact ⟨m', hs ▸ h⟩

/-- Four keys into a map of capacity 8, homes 0, 0, 2 and 0. The last one is
swapped in at PSL 2, the entry it displaces ends at PSL 1, and `max_psl`
stays 1: the key just stored is neither found nor removed. -/
theorem hidden_key :
    cdsaCreateHashmap (K := CStr) (V := Nat) true true 8 =
      some ⟨8, 0, 0, 0, List.replicate 8 none⟩ ∧
    ∃ ops : List (Op Nat), ops =
        [.insert ⟨[104], by decide⟩ (some 1) true, .insert ⟨[112], by decide⟩ (some 2) true,
          .insert ⟨[106], by decide⟩ (some 3) true, .insert ⟨[120], by decide⟩ (some 4) true,
          .get ⟨[120], by decide⟩, .remove ⟨[120], by decide⟩] ∧
      (runOps Hashmap.step ⟨8, 0, 0, 0, List.replicate 8 none⟩ ops).map (·.1) =
        some [.status .ok, .status .ok, .status .ok, .status .ok, .value none,
          .status .errNotFound] ∧
      (specRun astep ∅ ops).1 =
        [.status .ok, .status .ok, .status .ok, .status .ok, .value (some 4), .status .ok] := by
  refine ⟨rfl, _, rfl, by decide, ?_⟩
  simp [specRun, astep]

end Cdsa.Hashmap
