import Cdsa.L1Memory.Tracked
import Cdsa.L2Hashmap.Runs

/-!
# Borrowed keys

`internal_insert` stores the caller's pointer to the key, not a copy. Here the
keys of the table are the pointers, and the strings lie in the caller's memory:
`strcmp` reads what they are when it is called, and reading one that has been
freed is undefined. It is called only on entries with the hash of the key, so a
freed key may lie in the table unnoticed for long.

`Lender` is what the caller may think of: a map that keeps the strings
themselves, and a note of which pointer is lent for which key. It is the pointer
the key was first inserted with; inserting the key again, from another buffer,
replaces the value and leaves the old pointer in the table. The caller may
change or free any string that is not lent (`Keeps`).

As long as it does, the table of pointers answers as the map of strings, every
`strcmp` reads a string that is there, and the pointers in the table are those
lent (`borrowed_keys`).
-/
namespace Cdsa.Borrowed

open Cdsa.Core Cdsa.Memory Cdsa.Hashmap

variable {V : Type}

/-- What the caller's pointers point to. -/
abbrev Strings := Ptr → Option CStr

/-! ## Tables alike -/

/-- The pointer is the one lent for the key, and the key is what it points to. -/
structure Alike (strings : Strings) (lent : CStr → Option Ptr) (e : HashEntry Ptr V)
    (x : HashEntry CStr V) : Prop where
  reads : strings e.key = some x.key
  lent : lent x.key = some e.key
  value : e.value = x.value
  hash : e.hash = x.hash
  psl : e.psl = x.psl

structure Mirrors (strings : Strings) (lent : CStr → Option Ptr) (m : CdsaHashmap Ptr V)
    (x : CdsaHashmap CStr V) : Prop where
  capacity : m.capacity = x.capacity
  size : m.size = x.size
  maxPsl : m.maxPsl = x.maxPsl
  version : m.version = x.version
  entries : List.Forall₂ (Option.Rel (Alike strings lent)) m.entries x.entries

section
variable {strings : Strings} {lent : CStr → Option Ptr} {m : CdsaHashmap Ptr V}
  {x : CdsaHashmap CStr V} {p : Ptr} {k : CStr}

theorem matches_alike {e : HashEntry Ptr V} {y : HashEntry CStr V}
    (reads : strings e.key = some y.key) (hash : e.hash = y.hash) (hp : strings p = some k) (h : Nat) :
    e.matches strings p h = y.matches some k h := by
  rw [HashEntry.matches, HashEntry.matches, hash, reads, hp]

theorem Alike.step {e : HashEntry Ptr V} {y : HashEntry CStr V} (A : Alike strings lent e y) :
    Alike strings lent { e with psl := e.psl + 1 } { y with psl := y.psl + 1 } :=
  ⟨A.reads, A.lent, A.value, A.hash, congrArg (· + 1) A.psl⟩

theorem Alike.setValue {e : HashEntry Ptr V} {y : HashEntry CStr V} (A : Alike strings lent e y)
    {v w : Option V} (hv : v = w) :
    Alike strings lent { e with value := v } { y with value := w } :=
  ⟨A.reads, A.lent, hv, A.hash, A.psl⟩

theorem Mirrors.set (M : Mirrors strings lent m x) {e : HashEntry Ptr V} {y : HashEntry CStr V}
    (A : Alike strings lent e y) (i : Nat) :
    Mirrors strings lent { m with entries := m.entries.set i (some e) }
      { x with entries := x.entries.set i (some y) } :=
  ⟨M.capacity, M.size, M.maxPsl, M.version, set_alike M.entries (.some A) i⟩

/-- The insertion loop, with an entry in hand whose pointer is the one lent. -/
theorem insertLoop_alike : ∀ {fuel index : Nat} {m : CdsaHashmap Ptr V} {x : CdsaHashmap CStr V}
    {e : HashEntry Ptr V} {y : HashEntry CStr V} {r' : Status × CdsaHashmap CStr V},
    Mirrors strings lent m x → Alike strings lent e y →
    insertLoop some fuel x index y = some r' →
    ∃ m', insertLoop strings fuel m index e = some (r'.1, m') ∧ Mirrors strings lent m' r'.2
  | 0, _, _, _, _, _, _, _, _, h => by cases h
  | fuel + 1, index, m, x, e, y, r', M, A, h => by
    rw [insertLoop] at h
    rw [insertLoop]
    have hslot := getElem?_alike M.entries index
    revert h hslot
    generalize m.entries[index]? = o
    generalize x.entries[index]? = o'
    intro h hslot
    cases hslot with
    | none => cases h
    | some hslot =>
      cases hslot with
      | none =>
        cases h
        refine ⟨_, rfl, M.capacity, ?_, ?_, M.version, set_alike M.entries (.some A) index⟩
        · exact congrArg (· + 1) M.size
        · simp only [M.maxPsl, A.psl]
      | @some f z B =>
        have hsame : f.matches strings e.key e.hash = z.matches some y.key y.hash := by
          rw [A.hash]
          exact matches_alike B.reads B.hash A.reads y.hash
        have hpoor : f.psl < e.psl ↔ z.psl < y.psl := by rw [B.psl, A.psl]
        have hnext : (index + 1) % m.capacity = (index + 1) % x.capacity := by rw [M.capacity]
        obtain ⟨same, hm, h⟩ := Option.bind_eq_some_iff.mp h
        simp only [hsame, hm, Option.bind_some, hnext]
        split at h
        · next htrue =>
          cases h
          rw [if_pos htrue]
          exact ⟨_, rfl, M.set (B.setValue A.value) index⟩
        · next hfalse =>
          rw [if_neg hfalse]
          split at h
          · next hlt =>
            rw [if_pos (hpoor.mpr hlt)]
            exact insertLoop_alike (M.set A index) B.step h
          · next hlt =>
            rw [if_neg (mt hpoor.mp hlt)]
            exact insertLoop_alike M A.step h

/-- The loops that only look. -/
theorem probe_alike (M : Mirrors strings lent m x) (hp : strings p = some k) (h : Nat) :
    ∀ left index, probe strings m p h left index = probe some x k h left index
  | 0, index => by
    rw [probe, probe]
    have hslot := getElem?_alike M.entries index
    revert hslot
    generalize m.entries[index]? = o
    generalize x.entries[index]? = o'
    rintro (_ | _) <;> rfl
  | left + 1, index => by
    rw [probe, probe]
    have hslot := getElem?_alike M.entries index
    revert hslot
    generalize m.entries[index]? = o
    generalize x.entries[index]? = o'
    intro hslot
    cases hslot with
    | none => rfl
    | some hslot =>
      cases hslot with
      | none => rfl
      | @some f z B =>
        simp only [matches_alike B.reads B.hash hp, M.capacity, probe_alike M hp h left]

theorem findSlot_alike (M : Mirrors strings lent m x) (hp : strings p = some k) :
    findSlot strings m p = findSlot some x k := by
  rw [findSlot, hp, Option.bind_some, M.maxPsl, M.capacity]
  exact probe_alike M hp _ _ _

theorem getHashmap_alike (M : Mirrors strings lent m x) (hp : strings p = some k) :
    getHashmap strings m p = getHashmap some x k := by
  rw [getHashmap, getHashmap, findSlot_alike M hp]
  refine congrArg (Option.map · _) (funext fun o => ?_)
  cases o with
  | none => rfl
  | some index =>
    show (slot m.entries index).bind (·.value) = (slot x.entries index).bind (·.value)
    have hslot := slot_alike M.entries index
    revert hslot
    generalize slot m.entries index = o
    generalize slot x.entries index = o'
    intro hslot
    cases hslot with
    | none => rfl
    | some B => rw [Option.bind_some, Option.bind_some, B.value]

theorem raiseMax_alike (M : Mirrors strings lent m x) (newMax i : Nat) :
    raiseMax m.entries newMax i = raiseMax x.entries newMax i := by
  rw [raiseMax, raiseMax]
  have hslot := slot_alike M.entries i
  revert hslot
  generalize slot m.entries i = o
  generalize slot x.entries i = o'
  intro hslot
  cases hslot with
  | none => rfl
  | some B => simp only [B.psl]

theorem Mirrors.length (M : Mirrors strings lent m x) : m.entries.length = x.entries.length :=
  M.entries.length_eq

theorem recalculateMaxPsl_alike (M : Mirrors strings lent m x) {x' : CdsaHashmap CStr V}
    (h : recalculateMaxPsl x = some x') :
    ∃ m', recalculateMaxPsl m = some m' ∧ Mirrors strings lent m' x' := by
  have hraise : raiseMax m.entries = raiseMax x.entries :=
    funext fun a => funext fun i => raiseMax_alike M a i
  unfold recalculateMaxPsl at *
  rw [M.capacity, M.length, hraise]
  split at h
  · next hle =>
    cases h
    exact ⟨_, if_pos hle, rfl, M.size, rfl, M.version, M.entries⟩
  · cases h

theorem recalculated_alike (M : Mirrors strings lent m x) {affected : Bool}
    {x' : CdsaHashmap CStr V} (h : (if affected then recalculateMaxPsl x else some x) = some x') :
    ∃ m', (if affected then recalculateMaxPsl m else some m) = some m' ∧
      Mirrors strings lent m' x' := by
  cases affected with
  | false =>
    cases h
    exact ⟨m, rfl, M⟩
  | true => exact recalculateMaxPsl_alike M h

theorem shiftLoop_alike (capacity maxPsl : Nat) : ∀ {fuel curr : Nat} {affected : Bool}
    {es : List (Option (HashEntry Ptr V))} {xs : List (Option (HashEntry CStr V))}
    {r' : List (Option (HashEntry CStr V)) × Nat × Bool},
    List.Forall₂ (Option.Rel (Alike strings lent)) es xs →
    shiftLoop capacity maxPsl fuel xs curr affected = some r' →
    ∃ es', shiftLoop capacity maxPsl fuel es curr affected = some (es', r'.2) ∧
      List.Forall₂ (Option.Rel (Alike strings lent)) es' r'.1
  | 0, _, _, _, _, _, _, h => by cases h
  | fuel + 1, curr, affected, es, xs, r', E, h => by
    rw [shiftLoop] at h
    rw [shiftLoop]
    have hslot := getElem?_alike E ((curr + 1) % capacity)
    revert h hslot
    generalize es[(curr + 1) % capacity]? = o
    generalize xs[(curr + 1) % capacity]? = o'
    intro h hslot
    cases hslot with
    | none => cases h
    | some hslot =>
      cases hslot with
      | none =>
        cases h
        exact ⟨es, rfl, E⟩
      | @some f z B =>
        simp only at h
        simp only [B.psl]
        split at h
        · next hpos =>
          rw [if_pos hpos]
          have A : Alike strings lent { f with psl := z.psl - 1 } { z with psl := z.psl - 1 } :=
            ⟨B.reads, B.lent, B.value, B.hash, rfl⟩
          exact shiftLoop_alike capacity maxPsl (set_alike E (.some A) curr) h
        · next hpos =>
          cases h
          rw [if_neg hpos]
          exact ⟨es, rfl, E⟩

/-- Other strings and other loans, the same as far as the table goes. -/
theorem Mirrors.relend (M : Mirrors strings lent m x) {strings' : Strings} {lent' : CStr → Option Ptr}
    (hlent : ∀ k ∈ keys x, lent' k = lent k)
    (hstrings : ∀ k ∈ keys x, ∀ q, lent k = some q → strings' q = strings q) :
    Mirrors strings' lent' m x := by
  refine ⟨M.capacity, M.size, M.maxPsl, M.version, alike_mono M.entries ?_⟩
  intro e y hy A
  have hk : y.key ∈ keys x := List.mem_map_of_mem hy
  exact ⟨(hstrings _ hk _ A.lent).trans A.reads, (hlent _ hk).trans A.lent, A.value, A.hash, A.psl⟩

/-! ## Inserting -/

theorem internalInsert_alike (M : Mirrors strings lent m x) {e : HashEntry Ptr V}
    {y : HashEntry CStr V} (A : Alike strings lent e y) {r' : Status × CdsaHashmap CStr V}
    (h : internalInsert some x y.key y.value y.hash = some r') :
    ∃ m', internalInsert strings m e.key e.value e.hash = some (r'.1, m') ∧
      Mirrors strings lent m' r'.2 := by
  have hindex : e.hash % m.capacity = y.hash % x.capacity := by rw [A.hash, M.capacity]
  have A0 : Alike strings lent ⟨e.key, e.value, e.hash, 0⟩ ⟨y.key, y.value, y.hash, 0⟩ :=
    ⟨A.reads, A.lent, A.value, A.hash, rfl⟩
  rw [internalInsert, hindex, M.capacity]
  exact insertLoop_alike M A0 h

/-- A stored key is met before any swap: its pointer stays. -/
theorem insertLoop_stored (M : Mirrors strings lent m x) (L : Layout x.capacity x.entries)
    {s : Nat} {f : HashEntry Ptr V} {z : HashEntry CStr V} (hf : slot m.entries s = some f)
    (hz : slot x.entries s = some z) : ∀ n index (e : HashEntry Ptr V), strings e.key = some z.key →
      e.hash = z.hash → e.psl ≤ z.psl → index = (z.hash + e.psl) % x.capacity → z.psl < n + e.psl →
      insertLoop strings n m index e =
        some (.ok, { m with entries := m.entries.set s (some { f with value := e.value }) }) := by
  intro n
  induction n with
  | zero => intro index e _ _ hle _ hlt; omega
  | succ n ih =>
    intro index e hk hh hle hidx hlt
    have hhome := L.home s z hz
    obtain ⟨y, hy, hyp⟩ := L.chain (hhome ▸ hz) (Nat.le_refl _) e.psl hle
    rw [← hidx] at hy
    have hslot := slot_alike M.entries index
    rw [hy] at hslot
    cases hg : slot m.entries index with
    | none =>
      rw [hg] at hslot
      cases hslot
    | some g =>
      rw [hg] at hslot
      cases hslot with
      | some B =>
        have hsame : g.matches strings e.key e.hash = some (decide (y.hash = z.hash ∧ y.key = z.key)) := by
          rw [hh, matches_alike B.reads B.hash hk, HashEntry.matches_eq]
        rw [insertLoop, getElem?_of_slot hg]
        simp only [hsame, Option.bind_some, decide_eq_true_eq]
        by_cases hm : y.key = z.key
        · obtain rfl : index = s := L.slot_key hy hz hm
          rw [hf] at hg
          rw [hz] at hy
          cases hg
          cases hy
          rw [if_pos ⟨rfl, rfl⟩]
        · have hne : e.psl ≠ z.psl := by
            intro he
            rw [hidx, he, ← hhome, hz] at hy
            cases hy
            exact hm rfl
          rw [if_neg fun h => hm h.2, if_neg (by rw [B.psl]; omega)]
          exact ih _ { e with psl := e.psl + 1 } hk hh (show e.psl + 1 ≤ z.psl by omega)
            (by rw [hidx, M.capacity]; exact ring_succ _ _ _) (show z.psl < n + (e.psl + 1) by omega)

/-- The loans after the key has been inserted from `p`. -/
def lend (lent : CStr → Option Ptr) (x : CdsaHashmap CStr V) (k : CStr) (p : Ptr) :
    CStr → Option Ptr :=
  if k ∈ keys x then lent else Function.update lent k (some p)

theorem internalInsert_lends (M : Mirrors strings lent m x) (R : Roomy x)
    (hp : strings p = some k) (v : Option V) :
    ∃ m' x', internalInsert strings m p v (getRawHash k) = some (.ok, m') ∧
      internalInsert some x k v (getRawHash k) = some (.ok, x') ∧
      Mirrors strings (lend lent x k p) m' x' := by
  rw [lend]
  by_cases hk : k ∈ keys x
  · rw [if_pos hk]
    obtain ⟨s, z, hz, rfl⟩ := mem_keys.mp hk
    obtain ⟨g, hg, he⟩ := R.gap
    have hpsl := R.layout.psl_lt hz hg he
    have hslot := slot_alike M.entries s
    rw [hz] at hslot
    cases hf : slot m.entries s with
    | none =>
      rw [hf] at hslot
      cases hslot
    | some f =>
      rw [hf] at hslot
      cases hslot with
      | some B =>
        have hhash := R.layout.hash_of hz
        refine ⟨_, _, ?_, internalInsert_stored R.layout hz hpsl v, M.set (B.setValue rfl) s⟩
        rw [internalInsert, ← hhash]
        apply insertLoop_stored M R.layout hf hz
        · exact hp
        · rfl
        · exact Nat.zero_le _
        · rw [M.capacity, Nat.add_zero]
        · rw [M.capacity]
          exact hpsl
  · rw [if_neg hk]
    obtain ⟨x', hx', -⟩ := internalInsert_put R k v
    have hother : ∀ j ∈ keys x, Function.update lent k (some p) j = lent j := by
      intro j hj
      apply Function.update_of_ne
      rintro rfl
      exact hk hj
    have M' : Mirrors strings (Function.update lent k (some p)) m x := M.relend hother fun _ _ _ _ => rfl
    have A : Alike strings (Function.update lent k (some p)) ⟨p, v, getRawHash k, 0⟩
        ⟨k, v, getRawHash k, 0⟩ := ⟨hp, Function.update_self .., rfl, rfl, rfl⟩
    obtain ⟨m', he, M'⟩ := internalInsert_alike M' A hx'
    exact ⟨m', x', he, hx', M'⟩

theorem reinsert_alike : ∀ {old : List (Option (HashEntry Ptr V))}
    {oldX : List (Option (HashEntry CStr V))} {m : CdsaHashmap Ptr V} {x x' : CdsaHashmap CStr V},
    List.Forall₂ (Option.Rel (Alike strings lent)) old oldX → Mirrors strings lent m x →
    reinsert some x oldX = some x' →
    ∃ m', reinsert strings m old = some m' ∧ Mirrors strings lent m' x' := by
  intro old oldX m x x' E
  induction E generalizing m x with
  | nil =>
    intro M h
    cases h
    exact ⟨m, rfl, M⟩
  | cons h0 _ ih =>
    intro M h
    cases h0 with
    | none => exact ih M h
    | some A =>
      obtain ⟨r, hr, h⟩ := Option.bind_eq_some_iff.mp h
      obtain ⟨m1, he, M1⟩ := internalInsert_alike M A hr
      obtain ⟨m', he', M'⟩ := ih M1 h
      exact ⟨m', by rw [reinsert, he, Option.bind_some, he'], M'⟩

theorem resizeHashmap_alike (M : Mirrors strings lent m x) (ok : Bool)
    {r' : Status × CdsaHashmap CStr V} (h : resizeHashmap some ok x = some r') :
    ∃ m', resizeHashmap strings ok m = some (r'.1, m') ∧ Mirrors strings lent m' r'.2 := by
  cases ok with
  | false =>
    cases h
    exact ⟨m, rfl, M⟩
  | true =>
    rw [resizeHashmap, if_pos rfl] at h
    split at h
    · next hlen =>
      obtain ⟨x1, hx1, rfl⟩ := Option.map_eq_some_iff.mp h
      have D : Mirrors strings lent (doubled m) (doubled x) := by
        refine ⟨?_, rfl, M.maxPsl, M.version, ?_⟩
        · exact congrArg (fun c => c * 2 % 2 ^ 64) M.capacity
        · show List.Forall₂ _ (callocEntries (m.capacity * 2 % 2 ^ 64)) _
          rw [M.capacity]
          exact alike_replicate _ _
      obtain ⟨m1, hm1, M1⟩ := reinsert_alike M.entries D hx1
      have hversion := congrArg (fun v => (v + 1) % 2 ^ 64) M1.version
      refine ⟨{ m1 with version := (m1.version + 1) % 2 ^ 64 }, ?_, M1.capacity, M1.size, M1.maxPsl,
        hversion, M1.entries⟩
      rw [resizeHashmap, if_pos rfl, M.capacity, M.length, if_pos hlen, hm1]
      rfl
    · cases h

theorem insertHashmap_lends (M : Mirrors strings lent m x) (I : Inv x) (hf : Fits x)
    (hp : strings p = some k) {ok : Bool} (hd : needsResize x = true → ok = true → Fits (doubled x))
    (v : Option V) :
    ∃ st m' x', insertHashmap strings ok m p v = some (st, m') ∧
      insertHashmap some ok x k v = some (st, x') ∧
      Mirrors strings (if st = .ok then lend lent x k p else lent) m' x' := by
  have hneeds : needsResize m = needsResize x := by
    rw [needsResize, needsResize, M.capacity, M.size]
  rw [insertHashmap, insertHashmap, hneeds]
  cases hr : needsResize x with
  | false =>
    obtain ⟨m', x', he, hx, M'⟩ := internalInsert_lends M I.roomy hp v
    refine ⟨.ok, m', x', ?_, hx, M'⟩
    rw [if_neg Bool.false_ne_true, hp]
    exact he
  | true =>
    rw [if_pos rfl, if_pos rfl]
    cases ok with
    | false => exact ⟨.errOom, m, x, rfl, rfl, M⟩
    | true =>
      obtain ⟨x1, hx1, R⟩ := resizeHashmap_spec I hf (hd hr rfl)
      obtain ⟨m1, hm1, M1⟩ := resizeHashmap_alike M true hx1
      obtain ⟨m', x', he, hx, M'⟩ := internalInsert_lends M1 R.inv.roomy hp v
      have hkeys : k ∈ keys x1 ↔ k ∈ keys x := by
        rw [keys_eq, keys_eq]
        exact (R.perm.map Prod.fst).mem_iff
      have hlend : lend lent x1 k p = lend lent x k p := by simp only [lend, hkeys]
      rw [hlend] at M'
      refine ⟨.ok, m', x', ?_, ?_, M'⟩
      · rw [hm1, Option.bind_some, if_pos rfl, hp]
        exact he
      · rw [hx1, Option.bind_some, if_pos rfl]
        exact hx

/-- The keys after an insertion. -/
theorem insertHashmap_keys (I : Inv x) (hf : Fits x) {ok : Bool} {v : Option V}
    (hd : needsResize x = true → ok = true → Fits (doubled x)) {st : Status} {x' : CdsaHashmap CStr V}
    (h : insertHashmap some ok x k v = some (st, x')) :
    Inv x' ∧ Fits x' ∧ ∀ j, j ∈ keys x' ↔ st = .ok ∧ j = k ∨ j ∈ keys x := by
  have hput : ∀ {y : CdsaHashmap CStr V}, Put y k v x' →
      ∀ j, j ∈ keys x' ↔ j = k ∨ j ∈ keys y := by
    intro y P j
    rw [P.keys_perm.mem_iff, List.mem_cons, List.mem_filter]
    by_cases hj : j = k <;> simp [hj]
  rcases insertHashmap_cases I hf ok k v hd with ⟨-, -, he⟩ | ⟨hr, hok, x1, x2, -, R, P, I', he⟩ |
    ⟨-, x2, P, I', he⟩
  · rw [h] at he
    cases he
    exact ⟨I, hf, fun j => by simp⟩
  · rw [h] at he
    cases he
    refine ⟨I', P.fits (R.fits hf (hd hr hok)), fun j => ?_⟩
    rw [hput P, keys_eq x1, (R.perm.map Prod.fst).mem_iff, ← keys_eq]
    simp
  · rw [h] at he
    cases he
    refine ⟨I', P.fits hf, fun j => ?_⟩
    rw [hput P]
    simp

/-! ## Removing -/

theorem removed_keys {x' : CdsaHashmap CStr V} (R : Removed x k x') {j : CStr} :
    j ∈ keys x' ↔ j ∈ keys x ∧ j ≠ k := by
  rw [keys_eq, keys_eq, (R.perm.map Prod.fst).mem_iff]
  constructor
  · intro h
    obtain ⟨q, hq, rfl⟩ := List.mem_map.mp h
    obtain ⟨hq, hne⟩ := mem_del.mp hq
    exact ⟨List.mem_map_of_mem hq, hne⟩
  · rintro ⟨h, hne⟩
    obtain ⟨q, hq, rfl⟩ := List.mem_map.mp h
    exact List.mem_map_of_mem (mem_del.mpr ⟨hq, hne⟩)

theorem removeHashmap_returns (M : Mirrors strings lent m x) (I : Inv x)
    (hp : strings p = some k) :
    ∃ st m' x', removeHashmap strings m p = some (st, m') ∧
      removeHashmap some x k = some (st, x') ∧
      Mirrors strings (if st = .ok then Function.update lent k none else lent) m' x' := by
  have hfind := findSlot_alike M hp
  rcases removeHashmap_cases I k with ⟨hn, he⟩ | ⟨⟨s, hs⟩, x', he, R⟩
  · rw [hn] at hfind
    exact ⟨.errNotFound, m, x, by rw [removeHashmap, hfind, Option.bind_some], he, M⟩
  · rw [hs] at hfind
    have hx := he
    simp only [removeHashmap, hs, Option.bind_some] at hx
    obtain ⟨r, hr, hx⟩ := Option.bind_eq_some_iff.mp hx
    obtain ⟨x1, hx1, heq⟩ := Option.map_eq_some_iff.mp hx
    obtain ⟨-, rfl⟩ := Prod.mk.inj heq
    have hpeak : ((slot m.entries s).any fun e => e.psl == m.maxPsl) =
        (slot x.entries s).any fun e => e.psl == x.maxPsl := by
      have hslot := slot_alike M.entries s
      revert hslot
      generalize slot m.entries s = o
      generalize slot x.entries s = o'
      intro hslot
      cases hslot with
      | none => rfl
      | some B => rw [Option.any_some, Option.any_some, B.psl, M.maxPsl]
    obtain ⟨es', hes, E⟩ := shiftLoop_alike x.capacity x.maxPsl M.entries hr
    have M1 : Mirrors strings lent
        { m with
          size := m.size - 1
          version := (m.version + 1) % 2 ^ 64
          entries := es'.set r.2.1 none }
        { x with
          size := x.size - 1
          version := (x.version + 1) % 2 ^ 64
          entries := r.1.set r.2.1 none } :=
      ⟨M.capacity, congrArg (· - 1) M.size, M.maxPsl,
        congrArg (fun v => (v + 1) % 2 ^ 64) M.version, set_alike E .none r.2.1⟩
    obtain ⟨m', hm', M2⟩ := recalculated_alike M1 hx1
    have hother : ∀ j ∈ keys x1, Function.update lent k none j = lent j := fun j hj =>
      Function.update_of_ne ((removed_keys R).mp hj).2 _ _
    refine ⟨.ok, m', x1, ?_, he, M2.relend hother fun _ _ _ _ => rfl⟩
    have hshift : shiftLoop m.capacity m.maxPsl m.capacity m.entries s
        ((slot m.entries s).any fun e => e.psl == m.maxPsl) = some (es', r.2) := by
      rw [hpeak, M.capacity, M.maxPsl]
      exact hes
    rw [removeHashmap, hfind, Option.bind_some]
    simp only [hshift, Option.bind_some, hm', Option.map_some]

end

/-! ## The caller's runs -/

/-- The caller's own writes are operations too: the string at `p` is changed, or
freed. -/
inductive Op (V : Type) where
  | insert (key : Ptr) (value : Option V) (ok : Bool)
  | remove (key : Ptr)
  | resize (ok : Bool)
  | get (key : Ptr)
  | write (p : Ptr) (string : Option CStr)

/-- The caller's memory and the table. -/
def step (w : Strings × CdsaHashmap Ptr V) :
    Op V → Option (Option (Out V) × (Strings × CdsaHashmap Ptr V))
  | .insert key value ok =>
    (insertHashmap w.1 ok w.2 key value).map fun r => (some (.status r.1), (w.1, r.2))
  | .remove key => (removeHashmap w.1 w.2 key).map fun r => (some (.status r.1), (w.1, r.2))
  | .resize ok => (resizeHashmap w.1 ok w.2).map fun r => (some (.status r.1), (w.1, r.2))
  | .get key => (getHashmap w.1 w.2 key).map fun v => (some (.value v), w)
  | .write p string => some (none, (Function.update w.1 p string, w.2))

/-- A map of strings, and the pointers lent. -/
structure Lender (V : Type) where
  strings : Strings
  map : CdsaHashmap CStr V
  lent : CStr → Option Ptr

namespace Lender

/-- A key is read once, when it is passed. -/
def step (a : Lender V) : Op V → Option (Option (Out V) × Lender V)
  | .insert key value ok =>
    (a.strings key).bind fun k => (insertHashmap some ok a.map k value).map fun r =>
      (some (.status r.1),
        { a with
          map := r.2
          lent := if r.1 = .ok then lend a.lent a.map k key else a.lent })
  | .remove key =>
    (a.strings key).bind fun k => (removeHashmap some a.map k).map fun r =>
      (some (.status r.1),
        { a with
          map := r.2
          lent := if r.1 = .ok then Function.update a.lent k none else a.lent })
  | .resize ok =>
    (resizeHashmap some ok a.map).map fun r => (some (.status r.1), { a with map := r.2 })
  | .get key =>
    (a.strings key).bind fun k => (getHashmap some a.map k).map fun v => (some (.value v), a)
  | .write p string => some (none, { a with strings := Function.update a.strings p string })

/-- A key that is passed can be read, a table that is granted has the slots that
were meant, and a string that is lent is left alone. -/
def Keeps (a : Lender V) : Op V → Prop
  | .insert key _ ok =>
    (a.strings key).isSome ∧ (needsResize a.map = true → ok = true → Fits (doubled a.map))
  | .remove key => (a.strings key).isSome
  | .resize ok => ok = true → Fits (doubled a.map)
  | .get key => (a.strings key).isSome
  | .write p _ => ∀ k ∈ keys a.map, a.lent k ≠ some p

instance (a : Lender V) : (op : Op V) → Decidable (a.Keeps op)
  | .insert _ _ _ => inferInstanceAs (Decidable (_ ∧ _))
  | .remove _ => inferInstanceAs (Decidable (_ = true))
  | .resize _ => inferInstanceAs (Decidable (_ → Fits (doubled a.map)))
  | .get _ => inferInstanceAs (Decidable (_ = true))
  | .write _ _ => inferInstanceAs (Decidable (∀ k ∈ keys a.map, _))

end Lender

/-- The table mirrors the map, and exactly the pointers of its keys are lent. -/
structure Borrows (w : Strings × CdsaHashmap Ptr V) (a : Lender V) : Prop where
  strings : w.1 = a.strings
  mirrors : Mirrors a.strings a.lent w.2 a.map
  inv : Inv a.map
  fits : Fits a.map
  lent : ∀ k, (a.lent k).isSome ↔ k ∈ keys a.map

section
variable {w : Strings × CdsaHashmap Ptr V} {a : Lender V}

theorem Borrows.insert (B : Borrows w a) {key : Ptr} {ok : Bool} (value : Option V)
    (hk : a.Keeps (.insert key value ok)) :
    ∃ o w' a', step w (.insert key value ok) = some (o, w') ∧
      a.step (.insert key value ok) = some (o, a') ∧ Borrows w' a' := by
  obtain ⟨hread, hd⟩ := hk
  obtain ⟨k, hk⟩ := Option.isSome_iff_exists.mp hread
  obtain ⟨st, m', x', he, hx, M'⟩ := insertHashmap_lends B.mirrors B.inv B.fits hk hd value
  obtain ⟨I', hf, hkeys⟩ := insertHashmap_keys B.inv B.fits hd hx
  refine ⟨some (.status st), (a.strings, m'),
    { a with map := x', lent := if st = .ok then lend a.lent a.map k key else a.lent },
    ?_, ?_, rfl, M', I', hf, ?_⟩
  · simp only [step, B.strings, he, Option.map_some]
  · simp only [Lender.step, hk, Option.bind_some, hx, Option.map_some]
  · intro j
    rw [hkeys]
    have hold := B.lent j
    by_cases hst : st = .ok
    · simp only [hst, if_true, true_and, lend]
      split
      · next hmem =>
        rw [hold]
        exact ⟨.inr, fun h => h.elim (fun h => h ▸ hmem) id⟩
      · by_cases hj : j = k
        · simp [hj]
        · rw [Function.update_of_ne hj, hold]
          simp [hj]
    · simp only [hst, if_false, false_and, false_or]
      exact hold

theorem Borrows.remove (B : Borrows w a) {key : Ptr} (hread : (a.strings key).isSome) :
    ∃ o w' a', step w (.remove key) = some (o, w') ∧ a.step (.remove key) = some (o, a') ∧
      Borrows w' a' := by
  obtain ⟨k, hk⟩ := Option.isSome_iff_exists.mp hread
  obtain ⟨st, m', x', he, hx, M'⟩ := removeHashmap_returns B.mirrors B.inv hk
  have hcases : Inv x' ∧ Fits x' ∧ ∀ j, j ∈ keys x' ↔
      (j ∈ keys a.map ∧ (st = .ok → j ≠ k)) := by
    rcases removeHashmap_cases B.inv k with ⟨-, h⟩ | ⟨-, x1, h, R⟩
    · rw [hx] at h
      cases h
      exact ⟨B.inv, B.fits, fun j => by simp⟩
    · rw [hx] at h
      cases h
      exact ⟨R.inv, R.fits B.fits, fun j => by rw [removed_keys R]; simp⟩
  obtain ⟨I', hf, hkeys⟩ := hcases
  refine ⟨some (.status st), (a.strings, m'),
    { a with map := x', lent := if st = .ok then Function.update a.lent k none else a.lent },
    ?_, ?_, rfl, M', I', hf, ?_⟩
  · simp only [step, B.strings, he, Option.map_some]
  · simp only [Lender.step, hk, Option.bind_some, hx, Option.map_some]
  · intro j
    rw [hkeys]
    have hold := B.lent j
    by_cases hst : st = .ok
    · by_cases hj : j = k
      · simp [hst, hj]
      · simp only [hst, if_true, Function.update_of_ne hj, hold]
        simp [hj]
    · simp [hst, hold]

theorem Borrows.step (B : Borrows w a) {op : Op V} (hk : a.Keeps op) :
    ∃ o w' a', Borrowed.step w op = some (o, w') ∧ a.step op = some (o, a') ∧ Borrows w' a' := by
  cases op with
  | insert key value ok => exact B.insert value hk
  | remove key => exact B.remove hk
  | resize ok =>
    have hr : ∃ r, resizeHashmap some ok a.map = some r ∧ Inv r.2 ∧ Fits r.2 ∧
        ∀ j, j ∈ keys r.2 ↔ j ∈ keys a.map := by
      cases ok with
      | false => exact ⟨_, rfl, B.inv, B.fits, fun _ => Iff.rfl⟩
      | true =>
        obtain ⟨x', hx, R⟩ := resizeHashmap_spec B.inv B.fits (hk rfl)
        refine ⟨_, hx, R.inv, R.fits B.fits (hk rfl), fun j => ?_⟩
        rw [keys_eq, keys_eq]
        exact (R.perm.map Prod.fst).mem_iff
    obtain ⟨r, hx, I', hf, hkeys⟩ := hr
    obtain ⟨m', he, M'⟩ := resizeHashmap_alike B.mirrors ok hx
    refine ⟨some (.status r.1), (a.strings, m'), { a with map := r.2 }, ?_, ?_, rfl, M', I', hf, ?_⟩
    · simp only [Borrowed.step, B.strings, he, Option.map_some]
    · simp only [Lender.step, hx, Option.map_some]
    · intro j
      rw [hkeys]
      exact B.lent j
  | get key =>
    obtain ⟨k, hk⟩ := Option.isSome_iff_exists.mp hk
    obtain ⟨v, hv⟩ := getHashmap_defined B.inv k
    refine ⟨some (.value v), w, a, ?_, ?_, B⟩
    · rw [Borrowed.step, B.strings, getHashmap_alike B.mirrors hk, hv, Option.map_some]
    · rw [Lender.step, hk, Option.bind_some, hv, Option.map_some]
  | write p string =>
    refine ⟨none, (Function.update w.1 p string, w.2),
      { a with strings := Function.update a.strings p string }, rfl, rfl, ?_, ?_, B.inv, B.fits, B.lent⟩
    · exact congrArg (Function.update · p string) B.strings
    · apply B.mirrors.relend fun _ _ => rfl
      intro k hmem q hq
      apply Function.update_of_ne
      rintro rfl
      exact hk k hmem hq

end

/-- The pointers in the table. -/
def held (m : CdsaHashmap Ptr V) : List Ptr := (live m.entries).map HashEntry.key

theorem Borrows.mem_held {w : Strings × CdsaHashmap Ptr V} {a : Lender V} (B : Borrows w a) {p : Ptr} :
    p ∈ held w.2 ↔ ∃ k, a.lent k = some p := by
  have hmap : (live w.2.entries).map (fun e => some e.key) =
      (live a.map.entries).map fun y => a.lent y.key := by
    rw [← List.forall₂_eq_eq_eq, List.forall₂_map_left_iff, List.forall₂_map_right_iff]
    exact (live_alike B.mirrors.entries).imp fun _ _ A => A.lent.symm
  constructor
  · intro h
    obtain ⟨e, he, rfl⟩ := List.mem_map.mp h
    have hmem : some e.key ∈ (live a.map.entries).map fun y => a.lent y.key :=
      hmap ▸ List.mem_map_of_mem (f := fun e => some e.key) he
    obtain ⟨y, -, hy⟩ := List.mem_map.mp hmem
    exact ⟨y.key, hy⟩
  · rintro ⟨k, hk⟩
    have hstored := (B.lent k).mp (Option.isSome_iff_exists.mpr ⟨p, hk⟩)
    obtain ⟨y, hy, rfl⟩ := List.mem_map.mp hstored
    have hmem : some p ∈ (live w.2.entries).map fun e => some e.key := by
      rw [hmap, ← hk]
      exact List.mem_map_of_mem (f := fun y => a.lent y.key) hy
    obtain ⟨e, he, hp⟩ := List.mem_map.mp hmem
    exact List.mem_map.mpr ⟨e, he, Option.some.inj hp⟩

theorem create_borrows {capacity : Nat} {m : CdsaHashmap Ptr V} {x : CdsaHashmap CStr V}
    (hm : cdsaCreateHashmap true true capacity = some m)
    (hx : cdsaCreateHashmap true true capacity = some x) (hf : Fits x) (strings : Strings) :
    Borrows (strings, m) ⟨strings, x, fun _ => none⟩ := by
  obtain ⟨I, hp, -⟩ := cdsaCreateHashmap_inv hx hf
  cases hm
  cases hx
  refine ⟨rfl, ⟨rfl, rfl, rfl, rfl, alike_replicate _ _⟩, I, hf, fun k => ?_⟩
  rw [keys_eq, hp]
  simp

/-- In every run of a caller that leaves alone what is lent, with tables that do
not wrap, the table of pointers answers as a map of strings, and the pointers in
it are those lent. -/
theorem borrowed_keys (capacity : Nat) (m : CdsaHashmap Ptr V) (x : CdsaHashmap CStr V)
    (hm : cdsaCreateHashmap true true capacity = some m)
    (hx : cdsaCreateHashmap true true capacity = some x) (hf : Fits x) (strings : Strings)
    (ops : List (Op V)) (hk : RunMeets Lender.step Lender.Keeps ⟨strings, x, fun _ => none⟩ ops) :
    ∃ outs w a, runOps step (strings, m) ops = some (outs, w) ∧
      runOps Lender.step ⟨strings, x, fun _ => none⟩ ops = some (outs, a) ∧
      ∀ p, p ∈ held w.2 ↔ ∃ k, a.lent k = some p := by
  have hsim : ∀ (w : Strings × CdsaHashmap Ptr V) (a : Lender V) (op : Op V), Borrows w a → a.Keeps op →
      ∃ o w' a', step w op = some (o, w') ∧ a.step op = some (o, a') ∧ Borrows w' a' :=
    fun _ _ _ B hk => B.step hk
  obtain ⟨outs, w, a, hw, ha, B⟩ := sim_run hsim ops _ _ (create_borrows hm hx hf strings) hk
  exact ⟨outs, w, a, hw, ha, fun p => B.mem_held⟩

/-- The key "a" from buffer 1, then from buffer 2, which is freed: buffer 1 is
still lent. -/
def twoBuffers : List (Op Nat) :=
  [.write 1 (some (.ofArray [97])), .write 2 (some (.ofArray [97])), .insert 1 (some 5) true,
    .insert 2 (some 6) true, .write 2 none, .write 3 (some (.ofArray [97])), .get 3]

theorem borrowed_keys_two : ∃ w, runOps step (fun _ => none, ⟨4, 0, 0, 0, [none, none, none, none]⟩)
    twoBuffers = some ([none, none, some (.status .ok), some (.status .ok), none, none,
      some (.value (some 6))], w) ∧ 1 ∈ held w.2 := by
  obtain ⟨outs, w, a, hw, ha, hheld⟩ := borrowed_keys (V := Nat) 4
    ⟨4, 0, 0, 0, [none, none, none, none]⟩ ⟨4, 0, 0, 0, [none, none, none, none]⟩ rfl rfl
    (by decide) (fun _ => none) twoBuffers (RunMeets.of_check (p := fun a op => decide (a.Keeps op))
      (fun _ _ h => of_decide_eq_true h) (by decide))
  have hrun : (runOps Lender.step (⟨fun _ => none, ⟨4, 0, 0, 0, [none, none, none, none]⟩,
      fun _ => none⟩ : Lender Nat) twoBuffers).map (fun r => (r.1, r.2.lent ⟨[97], by decide⟩)) =
      some ([none, none, some (.status .ok), some (.status .ok), none, none,
        some (.value (some 6))], some 1) := by
    decide
  rw [ha] at hrun
  obtain ⟨rfl, hlent⟩ := Prod.mk.inj (Option.some.inj hrun)
  exact ⟨w, hw, (hheld 1).mpr ⟨_, hlent⟩⟩

/-- To change a string that is lent is to lose the key. -/
example : (runOps step (fun _ => none, ⟨4, 0, 0, 0, [none, none, none, none]⟩)
    [.write 1 (some ⟨[97], by decide⟩), .write 2 (some ⟨[97], by decide⟩), .insert 1 (some 5) true,
      .write 1 (some ⟨[98], by decide⟩), .get 2]).map (·.1) =
    some [none, none, some (.status .ok), none, some (.value none)] := by
  decide

end Cdsa.Borrowed
