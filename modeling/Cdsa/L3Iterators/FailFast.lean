import Cdsa.L2Vector.Stack
import Cdsa.L2Vector.Iterate
import Cdsa.L2Priority.Queue

/-!
# Vector iterators under mutation

A vector is mutated directly, as the vector of a stack, or as that of a priority
queue, in any order with the calls of one iterator. Each operation that changes
the number of elements gives the vector a new version, except those that empty
it: so the iterator fails fast throughout a run exactly if no clearing of a
vector that is not empty comes first (`vector_fails_fast_iff`).
-/
namespace Cdsa.Iterators

open Cdsa.Core Cdsa.Raw Cdsa.Vector

/-! ## The priority queue's sifting leaves the shape -/

section
open Cdsa.Priority

variable {pq pq' : CdsaPriorityQueue} {temp temp' : List UInt8}

theorem swapThrough_sameShape {i j : Nat} (h : swapThrough pq temp i j = some (pq', temp')) :
    SameShape pq.data pq'.data := by
  obtain ⟨_, -, h⟩ := Option.bind_eq_some_iff.mp h
  obtain ⟨_, -, h⟩ := Option.bind_eq_some_iff.mp h
  obtain ⟨_, -, h⟩ := Option.bind_eq_some_iff.mp h
  obtain ⟨r, h1, h⟩ := Option.bind_eq_some_iff.mp h
  obtain ⟨_, -, h⟩ := Option.bind_eq_some_iff.mp h
  obtain ⟨r', h2, he⟩ := Option.map_eq_some_iff.mp h
  cases he
  exact (setVector_sameShape h1).trans (setVector_sameShape h2)

theorem siftUpLoop_sameShape : ∀ {fuel : Nat} {pq : CdsaPriorityQueue} {temp : List UInt8}
    {index : Nat}, siftUpLoop fuel pq temp index = some pq' → SameShape pq.data pq'.data := by
  intro fuel
  induction fuel with
  | zero => intro pq temp index h; cases h
  | succ fuel ih =>
    intro pq temp index h
    unfold siftUpLoop at h
    split at h
    · obtain ⟨_, -, h⟩ := Option.bind_eq_some_iff.mp h
      obtain ⟨_, -, h⟩ := Option.bind_eq_some_iff.mp h
      split at h
      · obtain ⟨r, hs, h⟩ := Option.bind_eq_some_iff.mp h
        exact (swapThrough_sameShape hs).trans (ih h)
      · cases h
        exact .refl _
    · cases h
      exact .refl _

theorem siftUp_sameShape {scratch : Grant} {index : Nat} {s : Status}
    (h : siftUp scratch pq index = some (s, pq')) : SameShape pq.data pq'.data := by
  unfold siftUp at h
  split at h
  · cases h
    exact .refl _
  · obtain ⟨r, -, h⟩ := Option.bind_eq_some_iff.mp h
    cases r with
    | none =>
      cases h
      exact .refl _
    | some temp =>
      obtain ⟨pq1, hl, he⟩ := Option.map_eq_some_iff.mp h
      cases he
      exact siftUpLoop_sameShape hl

theorem siftDownLoop_sameShape : ∀ {fuel : Nat} {pq : CdsaPriorityQueue} {temp : List UInt8}
    {size index : Nat}, siftDownLoop fuel pq temp size index = some pq' →
      SameShape pq.data pq'.data := by
  intro fuel
  induction fuel with
  | zero => intro pq temp size index h; cases h
  | succ fuel ih =>
    intro pq temp size index h
    obtain ⟨_, -, h⟩ := Option.bind_eq_some_iff.mp h
    obtain ⟨_, -, h⟩ := Option.bind_eq_some_iff.mp h
    split at h
    · obtain ⟨r, hs, h⟩ := Option.bind_eq_some_iff.mp h
      exact (swapThrough_sameShape hs).trans (ih h)
    · cases h
      exact .refl _

theorem siftDown_sameShape {scratch : Grant} {index : Nat} {s : Status}
    (h : siftDown scratch pq index = some (s, pq')) : SameShape pq.data pq'.data := by
  obtain ⟨r, -, h⟩ := Option.bind_eq_some_iff.mp h
  cases r with
  | none =>
    cases h
    exact .refl _
  | some temp =>
    obtain ⟨pq1, hl, he⟩ := Option.map_eq_some_iff.mp h
    cases he
    exact siftDownLoop_sameShape hl

/-- The new element is in the vector whether or not it could be sifted. -/
theorem cdsaPushPq_cases {growth scratch : Grant} {elem : List UInt8} {s : Status}
    (h : cdsaPushPq growth scratch pq elem = some (s, pq')) :
    (Counted pq.data pq'.data ∧ pq'.data.size < 2 ^ 64) ∨ SameShape pq.data pq'.data := by
  obtain ⟨⟨s1, data⟩, hp, h⟩ := Option.bind_eq_some_iff.mp h
  rcases cdsaPushVector_cases hp with ⟨rfl, hc, hlt⟩ | ⟨rfl, hs⟩
  · have hsame : SameShape data pq'.data := siftUp_sameShape h
    exact .inl ⟨hc.trans hsame, hsame.size ▸ hlt⟩
  · cases h
    exact .inr hs

/-- The first element is out of the vector whether or not the rest could be
sifted. -/
theorem cdsaPopPq_cases {scratch : Grant} {s : Status} {out : Option (List UInt8)}
    (h : cdsaPopPq scratch pq = some (s, out, pq')) :
    (Counted pq.data pq'.data ∧ pq'.data.size < pq.data.size) ∨ SameShape pq.data pq'.data := by
  unfold cdsaPopPq at h
  split at h
  · cases h
    exact .inr (.refl _)
  · next h0 =>
    obtain ⟨_, -, h⟩ := Option.bind_eq_some_iff.mp h
    obtain ⟨_, -, h⟩ := Option.bind_eq_some_iff.mp h
    obtain ⟨⟨s1, v1⟩, hset, h⟩ := Option.bind_eq_some_iff.mp h
    have hsame : SameShape pq.data v1 := setVector_sameShape hset
    obtain ⟨hc, hlt⟩ : Counted v1 (cdsaPopVector v1).2 ∧ (cdsaPopVector v1).2.size < v1.size := by
      rcases cdsaPopVector_cases v1 with ⟨-, hc⟩ | ⟨hs, -⟩
      · exact hc
      · rw [cdsaPopVector, if_neg (hsame.size ▸ h0)] at hs
        cases hs
    rw [hsame.size] at hlt
    have hc := hsame.trans_counted hc
    simp only at h
    split at h
    · obtain ⟨⟨s2, pq2⟩, hd, he⟩ := Option.map_eq_some_iff.mp h
      cases he
      have hd : SameShape (cdsaPopVector v1).2 pq2.data := siftDown_sameShape hd
      exact .inl ⟨hc.trans hd, hd.size ▸ hlt⟩
    · cases h
      exact .inl ⟨hc, hlt⟩

end

/-! ## Mutators -/

/-- An operation on the vector, or through a wrapper around it. -/
inductive Mutator (es : Nat) where
  | vector (op : Vector.Op es)
  | stack (op : Stack.Op es)
  | queue (cmp : List UInt8 → List UInt8 → Bool) (op : Priority.Op es)

variable {es : Nat}

def Mutator.run (v : CdsaVector) : Mutator es → Option CdsaVector
  | .vector op => (Vector.step v op).map fun r => r.2
  | .stack op => (Stack.step ⟨v⟩ op).map fun r => r.2.vec
  | .queue cmp op => (Priority.step ⟨v, v.elemSize, cmp⟩ op).map fun r => r.2.data

def Mutator.Clears : Mutator es → Prop
  | .vector .clear => True
  | .stack .clear => True
  | .queue _ .clear => True
  | _ => False

instance (m : Mutator es) : Decidable m.Clears := by
  unfold Mutator.Clears
  split <;> infer_instance

/-- A mutation is a change of the number of elements. -/
def vectorCursor (es : Nat) :
    CursorApi CdsaVector CdsaVectorIterator (Mutator es) (Status × Option Nat) Nat where
  mutate v m := (m.run v).map fun v' => (decide (v'.size ≠ v.size), v')
  hasNext := cdsaHasNextVector
  next v iter := some (cdsaNextVector v iter)
  value := Prod.snd
  version := CdsaVector.version
  snapshot := CdsaVectorIterator.snapshotVersion
  wrap := 2 ^ 64

theorem Mutator.clear_eq {m : Mutator es} (h : m.Clears) (v : CdsaVector) :
    m.run v = some (cdsaClearVector v) := by
  unfold Mutator.Clears at h
  split at h <;> first | rfl | exact h.elim

/-- A step that does not clear the vector keeps its shape, or counts. -/
theorem step_cases {op : Vector.Op es} (hop : op ≠ .clear) {v v' : CdsaVector} {o : Out}
    (h : Vector.step v op = some (o, v')) :
    (Counted v v' ∧ (v.size < 2 ^ 64 → v'.size < 2 ^ 64)) ∨ SameShape v v' := by
  cases op with
  | push g elem =>
    obtain ⟨⟨s, v2⟩, hp, he⟩ := Option.map_eq_some_iff.mp h
    cases he
    rcases cdsaPushVector_cases hp with ⟨-, hc, hlt⟩ | ⟨-, hs⟩
    · exact .inl ⟨hc, fun _ => hlt⟩
    · exact .inr hs
  | pop =>
    cases h
    rcases cdsaPopVector_cases v with ⟨-, hc, hlt⟩ | ⟨-, he⟩
    · exact .inl ⟨hc, fun hv => by omega⟩
    · exact .inr (he.symm ▸ .refl v)
  | set i elem =>
    obtain ⟨⟨s, v2⟩, hset, he⟩ := Option.map_eq_some_iff.mp h
    cases he
    exact .inr (setVector_sameShape hset)
  | get i =>
    unfold Vector.step at h
    simp only at h
    split at h
    · cases h
      exact .inr (.refl v)
    · obtain ⟨bytes, -, he⟩ := Option.map_eq_some_iff.mp h
      cases he
      exact .inr (.refl v)
  | clear => exact absurd rfl hop

theorem Mutator.run_cases {m : Mutator es} {v v' : CdsaVector} (hm : ¬ m.Clears)
    (h : m.run v = some v') :
    (Counted v v' ∧ (v.size < 2 ^ 64 → v'.size < 2 ^ 64)) ∨ SameShape v v' := by
  cases m with
  | vector op =>
    obtain ⟨⟨o, v1⟩, hs, rfl⟩ := Option.map_eq_some_iff.mp h
    refine step_cases (fun hop => hm ?_) hs
    rw [hop]
    trivial
  | stack op =>
    obtain ⟨⟨o, st⟩, hs, rfl⟩ := Option.map_eq_some_iff.mp h
    rw [Stack.step_vector] at hs
    obtain ⟨⟨o1, v1⟩, hv, he⟩ := Option.map_eq_some_iff.mp hs
    cases he
    refine step_cases (fun hop => hm ?_) hv
    cases op with
    | clear => trivial
    | push => cases hop
    | pop => cases hop
    | top => cases hop
  | queue cmp op =>
    obtain ⟨⟨o, pq⟩, hs, rfl⟩ := Option.map_eq_some_iff.mp h
    cases op with
    | push growth scratch elem =>
      obtain ⟨⟨s, pq'⟩, hp, he⟩ := Option.map_eq_some_iff.mp hs
      cases he
      rcases cdsaPushPq_cases hp with ⟨hc, hlt⟩ | hsame
      · exact .inl ⟨hc, fun _ => hlt⟩
      · exact .inr hsame
    | pop scratch =>
      obtain ⟨⟨s, out, pq'⟩, hp, he⟩ := Option.map_eq_some_iff.mp hs
      cases he
      rcases cdsaPopPq_cases hp with ⟨hc, hlt⟩ | hsame
      · exact .inl ⟨hc, fun hv => by simp only at hlt hv ⊢; omega⟩
      · exact .inr hsame
    | peek =>
      obtain ⟨r, -, he⟩ := Option.map_eq_some_iff.mp hs
      cases he
      exact .inr (.refl v)
    | clear => exact absurd trivial hm

/-! ## One iterator -/

variable {s s' : Session CdsaVector CdsaVectorIterator Nat}

/-- While the number of elements is the one it was, the iterator has yielded the
first elements in order and yields the next one, if there is one; from the first
change on it reports it. -/
structure VectorFailsFast (s : Session CdsaVector CdsaVectorIterator Nat) : Prop where
  walks : s.mutations = 0 →
    s.yielded.map some = (List.range s.yielded.length).map (getVector s.cont) ∧
    cdsaHasNextVector s.cont s.iter = decide (s.yielded.length < s.cont.size) ∧
    (cdsaNextVector s.cont s.iter).1 = yields (getVector s.cont s.yielded.length)
  refuses : 0 < s.mutations → cdsaHasNextVector s.cont s.iter = false ∧
    cdsaNextVector s.cont s.iter = ((.errIterInvalidated, none), s.iter)

/-- No clearing of a vector that is not empty is the first change. -/
def CountedFirst (s : Session CdsaVector CdsaVectorIterator Nat) : CursorEv (Mutator es) → Prop
  | .mutate m => m.Clears → s.cont.size ≠ 0 → 0 < s.mutations
  | _ => True

instance (s : Session CdsaVector CdsaVectorIterator Nat) (ev : CursorEv (Mutator es)) :
    Decidable (CountedFirst s ev) := by
  unfold CountedFirst
  split <;> infer_instance

/-- The event leaves fewer than 2^64 mutations. -/
def Few (s : Session CdsaVector CdsaVectorIterator Nat) (ev : CursorEv (Mutator es)) : Prop :=
  ∀ o s', (vectorCursor es).step s ev = some (o, s') → s'.mutations < 2 ^ 64

/-- No change has gone uncounted for lack of an earlier one: `bumps` of the
mutations have given the vector a new version. -/
structure Guarded (s : Session CdsaVector CdsaVectorIterator Nat) : Prop where
  few : s.mutations < 2 ^ 64
  sized : s.cont.size < 2 ^ 64
  fresh : s.mutations = 0 → s.cont.version = s.iter.snapshotVersion ∧
    s.iter.currentIndex = s.yielded.length ∧
    s.yielded.map some = (List.range s.yielded.length).map (getVector s.cont)
  bumped : 0 < s.mutations → ∃ bumps, 0 < bumps ∧ bumps ≤ s.mutations ∧
    s.cont.version = (s.iter.snapshotVersion + bumps) % 2 ^ 64

theorem getVector_sameShape {v v' : CdsaVector} (h : SameShape v v') : getVector v' = getVector v := by
  funext i
  unfold getVector
  rw [h.size, h.elemSize]

namespace Guarded

theorem stale (G : Guarded s) (hpos : 0 < s.mutations) :
    s.cont.version ≠ s.iter.snapshotVersion := by
  obtain ⟨bumps, hb, hle, hv⟩ := G.bumped hpos
  rw [hv]
  exact add_mod_ne hb (Nat.lt_of_le_of_lt hle G.few)

theorem failsFast (G : Guarded s) : VectorFailsFast s where
  walks h0 := by
    obtain ⟨hv, hi, hy⟩ := G.fresh h0
    refine ⟨hy, ?_, ?_⟩
    · rw [cdsaHasNextVector_fresh hv, hi]
    · rw [(cdsaNextVector_fresh hv G.sized).1, hi]
  refuses hpos := ⟨cdsaHasNextVector_stale (G.stale hpos), cdsaNextVector_stale (G.stale hpos)⟩

theorem sameShape (G : Guarded s) {v : CdsaVector} (h : SameShape s.cont v) :
    Guarded { s with cont := v } where
  few := G.few
  sized := h.size ▸ G.sized
  fresh h0 := by
    obtain ⟨hv, hi, hy⟩ := G.fresh h0
    exact ⟨h.version.trans hv, hi, by rw [getVector_sameShape h]; exact hy⟩
  bumped hpos := by
    obtain ⟨bumps, hb, hle, hv⟩ := G.bumped hpos
    exact ⟨bumps, hb, hle, h.version.trans hv⟩

/-- A change that gives the vector a new version. -/
theorem counted (G : Guarded s) {v : CdsaVector} (h : Counted s.cont v) (hs : v.size < 2 ^ 64)
    (hfew : s.mutations + 1 < 2 ^ 64) :
    Guarded { s with cont := v, mutations := s.mutations + 1 } where
  few := hfew
  sized := hs
  fresh h0 := absurd h0 (Nat.succ_ne_zero _)
  bumped _ := by
    rcases Nat.eq_zero_or_pos s.mutations with h0 | hpos
    · exact ⟨1, Nat.one_pos, Nat.le_add_left _ _, by rw [h.version, (G.fresh h0).1]⟩
    · obtain ⟨bumps, hb, hle, hv⟩ := G.bumped hpos
      refine ⟨bumps + 1, Nat.succ_pos _, Nat.succ_le_succ hle, ?_⟩
      rw [h.version, hv, Nat.mod_add_mod, Nat.add_assoc]

/-- A clearing after another change. -/
theorem cleared (G : Guarded s) (hpos : 0 < s.mutations) (hfew : s.mutations + 1 < 2 ^ 64) :
    Guarded { s with cont := cdsaClearVector s.cont, mutations := s.mutations + 1 } where
  few := hfew
  sized := show 0 < 2 ^ 64 by decide
  fresh h0 := absurd h0 (Nat.succ_ne_zero _)
  bumped _ := by
    obtain ⟨bumps, hb, hle, hv⟩ := G.bumped hpos
    exact ⟨bumps, hb, Nat.le_succ_of_le hle, hv⟩

theorem mutate (G : Guarded s) {m : Mutator es} {o : CursorAns (Status × Option Nat)}
    (h : (vectorCursor es).step s (.mutate m) = some (o, s')) (hfew : s'.mutations < 2 ^ 64)
    (hq : CountedFirst s (.mutate m)) : Guarded s' := by
  obtain ⟨⟨changed, v⟩, hm, he⟩ := Option.map_eq_some_iff.mp h
  cases he
  obtain ⟨v', hr, he⟩ := Option.map_eq_some_iff.mp hm
  cases he
  by_cases hc : m.Clears
  · rw [Mutator.clear_eq hc] at hr
    cases hr
    by_cases h0 : s.cont.size = 0
    · have hsame : SameShape s.cont (cdsaClearVector s.cont) := ⟨h0.symm, rfl, rfl⟩
      have hsize : (cdsaClearVector s.cont).size = s.cont.size := hsame.size
      simp only [hsize, ne_eq, not_true, decide_false, Bool.false_eq_true, if_false]
      exact G.sameShape hsame
    · have hsize : (cdsaClearVector s.cont).size ≠ s.cont.size := Ne.symm h0
      simp only [hsize, ne_eq, not_false_eq_true, decide_true, if_true] at hfew ⊢
      exact G.cleared (hq hc h0) hfew
  · rcases Mutator.run_cases hc hr with ⟨hcount, hlt⟩ | hsame
    · simp only [hcount.size_ne, ne_eq, not_false_eq_true, decide_true, if_true] at hfew ⊢
      exact G.counted hcount (hlt G.sized) hfew
    · simp only [hsame.size, ne_eq, not_true, decide_false, Bool.false_eq_true, if_false]
      exact G.sameShape hsame

theorem next (G : Guarded s) {o : CursorAns (Status × Option Nat)}
    (h : (vectorCursor es).step s .next = some (o, s')) : Guarded s' := by
  cases h
  have hval : (vectorCursor es).value (cdsaNextVector s.cont s.iter).1 =
    (cdsaNextVector s.cont s.iter).1.2 := rfl
  simp only [hval]
  rcases Nat.eq_zero_or_pos s.mutations with h0 | hpos
  · obtain ⟨hv, hi, hy⟩ := G.fresh h0
    obtain ⟨hn, hsnap, hindex⟩ := cdsaNextVector_fresh hv G.sized
    rw [hi] at hn hindex
    refine ⟨G.few, G.sized, fun _ => ⟨hv.trans hsnap.symm, ?_, ?_⟩,
      fun hpos => absurd h0 (Nat.ne_of_gt hpos)⟩
    · rw [hn, yields_snd, hindex, List.length_append]
    · rw [hn, yields_snd]
      cases hg : getVector s.cont s.yielded.length with
      | none => simpa using hy
      | some p =>
        rw [Option.toList_some, List.map_append, hy, List.length_append, List.length_singleton,
          List.range_succ, List.map_append, List.map_singleton, List.map_singleton, hg]
  · rw [cdsaNextVector_stale (G.stale hpos)]
    simp only [Option.toList_none, List.append_nil]
    exact G

theorem step (G : Guarded s) {ev : CursorEv (Mutator es)} {o : CursorAns (Status × Option Nat)}
    (h : (vectorCursor es).step s ev = some (o, s')) (hfew : s'.mutations < 2 ^ 64)
    (hq : CountedFirst s ev) : Guarded s' := by
  cases ev with
  | mutate m => exact G.mutate h hfew hq
  | hasNext => cases h; exact G
  | next => exact G.next h

/-- An event leaves an iterator that fails fast exactly if it is no clearing
that comes first. -/
theorem failsFast_iff (G : Guarded s) {ev : CursorEv (Mutator es)} (hfew : Few s ev) :
    (∀ o s', (vectorCursor es).step s ev = some (o, s') → VectorFailsFast s') ↔
      CountedFirst s ev := by
  constructor
  · intro hall
    cases ev with
    | mutate m =>
      intro hc h0
      by_contra hpos
      have hzero : s.mutations = 0 := Nat.eq_zero_of_not_pos hpos
      have hsize : (cdsaClearVector s.cont).size ≠ s.cont.size := Ne.symm h0
      have hstep : (vectorCursor es).step s (.mutate m) = some (.mutated true,
          { s with cont := cdsaClearVector s.cont, mutations := s.mutations + 1 }) := by
        simp only [CursorApi.step, vectorCursor, Mutator.clear_eq hc, Option.map_some, hsize, ne_eq,
          not_false_eq_true, decide_true, if_true]
      have hrefuses : cdsaNextVector (cdsaClearVector s.cont) s.iter =
          ((.errIterInvalidated, none), s.iter) := ((hall _ _ hstep).refuses (Nat.succ_pos _)).2
      -- the version is the one of the snapshot still
      have hv : (cdsaClearVector s.cont).version = s.iter.snapshotVersion := (G.fresh hzero).1
      have hn := (cdsaNextVector_fresh hv (show 0 < 2 ^ 64 by decide)).1
      have hend : getVector (cdsaClearVector s.cont) s.iter.currentIndex = none := if_pos (Nat.zero_le _)
      rw [hrefuses, hend] at hn
      cases hn
    | _ => trivial
  · intro hq o s' h
    exact (G.step h (hfew o s' h) hq).failsFast

end Guarded

/-- In every interleaving on one iterator, the iterator fails fast in each state
reached exactly if no clearing of a vector that is not empty is the first change
of the number of elements. -/
theorem vector_fails_fast_iff {es : Nat} (v : CdsaVector) (hv : v.size < 2 ^ 64) (self : Malloc)
    (iter : CdsaVectorIterator) (hc : cdsaCreateVectorIterator self v = some (some iter))
    (evs : List (CursorEv (Mutator es)))
    (hfew : RunMeets (vectorCursor es).step Few ⟨v, iter, 0, []⟩ evs) :
    RunMeets (vectorCursor es).step (fun s ev => ∀ o s', (vectorCursor es).step s ev = some (o, s') →
      VectorFailsFast s') ⟨v, iter, 0, []⟩ evs ↔
    RunMeets (vectorCursor es).step CountedFirst ⟨v, iter, 0, []⟩ evs := by
  obtain ⟨r, -, hc⟩ := Option.map_eq_some_iff.mp hc
  obtain ⟨_, -, rfl⟩ := Option.map_eq_some_iff.mp hc
  have hstart : Guarded ⟨v, ⟨0, v.version⟩, 0, []⟩ :=
    ⟨show 0 < 2 ^ 64 by decide, hv, fun _ => ⟨rfl, rfl, rfl⟩, fun h => absurd h (Nat.lt_irrefl 0)⟩
  have hiff : RunMeets (vectorCursor es).step (fun s ev => Few s ev ∧
      ∀ o s', (vectorCursor es).step s ev = some (o, s') → VectorFailsFast s') _ evs ↔
      RunMeets (vectorCursor es).step (fun s ev => Few s ev ∧ CountedFirst s ev) _ evs :=
    runMeets_iff (I := Guarded) (fun s ev G => and_congr_right fun hf => G.failsFast_iff hf)
      (fun s ev o s' G ⟨hf, hq⟩ h => G.step h (hf o s' h) hq) evs _ hstart
  rw [runMeets_and, runMeets_and] at hiff
  exact ⟨fun h => (hiff.mp ⟨hfew, h⟩).2, fun h => (hiff.mpr ⟨hfew, h⟩).2⟩

/-- `Few` and `CountedFirst` at once, for a test. -/
def countsFirst (s : Session CdsaVector CdsaVectorIterator Nat) (ev : CursorEv (Mutator es)) : Bool :=
  s.mutations + 1 < 2 ^ 64 && CountedFirst s ev

theorem countsFirst_few (s : Session CdsaVector CdsaVectorIterator Nat)
    (ev : CursorEv (Mutator es)) (h : countsFirst s ev = true) : Few s ev := by
  intro o s' hs
  rw [countsFirst, Bool.and_eq_true] at h
  have hlt := of_decide_eq_true h.1
  cases ev with
  | mutate m =>
    obtain ⟨r, -, he⟩ := Option.map_eq_some_iff.mp hs
    cases he
    show (if r.1 then s.mutations + 1 else s.mutations) < 2 ^ 64
    split <;> omega
  | hasNext => cases hs; omega
  | next => cases hs; show s.mutations < 2 ^ 64; omega

theorem countsFirst_counted (s : Session CdsaVector CdsaVectorIterator Nat)
    (ev : CursorEv (Mutator es)) (h : countsFirst s ev = true) : CountedFirst s ev := by
  rw [countsFirst, Bool.and_eq_true] at h
  exact of_decide_eq_true h.2

/-- A vector of the bytes 5 and 7, with room for two more. -/
def twoBytesVector : CdsaVector := ⟨[5, 7, 0, 0], 2, 4, 1, 9⟩

/-- A step of the iterator, a pop through the stack, a clearing through the
priority queue. -/
theorem vector_fails_fast_iff_two :
    RunMeets (vectorCursor 1).step (fun s ev => ∀ o s', (vectorCursor 1).step s ev = some (o, s') →
      VectorFailsFast s') ⟨twoBytesVector, ⟨0, 9⟩, 0, []⟩
      [.next, .mutate (.stack .pop), .mutate (.queue (fun a b => decide (a < b)) .clear), .next] := by
  have hcheck : runCheck (vectorCursor 1).step countsFirst ⟨twoBytesVector, ⟨0, 9⟩, 0, []⟩
      [.next, .mutate (.stack .pop), .mutate (.queue (fun a b => decide (a < b)) .clear), .next] =
        true := by
    decide +kernel
  exact (vector_fails_fast_iff twoBytesVector (by decide) (cdsaMallocTrack .zeros) ⟨0, 9⟩ rfl _
    (.of_check countsFirst_few hcheck)).mpr (.of_check countsFirst_counted hcheck)

/-- The vector is emptied under its iterator, which takes that for the end. -/
theorem cleared_not_found :
    ((runOps (vectorCursor 1).step ⟨twoBytesVector, ⟨0, 9⟩, 0, []⟩
      [.next, .mutate (.vector .clear), .next]).map Prod.fst =
        some [.answer (.ok, some 0), .mutated true, .answer (.errNotFound, none)]) ∧
    ¬ RunMeets (vectorCursor 1).step (fun s ev => ∀ o s', (vectorCursor 1).step s ev = some (o, s') →
      VectorFailsFast s') ⟨twoBytesVector, ⟨0, 9⟩, 0, []⟩
      [.next, .mutate (.vector .clear), .next] := by
  refine ⟨rfl, fun hfast => ?_⟩
  have hafter := ((hfast.2 _ _ rfl).1 _ _ rfl).refuses (by decide)
  exact absurd hafter.2 (by decide)

end Cdsa.Iterators
