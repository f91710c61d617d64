import Cdsa.L2Linkedlist.Iterate
import Cdsa.L2Ring.Iterate

/-!
# Iterators that are snapshots

Linked list and ring buffer count up their version with every mutation, and
their iterators test it first. Both are instances of `Cdsa.Core.CursorApi`; what
follows for a caller, in every interleaving, is put together here
(`snapshot_or_error`).
-/
namespace Cdsa.Iterators

open Cdsa.Core Cdsa.Memory Cdsa.Vector

/-- The buffer stays in order. -/
theorem ring_kept {es : Nat} {evs : List (CursorEv (Ring.Mutator es))}
    {as : List (CursorAns (Status × Option (List UInt8)))}
    {s s' : Session Ring.CdsaRingbuffer Ring.CdsaRingbufferIterator (List UInt8)}
    (h : ∃ l : List (Elem es), Ring.Inv s.cont l)
    (he : runOps (Ring.ringbufferCursor es).step s evs = some (as, s')) :
    ∃ l : List (Elem es), Ring.Inv s'.cont l := by
  refine runOps_inv (I := fun s => ∃ l : List (Elem es), Ring.Inv s.cont l) (P := fun _ _ => True)
    (fun s ev o s' ⟨l, I⟩ _ h => ?_) evs s as s' h (RunMeets.of_forall fun _ _ => trivial) he
  cases ev with
  | mutate m =>
    obtain ⟨⟨ok, rb⟩, hm, he⟩ := Option.map_eq_some_iff.mp h
    cases he
    obtain ⟨rb', hs, I', -⟩ := I.step m.toOp
    have hm := (Ring.mutate_eq _ _).symm.trans hm
    rw [hs] at hm
    cases hm
    exact ⟨_, I'⟩
  | hasNext =>
    cases h
    exact ⟨l, I⟩
  | next =>
    obtain ⟨r, -, he⟩ := Option.map_eq_some_iff.mp h
    cases he
    exact ⟨l, I⟩

/-- On every linked list that a run reaches and on every ring buffer, whatever
the order of mutators and iterator calls: the elements present at creation,
until a mutator succeeds, and an error from then on. -/
theorem snapshot_or_error :
    (∀ (base : UInt64) (bs : List (Ptr × Nat)) (h0 : Linkedlist.Store) (es : Nat)
      (list : Linkedlist.CdsaLinkedlist) (h1 : Linkedlist.Store), Owns base bs h0.mem →
      Linkedlist.cdsaCreateLinkedlist es h0 = (some list, h1) →
      ∀ (ops : List (Linkedlist.Mutator es)) (outs : List Bool)
        (w : Linkedlist.CdsaLinkedlist × Linkedlist.Store),
      runOps Linkedlist.mutate (list, h1) ops = some (outs, w) →
      ∀ (iter : Linkedlist.CdsaLinkedlistIterator) (h2 : Linkedlist.Store),
      Linkedlist.cdsaCreateLinkedlistIterator w.1 w.2 = (some iter, h2) →
      ∀ (evs : List (CursorEv (Linkedlist.Mutator es)))
        (as : List (CursorAns (Status × Option (List UInt8))))
        (s : Session (Linkedlist.CdsaLinkedlist × Linkedlist.Store)
          Linkedlist.CdsaLinkedlistIterator (List UInt8)),
      runOps (Linkedlist.linkedlistCursor es).step ⟨(w.1, h2), iter, 0, []⟩ evs = some (as, s) →
      s.mutations < 2 ^ 64 →
      ∃ l, Linkedlist.contents w = some l ∧ Linkedlist.Snapshot es l s) ∧
    (∀ (es : Nat) (rb : Ring.CdsaRingbuffer) (l : List (List UInt8)), Ring.Presents rb l →
      ∀ (evs : List (CursorEv (Ring.Mutator es)))
        (as : List (CursorAns (Status × Option (List UInt8))))
        (s : Session Ring.CdsaRingbuffer Ring.CdsaRingbufferIterator (List UInt8)),
      runOps (Ring.ringbufferCursor es).step ⟨rb, Ring.cdsaCreateRingbufferIterator rb, 0, []⟩ evs =
        some (as, s) →
      s.mutations < 2 ^ 64 →
      Ring.Snapshot l s ∧ ∀ l' : List (Elem es), Ring.Inv rb l' →
        ∀ ev, ∃ r, (Ring.ringbufferCursor es).step s ev = some r) := by
  constructor
  · intro base bs h0 es list h1 O hc ops outs w hr iter h2 hi evs as s he hfew
    obtain ⟨hes, H⟩ := Linkedlist.cdsaCreateLinkedlist_holds O hc
    have K : Linkedlist.Kept es w := runOps_inv (P := fun _ _ => True)
      (fun w op ok w' K _ h => (K.mutated h).1) ops _ _ _ ⟨hes, base, bs, [], H⟩
      (RunMeets.of_forall fun _ _ => trivial) hr
    exact Linkedlist.iterator_snapshot K hi he hfew
  · intro es rb l P evs as s he hfew
    have hsnap := Ring.iterator_snapshot P he hfew
    refine ⟨hsnap, fun l' I ev => ?_⟩
    obtain ⟨l2, I2⟩ := ring_kept ⟨l', I⟩ he
    obtain ⟨o, s', l3, hs, -⟩ := I2.event hsnap ev
    exact ⟨_, hs⟩

/-- A list for elements of one byte. -/
def noBytes : Option Linkedlist.CdsaLinkedlist × Linkedlist.Store :=
  Linkedlist.cdsaCreateLinkedlist 1 ⟨fun _ => none, fun _ => none, 0, [], 0, fun _ => true⟩

/-- A list of the bytes 2 and 1, and an iterator on it. -/
def twoBytes : Option ((Linkedlist.CdsaLinkedlist × Linkedlist.Store) ×
    Linkedlist.CdsaLinkedlistIterator × Linkedlist.Store) :=
  noBytes.1.bind fun list =>
    (runOps (@Linkedlist.mutate 1) (list, noBytes.2)
      [.pushFront (some ⟨[1], rfl⟩), .pushFront (some ⟨[2], rfl⟩)]).bind fun q =>
        (Linkedlist.cdsaCreateLinkedlistIterator q.2.1 q.2.2).1.map fun iter =>
          (q.2, iter, (Linkedlist.cdsaCreateLinkedlistIterator q.2.1 q.2.2).2)

/-- A full buffer of the bytes 1 and 2, wrapped around. -/
def fullRing : Ring.CdsaRingbuffer := ⟨[2, 1], 1, 1, 2, 2, 1, 3⟩

theorem fullRing_presents : Ring.Presents fullRing [[1], [2]] where
  size := rfl
  elements := by decide

set_option synthInstance.maxSize 1000 in
/-- Both iterators yield one element; the list is cleared, and the buffer pushed
to in vain and popped from. -/
theorem snapshot_or_error_two :
    (∃ w iter h2 s l, twoBytes = some (w, iter, h2) ∧
      runOps (Linkedlist.linkedlistCursor 1).step ⟨(w.1, h2), iter, 0, []⟩
        [.next, .mutate .clear, .hasNext, .next] =
        some ([.answer (.ok, some [2]), .mutated true, .flag false,
          .answer (.errIterInvalidated, none)], s) ∧
      Linkedlist.contents w = some l ∧ Linkedlist.Snapshot 1 l s) ∧
    ∃ s, runOps (Ring.ringbufferCursor 1).step
        ⟨fullRing, Ring.cdsaCreateRingbufferIterator fullRing, 0, []⟩
        [.mutate (.queue (.enqueue ⟨[3], rfl⟩)), .next, .mutate (.deque .popFront), .next] =
        some ([.mutated false, .answer (.ok, some [1]), .mutated true,
          .answer (.errIterInvalidated, none)], s) ∧ Ring.Snapshot [[1], [2]] s := by
  constructor
  · have hrun : (twoBytes.bind fun r =>
        (runOps (Linkedlist.linkedlistCursor 1).step ⟨(r.1.1, r.2.2), r.2.1, 0, []⟩
          [.next, .mutate .clear, .hasNext, .next]).map fun q => (q.1, q.2.mutations)) =
        some ([.answer (.ok, some [2]), .mutated true, .flag false,
          .answer (.errIterInvalidated, none)], 1) := by
      decide +kernel
    obtain ⟨⟨w, iter, h2⟩, hw, hrun⟩ := Option.bind_eq_some_iff.mp hrun
    obtain ⟨⟨as, s⟩, hs, he⟩ := Option.map_eq_some_iff.mp hrun
    simp only [Prod.mk.injEq] at he
    obtain ⟨rfl, hmut⟩ := he
    obtain ⟨list, hc, hw'⟩ := Option.bind_eq_some_iff.mp hw
    obtain ⟨⟨outs, w'⟩, hr, hw'⟩ := Option.bind_eq_some_iff.mp hw'
    obtain ⟨iter', hi, he⟩ := Option.map_eq_some_iff.mp hw'
    cases he
    obtain ⟨l, hl, hsnap⟩ := snapshot_or_error.1 0 [] ⟨fun _ => none, fun _ => none, 0, [], 0,
      fun _ => true⟩ 1 list _ ⟨.nil, List.nodup_nil, fun _ hb => (nomatch hb), rfl⟩
      (Prod.ext hc rfl) _ outs _ hr _ _ (Prod.ext hi rfl) _ _ s hs (by omega)
    exact ⟨_, _, _, s, l, hw, hs, hl, hsnap⟩
  · have hrun : ((runOps (Ring.ringbufferCursor 1).step
        ⟨fullRing, Ring.cdsaCreateRingbufferIterator fullRing, 0, []⟩
        [.mutate (.queue (.enqueue ⟨[3], rfl⟩)), .next, .mutate (.deque .popFront), .next]).map
          fun q => (q.1, q.2.mutations)) =
        some ([.mutated false, .answer (.ok, some [1]), .mutated true,
          .answer (.errIterInvalidated, none)], 1) := by
      decide +kernel
    obtain ⟨⟨as, s⟩, hs, he⟩ := Option.map_eq_some_iff.mp hrun
    simp only [Prod.mk.injEq] at he
    obtain ⟨rfl, hmut⟩ := he
    exact ⟨s, hs, (snapshot_or_error.2 1 fullRing _ fullRing_presents _ _ s hs (by omega)).1⟩

end Cdsa.Iterators
