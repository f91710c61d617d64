import Cdsa.Core.Cursor
import Cdsa.L2Ring.Deque

/-!
# The iterator of the ring buffer

The cursor is a distance from the head, and pops and pushes at the front move
the head. `next` tests the version before it computes a slot. What is said here
holds of any state of the buffer, also where `capacity * elem_size` has
wrapped: the elements are what a reader finds in the slots (`Presents`).
-/
namespace Cdsa.Ring

open Cdsa.Core Cdsa.Raw Cdsa.Vector

variable {es : Nat}

/-- What is read at distance `i` from the head. -/
def elementAt (rb : CdsaRingbuffer) (i : Nat) : Option (List UInt8) :=
  (modChk ((rb.head + i) % 2 ^ 64) rb.capacity).bind fun slot =>
    readAt rb.data (slot * rb.elemSize % 2 ^ 64) rb.elemSize

/-- The elements read, from front to back, are `l`. -/
structure Presents (rb : CdsaRingbuffer) (l : List (List UInt8)) : Prop where
  size : rb.size = l.length
  elements : ∀ i (h : i < l.length), elementAt rb i = some l[i]

/-- A buffer in order presents its elements. -/
theorem Inv.presents {rb : CdsaRingbuffer} {l : List (Elem es)} (I : Inv rb l) :
    Presents rb (l.map Subtype.val) where
  size := by rw [List.length_map, I.size]
  elements i h := by
    rw [List.length_map] at h
    have hc := I.capacity_pos (Or.inr (List.ne_nil_of_length_pos (by omega)))
    have h2 := I.twice
    have hh := I.head hc
    have hs := I.size
    have hle := I.size_le
    unfold elementAt modChk
    rw [if_neg (by omega), Option.bind_some, Nat.mod_eq_of_lt (show rb.head + i < 2 ^ 64 by omega),
      I.deref h, List.getElem_map]

/-- `cdsa_next_ringbuffer(iter, &p)`, and the bytes at `p` if it was stored. -/
def readNext (rb : CdsaRingbuffer) (iter : CdsaRingbufferIterator) :
    Option ((Status × Option (List UInt8)) × CdsaRingbufferIterator) :=
  (cdsaNextRingbuffer rb iter).bind fun r =>
    match r.2.1 with
    | none => some ((r.1, none), r.2.2)
    | some off => (readAt rb.data off rb.elemSize).map fun bytes => ((r.1, some bytes), r.2.2)

/-- An operation on the buffer, or on a queue or deque around it. -/
inductive Mutator (es : Nat) where
  | ring (op : Op es)
  | queue (op : QueueOp es)
  | deque (op : Op es)

def mutate (rb : CdsaRingbuffer) : Mutator es → Option (Bool × CdsaRingbuffer)
  | .ring op => (step rb op).map fun r => (r.1 = .status .ok, r.2)
  | .queue op => (queueStep ⟨rb⟩ op).map fun r => (r.1 = .status .ok, r.2.rb)
  | .deque op => (dequeStep ⟨rb⟩ op).map fun r => (r.1 = .status .ok, r.2.rb)

def Mutator.toOp : Mutator es → Op es
  | .ring op | .deque op => op
  | .queue op => op.toOp

theorem mutate_eq (rb : CdsaRingbuffer) (m : Mutator es) :
    mutate rb m = (step rb m.toOp).map fun r => (decide (r.1 = .status .ok), r.2) := by
  cases m with
  | ring op => rfl
  | queue op =>
    unfold mutate Mutator.toOp
    simp only [queueStep_eq, Option.map_map]
    rfl
  | deque op =>
    unfold mutate Mutator.toOp
    simp only [dequeStep_eq, Option.map_map]
    rfl

def ringbufferCursor (es : Nat) : CursorApi CdsaRingbuffer CdsaRingbufferIterator (Mutator es)
    (Status × Option (List UInt8)) (List UInt8) where
  mutate
  hasNext := cdsaHasNextRingbuffer
  next := readNext
  value := Prod.snd
  version := CdsaRingbuffer.version
  snapshot := CdsaRingbufferIterator.snapshotVersion
  wrap := 2 ^ 64

section
variable {rb rb' : CdsaRingbuffer} {iter : CdsaRingbufferIterator}

theorem cdsaHasNextRingbuffer_stale (h : rb.version ≠ iter.snapshotVersion) :
    cdsaHasNextRingbuffer rb iter = false := if_pos h

/-- Under another version no slot is computed and nothing stored. -/
theorem cdsaNextRingbuffer_stale (h : rb.version ≠ iter.snapshotVersion) :
    cdsaNextRingbuffer rb iter = some (.errIterInvalidated, none, iter) := if_pos h

theorem readNext_stale (h : rb.version ≠ iter.snapshotVersion) :
    readNext rb iter = some ((.errIterInvalidated, none), iter) := by
  rw [readNext, cdsaNextRingbuffer_stale h]
  rfl

end

/-- The cursor is before the elements `rest`. -/
def Before (rb : CdsaRingbuffer) (iter : CdsaRingbufferIterator) (rest : List (List UInt8)) : Prop :=
  ∃ l, Presents rb l ∧ iter.progress ≤ l.length ∧ rest = l.drop iter.progress

theorem Before.next {rb : CdsaRingbuffer} {iter : CdsaRingbufferIterator}
    {rest : List (List UInt8)} (h : Before rb iter rest) (hv : rb.version = iter.snapshotVersion) :
    cdsaHasNextRingbuffer rb iter = !rest.isEmpty ∧
      ∃ iter', readNext rb iter = some (yields rest.head?, iter') ∧ Before rb iter' rest.tail ∧
        iter'.snapshotVersion = iter.snapshotVersion := by
  obtain ⟨l, P, hle, rfl⟩ := h
  have hhas : cdsaHasNextRingbuffer rb iter = decide (iter.progress < l.length) := by
    unfold cdsaHasNextRingbuffer
    rw [if_neg (not_not_intro hv), P.size]
  unfold readNext cdsaNextRingbuffer
  rw [hhas, if_neg (not_not_intro hv)]
  rcases Nat.lt_or_eq_of_le hle with hlt | heq
  · have hread := P.elements iter.progress hlt
    unfold elementAt at hread
    obtain ⟨slot, hslot, hread⟩ := Option.bind_eq_some_iff.mp hread
    rw [List.drop_eq_getElem_cons hlt]
    refine ⟨decide_eq_true hlt, { iter with progress := iter.progress + 1 }, ?_, ?_, rfl⟩
    · simp only [hlt, decide_true, if_true, hslot, Option.map_some, Option.bind_some, hread]
      rfl
    · exact ⟨l, P, hlt, rfl⟩
  · have hnil : l.drop iter.progress = [] := List.drop_eq_nil_of_le (by omega)
    rw [hnil]
    refine ⟨by rw [heq]; simp, iter, ?_, ⟨l, P, hle, hnil.symm⟩, rfl⟩
    simp only [heq, Nat.lt_irrefl, decide_false, Bool.false_eq_true, if_false, Option.bind_some]
    rfl

theorem ringbufferCursor_lawful (es : Nat) :
    (ringbufferCursor es).Lawful (fun _ => True) Before yields where
  value_give := yields_snd
  fetch h hv := h.next hv
  stale h := ⟨cdsaHasNextRingbuffer_stale h, _, readNext_stale h, rfl⟩
  changed _ h := by
    have h := (mutate_eq _ _).symm.trans h
    obtain ⟨⟨o, rb'⟩, hs, he⟩ := Option.map_eq_some_iff.mp h
    simp only [Prod.mk.injEq, decide_eq_true_eq] at he
    obtain ⟨rfl, rfl⟩ := he
    rcases step_version hs with ⟨-, hv⟩ | ⟨ho, -⟩
    · exact ⟨trivial, hv⟩
    · exact absurd rfl ho
  unchanged _ h := by
    have h := (mutate_eq _ _).symm.trans h
    obtain ⟨⟨o, rb'⟩, hs, he⟩ := Option.map_eq_some_iff.mp h
    simp only [Prod.mk.injEq, decide_eq_false_iff_not] at he
    obtain ⟨ho, rfl⟩ := he
    rcases step_version hs with ⟨hok, -⟩ | ⟨-, rfl⟩
    · exact absurd hok ho
    · exact ⟨trivial, rfl, fun _ _ hb => hb⟩

/-- What holds of an iterator in use that was created when the elements were
`l`. -/
structure Snapshot (l : List (List UInt8))
    (s : Session CdsaRingbuffer CdsaRingbufferIterator (List UInt8)) : Prop where
  /-- before a mutator has succeeded: the elements of `l` in order, each once,
  then the end -/
  walks : s.mutations = 0 → ∃ rest, l = s.yielded ++ rest ∧
    cdsaHasNextRingbuffer s.cont s.iter = !rest.isEmpty ∧
    ∃ iter', readNext s.cont s.iter = some (yields rest.head?, iter')
  /-- after that: an error, wherever the head and the slots are, and nothing
  stored -/
  refuses : 0 < s.mutations → cdsaHasNextRingbuffer s.cont s.iter = false ∧
    ∀ rb : CdsaRingbuffer, rb.version = s.cont.version →
      cdsaNextRingbuffer rb s.iter = some (.errIterInvalidated, none, s.iter)

/-- Over every run on an iterator created on any buffer. -/
theorem iterator_snapshot {rb : CdsaRingbuffer} {l : List (List UInt8)} (P : Presents rb l)
    {evs : List (CursorEv (Mutator es))} {as : List (CursorAns (Status × Option (List UInt8)))}
    {s : Session CdsaRingbuffer CdsaRingbufferIterator (List UInt8)}
    (he : runOps (ringbufferCursor es).step ⟨rb, cdsaCreateRingbufferIterator rb, 0, []⟩ evs =
      some (as, s)) (hfew : s.mutations < 2 ^ 64) : Snapshot l s := by
  have hlaw := ringbufferCursor_lawful es
  have hb : Before rb (cdsaCreateRingbufferIterator rb) l := ⟨l, P, Nat.zero_le _, rfl⟩
  have hinv := Session.Inv.run hlaw (.start (M := ringbufferCursor es) trivial rfl hb) he hfew
  refine ⟨fun h0 => hinv.walks hlaw h0, fun hpos => ?_⟩
  have hne := hinv.version_ne hpos hfew
  exact ⟨cdsaHasNextRingbuffer_stale hne, fun rb' hv => cdsaNextRingbuffer_stale (by rw [hv]; exact hne)⟩

/-- On a buffer that a run from a fresh one has come to, the iterator walks over
the elements of the list that it answers as. -/
theorem reached_snapshot {self : Malloc} {block : Grant} {capacity : Nat}
    (hfit : capacity * es + 8 < 2 ^ 64) (htwice : 2 * capacity < 2 ^ 64) {rb : CdsaRingbuffer}
    (hc : cdsaCreateRingbuffer self (cdsaMallocTrack block) capacity es = some (some rb))
    (ops : List (Op es)) :
    ∃ outs rb', runOps step rb ops = some (outs, rb') ∧
      ∀ (evs : List (CursorEv (Mutator es))) (as : List (CursorAns (Status × Option (List UInt8))))
        (s : Session CdsaRingbuffer CdsaRingbufferIterator (List UInt8)),
      runOps (ringbufferCursor es).step ⟨rb', cdsaCreateRingbufferIterator rb', 0, []⟩ evs =
        some (as, s) → s.mutations < 2 ^ 64 →
      Snapshot ((specRun (astep capacity) [] ops).2.map Subtype.val) s := by
  obtain ⟨I, rfl⟩ := cdsaCreateRingbuffer_inv hfit htwice hc
  obtain ⟨rb', hr, I', -⟩ := run_refines ops rb [] I
  exact ⟨_, rb', hr, fun evs as s he hfew => iterator_snapshot I'.presents he hfew⟩

/-- On a buffer in order every event returns, and keeps it in order. -/
theorem Inv.event {s : Session CdsaRingbuffer CdsaRingbufferIterator (List UInt8)}
    {l : List (List UInt8)} {l' : List (Elem es)} (I : Inv s.cont l') (h : Snapshot l s)
    (ev : CursorEv (Mutator es)) :
    ∃ o s' l'', (ringbufferCursor es).step s ev = some (o, s') ∧ Inv s'.cont (l'' : List (Elem es)) := by
  cases ev with
  | mutate m =>
    obtain ⟨rb', hs, I', -⟩ := I.step m.toOp
    have hm : mutate s.cont m = some (decide ((astep s.cont.capacity l' m.toOp).1 = .status .ok), rb') := by
      rw [mutate_eq, hs, Option.map_some]
    exact ⟨_, _, _, congrArg (Option.map _) hm, I'⟩
  | hasNext => exact ⟨_, _, l', rfl, I⟩
  | next =>
    rcases Nat.eq_zero_or_pos s.mutations with h0 | hpos
    · obtain ⟨rest, -, -, i, hn⟩ := h.walks h0
      exact ⟨_, _, l', congrArg (Option.map _) hn, I⟩
    · have hn : readNext s.cont s.iter = some ((.errIterInvalidated, none), s.iter) := by
        rw [readNext, (h.refuses hpos).2 s.cont rfl]
        rfl
      exact ⟨_, _, l', congrArg (Option.map _) hn, I⟩

end Cdsa.Ring
