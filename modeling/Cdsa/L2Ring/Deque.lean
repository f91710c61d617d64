import Cdsa.Core.LTS
import Cdsa.L2Ring.Ringbuffer

/-!
# The ring buffer as a bounded double-ended queue

`astep capacity` is what the component is for: a list of at most `capacity`
elements, with pushes and pops at either end. In every run the ring buffer
answers as that list does (`bounded_deque`), and so do the queue and the deque,
which hand their operations on to it. No run divides by zero or leaves the
block, also for capacity 0.

The block is asked for with its header. Where both are no `size_t` it is shorter
than the slots, although the product of capacity and element size may be one
(`bounded_deque_wraps`).
-/
namespace Cdsa.Ring

open Cdsa.Core Cdsa.Raw Cdsa.Vector

variable {es : Nat}

inductive Op (es : Nat) where
  | pushBack (e : Elem es)
  | pushFront (e : Elem es)
  | popBack
  | popFront
  | front
  | back
  | size
  | isEmpty
  | isFull
  | iterate

inductive Out where
  | status (s : Status)
  | elem (bytes : Option (List UInt8))
  | size (n : Nat)
  | flag (b : Bool)
  | elems (l : List (List UInt8))
  deriving DecidableEq

/-- What the caller reads through a pointer into the block. -/
def deref (rb : CdsaRingbuffer) : Option Nat → Option (Option (List UInt8))
  | none => some none
  | some off => (readAt rb.data off rb.elemSize).map some

/-- `while (cdsa_has_next_ringbuffer(iter)) cdsa_next_ringbuffer(iter, &p);`
with fuel: the elements read through `p`. -/
def readAll (rb : CdsaRingbuffer) : Nat → CdsaRingbufferIterator → Option (List (List UInt8))
  | 0, _ => none
  | fuel + 1, iter =>
    if cdsaHasNextRingbuffer rb iter then
      (cdsaNextRingbuffer rb iter).bind fun
        | (.ok, some off, iter) =>
          (readAt rb.data off rb.elemSize).bind fun x => (readAll rb fuel iter).map (x :: ·)
        | _ => none
    else some []

def step (rb : CdsaRingbuffer) : Op es → Option (Out × CdsaRingbuffer)
  | .pushBack e => (cdsaPushBackRingbuffer rb e.1).map fun r => (.status r.1, r.2)
  | .pushFront e => (cdsaPushFrontRingbuffer rb e.1).map fun r => (.status r.1, r.2)
  | .popBack => (cdsaPopBackRingbuffer rb).map fun r => (.status r.1, r.2)
  | .popFront => (cdsaPopFrontRingbuffer rb).map fun r => (.status r.1, r.2)
  | .front => (deref rb (cdsaFrontRingbuffer rb)).map fun x => (.elem x, rb)
  | .back => (cdsaBackRingbuffer rb).bind fun p => (deref rb p).map fun x => (.elem x, rb)
  | .size => some (.size (cdsaSizeRingbuffer rb), rb)
  | .isEmpty => some (.flag (cdsaIsEmptyRingbuffer rb), rb)
  | .isFull => some (.flag (cdsaIsFullRingbuffer rb), rb)
  | .iterate =>
    (readAll rb (cdsaSizeRingbuffer rb + 1) (cdsaCreateRingbufferIterator rb)).map fun l =>
      (.elems l, rb)

/-- The abstract machine: at most `capacity` elements, from front to back. -/
def astep (capacity : Nat) (l : List (Elem es)) : Op es → Out × List (Elem es)
  | .pushBack e => if l.length = capacity then (.status .errFull, l) else (.status .ok, l ++ [e])
  | .pushFront e => if l.length = capacity then (.status .errFull, l) else (.status .ok, e :: l)
  | .popBack => if l = [] then (.status .errEmpty, l) else (.status .ok, l.dropLast)
  | .popFront => if l = [] then (.status .errEmpty, l) else (.status .ok, l.tail)
  | .front => (.elem (l.head?.map Subtype.val), l)
  | .back => (.elem (l.getLast?.map Subtype.val), l)
  | .size => (.size l.length, l)
  | .isEmpty => (.flag l.isEmpty, l)
  | .isFull => (.flag (l.length = capacity), l)
  | .iterate => (.elems (l.map Subtype.val), l)

/-! ## Reading -/

section
variable {rb : CdsaRingbuffer} {l : List (Elem es)}

/-- The element at distance `i` from the head, read through its slot. -/
theorem Inv.deref (I : Inv rb l) {i : Nat} (hi : i < l.length) :
    readAt rb.data ((rb.head + i) % rb.capacity * rb.elemSize % 2 ^ 64) rb.elemSize =
      some l[i].1 := by
  have hc := I.capacity_pos (Or.inr (List.ne_nil_of_length_pos (by omega)))
  rw [(I.slot (Nat.mod_lt _ hc)).1, I.elemSize]
  exact I.cells i hi

theorem Inv.front (I : Inv rb l) :
    Ring.deref rb (cdsaFrontRingbuffer rb) = some (l.head?.map Subtype.val) := by
  unfold cdsaFrontRingbuffer
  rw [I.isEmpty]
  cases l with
  | nil => rfl
  | cons e l =>
    have hc := I.capacity_pos (Or.inr (List.cons_ne_nil e l))
    have h := I.deref (i := 0) (by simp)
    rw [Nat.add_zero, Nat.mod_eq_of_lt (I.head hc)] at h
    show (readAt rb.data (rb.head * rb.elemSize % 2 ^ 64) rb.elemSize).map some = _
    rw [h]; rfl

theorem Inv.back (I : Inv rb l) :
    ∃ p, cdsaBackRingbuffer rb = some p ∧ Ring.deref rb p = some (l.getLast?.map Subtype.val) := by
  unfold cdsaBackRingbuffer
  rw [I.isEmpty]
  rcases List.eq_nil_or_concat l with rfl | ⟨l, e, rfl⟩
  · exact ⟨none, rfl, rfl⟩
  · rw [List.concat_eq_append] at *
    have hc := I.capacity_pos (Or.inr (by simp))
    have hs : rb.size = l.length + 1 := I.size.trans (by simp)
    have hback : (rb.tail + (rb.capacity - 1)) % rb.capacity = (rb.head + l.length) % rb.capacity := by
      rw [I.tail hc, hs, ring_back _ _ hc]
    have h := I.deref (i := l.length) (by simp)
    rw [List.getElem_concat_length rfl, ← hback] at h
    refine ⟨_, by rw [if_neg (by simp), I.stepBack hc (I.tail_lt hc), Option.map_some], ?_⟩
    show (readAt rb.data _ rb.elemSize).map some = _
    rw [h]; simp

/-- The iterator, from any progress on. -/
theorem Inv.readAll (I : Inv rb l) : ∀ fuel k, k ≤ l.length → l.length - k < fuel →
    readAll rb fuel ⟨k, rb.version⟩ = some ((l.drop k).map Subtype.val) := by
  intro fuel
  induction fuel with
  | zero => intro k _ h; omega
  | succ fuel ih =>
    intro k hk hf
    have hs := I.size
    unfold Ring.readAll cdsaHasNextRingbuffer
    rcases Nat.lt_or_eq_of_le hk with hlt | rfl
    · have hc := I.capacity_pos (Or.inr (List.ne_nil_of_length_pos (by omega)))
      have h2 := I.twice
      have hh := I.head hc
      have hle := I.size_le
      have hnext : cdsaNextRingbuffer rb ⟨k, rb.version⟩ = some (.ok,
          some ((rb.head + k) % rb.capacity * rb.elemSize % 2 ^ 64), ⟨k + 1, rb.version⟩) := by
        unfold cdsaNextRingbuffer cdsaHasNextRingbuffer modChk
        simp only [ne_eq, not_true_eq_false, if_false, hs, hlt, decide_true, if_true,
          Nat.mod_eq_of_lt (show rb.head + k < 2 ^ 64 by omega), if_neg (show ¬ rb.capacity = 0 by omega),
          Option.map_some]
      simp only [ne_eq, not_true_eq_false, if_false, hs, hlt, decide_true, if_true, hnext,
        Option.bind_some, I.deref hlt, ih (k + 1) hlt (by omega), Option.map_some]
      rw [List.drop_eq_getElem_cons hlt, List.map_cons]
    · simp [hs]

/-- One operation against the abstract machine. -/
theorem Inv.step (I : Inv rb l) (op : Op es) :
    ∃ rb', Ring.step rb op = some ((astep rb.capacity l op).1, rb') ∧
      Inv rb' (astep rb.capacity l op).2 ∧ rb'.capacity = rb.capacity := by
  cases op with
  | pushBack e =>
    by_cases hl : l.length = rb.capacity
    · exact ⟨rb, by simp [Ring.step, astep, cdsaPushBackRingbuffer, I.isFull, hl],
        by simpa [astep, hl] using I, rfl⟩
    · obtain ⟨rb', he, I', hc⟩ := I.pushBack e hl
      exact ⟨rb', by simp [Ring.step, astep, he, hl], by simpa [astep, hl] using I', hc⟩
  | pushFront e =>
    by_cases hl : l.length = rb.capacity
    · exact ⟨rb, by simp [Ring.step, astep, cdsaPushFrontRingbuffer, I.isFull, hl],
        by simpa [astep, hl] using I, rfl⟩
    · obtain ⟨rb', he, I', hc⟩ := I.pushFront e hl
      exact ⟨rb', by simp [Ring.step, astep, he, hl], by simpa [astep, hl] using I', hc⟩
  | popBack =>
    rcases List.eq_nil_or_concat l with rfl | ⟨l, e, rfl⟩
    · exact ⟨rb, by simp [Ring.step, astep, cdsaPopBackRingbuffer, I.isEmpty], I, rfl⟩
    · rw [List.concat_eq_append] at *
      obtain ⟨rb', he, I', hc⟩ := I.popBack
      exact ⟨rb', by simp [Ring.step, astep, he], by simpa [astep] using I', hc⟩
  | popFront =>
    cases l with
    | nil => exact ⟨rb, by simp [Ring.step, astep, cdsaPopFrontRingbuffer, I.isEmpty], I, rfl⟩
    | cons e l =>
      obtain ⟨rb', he, I', hc⟩ := I.popFront
      exact ⟨rb', by simp [Ring.step, astep, he], by simpa [astep] using I', hc⟩
  | front => exact ⟨rb, by simp [Ring.step, astep, I.front], I, rfl⟩
  | back =>
    obtain ⟨p, hp, hd⟩ := I.back
    exact ⟨rb, by simp [Ring.step, astep, hp, hd], I, rfl⟩
  | size => exact ⟨rb, by simp [Ring.step, astep, cdsaSizeRingbuffer, I.size], I, rfl⟩
  | isEmpty => exact ⟨rb, by simp [Ring.step, astep, I.isEmpty], I, rfl⟩
  | isFull => exact ⟨rb, by simp [Ring.step, astep, I.isFull], I, rfl⟩
  | iterate =>
    have h := I.readAll (rb.size + 1) 0 (Nat.zero_le _) (by rw [I.size]; omega)
    exact ⟨rb, by simp [Ring.step, astep, cdsaSizeRingbuffer, cdsaCreateRingbufferIterator, h], I, rfl⟩

end

/-! ## Queue and deque -/

/-- mirrors src/queue.c:8-10 -/
structure CdsaQueue where
  rb : CdsaRingbuffer

/-- mirrors src/queue.c:12-26 -/
def cdsaCreateQueue (queue self data : Malloc) (capacity elemSize : Nat) :
    Option (Option CdsaQueue) :=
  (queue 8).bind fun
    | none => some none
    | some _ => (cdsaCreateRingbuffer self data capacity elemSize).map fun r => r.map fun rb => ⟨rb⟩

/-- mirrors src/queue.c:36-42 -/
def cdsaEnqueue (q : CdsaQueue) (elem : List UInt8) : Option (Status × CdsaQueue) :=
  (cdsaPushBackRingbuffer q.rb elem).map fun r => (r.1, ⟨r.2⟩)

/-- mirrors src/queue.c:44-50 -/
def cdsaDequeue (q : CdsaQueue) : Option (Status × CdsaQueue) :=
  (cdsaPopFrontRingbuffer q.rb).map fun r => (r.1, ⟨r.2⟩)

/-- mirrors src/queue.c:52-56 -/
def cdsaFrontQueue (q : CdsaQueue) : Option Nat := cdsaFrontRingbuffer q.rb

/-- mirrors src/queue.c:60-64 -/
def cdsaSizeQueue (q : CdsaQueue) : Nat := cdsaSizeRingbuffer q.rb

/-- mirrors src/queue.c:66-70 -/
def cdsaIsEmptyQueue (q : CdsaQueue) : Bool := cdsaIsEmptyRingbuffer q.rb

/-- mirrors src/queue.c:72-76 -/
def cdsaIsFullQueue (q : CdsaQueue) : Bool := cdsaIsFullRingbuffer q.rb

inductive QueueOp (es : Nat) where
  | enqueue (e : Elem es)
  | dequeue
  | front
  | size
  | isEmpty
  | isFull
  | iterate

def queueStep (q : CdsaQueue) : QueueOp es → Option (Out × CdsaQueue)
  | .enqueue e => (cdsaEnqueue q e.1).map fun r => (.status r.1, r.2)
  | .dequeue => (cdsaDequeue q).map fun r => (.status r.1, r.2)
  | .front => (deref q.rb (cdsaFrontQueue q)).map fun x => (.elem x, q)
  | .size => some (.size (cdsaSizeQueue q), q)
  | .isEmpty => some (.flag (cdsaIsEmptyQueue q), q)
  | .isFull => some (.flag (cdsaIsFullQueue q), q)
  | .iterate =>
    (readAll q.rb (cdsaSizeQueue q + 1) (cdsaCreateRingbufferIterator q.rb)).map fun l =>
      (.elems l, q)

/-- The operation of the ring buffer behind an operation of the queue. -/
def QueueOp.toOp : QueueOp es → Op es
  | .enqueue e => .pushBack e
  | .dequeue => .popFront
  | .front => .front
  | .size => .size
  | .isEmpty => .isEmpty
  | .isFull => .isFull
  | .iterate => .iterate

theorem queueStep_eq (rb : CdsaRingbuffer) (op : QueueOp es) :
    queueStep ⟨rb⟩ op = (step rb op.toOp).map fun r => (r.1, ⟨r.2⟩) := by
  cases op <;> simp [queueStep, step, QueueOp.toOp, cdsaEnqueue, cdsaDequeue, cdsaFrontQueue,
    cdsaSizeQueue, cdsaIsEmptyQueue, cdsaIsFullQueue, Function.comp_def]

/-- mirrors src/deque.c:8-10 -/
structure CdsaDeque where
  rb : CdsaRingbuffer

/-- mirrors src/deque.c:14-28 -/
def cdsaCreateDeque (deque self data : Malloc) (capacity elemSize : Nat) :
    Option (Option CdsaDeque) :=
  (deque 8).bind fun
    | none => some none
    | some _ => (cdsaCreateRingbuffer self data capacity elemSize).map fun r => r.map fun rb => ⟨rb⟩

/-- mirrors src/deque.c:39-44 -/
def cdsaPushFrontDeque (d : CdsaDeque) (elem : List UInt8) : Option (Status × CdsaDeque) :=
  (cdsaPushFrontRingbuffer d.rb elem).map fun r => (r.1, ⟨r.2⟩)

/-- mirrors src/deque.c:46-51 -/
def cdsaPopFrontDeque (d : CdsaDeque) : Option (Status × CdsaDeque) :=
  (cdsaPopFrontRingbuffer d.rb).map fun r => (r.1, ⟨r.2⟩)

/-- mirrors src/deque.c:53-57 -/
def cdsaFrontDeque (d : CdsaDeque) : Option Nat := cdsaFrontRingbuffer d.rb

/-- mirrors src/deque.c:61-66 -/
def cdsaPushBackDeque (d : CdsaDeque) (elem : List UInt8) : Option (Status × CdsaDeque) :=
  (cdsaPushBackRingbuffer d.rb elem).map fun r => (r.1, ⟨r.2⟩)

/-- mirrors src/deque.c:68-73 -/
def cdsaPopBackDeque (d : CdsaDeque) : Option (Status × CdsaDeque) :=
  (cdsaPopBackRingbuffer d.rb).map fun r => (r.1, ⟨r.2⟩)

/-- mirrors src/deque.c:75-79 -/
def cdsaBackDeque (d : CdsaDeque) : Option (Option Nat) := cdsaBackRingbuffer d.rb

/-- mirrors src/deque.c:83-87 -/
def cdsaSizeDeque (d : CdsaDeque) : Nat := cdsaSizeRingbuffer d.rb

/-- mirrors src/deque.c:89-93 -/
def cdsaIsEmptyDeque (d : CdsaDeque) : Bool := cdsaIsEmptyRingbuffer d.rb

/-- mirrors src/deque.c:95-99 -/
def cdsaIsFullDeque (d : CdsaDeque) : Bool := cdsaIsFullRingbuffer d.rb

def dequeStep (d : CdsaDeque) : Op es → Option (Out × CdsaDeque)
  | .pushBack e => (cdsaPushBackDeque d e.1).map fun r => (.status r.1, r.2)
  | .pushFront e => (cdsaPushFrontDeque d e.1).map fun r => (.status r.1, r.2)
  | .popBack => (cdsaPopBackDeque d).map fun r => (.status r.1, r.2)
  | .popFront => (cdsaPopFrontDeque d).map fun r => (.status r.1, r.2)
  | .front => (deref d.rb (cdsaFrontDeque d)).map fun x => (.elem x, d)
  | .back => (cdsaBackDeque d).bind fun p => (deref d.rb p).map fun x => (.elem x, d)
  | .size => some (.size (cdsaSizeDeque d), d)
  | .isEmpty => some (.flag (cdsaIsEmptyDeque d), d)
  | .isFull => some (.flag (cdsaIsFullDeque d), d)
  | .iterate =>
    (readAll d.rb (cdsaSizeDeque d + 1) (cdsaCreateRingbufferIterator d.rb)).map fun l =>
      (.elems l, d)

theorem dequeStep_eq (rb : CdsaRingbuffer) (op : Op es) :
    dequeStep ⟨rb⟩ op = (step rb op).map fun r => (r.1, ⟨r.2⟩) := by
  cases op <;> simp [dequeStep, step, cdsaPushBackDeque, cdsaPushFrontDeque, cdsaPopBackDeque,
    cdsaPopFrontDeque, cdsaFrontDeque, cdsaBackDeque, cdsaSizeDeque, cdsaIsEmptyDeque,
    cdsaIsFullDeque, Function.comp_def, Option.map_bind]

/-! ## Runs -/

/-- A fresh ring buffer on a block that is long enough. -/
theorem fresh_inv {data : List UInt8} {capacity : Nat} (hlen : capacity * es ≤ data.length)
    (hfit : capacity * es < 2 ^ 64) (htwice : 2 * capacity < 2 ^ 64) :
    Inv ⟨data, 0, 0, 0, capacity, es, 0⟩ ([] : List (Elem es)) where
  elemSize := rfl
  size := rfl
  size_le := Nat.zero_le _
  head h := h
  tail _ := by
    show 0 = (0 + 0) % capacity
    rw [Nat.zero_mod]
  holds := hlen
  fits := hfit
  twice := htwice
  cells _ h := by cases h

/-- The block has the bytes of the slots if they, and the header, are a `size_t`. -/
theorem cdsaCreateRingbuffer_inv {self : Malloc} {block : Grant} {capacity : Nat}
    {rb : CdsaRingbuffer} (hfit : capacity * es + 8 < 2 ^ 64) (htwice : 2 * capacity < 2 ^ 64)
    (hc : cdsaCreateRingbuffer self (cdsaMallocTrack block) capacity es = some (some rb)) :
    Inv rb ([] : List (Elem es)) ∧ rb.capacity = capacity := by
  obtain ⟨r, -, hc⟩ := Option.bind_eq_some_iff.mp hc
  cases r with
  | none => simp at hc
  | some _ =>
    obtain ⟨r, hr, hc⟩ := Option.map_eq_some_iff.mp hc
    obtain ⟨data, rfl, rfl⟩ := Option.map_eq_some_iff.mp hc
    obtain ⟨-, hlen⟩ := cdsaMallocTrack_bytes hr
    rw [Nat.mod_eq_of_lt (show capacity * es < 2 ^ 64 by omega)] at hlen
    exact ⟨fresh_inv (hlen hfit) (by omega) htwice, rfl⟩

theorem run_refines (ops : List (Op es)) (rb : CdsaRingbuffer) (l : List (Elem es))
    (I : Inv rb l) : ∃ rb', runOps step rb ops = some ((specRun (astep rb.capacity) l ops).1, rb') ∧
      Inv rb' (specRun (astep rb.capacity) l ops).2 ∧ rb'.capacity = rb.capacity :=
  refine_run (R := fun rb' l' => Inv rb' l' ∧ rb'.capacity = rb.capacity) (P := fun _ _ => True)
    (fun rb' l' op ⟨I', hc⟩ _ => by
      obtain ⟨rb'', he, I'', hc'⟩ := I'.step op
      rw [hc] at he I'' hc'
      exact ⟨rb'', he, I'', hc'⟩) ops rb l ⟨I, rfl⟩ (.of_forall fun _ _ => trivial)

/-- A status that an operation answers, and the buffer it leaves. -/
theorem status_eq {x : Option (Status × CdsaRingbuffer)} {o : Out} {rb' : CdsaRingbuffer}
    (h : (x.map fun r => (Out.status r.1, r.2)) = some (o, rb')) :
    ∃ s, o = .status s ∧ x = some (s, rb') := by
  obtain ⟨⟨s, r⟩, rfl, hr⟩ := Option.map_eq_some_iff.mp h
  cases hr
  exact ⟨s, rfl, rfl⟩

/-- CDSA_OK counts up the version, and any other answer leaves the buffer as it
is. -/
theorem step_version {rb rb' : CdsaRingbuffer} {op : Op es} {o : Out}
    (h : step rb op = some (o, rb')) :
    (o = .status .ok ∧ rb'.version = (rb.version + 1) % 2 ^ 64) ∨
      (o ≠ .status .ok ∧ rb' = rb) := by
  cases op with
  | pushBack e =>
    obtain ⟨s, rfl, hs⟩ := status_eq h
    unfold cdsaPushBackRingbuffer at hs
    split at hs
    · cases hs; exact Or.inr ⟨by simp, rfl⟩
    · obtain ⟨data, -, hs⟩ := Option.bind_eq_some_iff.mp hs
      obtain ⟨tail, -, hs⟩ := Option.map_eq_some_iff.mp hs
      cases hs; exact Or.inl ⟨rfl, rfl⟩
  | pushFront e =>
    obtain ⟨s, rfl, hs⟩ := status_eq h
    unfold cdsaPushFrontRingbuffer at hs
    split at hs
    · cases hs; exact Or.inr ⟨by simp, rfl⟩
    · obtain ⟨head, -, hs⟩ := Option.bind_eq_some_iff.mp hs
      obtain ⟨data, -, hs⟩ := Option.map_eq_some_iff.mp hs
      cases hs; exact Or.inl ⟨rfl, rfl⟩
  | popBack =>
    obtain ⟨s, rfl, hs⟩ := status_eq h
    unfold cdsaPopBackRingbuffer at hs
    split at hs
    · cases hs; exact Or.inr ⟨by simp, rfl⟩
    · obtain ⟨tail, -, hs⟩ := Option.map_eq_some_iff.mp hs
      cases hs; exact Or.inl ⟨rfl, rfl⟩
  | popFront =>
    obtain ⟨s, rfl, hs⟩ := status_eq h
    unfold cdsaPopFrontRingbuffer at hs
    split at hs
    · cases hs; exact Or.inr ⟨by simp, rfl⟩
    · obtain ⟨head, -, hs⟩ := Option.map_eq_some_iff.mp hs
      cases hs; exact Or.inl ⟨rfl, rfl⟩
  | front =>
    obtain ⟨x, -, h⟩ := Option.map_eq_some_iff.mp h
    cases h; exact Or.inr ⟨by simp, rfl⟩
  | back =>
    obtain ⟨p, -, h⟩ := Option.bind_eq_some_iff.mp h
    obtain ⟨x, -, h⟩ := Option.map_eq_some_iff.mp h
    cases h; exact Or.inr ⟨by simp, rfl⟩
  | size => cases h; exact Or.inr ⟨by simp, rfl⟩
  | isEmpty => cases h; exact Or.inr ⟨by simp, rfl⟩
  | isFull => cases h; exact Or.inr ⟨by simp, rfl⟩
  | iterate =>
    obtain ⟨l, -, h⟩ := Option.map_eq_some_iff.mp h
    cases h; exact Or.inr ⟨by simp, rfl⟩

/-- Only CDSA_OK changes the buffer. -/
theorem failed_unchanged {rb rb' : CdsaRingbuffer} {op : Op es} {s : Status}
    (h : step rb op = some (.status s, rb')) (hs : s ≠ .ok) : rb' = rb := by
  rcases step_version h with ⟨ho, -⟩ | ⟨-, he⟩
  · cases ho; exact absurd rfl hs
  · exact he

/-- The buffer where the elements, from front to back, are `l`: its cursors are
where they should be, and an operation that fails changes nothing. -/
structure Placed (capacity : Nat) (rb : CdsaRingbuffer) (l : List (Elem es)) : Prop where
  capacity_eq : rb.capacity = capacity
  size : rb.size = l.length
  size_le : rb.size ≤ capacity
  head_lt : 0 < capacity → rb.head < capacity
  tail_lt : 0 < capacity → rb.tail < capacity
  tail : 0 < capacity → rb.tail = (rb.head + rb.size) % capacity
  failed : ∀ (op : Op es) s rb', step rb op = some (.status s, rb') → s ≠ .ok → rb' = rb

theorem Inv.placed {rb : CdsaRingbuffer} {l : List (Elem es)} (I : Inv rb l) :
    Placed rb.capacity rb l where
  capacity_eq := rfl
  size := I.size
  size_le := I.size_le
  head_lt := I.head
  tail_lt := I.tail_lt
  tail := I.tail
  failed _ _ _ h hs := failed_unchanged h hs

/-- Every run from a fresh buffer. -/
theorem run_created {self : Malloc} {block : Grant} {capacity : Nat}
    (hfit : capacity * es + 8 < 2 ^ 64) (htwice : 2 * capacity < 2 ^ 64) {rb : CdsaRingbuffer}
    (hc : cdsaCreateRingbuffer self (cdsaMallocTrack block) capacity es = some (some rb))
    (ops : List (Op es)) :
    ∃ rb', runOps step rb ops = some ((specRun (astep capacity) [] ops).1, rb') ∧
      Placed capacity rb' (specRun (astep capacity) [] ops).2 := by
  obtain ⟨I, rfl⟩ := cdsaCreateRingbuffer_inv hfit htwice hc
  obtain ⟨rb', he, I', hcap⟩ := run_refines ops rb [] I
  exact ⟨rb', he, hcap ▸ I'.placed⟩

/-- The buffer of a fresh queue or deque is a fresh buffer. -/
theorem created_inside {T : Type} {mk : CdsaRingbuffer → T} {outer self block : Malloc}
    {capacity : Nat} {t : T}
    (h : ((outer 8).bind fun
      | none => some none
      | some _ => (cdsaCreateRingbuffer self block capacity es).map fun r => r.map mk) =
        some (some t)) :
    ∃ rb, cdsaCreateRingbuffer self block capacity es = some (some rb) ∧ t = mk rb := by
  obtain ⟨r, -, h⟩ := Option.bind_eq_some_iff.mp h
  cases r with
  | none => simp at h
  | some _ =>
    obtain ⟨r, hr, h⟩ := Option.map_eq_some_iff.mp h
    obtain ⟨rb, rfl, rfl⟩ := Option.map_eq_some_iff.mp h
    exact ⟨rb, hr, rfl⟩

/-- Ring buffer, queue and deque answer every run as a list of at most
`capacity` elements does, if the bytes of the elements and of the header are a
`size_t`. -/
theorem bounded_deque (outer self block : Grant) (capacity es : Nat)
    (hfit : capacity * es + 8 < 2 ^ 64) (htwice : 2 * capacity < 2 ^ 64) :
    (∀ rb, cdsaCreateRingbuffer (cdsaMallocTrack self) (cdsaMallocTrack block) capacity es =
        some (some rb) →
      ∀ ops : List (Op es), ∃ rb',
        runOps step rb ops = some ((specRun (astep capacity) [] ops).1, rb') ∧
        Placed capacity rb' (specRun (astep capacity) [] ops).2) ∧
    (∀ q, cdsaCreateQueue (cdsaMallocTrack outer) (cdsaMallocTrack self) (cdsaMallocTrack block)
        capacity es = some (some q) →
      ∀ ops : List (QueueOp es), ∃ q',
        runOps queueStep q ops =
          some ((specRun (astep capacity) [] (ops.map QueueOp.toOp)).1, q') ∧
        Placed capacity q'.rb (specRun (astep capacity) [] (ops.map QueueOp.toOp)).2) ∧
    (∀ d, cdsaCreateDeque (cdsaMallocTrack outer) (cdsaMallocTrack self) (cdsaMallocTrack block)
        capacity es = some (some d) →
      ∀ ops : List (Op es), ∃ d',
        runOps dequeStep d ops = some ((specRun (astep capacity) [] ops).1, d') ∧
        Placed capacity d'.rb (specRun (astep capacity) [] ops).2) := by
  refine ⟨fun rb hc ops => run_created hfit htwice hc ops, fun q hq ops => ?_, fun d hd ops => ?_⟩
  · obtain ⟨rb, hc, rfl⟩ := created_inside hq
    obtain ⟨rb', he, hp⟩ := run_created hfit htwice hc (ops.map QueueOp.toOp)
    exact ⟨⟨rb'⟩, by rw [runOps_map (f := CdsaQueue.mk) queueStep_eq, he]; rfl, hp⟩
  · obtain ⟨rb, hc, rfl⟩ := created_inside hd
    obtain ⟨rb', he, hp⟩ := run_created hfit htwice hc ops
    exact ⟨⟨rb'⟩,
      by rw [runOps_map (f := CdsaDeque.mk) (g := id) dequeStep_eq, List.map_id, he]; rfl, hp⟩

/-- A buffer of two bytes, filled from both ends and read around the wrap. -/
theorem bounded_deque_two : ∃ rb rb' : CdsaRingbuffer,
    cdsaCreateRingbuffer (cdsaMallocTrack .zeros) (cdsaMallocTrack .zeros) 2 1 = some (some rb) ∧
      runOps step rb [.pushFront ⟨[1], rfl⟩, .pushBack ⟨[2], rfl⟩, .pushBack ⟨[3], rfl⟩, .iterate,
        .popFront, .popBack, .popBack] = some ([.status .ok, .status .ok, .status .errFull,
          .elems [[1], [2]], .status .ok, .status .ok, .status .errEmpty], rb') := by
  obtain ⟨rb', h, -⟩ := (bounded_deque .zeros .zeros .zeros 2 1 (by decide) (by decide)).1 _ rfl
    [.pushFront ⟨[1], rfl⟩, .pushBack ⟨[2], rfl⟩, .pushBack ⟨[3], rfl⟩, .iterate,
      .popFront, .popBack, .popBack]
  exact ⟨_, rb', rfl, h⟩

/-- `2 ^ 61 - 1` elements of 8 bytes: that many bytes, and twice the capacity, are
a `size_t`, but with the header 0 bytes are asked for. All of the block is
header, and the first push writes outside it. -/
theorem bounded_deque_wraps : (2 ^ 61 - 1) * 8 < 2 ^ 64 ∧ 2 * (2 ^ 61 - 1) < 2 ^ 64 ∧
    ∃ rb, cdsaCreateRingbuffer (cdsaMallocTrack .words) (cdsaMallocTrack .words) (2 ^ 61 - 1) 8 =
        some (some rb) ∧
      step rb (.pushBack ⟨List.replicate 8 1, rfl⟩) = none ∧
      step rb (.pushFront ⟨List.replicate 8 1, rfl⟩) = none :=
  ⟨by decide, by decide, ⟨[], 0, 0, 0, 2 ^ 61 - 1, 8, 0⟩, rfl, rfl, rfl⟩

/-- With capacity 0 everything is full and empty at once. -/
example : (specRun (astep 0) [] [.pushBack ⟨[1], rfl⟩, .popFront, .isFull, .isEmpty, .iterate] :
    List Out × List (Elem 1)) = ([.status .errFull, .status .errEmpty, .flag true, .flag true,
      .elems []], []) := rfl

end Cdsa.Ring
