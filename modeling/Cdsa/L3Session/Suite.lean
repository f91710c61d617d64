import Cdsa.L3Session.Nodes
import Cdsa.L3Session.Scratch

/-!
# The suite is memory-tight

`bench/bench_fuzzer.c` makes containers of every kind, works with them in an
order that is left to chance, frees them, and then looks whether the counter of
the tracked allocator is back at zero. `suite_memory_tight` is what it looks
for, of every such program: any number of containers of any kinds and pools,
made, worked with and released in any order, and iterators made and released
among them, with requests refused at any point.

`Creates` asks that a size does not wrap: that of the first block of a vector
or a priority queue, of a ring buffer's block, of a hash map's table, of a
linked list's elements, of a tree's largest slab, of a pool's slab. `Meets` says what an operation may not
come to: a refused or wrapped growth of a vector, a string or a priority queue,
a new table of a hash map whose size wraps, a range query that counts past an
`int`; in a tree a refused copy of a key, a comparison over more bytes than an
`int` counts, a deletion that cuts a subtree off or hollows a node. `Closes` has
the arrays that range queries returned given back before a skip list is freed.

What an iterator reads is not looked at here: the walk over a container, the
first step of a tree's iterator at its creation included, allocates nothing. It
leaves its block where keys nest deeper than the stack of 512 frames
(`L2Art/Buffers`) and after a deletion it follows frames of nodes that were given
back (`L2Art/Iterate`); nothing is said of a program that does either.
-/
namespace Cdsa.Session

open Cdsa.Core Cdsa.Memory

/-- What a program can make, with the arguments that stay the same. -/
inductive Kind where
  | vector (elemSize : Nat)
  | stack (elemSize : Nat)
  | kstring
  | ringbuffer (capacity elemSize : Nat)
  | queue (capacity elemSize : Nat)
  | deque (capacity elemSize : Nat)
  | hashmap
  | priorityQueue (elemSize : Nat) (cmp : List UInt8 → List UInt8 → Bool)
  | linkedlist (elemSize : Nat)
  | skiplist
  | art
  | pool
  | iterator
  | artIterator

/-- The sizes are those of the structures.
mirrors src/vector.c:18-35, 64-69, src/stack.c:14-28, 38-43, src/kstring.c:18-41,
src/ringbuffer.c:21-49, src/queue.c:12-34, src/deque.c:14-35, src/hashmap.c:32-63,
src/priority_queue.c:98-121, src/art.c:1148-1154 -/
def suite (fill : Ptr → Fill) (V S : Type) [LinearOrder S] (zero : S) : Kind → Tenant
  | .vector es => .boxed 40 ((vectorBody fill es).tenant fill)
  | .stack es => .boxed 8 (.boxed 40 ((vectorBody fill es).tenant fill))
  | .kstring => .boxed 24 ((kstringBody fill).tenant fill)
  | .ringbuffer capacity es => .boxed 56 ((ringbufferBody capacity es).tenant fill)
  | .queue capacity es | .deque capacity es =>
    .boxed 8 (.boxed 56 ((ringbufferBody capacity es).tenant fill))
  | .hashmap => .boxed 40 ((hashmapBody V).tenant fill)
  | .priorityQueue es cmp => .boxed 24 (.boxed 40 ((pqBody fill es cmp).tenant fill))
  | .linkedlist es => linkedlist es
  | .skiplist => skiplist S zero
  | .art => art V
  | .pool => pool
  | .iterator => iterator 24
  | .artIterator => iterator 8224

/-- In every session over the suite, the counter and the live blocks are those
of the containers in use and of what was there before, no call that is made as
it should be is undefined, and releasing what is in use, in any order, leaves
counter and blocks as they were. -/
theorem suite_memory_tight (fill : Ptr → Fill) (V S : Type) [LinearOrder S] (zero : S)
    (base : UInt64) (bs : List (Ptr × Nat)) (mem : Mem) (O : Owns base bs mem)
    (w : World (suite fill V S zero)) (hw : (sessions (suite fill V S zero) mem).Reachable w) :
    (∃ held, Shares (suite fill V S zero) w.live held ∧ w.mem.blocks.Perm (held ++ bs) ∧
      w.mem.used = base + total (held ++ bs)) ∧
    w.Answers ∧
    ∀ order, order.Perm w.live → (∀ x ∈ order, (suite fill V S zero x.1).Closes x.2) →
      ∃ mem', teardown (suite fill V S zero) order w.mem = some mem' ∧
        mem'.used = mem.used ∧ mem'.blocks.Perm mem.blocks := by
  have h : Lodged (suite fill V S zero) base bs w := (Lodged.inductive O).reachable w hw
  refine ⟨?_, h.answers, fun order hp hc => h.teardown O hp hc⟩
  obtain ⟨held, shares, O'⟩ := h
  exact ⟨held, shares, O'.perm, by rw [O'.used, total_perm O'.perm]⟩

/-- Fresh blocks full of zeros. -/
def zeroFill (_ : Ptr) : Fill where
  toGrant := .zeros
  total n h := by simpa [Raw.Grant.zeros] using h

/-- A deque, a vector that is given an element, and a hash map that is refused
its structure; then the deque is released before the vector. -/
theorem suite_memory_tight_two : ∃ w : World (suite zeroFill Nat Nat 0),
    (sessions (suite zeroFill Nat Nat 0) ⟨0, [], 0, fun n => n ≠ 5⟩).Reachable w ∧
    w.live.map Sigma.fst = [.vector 4, .deque 4 4] ∧ w.mem.used = 136 ∧
    ∃ mem', teardown (suite zeroFill Nat Nat 0) w.live.reverse w.mem = some mem' ∧
      mem'.used = 0 := by
  obtain ⟨d, v, v', m1, m2, m3, m4, e1, e2, e3, e4, hmeets, hused⟩ : ∃ d v v' m1 m2 m3 m4,
      (suite zeroFill Nat Nat 0 (.deque 4 4)).create () ⟨0, [], 0, fun n => n ≠ 5⟩ =
        some (some d, m1) ∧
      (suite zeroFill Nat Nat 0 (.vector 4)).create () m1 = some (some v, m2) ∧
      (suite zeroFill Nat Nat 0 (.vector 4)).step (VectorOp.push ⟨[1, 2, 3, 4], rfl⟩) v m2 =
        some (v', m3) ∧
      (suite zeroFill Nat Nat 0 .hashmap).create (8 : Nat) m3 = some (none, m4) ∧
      (suite zeroFill Nat Nat 0 (.vector 4)).Meets (VectorOp.push ⟨[1, 2, 3, 4], rfl⟩) v m2 ∧
      m4.used = 136 :=
    ⟨_, _, _, _, _, _, _, rfl, rfl, rfl, rfl, fun h => absurd h (by decide), rfl⟩
  have hd : (suite zeroFill Nat Nat 0 (.deque 4 4)).Creates () ⟨0, [], 0, fun n => n ≠ 5⟩ :=
    ⟨by decide, by decide⟩
  have hv : (suite zeroFill Nat Nat 0 (.vector 4)).Creates () m1 :=
    (by decide : 4 * 4 + 8 < 2 ^ 64)
  have hm : (suite zeroFill Nat Nat 0 .hashmap).Creates (8 : Nat) m3 :=
    (by decide : 8 * 32 + 8 < 2 ^ 64)
  have r0 : (sessions (suite zeroFill Nat Nat 0) ⟨0, [], 0, fun n => n ≠ 5⟩).Reachable ⟨_, []⟩ :=
    .init rfl
  have r1 := r0.step (World.Step.create hd e1)
  have r2 := r1.step (World.Step.create hv e2)
  have r3 := r2.step (@World.Step.act _ _ _ _ _ _ _ _ [] _ hmeets e3)
  have r4 : (sessions (suite zeroFill Nat Nat 0) ⟨0, [], 0, fun n => n ≠ 5⟩).Reachable
      ⟨m4, [⟨.vector 4, v'⟩, ⟨.deque 4 4, d⟩]⟩ := r3.step (World.Step.create hm e4)
  have O : Owns 0 [] ⟨0, [], 0, fun n => n ≠ 5⟩ := ⟨.nil, .nil, by simp, rfl⟩
  obtain ⟨-, -, hclose⟩ := suite_memory_tight zeroFill Nat Nat 0 0 [] _ O _ r4
  obtain ⟨mem', e, hfree, -⟩ := hclose _ (List.reverse_perm _) fun x hx => by
    rcases List.mem_pair.mp (List.mem_reverse.mp hx) with rfl | rfl <;> trivial
  exact ⟨_, r4, rfl, hused, mem', e, hfree⟩

end Cdsa.Session
