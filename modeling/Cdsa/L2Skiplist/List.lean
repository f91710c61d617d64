import Mathlib.Logic.Function.Basic
import Mathlib.Order.Defs.LinearOrder
import Cdsa.Core.Chain
import Cdsa.L1Memory.Status
import Cdsa.L1Memory.Tracked

/-!
# The skip list

`src/skiplist.c` links every node, by `forward[0]`, into one list sorted by
score and then by value, and a node of height h also into the lists of levels
1 to h - 1. The header is a node of full height without data.

Scores are any linear order (a `double` without NaN). The node structures
live on the heap (`nodes`); following a pointer to a node that is not there,
or reading `forward[i]` past its end, is undefined and gives `none`, and so
does a `count` that leaves the range of `int`. Loops that follow pointers have
`size + 1` as fuel. The coins of `random_level` are a stream.

A `size_t` counts mutations modulo 2^64; the number of nodes, each of which
takes up memory, never comes near it.
-/
namespace Cdsa.Skiplist

open Cdsa.Core Cdsa.Memory

variable {S : Type}

/-- mirrors include/CDSA/skiplist.h:8 -/
def SKIPLIST_MAX_LEVEL : Nat := 16

/-- The largest `int`. -/
def intMax : Nat := 2 ^ 31 - 1

/-- `valuePtr` and `forwardPtr` are the addresses of the string and of the
array.
mirrors src/skiplist.c:8-14 -/
structure SkipNode (S : Type) where
  score : S
  value : CStr
  valuePtr : Ptr
  level : Nat
  forward : List (Option Ptr)
  forwardPtr : Ptr

/-- The list structure, at address `self`, and the nodes on the heap.
mirrors src/skiplist.c:16-21 -/
structure CdsaSkiplist (S : Type) where
  self : Ptr
  header : Ptr
  level : Nat
  size : Nat
  version : Nat
  nodes : Ptr → Option (SkipNode S)

/-- `p->forward[i]` -/
def forwardAt (nodes : Ptr → Option (SkipNode S)) (i : Nat) (p : Ptr) : Option (Option Ptr) :=
  (nodes p).bind fun n => n.forward[i]?

/-- `p->forward[i] = q` -/
def setForward (nodes : Ptr → Option (SkipNode S)) (p : Ptr) (i : Nat) (q : Option Ptr) :
    Option (Ptr → Option (SkipNode S)) :=
  (nodes p).bind fun n =>
    if i < n.forward.length then
      some (Function.update nodes p (some { n with forward := n.forward.set i q }))
    else none

/-- The loop of `random_level`; the first argument is how often it may still
grow. -/
def levelLoop (coins : Nat → Bool) : Nat → Nat → Nat
  | 0, level => level
  | left + 1, level => if coins level then levelLoop coins left (level + 1) else level

/-- mirrors src/skiplist.c:26-34 -/
def randomLevel (coins : Nat → Bool) : Nat := levelLoop coins (SKIPLIST_MAX_LEVEL - 1) 1

/-- The new node and its address, if no allocation fails.
mirrors src/skiplist.c:45-66 -/
def cdsaCreateNode (mem : Mem) (level : Nat) (score : S) (value : CStr) :
    Option (Option (Ptr × SkipNode S) × Mem) :=
  match cdsaMallocTrack mem 32 with
  | (none, mem) => some (none, mem)
  | (some node, mem) =>
    match safeStrdup mem value with
    | (none, mem) => (cdsaFreeTrack mem (some node)).map fun mem => (none, mem)
    | (some valuePtr, mem) =>
      match cdsaCallocTrack mem level 8 with
      | (none, mem) =>
        (cdsaFreeTrack mem (some valuePtr)).bind fun mem =>
          (cdsaFreeTrack mem (some node)).map fun mem => (none, mem)
      | (some forwardPtr, mem) =>
        some (some (node,
          { score, value, valuePtr, level, forward := List.replicate level none, forwardPtr }), mem)

/-- `zero` is the score 0.0 of the header.
mirrors src/skiplist.c:70-88 -/
def cdsaCreateSkiplist (zero : S) (mem : Mem) : Option (Option (CdsaSkiplist S) × Mem) :=
  match cdsaMallocTrack mem 32 with
  | (none, mem) => some (none, mem)
  | (some self, mem) =>
    (cdsaCreateNode mem SKIPLIST_MAX_LEVEL zero ⟨[], by simp⟩).bind fun
      | (none, mem) => (cdsaFreeTrack mem (some self)).map fun mem => (none, mem)
      | (some (header, node), mem) =>
        some (some {
          self, header
          level := 1
          size := 0
          version := 0
          nodes := Function.update (fun _ => none) header (some node) }, mem)

/-- mirrors src/skiplist.c:107-111 -/
def cdsaSizeSkiplist (sl : CdsaSkiplist S) : Nat := sl.size

/-- The search loop over the levels below its first numeral argument: where it
ends, and the breadcrumbs `update[0]`, `update[1]`, ….
mirrors src/skiplist.c:132-143,185-193,242-247 -/
def descend (nodes : Ptr → Option (SkipNode S)) (test : SkipNode S → Bool) (fuel : Nat) :
    Nat → Ptr → Option (Ptr × List Ptr)
  | 0, current => some (current, [])
  | i + 1, current =>
    (walk (forwardAt nodes i) (fun q => (nodes q).map test) fuel current).bind fun p =>
      (descend nodes test fuel i p).map fun r => (r.1, r.2 ++ [p])

section
variable [LinearOrder S]

/-- The test of the search loops of `insert_skiplist` and `remove_skiplist`. -/
def before (score : S) (value : CStr) (n : SkipNode S) : Bool :=
  n.score < score ∨ (n.score = score ∧ CStr.strcmp n.value value < 0)

/-- The loop that links the new node `p` in, `left` levels from `i` on.
mirrors src/skiplist.c:165-168 -/
def spliceLoop (p : Ptr) (update : List Ptr) :
    Nat → Nat → (Ptr → Option (SkipNode S)) → Option (Ptr → Option (SkipNode S))
  | 0, _, nodes => some nodes
  | left + 1, i, nodes =>
    update[i]?.bind fun u =>
      (forwardAt nodes i u).bind fun next =>
        (setForward nodes p i next).bind fun nodes =>
          (setForward nodes u i (some p)).bind fun nodes =>
            spliceLoop p update left (i + 1) nodes

/-- The level of the list is raised before the node is allocated, and put back
if it cannot be.
mirrors src/skiplist.c:119-173 -/
def insertSkiplist (sl : CdsaSkiplist S) (mem : Mem) (score : S) (value : CStr)
    (coins : Nat → Bool) : Option (Status × CdsaSkiplist S × Mem) :=
  (descend sl.nodes (before score value) (sl.size + 1) sl.level sl.header).bind fun r =>
    let newLevel := randomLevel coins
    let oldLevel := sl.level
    let update := r.2 ++ List.replicate (newLevel - sl.level) sl.header
    let raised := { sl with level := if newLevel > sl.level then newLevel else sl.level }
    (cdsaCreateNode mem newLevel score value).bind fun
      | (none, mem) => some (.errOom, { raised with level := oldLevel }, mem)
      | (some (p, node), mem) =>
        (spliceLoop p update newLevel 0 (Function.update raised.nodes p (some node))).map fun nodes =>
          (.ok, { raised with
            size := raised.size + 1
            version := (raised.version + 1) % 2 ^ 64
            nodes }, mem)

/-- The loop that takes node `p` out, `left` levels from `i` on.
mirrors src/skiplist.c:204-212 -/
def unlinkLoop (p : Ptr) (update : List Ptr) :
    Nat → Nat → (Ptr → Option (SkipNode S)) → Option (Ptr → Option (SkipNode S))
  | 0, _, nodes => some nodes
  | left + 1, i, nodes =>
    update[i]?.bind fun u =>
      (forwardAt nodes i u).bind fun next =>
        if next ≠ some p then some nodes
        else (forwardAt nodes i p).bind fun after =>
          (setForward nodes u i after).bind fun nodes => unlinkLoop p update left (i + 1) nodes

/-- The loop that lowers the level of the list.
mirrors src/skiplist.c:216-218 -/
def lowerLevel (nodes : Ptr → Option (SkipNode S)) (header : Ptr) : Nat → Option Nat
  | 0 => some 0
  | 1 => some 1
  | level + 2 =>
    (forwardAt nodes (level + 1) header).bind fun top =>
      if top = none then lowerLevel nodes header (level + 1) else some (level + 2)

/-- mirrors src/skiplist.c:175-231 -/
def removeSkiplist (sl : CdsaSkiplist S) (mem : Mem) (score : S) (value : CStr) :
    Option (Status × CdsaSkiplist S × Mem) :=
  (descend sl.nodes (before score value) (sl.size + 1) sl.level sl.header).bind fun r =>
    (forwardAt sl.nodes 0 r.1).bind fun
      | none => some (.errNotFound, sl, mem)
      | some current =>
        (sl.nodes current).bind fun n =>
          if n.score = score ∧ CStr.strcmp n.value value = 0 then
            (unlinkLoop current r.2 sl.level 0 sl.nodes).bind fun nodes =>
              (lowerLevel nodes sl.header sl.level).bind fun level =>
                (cdsaFreeTrack mem (some n.valuePtr)).bind fun mem =>
                  (cdsaFreeTrack mem (some n.forwardPtr)).bind fun mem =>
                    (cdsaFreeTrack mem (some current)).map fun mem =>
                      (.ok, { sl with
                        level
                        size := sl.size - 1
                        version := (sl.version + 1) % 2 ^ 64
                        nodes := Function.update nodes current none }, mem)
          else some (.errNotFound, sl, mem)

/-- The counting loop of `get_range_skiplist`.
mirrors src/skiplist.c:253-258 -/
def countRange (nodes : Ptr → Option (SkipNode S)) (maxScore : S) :
    Nat → Option Ptr → Nat → Option Nat
  | 0, _, _ => none
  | _ + 1, none, count => some count
  | fuel + 1, some p, count =>
    (nodes p).bind fun n =>
      if n.score ≤ maxScore then
        if count < intMax then
          (forwardAt nodes 0 p).bind fun next => countRange nodes maxScore fuel next (count + 1)
        else none
      else some count

/-- The copying loop of `get_range_skiplist`: whether it got to the end, and
the strings copied so far.
mirrors src/skiplist.c:272-288 -/
def copyRange (nodes : Ptr → Option (SkipNode S)) (maxScore : S) :
    Nat → Option Ptr → List (Ptr × CStr) → Mem → Option (Bool × List (Ptr × CStr) × Mem)
  | 0, _, _, _ => none
  | _ + 1, none, results, mem => some (true, results, mem)
  | fuel + 1, some p, results, mem =>
    (nodes p).bind fun n =>
      if n.score ≤ maxScore then
        match safeStrdup mem n.value with
        | (none, mem) => some (false, results, mem)
        | (some q, mem) =>
          (forwardAt nodes 0 p).bind fun next =>
            copyRange nodes maxScore fuel next (results ++ [(q, n.value)]) mem
      else some (true, results, mem)

/-- Freeing the strings copied so far, then the array. -/
def freeResults (array : Ptr) : List (Ptr × CStr) → Mem → Option Mem
  | [], mem => cdsaFreeTrack mem (some array)
  | r :: results, mem => (cdsaFreeTrack mem (some r.1)).bind fun mem => freeResults array results mem

/-- The array of strings returned, if any, and `*out_count`.
mirrors src/skiplist.c:233-291 -/
def getRangeSkiplist (sl : CdsaSkiplist S) (mem : Mem) (minScore maxScore : S) :
    Option ((Option (Ptr × List (Ptr × CStr)) × Nat) × Mem) :=
  (descend sl.nodes (fun n => n.score < minScore) (sl.size + 1) sl.level sl.header).bind fun r =>
    (forwardAt sl.nodes 0 r.1).bind fun current =>
      (countRange sl.nodes maxScore (sl.size + 1) current 0).bind fun count =>
        if count = 0 then some ((none, 0), mem)
        else
          match cdsaMallocTrack mem (count * 8) with
          | (none, mem) => some ((none, 0), mem)
          | (some array, mem) =>
            (copyRange sl.nodes maxScore (sl.size + 1) current [] mem).bind fun
              | (true, results, mem) => some ((some (array, results), count), mem)
              | (false, results, mem) =>
                (freeResults array results mem).map fun mem => ((none, 0), mem)

end

/-! ## The height of a new node -/

theorem levelLoop_range (coins : Nat → Bool) :
    ∀ left level, level ≤ levelLoop coins left level ∧ levelLoop coins left level ≤ level + left
  | 0, level => ⟨Nat.le_refl _, Nat.le_refl _⟩
  | left + 1, level => by
    have ih := levelLoop_range coins left (level + 1)
    rw [levelLoop]
    split <;> omega

theorem randomLevel_range (coins : Nat → Bool) :
    1 ≤ randomLevel coins ∧ randomLevel coins ≤ SKIPLIST_MAX_LEVEL :=
  levelLoop_range coins 15 1

theorem levelLoop_attains {h : Nat} : ∀ left level, level ≤ h → h ≤ level + left →
    levelLoop (fun l => decide (l < h)) left level = h
  | 0, level, h1, h2 => by rw [levelLoop]; omega
  | left + 1, level, h1, h2 => by
    rw [levelLoop]
    by_cases hl : level < h
    · rw [if_pos (by simpa using hl)]; exact levelLoop_attains left (level + 1) hl (by omega)
    · rw [if_neg (by simpa using hl)]; omega

/-- Every height comes up for some coins. -/
theorem randomLevel_attains {h : Nat} (h1 : 1 ≤ h) (h2 : h ≤ SKIPLIST_MAX_LEVEL) :
    ∃ coins, randomLevel coins = h := ⟨_, levelLoop_attains 15 1 h1 h2⟩

end Cdsa.Skiplist
