import Mathlib.Algebra.GroupWithZero.Nat
import Cdsa.Core.CStr
import Cdsa.Core.Slots
import Cdsa.L1Memory.Status

/-!
# The Robin Hood hash map

`src/hashmap.c` keeps an array of `capacity` entries probed linearly. An
entry stores the caller's key (not a copy), its value, the raw hash of the key
and its probe sequence length (PSL): how far it sits from `hash % capacity`. A
slot whose key is NULL is empty; here it is `none`.

`size_t` arithmetic on capacities and versions is modulo 2^64, and so is the
size of the array in bytes: `entries` are the slots that its block has, and to
access any other one is undefined. PSLs and the size count slots of one array
and never come near 2^64. A value is a `void *`: `none` is NULL.

Keys are of any type; `read` says which string a key is when it is looked at,
and `none` that it is none any more. With `some` for `read` the keys are the
strings themselves: what the caller sees as long as it leaves them alone.

A loop that the source bounds by a condition on the table alone gets
`capacity` as fuel, and `none` means that it has not ended by then, or that the
code is undefined.
-/
namespace Cdsa.Hashmap

open Cdsa.Core

variable {K V : Type}

/-- mirrors src/hashmap.c:10-16 -/
structure HashEntry (K V : Type) where
  key : K
  value : Option V
  hash : Nat
  psl : Nat
  deriving DecidableEq

/-- mirrors src/hashmap.c:18-25 -/
structure CdsaHashmap (K V : Type) where
  capacity : Nat
  size : Nat
  maxPsl : Nat
  version : Nat
  entries : List (Option (HashEntry K V))
  deriving DecidableEq

/-- Two pointers and two sizes.
mirrors src/hashmap.c:10-16 -/
def sizeofHashEntry : Nat := 32

/-- The slots in a block for `capacity` entries: the product is a `size_t`.
mirrors src/hashmap.c:48,194, src/allocator.c:32-38 -/
def callocEntries (capacity : Nat) : List (Option (HashEntry K V)) :=
  List.replicate (capacity * sizeofHashEntry % 2 ^ 64 / sizeofHashEntry) none

/-- `okMap` and `okEntries` are the answers of the two allocations.
mirrors src/hashmap.c:32-56 -/
def cdsaCreateHashmap (okMap okEntries : Bool) (capacity : Nat) : Option (CdsaHashmap K V) :=
  let capacity := if capacity = 0 then 1 else capacity
  if okMap && okEntries then
    some { capacity, size := 0, maxPsl := 0, version := 0, entries := callocEntries capacity }
  else none

/-- mirrors src/hashmap.c:65-69 -/
def cdsaSizeHashmap (m : CdsaHashmap K V) : Nat := m.size

/-- A `char` added to a `size_t`: it is signed, so bytes from 128 on are
sign-extended. -/
def charToSize (b : UInt8) : Nat := if b.toNat < 128 then b.toNat else 2 ^ 64 - 256 + b.toNat

/-- mirrors src/hashmap.c:72-79 -/
def getRawHash (key : CStr) : Nat :=
  key.bytes.foldl (fun h b => (h * 31 + charToSize b) % 2 ^ 64) 0

/-! ## Loops that read no string -/

/-- The loop body of `recalculate_max_psl`. -/
def raiseMax (es : List (Option (HashEntry K V))) (newMax i : Nat) : Nat :=
  match slot es i with
  | some e => if newMax < e.psl then e.psl else newMax
  | none => newMax

/-- The loop reads all slots below `capacity`.
mirrors src/hashmap.c:119-129 -/
def recalculateMaxPsl (m : CdsaHashmap K V) : Option (CdsaHashmap K V) :=
  if m.capacity ≤ m.entries.length then
    some { m with maxPsl := (List.range m.capacity).foldl (raiseMax m.entries) 0 }
  else none

/-- The doubled table before anything is moved into it.
mirrors src/hashmap.c:193-203 -/
def doubled (m : CdsaHashmap K V) : CdsaHashmap K V :=
  let newCapacity := m.capacity * 2 % 2 ^ 64
  { m with entries := callocEntries newCapacity, capacity := newCapacity, size := 0 }

/-- The load-factor guard of `insert_hashmap`. -/
def needsResize (m : CdsaHashmap K V) : Bool := m.capacity * 3 % 2 ^ 64 / 4 ≤ m.size

/-- The backward shift: the entries it leaves, the last `curr` and
`max_psl_affected`.
mirrors src/hashmap.c:240-254 -/
def shiftLoop (capacity maxPsl : Nat) : Nat → List (Option (HashEntry K V)) → Nat → Bool →
    Option (List (Option (HashEntry K V)) × Nat × Bool)
  | 0, _, _, _ => none
  | fuel + 1, es, curr, affected =>
    let next := (curr + 1) % capacity
    match es[next]? with
    | none => none
    | some none => some (es, curr, affected)
    | some (some e) =>
      if 0 < e.psl then
        shiftLoop capacity maxPsl fuel (es.set curr (some { e with psl := e.psl - 1 })) next
          (affected || e.psl == maxPsl)
      else some (es, curr, affected)

/-! ## Loops that compare keys -/

section
variable (read : K → Option CStr)

/-- The integer check, then the string comparison.
mirrors src/hashmap.c:101-102,170-171,230-231 -/
def HashEntry.matches (e : HashEntry K V) (key : K) (rawHash : Nat) : Option Bool :=
  if e.hash = rawHash then
    (read e.key).bind fun a => (read key).map fun b => decide (CStr.strcmp a b = 0)
  else some false

/-- The `while (true)` of `internal_insert`.
mirrors src/hashmap.c:87-116 -/
def insertLoop : Nat → CdsaHashmap K V → Nat → HashEntry K V → Option (Status × CdsaHashmap K V)
  | 0, _, _, _ => none
  | fuel + 1, m, index, incoming =>
    match m.entries[index]? with
    | none => none
    | some none =>
      some (.ok, { m with
        entries := m.entries.set index (some incoming)
        size := m.size + 1
        maxPsl := if m.maxPsl < incoming.psl then incoming.psl else m.maxPsl })
    | some (some e) =>
      (e.matches read incoming.key incoming.hash).bind fun same =>
        if same then
          some (.ok, { m with
            entries := m.entries.set index (some { e with value := incoming.value }) })
        else if e.psl < incoming.psl then
          insertLoop fuel { m with entries := m.entries.set index (some incoming) }
            ((index + 1) % m.capacity) { e with psl := e.psl + 1 }
        else insertLoop fuel m ((index + 1) % m.capacity) { incoming with psl := incoming.psl + 1 }

/-- mirrors src/hashmap.c:82-117 -/
def internalInsert (m : CdsaHashmap K V) (key : K) (value : Option V) (rawHash : Nat) :
    Option (Status × CdsaHashmap K V) :=
  insertLoop read m.capacity m (rawHash % m.capacity) ⟨key, value, rawHash, 0⟩

/-- The loop of `resize_hashmap` over the old entries.
mirrors src/hashmap.c:205-211 -/
def reinsert : CdsaHashmap K V → List (Option (HashEntry K V)) → Option (CdsaHashmap K V)
  | m, [] => some m
  | m, none :: old => reinsert m old
  | m, some e :: old => (internalInsert read m e.key e.value e.hash).bind fun r => reinsert r.2 old

/-- `ok` is the answer of the allocation. The loop reads all slots below the old
capacity.
mirrors src/hashmap.c:186-217 -/
def resizeHashmap (ok : Bool) (m : CdsaHashmap K V) : Option (Status × CdsaHashmap K V) :=
  if ok then
    if m.capacity ≤ m.entries.length then
      (reinsert read (doubled m) m.entries).map fun m1 =>
        (.ok, { m1 with version := (m1.version + 1) % 2 ^ 64 })
    else none
  else some (.errOom, m)

/-- mirrors src/hashmap.c:131-145 -/
def insertHashmap (ok : Bool) (m : CdsaHashmap K V) (key : K) (value : Option V) :
    Option (Status × CdsaHashmap K V) :=
  if needsResize m then
    (resizeHashmap read ok m).bind fun r =>
      if r.1 = .ok then
        (read key).bind fun k => internalInsert read r.2 key value (getRawHash k)
      else some r
  else (read key).bind fun k => internalInsert read m key value (getRawHash k)

/-- The probe loop that `get_hashmap` and `remove_hashmap` share; the first
argument is `max_psl + 1 - probe_distance`, which the loop looks at after the
slot.
mirrors src/hashmap.c:168-177,228-271 -/
def probe (m : CdsaHashmap K V) (key : K) (rawHash : Nat) : Nat → Nat → Option (Option Nat)
  | 0, index => (m.entries[index]?).map fun _ => none
  | left + 1, index =>
    match m.entries[index]? with
    | none => none
    | some none => some none
    | some (some e) =>
      (e.matches read key rawHash).bind fun same =>
        if same then some (some index) else probe m key rawHash left ((index + 1) % m.capacity)

/-- The slot at which the probe loop meets `key`, if it meets it. -/
def findSlot (m : CdsaHashmap K V) (key : K) : Option (Option Nat) :=
  (read key).bind fun k =>
    probe read m key (getRawHash k) (m.maxPsl + 1) (getRawHash k % m.capacity)

/-- mirrors src/hashmap.c:159-180 -/
def getHashmap (m : CdsaHashmap K V) (key : K) : Option (Option V) :=
  (findSlot read m key).map fun
    | some index => (slot m.entries index).bind (·.value)
    | none => none

/-- mirrors src/hashmap.c:182-184 -/
def containsHashmap (m : CdsaHashmap K V) (key : K) : Option Bool :=
  (getHashmap read m key).map Option.isSome

/-- mirrors src/hashmap.c:219-274 -/
def removeHashmap (m : CdsaHashmap K V) (key : K) : Option (Status × CdsaHashmap K V) :=
  (findSlot read m key).bind fun
    | none => some (.errNotFound, m)
    | some index =>
      let affected := (slot m.entries index).any (·.psl == m.maxPsl)
      (shiftLoop m.capacity m.maxPsl m.capacity m.entries index affected).bind fun r =>
        let m1 := { m with
          size := m.size - 1
          version := (m.version + 1) % 2 ^ 64
          entries := r.1.set r.2.1 none }
        (if r.2.2 then recalculateMaxPsl m1 else some m1).map fun m2 => (.ok, m2)

end

end Cdsa.Hashmap
