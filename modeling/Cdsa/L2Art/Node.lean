import Cdsa.Core.CStr
import Cdsa.Core.Graph
import Cdsa.Core.Slots
import Cdsa.L1Memory.Kpool
import Cdsa.L1Memory.Status

/-!
# The nodes of the adaptive radix tree

An inner node of `src/art.c` has one of four layouts: Node4 and Node16 pair
`keys[i]` with `children[i]` for i < `num_children`, Node48 finds the slot of
a child through the 256-entry `child_index`, Node256 is indexed by the byte
itself. All carry a header with the length of the compressed prefix and its
first ten bytes.

`look n c` is the child that byte `c` leads to, whatever the layout, and
`kids` lists the pairs of `look`. Only the first `num_children` cells of a
Node4 or Node16 are ever read, so `cells` stops there. A node remembers its
block in the pool of its type, a leaf also the address of its key string.

Writing past an array, freeing a block of a pool with `CDSA_FREE` and reading
through NULL are undefined: `none`.
-/
namespace Cdsa.Art

open Cdsa.Core Cdsa.Memory

variable {V P : Type}

/-- mirrors src/art.c:12 -/
def ART_EMPTY_SLOT : UInt8 := 255

/-- mirrors src/art.c:14 -/
inductive NodeType where
  | node4
  | node16
  | node48
  | node256
  | leafNode
  deriving DecidableEq, Repr

/-- The ten bytes `prefix` are `prefixBytes`.
mirrors src/art.c:16-20 -/
structure NodeHeader where
  prefixLen : Nat
  prefixBytes : List UInt8
  deriving DecidableEq

/-- A zeroed header. -/
def NodeHeader.zero : NodeHeader := ⟨0, List.replicate 10 0⟩

/-- Node4 and Node16.
mirrors src/art.c:30-42 -/
structure Packed (P : Type) where
  block : Nat
  header : NodeHeader
  numChildren : Nat
  cells : List (UInt8 × Option P)

/-- mirrors src/art.c:44-58 -/
structure Node48 (P : Type) where
  block : Nat
  header : NodeHeader
  numChildren : Nat
  childIndex : UInt8 → UInt8
  children : List (Option P)

/-- mirrors src/art.c:60-65 -/
structure Node256 (P : Type) where
  block : Nat
  header : NodeHeader
  numChildren : Nat
  children : List (Option P)

/-- mirrors src/art.c:67-71 -/
structure ArtLeaf (V : Type) where
  block : Nat
  keyPtr : Ptr
  key : CStr
  value : Option V

inductive Inner (P : Type) where
  | node4 (n : Packed P)
  | node16 (n : Packed P)
  | node48 (n : Node48 P)
  | node256 (n : Node256 P)

inductive Node (V : Type) where
  | leaf (l : ArtLeaf V)
  | inner (n : Inner (Node V))

namespace Inner

def type : Inner P → NodeType
  | node4 _ => .node4
  | node16 _ => .node16
  | node48 _ => .node48
  | node256 _ => .node256

def block : Inner P → Nat
  | node4 n | node16 n => n.block
  | node48 n => n.block
  | node256 n => n.block

def header : Inner P → NodeHeader
  | node4 n | node16 n => n.header
  | node48 n => n.header
  | node256 n => n.header

def setHeader (h : NodeHeader) : Inner P → Inner P
  | node4 n => node4 { n with header := h }
  | node16 n => node16 { n with header := h }
  | node48 n => node48 { n with header := h }
  | node256 n => node256 { n with header := h }

def numChildren : Inner P → Nat
  | node4 n | node16 n => n.numChildren
  | node48 n => n.numChildren
  | node256 n => n.numChildren

/-- `find_child_node4` and its siblings: the slot of a byte, if there is one,
and what it holds.
mirrors src/art.c:278-305 -/
def findChild (c : UInt8) : Inner P → Option (Option P)
  | node4 n | node16 n => (n.cells.find? fun q => q.1 = c).map Prod.snd
  | node48 n =>
    if n.childIndex c = ART_EMPTY_SLOT then none else some (slot n.children (n.childIndex c).toNat)
  | node256 n => some (slot n.children c.toNat)

/-- The child a byte leads to. -/
def look (n : Inner P) (c : UInt8) : Option P := (n.findChild c).join

end Inner

/-- Writing to the first cell with key `c`. -/
def setCell (c : UInt8) (o : Option P) : List (UInt8 × Option P) → List (UInt8 × Option P)
  | [] => []
  | q :: cells => if q.1 = c then (q.1, o) :: cells else q :: setCell c o cells

/-- `*child_ptr = o` for the slot that `findChild` returned. -/
def Inner.setChild (c : UInt8) (o : Option P) : Inner P → Inner P
  | .node4 n => .node4 { n with cells := setCell c o n.cells }
  | .node16 n => .node16 { n with cells := setCell c o n.cells }
  | .node48 n =>
    if n.childIndex c = ART_EMPTY_SLOT then .node48 n
    else .node48 { n with children := n.children.set (n.childIndex c).toNat o }
  | .node256 n => .node256 { n with children := n.children.set c.toNat o }

/-- The bytes in the order of the loops `for (i = 0; i < 256; i++)`. -/
def allBytes : List UInt8 := (List.range 256).map UInt8.ofNat

/-- The children with their bytes. -/
def Inner.kids (n : Inner P) : List (UInt8 × P) := graph allBytes n.look

/-! ## What a call changes besides the nodes -/

/-- The five pools.
mirrors src/art.c:22-28 -/
structure CdsaArtSlab where
  self : Ptr
  pools : NodeType → Kpool

/-- `size` is a field of the tree, `slab` its `slab_manager`. -/
structure Env where
  size : Nat
  slab : CdsaArtSlab
  mem : Mem
  /-- ghost: how often `kpool_alloc` has found its pool exhausted -/
  failed : Nat

/-- `kpool_alloc` on the pool of `type`. -/
def Env.allocBlock (type : NodeType) (e : Env) : Option Nat × Env :=
  match kpoolAlloc (e.slab.pools type) with
  | (none, _) => (none, { e with failed := e.failed + 1 })
  | (some block, pool) =>
    (some block, { e with slab := { e.slab with pools := Function.update e.slab.pools type pool } })

/-- `kpool_free` on the pool of `type`. -/
def Env.freeBlock (type : NodeType) (block : Nat) (e : Env) : Env :=
  { e with slab := { e.slab with
      pools := Function.update e.slab.pools type (kpoolFree (e.slab.pools type) block) } }

/-- If the key cannot be copied, `CDSA_FREE` is called on a block of the pool.
mirrors src/art.c:176-191 -/
def allocLeaf (e : Env) (key : CStr) (value : Option V) : Option (Option (ArtLeaf V) × Env) :=
  match e.allocBlock .leafNode with
  | (none, e) => some (none, e)
  | (some block, e) =>
    match safeStrdup e.mem key with
    | (none, _) => none
    | (some keyPtr, mem) => some (some { block, keyPtr, key, value }, { e with mem })

/-! ## Upgrades and downgrades -/

/-- mirrors src/art.c:211-231 -/
def upgradeNode4ToNode16 (e : Env) (n : Packed P) : Option (Packed P) × Env :=
  match e.allocBlock .node16 with
  | (none, e) => (none, e)
  | (some block, e) => (some { n with block }, e.freeBlock .node4 n.block)

/-- `child_index` after entry i of `cells` has been given slot i. -/
def fillIndex : List (UInt8 × Option P) → Nat → (UInt8 → UInt8) → UInt8 → UInt8
  | [], _, childIndex => childIndex
  | q :: cells, i, childIndex =>
    fillIndex cells (i + 1) (Function.update childIndex q.1 (UInt8.ofNat i))

/-- A Node48 filled from slot 0 on; more than 48 children do not fit. -/
def tabulate (block : Nat) (header : NodeHeader) (numChildren : Nat)
    (cells : List (UInt8 × Option P)) : Option (Node48 P) :=
  if cells.length ≤ 48 then
    some {
      block, header, numChildren
      childIndex := fillIndex cells 0 fun _ => ART_EMPTY_SLOT
      children := cells.map Prod.snd ++ List.replicate (48 - cells.length) none }
  else none

/-- mirrors src/art.c:233-252 -/
def upgradeNode16ToNode48 (e : Env) (n : Packed P) : Option (Option (Node48 P) × Env) :=
  match e.allocBlock .node48 with
  | (none, e) => some (none, e)
  | (some block, e) =>
    (tabulate block n.header n.numChildren n.cells).map fun n' =>
      (some n', e.freeBlock .node16 n.block)

/-- mirrors src/art.c:254-274 -/
def upgradeNode48ToNode256 (e : Env) (n : Node48 P) : Option (Node256 P) × Env :=
  match e.allocBlock .node256 with
  | (none, e) => (none, e)
  | (some block, e) =>
    (some {
      block
      header := n.header
      numChildren := n.numChildren
      children := allBytes.map fun c => ((Inner.node48 n).findChild c).join },
      e.freeBlock .node48 n.block)

/-- The occupied slots of a Node256, in byte order. -/
def Node256.cells (n : Node256 P) : List (UInt8 × Option P) :=
  allBytes.filterMap fun c => (slot n.children c.toNat).map fun x => (c, some x)

/-- mirrors src/art.c:459-481 -/
def downgradeNode256ToNode48 (e : Env) (n : Node256 P) : Option (Option (Node48 P) × Env) :=
  match e.allocBlock .node48 with
  | (none, e) => some (none, e)
  | (some block, e) =>
    (tabulate block n.header n.numChildren n.cells).map fun n' =>
      (some n', e.freeBlock .node256 n.block)

/-- The indexed slots of a Node48, in byte order. -/
def Node48.cells (n : Node48 P) : List (UInt8 × Option P) :=
  allBytes.filterMap fun c => ((Inner.node48 n).findChild c).map fun o => (c, o)

/-- What the arrays of a zeroed node with `cells` written to them hold below
`num_children`. -/
def clip (numChildren : Nat) (cells : List (UInt8 × Option P)) : List (UInt8 × Option P) :=
  (cells ++ List.replicate (numChildren - cells.length) (0, none)).take numChildren

/-- mirrors src/art.c:483-507 -/
def downgradeNode48ToNode16 (e : Env) (n : Node48 P) : Option (Option (Packed P) × Env) :=
  match e.allocBlock .node16 with
  | (none, e) => some (none, e)
  | (some block, e) =>
    if n.cells.length ≤ 16 then
      some (some {
        block
        header := n.header
        numChildren := n.numChildren
        cells := clip n.numChildren n.cells }, e.freeBlock .node48 n.block)
    else none

/-- mirrors src/art.c:509-527 -/
def downgradeNode16ToNode4 (e : Env) (n : Packed P) : Option (Packed P) × Env :=
  match e.allocBlock .node4 with
  | (none, e) => (none, e)
  | (some block, e) => (some { n with block }, e.freeBlock .node16 n.block)

/-! ## Adding and removing a child -/

/-- The slot after the last one. -/
def Packed.append (c : UInt8) (x : P) (n : Packed P) : Packed P :=
  { n with cells := n.cells ++ [(c, some x)], numChildren := n.numChildren + 1 }

/-- Slot `i` and its entry in `child_index`. -/
def Node48.put (c : UInt8) (i : Nat) (x : P) (n : Node48 P) : Node48 P :=
  { n with
    children := n.children.set i (some x)
    childIndex := Function.update n.childIndex c (UInt8.ofNat i)
    numChildren := n.numChildren + 1 }

/-- `num_children` is a `uint16_t`. -/
def Node256.put (c : UInt8) (x : P) (n : Node256 P) : Node256 P :=
  { n with
    children := n.children.set c.toNat (some x)
    numChildren := (n.numChildren + 1) % 2 ^ 16 }

/-- The first NULL slot; scanning past the last one is undefined.
mirrors src/art.c:1001-1003 -/
def freeIndex (children : List (Option P)) : Option Nat := children.findIdx? Option.isNone

/-- Without the cell of `c`.
mirrors src/art.c:530-556 -/
def Packed.removeChild (c : UInt8) (n : Packed P) : Packed P :=
  if n.cells.any fun q => q.1 = c then
    { n with cells := n.cells.eraseP fun q => q.1 = c, numChildren := n.numChildren - 1 }
  else n

/-- mirrors src/art.c:558-565 -/
def Node48.removeChild (c : UInt8) (n : Node48 P) : Node48 P :=
  if n.childIndex c = ART_EMPTY_SLOT then n
  else { n with
    children := n.children.set (n.childIndex c).toNat none
    childIndex := Function.update n.childIndex c ART_EMPTY_SLOT
    numChildren := n.numChildren - 1 }

/-- mirrors src/art.c:567-572 -/
def Node256.removeChild (c : UInt8) (n : Node256 P) : Node256 P :=
  if (slot n.children c.toNat).isSome then
    { n with children := n.children.set c.toNat none, numChildren := n.numChildren - 1 }
  else n

/-- `remove_child_node4` and its siblings. -/
def Inner.removeChild (c : UInt8) : Inner P → Inner P
  | .node4 n => .node4 (n.removeChild c)
  | .node16 n => .node16 (n.removeChild c)
  | .node48 n => .node48 (n.removeChild c)
  | .node256 n => .node256 (n.removeChild c)

/-! ## Height -/

mutual

/-- The number of inner nodes above the deepest leaf. -/
def Node.height : Node V → Nat
  | .leaf _ => 0
  | .inner (.node4 ⟨_, _, _, cells⟩) => cellsHeight cells + 1
  | .inner (.node16 ⟨_, _, _, cells⟩) => cellsHeight cells + 1
  | .inner (.node48 ⟨_, _, _, _, children⟩) => slotsHeight children + 1
  | .inner (.node256 ⟨_, _, _, children⟩) => slotsHeight children + 1

def cellsHeight : List (UInt8 × Option (Node V)) → Nat
  | [] => 0
  | (_, none) :: cells => cellsHeight cells
  | (_, some n) :: cells => max n.height (cellsHeight cells)

def slotsHeight : List (Option (Node V)) → Nat
  | [] => 0
  | none :: children => slotsHeight children
  | some n :: children => max n.height (slotsHeight children)

end

end Cdsa.Art
