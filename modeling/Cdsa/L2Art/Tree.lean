import Cdsa.L2Art.Node

/-!
# The operations of the adaptive radix tree

A search, an insertion and a deletion each walk down from the root. `depth`
counts the key bytes used so far. A node's compressed prefix is compared
through its first ten bytes only; search and deletion skip the rest, an
insertion recovers it from some leaf below (`findMinimumLeaf`).

The C code rewrites nodes in place through a pointer to the slot that holds
them; here a node is replaced by its new version. Reading a string past its
terminator or a prefix past its tenth byte is undefined (`none`), and so is a
walk that does not end. Every level of a walk uses up a byte of the key, so
`strlen` levels and two more are fuel enough; `findMinimumLeaf` has the height
of the node.
-/
namespace Cdsa.Art

open Cdsa.Core Cdsa.Memory

variable {V : Type}

/-- The largest `int`. -/
def intMax : Nat := 2 ^ 31 - 1

/-- The conversion of a `size_t` to `int`. -/
def toInt (n : Nat) : Int := Int.bmod n (2 ^ 32)

/-- The conversion of an `int` to `uint32_t`. -/
def toU32 (i : Int) : Nat := (i % 2 ^ 32).toNat

/-- `root`, `size`, `version` and `slab_manager` are fields of the tree at
address `self`; `size` and the slab are in `env`.
mirrors src/art.c:73-78 -/
structure CdsaArtTree (V : Type) where
  self : Ptr
  root : Option (Node V)
  version : Nat
  env : Env

/-! ## Reading -/

/-- `s[i]`, the terminator included. -/
def read (s : CStr) (i : Nat) : Option UInt8 := s.term[i]?

/-- `n` bytes from `s[i]` on. -/
def readRange (s : CStr) : Nat → Nat → Option (List UInt8)
  | _, 0 => some []
  | i, n + 1 => (read s i).bind fun b => (readRange s (i + 1) n).map fun bs => b :: bs

/-- The loop of `check_prefix` from `idx` on. -/
def checkPrefixLoop (h : NodeHeader) (key : CStr) (depth : Nat) : Nat → Nat → Option Nat
  | 0, idx => some idx
  | left + 1, idx =>
    h.prefixBytes[idx]?.bind fun p =>
      (read key (depth + idx)).bind fun k =>
        if p ≠ k then some idx else checkPrefixLoop h key depth left (idx + 1)

/-- mirrors src/art.c:195-207 -/
def checkPrefix (h : NodeHeader) (key : CStr) (depth : Nat) : Option Nat :=
  checkPrefixLoop h key depth (min h.prefixLen 10) 0

/-- The child `find_minimum_leaf` goes on to.
mirrors src/art.c:705-733 -/
def firstChild : Inner (Node V) → Option (Node V)
  | .node4 n | .node16 n => n.cells.head?.bind Prod.snd
  | .node48 n =>
    (allBytes.find? fun c => n.childIndex c ≠ ART_EMPTY_SLOT).bind fun c =>
      slot n.children (n.childIndex c).toNat
  | .node256 n => allBytes.findSome? fun c => slot n.children c.toNat

def minimumLeafLoop : Nat → Node V → Option (ArtLeaf V)
  | _, .leaf l => some l
  | 0, .inner _ => none
  | fuel + 1, .inner n => (firstChild n).bind (minimumLeafLoop fuel)

/-- mirrors src/art.c:697-739 -/
def findMinimumLeaf (node : Node V) : Option (ArtLeaf V) := minimumLeafLoop node.height node

/-- What search and deletion do with the compressed prefix of a node. -/
inductive Entry where
  /-- the stored bytes differ from the key's -/
  | mismatch
  /-- the prefix reaches past the end of the key -/
  | past
  | below (depth : Nat)
  deriving DecidableEq

/-- The new `depth` is an `int`. Where it is negative, the next byte of the key is
read in front of it.
mirrors src/art.c:601-612,1079-1091 -/
def enter (h : NodeHeader) (key : CStr) (depth : Nat) : Option Entry :=
  if h.prefixLen = 0 then some (.below depth)
  else (checkPrefix h key depth).bind fun matchLen =>
    if matchLen ≠ min h.prefixLen 10 then some .mismatch
    else if toInt key.strlen < toInt (depth + h.prefixLen) then some .past
    else (toInt (depth + h.prefixLen)).toNat?.map .below

/-! ## Search -/

def searchLoop (key : CStr) : Nat → Node V → Nat → Option (Option V)
  | 0, _, _ => none
  | _ + 1, .leaf l, _ => some (if CStr.strcmp l.key key = 0 then l.value else none)
  | fuel + 1, .inner n, depth =>
    (enter n.header key depth).bind fun
      | .mismatch | .past => some none
      | .below depth =>
        (read key depth).bind fun c =>
          match n.look c with
          | none => some none
          | some child => searchLoop key fuel child (depth + 1)

/-- mirrors src/art.c:1059-1137 -/
def cdsaSearchArt (t : CdsaArtTree V) (key : CStr) : Option (Option V) :=
  match t.root with
  | none => some none
  | some root => searchLoop key (key.strlen + 2) root 0

/-- mirrors src/art.c:767-771 -/
def cdsaSizeArt (t : CdsaArtTree V) : Nat := t.env.size

/-! ## Insertion -/

/-- How far two strings agree; the loops compare byte by byte from the start. -/
def agree : List UInt8 → List UInt8 → Nat
  | a :: as, b :: bs => if a = b then agree as bs + 1 else 0
  | _, _ => 0

/-- Writing `bs` over the start of the prefix array. -/
def NodeHeader.store (h : NodeHeader) (len : Nat) (bs : List UInt8) : NodeHeader :=
  ⟨len, bs ++ h.prefixBytes.drop bs.length⟩

/-- A new Node4 over two children. -/
def pairNode (block : Nat) (header : NodeHeader) (c : UInt8) (x : Node V) (c' : UInt8)
    (x' : Node V) : Node V :=
  .inner (.node4 { block, header, numChildren := 2, cells := [(c, some x), (c', some x')] })

/-- Meeting a leaf: replace its value, or put a Node4 in its place.
mirrors src/art.c:825-865 -/
def splitLeaf (e : Env) (l : ArtLeaf V) (key : CStr) (value : Option V) (depth : Nat) :
    Option (Status × Node V × Env) :=
  let i := agree l.key.bytes key.bytes
  if intMax < i then none
  else if l.key.byteAt i = 0 ∧ key.byteAt i = 0 then some (.ok, .leaf { l with value }, e)
  else
    match e.allocBlock .node4 with
    | (none, e) => some (.errOom, .leaf l, e)
    | (some block, e) =>
      let sharedLen := toU32 (i - depth)
      (readRange key depth (min sharedLen 10)).bind fun bs =>
        (allocLeaf e key value).map fun
          | (none, e) => (.errOom, .leaf l, e.freeBlock .node4 block)
          | (some newLeaf, e) =>
            (.ok, pairNode block (NodeHeader.zero.store sharedLen bs) (l.key.byteAt i) (.leaf l)
              (key.byteAt i) (.leaf newLeaf), { e with size := e.size + 1 })

/-- The loop that goes on comparing with a leaf's key, at most `left` bytes.
mirrors src/art.c:874-878 -/
def extendMatch (key leafKey : CStr) (depth : Nat) : Nat → Nat → Option Nat
  | 0, matchLen => some matchLen
  | left + 1, matchLen =>
    (read key (depth + matchLen)).bind fun k =>
      if k = 0 then some matchLen
      else (read leafKey (depth + matchLen)).bind fun l =>
        if k = l then extendMatch key leafKey depth left (matchLen + 1) else some matchLen

/-- The length of the match with the whole prefix.
mirrors src/art.c:867-879 -/
def matchPrefix (n : Inner (Node V)) (key : CStr) (depth : Nat) : Option Nat :=
  if n.header.prefixLen = 0 then some 0
  else (checkPrefix n.header key depth).bind fun matchLen =>
    if matchLen = min n.header.prefixLen 10 ∧ 10 < n.header.prefixLen then
      (findMinimumLeaf (.inner n)).bind fun leaf =>
        extendMatch key leaf.key depth (n.header.prefixLen - matchLen) matchLen
    else some matchLen

/-- The prefix differs after `matchLen` bytes: a Node4 takes the node's place.
mirrors src/art.c:881-919 -/
def splitPrefix (e : Env) (n : Inner (Node V)) (key : CStr) (value : Option V)
    (depth matchLen : Nat) : Option (Status × Node V × Env) :=
  match e.allocBlock .node4 with
  | (none, e) => some (.errOom, .inner n, e)
  | (some block, e) =>
    (allocLeaf e key value).bind fun
      | (none, e) => some (.errOom, .inner n, e.freeBlock .node4 block)
      | (some newLeaf, e) =>
        (readRange key depth (min matchLen 10)).bind fun bs =>
          (findMinimumLeaf (.inner n)).bind fun leaf =>
            (read leaf.key (depth + matchLen)).bind fun oldChar =>
              let newLen := n.header.prefixLen - (matchLen + 1)
              (readRange leaf.key (depth + matchLen + 1) (min newLen 10)).bind fun rest =>
                (read key (matchLen + depth)).map fun newChar =>
                  (.ok, pairNode block (NodeHeader.zero.store matchLen bs) oldChar
                    (.inner (n.setHeader (n.header.store newLen rest))) newChar (.leaf newLeaf),
                    { e with size := e.size + 1 })

/-- Allocating the new leaf and putting it into the node. -/
def addLeaf (e : Env) (n : Inner (Node V)) (key : CStr) (value : Option V)
    (put : Node V → Option (Inner (Node V))) : Option (Status × Inner (Node V) × Env) :=
  (allocLeaf e key value).bind fun
    | (none, e) => some (.errOom, n, e)
    | (some newLeaf, e) =>
      (put (.leaf newLeaf)).map fun n => (.ok, n, { e with size := e.size + 1 })

/-- The node has no child for `c`: add the leaf, to a larger layout if this one
is full. An upgrade stays when the leaf cannot be allocated.
mirrors src/art.c:929-1040 -/
def addChild (e : Env) (c : UInt8) (key : CStr) (value : Option V) :
    Inner (Node V) → Option (Status × Inner (Node V) × Env)
  | .node4 n =>
    if n.numChildren < 4 then
      addLeaf e (.node4 n) key value fun x => some (.node4 (n.append c x))
    else
      match upgradeNode4ToNode16 e n with
      | (none, e) => some (.errOom, .node4 n, e)
      | (some n, e) => addLeaf e (.node16 n) key value fun x => some (.node16 (n.append c x))
  | .node16 n =>
    if n.numChildren < 16 then
      addLeaf e (.node16 n) key value fun x => some (.node16 (n.append c x))
    else
      (upgradeNode16ToNode48 e n).bind fun
        | (none, e) => some (.errOom, .node16 n, e)
        | (some n, e) =>
          addLeaf e (.node48 n) key value fun x => some (.node48 (n.put c n.numChildren x))
  | .node48 n =>
    if n.numChildren < 48 then
      addLeaf e (.node48 n) key value fun x =>
        (freeIndex n.children).map fun i => .node48 (n.put c i x)
    else
      match upgradeNode48ToNode256 e n with
      | (none, e) => some (.errOom, .node48 n, e)
      | (some n, e) => addLeaf e (.node256 n) key value fun x => some (.node256 (n.put c x))
  | .node256 n => addLeaf e (.node256 n) key value fun x => some (.node256 (n.put c x))

/-- The `while` of `_insert_art_internal`. Where `depth` is no `int` behind a prefix
that matches, it is negative, or has overflowed while the prefix was compared.
mirrors src/art.c:822-1046 -/
def insertLoop (key : CStr) (value : Option V) :
    Nat → Env → Node V → Nat → Option (Status × Node V × Env)
  | 0, _, _, _ => none
  | _ + 1, e, .leaf l, depth => splitLeaf e l key value depth
  | fuel + 1, e, .inner n, depth =>
    (matchPrefix n key depth).bind fun matchLen =>
      if matchLen < n.header.prefixLen then splitPrefix e n key value depth matchLen
      else if 0 < n.header.prefixLen ∧ toInt key.strlen < toInt (depth + n.header.prefixLen) then
        some (.errInvalid, .inner n, e)
      else if toInt (depth + n.header.prefixLen) ≠ (depth + n.header.prefixLen : Nat) then none
      else
        (read key (depth + n.header.prefixLen)).bind fun c =>
          match n.findChild c, n.type with
          | some (some child), _ =>
            (insertLoop key value fuel e child (depth + n.header.prefixLen + 1)).map fun r =>
              (r.1, .inner (n.setChild c (some r.2.1)), r.2.2)
          | none, _ | some none, .node256 =>
            (addChild e c key value n).map fun r => (r.1, .inner r.2.1, r.2.2)
          | some none, _ => some (.errInvalid, .inner n, e)

/-- mirrors src/art.c:800-1047 -/
def insertArtInternal (t : CdsaArtTree V) (key : CStr) (value : Option V) :
    Option (Status × CdsaArtTree V) :=
  match t.root with
  | none =>
    (allocLeaf t.env key value).map fun
      | (none, env) => (.errOom, { t with env })
      | (some l, env) =>
        (.ok, { t with root := some (.leaf l), env := { env with size := env.size + 1 } })
  | some root =>
    (insertLoop key value (key.strlen + 2) t.env root 0).map fun r =>
      (r.1, { t with root := some r.2.1, env := r.2.2 })

/-- mirrors src/art.c:1049-1057 -/
def cdsaInsertArt (t : CdsaArtTree V) (key : CStr) (value : Option V) :
    Option (Status × CdsaArtTree V) :=
  (insertArtInternal t key value).map fun r =>
    (r.1, if r.1 = .ok then { r.2 with version := (r.2.version + 1) % 2 ^ 64 } else r.2)

/-! ## Deletion -/

/-- The header of the only child that is left, with the parent's prefix and
its byte in front.
mirrors src/art.c:668-681 -/
def glue (h : NodeHeader) (c : UInt8) (ch : NodeHeader) : NodeHeader :=
  let newLen := (h.prefixLen + 1 + ch.prefixLen) % 2 ^ 32
  ch.store newLen ((h.prefixBytes.take h.prefixLen ++
    c :: ch.prefixBytes.take ch.prefixLen).take (min newLen 10))

/-- After a child has been removed: a smaller layout, if its pool has a block,
or the only child that is left.
mirrors src/art.c:643-690 -/
def shrink (e : Env) : Inner (Node V) → Option (Option (Node V) × Env)
  | .node256 n =>
    if n.numChildren = 48 then
      (downgradeNode256ToNode48 e n).map fun
        | (some smaller, e) => (some (.inner (.node48 smaller)), e)
        | (none, e) => (some (.inner (.node256 n)), e)
    else some (some (.inner (.node256 n)), e)
  | .node48 n =>
    if n.numChildren = 16 then
      (downgradeNode48ToNode16 e n).map fun
        | (some smaller, e) => (some (.inner (.node16 smaller)), e)
        | (none, e) => (some (.inner (.node48 n)), e)
    else some (some (.inner (.node48 n)), e)
  | .node16 n =>
    if n.numChildren = 4 then
      match downgradeNode16ToNode4 e n with
      | (some smaller, e) => some (some (.inner (.node4 smaller)), e)
      | (none, e) => some (some (.inner (.node16 n)), e)
    else some (some (.inner (.node16 n)), e)
  | .node4 n =>
    if n.numChildren = 0 then some (none, e.freeBlock .node4 n.block)
    else if n.numChildren = 1 then
      match n.cells.head? with
      | some (_, some (.leaf l)) => some (some (.leaf l), e.freeBlock .node4 n.block)
      | some (c, some (.inner ch)) =>
        some (some (.inner (ch.setHeader (glue n.header c ch.header))), e.freeBlock .node4 n.block)
      | _ => none
    else some (some (.inner (.node4 n)), e)

/-- The node left in the slot, `*deleted`, and the rest.
mirrors src/art.c:575-691 -/
def recursiveDelete (key : CStr) : Nat → Env → Node V → Nat → Option (Option (Node V) × Bool × Env)
  | 0, _, _, _ => none
  | _ + 1, e, .leaf l, _ =>
    if CStr.strcmp l.key key = 0 then
      (cdsaFreeTrack e.mem (some l.keyPtr)).map fun mem =>
        (none, true, Env.freeBlock .leafNode l.block { e with size := e.size - 1, mem })
    else some (some (.leaf l), false, e)
  | fuel + 1, e, .inner n, depth =>
    (enter n.header key depth).bind fun
      | .mismatch => some (some (.inner n), false, e)
      | .past => some (none, false, e)
      | .below depth =>
        (read key depth).bind fun c =>
          match n.look c with
          | none => some (some (.inner n), false, e)
          | some child =>
            (recursiveDelete key fuel e child (depth + 1)).bind fun r =>
              if r.2.1 ∧ r.1.isNone then
                (shrink r.2.2 ((n.setChild c r.1).removeChild c)).map fun q => (q.1, true, q.2)
              else some (some (.inner (n.setChild c r.1)), r.2.1, r.2.2)

/-- mirrors src/art.c:786-797 -/
def cdsaDeleteArt (t : CdsaArtTree V) (key : CStr) : Option (Status × CdsaArtTree V) :=
  match t.root with
  | none => some (.errNotFound, t)
  | some root =>
    (recursiveDelete key (key.strlen + 2) t.env root 0).map fun r =>
      (if r.2.1 then .ok else .errNotFound, { t with root := r.1, env := r.2.2 })

/-! ## Creation and teardown -/

/-- `sizeof` of the structures of a pool. -/
def NodeType.bytes : NodeType → Nat
  | .node4 => 64
  | .node16 => 168
  | .node48 => 672
  | .node256 => 2080
  | .leafNode => 40

/-- mirrors src/art.c:82-94 -/
def artSlabDestroy (mem : Mem) (self : Ptr) (pools : NodeType → Option Kpool) : Option Mem :=
  (kpoolDestroy mem (pools .node4)).bind fun mem =>
    (kpoolDestroy mem (pools .node16)).bind fun mem =>
      (kpoolDestroy mem (pools .node48)).bind fun mem =>
        (kpoolDestroy mem (pools .node256)).bind fun mem =>
          (kpoolDestroy mem (pools .leafNode)).bind fun mem => cdsaFreeTrack mem (some self)

/-- mirrors src/art.c:96-115 -/
def artSlabCreate (mem : Mem) (nodesPerTier : Nat) : Option (Option CdsaArtSlab × Mem) :=
  match cdsaMallocTrack mem 40 with
  | (none, mem) => some (none, mem)
  | (some self, mem) =>
    (kpoolCreate mem NodeType.node4.bytes nodesPerTier).bind fun (p4, mem) =>
      (kpoolCreate mem NodeType.node16.bytes nodesPerTier).bind fun (p16, mem) =>
        (kpoolCreate mem NodeType.node48.bytes nodesPerTier).bind fun (p48, mem) =>
          (kpoolCreate mem NodeType.node256.bytes nodesPerTier).bind fun (p256, mem) =>
            (kpoolCreate mem NodeType.leafNode.bytes nodesPerTier).bind fun (pLeaf, mem) =>
              match p4, p16, p48, p256, pLeaf with
              | some p4, some p16, some p48, some p256, some pLeaf =>
                some (some { self, pools := fun
                  | .node4 => p4
                  | .node16 => p16
                  | .node48 => p48
                  | .node256 => p256
                  | .leafNode => pLeaf }, mem)
              | _, _, _, _, _ =>
                (artSlabDestroy mem self fun
                  | .node4 => p4
                  | .node16 => p16
                  | .node48 => p48
                  | .node256 => p256
                  | .leafNode => pLeaf).map fun mem => (none, mem)

/-- The library passes 1024 as `nodesPerTier`. The field `version` is not
initialised.
mirrors src/art.c:743-757 -/
def cdsaCreateArt (mem : Mem) (nodesPerTier version : Nat) :
    Option (Option (CdsaArtTree V) × Mem) :=
  match cdsaMallocTrack mem 32 with
  | (none, mem) => some (none, mem)
  | (some self, mem) =>
    (artSlabCreate mem nodesPerTier).bind fun
      | (none, mem) => (cdsaFreeTrack mem (some self)).map fun mem => (none, mem)
      | (some slab, mem) =>
        some (some { self, root := none, version, env := { size := 0, slab, mem, failed := 0 } }, mem)

/-- The children in the order in which `cdsa_free_node` visits them. -/
def Inner.children : Inner (Node V) → List (Node V)
  | .node4 n | .node16 n => n.cells.filterMap Prod.snd
  | .node48 n => (Inner.node48 n).kids.map Prod.snd
  | .node256 n => (Inner.node256 n).kids.map Prod.snd

def freeNodeLoop : Nat → Env → Node V → Option Env
  | _, e, .leaf l =>
    (cdsaFreeTrack e.mem (some l.keyPtr)).map fun mem =>
      Env.freeBlock .leafNode l.block { e with mem }
  | 0, _, .inner _ => none
  | fuel + 1, e, .inner n =>
    (n.children.foldlM (freeNodeLoop fuel) e).map (Env.freeBlock n.type n.block)

/-- mirrors src/art.c:308-358 -/
def cdsaFreeNode (e : Env) : Option (Node V) → Option Env
  | none => some e
  | some node => freeNodeLoop node.height e node

/-- mirrors src/art.c:759-765 -/
def cdsaFreeArt (t : CdsaArtTree V) : Option Mem :=
  (cdsaFreeNode t.env t.root).bind fun e =>
    (artSlabDestroy e.mem e.slab.self fun type => some (e.slab.pools type)).bind fun mem =>
      cdsaFreeTrack mem (some t.self)

end Cdsa.Art
