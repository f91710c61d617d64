import Cdsa.L2Art.Account
import Cdsa.L2Art.Remove

/-!
# The bytes that are read

Search, insertion and deletion index three arrays: the key that is passed, the
keys of leaves and the prefixes of nodes. The functions here list the indices in
the order of the reads, as the `int` or `size_t` that they are in the C code;
the way through the tree is that of the operations themselves.

`reads_in_bounds`: none of them is past a terminator, in front of a string or
behind the tenth byte of a prefix, where no prefix ends deeper than an `int` can
say (`Shallow`). An insertion also counts the bytes that two keys share in an
`int`. `deep_reads` is what happens otherwise. `searchLoop_of_safe`: nothing else
is undefined about a search.
-/
namespace Cdsa.Art

open Cdsa.Core Cdsa.Memory

variable {V : Type}

/-- A read of a byte. -/
inductive Access where
  /-- of the key that is passed -/
  | key (i : Int)
  /-- of the key of a leaf -/
  | leaf (s : CStr) (i : Int)
  /-- of the prefix array of a node -/
  | header (i : Nat)
  deriving DecidableEq

def Access.InBounds (key : CStr) : Access → Prop
  | .key i => 0 ≤ i ∧ i ≤ key.strlen
  | .leaf s i => 0 ≤ i ∧ i ≤ s.strlen
  | .header i => i < 10

def Safe (key : CStr) (as : List Access) : Prop := ∀ a ∈ as, a.InBounds key

/-! ## Strings and prefixes -/

/-- `n` bytes of the key from `i` on. -/
def keyReads (i n : Nat) : List Access := (List.range n).map fun p => .key (i + p : Nat)

/-- `n` bytes of a leaf's key from `i` on. -/
def leafReads (s : CStr) (i n : Nat) : List Access := (List.range n).map fun p => .leaf s (i + p : Nat)

/-- `strlen` of the key, or a copy of it. -/
def stringReads (key : CStr) : List Access := keyReads 0 (key.strlen + 1)

/-- Comparing with a leaf's key as far as both are the same. `index` is what an
index is converted to. -/
def compareReads (index : Nat → Int) (s key : CStr) : List Access :=
  (List.range (agree s.bytes key.bytes + 1)).flatMap fun i => [.leaf s (index i), .key (index i)]

/-- mirrors src/art.c:195-207 -/
def checkPrefixReads (h : NodeHeader) (key : CStr) (depth : Nat) : Nat → Nat → List Access
  | 0, _ => []
  | left + 1, idx =>
    .header idx :: .key (depth + idx : Nat) ::
      if h.prefixBytes[idx]? = read key (depth + idx) then checkPrefixReads h key depth left (idx + 1)
      else []

/-- A search or a deletion at a node, with the byte behind the prefix.
mirrors src/art.c:601-614,1079-1093 -/
def enterReads (h : NodeHeader) (key : CStr) (depth : Nat) : List Access :=
  if h.prefixLen = 0 then [.key depth]
  else
    checkPrefixReads h key depth (min h.prefixLen 10) 0 ++
      if checkPrefix h key depth = some (min h.prefixLen 10) ∧
          ¬ toInt key.strlen < toInt (depth + h.prefixLen) then
        [.key (toInt (depth + h.prefixLen))]
      else []

/-! ## Search -/

def searchLoopReads (key : CStr) : Nat → Node V → Nat → List Access
  | 0, _, _ => []
  | _ + 1, .leaf l, _ => compareReads Nat.cast l.key key
  | fuel + 1, .inner n, depth =>
    enterReads n.header key depth ++
      match enter n.header key depth with
      | some (.below depth) =>
        match (read key depth).bind n.look with
        | some child => searchLoopReads key fuel child (depth + 1)
        | none => []
      | _ => []

/-- mirrors src/art.c:1059-1137 -/
def searchReads (t : CdsaArtTree V) (key : CStr) : List Access :=
  match t.root with
  | none => []
  | some root => stringReads key ++ searchLoopReads key (key.strlen + 2) root 0

/-! ## Insertion -/

/-- `alloc_leaf` copies the key, once it has a block. -/
def allocLeafReads (e : Env) (key : CStr) : List Access :=
  if e.has .leafNode then stringReads key else []

/-- mirrors src/art.c:825-865 -/
def splitLeafReads (e : Env) (l : ArtLeaf V) (key : CStr) (depth : Nat) : List Access :=
  let i := agree l.key.bytes key.bytes
  compareReads toInt l.key key ++
    if l.key ≠ key ∧ e.has .node4 then
      keyReads depth (min (toU32 (i - depth)) 10) ++ .leaf l.key (toInt i) ::
        if e.has .leafNode then stringReads key ++ [.key (toInt i)] else []
    else []

/-- mirrors src/art.c:874-878 -/
def extendReads (key leafKey : CStr) (depth : Nat) : Nat → Nat → List Access
  | 0, _ => []
  | left + 1, matchLen =>
    .key (depth + matchLen : Nat) ::
      if read key (depth + matchLen) = some 0 then []
      else
        .leaf leafKey (depth + matchLen : Nat) ::
          if read key (depth + matchLen) = read leafKey (depth + matchLen) then
            extendReads key leafKey depth left (matchLen + 1)
          else []

/-- mirrors src/art.c:867-879 -/
def matchPrefixReads (n : Inner (Node V)) (key : CStr) (depth : Nat) : List Access :=
  if n.header.prefixLen = 0 then []
  else
    checkPrefixReads n.header key depth (min n.header.prefixLen 10) 0 ++
      if checkPrefix n.header key depth = some 10 ∧ 10 < n.header.prefixLen then
        match findMinimumLeaf (.inner n) with
        | some leaf => extendReads key leaf.key depth (n.header.prefixLen - 10) 10
        | none => []
      else []

/-- mirrors src/art.c:881-919 -/
def splitPrefixReads (e : Env) (n : Inner (Node V)) (key : CStr) (depth matchLen : Nat) :
    List Access :=
  if e.has .node4 ∧ e.has .leafNode then
    stringReads key ++ keyReads depth (min matchLen 10) ++
      match findMinimumLeaf (.inner n) with
      | some leaf =>
        leafReads leaf.key (depth + matchLen) 1 ++
          leafReads leaf.key (depth + matchLen + 1) (min (n.header.prefixLen - (matchLen + 1)) 10) ++
          keyReads (matchLen + depth) 1
      | none => []
  else []

/-- mirrors src/art.c:822-1046 -/
def insertLoopReads (key : CStr) (e : Env) : Nat → Node V → Nat → List Access
  | 0, _, _ => []
  | _ + 1, .leaf l, depth => splitLeafReads e l key depth
  | fuel + 1, .inner n, depth =>
    matchPrefixReads n key depth ++
      match matchPrefix n key depth with
      | none => []
      | some matchLen =>
        if matchLen < n.header.prefixLen then splitPrefixReads e n key depth matchLen
        else if 0 < n.header.prefixLen ∧ toInt key.strlen < toInt (depth + n.header.prefixLen) then []
        else
          .key (toInt (depth + n.header.prefixLen)) ::
            if toInt (depth + n.header.prefixLen) ≠ (depth + n.header.prefixLen : Nat) then []
            else
              match read key (depth + n.header.prefixLen) with
              | none => []
              | some c =>
                match n.look c with
                | some x => insertLoopReads key e fuel x (depth + n.header.prefixLen + 1)
                | none => if roomFor e n then allocLeafReads e key else []

/-- mirrors src/art.c:800-1047 -/
def insertReads (t : CdsaArtTree V) (key : CStr) : List Access :=
  match t.root with
  | none => allocLeafReads t.env key
  | some root => stringReads key ++ insertLoopReads key t.env (key.strlen + 2) root 0

/-! ## Deletion -/

/-- The two prefixes that `glue` puts together.
mirrors src/art.c:668-681 -/
def glueReads (h ch : NodeHeader) : List Access :=
  let limit := min ((h.prefixLen + 1 + ch.prefixLen) % 2 ^ 32) 10
  (List.range (min h.prefixLen limit)).map .header ++
    (List.range (min ch.prefixLen (limit - (h.prefixLen + 1)))).map .header

/-- mirrors src/art.c:643-690 -/
def shrinkReads : Inner (Node V) → List Access
  | .node4 n =>
    match n.numChildren, n.cells.head? with
    | 1, some (_, some (.inner ch)) => glueReads n.header ch.header
    | _, _ => []
  | _ => []

/-- Every level of the recursion takes the length of the key again.
mirrors src/art.c:575-691 -/
def recursiveDeleteReads (key : CStr) : Nat → Env → Node V → Nat → List Access
  | 0, _, _, _ => []
  | _ + 1, _, .leaf l, _ => stringReads key ++ compareReads Nat.cast l.key key
  | fuel + 1, e, .inner n, depth =>
    stringReads key ++ enterReads n.header key depth ++
      match enter n.header key depth with
      | some (.below depth) =>
        match read key depth with
        | none => []
        | some c =>
          match n.look c with
          | none => []
          | some child =>
            recursiveDeleteReads key fuel e child (depth + 1) ++
              match recursiveDelete key fuel e child (depth + 1) with
              | some (none, true, _) => shrinkReads ((n.setChild c none).removeChild c)
              | _ => []
      | _ => []

/-- mirrors src/art.c:786-797 -/
def deleteReads (t : CdsaArtTree V) (key : CStr) : List Access :=
  match t.root with
  | none => []
  | some root => recursiveDeleteReads key (key.strlen + 2) t.env root 0

/-! ## In bounds -/

section
variable {key : CStr}

theorem safe_nil : Safe key [] := List.forall_mem_nil _

theorem safe_cons {a : Access} {as : List Access} :
    Safe key (a :: as) ↔ a.InBounds key ∧ Safe key as := List.forall_mem_cons

theorem safe_append {as bs : List Access} : Safe key (as ++ bs) ↔ Safe key as ∧ Safe key bs :=
  List.forall_mem_append

theorem key_inBounds {i : Nat} (h : i ≤ key.strlen) : (Access.key i).InBounds key :=
  ⟨Int.natCast_nonneg _, Int.ofNat_le.mpr h⟩

theorem leaf_inBounds {s : CStr} {i : Nat} (h : i ≤ s.strlen) : (Access.leaf s i).InBounds key :=
  ⟨Int.natCast_nonneg _, Int.ofNat_le.mpr h⟩

theorem keyReads_safe {i n : Nat} (h : i + n ≤ key.strlen + 1) : Safe key (keyReads i n) := by
  intro a ha
  obtain ⟨p, hp, rfl⟩ := List.mem_map.mp ha
  rw [List.mem_range] at hp
  exact key_inBounds (by omega)

theorem leafReads_safe {s : CStr} {i n : Nat} (h : i + n ≤ s.strlen + 1) :
    Safe key (leafReads s i n) := by
  intro a ha
  obtain ⟨p, hp, rfl⟩ := List.mem_map.mp ha
  rw [List.mem_range] at hp
  exact leaf_inBounds (by omega)

theorem stringReads_safe : Safe key (stringReads key) := keyReads_safe (by omega)

theorem allocLeafReads_safe (e : Env) : Safe key (allocLeafReads e key) := by
  unfold allocLeafReads
  split
  · exact stringReads_safe
  · exact safe_nil

theorem compareReads_safe {index : Nat → Int} {s : CStr}
    (h : ∀ i ≤ agree s.bytes key.bytes, index i = i) : Safe key (compareReads index s key) := by
  intro a ha
  obtain ⟨i, hi, ha⟩ := List.mem_flatMap.mp ha
  rw [List.mem_range, Nat.lt_succ_iff] at hi
  rw [h i hi, List.mem_pair] at ha
  rcases ha with rfl | rfl
  · exact leaf_inBounds (hi.trans agree_le_left)
  · exact key_inBounds (hi.trans agree_le_right)

/-! ## Prefixes -/

/-- As long as the bytes of a prefix match, none of them ends the key. -/
theorem checkPrefixReads_safe {h : NodeHeader} {depth : Nat} :
    ∀ (ps : List UInt8) (idx : Nat), 0 ∉ ps → ps <+: h.prefixBytes.drop idx →
      idx + ps.length ≤ 10 → depth + idx ≤ key.strlen →
      Safe key (checkPrefixReads h key depth ps.length idx)
  | [], _, _, _, _, _ => safe_nil
  | p :: ps, idx, h0, ⟨r, hr⟩, hi, hk => by
    rw [List.mem_cons, not_or] at h0
    have hidx : h.prefixBytes[idx]? = some p := by
      have := congrArg (·[0]?) hr
      simpa using this.symm
    have hrest : ps ++ r = h.prefixBytes.drop (idx + 1) := by
      rw [← List.tail_drop, ← hr]
      rfl
    rw [List.length_cons] at hi ⊢
    rw [checkPrefixReads, safe_cons, safe_cons]
    refine ⟨Nat.lt_of_lt_of_le (Nat.lt_add_of_pos_right (Nat.succ_pos _)) hi, key_inBounds hk, ?_⟩
    split
    · next he =>
      have hread : read key (depth + idx) = some p := he.symm.trans hidx
      exact checkPrefixReads_safe ps (idx + 1) h0.2 ⟨r, hrest⟩ (by omega)
        (read_lt hread (Ne.symm h0.1))
    · exact safe_nil

theorem storedReads_safe {h : NodeHeader} {shared : List UInt8} (hd : h.Describes shared)
    (h0 : 0 ∉ shared) {depth : Nat} (hk : depth ≤ key.strlen) :
    Safe key (checkPrefixReads h key depth (min h.prefixLen 10) 0) := by
  have hpre : shared.take 10 <+: h.prefixBytes.drop 0 := by
    rw [← hd.bytes]
    exact List.take_prefix _ _
  have hlen : (shared.take 10).length = min h.prefixLen 10 := by
    rw [List.length_take, hd.len, Nat.min_comm]
  rw [← hlen]
  exact checkPrefixReads_safe _ 0 (fun hm => h0 (List.mem_of_mem_take hm)) hpre (by omega) hk

theorem enterReads_safe {h : NodeHeader} {shared : List UInt8} (hd : h.Describes shared)
    (h0 : 0 ∉ shared) {depth : Nat} (hk : depth ≤ key.strlen)
    (bound : depth + shared.length ≤ intMax) : Safe key (enterReads h key depth) := by
  unfold enterReads
  split
  · exact safe_cons.mpr ⟨key_inBounds hk, safe_nil⟩
  · refine safe_append.mpr ⟨storedReads_safe hd h0 hk, ?_⟩
    split
    · next hall =>
      rw [hd.len, toInt_short bound] at hall ⊢
      have hle := toInt_le key.strlen
      exact safe_cons.mpr ⟨key_inBounds (by omega), safe_nil⟩
    · exact safe_nil

/-! ## Searches and deletions -/

/-- A walk of `key` has come to `node` along `path`. -/
structure Arrives (key : CStr) (path : List UInt8) (node : Node V) : Prop where
  placed : Placed path node
  shallow : Shallow path.length node
  fits : Fits key path

variable {path : List UInt8} {n : Inner (Node V)}

theorem Arrives.safe (h : Arrives key path (.inner n)) :
    Safe key (enterReads n.header key path.length) := by
  obtain ⟨placed, shallow, fits⟩ := h
  cases placed with | @inner _ shared _ _ header noNul _ => ?_
  cases shallow with | inner bound _ => ?_
  have hle := fits.inner fun hm => noNul (List.mem_append_left _ hm)
  exact enterReads_safe header (fun hm => noNul (List.mem_append_right _ hm)) hle (header.len ▸ bound)

/-- It goes on to the child of the byte that is read. -/
theorem Arrives.below (h : Arrives key path (.inner n)) {d : Nat}
    (he : enter n.header key path.length = some (.below d)) {c : UInt8} (hc : read key d = some c)
    {x : Node V} (hx : n.look c = some x) : ∃ path', path'.length = d + 1 ∧ Arrives key path' x := by
  obtain ⟨placed, shallow, fits⟩ := h
  cases placed with | @inner _ shared _ _ header noNul kids => ?_
  cases shallow with | inner bound shallow => ?_
  rw [header.len] at bound shallow
  have hle := fits.inner fun hm => noNul (List.mem_append_left _ hm)
  have hlen : (path ++ shared ++ [c]).length = path.length + shared.length + 1 := by
    rw [List.length_append, List.length_append, List.length_singleton]
  rcases enter_cases header (fun hm => noNul (List.mem_append_right _ hm)) hle bound with
    ⟨he', -⟩ | ⟨he', -⟩ | ⟨he', -⟩
  · rw [he] at he'
    cases he'
  · rw [he] at he'
    cases he'
  · rw [he] at he'
    cases he'
    rw [← List.length_append] at hc
    exact ⟨_, hlen, kids c x hx, hlen ▸ shallow c x hx, .read hc⟩

theorem searchLoopReads_safe : ∀ {fuel : Nat} {node : Node V} {path : List UInt8},
    Arrives key path node → Safe key (searchLoopReads key fuel node path.length)
  | 0, _, _, _ => safe_nil
  | _ + 1, .leaf _, _, _ => compareReads_safe fun _ _ => rfl
  | fuel + 1, .inner n, path, h => by
    refine safe_append.mpr ⟨h.safe, ?_⟩
    split
    · next d he =>
      split
      · next x hx =>
        obtain ⟨c, hc, hx⟩ := Option.bind_eq_some_iff.mp hx
        obtain ⟨path', hlen, h'⟩ := h.below he hc hx
        exact hlen ▸ searchLoopReads_safe h'
      · exact safe_nil
    · exact safe_nil

/-! ### Searches in any tree -/

theorem checkPrefixLoop_of_safe {h : NodeHeader} (room : h.prefixBytes.length = 10) {depth : Nat} :
    ∀ {left idx : Nat}, Safe key (checkPrefixReads h key depth left idx) →
      ∃ m, checkPrefixLoop h key depth left idx = some m
  | 0, idx, _ => ⟨idx, rfl⟩
  | left + 1, idx, hs => by
    rw [checkPrefixReads, safe_cons, safe_cons] at hs
    obtain ⟨hidx, hkey, hrest⟩ := hs
    obtain ⟨c, hc⟩ := read_some (Int.ofNat_le.mp hkey.2)
    obtain ⟨p, hp⟩ : ∃ p, h.prefixBytes[idx]? = some p :=
      ⟨_, List.getElem?_eq_getElem (show idx < h.prefixBytes.length from room ▸ hidx)⟩
    rw [checkPrefixLoop, hp, Option.bind_some, hc, Option.bind_some]
    by_cases he : p = c
    · rw [hp, hc, he, if_pos rfl] at hrest
      rw [if_neg (not_not.mpr he)]
      exact checkPrefixLoop_of_safe room hrest
    · exact ⟨idx, if_pos he⟩

theorem enter_of_safe {h : NodeHeader} (room : h.prefixBytes.length = 10) {depth : Nat}
    (hs : Safe key (enterReads h key depth)) :
    ∃ entry, enter h key depth = some entry ∧ ∀ d, entry = .below d → ∃ c, read key d = some c := by
  unfold enterReads at hs
  unfold enter
  by_cases hlen : h.prefixLen = 0
  · rw [if_pos hlen] at hs ⊢
    refine ⟨_, rfl, fun d hd => ?_⟩
    cases hd
    exact read_some (Int.ofNat_le.mp (safe_cons.mp hs).1.2)
  rw [if_neg hlen] at hs ⊢
  obtain ⟨hcheck, hread⟩ := safe_append.mp hs
  obtain ⟨m, hm⟩ := checkPrefixLoop_of_safe room hcheck
  rw [checkPrefix, hm] at hread ⊢
  rw [Option.bind_some]
  by_cases hall : m = min h.prefixLen 10
  · rw [if_neg (not_not.mpr hall)]
    by_cases hpast : toInt key.strlen < toInt (depth + h.prefixLen)
    · exact ⟨.past, if_pos hpast, fun d hd => by cases hd⟩
    · rw [if_pos ⟨congrArg some hall, hpast⟩] at hread
      obtain ⟨hpos, hle⟩ := (safe_cons.mp hread).1
      obtain ⟨d, hd⟩ := Int.eq_ofNat_of_zero_le hpos
      rw [if_neg hpast, hd]
      refine ⟨.below d, rfl, fun d' he => ?_⟩
      cases he
      exact read_some (Int.ofNat_le.mp (hd ▸ hle))
  · exact ⟨.mismatch, if_pos hall, fun d hd => by cases hd⟩

theorem searchLoop_of_safe : ∀ {fuel : Nat} {node : Node V} {depth : Nat},
    (∀ m, node.Has m → m.header.prefixBytes.length = 10) → node.height < fuel →
    Safe key (searchLoopReads key fuel node depth) → ∃ v, searchLoop key fuel node depth = some v
  | _ + 1, .leaf _, _, _, _, _ => ⟨_, rfl⟩
  | fuel + 1, .inner n, depth, room, hf, hs => by
    obtain ⟨henter, hrest⟩ := safe_append.mp hs
    obtain ⟨entry, he, hread⟩ := enter_of_safe (room n (.self n)) henter
    rw [he] at hrest
    rw [searchLoop, he, Option.bind_some]
    cases entry with
    | mismatch => exact ⟨none, rfl⟩
    | past => exact ⟨none, rfl⟩
    | below d =>
      obtain ⟨c, hc⟩ := hread d rfl
      simp only [hc, Option.bind_some] at hrest ⊢
      cases hx : n.look c with
      | none => exact ⟨none, rfl⟩
      | some x =>
        simp only [hx] at hrest ⊢
        have hlow := height_look hx
        exact searchLoop_of_safe (Node.Has.down hx room) (by omega) hrest

theorem headers_safe {n : Nat} (h : n ≤ 10) : Safe key ((List.range n).map .header) := by
  intro a ha
  obtain ⟨i, hi, rfl⟩ := List.mem_map.mp ha
  exact Nat.lt_of_lt_of_le (List.mem_range.mp hi) h

theorem shrinkReads_safe (n : Inner (Node V)) : Safe key (shrinkReads n) := by
  unfold shrinkReads
  split
  · split
    · exact safe_append.mpr ⟨headers_safe (by omega), headers_safe (by omega)⟩
    · exact safe_nil
  · exact safe_nil

theorem recursiveDeleteReads_safe : ∀ {fuel : Nat} {e : Env} {node : Node V} {path : List UInt8},
    Arrives key path node → Safe key (recursiveDeleteReads key fuel e node path.length)
  | 0, _, _, _, _ => safe_nil
  | _ + 1, _, .leaf _, _, _ => safe_append.mpr ⟨stringReads_safe, compareReads_safe fun _ _ => rfl⟩
  | fuel + 1, e, .inner n, path, h => by
    refine safe_append.mpr ⟨safe_append.mpr ⟨stringReads_safe, h.safe⟩, ?_⟩
    split
    · next d he =>
      split
      · exact safe_nil
      · next c hc =>
        split
        · exact safe_nil
        · next x hx =>
          obtain ⟨path', hlen, h'⟩ := h.below he hc hx
          refine safe_append.mpr ⟨hlen ▸ recursiveDeleteReads_safe h', ?_⟩
          split
          · exact shrinkReads_safe _
          · exact safe_nil
    · exact safe_nil

/-! ## Insertions -/

theorem extendReads_safe {leafKey : CStr} {depth : Nat} : ∀ (ps : List UInt8) (m : Nat), 0 ∉ ps →
    ps <+: leafKey.term.drop (depth + m) → depth + m ≤ key.strlen →
    Safe key (extendReads key leafKey depth ps.length m)
  | [], _, _, _, _ => safe_nil
  | p :: ps, m, h0, hp, hk => by
    rw [List.mem_cons, not_or] at h0
    have hl := read_of_drop hp
    rw [drop_read hl] at hp
    refine safe_cons.mpr ⟨key_inBounds hk, ?_⟩
    split
    · exact safe_nil
    refine safe_cons.mpr ⟨leaf_inBounds (read_le hl), ?_⟩
    split
    · next he =>
      exact extendReads_safe ps (m + 1) h0.2 (List.cons_prefix_cons.mp hp).2
        (read_lt (he.trans hl) (Ne.symm h0.1))
    · exact safe_nil

section
variable {shared : List UInt8} (header : n.header.Describes shared) (noNul : 0 ∉ path ++ shared)
  (hk : path.length ≤ key.strlen)
  (hfollow : ∀ leaf, findMinimumLeaf (.inner n) = some leaf → path ++ shared <+: leaf.key.term)

include header noNul hk hfollow

theorem matchPrefixReads_safe : Safe key (matchPrefixReads n key path.length) := by
  have h0 : 0 ∉ shared := fun hm => noNul (List.mem_append_right _ hm)
  unfold matchPrefixReads
  split
  · exact safe_nil
  refine safe_append.mpr ⟨storedReads_safe header h0 hk, ?_⟩
  split
  · next hall =>
    obtain ⟨hten, hlong⟩ := hall
    rw [checkPrefix_spec header h0 hk, Option.some.injEq] at hten
    rw [header.len] at hlong ⊢
    have htake : (shared.take 10).length = 10 := by
      rw [List.length_take, Nat.min_eq_left (Nat.le_of_lt hlong)]
    have hin : path.length + 10 ≤ key.strlen := by
      have := within (fun hm => h0 (List.mem_of_mem_take hm))
        (agree_eq_length.mp (hten.trans htake.symm)) hk
      rwa [htake] at this
    split
    · next leaf hleaf =>
      rw [← List.length_drop]
      exact extendReads_safe _ 10 (fun hm => h0 (List.mem_of_mem_drop hm))
        (follows_drop (hfollow leaf hleaf) (Nat.le_of_lt hlong)) hin
    · exact safe_nil
  · exact safe_nil

theorem splitPrefixReads_safe (e : Env)
    (hlt : agree shared (key.term.drop path.length) < shared.length) :
    Safe key (splitPrefixReads e n key path.length (agree shared (key.term.drop path.length))) := by
  have h0 : 0 ∉ shared := fun hm => noNul (List.mem_append_right _ hm)
  have htake : (shared.take (agree shared (key.term.drop path.length))).length =
      agree shared (key.term.drop path.length) := by
    rw [List.length_take, Nat.min_eq_left (Nat.le_of_lt hlt)]
  have hin := within (fun hm => h0 (List.mem_of_mem_take hm))
    ((take_agree (a := shared)).symm ▸ List.take_prefix _ _) hk
  rw [htake] at hin
  generalize agree shared (key.term.drop path.length) = m at *
  unfold splitPrefixReads
  split
  · refine safe_append.mpr ⟨safe_append.mpr ⟨stringReads_safe, keyReads_safe (by omega)⟩, ?_⟩
    split
    · next leaf hleaf =>
      have hleaf := (Fits.of_prefix (hfollow leaf hleaf)).inner noNul
      rw [List.length_append] at hleaf
      rw [header.len]
      refine safe_append.mpr ⟨safe_append.mpr ⟨leafReads_safe (by omega), leafReads_safe (by omega)⟩,
        keyReads_safe (by omega)⟩
    · exact safe_nil
  · exact safe_nil

end

theorem splitLeafReads_safe {l : ArtLeaf V} (follows : path <+: l.key.term) (hk : path <+: key.term)
    (few : agree l.key.bytes key.bytes ≤ intMax) (e : Env) :
    Safe key (splitLeafReads e l key path.length) := by
  have hl := agree_le_left (a := l.key.bytes) (b := key.bytes)
  have hr := agree_le_right (a := l.key.bytes) (b := key.bytes)
  refine safe_append.mpr ⟨compareReads_safe fun i hi => toInt_short (hi.trans few), ?_⟩
  split
  · next hne =>
    obtain ⟨shared, hlen, -, -⟩ := exists_shared hne.1 follows hk
    rw [toInt_short few]
    rw [← hlen] at few hr ⊢
    rw [toU32_sub few]
    have hstr : path.length + shared.length ≤ key.strlen := hr
    refine safe_append.mpr ⟨keyReads_safe (by omega), safe_cons.mpr ⟨leaf_inBounds (hlen ▸ hl), ?_⟩⟩
    split
    · exact safe_append.mpr ⟨stringReads_safe, safe_cons.mpr ⟨key_inBounds hr, safe_nil⟩⟩
    · exact safe_nil
  · exact safe_nil

theorem insertLoopReads_safe {e : Env} {node : Node V} (h : Placed path node) :
    Shallow path.length node → path <+: key.term →
      (∀ l ∈ node.leaves, agree l.key.bytes key.bytes ≤ intMax) →
      ∀ fuel, Safe key (insertLoopReads key e fuel node path.length) := by
  induction h with
  | @leaf path l follows =>
    intro _ hk few fuel
    cases fuel with
    | zero => exact safe_nil
    | succ fuel => exact splitLeafReads_safe follows hk (few l (by simp)) e
  | @inner path shared n coherent header noNul kids ih =>
    intro hs hk few fuel
    cases fuel with
    | zero => exact safe_nil
    | succ fuel =>
      cases hs with | inner bound shallow => ?_
      have hin : path.length ≤ key.strlen :=
        (Fits.of_prefix hk).inner fun hm => noNul (List.mem_append_left _ hm)
      have hfollow := Placed.minimum_follows coherent header noNul kids
      refine safe_append.mpr ⟨matchPrefixReads_safe header noNul hin hfollow, ?_⟩
      split
      · exact safe_nil
      next m hm =>
      obtain rfl := matchPrefix_some header (fun hm => noNul (List.mem_append_right _ hm)) hin hfollow hm
      rw [header.len] at bound shallow ⊢
      split
      · next hlt => exact splitPrefixReads_safe header noNul hin hfollow e hlt
      next hfull =>
      have hps := follows_of_agree hk hfull
      have hin' := (Fits.of_prefix hps).inner noNul
      rw [List.length_append] at hin'
      split
      · exact safe_nil
      rw [toInt_short bound]
      refine safe_cons.mpr ⟨key_inBounds hin', ?_⟩
      rw [if_neg (not_not.mpr rfl)]
      split
      · exact safe_nil
      next c hread =>
      split
      · next x hc =>
        rw [← List.length_append] at hread
        have hlen : (path ++ shared ++ [c]).length = path.length + shared.length + 1 := by
          rw [List.length_append, List.length_append, List.length_singleton]
        have := ih c x hc (hlen ▸ shallow c x hc) (prefix_of_read hps hread)
          (fun l hl => few l (mem_leaves_inner.mpr ⟨c, x, hc, hl⟩)) fuel
        rwa [hlen] at this
      · split
        · exact allocLeafReads_safe e
        · exact safe_nil

end

/-! ## Trees -/

theorem CdsaArtTree.Filed.placed {t : CdsaArtTree V} (h : t.Filed) : t.Placed :=
  fun r hr => (h r hr).placed

/-- Every read of a search, a deletion and an insertion is in bounds. -/
theorem reads_in_bounds (t : CdsaArtTree V) (h : t.Placed) (hs : t.Shallow) (key : CStr) :
    Safe key (searchReads t key) ∧ Safe key (deleteReads t key) ∧
      ((∀ l ∈ t.leaves, agree l.key.bytes key.bytes ≤ intMax) → Safe key (insertReads t key)) := by
  unfold searchReads deleteReads insertReads CdsaArtTree.leaves
  cases hr : t.root with
  | none => exact ⟨safe_nil, safe_nil, fun _ => allocLeafReads_safe t.env⟩
  | some r =>
    have arrives : Arrives key [] r := ⟨h r hr, hs r hr, .nil key⟩
    refine ⟨safe_append.mpr ⟨stringReads_safe, searchLoopReads_safe arrives⟩,
      recursiveDeleteReads_safe arrives, fun few => ?_⟩
    rw [leavesAt_some] at few
    exact safe_append.mpr ⟨stringReads_safe,
      insertLoopReads_safe (h r hr) (hs r hr) List.nil_prefix few _⟩

/-- "session:user:12345:" -/
def sessionPrefix : List UInt8 :=
  [115, 101, 115, 115, 105, 111, 110, 58, 117, 115, 101, 114, 58, 49, 50, 51, 52, 53, 58]

/-- Two keys that go on behind it. -/
def sessionNode : Node Nat :=
  pairNode 0 (NodeHeader.zero.store sessionPrefix.length (sessionPrefix.take 10))
    97 (.leaf ⟨0, 1, ⟨sessionPrefix ++ [97], by decide⟩, some 1⟩)
    114 (.leaf ⟨1, 2, ⟨sessionPrefix ++ [114], by decide⟩, some 2⟩)

/-- "session:us" -/
def sessionKey : CStr := ⟨sessionPrefix.take 10, by decide⟩

theorem sessionNode_wf : WF Exact [] sessionNode :=
  pairNode_wf exact_grows (store_describes zero_room sessionPrefix) (by decide) (by decide)
    (.leaf ⟨[0], rfl⟩) (.leaf ⟨[0], rfl⟩)

/-- All bytes of "session:us" match what is stored of the prefix, which goes on
behind its terminator. -/
theorem reads_in_bounds_session :
    checkPrefix (NodeHeader.zero.store sessionPrefix.length (sessionPrefix.take 10)) sessionKey 0 =
      some sessionKey.strlen ∧
    Safe sessionKey (searchReads (smallTree (some sessionNode) 2) sessionKey) ∧
    Safe sessionKey (deleteReads (smallTree (some sessionNode) 2) sessionKey) ∧
    Safe sessionKey (insertReads (smallTree (some sessionNode) 2) sessionKey) := by
  have placed : (smallTree (some sessionNode) 2).Placed := fun r hr => by
    cases hr
    exact sessionNode_wf.filed.placed
  have shallow : (smallTree (some sessionNode) 2).Shallow := fun r hr => by
    cases hr
    exact sessionNode_wf.shallow
  obtain ⟨hsearch, hdelete, hinsert⟩ := reads_in_bounds _ placed shallow sessionKey
  exact ⟨by decide, hsearch, hdelete, hinsert fun l _ => agree_le_right.trans (by decide)⟩

/-- `n` times the letter a and another byte. -/
def longKeyWith (n : Nat) (c : UInt8) (hc : c ≠ 0) : CStr :=
  ⟨List.replicate n 97 ++ [c], by simpa using Ne.symm hc⟩

/-- Two keys that share 2^31 bytes. -/
def deepNode : Node Nat :=
  pairNode 0 (NodeHeader.zero.store (2 ^ 31) (List.replicate 10 97))
    98 (.leaf ⟨0, 1, longKeyWith (2 ^ 31) 98 (by decide), some 1⟩)
    99 (.leaf ⟨1, 2, longKeyWith (2 ^ 31) 99 (by decide), some 2⟩)

theorem longHeader_describes {n : Nat} (h : 10 ≤ n) :
    (NodeHeader.zero.store n (List.replicate 10 97)).Describes (List.replicate n 97) := by
  have hd := store_describes zero_room (List.replicate n 97)
  rwa [List.length_replicate, List.take_replicate, Nat.min_eq_left h] at hd

theorem deepNode_wellFormed : WellFormed (smallTree (some deepNode) 2) where
  filed r hr := by
    cases hr
    exact pairNode_filed (longHeader_describes (by omega)) (by decide) (.leaf ⟨[0], rfl⟩) (.leaf ⟨[0], rfl⟩)
  counts r m hr hm := by
    cases hr
    cases hm with
    | self =>
      refine ⟨pairNode_valid _ _ _ _ (by decide), ?_⟩
      show Exact .node4 2 _
      rw [(pairNode_kids _ _ _ _ (by decide)).length_eq]
      exact exact_grows.pair
    | child hc hm =>
      rcases pairNode_look (by decide) hc with ⟨-, rfl⟩ | ⟨-, rfl⟩ <;> cases hm
  size := by
    have hp : deepNode.leaves.Perm _ := pairNode_leaves _ _ (by decide)
    exact hp.length_eq.symm

/-- The search of ten letters a goes on in front of the key: behind the prefix
`depth` is -2^31. -/
theorem deep_search : Access.key (-2 ^ 31) ∈ searchReads (smallTree (some deepNode) 2) (longKey 10) := by
  have hwrap : toInt (0 + 2 ^ 31) = -2 ^ 31 := by decide
  have hread : Access.key (-2 ^ 31) ∈
      enterReads (NodeHeader.zero.store (2 ^ 31) (List.replicate 10 97)) (longKey 10) 0 := by
    rw [enterReads, if_neg (by decide)]
    refine List.mem_append_right _ ?_
    rw [if_pos ⟨by decide, by decide⟩]
    exact List.mem_singleton.mpr (congrArg Access.key hwrap.symm)
  exact List.mem_append_right _ (List.mem_append_left _ hread)

/-- Where two keys share more bytes than an `int` can count, the comparison goes
on in front of them. -/
theorem long_insert {l : ArtLeaf Nat} {key : CStr} (h : 2 ^ 31 ≤ agree l.key.bytes key.bytes) (size : Nat) :
    Access.key (-2 ^ 31) ∈ insertReads (smallTree (some (.leaf l)) size) key := by
  have hwrap : toInt (2 ^ 31) = -2 ^ 31 := by decide
  refine List.mem_append_right _ (List.mem_append_left _ ?_)
  refine List.mem_flatMap.mpr ⟨2 ^ 31, List.mem_range.mpr (Nat.lt_succ_of_le h), ?_⟩
  rw [hwrap]
  exact List.mem_cons_of_mem _ List.mem_cons_self

/-- A prefix of 2^31 bytes makes a search read in front of its key, and a stored
key of 2^31 bytes an insertion. -/
theorem deep_reads : (WellFormed (smallTree (some deepNode) 2) ∧
      ∃ a ∈ searchReads (smallTree (some deepNode) 2) (longKey 10), ¬ a.InBounds (longKey 10)) ∧
    WellFormed (smallTree (some (.leaf ⟨0, 1, longKey (2 ^ 31), some 1⟩)) 1) ∧
      ∃ a ∈ insertReads (smallTree (some (.leaf ⟨0, 1, longKey (2 ^ 31), some 1⟩)) 1)
        (longKey (2 ^ 31 + 1)), ¬ a.InBounds (longKey (2 ^ 31 + 1)) := by
  have hbefore : ∀ key, ¬ (Access.key (-2 ^ 31)).InBounds key := fun key h => absurd h.1 (by decide)
  have hagree : 2 ^ 31 ≤ agree (longKey (2 ^ 31)).bytes (longKey (2 ^ 31 + 1)).bytes := by
    have := le_agree (List.prefix_refl (List.replicate (2 ^ 31) (97 : UInt8)))
      (List.prefix_append _ (List.replicate 1 97))
    rwa [List.length_replicate, ← List.replicate_add] at this
  have hleaf : WellFormed (smallTree (some (.leaf ⟨0, 1, longKey (2 ^ 31), some 1⟩)) 1) := by
    refine Formed.wellFormed ⟨fun r hr => ?_, rfl⟩
    cases hr
    exact .leaf List.nil_prefix
  exact ⟨⟨deepNode_wellFormed, _, deep_search, hbefore _⟩, hleaf, _, long_insert hagree 1, hbefore _⟩

end Cdsa.Art
