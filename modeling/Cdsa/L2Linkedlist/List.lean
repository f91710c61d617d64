import Mathlib.Logic.Function.Basic
import Cdsa.L1Memory.Status
import Cdsa.L1Memory.Tracked
import Cdsa.L2Vector.Vector

/-!
# The linked list

`src/linkedlist.c` allocates a node and a block for the element's bytes with
every push, and frees both with every pop. `Store` is the heap: a node or a
block that is not there cannot be read, and freeing it again is undefined
(`none`). The loops that follow pointers have the list's size and one as fuel.

`Holds w cells` says which nodes and blocks the list is made of, from the head
on. Each mutator has one lemma.

As for the skip list, the number of nodes never comes near 2^64; the version is
a `size_t`.
-/
namespace Cdsa.Linkedlist

open Cdsa.Core Cdsa.Memory

/-- mirrors src/linkedlist.c:11-14 -/
structure Node where
  data : Option Ptr
  next : Option Ptr

/-- The nodes, the elements' bytes and the allocator. -/
structure Store where
  nodes : Ptr → Option Node
  payload : Ptr → Option (List UInt8)
  mem : Mem

/-- The list structure, at address `self`.
mirrors src/linkedlist.c:16-21 -/
structure CdsaLinkedlist where
  self : Ptr
  head : Option Ptr
  size : Nat
  elemSize : Nat
  version : Nat

/-- mirrors src/linkedlist.c:23-32 -/
def cdsaCreateLinkedlist (elemSize : Nat) (h : Store) : Option CdsaLinkedlist × Store :=
  match cdsaMallocTrack h.mem 32 with
  | (none, mem) => (none, { h with mem })
  | (some self, mem) =>
    (some { self, head := none, size := 0, elemSize, version := 0 }, { h with mem })

/-- mirrors src/linkedlist.c:34-38 -/
def cdsaSizeLinkedlist (list : CdsaLinkedlist) : Nat := list.size

/-- mirrors src/linkedlist.c:40-44 -/
def cdsaIsEmptyLinkedlist (list : CdsaLinkedlist) : Bool := list.size = 0

/-- `CDSA_FREE` of a node's data and of the node. Freeing NULL does nothing, so
the test for it in the loops changes nothing. -/
def Store.freeNode (h : Store) (p : Ptr) : Option Store :=
  (h.nodes p).bind fun n =>
    (cdsaFreeTrack h.mem n.data).bind fun mem =>
      (cdsaFreeTrack mem (some p)).map fun mem =>
        { nodes := Function.update h.nodes p none
          payload := n.data.elim h.payload fun d => Function.update h.payload d none
          mem }

/-- The loop of `cdsa_free_linkedlist` and `cdsa_clear_linkedlist`.
mirrors src/linkedlist.c:49-58,105-114 -/
def freeLoop : Nat → Store → Option Ptr → Option Store
  | _, h, none => some h
  | 0, _, some _ => none
  | fuel + 1, h, some current =>
    (h.nodes current).bind fun n => (h.freeNode current).bind fun h => freeLoop fuel h n.next

/-- mirrors src/linkedlist.c:46-60 -/
def cdsaFreeLinkedlist (list : CdsaLinkedlist) (h : Store) : Option Store :=
  (freeLoop (list.size + 1) h list.head).bind fun h =>
    (cdsaFreeTrack h.mem (some list.self)).map fun mem => { h with mem }

/-- `value` is NULL or points to `elemSize` bytes at least.
mirrors src/linkedlist.c:62-83 -/
def cdsaPushFrontLinkedlist (list : CdsaLinkedlist) (h : Store) (value : Option (List UInt8)) :
    Option (Status × CdsaLinkedlist × Store) :=
  match value with
  | none => some (.errInvalid, list, h)
  | some value =>
    match cdsaMallocTrack h.mem 16 with
    | (none, mem) => some (.errOom, list, { h with mem })
    | (some node, mem) =>
      match cdsaMallocTrack mem list.elemSize with
      | (none, mem) =>
        (cdsaFreeTrack mem (some node)).map fun mem => (.errOom, list, { h with mem })
      | (some data, mem) =>
        (readAt value 0 list.elemSize).map fun bytes =>
          (.ok,
            { list with
              head := some node
              size := list.size + 1
              version := (list.version + 1) % 2 ^ 64 },
            { nodes := Function.update h.nodes node (some ⟨some data, list.head⟩)
              payload := Function.update h.payload data (some bytes)
              mem })

/-- mirrors src/linkedlist.c:85-100 -/
def cdsaPopFrontLinkedlist (list : CdsaLinkedlist) (h : Store) :
    Option (Status × CdsaLinkedlist × Store) :=
  match list.head with
  | none => some (.errEmpty, list, h)
  | some oldHead =>
    (h.nodes oldHead).bind fun n => (h.freeNode oldHead).map fun h =>
      (.ok,
        { list with
          head := n.next
          size := list.size - 1
          version := (list.version + 1) % 2 ^ 64 }, h)

/-- mirrors src/linkedlist.c:102-118 -/
def cdsaClearLinkedlist (list : CdsaLinkedlist) (h : Store) : Option (CdsaLinkedlist × Store) :=
  (freeLoop (list.size + 1) h list.head).map fun h =>
    ({ list with head := none, size := 0, version := (list.version + 1) % 2 ^ 64 }, h)

/-- `list->head->data`, `none` for NULL; the outer `none` if the head is not
there.
mirrors src/linkedlist.c:120-124 -/
def cdsaFrontLinkedlist (list : CdsaLinkedlist) (h : Store) : Option (Option Ptr) :=
  match list.head with
  | none => some none
  | some p => (h.nodes p).map Node.data

/-! ## What the list is made of -/

/-- A node, its block and the element in it. -/
structure Cell where
  node : Ptr
  data : Ptr
  elem : List UInt8

def Cell.blocks (elemSize : Nat) (c : Cell) : List (Ptr × Nat) := [(c.node, 16), (c.data, elemSize)]

/-- The nodes from `current` on are those of `cells`. -/
def Strung (h : Store) : Option Ptr → List Cell → Prop
  | current, [] => current = none
  | current, c :: cells => current = some c.node ∧
    ∃ next, h.nodes c.node = some ⟨some c.data, next⟩ ∧ h.payload c.data = some c.elem ∧
      Strung h next cells

/-- The allocations of the list. -/
def owned (list : CdsaLinkedlist) (cells : List Cell) : List (Ptr × Nat) :=
  (list.self, 32) :: cells.flatMap (Cell.blocks list.elemSize)

structure Holds (base : UInt64) (rest : List (Ptr × Nat)) (w : CdsaLinkedlist × Store)
    (cells : List Cell) : Prop where
  strung : Strung w.2 w.1.head cells
  size : w.1.size = cells.length
  elems : ∀ c ∈ cells, c.elem.length = w.1.elemSize
  owns : Owns base (owned w.1 cells ++ rest) w.2.mem

/-- Nothing that the cells stand in has changed. -/
theorem Strung.congr {h h' : Store} : ∀ {cells : List Cell} {current : Option Ptr},
    Strung h current cells → (∀ c ∈ cells, h'.nodes c.node = h.nodes c.node) →
    (∀ c ∈ cells, h'.payload c.data = h.payload c.data) → Strung h' current cells
  | [], _, hs, _, _ => hs
  | c :: _, _, ⟨he, next, hn, hp, hs⟩, h1, h2 =>
    ⟨he, next, (h1 c List.mem_cons_self).trans hn, (h2 c List.mem_cons_self).trans hp,
      hs.congr (fun d hd => h1 d (List.mem_cons_of_mem _ hd))
        fun d hd => h2 d (List.mem_cons_of_mem _ hd)⟩

theorem mem_owned_node {list : CdsaLinkedlist} {cells : List Cell} {c : Cell} (h : c ∈ cells) :
    (c.node, 16) ∈ owned list cells :=
  List.mem_cons_of_mem _ (List.mem_flatMap.mpr ⟨c, h, List.mem_cons_self⟩)

theorem mem_owned_data {list : CdsaLinkedlist} {cells : List Cell} {c : Cell} (h : c ∈ cells) :
    (c.data, list.elemSize) ∈ owned list cells :=
  List.mem_cons_of_mem _ (List.mem_flatMap.mpr ⟨c, h, List.mem_cons_of_mem _ List.mem_cons_self⟩)

section
variable {base : UInt64} {bs : List (Ptr × Nat)} {m : Mem}

/-- Blocks owned have different names. -/
theorem Owns.nodup (O : Owns base bs m) : (bs.map Prod.fst).Nodup :=
  (O.perm.map Prod.fst).nodup_iff.mp O.distinct

/-- The blocks of a cell are not among the others. -/
theorem Owns.ne_cell {es : Nat} {c : Cell} (O : Owns base (c.blocks es ++ bs) m) {b : Ptr × Nat}
    (hb : b ∈ bs) : b.1 ≠ c.node ∧ b.1 ≠ c.data := by
  have hn := Owns.nodup O
  rw [List.map_append] at hn
  have hd := List.disjoint_of_nodup_append hn
  have hm := List.mem_map_of_mem (f := Prod.fst) hb
  exact ⟨fun he => hd List.mem_cons_self (he ▸ hm),
    fun he => hd (List.mem_cons_of_mem _ List.mem_cons_self) (he ▸ hm)⟩

end

section
variable {base : UInt64} {bs rest : List (Ptr × Nat)} {h : Store} {es : Nat} {c : Cell}
  {cells : List Cell}

/-- Freeing the first node gives its two blocks back and leaves the other nodes
as they are. -/
theorem freeNode_spec {current : Option Ptr} (hs : Strung h current (c :: cells))
    (O : Owns base (c.blocks es ++ bs) h.mem) (hin : ∀ d ∈ cells, (d.node, 16) ∈ bs ∧ (d.data, es) ∈ bs) :
    ∃ h' next, h.nodes c.node = some ⟨some c.data, next⟩ ∧ h.freeNode c.node = some h' ∧
      Strung h' next cells ∧ Owns base bs h'.mem := by
  obtain ⟨-, next, hn, -, hs⟩ := hs
  obtain ⟨m1, e1, O1, -, -⟩ := (O.of_perm (List.Perm.swap ..)).free
  obtain ⟨m2, e2, O2, -, -⟩ := O1.free
  refine ⟨⟨Function.update h.nodes c.node none, Function.update h.payload c.data none, m2⟩, next, hn,
    ?_, hs.congr (fun d hd => ?_) (fun d hd => ?_), O2⟩
  · simp only [Store.freeNode, hn, Option.bind_some, e1, e2, Option.map_some, Option.elim_some]
  · exact Function.update_of_ne (Owns.ne_cell O (hin d hd).1).1 _ _
  · exact Function.update_of_ne (Owns.ne_cell O (hin d hd).2).2 _ _

theorem mem_flatMap_blocks {d : Cell} (hd : d ∈ cells) :
    (d.node, 16) ∈ cells.flatMap (Cell.blocks es) ++ bs ∧
      (d.data, es) ∈ cells.flatMap (Cell.blocks es) ++ bs :=
  ⟨List.mem_append_left _ (List.mem_flatMap.mpr ⟨d, hd, List.mem_cons_self⟩),
    List.mem_append_left _ (List.mem_flatMap.mpr ⟨d, hd, List.mem_cons_of_mem _ List.mem_cons_self⟩)⟩

/-- The loop frees every node once. -/
theorem freeLoop_spec : ∀ (cells : List Cell) fuel (h : Store) current, Strung h current cells →
    cells.length ≤ fuel → Owns base (cells.flatMap (Cell.blocks es) ++ bs) h.mem →
    ∃ h', freeLoop fuel h current = some h' ∧ Owns base bs h'.mem
  | [], fuel, h, current, hs, _, O => by
    have hs : current = none := hs
    subst hs
    exact ⟨h, by cases fuel <;> rfl, O⟩
  | c :: cells, fuel, h, current, hs, hf, O => by
    obtain ⟨fuel, rfl⟩ := Nat.exists_eq_succ_of_ne_zero (show fuel ≠ 0 by
      rw [List.length_cons] at hf; omega)
    rw [List.flatMap_cons, List.append_assoc] at O
    obtain ⟨h', next, hn, he, hs', O'⟩ := freeNode_spec hs O fun d hd => mem_flatMap_blocks hd
    obtain ⟨h2, he2, O2⟩ := freeLoop_spec cells fuel h' next hs' (Nat.le_of_succ_le_succ hf) O'
    refine ⟨h2, ?_, O2⟩
    rw [hs.1]
    simp only [freeLoop, hn, Option.bind_some, he, he2]

end

/-! ## What each mutator does -/

namespace Holds
variable {base : UInt64} {rest : List (Ptr × Nat)} {list : CdsaLinkedlist} {h : Store}
  {cells : List Cell}

/-- A node and a block with new names. -/
theorem pushed (H : Holds base rest (list, h) cells) {n d : Ptr} {bytes : List UInt8} {mem : Mem}
    (hlen : bytes.length = list.elemSize)
    (O : Owns base ((d, list.elemSize) :: (n, 16) :: (owned list cells ++ rest)) mem) :
    Holds base rest ({ list with
      head := some n
      size := list.size + 1
      version := (list.version + 1) % 2 ^ 64 },
      { nodes := Function.update h.nodes n (some ⟨some d, list.head⟩)
        payload := Function.update h.payload d (some bytes)
        mem }) (⟨n, d, bytes⟩ :: cells) where
  strung := by
    have hO : Owns base ((Cell.mk n d bytes).blocks list.elemSize ++ (owned list cells ++ rest)) mem :=
      O.of_perm (List.Perm.swap ..)
    refine ⟨rfl, list.head, Function.update_self .., Function.update_self .., H.strung.congr
      (fun c hc => ?_) (fun c hc => ?_)⟩
    · exact Function.update_of_ne
        (Owns.ne_cell hO (List.mem_append_left _ (mem_owned_node hc))).1 _ _
    · exact Function.update_of_ne
        (Owns.ne_cell hO (List.mem_append_left _ (mem_owned_data hc))).2 _ _
  size := congrArg Nat.succ H.size
  elems c hc := by
    rcases List.mem_cons.mp hc with rfl | hc
    · exact hlen
    · exact H.elems c hc
  owns := by
    refine O.of_perm ?_
    show ((d, list.elemSize) :: (n, 16) :: (list.self, 32) ::
      (cells.flatMap (Cell.blocks list.elemSize) ++ rest)).Perm ((list.self, 32) ::
        (n, 16) :: (d, list.elemSize) :: (cells.flatMap (Cell.blocks list.elemSize) ++ rest))
    exact ((List.Perm.swap ..).trans ((List.Perm.swap ..).cons _)).trans (List.Perm.swap ..)

/-- A push is refused, runs out of memory, or adds a cell in front; only then
it changes anything but the allocator. -/
theorem pushFront (H : Holds base rest (list, h) cells) (value : Option (Vector.Elem list.elemSize)) :
    (∃ s mem, s ≠ .ok ∧ cdsaPushFrontLinkedlist list h (value.map Subtype.val) =
        some (s, list, { h with mem }) ∧ Holds base rest (list, { h with mem }) cells) ∨
    ∃ e c list' h', value = some e ∧ c.elem = e.1 ∧
      cdsaPushFrontLinkedlist list h (value.map Subtype.val) = some (.ok, list', h') ∧
      list'.version = (list.version + 1) % 2 ^ 64 ∧ list'.elemSize = list.elemSize ∧
      Holds base rest (list', h') (c :: cells) := by
  cases value with
  | none => exact Or.inl ⟨.errInvalid, h.mem, by simp, rfl, H⟩
  | some e =>
    have hread : readAt e.1 0 list.elemSize = some e.1 := by
      rw [readAt_eq (by rw [e.2]; omega), List.drop_zero, List.take_of_length_le (Nat.le_of_eq e.2)]
    cases h1 : h.mem.answers h.mem.asked with
    | false =>
      obtain ⟨m1, e1, O1, -, -⟩ := H.owns.alloc_fail h1 16
      refine Or.inl ⟨.errOom, m1, by simp, ?_, ⟨H.strung.congr (fun _ _ => rfl) fun _ _ => rfl, H.size,
        H.elems, O1⟩⟩
      simp only [Option.map_some, cdsaPushFrontLinkedlist, e1]
    | true =>
      obtain ⟨m1, e1, O1, a1, n1⟩ := H.owns.alloc h1 16
      cases h2 : m1.answers m1.asked with
      | false =>
        obtain ⟨m2, e2, O2, -, -⟩ := O1.alloc_fail h2 list.elemSize
        obtain ⟨m3, e3, O3, -, -⟩ := O2.free
        refine Or.inl ⟨.errOom, m3, by simp, ?_, ⟨H.strung.congr (fun _ _ => rfl) fun _ _ => rfl, H.size,
          H.elems, O3⟩⟩
        simp only [Option.map_some, cdsaPushFrontLinkedlist, e1, e2, e3]
      | true =>
        obtain ⟨m2, e2, O2, -, -⟩ := O1.alloc h2 list.elemSize
        refine Or.inr ⟨e, ⟨h.mem.asked, m1.asked, e.1⟩, { list with
          head := some h.mem.asked
          size := list.size + 1
          version := (list.version + 1) % 2 ^ 64 }, _, rfl, rfl, ?_, rfl, rfl, H.pushed e.2 O2⟩
        simp only [Option.map_some, cdsaPushFrontLinkedlist, e1, e2, hread]

/-- A pop of an empty list fails; another one frees the first cell. -/
theorem popFront (H : Holds base rest (list, h) cells) :
    (cells = [] ∧ cdsaPopFrontLinkedlist list h = some (.errEmpty, list, h)) ∨
    ∃ c cells' list' h', cells = c :: cells' ∧
      cdsaPopFrontLinkedlist list h = some (.ok, list', h') ∧
      list'.version = (list.version + 1) % 2 ^ 64 ∧ list'.elemSize = list.elemSize ∧
      Holds base rest (list', h') cells' := by
  cases cells with
  | nil =>
    have hhead : list.head = none := H.strung
    exact Or.inl ⟨rfl, by unfold cdsaPopFrontLinkedlist; rw [hhead]⟩
  | cons c cells =>
    have O : Owns base (c.blocks list.elemSize ++ (owned list cells ++ rest)) h.mem :=
      H.owns.of_perm ((List.Perm.swap ..).trans ((List.Perm.swap ..).cons _))
    obtain ⟨h', next, hn, he, hs, O'⟩ := freeNode_spec H.strung O fun d hd =>
      ⟨List.mem_append_left _ (mem_owned_node hd), List.mem_append_left _ (mem_owned_data hd)⟩
    refine Or.inr ⟨c, cells, { list with
      head := next
      size := list.size - 1
      version := (list.version + 1) % 2 ^ 64 }, h', rfl, ?_, rfl, rfl, hs, ?_,
      fun d hd => H.elems d (List.mem_cons_of_mem _ hd), O'⟩
    · have hhead : list.head = some c.node := H.strung.1
      have hn : h.nodes c.node = some ⟨some c.data, next⟩ := hn
      unfold cdsaPopFrontLinkedlist
      simp only [hhead, hn, Option.bind_some, he, Option.map_some]
    · show list.size - 1 = cells.length
      have hsize : list.size = cells.length + 1 := H.size
      omega

/-- Freeing the nodes leaves the list's own block. -/
theorem freeCells (H : Holds base rest (list, h) cells) :
    ∃ h', freeLoop (list.size + 1) h list.head = some h' ∧
      Owns base ((list.self, 32) :: rest) h'.mem := by
  have hsize : list.size = cells.length := H.size
  have O : Owns base (cells.flatMap (Cell.blocks list.elemSize) ++ (list.self, 32) :: rest) h.mem :=
    H.owns.of_perm List.perm_middle.symm
  exact freeLoop_spec cells (list.size + 1) h list.head H.strung (by omega) O

/-- Clearing frees every cell. -/
theorem clear (H : Holds base rest (list, h) cells) :
    ∃ list' h', cdsaClearLinkedlist list h = some (list', h') ∧
      list'.version = (list.version + 1) % 2 ^ 64 ∧ list'.elemSize = list.elemSize ∧
      Holds base rest (list', h') [] := by
  obtain ⟨h', he, O⟩ := H.freeCells
  refine ⟨{ list with head := none, size := 0, version := (list.version + 1) % 2 ^ 64 }, h',
    ?_, rfl, rfl, rfl, rfl, fun _ hc => (nomatch hc), O⟩
  rw [cdsaClearLinkedlist, he, Option.map_some]

/-- Releasing the list gives everything it owns back, and nothing else. -/
theorem free (H : Holds base rest (list, h) cells) :
    ∃ h', cdsaFreeLinkedlist list h = some h' ∧ Owns base rest h'.mem := by
  obtain ⟨h', he, O⟩ := H.freeCells
  obtain ⟨m, em, O, -, -⟩ := O.free
  refine ⟨{ h' with mem := m }, ?_, O⟩
  rw [cdsaFreeLinkedlist, he, Option.bind_some, em, Option.map_some]

theorem isEmpty (H : Holds base rest (list, h) cells) :
    cdsaIsEmptyLinkedlist list = cells.isEmpty := by
  have hsize : cdsaSizeLinkedlist list = cells.length := H.size
  show decide (cdsaSizeLinkedlist list = 0) = _
  rw [hsize]
  cases cells <;> rfl

/-- The front is the block in the first cell. -/
theorem front (H : Holds base rest (list, h) cells) :
    cdsaFrontLinkedlist list h = some (cells.head?.map Cell.data) := by
  cases cells with
  | nil =>
    have hhead : list.head = none := H.strung
    unfold cdsaFrontLinkedlist
    rw [hhead]
    rfl
  | cons c cells =>
    have hhead : list.head = some c.node := H.strung.1
    obtain ⟨next, hn, -⟩ := H.strung.2
    have hn : h.nodes c.node = some ⟨some c.data, next⟩ := hn
    unfold cdsaFrontLinkedlist
    simp only [hhead, hn]
    rfl

end Holds

/-- A fresh list. -/
theorem cdsaCreateLinkedlist_holds {base : UInt64} {bs : List (Ptr × Nat)} {elemSize : Nat}
    {h h' : Store} {list : CdsaLinkedlist} (O : Owns base bs h.mem)
    (hc : cdsaCreateLinkedlist elemSize h = (some list, h')) :
    list.elemSize = elemSize ∧ Holds base bs (list, h') [] := by
  unfold cdsaCreateLinkedlist at hc
  cases ha : h.mem.answers h.mem.asked with
  | false => simp [cdsaMallocTrack_fail ha] at hc
  | true =>
    obtain ⟨m1, e1, O1, -, -⟩ := O.alloc ha 32
    simp only [e1] at hc
    cases hc
    exact ⟨rfl, rfl, rfl, fun _ hc => (nomatch hc), O1⟩

end Cdsa.Linkedlist
