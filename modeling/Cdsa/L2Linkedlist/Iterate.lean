import Cdsa.Core.Cursor
import Cdsa.L2Linkedlist.List

/-!
# The iterator of the linked list

The cursor is the address of a node, and pops and clears free nodes. Every
mutator that succeeds counts up the version, which `next` tests first.
`readNext` is a call of `next` together with the caller's read through the
pointer it has stored.
-/
namespace Cdsa.Linkedlist

open Cdsa.Core Cdsa.Memory

/-- mirrors src/linkedlist.c:141-145 -/
structure CdsaLinkedlistIterator where
  currentNode : Option Ptr
  snapshotVersion : Nat
  deriving DecidableEq

/-- mirrors src/linkedlist.c:147-162 -/
def cdsaCreateLinkedlistIterator (list : CdsaLinkedlist) (h : Store) :
    Option CdsaLinkedlistIterator × Store :=
  match cdsaMallocTrack h.mem 24 with
  | (none, mem) => (none, { h with mem })
  | (some _, mem) =>
    (some { currentNode := list.head, snapshotVersion := list.version }, { h with mem })

/-- mirrors src/linkedlist.c:164-174 -/
def cdsaHasNextLinkedlist (list : CdsaLinkedlist) (iter : CdsaLinkedlistIterator) : Bool :=
  if list.version ≠ iter.snapshotVersion then false else iter.currentNode.isSome

/-- The status, the pointer stored through `out_value`, and the iterator.
mirrors src/linkedlist.c:176-197 -/
def cdsaNextLinkedlist (list : CdsaLinkedlist) (h : Store) (iter : CdsaLinkedlistIterator) :
    Option ((Status × Option (Option Ptr)) × CdsaLinkedlistIterator) :=
  if list.version ≠ iter.snapshotVersion then some ((.errIterInvalidated, none), iter)
  else if cdsaHasNextLinkedlist list iter = false then some ((.errNotFound, none), iter)
  else
    iter.currentNode.bind fun p => (h.nodes p).map fun n =>
      ((.ok, some n.data), { iter with currentNode := n.next })

/-- `cdsa_next_linkedlist(iter, &p)`, and the bytes at `p` if it was stored. -/
def readNext (w : CdsaLinkedlist × Store) (iter : CdsaLinkedlistIterator) :
    Option ((Status × Option (List UInt8)) × CdsaLinkedlistIterator) :=
  (cdsaNextLinkedlist w.1 w.2 iter).bind fun r =>
    match r.1.2 with
    | none => some ((r.1.1, none), r.2)
    | some p => p.bind fun d => (w.2.payload d).map fun bytes => ((r.1.1, some bytes), r.2)

inductive Mutator (elemSize : Nat) where
  | pushFront (value : Option (Vector.Elem elemSize))
  | popFront
  | clear

def mutate {es : Nat} (w : CdsaLinkedlist × Store) : Mutator es → Option (Bool × (CdsaLinkedlist × Store))
  | .pushFront value =>
    (cdsaPushFrontLinkedlist w.1 w.2 (value.map Subtype.val)).map fun r => (r.1 = .ok, r.2)
  | .popFront => (cdsaPopFrontLinkedlist w.1 w.2).map fun r => (r.1 = .ok, r.2)
  | .clear => (cdsaClearLinkedlist w.1 w.2).map fun w => (true, w)

def linkedlistCursor (es : Nat) : CursorApi (CdsaLinkedlist × Store) CdsaLinkedlistIterator
    (Mutator es) (Status × Option (List UInt8)) (List UInt8) where
  mutate
  hasNext w := cdsaHasNextLinkedlist w.1
  next := readNext
  value := Prod.snd
  version w := w.1.version
  snapshot := CdsaLinkedlistIterator.snapshotVersion
  wrap := 2 ^ 64

/-- The elements from `current` on. -/
def follow (h : Store) : Nat → Option Ptr → Option (List (List UInt8))
  | _, none => some []
  | 0, some _ => none
  | fuel + 1, some p =>
    (h.nodes p).bind fun n => (n.data.bind h.payload).bind fun bytes =>
      (follow h fuel n.next).map (bytes :: ·)

/-- The elements of the list, from the front on. -/
def contents (w : CdsaLinkedlist × Store) : Option (List (List UInt8)) :=
  follow w.2 w.1.size w.1.head

theorem Strung.follow_eq {h : Store} : ∀ {cells : List Cell} {current : Option Ptr},
    Strung h current cells → follow h cells.length current = some (cells.map Cell.elem)
  | [], _, hs => by
    rw [show _ = none from hs]
    rfl
  | c :: cells, _, ⟨he, next, hn, hp, hs⟩ => by
    rw [he, List.length_cons, follow]
    simp only [hn, hp, Option.bind_some, hs.follow_eq, Option.map_some, List.map_cons]

theorem Holds.contents_eq {base : UInt64} {rest : List (Ptr × Nat)} {w : CdsaLinkedlist × Store}
    {cells : List Cell} (H : Holds base rest w cells) : contents w = some (cells.map Cell.elem) := by
  rw [contents, H.size]
  exact H.strung.follow_eq

section
variable {list : CdsaLinkedlist} {iter : CdsaLinkedlistIterator}

theorem cdsaHasNextLinkedlist_stale (h : list.version ≠ iter.snapshotVersion) :
    cdsaHasNextLinkedlist list iter = false := if_pos h

/-- Under another version neither the node is read nor anything stored. -/
theorem cdsaNextLinkedlist_stale (h : list.version ≠ iter.snapshotVersion) (store : Store) :
    cdsaNextLinkedlist list store iter = some ((.errIterInvalidated, none), iter) := if_pos h

theorem readNext_stale (h : list.version ≠ iter.snapshotVersion) (store : Store) :
    readNext (list, store) iter = some ((.errIterInvalidated, none), iter) := by
  rw [readNext, cdsaNextLinkedlist_stale h]
  rfl

end

/-- A list that some cells account for. -/
def Kept (es : Nat) (w : CdsaLinkedlist × Store) : Prop :=
  w.1.elemSize = es ∧ ∃ base rest cells, Holds base rest w cells

/-- The cursor is before cells with the elements `rest`. -/
def Before (w : CdsaLinkedlist × Store) (iter : CdsaLinkedlistIterator) (rest : List (List UInt8)) :
    Prop :=
  ∃ cells, Strung w.2 iter.currentNode cells ∧ rest = cells.map Cell.elem

theorem Before.next {w : CdsaLinkedlist × Store} {iter : CdsaLinkedlistIterator}
    {rest : List (List UInt8)} (h : Before w iter rest) (hv : w.1.version = iter.snapshotVersion) :
    cdsaHasNextLinkedlist w.1 iter = !rest.isEmpty ∧
      ∃ iter', readNext w iter = some (yields rest.head?, iter') ∧ Before w iter' rest.tail ∧
        iter'.snapshotVersion = iter.snapshotVersion := by
  obtain ⟨cells, hs, rfl⟩ := h
  have hhas : cdsaHasNextLinkedlist w.1 iter = iter.currentNode.isSome :=
    if_neg (not_not_intro hv)
  unfold readNext cdsaNextLinkedlist
  rw [hhas, if_neg (not_not_intro hv)]
  cases cells with
  | nil =>
    have hs : iter.currentNode = none := hs
    rw [hs]
    exact ⟨rfl, iter, rfl, ⟨[], hs, rfl⟩, rfl⟩
  | cons c cells =>
    obtain ⟨he, next, hn, hp, hs⟩ := hs
    rw [he]
    refine ⟨rfl, { iter with currentNode := next }, ?_, ⟨cells, hs, rfl⟩, rfl⟩
    simp only [Option.isSome_some, Bool.true_eq_false, if_false, Option.bind_some, hn,
      Option.map_some, hp]
    rfl

/-- A mutator that fails leaves the nodes as they are; another one counts up. -/
theorem Kept.mutate {es : Nat} {w : CdsaLinkedlist × Store} (K : Kept es w) (op : Mutator es) :
    ∃ ok w', mutate w op = some (ok, w') ∧ Kept es w' ∧
      if ok then w'.1.version = (w.1.version + 1) % 2 ^ 64
      else w'.1 = w.1 ∧ w'.2.nodes = w.2.nodes ∧ w'.2.payload = w.2.payload := by
  obtain ⟨list, h⟩ := w
  obtain ⟨rfl, base, rest, cells, H⟩ := K
  cases op with
  | pushFront value =>
    rcases H.pushFront value with ⟨s, mem, hs, he, H'⟩ | ⟨e, c, list', h', -, -, he, hv, hes, H'⟩
    · refine ⟨false, (list, { h with mem }), ?_, ⟨rfl, base, rest, cells, H'⟩, rfl, rfl, rfl⟩
      simp only [Linkedlist.mutate, he, Option.map_some, hs, decide_false]
    · refine ⟨true, (list', h'), ?_, ⟨hes, base, rest, c :: cells, H'⟩, hv⟩
      simp only [Linkedlist.mutate, he, Option.map_some, decide_true]
  | popFront =>
    rcases H.popFront with ⟨-, he⟩ | ⟨c, cells', list', h', -, he, hv, hes, H'⟩
    · refine ⟨false, (list, h), ?_, ⟨rfl, base, rest, cells, H⟩, rfl, rfl, rfl⟩
      simp only [Linkedlist.mutate, he, Option.map_some]
      rfl
    · refine ⟨true, (list', h'), ?_, ⟨hes, base, rest, cells', H'⟩, hv⟩
      simp only [Linkedlist.mutate, he, Option.map_some, decide_true]
  | clear =>
    obtain ⟨list', h', he, hv, hes, H'⟩ := H.clear
    refine ⟨true, (list', h'), ?_, ⟨hes, base, rest, [], H'⟩, hv⟩
    simp only [Linkedlist.mutate, he, Option.map_some]

theorem Kept.mutated {es : Nat} {w w' : CdsaLinkedlist × Store} (K : Kept es w) {op : Mutator es}
    {ok : Bool} (h : Linkedlist.mutate w op = some (ok, w')) : Kept es w' ∧
      if ok then w'.1.version = (w.1.version + 1) % 2 ^ 64
      else w'.1 = w.1 ∧ w'.2.nodes = w.2.nodes ∧ w'.2.payload = w.2.payload := by
  obtain ⟨ok', w1, he, hw⟩ := K.mutate op
  rw [h] at he
  cases he
  exact hw

theorem linkedlistCursor_lawful (es : Nat) :
    (linkedlistCursor es).Lawful (Kept es) Before yields where
  value_give := yields_snd
  fetch h hv := h.next hv
  stale h := ⟨cdsaHasNextLinkedlist_stale h, _, readNext_stale h _, rfl⟩
  changed K h := K.mutated h
  unchanged K h := by
    obtain ⟨K', hl, hn, hp⟩ := K.mutated h
    refine ⟨K', congrArg CdsaLinkedlist.version hl, fun iter rest ⟨cells, hs, hr⟩ => ?_⟩
    exact ⟨cells, hs.congr (fun c _ => congrFun hn c.node) fun c _ => congrFun hp c.data, hr⟩

/-- What holds of an iterator in use that was created when the elements were
`l`. -/
structure Snapshot (es : Nat) (l : List (List UInt8))
    (s : Session (CdsaLinkedlist × Store) CdsaLinkedlistIterator (List UInt8)) : Prop where
  /-- before a mutator has succeeded: the elements of `l` in order, each once,
  then the end -/
  walks : s.mutations = 0 → ∃ rest, l = s.yielded ++ rest ∧
    cdsaHasNextLinkedlist s.cont.1 s.iter = !rest.isEmpty ∧
    ∃ iter', readNext s.cont s.iter = some (yields rest.head?, iter')
  /-- after that: an error, whatever the heap holds, and nothing stored -/
  refuses : 0 < s.mutations → cdsaHasNextLinkedlist s.cont.1 s.iter = false ∧
    ∀ h, cdsaNextLinkedlist s.cont.1 h s.iter = some ((.errIterInvalidated, none), s.iter)
  /-- every event returns -/
  returns : ∀ ev, ∃ r, (linkedlistCursor es).step s ev = some r

theorem Session.Inv.snapshot {es : Nat} {l : List (List UInt8)}
    {s : Session (CdsaLinkedlist × Store) CdsaLinkedlistIterator (List UInt8)}
    (h : Session.Inv (linkedlistCursor es) (Kept es) Before l s) (hfew : s.mutations < 2 ^ 64) :
    Snapshot es l s where
  walks h0 := h.walks (linkedlistCursor_lawful es) h0
  refuses hpos := by
    have hne := h.version_ne hpos hfew
    exact ⟨cdsaHasNextLinkedlist_stale hne, cdsaNextLinkedlist_stale hne⟩
  returns ev := by
    cases ev with
    | mutate op =>
      obtain ⟨ok, w', he, -⟩ := h.good.mutate op
      exact ⟨_, congrArg (Option.map _) he⟩
    | hasNext => exact ⟨_, rfl⟩
    | next =>
      obtain ⟨r, hn⟩ := h.returns (linkedlistCursor_lawful es) hfew
      exact ⟨_, congrArg (Option.map _) hn⟩

/-- Over every run on an iterator created on a list kept so. -/
theorem iterator_snapshot {es : Nat} {w : CdsaLinkedlist × Store} (K : Kept es w)
    {iter : CdsaLinkedlistIterator} {h1 : Store}
    (hi : cdsaCreateLinkedlistIterator w.1 w.2 = (some iter, h1))
    {evs : List (CursorEv (Mutator es))} {as : List (CursorAns (Status × Option (List UInt8)))}
    {s : Session (CdsaLinkedlist × Store) CdsaLinkedlistIterator (List UInt8)}
    (he : runOps (linkedlistCursor es).step ⟨(w.1, h1), iter, 0, []⟩ evs = some (as, s))
    (hfew : s.mutations < 2 ^ 64) :
    ∃ l, contents w = some l ∧ Snapshot es l s := by
  obtain ⟨list, h⟩ := w
  obtain ⟨hes, base, rest, cells, H⟩ := K
  unfold cdsaCreateLinkedlistIterator at hi
  cases ha : h.mem.answers h.mem.asked with
  | false => simp [cdsaMallocTrack_fail ha] at hi
  | true =>
    obtain ⟨m1, e1, O1, -, -⟩ := H.owns.alloc ha 24
    have e1 : cdsaMallocTrack h.mem 24 = (some h.mem.asked, m1) := e1
    simp only [e1, Prod.mk.injEq, Option.some.injEq] at hi
    obtain ⟨rfl, rfl⟩ := hi
    have hs : Strung { h with mem := m1 } list.head cells :=
      H.strung.congr (fun _ _ => rfl) fun _ _ => rfl
    have K1 : Kept es (list, { h with mem := m1 }) :=
      ⟨hes, base, (h.mem.asked, 24) :: rest, cells, hs, H.size, H.elems,
        O1.of_perm List.perm_middle.symm⟩
    have hb : Before (list, { h with mem := m1 }) ⟨list.head, list.version⟩ (cells.map Cell.elem) :=
      ⟨cells, hs, rfl⟩
    exact ⟨_, H.contents_eq, Session.Inv.snapshot (Session.Inv.run (linkedlistCursor_lawful es)
      (.start (M := linkedlistCursor es) K1 rfl hb) he hfew) hfew⟩

end Cdsa.Linkedlist
