import Cdsa.Core.Cursor
import Cdsa.L2Skiplist.Levels

/-!
# The iterator of the skip list

The cursor is the address of a node, which a removal may free. `next` tests the
cursor for NULL, then the version, and only then reads the node; a node that is
not there has no value in the model, so that a call which returns has not read
one.

`skiplistCursor` is the list and its iterator as a `CursorApi`, and
`next_never_follows_freed` what holds after every interleaving of insertions,
removals and calls on one iterator, whichever allocations fail (`Safe`).
-/
namespace Cdsa.Skiplist

open Cdsa.Core Cdsa.Memory

variable {S : Type}

/-- mirrors src/skiplist.c:293-297 -/
structure CdsaSkiplistIterator where
  current : Option Ptr
  snapshotVersion : Nat
  deriving DecidableEq

/-- mirrors src/skiplist.c:299-313 -/
def cdsaCreateSkiplistIterator (sl : CdsaSkiplist S) (mem : Mem) :
    Option (Option CdsaSkiplistIterator × Mem) :=
  match cdsaMallocTrack mem 24 with
  | (none, mem) => some (none, mem)
  | (some _, mem) => (forwardAt sl.nodes 0 sl.header).map fun current =>
    (some { current, snapshotVersion := sl.version }, mem)

/-- mirrors src/skiplist.c:315-324 -/
def cdsaHasNextSkiplist (sl : CdsaSkiplist S) (iter : CdsaSkiplistIterator) : Bool :=
  if sl.version ≠ iter.snapshotVersion then false else iter.current.isSome

/-- The status, what is stored through `out_score` and `out_value`, and the
iterator.
mirrors src/skiplist.c:326-349 -/
def cdsaNextSkiplist (sl : CdsaSkiplist S) (iter : CdsaSkiplistIterator) :
    Option ((Status × Option (S ×ₗ CStr)) × CdsaSkiplistIterator) :=
  match iter.current with
  | none => some ((.errNotFound, none), iter)
  | some p =>
    if sl.version ≠ iter.snapshotVersion then some ((.errIterInvalidated, none), iter)
    else
      (sl.nodes p).bind fun n => (forwardAt sl.nodes 0 p).map fun next =>
        ((.ok, some (toLex (n.score, n.value))), { iter with current := next })

inductive Mutator (S : Type) where
  | insert (score : S) (value : CStr) (coins : Nat → Bool)
  | remove (score : S) (value : CStr)

section
variable {sl : CdsaSkiplist S} {iter iter' : CdsaSkiplistIterator} {v : Option (S ×ₗ CStr)}

theorem cdsaHasNextSkiplist_stale (h : sl.version ≠ iter.snapshotVersion) :
    cdsaHasNextSkiplist sl iter = false := if_pos h

/-- Under another version no node is read. -/
theorem cdsaNextSkiplist_stale (h : sl.version ≠ iter.snapshotVersion) :
    cdsaNextSkiplist sl iter = some ((if iter.current = none then .errNotFound
      else .errIterInvalidated, none), iter) := by
  unfold cdsaNextSkiplist
  split
  · next hc => rw [hc]; rfl
  · next p hc => rw [if_pos h, hc, if_neg (Option.some_ne_none p)]

theorem cdsaNextSkiplist_ok (h : cdsaNextSkiplist sl iter = some ((.ok, v), iter')) :
    sl.version = iter.snapshotVersion := by
  by_contra hne
  rw [cdsaNextSkiplist_stale hne] at h
  split at h <;> cases h

end

variable [LinearOrder S]

instance : DecidableEq (Status × Option (S ×ₗ CStr)) := inferInstance

def mutate (w : CdsaSkiplist S × Mem) : Mutator S → Option (Bool × (CdsaSkiplist S × Mem))
  | .insert score value coins =>
    (insertSkiplist w.1 w.2 score value coins).map fun r => (r.1 = .ok, r.2)
  | .remove score value => (removeSkiplist w.1 w.2 score value).map fun r => (r.1 = .ok, r.2)

def skiplistCursor : CursorApi (CdsaSkiplist S × Mem) CdsaSkiplistIterator (Mutator S)
    (Status × Option (S ×ₗ CStr)) (S ×ₗ CStr) where
  mutate
  hasNext w := cdsaHasNextSkiplist w.1
  next w := cdsaNextSkiplist w.1
  value := Prod.snd
  version w := w.1.version
  snapshot := CdsaSkiplistIterator.snapshotVersion
  wrap := 2 ^ 64

/-- The list is still `sl`, and the cursor before its last nodes, with the
pairs `rest`. -/
def Before (sl : CdsaSkiplist S) (w : CdsaSkiplist S × Mem) (iter : CdsaSkiplistIterator)
    (rest : List (S ×ₗ CStr)) : Prop :=
  w.1 = sl ∧ ∃ H X Y, Towers sl H (X ++ Y) ∧ Hangs sl.nodes iter.current Y ∧
    rest = Y.map Tower.item

section
variable {sl sl' : CdsaSkiplist S} {mem mem' : Mem} {score : S} {value : CStr} {r : Status}

/-- An insertion that succeeds counts up, and another one leaves the list as it
is. -/
theorem insertSkiplist_version {coins : Nat → Bool}
    (h : insertSkiplist sl mem score value coins = some (r, sl', mem')) :
    if r = .ok then sl'.version = (sl.version + 1) % 2 ^ 64 else sl' = sl := by
  unfold insertSkiplist at h
  obtain ⟨d, -, h⟩ := Option.bind_eq_some_iff.mp h
  obtain ⟨⟨c, m⟩, -, h⟩ := Option.bind_eq_some_iff.mp h
  cases c with
  | none => cases h; exact rfl
  | some c =>
    obtain ⟨nodes, -, h⟩ := Option.map_eq_some_iff.mp h
    cases h
    exact rfl

theorem removeSkiplist_version (h : removeSkiplist sl mem score value = some (r, sl', mem')) :
    if r = .ok then sl'.version = (sl.version + 1) % 2 ^ 64 else sl' = sl := by
  unfold removeSkiplist at h
  obtain ⟨d, -, h⟩ := Option.bind_eq_some_iff.mp h
  obtain ⟨c, -, h⟩ := Option.bind_eq_some_iff.mp h
  cases c with
  | none => cases h; exact rfl
  | some c =>
    obtain ⟨n, -, h⟩ := Option.bind_eq_some_iff.mp h
    split at h
    · obtain ⟨nodes, -, h⟩ := Option.bind_eq_some_iff.mp h
      obtain ⟨level, -, h⟩ := Option.bind_eq_some_iff.mp h
      obtain ⟨m1, -, h⟩ := Option.bind_eq_some_iff.mp h
      obtain ⟨m2, -, h⟩ := Option.bind_eq_some_iff.mp h
      obtain ⟨m3, -, h⟩ := Option.map_eq_some_iff.mp h
      cases h
      exact rfl
    · cases h; exact rfl

end

theorem mutate_version {w w' : CdsaSkiplist S × Mem} {op : Mutator S} {ok : Bool} (K : Kept w)
    (h : mutate w op = some (ok, w')) : Kept w' ∧
      if ok then w'.1.version = (w.1.version + 1) % 2 ^ 64 else w'.1 = w.1 := by
  cases op with
  | insert s v coins =>
    obtain ⟨r, w1, he, K'⟩ := K.insert s v coins
    obtain ⟨⟨r', w2⟩, h1, h2⟩ := Option.map_eq_some_iff.mp h
    rw [he] at h1
    cases h1
    cases h2
    have hv := insertSkiplist_version he
    exact ⟨K', by simpa only [decide_eq_true_eq] using hv⟩
  | remove s v =>
    obtain ⟨r, w1, he, K'⟩ := K.remove s v
    obtain ⟨⟨r', w2⟩, h1, h2⟩ := Option.map_eq_some_iff.mp h
    rw [he] at h1
    cases h1
    cases h2
    have hv := removeSkiplist_version he
    exact ⟨K', by simpa only [decide_eq_true_eq] using hv⟩

/-- A current cursor yields the next node's pair and moves on. -/
theorem Before.next {sl : CdsaSkiplist S} {w : CdsaSkiplist S × Mem} {iter : CdsaSkiplistIterator}
    {rest : List (S ×ₗ CStr)} (h : Before sl w iter rest) (hv : w.1.version = iter.snapshotVersion) :
    cdsaHasNextSkiplist w.1 iter = !rest.isEmpty ∧
      ∃ iter', cdsaNextSkiplist w.1 iter = some (yields rest.head?, iter') ∧
        Before sl w iter' rest.tail ∧ iter'.snapshotVersion = iter.snapshotVersion := by
  obtain ⟨rfl, H, X, Y, T, hang, rfl⟩ := h
  unfold cdsaHasNextSkiplist cdsaNextSkiplist
  rw [if_neg (not_not_intro hv), hang.head]
  cases Y with
  | nil => exact ⟨rfl, iter, rfl, ⟨rfl, H, X, [], T, hang, rfl⟩, rfl⟩
  | cons t Y =>
    obtain ⟨forward, hn, -⟩ := hang.stands t List.mem_cons_self
    obtain ⟨next, hnext, hang'⟩ := hang.tail
    refine ⟨rfl, { iter with current := next }, ?_, ⟨rfl, H, X ++ [t], Y, ?_, hang', rfl⟩, rfl⟩
    · simp only [List.map_cons, List.head?_cons, if_neg (not_not_intro hv), hn, Option.bind_some,
        hnext, Option.map_some]
      rfl
    · rw [List.append_assoc]
      exact T

theorem skiplistCursor_lawful (sl : CdsaSkiplist S) :
    (skiplistCursor (S := S)).Lawful Kept (Before sl) yields where
  value_give := yields_snd
  fetch h hv := h.next hv
  stale h := ⟨cdsaHasNextSkiplist_stale h, _, cdsaNextSkiplist_stale h, rfl⟩
  changed K h := mutate_version K h
  unchanged K h := by
    obtain ⟨K', he⟩ := mutate_version K h
    exact ⟨K', congrArg CdsaSkiplist.version he, fun i rest hb => ⟨he.trans hb.1, hb.2⟩⟩

/-- What holds of an iterator in use, created on a list with the nodes `ps` and
the pairs `l`. -/
structure Safe (ps : List Ptr) (l : List (S ×ₗ CStr))
    (s : Session (CdsaSkiplist S × Mem) CdsaSkiplistIterator (S ×ₗ CStr)) : Prop where
  /-- `next` returns: it reads no node that has been freed -/
  returns : ∃ r, cdsaNextSkiplist s.cont.1 s.iter = some r
  /-- it answers CDSA_OK only if nothing was inserted or removed -/
  ok : ∀ v iter', cdsaNextSkiplist s.cont.1 s.iter = some ((.ok, v), iter') → s.mutations = 0
  /-- then the list is made of the same nodes, and the cursor is at the first
  one not yet visited -/
  cursor : s.mutations = 0 →
    chain s.cont.1 0 = some ps ∧ s.iter.current = ps[s.yielded.length]?
  /-- else no node is read -/
  unread : 0 < s.mutations → ∀ nodes,
    cdsaNextSkiplist { s.cont.1 with nodes } s.iter = cdsaNextSkiplist s.cont.1 s.iter
  yielded : s.yielded <+: l
  /-- without a mutation the end comes after the last pair -/
  ends : s.mutations = 0 → ∀ v iter',
    cdsaNextSkiplist s.cont.1 s.iter = some ((.errNotFound, v), iter') → s.yielded = l

theorem Session.Inv.safe {sl : CdsaSkiplist S} {H : Tower S} {L : List (Tower S)}
    (T : Towers sl H L)
    {s : Session (CdsaSkiplist S × Mem) CdsaSkiplistIterator (S ×ₗ CStr)}
    (h : Session.Inv skiplistCursor Kept (Before sl) (L.map Tower.item) s)
    (hfew : s.mutations < 2 ^ 64) : Safe (L.map Tower.ptr) (L.map Tower.item) s := by
  have hlaw := skiplistCursor_lawful sl
  have hstale : 0 < s.mutations → s.cont.1.version ≠ s.iter.snapshotVersion := fun hpos =>
    h.version_ne hpos hfew
  refine ⟨h.returns hlaw hfew, fun v iter' hok => ?_, fun h0 => ?_, fun hpos nodes => ?_, h.yielded,
    fun h0 v iter' hn => ?_⟩
  · by_contra hne
    exact hstale (Nat.pos_of_ne_zero hne) (cdsaNextSkiplist_ok hok)
  · obtain ⟨-, rest, hl, he, H', X, Y, T', hang, rfl⟩ := h.current h0
    have hps : L.map Tower.ptr = (X ++ Y).map Tower.ptr :=
      Option.some.inj (T.chain_zero.symm.trans T'.chain_zero)
    have hlen : s.yielded.length = X.length := by
      have h1 := congrArg List.length hps
      have h2 := congrArg List.length hl
      simp only [List.length_map, List.length_append] at h1 h2
      omega
    refine ⟨?_, ?_⟩
    · rw [he, T.chain_zero]
    · rw [hps, hlen, List.map_append, List.getElem?_append_right (by rw [List.length_map]),
        List.length_map, Nat.sub_self, hang.head, List.head?_eq_getElem?]
  · rw [cdsaNextSkiplist_stale (hstale hpos)]
    have hne : ({ s.cont.1 with nodes } : CdsaSkiplist S).version ≠ s.iter.snapshotVersion := hstale hpos
    exact cdsaNextSkiplist_stale hne
  · obtain ⟨rest, hl, -, i, hn'⟩ := h.walks hlaw h0
    have hn' : cdsaNextSkiplist s.cont.1 s.iter = some (yields rest.head?, i) := hn'
    rw [hn] at hn'
    cases rest with
    | nil => rw [hl, List.append_nil]
    | cons x rest => cases hn'

theorem mutate_returns {w : CdsaSkiplist S × Mem} (K : Kept w) (op : Mutator S) :
    ∃ r, mutate w op = some r := by
  cases op with
  | insert s v coins =>
    obtain ⟨r, w', he, -⟩ := K.insert s v coins
    exact ⟨_, congrArg (Option.map _) he⟩
  | remove s v =>
    obtain ⟨r, w', he, -⟩ := K.remove s v
    exact ⟨_, congrArg (Option.map _) he⟩

/-- Creating an iterator puts its cursor before the first node. -/
theorem cdsaCreateSkiplistIterator_before {sl : CdsaSkiplist S} {mem mem' : Mem} {H : Tower S}
    {L : List (Tower S)} {base : UInt64} {rest : List (Ptr × Nat)} (T : Towers sl H L)
    (O : Owns base (owned sl.self H L ++ rest) mem) {iter : CdsaSkiplistIterator}
    (h : cdsaCreateSkiplistIterator sl mem = some (some iter, mem')) :
    Kept (sl, mem') ∧ sl.version = iter.snapshotVersion ∧
      Before sl (sl, mem') iter (L.map Tower.item) := by
  obtain ⟨current, hc, hang⟩ := Towers.hangs (A := []) (B := L) T
  have hc : forwardAt sl.nodes 0 sl.header = some current := T.header ▸ hc
  unfold cdsaCreateSkiplistIterator at h
  cases ha : mem.answers mem.asked with
  | false => simp [cdsaMallocTrack_fail ha] at h
  | true =>
    obtain ⟨m1, e1, O1, -, -⟩ := O.alloc ha 24
    simp only [e1, hc, Option.map_some] at h
    cases h
    refine ⟨⟨H, L, base, rest ++ [(mem.asked, 24)], T, O1.of_perm ?_⟩, rfl, rfl, H, [], L, T, hang, rfl⟩
    rw [← List.append_assoc]
    exact (List.perm_append_singleton _ _).symm

/-- On every list that a run reaches, whatever is inserted and removed under an
iterator, it reads nodes of the list only, and yields a prefix of what the list
held when it was created. -/
theorem next_never_follows_freed (zero : S) (base : UInt64) (bs : List (Ptr × Nat)) (mem : Mem)
    (O : Owns base bs mem) (sl : CdsaSkiplist S) (mem0 : Mem)
    (hc : cdsaCreateSkiplist zero mem = some (some sl, mem0)) (ops : List (Op S)) (outs : List Out)
    (w : CdsaSkiplist S × Mem) (hr : runOps Skiplist.step (sl, mem0) ops = some (outs, w))
    (iter : CdsaSkiplistIterator) (mem1 : Mem)
    (hi : cdsaCreateSkiplistIterator w.1 w.2 = some (some iter, mem1))
    (evs : List (CursorEv (Mutator S))) (as : List (CursorAns (Status × Option (S ×ₗ CStr))))
    (s : Session (CdsaSkiplist S × Mem) CdsaSkiplistIterator (S ×ₗ CStr))
    (he : runOps skiplistCursor.step ⟨(w.1, mem1), iter, 0, []⟩ evs = some (as, s))
    (hfew : s.mutations < 2 ^ 64) :
    ∃ ps l, chain w.1 0 = some ps ∧ contents w.1 = some l ∧ ps.Nodup ∧ l.Pairwise (· ≤ ·) ∧
      Safe ps l s ∧ ∀ ev, ∃ r, skiplistCursor.step s ev = some r := by
  have K : Kept w := runOps_inv (P := fun _ _ => True) (fun _ _ _ _ K _ h => K.step h) ops _ _ _
    (cdsaCreateSkiplist_kept O zero hc) (RunMeets.of_forall fun _ _ => trivial) hr
  obtain ⟨H, L, base', rest, T, O'⟩ := K
  obtain ⟨K1, hv, hb⟩ := cdsaCreateSkiplistIterator_before T O' hi
  have hinv := Session.Inv.run (skiplistCursor_lawful w.1) (.start (M := skiplistCursor) K1 hv hb) he
    hfew
  have hsafe := Session.Inv.safe T hinv hfew
  refine ⟨L.map Tower.ptr, L.map Tower.item, T.chain_zero, T.contents_eq,
    (List.nodup_cons.mp T.nodup).2, T.sorted, hsafe, fun ev => ?_⟩
  cases ev with
  | mutate op =>
    obtain ⟨r, hr⟩ := mutate_returns hinv.good op
    exact ⟨_, congrArg (Option.map _) hr⟩
  | hasNext => exact ⟨_, rfl⟩
  | next =>
    obtain ⟨r, hr⟩ := hsafe.returns
    exact ⟨_, congrArg (Option.map _) hr⟩

/-- A list of the pairs (1, "a") and (1, "b") and an iterator on it. -/
def twoPairs : Option ((CdsaSkiplist Nat × Mem) × (CdsaSkiplist Nat × Mem) ×
    CdsaSkiplistIterator × Mem) :=
  (cdsaCreateSkiplist 0 ⟨0, [], 0, fun _ => true⟩).bind fun r => r.1.bind fun sl =>
    (runOps Skiplist.step (sl, r.2) [.insert 1 (.ofArray [97]) (fun _ => false),
      .insert 1 (.ofArray [98]) (fun _ => true)]).bind fun q =>
        (cdsaCreateSkiplistIterator q.2.1 q.2.2).bind fun o => o.1.map fun iter =>
          ((sl, r.2), q.2, iter, o.2)

/-- The first pair is yielded and its node is removed, which the cursor has left
already; the second one is not read any more. -/
theorem next_never_follows_freed_removed : ∃ w0 w iter mem1 s, twoPairs = some (w0, w, iter, mem1) ∧
    runOps skiplistCursor.step ⟨(w.1, mem1), iter, 0, []⟩
      [.next, .mutate (.remove 1 ⟨[97], by decide⟩), .hasNext, .next] =
      some ([.answer (.ok, some (toLex (1, ⟨[97], by decide⟩))), .mutated true, .flag false,
        .answer (.errIterInvalidated, none)], s) ∧
    ∃ ps l, chain w.1 0 = some ps ∧ contents w.1 = some l ∧ Safe ps l s := by
  have hrun : (twoPairs.bind fun r =>
      (runOps skiplistCursor.step ⟨(r.2.1.1, r.2.2.2), r.2.2.1, 0, []⟩
        [.next, .mutate (.remove 1 ⟨[97], by decide⟩), .hasNext, .next]).map fun q =>
          (q.1, q.2.mutations)) =
      some ([.answer (.ok, some (toLex (1, ⟨[97], by decide⟩))), .mutated true, .flag false,
        .answer (.errIterInvalidated, none)], 1) := by
    decide +kernel
  obtain ⟨⟨w0, w, iter, mem1⟩, h2, hrun⟩ := Option.bind_eq_some_iff.mp hrun
  obtain ⟨⟨as, s⟩, hs, he⟩ := Option.map_eq_some_iff.mp hrun
  simp only [Prod.mk.injEq] at he
  obtain ⟨rfl, hmut⟩ := he
  refine ⟨w0, w, iter, mem1, s, h2, hs, ?_⟩
  obtain ⟨⟨c, m0⟩, hc, h2⟩ := Option.bind_eq_some_iff.mp h2
  obtain ⟨sl, rfl, h2⟩ := Option.bind_eq_some_iff.mp h2
  obtain ⟨⟨outs, w'⟩, hr, h2⟩ := Option.bind_eq_some_iff.mp h2
  obtain ⟨⟨o, m1⟩, hi, h2⟩ := Option.bind_eq_some_iff.mp h2
  obtain ⟨iter', rfl, he⟩ := Option.map_eq_some_iff.mp h2
  cases he
  obtain ⟨ps, l, hps, hl, -, -, hsafe, -⟩ := next_never_follows_freed 0 0 [] ⟨0, [], 0, fun _ => true⟩
    ⟨.nil, by simp, by simp, rfl⟩ sl m0 hc _ outs _ hr _ _ hi _ _ s hs (by omega)
  exact ⟨ps, l, hps, hl, hsafe⟩

end Cdsa.Skiplist
