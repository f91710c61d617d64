import Mathlib.Algebra.GroupWithZero.Nat
import Cdsa.L2Art.Ops

/-!
# Iterating over a tree that is being changed

The iterator of `src/art.c` walks the tree with a stack of frames and fetches
the next value ahead. A frame is a node and how far its children have been
visited. The code keeps the address of the node, here it is the node as it was
pushed: the same as long as the node stands, and the version that the iterator
saw at its creation is there so that no frame is followed after that.

`cdsa_insert_art` bumps the version, `cdsa_delete_art` does not. So the iterator
fails fast exactly in the runs in which an insertion has succeeded before a
deletion finds its key (`fails_fast_iff`).
-/
namespace Cdsa.Art

open Cdsa.Core Cdsa.Memory

variable {V : Type}

/-- mirrors src/art.c:1141 -/
def ART_MAX_DEPTH : Nat := 512

/-- mirrors src/art.c:1143-1146 -/
structure ArtIterFrame (V : Type) where
  node : Node V
  childIdx : Nat

/-- The tree is kept apart; see `Session`. The stack is listed from `top` down,
and NULL in the cache is `none`.
mirrors src/art.c:1148-1154 -/
structure ArtIterator (V : Type) where
  stack : List (ArtIterFrame V)
  snapshotVersion : Nat
  nextValue : Option V

/-- The next unvisited child, or NULL, and `child_idx` then.
mirrors src/art.c:1173-1211 -/
def nextChild : Inner (Node V) → Nat → Option (Option (Node V) × Nat)
  | .node4 n, idx | .node16 n, idx =>
    if idx < n.numChildren then n.cells[idx]?.map fun q => (q.2, idx + 1) else some (none, idx)
  | .node48 n, idx =>
    match (allBytes.drop idx).find? fun c => n.childIndex c ≠ ART_EMPTY_SLOT with
    | some c => some (slot n.children (n.childIndex c).toNat, c.toNat + 1)
    | none => some (none, 256)
  | .node256 n, idx =>
    match (allBytes.drop idx).find? fun c => (slot n.children c.toNat).isSome with
    | some c => some (slot n.children c.toNat, c.toNat + 1)
    | none => some (none, 256)

/-- The rounds of the loop below that a node takes, from its push to its pop. -/
def roundsLoop : Nat → Node V → Nat
  | _, .leaf _ => 1
  | 0, .inner _ => 1
  | fuel + 1, .inner n => (n.children.map fun x => roundsLoop fuel x + 1).sum + 1

/-- The `while` of `advance_art_iterator`: the stack and the cache after it.
mirrors src/art.c:1160-1221 -/
def advanceLoop : Nat → List (ArtIterFrame V) → Option (List (ArtIterFrame V) × Option V)
  | _, [] => some ([], none)
  | 0, _ :: _ => none
  | fuel + 1, frame :: stack =>
    match frame.node with
    | .leaf l => some (stack, l.value)
    | .inner n =>
      (nextChild n frame.childIdx).bind fun
        | (some child, childIdx) =>
          if stack.length + 1 < ART_MAX_DEPTH then
            advanceLoop fuel (⟨child, 0⟩ :: { frame with childIdx } :: stack)
          else none
        | (none, _) => advanceLoop fuel stack

/-- mirrors src/art.c:1157-1222 -/
def advanceArtIterator (iter : ArtIterator V) : Option (ArtIterator V) :=
  (advanceLoop (iter.stack.map fun f => roundsLoop f.node.height f.node).sum iter.stack).map fun r =>
    { iter with stack := r.1, nextValue := r.2 }

/-- `ok` is the answer of the allocation.
mirrors src/art.c:1224-1246 -/
def cdsaCreateArtIterator (ok : Bool) (t : CdsaArtTree V) : Option (Option (ArtIterator V)) :=
  if ok then
    match t.root with
    | none => some (some ⟨[], t.version, none⟩)
    | some root => (advanceArtIterator ⟨[⟨root, 0⟩], t.version, none⟩).map some
  else some none

/-- mirrors src/art.c:1248-1258 -/
def cdsaHasNextArt (t : CdsaArtTree V) (iter : ArtIterator V) : Bool :=
  if t.version ≠ iter.snapshotVersion then false else iter.nextValue.isSome

/-- The status, what is written to `out_value`, and the iterator.
mirrors src/art.c:1260-1280 -/
def cdsaNextArt (t : CdsaArtTree V) (iter : ArtIterator V) :
    Option (Status × Option V × ArtIterator V) :=
  if t.version ≠ iter.snapshotVersion then some (.errIterInvalidated, none, iter)
  else
    match iter.nextValue with
    | none => some (.errNotFound, none, iter)
    | some value => (advanceArtIterator iter).map fun iter => (.ok, some value, iter)

/-! ## Sessions -/

structure Session (V : Type) where
  tree : CdsaArtTree V
  iter : ArtIterator V
  /-- ghost: how many insertions have returned CDSA_OK since the iterator was created -/
  inserts : Nat
  /-- ghost: how many deletions have -/
  deletes : Nat

def Session.start (t : CdsaArtTree V) (iter : ArtIterator V) : Session V := ⟨t, iter, 0, 0⟩

inductive Ev (V : Type) where
  | hasNext
  | next
  | insert (key : CStr) (value : Option V)
  | delete (key : CStr)

inductive Ans (V : Type) where
  | flag (b : Bool)
  | next (s : Status) (outValue : Option V)
  | status (s : Status)
  deriving DecidableEq

def Session.step (s : Session V) : Ev V → Option (Ans V × Session V)
  | .hasNext => some (.flag (cdsaHasNextArt s.tree s.iter), s)
  | .next =>
    (cdsaNextArt s.tree s.iter).map fun r => (.next r.1 r.2.1, { s with iter := r.2.2 })
  | .insert key value =>
    (cdsaInsertArt s.tree key value).map fun r => (.status r.1, { s with
      tree := r.2
      inserts := if r.1 = .ok then s.inserts + 1 else s.inserts })
  | .delete key =>
    (cdsaDeleteArt s.tree key).map fun r => (.status r.1, { s with
      tree := r.2
      deletes := if r.1 = .ok then s.deletes + 1 else s.deletes })

/-- Once an insertion or deletion has succeeded, there is no next value, and
asking for it says that the iterator is invalidated and follows no frame. -/
def FailsFast (s : Session V) : Prop :=
  0 < s.inserts + s.deletes → cdsaHasNextArt s.tree s.iter = false ∧
    cdsaNextArt s.tree s.iter = some (.errIterInvalidated, none, s.iter)

/-- The event returns, and is not the mutation with which the version can come
round. -/
def Proceeds (s : Session V) (ev : Ev V) : Prop :=
  ∃ o s', s.step ev = some (o, s') ∧ s'.inserts + s'.deletes < 2 ^ 64

/-- The way that a deletion takes, down to a leaf with the key. -/
def findsLoop (key : CStr) : Nat → Node V → Nat → Option Bool
  | 0, _, _ => none
  | _ + 1, .leaf l, _ => some (CStr.strcmp l.key key = 0)
  | fuel + 1, .inner n, depth =>
    (enter n.header key depth).bind fun
      | .mismatch | .past => some false
      | .below depth =>
        (read key depth).bind fun c =>
          match n.look c with
          | none => some false
          | some child => findsLoop key fuel child (depth + 1)

/-- Deleting `key` finds it in the tree. -/
def Finds (t : CdsaArtTree V) (key : CStr) : Prop :=
  ∃ root, t.root = some root ∧ findsLoop key (key.strlen + 2) root 0 = some true

/-- A deletion that finds its key comes after an insertion that succeeded. -/
def InsertedFirst (s : Session V) : Ev V → Prop
  | .delete key => Finds s.tree key → 0 < s.inserts
  | _ => True

/-! ## What changes the version -/

section
variable {t t' : CdsaArtTree V} {key : CStr} {value : Option V} {st : Status}

theorem cdsaInsertArt_version (h : cdsaInsertArt t key value = some (st, t')) :
    t'.version = if st = .ok then (t.version + 1) % 2 ^ 64 else t.version := by
  obtain ⟨⟨st1, t1⟩, hi, he⟩ := Option.map_eq_some_iff.mp h
  have hv : t1.version = t.version := by
    unfold insertArtInternal at hi
    split at hi
    · obtain ⟨⟨o, env⟩, -, he⟩ := Option.map_eq_some_iff.mp hi
      cases o <;> cases he <;> rfl
    · obtain ⟨r, -, he⟩ := Option.map_eq_some_iff.mp hi
      cases he
      rfl
  cases he
  simp only
  split
  · rw [← hv]
  · exact hv

theorem cdsaDeleteArt_version (h : cdsaDeleteArt t key = some (st, t')) :
    t'.version = t.version := by
  unfold cdsaDeleteArt at h
  split at h
  · cases h
    rfl
  · obtain ⟨r, -, he⟩ := Option.map_eq_some_iff.mp h
    cases he
    rfl

/-- `*deleted` says whether the way led to a leaf with the key. -/
theorem recursiveDelete_finds : ∀ {fuel : Nat} {e : Env} {node : Node V} {depth : Nat}
    {r : Option (Node V) × Bool × Env}, recursiveDelete key fuel e node depth = some r →
      findsLoop key fuel node depth = some r.2.1
  | 0, _, _, _, _, h => by cases h
  | fuel + 1, e, .leaf l, depth, r, h => by
    unfold recursiveDelete at h
    unfold findsLoop
    split at h
    · next hk =>
      obtain ⟨mem, -, rfl⟩ := Option.map_eq_some_iff.mp h
      simp [hk]
    · next hk =>
      cases h
      simp [hk]
  | fuel + 1, e, .inner n, depth, r, h => by
    unfold recursiveDelete at h
    unfold findsLoop
    obtain ⟨entry, he, h⟩ := Option.bind_eq_some_iff.mp h
    rw [he, Option.bind_some]
    cases entry with
    | mismatch => cases h; rfl
    | past => cases h; rfl
    | below d =>
      obtain ⟨c, hc, h⟩ := Option.bind_eq_some_iff.mp h
      simp only [hc, Option.bind_some]
      cases hx : n.look c with
      | none =>
        rw [hx] at h
        cases h
        rfl
      | some child =>
        simp only [hx] at h
        obtain ⟨q, hq, h⟩ := Option.bind_eq_some_iff.mp h
        simp only
        rw [recursiveDelete_finds hq]
        split at h
        · next hd =>
          obtain ⟨x, -, rfl⟩ := Option.map_eq_some_iff.mp h
          rw [hd.1]
        · cases h
          rfl

theorem cdsaDeleteArt_ok_iff (h : cdsaDeleteArt t key = some (st, t')) : st = .ok ↔ Finds t key := by
  unfold cdsaDeleteArt at h
  unfold Finds
  cases hr : t.root with
  | none =>
    rw [hr] at h
    cases h
    simp
  | some root =>
    rw [hr] at h
    obtain ⟨r, hd, he⟩ := Option.map_eq_some_iff.mp h
    cases he
    simp [recursiveDelete_finds hd]

end

/-- What has succeeded stays counted. -/
theorem Session.step_counts {s s' : Session V} {ev : Ev V} {o : Ans V}
    (h : s.step ev = some (o, s')) : s.inserts ≤ s'.inserts ∧ s.deletes ≤ s'.deletes := by
  cases ev with
  | hasNext =>
    cases h
    exact ⟨Nat.le_refl _, Nat.le_refl _⟩
  | next =>
    obtain ⟨r, -, he⟩ := Option.map_eq_some_iff.mp h
    cases he
    exact ⟨Nat.le_refl _, Nat.le_refl _⟩
  | insert key value =>
    obtain ⟨r, -, he⟩ := Option.map_eq_some_iff.mp h
    cases he
    refine ⟨?_, Nat.le_refl _⟩
    simp only
    split <;> omega
  | delete key =>
    obtain ⟨r, -, he⟩ := Option.map_eq_some_iff.mp h
    cases he
    refine ⟨Nat.le_refl _, ?_⟩
    simp only
    split <;> omega

/-! ## Sessions fail fast -/

/-- The iterator was created at version `v`. -/
structure SInv (v : Nat) (s : Session V) : Prop where
  snapshot : s.iter.snapshotVersion = v
  version : s.tree.version = (v + s.inserts) % 2 ^ 64
  lt : v < 2 ^ 64

section
variable {v : Nat} {s s' : Session V}

/-- The version differs from the snapshot as soon as an insertion has
succeeded. -/
theorem SInv.version_ne_iff (I : SInv v s) (hn : s.inserts < 2 ^ 64) :
    s.tree.version ≠ s.iter.snapshotVersion ↔ 0 < s.inserts := by
  have hlt := I.lt
  rw [I.snapshot, I.version]
  omega

theorem failsFast_iff (s : Session V) :
    FailsFast s ↔ (0 < s.inserts + s.deletes → s.tree.version ≠ s.iter.snapshotVersion) := by
  unfold FailsFast
  refine forall_congr' fun _ => ⟨fun ⟨_, hnext⟩ heq => ?_, fun hne => ?_⟩
  · -- without the guard the answer is another one
    rw [cdsaNextArt, if_neg (not_not.mpr heq)] at hnext
    split at hnext
    · cases hnext
    · obtain ⟨iter, -, he⟩ := Option.map_eq_some_iff.mp hnext
      cases he
  · exact ⟨if_pos hne, if_pos hne⟩

theorem advanceArtIterator_snapshot {iter iter' : ArtIterator V}
    (h : advanceArtIterator iter = some iter') : iter'.snapshotVersion = iter.snapshotVersion := by
  obtain ⟨r, -, rfl⟩ := Option.map_eq_some_iff.mp h
  rfl

theorem cdsaNextArt_snapshot {t : CdsaArtTree V} {iter iter' : ArtIterator V} {st : Status}
    {o : Option V} (h : cdsaNextArt t iter = some (st, o, iter')) :
    iter'.snapshotVersion = iter.snapshotVersion := by
  unfold cdsaNextArt at h
  split at h
  · cases h
    rfl
  · split at h
    · cases h
      rfl
    · obtain ⟨iter1, ha, he⟩ := Option.map_eq_some_iff.mp h
      cases he
      exact advanceArtIterator_snapshot ha

/-- One event keeps the invariant; only a deletion that finds its key is counted
as one. -/
theorem SInv.step (I : SInv v s) {ev : Ev V} {o : Ans V} (h : s.step ev = some (o, s')) :
    SInv v s' ∧
      (s'.deletes = s.deletes ∨ ∃ key, ev = .delete key ∧ Finds s.tree key) ∧
      ((∃ key, ev = .delete key ∧ Finds s.tree key) → s'.inserts = s.inserts ∧ 0 < s'.deletes) := by
  cases ev with
  | hasNext =>
    cases h
    exact ⟨I, Or.inl rfl, fun ⟨_, he, _⟩ => by cases he⟩
  | next =>
    obtain ⟨⟨st, out, iter⟩, hnext, he⟩ := Option.map_eq_some_iff.mp h
    cases he
    exact ⟨⟨(cdsaNextArt_snapshot hnext).trans I.snapshot, I.version, I.lt⟩, Or.inl rfl,
      fun ⟨_, he, _⟩ => by cases he⟩
  | insert key value =>
    obtain ⟨⟨st, t'⟩, hi, he⟩ := Option.map_eq_some_iff.mp h
    have hv := cdsaInsertArt_version hi
    cases he
    refine ⟨⟨I.snapshot, ?_, I.lt⟩, Or.inl rfl, fun ⟨_, he, _⟩ => by cases he⟩
    simp only
    rw [hv, I.version]
    split <;> omega
  | delete key =>
    obtain ⟨⟨st, t'⟩, hd, he⟩ := Option.map_eq_some_iff.mp h
    have hv := cdsaDeleteArt_version hd
    have hok := cdsaDeleteArt_ok_iff hd
    cases he
    refine ⟨⟨I.snapshot, hv.trans I.version, I.lt⟩, ?_, fun ⟨key', he, hf⟩ => ?_⟩
    · by_cases hst : st = .ok
      · exact Or.inr ⟨key, rfl, hok.mp hst⟩
      · exact Or.inl (if_neg hst)
    · cases he
      refine ⟨rfl, ?_⟩
      simp only
      rw [if_pos (hok.mpr hf)]
      exact Nat.succ_pos _

/-- Between events: fewer mutations than versions, and no deletion before the
first insertion. -/
structure Guarded (v : Nat) (s : Session V) : Prop extends SInv v s where
  few : s.inserts + s.deletes < 2 ^ 64
  first : 0 < s.deletes → 0 < s.inserts

theorem Guarded.step (I : Guarded v s) {ev : Ev V} {o : Ans V} (h : s.step ev = some (o, s'))
    (hfew : s'.inserts + s'.deletes < 2 ^ 64) (hq : InsertedFirst s ev) : Guarded v s' := by
  obtain ⟨I', hdel, -⟩ := I.toSInv.step h
  have hle := (Session.step_counts h).1
  refine ⟨I', hfew, fun hpos => ?_⟩
  rcases hdel with he | ⟨key, rfl, hf⟩
  · exact Nat.lt_of_lt_of_le (I.first (he ▸ hpos)) hle
  · exact Nat.lt_of_lt_of_le (hq hf) hle

theorem Guarded.failsFast (I : Guarded v s) : FailsFast s := by
  rw [failsFast_iff, I.version_ne_iff (by have := I.few; omega)]
  intro hpos
  have := I.first
  omega

/-- Where nothing was deleted first, an event leaves an iterator that fails fast
exactly if it does not delete first. -/
theorem Guarded.failsFast_iff (I : Guarded v s) {ev : Ev V} (hp : Proceeds s ev) :
    (∀ o s', s.step ev = some (o, s') → FailsFast s') ↔ InsertedFirst s ev := by
  obtain ⟨o, s', h, hfew⟩ := hp
  constructor
  · intro hall
    cases ev with
    | delete key =>
      intro hf
      obtain ⟨I', -, hdel⟩ := I.toSInv.step h
      obtain ⟨hins, hpos⟩ := hdel ⟨key, rfl, hf⟩
      have hne := (Art.failsFast_iff s').mp (hall o s' h) (by omega)
      rw [I'.version_ne_iff (by omega)] at hne
      omega
    | _ => trivial
  · intro hq o1 s1 h1
    rw [h] at h1
    cases h1
    exact (I.step h hfew hq).failsFast

theorem cdsaCreateArtIterator_snapshot {t : CdsaArtTree V} {iter : ArtIterator V} {ok : Bool}
    (h : cdsaCreateArtIterator ok t = some (some iter)) : iter.snapshotVersion = t.version := by
  unfold cdsaCreateArtIterator at h
  split at h
  · split at h
    · cases h
      rfl
    · obtain ⟨iter1, ha, he⟩ := Option.map_eq_some_iff.mp h
      cases he
      exact advanceArtIterator_snapshot ha
  · cases h

end

/-- In every interleaving on one iterator, the iterator fails fast in each state
reached exactly if no deletion finds its key before an insertion has
succeeded. -/
theorem fails_fast_iff (t : CdsaArtTree V) (hv : t.version < 2 ^ 64) (iter : ArtIterator V)
    (hc : cdsaCreateArtIterator true t = some (some iter)) (evs : List (Ev V))
    (hn : RunMeets Session.step Proceeds (Session.start t iter) evs) :
    RunMeets Session.step (fun s ev => ∀ o s', s.step ev = some (o, s') → FailsFast s')
      (Session.start t iter) evs ↔
    RunMeets Session.step InsertedFirst (Session.start t iter) evs := by
  have hstart : Guarded t.version (Session.start t iter) :=
    ⟨⟨cdsaCreateArtIterator_snapshot hc, (Nat.mod_eq_of_lt hv).symm, hv⟩, show 0 + 0 < 2 ^ 64 by decide,
      id⟩
  have hiff : RunMeets Session.step
      (fun s ev => Proceeds s ev ∧ ∀ o s', s.step ev = some (o, s') → FailsFast s') _ evs ↔
      RunMeets Session.step (fun s ev => Proceeds s ev ∧ InsertedFirst s ev) _ evs := runMeets_iff
    (I := Guarded t.version)
    (fun s ev I => and_congr_right fun hp => I.failsFast_iff hp)
    (fun s ev o s' I ⟨⟨o1, s1, h1, hfew⟩, hq⟩ h => by
      rw [h] at h1
      cases h1
      exact I.step h hfew hq) evs _ hstart
  rw [runMeets_and, runMeets_and] at hiff
  exact ⟨fun h => (hiff.mp ⟨hn, h⟩).2, fun h => (hiff.mpr ⟨hn, h⟩).2⟩

/-- The mutations of a run that returns are all counted at its end. -/
theorem proceeds_of_run : ∀ {evs : List (Ev V)} {s s' : Session V} {as : List (Ans V)},
    runOps Session.step s evs = some (as, s') → s'.inserts + s'.deletes < 2 ^ 64 →
      RunMeets Session.step Proceeds s evs ∧ s.inserts + s.deletes ≤ s'.inserts + s'.deletes
  | [], s, _, _, h, _ => by
    cases h
    exact ⟨trivial, Nat.le_refl _⟩
  | ev :: evs, s, s', as, h, hfew => by
    obtain ⟨⟨o, s1⟩, h1, h⟩ := Option.bind_eq_some_iff.mp h
    obtain ⟨⟨as', s2⟩, h2, he⟩ := Option.map_eq_some_iff.mp h
    cases he
    obtain ⟨hrun, hle⟩ := proceeds_of_run h2 hfew
    have hfew : s2.inserts + s2.deletes < 2 ^ 64 := hfew
    have hle : s1.inserts + s1.deletes ≤ s2.inserts + s2.deletes := hle
    have hstep := Session.step_counts h1
    refine ⟨.cons ⟨o, s1, h1, by omega⟩ h1 hrun, ?_⟩
    show _ ≤ s2.inserts + s2.deletes
    omega

/-- The key of one letter. -/
def letter (c : UInt8) (h : c ≠ 0) : CStr := ⟨[c], by simp [Ne.symm h]⟩

/-- A tree with one key, and an iterator on it. -/
def oneLetter : Option (CdsaArtTree Nat × ArtIterator Nat) :=
  (cdsaCreateArt ⟨0, [], 0, fun _ => true⟩ 1024 0).bind fun r =>
    r.1.bind fun t => (cdsaInsertArt t (letter 97 (by decide)) (some 7)).bind fun r =>
      (cdsaCreateArtIterator true r.2).bind fun o => o.map fun iter => (r.2, iter)

theorem oneLetter_created {t : CdsaArtTree Nat} {iter : ArtIterator Nat}
    (h : oneLetter = some (t, iter)) : cdsaCreateArtIterator true t = some (some iter) := by
  obtain ⟨_, -, h⟩ := Option.bind_eq_some_iff.mp h
  obtain ⟨_, -, h⟩ := Option.bind_eq_some_iff.mp h
  obtain ⟨r, -, h⟩ := Option.bind_eq_some_iff.mp h
  obtain ⟨o, hc, h⟩ := Option.bind_eq_some_iff.mp h
  obtain ⟨iter', rfl, he⟩ := Option.map_eq_some_iff.mp h
  cases he
  exact hc

/-- Another key is inserted under the iterator, and the first one deleted. -/
theorem fails_fast_iff_two : ∃ t iter, oneLetter = some (t, iter) ∧
    RunMeets Session.step (fun s ev => ∀ o s', s.step ev = some (o, s') → FailsFast s')
      (Session.start t iter) [.insert (letter 98 (by decide)) (some 8),
        .delete (letter 97 (by decide)), .next] := by
  have hrun : (oneLetter.map fun r => (r.1.version,
      (Session.step (.start r.1 r.2) (.insert (letter 98 (by decide)) (some 8))).map fun q => q.2.inserts,
      (runOps Session.step (.start r.1 r.2) [.insert (letter 98 (by decide)) (some 8),
        .delete (letter 97 (by decide)), .next]).map fun q => q.2.inserts + q.2.deletes)) =
      some (1, some 1, some 2) := by
    decide +kernel
  obtain ⟨⟨t, iter⟩, h, he⟩ := Option.map_eq_some_iff.mp hrun
  simp only [Prod.mk.injEq] at he
  obtain ⟨hv, hins, hall⟩ := he
  obtain ⟨⟨as, s'⟩, hr, hcount⟩ := Option.map_eq_some_iff.mp hall
  refine ⟨t, iter, h, (fails_fast_iff t (by omega) iter (oneLetter_created h) _
    (proceeds_of_run hr (by simp only at hcount; omega)).1).mpr ?_⟩
  refine ⟨trivial, fun o s1 h1 => ⟨fun _ => ?_, fun _ _ _ => ⟨trivial, fun _ _ _ => trivial⟩⟩⟩
  rw [h1] at hins
  have : s1.inserts = 1 := Option.some.inj hins
  omega

/-- The only key is deleted under an iterator that has fetched its value: there
is a next value still, and it is yielded. -/
theorem deleted_value_yielded : ∃ t iter s', oneLetter = some (t, iter) ∧
    runOps Session.step (.start t iter) [.delete (letter 97 (by decide)), .hasNext, .next] =
      some ([.status .ok, .flag true, .next .ok (some 7)], s') ∧
    ¬ RunMeets Session.step (fun s ev => ∀ o s', s.step ev = some (o, s') → FailsFast s')
      (Session.start t iter) [.delete (letter 97 (by decide)), .hasNext, .next] := by
  have hrun : (oneLetter.map fun r =>
      ((Session.step (.start r.1 r.2) (.delete (letter 97 (by decide)))).map fun q =>
        (q.2.deletes, cdsaHasNextArt q.2.tree q.2.iter),
      (runOps Session.step (.start r.1 r.2) [.delete (letter 97 (by decide)), .hasNext, .next]).map
        Prod.fst)) =
      some (some (1, true), some [.status .ok, .flag true, .next .ok (some 7)]) := by
    decide +kernel
  obtain ⟨⟨t, iter⟩, h, he⟩ := Option.map_eq_some_iff.mp hrun
  simp only [Prod.mk.injEq] at he
  obtain ⟨hdel, hall⟩ := he
  obtain ⟨⟨as, s'⟩, hr, rfl⟩ := Option.map_eq_some_iff.mp hall
  refine ⟨t, iter, s', h, hr, fun hfast => ?_⟩
  obtain ⟨⟨o, s1⟩, h1, he⟩ := Option.map_eq_some_iff.mp hdel
  simp only [Prod.mk.injEq] at he
  obtain ⟨hone, hnext⟩ := he
  have hfalse := (hfast.1 o s1 h1 (by omega)).1
  rw [hnext] at hfalse
  cases hfalse

end Cdsa.Art
