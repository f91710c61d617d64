import Cdsa.L2Skiplist.Levels

/-!
# Teardown of the skip list

`cdsa_free_skiplist` frees the three blocks of every node along level 0, the
header's too, and then the list. A `Caller` has a list and the arrays that
range queries have returned and that it has not yet given back; `Accounts` says
whose the live blocks are. So once the arrays are given back, the teardown
leaves what was live before the list was created
(`teardown_gives_all_back`), whichever allocations have failed.
-/
namespace Cdsa.Skiplist

open Cdsa.Core Cdsa.Memory

variable {S : Type}

/-- The loop of `cdsa_free_skiplist`. A node that has been freed is not there
any more.
mirrors src/skiplist.c:94-101 -/
def freeNodes : Nat → (Ptr → Option (SkipNode S)) → Option Ptr → Mem → Option Mem
  | _, _, none, mem => some mem
  | 0, _, some _, _ => none
  | fuel + 1, nodes, some current, mem =>
    (nodes current).bind fun n => (forwardAt nodes 0 current).bind fun next =>
      (cdsaFreeTrack mem (some n.valuePtr)).bind fun mem =>
        (cdsaFreeTrack mem (some n.forwardPtr)).bind fun mem =>
          (cdsaFreeTrack mem (some current)).bind fun mem =>
            freeNodes fuel (Function.update nodes current none) next mem

/-- mirrors src/skiplist.c:90-103 -/
def cdsaFreeSkiplist (sl : CdsaSkiplist S) (mem : Mem) : Option Mem :=
  (freeNodes (sl.size + 1) sl.nodes (some sl.header) mem).bind fun mem =>
    cdsaFreeTrack mem (some sl.self)

/-- Freeing the first node leaves the others hanging. -/
theorem Hangs.freed {nodes : Ptr → Option (SkipNode S)} {next : Option Ptr} {p : Ptr}
    {L : List (Tower S)} (h : Hangs nodes next L) (hp : p ∉ L.map Tower.ptr) :
    Hangs (Function.update nodes p none) next L where
  head := h.head
  stands t ht := by
    obtain ⟨forward, hn, hl⟩ := h.stands t ht
    have hne : t.ptr ≠ p := fun he => hp (he ▸ List.mem_map_of_mem ht)
    exact ⟨forward, by rw [Function.update_of_ne hne, hn], hl⟩
  links t L' he := by
    refine (h.links t L' he).congr fun q hq => ?_
    have hne : q ≠ p := fun hqp => hp (by rw [he, List.map_cons, ← hqp]; exact hq)
    unfold forwardAt
    rw [Function.update_of_ne hne]

theorem freeNodes_spec {base : UInt64} {bs : List (Ptr × Nat)} :
    ∀ (L : List (Tower S)) fuel (nodes : Ptr → Option (SkipNode S)) current mem,
      Hangs nodes current L → (L.map Tower.ptr).Nodup → L.length ≤ fuel →
      Owns base (L.flatMap Tower.blocks ++ bs) mem →
      ∃ mem', freeNodes fuel nodes current mem = some mem' ∧ Owns base bs mem'
  | [], fuel, nodes, current, mem, h, _, _, O => by
    rw [h.head]
    exact ⟨mem, by cases fuel <;> rfl, O⟩
  | t :: L, fuel, nodes, current, mem, h, hn, hf, O => by
    obtain ⟨fuel, rfl⟩ := Nat.exists_eq_succ_of_ne_zero (show fuel ≠ 0 by
      rw [List.length_cons] at hf; omega)
    obtain ⟨forward, ht, -⟩ := h.stands t List.mem_cons_self
    obtain ⟨next, hnext, h'⟩ := h.tail
    obtain ⟨hp, hn⟩ := List.nodup_cons.mp hn
    rw [List.flatMap_cons, List.append_assoc] at O
    obtain ⟨m1, m2, m3, e1, e2, e3, O3, -⟩ := Owns.free_tower O
    obtain ⟨mem', he, O'⟩ := freeNodes_spec L fuel _ next m3 (h'.freed hp) hn
      (Nat.le_of_succ_le_succ hf) O3
    refine ⟨mem', ?_, O'⟩
    rw [h.head]
    simp only [List.map_cons, List.head?_cons, freeNodes, ht, hnext, Option.bind_some, Tower.node, e1,
      e2, e3, he]

/-- No walk is longer than the list's size. -/
theorem follow_length {nodes : Ptr → Option (SkipNode S)} : ∀ {fuel : Nat} {current : Option Ptr}
    {l : List (S ×ₗ CStr)}, follow nodes fuel current = some l → l.length ≤ fuel
  | _, none, _, h => by
    rw [follow] at h
    cases h
    exact Nat.zero_le _
  | 0, some p, _, h => by rw [follow] at h; cases h
  | fuel + 1, some p, l, h => by
    rw [follow] at h
    obtain ⟨n, -, h⟩ := Option.bind_eq_some_iff.mp h
    obtain ⟨next, -, h⟩ := Option.bind_eq_some_iff.mp h
    obtain ⟨l', hl, rfl⟩ := Option.map_eq_some_iff.mp h
    exact Nat.succ_le_succ (follow_length hl)

variable [LinearOrder S]

/-- The header and the nodes behind it. -/
theorem Towers.hangs_header {sl : CdsaSkiplist S} {H : Tower S} {L : List (Tower S)}
    (T : Towers sl H L) : Hangs sl.nodes (some sl.header) (H :: L) where
  head := by rw [List.map_cons, List.head?_cons, T.header]
  stands := T.stands
  links t L' he := by
    cases he
    have h := T.links 0 (by decide)
    rwa [tall_zero fun t ht => (T.heights t ht).1] at h

/-- The teardown frees what the list owns, each block once. -/
theorem cdsaFreeSkiplist_spec {sl : CdsaSkiplist S} {H : Tower S} {L : List (Tower S)} {mem : Mem}
    {base : UInt64} {bs : List (Ptr × Nat)} (T : Towers sl H L)
    (O : Owns base (owned sl.self H L ++ bs) mem) :
    ∃ mem', cdsaFreeSkiplist sl mem = some mem' ∧ Owns base bs mem' := by
  have hp : (owned sl.self H L ++ bs).Perm
      ((H :: L).flatMap Tower.blocks ++ ((sl.self, 32) :: bs)) := by
    rw [owned, List.flatMap_cons, ← List.append_assoc, List.append_assoc _ [(sl.self, 32)] bs]
    exact List.perm_append_comm.append_right _
  obtain ⟨m1, e1, O1⟩ := freeNodes_spec (H :: L) (sl.size + 1) sl.nodes (some sl.header) mem
    T.hangs_header T.nodup (by rw [List.length_cons, T.size]) (O.of_perm hp)
  obtain ⟨m2, e2, O2, -, -⟩ := O1.free
  exact ⟨m2, by rw [cdsaFreeSkiplist, e1, Option.bind_some, e2], O2⟩

/-! ## Runs -/

structure Caller (S : Type) where
  list : CdsaSkiplist S
  mem : Mem
  /-- the arrays returned and not given back, with their strings -/
  held : List (Ptr × List (Ptr × CStr))

inductive CallerOp (S : Type) where
  | insert (score : S) (value : CStr) (coins : Nat → Bool)
  | remove (score : S) (value : CStr)
  | getRange (minScore maxScore : S)
  /-- free an array and its strings -/
  | giveBack (i : Nat)

def Caller.step (c : Caller S) : CallerOp S → Option (Unit × Caller S)
  | .insert score value coins =>
    (insertSkiplist c.list c.mem score value coins).map fun r =>
      ((), { c with list := r.2.1, mem := r.2.2 })
  | .remove score value =>
    (removeSkiplist c.list c.mem score value).map fun r =>
      ((), { c with list := r.2.1, mem := r.2.2 })
  | .getRange minScore maxScore =>
    (getRangeSkiplist c.list c.mem minScore maxScore).map fun r =>
      ((), { c with mem := r.2, held := r.1.1.toList ++ c.held })
  | .giveBack i =>
    c.held[i]?.bind fun r => (freeResults r.1 r.2 c.mem).map fun mem =>
      ((), { c with mem, held := c.held.eraseIdx i })

/-- A range has at most `intMax` pairs, and what is given back is held. -/
def Caller.Proper (c : Caller S) : CallerOp S → Prop
  | .getRange minScore maxScore => ∀ l, contents c.list = some l → countIn l minScore maxScore ≤ intMax
  | .giveBack i => i < c.held.length
  | _ => True

/-- The blocks of an array that was returned. -/
def resultBlocks (r : Ptr × List (Ptr × CStr)) : List (Ptr × Nat) :=
  copies r.2 ++ [(r.1, r.2.length * 8)]

/-- The live blocks are those of the list, of the arrays held, and `bs`. -/
def Accounts (base : UInt64) (bs : List (Ptr × Nat)) (c : Caller S) : Prop :=
  ∃ H L, Towers c.list H L ∧
    Owns base (owned c.list.self H L ++ (c.held.flatMap resultBlocks ++ bs)) c.mem

namespace Accounts
variable {base : UInt64} {bs : List (Ptr × Nat)} {c : Caller S}

theorem getRange (A : Accounts base bs c) {lo hi : S} (hp : c.Proper (.getRange lo hi)) :
    ∃ o c', c.step (.getRange lo hi) = some (o, c') ∧ Accounts base bs c' := by
  obtain ⟨H, L, T, O⟩ := A
  have hn : (inRange lo hi L).length ≤ intMax := by
    rw [← countIn_items]
    exact hp _ T.contents_eq
  rcases getRangeSkiplist_cases T O lo hi hn with ⟨mem', he, O', -, -⟩ |
    ⟨array, results, mem', he, -, hv, O', -⟩
  · refine ⟨(), { c with mem := mem' }, ?_, H, L, T, O'⟩
    simp only [Caller.step, he, Option.map_some]
    rfl
  · have hlen : results.length = (inRange lo hi L).length := by
      simpa using congrArg List.length hv
    refine ⟨(), { c with mem := mem', held := (array, results) :: c.held }, ?_, H, L, T,
      O'.of_perm ?_⟩
    · simp only [Caller.step, he, Option.map_some]
      rfl
    · rw [List.flatMap_cons, resultBlocks, hlen, List.append_cons, List.append_assoc (_ ++ _)]
      refine List.perm_append_comm_assoc _ _ _ |>.trans ?_
      rw [List.append_assoc]

theorem giveBack (A : Accounts base bs c) {i : Nat} (hp : i < c.held.length) :
    ∃ o c', c.step (.giveBack i) = some (o, c') ∧ Accounts base bs c' := by
  obtain ⟨H, L, T, O⟩ := A
  have hperm : (c.held.flatMap resultBlocks).Perm
      (resultBlocks c.held[i] ++ (c.held.eraseIdx i).flatMap resultBlocks) :=
    List.Perm.flatMap_right _ (List.getElem_cons_eraseIdx_perm hp).symm
  have O1 : Owns base (copies c.held[i].2 ++ (c.held[i].1, c.held[i].2.length * 8) ::
      (owned c.list.self H L ++ ((c.held.eraseIdx i).flatMap resultBlocks ++ bs))) c.mem := by
    refine O.of_perm (((hperm.append_right bs).append_left _).trans ?_)
    rw [List.append_assoc (resultBlocks _), resultBlocks, List.append_assoc (copies _)]
    exact (List.perm_append_comm_assoc _ _ _).trans (List.Perm.append_left _ List.perm_middle)
  obtain ⟨mem', he, O', -⟩ := freeResults_spec c.held[i].2 c.mem O1
  refine ⟨(), { c with mem := mem', held := c.held.eraseIdx i }, ?_, H, L, T, O'⟩
  simp only [Caller.step, List.getElem?_eq_getElem hp, Option.bind_some, he, Option.map_some]

/-- Every operation returns and accounts for the live blocks. -/
theorem step (A : Accounts base bs c) {op : CallerOp S} (hp : c.Proper op) :
    ∃ o c', c.step op = some (o, c') ∧ Accounts base bs c' := by
  cases op with
  | insert s v coins =>
    obtain ⟨H, L, T, O⟩ := A
    rcases insertSkiplist_cases T O s v coins with ⟨mem', he, O', -, -⟩ |
      ⟨X, Y, N, sl', mem', rfl, he, T', O', -, -, -⟩
    · exact ⟨(), { c with mem := mem' }, by simp only [Caller.step, he, Option.map_some], H, L, T, O'⟩
    · exact ⟨(), { c with list := sl', mem := mem' }, by simp only [Caller.step, he, Option.map_some],
        H, X ++ N :: Y, T', O'⟩
  | remove s v =>
    obtain ⟨H, L, T, O⟩ := A
    rcases removeSkiplist_cases T O s v with ⟨-, he⟩ | ⟨X, Y, N, sl', mem', rfl, -, he, T', O', -⟩
    · exact ⟨(), c, by simp only [Caller.step, he, Option.map_some], H, L, T, O⟩
    · exact ⟨(), { c with list := sl', mem := mem' }, by simp only [Caller.step, he, Option.map_some],
        H, X ++ Y, T', O'⟩
  | getRange lo hi => exact A.getRange hp
  | giveBack i => exact A.giveBack hp

end Accounts

/-- A creation that fails leaves nothing behind, and one that does not a list
without nodes. -/
theorem cdsaCreateSkiplist_accounts {base : UInt64} {bs : List (Ptr × Nat)} {mem : Mem}
    (O : Owns base bs mem) (zero : S) :
    (∃ mem', cdsaCreateSkiplist zero mem = some (none, mem') ∧ Owns base bs mem') ∨
    ∃ sl mem', cdsaCreateSkiplist zero mem = some (some sl, mem') ∧
      Accounts base bs ⟨sl, mem', []⟩ := by
  cases ha : mem.answers mem.asked with
  | false =>
    obtain ⟨m1, e1, O1, -, -⟩ := O.alloc_fail ha 32
    exact Or.inl ⟨m1, by simp only [cdsaCreateSkiplist, e1], O1⟩
  | true =>
    obtain ⟨m1, e1, O1, -, -⟩ := O.alloc ha 32
    rcases cdsaCreateNode_spec O1 SKIPLIST_MAX_LEVEL zero ⟨[], by simp⟩ with ⟨m2, e2, O2, -, -⟩ |
      ⟨H, m2, e2, O2, -, -, hl, -⟩
    · obtain ⟨m3, e3, O3, -, -⟩ := O2.free
      exact Or.inl ⟨m3, by simp only [cdsaCreateSkiplist, e1, e2, Option.bind_some, e3,
        Option.map_some], O3⟩
    · refine Or.inr ⟨emptyList mem.asked H, m2, ?_, H, [], emptyList_towers _ hl,
        O2.of_perm (List.Perm.of_eq ?_)⟩
      · simp only [cdsaCreateSkiplist, e1, e2, Option.bind_some]
        rfl
      · rw [owned, List.flatMap_nil, List.nil_append, List.flatMap_nil, List.nil_append,
          List.append_assoc]
        rfl

/-- In every run on a fresh list, whichever allocations fail, the operations
return, and once the arrays are given back the teardown leaves the counter and
the live blocks as they were before the list was created. A creation that fails
leaves them so at once. -/
theorem teardown_gives_all_back (zero : S) (base : UInt64) (bs : List (Ptr × Nat)) (mem : Mem)
    (O : Owns base bs mem) :
    (∀ mem', cdsaCreateSkiplist zero mem = some (none, mem') →
      mem'.used = mem.used ∧ mem'.blocks.Perm mem.blocks) ∧
    ∀ sl mem0, cdsaCreateSkiplist zero mem = some (some sl, mem0) → ∀ ops,
      RunMeets Caller.step Caller.Proper ⟨sl, mem0, []⟩ ops →
      ∃ outs c, runOps Caller.step ⟨sl, mem0, []⟩ ops = some (outs, c) ∧
        (c.held = [] → ∃ mem', cdsaFreeSkiplist c.list c.mem = some mem' ∧
          mem'.used = mem.used ∧ mem'.blocks.Perm mem.blocks) := by
  rcases cdsaCreateSkiplist_accounts O zero with ⟨m, e, O'⟩ | ⟨sl, m, e, A⟩
  · refine ⟨fun mem' h => ?_, fun sl mem0 h => ?_⟩
    · rw [e] at h
      cases h
      exact O.same O'
    · rw [e] at h
      cases h
  · refine ⟨fun mem' h => ?_, fun sl' mem0 h ops hp => ?_⟩
    · rw [e] at h
      cases h
    · rw [e] at h
      cases h
      obtain ⟨outs, c, hr, A'⟩ := runOps_returns (I := Accounts base bs)
        (fun c op A hp => A.step hp) ops _ A hp
      refine ⟨outs, c, hr, fun hh => ?_⟩
      obtain ⟨H, L, T, O'⟩ := A'
      rw [hh, List.flatMap_nil, List.nil_append] at O'
      obtain ⟨mem', hf, O2⟩ := cdsaFreeSkiplist_spec T O'
      exact ⟨mem', hf, O.same O2⟩

/-- A list of at most `intMax` nodes has no range with more pairs. -/
def Caller.small (c : Caller S) : CallerOp S → Bool
  | .getRange _ _ => c.list.size ≤ intMax
  | .giveBack i => i < c.held.length
  | _ => true

theorem Caller.small_proper (c : Caller S) (op : CallerOp S) (h : c.small op = true) :
    c.Proper op := by
  cases op with
  | getRange lo hi =>
    intro l hl
    obtain ⟨current, -, hl⟩ := Option.bind_eq_some_iff.mp hl
    exact (List.countP_le_length.trans (follow_length hl)).trans (of_decide_eq_true h)
  | giveBack i =>
    show i < c.held.length
    exact of_decide_eq_true h
  | insert s v coins => trivial
  | remove s v => trivial

/-- A machine on which some allocations fail. -/
def scarce : Mem := ⟨7, [], 0, fun n => n ≠ 12 ∧ n ≠ 15⟩

theorem scarce_owns : Owns 7 [] scarce :=
  ⟨.nil, List.nodup_nil, fun _ hb => (nomatch hb), (UInt64.add_zero 7).symm⟩

/-- Two insertions, a third one that fails, a query that fails at its second
string, and one whose array is given back. -/
def scarceOps : List (CallerOp Nat) :=
  [.insert 1 (.ofArray [97]) (fun _ => false), .insert 2 (.ofArray [98]) (fun _ => true),
    .insert 3 (.ofArray [99]) (fun _ => false), .getRange 1 2, .getRange 1 2, .giveBack 0]

theorem teardown_gives_all_back_scarce : ∃ sl mem0 outs c mem',
    cdsaCreateSkiplist 0 scarce = some (some sl, mem0) ∧
    runOps Caller.step ⟨sl, mem0, []⟩ scarceOps = some (outs, c) ∧ c.list.size = 2 ∧
    cdsaFreeSkiplist c.list c.mem = some mem' ∧ mem'.used = 7 ∧ mem'.blocks.Perm [] := by
  have hrun : ((cdsaCreateSkiplist 0 scarce).bind fun r => r.1.map fun sl =>
      (runCheck Caller.step Caller.small ⟨sl, r.2, []⟩ scarceOps,
        (runOps Caller.step ⟨sl, r.2, []⟩ scarceOps).map fun q =>
          (q.2.list.size, q.2.held.length))) = some (true, some (2, 0)) := by
    decide +kernel
  obtain ⟨⟨o, mem0⟩, hc, hrun⟩ := Option.bind_eq_some_iff.mp hrun
  obtain ⟨sl, rfl, hrun⟩ := Option.map_eq_some_iff.mp hrun
  simp only [Prod.mk.injEq] at hrun
  obtain ⟨hcheck, hrun⟩ := hrun
  obtain ⟨outs, c, hr, hfree⟩ := (teardown_gives_all_back 0 7 [] scarce scarce_owns).2 sl mem0 hc
    scarceOps (.of_check Caller.small_proper hcheck)
  rw [hr] at hrun
  simp only [Option.map_some, Option.some.injEq, Prod.mk.injEq] at hrun
  obtain ⟨mem', hf, hused, hblocks⟩ := hfree (List.length_eq_zero_iff.mp hrun.2)
  exact ⟨sl, mem0, outs, c, mem', hc, hr, hrun.1, hf, hused, hblocks⟩

/-! ## A query that does not return -/

/-- The insertions of a caller are those of the list. -/
theorem Caller.inserts (x : S) (v : CStr) (coins : Nat → Bool) : ∀ (n : Nat) (c : Caller S)
    (outs : List Out) (w : CdsaSkiplist S × Mem),
    runOps Skiplist.step (c.list, c.mem) (List.replicate n (.insert x v coins)) = some (outs, w) →
    ∃ outs', runOps Caller.step c (List.replicate n (.insert x v coins)) =
      some (outs', ⟨w.1, w.2, c.held⟩)
  | 0, c, outs, w, h => by
    cases h
    exact ⟨[], rfl⟩
  | n + 1, c, outs, w, h => by
    obtain ⟨⟨o, w1⟩, h1, h⟩ := Option.bind_eq_some_iff.mp h
    obtain ⟨⟨outs1, w2⟩, h2, he⟩ := Option.map_eq_some_iff.mp h
    cases he
    obtain ⟨⟨r, sl, mem⟩, hi, he⟩ := Option.map_eq_some_iff.mp h1
    cases he
    obtain ⟨outs', hr⟩ := Caller.inserts x v coins n ⟨sl, mem, c.held⟩ outs1 _ h2
    have hstep : c.step (.insert x v coins) = some ((), ⟨sl, mem, c.held⟩) := by
      simp only [Caller.step]
      rw [hi, Option.map_some]
    exact ⟨() :: outs', by rw [List.replicate_succ, runOps_cons hstep, hr, Option.map_some]⟩

/-- After 2^31 insertions of one pair a query for it counts past the largest
`int`. -/
theorem teardown_not_reached : ∃ (sl : CdsaSkiplist Nat) (mem0 : Mem) (outs : List Unit)
    (c : Caller Nat), cdsaCreateSkiplist 0 ⟨0, [], 0, fun _ => true⟩ = some (some sl, mem0) ∧
      runOps Caller.step ⟨sl, mem0, []⟩ (List.replicate (2 ^ 31)
        (.insert 1 ⟨[97], by decide⟩ fun _ => false)) = some (outs, c) ∧
      c.step (.getRange 1 1) = none := by
  obtain ⟨sl, mem0, outs, w, hc, hr, hnone⟩ := getRange_undefined 1 0 ⟨[97], by decide⟩
    (fun _ => false) (show intMax < 2 ^ 31 by decide)
    (show Owns 0 [] ⟨0, [], 0, fun _ => true⟩ from
      ⟨.nil, List.nodup_nil, fun _ hb => (nomatch hb), rfl⟩) fun _ => rfl
  obtain ⟨outs', hr'⟩ := Caller.inserts 1 ⟨[97], by decide⟩ (fun _ => false) _ ⟨sl, mem0, []⟩ outs w hr
  refine ⟨sl, mem0, outs', _, hc, hr', ?_⟩
  have hnone := Option.map_eq_none_iff.mp hnone
  exact Option.map_eq_none_iff.mpr hnone

end Cdsa.Skiplist
