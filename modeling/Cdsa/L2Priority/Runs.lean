import Cdsa.L2Priority.Sift

/-!
# The priority queue over whole runs

`Answers` is what the component is for: a multiset of elements, from which a
peek or a pop gives one that no remaining element beats. Any such answer will
do, for equal priorities are not ordered. A run in which no allocation fails
answers so throughout, keeps the heap, and drains in order of priority
(`priority_queue_runs`).

`Queue.step` says what one operation does also if its scratch allocation fails.
-/
namespace Cdsa.Priority

open Cdsa.Core Cdsa.Raw Cdsa.Vector

variable {es : Nat} {cmp : List UInt8 → List UInt8 → Bool} {pq : CdsaPriorityQueue}
  {l : List (Elem es)}

/-- The answers that a multiset of elements may give, and what it is then. -/
def Answers (r : Elem es → Elem es → Prop) (s : Multiset (Elem es)) :
    Op es → Out → Multiset (Elem es) → Prop
  | .push _ _ e, out, s' => out = .pushed .ok ∧ s' = e ::ₘ s
  | .pop _, out, s' =>
    (s = 0 ∧ out = .popped .errEmpty none ∧ s' = 0) ∨
      ∃ m, s = m ::ₘ s' ∧ out = .popped .ok (some m.1) ∧ ∀ x ∈ s', ¬ r x m
  | .peek, out, s' =>
    s' = s ∧ ((s = 0 ∧ out = .peeked none) ∨
      ∃ m ∈ s, out = .peeked (some m.1) ∧ ∀ x ∈ s, ¬ r x m)
  | .clear, out, s' => out = .cleared ∧ s' = 0

/-- A push that finds the vector full gets the doubled block: it asks for a byte
at least, for no more than a `size_t` with the header, and is granted that. -/
def Growing (pq : CdsaPriorityQueue) : Op es → Prop
  | .push growth _ _ => pq.data.capacity ≤ pq.data.size →
    0 < pq.data.capacity * 2 * pq.data.elemSize ∧
    pq.data.capacity * 2 * pq.data.elemSize + 8 < 2 ^ 64 ∧
    (growth.answer (pq.data.capacity * 2 * pq.data.elemSize + 8)).isSome
  | _ => True

/-- A sift that allocates gets its scratch element. -/
def ScratchMet (pq : CdsaPriorityQueue) : Op es → Prop
  | .push _ scratch _ => 0 < pq.data.size → (scratch.answer (es + 8)).isSome
  | .pop scratch => 1 < pq.data.size → (scratch.answer (es + 8)).isSome
  | _ => True

def Out.isOom : Out → Bool
  | .pushed .errOom => true
  | .popped .errOom _ => true
  | _ => false

theorem Queue.size_eq (Q : Queue cmp pq l) : pq.data.size = l.length := Q.lists.size

/-! ## One operation -/

theorem Queue.pop_empty (Q : Queue cmp pq l) (h0 : l.length = 0) (scratch : Grant) :
    cdsaPopPq scratch pq = some (.errEmpty, none, pq) := by
  have hsize := Q.size_eq
  unfold cdsaPopPq
  rw [if_pos (by omega)]

/-- A pop before it sifts: the root is read, and the last element is in its
place. -/
theorem Queue.pop_root (Q : Queue cmp pq l) (scratch : Grant) {m : Elem es} (hm : l[0]? = some m) :
    ∃ pq' x, l.getLast? = some x ∧ Queue cmp pq' (l.set 0 x).dropLast ∧
      cdsaPopPq scratch pq =
        if 1 < l.length then (siftDown scratch pq' 0).map fun r => (r.1, some m.1, r.2)
        else some (.ok, some m.1, pq') := by
  obtain ⟨h0, rfl⟩ := List.getElem?_eq_some_iff.mp hm
  have hsize := Q.size_eq
  have hle := Q.good.size_le
  have hroot : readAt pq.data.data 0 pq.elemSize = some l[0].1 := by
    have h := Q.lists.cells 0 h0
    rw [cellAt, Nat.zero_mul] at h
    rw [Q.elemSize, h]
  have hlast : readAt pq.data.data ((pq.data.size - 1) * pq.data.elemSize % 2 ^ 64)
      pq.data.elemSize = some l[l.length - 1].1 := by
    rw [hsize, Q.good.offset (by omega), Q.good.elemSize]
    exact Q.lists.cells (l.length - 1) (by omega)
  obtain ⟨data, hset, Q1⟩ := Q.setVector h0 l[l.length - 1]
  obtain ⟨G2, L2, -⟩ := Q1.good.pop Q1.lists
  have Q2 : Queue cmp { pq with data := (cdsaPopVector data).2 } _ := Q.with_data G2 L2
  have hsize2 : (cdsaPopVector data).2.size = l.length - 1 := by
    rw [L2.size, List.length_dropLast, List.length_set]
  refine ⟨_, l[l.length - 1], ?_, Q2, ?_⟩
  · rw [List.getLast?_eq_getElem?, List.getElem?_eq_getElem (by omega)]
  · unfold cdsaPopPq
    rw [if_neg (by omega), hroot, Option.bind_some, hlast, Option.bind_some, hset, Option.bind_some]
    simp only [hsize2]
    by_cases h1 : 1 < l.length
    · rw [if_pos h1, if_pos (by omega)]
    · rw [if_neg h1, if_neg (by omega)]

theorem Queue.peek (Q : Queue cmp pq l) : cdsaPeekPq pq = some (l[0]?.map Subtype.val) := by
  have hsize := Q.size_eq
  unfold cdsaPeekPq
  by_cases h0 : 0 < l.length
  · have h := Q.lists.cells 0 h0
    rw [cellAt, Nat.zero_mul] at h
    rw [if_neg (by omega), Q.elemSize, h, List.getElem?_eq_getElem h0]
    rfl
  · rw [if_pos (by omega), List.getElem?_eq_none (by omega)]
    rfl

section
variable [IsStrictWeakOrder (Elem es) (Before cmp)]

theorem Queue.push (Q : Queue cmp pq l) (H : HeapOrder (Before cmp) l) {growth : Grant}
    (scratch : Grant) {e : Elem es} (hg : GrowthMet pq.data (.push growth e)) :
    ∃ s pq' l', cdsaPushPq growth scratch pq e.1 = some (s, pq') ∧ Queue cmp pq' l' ∧
      l'.Perm (l ++ [e]) ∧
      ((0 < l.length → (scratch.answer (es + 8)).isSome) → s = .ok ∧ HeapOrder (Before cmp) l') ∧
      (¬ (0 < l.length → (scratch.answer (es + 8)).isSome) → s = .errOom) := by
  obtain ⟨data, hp, G, L⟩ := Q.good.push Q.lists growth e (Q.good.elemSize ▸ hg)
  have Q1 : Queue cmp { pq with data } (l ++ [e]) := Q.with_data G L
  have hindex : data.size - 1 = l.length := by
    rw [L.size, List.length_append, List.length_singleton, Nat.add_sub_cancel]
  unfold cdsaPushPq
  rw [hp, Option.bind_some]
  simp only [hindex]
  by_cases hs : 0 < l.length → (scratch.answer (es + 8)).isSome
  · obtain ⟨pq', l', hr, Q', hperm, H'⟩ := siftUp_granted Q1 (H.append e) (by simp) hs
    exact ⟨.ok, pq', l', hr, Q', hperm, fun _ => ⟨rfl, H'⟩, fun hn => absurd hs hn⟩
  · obtain ⟨h0, hn⟩ := Classical.not_imp.mp hs
    exact ⟨.errOom, _, l ++ [e], siftUp_refused Q1 h0 hn, Q1, .refl _, fun h => absurd h hs,
      fun _ => rfl⟩

theorem Queue.pop (Q : Queue cmp pq l) (H : HeapOrder (Before cmp) l) (scratch : Grant) {m : Elem es}
    (hm : l[0]? = some m) :
    ∃ s pq' l', cdsaPopPq scratch pq = some (s, some m.1, pq') ∧ Queue cmp pq' l' ∧
      (m :: l').Perm l ∧
      ((1 < l.length → (scratch.answer (es + 8)).isSome) → s = .ok ∧ HeapOrder (Before cmp) l') ∧
      (¬ (1 < l.length → (scratch.answer (es + 8)).isSome) → s = .errOom) := by
  obtain ⟨pq1, x, hx, Q1, he⟩ := Q.pop_root scratch hm
  have hperm := dropRoot_perm hm hx
  have hlen : ((l.set 0 x).dropLast).length = l.length - 1 := by simp
  rw [he]
  by_cases h1 : 1 < l.length
  · rw [if_pos h1]
    by_cases hs : (scratch.answer (es + 8)).isSome
    · have hbound : l.length ≤ 2 ^ 63 := by
        obtain ⟨k, hk⟩ := Q.good.pow
        have hlt := Q.good.capacity_lt
        rw [hk, Nat.pow_lt_pow_iff_right (by decide)] at hlt
        have hpow := Nat.pow_le_pow_right Nat.two_pos (show k ≤ 63 by omega)
        have := Q.good.size_le
        have := Q.size_eq
        omega
      obtain ⟨pq', l', hr, Q', hperm', H'⟩ := siftDown_granted Q1 (H.dropRoot x) (by omega)
        (by omega) hs
      exact ⟨.ok, pq', l', by rw [hr, Option.map_some], Q', (hperm'.cons m).trans hperm,
        fun _ => ⟨rfl, H'⟩, fun hn => absurd (fun _ => hs) hn⟩
    · exact ⟨.errOom, pq1, _, by rw [siftDown_refused Q1 hs, Option.map_some], Q1, hperm,
        fun h => absurd (h h1) hs, fun _ => rfl⟩
  · rw [if_neg h1]
    refine ⟨.ok, pq1, _, rfl, Q1, hperm, fun _ => ⟨rfl, fun j hj hb => ?_⟩, fun hn =>
      absurd (fun h => absurd h h1) hn⟩
    -- nothing is left
    have := hb.lt.1
    omega

/-- One operation whose growth is met. If it also gets its scratch element, it
answers as the multiset does, and leaves a heap; if not, it says that it is out
of memory, of a queue whose elements are no longer the same. -/
theorem Queue.step (Q : Queue cmp pq l) (H : HeapOrder (Before cmp) l) (op : Op es)
    (hg : Growing pq op) :
    ∃ out pq' l', Priority.step pq op = some (out, pq') ∧ Queue cmp pq' l' ∧
      (ScratchMet pq op → HeapOrder (Before cmp) l' ∧
        Answers (Before cmp) (l : Multiset (Elem es)) op out l') ∧
      (¬ ScratchMet pq op → out.isOom ∧ ¬ l'.Perm l) := by
  have hsize := Q.size_eq
  cases op with
  | push growth scratch e =>
    obtain ⟨s, pq', l', hp, Q', hperm, hmet, hunmet⟩ := Q.push H scratch hg
    refine ⟨.pushed s, pq', l', by rw [Priority.step, hp, Option.map_some], Q', fun hs => ?_,
      fun hs => ?_⟩
    · rw [ScratchMet, hsize] at hs
      obtain ⟨rfl, H'⟩ := hmet hs
      exact ⟨H', rfl, Multiset.coe_eq_coe.mpr (hperm.trans (List.perm_append_singleton e l))⟩
    · rw [ScratchMet, hsize] at hs
      obtain rfl := hunmet hs
      refine ⟨rfl, fun h => ?_⟩
      have hlen := (hperm.symm.trans h).length_eq
      simp at hlen
  | pop scratch =>
    by_cases h0 : l.length = 0
    · obtain rfl := List.eq_nil_of_length_eq_zero h0
      exact ⟨_, pq, [], by rw [Priority.step, Q.pop_empty h0, Option.map_some], Q,
        fun _ => ⟨H, Or.inl ⟨rfl, rfl, rfl⟩⟩, fun hs => absurd (fun h => by omega) hs⟩
    · have hm : l[0]? = some l[0] := List.getElem?_eq_getElem (by omega)
      obtain ⟨s, pq', l', hp, Q', hperm, hmet, hunmet⟩ := Q.pop H scratch hm
      refine ⟨_, pq', l', by rw [Priority.step, hp, Option.map_some], Q', fun hs => ?_,
        fun hs => ?_⟩
      · rw [ScratchMet, hsize] at hs
        obtain ⟨rfl, H'⟩ := hmet hs
        refine ⟨H', Or.inr ⟨l[0], Multiset.coe_eq_coe.mpr hperm.symm, rfl, fun x hx => ?_⟩⟩
        exact H.root_unbeaten hm x (hperm.mem_iff.mp (List.mem_cons_of_mem _ hx))
      · rw [ScratchMet, hsize] at hs
        obtain rfl := hunmet hs
        refine ⟨rfl, fun h => ?_⟩
        have hlen := (hperm.trans h.symm).length_eq
        simp at hlen
  | peek =>
    refine ⟨_, pq, l, by rw [Priority.step, Q.peek, Option.map_some], Q, fun _ => ⟨H, rfl, ?_⟩,
      fun hs => absurd trivial hs⟩
    cases l with
    | nil => exact Or.inl ⟨rfl, rfl⟩
    | cons m t => exact Or.inr ⟨m, List.mem_cons_self, rfl, H.root_unbeaten rfl⟩
  | clear =>
    obtain ⟨G, L⟩ := Q.good.clear
    exact ⟨_, _, [], rfl, Q.with_data G L, fun _ => ⟨fun j _ hb => absurd hb.lt.1 (Nat.not_lt_zero j),
      rfl, rfl⟩, fun hs => absurd trivial hs⟩

/-- The states of a run without a failing allocation. -/
theorem Queue.run (Q : Queue cmp pq l) (H : HeapOrder (Before cmp) l) (ops : List (Op es))
    (hops : RunMeets Priority.step (fun pq op => Growing pq op ∧ ScratchMet pq op) pq ops) :
    ∃ outs pq', ∃ l' : List (Elem es), runOps Priority.step pq ops = some (outs, pq') ∧
      Queue cmp pq' l' ∧ HeapOrder (Before cmp) l' ∧
      RelRun (Answers (Before cmp)) (l : Multiset (Elem es)) ops outs l' := by
  obtain ⟨outs, pq', s, hr, hrel, l', rfl, Q', H'⟩ := refine_relRun
    (R := Answers (Before cmp))
    (I := fun pq s => ∃ l : List (Elem es), (l : Multiset (Elem es)) = s ∧ Queue cmp pq l ∧
      HeapOrder (Before cmp) l)
    (fun pq s op ⟨l, hl, Q, H⟩ ⟨hg, hs⟩ => by
      obtain ⟨out, pq', l', he, Q', hmet, -⟩ := Q.step H op hg
      obtain ⟨H', ha⟩ := hmet hs
      exact ⟨out, pq', _, he, hl ▸ ha, l', rfl, Q', H'⟩) ops pq _ ⟨l, rfl, Q, H⟩ hops
  exact ⟨outs, pq', l', hr, Q', H', hrel⟩

/-- Pops until the queue is empty. -/
theorem Queue.drain (Q : Queue cmp pq l) (H : HeapOrder (Before cmp) l) (grants : List Grant)
    (hlen : grants.length = l.length) (hg : ∀ g ∈ grants, (g.answer (es + 8)).isSome) :
    ∃ out : List (Elem es), ∃ pq', runOps Priority.step pq (grants.map fun g => (.pop g : Op es)) =
        some (out.map fun m => Out.popped .ok (some m.1), pq') ∧
      Queue cmp pq' ([] : List (Elem es)) ∧ Drains (Before cmp) (l : Multiset (Elem es)) out := by
  induction grants generalizing pq l with
  | nil =>
    obtain rfl := List.eq_nil_of_length_eq_zero hlen.symm
    exact ⟨[], pq, rfl, Q, .nil⟩
  | cons g grants ih =>
    have hlen : grants.length + 1 = l.length := hlen
    have hs : ScratchMet pq (.pop g : Op es) := fun _ => hg g List.mem_cons_self
    obtain ⟨out, pq1, l1, he, Q1, hmet, -⟩ := Q.step H (.pop g) trivial
    obtain ⟨H1, ha⟩ := hmet hs
    rcases ha with ⟨hl0, -⟩ | ⟨m, hm, rfl, hbest⟩
    · rw [Multiset.coe_eq_zero] at hl0
      subst hl0
      simp at hlen
    · have hlen1 := congrArg Multiset.card hm
      simp only [Multiset.coe_card, Multiset.card_cons] at hlen1
      obtain ⟨rest, pq', hr, Q', hd⟩ := ih Q1 H1 (by omega)
        fun g' hg' => hg g' (List.mem_cons_of_mem _ hg')
      refine ⟨m :: rest, pq', ?_, Q', ?_⟩
      · rw [List.map_cons, runOps_cons he, hr]
        rfl
      · rw [hm]
        exact .cons hbest hd

end

theorem cdsaCreatePq_spec {self vec block : Malloc}
    (hc : cdsaCreatePq self vec block es cmp = some (some pq)) :
    cdsaCreateVector vec block es = some (some pq.data) ∧ pq.elemSize = es ∧ pq.cmp = cmp := by
  obtain ⟨r, -, hc⟩ := Option.bind_eq_some_iff.mp hc
  cases r with
  | none => simp at hc
  | some _ =>
    obtain ⟨r, hr, hc⟩ := Option.map_eq_some_iff.mp hc
    obtain ⟨data, rfl, rfl⟩ := Option.map_eq_some_iff.mp hc
    exact ⟨hr, rfl, rfl⟩

/-- A new queue whose first block does not wrap. -/
theorem cdsaCreatePq_queue {self : Malloc} {vec block : Grant}
    (hc : cdsaCreatePq self (cdsaMallocTrack vec) (cdsaMallocTrack block) es cmp = some (some pq))
    (hs : 4 * es + 8 < 2 ^ 64) : Queue cmp pq ([] : List (Elem es)) := by
  obtain ⟨hv, hes, hcmp⟩ := cdsaCreatePq_spec hc
  obtain ⟨-, hgood⟩ := cdsaCreateVector_spec hv
  obtain ⟨G, L⟩ := hgood hs
  exact ⟨G, L, hes, hcmp⟩

/-- A run in which no allocation fails answers as a multiset of elements does,
keeps the heap, and drains in non-increasing priority. An allocation whose size
wraps, or is 0, counts as failed. -/
theorem priority_queue_runs (es : Nat) (cmp : List UInt8 → List UInt8 → Bool)
    [IsStrictWeakOrder (Elem es) (Before cmp)] (self vec block : Grant) (pq : CdsaPriorityQueue)
    (hc : cdsaCreatePq (cdsaMallocTrack self) (cdsaMallocTrack vec) (cdsaMallocTrack block) es cmp =
      some (some pq)) (hs : 4 * es + 8 < 2 ^ 64) (ops : List (Op es))
    (hops : RunMeets step (fun pq op => Growing pq op ∧ ScratchMet pq op) pq ops) :
    ∃ outs pq', ∃ l : List (Elem es), runOps step pq ops = some (outs, pq') ∧ Lists pq'.data l ∧
      (∀ i (hi : i < l.length), 1 ≤ i → cmp l[i].1 l[(i - 1) / 2].1 = false) ∧
      RelRun (Answers (Before cmp)) (0 : Multiset (Elem es)) ops outs l ∧
      ∀ grants : List Grant, grants.length = l.length →
        (∀ g ∈ grants, (g.answer (es + 8)).isSome) →
        ∃ out : List (Elem es), ∃ pq'', runOps step pq' (grants.map fun g => (.pop g : Op es)) =
            some (out.map fun m => Out.popped .ok (some m.1), pq'') ∧
          pq''.data.size = 0 ∧ out.Perm l ∧ out.Pairwise fun a b => cmp b.1 a.1 = false := by
  have Q := cdsaCreatePq_queue hc hs
  have H : HeapOrder (Before cmp) ([] : List (Elem es)) :=
    fun j _ hb => absurd hb.lt.1 (Nat.not_lt_zero j)
  obtain ⟨outs, pq', l, hr, Q', H', hrel⟩ := Q.run H ops hops
  refine ⟨outs, pq', l, hr, Q'.lists, fun i hi h1 => ?_, hrel, fun grants hlen hg => ?_⟩
  · have hp : parent i < l.length := Nat.lt_trans (parent_lt h1) hi
    exact Bool.eq_false_iff.mpr fun h => H' i h1 ((beats_iff hi hp).mpr h)
  · obtain ⟨out, pq'', hd, Q'', D⟩ := Q'.drain H' grants hlen hg
    exact ⟨out, pq'', hd, Q''.size_eq, Multiset.coe_eq_coe.mp D.coe_eq,
      D.sorted.imp fun h => Bool.eq_false_iff.mpr h⟩

/-- The smaller first byte goes first. -/
def byFirst (a b : List UInt8) : Bool := (a.headD 0).toNat < (b.headD 0).toNat

theorem before_byFirst (a b : Elem es) :
    Before byFirst a b ↔ (a.1.headD 0).toNat < (b.1.headD 0).toNat := by
  simp [Before, byFirst]

instance : IsStrictWeakOrder (Elem es) (Before byFirst) where
  irrefl a := by
    rw [before_byFirst]
    omega
  trans a b c := by
    simp only [before_byFirst]
    omega
  incomp_trans a b c := by
    simp only [before_byFirst]
    omega

/-- Two elements, the second of which rises to the root. -/
theorem priority_queue_runs_two : ∃ pq outs pq', ∃ l : List (Elem 1),
    cdsaCreatePq (cdsaMallocTrack .zeros) (cdsaMallocTrack .zeros) (cdsaMallocTrack .zeros) 1
      byFirst = some (some pq) ∧
    runOps step pq ([.push .zeros .zeros ⟨[3], rfl⟩, .push .zeros .zeros ⟨[1], rfl⟩, .peek] :
      List (Op 1)) = some (outs, pq') ∧ Lists pq'.data l ∧
    RelRun (Answers (Before byFirst)) (0 : Multiset (Elem 1))
      [.push .zeros .zeros ⟨[3], rfl⟩, .push .zeros .zeros ⟨[1], rfl⟩, .peek] outs l := by
  obtain ⟨outs, pq', l, hr, L, -, hrel, -⟩ := priority_queue_runs 1 byFirst .zeros .zeros .zeros _ rfl
    (by decide) [.push .zeros .zeros ⟨[3], rfl⟩, .push .zeros .zeros ⟨[1], rfl⟩, .peek]
    (.cons ⟨fun h => absurd h (by decide), fun _ => rfl⟩ rfl
      (.cons ⟨fun h => absurd h (by decide), fun _ => rfl⟩ rfl ⟨⟨trivial, trivial⟩, fun _ _ _ => trivial⟩))
  exact ⟨_, outs, pq', l, rfl, hr, L, hrel⟩

end Cdsa.Priority
