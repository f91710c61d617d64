import Cdsa.L2Priority.Runs

/-!
# Priority queues that run out of scratch memory

`Atomic`: an operation that gives CDSA_ERR_OOM leaves the elements as they were,
and whatever it gives, the queue is a heap. With a growing vector a run is atomic
throughout if and only if every sift that allocates gets its scratch element
(`atomic_run_iff`): a push on a queue that is not empty, and a pop that leaves an
element. When one does not, the vector has been changed already.
-/
namespace Cdsa.Priority

open Cdsa.Core Cdsa.Raw Cdsa.Vector

variable {es : Nat} {cmp : List UInt8 → List UInt8 → Bool} {pq : CdsaPriorityQueue}
  {l : List (Elem es)}

def Atomic (cmp : List UInt8 → List UInt8 → Bool) (pq : CdsaPriorityQueue) (op : Op es) : Prop :=
  ∃ l l' : List (Elem es), ∃ out pq', Lists pq.data l ∧ step pq op = some (out, pq') ∧
    Lists pq'.data l' ∧ (out.isOom → l'.Perm l) ∧ HeapOrder (Before cmp) l' ∧
    ∀ o, out = .popped .ok o →
      ∃ m : Elem es, o = some m.1 ∧ (m :: l').Perm l ∧ ∀ x ∈ l', ¬ Before cmp x m

/-- What the multiset answers is not that memory is out. -/
theorem Answers.not_oom {r : Elem es → Elem es → Prop} {s s' : Multiset (Elem es)} {op : Op es}
    {out : Out} (h : Answers r s op out s') : out.isOom = false := by
  cases op with
  | push growth scratch e =>
    obtain ⟨rfl, -⟩ := h
    rfl
  | pop scratch =>
    rcases h with ⟨-, rfl, -⟩ | ⟨m, -, rfl, -⟩ <;> rfl
  | peek =>
    rcases h with ⟨-, ⟨-, rfl⟩ | ⟨m, -, rfl, -⟩⟩ <;> rfl
  | clear =>
    obtain ⟨rfl, -⟩ := h
    rfl

/-- What a pop gives, if it gives something. -/
theorem Answers.popped {r : Elem es → Elem es → Prop} {s s' : Multiset (Elem es)} {op : Op es}
    {o : Option (List UInt8)} (h : Answers r s op (.popped .ok o) s') :
    ∃ m, s = m ::ₘ s' ∧ o = some m.1 ∧ ∀ x ∈ s', ¬ r x m := by
  cases op with
  | push growth scratch e => simp [Answers] at h
  | pop scratch => simpa [Answers] using h
  | peek => simp [Answers] at h
  | clear => simp [Answers] at h

section
variable [IsStrictWeakOrder (Elem es) (Before cmp)]

theorem atomic_iff (Q : Queue cmp pq l) (H : HeapOrder (Before cmp) l) {op : Op es}
    (hg : Growing pq op) : Atomic cmp pq op ↔ ScratchMet pq op := by
  obtain ⟨out, pq', l', he, Q', hmet, hunmet⟩ := Q.step H op hg
  constructor
  · rintro ⟨l1, l1', out1, pq1, L, he1, L', hoom, -, -⟩
    by_contra hs
    obtain ⟨ho, hperm⟩ := hunmet hs
    rw [he] at he1
    cases he1
    rw [Q.lists.unique L, Q'.lists.unique L'] at hoom
    exact hperm (hoom ho)
  · intro hs
    obtain ⟨H', ha⟩ := hmet hs
    refine ⟨l, l', out, pq', Q.lists, he, Q'.lists, fun ho => ?_, H', fun o ho => ?_⟩
    · rw [ha.not_oom] at ho
      cases ho
    · obtain ⟨m, hm, ho', hbest⟩ := (ho ▸ ha).popped
      exact ⟨m, ho', Multiset.coe_eq_coe.mp hm.symm, hbest⟩

end

/-- While the vector grows, a run since creation is atomic throughout exactly if
every sift that allocates gets its scratch element. -/
theorem atomic_run_iff (es : Nat) (cmp : List UInt8 → List UInt8 → Bool)
    [IsStrictWeakOrder (Elem es) (Before cmp)] (self vec block : Grant) (pq : CdsaPriorityQueue)
    (hc : cdsaCreatePq (cdsaMallocTrack self) (cdsaMallocTrack vec) (cdsaMallocTrack block) es cmp =
      some (some pq)) (hs : 4 * es + 8 < 2 ^ 64) (ops : List (Op es))
    (hg : RunMeets step Growing pq ops) :
    RunMeets step (Atomic cmp) pq ops ↔ RunMeets step ScratchMet pq ops := by
  have H : HeapOrder (Before cmp) ([] : List (Elem es)) :=
    fun j _ hb => absurd hb.lt.1 (Nat.not_lt_zero j)
  have hiff : RunMeets step (fun pq op => Growing pq op ∧ Atomic cmp pq op) pq ops ↔
      RunMeets step (fun pq op => Growing pq op ∧ ScratchMet pq op) pq ops := runMeets_iff
    (I := fun pq => ∃ l : List (Elem es), Queue cmp pq l ∧ HeapOrder (Before cmp) l)
    (fun pq op ⟨l, Q, H⟩ => and_congr_right fun hg => atomic_iff Q H hg)
    (fun pq op o pq' ⟨l, Q, H⟩ ⟨hg, hm⟩ he => by
      obtain ⟨out, pq1, l', he1, Q', hmet, -⟩ := Q.step H op hg
      rw [he] at he1
      cases he1
      exact ⟨l', Q', (hmet hm).1⟩) ops pq ⟨[], cdsaCreatePq_queue hc hs, H⟩
  rw [runMeets_and, runMeets_and] at hiff
  exact ⟨fun h => (hiff.mp ⟨hg, h⟩).2, fun h => (hiff.mpr ⟨hg, h⟩).2⟩

/-- A first push allocates nothing, a second one does. -/
theorem atomic_run_iff_two : ∃ pq,
    cdsaCreatePq (cdsaMallocTrack .zeros) (cdsaMallocTrack .zeros) (cdsaMallocTrack .zeros) 1
      byFirst = some (some pq) ∧
    RunMeets step (Atomic byFirst) pq
      ([.push .zeros .refuses ⟨[3], rfl⟩, .push .zeros .zeros ⟨[1], rfl⟩] : List (Op 1)) := by
  refine ⟨_, rfl, (atomic_run_iff 1 byFirst .zeros .zeros .zeros _ rfl (by decide) _ ?_).mpr ?_⟩
  · exact .cons (fun h => absurd h (by decide)) rfl
      ⟨fun h => absurd h (by decide), fun _ _ _ => trivial⟩
  · exact .cons (fun h => absurd h (by decide)) rfl ⟨fun _ => rfl, fun _ _ _ => trivial⟩

/-- Out of scratch memory, the second push says so and has stored its element,
below the one that it beats. -/
theorem refused_push_stores : ∃ pq pq' : CdsaPriorityQueue,
    cdsaCreatePq (cdsaMallocTrack .zeros) (cdsaMallocTrack .zeros) (cdsaMallocTrack .zeros) 1
      byFirst = some (some pq) ∧
    RunMeets step Growing pq ([.push .zeros .zeros ⟨[3], rfl⟩, .push .zeros .refuses ⟨[1], rfl⟩] :
      List (Op 1)) ∧
    runOps step pq ([.push .zeros .zeros ⟨[3], rfl⟩, .push .zeros .refuses ⟨[1], rfl⟩] :
      List (Op 1)) = some ([.pushed .ok, .pushed .errOom], pq') ∧
    pq'.data.size = 2 ∧ pq'.data.data.take 2 = [3, 1] ∧
    ¬ RunMeets step (Atomic byFirst) pq
      ([.push .zeros .zeros ⟨[3], rfl⟩, .push .zeros .refuses ⟨[1], rfl⟩] : List (Op 1)) := by
  refine ⟨_, _, rfl, .cons (fun h => absurd h (by decide)) rfl
    ⟨fun h => absurd h (by decide), fun _ _ _ => trivial⟩, rfl, rfl, rfl, fun h => ?_⟩
  obtain ⟨l, l', out, pq', L, he, L', hoom, -⟩ := (h.2 _ _ rfl).1
  cases he
  have hlen := (hoom rfl).length_eq
  rw [← L.size, ← L'.size] at hlen
  exact absurd hlen (by decide)

end Cdsa.Priority
