import Mathlib.Data.Nat.Log
import Cdsa.Core.Amortised
import Cdsa.L2Priority.Runs

/-!
# Priority queues under any comparison function

Nothing makes a caller's `cmp` an order. Whatever it answers, and whether or not
a sift finds its scratch element, the sifts end within the array and only
exchange elements: the queue is a bag that loses none and makes none up
(`bag_runs`). What an order adds is which element a pop gives.

The loops are written once more with the number of calls of `cmp`, which
`stepCalls_fst` ties to the loops of `Cdsa.L2Priority.Queue`. An element rises or
sinks one level a round, so a push onto `n` elements calls it at most
`log2 (n + 1)` times, a pop of `n` at most `2 * log2 (n - 1)` times, and a run of
`n` operations at most `2 * n * log2 n` times (`comparisons_logarithmic`).
-/
namespace Cdsa.Priority

open Cdsa.Core Cdsa.Raw Cdsa.Vector

/-! ## The sifts and their calls of cmp -/

/-- mirrors src/priority_queue.c:26-42 -/
def siftUpLoopCalls : Nat → CdsaPriorityQueue → List UInt8 → Nat → Option (CdsaPriorityQueue × Nat)
  | 0, _, _, _ => none
  | fuel + 1, pq, temp, index =>
    if index > 0 then
      let parentIdx := (index - 1) / 2
      (elemAt pq.data index pq.elemSize).bind fun currentVal =>
        (elemAt pq.data parentIdx pq.elemSize).bind fun parentVal =>
          if pq.cmp currentVal parentVal then
            (swapThrough pq temp index parentIdx).bind fun r =>
              (siftUpLoopCalls fuel r.1 r.2 parentIdx).map fun q => (q.1, q.2 + 1)
          else some (pq, 1)
    else some (pq, 0)

/-- mirrors src/priority_queue.c:16-46 -/
def siftUpCalls (scratch : Grant) (pq : CdsaPriorityQueue) (index : Nat) :
    Option ((Status × CdsaPriorityQueue) × Nat) :=
  if index = 0 then some ((.ok, pq), 0)
  else (cdsaMallocTrack scratch pq.elemSize).bind fun
    | none => some ((.errOom, pq), 0)
    | some temp => (siftUpLoopCalls (index + 1) pq temp index).map fun q => ((.ok, q.1), q.2)

/-- A child that is in the heap is compared once.
mirrors src/priority_queue.c:61-67, 69-75 -/
def preferChildCalls (pq : CdsaPriorityQueue) (size child highestPriority : Nat) :
    Option (Nat × Nat) :=
  (preferChild pq size child highestPriority).map fun k => (k, if child < size then 1 else 0)

/-- mirrors src/priority_queue.c:56-90 -/
def siftDownLoopCalls : Nat → CdsaPriorityQueue → List UInt8 → Nat → Nat →
    Option (CdsaPriorityQueue × Nat)
  | 0, _, _, _, _ => none
  | fuel + 1, pq, temp, size, index =>
    (preferChildCalls pq size ((2 * index + 1) % 2 ^ 64) index).bind fun left =>
      (preferChildCalls pq size ((2 * index + 2) % 2 ^ 64) left.1).bind fun right =>
        if right.1 ≠ index then
          (swapThrough pq temp index right.1).bind fun r =>
            (siftDownLoopCalls fuel r.1 r.2 size right.1).map fun q =>
              (q.1, q.2 + (left.2 + right.2))
        else some (pq, left.2 + right.2)

/-- mirrors src/priority_queue.c:48-94 -/
def siftDownCalls (scratch : Grant) (pq : CdsaPriorityQueue) (index : Nat) :
    Option ((Status × CdsaPriorityQueue) × Nat) :=
  (cdsaMallocTrack scratch pq.elemSize).bind fun
    | none => some ((.errOom, pq), 0)
    | some temp =>
      (siftDownLoopCalls (pq.data.size + 1) pq temp pq.data.size index).map fun q =>
        ((.ok, q.1), q.2)

/-- mirrors src/priority_queue.c:125-137 -/
def pushCalls (growth scratch : Grant) (pq : CdsaPriorityQueue) (elem : List UInt8) :
    Option ((Status × CdsaPriorityQueue) × Nat) :=
  (cdsaPushVector growth pq.data elem).bind fun
    | (.ok, data) => siftUpCalls scratch { pq with data } (data.size - 1)
    | (cdsaPushStatus, data) => some ((cdsaPushStatus, { pq with data }), 0)

/-- What a pop writes to `out_elem`, and the queue that it then sifts.
mirrors src/priority_queue.c:148-156 -/
def popRoot (pq : CdsaPriorityQueue) : Option (List UInt8 × CdsaPriorityQueue) :=
  (readAt pq.data.data 0 pq.elemSize).bind fun outElem =>
    (readAt pq.data.data ((pq.data.size - 1) * pq.data.elemSize % 2 ^ 64)
      pq.data.elemSize).bind fun lastVal =>
      (setVector pq.data 0 lastVal).map fun r =>
        (outElem, { pq with data := (cdsaPopVector r.2).2 })

/-- mirrors src/priority_queue.c:139-164 -/
def popCalls (scratch : Grant) (pq : CdsaPriorityQueue) :
    Option ((Status × Option (List UInt8) × CdsaPriorityQueue) × Nat) :=
  if pq.data.size = 0 then some ((.errEmpty, none, pq), 0)
  else
    (popRoot pq).bind fun r =>
      if r.2.data.size ≠ 0 then
        (siftDownCalls scratch r.2 0).map fun q => ((q.1.1, some r.1, q.1.2), q.2)
      else some ((.ok, some r.1, r.2), 0)

def stepCalls {es : Nat} (pq : CdsaPriorityQueue) : Op es → Option ((Out × CdsaPriorityQueue) × Nat)
  | .push growth scratch elem =>
    (pushCalls growth scratch pq elem.1).map fun q => ((.pushed q.1.1, q.1.2), q.2)
  | .pop scratch => (popCalls scratch pq).map fun q => ((.popped q.1.1 q.1.2.1, q.1.2.2), q.2)
  | .peek => (cdsaPeekPq pq).map fun r => ((.peeked r, pq), 0)
  | .clear => some ((.cleared, cdsaClearPq pq), 0)

/-! ## They are the same sifts -/

theorem siftUpLoopCalls_fst (fuel : Nat) (pq : CdsaPriorityQueue) (temp : List UInt8) (index : Nat) :
    (siftUpLoopCalls fuel pq temp index).map Prod.fst = siftUpLoop fuel pq temp index := by
  induction fuel generalizing pq temp index with
  | zero => rfl
  | succ fuel ih =>
    unfold siftUpLoopCalls siftUpLoop
    split
    · simp only [Option.map_bind, Function.comp_def]
      congr 1; funext currentVal
      congr 1; funext parentVal
      split
      · simp [Option.map_bind, Function.comp_def, ← ih]
      · rfl
    · rfl

theorem siftUpCalls_fst (scratch : Grant) (pq : CdsaPriorityQueue) (index : Nat) :
    (siftUpCalls scratch pq index).map Prod.fst = siftUp scratch pq index := by
  unfold siftUpCalls siftUp
  split
  · rfl
  · rw [Option.map_bind]
    congr 1; funext temp
    cases temp with
    | none => rfl
    | some temp => simp [← siftUpLoopCalls_fst, Function.comp_def]

theorem siftDownLoopCalls_fst (fuel : Nat) (pq : CdsaPriorityQueue) (temp : List UInt8)
    (size index : Nat) :
    (siftDownLoopCalls fuel pq temp size index).map Prod.fst =
      siftDownLoop fuel pq temp size index := by
  induction fuel generalizing pq temp index with
  | zero => rfl
  | succ fuel ih =>
    unfold siftDownLoopCalls siftDownLoop preferChildCalls
    simp only [Option.map_bind, Option.bind_map, Function.comp_def]
    congr 1; funext left
    congr 1; funext right
    split
    · simp [Option.map_bind, Function.comp_def, ← ih]
    · rfl

theorem siftDownCalls_fst (scratch : Grant) (pq : CdsaPriorityQueue) (index : Nat) :
    (siftDownCalls scratch pq index).map Prod.fst = siftDown scratch pq index := by
  unfold siftDownCalls siftDown
  rw [Option.map_bind]
  congr 1; funext temp
  cases temp with
  | none => rfl
  | some temp => simp [← siftDownLoopCalls_fst, Function.comp_def]

theorem pushCalls_fst (growth scratch : Grant) (pq : CdsaPriorityQueue) (elem : List UInt8) :
    (pushCalls growth scratch pq elem).map Prod.fst = cdsaPushPq growth scratch pq elem := by
  unfold pushCalls cdsaPushPq
  rw [Option.map_bind]
  congr 1; funext r
  obtain ⟨s, data⟩ := r
  cases s <;> first | exact siftUpCalls_fst .. | rfl

theorem cdsaPopPq_eq {pq : CdsaPriorityQueue} (h0 : pq.data.size ≠ 0) (scratch : Grant) :
    cdsaPopPq scratch pq = (popRoot pq).bind fun r =>
      if r.2.data.size ≠ 0 then (siftDown scratch r.2 0).map fun q => (q.1, some r.1, q.2)
      else some (.ok, some r.1, r.2) := by
  unfold cdsaPopPq popRoot
  rw [if_neg h0]
  simp only [Option.bind_assoc, Option.bind_map, Function.comp_def]

theorem popCalls_fst (scratch : Grant) (pq : CdsaPriorityQueue) :
    (popCalls scratch pq).map Prod.fst = cdsaPopPq scratch pq := by
  unfold popCalls
  split
  · next h0 => simp [cdsaPopPq, h0]
  · next h0 =>
    rw [cdsaPopPq_eq h0, Option.map_bind]
    congr 1; funext r
    dsimp only [Function.comp_apply]
    split
    · simp [← siftDownCalls_fst, Function.comp_def]
    · rfl

/-- Counting the calls changes no answer and no queue. -/
theorem stepCalls_fst {es : Nat} (pq : CdsaPriorityQueue) (op : Op es) :
    (stepCalls pq op).map Prod.fst = step pq op := by
  cases op with
  | push growth scratch elem => simp [stepCalls, step, ← pushCalls_fst, Function.comp_def]
  | pop scratch => simp [stepCalls, step, ← popCalls_fst, Function.comp_def]
  | peek => simp [stepCalls, step, Function.comp_def]
  | clear => rfl

theorem step_of_calls {es : Nat} {pq : CdsaPriorityQueue} {op : Op es} {r : Out × CdsaPriorityQueue}
    {n : Nat} (h : stepCalls pq op = some (r, n)) : step pq op = some r := by
  rw [← stepCalls_fst, h, Option.map_some]

/-! ## How far an element moves -/

/-- One level up. -/
theorem log_parent {index : Nat} (h : 0 < index) :
    Nat.log 2 (parent index + 1) + 1 = Nat.log 2 (index + 1) := by
  have hhalf : (index + 1) / 2 = parent index + 1 := by
    unfold parent
    omega
  rw [Nat.log_of_one_lt_of_le Nat.one_lt_two (show 2 ≤ index + 1 by omega), hhalf]

/-- One level down. -/
theorem log_child {size index c : Nat} (hc : 2 * (index + 1) ≤ c + 1) (hs : c < size) :
    Nat.log 2 (size / (c + 1)) + 1 ≤ Nat.log 2 (size / (index + 1)) := by
  have htwo : 2 ≤ size / (index + 1) := by
    rw [Nat.le_div_iff_mul_le (Nat.succ_pos index)]
    omega
  have hmono : size / (c + 1) ≤ size / (index + 1) / 2 := by
    rw [Nat.div_div_eq_div_mul]
    apply Nat.div_le_div_left
    · omega
    · omega
  rw [Nat.log_of_one_lt_of_le Nat.one_lt_two htwo]
  exact Nat.succ_le_succ (Nat.log_mono_right hmono)

section
variable {es : Nat} {cmp : List UInt8 → List UInt8 → Bool} {pq : CdsaPriorityQueue}
  {l : List (Elem es)}

theorem siftUpLoopCalls_spec : ∀ fuel {pq : CdsaPriorityQueue} {l : List (Elem es)}
    {temp : List UInt8} {index : Nat}, Queue cmp pq l → index < l.length → es ≤ temp.length →
    index < fuel →
    ∃ pq' l' n, siftUpLoopCalls fuel pq temp index = some (pq', n) ∧ Queue cmp pq' l' ∧
      l'.Perm l ∧ n ≤ Nat.log 2 (index + 1)
  | 0, _, _, _, _, _, _, _, hf => absurd hf (Nat.not_lt_zero _)
  | fuel + 1, pq, l, temp, index, Q, hi, ht, hf => by
    unfold siftUpLoopCalls
    by_cases h0 : index > 0
    · have hlt : parent index < index := parent_lt h0
      have hp : parent index < l.length := Nat.lt_trans hlt hi
      have hlog := log_parent h0
      rw [if_pos h0, show (index - 1) / 2 = parent index from rfl]
      simp only [Q.elemSize, Q.elemAt hi, Q.elemAt hp, Option.bind_some, Q.cmp]
      split
      · obtain ⟨pq', temp', hs, Q', ht'⟩ := Q.swap hi hp ht
        obtain ⟨pq'', l', n, hr, Q'', hperm, hn⟩ := siftUpLoopCalls_spec fuel Q'
          (by rw [(swapAt_perm l _ _).length_eq]; exact hp) ht' (by omega)
        refine ⟨pq'', l', n + 1, ?_, Q'', hperm.trans (swapAt_perm l _ _), by omega⟩
        rw [hs, Option.bind_some, hr, Option.map_some]
      · exact ⟨pq, l, 1, rfl, Q, .refl l, by omega⟩
    · exact ⟨pq, l, 0, if_neg h0, Q, .refl l, Nat.zero_le _⟩

/-- The status of a sift that allocates if `needed`. -/
def sifted (es : Nat) (scratch : Grant) (needed : Prop) [Decidable needed] : Status :=
  if needed → (scratch.answer (es + 8)).isSome then .ok else .errOom

theorem siftUpCalls_spec (Q : Queue cmp pq l) {index : Nat} (hi : index < l.length)
    (scratch : Grant) :
    ∃ pq' l' n, siftUpCalls scratch pq index = some ((sifted es scratch (0 < index), pq'), n) ∧
      Queue cmp pq' l' ∧ l'.Perm l ∧ n ≤ Nat.log 2 (index + 1) := by
  unfold siftUpCalls
  by_cases h0 : index = 0
  · refine ⟨pq, l, 0, ?_, Q, .refl l, Nat.zero_le _⟩
    simp [h0, sifted]
  · have hpos : 0 < index := Nat.pos_of_ne_zero h0
    rw [if_neg h0]
    rcases Q.scratch scratch with ⟨temp, hm, ht, hsome⟩ | ⟨hm, hnone⟩
    · obtain ⟨pq', l', n, hr, Q', hperm, hn⟩ :=
        siftUpLoopCalls_spec (index + 1) Q hi ht (Nat.lt_succ_self _)
      refine ⟨pq', l', n, ?_, Q', hperm, hn⟩
      simp [hm, hr, sifted, hsome]
    · refine ⟨pq, l, 0, ?_, Q, .refl l, Nat.zero_le _⟩
      simp [hm, sifted, hnone, hpos]

/-- Whatever the function answers, the winner is one of the two. -/
theorem preferChildCalls_spec (Q : Queue cmp pq l) (child : Nat) {best : Nat}
    (hb : best < l.length) :
    ∃ k, preferChildCalls pq l.length child best =
        some (k, if child < l.length then 1 else 0) ∧
      k < l.length ∧ (k = best ∨ k = child) := by
  unfold preferChildCalls preferChild
  by_cases hc : child < l.length
  · rw [if_pos hc]
    simp only [Q.elemSize, Q.elemAt hc, Q.elemAt hb, Option.bind_some, Option.map_some]
    by_cases h : pq.cmp l[child].1 l[best].1 = true
    · exact ⟨child, by rw [if_pos hc, if_pos h, Option.map_some], hc, Or.inr rfl⟩
    · exact ⟨best, by rw [if_pos hc, if_neg h, Option.map_some], hb, Or.inl rfl⟩
  · rw [if_neg hc]
    exact ⟨best, by rw [if_neg hc, Option.map_some], hb, Or.inl rfl⟩

theorem siftDownLoopCalls_spec : ∀ fuel {pq : CdsaPriorityQueue} {l : List (Elem es)}
    {temp : List UInt8} {index : Nat}, Queue cmp pq l → index < l.length → l.length < 2 ^ 63 →
    es ≤ temp.length → l.length - index < fuel →
    ∃ pq' l' n, siftDownLoopCalls fuel pq temp l.length index = some (pq', n) ∧ Queue cmp pq' l' ∧
      l'.Perm l ∧ n ≤ 2 * Nat.log 2 (l.length / (index + 1))
  | 0, _, _, _, _, _, _, _, _, hf => absurd hf (Nat.not_lt_zero _)
  | fuel + 1, pq, l, temp, index, Q, hi, hl, ht, hf => by
    unfold siftDownLoopCalls
    rw [Nat.mod_eq_of_lt (show 2 * index + 1 < 2 ^ 64 by omega),
      Nat.mod_eq_of_lt (show 2 * index + 2 < 2 ^ 64 by omega)]
    obtain ⟨a, ha, hal, ha'⟩ := preferChildCalls_spec Q (2 * index + 1) hi
    obtain ⟨c, hc, hcl, hc'⟩ := preferChildCalls_spec Q (2 * index + 2) hal
    simp only [ha, hc, Option.bind_some]
    -- a round without a left child calls nothing and swaps nothing
    have hround : (if 2 * index + 1 < l.length then 1 else 0) +
        (if 2 * index + 2 < l.length then 1 else 0) ≤ 2 := by
      split <;> split <;> omega
    split
    · next hne =>
      have hlog := log_child (show 2 * (index + 1) ≤ c + 1 by omega) hcl
      obtain ⟨pq', temp', hs, Q', ht'⟩ := Q.swap hi hcl ht
      have hlen : (swapAt l index c).length = l.length := (swapAt_perm l _ _).length_eq
      obtain ⟨pq'', l', n, hr, Q'', hperm, hn⟩ := siftDownLoopCalls_spec fuel Q'
        (show c < (swapAt l index c).length by omega) (by omega) ht' (by omega)
      rw [hlen] at hr hn
      refine ⟨pq'', l', n + ((if 2 * index + 1 < l.length then 1 else 0) +
        (if 2 * index + 2 < l.length then 1 else 0)), ?_, Q'',
        hperm.trans (swapAt_perm l _ _), by omega⟩
      rw [hs, Option.bind_some, hr, Option.map_some]
    · refine ⟨pq, l, _, rfl, Q, .refl l, ?_⟩
      by_cases hleft : 2 * index + 1 < l.length
      · have hlog := log_child (show 2 * (index + 1) ≤ 2 * index + 1 + 1 by omega) hleft
        omega
      · rw [if_neg hleft, if_neg (by omega)]
        exact Nat.zero_le _

theorem siftDownCalls_spec (Q : Queue cmp pq l) (h0 : 0 < l.length) (hl : l.length < 2 ^ 63)
    (scratch : Grant) :
    ∃ pq' l' n, siftDownCalls scratch pq 0 = some ((sifted es scratch True, pq'), n) ∧
      Queue cmp pq' l' ∧ l'.Perm l ∧ n ≤ 2 * Nat.log 2 l.length := by
  unfold siftDownCalls
  rcases Q.scratch scratch with ⟨temp, hm, ht, hsome⟩ | ⟨hm, hnone⟩
  · obtain ⟨pq', l', n, hr, Q', hperm, hn⟩ :=
      siftDownLoopCalls_spec (l.length + 1) Q h0 hl ht (by omega)
    rw [Nat.zero_add, Nat.div_one] at hn
    refine ⟨pq', l', n, ?_, Q', hperm, hn⟩
    simp [hm, Q.lists.size, hr, sifted, hsome]
  · refine ⟨pq, l, 0, ?_, Q, .refl l, Nat.zero_le _⟩
    simp [hm, sifted, hnone]

/-! ## One operation -/

theorem Queue.length_le (Q : Queue cmp pq l) : l.length ≤ 2 ^ 63 := by
  obtain ⟨k, hk⟩ := Q.good.pow
  have hlt := Q.good.capacity_lt
  rw [hk, Nat.pow_lt_pow_iff_right Nat.one_lt_two] at hlt
  have hpow := Nat.pow_le_pow_right Nat.two_pos (show k ≤ 63 by omega)
  have hle := Q.good.size_le
  have hsize := Q.size_eq
  omega

theorem Queue.pushCalls (Q : Queue cmp pq l) {growth : Grant} (scratch : Grant) {e : Elem es}
    (hg : GrowthMet pq.data (.push growth e)) :
    ∃ pq' l' n, pushCalls growth scratch pq e.1 =
        some ((sifted es scratch (0 < l.length), pq'), n) ∧
      Queue cmp pq' l' ∧ l'.Perm (e :: l) ∧ n ≤ Nat.log 2 (l.length + 1) := by
  obtain ⟨data, hp, G, L⟩ := Q.good.push Q.lists growth e (Q.good.elemSize ▸ hg)
  have Q1 : Queue cmp { pq with data } (l ++ [e]) := Q.with_data G L
  have hindex : data.size - 1 = l.length := by
    rw [L.size, List.length_append, List.length_singleton, Nat.add_sub_cancel]
  obtain ⟨pq', l', n, hr, Q', hperm, hn⟩ := siftUpCalls_spec Q1 (show l.length < _ by simp) scratch
  refine ⟨pq', l', n, ?_, Q', hperm.trans (List.perm_append_singleton e l), hn⟩
  rw [Priority.pushCalls, hp, Option.bind_some]
  simpa only [hindex] using hr

theorem siftDown_refuses (pq : CdsaPriorityQueue) (index : Nat) :
    siftDown .refuses pq index = some (.errOom, pq) := rfl

/-- A pop that is refused its scratch element stops where the others sift. -/
theorem Queue.popRoot (Q : Queue cmp pq l) {m : Elem es} (hm : l[0]? = some m) :
    ∃ pq' x, l.getLast? = some x ∧ Queue cmp pq' (l.set 0 x).dropLast ∧
      popRoot pq = some (m.1, pq') := by
  obtain ⟨h0, -⟩ := List.getElem?_eq_some_iff.mp hm
  obtain ⟨pq', x, hx, Q', he⟩ := Q.pop_root .refuses hm
  have hne : pq.data.size ≠ 0 := by
    have := Q.size_eq
    omega
  rw [cdsaPopPq_eq hne] at he
  simp only [siftDown_refuses, Option.map_some] at he
  refine ⟨pq', x, hx, Q', ?_⟩
  cases hr : Priority.popRoot pq with
  | none =>
    rw [hr] at he
    split at he <;> cases he
  | some r =>
    rw [hr, Option.bind_some] at he
    have heq : r.1 = m.1 ∧ r.2 = pq' := by
      simpa [apply_ite (Option.map Prod.snd)] using congrArg (Option.map Prod.snd) he
    rw [← heq.1, ← heq.2]

theorem Queue.popCalls (Q : Queue cmp pq l) (scratch : Grant) {m : Elem es}
    (hm : l[0]? = some m) :
    ∃ pq' l' n, popCalls scratch pq =
        some ((sifted es scratch (1 < l.length), some m.1, pq'), n) ∧
      Queue cmp pq' l' ∧ (m :: l').Perm l ∧ n ≤ 2 * Nat.log 2 (l.length - 1) := by
  obtain ⟨h0, -⟩ := List.getElem?_eq_some_iff.mp hm
  obtain ⟨pq1, x, hx, Q1, hroot⟩ := Q.popRoot hm
  have hperm := dropRoot_perm hm hx
  have hlen : ((l.set 0 x).dropLast).length = l.length - 1 := by simp
  have hsize := Q.size_eq
  have hsize1 := Q1.size_eq
  unfold Priority.popCalls
  rw [if_neg (by omega), hroot, Option.bind_some]
  by_cases h1 : 1 < l.length
  · obtain ⟨pq', l', n, hr, Q', hperm', hn⟩ := siftDownCalls_spec Q1 (by omega)
      (by have := Q.length_le; omega) scratch
    refine ⟨pq', l', n, ?_, Q', (hperm'.cons m).trans hperm, hlen ▸ hn⟩
    simp [show pq1.data.size ≠ 0 by omega, hr, sifted, h1]
  · refine ⟨pq1, _, 0, ?_, Q1, hperm, Nat.zero_le _⟩
    simp [show pq1.data.size = 0 by omega, sifted, h1]

/-- The answers of a bag: a status says only whether the sift that the
operation needs found its scratch element. -/
def BagAnswers (s : Multiset (Elem es)) : Op es → Out → Multiset (Elem es) → Prop
  | .push _ scratch e, out, s' => out = .pushed (sifted es scratch (0 < s.card)) ∧ s' = e ::ₘ s
  | .pop scratch, out, s' =>
    (s = 0 ∧ out = .popped .errEmpty none ∧ s' = 0) ∨
      ∃ m, s = m ::ₘ s' ∧ out = .popped (sifted es scratch (1 < s.card)) (some m.1)
  | .peek, out, s' => s' = s ∧ ((s = 0 ∧ out = .peeked none) ∨ ∃ m ∈ s, out = .peeked (some m.1))
  | .clear, out, s' => out = .cleared ∧ s' = 0

/-- What an operation on `n` elements may call `cmp`. -/
def callBound (n : Nat) : Op es → Nat
  | .push _ _ _ => Nat.log 2 (n + 1)
  | .pop _ => 2 * Nat.log 2 (n - 1)
  | _ => 0

/-- One operation whose growth is met. -/
theorem Queue.stepCalls (Q : Queue cmp pq l) (op : Op es) (hg : Growing pq op) :
    ∃ out pq', ∃ l' : List (Elem es), ∃ n, stepCalls pq op = some ((out, pq'), n) ∧
      Queue cmp pq' l' ∧ BagAnswers (l : Multiset (Elem es)) op out l' ∧ n ≤ callBound l.length op ∧
      l'.length ≤ l.length + 1 := by
  cases op with
  | push growth scratch e =>
    obtain ⟨pq', l', n, hp, Q', hperm, hn⟩ := Q.pushCalls scratch hg
    refine ⟨_, pq', l', n, ?_, Q', ⟨rfl, Multiset.coe_eq_coe.mpr hperm⟩, hn, ?_⟩
    · rw [Priority.stepCalls, hp, Option.map_some, Multiset.coe_card]
    · rw [hperm.length_eq, List.length_cons]
  | pop scratch =>
    cases l with
    | nil =>
      refine ⟨_, pq, [], 0, ?_, Q, Or.inl ⟨rfl, rfl, rfl⟩, Nat.zero_le _, Nat.zero_le _⟩
      have hsize : pq.data.size = 0 := Q.size_eq
      rw [Priority.stepCalls, Priority.popCalls, if_pos hsize, Option.map_some]
    | cons m t =>
      obtain ⟨pq', l', n, hp, Q', hperm, hn⟩ := Q.popCalls scratch (m := m) rfl
      have hlen := hperm.length_eq
      rw [List.length_cons] at hlen
      refine ⟨_, pq', l', n, ?_, Q', Or.inr ⟨m, Multiset.coe_eq_coe.mpr hperm.symm, rfl⟩, hn,
        by omega⟩
      rw [Priority.stepCalls, hp, Option.map_some, Multiset.coe_card]
  | peek =>
    refine ⟨_, pq, l, 0, by rw [Priority.stepCalls, Q.peek, Option.map_some], Q, ⟨rfl, ?_⟩,
      Nat.zero_le _, Nat.le_succ _⟩
    cases l with
    | nil => exact Or.inl ⟨rfl, rfl⟩
    | cons m t => exact Or.inr ⟨m, List.mem_cons_self, rfl⟩
  | clear =>
    obtain ⟨G, L⟩ := Q.good.clear
    exact ⟨_, _, [], 0, rfl, Q.with_data G L, ⟨rfl, rfl⟩, Nat.zero_le _, Nat.zero_le _⟩

/-! ## Runs -/

/-- How often an operation calls `cmp`. -/
def calls (pq : CdsaPriorityQueue) (op : Op es) : Nat :=
  (Priority.stepCalls pq op).elim 0 Prod.snd

theorem Queue.calls_le (Q : Queue cmp pq l) {op : Op es} (hg : Growing pq op) :
    ∃ out pq', ∃ l' : List (Elem es), Priority.step pq op = some (out, pq') ∧ Queue cmp pq' l' ∧
      calls pq op ≤ callBound pq.data.size op ∧ l'.length ≤ l.length + 1 := by
  obtain ⟨out, pq', l', n, he, Q', -, hn, hlen⟩ := Q.stepCalls op hg
  refine ⟨out, pq', l', step_of_calls he, Q', ?_, hlen⟩
  rw [calls, he, Q.size_eq]
  exact hn

theorem Queue.each_call (ops : List (Op es)) : ∀ {pq : CdsaPriorityQueue} {l : List (Elem es)},
    Queue cmp pq l → RunMeets Priority.step Growing pq ops →
      RunMeets Priority.step (fun pq op => calls pq op ≤ callBound pq.data.size op) pq ops := by
  induction ops with
  | nil =>
    intro pq l _ _
    trivial
  | cons op ops ih =>
    intro pq l Q hops
    obtain ⟨out, pq', l', he, Q', hn, -⟩ := Q.calls_le hops.1
    exact .cons hn he (ih Q' (hops.2 _ _ he))

/-- A run that starts with `l` never has more elements than `l` and its
operations together. -/
theorem Queue.total_calls {N : Nat} (ops : List (Op es)) : ∀ {pq : CdsaPriorityQueue}
    {l : List (Elem es)}, Queue cmp pq l → RunMeets Priority.step Growing pq ops →
      l.length + ops.length ≤ N →
      totalCost Priority.step calls pq ops ≤ 2 * ops.length * Nat.log 2 N := by
  induction ops with
  | nil =>
    intro pq l _ _ _
    exact Nat.zero_le _
  | cons op ops ih =>
    intro pq l Q hops hN
    obtain ⟨out, pq', l', he, Q', hn, hlen⟩ := Q.calls_le hops.1
    rw [List.length_cons] at hN
    have hrest := ih Q' (hops.2 _ _ he) (by omega)
    have hbound : callBound pq.data.size op ≤ 2 * Nat.log 2 N := by
      rw [Q.size_eq]
      have hup : Nat.log 2 (l.length + 1) ≤ Nat.log 2 N := Nat.log_mono_right (by omega)
      have hdown : Nat.log 2 (l.length - 1) ≤ Nat.log 2 N := Nat.log_mono_right (by omega)
      cases op <;> simp only [callBound] <;> omega
    rw [totalCost_cons he, List.length_cons]
    calc calls pq op + totalCost Priority.step calls pq' ops
        ≤ 2 * Nat.log 2 N + 2 * ops.length * Nat.log 2 N := Nat.add_le_add (hn.trans hbound) hrest
      _ = 2 * (ops.length + 1) * Nat.log 2 N := by
        rw [← Nat.add_mul, Nat.mul_add, Nat.mul_one, Nat.add_comm]

end

/-- Under any comparison function, and whatever scratch elements the sifts are
refused, a run from creation whose vector grows returns, and the queue answers
as a bag. -/
theorem bag_runs (es : Nat) (cmp : List UInt8 → List UInt8 → Bool) (self vec block : Grant)
    (pq : CdsaPriorityQueue)
    (hc : cdsaCreatePq (cdsaMallocTrack self) (cdsaMallocTrack vec) (cdsaMallocTrack block) es cmp =
      some (some pq)) (hs : 4 * es + 8 < 2 ^ 64) (ops : List (Op es))
    (hops : RunMeets step Growing pq ops) :
    ∃ outs pq', ∃ l : List (Elem es), runOps step pq ops = some (outs, pq') ∧ Lists pq'.data l ∧
      RelRun BagAnswers (0 : Multiset (Elem es)) ops outs l := by
  have hsim : ∀ pq (s : Multiset (Elem es)) (op : Op es),
      (∃ l : List (Elem es), (l : Multiset (Elem es)) = s ∧ Queue cmp pq l) → Growing pq op →
      ∃ out pq' s', step pq op = some (out, pq') ∧ BagAnswers s op out s' ∧
        ∃ l : List (Elem es), (l : Multiset (Elem es)) = s' ∧ Queue cmp pq' l := by
    rintro pq s op ⟨l, rfl, Q⟩ hg
    obtain ⟨out, pq', l', n, he, Q', hb, -⟩ := Q.stepCalls op hg
    exact ⟨out, pq', _, step_of_calls he, hb, l', rfl, Q'⟩
  obtain ⟨outs, pq', s, hr, hrel, l, rfl, Q'⟩ :=
    refine_relRun hsim ops pq 0 ⟨[], rfl, cdsaCreatePq_queue hc hs⟩ hops
  exact ⟨outs, pq', l, hr, Q'.lists, hrel⟩

/-- A function that always answers yes, and a second sift without a scratch
element. -/
theorem bag_runs_two : ∃ pq outs pq', ∃ l : List (Elem 1),
    cdsaCreatePq (cdsaMallocTrack .zeros) (cdsaMallocTrack .zeros) (cdsaMallocTrack .zeros) 1
      (fun _ _ => true) = some (some pq) ∧
    runOps step pq ([.push .zeros .zeros ⟨[3], rfl⟩, .push .zeros .refuses ⟨[1], rfl⟩,
      .pop .zeros] : List (Op 1)) = some (outs, pq') ∧
    RelRun BagAnswers (0 : Multiset (Elem 1))
      [.push .zeros .zeros ⟨[3], rfl⟩, .push .zeros .refuses ⟨[1], rfl⟩, .pop .zeros] outs l := by
  obtain ⟨outs, pq', l, hr, -, hrel⟩ := bag_runs 1 (fun _ _ => true) .zeros .zeros .zeros _ rfl
    (by decide) [.push .zeros .zeros ⟨[3], rfl⟩, .push .zeros .refuses ⟨[1], rfl⟩, .pop .zeros]
    (.cons (fun h => absurd h (by decide)) rfl
      (.cons (fun h => absurd h (by decide)) rfl ⟨trivial, fun _ _ _ => trivial⟩))
  exact ⟨_, outs, pq', l, rfl, hr, hrel⟩

/-- Every operation of such a run calls `cmp` no more often than the logarithm
of the size allows, and `n` of them no more than `2 * n * log2 n` times. -/
theorem comparisons_logarithmic (es : Nat) (cmp : List UInt8 → List UInt8 → Bool)
    (self vec block : Grant) (pq : CdsaPriorityQueue)
    (hc : cdsaCreatePq (cdsaMallocTrack self) (cdsaMallocTrack vec) (cdsaMallocTrack block) es cmp =
      some (some pq)) (hs : 4 * es + 8 < 2 ^ 64) (ops : List (Op es))
    (hops : RunMeets step Growing pq ops) :
    RunMeets step (fun pq op => calls pq op ≤ callBound pq.data.size op) pq ops ∧
      totalCost step calls pq ops ≤ 2 * ops.length * Nat.log 2 ops.length := by
  have Q : Queue cmp pq ([] : List (Elem es)) := cdsaCreatePq_queue hc hs
  exact ⟨Q.each_call ops hops, Q.total_calls ops hops (Nat.le_of_eq (Nat.zero_add _))⟩

/-- Two pushes, the second of which compares once. -/
theorem comparisons_logarithmic_two : ∃ pq,
    cdsaCreatePq (cdsaMallocTrack .zeros) (cdsaMallocTrack .zeros) (cdsaMallocTrack .zeros) 1
      byFirst = some (some pq) ∧
    totalCost step calls pq ([.push .zeros .zeros ⟨[3], rfl⟩, .push .zeros .zeros ⟨[1], rfl⟩] :
      List (Op 1)) ≤ 2 * 2 * Nat.log 2 2 := by
  refine ⟨_, rfl, (comparisons_logarithmic 1 byFirst .zeros .zeros .zeros _ rfl (by decide) _
    ?_).2⟩
  exact .cons (fun h => absurd h (by decide)) rfl
    ⟨fun h => absurd h (by decide), fun _ _ _ => trivial⟩

end Cdsa.Priority
