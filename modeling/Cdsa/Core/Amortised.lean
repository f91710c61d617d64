import Mathlib.Algebra.GroupWithZero.Nat
import Cdsa.Core.LTS

/-!
# Amortised cost of a run

`totalCost` adds up what the operations of a run cost. The potential method:
a function of the state that starts low, such that every operation pays for
its cost and for the change of the potential, bounds the total by what the
operations pay (`totalCost_le`, and `totalCost_le_count` where each of some
operations pays the same).
-/
namespace Cdsa.Core

variable {S Op Out : Type}

/-- The cost of a run, up to the first operation that does not return. -/
def totalCost (step : S → Op → Option (Out × S)) (cost : S → Op → Nat) : S → List Op → Nat
  | _, [] => 0
  | s, op :: ops => cost s op + ((step s op).elim 0 fun r => totalCost step cost r.2 ops)

theorem totalCost_cons {step : S → Op → Option (Out × S)} {s s' : S} {op : Op} {o : Out}
    (h : step s op = some (o, s')) (cost : S → Op → Nat) (ops : List Op) :
    totalCost step cost s (op :: ops) = cost s op + totalCost step cost s' ops := by
  simp [totalCost, h]

/-- What one operation pays bounds its cost and the rise of the potential. -/
theorem totalCost_le {step : S → Op → Option (Out × S)} {cost : S → Op → Nat} {I : S → Prop}
    {P : S → Op → Prop} {potential : S → Nat} {pays : Op → Nat}
    (hstep : ∀ s op, I s → P s op → ∃ o s', step s op = some (o, s') ∧ I s' ∧
      cost s op + potential s' ≤ potential s + pays op) :
    ∀ ops s, I s → RunMeets step P s ops →
      totalCost step cost s ops ≤ potential s + (ops.map pays).sum := by
  intro ops
  induction ops with
  | nil =>
    intro s _ _
    simp [totalCost]
  | cons op ops ih =>
    intro s hI hP
    obtain ⟨o, s', h, hI', hle⟩ := hstep s op hI hP.1
    have hrest := ih s' hI' (hP.2 o s' h)
    rw [totalCost_cons h, List.map_cons, List.sum_cons]
    omega

theorem sum_pays (p : Op → Bool) (n : Nat) (ops : List Op) :
    (ops.map fun op => if p op then n else 0).sum = n * ops.countP p := by
  induction ops with
  | nil => rfl
  | cons op ops ih =>
    rw [List.map_cons, List.sum_cons, ih, List.countP_cons, Nat.mul_add, Nat.add_comm]
    split <;> simp

/-- Where only some operations pay, and each of them the same. -/
theorem totalCost_le_count {step : S → Op → Option (Out × S)} {cost : S → Op → Nat}
    {I : S → Prop} {P : S → Op → Prop} {potential : S → Nat} {p : Op → Bool} {n : Nat}
    (hstep : ∀ s op, I s → P s op → ∃ o s', step s op = some (o, s') ∧ I s' ∧
      cost s op + potential s' ≤ potential s + if p op then n else 0)
    {ops : List Op} {s : S} (hI : I s) (h0 : potential s = 0) (hP : RunMeets step P s ops) :
    totalCost step cost s ops ≤ n * ops.countP p := by
  have hle : totalCost step cost s ops ≤
      potential s + (ops.map fun op => if p op then n else 0).sum :=
    totalCost_le hstep ops s hI hP
  rw [sum_pays, h0] at hle
  omega

end Cdsa.Core
