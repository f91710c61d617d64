import Mathlib.Algebra.GroupWithZero.Nat
import Mathlib.Data.List.Basic

/-!
# Depth first with a stack of frames, stopping at every leaf

A frame is a node together with how far its children have been visited. `view`
says what the topmost frame comes to: a leaf, which is popped and where the
search pauses until it is called again; a child to push, and the frame that then
stays below it; or nothing more, and the frame is popped. The stack has room for
`limit` frames, and pushing one more is undefined.

Where every frame can be followed (`Traversal`), the calls pause at the leaves of
the frames from the top of the stack down (`Traversal.stops_spec`) if the nesting
fits the stack, and otherwise some call overruns it (`Traversal.stops_unfit`).
-/
namespace Cdsa.Core

variable {F L : Type}

inductive View (F L : Type) where
  | leaf (l : L)
  | push (child rest : F)
  | done

section
variable (view : F → Option (View F L)) (limit : Nat)

/-- On to the next leaf, or to the end of the stack. -/
def stop : Nat → List F → Option (List F × Option L)
  | _, [] => some ([], none)
  | 0, _ :: _ => none
  | fuel + 1, f :: s =>
    (view f).bind fun
      | .leaf l => some (s, some l)
      | .push child rest => if s.length + 1 < limit then stop fuel (child :: rest :: s) else none
      | .done => stop fuel s

end

/-- The leaves at which calls pause, until the stack is empty. -/
def stops (call : List F → Option (List F × Option L)) : Nat → List F → Option (List L)
  | _, [] => some []
  | 0, _ :: _ => none
  | n + 1, f :: s => (call (f :: s)).bind fun r => (stops call n r.1).map fun ls => r.2.toList ++ ls

/-- What `view` makes of a frame, given the leaves still below each frame, how many
frames they nest, and a count of rounds. -/
inductive Turn (Good : F → Prop) (leaves : F → List L) (nesting rounds : F → Nat) (f : F) :
    View F L → Prop
  | leaf {l : L} (hl : leaves f = [l]) (hn : nesting f = 0) (hr : 0 < rounds f) :
    Turn Good leaves nesting rounds f (.leaf l)
  | push {child rest : F} (good : Good child) (good' : Good rest)
    (hl : leaves f = leaves child ++ leaves rest)
    (hn : nesting f = max (nesting child + 1) (nesting rest))
    (hr : rounds child + rounds rest < rounds f) :
    Turn Good leaves nesting rounds f (.push child rest)
  | done (hl : leaves f = []) (hn : nesting f = 0) (hr : 0 < rounds f) :
    Turn Good leaves nesting rounds f .done

/-- Good frames can be followed, and lead to good frames. -/
structure Traversal (view : F → Option (View F L)) where
  Good : F → Prop
  leaves : F → List L
  nesting : F → Nat
  rounds : F → Nat
  turn : ∀ f, Good f → ∃ v, view f = some v ∧ Turn Good leaves nesting rounds f v

namespace Traversal
variable {view : F → Option (View F L)} (T : Traversal view) {limit : Nat}

/-- The leaves still to come. -/
def leavesOf (s : List F) : List L := s.flatMap T.leaves

/-- The rounds that take the stack down. -/
def roundsOf (s : List F) : Nat := (s.map T.rounds).sum

/-- No frame nests more than the stack has room for above it. -/
def Fits (limit : Nat) : List F → Prop
  | [] => True
  | f :: s => s.length + T.nesting f < limit ∧ Fits limit s

variable {T}

/-- The next call: it pauses at the first leaf that is left. -/
theorem stop_spec : ∀ {fuel : Nat} {s : List F}, (∀ f ∈ s, T.Good f) → T.Fits limit s →
    T.roundsOf s ≤ fuel → ∃ s' o, stop view limit fuel s = some (s', o) ∧ (∀ f ∈ s', T.Good f) ∧
      T.Fits limit s' ∧ T.leavesOf s = o.toList ++ T.leavesOf s' ∧ (o = none → s' = [])
  | fuel, [], good, fits, _ => ⟨[], none, by cases fuel <;> rfl, good, fits, rfl, fun _ => rfl⟩
  | fuel, f :: s, good, fits, hr => by
    have ⟨gf, gs⟩ := List.forall_mem_cons.mp good
    obtain ⟨v, hv, turn⟩ := T.turn f gf
    simp only [roundsOf, List.map_cons, List.sum_cons] at hr
    obtain ⟨fuel, rfl⟩ : ∃ k, fuel = k + 1 := by
      have : 0 < T.rounds f := by cases turn <;> omega
      exact ⟨fuel - 1, by omega⟩
    simp only [stop, hv, Option.bind_some, leavesOf, List.flatMap_cons]
    cases turn with
    | leaf hl _ _ => exact ⟨s, _, rfl, gs, fits.2, by rw [hl]; rfl, fun h => by cases h⟩
    | @push child rest good good' hl hn hr' =>
      obtain ⟨hf, hs⟩ := fits
      have room : s.length + 1 < limit := by omega
      simp only [if_pos room]
      obtain ⟨s', o, h, g, hfits, hleaves, hnone⟩ := @stop_spec fuel (child :: rest :: s)
        (List.forall_mem_cons.mpr ⟨good, List.forall_mem_cons.mpr ⟨good', gs⟩⟩)
        ⟨by rw [List.length_cons]; omega, by omega, hs⟩
        (by simp only [roundsOf, List.map_cons, List.sum_cons]; omega)
      refine ⟨s', o, h, g, hfits, ?_, hnone⟩
      rw [hl, List.append_assoc]
      exact hleaves
    | done hl _ _ =>
      obtain ⟨s', o, h, g, hfits, hleaves, hnone⟩ := @stop_spec fuel s gs fits.2
        (by simp only [roundsOf]; omega)
      exact ⟨s', o, h, g, hfits, by rw [hl]; exact hleaves, hnone⟩

/-- The calls pause at the leaves one after the other. -/
theorem stops_spec {fuelOf : List F → Nat} (hfuel : ∀ s, T.roundsOf s ≤ fuelOf s) :
    ∀ {n : Nat} {s : List F}, (∀ f ∈ s, T.Good f) → T.Fits limit s → (T.leavesOf s).length < n →
      stops (fun s => stop view limit (fuelOf s) s) n s = some (T.leavesOf s)
  | n, [], _, _, _ => by cases n <;> rfl
  | n + 1, f :: s, good, fits, hn => by
    obtain ⟨s', o, h, good', fits', hl, hnone⟩ := stop_spec good fits (hfuel (f :: s))
    simp only [stops, h, Option.bind_some]
    cases o with
    | none =>
      -- no leaf is left
      rw [hnone rfl] at hl ⊢
      rw [hl]
      cases n <;> rfl
    | some l =>
      rw [hl, Option.toList_some, List.singleton_append, List.length_cons] at hn
      rw [stops_spec hfuel good' fits' (by omega), hl]
      rfl

/-- A frame that nests too much stays, or the call overruns the stack. -/
theorem stop_unfit : ∀ {fuel : Nat} {s : List F}, (∀ f ∈ s, T.Good f) → ¬ T.Fits limit s →
    s.length ≤ limit → ∀ r, stop view limit fuel s = some r →
      (∀ f ∈ r.1, T.Good f) ∧ ¬ T.Fits limit r.1 ∧ r.1.length ≤ limit
  | _, [], _, unfit, _ => absurd trivial unfit
  | 0, _ :: _, _, _, _ => fun _ h => by cases h
  | fuel + 1, f :: s, good, unfit, hlen => by
    intro r h
    have ⟨gf, gs⟩ := List.forall_mem_cons.mp good
    rw [List.length_cons] at hlen
    obtain ⟨v, hv, turn⟩ := T.turn f gf
    simp only [stop, hv, Option.bind_some] at h
    cases turn with
    | leaf _ hn _ =>
      cases h
      exact ⟨gs, fun hs => unfit ⟨by omega, hs⟩, Nat.le_of_succ_le hlen⟩
    | @push child rest good good' _ hn _ =>
      simp only at h
      split at h
      · refine stop_unfit (List.forall_mem_cons.mpr ⟨good, List.forall_mem_cons.mpr ⟨good', gs⟩⟩)
          (fun ⟨hc, hr, hs⟩ => unfit ⟨?_, hs⟩) (by simp only [List.length_cons]; omega) r h
        rw [List.length_cons] at hc
        omega
      · cases h
    | done _ hn _ => exact stop_unfit gs (fun hs => unfit ⟨by omega, hs⟩) (by omega) r h

theorem stops_unfit {fuelOf : List F → Nat} : ∀ {n : Nat} {s : List F}, (∀ f ∈ s, T.Good f) →
    ¬ T.Fits limit s → s.length ≤ limit →
      stops (fun s => stop view limit (fuelOf s) s) n s = none
  | _, [], _, unfit, _ => absurd trivial unfit
  | 0, _ :: _, _, _, _ => rfl
  | n + 1, f :: s, good, unfit, hlen => by
    unfold stops
    cases h : stop view limit (fuelOf (f :: s)) (f :: s) with
    | none => rfl
    | some r =>
      obtain ⟨good', unfit', hlen'⟩ := stop_unfit good unfit hlen r h
      simp only [Option.bind_some, stops_unfit good' unfit' hlen', Option.map_none]

end Traversal

end Cdsa.Core
