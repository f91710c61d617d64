import Cdsa.L2Vector.Runs

/-!
# The stack

`cdsa_stack` keeps its elements in a vector and leaves every operation to it
(`step_vector`). On a good vector whose pushes get the blocks they ask for, a run
of the stack is one of the abstract stack `lifo` (`runs_lifo`).
-/
namespace Cdsa.Stack

open Cdsa.Core Cdsa.Raw Cdsa.Vector

/-- mirrors src/stack.c:10-12 -/
structure CdsaStack where
  vec : CdsaVector
  deriving DecidableEq

/-- mirrors src/stack.c:14-28 -/
def cdsaCreateStack (self vec data : Malloc) (elemSize : Nat) : Option (Option CdsaStack) :=
  (self 8).bind fun
    | none => some none
    | some _ => (cdsaCreateVector vec data elemSize).map fun r => r.map fun vec => { vec }

/-- mirrors src/stack.c:30-36 -/
def cdsaPushStack (g : Grant) (stack : CdsaStack) (value : List UInt8) :
    Option (Status × CdsaStack) :=
  (cdsaPushVector g stack.vec value).map fun r => (r.1, { vec := r.2 })

/-- mirrors src/stack.c:45-51 -/
def cdsaPopStack (stack : CdsaStack) : Status × CdsaStack :=
  ((cdsaPopVector stack.vec).1, { vec := (cdsaPopVector stack.vec).2 })

/-- What the caller reads through the pointer to the last element, or NULL.
mirrors src/vector.c:91-95, src/stack.c:53-57 -/
def topStack (stack : CdsaStack) : Option (Option (List UInt8)) :=
  if stack.vec.size = 0 then some none
  else
    (readAt stack.vec.data ((stack.vec.size - 1) * stack.vec.elemSize % 2 ^ 64)
      stack.vec.elemSize).map some

/-- mirrors src/stack.c:71-75 -/
def cdsaClearStack (stack : CdsaStack) : CdsaStack := { vec := cdsaClearVector stack.vec }

inductive Op (elemSize : Nat) where
  | push (g : Grant) (value : Elem elemSize)
  | pop
  | top
  | clear

def step {es : Nat} (stack : CdsaStack) : Op es → Option (Out × CdsaStack)
  | .push g value => (cdsaPushStack g stack value.1).map fun r => (.status r.1, r.2)
  | .pop => some (.status (cdsaPopStack stack).1, (cdsaPopStack stack).2)
  | .top => (topStack stack).map fun r => (.elem r, stack)
  | .clear => some (.cleared, cdsaClearStack stack)

variable {es : Nat}

/-- The vector's operation behind a stack's. -/
def Op.toVector (size : Nat) : Op es → Vector.Op es
  | .push g value => .push g value
  | .pop => .pop
  | .top => .get (size - 1)
  | .clear => .clear

/-- Every operation is the vector's. -/
theorem step_vector (stack : CdsaStack) (op : Op es) :
    step stack op =
      (Vector.step stack.vec (op.toVector stack.vec.size)).map fun r => (r.1, { vec := r.2 }) := by
  cases op with
  | push g value => simp only [step, cdsaPushStack, Op.toVector, Vector.step, Option.map_map,
      Function.comp_def]
  | pop => rfl
  | top =>
    simp only [step, Op.toVector, Vector.step, topStack, getVector]
    by_cases h : stack.vec.size = 0
    · simp [h]
    · simp only [if_neg h, if_neg (show ¬ stack.vec.size - 1 ≥ stack.vec.size by omega),
        Option.map_map, Function.comp_def]
  | clear => rfl

/-- What a stack is for: the list of its elements, the last one first. -/
def lifo (l : List (Elem es)) : Op es → Out × List (Elem es)
  | .push _ value => (.status .ok, value :: l)
  | .pop => (.status (if l = [] then .errNotFound else .ok), l.tail)
  | .top => (.elem (l.head?.map Subtype.val), l)
  | .clear => (.cleared, [])

/-- The stack holds `l`. -/
structure Piles (stack : CdsaStack) (l : List (Elem es)) : Prop where
  good : Good es stack.vec
  lists : Lists stack.vec l.reverse

/-- A push that finds the vector full gets the doubled block. -/
def GrowthMet (stack : CdsaStack) (op : Op es) : Prop :=
  Vector.GrowthMet stack.vec (op.toVector stack.vec.size)

/-- A fresh stack holds nothing. -/
theorem cdsaCreateStack_piles {self vec data : Grant} {stack : CdsaStack} (hs : 4 * es + 8 < 2 ^ 64)
    (hc : cdsaCreateStack (cdsaMallocTrack self) (cdsaMallocTrack vec) (cdsaMallocTrack data) es =
      some (some stack)) : Piles stack ([] : List (Elem es)) := by
  unfold cdsaCreateStack at hc
  obtain ⟨r, -, hc⟩ := Option.bind_eq_some_iff.mp hc
  cases r with
  | none => simp at hc
  | some _ =>
    obtain ⟨v, hv, hc⟩ := Option.map_eq_some_iff.mp hc
    obtain ⟨v, rfl, rfl⟩ := Option.map_eq_some_iff.mp hc
    obtain ⟨G, L⟩ := (cdsaCreateVector_spec hv).2 hs
    exact ⟨G, L⟩

theorem Piles.step {stack : CdsaStack} {l : List (Elem es)} (P : Piles stack l) {op : Op es}
    (hg : GrowthMet stack op) :
    ∃ stack', step stack op = some ((lifo l op).1, stack') ∧ Piles stack' (lifo l op).2 := by
  obtain ⟨G, L⟩ := P
  have hlen : stack.vec.size = l.length := by rw [L.size, List.length_reverse]
  cases op with
  | push g value =>
    obtain ⟨v', he, G', L'⟩ := G.push L g value (by rw [← G.elemSize]; exact hg)
    refine ⟨⟨v'⟩, ?_, G', ?_⟩
    · simp only [Stack.step, cdsaPushStack, he, Option.map_some, lifo]
    · rw [lifo, List.reverse_cons]
      exact L'
  | pop =>
    obtain ⟨G', L', -⟩ := G.pop L
    have hs : (cdsaPopVector stack.vec).1 = if l = [] then .errNotFound else .ok := by
      unfold cdsaPopVector
      rw [hlen]
      cases l <;> rfl
    refine ⟨⟨(cdsaPopVector stack.vec).2⟩, ?_, G', ?_⟩
    · simp only [Stack.step, cdsaPopStack, lifo, hs]
    · rw [lifo, ← List.dropLast_reverse]
      exact L'
  | top =>
    refine ⟨stack, ?_, G, L⟩
    rw [step_vector, Op.toVector, G.get L, Option.map_some, lifo, hlen]
    simp only [Option.some.injEq, Prod.mk.injEq, and_true, Out.elem.injEq]
    rw [← List.getLast?_reverse, List.getLast?_eq_getElem?, List.length_reverse]
  | clear => exact ⟨⟨cdsaClearVector stack.vec⟩, rfl, G.clear.1, G.clear.2⟩

/-- Every run whose pushes get the blocks they ask for answers as the abstract
stack does. -/
theorem runs_lifo (ops : List (Op es)) (stack : CdsaStack) (l : List (Elem es))
    (P : Piles stack l) (hg : RunMeets step GrowthMet stack ops) :
    ∃ stack', runOps step stack ops = some ((specRun lifo l ops).1, stack') ∧
      Piles stack' (specRun lifo l ops).2 :=
  refine_run (fun _ _ _ P hg => P.step hg) ops stack l P hg

end Cdsa.Stack
