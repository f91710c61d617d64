import Mathlib.Data.Option.Basic

/-!
# Transition systems and runs

Two ways to speak about every run of a state machine.

* `LTS`: a step relation with initial states; a predicate that holds
  initially and is kept by every step (`LTS.Inductive`) holds of every
  reachable state.
* `runOps`: a partial function that executes one operation and answers
  something, iterated over a list of operations. `refine_run` lifts a
  one-step simulation against a total abstract machine to whole runs.
-/
namespace Cdsa.Core

/-- A labelled transition system. -/
structure LTS (S L : Type) where
  init : S → Prop
  step : S → L → S → Prop

namespace LTS
variable {S L : Type}

inductive Reachable (M : LTS S L) : S → Prop
  | init {s : S} : M.init s → Reachable M s
  | step {s s' : S} {l : L} : Reachable M s → M.step s l s' → Reachable M s'

/-- `P` holds initially and is kept by every step. -/
structure Inductive (M : LTS S L) (P : S → Prop) : Prop where
  init : ∀ s, M.init s → P s
  step : ∀ s l s', P s → M.step s l s' → P s'

theorem Inductive.reachable {M : LTS S L} {P : S → Prop} (h : M.Inductive P) (s : S)
    (hs : M.Reachable s) : P s := by
  induction hs with
  | init h0 => exact h.init _ h0
  | step _ hstep ih => exact h.step _ _ _ ih hstep

end LTS

/-! ## Runs of an operation list -/

section
variable {S Op Out : Type}

/-- Execute `ops` one after the other; `none` as soon as one of them does
not return. -/
def runOps (step : S → Op → Option (Out × S)) : S → List Op → Option (List Out × S)
  | s, [] => some ([], s)
  | s, op :: ops =>
    (step s op).bind fun r => (runOps step r.2 ops).map fun q => (r.1 :: q.1, q.2)

/-- `P` holds of every operation of the run and the state it starts in. -/
def RunMeets (step : S → Op → Option (Out × S)) (P : S → Op → Prop) : S → List Op → Prop
  | _, [] => True
  | s, op :: ops => P s op ∧ ∀ o s', step s op = some (o, s') → RunMeets step P s' ops

theorem RunMeets.cons {step : S → Op → Option (Out × S)} {P : S → Op → Prop} {s s' : S} {op : Op}
    {o : Out} {ops : List Op} (hP : P s op) (he : step s op = some (o, s'))
    (h : RunMeets step P s' ops) : RunMeets step P s (op :: ops) :=
  ⟨hP, fun o' s1 h1 => by rw [he] at h1; cases h1; exact h⟩

theorem RunMeets.mono {step : S → Op → Option (Out × S)} {P P' : S → Op → Prop}
    (hP : ∀ s op, P s op → P' s op) : ∀ {ops : List Op} {s : S}, RunMeets step P s ops →
      RunMeets step P' s ops
  | [], _, _ => trivial
  | _ :: _, _, h => ⟨hP _ _ h.1, fun o s' he => (h.2 o s' he).mono hP⟩

theorem RunMeets.of_forall {step : S → Op → Option (Out × S)} {P : S → Op → Prop}
    (hP : ∀ s op, P s op) : ∀ {ops : List Op} {s : S}, RunMeets step P s ops
  | [], _ => trivial
  | _ :: _, _ => ⟨hP _ _, fun _ _ _ => RunMeets.of_forall hP⟩

/-- `RunMeets` for a test, by running. -/
def runCheck (step : S → Op → Option (Out × S)) (p : S → Op → Bool) : S → List Op → Bool
  | _, [] => true
  | s, op :: ops => p s op && (step s op).all fun r => runCheck step p r.2 ops

theorem RunMeets.of_check {step : S → Op → Option (Out × S)} {p : S → Op → Bool} {P : S → Op → Prop}
    (hP : ∀ s op, p s op = true → P s op) : ∀ {ops : List Op} {s : S},
      runCheck step p s ops = true → RunMeets step P s ops
  | [], _, _ => trivial
  | op :: ops, s, h => by
    rw [runCheck, Bool.and_eq_true] at h
    refine ⟨hP s op h.1, fun o s' he => RunMeets.of_check hP ?_⟩
    rw [he] at h
    exact h.2

theorem runMeets_and {step : S → Op → Option (Out × S)} {P Q : S → Op → Prop} :
    ∀ {ops : List Op} {s : S}, RunMeets step (fun s op => P s op ∧ Q s op) s ops ↔
      RunMeets step P s ops ∧ RunMeets step Q s ops
  | [], _ => (and_self_iff).symm
  | _ :: _, _ =>
    ⟨fun h => ⟨⟨h.1.1, fun o s' he => (runMeets_and.mp (h.2 o s' he)).1⟩,
      h.1.2, fun o s' he => (runMeets_and.mp (h.2 o s' he)).2⟩,
    fun h => ⟨⟨h.1.1, h.2.1⟩, fun o s' he => runMeets_and.mpr ⟨h.1.2 o s' he, h.2.2 o s' he⟩⟩⟩

theorem runOps_cons {step : S → Op → Option (Out × S)} {s s' : S} {op : Op} {o : Out}
    (h : step s op = some (o, s')) (ops : List Op) :
    runOps step s (op :: ops) = (runOps step s' ops).map fun q => (o :: q.1, q.2) := by
  simp [runOps, h]

/-- A machine that hands its operations on to another one runs as the other
does. -/
theorem runOps_map {S' Op' : Type} {step : S → Op → Option (Out × S)}
    {step' : S' → Op' → Option (Out × S')} {f : S → S'} {g : Op' → Op}
    (h : ∀ s op, step' (f s) op = (step s (g op)).map fun r => (r.1, f r.2)) :
    ∀ ops s, runOps step' (f s) ops = (runOps step s (ops.map g)).map fun r => (r.1, f r.2) := by
  intro ops
  induction ops with
  | nil => exact fun _ => rfl
  | cons op ops ih =>
    intro s
    rw [List.map_cons, runOps, runOps, h]
    cases step s (g op) with
    | none => rfl
    | some r => simp [ih, Function.comp_def]

/-- The abstract run: a total machine that always answers. -/
def specRun {A : Type} (astep : A → Op → Out × A) : A → List Op → List Out × A
  | a, [] => ([], a)
  | a, op :: ops =>
    let q := specRun astep (astep a op).2 ops
    ((astep a op).1 :: q.1, q.2)

/-- A simulation on single operations is a simulation on runs. -/
theorem refine_run {A : Type} {step : S → Op → Option (Out × S)} {astep : A → Op → Out × A}
    {R : S → A → Prop} {P : S → Op → Prop}
    (hsim : ∀ s a op, R s a → P s op →
      ∃ s', step s op = some ((astep a op).1, s') ∧ R s' (astep a op).2) :
    ∀ ops s a, R s a → RunMeets step P s ops →
      ∃ s', runOps step s ops = some ((specRun astep a ops).1, s') ∧
        R s' (specRun astep a ops).2 := by
  intro ops
  induction ops with
  | nil => intro s a hR _; exact ⟨s, rfl, hR⟩
  | cons op ops ih =>
    intro s a hR hP
    obtain ⟨s1, h1, hR1⟩ := hsim s a op hR hP.1
    obtain ⟨s2, h2, hR2⟩ := ih s1 _ hR1 (hP.2 _ _ h1)
    exact ⟨s2, by rw [runOps_cons h1, h2]; rfl, hR2⟩

/-- `P` holds of every operation of the abstract run and the state it starts
in: a condition on the operations alone. -/
def SpecMeets {A : Type} (astep : A → Op → Out × A) (P : A → Op → Prop) : A → List Op → Prop
  | _, [] => True
  | a, op :: ops => P a op ∧ SpecMeets astep P (astep a op).2 ops

/-- `refine_run` with a condition on the abstract side. -/
theorem refine_run_spec {A : Type} {step : S → Op → Option (Out × S)} {astep : A → Op → Out × A}
    {R : S → A → Prop} {P : A → Op → Prop}
    (hsim : ∀ s a op, R s a → P a op →
      ∃ s', step s op = some ((astep a op).1, s') ∧ R s' (astep a op).2) :
    ∀ ops s a, R s a → SpecMeets astep P a ops →
      ∃ s', runOps step s ops = some ((specRun astep a ops).1, s') ∧
        R s' (specRun astep a ops).2 := by
  intro ops
  induction ops with
  | nil => intro s a hR _; exact ⟨s, rfl, hR⟩
  | cons op ops ih =>
    intro s a hR hP
    obtain ⟨s1, h1, hR1⟩ := hsim s a op hR hP.1
    obtain ⟨s2, h2, hR2⟩ := ih s1 _ hR1 hP.2
    exact ⟨s2, by rw [runOps_cons h1, h2]; rfl, hR2⟩

/-- A run of an abstract machine that may answer in more than one way. -/
inductive RelRun {A : Type} (R : A → Op → Out → A → Prop) : A → List Op → List Out → A → Prop
  | nil {a : A} : RelRun R a [] [] a
  | cons {a b c : A} {op : Op} {o : Out} {ops : List Op} {os : List Out} :
    R a op o b → RelRun R b ops os c → RelRun R a (op :: ops) (o :: os) c

/-- `refine_run` against such a machine. -/
theorem refine_relRun {A : Type} {step : S → Op → Option (Out × S)} {R : A → Op → Out → A → Prop}
    {I : S → A → Prop} {P : S → Op → Prop}
    (hsim : ∀ s a op, I s a → P s op →
      ∃ o s' a', step s op = some (o, s') ∧ R a op o a' ∧ I s' a') :
    ∀ ops s a, I s a → RunMeets step P s ops →
      ∃ os s' a', runOps step s ops = some (os, s') ∧ RelRun R a ops os a' ∧ I s' a' := by
  intro ops
  induction ops with
  | nil => intro s a hI _; exact ⟨[], s, a, rfl, .nil, hI⟩
  | cons op ops ih =>
    intro s a hI hP
    obtain ⟨o, s1, a1, h1, hR1, hI1⟩ := hsim s a op hI hP.1
    obtain ⟨os, s2, a2, h2, hR2, hI2⟩ := ih s1 a1 hI1 (hP.2 _ _ h1)
    exact ⟨o :: os, s2, a2, by rw [runOps_cons h1, h2]; rfl, .cons hR1 hR2, hI2⟩

/-- A simulation of one partial machine by another one: every run of the second
is one of the first. -/
theorem sim_run {A : Type} {step : S → Op → Option (Out × S)} {astep : A → Op → Option (Out × A)}
    {R : S → A → Prop} {P : A → Op → Prop}
    (hsim : ∀ s a op, R s a → P a op →
      ∃ o s' a', step s op = some (o, s') ∧ astep a op = some (o, a') ∧ R s' a') :
    ∀ ops s a, R s a → RunMeets astep P a ops →
      ∃ os s' a', runOps step s ops = some (os, s') ∧ runOps astep a ops = some (os, a') ∧ R s' a' := by
  intro ops
  induction ops with
  | nil => intro s a hR _; exact ⟨[], s, a, rfl, rfl, hR⟩
  | cons op ops ih =>
    intro s a hR hP
    obtain ⟨o, s1, a1, h1, g1, hR1⟩ := hsim s a op hR hP.1
    obtain ⟨os, s2, a2, h2, g2, hR2⟩ := ih s1 a1 hR1 (hP.2 _ _ g1)
    exact ⟨o :: os, s2, a2, by rw [runOps_cons h1, h2]; rfl, by rw [runOps_cons g1, g2]; rfl, hR2⟩

/-- An invariant kept by every operation holds at the end of every run. -/
theorem runOps_inv {step : S → Op → Option (Out × S)} {I : S → Prop} {P : S → Op → Prop}
    (hstep : ∀ s op o s', I s → P s op → step s op = some (o, s') → I s') :
    ∀ ops s os s', I s → RunMeets step P s ops → runOps step s ops = some (os, s') → I s' := by
  intro ops
  induction ops with
  | nil => intro s os s' hI _ h; cases h; exact hI
  | cons op ops ih =>
    intro s os s' hI hP h
    cases h1 : step s op with
    | none => simp [runOps, h1] at h
    | some r =>
      rw [runOps_cons (show step s op = some (r.1, r.2) from h1)] at h
      obtain ⟨q, hq, he⟩ := Option.map_eq_some_iff.mp h
      cases he
      exact ih r.2 q.1 q.2 (hstep s op r.1 r.2 hI hP.1 h1) (hP.2 _ _ h1) hq

/-- Two properties of operations that agree wherever an invariant holds agree
on whole runs, if either keeps the invariant. -/
theorem runMeets_iff {step : S → Op → Option (Out × S)} {I : S → Prop} {P Q : S → Op → Prop}
    (hPQ : ∀ s op, I s → (P s op ↔ Q s op))
    (hstep : ∀ s op o s', I s → Q s op → step s op = some (o, s') → I s') :
    ∀ ops s, I s → (RunMeets step P s ops ↔ RunMeets step Q s ops) := by
  intro ops
  induction ops with
  | nil => exact fun _ _ => Iff.rfl
  | cons op ops ih =>
    intro s hI
    refine (and_congr_left' (hPQ s op hI)).trans (and_congr_right fun hQ => ?_)
    exact forall_congr' fun o => forall_congr' fun s' => forall_congr' fun he =>
      ih s' (hstep s op o s' hI hQ he)

/-- An invariant under which every operation returns and which it keeps: the
whole run returns. -/
theorem runOps_returns {step : S → Op → Option (Out × S)} {I : S → Prop} {P : S → Op → Prop}
    (hstep : ∀ s op, I s → P s op → ∃ o s', step s op = some (o, s') ∧ I s') :
    ∀ ops s, I s → RunMeets step P s ops → ∃ os s', runOps step s ops = some (os, s') ∧ I s' := by
  intro ops
  induction ops with
  | nil => intro s hI _; exact ⟨[], s, rfl, hI⟩
  | cons op ops ih =>
    intro s hI hP
    obtain ⟨o, s1, h1, hI1⟩ := hstep s op hI hP.1
    obtain ⟨os, s2, h2, hI2⟩ := ih s1 hI1 (hP.2 _ _ h1)
    exact ⟨o :: os, s2, by rw [runOps_cons h1, h2]; rfl, hI2⟩

/-- Every operation of the run returns, and `I` holds in every state it passes
through. -/
def RunKeeps (step : S → Op → Option (Out × S)) (I : S → Prop) : S → List Op → Prop
  | s, [] => I s
  | s, op :: ops => I s ∧ ∃ o s', step s op = some (o, s') ∧ RunKeeps step I s' ops

/-- A run keeps `I` exactly if its operations are `P`, where `P` is what an
operation needs to return and keep `I`. `J` is the invariant behind `I`. -/
theorem runKeeps_iff {step : S → Op → Option (Out × S)} {I J : S → Prop} {L P : S → Op → Prop}
    (hJ : ∀ s, J s → I s)
    (hP : ∀ s op, J s → L s op → P s op → ∃ o s', step s op = some (o, s') ∧ J s')
    (hI : ∀ s op o s', J s → L s op → step s op = some (o, s') → I s' → P s op) :
    ∀ ops s, J s → RunMeets step L s ops → (RunKeeps step I s ops ↔ RunMeets step P s ops) := by
  intro ops
  induction ops with
  | nil => exact fun s h _ => ⟨fun _ => trivial, fun _ => hJ s h⟩
  | cons op ops ih =>
    intro s hs hL
    constructor
    · rintro ⟨-, o, s1, h1, hk⟩
      have hI1 : I s1 := by cases ops <;> [exact hk; exact hk.1]
      have hp := hI s op o s1 hs hL.1 h1 hI1
      obtain ⟨o', s1', h1', hJ1⟩ := hP s op hs hL.1 hp
      rw [h1] at h1'
      cases h1'
      exact .cons hp h1 ((ih s1 hJ1 (hL.2 _ _ h1)).mp hk)
    · rintro ⟨hp, hm⟩
      obtain ⟨o, s1, h1, hJ1⟩ := hP s op hs hL.1 hp
      exact ⟨hJ s hs, o, s1, h1, (ih s1 hJ1 (hL.2 _ _ h1)).mpr (hm _ _ h1)⟩

end

end Cdsa.Core
