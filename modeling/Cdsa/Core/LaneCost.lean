import Cdsa.Core.Draws
import Cdsa.Core.Lanes

/-!
# What a search over express lanes costs

`walkMoves` and `lanesMoves` are the searches of `Cdsa.Core.walk` and
`Cdsa.Core.lanes`, and count how often they move on. On lane i a search goes on
from the last element of the front part that lane i + 1 keeps, so what it passes
there is a streak: the elements of lane i since the last one of lane i + 1
(`lanesMoves_spec`).
-/
namespace Cdsa.Core

variable {P α : Type}

/-- `walk`, and how often it has moved. -/
def walkMoves (next : P → Option (Option P)) (test : P → Option Bool) : Nat → P → Option (P × Nat)
  | 0, _ => none
  | fuel + 1, p =>
    (next p).bind fun
      | none => some (p, 0)
      | some q => (test q).bind fun b =>
        if b then (walkMoves next test fuel q).map fun r => (r.1, r.2 + 1) else some (p, 0)

theorem walkMoves_fst (next : P → Option (Option P)) (test : P → Option Bool) : ∀ fuel p,
    (walkMoves next test fuel p).map Prod.fst = walk next test fuel p
  | 0, _ => rfl
  | fuel + 1, p => by
    rw [walkMoves, walk, Option.map_bind]
    congr 1
    funext o
    cases o with
    | none => rfl
    | some q =>
      rw [Function.comp_apply, Option.map_bind]
      congr 1
      funext b
      cases b with
      | false => rfl
      | true =>
        rw [Function.comp_apply, if_pos rfl, if_pos rfl, Option.map_map, ← walkMoves_fst next test fuel q]
        rfl

theorem walkMoves_spec {next : P → Option (Option P)} {test : P → Option Bool} {p : P} {X Y : List P}
    {fuel : Nat} (h : Links next p (X ++ Y)) (hX : ∀ x ∈ X, test x = some true)
    (hY : ∀ y ∈ Y.head?, test y = some false) (hf : X.length < fuel) :
    walkMoves next test fuel p = some (X.getLastD p, X.length) := by
  induction fuel generalizing p X with
  | zero => omega
  | succ fuel ih =>
    cases X with
    | nil =>
      rw [walkMoves, h.next_eq]
      cases Y with
      | nil => rfl
      | cons y Y => simp [hY y rfl]
    | cons x X =>
      have ih := ih h.2 (fun y hy => hX y (List.mem_cons_of_mem _ hy)) (by simpa using hf)
      rw [walkMoves, h.1, List.getLastD_cons, List.length_cons]
      simp only [Option.bind_some, hX x List.mem_cons_self, if_true, ih, Option.map_some]

/-- `lanes` without where it left them: where it ends, and how often it has moved. -/
def lanesMoves (next : Nat → P → Option (Option P)) (test : P → Option Bool) (fuel : Nat) :
    Nat → P → Option (P × Nat)
  | 0, p => some (p, 0)
  | i + 1, p =>
    (walkMoves (next i) test fuel p).bind fun q =>
      (lanesMoves next test fuel i q.1).map fun r => (r.1, q.2 + r.2)

theorem lanesMoves_fst (next : Nat → P → Option (Option P)) (test : P → Option Bool) (fuel : Nat) :
    ∀ n p, (lanesMoves next test fuel n p).map Prod.fst = (lanes next test fuel n p).map Prod.fst
  | 0, _ => rfl
  | n + 1, p => by
    rw [lanesMoves, lanes, ← walkMoves_fst]
    cases walkMoves (next n) test fuel p with
    | none => rfl
    | some q =>
      have ih := lanesMoves_fst next test fuel n q.1
      simp only [Option.bind_some, Option.map_some, Option.map_map] at ih ⊢
      exact ih

section
variable {next : Nat → P → Option (Option P)} {test : P → Option Bool} {fuel : Nat} {ptr : α → P}
  {keep : Nat → α → Bool} {A B : List α} {start : α}

/-- One lane, entered at the last element of the front part that `f` holds of. -/
theorem laneMoves_walk (hA : ∀ x ∈ A, test (ptr x) = some true)
    (hB : ∀ x ∈ B, test (ptr x) = some false) (hf : A.length < fuel) {i : Nat}
    (hl : Links (next i) (ptr start) (((A ++ B).filter (keep i)).map ptr)) {f : α → Bool}
    (hkeep : ∀ x, f x → keep i x) :
    walkMoves (next i) test fuel (ptr ((A.filter f).getLastD start)) =
      some (ptr ((A.filter (keep i)).getLastD start), streak (keep i) f A) := by
  obtain ⟨U, V, rfl, hV, hU⟩ := exists_break f A
  have hfV : V.filter f = [] := List.filter_eq_nil_iff.mpr fun x hx => by simp [hV x hx]
  have hstreak : streak (keep i) f (U ++ V) = (V.filter (keep i)).length := by
    rw [streak_unbroken _ _ _ hV]
    rcases hU with rfl | ⟨U', x, rfl, hx⟩
    · exact Nat.zero_add _
    · rw [streak_concat, if_pos hx, Nat.zero_add]
  have hlast : (U.filter f).getLastD start = (U.filter (keep i)).getLastD start := by
    rcases hU with rfl | ⟨U', x, rfl, hx⟩
    · rfl
    · simp [hx, hkeep x hx]
  rw [List.filter_append, List.filter_append, List.append_assoc, List.map_append] at hl
  have hdrop := hl.drop
  rw [List.getLastD_map, List.map_append] at hdrop
  have hlen : (V.filter (keep i)).length = ((V.filter (keep i)).map ptr).length := by
    rw [List.length_map]
  rw [List.filter_append, hfV, List.append_nil, hlast, List.filter_append, getLastD_append, hstreak,
    ← List.getLastD_map (f := ptr) (l := V.filter (keep i)), hlen]
  apply walkMoves_spec hdrop
  · intro q hq
    obtain ⟨y, hy, rfl⟩ := List.mem_map.mp hq
    exact hA y (List.mem_append_right U (List.mem_filter.mp hy).1)
  · intro q hq
    obtain ⟨b, hb, rfl⟩ := List.mem_map.mp (List.mem_of_mem_head? hq)
    exact hB b (List.mem_filter.mp hb).1
  · have hle : (V.filter (keep i)).length ≤ V.length := List.length_filter_le ..
    rw [List.length_append] at hf
    rw [List.length_map]
    omega

variable (next test fuel ptr keep start) in
/-- The moves of a search are the streaks of its lanes. -/
theorem lanesMoves_spec (hkeep : ∀ i x, keep (i + 1) x → keep i x)
    (hA : ∀ x ∈ A, test (ptr x) = some true) (hB : ∀ x ∈ B, test (ptr x) = some false)
    (hf : A.length < fuel) : ∀ n,
      (∀ i, i < n → Links (next i) (ptr start) (((A ++ B).filter (keep i)).map ptr)) →
        ∃ p, lanesMoves next test fuel n (ptr ((A.filter (keep n)).getLastD start)) =
          some (p, ∑ i ∈ Finset.range n, streak (keep i) (keep (i + 1)) A) := by
  intro n
  induction n with
  | zero => exact fun _ => ⟨_, rfl⟩
  | succ n ih =>
    intro hl
    obtain ⟨p, hp⟩ := ih fun i hi => hl i (Nat.lt_succ_of_lt hi)
    refine ⟨p, ?_⟩
    rw [lanesMoves, laneMoves_walk hA hB hf (hl n (Nat.lt_succ_self n)) (hkeep n), Option.bind_some, hp,
      Option.map_some, Finset.sum_range_succ, Nat.add_comm]

end

end Cdsa.Core
