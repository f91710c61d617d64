import Mathlib.Data.List.Nodup

/-!
# Linked lists in a heap

`next p` reads the link of cell `p`: `none` if it cannot be read, `some none`
for NULL. `Links next p l` says that the links lead from `p` through the
cells `l`, in order, to NULL. Cutting (`Links.drop`), splicing a cell in
(`Links.splice`) and bypassing one (`Links.bypass`) are each one or two
writes; `walk` is the loop that moves along the links while a test holds, and
`trace` lists the cells up to NULL.
-/
namespace Cdsa.Core

variable {P : Type}

def Links (next : P → Option (Option P)) : P → List P → Prop
  | p, [] => next p = some none
  | p, q :: l => next p = some (some q) ∧ Links next q l

/-- `while (p->next != NULL && test(p->next)) p = p->next;` with fuel. -/
def walk (next : P → Option (Option P)) (test : P → Option Bool) : Nat → P → Option P
  | 0, _ => none
  | fuel + 1, p =>
    (next p).bind fun
      | none => some p
      | some q => (test q).bind fun b => if b then walk next test fuel q else some p

/-- The cells met from `p` on, with fuel. -/
def trace (next : P → Option (Option P)) : Nat → P → Option (List P)
  | fuel, p =>
    (next p).bind fun
      | none => some []
      | some q =>
        match fuel with
        | 0 => none
        | fuel + 1 => (trace next fuel q).map (q :: ·)

namespace Links
variable {next next' : P → Option (Option P)} {p q : P} {l X Y : List P}

theorem next_eq (h : Links next p l) : next p = some l.head? := by
  cases l with
  | nil => exact h
  | cons q l => exact h.1

theorem trace_eq (h : Links next p l) {fuel : Nat} (hf : l.length ≤ fuel) :
    trace next fuel p = some l := by
  induction l generalizing p fuel with
  | nil => rw [trace, h.next_eq]; rfl
  | cons q l ih =>
    rw [List.length_cons] at hf
    obtain ⟨fuel, rfl⟩ := Nat.exists_eq_succ_of_ne_zero (by omega : fuel ≠ 0)
    rw [trace, h.1]
    simp only [Option.bind_some, ih h.2 (Nat.le_of_succ_le_succ hf), Option.map_some]

theorem congr (h : Links next p l) (hn : ∀ q ∈ p :: l, next' q = next q) : Links next' p l := by
  induction l generalizing p with
  | nil => exact (hn p List.mem_cons_self).trans h
  | cons q l ih =>
    exact ⟨(hn p List.mem_cons_self).trans h.1, ih h.2 fun r hr => hn r (List.mem_cons_of_mem _ hr)⟩

theorem drop (h : Links next p (X ++ Y)) : Links next (X.getLastD p) Y := by
  induction X generalizing p with
  | nil => exact h
  | cons x X ih => rw [List.getLastD_cons]; exact ih h.2

/-- `q` now follows the last cell of `X`, and is followed by what did. -/
theorem splice (h : Links next p (X ++ Y)) (hn : (p :: (X ++ Y)).Nodup) (hq : q ∉ p :: (X ++ Y))
    (hlast : next' (X.getLastD p) = some (some q)) (hnew : next' q = next (X.getLastD p))
    (hrest : ∀ r, r ≠ q → r ≠ X.getLastD p → next' r = next r) : Links next' p (X ++ q :: Y) := by
  induction X generalizing p with
  | nil =>
    have hY : Links next p Y := h
    refine ⟨hlast, ?_⟩
    cases Y with
    | nil => exact hnew.trans hY
    | cons y Y =>
      refine ⟨hnew.trans hY.1, hY.2.congr fun r hr => hrest r ?_ ?_⟩
      · rintro rfl; exact hq (List.mem_cons_of_mem _ hr)
      · rintro rfl; exact (List.nodup_cons.mp hn).1 hr
  | cons x X ih =>
    rw [List.getLastD_cons] at hlast hnew hrest
    have hp : p ∉ x :: X := fun hp => (List.nodup_cons.mp hn).1 (List.mem_append_left _ hp)
    refine ⟨(hrest p ?_ fun he => hp (he ▸ List.getLastD_mem_cons)).trans h.1,
      ih h.2 (List.nodup_cons.mp hn).2 (fun hm => hq (List.mem_cons_of_mem _ hm)) hlast hnew hrest⟩
    rintro rfl; exact hq List.mem_cons_self

/-- The last cell of `X` now leads to where `q` led. -/
theorem bypass (h : Links next p (X ++ q :: Y)) (hn : (p :: (X ++ q :: Y)).Nodup)
    (hlast : next' (X.getLastD p) = next q)
    (hrest : ∀ r, r ≠ q → r ≠ X.getLastD p → next' r = next r) : Links next' p (X ++ Y) := by
  induction X generalizing p with
  | nil =>
    have hY := h.2
    cases Y with
    | nil => exact hlast.trans hY
    | cons y Y =>
      obtain ⟨hp, hn⟩ := List.nodup_cons.mp hn
      refine ⟨hlast.trans hY.1, hY.2.congr fun r hr => hrest r ?_ ?_⟩
      · rintro rfl; exact (List.nodup_cons.mp hn).1 hr
      · rintro rfl; exact hp (List.mem_cons_of_mem _ hr)
  | cons x X ih =>
    rw [List.getLastD_cons] at hlast hrest
    have hp : p ∉ x :: X := fun hp => (List.nodup_cons.mp hn).1 (List.mem_append_left _ hp)
    refine ⟨(hrest p ?_ fun he => hp (he ▸ List.getLastD_mem_cons)).trans h.1,
      ih h.2 (List.nodup_cons.mp hn).2 hlast hrest⟩
    rintro rfl; exact (List.nodup_cons.mp hn).1 (by simp)

end Links

/-- The loop stops at the last cell of the part that passes the test. -/
theorem walk_spec {next : P → Option (Option P)} {test : P → Option Bool} {p : P} {X Y : List P}
    {fuel : Nat} (h : Links next p (X ++ Y)) (hX : ∀ x ∈ X, test x = some true)
    (hY : ∀ y ∈ Y.head?, test y = some false) (hf : X.length < fuel) :
    walk next test fuel p = some (X.getLastD p) := by
  induction fuel generalizing p X with
  | zero => omega
  | succ fuel ih =>
    cases X with
    | nil =>
      rw [walk, h.next_eq]
      cases Y with
      | nil => rfl
      | cons y Y => simp [hY y rfl]
    | cons x X =>
      rw [walk, h.1]
      simp only [Option.bind_some, hX x List.mem_cons_self, if_true, List.getLastD_cons]
      exact ih h.2 (fun y hy => hX y (List.mem_cons_of_mem _ hy)) (by simpa using hf)

theorem getLastD_append (X Y : List P) (p : P) : (X ++ Y).getLastD p = Y.getLastD (X.getLastD p) := by
  induction X generalizing p with
  | nil => rfl
  | cons x X ih => simp only [List.cons_append, List.getLastD_cons, ih]

/-- The last cell of a sublist given by a stronger test is reached along the
sublist given by a weaker one. -/
theorem getLastD_filter_split (l : List P) (p : P) {f g : P → Bool} (hfg : ∀ x, f x → g x) :
    ∃ X Y, l.filter g = X ++ Y ∧ (l.filter f).getLastD p = X.getLastD p := by
  rcases List.mem_cons.mp (List.getLastD_mem_cons (l := l.filter f) (a := p)) with he | hm
  · exact ⟨[], _, rfl, he⟩
  · obtain ⟨hl, hf⟩ := List.mem_filter.mp hm
    obtain ⟨X, Y, hXY⟩ := List.append_of_mem (List.mem_filter.mpr ⟨hl, hfg _ hf⟩)
    exact ⟨X ++ [(l.filter f).getLastD p], Y, by rw [hXY, List.append_assoc]; rfl,
      List.getLastD_concat.symm⟩

end Cdsa.Core
