import Mathlib.Data.List.ReduceOption
import Mathlib.Data.List.Perm.Basic
import Mathlib.Data.List.Nodup

/-!
# Arrays of optional slots

A fixed array whose cells are empty or hold a value, as a list of options.
`es[i]?` is an access, `none` past the end; `slot es i` is what cell `i` holds
(nothing, past the end) and `live es` lists the values present. `set_perm` is the
accounting law of one write: what was in the cell leaves, what is written enters,
and nothing else changes.
-/
namespace Cdsa.Core

variable {α β : Type}

def slot (es : List (Option α)) (i : Nat) : Option α := es.getD i none

def live (es : List (Option α)) : List α := es.reduceOption

theorem slot_lt {es : List (Option α)} {i : Nat} {x : α} (h : slot es i = some x) :
    i < es.length := by
  by_contra hn
  simp [slot, List.getElem?_eq_none (Nat.not_lt.mp hn)] at h

/-- An access within the array. -/
theorem getElem?_of_lt {es : List (Option α)} {i : Nat} (h : i < es.length) :
    es[i]? = some (slot es i) := by
  rw [List.getElem?_eq_getElem h]
  simp [slot, List.getElem?_eq_getElem h]

theorem slot_of_getElem? {es : List (Option α)} {i : Nat} {o : Option α} (h : es[i]? = some o) :
    slot es i = o := by
  simp [slot, h]

theorem getElem?_of_slot {es : List (Option α)} {i : Nat} {x : α} (h : slot es i = some x) :
    es[i]? = some (some x) := by
  rw [getElem?_of_lt (slot_lt h), h]

theorem getElem?_of_empty {es : List (Option α)} {i : Nat} (hi : i < es.length)
    (h : slot es i = none) : es[i]? = some none := by
  rw [getElem?_of_lt hi, h]

theorem slot_set {es : List (Option α)} {i : Nat} (hi : i < es.length) (o : Option α) (j : Nat) :
    slot (es.set i o) j = if i = j then o else slot es j := by
  simp only [slot, List.getD_eq_getElem?_getD, List.getElem?_set]
  split
  · simp
  · rfl

theorem slot_set_self {es : List (Option α)} {i : Nat} (hi : i < es.length) (o : Option α) :
    slot (es.set i o) i = o := by rw [slot_set hi, if_pos rfl]

theorem slot_set_ne {es : List (Option α)} {i j : Nat} (h : i ≠ j) (o : Option α) :
    slot (es.set i o) j = slot es j := by
  simp only [slot, List.getD_eq_getElem?_getD, List.getElem?_set, if_neg h]

@[simp] theorem slot_replicate_none (n i : Nat) : slot (List.replicate n (none : Option α)) i = none := by
  simp only [slot, List.getD_eq_getElem?_getD, List.getElem?_replicate]
  split <;> rfl

@[simp] theorem live_replicate_none (n : Nat) : live (List.replicate n (none : Option α)) = [] :=
  List.reduceOption_replicate_none

@[simp] theorem slot_cons_zero (o : Option α) (es : List (Option α)) : slot (o :: es) 0 = o := rfl

@[simp] theorem slot_cons_succ (o : Option α) (es : List (Option α)) (i : Nat) :
    slot (o :: es) (i + 1) = slot es i := rfl

@[simp] theorem live_cons (o : Option α) (es : List (Option α)) :
    live (o :: es) = o.toList ++ live es := by
  cases o <;> rfl

theorem mem_live {es : List (Option α)} {x : α} : x ∈ live es ↔ ∃ i, slot es i = some x := by
  rw [live, List.reduceOption_mem_iff, List.mem_iff_getElem?]
  constructor
  · rintro ⟨i, h⟩; exact ⟨i, by simp [slot, h]⟩
  · rintro ⟨i, h⟩
    refine ⟨i, ?_⟩
    have hi := slot_lt h
    rw [List.getElem?_eq_getElem hi]
    simpa [slot, List.getElem?_eq_getElem hi] using h

/-- One write: the old content of the cell leaves, the new one enters. -/
theorem set_perm (o : Option α) :
    ∀ (es : List (Option α)) (i : Nat), i < es.length →
      ((slot es i).toList ++ live (es.set i o)).Perm (o.toList ++ live es)
  | [], _, h => by simp at h
  | e :: es, 0, _ => by
    simp only [slot_cons_zero, List.set_cons_zero, live_cons, ← List.append_assoc]
    exact List.Perm.append_right _ List.perm_append_comm
  | e :: es, i + 1, h => by
    simp only [slot_cons_succ, List.set_cons_succ, live_cons]
    have ih := set_perm o es i (by simpa using h)
    calc ((slot es i).toList ++ (e.toList ++ live (es.set i o))).Perm
          (e.toList ++ ((slot es i).toList ++ live (es.set i o))) := by
            rw [← List.append_assoc, ← List.append_assoc]
            exact List.Perm.append_right _ List.perm_append_comm
      _ |>.Perm (e.toList ++ (o.toList ++ live es)) := ih.append_left _
      _ |>.Perm (o.toList ++ (e.toList ++ live es)) := by
            rw [← List.append_assoc, ← List.append_assoc]
            exact List.Perm.append_right _ List.perm_append_comm

/-- Filling an empty cell adds the value. -/
theorem set_empty_perm {es : List (Option α)} {i : Nat} (hi : i < es.length)
    (h : slot es i = none) (x : α) : (live (es.set i (some x))).Perm (x :: live es) := by
  have := set_perm (some x) es i hi
  simpa [h] using this

/-- Overwriting a full cell exchanges the two values. -/
theorem set_full_perm {es : List (Option α)} {i : Nat} {y : α} (h : slot es i = some y) (x : α) :
    (y :: live (es.set i (some x))).Perm (x :: live es) := by
  have := set_perm (some x) es i (slot_lt h)
  simpa [h] using this

/-- Clearing a full cell removes its value. -/
theorem set_none_perm {es : List (Option α)} {i : Nat} {y : α} (h : slot es i = some y) :
    (y :: live (es.set i none)).Perm (live es) := by
  have := set_perm none es i (slot_lt h)
  simpa [h] using this

/-- Where a key function is injective on the values present, it names cells. -/
theorem slot_unique {es : List (Option α)} {f : α → β} (hn : ((live es).map f).Nodup)
    {i j : Nat} {x y : α} (hi : slot es i = some x) (hj : slot es j = some y) (hf : f x = f y) :
    i = j := by
  by_contra hne
  have hp := (set_none_perm hi).map f
  have hnd := hp.nodup_iff.mpr hn
  have hy : y ∈ live (es.set i none) := mem_live.mpr ⟨j, by rw [slot_set_ne hne, hj]⟩
  simp only [List.map_cons, List.nodup_cons] at hnd
  exact hnd.1 (hf ▸ List.mem_map_of_mem hy)

/-- Fewer values than cells: some cell is empty. -/
theorem exists_empty {es : List (Option α)} (h : (live es).length < es.length) :
    ∃ i, i < es.length ∧ slot es i = none := by
  have hm : none ∈ es := List.reduceOption_length_lt_iff.mp h
  obtain ⟨i, hi, he⟩ := List.mem_iff_getElem.mp hm
  exact ⟨i, hi, by simp [slot, List.getElem?_eq_getElem hi, he]⟩

/-! ## Two arrays alike -/

section
variable {R : α → β → Prop} {es : List (Option α)} {xs : List (Option β)}

theorem slot_alike (h : List.Forall₂ (Option.Rel R) es xs) (i : Nat) :
    Option.Rel R (slot es i) (slot xs i) := by
  induction h generalizing i with
  | nil => exact .none
  | cons ho _ ih =>
    cases i with
    | zero => exact ho
    | succ i => exact ih i

/-- An access to one of them is an access to the other. -/
theorem getElem?_alike (h : List.Forall₂ (Option.Rel R) es xs) (i : Nat) :
    Option.Rel (Option.Rel R) es[i]? xs[i]? := by
  induction h generalizing i with
  | nil => exact .none
  | cons ho _ ih =>
    cases i with
    | zero => exact .some ho
    | succ i => exact ih i

theorem set_alike (h : List.Forall₂ (Option.Rel R) es xs) {o : Option α} {o' : Option β}
    (ho : Option.Rel R o o') (i : Nat) : List.Forall₂ (Option.Rel R) (es.set i o) (xs.set i o') := by
  induction h generalizing i with
  | nil => exact .nil
  | cons h0 h ih =>
    cases i with
    | zero => exact .cons ho h
    | succ i => exact .cons h0 (ih i)

/-- Only what is in the array matters. -/
theorem alike_mono {R' : α → β → Prop} (h : List.Forall₂ (Option.Rel R) es xs)
    (hR : ∀ a, ∀ b ∈ live xs, R a b → R' a b) : List.Forall₂ (Option.Rel R') es xs := by
  induction h with
  | nil => exact .nil
  | cons h0 h ih =>
    rw [live_cons] at hR
    have ih := ih fun a b hb => hR a b (List.mem_append_right _ hb)
    cases h0 with
    | none => exact .cons .none ih
    | some hr => exact .cons (.some (hR _ _ List.mem_cons_self hr)) ih

theorem alike_replicate (R : α → β → Prop) : ∀ n : Nat,
    List.Forall₂ (Option.Rel R) (List.replicate n none) (List.replicate n none)
  | 0 => .nil
  | n + 1 => .cons .none (alike_replicate R n)

theorem live_alike (h : List.Forall₂ (Option.Rel R) es xs) : List.Forall₂ R (live es) (live xs) := by
  induction h with
  | nil => exact .nil
  | cons h0 h ih =>
    rw [live_cons, live_cons]
    cases h0 with
    | none => exact ih
    | some hr => exact .cons hr ih

end

end Cdsa.Core
