import Cdsa.Core.Amortised
import Cdsa.L2Hashmap.Runs

/-!
# What resizing costs over a run

A resize calls `internal_insert` once for every entry of the table. It comes
when `size` has reached 3/4 of the capacity, and leaves twice the capacity
behind, so the next one comes only after as many more entries. Over a run that
does not call `resize_hashmap` itself the calls of `internal_insert` are at
most three for each `insert_hashmap` (`insertions_amortised`), whatever is
removed in between and whichever allocations fail.
-/
namespace Cdsa.Hashmap

open Cdsa.Core

variable {V : Type}

/-- The calls of `internal_insert` that an operation makes. -/
def internalInserts (m : CdsaHashmap CStr V) : Op V → Nat
  | .insert k _ ok => if needsResize m ∧ ok = false then 0 else (insertCalls m k).length
  | .resize ok => if ok then (reinsertCalls (doubled m) m.entries).length else 0
  | _ => 0

def isInsert : Op V → Bool
  | .insert _ _ _ => true
  | _ => false

/-- How far the size is beyond half of what the capacity admits, twice. -/
def potential (m : CdsaHashmap CStr V) : Nat := 2 * m.size - m.capacity * 3 / 4

/-- A loop that ends has called `internal_insert` for every entry. -/
theorem reinsertCalls_length : ∀ (old : List (Option (HashEntry CStr V))) (m m' : CdsaHashmap CStr V),
    reinsert some m old = some m' → (reinsertCalls m old).length = (live old).length := by
  intro old
  induction old with
  | nil => intro m m' _; rfl
  | cons o old ih =>
    intro m m' h
    cases o with
    | none =>
      rw [reinsertCalls, ih m m' h]
      simp
    | some e =>
      obtain ⟨r, hr, h⟩ := Option.bind_eq_some_iff.mp h
      simp [reinsertCalls, hr, ih r.2 m' h]

/-- A resize that succeeds has moved every entry. -/
theorem resize_moves_size {m m' : CdsaHashmap CStr V} (I : Inv m)
    (h : resizeHashmap some true m = some (.ok, m')) :
    (reinsertCalls (doubled m) m.entries).length = m.size := by
  rw [resizeHashmap, if_pos rfl, if_pos I.layout.len.ge] at h
  obtain ⟨m1, h1, -⟩ := Option.map_eq_some_iff.mp h
  rw [reinsertCalls_length _ _ _ h1, I.size]

theorem Put.size_le {m m' : CdsaHashmap CStr V} {k : CStr} {v : Option V} (P : Put m k v m') :
    m'.size ≤ m.size + 1 := by
  rw [P.size]
  split <;> omega

theorem Removed.size_le {m m' : CdsaHashmap CStr V} {k : CStr} (R : Removed m k m') (I : Inv m) :
    m'.size ≤ m.size := by
  have hle : (del k (pairs m.entries)).length ≤ (pairs m.entries).length :=
    List.length_filter_le _ _
  rw [R.inv.size, I.size]
  have hperm := R.perm.length_eq
  simp only [pairs, List.length_map] at hperm hle
  omega

/-- One `insert_hashmap` pays for its calls and for the rise of the potential. -/
theorem insert_pays {m : CdsaHashmap CStr V} (I : Inv m) (hf : Fits m) {k : CStr} {v : Option V}
    {ok : Bool} (ho : OpFits m (.insert k v ok)) :
    ∃ r, insertHashmap some ok m k v = some r ∧ (Inv r.2 ∧ Fits r.2) ∧
      internalInserts m (.insert k v ok) + potential r.2 ≤ potential m + 3 := by
  have hload := I.load
  have hneeds := needsResize_iff hf
  rcases insertHashmap_cases I hf ok k v ho.insert with ⟨hr, hok, he⟩ |
    ⟨hr, hok, m1, m', h1, R, P, I', he⟩ | ⟨hr, m', P, I', he⟩
  · refine ⟨_, he, ⟨I, hf⟩, ?_⟩
    simp [internalInserts, hr, hok]
  · refine ⟨_, he, ⟨I', P.fits (R.fits hf (ho.insert hr hok))⟩, ?_⟩
    have hcalls : internalInserts m (.insert k v ok) = m.size + 1 := by
      simp [internalInserts, insertCalls, hr, hok, h1, resize_moves_size I h1]
    have hle := P.size_le
    have hfull := hneeds.mp hr
    rw [hcalls]
    simp only [potential, P.capacity, R.capacity] at *
    rw [R.size] at hle
    omega
  · refine ⟨_, he, ⟨I', P.fits hf⟩, ?_⟩
    have hcalls : internalInserts m (.insert k v ok) = 1 := by
      simp [internalInserts, insertCalls, hr]
    have hle := P.size_le
    rw [hcalls]
    simp only [potential, P.capacity]
    omega

/-- No operation but `insert_hashmap` calls `internal_insert` or raises the
potential. -/
theorem step_pays {m : CdsaHashmap CStr V} (I : Inv m) (hf : Fits m) (op : Op V) (ho : OpFits m op)
    (hop : ∀ ok, op ≠ .resize ok) : ∃ o m', step m op = some (o, m') ∧ (Inv m' ∧ Fits m') ∧
      internalInserts m op + potential m' ≤ potential m + if isInsert op then 3 else 0 := by
  cases op with
  | insert k v ok =>
    obtain ⟨r, he, I', hle⟩ := insert_pays I hf ho
    exact ⟨_, r.2, by simp only [step, he, Option.map_some]; rfl, I', hle⟩
  | remove k =>
    rcases removeHashmap_cases I k with ⟨-, he⟩ | ⟨-, m', he, R⟩
    · exact ⟨_, m, by simp only [step, he, Option.map_some]; rfl, ⟨I, hf⟩, by simp [internalInserts]⟩
    · refine ⟨_, m', by simp only [step, he, Option.map_some]; rfl, ⟨R.inv, R.fits hf⟩, ?_⟩
      have hle := R.size_le I
      simp only [internalInserts, potential, R.capacity]
      omega
  | resize ok => exact absurd rfl (hop ok)
  | get k =>
    obtain ⟨v, hv⟩ := getHashmap_defined I k
    exact ⟨_, m, by simp only [step, hv, Option.map_some]; rfl, ⟨I, hf⟩, by simp [internalInserts]⟩
  | size => exact ⟨_, m, rfl, ⟨I, hf⟩, by simp [internalInserts]⟩

/-- A run from a fresh map whose tables do not wrap and that leaves resizing to
`insert_hashmap` calls `internal_insert` at most three times as often as
`insert_hashmap`. -/
theorem insertions_amortised (capacity : Nat) (m : CdsaHashmap CStr V) (ops : List (Op V))
    (hm : cdsaCreateHashmap true true capacity = some m) (hf : Fits m)
    (hrun : RunMeets step (fun m op => OpFits m op ∧ ∀ ok, op ≠ .resize ok) m ops) :
    totalCost step internalInserts m ops ≤ 3 * ops.countP isInsert := by
  obtain ⟨I, hp, -⟩ := cdsaCreateHashmap_inv hm hf
  have hzero : potential m = 0 := by
    have hs := I.size
    simp only [pairs, List.map_eq_nil_iff] at hp
    rw [hp, List.length_nil] at hs
    simp [potential, hs]
  exact totalCost_le_count (I := fun m => Inv m ∧ Fits m)
    (fun m op I h => step_pays I.1 I.2 op h.1 h.2) ⟨I, hf⟩ hzero hrun

/-- Three insertions into a map of capacity 1, two of which resize. -/
theorem insertions_amortised_three : totalCost (step (V := Nat)) internalInserts ⟨1, 0, 0, 0, [none]⟩
    [.insert ⟨[97], by decide⟩ none true, .insert ⟨[98], by decide⟩ none true,
      .remove ⟨[99], by decide⟩, .insert ⟨[99], by decide⟩ none true] ≤ 3 * 3 := by
  apply insertions_amortised (V := Nat) 1 _ _ rfl (by decide)
  apply RunMeets.of_check (p := fun m op => decide (OpFits m op) && match op with
    | .resize _ => false | _ => true) _ (by decide)
  intro m op h
  rw [Bool.and_eq_true, decide_eq_true_eq] at h
  refine ⟨h.1, fun ok he => ?_⟩
  subst he
  exact absurd h.2 (by simp)

end Cdsa.Hashmap
