import Cdsa.L2Hashmap.Put

/-!
# The table invariant; `resize_hashmap` and `insert_hashmap`

`Inv` is the state between two operations: a laid-out array, `size` counting
its entries, and the load factor at most 3/4 in integer arithmetic, which
leaves an empty slot at every capacity.

`Fits` is the range in which the array of a table, of 32 bytes a slot, and the
header of its block do not wrap. Beyond it the block has fewer slots than the
table believes, and the loops leave it.

* `resizeHashmap_spec`: the doubled table holds the same pairs.
* `insertHashmap_cases`: the three things `insert_hashmap` can do.
-/
namespace Cdsa.Hashmap

open Cdsa.Core

variable {V : Type}

structure Inv (m : CdsaHashmap CStr V) : Prop where
  pos : 0 < m.capacity
  layout : Layout m.capacity m.entries
  size : m.size = (live m.entries).length
  load : m.size ≤ m.capacity * 3 / 4

/-- The size of the array, with the header of its block, does not wrap. -/
def Fits {K : Type} (m : CdsaHashmap K V) : Prop := m.capacity * sizeofHashEntry + 8 < 2 ^ 64

instance {K : Type} (m : CdsaHashmap K V) : Decidable (Fits m) := inferInstanceAs (Decidable (_ < _))

theorem callocEntries_whole {K : Type} {capacity : Nat}
    (h : capacity * sizeofHashEntry + 8 < 2 ^ 64) :
    (callocEntries capacity : List (Option (HashEntry K V))) = List.replicate capacity none := by
  rw [callocEntries, Nat.mod_eq_of_lt (Nat.lt_of_le_of_lt (Nat.le_add_right _ _) h),
    Nat.mul_div_cancel _ (by decide)]

@[simp] theorem live_callocEntries {K : Type} (capacity : Nat) :
    live (callocEntries capacity : List (Option (HashEntry K V))) = [] :=
  live_replicate_none _

/-- A table fresh from the allocator. -/
theorem layout_calloc {capacity : Nat} (h : capacity * sizeofHashEntry + 8 < 2 ^ 64) :
    Layout capacity (callocEntries capacity : List (Option (HashEntry CStr V))) := by
  rw [callocEntries_whole h]
  exact layout_empty capacity

theorem Inv.roomy {m : CdsaHashmap CStr V} (I : Inv m) : Roomy m := by
  refine ⟨I.layout, ?_⟩
  have hlt : (live m.entries).length < m.entries.length := by
    have := I.pos; have := I.load; have := I.size; have := I.layout.len
    omega
  obtain ⟨i, hi, he⟩ := exists_empty hlt
  exact ⟨i, I.layout.len ▸ hi, he⟩

theorem cdsaCreateHashmap_inv {okMap okEntries : Bool} {capacity : Nat} {m : CdsaHashmap CStr V}
    (h : cdsaCreateHashmap okMap okEntries capacity = some m) (hf : Fits m) :
    Inv m ∧ pairs m.entries = [] ∧ Within m := by
  unfold cdsaCreateHashmap at h
  simp only at h
  split at h
  · cases h
    refine ⟨⟨?_, layout_calloc hf, by simp, by simp⟩, by simp [pairs], by simp [Within]⟩
    show 0 < if capacity = 0 then 1 else capacity
    split <;> omega
  · cases h

/-! ## Moving the entries over -/

/-- The calls of `internal_insert` that the loop of `resize_hashmap` makes:
the table each one starts in, and its key. -/
def reinsertCalls : CdsaHashmap CStr V → List (Option (HashEntry CStr V)) → List (CdsaHashmap CStr V × CStr)
  | _, [] => []
  | m, none :: old => reinsertCalls m old
  | m, some e :: old =>
    (m, e.key) :: match internalInsert some m e.key e.value e.hash with
      | some r => reinsertCalls r.2 old
      | none => []

structure Reinserted (m : CdsaHashmap CStr V) (old : List (Option (HashEntry CStr V)))
    (m' : CdsaHashmap CStr V) : Prop where
  layout : Layout m'.capacity m'.entries
  capacity : m'.capacity = m.capacity
  version : m'.version = m.version
  size : m'.size = m.size + (live old).length
  perm : (pairs m'.entries).Perm (pairs old ++ pairs m.entries)
  within : Within m → (∀ q ∈ reinsertCalls m old, CallOk q.1 q.2) → Within m'

/-- The loop ends and moves every entry, as long as the new table has more
slots than there are entries. -/
theorem reinsert_spec : ∀ (old : List (Option (HashEntry CStr V))) (m : CdsaHashmap CStr V),
    Layout m.capacity m.entries → (∀ e ∈ live old, e.hash = getRawHash e.key) →
    ((pairs old ++ pairs m.entries).map Prod.fst).Nodup →
    (live old).length + (live m.entries).length < m.capacity →
    ∃ m', reinsert some m old = some m' ∧ Reinserted m old m' := by
  intro old
  induction old with
  | nil =>
    intro m L _ _ _
    exact ⟨m, rfl, L, rfl, rfl, rfl, by simp [pairs, live], fun hw _ => hw⟩
  | cons o old ih =>
    intro m L hh hn hlt
    cases o with
    | none =>
      obtain ⟨m', hm', R⟩ := ih m L (by simpa using hh) (by simpa [pairs] using hn)
        (by simpa using hlt)
      exact ⟨m', hm', R.layout, R.capacity, R.version, by simpa using R.size,
        by simpa [pairs] using R.perm, R.within⟩
    | some e =>
      simp only [live_cons, Option.toList_some, List.singleton_append, List.length_cons,
        List.mem_cons, forall_eq_or_imp] at hh hlt
      have hpe : pairs (some e :: old) = e.pair :: pairs old := by simp [pairs]
      rw [hpe, List.cons_append] at hn
      have hk : e.key ∉ keys m := fun hk => (List.nodup_cons.mp hn).1 (by
        rw [List.map_append, List.mem_append]; exact Or.inr (keys_eq m ▸ hk))
      obtain ⟨i, hi, he⟩ := exists_empty (by rw [L.len]; omega)
      obtain ⟨m1, hm1, P⟩ := internalInsert_put ⟨L, i, L.len ▸ hi, he⟩ e.key e.value
      rw [← hh.1] at hm1
      have hp1 : (pairs m1.entries).Perm (e.pair :: pairs m.entries) := by
        have := P.perm
        rwa [upd, del_eq_self (keys_eq m ▸ hk)] at this
      have hmid : (pairs old ++ pairs m1.entries).Perm
          (e.pair :: (pairs old ++ pairs m.entries)) :=
        (hp1.append_left _).trans List.perm_middle
      have hlen1 : (live m1.entries).length = (live m.entries).length + 1 := by
        simpa [pairs] using hp1.length_eq
      obtain ⟨m', hm', R⟩ := ih m1 P.layout hh.2 ((hmid.map _).nodup_iff.mpr hn)
        (by rw [P.capacity, hlen1]; omega)
      refine ⟨m', by simp only [reinsert, hm1, Option.bind_some]; exact hm', R.layout,
        R.capacity.trans P.capacity, R.version.trans P.version, ?_, ?_, ?_⟩
      · rw [R.size, P.size, if_neg hk, live_cons]
        simp only [Option.toList_some, List.singleton_append, List.length_cons]
        omega
      · rw [hpe]; exact R.perm.trans hmid
      · intro hw hc
        simp only [reinsertCalls, hm1, List.mem_cons, forall_eq_or_imp] at hc
        exact R.within (P.within hw hc.1) hc.2

/-! ## `resize_hashmap` -/

structure Resized (m m' : CdsaHashmap CStr V) : Prop where
  inv : Inv m'
  capacity : m'.capacity = m.capacity * 2
  size : m'.size = m.size
  version : m'.version = (m.version + 1) % 2 ^ 64
  perm : (pairs m'.entries).Perm (pairs m.entries)
  within : (∀ q ∈ reinsertCalls (doubled m) m.entries, CallOk q.1 q.2) → Within m'

theorem Fits.lt {K : Type} {m : CdsaHashmap K V} (hf : Fits m) : m.capacity * 32 < 2 ^ 64 :=
  Nat.lt_of_le_of_lt (Nat.le_add_right _ _) hf

theorem doubled_capacity {K : Type} {m : CdsaHashmap K V} (hf : Fits m) :
    (doubled m).capacity = m.capacity * 2 := by
  have := hf.lt
  exact Nat.mod_eq_of_lt (by omega)

theorem resizeHashmap_spec {m : CdsaHashmap CStr V} (I : Inv m) (hf : Fits m)
    (hd : Fits (doubled m)) :
    ∃ m', resizeHashmap some true m = some (.ok, m') ∧ Resized m m' := by
  have hcap := doubled_capacity hf
  have hpos := I.pos
  have hload := I.load
  have hsize := I.size
  have hlen := I.layout.len
  have hempty : live (doubled m).entries = [] := live_callocEntries _
  have hpairs : pairs (doubled m).entries = [] := by rw [pairs, hempty, List.map_nil]
  obtain ⟨m', hm', R⟩ := reinsert_spec m.entries (doubled m) (layout_calloc hd) I.layout.hash
    (by rw [hpairs, List.append_nil, ← keys_eq]; exact I.layout.keys)
    (by rw [hempty, hcap, List.length_nil]; omega)
  refine ⟨{ m' with version := (m'.version + 1) % 2 ^ 64 },
    by simp only [resizeHashmap, hm', hlen, Nat.le_refl, if_true, Option.map_some], ?_⟩
  have hperm : (pairs m'.entries).Perm (pairs m.entries) := by
    simpa [hpairs] using R.perm
  have hsz : m'.size = m.size := by rw [R.size, hsize]; exact Nat.zero_add _
  have hlen : (live m'.entries).length = (live m.entries).length := by
    simpa [pairs] using hperm.length_eq
  have hcap' : m'.capacity = m.capacity * 2 := R.capacity.trans hcap
  exact {
    inv := ⟨show 0 < m'.capacity by omega, R.layout, show m'.size = _ by rw [hsz, hlen, hsize],
      show m'.size ≤ m'.capacity * 3 / 4 by omega⟩
    capacity := hcap'
    size := hsz
    version := by rw [R.version]; rfl
    perm := hperm
    within := R.within (fun e he => by rw [hempty] at he; cases he) }

theorem Resized.fits {m m' : CdsaHashmap CStr V} (R : Resized m m') (hf : Fits m)
    (hd : Fits (doubled m)) : Fits m' := by
  unfold Fits at hd ⊢
  rw [R.capacity, ← doubled_capacity hf]
  exact hd

theorem Put.fits {m m' : CdsaHashmap CStr V} {k : CStr} {v : Option V} (P : Put m k v m')
    (hf : Fits m) : Fits m' := by
  unfold Fits
  rw [P.capacity]
  exact hf

/-- A failed allocation leaves the table alone. -/
theorem resizeHashmap_oom (m : CdsaHashmap CStr V) : resizeHashmap some false m = some (.errOom, m) := rfl

/-! ## `insert_hashmap` -/

theorem needsResize_iff {K : Type} {m : CdsaHashmap K V} (hf : Fits m) :
    needsResize m = true ↔ m.capacity * 3 / 4 ≤ m.size := by
  have := hf.lt
  rw [needsResize, decide_eq_true_eq, Nat.mod_eq_of_lt (show m.capacity * 3 < 2 ^ 64 by omega)]

theorem Put.inv {m m' : CdsaHashmap CStr V} {k : CStr} {v : Option V} (P : Put m k v m') (I : Inv m)
    (hroom : m.size + 1 ≤ m.capacity * 3 / 4) : Inv m' where
  pos := P.capacity ▸ I.pos
  layout := P.layout
  size := P.size_live I.layout I.size
  load := by
    rw [P.size, P.capacity]
    split <;> omega

/-- What `insert_hashmap` can do: give up on a failed resize, resize first,
or go straight to `internal_insert`. -/
theorem insertHashmap_cases {m : CdsaHashmap CStr V} (I : Inv m) (hf : Fits m) (ok : Bool) (k : CStr)
    (v : Option V) (hd : needsResize m = true → ok = true → Fits (doubled m)) :
    (needsResize m = true ∧ ok = false ∧ insertHashmap some ok m k v = some (.errOom, m)) ∨
    (needsResize m = true ∧ ok = true ∧ ∃ m1 m', resizeHashmap some true m = some (.ok, m1) ∧
      Resized m m1 ∧ Put m1 k v m' ∧ Inv m' ∧ insertHashmap some ok m k v = some (.ok, m')) ∨
    (needsResize m = false ∧ ∃ m', Put m k v m' ∧ Inv m' ∧
      insertHashmap some ok m k v = some (.ok, m')) := by
  cases hr : needsResize m with
  | true =>
    cases ok with
    | false => exact Or.inl ⟨rfl, rfl, by simp [insertHashmap, hr, resizeHashmap_oom]⟩
    | true =>
      obtain ⟨m1, hm1, R⟩ := resizeHashmap_spec I hf (hd hr rfl)
      obtain ⟨m', hm', P⟩ := internalInsert_put R.inv.roomy k v
      have hroom : m1.size + 1 ≤ m1.capacity * 3 / 4 := by
        have := I.pos; have := I.load
        rw [R.size, R.capacity]; omega
      refine Or.inr (Or.inl ⟨rfl, rfl, m1, m', hm1, R, P, P.inv R.inv hroom, ?_⟩)
      simp only [insertHashmap, hr, if_true, hm1, Option.bind_some]
      exact hm'
  | false =>
    obtain ⟨m', hm', P⟩ := internalInsert_put I.roomy k v
    have hroom : m.size + 1 ≤ m.capacity * 3 / 4 := by
      have := (needsResize_iff hf).not.mp (by simp [hr])
      omega
    refine Or.inr (Or.inr ⟨rfl, m', P, P.inv I hroom, ?_⟩)
    simp only [insertHashmap, hr, Bool.false_eq_true, if_false]
    exact hm'

end Cdsa.Hashmap
