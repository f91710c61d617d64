import Cdsa.Core.FinMap
import Cdsa.L2Hashmap.Insert

/-!
# What one `internal_insert` does

`Put m k v m'` is the contract of `internal_insert` on a laid-out table with
a gap, whether `k` was stored or not: the pairs are those of `m` with `k`
updated, the layout holds again, and an entry that changed slot moved
between two slots of `writes m k`.

`max_psl` is only raised to the PSL at which the loop ends. `CallOk m k`
says that no swap on the way places an entry further from home than that and
than the old `max_psl`; exactly then the early exit of the probe loops stays
sound (`Within`).
-/
namespace Cdsa.Hashmap

open Cdsa.Core

variable {V : Type}

def keys (m : CdsaHashmap CStr V) : List CStr := (live m.entries).map (·.key)

theorem keys_eq (m : CdsaHashmap CStr V) : keys m = (pairs m.entries).map Prod.fst :=
  keys_eq_pairs m.entries

theorem mem_keys {m : CdsaHashmap CStr V} {k : CStr} :
    k ∈ keys m ↔ ∃ i x, slot m.entries i = some x ∧ x.key = k := by
  simp only [keys, List.mem_map, mem_live]
  exact ⟨fun ⟨x, ⟨i, hi⟩, hk⟩ => ⟨i, x, hi, hk⟩, fun ⟨i, x, hi, hk⟩ => ⟨x, ⟨i, hi⟩, hk⟩⟩

/-- The positions `internal_insert` writes for `key`, with their PSLs: none
changes hands when the key is stored already. -/
def writes (m : CdsaHashmap CStr V) (key : CStr) : List (Nat × Nat) :=
  if key ∈ keys m then []
  else placements m.capacity m.entries m.capacity (getRawHash key % m.capacity) 0

/-- No swap lands above both `max_psl` and the PSL at which the loop ends. -/
def CallOk (m : CdsaHashmap CStr V) (key : CStr) : Prop :=
  ∀ w ∈ writes m key, ∀ z ∈ (writes m key).getLast?, w.2 ≤ max m.maxPsl z.2

instance (m : CdsaHashmap CStr V) (key : CStr) : Decidable (CallOk m key) := by
  unfold CallOk; infer_instance

/-- Every entry is within reach of the probe loops. -/
def Within (m : CdsaHashmap CStr V) : Prop := ∀ e ∈ live m.entries, e.psl ≤ m.maxPsl

structure Put (m : CdsaHashmap CStr V) (k : CStr) (v : Option V) (m' : CdsaHashmap CStr V) : Prop where
  layout : Layout m'.capacity m'.entries
  capacity : m'.capacity = m.capacity
  version : m'.version = m.version
  size : m'.size = if k ∈ keys m then m.size else m.size + 1
  perm : (pairs m'.entries).Perm (upd k v (pairs m.entries))
  slots : ∀ i x, slot m.entries i = some x → ∃ j y, slot m'.entries j = some y ∧ y.key = x.key ∧
    (j = i ∨ (i ∈ (writes m k).map Prod.fst ∧ j ∈ (writes m k).map Prod.fst))
  within : Within m → CallOk m k → Within m'

/-- A laid-out table with a gap: where `internal_insert` ends. -/
structure Roomy (m : CdsaHashmap CStr V) : Prop where
  layout : Layout m.capacity m.entries
  gap : ∃ i, i < m.capacity ∧ slot m.entries i = none

theorem Inserted.put {m m' : CdsaHashmap CStr V} {k : CStr} {v : Option V} {h p : Nat}
    (hk : k ∉ keys m) (I : Inserted m ⟨k, v, h, p⟩ (writes m k) m') : Put m k v m' where
  layout := I.layout
  capacity := I.capacity
  version := I.version
  size := by rw [I.size, if_neg hk]
  perm := by
    rw [keys_eq] at hk
    rw [upd, del_eq_self hk]; exact I.perm
  slots i x hx := by
    rcases I.moved i x hx with h | ⟨w, hw, hws, hi⟩
    · exact ⟨i, x, h, rfl, Or.inl rfl⟩
    · exact ⟨w.1, _, hws, rfl, Or.inr ⟨hi, List.mem_map_of_mem hw⟩⟩
  within hw hc e he := by
    obtain ⟨s, q, hlast, hmax⟩ := I.maxPsl
    rw [hmax]
    rcases I.mem he with ⟨w, hwm, hwp⟩ | hold
    · rw [hwp]; exact hc w hwm (s, q) hlast
    · exact Nat.le_trans (hw e hold) (Nat.le_max_left _ _)

theorem put_setValue {m : CdsaHashmap CStr V} (L : Layout m.capacity m.entries) {s : Nat}
    {x : HashEntry CStr V} (hs : slot m.entries s = some x) (v : Option V) :
    Put m x.key v { m with entries := m.entries.set s (some { x with value := v }) } where
  layout := layout_setValue L hs v
  capacity := rfl
  version := rfl
  size := by rw [if_pos (mem_keys.mpr ⟨s, x, hs, rfl⟩)]
  perm := by
    have hp := (set_full_perm hs { x with value := v }).map HashEntry.pair
    have hm : x.pair ∈ pairs m.entries := List.mem_map_of_mem (mem_live.mpr ⟨s, hs⟩)
    have hsplit := perm_cons_del (k := x.key) (w := x.value) (keys_eq m ▸ L.keys) hm
    have : (x.pair :: pairs (m.entries.set s (some { x with value := v }))).Perm
        (x.pair :: upd x.key v (pairs m.entries)) :=
      (hp.trans (hsplit.cons _)).trans (List.Perm.swap _ _ _)
    exact this.cons_inv
  slots i y hy := by
    by_cases hii : s = i
    · subst hii
      rw [hs] at hy; cases hy
      exact ⟨s, _, slot_set_self (slot_lt hs) _, rfl, Or.inl rfl⟩
    · exact ⟨i, y, by rw [slot_set_ne hii]; exact hy, rfl, Or.inl rfl⟩
  within hw _ e he := by
    obtain ⟨i, hi⟩ := mem_live.mp he
    rw [slot_set (slot_lt hs)] at hi
    split at hi
    · cases hi; exact hw x (mem_live.mpr ⟨s, hs⟩)
    · exact hw e (mem_live.mpr ⟨i, hi⟩)

/-- `internal_insert` ends, answers CDSA_OK and stores the pair. -/
theorem internalInsert_put {m : CdsaHashmap CStr V} (R : Roomy m) (k : CStr) (v : Option V) :
    ∃ m', internalInsert some m k v (getRawHash k) = some (.ok, m') ∧ Put m k v m' := by
  obtain ⟨i, hi, he⟩ := R.gap
  by_cases hk : k ∈ keys m
  · obtain ⟨s, x, hs, rfl⟩ := mem_keys.mp hk
    exact ⟨_, internalInsert_stored R.layout hs (R.layout.psl_lt hs hi he) v,
      put_setValue R.layout hs v⟩
  · obtain ⟨m', hm', I⟩ := internalInsert_fresh R.layout hi he hk v
    refine ⟨m', hm', Inserted.put hk (h := getRawHash k) (p := 0) ?_⟩
    rw [writes, if_neg hk]; exact I

theorem Put.keys_perm {m m' : CdsaHashmap CStr V} {k : CStr} {v : Option V} (P : Put m k v m') :
    (keys m').Perm (k :: (keys m).filter (· ≠ k)) := by
  have := P.perm.map Prod.fst
  rw [keys_eq, keys_eq]
  simpa [upd, del, List.filter_map, Function.comp_def] using this

/-- The size stays the number of entries. -/
theorem Put.size_live {m m' : CdsaHashmap CStr V} {k : CStr} {v : Option V} (P : Put m k v m')
    (L : Layout m.capacity m.entries) (hs : m.size = (live m.entries).length) :
    m'.size = (live m'.entries).length := by
  have hlen := P.perm.length_eq
  have hl : ∀ es : List (Option (HashEntry CStr V)), (pairs es).length = (live es).length :=
    fun es => by simp [pairs]
  rw [P.size, ← hl, hlen, upd, List.length_cons]
  split
  · next hk =>
    obtain ⟨s, x, hx, rfl⟩ := Hashmap.mem_keys.mp hk
    have hm : x.pair ∈ pairs m.entries := List.mem_map_of_mem (mem_live.mpr ⟨s, hx⟩)
    have := (perm_cons_del (k := x.key) (w := x.value) (keys_eq m ▸ L.keys) hm).length_eq
    rw [hs, ← hl, this, List.length_cons]
  · next hk => rw [del_eq_self (keys_eq m ▸ hk), hl, hs]

end Cdsa.Hashmap
