import Cdsa.Core.Ring
import Cdsa.L2Hashmap.Table

/-!
# The Robin Hood layout

`Layout c es`: every entry of the array `es` of `c` slots sits `psl` steps
after `hash % c` and caches the raw hash of its key, an entry with a positive
PSL has an occupied predecessor whose PSL is at most one smaller, and no two
entries hold the same key.

The ordering clause says that PSLs rise by at most one along a cluster. Read
backwards from an entry `p` steps from its home, it makes every slot in
between occupied, by an entry at least as far from home as the walk
(`Layout.chain`). Hence PSLs stay below `c` while a slot is empty, and a walk
from a key's home meets the key before any gap or any richer entry.
-/
namespace Cdsa.Hashmap

open Cdsa.Core

variable {V : Type} {c : Nat} {es : List (Option (HashEntry CStr V))}

structure Layout (c : Nat) (es : List (Option (HashEntry CStr V))) : Prop where
  len : es.length = c
  home : ∀ i e, slot es i = some e → i = (e.hash + e.psl) % c
  hash : ∀ e ∈ live es, e.hash = getRawHash e.key
  order : ∀ i e, i < c → slot es ((i + 1) % c) = some e → 0 < e.psl →
    ∃ e', slot es i = some e' ∧ e.psl ≤ e'.psl + 1
  keys : ((live es).map (·.key)).Nodup

def HashEntry.pair (e : HashEntry CStr V) : CStr × Option V := (e.key, e.value)

/-- The pairs physically stored. -/
def pairs (es : List (Option (HashEntry CStr V))) : List (CStr × Option V) := (live es).map HashEntry.pair

theorem keys_eq_pairs (es : List (Option (HashEntry CStr V))) :
    (live es).map (·.key) = (pairs es).map Prod.fst := by
  simp [pairs, HashEntry.pair, Function.comp_def]

theorem HashEntry.matches_eq (e : HashEntry CStr V) (key : CStr) (h : Nat) :
    e.matches some key h = some (decide (e.hash = h ∧ e.key = key)) := by
  unfold HashEntry.matches
  split
  · next hh => simp [hh, CStr.strcmp_eq_zero]
  · next hh => simp [hh]

theorem HashEntry.matches_self (e : HashEntry CStr V) : e.matches some e.key e.hash = some true := by
  simp [matches_eq]

theorem HashEntry.matches_of_ne {e : HashEntry CStr V} {key : CStr} (h : Nat) (hk : e.key ≠ key) :
    e.matches some key h = some false := by
  simp [matches_eq, hk]

namespace Layout

theorem lt (L : Layout c es) {i : Nat} {e : HashEntry CStr V} (h : slot es i = some e) : i < c :=
  L.len ▸ slot_lt h

theorem hash_of (L : Layout c es) {i : Nat} {e : HashEntry CStr V} (h : slot es i = some e) :
    e.hash = getRawHash e.key := L.hash e (mem_live.mpr ⟨i, h⟩)

theorem slot_key (L : Layout c es) {i j : Nat} {e e' : HashEntry CStr V} (hi : slot es i = some e)
    (hj : slot es j = some e') (h : e.key = e'.key) : i = j := slot_unique L.keys hi hj h

/-- The ordering clause at distances from a fixed start. -/
theorem order_at (L : Layout c es) {a t : Nat} {e : HashEntry CStr V}
    (h : slot es ((a + (t + 1)) % c) = some e) (hp : 0 < e.psl) :
    ∃ e', slot es ((a + t) % c) = some e' ∧ e.psl ≤ e'.psl + 1 := by
  have hc : 0 < c := Nat.zero_lt_of_lt (L.lt h)
  exact L.order _ e (Nat.mod_lt _ hc) (by rw [ring_succ]; exact h) hp

/-- Everything between `a` and an entry at least `p` from home, `p` steps
after `a`, is occupied, and at least as far from home as from `a`. -/
theorem chain (L : Layout c es) {a p : Nat} {e : HashEntry CStr V}
    (h : slot es ((a + p) % c) = some e) (hp : p ≤ e.psl) :
    ∀ q, q ≤ p → ∃ e', slot es ((a + q) % c) = some e' ∧ q ≤ e'.psl := by
  intro q hq
  induction p generalizing e with
  | zero => obtain rfl : q = 0 := by omega
            exact ⟨e, h, Nat.zero_le _⟩
  | succ p ih =>
    by_cases hqp : q = p + 1
    · subst hqp; exact ⟨e, h, hp⟩
    · obtain ⟨e', h', hle⟩ := L.order_at h (by omega)
      exact ih h' (by omega) (by omega)

/-- With an empty slot around, no run of occupied slots goes all the way. -/
theorem chain_lt (L : Layout c es) {a p i : Nat} {e : HashEntry CStr V}
    (h : slot es ((a + p) % c) = some e) (hp : p ≤ e.psl) (hi : i < c) (he : slot es i = none) :
    p + 1 < c := by
  by_contra hn
  obtain ⟨t, ht, hti⟩ := ring_reach a hi
  obtain ⟨e', h', -⟩ := L.chain h hp t (by omega)
  rw [hti, he] at h'; cases h'

theorem psl_lt (L : Layout c es) {i j : Nat} {e : HashEntry CStr V} (h : slot es j = some e)
    (hi : i < c) (he : slot es i = none) : e.psl < c := by
  have := L.chain_lt (L.home j e h ▸ h) (Nat.le_refl _) hi he
  omega

end Layout

/-- An empty table is laid out correctly. -/
theorem layout_empty (c : Nat) : Layout c (List.replicate c (none : Option (HashEntry CStr V))) where
  len := by simp
  home i e h := by simp at h
  hash e h := by simp at h
  order i e _ h _ := by simp at h
  keys := by simp

end Cdsa.Hashmap
