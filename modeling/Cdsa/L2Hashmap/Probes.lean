import Cdsa.L2Hashmap.Runs

/-!
# The loops of a reachable map

The loops of `src/hashmap.c` have no bound of their own, or one by `max_psl`,
which may be stale. What ends them is the empty slot that the load factor
leaves (`LoopsEnd`): `capacity` is enough fuel for each.

The probe loops of `contains_hashmap` and `remove_hashmap` meet the same slot,
the one of the key if that is within `max_psl` of its home. But
`contains_hashmap` goes through the value, so it takes a key stored with NULL
for absent (`membership_agrees_iff`).
-/
namespace Cdsa.Hashmap

open Cdsa.Core

variable {V : Type}

/-! ## Rounds -/

/-- The `while` of `get_hashmap` and `remove_hashmap`, given `fuel` rounds: the
slot of the key, if it is met.
mirrors src/hashmap.c:166-177,225-271 -/
def probeLoop (m : CdsaHashmap CStr V) (key : CStr) (rawHash : Nat) :
    Nat → Nat → Nat → Option (Option Nat)
  | 0, index, probeDistance =>
    match m.entries[index]? with
    | none => none
    | some none => some none
    | some (some _) => if probeDistance ≤ m.maxPsl then none else some none
  | fuel + 1, index, probeDistance =>
    match m.entries[index]? with
    | none => none
    | some none => some none
    | some (some e) =>
      if probeDistance ≤ m.maxPsl then
        (e.matches some key rawHash).bind fun same =>
          if same then some (some index)
          else probeLoop m key rawHash fuel ((index + 1) % m.capacity) (probeDistance + 1)
      else some none

/-- Up to a gap the rounds suffice, and the loop is `probe`. -/
theorem probeLoop_eq {m : CdsaHashmap CStr V} {key : CStr} {h : Nat}
    (hlen : m.entries.length = m.capacity) : ∀ n index p,
      index < m.capacity → GapAhead m.capacity m.entries index n →
        probeLoop m key h n index p = probe some m key h (m.maxPsl + 1 - p) index := by
  intro n
  induction n with
  | zero => rintro index p - ⟨d, hd, -⟩; omega
  | succ n ih =>
    intro index p hi hgap
    have hget := getElem?_of_lt (hlen.symm ▸ hi)
    by_cases hp : p ≤ m.maxPsl
    · obtain ⟨left, hleft⟩ : ∃ left, m.maxPsl + 1 - p = left + 1 := ⟨m.maxPsl - p, by omega⟩
      rw [hleft, probeLoop, probe, hget]
      cases hs : slot m.entries index with
      | none => rfl
      | some e =>
        have hrest : m.maxPsl + 1 - (p + 1) = left := by omega
        have hnext := ih _ (p + 1) (Nat.mod_lt _ (Nat.zero_lt_of_lt hi)) (hgap.next hi hs)
        rw [hrest] at hnext
        simp only [if_pos hp, hnext]
    · rw [show m.maxPsl + 1 - p = 0 by omega, probeLoop, probe, hget]
      cases slot m.entries index with
      | none => rfl
      | some e => simp only [hp, if_false, Option.map_some]

/-- The loops that a call with `key` runs on `m` end within as many rounds as the
table they run on has slots, leave no table, and take no index modulo 0.
`internal_insert` and the backward shift are given that many rounds by
definition. -/
structure LoopsEnd (m : CdsaHashmap CStr V) (key : CStr) : Prop where
  nonzero : 0 < m.capacity ∧ 0 < (doubled m).capacity
  internalInsert : ∀ value, ∃ r, internalInsert some m key value (getRawHash key) = some r
  resize : ∀ ok, OpFits m (.resize ok) → ∃ r, resizeHashmap some ok m = some r
  insert : ∀ ok value, OpFits m (.insert key value ok) →
    ∃ r, insertHashmap some ok m key value = some r
  probe : ∃ r, probeLoop m key (getRawHash key) m.capacity (getRawHash key % m.capacity) 0 = some r ∧
    findSlot some m key = some r
  remove : ∃ r, removeHashmap some m key = some r

/-- Every loop ends on every reachable map, for every key. -/
theorem loops_end (m : CdsaHashmap CStr V) (h : (hashmapLTS V).Reachable m) (key : CStr) :
    LoopsEnd m key := by
  obtain ⟨I, hf⟩ := reachable_inv h
  obtain ⟨i, hi, he⟩ := I.roomy.gap
  exact {
    nonzero := ⟨I.pos, by rw [doubled_capacity hf]; exact Nat.mul_pos I.pos Nat.two_pos⟩
    internalInsert := fun value => by
      obtain ⟨m', hm', -⟩ := internalInsert_put I.roomy key value
      exact ⟨_, hm'⟩
    resize := fun ok ho => by
      obtain ⟨r, hr, -⟩ := resizeHashmap_inv I hf ho
      exact ⟨r, hr⟩
    insert := fun ok value ho => by
      obtain ⟨r, hr, -⟩ := insertHashmap_inv I hf ho
      exact ⟨r, hr⟩
    probe := by
      have hindex := Nat.mod_lt (getRawHash key) I.pos
      obtain ⟨r, hr⟩ := probe_defined I.layout.len key (getRawHash key) (m.maxPsl + 1) _ hindex
      exact ⟨r, (probeLoop_eq I.layout.len _ _ 0 hindex (gap_of_empty _ hi he)).trans hr, hr⟩
    remove := by
      obtain ⟨r, hr, -⟩ := removeHashmap_inv I hf key
      exact ⟨r, hr⟩ }

/-- The cluster, which the next insertion resizes: the key `"e"` is met in the
second round. -/
theorem loops_end_cluster : needsResize cluster = true ∧ ∀ key, LoopsEnd cluster key :=
  ⟨by decide, loops_end _ cluster_reachable⟩

/-- In a map whose array wraps the loops leave the array at once. -/
theorem loops_of_wrapped : cdsaCreateHashmap true true (2 ^ 59) = some wrapped ∧
    wrapped.capacity * 3 < 2 ^ 64 ∧ ∀ key, findSlot some wrapped key = none ∧ ¬ LoopsEnd wrapped key := by
  refine ⟨cdsaCreateHashmap_wrapped, by decide, fun key => ⟨?_, fun h => ?_⟩⟩
  · rw [findSlot_eq, probe, wrapped, List.getElem?_nil]
  · obtain ⟨r, hr⟩ := h.internalInsert none
    rw [internalInsert, insertLoop_wrapped] at hr
    cases hr

/-! ## Membership -/

/-- What the probe loop meets, it meets within `max_psl` steps. -/
theorem probe_distance {m : CdsaHashmap CStr V} {key : CStr} {h : Nat} : ∀ left a i,
    probe some m key h left (a % m.capacity) = some (some i) →
      ∃ p, p < left ∧ i = (a + p) % m.capacity := by
  intro left
  induction left with
  | zero =>
    intro a i hp
    obtain ⟨o, -, ho⟩ := Option.map_eq_some_iff.mp hp
    cases ho
  | succ left ih =>
    intro a i hp
    rw [probe] at hp
    split at hp
    · cases hp
    · cases hp
    · rw [HashEntry.matches_eq, Option.bind_some] at hp
      split at hp
      · cases hp
        exact ⟨0, Nat.succ_pos _, rfl⟩
      · rw [Nat.mod_add_mod] at hp
        obtain ⟨p, hlt, he⟩ := ih (a + 1) i hp
        exact ⟨p + 1, Nat.succ_lt_succ hlt, by rw [he, Nat.add_assoc, Nat.add_comm 1]⟩

/-- The probe loops meet a key exactly if it is stored within `max_psl` of its
home. -/
theorem findSlot_iff {m : CdsaHashmap CStr V} (R : Roomy m) {key : CStr} {s : Nat} :
    findSlot some m key = some (some s) ↔
      ∃ x, slot m.entries s = some x ∧ x.key = key ∧ x.psl ≤ m.maxPsl := by
  have L := R.layout
  obtain ⟨i, hi, he⟩ := R.gap
  constructor
  · intro h
    obtain ⟨x, hs, rfl⟩ := findSlot_sound h
    obtain ⟨p, hp, hsp⟩ := probe_distance _ _ _ h
    refine ⟨x, hs, rfl, ?_⟩
    have hlt := L.psl_lt hs hi he
    -- `p` steps and `psl` steps lead from home to the same slot
    by_contra hgt
    have := ring_inj (a := getRawHash x.key) (by omega) hlt
      (hsp.symm.trans (L.hash_of hs ▸ L.home s x hs))
    omega
  · rintro ⟨x, hs, rfl, hle⟩
    have := probe_reaches L hs (m.maxPsl + 1) 0 (Nat.zero_le _) (Nat.lt_succ_of_le hle)
    rw [findSlot_eq, ← L.hash_of hs]
    exact this

/-- `contains_hashmap` agrees with `remove_hashmap` exactly if the key, where it
is within reach, is not stored with NULL. -/
theorem membership_agrees_iff (m : CdsaHashmap CStr V) (h : (hashmapLTS V).Reachable m) (key : CStr) :
    ∃ contained st m', containsHashmap some m key = some contained ∧
      removeHashmap some m key = some (st, m') ∧
      ((contained = true ↔ st = .ok) ↔
        ∀ i x, slot m.entries i = some x → x.key = key → x.psl ≤ m.maxPsl → x.value ≠ none) := by
  obtain ⟨I, -⟩ := reachable_inv h
  have hfind : ∀ s, findSlot some m key = some (some s) ↔
      ∃ x, slot m.entries s = some x ∧ x.key = key ∧ x.psl ≤ m.maxPsl :=
    fun s => findSlot_iff I.roomy
  rcases removeHashmap_cases I key with ⟨hn, he⟩ | ⟨⟨s, hs⟩, m', he, -⟩
  · -- neither finds the key
    refine ⟨false, .errNotFound, m, ?_, he, iff_of_true (by simp) fun i x hx hk hle => ?_⟩
    · simp only [containsHashmap, getHashmap, hn, Option.map_some, Option.isSome_none]
    · rw [(hfind i).mpr ⟨x, hx, hk, hle⟩] at hn
      cases hn
  · obtain ⟨x, hx, hk, hle⟩ := (hfind s).mp hs
    refine ⟨x.value.isSome, .ok, m', ?_, he, ?_⟩
    · simp only [containsHashmap, getHashmap, hs, hx, Option.map_some, Option.bind_some]
    rw [Option.isSome_iff_ne_none]
    constructor
    · intro hiff i y hy hky _
      have := I.layout.slot_key hx hy (hk.trans hky.symm)
      subst this
      rw [hx] at hy
      cases hy
      exact hiff.mpr rfl
    · intro hall
      exact iff_of_true (hall s x hx hk hle) rfl

theorem one_key_reachable (value : Option Nat) : (hashmapLTS Nat).Reachable
    ⟨4, 1, 0, 0, [none, some ⟨⟨[97], by decide⟩, value, 97, 0⟩, none, none]⟩ :=
  .step (l := .insert ⟨[97], by decide⟩ value true)
    (.init (s := ⟨4, 0, 0, 0, [none, none, none, none]⟩) ⟨⟨4, rfl⟩, by decide⟩)
    ⟨⟨.status .ok, by cases value <;> rfl⟩, fun h => absurd h (by simp [resizes, needsResize])⟩

/-- The key `"h"`, one slot from its home, where it has displaced another. -/
theorem membership_agrees_iff_cluster : ∃ m',
    containsHashmap some cluster ⟨[104], by decide⟩ = some true ∧
      removeHashmap some cluster ⟨[104], by decide⟩ = some (.ok, m') := by
  obtain ⟨contained, st, m', hc, hr, hiff⟩ :=
    membership_agrees_iff cluster cluster_reachable ⟨[104], by decide⟩
  have htrue : contained = true := by
    have hrun : containsHashmap some cluster ⟨[104], by decide⟩ = some true := by decide
    rw [hc] at hrun
    exact Option.some.inj hrun
  subst htrue
  have hst : st = .ok := (hiff.mpr fun i x hx _ _ => by
    rcases i with _ | _ | _ | _ | i <;> simp [cluster, slot] at hx
    all_goals
      subst hx
      simp).mp rfl
  subst hst
  exact ⟨m', hc, hr⟩

/-- A key stored with NULL can be removed, but is not contained. -/
theorem null_value_not_contained : ∃ m : CdsaHashmap CStr Nat, (hashmapLTS Nat).Reachable m ∧
    containsHashmap some m ⟨[97], by decide⟩ = some false ∧
    ∃ m', removeHashmap some m ⟨[97], by decide⟩ = some (.ok, m') :=
  ⟨_, one_key_reachable none, rfl, _, rfl⟩

end Cdsa.Hashmap
