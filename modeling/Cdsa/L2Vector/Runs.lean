import Cdsa.L2Vector.Vector

/-!
# Vectors that run out of memory

`Usable v op`: the operation returns, `capacity` elements still have room in
the block, and a push that gives CDSA_ERR_OOM has changed nothing. A run is
usable throughout if and only if every push that finds the vector full gets the
doubled block (`usable_run_iff`): the request must not be for 0 bytes, for that
frees the block, nor wrap, and the system must grant it.
-/
namespace Cdsa.Vector

open Cdsa.Core Cdsa.Raw

variable {es : Nat} {v : CdsaVector} {l : List (Elem es)}

/-- A push returns, and appends, unless the vector is full and does not get the
doubled block. -/
theorem Good.push (G : Good es v) (L : Lists v l) (g : Grant) (e : Elem es)
    (hg : v.capacity ≤ v.size → g.Meets (v.capacity * 2 * es)) :
    ∃ v', cdsaPushVector g v e.1 = some (.ok, v') ∧ Good es v' ∧ Lists v' (l ++ [e]) := by
  obtain rfl := G.elemSize
  by_cases hs : v.capacity ≤ v.size
  · have hM := hg hs
    have he : 0 < v.elemSize := Nat.pos_of_ne_zero fun h => by
      rw [h, Nat.mul_zero] at hM; exact Nat.lt_irrefl 0 hM.1
    have h2 := hM.2.1
    have hc : v.capacity * 2 < 2 ^ 64 := by
      have := Nat.le_mul_of_pos_right (v.capacity * 2) he
      omega
    obtain ⟨block, hr, hlen, hb, hag⟩ := cdsaReallocTrack_met hM v.data
    obtain ⟨G', L'⟩ := G.grown L hlen hb hc hag
    have hpos := G.capacity_pos
    obtain ⟨v', ha, G'', L''⟩ := G'.append L' (show v.size < v.capacity * 2 by
      have := G.size_le; omega) e
    refine ⟨v', ?_, G'', L''⟩
    rw [cdsaPushVector, if_pos hs]
    simp only [Nat.mod_eq_of_lt hc,
      Nat.mod_eq_of_lt (show v.capacity * 2 * v.elemSize < 2 ^ 64 by omega), hr, Option.bind_some]
    exact ha
  · obtain ⟨v', ha, G', L'⟩ := G.append L (Nat.lt_of_not_le hs) e
    exact ⟨v', by rw [cdsaPushVector, if_neg hs]; exact ha, G', L'⟩

theorem Good.pop (G : Good es v) (L : Lists v l) :
    Good es (cdsaPopVector v).2 ∧ Lists (cdsaPopVector v).2 l.dropLast ∧
      ((cdsaPopVector v).1 = .ok ∨ (cdsaPopVector v).1 = .errNotFound) := by
  have hl := L.size
  unfold cdsaPopVector
  split
  · next h0 =>
    obtain rfl : l = [] := List.eq_nil_of_length_eq_zero (hl ▸ h0)
    exact ⟨G, L, Or.inr rfl⟩
  · refine ⟨⟨G.elemSize, Nat.le_trans (Nat.sub_le ..) G.size_le, G.holds, G.bounded,
      G.capacity_lt, G.pow⟩, ⟨?_, fun i hi => ?_⟩, Or.inl rfl⟩
    · rw [List.length_dropLast, ← hl]
    · rw [List.length_dropLast] at hi
      rw [List.getElem_dropLast]
      exact L.cells i (by omega)

theorem Good.set (G : Good es v) (L : Lists v l) (i : Nat) (e : Elem es) :
    ∃ s v', setVector v i e.1 = some (s, v') ∧ Good es v' ∧ Lists v' (l.set i e) ∧
      s = if i < l.length then .ok else .errNotFound := by
  have hl := L.size
  unfold setVector
  split
  · next hi =>
    refine ⟨_, v, rfl, G, ?_, by rw [if_neg (by omega)]⟩
    rw [List.set_eq_of_length_le (by omega)]
    exact L
  · next hi =>
    have hi' : i < v.capacity := by have := G.size_le; omega
    obtain ⟨data, hw⟩ := exists_writeAt v.data (i * es) e.1
      (by rw [e.2]; exact G.fits hi')
    have hlen := writeAt_length hw
    refine ⟨_, { v with data }, by rw [G.offset hi', hw, Option.map_some],
      ⟨G.elemSize, G.size_le, hlen ▸ G.holds, hlen ▸ G.bounded, G.capacity_lt, G.pow⟩,
      ⟨by rw [List.length_set]; exact hl, fun j hj => ?_⟩, by rw [if_pos (by omega)]⟩
    show cellAt data es j = _
    rw [List.length_set] at hj
    by_cases h : i = j
    · subst h
      rw [cellAt_writeAt_self hw e.2, List.getElem_set_self]
    · rw [cellAt_writeAt_of_ne hw e.2 h, L.cells j hj, List.getElem_set_ne h]

theorem Good.get (G : Good es v) (L : Lists v l) (i : Nat) :
    step v (.get i : Op es) = some (.elem (l[i]?.map Subtype.val), v) := by
  have hl := L.size
  unfold step getVector
  by_cases hi : i ≥ v.size
  · simp [if_pos hi, List.getElem?_eq_none (show l.length ≤ i by omega)]
  · have hi' : i < l.length := by omega
    have hc := L.cells i hi'
    simp only [if_neg hi, G.offset (show i < v.capacity by have := G.size_le; omega),
      List.getElem?_eq_getElem hi', Option.map_some]
    rw [G.elemSize, show readAt v.data (i * es) es = _ from hc, Option.map_some]

theorem Good.clear (G : Good es v) :
    Good es (cdsaClearVector v) ∧ Lists (cdsaClearVector v) ([] : List (Elem es)) :=
  ⟨⟨G.elemSize, Nat.zero_le _, G.holds, G.bounded, G.capacity_lt, G.pow⟩, rfl, fun _ h => by
    cases h⟩

/-! ## Runs -/

/-- The block has room for `capacity` elements. -/
def Holds (v : CdsaVector) : Prop := v.capacity * v.elemSize ≤ v.data.length

/-- What every operation is to do. -/
def Usable (v : CdsaVector) (op : Op es) : Prop :=
  ∃ out v', step v op = some (out, v') ∧ Holds v' ∧ (out = .status .errOom → v' = v)

/-- A push that finds the vector full gets the doubled block. -/
def GrowthMet (v : CdsaVector) : Op es → Prop
  | .push g _ => v.capacity ≤ v.size → g.Meets (v.capacity * 2 * v.elemSize)
  | _ => True

theorem Good.Holds (G : Good es v) : Holds v := by
  rw [Vector.Holds, G.elemSize]; exact G.holds

/-- A push that does not get the doubled block has doubled `capacity` anyway. -/
theorem push_unmet (G : Good es v) {g : Grant} (e : Elem es) (hs : v.capacity ≤ v.size)
    (hg : ¬ g.Meets (v.capacity * 2 * es)) : ¬ Usable v (.push g e) := by
  obtain rfl := G.elemSize
  rintro ⟨out, v', hstep, hholds, hoom⟩
  have hpos := G.capacity_pos
  have hlt := G.capacity_lt
  -- whatever the new capacity is, it is not the old one
  have hne : v.capacity * 2 % 2 ^ 64 ≠ v.capacity := by omega
  obtain ⟨r, hr, hout⟩ := Option.map_eq_some_iff.mp hstep
  rw [cdsaPushVector, if_pos hs] at hr
  obtain ⟨⟨answer, old⟩, hre, hr⟩ := Option.bind_eq_some_iff.mp hr
  cases answer with
  | none =>
    cases hr
    cases hout
    exact hne (congrArg CdsaVector.capacity (hoom rfl))
  | some data =>
    obtain ⟨data', hw, hr⟩ := Option.map_eq_some_iff.mp hr
    cases hr
    cases hout
    have hl : data'.length = data.length := writeAt_length hw
    rw [Holds, hl] at hholds
    obtain ⟨k, hk⟩ := G.pow
    have hc : v.capacity * 2 < 2 ^ 64 := by
      -- otherwise the new capacity is 0, and so is the request
      by_contra hc
      rw [hk, ← Nat.pow_succ, Nat.pow_lt_pow_iff_right (by decide)] at hc
      rw [hk, Nat.pow_lt_pow_iff_right (by decide)] at hlt
      obtain rfl : k = 63 := by omega
      have h0 : v.capacity * 2 % 2 ^ 64 = 0 := by omega
      rw [h0, Nat.zero_mul, Nat.zero_mod] at hre
      simp [cdsaReallocTrack] at hre
    rw [Nat.mod_eq_of_lt hc] at hre
    have hholds : v.capacity * 2 % 2 ^ 64 * v.elemSize ≤ data.length := hholds
    rw [Nat.mod_eq_of_lt hc] at hholds
    obtain ⟨hbound, hmeets⟩ := cdsaReallocTrack_some hre
    have hfit : v.capacity * 2 * v.elemSize + 8 < 2 ^ 64 := by omega
    rw [Nat.mod_eq_of_lt (show v.capacity * 2 * v.elemSize < 2 ^ 64 by omega)] at hmeets
    exact hg (hmeets hfit)

/-- The elements after an operation, on lists. -/
def effect (l : List (Elem es)) : Op es → List (Elem es)
  | .push _ e => l ++ [e]
  | .pop => l.dropLast
  | .set i e => l.set i e
  | .get _ => l
  | .clear => []

/-- One operation of a good vector whose growth is met. -/
theorem Good.step (G : Good es v) (L : Lists v l) (op : Op es) (hg : GrowthMet v op) :
    ∃ out v', Vector.step v op = some (out, v') ∧ Good es v' ∧ Lists v' (effect l op) ∧
      out ≠ .status .errOom := by
  cases op with
  | push g e =>
    obtain ⟨v', he, G', L'⟩ := G.push L g e (by rw [← G.elemSize]; exact hg)
    exact ⟨_, v', by rw [Vector.step, he, Option.map_some], G', L', by simp⟩
  | pop =>
    obtain ⟨G', L', hs⟩ := G.pop L
    refine ⟨_, _, rfl, G', L', ?_⟩
    rcases hs with hs | hs <;> simp [hs]
  | set i e =>
    obtain ⟨s, v', he, G', L', hs⟩ := G.set L i e
    refine ⟨_, v', by rw [Vector.step, he, Option.map_some], G', L', ?_⟩
    split at hs <;> simp [hs]
  | get i => exact ⟨_, v, G.get L i, G, L, by simp⟩
  | clear => exact ⟨_, _, rfl, G.clear.1, G.clear.2, by simp⟩

theorem Good.exists_lists (G : Good es v) : ∃ l : List (Elem es), Lists v l := by
  have hcell : ∀ i : Fin v.size, ∃ xs, cellAt v.data es i.1 = some xs := fun i =>
    exists_cellAt (Nat.lt_of_lt_of_le i.2 G.size_le) G.holds
  choose f hf using hcell
  refine ⟨List.ofFn fun i => ⟨f i, cellAt_length (hf i)⟩, by simp, fun i hi => ?_⟩
  rw [List.getElem_ofFn]
  exact hf ⟨i, by simpa using hi⟩

theorem usable_iff (G : Good es v) (op : Op es) : Usable v op ↔ GrowthMet v op := by
  constructor
  · cases op with
    | push g e =>
      intro hu hs
      rw [G.elemSize]
      by_contra hg
      exact push_unmet G e hs hg hu
    | _ => exact fun _ => trivial
  · intro hg
    obtain ⟨l, L⟩ := G.exists_lists
    obtain ⟨out, v', he, G', -, hn⟩ := G.step L op hg
    exact ⟨out, v', he, G'.Holds, fun h => absurd h hn⟩

theorem cdsaCreateVector_spec {self block : Grant}
    (hc : cdsaCreateVector (cdsaMallocTrack self) (cdsaMallocTrack block) es = some (some v)) :
    (Holds v → 4 * es + 8 < 2 ^ 64) ∧
      (4 * es + 8 < 2 ^ 64 → Good es v ∧ Lists v ([] : List (Elem es))) := by
  obtain ⟨r, -, hc⟩ := Option.bind_eq_some_iff.mp hc
  cases r with
  | none => simp at hc
  | some _ =>
    obtain ⟨r, hr, hc⟩ := Option.map_eq_some_iff.mp hc
    obtain ⟨data, rfl, rfl⟩ := Option.map_eq_some_iff.mp hc
    obtain ⟨hb, hlen⟩ := cdsaMallocTrack_bytes hr
    refine ⟨fun (h : 4 * es ≤ data.length) => by omega, fun hs => ?_⟩
    rw [INITIAL_CAPACITY, Nat.mod_eq_of_lt (show 4 * es < 2 ^ 64 by omega)] at hlen
    exact ⟨⟨rfl, Nat.zero_le _, hlen hs, hb, show 4 < 2 ^ 64 by decide, 2, rfl⟩, rfl, fun _ h => by cases h⟩

/-- A run since creation is usable throughout, exactly if the first block does
not wrap and every growth is met. -/
theorem usable_run_iff (self block : Grant) (es : Nat) (v : CdsaVector)
    (hc : cdsaCreateVector (cdsaMallocTrack self) (cdsaMallocTrack block) es = some (some v))
    (ops : List (Op es)) : (Holds v ∧ RunMeets step Usable v ops) ↔
      (4 * es + 8 < 2 ^ 64 ∧ RunMeets step GrowthMet v ops) := by
  obtain ⟨h1, h2⟩ := cdsaCreateVector_spec hc
  have hiff : 4 * es + 8 < 2 ^ 64 →
      (RunMeets step Usable v ops ↔ RunMeets step GrowthMet v ops) := fun hs =>
    runMeets_iff (I := Good es) (fun v op G => usable_iff G op)
      (fun v op o v' G hg h => by
        obtain ⟨l, L⟩ := G.exists_lists
        obtain ⟨out, v1, he, G', -⟩ := G.step L op hg
        rw [he] at h; cases h; exact G') ops v (h2 hs).1
  exact ⟨fun ⟨hh, hr⟩ => ⟨h1 hh, (hiff (h1 hh)).mp hr⟩,
    fun ⟨hs, hr⟩ => ⟨(h2 hs).1.Holds, (hiff hs).mpr hr⟩⟩

/-- Five pushes, the last of which reallocates. -/
theorem usable_run_iff_five : ∃ v : CdsaVector,
    cdsaCreateVector (cdsaMallocTrack .zeros) (cdsaMallocTrack .zeros) 1 = some (some v) ∧
      RunMeets step Usable v (List.replicate 5 (.push .zeros ⟨[7], rfl⟩) : List (Op 1)) := by
  refine ⟨_, rfl, ((usable_run_iff .zeros .zeros 1 _ rfl _).mpr ⟨by decide, ?_⟩).2⟩
  -- only the fifth push finds the vector full
  refine .cons (fun h => absurd h (by decide)) rfl (.cons (fun h => absurd h (by decide)) rfl
    (.cons (fun h => absurd h (by decide)) rfl (.cons (fun h => absurd h (by decide)) rfl
      (.cons (fun _ => ?_) rfl trivial))))
  exact ⟨by decide, by decide, rfl⟩

/-- A full vector of four bytes whose fifth push is refused memory: `capacity`
is 8 over a block of 4 bytes, and the next push writes past its end. -/
theorem refused_push_doubles : ∃ v w : CdsaVector,
    cdsaCreateVector (cdsaMallocTrack .zeros) (cdsaMallocTrack .zeros) 1 = some (some v) ∧
      runOps step v (List.replicate 4 (.push .zeros ⟨[7], rfl⟩) ++ [.push .refuses ⟨[8], rfl⟩] :
        List (Op 1)) = some ([.status .ok, .status .ok, .status .ok, .status .ok, .status .errOom],
          w) ∧
      w.capacity = 8 ∧ w.data.length = 4 ∧ step w (.push .zeros ⟨[9], rfl⟩ : Op 1) = none ∧
      ¬ RunMeets step Usable v (List.replicate 4 (.push .zeros ⟨[7], rfl⟩) ++
        [.push .refuses ⟨[8], rfl⟩] : List (Op 1)) := by
  refine ⟨_, _, rfl, rfl, rfl, rfl, rfl, fun h => ?_⟩
  obtain ⟨out, v', he, -, hoom⟩ := ((((h.2 _ _ rfl).2 _ _ rfl).2 _ _ rfl).2 _ _ rfl).1
  cases he
  exact absurd (congrArg CdsaVector.capacity (hoom rfl)) (by decide)

end Cdsa.Vector
