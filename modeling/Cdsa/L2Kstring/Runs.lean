import Cdsa.Core.LTS
import Cdsa.L2Kstring.Kstring

/-!
# Strings that run out of memory

A run keeps, beside the string, the text it should hold: what was appended with
CDSA_OK since the last clear. `Faithful w op` says that an operation returns
with the string intact and that CDSA_ERR_OOM changes nothing. A run is faithful
throughout if and only if every append that needs more than `capacity` bytes
needs no more than 2^63 and is granted the least power of two that is enough
(`faithful_run_iff`).
-/
namespace Cdsa.Kstring

open Cdsa.Core Cdsa.Raw

inductive Op where
  | append (g : Grant) (text : CStr)
  | clear

/-- The string, and the text it should hold. -/
structure Held where
  str : CdsaKstring
  text : List UInt8
  deriving DecidableEq

def step (w : Held) : Op → Option (Option Status × Held)
  | .append g text =>
    (appendKstring g w.str text).map fun r =>
      (some r.1, ⟨r.2, if r.1 = .ok then w.text ++ text.bytes else w.text⟩)
  | .clear => (cdsaClearKstring w.str).map fun str => (none, ⟨str, []⟩)

/-- The block has room for `capacity` bytes, and holds the text and a NUL. -/
structure Intact (w : Held) : Prop where
  holds : w.str.capacity ≤ w.str.data.length
  room : w.str.size + 1 ≤ w.str.capacity
  nul : w.str.data[w.str.size]? = some 0
  text : w.str.data.take w.str.size = w.text

/-- What every operation is to do. -/
def Faithful (w : Held) (op : Op) : Prop :=
  ∃ out w', step w op = some (out, w') ∧ Intact w' ∧
    (out = some .errOom → w'.str.size = w.str.size ∧ w'.str.capacity = w.str.capacity ∧
      w'.str.data = w.str.data)

/-- The bytes that an append needs. -/
def need (str : CdsaKstring) (text : CStr) : Nat := str.size + text.strlen + 1

/-- An append that needs more than `capacity` can have it. -/
def Supplied (w : Held) : Op → Prop
  | .append g text => w.str.capacity < need w.str text →
    need w.str text ≤ 2 ^ 63 ∧ g.Meets (2 ^ Nat.clog 2 (need w.str text))
  | .clear => True

structure Good (w : Held) : Prop extends Intact w where
  bounded : w.str.data.length + 8 < 2 ^ 64
  pow : ∃ j, w.str.capacity = 2 ^ j

section
variable {w : Held}

theorem Good.pow_lt (G : Good w) {j : Nat} (h : w.str.capacity = 2 ^ j) : j < 64 := by
  have h1 := G.holds
  have h2 := G.bounded
  exact (Nat.pow_lt_pow_iff_right (a := 2) (by decide)).mp (by omega)

/-- The text fits: the copy extends it. -/
theorem Good.copyText (G : Good w) (text : CStr) (h : need w.str text ≤ w.str.capacity) :
    ∃ str, copyText w.str text = some (.ok, str) ∧ Good ⟨str, w.text ++ text.bytes⟩ := by
  have h1 := G.holds
  have h2 := G.bounded
  have hn : need w.str text = w.str.size + text.bytes.length + 1 := rfl
  obtain ⟨d1, hw1⟩ := exists_writeAt w.str.data w.str.size text.bytes (by omega)
  have hl1 := writeAt_length hw1
  obtain ⟨d2, hw2⟩ := exists_writeAt d1 (w.str.size + text.bytes.length) [0]
    (by rw [List.length_singleton]; omega)
  have hl2 := writeAt_length hw2
  have hsize : (w.str.size + text.strlen) % 2 ^ 64 = w.str.size + text.bytes.length :=
    Nat.mod_eq_of_lt (by rw [CStr.strlen]; omega)
  refine ⟨{ w.str with data := d2, size := w.str.size + text.bytes.length }, ?_, ⟨?_, ?_, ?_, ?_⟩,
    ?_, G.pow⟩
  · rw [Kstring.copyText, hw1, Option.bind_some]
    simp only [hsize, hw2, Option.map_some]
  · show w.str.capacity ≤ d2.length
    omega
  · show w.str.size + text.bytes.length + 1 ≤ w.str.capacity
    omega
  · show d2[w.str.size + text.bytes.length]? = some 0
    rw [getElem?_writeAt hw2, if_pos ⟨Nat.le_refl _, by simp⟩, Nat.sub_self]
    rfl
  · show d2.take (w.str.size + text.bytes.length) = w.text ++ text.bytes
    have htext : w.text.length = w.str.size := by
      rw [← G.text, List.length_take]; omega
    refine List.ext_getElem? fun i => ?_
    by_cases hi : i < w.str.size + text.bytes.length
    · rw [List.getElem?_take_of_lt hi, getElem?_writeAt hw2, if_neg (by omega),
        getElem?_writeAt hw1]
      by_cases hs : i < w.str.size
      · rw [if_neg (by omega), List.getElem?_append_left (by omega), ← G.text,
          List.getElem?_take_of_lt hs]
      · rw [if_pos (by omega), List.getElem?_append_right (by omega), htext]
    · rw [List.getElem?_eq_none (by rw [List.length_take]; omega),
        List.getElem?_eq_none (by rw [List.length_append]; omega)]
  · show d2.length + 8 < 2 ^ 64
    omega

/-- An append that can have what it needs extends the text. -/
theorem Good.append (G : Good w) (g : Grant) (text : CStr) (hs : Supplied w (.append g text)) :
    ∃ str, appendKstring g w.str text = some (.ok, str) ∧ Good ⟨str, w.text ++ text.bytes⟩ := by
  have h1 := G.holds
  have h2 := G.bounded
  have hn : w.str.size + text.strlen + 1 = need w.str text := rfl
  by_cases hc : w.str.capacity < need w.str text
  · obtain ⟨h63, hM⟩ := hs hc
    obtain ⟨j, hj⟩ := G.pow
    have hclog : Nat.clog 2 (need w.str text) ≤ 63 :=
      (Nat.clog_le_iff_le_pow (by decide)).mpr h63
    have hjc : j < Nat.clog 2 (need w.str text) :=
      (Nat.lt_clog_iff_pow_lt (by decide)).mpr (hj ▸ hc)
    have hge := Nat.le_pow_clog (b := 2) (by decide) (need w.str text)
    obtain ⟨block, hr, hlen, hb, hag⟩ := cdsaReallocTrack_met hM w.str.data
    have hroom := G.room
    have G' : Good ⟨{ w.str with data := block, capacity := 2 ^ Nat.clog 2 (need w.str text) },
        w.text⟩ := by
      refine ⟨⟨hlen, ?_, ?_, ?_⟩, hb, _, rfl⟩
      · show w.str.size + 1 ≤ 2 ^ _
        omega
      · show block[w.str.size]? = some 0
        rw [hag _ (by omega) (by omega), G.nul]
      · show block.take w.str.size = w.text
        rw [← G.text]
        refine List.ext_getElem? fun i => ?_
        by_cases hi : i < w.str.size
        · rw [List.getElem?_take_of_lt hi, List.getElem?_take_of_lt hi, hag _ (by omega) (by omega)]
        · rw [List.getElem?_eq_none (by rw [List.length_take]; omega),
            List.getElem?_eq_none (by rw [List.length_take]; omega)]
    obtain ⟨str, hcopy, G''⟩ := G'.copyText text hge
    refine ⟨str, ?_, G''⟩
    have hmod : (w.str.size + text.strlen + 1) % 2 ^ 64 = need w.str text :=
      Nat.mod_eq_of_lt (by omega)
    rw [appendKstring, hmod, if_pos hc, hj, growCapacity_eq h63 65 (by omega) (by omega),
      Option.bind_some, hr, Option.bind_some]
    exact hcopy
  · obtain ⟨str, hcopy, G'⟩ := G.copyText text (Nat.not_lt.mp hc)
    refine ⟨str, ?_, G'⟩
    have hmod : (w.str.size + text.strlen + 1) % 2 ^ 64 = need w.str text :=
      Nat.mod_eq_of_lt (by omega)
    rw [appendKstring, hmod, if_neg hc, hcopy]

theorem Good.clear (G : Good w) :
    ∃ str, cdsaClearKstring w.str = some str ∧ Good ⟨str, []⟩ := by
  have h1 := G.holds
  have hroom := G.room
  obtain ⟨d, hw⟩ := exists_writeAt w.str.data 0 [0] (by rw [List.length_singleton]; omega)
  have hl := writeAt_length hw
  refine ⟨{ w.str with data := d, size := 0 }, by rw [cdsaClearKstring, hw, Option.map_some],
    ⟨?_, ?_, ?_, ?_⟩, ?_, G.pow⟩
  · show w.str.capacity ≤ d.length
    omega
  · show 0 + 1 ≤ w.str.capacity
    omega
  · show d[0]? = some 0
    rw [getElem?_writeAt hw, if_pos ⟨Nat.le_refl _, by simp⟩]
    rfl
  · rfl
  · show d.length + 8 < 2 ^ 64
    have := G.bounded
    omega

theorem copyText_fits {str str' : CdsaKstring} {text : CStr} {r : Status}
    (hb : str.data.length + 8 < 2 ^ 64) (h : copyText str text = some (r, str')) :
    need str text ≤ str.data.length := by
  obtain ⟨d, hw, h⟩ := Option.bind_eq_some_iff.mp h
  obtain ⟨d', hw', -⟩ := Option.map_eq_some_iff.mp h
  have h1 : str.size + text.strlen ≤ str.data.length := writeAt_fits hw
  have h2 := writeAt_fits hw'
  rwa [writeAt_length hw, Nat.mod_eq_of_lt (by omega)] at h2

/-- An append that cannot have what it needs never ends, leaves the block, or
fails with `capacity` doubled. -/
theorem append_unmet (G : Good w) {g : Grant} {text : CStr}
    (hs : ¬ Supplied w (.append g text)) : ¬ Faithful w (.append g text) := by
  rintro ⟨out, w', hstep, -, hoom⟩
  obtain ⟨hc, hs⟩ := Classical.not_imp.mp hs
  have hn : w.str.size + text.strlen + 1 = need w.str text := rfl
  obtain ⟨⟨s, str'⟩, hr, hout⟩ := Option.map_eq_some_iff.mp hstep
  rw [appendKstring, hn] at hr
  split at hr
  · next hreq =>
    obtain ⟨capacity, hgrow, hr⟩ := Option.bind_eq_some_iff.mp hr
    obtain ⟨⟨answer, old⟩, hre, hr⟩ := Option.bind_eq_some_iff.mp hr
    cases answer with
    | none =>
      cases hr
      cases hout
      have hge := growCapacity_ge hgrow
      have : capacity = w.str.capacity := (hoom rfl).2.1
      omega
    | some block =>
      obtain ⟨hb, hmeets⟩ := cdsaReallocTrack_some hre
      have hfit : need w.str text ≤ block.length := copyText_fits hb hr
      obtain ⟨j, hj⟩ := G.pow
      rw [Nat.mod_eq_of_lt (by omega), hj] at hgrow
      by_cases h63 : need w.str text ≤ 2 ^ 63
      · have hclog : Nat.clog 2 (need w.str text) ≤ 63 :=
          (Nat.clog_le_iff_le_pow (by decide)).mpr h63
        have hjc : j < Nat.clog 2 (need w.str text) :=
          (Nat.lt_clog_iff_pow_lt (by decide)).mpr (hj ▸ hc)
        rw [growCapacity_eq h63 65 (by omega) (by omega)] at hgrow
        cases hgrow
        have := Nat.pow_le_pow_right (n := 2) (by decide) hclog
        exact hs ⟨h63, hmeets (by omega)⟩
      · rw [growCapacity_stuck (Nat.not_le.mp h63) 65 j (G.pow_lt hj)] at hgrow
        cases hgrow
  · next hreq =>
    have hfit : need w.str text ≤ w.str.data.length := copyText_fits G.bounded hr
    have := G.bounded
    rw [Nat.mod_eq_of_lt (by omega)] at hreq
    omega

theorem Good.step (G : Good w) {op : Op} (hs : Supplied w op) :
    ∃ out w', Kstring.step w op = some (out, w') ∧ Good w' ∧ out ≠ some .errOom := by
  cases op with
  | append g text =>
    obtain ⟨str, he, G'⟩ := G.append g text hs
    exact ⟨_, _, by rw [Kstring.step, he, Option.map_some]; rfl, G', by simp⟩
  | clear =>
    obtain ⟨str, he, G'⟩ := G.clear
    exact ⟨_, _, by rw [Kstring.step, he, Option.map_some], G', by simp⟩

theorem faithful_iff (G : Good w) (op : Op) : Faithful w op ↔ Supplied w op := by
  constructor
  · cases op with
    | append g text =>
      intro hf
      by_contra hs
      exact append_unmet G hs hf
    | clear => exact fun _ => trivial
  · intro hs
    obtain ⟨out, w', he, G', hn⟩ := G.step hs
    exact ⟨out, w', he, G'.toIntact, fun h => absurd h hn⟩

end

/-! ## Runs -/

theorem cdsaCreateKstring_good {self block : Grant} {str : CdsaKstring}
    (hc : cdsaCreateKstring (cdsaMallocTrack self) (cdsaMallocTrack block) = some (some str)) :
    Good ⟨str, []⟩ := by
  obtain ⟨r, -, hc⟩ := Option.bind_eq_some_iff.mp hc
  cases r with
  | none => simp at hc
  | some _ =>
    obtain ⟨r, hr, hc⟩ := Option.bind_eq_some_iff.mp hc
    cases r with
    | none => simp at hc
    | some data =>
      obtain ⟨d, hw, hc⟩ := Option.map_eq_some_iff.mp hc
      cases hc
      obtain ⟨hb, hlen⟩ := cdsaMallocTrack_bytes hr
      have hlen : 16 ≤ data.length := hlen (by decide)
      have hl := writeAt_length hw
      refine ⟨⟨?_, show 0 + 1 ≤ 16 by decide, ?_, rfl⟩, ?_, 4, rfl⟩
      · show 16 ≤ d.length
        omega
      · show d[0]? = some 0
        rw [getElem?_writeAt hw, if_pos ⟨Nat.le_refl _, by simp⟩]
        rfl
      · show d.length + 8 < 2 ^ 64
        omega

/-- A run since creation is faithful throughout, exactly if every append is
supplied. -/
theorem faithful_run_iff (self block : Grant) (str : CdsaKstring)
    (hc : cdsaCreateKstring (cdsaMallocTrack self) (cdsaMallocTrack block) = some (some str))
    (ops : List Op) : (Intact ⟨str, []⟩ ∧ RunMeets step Faithful ⟨str, []⟩ ops) ↔
      RunMeets step Supplied ⟨str, []⟩ ops := by
  have G := cdsaCreateKstring_good hc
  refine (and_iff_right G.toIntact).trans
    (runMeets_iff (I := Good) (fun w op G => faithful_iff G op) (fun w op o w' G hs h => ?_) ops _ G)
  obtain ⟨out, w1, he, G', -⟩ := G.step hs
  rw [he] at h; cases h; exact G'

/-- Two texts, the second of which reallocates, and a clear. -/
theorem faithful_run_iff_two : ∃ str : CdsaKstring,
    cdsaCreateKstring (cdsaMallocTrack .zeros) (cdsaMallocTrack .zeros) = some (some str) ∧
      RunMeets step Faithful ⟨str, []⟩ [.append .zeros ⟨List.replicate 10 97, by decide⟩,
        .append .zeros ⟨List.replicate 10 98, by decide⟩, .clear] := by
  refine ⟨_, rfl, ((faithful_run_iff .zeros .zeros _ rfl _).mpr ?_).2⟩
  refine .cons (fun h => absurd h (by decide)) rfl (.cons (fun _ => ⟨by decide, ?_⟩) rfl
    (.cons trivial rfl trivial))
  have h32 : Nat.clog 2 21 = 5 := Nat.le_antisymm ((Nat.clog_le_iff_le_pow (by decide)).mpr (by decide))
    ((Nat.lt_clog_iff_pow_lt (by decide)).mpr (by decide))
  show Grant.zeros.Meets (2 ^ Nat.clog 2 21)
  rw [h32]
  exact ⟨by decide, by decide, rfl⟩

/-- A text of 20 bytes is refused memory: `capacity` is 32 over a block of 16
bytes, and the same append once more writes past its end. -/
theorem refused_append_doubles : ∃ str w : _,
    cdsaCreateKstring (cdsaMallocTrack .zeros) (cdsaMallocTrack .zeros) = some (some str) ∧
      step ⟨str, []⟩ (.append .refuses ⟨List.replicate 20 97, by decide⟩) =
        some (some .errOom, w) ∧
      w.str.capacity = 32 ∧ w.str.data.length = 16 ∧
      step w (.append .zeros ⟨List.replicate 20 97, by decide⟩) = none ∧
      ¬ RunMeets step Faithful ⟨str, []⟩ [.append .refuses ⟨List.replicate 20 97, by decide⟩] := by
  refine ⟨_, _, rfl, rfl, rfl, rfl, rfl, fun h => ?_⟩
  obtain ⟨out, w', he, -, hoom⟩ := h.1
  cases he
  exact absurd (hoom rfl).2.1 (by decide)

end Cdsa.Kstring
