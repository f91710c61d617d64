import Cdsa.Core.Amortised
import Cdsa.L2Kstring.Runs

/-!
# What reallocation costs a string over a run

An append that does not fit reallocates, which may move the block of
`capacity` bytes, and leaves the least power of two that is enough. Over a run
whose appends are supplied at most two bytes are moved for each byte appended
(`appends_amortised`), however long the texts are and however often the string
is cleared.
-/
namespace Cdsa.Kstring

open Cdsa.Core Cdsa.Raw

/-- The bytes in the block that an operation reallocates. -/
def moved (w : Held) : Op → Nat
  | .append _ text => if w.str.capacity < need w.str text then w.str.capacity else 0
  | .clear => 0

/-- The bytes an operation appends. -/
def appended : Op → Nat
  | .append _ text => text.strlen
  | .clear => 0

/-- How far the size is beyond half of the capacity, twice. -/
def potential (w : Held) : Nat := 2 * w.str.size - w.str.capacity

theorem copyText_size {str str' : CdsaKstring} {text : CStr} {s : Status}
    (h : copyText str text = some (s, str')) :
    str'.size ≤ str.size + text.strlen ∧ str'.capacity = str.capacity := by
  obtain ⟨d, -, h⟩ := Option.bind_eq_some_iff.mp h
  obtain ⟨d', -, h⟩ := Option.map_eq_some_iff.mp h
  cases h
  exact ⟨Nat.mod_le _ _, rfl⟩

/-- The space that a supplied append asks for does not wrap. -/
theorem Good.required_eq {w : Held} (G : Good w) {g : Grant} {text : CStr}
    (hs : Supplied w (.append g text)) :
    (w.str.size + text.strlen + 1) % 2 ^ 64 = need w.str text := by
  have h1 := G.holds
  have h2 := G.bounded
  have hn : w.str.size + text.strlen + 1 = need w.str text := rfl
  have h63 : w.str.capacity < need w.str text → need w.str text ≤ 2 ^ 63 := fun hc => (hs hc).1
  rw [hn]
  exact Nat.mod_eq_of_lt (by omega)

/-- Where the doubling of the capacity stops. -/
theorem Good.grown {w : Held} (G : Good w) {g : Grant} {text : CStr}
    (hs : Supplied w (.append g text)) (hc : w.str.capacity < need w.str text) :
    growCapacity 65 w.str.capacity (need w.str text) = some (2 ^ Nat.clog 2 (need w.str text)) := by
  obtain ⟨j, hj⟩ := G.pow
  have hclog : Nat.clog 2 (need w.str text) ≤ 63 :=
    (Nat.clog_le_iff_le_pow Nat.one_lt_two).mpr (hs hc).1
  have hjc : j < Nat.clog 2 (need w.str text) :=
    (Nat.lt_clog_iff_pow_lt Nat.one_lt_two).mpr (hj ▸ hc)
  rw [hj]
  exact growCapacity_eq (hs hc).1 65 (by omega) (by omega)

/-- An append that succeeds leaves the capacity alone, or makes it the least
power of two that is enough. -/
theorem append_size {w : Held} (G : Good w) {g : Grant} {text : CStr} {str : CdsaKstring}
    (hs : Supplied w (.append g text)) (h : appendKstring g w.str text = some (.ok, str)) :
    str.size ≤ w.str.size + text.strlen ∧
      str.capacity = if w.str.capacity < need w.str text then 2 ^ Nat.clog 2 (need w.str text)
        else w.str.capacity := by
  have h1 := G.holds
  have h2 := G.bounded
  have hn : w.str.size + text.strlen + 1 = need w.str text := rfl
  by_cases hc : w.str.capacity < need w.str text
  · obtain ⟨h63, -⟩ := hs hc
    rw [appendKstring, G.required_eq hs, if_pos hc, G.grown hs hc, Option.bind_some] at h
    obtain ⟨⟨answer, old⟩, -, h⟩ := Option.bind_eq_some_iff.mp h
    cases answer with
    | none => cases h
    | some data =>
      rw [if_pos hc]
      exact copyText_size h
  · rw [appendKstring, G.required_eq hs, if_neg hc] at h
    rw [if_neg hc]
    exact copyText_size h

/-- That power of two is at least twice the capacity. -/
theorem Good.doubles {w : Held} (G : Good w) {text : CStr} (hc : w.str.capacity < need w.str text) :
    2 * w.str.capacity ≤ 2 ^ Nat.clog 2 (need w.str text) ∧
      need w.str text ≤ 2 ^ Nat.clog 2 (need w.str text) := by
  obtain ⟨j, hj⟩ := G.pow
  have hjc : j < Nat.clog 2 (need w.str text) :=
    (Nat.lt_clog_iff_pow_lt Nat.one_lt_two).mpr (hj ▸ hc)
  have hdouble := Nat.pow_le_pow_right Nat.two_pos hjc
  rw [Nat.pow_succ] at hdouble
  exact ⟨by omega, Nat.le_pow_clog Nat.one_lt_two _⟩

/-- An operation pays for what it moves and for the rise of the potential. -/
theorem Good.pays {w : Held} (G : Good w) (op : Op) (hs : Supplied w op) :
    ∃ out w', Kstring.step w op = some (out, w') ∧ Good w' ∧
      moved w op + potential w' ≤ potential w + 2 * appended op := by
  have hroom := G.room
  cases op with
  | append g text =>
    obtain ⟨str, he, G'⟩ := G.append g text hs
    refine ⟨_, _, by rw [Kstring.step, he, Option.map_some]; rfl, G', ?_⟩
    obtain ⟨hsize, hcap⟩ := append_size G hs he
    have hn : need w.str text = w.str.size + text.strlen + 1 := rfl
    simp only [moved, potential, appended]
    split at hcap
    · next hlt =>
      have hdoubles := G.doubles hlt
      rw [if_pos hlt]
      omega
    · next hlt =>
      rw [if_neg hlt]
      omega
  | clear =>
    obtain ⟨str, he, G'⟩ := G.clear
    refine ⟨_, _, by rw [Kstring.step, he, Option.map_some], G', ?_⟩
    obtain ⟨d, -, hstr⟩ := Option.map_eq_some_iff.mp he
    subst hstr
    simp [moved, potential]

/-- A run from creation whose appends are supplied moves at most two bytes for
each byte appended. -/
theorem appends_amortised (self block : Grant) (str : CdsaKstring) (ops : List Op)
    (hc : cdsaCreateKstring (cdsaMallocTrack self) (cdsaMallocTrack block) = some (some str))
    (hrun : RunMeets step Supplied ⟨str, []⟩ ops) :
    totalCost step moved ⟨str, []⟩ ops ≤ (ops.map fun op => 2 * appended op).sum := by
  have G := cdsaCreateKstring_good hc
  have hle : totalCost step moved ⟨str, []⟩ ops ≤
      potential ⟨str, []⟩ + (ops.map fun op => 2 * appended op).sum :=
    totalCost_le (fun w op G hs => G.pays op hs) ops _ G hrun
  have hzero : potential ⟨str, []⟩ = 0 := by
    have htext := congrArg List.length G.text
    have hholds := G.holds
    have hroom := G.room
    rw [List.length_take, List.length_nil] at htext
    simp only [potential] at *
    omega
  omega

/-- Two texts of ten bytes, the second of which moves a block of 16. -/
theorem appends_amortised_two : ∃ str : CdsaKstring,
    cdsaCreateKstring (cdsaMallocTrack .zeros) (cdsaMallocTrack .zeros) = some (some str) ∧
      totalCost step moved ⟨str, []⟩ [.append .zeros ⟨List.replicate 10 97, by decide⟩,
        .append .zeros ⟨List.replicate 10 98, by decide⟩] ≤ 40 := by
  refine ⟨_, rfl, appends_amortised .zeros .zeros _ _ rfl ?_⟩
  refine .cons (fun h => absurd h (by decide)) rfl (.cons (fun _ => ⟨by decide, ?_⟩) rfl trivial)
  have h32 : Nat.clog 2 21 = 5 := Nat.le_antisymm ((Nat.clog_le_iff_le_pow (by decide)).mpr (by decide))
    ((Nat.lt_clog_iff_pow_lt (by decide)).mpr (by decide))
  show Grant.zeros.Meets (2 ^ Nat.clog 2 21)
  rw [h32]
  exact ⟨by decide, by decide, rfl⟩

end Cdsa.Kstring
