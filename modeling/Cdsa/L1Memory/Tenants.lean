import Cdsa.Core.LTS
import Cdsa.L1Memory.Tracked

/-!
# Many owners of one heap

A `Tenant` is a kind of component that gets its memory from the tracked
allocator: how one is made, worked with and released, and which blocks it holds.
Each of its laws is about any other live blocks `bs` next to its own, so any
number of tenants of any kinds may share the heap. `sessions` is every
interleaving of what can be done with them, and `Lodged` what holds throughout:
the live blocks are those the tenants hold, and those that were there before.

`Tenant.boxed` puts a tenant behind a structure of its own, which is allocated
first and freed last.
-/
namespace Cdsa.Memory

open Cdsa.Core

/-- A reallocation that is granted moves the block: a name is used once.
mirrors src/allocator.c:40-61 -/
def cdsaReallocTrack (m : Mem) : Option Ptr → Nat → Option (Option Ptr × Mem)
  | none, newSize => some (cdsaMallocTrack m newSize)
  | some p, newSize =>
    if newSize = 0 then (cdsaFreeTrack m (some p)).map fun m => (none, m)
    else (m.blocks.lookup p).map fun oldSize =>
      if m.answers m.asked then
        (some m.asked, { m with
          used := m.used - UInt64.ofNat oldSize + UInt64.ofNat newSize
          blocks := (m.asked, newSize) :: del p m.blocks
          asked := m.asked + 1 })
      else (none, { m with asked := m.asked + 1 })

namespace Owns
variable {base : UInt64} {bs : List (Ptr × Nat)} {m : Mem}

/-- What the allocation of a block can come to. -/
theorem malloc (O : Owns base bs m) (size : Nat) :
    (∃ m', cdsaMallocTrack m size = (none, m') ∧ m.answers m.asked = false ∧ Owns base bs m') ∨
      ∃ p m', cdsaMallocTrack m size = (some p, m') ∧ m.answers m.asked = true ∧
        Owns base ((p, size) :: bs) m' := by
  cases ha : m.answers m.asked with
  | false =>
    obtain ⟨m', he, O', -, -⟩ := O.alloc_fail ha size
    exact Or.inl ⟨m', he, rfl, O'⟩
  | true =>
    obtain ⟨m', he, O', -, -⟩ := O.alloc ha size
    exact Or.inr ⟨_, m', he, rfl, O'⟩

/-- A granted reallocation swaps the block for one of the new size. -/
theorem realloc {p : Ptr} {size newSize : Nat} (O : Owns base ((p, size) :: bs) m)
    (ha : m.answers m.asked = true) (h0 : newSize ≠ 0) :
    ∃ q m', cdsaReallocTrack m (some p) newSize = some (some q, m') ∧
      Owns base ((q, newSize) :: bs) m' := by
  have hm : (p, size) ∈ m.blocks := O.perm.mem_iff.mpr List.mem_cons_self
  obtain ⟨m1, e1, O1, a1, n1⟩ := O.free
  obtain ⟨m2, e2, O2, -, -⟩ := O1.alloc (by rw [a1, n1]; exact ha) newSize
  rw [cdsaFreeTrack_live (lookup_of_mem O.distinct hm)] at e1
  cases e1
  rw [cdsaMallocTrack_ok (by exact ha)] at e2
  cases e2
  refine ⟨m.asked, _, ?_, O2⟩
  rw [cdsaReallocTrack, if_neg h0, lookup_of_mem O.distinct hm, Option.map_some, if_pos ha]

end Owns

/-- A kind of component over the tracked allocator. `Creates`, `Meets` and
`Closes` are what a creation, an operation and the release ask for. -/
structure Tenant where
  State : Type
  Arg : Type
  Op : Type
  create : Arg → Mem → Option (Option State × Mem)
  step : Op → State → Mem → Option (State × Mem)
  free : State → Mem → Option Mem
  Creates : Arg → Mem → Prop
  Meets : Op → State → Mem → Prop
  Closes : State → Prop
  /-- the blocks it holds -/
  Holds : State → List (Ptr × Nat) → Prop
  created : ∀ {base bs m a}, Owns base bs m → Creates a m →
    (∃ m', create a m = some (none, m') ∧ Owns base bs m') ∨
      ∃ s m' l, create a m = some (some s, m') ∧ Holds s l ∧ Owns base (l ++ bs) m'
  stepped : ∀ {base bs m s l op}, Holds s l → Owns base (l ++ bs) m → Meets op s m →
    ∃ s' m' l', step op s m = some (s', m') ∧ Holds s' l' ∧ Owns base (l' ++ bs) m'
  freed : ∀ {base bs m s l}, Holds s l → Owns base (l ++ bs) m → Closes s →
    ∃ m', free s m = some m' ∧ Owns base bs m'

/-- A tenant behind a structure of `size` bytes. If the tenant cannot be made,
the structure is given back. -/
def Tenant.boxed (size : Nat) (T : Tenant) : Tenant where
  State := Ptr × T.State
  Arg := T.Arg
  Op := T.Op
  create a m :=
    match cdsaMallocTrack m size with
    | (none, m) => some (none, m)
    | (some self, m) => (T.create a m).bind fun r =>
      match r.1 with
      | none => (cdsaFreeTrack r.2 (some self)).map fun m => (none, m)
      | some s => some (some (self, s), r.2)
  step op s m := (T.step op s.2 m).map fun r => ((s.1, r.1), r.2)
  free s m := (T.free s.2 m).bind fun m => cdsaFreeTrack m (some s.1)
  Creates a m := T.Creates a (cdsaMallocTrack m size).2
  Meets op s m := T.Meets op s.2 m
  Closes s := T.Closes s.2
  Holds s l := ∃ l', l = l' ++ [(s.1, size)] ∧ T.Holds s.2 l'
  created {base bs m a} O hc := by
    rcases O.malloc size with ⟨m1, e1, -, O1⟩ | ⟨self, m1, e1, -, O1⟩
    · exact Or.inl ⟨m1, by simp only [e1], O1⟩
    · rw [e1] at hc
      rcases T.created O1 hc with ⟨m2, e2, O2⟩ | ⟨s, m2, l, e2, H, O2⟩
      · obtain ⟨m3, e3, O3, -, -⟩ := O2.free
        exact Or.inl ⟨m3, by simp only [e1, e2, Option.bind_some, e3, Option.map_some], O3⟩
      · refine Or.inr ⟨(self, s), m2, l ++ [(self, size)], ?_, ⟨l, rfl, H⟩, ?_⟩
        · simp only [e1, e2, Option.bind_some]
        · rw [List.append_assoc]
          exact O2
  stepped {base bs m s l op} H O hm := by
    obtain ⟨l, rfl, H⟩ := H
    rw [List.append_assoc] at O
    obtain ⟨s', m', l', e, H', O'⟩ := T.stepped H O hm
    refine ⟨(s.1, s'), m', l' ++ [(s.1, size)], by rw [e, Option.map_some], ⟨l', rfl, H'⟩, ?_⟩
    rw [List.append_assoc]
    exact O'
  freed {base bs m s l} H O hc := by
    obtain ⟨l, rfl, H⟩ := H
    rw [List.append_assoc] at O
    obtain ⟨m1, e1, O1⟩ := T.freed H O hc
    obtain ⟨m2, e2, O2, -, -⟩ := O1.free
    exact ⟨m2, by rw [e1, Option.bind_some, e2], O2⟩

/-! ## Sessions -/

section
variable {K : Type} (T : K → Tenant)

/-- The heap, and who lives in it. -/
structure World where
  mem : Mem
  live : List (Σ k, (T k).State)

/-- Something is made, worked with or released. -/
inductive World.Step : World T → K → World T → Prop
  | create {k : K} {a : (T k).Arg} {m m' : Mem} {o : Option (T k).State}
    {live : List (Σ k, (T k).State)} : (T k).Creates a m → (T k).create a m = some (o, m') →
    World.Step ⟨m, live⟩ k ⟨m', (o.map (Sigma.mk k)).toList ++ live⟩
  | act {k : K} {op : (T k).Op} {m m' : Mem} {s s' : (T k).State}
    {before after : List (Σ k, (T k).State)} : (T k).Meets op s m →
    (T k).step op s m = some (s', m') →
    World.Step ⟨m, before ++ ⟨k, s⟩ :: after⟩ k ⟨m', before ++ ⟨k, s'⟩ :: after⟩
  | free {k : K} {m m' : Mem} {s : (T k).State} {before after : List (Σ k, (T k).State)} :
    (T k).Closes s → (T k).free s m = some m' →
    World.Step ⟨m, before ++ ⟨k, s⟩ :: after⟩ k ⟨m', before ++ after⟩

/-- All that can happen from the heap `m` on. -/
def sessions (m : Mem) : LTS (World T) K where
  init w := w = ⟨m, []⟩
  step := World.Step T

/-- Releasing one after the other. -/
def teardown (live : List (Σ k, (T k).State)) (m : Mem) : Option Mem :=
  live.foldlM (fun m x => (T x.1).free x.2 m) m

/-- What tenants hold together. -/
inductive Shares : List (Σ k, (T k).State) → List (Ptr × Nat) → Prop
  | nil : Shares [] []
  | cons {k : K} {s : (T k).State} {l ls : List (Ptr × Nat)} {live : List (Σ k, (T k).State)} :
    (T k).Holds s l → Shares live ls → Shares (⟨k, s⟩ :: live) (l ++ ls)

/-- Everyone holds blocks of their own, and nothing else has been allocated. -/
def Lodged (base : UInt64) (bs : List (Ptr × Nat)) (w : World T) : Prop :=
  ∃ held, Shares T w.live held ∧ Owns base (held ++ bs) w.mem

/-- Whatever is asked for as it should be returns. -/
structure World.Answers (w : World T) : Prop where
  create : ∀ k a, (T k).Creates a w.mem → ((T k).create a w.mem).isSome
  act : ∀ k s op, ⟨k, s⟩ ∈ w.live → (T k).Meets op s w.mem → ((T k).step op s w.mem).isSome
  free : ∀ k s, ⟨k, s⟩ ∈ w.live → (T k).Closes s → ((T k).free s w.mem).isSome

end

section
variable {K : Type} {T : K → Tenant} {base : UInt64} {bs : List (Ptr × Nat)} {w w' : World T}

/-- One tenant among the others, which may come to hold something else, or
leave. -/
theorem Shares.pick {k : K} {s : (T k).State} {after : List (Σ k, (T k).State)} :
    ∀ {before : List (Σ k, (T k).State)} {held : List (Ptr × Nat)},
      Shares T (before ++ ⟨k, s⟩ :: after) held →
      ∃ l rest, (T k).Holds s l ∧ held.Perm (l ++ rest) ∧ Shares T (before ++ after) rest ∧
        ∀ s' l', (T k).Holds s' l' →
          ∃ held', Shares T (before ++ ⟨k, s'⟩ :: after) held' ∧ held'.Perm (l' ++ rest)
  | [], _, @Shares.cons _ _ _ _ l ls _ H S =>
    ⟨l, ls, H, .refl _, S, fun s' l' H' => ⟨l' ++ ls, .cons H' S, .refl _⟩⟩
  | x :: before, _, @Shares.cons _ _ _ _ l1 held _ H1 S => by
    obtain ⟨l, rest, H, hp, Srest, hswap⟩ := Shares.pick S
    refine ⟨l, l1 ++ rest, H, ?_, .cons H1 Srest, fun s' l' H' => ?_⟩
    · exact (hp.append_left l1).trans (List.perm_append_comm_assoc _ _ _)
    · obtain ⟨held', S', hp'⟩ := hswap s' l' H'
      exact ⟨l1 ++ held', .cons H1 S', (hp'.append_left l1).trans (List.perm_append_comm_assoc _ _ _)⟩

theorem Lodged.create {k : K} {a : (T k).Arg} (h : Lodged T base bs w) (hc : (T k).Creates a w.mem) :
    ∃ o m', (T k).create a w.mem = some (o, m') ∧
      Lodged T base bs ⟨m', (o.map (Sigma.mk k)).toList ++ w.live⟩ := by
  obtain ⟨held, S, O⟩ := h
  rcases (T k).created O hc with ⟨m', e, O'⟩ | ⟨s, m', l, e, H, O'⟩
  · exact ⟨none, m', e, held, S, O'⟩
  · refine ⟨some s, m', e, l ++ held, .cons H S, ?_⟩
    rw [List.append_assoc]
    exact O'

section
variable {m : Mem} {k : K} {s : (T k).State} {before after : List (Σ k, (T k).State)}

theorem Lodged.act (h : Lodged T base bs ⟨m, before ++ ⟨k, s⟩ :: after⟩) {op : (T k).Op}
    (hm : (T k).Meets op s m) : ∃ s' m', (T k).step op s m = some (s', m') ∧
      Lodged T base bs ⟨m', before ++ ⟨k, s'⟩ :: after⟩ := by
  obtain ⟨held, S, O⟩ := h
  obtain ⟨l, rest, H, hp, -, hswap⟩ := S.pick
  have O1 : Owns base (l ++ (rest ++ bs)) m := by
    rw [← List.append_assoc]
    exact O.of_perm (hp.append_right bs)
  obtain ⟨s', m', l', e, H', O'⟩ := (T k).stepped H O1 hm
  obtain ⟨held', S', hp'⟩ := hswap s' l' H'
  rw [← List.append_assoc] at O'
  exact ⟨s', m', e, held', S', O'.of_perm (hp'.symm.append_right bs)⟩

theorem Lodged.free (h : Lodged T base bs ⟨m, before ++ ⟨k, s⟩ :: after⟩) (hc : (T k).Closes s) :
    ∃ m', (T k).free s m = some m' ∧ Lodged T base bs ⟨m', before ++ after⟩ := by
  obtain ⟨held, S, O⟩ := h
  obtain ⟨l, rest, H, hp, Srest, -⟩ := S.pick
  have O1 : Owns base (l ++ (rest ++ bs)) m := by
    rw [← List.append_assoc]
    exact O.of_perm (hp.append_right bs)
  obtain ⟨m', e, O'⟩ := (T k).freed H O1 hc
  exact ⟨m', e, rest, Srest, O'⟩

end

/-- Whatever happens next, everyone is lodged. -/
theorem Lodged.step {k : K} (h : Lodged T base bs w) (hs : World.Step T w k w') :
    Lodged T base bs w' := by
  cases hs with
  | create hc e =>
    obtain ⟨o, m', e', h'⟩ := h.create hc
    rw [e] at e'
    cases e'
    exact h'
  | act hm e =>
    obtain ⟨s', m', e', h'⟩ := h.act hm
    rw [e] at e'
    cases e'
    exact h'
  | free hc e =>
    obtain ⟨m', e', h'⟩ := h.free hc
    rw [e] at e'
    cases e'
    exact h'

theorem Lodged.inductive {m : Mem} (O : Owns base bs m) :
    (sessions T m).Inductive (Lodged T base bs) where
  init w hw := by
    obtain rfl : w = ⟨m, []⟩ := hw
    exact ⟨[], .nil, O⟩
  step _ _ _ h hs := h.step hs

theorem Lodged.of_mem (h : Lodged T base bs w) {k : K} {s : (T k).State} (hs : ⟨k, s⟩ ∈ w.live) :
    ∃ before after, Lodged T base bs ⟨w.mem, before ++ ⟨k, s⟩ :: after⟩ := by
  obtain ⟨before, after, hl⟩ := List.append_of_mem hs
  refine ⟨before, after, ?_⟩
  rw [← hl]
  exact h

theorem Lodged.answers (h : Lodged T base bs w) : w.Answers where
  create k a hc := by
    obtain ⟨o, m', e, -⟩ := h.create hc
    rw [e]
    rfl
  act k s op hs hm := by
    obtain ⟨before, after, h'⟩ := h.of_mem hs
    obtain ⟨s', m', e, -⟩ := h'.act hm
    rw [e]
    rfl
  free k s hs hc := by
    obtain ⟨before, after, h'⟩ := h.of_mem hs
    obtain ⟨m', e, -⟩ := h'.free hc
    rw [e]
    rfl

/-- Who holds what does not depend on the order. -/
theorem Shares.perm {live live' : List (Σ k, (T k).State)} (hp : live.Perm live') :
    ∀ {held : List (Ptr × Nat)}, Shares T live held → ∃ held', Shares T live' held' ∧
      held.Perm held' := by
  induction hp with
  | nil => exact fun S => ⟨_, S, .refl _⟩
  | cons x _ ih =>
    intro held S
    cases S with
    | cons H S =>
      obtain ⟨held', S', hp'⟩ := ih S
      exact ⟨_, .cons H S', hp'.append_left _⟩
  | swap x y l =>
    intro held S
    cases S with
    | cons H S =>
      cases S with
      | cons H' S => exact ⟨_, .cons H' (.cons H S), List.perm_append_comm_assoc _ _ _⟩
  | trans _ _ ih ih' =>
    intro held S
    obtain ⟨held1, S1, hp1⟩ := ih S
    obtain ⟨held2, S2, hp2⟩ := ih' S1
    exact ⟨held2, S2, hp1.trans hp2⟩

/-- Releasing everyone returns, and leaves what was there before them. -/
theorem Shares.teardown : ∀ {live : List (Σ k, (T k).State)} {held : List (Ptr × Nat)} {m : Mem},
    Shares T live held → Owns base (held ++ bs) m → (∀ x ∈ live, (T x.1).Closes x.2) →
    ∃ m', Memory.teardown T live m = some m' ∧ Owns base bs m'
  | [], _, m, .nil, O, _ => ⟨m, rfl, O⟩
  | x :: live, _, m, .cons H S, O, hc => by
    rw [List.append_assoc] at O
    obtain ⟨m1, e1, O1⟩ := (T x.1).freed H O (hc x List.mem_cons_self)
    obtain ⟨m2, e2, O2⟩ := S.teardown O1 fun y hy => hc y (List.mem_cons_of_mem x hy)
    refine ⟨m2, ?_, O2⟩
    rw [Memory.teardown, List.foldlM_cons, e1]
    exact e2

/-- Whatever the order in which the live ones are released, the heap is then as
it was. -/
theorem Lodged.teardown {m : Mem} (O : Owns base bs m) (h : Lodged T base bs w)
    {order : List (Σ k, (T k).State)} (hp : order.Perm w.live)
    (hc : ∀ x ∈ order, (T x.1).Closes x.2) :
    ∃ m', Memory.teardown T order w.mem = some m' ∧ m'.used = m.used ∧
      m'.blocks.Perm m.blocks := by
  obtain ⟨held, S, O1⟩ := h
  obtain ⟨held', S', hheld⟩ := S.perm hp.symm
  obtain ⟨m', e, O'⟩ := S'.teardown (O1.of_perm (hheld.append_right bs)) hc
  exact ⟨m', e, O.same O'⟩

end

end Cdsa.Memory
