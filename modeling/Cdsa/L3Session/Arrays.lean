import Cdsa.L1Memory.Bytes
import Cdsa.L1Memory.Tenants
import Cdsa.L2Hashmap.Runs
import Cdsa.L2Kstring.Growth
import Cdsa.L2Ring.Deque
import Cdsa.L2Vector.Growth

/-!
# Containers with one block, in the heap

The vector, the string, the ring buffer, the hash map's table and the priority
queue keep what they hold in one block, behind a structure of their own. Their
models take the answers of the allocator, and the bytes of a fresh block, as
parameters. Here both come from the heap: `grant` is its next answer, and `fill`
what fresh blocks are filled with.

`Body` is such a container without its structure, and `Body.tenant` what it is
as a tenant of the heap; `Tenant.boxed` adds the structure, once for the
container and once more for each wrapper around it.
-/
namespace Cdsa.Session

open Cdsa.Core Cdsa.Memory

/-- The bytes of a fresh block, of any size that fits a `size_t`. -/
structure Fill extends Raw.Grant where
  total : ∀ n, n < 2 ^ 64 → (answer n).isSome

/-- The next answer of the system, with its bytes. -/
def grant (fill : Ptr → Fill) (m : Mem) : Raw.Grant :=
  if m.answers m.asked then (fill m.asked).toGrant else .refuses

theorem grant_isSome (fill : Ptr → Fill) {m : Mem} {n : Nat} (hn : n < 2 ^ 64) :
    ((grant fill m).answer n).isSome ↔ m.answers m.asked = true := by
  unfold grant
  split
  · next h => simp [h, (fill m.asked).total n hn]
  · next h => simp [h, Raw.Grant.refuses]

/-- A granted request that does not wrap. -/
theorem mallocTrack_granted {g : Raw.Grant} {n : Nat} (hn : n + 8 < 2 ^ 64)
    (hg : (g.answer (n + 8)).isSome) : ∃ block, Raw.cdsaMallocTrack g n = some (some block) := by
  obtain ⟨block, hb⟩ := Option.isSome_iff_exists.mp hg
  have hlen := g.holds _ _ hb
  refine ⟨block.drop 8, ?_⟩
  simp only [Raw.cdsaMallocTrack, Nat.mod_eq_of_lt hn, hb]
  rw [if_neg (by omega)]

/-- A container in one block: `size` is what a creation asks for, and `bytes`
what the block has later. -/
structure Body where
  State : Type
  Arg : Type
  Op : Type
  size : Arg → Nat
  make : Arg → Raw.Grant → Option (Option State)
  step : Op → State × Ptr → Mem → Option ((State × Ptr) × Mem)
  bytes : State → Nat
  Good : State → Prop
  Creates : Arg → Prop
  Meets : Op → State → Mem → Prop
  made : ∀ {a g}, Creates a → (∀ n, n < 2 ^ 64 → (g.answer n).isSome) →
    ∃ s, make a g = some (some s) ∧ Good s ∧ bytes s = size a
  stepped : ∀ {base bs m s block op}, Good s → Owns base ((block, bytes s) :: bs) m →
    Meets op s m → ∃ s' block' m', step op (s, block) m = some ((s', block'), m') ∧ Good s' ∧
      Owns base ((block', bytes s') :: bs) m'

/-- The block is allocated, and freed in the end. -/
def Body.tenant (fill : Ptr → Fill) (B : Body) : Tenant where
  State := B.State × Ptr
  Arg := B.Arg
  Op := B.Op
  create a m :=
    match cdsaMallocTrack m (B.size a) with
    | (none, m') => some (none, m')
    | (some block, m') => (B.make a (grant fill m)).bind fun o => o.map fun s =>
      (some (s, block), m')
  step := B.step
  free s m := cdsaFreeTrack m (some s.2)
  Creates a _ := B.Creates a
  Meets op s m := B.Meets op s.1 m
  Closes _ := True
  Holds s l := l = [(s.2, B.bytes s.1)] ∧ B.Good s.1
  created {base bs m a} O hc := by
    rcases O.malloc (B.size a) with ⟨m1, e1, -, O1⟩ | ⟨block, m1, e1, ha, O1⟩
    · exact Or.inl ⟨m1, by simp only [e1], O1⟩
    · obtain ⟨s, hs, G, hb⟩ := B.made hc fun n hn => (grant_isSome fill hn).mpr ha
      refine Or.inr ⟨(s, block), m1, [(block, B.size a)], ?_, ⟨by rw [hb], G⟩, O1⟩
      simp only [e1, hs, Option.bind_some, Option.map_some]
  stepped {base bs m s l op} H O hm := by
    obtain ⟨rfl, G⟩ := H
    obtain ⟨s', block', m', e, G', O'⟩ := B.stepped G O hm
    exact ⟨(s', block'), m', _, e, ⟨rfl, G'⟩, O'⟩
  freed {base bs m s l} H O _ := by
    obtain ⟨rfl, -⟩ := H
    obtain ⟨m', e, O', -, -⟩ := O.free
    exact ⟨m', e, O'⟩

/-! ## Vectors and stacks -/

section
open Cdsa.Vector

variable {es : Nat}

/-- The operations of a vector; the answer to a push is the heap's. -/
inductive VectorOp (es : Nat) where
  | push (elem : Elem es)
  | pop
  | set (index : Nat) (elem : Elem es)
  | get (index : Nat)
  | clear

def VectorOp.toOp (g : Raw.Grant) : VectorOp es → Vector.Op es
  | .push elem => .push g elem
  | .pop => .pop
  | .set index elem => .set index elem
  | .get index => .get index
  | .clear => .clear

/-- The reallocation of a push: whether it is not refused, the block, and the
heap.
mirrors src/vector.c:41-49 -/
def growVector (vec : CdsaVector) (block : Ptr) (m : Mem) : Option (Bool × Ptr × Mem) :=
  if vec.size ≥ vec.capacity then
    (cdsaReallocTrack m (some block) (vec.capacity * 2 % 2 ^ 64 * vec.elemSize % 2 ^ 64)).map
      fun r => (r.1.isSome, r.1.getD block, r.2)
  else some (true, block, m)

/-- What an operation does to the heap. -/
def VectorOp.grow (op : VectorOp es) (s : CdsaVector × Ptr) (m : Mem) : Option (Bool × Ptr × Mem) :=
  match op with
  | .push _ => growVector s.1 s.2 m
  | _ => some (true, s.2, m)

/-- mirrors src/vector.c:37-56, 71-83, 109-127 -/
def stepVector (fill : Ptr → Fill) (op : VectorOp es) (s : CdsaVector × Ptr) (m : Mem) :
    Option ((CdsaVector × Ptr) × Mem) :=
  (op.grow s m).bind fun r =>
    (Vector.step s.1 (op.toOp (grant fill m))).map fun q => ((q.2, r.2.1), r.2.2)

/-- What the push of a good vector asks the heap for. -/
theorem growVector_spec {base : UInt64} {bs : List (Ptr × Nat)} {m : Mem} {v : CdsaVector}
    {block : Ptr} {fill : Ptr → Fill} (G : Good es v)
    (O : Owns base ((block, v.capacity * es) :: bs) m)
    (hg : v.capacity ≤ v.size → (grant fill m).Meets (v.capacity * 2 * es)) :
    ∃ block' m', growVector v block m = some (true, block', m') ∧
      Owns base ((block', (if v.size ≥ v.capacity then v.capacity * 2 else v.capacity) * es) :: bs)
        m' := by
  unfold growVector
  by_cases hs : v.size ≥ v.capacity
  · obtain ⟨h0, hfit, hsome⟩ := hg hs
    have he : 0 < es := Nat.pos_of_mul_pos_left h0
    have hc : v.capacity * 2 < 2 ^ 64 := by
      have := Nat.le_mul_of_pos_right (v.capacity * 2) he
      omega
    obtain ⟨q, m', e, O'⟩ := O.realloc ((grant_isSome fill hfit).mp hsome) (Nat.pos_iff_ne_zero.mp h0)
    refine ⟨q, m', ?_, by rw [if_pos hs]; exact O'⟩
    rw [if_pos hs, G.elemSize, Nat.mod_eq_of_lt hc,
      Nat.mod_eq_of_lt (show v.capacity * 2 * es < 2 ^ 64 by omega), e]
    rfl
  · exact ⟨block, m, by rw [if_neg hs], by rw [if_neg hs]; exact O⟩

/-- Only a push on a full vector changes the capacity. -/
theorem step_capacity {v v' : CdsaVector} {l : List (Elem es)} {op : Vector.Op es} {o : Vector.Out}
    (G : Good es v) (L : Lists v l) (hg : GrowthMet v op) (h : Vector.step v op = some (o, v')) :
    v'.capacity = if isPush op ∧ v.size ≥ v.capacity then v.capacity * 2 else v.capacity := by
  cases op with
  | push g e =>
    have hg : v.capacity ≤ v.size → g.Meets (v.capacity * 2 * es) := by
      rw [← G.elemSize]
      exact hg
    obtain ⟨w, hw, -⟩ := G.push L g e hg
    rw [Vector.step, hw] at h
    cases h
    rw [(push_size G hg hw).2]
    simp [isPush]
  | pop =>
    cases h
    unfold cdsaPopVector
    split <;> simp [isPush]
  | set i e =>
    obtain ⟨r, hr, h⟩ := Option.map_eq_some_iff.mp h
    cases h
    unfold setVector at hr
    split at hr
    · cases hr
      simp [isPush]
    · obtain ⟨data, -, hr⟩ := Option.map_eq_some_iff.mp hr
      cases hr
      simp [isPush]
  | get i =>
    rw [G.get L i] at h
    cases h
    simp [isPush]
  | clear =>
    cases h
    simp [isPush, cdsaClearVector]

theorem createVector_granted {g : Raw.Grant} (hc : 4 * es + 8 < 2 ^ 64)
    (ht : ∀ n, n < 2 ^ 64 → (g.answer n).isSome) :
    ∃ v, cdsaCreateVector (Raw.cdsaMallocTrack .zeros) (Raw.cdsaMallocTrack g) es = some (some v) ∧
      Good es v ∧ v.capacity * es = INITIAL_CAPACITY * es % 2 ^ 64 := by
  have hmod : INITIAL_CAPACITY * es % 2 ^ 64 = 4 * es :=
    Nat.mod_eq_of_lt (show 4 * es < 2 ^ 64 by omega)
  obtain ⟨data, hd⟩ := mallocTrack_granted hc (ht _ hc)
  have hmake : cdsaCreateVector (Raw.cdsaMallocTrack .zeros) (Raw.cdsaMallocTrack g) es =
      some (some ⟨data, 0, INITIAL_CAPACITY, es, 0⟩) := by
    rw [cdsaCreateVector, hmod, hd]
    rfl
  obtain ⟨G, -⟩ := (cdsaCreateVector_spec hmake).2 hc
  exact ⟨_, hmake, G, hmod.symm⟩

/-- mirrors src/vector.c:18-35, 64-69 -/
def vectorBody (fill : Ptr → Fill) (es : Nat) : Body where
  State := CdsaVector
  Arg := Unit
  Op := VectorOp es
  size _ := INITIAL_CAPACITY * es % 2 ^ 64
  make _ g := cdsaCreateVector (Raw.cdsaMallocTrack .zeros) (Raw.cdsaMallocTrack g) es
  step := stepVector fill
  bytes v := v.capacity * es
  Good v := Good es v
  Creates _ := 4 * es + 8 < 2 ^ 64
  Meets op v m := GrowthMet v (op.toOp (grant fill m))
  made hc ht := createVector_granted hc ht
  stepped {base bs m v block op} G O hm := by
    obtain ⟨l, L⟩ := G.exists_lists
    obtain ⟨o, v', e, G', -⟩ := G.step L (op.toOp (grant fill m)) hm
    have hcap := step_capacity G L hm e
    cases op with
    | push elem =>
      obtain ⟨block', m', e1, O'⟩ := growVector_spec G O (by rw [← G.elemSize]; exact hm)
      refine ⟨v', block', m', ?_, G', ?_⟩
      · simp only [stepVector, VectorOp.grow, e1, e, Option.bind_some, Option.map_some]
      · simpa [hcap, VectorOp.toOp, isPush] using O'
    | _ =>
      refine ⟨v', block, m, ?_, G', ?_⟩
      · simp only [stepVector, VectorOp.grow, e, Option.bind_some, Option.map_some]
      · simpa [hcap, VectorOp.toOp, isPush] using O

end

/-! ## Strings -/

section
open Cdsa.Kstring

inductive KstringOp where
  | append (text : CStr)
  | clear

/-- The reallocation of an append.
mirrors src/kstring.c:78-91 -/
def growKstring (str : CdsaKstring) (block : Ptr) (text : CStr) (m : Mem) : Option (Ptr × Mem) :=
  let requiredSpace := (str.size + text.strlen + 1) % 2 ^ 64
  if requiredSpace > str.capacity then
    (growCapacity 65 str.capacity requiredSpace).bind fun capacity =>
      (cdsaReallocTrack m (some block) capacity).map fun r => (r.1.getD block, r.2)
  else some (block, m)

/-- mirrors src/kstring.c:67-98 -/
def stepKstring (fill : Ptr → Fill) (op : KstringOp) (s : CdsaKstring × Ptr) (m : Mem) :
    Option ((CdsaKstring × Ptr) × Mem) :=
  match op with
  | .append text =>
    (growKstring s.1 s.2 text m).bind fun r =>
      (appendKstring (grant fill m) s.1 text).map fun q => ((q.2, r.1), r.2)
  | .clear => (cdsaClearKstring s.1).map fun str => ((str, s.2), m)

/-- What an append that is supplied asks the heap for. -/
theorem growKstring_spec {base : UInt64} {bs : List (Ptr × Nat)} {m : Mem} {w : Held} {block : Ptr}
    {fill : Ptr → Fill} {text : CStr} (G : Good w)
    (O : Owns base ((block, w.str.capacity) :: bs) m)
    (hs : Supplied w (.append (grant fill m) text)) :
    ∃ block' m', growKstring w.str block text m = some (block', m') ∧
      Owns base ((block', if w.str.capacity < need w.str text then
        2 ^ Nat.clog 2 (need w.str text) else w.str.capacity) :: bs) m' := by
  unfold growKstring
  rw [G.required_eq hs]
  by_cases hc : w.str.capacity < need w.str text
  · obtain ⟨h0, hfit, hsome⟩ := (hs hc).2
    obtain ⟨q, m', e, O'⟩ := O.realloc ((grant_isSome fill hfit).mp hsome) (Nat.pos_iff_ne_zero.mp h0)
    refine ⟨q, m', ?_, by rw [if_pos hc]; exact O'⟩
    rw [if_pos hc, G.grown hs hc, Option.bind_some, e]
    rfl
  · exact ⟨block, m, by rw [if_neg hc], by rw [if_neg hc]; exact O⟩

/-- mirrors src/kstring.c:18-41 -/
def kstringBody (fill : Ptr → Fill) : Body where
  State := CdsaKstring
  Arg := Unit
  Op := KstringOp
  size _ := INITIAL_CAPACITY
  make _ g := cdsaCreateKstring (Raw.cdsaMallocTrack .zeros) (Raw.cdsaMallocTrack g)
  step := stepKstring fill
  bytes str := str.capacity
  Good str := ∃ text, Good ⟨str, text⟩
  Creates _ := True
  Meets op str m := match op with
    | .append text => Supplied ⟨str, []⟩ (.append (grant fill m) text)
    | .clear => True
  made {a g} _ ht := by
    obtain ⟨data, hd⟩ := mallocTrack_granted (g := g) (n := INITIAL_CAPACITY) (by decide)
      (ht _ (by decide))
    obtain ⟨-, hlen⟩ := Raw.cdsaMallocTrack_bytes hd
    have hroom := hlen (by decide)
    obtain ⟨data', hw⟩ := exists_writeAt data 0 [0] (Nat.le_trans (by decide) hroom)
    have hmake : cdsaCreateKstring (Raw.cdsaMallocTrack .zeros) (Raw.cdsaMallocTrack g) =
        some (some ⟨data', 0, INITIAL_CAPACITY⟩) := by
      have hself : Raw.cdsaMallocTrack .zeros 24 = some (some (List.replicate 24 0)) := rfl
      simp only [cdsaCreateKstring, hself, hd, Option.bind_some, hw, Option.map_some]
    exact ⟨_, hmake, ⟨[], cdsaCreateKstring_good hmake⟩, rfl⟩
  stepped {base bs m str block op} G O hm := by
    obtain ⟨text', G⟩ := G
    cases op with
    | append text =>
      have hs : Supplied ⟨str, text'⟩ (.append (grant fill m) text) := hm
      obtain ⟨block', m', e1, O'⟩ := growKstring_spec G O hs
      obtain ⟨str', e2, G'⟩ := G.append (grant fill m) text hs
      obtain ⟨-, hcap⟩ := append_size G hs e2
      refine ⟨str', block', m', ?_, ⟨_, G'⟩, by rw [hcap]; exact O'⟩
      simp only [stepKstring, e1, e2, Option.bind_some, Option.map_some]
    | clear =>
      obtain ⟨str', e, G'⟩ := G.clear
      refine ⟨str', block, m, by simp only [stepKstring, e, Option.map_some], ⟨_, G'⟩, ?_⟩
      obtain ⟨data, -, hstr⟩ := Option.map_eq_some_iff.mp e
      rw [← hstr]
      exact O

end

/-! ## Ring buffers, queues and deques -/

section
open Cdsa.Vector Cdsa.Ring

/-- An operation allocates nothing.
mirrors src/ringbuffer.c:21-49 -/
def ringbufferBody (capacity es : Nat) : Body where
  State := CdsaRingbuffer
  Arg := Unit
  Op := Ring.Op es
  size _ := capacity * es % 2 ^ 64
  make _ g := cdsaCreateRingbuffer (Raw.cdsaMallocTrack .zeros) (Raw.cdsaMallocTrack g) capacity es
  step op s m := (Ring.step s.1 op).map fun r => ((r.2, s.2), m)
  bytes rb := rb.capacity * es
  Good rb := ∃ l : List (Elem es), Inv rb l
  Creates _ := capacity * es + 8 < 2 ^ 64 ∧ 2 * capacity < 2 ^ 64
  Meets _ _ _ := True
  made {a g} hc ht := by
    obtain ⟨hfit, htwice⟩ := hc
    have hmod : capacity * es % 2 ^ 64 = capacity * es := Nat.mod_eq_of_lt (by omega)
    obtain ⟨data, hd⟩ := mallocTrack_granted hfit (ht _ hfit)
    obtain ⟨-, hlen⟩ := Raw.cdsaMallocTrack_bytes hd
    have hmake : cdsaCreateRingbuffer (Raw.cdsaMallocTrack .zeros) (Raw.cdsaMallocTrack g) capacity
        es = some (some ⟨data, 0, 0, 0, capacity, es, 0⟩) := by
      rw [cdsaCreateRingbuffer, hmod, hd]
      rfl
    exact ⟨_, hmake, ⟨[], fresh_inv (hlen hfit) (by omega) htwice⟩, hmod.symm⟩
  stepped {base bs m rb block op} G O _ := by
    obtain ⟨l, I⟩ := G
    obtain ⟨rb', e, I', hcap⟩ := I.step op
    exact ⟨rb', block, m, by rw [e, Option.map_some], ⟨_, I'⟩, by rw [hcap]; exact O⟩

end

/-! ## Hash maps -/

section
open Cdsa.Hashmap

inductive HashmapOp (V : Type) where
  | insert (key : CStr) (value : Option V)
  | remove (key : CStr)
  | resize
  | get (key : CStr)
  | size

def HashmapOp.toOp {V : Type} (ok : Bool) : HashmapOp V → Hashmap.Op V
  | .insert key value => .insert key value ok
  | .remove key => .remove key
  | .resize => .resize ok
  | .get key => .get key
  | .size => .size

/-- An insertion that finds the table full, and a resize, ask for a new table. -/
def HashmapOp.resizes {V : Type} (map : CdsaHashmap CStr V) : HashmapOp V → Bool
  | .insert _ _ => needsResize map
  | .resize => true
  | _ => false

/-- The new table, and the old one given back.
mirrors src/hashmap.c:190-199, 213 -/
def moveTable (capacity : Nat) (block : Ptr) (m : Mem) : Option (Ptr × Mem) :=
  match cdsaCallocTrack m (capacity * 2 % 2 ^ 64) sizeofHashEntry with
  | (none, m) => some (block, m)
  | (some new, m) => (cdsaFreeTrack m (some block)).map fun m => (new, m)

/-- mirrors src/hashmap.c:131-274 -/
def stepHashmap {V : Type} (op : HashmapOp V) (s : CdsaHashmap CStr V × Ptr) (m : Mem) :
    Option ((CdsaHashmap CStr V × Ptr) × Mem) :=
  (if op.resizes s.1 then moveTable s.1.capacity s.2 m else some (s.2, m)).bind fun r =>
    (Hashmap.step s.1 (op.toOp (m.answers m.asked))).map fun q => ((q.2, r.1), r.2)

theorem moveTable_spec {base : UInt64} {bs : List (Ptr × Nat)} {m : Mem} {capacity : Nat} {block : Ptr}
    (O : Owns base ((block, capacity * sizeofHashEntry) :: bs) m)
    (hfit : capacity * 2 * sizeofHashEntry + 8 < 2 ^ 64) :
    ∃ block' m', moveTable capacity block m = some (block', m') ∧
      Owns base ((block', (if m.answers m.asked then capacity * 2 else capacity) * sizeofHashEntry) ::
        bs) m' := by
  have hsize : capacity * 2 % 2 ^ 64 * sizeofHashEntry % 2 ^ 64 = capacity * 2 * sizeofHashEntry := by
    rw [sizeofHashEntry] at *
    rw [Nat.mod_eq_of_lt (show capacity * 2 < 2 ^ 64 by omega), Nat.mod_eq_of_lt (by omega)]
  unfold moveTable cdsaCallocTrack
  rw [hsize]
  rcases O.malloc (capacity * 2 * sizeofHashEntry) with ⟨m1, e1, ha, O1⟩ | ⟨new, m1, e1, ha, O1⟩
  · exact ⟨block, m1, by rw [e1], by rw [ha]; exact O1⟩
  · obtain ⟨m2, e2, O2, -, -⟩ := (O1.of_perm (List.Perm.swap ..)).free
    refine ⟨new, m2, ?_, by rw [ha]; exact O2⟩
    simp only [e1, e2, Option.map_some]

/-- What an operation makes of the capacity. -/
theorem hashmap_step_capacity {V : Type} {map : CdsaHashmap CStr V} (I : Inv map) (hf : Fits map)
    (op : HashmapOp V) (ok : Bool) (hd : op.resizes map = true → Fits (doubled map)) :
    ∃ o map', Hashmap.step map (op.toOp ok) = some (o, map') ∧ Inv map' ∧ Fits map' ∧
      map'.capacity = if op.resizes map ∧ ok then map.capacity * 2 else map.capacity := by
  cases op with
  | insert k v =>
    rcases insertHashmap_cases I hf ok k v fun hr _ => hd hr with ⟨hr, hok, e⟩ |
      ⟨hr, hok, m1, m', -, R, P, I', e⟩ | ⟨hr, m', P, I', e⟩
    · exact ⟨_, map, by simp only [HashmapOp.toOp, Hashmap.step, e, Option.map_some]; rfl, I, hf,
        by simp [HashmapOp.resizes, hok]⟩
    · exact ⟨_, m', by simp only [HashmapOp.toOp, Hashmap.step, e, Option.map_some]; rfl, I',
        P.fits (R.fits hf (hd hr)), by simp [HashmapOp.resizes, hr, hok, P.capacity, R.capacity]⟩
    · exact ⟨_, m', by simp only [HashmapOp.toOp, Hashmap.step, e, Option.map_some]; rfl, I',
        P.fits hf, by simp [HashmapOp.resizes, hr, P.capacity]⟩
  | remove k =>
    rcases removeHashmap_cases I k with ⟨-, e⟩ | ⟨-, m', e, R⟩
    · exact ⟨_, map, by simp only [HashmapOp.toOp, Hashmap.step, e, Option.map_some]; rfl, I, hf,
        by simp [HashmapOp.resizes]⟩
    · exact ⟨_, m', by simp only [HashmapOp.toOp, Hashmap.step, e, Option.map_some]; rfl, R.inv,
        R.fits hf, by simp [HashmapOp.resizes, R.capacity]⟩
  | resize =>
    cases ok with
    | false => exact ⟨_, map, rfl, I, hf, by simp⟩
    | true =>
      obtain ⟨m', e, R⟩ := resizeHashmap_spec I hf (hd rfl)
      exact ⟨_, m', by simp only [HashmapOp.toOp, Hashmap.step, e, Option.map_some]; rfl, R.inv,
        R.fits hf (hd rfl), by simp [HashmapOp.resizes, R.capacity]⟩
  | get k =>
    obtain ⟨v, e⟩ := getHashmap_defined I k
    exact ⟨_, map, by simp only [HashmapOp.toOp, Hashmap.step, e, Option.map_some]; rfl, I, hf,
      by simp [HashmapOp.resizes]⟩
  | size => exact ⟨_, map, rfl, I, hf, by simp [HashmapOp.resizes]⟩

/-- A table and its header must fit a `size_t`, and where it resizes, one of
twice the size.
mirrors src/hashmap.c:32-63 -/
def hashmapBody (V : Type) : Body where
  State := CdsaHashmap CStr V
  Arg := Nat
  Op := HashmapOp V
  size capacity := (if capacity = 0 then 1 else capacity) * sizeofHashEntry % 2 ^ 64
  make capacity _ := some (cdsaCreateHashmap true true capacity)
  step := stepHashmap
  bytes map := map.capacity * sizeofHashEntry
  Good map := Inv map ∧ Fits map
  Creates capacity := capacity * sizeofHashEntry + 8 < 2 ^ 64
  Meets op map _ := op.resizes map = true → Fits (doubled map)
  made {capacity g} hc _ := by
    have hfit : (if capacity = 0 then 1 else capacity) * sizeofHashEntry + 8 < 2 ^ 64 := by
      split
      · decide
      · exact hc
    obtain ⟨map, hmap⟩ : ∃ map : CdsaHashmap CStr V, cdsaCreateHashmap true true capacity = some map ∧
        map.capacity = if capacity = 0 then 1 else capacity := ⟨_, rfl, rfl⟩
    have hf : Fits map := by
      rw [Fits, hmap.2]
      exact hfit
    refine ⟨map, congrArg some hmap.1, ⟨(cdsaCreateHashmap_inv hmap.1 hf).1, hf⟩, ?_⟩
    rw [hmap.2, Nat.mod_eq_of_lt (by omega)]
  stepped {base bs m map block op} G O hm := by
    obtain ⟨I, hf⟩ := G
    obtain ⟨o, map', e, I', hf', hcap⟩ := hashmap_step_capacity I hf op (m.answers m.asked) hm
    by_cases hr : op.resizes map
    · have hd := hm hr
      rw [Fits, doubled_capacity hf] at hd
      obtain ⟨block', m', e1, O'⟩ := moveTable_spec O hd
      refine ⟨map', block', m', ?_, ⟨I', hf'⟩, ?_⟩
      · simp only [stepHashmap, if_pos hr, e1, e, Option.bind_some, Option.map_some]
      · simpa [hcap, hr] using O'
    · refine ⟨map', block, m, ?_, ⟨I', hf'⟩, ?_⟩
      · simp only [stepHashmap, if_neg hr, e, Option.bind_some, Option.map_some]
      · simpa [hcap, hr] using O

end

end Cdsa.Session
