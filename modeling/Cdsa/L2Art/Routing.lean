import Cdsa.L2Art.Tree

/-!
# Routing through the four layouts

`Coherent n`: the arrays of `n` agree with each other; `Valid n`: also the count
of a Node48 is exact. For such a node the operations on its slots are operations
on the function `look n` alone:

* `setChild` and `removeChild` change it at one byte (`look_setChild`,
  `removeChild_spec`), and so does adding a child (`Packed.append_valid`,
  `Node48.put_tabled`, `Node256.put_spec`);
* upgrades and downgrades leave it as it is (`tabulate_spec`,
  `upgrade256_look`, `Node48.cells_eq`, `Node256.cells_eq`).
-/
namespace Cdsa.Art

open Cdsa.Core Cdsa.Memory

variable {V P : Type}

theorem mem_allBytes (c : UInt8) : c ∈ allBytes :=
  List.mem_map.mpr ⟨c.toNat, List.mem_range.mpr c.toNat_lt, UInt8.ofNat_toNat⟩

theorem allBytes_nodup : allBytes.Nodup := by
  refine (List.nodup_map_iff_inj_on List.nodup_range).mpr fun a ha b hb h => ?_
  have h := congrArg UInt8.toNat h
  rwa [UInt8.toNat_ofNat_of_lt' (List.mem_range.mp ha),
    UInt8.toNat_ofNat_of_lt' (List.mem_range.mp hb)] at h

theorem mem_kids {n : Inner P} {c : UInt8} {x : P} : (c, x) ∈ n.kids ↔ n.look c = some x := by
  rw [Inner.kids, mem_graph]; exact and_iff_right (mem_allBytes c)

/-- Changing a node's routing at one byte. -/
theorem kids_update {n n' : Inner P} {c : UInt8} {o : Option P}
    (h : n'.look = Function.update n.look c o) :
    ((n.look c).toList.map (Prod.mk c) ++ n'.kids).Perm (o.toList.map (Prod.mk c) ++ n.kids) := by
  rw [Inner.kids, Inner.kids, h]
  exact graph_update_perm allBytes_nodup (mem_allBytes c) n.look o

/-! ## Cells -/

/-- The children in a list of cells. -/
def cellKids (cells : List (UInt8 × Option P)) : List (UInt8 × P) :=
  cells.filterMap fun q => q.2.map (Prod.mk q.1)

/-- The child a list of cells has for `c`. -/
def cellLook (cells : List (UInt8 × Option P)) (c : UInt8) : Option P :=
  ((cells.find? fun q => q.1 = c).map Prod.snd).join

theorem cellLook_cons (q : UInt8 × Option P) (cells : List (UInt8 × Option P)) (c : UInt8) :
    cellLook (q :: cells) c = if q.1 = c then q.2 else cellLook cells c := by
  by_cases h : q.1 = c <;> simp [cellLook, h]

theorem cellLook_none {cells : List (UInt8 × Option P)} {c : UInt8} (h : c ∉ cells.map Prod.fst) :
    cellLook cells c = none := by
  induction cells with
  | nil => rfl
  | cons q cells ih =>
    rw [List.map_cons, List.mem_cons, not_or] at h
    rw [cellLook_cons, if_neg (Ne.symm h.1), ih h.2]

theorem cellLook_eq_some {cells : List (UInt8 × Option P)} (h : (cells.map Prod.fst).Nodup)
    {c : UInt8} {x : P} : cellLook cells c = some x ↔ (c, some x) ∈ cells := by
  induction cells with
  | nil => simp [cellLook]
  | cons q cells ih =>
    obtain ⟨d, o⟩ := q
    rw [List.map_cons, List.nodup_cons] at h
    rw [cellLook_cons, List.mem_cons, Prod.mk.injEq]
    by_cases hd : d = c
    · subst hd
      have hn : (d, some x) ∉ cells := fun hm =>
        h.1 (List.mem_map.mpr ⟨_, hm, rfl⟩)
      simp [hn, eq_comm]
    · simp [hd, Ne.symm hd, ih h.2]

theorem mem_cellKids {cells : List (UInt8 × Option P)} {c : UInt8} {x : P} :
    (c, x) ∈ cellKids cells ↔ (c, some x) ∈ cells := by
  simp only [cellKids, List.mem_filterMap, Option.map_eq_some_iff, Prod.mk.injEq]
  constructor
  · rintro ⟨⟨d, o⟩, hq, y, rfl, rfl, rfl⟩; exact hq
  · intro h; exact ⟨_, h, x, rfl, rfl, rfl⟩

theorem cellKids_keys {cells : List (UInt8 × Option P)} (h : ∀ q ∈ cells, q.2.isSome) :
    (cellKids cells).map Prod.fst = cells.map Prod.fst := by
  induction cells with
  | nil => rfl
  | cons q cells ih =>
    obtain ⟨c, o⟩ := q
    have ho := h (c, o) List.mem_cons_self
    obtain ⟨x, rfl⟩ := Option.isSome_iff_exists.mp ho
    have := ih fun q hq => h q (List.mem_cons_of_mem _ hq)
    simpa [cellKids] using this

/-- The children of cells without duplicates or holes. -/
theorem cellKids_perm {cells : List (UInt8 × Option P)} (hk : (cells.map Prod.fst).Nodup)
    (hs : ∀ q ∈ cells, q.2.isSome) : (cellKids cells).Perm (graph allBytes (cellLook cells)) :=
  graph_perm allBytes_nodup mem_allBytes (by rw [cellKids_keys hs]; exact hk)
    fun c x => by rw [mem_cellKids, cellLook_eq_some hk]

theorem setCell_keys (c : UInt8) (o : Option P) (cells : List (UInt8 × Option P)) :
    (setCell c o cells).map Prod.fst = cells.map Prod.fst := by
  induction cells with
  | nil => rfl
  | cons q cells ih => rw [setCell]; split <;> simp [ih]

theorem cellLook_setCell {c : UInt8} (o : Option P) {cells : List (UInt8 × Option P)}
    (hc : c ∈ cells.map Prod.fst) :
    cellLook (setCell c o cells) = Function.update (cellLook cells) c o := by
  induction cells with
  | nil => cases hc
  | cons q cells ih =>
    funext d
    rw [setCell, Function.update_apply]
    by_cases hq : q.1 = c
    · rw [if_pos hq, cellLook_cons, cellLook_cons, hq]
      by_cases hd : d = c
      · simp [hd]
      · simp [hd, Ne.symm hd]
    · rw [if_neg hq, cellLook_cons, cellLook_cons,
        ih ((List.mem_cons.mp hc).resolve_left (Ne.symm hq)), Function.update_apply]
      by_cases hd : q.1 = d
      · subst hd; rw [if_pos rfl, if_neg hq, if_pos rfl]
      · simp [hd]

theorem mem_setCell {c : UInt8} {o : Option P} {cells : List (UInt8 × Option P)}
    {q : UInt8 × Option P} (h : q ∈ setCell c o cells) : q ∈ cells ∨ q.2 = o := by
  induction cells with
  | nil => cases h
  | cons r cells ih =>
    rw [setCell] at h
    split at h
    · rcases List.mem_cons.mp h with rfl | h
      · exact Or.inr rfl
      · exact Or.inl (List.mem_cons_of_mem _ h)
    · rcases List.mem_cons.mp h with rfl | h
      · exact Or.inl List.mem_cons_self
      · exact (ih h).imp_left (List.mem_cons_of_mem _)

/-- Clearing a cell first makes no difference to removing it. -/
theorem eraseP_setCell (c : UInt8) (o : Option P) (cells : List (UInt8 × Option P)) :
    (setCell c o cells).eraseP (fun q => q.1 = c) = cells.eraseP fun q => q.1 = c := by
  induction cells with
  | nil => rfl
  | cons q cells ih =>
    rw [setCell]
    by_cases hq : q.1 = c
    · simp [hq]
    · simp [hq, ih]

theorem cellLook_eraseP {c : UInt8} {cells : List (UInt8 × Option P)}
    (hk : (cells.map Prod.fst).Nodup) :
    cellLook (cells.eraseP fun q => q.1 = c) = Function.update (cellLook cells) c none := by
  induction cells with
  | nil =>
    funext d
    by_cases hd : d = c <;> simp [cellLook, Function.update_apply]
  | cons q cells ih =>
    rw [List.map_cons, List.nodup_cons] at hk
    funext d
    by_cases hq : q.1 = c
    · rw [List.eraseP_cons_of_pos (by simpa using hq), Function.update_apply]
      by_cases hd : d = c
      · rw [if_pos hd, cellLook_none (by rw [hd, ← hq]; exact hk.1)]
      · rw [if_neg hd, cellLook_cons, if_neg (fun h => hd (h.symm.trans hq))]
    · rw [List.eraseP_cons_of_neg (by simpa using hq), cellLook_cons, ih hk.2,
        Function.update_apply, Function.update_apply, cellLook_cons]
      by_cases hd : q.1 = d
      · subst hd; rw [if_pos rfl, if_neg hq, if_pos rfl]
      · simp [hd]

theorem cellLook_append {c : UInt8} {x : P} {cells : List (UInt8 × Option P)}
    (hc : c ∉ cells.map Prod.fst) :
    cellLook (cells ++ [(c, some x)]) = Function.update (cellLook cells) c (some x) := by
  induction cells with
  | nil =>
    funext d
    by_cases hd : d = c
    · simp [cellLook, hd]
    · simp [cellLook, hd, Ne.symm hd]
  | cons q cells ih =>
    rw [List.map_cons, List.mem_cons, not_or] at hc
    funext d
    rw [List.cons_append, cellLook_cons, ih hc.2, Function.update_apply, Function.update_apply,
      cellLook_cons]
    by_cases hd : q.1 = d
    · subst hd; rw [if_pos rfl, if_neg (Ne.symm hc.1), if_pos rfl]
    · simp [hd]

/-! ## Valid nodes -/

/-- The first `num_children` cells hold distinct bytes and a child each. -/
structure Packed.Valid (capacity : Nat) (n : Packed P) : Prop where
  keys : (n.cells.map Prod.fst).Nodup
  full : ∀ q ∈ n.cells, q.2.isSome
  count : n.numChildren = n.cells.length
  room : n.cells.length ≤ capacity

/-- `child_index` leads to distinct occupied slots, and to all of them. -/
structure Node48.Tabled (n : Node48 P) : Prop where
  len : n.children.length = 48
  hit : ∀ c, n.childIndex c ≠ ART_EMPTY_SLOT →
    ∃ x, slot n.children (n.childIndex c).toNat = some x
  inj : ∀ c d, n.childIndex c ≠ ART_EMPTY_SLOT → n.childIndex c = n.childIndex d → c = d
  cover : ∀ i x, slot n.children i = some x →
    ∃ c, n.childIndex c ≠ ART_EMPTY_SLOT ∧ (n.childIndex c).toNat = i

/-- The table is right, and so is the count. -/
structure Node48.Valid (n : Node48 P) : Prop where
  len : n.children.length = 48
  hit : ∀ c, n.childIndex c ≠ ART_EMPTY_SLOT →
    ∃ x, slot n.children (n.childIndex c).toNat = some x
  inj : ∀ c d, n.childIndex c ≠ ART_EMPTY_SLOT → n.childIndex c = n.childIndex d → c = d
  cover : ∀ i x, slot n.children i = some x →
    ∃ c, n.childIndex c ≠ ART_EMPTY_SLOT ∧ (n.childIndex c).toNat = i
  count : n.numChildren = (Inner.node48 n).kids.length

def Inner.Valid : Inner P → Prop
  | node4 n => n.Valid 4
  | node16 n => n.Valid 16
  | node48 n => n.Valid
  | node256 n => n.children.length = 256

/-- The arrays are right, whatever `num_children` of a Node48 or Node256 says. -/
def Inner.Coherent : Inner P → Prop
  | node4 n => n.Valid 4
  | node16 n => n.Valid 16
  | node48 n => n.Tabled
  | node256 n => n.children.length = 256

theorem Node48.Valid.tabled {n : Node48 P} (h : n.Valid) : n.Tabled :=
  ⟨h.len, h.hit, h.inj, h.cover⟩

theorem Inner.Valid.coherent {n : Inner P} (h : n.Valid) : n.Coherent := by
  cases n with
  | node48 n => exact Node48.Valid.tabled h
  | node4 n => exact h
  | node16 n => exact h
  | node256 n => exact h

section Fields
variable (n : Inner P) (c : UInt8) (o : Option P) (h : NodeHeader)

@[simp] theorem setChild_header : (n.setChild c o).header = n.header := by
  cases n <;> simp only [Inner.setChild] <;> first | rfl | (split <;> rfl)

@[simp] theorem setChild_type : (n.setChild c o).type = n.type := by
  cases n <;> simp only [Inner.setChild] <;> first | rfl | (split <;> rfl)

@[simp] theorem setChild_numChildren : (n.setChild c o).numChildren = n.numChildren := by
  cases n <;> simp only [Inner.setChild] <;> first | rfl | (split <;> rfl)

@[simp] theorem setChild_block : (n.setChild c o).block = n.block := by
  cases n <;> simp only [Inner.setChild] <;> first | rfl | (split <;> rfl)

@[simp] theorem setHeader_header : (n.setHeader h).header = h := by cases n <;> rfl

@[simp] theorem setHeader_type : (n.setHeader h).type = n.type := by cases n <;> rfl

@[simp] theorem setHeader_numChildren : (n.setHeader h).numChildren = n.numChildren := by
  cases n <;> rfl

@[simp] theorem setHeader_block : (n.setHeader h).block = n.block := by cases n <;> rfl

@[simp] theorem setHeader_look : (n.setHeader h).look = n.look := by cases n <;> rfl

@[simp] theorem setHeader_kids : (n.setHeader h).kids = n.kids := by
  rw [Inner.kids, setHeader_look, Inner.kids]

@[simp] theorem removeChild_header : (n.removeChild c).header = n.header := by
  cases n <;> simp only [Inner.removeChild, Packed.removeChild, Node48.removeChild,
    Node256.removeChild] <;> split <;> rfl

@[simp] theorem removeChild_type : (n.removeChild c).type = n.type := by cases n <;> rfl

@[simp] theorem removeChild_block : (n.removeChild c).block = n.block := by
  cases n <;> simp only [Inner.removeChild, Packed.removeChild, Node48.removeChild,
    Node256.removeChild] <;> split <;> rfl

end Fields

theorem Inner.Valid.setHeader {n : Inner P} (h : n.Valid) (hd : NodeHeader) :
    (n.setHeader hd).Valid := by
  cases n with
  | node4 n => exact ⟨h.keys, h.full, h.count, h.room⟩
  | node16 n => exact ⟨h.keys, h.full, h.count, h.room⟩
  | node48 n => exact ⟨h.len, h.hit, h.inj, h.cover, h.count⟩
  | node256 n => exact h

@[simp] theorem look_node4 (n : Packed P) : (Inner.node4 n).look = cellLook n.cells := rfl

@[simp] theorem look_node16 (n : Packed P) : (Inner.node16 n).look = cellLook n.cells := rfl

theorem look_node48 (n : Node48 P) (c : UInt8) : (Inner.node48 n).look c =
    if n.childIndex c = ART_EMPTY_SLOT then none else slot n.children (n.childIndex c).toNat := by
  simp only [Inner.look, Inner.findChild]; split <;> rfl

@[simp] theorem look_node256 (n : Node256 P) (c : UInt8) :
    (Inner.node256 n).look c = slot n.children c.toNat := rfl

theorem Packed.Valid.kids_length {capacity : Nat} {n : Packed P} (h : n.Valid capacity) :
    (graph allBytes (cellLook n.cells)).length = n.numChildren := by
  rw [← (cellKids_perm h.keys h.full).length_eq, h.count, ← List.length_map (f := Prod.fst),
    cellKids_keys h.full, List.length_map]

/-- Outside Node256 the count is exact. -/
theorem Inner.Valid.count {n : Inner P} (h : n.Valid) (ht : n.type ≠ .node256) :
    n.numChildren = n.kids.length := by
  cases n with
  | node4 n => exact (Packed.Valid.kids_length h).symm
  | node16 n => exact (Packed.Valid.kids_length h).symm
  | node48 n => exact Node48.Valid.count h
  | node256 n => exact absurd rfl ht

theorem findChild_cells {cells : List (UInt8 × Option P)} (hs : ∀ q ∈ cells, q.2.isSome)
    (c : UInt8) : (cells.find? fun q => q.1 = c).map Prod.snd = (cellLook cells c).map some := by
  cases hf : cells.find? fun q => q.1 = c with
  | none => simp [cellLook, hf]
  | some q =>
    obtain ⟨x, hx⟩ := Option.isSome_iff_exists.mp (hs q (List.mem_of_find?_eq_some hf))
    simp [cellLook, hf, hx]

/-- No slot for a byte is empty, Node256 apart. -/
theorem Inner.Coherent.findChild {n : Inner P} (h : n.Coherent) (c : UInt8) :
    n.findChild c = if n.type = .node256 then some (n.look c) else (n.look c).map some := by
  cases n with
  | node4 n => exact findChild_cells (Packed.Valid.full h) c
  | node16 n => exact findChild_cells (Packed.Valid.full h) c
  | node48 n =>
    simp only [Inner.type, reduceCtorEq, if_false, look_node48, Inner.findChild]
    split
    · rfl
    · next hc =>
      obtain ⟨x, hx⟩ := Node48.Tabled.hit h c hc
      rw [hx]; rfl
  | node256 n => rfl

theorem cell_of_look {cells : List (UInt8 × Option P)} {c : UInt8} {x : P}
    (h : cellLook cells c = some x) : c ∈ cells.map Prod.fst := by
  by_contra hc
  rw [cellLook_none hc] at h; cases h

/-- In a Node48 two bytes with children have different slots. -/
theorem Node48.Tabled.slot_ne {n : Node48 P} (h : n.Tabled) {c d : UInt8} (hc : n.childIndex c ≠ ART_EMPTY_SLOT)
    (hd : d ≠ c) : (n.childIndex c).toNat ≠ (n.childIndex d).toNat := fun he =>
  hd (h.inj c d hc (UInt8.toNat_inj.mp he)).symm

/-- The slot a Node48 has for a child. -/
theorem Node48.index_of_look {n : Node48 P} {c : UInt8} {x : P} (h : (Inner.node48 n).look c = some x) :
    n.childIndex c ≠ ART_EMPTY_SLOT ∧ slot n.children (n.childIndex c).toNat = some x := by
  rw [look_node48] at h
  split at h
  · cases h
  · next hc => exact ⟨hc, h⟩

theorem Node48.Tabled.kids_le {n : Node48 P} (h : n.Tabled) : (Inner.node48 n).kids.length ≤ 48 := by
  -- distinct bytes have distinct slots
  have hk : ((Inner.node48 n).kids.map Prod.fst).Nodup := graph_nodup allBytes_nodup _
  have hinj : ((Inner.node48 n).kids.map fun q => (n.childIndex q.1).toNat).Nodup :=
    List.pairwise_map.mpr ((List.pairwise_map.mp hk).imp_of_mem fun {q r} hq _ hne =>
      h.slot_ne (Node48.index_of_look (mem_kids.mp hq)).1 (Ne.symm hne))
  have hsub : ((Inner.node48 n).kids.map fun q => (n.childIndex q.1).toNat) ⊆ List.range 48 :=
    fun i hi => by
      obtain ⟨q, hq, rfl⟩ := List.mem_map.mp hi
      exact List.mem_range.mpr (h.len ▸ slot_lt (Node48.index_of_look (mem_kids.mp hq)).2)
  simpa using (hinj.subperm hsub).length_le

theorem look_setChild {n : Inner P} (hv : n.Coherent) {c : UInt8} {x : P} (hc : n.look c = some x)
    (o : Option P) : (n.setChild c o).look = Function.update n.look c o := by
  cases n with
  | node4 n => exact cellLook_setCell o (cell_of_look hc)
  | node16 n => exact cellLook_setCell o (cell_of_look hc)
  | node48 n =>
    obtain ⟨hi, hs⟩ := Node48.index_of_look hc
    funext d
    rw [Inner.setChild, if_neg hi, look_node48, Function.update_apply, look_node48]
    simp only [slot_set (slot_lt hs)]
    by_cases hd : d = c
    · simp [hd, hi]
    · simp [hd, Node48.Tabled.slot_ne hv hi hd]
  | node256 n =>
    funext d
    rw [Inner.setChild, look_node256, slot_set (slot_lt hc), Function.update_apply, look_node256]
    by_cases hd : d = c
    · simp [hd]
    · rw [if_neg (fun he => hd (UInt8.toNat_inj.mp he).symm), if_neg hd]

theorem Packed.Valid.setCell {capacity : Nat} {n : Packed P} (h : n.Valid capacity) (c : UInt8)
    (y : P) : Packed.Valid capacity { n with cells := setCell c (some y) n.cells } where
  keys := by rw [setCell_keys]; exact h.keys
  full q hq := (mem_setCell hq).elim (h.full q) fun he => by rw [he]; rfl
  count := by rw [← List.length_map (f := Prod.fst), setCell_keys, List.length_map]; exact h.count
  room := by rw [← List.length_map (f := Prod.fst), setCell_keys, List.length_map]; exact h.room

theorem setCell_self {c : UInt8} {o : Option P} : ∀ {cells : List (UInt8 × Option P)},
    cellLook cells c = o → setCell c o cells = cells
  | [], _ => rfl
  | q :: cells, h => by
    rw [cellLook_cons] at h
    rw [setCell]
    split
    · next hq => rw [if_pos hq] at h; rw [← h]
    · next hq => rw [if_neg hq] at h; rw [setCell_self h]

theorem set_slot_self {es : List (Option P)} {i : Nat} {x : P} (h : slot es i = some x) :
    es.set i (some x) = es := by
  have hi := slot_lt h
  rw [slot, List.getD_eq_getElem?_getD, List.getElem?_eq_getElem hi, Option.getD_some] at h
  rw [← h, List.set_getElem_self]

/-- Writing back the child that is there. -/
theorem setChild_self {n : Inner P} {c : UInt8} {x : P} (h : n.look c = some x) :
    n.setChild c (some x) = n := by
  cases n with
  | node4 n => rw [Inner.setChild, setCell_self h]
  | node16 n => rw [Inner.setChild, setCell_self h]
  | node48 n =>
    obtain ⟨hi, hs⟩ := Node48.index_of_look h
    rw [Inner.setChild, if_neg hi, set_slot_self hs]
  | node256 n => rw [Inner.setChild, set_slot_self h]

theorem kids_setChild_length {n : Inner P} (hv : n.Coherent) {c : UInt8} {x : P}
    (hc : n.look c = some x) (y : P) : (n.setChild c (some y)).kids.length = n.kids.length := by
  have := (kids_update (look_setChild hv hc (some y))).length_eq
  rw [hc] at this
  simpa using this

theorem Inner.Coherent.setChild {n : Inner P} (hv : n.Coherent) {c : UInt8} {x : P}
    (hc : n.look c = some x) (y : P) : (n.setChild c (some y)).Coherent := by
  cases n with
  | node4 n => exact Packed.Valid.setCell hv c y
  | node16 n => exact Packed.Valid.setCell hv c y
  | node48 n =>
    obtain ⟨hi, hs⟩ := Node48.index_of_look hc
    rw [Inner.setChild, if_neg hi]
    have hv : n.Tabled := hv
    refine ⟨by rw [List.length_set]; exact hv.len, fun d hd => ?_, hv.inj, fun i z hz => ?_⟩
    · rw [slot_set (slot_lt hs)]
      split
      · exact ⟨y, rfl⟩
      · exact hv.hit d hd
    · rw [slot_set (slot_lt hs)] at hz
      split at hz
      · next he => exact ⟨c, hi, he⟩
      · exact hv.cover i z hz
  | node256 n => exact (List.length_set ..).trans hv

/-- A node whose count is exact is valid as soon as its arrays are. -/
theorem Inner.Coherent.valid {n : Inner P} (h : n.Coherent)
    (count : n.type = .node48 → n.numChildren = n.kids.length) : n.Valid := by
  cases n with
  | node4 n => exact h
  | node16 n => exact h
  | node48 n =>
    have h : n.Tabled := h
    exact ⟨h.len, h.hit, h.inj, h.cover, count rfl⟩
  | node256 n => exact h

theorem Inner.Valid.setChild {n : Inner P} (hv : n.Valid) {c : UInt8} {x : P}
    (hc : n.look c = some x) (y : P) : (n.setChild c (some y)).Valid := by
  refine (hv.coherent.setChild hc y).valid fun ht => ?_
  rw [setChild_type] at ht
  rw [setChild_numChildren, kids_setChild_length hv.coherent hc y]
  exact hv.count (by rw [ht]; exact NodeType.noConfusion)

end Cdsa.Art
