import Cdsa.L2Art.Routing

/-!
# Adding and removing a child, changing the layout

Each of these is characterised by what it does to `look`: `Routes n n' f`
says that `n'` is a valid node with the header of `n` whose routing is `f`.
An upgrade or a downgrade that gets its block `Copies` the node.
-/
namespace Cdsa.Art

open Cdsa.Core Cdsa.Memory

variable {V P : Type}

/-- `n'` is a valid node with the header of `n` that routes by `f`. -/
structure Routes (n n' : Inner P) (f : UInt8 → Option P) : Prop where
  look : n'.look = f
  valid : n'.Valid
  header : n'.header = n.header

theorem kids_length_of_look {n n' : Inner P} (h : n'.look = n.look) :
    n'.kids.length = n.kids.length := by rw [Inner.kids, h, Inner.kids]

theorem length_of_perm_update {n n' : Inner P} {c : UInt8} {x : P} (hc : n.look c = none)
    (h : n'.look = Function.update n.look c (some x)) : n'.kids.length = n.kids.length + 1 := by
  have := (kids_update h).length_eq
  simp only [hc, Option.toList_none, List.map_nil, List.nil_append, Option.toList_some,
    List.map_cons, List.length_append, List.length_cons, List.length_nil] at this
  omega

theorem length_of_perm_erase {n n' : Inner P} {c : UInt8} {x : P} (hc : n.look c = some x)
    (h : n'.look = Function.update n.look c none) : n'.kids.length + 1 = n.kids.length := by
  have := (kids_update h).length_eq
  simp only [hc, Option.toList_none, List.map_nil, List.nil_append, Option.toList_some,
    List.map_cons, List.length_append, List.length_cons, List.length_nil] at this
  omega

/-! ## Removing -/

theorem Packed.removeChild_valid {capacity : Nat} {n : Packed P} (h : n.Valid capacity) {c : UInt8}
    (hc : c ∈ n.cells.map Prod.fst) {o : Option P} :
    ∃ n', Packed.removeChild c { n with cells := setCell c o n.cells } = n' ∧
      n'.Valid capacity ∧ cellLook n'.cells = Function.update (cellLook n.cells) c none ∧
      n'.numChildren = n.numChildren - 1 := by
  have hany : ∀ cells : List (UInt8 × Option P), c ∈ cells.map Prod.fst →
      (cells.any fun q => q.1 = c) = true := fun cells hm => by
    obtain ⟨q, hq, he⟩ := List.mem_map.mp hm
    exact List.any_eq_true.mpr ⟨q, hq, by simpa using he⟩
  have hlen : (n.cells.eraseP fun q => q.1 = c).length = n.cells.length - 1 := by
    obtain ⟨q, hq, he⟩ := List.mem_map.mp hc
    exact List.length_eraseP_of_mem hq (by simpa using he)
  refine ⟨_, rfl, ?_⟩
  rw [Packed.removeChild, if_pos (hany _ (by rw [setCell_keys]; exact hc))]
  simp only [eraseP_setCell]
  exact ⟨⟨h.keys.sublist (List.eraseP_sublist.map _),
    fun q hq => h.full q (List.mem_of_mem_eraseP hq), by simp only [hlen, h.count],
    by have := h.room; simp only [hlen]; omega⟩, cellLook_eraseP h.keys, trivial⟩

/-- Clearing the slot of a child and its entry in `child_index`. -/
theorem Node48.clear_tabled {n n' : Node48 P} (hv : n.Tabled) {c : UInt8} {x : P}
    (hc : (Inner.node48 n).look c = some x)
    (hchildren : n'.children = n.children.set (n.childIndex c).toNat none)
    (hindex : n'.childIndex = Function.update n.childIndex c ART_EMPTY_SLOT) :
    (Inner.node48 n').look = Function.update (Inner.node48 n).look c none ∧ n'.Tabled := by
  obtain ⟨hi, hs⟩ := Node48.index_of_look hc
  have hidx : ∀ d, n'.childIndex d ≠ ART_EMPTY_SLOT →
      d ≠ c ∧ n.childIndex d ≠ ART_EMPTY_SLOT ∧ n'.childIndex d = n.childIndex d := fun d hd => by
    rw [hindex] at hd ⊢
    by_cases hdc : d = c
    · subst hdc; simp at hd
    · rw [Function.update_of_ne hdc] at hd ⊢; exact ⟨hdc, hd, rfl⟩
  refine ⟨?_, ?_, fun d hd => ?_, fun d d' hd he => ?_, fun i z hz => ?_⟩
  · funext d
    rw [look_node48, Function.update_apply, look_node48, hindex, hchildren]
    by_cases hd : d = c
    · simp [hd]
    · simp only [Function.update_of_ne hd, if_neg hd]
      split
      · rfl
      · rw [slot_set_ne (hv.slot_ne hi hd)]
  · rw [hchildren]
    exact (List.length_set ..).trans hv.len
  · obtain ⟨hdc, hd', he⟩ := hidx d hd
    rw [he, hchildren, slot_set_ne (hv.slot_ne hi hdc)]
    exact hv.hit d hd'
  · obtain ⟨hdc, hdn, hde⟩ := hidx d hd
    obtain ⟨hdc', hdn', hde'⟩ := hidx d' (he ▸ hd)
    exact hv.inj d d' hdn (hde ▸ hde' ▸ he)
  · rw [hchildren, slot_set (slot_lt hs)] at hz
    split at hz
    · cases hz
    · next hne =>
      obtain ⟨d, hd, hdi⟩ := hv.cover i z hz
      have hdc : d ≠ c := fun h => hne (h ▸ hdi)
      rw [hindex]
      exact ⟨d, by rwa [Function.update_of_ne hdc], by rwa [Function.update_of_ne hdc]⟩

/-- Clearing the slot of a child, then removing it: in a Node256 the slot is
then empty already, and the count stays. -/
theorem removeChild_spec {n : Inner P} (hv : n.Valid) {c : UInt8} {x : P} (hc : n.look c = some x) :
    Routes n ((n.setChild c none).removeChild c) (Function.update n.look c none) ∧
      ((n.setChild c none).removeChild c).numChildren =
        if n.type = .node256 then n.numChildren else n.numChildren - 1 := by
  have hlook := look_setChild hv.coherent hc none
  cases n with
  | node4 n =>
    obtain ⟨n', rfl, hv', hl, hn⟩ := Packed.removeChild_valid hv (cell_of_look hc) (o := none)
    exact ⟨⟨hl, hv', by simp⟩, hn⟩
  | node16 n =>
    obtain ⟨n', rfl, hv', hl, hn⟩ := Packed.removeChild_valid hv (cell_of_look hc) (o := none)
    exact ⟨⟨hl, hv', by simp⟩, hn⟩
  | node256 n =>
    have hnone : slot (n.children.set c.toNat none) c.toNat = none := slot_set_self (slot_lt hc) _
    have hr : ((Inner.node256 n).setChild c none).removeChild c = (Inner.node256 n).setChild c none := by
      simp only [Inner.setChild, Inner.removeChild, Node256.removeChild, hnone, Option.isSome_none,
        Bool.false_eq_true, if_false]
    rw [hr]
    exact ⟨⟨hlook, (List.length_set ..).trans hv, by simp⟩, by simp [Inner.type]⟩
  | node48 n =>
    obtain ⟨hi, -⟩ := Node48.index_of_look hc
    have hv : n.Valid := hv
    obtain ⟨m, hm, hchildren, hindex, hnum, hhead⟩ : ∃ m : Node48 P,
        ((Inner.node48 n).setChild c none).removeChild c = .node48 m ∧
        m.children = n.children.set (n.childIndex c).toNat none ∧
        m.childIndex = Function.update n.childIndex c ART_EMPTY_SLOT ∧
        m.numChildren = n.numChildren - 1 ∧ m.header = n.header := by
      refine ⟨Node48.removeChild c { n with
        children := n.children.set (n.childIndex c).toNat none }, ?_, ?_⟩
      · rw [Inner.setChild, if_neg hi]
        rfl
      · simp only [Node48.removeChild, if_neg hi, List.set_set, and_self]
    obtain ⟨hl, ht⟩ := Node48.clear_tabled hv.tabled hc hchildren hindex
    have hcount := length_of_perm_erase hc hl
    have hn := hv.count
    rw [hm]
    refine ⟨⟨hl, Inner.Coherent.valid ht fun _ => ?_, hhead⟩, hnum⟩
    show m.numChildren = _
    omega

/-! ## Adding -/

theorem Packed.append_valid {capacity : Nat} {n : Packed P} (h : n.Valid capacity) {c : UInt8} (x : P)
    (hc : cellLook n.cells c = none) (hr : n.numChildren < capacity) :
    (n.append c x).Valid capacity ∧
      cellLook (n.append c x).cells = Function.update (cellLook n.cells) c (some x) := by
  have hcm : c ∉ n.cells.map Prod.fst := fun hm => by
    obtain ⟨⟨d, o⟩, hq, rfl⟩ := List.mem_map.mp hm
    obtain ⟨y, hy⟩ := Option.isSome_iff_exists.mp (h.full _ hq)
    simp only at hy
    rw [hy] at hq
    rw [(cellLook_eq_some h.keys).mpr hq] at hc; cases hc
  refine ⟨⟨?_, ?_, ?_, ?_⟩, cellLook_append hcm⟩
  · simp only [Packed.append, List.map_append, List.map_cons, List.map_nil]
    exact (List.nodup_append_comm.mpr (List.nodup_cons.mpr ⟨hcm, h.keys⟩))
  · intro q hq
    rcases List.mem_append.mp hq with hq | hq
    · exact h.full q hq
    · rw [List.mem_singleton.mp hq]; rfl
  · simp [Packed.append, h.count]
  · have := h.count; simp only [Packed.append, List.length_append, List.length_singleton]; omega

theorem toNat_slot {i : Nat} (hi : i < 48) : (UInt8.ofNat i).toNat = i ∧ UInt8.ofNat i ≠ ART_EMPTY_SLOT := by
  have h : (UInt8.ofNat i).toNat = i := UInt8.toNat_ofNat_of_lt' (by show i < 2 ^ 8; omega)
  refine ⟨h, fun he => ?_⟩
  rw [he] at h
  have : (ART_EMPTY_SLOT).toNat = 255 := rfl
  omega

theorem Node48.put_tabled {n : Node48 P} (hv : n.Tabled) {c : UInt8} (x : P)
    (hc : (Inner.node48 n).look c = none) {i : Nat} (hi : i < 48) (hs : slot n.children i = none) :
    (Inner.node48 (n.put c i x)).look = Function.update (Inner.node48 n).look c (some x) ∧
      (n.put c i x).Tabled := by
  obtain ⟨hto, hne⟩ := toNat_slot hi
  have hil : i < n.children.length := by rw [hv.len]; exact hi
  have hfree : n.childIndex c = ART_EMPTY_SLOT := by
    by_contra h
    obtain ⟨y, hy⟩ := hv.hit c h
    rw [look_node48, if_neg h, hy] at hc; cases hc
  have hother : ∀ d, n.childIndex d ≠ ART_EMPTY_SLOT → i ≠ (n.childIndex d).toNat := fun d hd he => by
    obtain ⟨y, hy⟩ := hv.hit d hd
    rw [← he, hs] at hy; cases hy
  have hl : (Inner.node48 (n.put c i x)).look = Function.update (Inner.node48 n).look c (some x) := by
    funext d
    rw [look_node48, Function.update_apply, look_node48]
    by_cases hd : d = c
    · simp [Node48.put, hd, hne, hto, slot_set_self hil]
    · simp only [Node48.put, Function.update_of_ne hd, if_neg hd]
      split
      · rfl
      · next h => rw [slot_set_ne (hother d h)]
  refine ⟨hl, (List.length_set ..).trans hv.len, fun d hd => ?_, fun d d' hd he => ?_,
    fun j z hz => ?_⟩
  · by_cases hdc : d = c
    · exact ⟨x, by simp [Node48.put, hdc, hto, slot_set_self hil]⟩
    · simp only [Node48.put, Function.update_of_ne hdc] at hd ⊢
      rw [slot_set_ne (hother d hd)]; exact hv.hit d hd
  · by_cases hdc : d = c
    · by_cases hdc' : d' = c
      · rw [hdc, hdc']
      · exfalso
        simp only [Node48.put, hdc, Function.update_self, Function.update_of_ne hdc'] at he
        exact hother d' (he ▸ hne) (by rw [← he, hto])
    · by_cases hdc' : d' = c
      · exfalso
        simp only [Node48.put, hdc', Function.update_self, Function.update_of_ne hdc] at he
        exact hother d (he ▸ hne) (by rw [he, hto])
      · simp only [Node48.put, Function.update_of_ne hdc, Function.update_of_ne hdc'] at hd he
        exact hv.inj d d' hd he
  · simp only [Node48.put, slot_set hil] at hz
    split at hz
    · next h =>
      refine ⟨c, by simp [Node48.put, hne], ?_⟩
      show (Function.update n.childIndex c (UInt8.ofNat i) c).toNat = j
      rw [Function.update_self, hto, h]
    · obtain ⟨d, hd, hdj⟩ := hv.cover j z hz
      have hdc : d ≠ c := fun h => hd (h ▸ hfree)
      exact ⟨d, by simpa only [Node48.put, Function.update_of_ne hdc] using hd,
        by simpa only [Node48.put, Function.update_of_ne hdc] using hdj⟩

theorem Node48.put_spec {n : Node48 P} (hv : n.Valid) {c : UInt8} (x : P)
    (hc : (Inner.node48 n).look c = none) {i : Nat} (hi : i < 48) (hs : slot n.children i = none) :
    Routes (.node48 n) (.node48 (n.put c i x))
      (Function.update (Inner.node48 n).look c (some x)) := by
  obtain ⟨hl, ht⟩ := Node48.put_tabled hv.tabled x hc hi hs
  refine ⟨hl, Inner.Coherent.valid ht fun _ => ?_, rfl⟩
  have h1 := hv.count
  have h2 := length_of_perm_update hc hl
  show n.numChildren + 1 = _
  omega

theorem slot_of_freeIndex {children : List (Option P)} {i : Nat}
    (h : freeIndex children = some i) : i < children.length ∧ slot children i = none := by
  obtain ⟨hi, hnone, -⟩ := List.findIdx?_eq_some_iff_getElem.mp h
  exact ⟨hi, by simpa [slot, hi] using hnone⟩

/-- A Node48 with fewer than 48 children has a free slot. -/
theorem freeIndex_spec {n : Node48 P} (hv : n.Valid) (hn : n.numChildren < 48) :
    ∃ i, freeIndex n.children = some i ∧ i < 48 ∧ slot n.children i = none := by
  cases hf : freeIndex n.children with
  | some i =>
    obtain ⟨hi, hs⟩ := slot_of_freeIndex hf
    exact ⟨i, rfl, hv.len ▸ hi, hs⟩
  | none =>
    exfalso
    have hall : ∀ i, i < 48 → ∃ z, slot n.children i = some z := fun i hi => by
      have hi' : i < n.children.length := hv.len ▸ hi
      have := List.findIdx?_eq_none_iff.mp hf n.children[i] (List.getElem_mem hi')
      obtain ⟨z, hz⟩ := Option.isSome_iff_exists.mp (by simpa using this)
      exact ⟨z, by simp [slot, hi', hz]⟩
    -- every slot is then the slot of some byte, so there are at least 48 children
    have hsub : List.range 48 ⊆
        (Inner.node48 n).kids.map fun q => (n.childIndex q.1).toNat := fun i hi => by
      obtain ⟨z, hz⟩ := hall i (List.mem_range.mp hi)
      obtain ⟨c, hc, hci⟩ := hv.cover i z hz
      refine List.mem_map.mpr ⟨(c, z), mem_kids.mpr ?_, hci⟩
      rw [look_node48, if_neg hc, hci, hz]
    have := (List.nodup_range.subperm hsub).length_le
    rw [List.length_range, List.length_map, ← hv.count] at this
    omega

theorem Node256.put_spec {n : Node256 P} (hv : n.children.length = 256) (c : UInt8) (x : P) :
    Routes (.node256 n) (.node256 (n.put c x))
      (Function.update (Inner.node256 n).look c (some x)) := by
  refine ⟨?_, (List.length_set ..).trans hv, rfl⟩
  have hc : c.toNat < n.children.length := by rw [hv]; exact c.toNat_lt
  funext d
  rw [look_node256, Function.update_apply, look_node256]
  simp only [Node256.put, slot_set hc]
  by_cases hd : d = c
  · simp [hd]
  · rw [if_neg (fun he => hd (UInt8.toNat_inj.mp he).symm), if_neg hd]

/-! ## Other layouts -/

theorem fillIndex_of_not_mem {c : UInt8} : ∀ {cells : List (UInt8 × Option P)} {i : Nat}
    {ci : UInt8 → UInt8}, c ∉ cells.map Prod.fst → fillIndex cells i ci c = ci c
  | [], _, _, _ => rfl
  | q :: cells, i, ci, h => by
    rw [List.map_cons, List.mem_cons, not_or] at h
    rw [fillIndex, fillIndex_of_not_mem h.2, Function.update_of_ne h.1]

theorem fillIndex_getElem : ∀ {cells : List (UInt8 × Option P)} {i : Nat} {ci : UInt8 → UInt8},
    (cells.map Prod.fst).Nodup → ∀ {j : Nat} (hj : j < cells.length),
      fillIndex cells i ci cells[j].1 = UInt8.ofNat (i + j)
  | q :: cells, i, ci, h, j, hj => by
    rw [List.map_cons, List.nodup_cons] at h
    cases j with
    | zero => rw [List.getElem_cons_zero, fillIndex, fillIndex_of_not_mem h.1, Function.update_self]; rfl
    | succ j =>
      rw [List.getElem_cons_succ, fillIndex,
        fillIndex_getElem h.2 (Nat.lt_of_succ_lt_succ hj), Nat.add_right_comm, Nat.add_assoc]

/-- The byte of cell `j` has slot `j`. -/
theorem fillIndex_slot {cells : List (UInt8 × Option P)} (hk : (cells.map Prod.fst).Nodup)
    (hl : cells.length ≤ 48) (ci : UInt8 → UInt8) {j : Nat} (hj : j < cells.length) :
    (fillIndex cells 0 ci cells[j].1).toNat = j ∧ fillIndex cells 0 ci cells[j].1 ≠ ART_EMPTY_SLOT := by
  rw [fillIndex_getElem hk hj, Nat.zero_add]
  exact toNat_slot (by omega)

/-- Filling a Node48 with cells without duplicates or holes. -/
theorem tabulate_tabled {block num : Nat} {header : NodeHeader} {cells : List (UInt8 × Option P)}
    (hk : (cells.map Prod.fst).Nodup) (hs : ∀ q ∈ cells, q.2.isSome) (hl : cells.length ≤ 48) :
    ∃ n, tabulate block header num cells = some n ∧ (Inner.node48 n).look = cellLook cells ∧
      n.Tabled ∧ n.block = block ∧ n.header = header ∧ n.numChildren = num ∧
      ∀ i, cells.length ≤ i → slot n.children i = none := by
  refine ⟨_, if_pos hl, ?_⟩
  set n : Node48 P := {
    block, header
    numChildren := num
    childIndex := fillIndex cells 0 fun _ => ART_EMPTY_SLOT
    children := cells.map Prod.snd ++ List.replicate (48 - cells.length) none } with hdef
  have hto : ∀ {j} (hj : j < cells.length), (n.childIndex cells[j].1).toNat = j ∧
      n.childIndex cells[j].1 ≠ ART_EMPTY_SLOT := fun hj => fillIndex_slot hk hl _ hj
  have hcell : ∀ {j} (hj : j < cells.length), slot n.children j = cells[j].2 := fun {j} hj => by
    simp [hdef, slot, hj, List.getElem?_append_left]
  have hout : ∀ {c}, c ∉ cells.map Prod.fst → n.childIndex c = ART_EMPTY_SLOT := fun hc =>
    fillIndex_of_not_mem hc
  -- an entry that is in use is that of a cell
  have hmem : ∀ {c}, n.childIndex c ≠ ART_EMPTY_SLOT →
      ∃ j, ∃ hj : j < cells.length, cells[j].1 = c := fun {c} hc => by
    by_contra hne
    refine hc (hout fun hm => hne ?_)
    obtain ⟨q, hq, rfl⟩ := List.mem_map.mp hm
    obtain ⟨j, hj, rfl⟩ := List.mem_iff_getElem.mp hq
    exact ⟨j, hj, rfl⟩
  have hlook : (Inner.node48 n).look = cellLook cells := by
    funext c
    rw [look_node48]
    by_cases hc : n.childIndex c = ART_EMPTY_SLOT
    · rw [if_pos hc, cellLook_none]
      intro hm
      obtain ⟨q, hq, rfl⟩ := List.mem_map.mp hm
      obtain ⟨j, hj, rfl⟩ := List.mem_iff_getElem.mp hq
      exact (hto hj).2 hc
    · obtain ⟨j, hj, rfl⟩ := hmem hc
      have hq := List.getElem_mem hj
      obtain ⟨x, hx⟩ := Option.isSome_iff_exists.mp (hs _ hq)
      rw [if_neg hc, (hto hj).1, hcell hj, hx]
      exact ((cellLook_eq_some hk).mpr (hx ▸ hq)).symm
  have hfree : ∀ i, cells.length ≤ i → slot n.children i = none := fun i hi => by
    simp only [hdef, slot, List.getD_eq_getElem?_getD]
    rw [List.getElem?_append_right (by simpa using hi), List.getElem?_replicate]
    split <;> rfl
  refine ⟨hlook, ⟨by simp [hdef, hl], fun c hc => ?_, fun c d hc he => ?_, fun i x hx => ?_⟩,
    rfl, rfl, rfl, hfree⟩
  · obtain ⟨j, hj, rfl⟩ := hmem hc
    rw [(hto hj).1, hcell hj]
    exact Option.isSome_iff_exists.mp (hs _ (List.getElem_mem hj))
  · obtain ⟨j, hj, rfl⟩ := hmem hc
    obtain ⟨k, hk', rfl⟩ := hmem (he ▸ hc)
    have hjk : j = k := (hto hj).1.symm.trans ((congrArg UInt8.toNat he).trans (hto hk').1)
    subst hjk
    rfl
  · have hi : i < cells.length := by
      by_contra hge
      rw [hfree i (Nat.not_lt.mp hge)] at hx; cases hx
    exact ⟨cells[i].1, (hto hi).2, (hto hi).1⟩

/-- The children of a node as cells, in byte order. -/
def kidCells (n : Inner P) : List (UInt8 × Option P) := n.kids.map fun q => (q.1, some q.2)

theorem kidCells_spec (n : Inner P) : ((kidCells n).map Prod.fst).Nodup ∧
    (∀ q ∈ kidCells n, q.2.isSome) ∧ (kidCells n).length = n.kids.length ∧
    cellLook (kidCells n) = n.look := by
  have hk : ((kidCells n).map Prod.fst).Nodup := by
    rw [kidCells, List.map_map]; exact graph_nodup allBytes_nodup n.look
  refine ⟨hk, fun q hq => ?_, List.length_map _, ?_⟩
  · obtain ⟨r, -, rfl⟩ := List.mem_map.mp hq; rfl
  · funext c
    ext x
    rw [cellLook_eq_some hk, ← mem_kids, kidCells, List.mem_map]
    constructor
    · rintro ⟨q, hq, he⟩; cases he; exact hq
    · intro h; exact ⟨_, h, rfl⟩

theorem Node256.cells_eq (n : Node256 P) : n.cells = kidCells (.node256 n) := by
  rw [Node256.cells, kidCells, Inner.kids, graph, List.map_filterMap]
  congr 1; funext c
  rw [look_node256]; cases slot n.children c.toNat <;> rfl

theorem Node48.cells_eq {n : Node48 P} (hv : n.Tabled) : n.cells = kidCells (.node48 n) := by
  rw [Node48.cells, kidCells, Inner.kids, graph, List.map_filterMap]
  congr 1; funext c
  rw [Inner.Coherent.findChild (n := .node48 n) hv, if_neg (by simp [Inner.type])]
  cases (Inner.node48 n).look c <;> rfl

theorem clip_length (cells : List (UInt8 × Option P)) : clip cells.length cells = cells := by
  simp [clip]

/-! ## One layout to another -/

/-- `m` is `n` in another layout, in the block `b`. -/
structure Copies (n m : Inner P) (b : Nat) : Prop where
  look : m.look = n.look
  header : m.header = n.header
  numChildren : m.numChildren = n.numChildren
  block : m.block = b
  coherent : m.Coherent

theorem Copies.valid {n m : Inner P} {b : Nat} (h : Copies n m b)
    (hn : n.numChildren = n.kids.length) : m.Valid :=
  h.coherent.valid fun _ => by rw [h.numChildren, hn, kids_length_of_look h.look]

section
variable {e e1 : Env} {b : Nat}

theorem upgradeNode4ToNode16_spec {n : Packed P} (hv : n.Valid 4)
    (ha : e.allocBlock .node16 = (some b, e1)) :
    ∃ m, upgradeNode4ToNode16 e n = (some m, e1.freeBlock .node4 n.block) ∧
      Copies (.node4 n) (.node16 m) b := by
  refine ⟨{ n with block := b }, by rw [upgradeNode4ToNode16, ha], rfl, rfl, rfl, rfl, ?_⟩
  exact ⟨hv.keys, hv.full, hv.count, Nat.le_trans hv.room (by omega)⟩

/-- The slots behind the children are free. -/
theorem upgradeNode16ToNode48_spec {n : Packed P} (hv : n.Valid 16)
    (ha : e.allocBlock .node48 = (some b, e1)) :
    ∃ m, upgradeNode16ToNode48 e n = some (some m, e1.freeBlock .node16 n.block) ∧
      Copies (.node16 n) (.node48 m) b ∧ ∀ i, n.numChildren ≤ i → slot m.children i = none := by
  obtain ⟨m, hm, hl, ht, hb, hh, hn, hfree⟩ := @tabulate_tabled _ b n.numChildren n.header _
    hv.keys hv.full (Nat.le_trans hv.room (by omega))
  refine ⟨m, ?_, ⟨hl, hh, hn, hb, ht⟩, fun i hi => hfree i (hv.count ▸ hi)⟩
  rw [upgradeNode16ToNode48, ha]
  simp only [hm, Option.map_some]

theorem upgradeNode48ToNode256_spec (n : Node48 P) (ha : e.allocBlock .node256 = (some b, e1)) :
    ∃ m, upgradeNode48ToNode256 e n = (some m, e1.freeBlock .node48 n.block) ∧
      Copies (.node48 n) (.node256 m) b := by
  refine ⟨_, by rw [upgradeNode48ToNode256, ha], ?_, rfl, rfl, rfl, ?_⟩
  · funext c
    rw [look_node256]
    simp [slot, allBytes, c.toNat_lt, Inner.look]
  · show (allBytes.map _).length = 256
    rw [List.length_map, allBytes, List.length_map, List.length_range]

theorem downgradeNode256ToNode48_spec {n : Node256 P} (fits : (Inner.node256 n).kids.length ≤ 48)
    (ha : e.allocBlock .node48 = (some b, e1)) :
    ∃ m, downgradeNode256ToNode48 e n = some (some m, e1.freeBlock .node256 n.block) ∧
      Copies (.node256 n) (.node48 m) b := by
  obtain ⟨hkeys, hfull, hlen, hlook⟩ := kidCells_spec (Inner.node256 n)
  obtain ⟨m, hm, hl, ht, hb, hh, hn, -⟩ := @tabulate_tabled _ b n.numChildren n.header _
    hkeys hfull (hlen ▸ fits)
  refine ⟨m, ?_, hl.trans hlook, hh, hn, hb, ht⟩
  rw [downgradeNode256ToNode48, ha]
  simp only [Node256.cells_eq, hm, Option.map_some]

theorem downgradeNode48ToNode16_spec {n : Node48 P} (hv : n.Valid) (fits : n.numChildren ≤ 16)
    (ha : e.allocBlock .node16 = (some b, e1)) :
    ∃ m, downgradeNode48ToNode16 e n = some (some m, e1.freeBlock .node48 n.block) ∧
      Copies (.node48 n) (.node16 m) b := by
  obtain ⟨hkeys, hfull, hlen, hlook⟩ := kidCells_spec (Inner.node48 n)
  have hcount : n.numChildren = (kidCells (.node48 n)).length := hv.count.trans hlen.symm
  have hclip : clip n.numChildren (Node48.cells n) = kidCells (.node48 n) := by
    rw [hcount, ← Node48.cells_eq hv.tabled, clip_length]
  have hfits : (Node48.cells n).length ≤ 16 := by rwa [Node48.cells_eq hv.tabled, ← hcount]
  refine ⟨⟨b, n.header, n.numChildren, kidCells (.node48 n)⟩, ?_, hlook, rfl, rfl, rfl,
    hkeys, hfull, hcount, hcount ▸ fits⟩
  rw [downgradeNode48ToNode16, ha]
  simp only [if_pos hfits, hclip]

theorem downgradeNode16ToNode4_spec {n : Packed P} (hv : n.Valid 16) (fits : n.numChildren ≤ 4)
    (ha : e.allocBlock .node4 = (some b, e1)) :
    ∃ m, downgradeNode16ToNode4 e n = (some m, e1.freeBlock .node16 n.block) ∧
      Copies (.node16 n) (.node4 m) b :=
  ⟨{ n with block := b }, by rw [downgradeNode16ToNode4, ha], rfl, rfl, rfl, rfl,
    hv.keys, hv.full, hv.count, hv.count ▸ fits⟩

end

/-! ## The first child -/

/-- `find_minimum_leaf` goes on to a child. -/
theorem look_of_firstChild {n : Inner (Node V)} (hv : n.Coherent) {x : Node V}
    (h : firstChild n = some x) : ∃ c, n.look c = some x := by
  have hcells : ∀ {capacity : Nat} {p : Packed (Node V)}, p.Valid capacity →
      p.cells.head?.bind Prod.snd = some x → ∃ c, cellLook p.cells c = some x := by
    intro capacity p hp h
    obtain ⟨⟨c, o⟩, hq, ho⟩ := Option.bind_eq_some_iff.mp h
    cases ho
    exact ⟨c, (cellLook_eq_some hp.keys).mpr (List.mem_of_mem_head? hq)⟩
  cases n with
  | node4 p => exact hcells hv h
  | node16 p => exact hcells hv h
  | node48 p =>
    obtain ⟨c, hc, hs⟩ := Option.bind_eq_some_iff.mp h
    have hci : p.childIndex c ≠ ART_EMPTY_SLOT := by simpa using List.find?_some hc
    exact ⟨c, by rw [look_node48, if_neg hci, hs]⟩
  | node256 p =>
    obtain ⟨-, c, -, -, hc, -⟩ := List.findSome?_eq_some_iff.mp h
    exact ⟨c, hc⟩

/-- There is one, if the node has any. -/
theorem firstChild_spec {n : Inner (Node V)} (hv : n.Coherent) (hne : n.kids ≠ []) :
    ∃ c x, firstChild n = some x ∧ n.look c = some x := by
  suffices hsome : ∃ x, firstChild n = some x by
    obtain ⟨x, hx⟩ := hsome
    obtain ⟨c, hc⟩ := look_of_firstChild hv hx
    exact ⟨c, x, hx, hc⟩
  obtain ⟨⟨c, x⟩, hcx⟩ := List.exists_mem_of_ne_nil _ hne
  have hcx := mem_kids.mp hcx
  have hcells : ∀ {capacity : Nat} {p : Packed (Node V)}, p.Valid capacity →
      cellLook p.cells c = some x → ∃ y, p.cells.head?.bind Prod.snd = some y := by
    intro capacity p hp hc
    cases hl : p.cells with
    | nil => rw [hl] at hc; cases hc
    | cons q cells =>
      obtain ⟨y, hy⟩ := Option.isSome_iff_exists.mp (hp.full q (by simp [hl]))
      exact ⟨y, by simp [hy]⟩
  cases n with
  | node4 p => exact hcells hv hcx
  | node16 p => exact hcells hv hcx
  | node48 p =>
    obtain ⟨hi, -⟩ := Node48.index_of_look hcx
    have hfound : (allBytes.find? fun c => p.childIndex c ≠ ART_EMPTY_SLOT).isSome :=
      List.find?_isSome.mpr ⟨c, mem_allBytes c, decide_eq_true hi⟩
    obtain ⟨d, hd⟩ := Option.isSome_iff_exists.mp hfound
    have hdi : p.childIndex d ≠ ART_EMPTY_SLOT := by simpa using List.find?_some hd
    obtain ⟨y, hy⟩ := Node48.Tabled.hit hv d hdi
    exact ⟨y, by simp only [firstChild, hd, Option.bind_some, hy]⟩
  | node256 p =>
    have hfound : (allBytes.findSome? fun c => slot p.children c.toNat).isSome :=
      List.findSome?_isSome_iff.mpr ⟨c, mem_allBytes c, by rw [← look_node256, hcx]; rfl⟩
    exact Option.isSome_iff_exists.mp hfound

end Cdsa.Art
