import Cdsa.L2Art.Shape

/-!
# Comparing a key with compressed prefixes

`agree` is the length of the common start of two byte strings. On a
well-formed node all comparisons stay inside both strings, because no prefix
contains a NUL, and

* `checkPrefix_spec`: `check_prefix` counts the agreement with the stored ten
  bytes;
* `matchPrefix_spec`: an insertion counts the agreement with the whole prefix,
  whichever leaf it asks for the rest;
* `enter_cases`: how a search or a deletion gets past the prefix.
-/
namespace Cdsa.Art

open Cdsa.Core Cdsa.Memory

variable {V : Type}

/-! ## `agree` -/

theorem agree_le_left : ∀ {a b : List UInt8}, agree a b ≤ a.length
  | [], _ => by simp [agree]
  | _ :: _, [] => by simp [agree]
  | x :: a, y :: b => by
    rw [agree]; split
    · exact Nat.succ_le_succ agree_le_left
    · exact Nat.zero_le _

theorem agree_le_right : ∀ {a b : List UInt8}, agree a b ≤ b.length
  | [], _ => by simp [agree]
  | _ :: _, [] => by simp [agree]
  | x :: a, y :: b => by
    rw [agree]; split
    · exact Nat.succ_le_succ agree_le_right
    · exact Nat.zero_le _

theorem take_agree : ∀ {a b : List UInt8}, a.take (agree a b) = b.take (agree a b)
  | [], _ => by simp [agree]
  | _ :: _, [] => by simp [agree]
  | x :: a, y :: b => by
    rw [agree]; split
    · next h => rw [List.take_succ_cons, List.take_succ_cons, h, take_agree]
    · rfl

/-- After the agreement the two differ. -/
theorem agree_ne : ∀ {a b : List UInt8} {x y : UInt8}, a[agree a b]? = some x →
    b[agree a b]? = some y → x ≠ y
  | [], _, _, _, h, _ => by simp at h
  | _ :: _, [], _, _, _, h => by simp at h
  | p :: a, q :: b, x, y, hx, hy => by
    rw [agree] at hx hy
    split at hx
    · next h =>
      rw [if_pos h] at hy
      exact agree_ne (a := a) (b := b) (by simpa using hx) (by simpa using hy)
    · next h =>
      rw [if_neg h] at hy
      simp at hx hy
      exact hx ▸ hy ▸ h

theorem agree_append : ∀ {p a b : List UInt8}, p <+: b →
    agree (p ++ a) b = p.length + agree a (b.drop p.length)
  | [], a, b, _ => by simp
  | x :: p, a, [], h => by simp at h
  | x :: p, a, y :: b, h => by
    obtain ⟨rfl, hp⟩ := List.cons_prefix_cons.mp h
    rw [List.cons_append, agree, if_pos rfl, agree_append hp, List.length_cons, List.drop_succ_cons,
      Nat.add_right_comm]

theorem agree_eq_length {a b : List UInt8} : agree a b = a.length ↔ a <+: b := by
  constructor
  · intro h
    have := take_agree (a := a) (b := b)
    rw [h, List.take_length] at this
    rw [this]; exact List.take_prefix _ _
  · intro h
    have := agree_append (a := []) h
    rwa [List.append_nil, show agree [] _ = 0 by simp [agree], Nat.add_zero] at this

theorem agree_take (n : Nat) : ∀ a b : List UInt8, agree (a.take n) b = min n (agree a b) := by
  induction n with
  | zero => intro a b; simp [agree]
  | succ n ih =>
    intro a b
    cases a with
    | nil => simp [agree]
    | cons x a =>
      cases b with
      | nil => simp [agree]
      | cons y b =>
        rw [List.take_succ_cons, agree, agree]
        split
        · rw [ih]; omega
        · simp

/-! ## Reading a key -/

theorem read_some {key : CStr} {i : Nat} (h : i ≤ key.strlen) : ∃ c, read key i = some c :=
  ⟨_, List.getElem?_eq_getElem (by rw [CStr.length_term]; omega)⟩

theorem drop_read {key : CStr} {i : Nat} {c : UInt8} (h : read key i = some c) :
    key.term.drop i = c :: key.term.drop (i + 1) := by
  obtain ⟨hi, rfl⟩ := List.getElem?_eq_some_iff.mp h
  exact List.drop_eq_getElem_cons hi

theorem read_of_drop {key : CStr} {i : Nat} {c : UInt8} {cs : List UInt8}
    (h : c :: cs <+: key.term.drop i) : read key i = some c := by
  obtain ⟨r, hr⟩ := h
  have := congrArg (·[0]?) hr
  simpa [read] using this.symm

theorem read_le {key : CStr} {i : Nat} {c : UInt8} (h : read key i = some c) : i ≤ key.strlen := by
  obtain ⟨hi, -⟩ := List.getElem?_eq_some_iff.mp h
  rw [CStr.length_term] at hi
  exact Nat.le_of_lt_succ hi

/-- Only the terminator reads as NUL. -/
theorem read_lt {key : CStr} {i : Nat} {c : UInt8} (h : read key i = some c) (hc : c ≠ 0) :
    i < key.strlen := by
  refine Nat.lt_of_le_of_ne (read_le h) fun he => hc ?_
  rw [read, he, CStr.term, CStr.strlen, List.getElem?_concat_length] at h
  exact (Option.some.inj h).symm

/-- Bytes other than NUL that a key goes on with lie before its terminator. -/
theorem within {key : CStr} : ∀ {ps : List UInt8} {i : Nat}, 0 ∉ ps → ps <+: key.term.drop i →
    i ≤ key.strlen → i + ps.length ≤ key.strlen
  | [], _, _, _, hi => hi
  | p :: ps, i, h0, hp, hi => by
    obtain ⟨c, hc⟩ := read_some hi
    rw [drop_read hc] at hp
    obtain ⟨rfl, hps⟩ := List.cons_prefix_cons.mp hp
    rw [List.mem_cons, not_or] at h0
    have := within h0.2 hps (read_lt hc (Ne.symm h0.1))
    rw [List.length_cons]; omega

/-- The byte a key continues a path with. -/
theorem read_follows {key : CStr} {p : List UInt8} {c : UInt8} (h : p ++ [c] <+: key.term) :
    read key p.length = some c := by
  obtain ⟨r, hr⟩ := h
  rw [read, ← hr, List.append_assoc, List.getElem?_append_right (Nat.le_refl _), Nat.sub_self]
  rfl

theorem prefix_of_read {key : CStr} {p : List UInt8} {c : UInt8} (h : p <+: key.term)
    (hc : read key p.length = some c) : p ++ [c] <+: key.term := by
  obtain ⟨r, hr⟩ := h
  have := drop_read hc
  rw [← hr, List.drop_left] at this
  exact ⟨_, by rw [← hr, this, List.append_assoc]; rfl⟩

/-- What a string that goes on with `s` goes on with after `m` bytes of it. -/
theorem follows_drop {p s k : List UInt8} (h : p ++ s <+: k) {m : Nat} (hm : m ≤ s.length) :
    s.drop m <+: k.drop (p.length + m) := by
  obtain ⟨r, hr⟩ := h
  refine ⟨r, ?_⟩
  rw [← hr, ← List.drop_drop, List.append_assoc, List.drop_left, List.drop_append_of_le_length hm]

theorem prefix_drop {key : CStr} {p s : List UInt8} (h : p <+: key.term) :
    s <+: key.term.drop p.length ↔ p ++ s <+: key.term := by
  obtain ⟨r, hr⟩ := h
  rw [← hr, List.drop_left, List.prefix_append_right_inj]

/-- A key that agrees with all of `s` goes on with it. -/
theorem follows_of_agree {key : CStr} {p s : List UInt8} (h : p <+: key.term)
    (hfull : ¬ agree s (key.term.drop p.length) < s.length) : p ++ s <+: key.term :=
  (prefix_drop h).mp (agree_eq_length.mp (Nat.le_antisymm agree_le_left (Nat.not_lt.mp hfull)))

theorem toInt_short {n : Nat} (h : n ≤ intMax) : toInt n = n := by
  unfold intMax at h
  unfold toInt; rw [Int.bmod_def]; split <;> omega

theorem toInt_le (n : Nat) : toInt n ≤ n := by
  unfold toInt; rw [Int.bmod_def]; split <;> omega

theorem toInt_long {n : Nat} (h1 : 2 ^ 31 ≤ n) (h2 : n < 2 ^ 32) : toInt n < 0 := by
  unfold toInt; rw [Int.bmod_def]; split <;> omega

/-! ## The stored bytes -/

theorem checkPrefixLoop_spec {h : NodeHeader} {key : CStr} {depth : Nat} :
    ∀ (ps : List UInt8) (idx : Nat), 0 ∉ ps → ps <+: h.prefixBytes.drop idx →
      depth + idx ≤ key.strlen →
      checkPrefixLoop h key depth ps.length idx =
        some (idx + agree ps (key.term.drop (depth + idx)))
  | [], idx, _, _, _ => by simp [checkPrefixLoop, agree]
  | p :: ps, idx, h0, hp, hk => by
    obtain ⟨c, hc⟩ := read_some hk
    obtain ⟨r, hr⟩ := hp
    have hlt : idx < h.prefixBytes.length := by
      by_contra hge
      rw [List.drop_eq_nil_of_le (Nat.not_lt.mp hge)] at hr; cases hr
    rw [List.drop_eq_getElem_cons hlt] at hr
    injection hr with hpe hr
    rw [List.mem_cons, not_or] at h0
    rw [List.length_cons, checkPrefixLoop, List.getElem?_eq_getElem hlt, Option.bind_some, hc,
      Option.bind_some, drop_read hc, agree, ← hpe]
    by_cases hne : p = c
    · rw [if_neg (not_not.mpr hne), if_pos hne]
      have hlt := read_lt hc (hne ▸ Ne.symm h0.1)
      rw [checkPrefixLoop_spec ps (idx + 1) h0.2 ⟨r, hr⟩ hlt]
      simp only [Option.some.injEq, ← Nat.add_assoc]
      omega
    · rw [if_pos hne, if_neg hne, Nat.add_zero]

theorem checkPrefix_spec {h : NodeHeader} {shared : List UInt8} (hd : h.Describes shared)
    (h0 : 0 ∉ shared) {key : CStr} {depth : Nat} (hk : depth ≤ key.strlen) :
    checkPrefix h key depth = some (agree (shared.take 10) (key.term.drop depth)) := by
  have hpre : shared.take 10 <+: h.prefixBytes.drop 0 := by
    rw [← hd.bytes]; exact List.take_prefix _ _
  have := checkPrefixLoop_spec (shared.take 10) 0 (fun hm => h0 (List.mem_of_mem_take hm)) hpre hk
  rw [List.length_take, Nat.zero_add, Nat.add_zero] at this
  rw [checkPrefix, hd.len, Nat.min_comm, this]

theorem extendMatch_spec {key leafKey : CStr} {depth : Nat} :
    ∀ (ps : List UInt8) (m : Nat), 0 ∉ ps → ps <+: leafKey.term.drop (depth + m) →
      depth + m ≤ key.strlen →
      extendMatch key leafKey depth ps.length m = some (m + agree ps (key.term.drop (depth + m)))
  | [], m, _, _, _ => by simp [extendMatch, agree]
  | p :: ps, m, h0, hp, hk => by
    obtain ⟨c, hc⟩ := read_some hk
    rw [List.mem_cons, not_or] at h0
    have hl := read_of_drop hp
    rw [drop_read hl] at hp
    rw [List.length_cons, extendMatch, hc, Option.bind_some, drop_read hc, agree]
    by_cases hne : p = c
    · have hlt := read_lt hc (hne ▸ Ne.symm h0.1)
      rw [if_neg (hne ▸ Ne.symm h0.1), hl, Option.bind_some, if_pos hne.symm, if_pos hne,
        extendMatch_spec ps (m + 1) h0.2 (List.cons_prefix_cons.mp hp).2 hlt]
      simp only [Option.some.injEq, ← Nat.add_assoc]
      omega
    · rw [if_neg hne, Nat.add_zero]
      split
      · rfl
      · rw [hl, Option.bind_some, if_neg (Ne.symm hne)]; rfl

section
variable {Q : NodeType → Nat → Nat → Prop} {path shared : List UInt8} {n : Inner (Node V)}

/-- How far a key agrees with the prefix of a node, if the leaf that is asked for
the bytes that are not stored can be found. -/
theorem matchPrefix_cases (hd : n.header.Describes shared) (h0 : 0 ∉ shared) {key : CStr}
    (hk : path.length ≤ key.strlen)
    (hfollow : ∀ leaf, findMinimumLeaf (.inner n) = some leaf → path ++ shared <+: leaf.key.term) :
    matchPrefix n key path.length = some (agree shared (key.term.drop path.length)) ∨
      matchPrefix n key path.length = none ∧ findMinimumLeaf (.inner n) = none := by
  have htake := agree_take 10 shared (key.term.drop path.length)
  unfold matchPrefix
  by_cases hlen : n.header.prefixLen = 0
  · rw [if_pos hlen]
    rw [hd.len, List.length_eq_zero_iff] at hlen
    subst hlen
    exact .inl (by simp [agree])
  · rw [if_neg hlen, checkPrefix_spec hd h0 hk, Option.bind_some, hd.len]
    split
    · next hall =>
      obtain ⟨hm, hlong⟩ := hall
      cases hleaf : findMinimumLeaf (.inner n) with
      | none => exact .inr ⟨rfl, rfl⟩
      | some leaf =>
        -- the first ten bytes agree, the leaf below knows the rest
        have hten : shared.take 10 <+: key.term.drop path.length := by
          refine agree_eq_length.mp ?_
          rw [hm, List.length_take, Nat.min_comm]
        have hin : path.length + 10 ≤ key.strlen := by
          have := within (fun hm => h0 (List.mem_of_mem_take hm)) hten hk
          rwa [List.length_take, Nat.min_eq_left (Nat.le_of_lt hlong)] at this
        have hrest := follows_drop (hfollow leaf hleaf) (Nat.le_of_lt hlong)
        have hsplit := agree_append (a := shared.drop 10) hten
        rw [List.take_append_drop, List.length_take, Nat.min_eq_left (Nat.le_of_lt hlong),
          List.drop_drop] at hsplit
        have hext := extendMatch_spec (shared.drop 10) 10 (fun hm => h0 (List.mem_of_mem_drop hm))
          hrest hin
        refine .inl ?_
        rw [Option.bind_some, hm, Nat.min_eq_right (Nat.le_of_lt hlong), hsplit]
        rwa [List.length_drop] at hext
    · next hsome =>
      refine .inl ?_
      rw [htake] at hsome ⊢
      have := agree_le_left (a := shared) (b := key.term.drop path.length)
      congr 1; omega

theorem matchPrefix_some (hd : n.header.Describes shared) (h0 : 0 ∉ shared) {key : CStr}
    (hk : path.length ≤ key.strlen)
    (hfollow : ∀ leaf, findMinimumLeaf (.inner n) = some leaf → path ++ shared <+: leaf.key.term)
    {matchLen : Nat} (hm : matchPrefix n key path.length = some matchLen) :
    matchLen = agree shared (key.term.drop path.length) := by
  rcases matchPrefix_cases hd h0 hk hfollow with h | ⟨h, -⟩
  · rw [h] at hm
    exact (Option.some.inj hm).symm
  · rw [h] at hm
    cases hm

/-- In a well-formed tree there is such a leaf. -/
theorem matchPrefix_spec (valid : n.Valid) (hd : n.header.Describes shared)
    (bound : (path ++ shared).length ≤ intMax) (occupied : n.kids ≠ [])
    (count : n.Counts Q)
    (kids : ∀ c x, n.look c = some x → WF Q (path ++ shared ++ [c]) x) {key : CStr}
    (hk : path.length ≤ key.strlen) :
    matchPrefix n key path.length = some (agree shared (key.term.drop path.length)) := by
  have h0 : 0 ∉ shared := fun hm => WF.noNul occupied kids (List.mem_append_right _ hm)
  obtain ⟨leaf, hleaf, hmem⟩ := (WF.inner valid hd bound occupied count kids).minimumLeaf
  refine (matchPrefix_cases hd h0 hk fun l hl => ?_).resolve_right fun hnone => ?_
  · rw [hleaf] at hl
    cases hl
    obtain ⟨c, x, hc, hx⟩ := mem_leaves_inner.mp hmem
    exact (List.prefix_append _ _).trans ((kids c x hc).follows leaf hx)
  · rw [hnone.2] at hleaf
    cases hleaf

/-- A search or deletion at a node that has not read past the key. -/
theorem enter_cases {h : NodeHeader} (hd : h.Describes shared) (h0 : 0 ∉ shared) {key : CStr}
    {depth : Nat} (hk : depth ≤ key.strlen) (bound : depth + shared.length ≤ intMax) :
    (enter h key depth = some .mismatch ∧ ¬ shared <+: key.term.drop depth) ∨
      (enter h key depth = some .past ∧ toInt key.strlen < (depth + shared.length : Nat)) ∨
      (enter h key depth = some (.below (depth + shared.length)) ∧
        depth + shared.length ≤ key.strlen) := by
  unfold enter
  by_cases hlen : h.prefixLen = 0
  · have hz := hlen
    rw [hd.len] at hz
    exact Or.inr (Or.inr ⟨by rw [if_pos hlen, hz]; rfl, by omega⟩)
  · rw [if_neg hlen, checkPrefix_spec hd h0 hk, Option.bind_some, hd.len, toInt_short bound]
    by_cases hm : agree (shared.take 10) (key.term.drop depth) = min shared.length 10
    · rw [if_neg (not_not.mpr hm)]
      by_cases hp : toInt key.strlen < (depth + shared.length : Nat)
      · exact Or.inr (Or.inl ⟨by rw [if_pos hp], hp⟩)
      · refine Or.inr (Or.inr ⟨by rw [if_neg hp]; rfl, ?_⟩)
        have := toInt_le key.strlen
        omega
    · rw [if_pos hm]
      refine Or.inl ⟨rfl, fun hpre => hm ?_⟩
      rw [Nat.min_comm, ← List.length_take]
      exact agree_eq_length.mpr ((List.take_prefix _ _).trans hpre)

/-- A stored key is filed under the byte it reads there. -/
theorem filed_under (kids : ∀ c x, n.look c = some x → WF Q (path ++ shared ++ [c]) x) {key : CStr}
    {c d : UInt8} {y : Node V} {m : ArtLeaf V} (hc : read key (path ++ shared).length = some c)
    (hy : n.look d = some y) (hm : m ∈ y.leaves) (he : m.key = key) : d = c := by
  have hd := read_follows (he ▸ (kids d y hy).follows m hm)
  rw [hc] at hd
  exact (Option.some.inj hd).symm

/-- The leaves below other bytes have other keys. -/
theorem others_ne (kids : ∀ c x, n.look c = some x → WF Q (path ++ shared ++ [c]) x) {c : UInt8}
    {key : CStr} (hc : read key (path ++ shared).length = some c) :
    ∀ m ∈ others n c, m.key ≠ key := by
  intro m hm he
  obtain ⟨⟨d, y⟩, hy, hm⟩ := List.mem_flatMap.mp hm
  have hy := (mem_graph.mp hy).2
  rw [Function.update_apply] at hy
  split at hy
  · cases hy
  · next hdc => exact hdc (filed_under kids hc hy hm he)

end

/-- A key that is too short is turned away behind the stored bytes. -/
theorem enter_past {h : NodeHeader} {key : CStr} {depth : Nat} (hlen : h.prefixLen ≠ 0)
    (hcheck : checkPrefix h key depth = some (min h.prefixLen 10))
    (hlt : toInt key.strlen < toInt (depth + h.prefixLen)) : enter h key depth = some .past := by
  rw [enter, if_neg hlen, hcheck, Option.bind_some, if_neg (not_not.mpr rfl), if_pos hlt]

/-- A key that goes on behind the prefix of a node is not turned away there, if
an `int` can say its length. -/
theorem enter_follows {h : NodeHeader} {path shared : List UInt8} (hd : h.Describes shared)
    (h0 : 0 ∉ shared) {key : CStr} (short : key.strlen ≤ intMax) (hp : path ++ shared <+: key.term)
    (hle : path.length + shared.length ≤ key.strlen) :
    enter h key path.length = some (.below (path ++ shared).length) := by
  rcases enter_cases hd h0 (show path.length ≤ key.strlen by omega) (hle.trans short) with
    ⟨-, hne⟩ | ⟨-, hlt⟩ | ⟨he, -⟩
  · exact absurd ((prefix_drop ((List.prefix_append _ _).trans hp)).mpr hp) hne
  · rw [toInt_short short] at hlt; omega
  · rw [he, List.length_append]

/-! ## Walks stay inside the key -/

/-- A walk along `path`, whether or not `key` follows it, has not left `key`. -/
structure Fits (key : CStr) (path : List UInt8) : Prop where
  le : path.length ≤ key.strlen + 1
  inner : 0 ∉ path → path.length ≤ key.strlen

theorem Fits.nil (key : CStr) : Fits key [] := ⟨Nat.zero_le _, fun _ => Nat.zero_le _⟩

theorem Fits.read {key : CStr} {path : List UInt8} {c : UInt8}
    (hc : read key path.length = some c) : Fits key (path ++ [c]) := by
  refine ⟨by simpa using read_le hc, fun h0 => ?_⟩
  rw [List.mem_append, not_or, List.mem_singleton] at h0
  rw [List.length_append, List.length_singleton]
  exact read_lt hc (Ne.symm h0.2)

theorem Fits.of_prefix {key : CStr} {path : List UInt8} (h : path <+: key.term) :
    Fits key path := by
  have hl := h.length_le
  rw [CStr.length_term] at hl
  refine ⟨hl, fun h0 => ?_⟩
  exact (within (i := 0) h0 (by simpa using h) (Nat.zero_le _)).trans' (by omega)

end Cdsa.Art
