import Cdsa.L2Skiplist.Levels

/-!
# The express lanes against a linear scan

The searches of `insert_skiplist`, `remove_skiplist` and `get_range_skiplist`
carry one cursor from the topmost level in use down to level 0. On a list that
is sorted on level 0, and on each level above links the nodes that are taller,
they leave every level where a scan of that level alone would stop, and the
range query starts where a scan of level 0 would (`express_lane_is_scan`).

The list is given by what the links say, not by towers: nothing is asked of the
nodes above `sl->level`, nor that this is the greatest height.
-/
namespace Cdsa.Skiplist

open Cdsa.Core Cdsa.Memory

variable {S : Type}

/-- Score and value of the node at `p`. -/
def itemAt (sl : CdsaSkiplist S) (p : Ptr) : Option (S ×ₗ CStr) :=
  (sl.nodes p).map fun n => toLex (n.score, n.value)

theorem links_of_trace {P : Type} {next : P → Option (Option P)} : ∀ {fuel : Nat} {p : P} {l : List P},
    trace next fuel p = some l → Links next p l ∧ l.length ≤ fuel := by
  intro fuel
  induction fuel with
  | zero =>
    intro p l h
    unfold trace at h
    obtain ⟨q, hq, h⟩ := Option.bind_eq_some_iff.mp h
    cases q with
    | none => cases h; exact ⟨hq, Nat.le_refl _⟩
    | some q => cases h
  | succ fuel ih =>
    intro p l h
    unfold trace at h
    obtain ⟨q, hq, h⟩ := Option.bind_eq_some_iff.mp h
    cases q with
    | none => cases h; exact ⟨hq, Nat.zero_le _⟩
    | some q =>
      obtain ⟨l', hl, he⟩ := Option.map_eq_some_iff.mp h
      cases he
      exact ⟨⟨hq, (ih hl).1⟩, Nat.succ_le_succ (ih hl).2⟩

theorem Links.readable {P : Type} {next : P → Option (Option P)} {p : P} {l : List P}
    (h : Links next p l) : ∀ q ∈ l, ∃ r, next q = some r := by
  induction l generalizing p with
  | nil => simp
  | cons x l ih => exact List.forall_mem_cons.mpr ⟨⟨_, h.2.next_eq⟩, ih h.2⟩

variable [LinearOrder S]

/-- Level 0 leads through the nodes `ps`, sorted, and the levels in use above it
through those that are taller. -/
structure Express (sl : CdsaSkiplist S) (ps : List Ptr) : Prop where
  nodes : chain sl 0 = some ps
  lanes : ∀ i, i < sl.level → chain sl i = some (ps.filter fun p => i < heightAt sl p)
  sorted : ps.Pairwise fun p q => ∀ x ∈ itemAt sl p, ∀ y ∈ itemAt sl q, x ≤ y
  level : 1 ≤ sl.level

/-- The node at `p` is strictly smaller than the target. -/
def smaller (sl : CdsaSkiplist S) (x : S ×ₗ CStr) (p : Ptr) : Bool := (itemAt sl p).any (· < x)

/-- The score at `p` is not below the minimum. -/
def enough (sl : CdsaSkiplist S) (minScore : S) (p : Ptr) : Bool :=
  (itemAt sl p).any fun x => minScore ≤ (ofLex x).1

namespace Express

variable {sl : CdsaSkiplist S} {ps : List Ptr}

theorem links (E : Express sl ps) {i : Nat} (hi : i < sl.level) :
    Links (forwardAt sl.nodes i) sl.header (ps.filter fun p => i < heightAt sl p) :=
  (links_of_trace (E.lanes i hi)).1

/-- Every node is on level 0. -/
theorem filter_zero (E : Express sl ps) : (ps.filter fun p => 0 < heightAt sl p) = ps := by
  have := (E.lanes 0 E.level).symm.trans E.nodes
  exact Option.some.inj this

theorem node (E : Express sl ps) {p : Ptr} (hp : p ∈ ps) : ∃ n, sl.nodes p = some n := by
  obtain ⟨r, hr⟩ := Links.readable (links_of_trace E.nodes).1 p hp
  obtain ⟨n, hn, -⟩ := Option.bind_eq_some_iff.mp hr
  exact ⟨n, hn⟩

/-- A search whose test is kept downwards leaves each level at the last node of
that level that passes the test. -/
theorem descend (E : Express sl ps) (test : SkipNode S → Bool) (passes : S ×ₗ CStr → Bool)
    (htest : ∀ n, test n = passes (toLex (n.score, n.value)))
    (hdown : ∀ x y, x ≤ y → passes y → passes x) :
    ∃ A B, ps = A ++ B ∧ (∀ p ∈ A, (itemAt sl p).any passes) ∧
      (∀ p ∈ B, (itemAt sl p).any passes = false) ∧
      Skiplist.descend sl.nodes test (sl.size + 1) sl.level sl.header =
        some (A.getLastD sl.header, (List.range sl.level).map fun i =>
          (A.filter fun p => i < heightAt sl p).getLastD sl.header) := by
  have hsome : ∀ p ∈ ps, ∃ n, sl.nodes p = some n := fun p hp => E.node hp
  obtain ⟨A, B, hps, hA, hB⟩ := exists_split E.sorted (f := fun p => (itemAt sl p).any passes)
    (fun p hp q hq hle hpass => by
      obtain ⟨n, hn⟩ := hsome p hp
      obtain ⟨k, hk⟩ := hsome q hq
      simp only [itemAt, hn, hk, Option.map_some, Option.any_some] at hle hpass ⊢
      exact hdown _ _ (hle _ rfl _ rfl) hpass)
  refine ⟨A, B, hps, hA, hB, ?_⟩
  have hmap : ∀ p ∈ ps, (sl.nodes p).map test = some ((itemAt sl p).any passes) := fun p hp => by
    obtain ⟨n, hn⟩ := hsome p hp
    simp [itemAt, hn, htest]
  have hzero : (A.filter fun p => 0 < heightAt sl p) = A := by
    have := E.filter_zero
    rw [List.filter_eq_self] at this ⊢
    exact fun p hp => this p (hps ▸ List.mem_append_left B hp)
  obtain ⟨n, hn⟩ := Nat.exists_eq_succ_of_ne_zero (show sl.level ≠ 0 by have := E.level; omega)
  have hlanes := lanes_spec (forwardAt sl.nodes) (fun q => (sl.nodes q).map test) (sl.size + 1) id
    (fun i p => decide (i < heightAt sl p)) sl.header (A := A) (B := B) (fun i p => by simp only [decide_eq_true_eq]; omega)
    (fun p hp => by rw [id, hmap p (hps ▸ List.mem_append_left B hp), hA p hp])
    (fun p hp => by rw [id, hmap p (hps ▸ List.mem_append_right A hp), hB p hp])
    (by
      have hlen := (links_of_trace E.nodes).2
      rw [hps, List.length_append] at hlen
      omega) n
    (fun i hi => by rw [List.map_id, ← hps]; exact E.links (by omega)) (fun _ => false) (by simp)
  rw [List.filter_false, List.getLastD_nil, hzero] at hlanes
  rw [descend_eq_lanes, hn]
  exact hlanes

/-- The front part is what passes the test. -/
theorem filter_front {A B : List Ptr} {f : Ptr → Bool} (hA : ∀ p ∈ A, f p)
    (hB : ∀ p ∈ B, f p = false) : (A ++ B).filter f = A := by
  rw [List.filter_append, List.filter_eq_self.mpr hA,
    List.filter_eq_nil_iff.mpr fun p hp => by simp [hB p hp], List.append_nil]

end Express

/-- So the lanes of every list that towers account for are express lanes. -/
theorem Towers.express {sl : CdsaSkiplist S} {H : Tower S} {L : List (Tower S)}
    (T : Towers sl H L) : Express sl (L.map Tower.ptr) where
  nodes := T.chain_zero
  lanes i hi := by rw [T.chain_eq (Nat.lt_of_lt_of_le hi T.level_le), T.tall_ptr]
  sorted := by
    have hitem : ∀ t ∈ L, itemAt sl t.ptr = some t.item := fun t ht => by
      obtain ⟨forward, hn, -⟩ := T.stands t (List.mem_cons_of_mem _ ht)
      rw [itemAt, hn]
      rfl
    refine List.pairwise_map.mpr ((List.pairwise_map.mp T.sorted).imp_of_mem fun ha hb hle => ?_)
    rw [hitem _ ha, hitem _ hb]
    rintro x ⟨⟩ y ⟨⟩
    exact hle
  level := T.top.1

/-- Each breadcrumb of an insertion or removal is the last node of its level that
is smaller than the target, or the header, and a range query starts at the first
node whose score is not below the minimum. -/
theorem express_lane_is_scan (sl : CdsaSkiplist S) (ps : List Ptr) (E : Express sl ps) :
    (∀ score value, ∃ r, descend sl.nodes (before score value) (sl.size + 1) sl.level sl.header =
      some r ∧ r.2.length = sl.level ∧ ∀ i, i < sl.level → ∃ lane, chain sl i = some lane ∧
        r.2[i]? = some ((lane.filter (smaller sl (toLex (score, value)))).getLastD sl.header)) ∧
    ∀ minScore, ∃ r, descend sl.nodes (fun n => n.score < minScore) (sl.size + 1) sl.level sl.header =
      some r ∧ forwardAt sl.nodes 0 r.1 = some (ps.find? (enough sl minScore)) := by
  constructor
  · intro score value
    obtain ⟨A, B, rfl, hA, hB, hd⟩ := E.descend (before score value) (· < toLex (score, value))
      (fun n => by simp [before, Prod.Lex.toLex_lt_toLex, CStr.strcmp_neg])
      (fun x y hxy hy => by simpa using lt_of_le_of_lt hxy (by simpa using hy))
    refine ⟨_, hd, by simp, fun i hi => ⟨_, E.lanes i hi, ?_⟩⟩
    have hfront : (A ++ B).filter (smaller sl (toLex (score, value))) = A :=
      Express.filter_front hA hB
    rw [List.filter_comm, hfront]
    simp [hi]
  · intro minScore
    obtain ⟨A, B, rfl, hA, hB, hd⟩ := E.descend (fun n => n.score < minScore)
      (fun x => (ofLex x).1 < minScore) (fun n => rfl)
      (fun x y hxy hy => by
        have hle : (ofLex x).1 ≤ (ofLex y).1 := by
          rw [Prod.Lex.le_iff] at hxy
          exact hxy.elim le_of_lt fun h => h.1.le
        simpa using lt_of_le_of_lt hle (by simpa using hy))
    refine ⟨_, hd, ?_⟩
    have henough : ∀ p ∈ A ++ B, enough sl minScore p =
        !(itemAt sl p).any fun x => decide ((ofLex x).1 < minScore) := fun p hp => by
      obtain ⟨n, hn⟩ := E.node hp
      simp [enough, itemAt, hn, ← not_lt]
    have hfront : A.find? (enough sl minScore) = none := List.find?_eq_none.mpr fun p hp => by
      rw [henough p (List.mem_append_left _ hp), hA p hp]
      simp
    rw [(links_of_trace E.nodes).1.drop.next_eq, List.find?_append, hfront, Option.none_or]
    cases B with
    | nil => rfl
    | cons p B =>
      rw [List.head?_cons, List.find?_cons_of_pos]
      rw [henough p (by simp), hB p List.mem_cons_self]
      rfl

/-- Two nodes of different heights with the same score. -/
theorem express_lane_is_scan_two : ∃ (w0 w : CdsaSkiplist Nat × Mem) (outs : List Out) (ps : List Ptr),
    runOps Skiplist.step w0 [.insert 1 ⟨[98], by decide⟩ (fun l => l == 1),
      .insert 1 ⟨[97], by decide⟩ (fun _ => false)] = some (outs, w) ∧ ps.length = 2 ∧
    ∀ minScore, ∃ r, descend w.1.nodes (fun n => n.score < minScore) (w.1.size + 1) w.1.level
      w.1.header = some r ∧ forwardAt w.1.nodes 0 r.1 = some (ps.find? (enough w.1 minScore)) := by
  have O : Owns 0 [] (⟨0, [], 0, fun _ => true⟩ : Mem) := ⟨.nil, by simp, by simp, rfl⟩
  obtain ⟨sl, mem, -, R0⟩ := cdsaCreateSkiplist_spec O (fun _ => rfl) 0
  obtain ⟨w, hw, R⟩ := refine_run_spec (R := Refines) (P := CountOk)
    (fun w M op R hc => R.step op hc)
    [.insert 1 ⟨[98], by decide⟩ (fun l => l == 1), .insert 1 ⟨[97], by decide⟩ (fun _ => false)]
    _ _ R0 ⟨trivial, trivial, trivial⟩
  obtain ⟨H, L, T, -, hM⟩ := R.towers
  refine ⟨_, w, _, L.map Tower.ptr, hw, ?_, (express_lane_is_scan w.1 _ T.express).2⟩
  have hlen := congrArg Multiset.card hM
  rw [List.length_map, ← List.length_map (f := Tower.item), ← Multiset.coe_card, ← hlen]
  rfl

end Cdsa.Skiplist
