import ToggleTree.UnionFind.Invariant

/-!
# What concurrent union–find computes

Once all calls of `unite` have returned, the links connect exactly what the pairs connect. From
then on no link is made, so a call of `find` returns a root of the forest, which is the least
vertex of its component; and every component but its root has been returned by some `unite`.
-/

namespace ToggleTree

open LinkForest

namespace UnionFind

variable {C : Type} [DecidableEq C] {maxValue n : ℕ} {calls : C → Call} {s : State C} {a b : ℕ}

/-- The array and the links of a state. -/
structure Safe (maxValue n : ℕ) (s : State C) : Prop where
  parent_le : ∀ x < n, s.parent x ≤ x
  parent_connected : ∀ x < n, Connected (Linked s.links) x (s.parent x)
  linked_once : (children s.links).Nodup
  never_root_again : ∀ x < n, s.parent x ≠ x → ∀ more : List C, (run maxValue more s).parent x ≠ x

/-- The answers when all calls of `unite` have returned: what `find` returns, that it does return, and what the
calls of `unite` have returned. A call of `find` makes at most `a + 3` accesses. If the largest value of the type
is a vertex that has been linked, its link is the one that cannot be told from the sentinel. -/
structure Answers (maxValue n : ℕ) (calls : C → Call) (s : State C) : Prop where
  find_least : ∀ a v, FindReturns maxValue calls s a v → IsLeast {y | Connected (United calls) a y} v
  find_eq_iff : ∀ a b v w, FindReturns maxValue calls s a v → FindReturns maxValue calls s b w →
    (v = w ↔ Connected (United calls) a b)
  find_returns : ∀ c a, calls c = .find a → s.calls c = .findParent a → ∀ more : List C, a + 3 ≤ more.count c →
    ∃ v, (run maxValue more s).calls c = .returned v
  values_distinct : ∀ c d v, v ≠ maxValue → (∃ i j, calls c = .unite i j) → (∃ i j, calls d = .unite i j) →
    s.calls c = .returned v → s.calls d = .returned v → c = d
  values_count : (¬∃ y < maxValue, Connected (United calls) maxValue y) →
    (unitedValues maxValue calls s).ncard = n - components n (United calls)
  values_count_linked : (∃ y < maxValue, Connected (United calls) maxValue y) →
    (unitedValues maxValue calls s).ncard + 1 = n - components n (United calls)

/-- Every run keeps the invariant. -/
theorem Inv.run (h : Inv maxValue n calls s) (schedule : List C) :
    Inv maxValue n calls (run maxValue schedule s) :=
  run_invariant (fun _ c h => h.step c) h schedule

/-- Links are never removed. -/
theorem links_run (schedule : List C) : ∀ l ∈ s.links, l ∈ (run maxValue schedule s).links :=
  run_invariant (I := fun t => ∀ l ∈ s.links, l ∈ t.links)
    (fun _ _ ih l hl => List.mem_append_right _ (ih l hl)) (fun _ hl => hl) schedule

/-- The invariant makes a state safe. -/
theorem Inv.safe (h : Inv maxValue n calls s) : Safe maxValue n s where
  parent_le := h.follows.le
  parent_connected := h.follows.connected
  linked_once := h.forest.nodup
  never_root_again x hx hp more := by
    have hmem : x ∈ children (UnionFind.run maxValue more s).links :=
      children_mono (links_run more) (h.follows.mem_children hx hp)
    exact fun heq => ((h.run more).follows.root_iff x hx).mp heq hmem

/-! ### When all calls of `unite` have returned -/

omit [DecidableEq C] in
/-- The links connect what the pairs connect. -/
theorem Inv.connected_iff (h : Inv maxValue n calls s) (hall : AllUnited calls s) (x y : ℕ) :
    Connected (United calls) x y ↔ Connected (Linked s.links) x y := by
  constructor
  · refine Connected.lift fun x y hxy => ?_
    obtain ⟨c, hc⟩ := hxy
    obtain ⟨v, hv⟩ := hall c x y hc
    have hg := h.good c
    rw [hv, hc] at hg
    exact hg.1
  · exact Connected.lift h.justified

/-- No link is made any more. -/
theorem Inv.links_advance (h : Inv maxValue n calls s) (hall : AllUnited calls s) (c : C) :
    (s.advance maxValue c).links = s.links := by
  cases hmade : ((s.calls c).step maxValue s.parent).2.2 with
  | none => simp only [State.advance, hmade, Option.toList_none, List.nil_append]
  | some made =>
    have hl := (eq_exchange_of_link hmade).1
    have hg := h.good c
    rw [hl] at hg
    cases hc : calls c with
    | unite a b =>
      obtain ⟨v, hv⟩ := hall c a b hc
      rw [hl] at hv
      cases hv
    | find a =>
      rw [hc] at hg
      exact hg.elim

/-- What has been united stays so. -/
theorem AllUnited.advance (hall : AllUnited calls s) (c : C) : AllUnited calls (s.advance maxValue c) := by
  intro d i j hd
  obtain ⟨v, hv⟩ := hall d i j hd
  exact ⟨v, advance_returned hv⟩

/-- What a call of `find` is going to return is a root. -/
def Local.Settled (links : List (ℕ × ℕ)) : Local → Prop
  | findWrite _ pi => pi ∉ children links
  | returned v => v ∉ children links
  | _ => True

/-- A settled call stays settled. -/
theorem Local.Settled.step {links : List (ℕ × ℕ)} {parent : ℕ → ℕ} {l : Local} (h : l.Settled links)
    (hl : l.Good links maxValue n (.find a)) (hf : Follows links n parent) :
    (l.step maxValue parent).1.Settled links := by
  cases l with
  | findParent i => trivial
  | findGrandparent i pi =>
    rw [Local.step]
    split
    case isTrue heq => exact (hf.root_iff pi (hl.2.2.1.trans_lt hl.2.1)).mp heq.symm
    case isFalse => trivial
  | findClimb i pi =>
    rw [Local.step]
    split
    case isTrue => trivial
    case isFalse heq => exact (hf.root_iff pi (hl.2.2.1.trans hl.2.1)).mp (not_not.mp heq).symm
  | findWrite i pi => exact h
  | returned v => exact h
  | _ => exact hl.elim

/-- A call of `find` that begins now returns a root of its component. -/
theorem Inv.findReturns (h : Inv maxValue n calls s) (hall : AllUnited calls s) {v : ℕ}
    (hv : FindReturns maxValue calls s a v) : v ∉ children s.links ∧ Connected (Linked s.links) a v := by
  obtain ⟨c, schedule, hc, hstart, hreturn⟩ := hv
  have hI : Inv maxValue n calls (UnionFind.run maxValue schedule s) ∧
    AllUnited calls (UnionFind.run maxValue schedule s) ∧
      (UnionFind.run maxValue schedule s).links = s.links ∧
      ((UnionFind.run maxValue schedule s).calls c).Settled s.links := by
    refine run_invariant (I := fun t => Inv maxValue n calls t ∧ AllUnited calls t ∧ t.links = s.links ∧
      (t.calls c).Settled s.links) ?_ ⟨h, hall, rfl, by rw [hstart]; trivial⟩ schedule
    rintro t d ⟨ht, hallt, hlinks, hsettled⟩
    refine ⟨ht.step d, hallt.advance d, (ht.links_advance hallt d).trans hlinks, ?_⟩
    simp only [State.advance]
    by_cases hcd : c = d
    · subst hcd
      have hg := ht.good c
      rw [hc] at hg
      rw [Function.update_self]
      rw [← hlinks] at hsettled ⊢
      exact hsettled.step hg ht.follows
    · rw [Function.update_of_ne hcd]
      exact hsettled
  obtain ⟨ht, -, hlinks, hsettled⟩ := hI
  have hg := ht.good c
  rw [hreturn] at hsettled hg
  rw [hc, hlinks] at hg
  exact ⟨hsettled, hg⟩

/-- When all edges are united `find` returns the least vertex of the component. -/
theorem Inv.find_least (h : Inv maxValue n calls s) (hall : AllUnited calls s) {v : ℕ}
    (hv : FindReturns maxValue calls s a v) : IsLeast {y | Connected (United calls) a y} v := by
  obtain ⟨hroot, hconn⟩ := h.findReturns hall hv
  refine ⟨(h.connected_iff hall a v).mpr hconn, fun y hy => ?_⟩
  exact h.forest.root_le hroot (hconn.symm.trans ((h.connected_iff hall a y).mp hy))

/-- The accesses that a call of `find` still makes at most. -/
def Local.remaining : Local → ℕ
  | findParent i => i + 3
  | findGrandparent _ pi => pi + 2
  | findClimb _ pi => pi + 2
  | findWrite _ _ => 1
  | _ => 0

/-- A call of `find` comes closer to its return with every step. -/
theorem remaining_step {links : List (ℕ × ℕ)} {parent : ℕ → ℕ} {l : Local}
    (hl : l.Good links maxValue n (.find a)) (hf : Follows links n parent) : (∃ v, l = .returned v) ∨
    (l.step maxValue parent).1.remaining < l.remaining := by
  cases l with
  | findParent i =>
    have := hf.le i hl.2
    simp only [Local.step, Local.remaining]
    omega
  | findGrandparent i pi =>
    have := hf.le pi (hl.2.2.1.trans_lt hl.2.1)
    rw [Local.step]
    split <;> simp only [Local.remaining] <;> omega
  | findClimb i pi =>
    have := hf.le pi (hl.2.2.1.trans hl.2.1)
    rw [Local.step]
    split <;> simp only [Local.remaining] <;> omega
  | findWrite i pi => exact Or.inr Nat.one_pos
  | returned v => exact Or.inl ⟨v, rfl⟩
  | _ => exact hl.elim

/-- Whatever the other calls do, `find` returns after finitely many of its own accesses. -/
theorem Inv.find_returns (h : Inv maxValue n calls s) {c : C} (hc : calls c = .find a) (schedule : List C)
    (hcount : (s.calls c).remaining ≤ schedule.count c) :
    ∃ v, (UnionFind.run maxValue schedule s).calls c = .returned v := by
  induction schedule generalizing s with
  | nil =>
    have hg := h.good c
    rw [hc] at hg
    rw [List.count_nil, Nat.le_zero] at hcount
    rw [run_nil]
    cases hl : s.calls c with
    | returned v => exact ⟨v, rfl⟩
    | _ =>
      rw [hl] at hg hcount
      first
        | exact hg.elim
        | cases hcount
  | cons d schedule ih =>
    rw [run_cons]
    refine ih (h.step d) ?_
    have hg := h.good c
    rw [hc] at hg
    by_cases hdc : d = c
    · subst hdc
      rw [List.count_cons_self] at hcount
      simp only [State.advance, Function.update_self]
      rcases remaining_step hg h.follows with ⟨v, hv⟩ | hlt
      · rw [hv]
        exact Nat.zero_le _
      · omega
    · rw [List.count_cons_of_ne hdc] at hcount
      simp only [State.advance, Function.update_of_ne (Ne.symm hdc)]
      exact hcount

omit [DecidableEq C] in
/-- The values that `unite` has returned are the vertices that have been linked, but for the sentinel. -/
theorem Inv.unitedValues_eq (h : Inv maxValue n calls s) :
    unitedValues maxValue calls s = ((children s.links).toFinset.erase maxValue : Finset ℕ) := by
  ext v
  rw [Finset.mem_coe, Finset.mem_erase, List.mem_toFinset]
  constructor
  · rintro ⟨hv, c, i, j, hc, hcv⟩
    have hg := h.good c
    rw [hcv, hc] at hg
    exact ⟨hv, hg.2.resolve_left hv⟩
  · rintro ⟨hv, hmem⟩
    exact ⟨hv, h.claimed v hmem⟩

omit [DecidableEq C] in
/-- The links and the components together are the vertices. -/
theorem Inv.length_add_components (h : Inv maxValue n calls s) (hall : AllUnited calls s) :
    (children s.links).toFinset.card + components n (United calls) = n := by
  rw [List.toFinset_card_of_nodup h.forest.nodup]
  have hlength : (children s.links).length = s.links.length := List.length_map _
  rw [hlength]
  exact h.forest.length_add_components h.bounded (h.connected_iff hall)

omit [DecidableEq C] in
/-- The values that the calls return are as many as the links. -/
theorem Inv.values_count (h : Inv maxValue n calls s) (hall : AllUnited calls s)
    (hmax : ¬∃ y < maxValue, Connected (United calls) maxValue y) :
    (unitedValues maxValue calls s).ncard = n - components n (United calls) := by
  have hroot : maxValue ∉ (children s.links).toFinset := by
    rw [List.mem_toFinset, h.forest.mem_children_iff]
    exact fun ⟨y, hlt, hy⟩ => hmax ⟨y, hlt, (h.connected_iff hall maxValue y).mpr hy⟩
  have hsum := h.length_add_components hall
  rw [h.unitedValues_eq, Set.ncard_coe_finset, Finset.erase_eq_of_notMem hroot]
  omega

omit [DecidableEq C] in
/-- If the greatest number is linked one value fewer is returned. -/
theorem Inv.values_count_linked (h : Inv maxValue n calls s) (hall : AllUnited calls s)
    (hmax : ∃ y < maxValue, Connected (United calls) maxValue y) :
    (unitedValues maxValue calls s).ncard + 1 = n - components n (United calls) := by
  obtain ⟨y, hlt, hy⟩ := hmax
  have hlinked : maxValue ∈ (children s.links).toFinset := by
    rw [List.mem_toFinset, h.forest.mem_children_iff]
    exact ⟨y, hlt, (h.connected_iff hall maxValue y).mp hy⟩
  have hsum := h.length_add_components hall
  rw [h.unitedValues_eq, Set.ncard_coe_finset, Finset.card_erase_add_one hlinked]
  omega

/-- In every state that any number of concurrent calls can reach the array is safe, and when all calls of `unite`
have returned the answers are right. -/
theorem concurrent_unionFind (maxValue : ℕ) (hcalls : ∀ c, (calls c).Within n) (schedule : List C) :
    Safe maxValue n (run maxValue schedule (State.init calls)) ∧
      (AllUnited calls (run maxValue schedule (State.init calls)) →
        Answers maxValue n calls (run maxValue schedule (State.init calls))) := by
  have h : Inv maxValue n calls (run maxValue schedule (State.init calls)) := (Inv.init hcalls).run schedule
  generalize run maxValue schedule (State.init calls) = s at h
  refine ⟨h.safe, fun hall => ⟨fun a v hv => h.find_least hall hv, fun a b v w hv hw => ?_,
    fun c a hc hstart more hcount => ?_,
    h.distinct, h.values_count hall, h.values_count_linked hall⟩⟩
  · obtain ⟨hv, hav⟩ := h.findReturns hall hv
    obtain ⟨hw, hbw⟩ := h.findReturns hall hw
    rw [h.connected_iff hall]
    constructor
    · rintro rfl
      exact hav.trans hbw.symm
    · intro hab
      exact h.forest.root_unique hv hw (hav.symm.trans (hab.trans hbw))
  · refine h.find_returns hc more ?_
    rw [hstart]
    exact hcount

/-- A call that unites two vertices, and a call that looks for the root of one of them. -/
def uniteAndFind : Bool → Call
  | true => .unite 2 0
  | false => .find 2

/-- One call of `unite` has returned, and then the call of `find` begins. -/
theorem concurrent_unionFind_two :
    Safe 255 3 (run 255 (List.replicate 6 true) (State.init uniteAndFind)) ∧
      Answers 255 3 uniteAndFind (run 255 (List.replicate 6 true) (State.init uniteAndFind)) := by
  have hcalls : ∀ c, (uniteAndFind c).Within 3 := by
    intro c
    cases c with
    | true => exact ⟨by decide, by decide⟩
    | false => exact (by decide : 2 < 3)
  have hall : AllUnited uniteAndFind (run 255 (List.replicate 6 true) (State.init uniteAndFind)) := by
    intro c i j hc
    cases c with
    | true => exact ⟨2, rfl⟩
    | false => cases hc
  have h := concurrent_unionFind 255 hcalls (List.replicate 6 true)
  exact ⟨h.1, h.2 hall⟩

/-- One call that unites the largest vertex of 8 bits with vertex 0. -/
def uniteLargest : Unit → Call := fun _ => .unite 255 0

/-- With vertices of 8 bits, the link of vertex 255 returns what `unite` returns for vertices that are
connected already: among 256 vertices one link is made and no other value than 255 is returned. -/
theorem unite_largest_vertex :
    (∀ c, (uniteLargest c).Within 256) ∧
      AllUnited uniteLargest (run 255 (List.replicate 6 ()) (State.init uniteLargest)) ∧
      (unitedValues 255 uniteLargest (run 255 (List.replicate 6 ()) (State.init uniteLargest))).ncard ≠
        256 - components 256 (United uniteLargest) := by
  have hcalls : ∀ c, (uniteLargest c).Within 256 := fun _ => ⟨by decide, by decide⟩
  have hall : AllUnited uniteLargest (run 255 (List.replicate 6 ()) (State.init uniteLargest)) :=
    fun _ _ _ _ => ⟨255, rfl⟩
  have h : Inv 255 256 uniteLargest (run 255 (List.replicate 6 ()) (State.init uniteLargest)) :=
    (Inv.init hcalls).run _
  have hconn : ∃ y < 255, Connected (United uniteLargest) 255 y := ⟨0, by decide, Connected.of_rel ⟨(), rfl⟩⟩
  have hcount := h.values_count_linked hall hconn
  exact ⟨hcalls, hall, by omega⟩

end UnionFind

end ToggleTree
