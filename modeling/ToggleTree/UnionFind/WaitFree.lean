import ToggleTree.UnionFind.Components

/-!
# Union–find without waiting

A call of `unite` begins again when the root that it wants to link has been linked by another call.
That does not go on for ever: a vertex stops being a root only once, and a call only ever goes down
to smaller vertices. So each call returns after a bounded number of its own accesses, whatever the
other calls do in between.
-/

namespace ToggleTree

open LinkForest

namespace UnionFind

/-- What a call has left to lose at a vertex: the way down, and its being a root. -/
def weight (parent : ℕ → ℕ) (x : ℕ) : ℕ := x + if parent x = x then 1 else 0

/-- Where `find_halve` is. -/
def Halve.vertex : Halve → ℕ
  | readParent x | readGrandparent x _ | writeParent x _ => x

/-- The accesses that are left of one round of `find_halve`, but for the first. -/
def Halve.left : Halve → ℕ
  | readParent _ => 2
  | readGrandparent _ _ => 1
  | writeParent _ _ => 0

/-- The price of another attempt to link `i` to `j`, which is due when `i` is no root any more. -/
def again (parent : ℕ → ℕ) (i j : ℕ) : ℕ := if parent i = i then 0 else 3 * i + 3 * j + 9

/-- The accesses that a call of `unite` still makes at most, the array being as it is or lower. -/
def Local.cost (n : ℕ) (parent : ℕ → ℕ) : Local → ℕ
  | halveI h j => (weight parent h.vertex + weight parent j) * (6 * n + 9) + 3 * h.vertex + 3 * j + h.left + 5
  | halveJ i h =>
      (weight parent i + weight parent h.vertex) * (6 * n + 9) + 3 * h.vertex + h.left + 3 + again
        parent i h.vertex
  | check i j => (weight parent i + weight parent j) * (6 * n + 9) + 2 + again parent i j
  | exchange i j => (weight parent i + weight parent j) * (6 * n + 9) + 1 + again parent i j
  | _ => 0

/-- The vertex of a halving at its start. -/
@[simp] theorem Halve.vertex_readParent (x : ℕ) : (readParent x).vertex = x := rfl

/-- The accesses that a halving has left at its start. -/
@[simp] theorem Halve.left_readParent (x : ℕ) : (readParent x).left = 2 := rfl

section Weights

variable {links : List (ℕ × ℕ)} {n a b i j x y maxValue : ℕ} {parent parent' : ℕ → ℕ}

/-- The weight of a root. -/
theorem weight_root (h : parent x = x) : weight parent x = x + 1 := by rw [weight, if_pos h]

/-- A vertex weighs at least its number. -/
theorem le_weight : x ≤ weight parent x := Nat.le_add_right _ _

/-- A vertex weighs at most one more than its number. -/
theorem weight_le : weight parent x ≤ x + 1 := by
  rw [weight]
  split <;> omega

/-- Lesser vertices weigh no more. -/
theorem weight_le_of_lt (h : y < x) : weight parent y ≤ weight parent x :=
  weight_le.trans (le_trans h le_weight)

/-- A vertex at or below another one weighs no more. -/
theorem weight_le_of_le (hle : y ≤ x) : weight parent y ≤ weight parent x := by
  rcases hle.lt_or_eq with hlt | heq
  · exact weight_le_of_lt hlt
  · rw [heq]

/-- No vertex becomes a root. -/
def Sinks (parent parent' : ℕ → ℕ) : Prop := ∀ x, parent' x = x → parent x = x

/-- The weights do not grow while the parents sink. -/
theorem Sinks.weight_le (h : Sinks parent parent') (x : ℕ) : weight parent' x ≤ weight parent x := by
  simp only [weight]
  by_cases hx : parent' x = x
  · rw [if_pos hx, if_pos (h x hx)]
  · rw [if_neg hx]
    omega

/-- When a vertex stops being a root, what it loses pays for another attempt. -/
theorem Sinks.pay (h : Sinks parent parent') (hi : i < n) (hj : j < n) :
    (weight parent' i + weight parent' j) * (6 * n + 9) + again parent' i j ≤
      (weight parent i + weight parent j) * (6 * n + 9) + again parent i j := by
  have hwi := h.weight_le i
  have hwj := h.weight_le j
  by_cases hroot : parent i = i ∧ parent' i ≠ i
  · have hlost : weight parent' i + 1 = weight parent
      i := by rw [weight_root hroot.1, weight, if_neg hroot.2, Nat.add_zero]
    have hmul : (weight parent' i + weight parent' j + 1) * (6 * n + 9) ≤ (weight parent i + weight parent j) *
      (6 * n + 9) :=
      Nat.mul_le_mul_right _ (by omega)
    rw [Nat.add_mul, Nat.one_mul] at hmul
    rw [again, if_neg hroot.2]
    omega
  · have hagain : again parent' i j ≤ again parent i j := by
      rw [again, again]
      by_cases hx : parent' i = i
      · rw [if_pos hx]
        exact Nat.zero_le _
      · rw [if_neg hx, if_neg fun hp => hroot ⟨hp, hx⟩]
    exact Nat.add_le_add (Nat.mul_le_mul_right _ (Nat.add_le_add hwi hwj)) hagain

/-- The effect of a step lets the parents sink. -/
theorem Effect.sinks {made : Option (ℕ × ℕ)} (h : Effect links n parent parent' made) : Sinks parent parent' := by
  have hupdate {x y : ℕ} (hlt : y < x) : Sinks parent (Function.update parent x y) := by
    intro z hz
    by_cases hzx : z = x
    · rw [hzx, Function.update_self] at hz
      exact absurd hz hlt.ne
    · rwa [Function.update_of_ne hzx] at hz
  cases h with
  | none => exact fun _ => id
  | write _ hlt _ => exact hupdate hlt
  | link _ hlt _ => exact hupdate hlt

/-- The vertex at which `find_halve` is. -/
theorem Halve.Good.lt {q : Halve} (hq : q.Good links n a) : q.vertex < n := by
  cases q with
  | readParent x => exact hq.1
  | readGrandparent x px => exact hq.1
  | writeParent x ppx => exact hq.2.1

/-- An access of another call costs a call nothing. -/
theorem Sinks.cost_le {l : Local} (h : Sinks parent parent') (hl : l.Good links maxValue n (.unite a b)) :
    l.cost n parent' ≤ l.cost n parent := by
  cases l with
  | halveI q j =>
    have hsum : weight parent' q.vertex + weight parent' j ≤ weight parent q.vertex + weight parent j :=
      Nat.add_le_add (h.weight_le _) (h.weight_le _)
    have hmul := Nat.mul_le_mul_right (6 * n + 9) hsum
    simp only [Local.cost]
    omega
  | halveJ i q =>
    obtain ⟨hi, _, hq, _⟩ := hl
    have hpay := h.pay hi hq.lt
    simp only [Local.cost]
    omega
  | check i j =>
    obtain ⟨hlt, hi, _⟩ := hl
    have hpay := h.pay hi (hlt.trans hi)
    simp only [Local.cost]
    omega
  | exchange i j =>
    obtain ⟨hlt, hi, _⟩ := hl
    have hpay := h.pay hi (hlt.trans hi)
    simp only [Local.cost]
    omega
  | _ => exact le_rfl

/-- One access of `find_halve`: it goes on with less to do, or it returns a root that is no higher. -/
theorem Halve.Good.descend {q : Halve} (hq : q.Good links n a) (parent : ℕ → ℕ) :
    (∀ q', (q.step parent).1 = .inl q' → weight parent q'.vertex ≤ weight parent q.vertex ∧
      q'.vertex ≤ q.vertex ∧ 3 * q'.vertex + q'.left < 3 * q.vertex + q.left) ∧
    ∀ r, (q.step parent).1 = .inr r → parent r = r ∧ r ≤ q.vertex ∧ 0 < q.left := by
  cases q with
  | readParent x =>
    refine ⟨fun q' heq => ?_, fun r heq => by cases heq⟩
    cases heq
    exact ⟨le_rfl, le_rfl, Nat.lt_succ_self _⟩
  | readGrandparent x px =>
    obtain ⟨_, hle, _⟩ := hq
    rw [Halve.step]
    split
    case isTrue hroot =>
      refine ⟨fun q' heq => (by cases heq), fun r heq => ?_⟩
      cases heq
      exact ⟨hroot.symm, hle, Nat.one_pos⟩
    case isFalse =>
      refine ⟨fun q' heq => ?_, fun r heq => by cases heq⟩
      cases heq
      exact ⟨le_rfl, le_rfl, Nat.lt_succ_self _⟩
  | writeParent x ppx =>
    obtain ⟨hlt, _⟩ := hq
    refine ⟨fun q' heq => ?_, fun r heq => by cases heq⟩
    cases heq
    refine ⟨weight_le_of_lt hlt, hlt.le, ?_⟩
    simp only [Halve.vertex, Halve.left]
    omega

/-- An attempt to link costs less than finding the second root. -/
theorem cost_compare (hj : parent j = j) (hle : j ≤ y) :
    (compare maxValue i j).cost n parent < (weight parent i + weight parent y) * (6 * n + 9) + 3 * y + 3 + again
      parent i y := by
  have hmul :
    (weight parent i + weight parent j) * (6 * n + 9) ≤ (weight parent i + weight parent y) * (6 * n + 9) :=
    Nat.mul_le_mul_right _ (Nat.add_le_add_left (weight_le_of_le hle) _)
  have hagain : again parent i j ≤ again parent i y := by
    rw [again, again]
    split <;> omega
  have hroot : again parent j i = 0 := if_pos hj
  unfold compare
  split
  · simp only [Local.cost]
    omega
  · split
    · simp only [Local.cost, hroot]
      rw [Nat.add_comm (weight parent j)]
      omega
    · simp only [Local.cost]
      omega

/-- Every access of a call of `unite` brings it nearer to its end. -/
theorem Local.Good.cost_lt {l : Local} (hl : l.Good links maxValue n (.unite a b)) (hf : Follows links n parent) :
    (∃ v, l = .returned v) ∨ (l.step maxValue parent).1.cost n
    (l.step maxValue parent).2.1 < l.cost n parent := by
  have hsinks := (hl.step hf).1.sinks
  have hgood := (hl.step hf).2
  refine or_iff_not_imp_left.mpr fun hreturned => lt_of_le_of_lt (hsinks.cost_le hgood) ?_
  cases l with
  | halveI q j =>
    obtain ⟨_, _, hq, _⟩ := hl
    obtain ⟨hnext, hreturn⟩ := hq.descend parent
    rw [Local.step]
    rcases hstep : q.step parent with ⟨q' | r, parent'⟩
    · obtain ⟨hweight, _, hlt⟩ := hnext q' (by rw [hstep])
      have hmul : (weight parent q'.vertex + weight parent j) * (6 * n + 9) ≤
          (weight parent q.vertex + weight parent j) * (6 * n + 9) :=
            Nat.mul_le_mul_right _ (Nat.add_le_add_right hweight _)
      simp only [Local.cost]
      omega
    · obtain ⟨hroot, hle, hleft⟩ := hreturn r (by rw [hstep])
      have hmul : (weight parent r + weight parent j) * (6 * n + 9) ≤
          (weight parent q.vertex + weight parent j) * (6 * n + 9) :=
        Nat.mul_le_mul_right _ (Nat.add_le_add_right (weight_le_of_le hle) _)
      have hagain : again parent r j = 0 := if_pos hroot
      simp only [Local.cost, Halve.vertex_readParent, Halve.left_readParent, hagain]
      omega
  | halveJ i q =>
    obtain ⟨_, _, hq, _⟩ := hl
    obtain ⟨hnext, hreturn⟩ := hq.descend parent
    rw [Local.step]
    rcases hstep : q.step parent with ⟨q' | r, parent'⟩
    · obtain ⟨hweight, hle, hlt⟩ := hnext q' (by rw [hstep])
      have hmul : (weight parent i + weight parent q'.vertex) * (6 * n + 9) ≤
          (weight parent i + weight parent q.vertex) * (6 * n + 9) :=
            Nat.mul_le_mul_right _ (Nat.add_le_add_left hweight _)
      have hagain : again parent i q'.vertex ≤ again parent i q.vertex := by
        rw [again, again]
        split <;> omega
      simp only [Local.cost]
      omega
    · obtain ⟨hroot, hle, _⟩ := hreturn r (by rw [hstep])
      refine (cost_compare hroot hle).trans_le ?_
      rw [Local.cost]
      omega
  | check i j =>
    rw [Local.step]
    split
    case isTrue hroot =>
      have hagain : again parent i j = 3 * i + 3 * j + 9 := if_neg hroot
      simp only [Local.cost, Halve.vertex_readParent, Halve.left_readParent, hagain]
      omega
    case isFalse =>
      simp only [Local.cost]
      omega
  | exchange i j =>
    rw [Local.step]
    split
    case isTrue =>
      simp only [Local.cost]
      omega
    case isFalse hroot =>
      have hagain : again parent i j = 3 * i + 3 * j + 9 := if_neg hroot
      simp only [Local.cost, Halve.vertex_readParent, Halve.left_readParent, hagain]
      omega
  | returned v => exact absurd ⟨v, rfl⟩ hreturned
  | _ => exact hl.elim

end Weights

/-- The accesses that a call makes at most. -/
def Call.limit (n : ℕ) : Call → ℕ
  | unite i j => (i + j + 3) * (6 * n + 9)
  | find i => i + 3

section Runs

variable {C : Type} [DecidableEq C] {maxValue n a b : ℕ} {calls : C → Call} {s : State C} {c : C}

/-- A call of `unite` returns after as many steps of its own as it costs. -/
theorem Inv.unite_returns (h : Inv maxValue n calls s) (hc : calls c = .unite a b) (schedule : List C)
    (hcount : (s.calls c).cost n s.parent ≤ schedule.count c) : ∃ v,
      (UnionFind.run maxValue schedule s).calls c = .returned v := by
  induction schedule generalizing s with
  | nil =>
    have hg := h.good c
    rw [hc] at hg
    rcases hg.cost_lt h.follows with hreturned | hlt
    · exact hreturned
    · rw [List.count_nil] at hcount
      omega
  | cons d schedule ih =>
    rw [run_cons]
    refine ih (h.step d) ?_
    have hg := h.good c
    rw [hc] at hg
    by_cases hdc : d = c
    · subst hdc
      rw [List.count_cons_self] at hcount
      simp only [State.advance, Function.update_self]
      rcases hg.cost_lt h.follows with ⟨v, hv⟩ | hlt
      · rw [hv]
        exact Nat.zero_le _
      · omega
    · rw [List.count_cons_of_ne hdc] at hcount
      simp only [State.advance, Function.update_of_ne (Ne.symm hdc)]
      have hsinks := ((h.good d).step h.follows).1.sinks
      exact (hsinks.cost_le hg).trans hcount

/-- In every schedule that gives a call as many accesses as its limit says, the call returns, whatever accesses of
other calls come in between. -/
theorem calls_return (maxValue : ℕ) (hcalls : ∀ c, (calls c).Within n) (schedule : List C) (c : C)
    (hcount : (calls c).limit n ≤ schedule.count c) :
    ∃ v, (run maxValue schedule (State.init calls)).calls c = .returned v := by
  have h : Inv maxValue n calls (State.init calls) := Inv.init hcalls
  cases hc : calls c with
  | unite a b =>
    have hstart : (State.init calls).calls c = .halveI (.readParent a) b := congrArg Call.start hc
    refine h.unite_returns hc schedule (le_trans ?_ hcount)
    have hsum : weight (id : ℕ → ℕ) a + weight (id : ℕ → ℕ) b = a + b + 2 := by
      rw [weight_root rfl, weight_root rfl]
      omega
    have ha : a < n ∧ b < n := by
      have hwithin := hcalls c
      rwa [hc] at hwithin
    change ((State.init calls).calls c).cost n id ≤ _
    rw [hstart, hc, Call.limit, Nat.succ_mul (a + b + 2)]
    simp only [Local.cost, Halve.vertex_readParent, Halve.left_readParent, hsum]
    omega
  | find a =>
    have hstart : (State.init calls).calls c = .findParent a := congrArg Call.start hc
    refine h.find_returns hc schedule (le_trans ?_ hcount)
    rw [hstart, hc]
    exact le_rfl

/-- A call of `unite` on vertices 1 and 0, while a call of `find` waits. -/
theorem calls_return_unite : ∃ v,
    (run 255 (List.replicate 120 true) (State.init fun c => if c then .unite 1 0 else .find 1)).calls true =
      .returned v := by
  refine calls_return (n := 2) 255 (fun c => ?_) (List.replicate 120 true) true ?_
  · cases c with
    | true => exact ⟨by decide, by decide⟩
    | false => exact (by decide : 1 < 2)
  · rw [List.count_replicate_self]
    decide

end Runs

end UnionFind

end ToggleTree
