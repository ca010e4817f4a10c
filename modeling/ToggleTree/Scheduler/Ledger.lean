import ToggleTree.Scheduler.Deque

/-!
# The ledger of pushed jobs

The ledger is a double-ended queue of job numbers together with everything that was taken
from it. Whatever is pushed and taken, each job is in the queue or has been taken once.
-/

namespace ToggleTree

namespace Deque

variable {J : Type}

namespace Ledger

/-- The job of the item number `k` from the head. -/
def jobAt (l : Ledger J) (k : ℕ) : Option J := l.items[k]?.bind fun number => l.pushed[number]?

/-- Each pushed job is at one place, and the items stand in the order of their pushes. -/
structure Sound (l : Ledger J) : Prop where
  once : (l.items ++ l.popped ++ l.stolen).Perm (List.range l.pushed.length)
  ordered : l.items.Pairwise (· < ·)

variable {l : Ledger J}

/-- The items have been pushed. -/
theorem Sound.lt (h : l.Sound) {number : ℕ} (hn : number ∈ l.items) : number < l.pushed.length := by
  have := h.once.mem_iff (a := number)
  simp only [List.mem_append, List.mem_range] at this
  exact this.mp (Or.inl (Or.inl hn))

/-- An empty ledger is sound. -/
theorem init_sound : (init : Ledger J).Sound := ⟨List.Perm.refl _, List.Pairwise.nil⟩

/-- Pushing keeps a ledger sound. -/
theorem push_sound (h : l.Sound) (job : J) : (l.push job).Sound := by
  constructor
  · have hlen : (l.push job).pushed.length = l.pushed.length + 1 := by simp [push]
    rw [hlen, List.range_succ]
    refine List.Perm.trans ?_ (h.once.append_right _)
    refine List.perm_iff_count.mpr fun a => ?_
    simp only [push, List.count_append]
    omega
  · refine List.pairwise_append.mpr ⟨h.ordered, List.pairwise_singleton _ _, ?_⟩
    intro a ha b hb
    rw [List.mem_singleton.mp hb]
    exact h.lt ha

/-- Popping from the bottom keeps a ledger sound. -/
theorem popBottom_sound (h : l.Sound) : l.popBottom.Sound := by
  refine ⟨List.Perm.trans ?_ h.once, h.ordered.sublist (List.dropLast_sublist _)⟩
  cases hlast : l.items.getLast? with
  | none =>
    rw [List.getLast?_eq_none_iff] at hlast
    simp [popBottom, hlast]
  | some number =>
    have hsplit : l.items = l.items.dropLast ++ [number] :=
      (List.dropLast_append_getLast? number hlast).symm
    refine List.perm_iff_count.mpr fun a => ?_
    conv_rhs => rw [hsplit]
    simp only [popBottom, hlast, Option.toList_some, List.count_append]
    omega

/-- Popping from the top keeps a ledger sound. -/
theorem popTop_sound (h : l.Sound) : l.popTop.Sound := by
  refine ⟨List.Perm.trans ?_ h.once, h.ordered.sublist (List.tail_sublist _)⟩
  cases hitems : l.items with
  | nil => simp [popTop, hitems]
  | cons number rest =>
    refine List.perm_iff_count.mpr fun a => ?_
    simp only [popTop, hitems, List.tail_cons, List.head?_cons, Option.toList_some,
      List.count_append, List.count_cons, List.count_nil]
    omega

/-- The jobs after a push. -/
theorem jobAt_push (job : J) (k : ℕ) (h : l.Sound) :
    (l.push job).jobAt k = if k = l.items.length then some job else l.jobAt k := by
  unfold jobAt push
  simp only
  split
  · next hk => simp [hk]
  · next hk =>
    by_cases hlt : k < l.items.length
    · have hmem : l.items[k] ∈ l.items := List.getElem_mem hlt
      rw [List.getElem?_append_left hlt, List.getElem?_eq_getElem hlt, Option.bind_some,
        Option.bind_some, List.getElem?_append_left (h.lt hmem)]
    · have hlen : (l.items ++ [l.pushed.length]).length ≤ k := by
        rw [List.length_append, List.length_singleton]
        omega
      have hnone : l.items[k]? = none := List.getElem?_eq_none (by omega)
      rw [List.getElem?_eq_none hlen, hnone]
      rfl

/-- The jobs after a pop from the top. -/
theorem jobAt_popTop (k : ℕ) : l.popTop.jobAt k = l.jobAt (k + 1) := by
  unfold jobAt popTop
  simp

/-- The jobs after a pop from the bottom. -/
theorem jobAt_popBottom (k : ℕ) :
    l.popBottom.jobAt k = if k + 1 < l.items.length then l.jobAt k else none := by
  unfold jobAt popBottom
  simp only [List.getElem?_dropLast]
  by_cases hk : k + 1 < l.items.length
  · rw [if_pos hk, if_pos (by omega)]
  · rw [if_neg hk, if_neg (by omega)]
    rfl

/-- The job of an item is there. -/
theorem Sound.jobAt_isSome (h : l.Sound) {k : ℕ} (hk : k < l.items.length) :
    ∃ job, l.jobAt k = some job ∧ l.pushed[l.items[k]]? = some job := by
  have hlt := h.lt (List.getElem_mem hk)
  refine ⟨l.pushed[l.items[k]], ?_, List.getElem?_eq_getElem hlt⟩
  rw [jobAt, List.getElem?_eq_getElem hk, Option.bind_some, List.getElem?_eq_getElem hlt]

end Ledger

end Deque

end ToggleTree
