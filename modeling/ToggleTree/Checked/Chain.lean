import Mathlib.Data.List.Basic

/-!
# Chains of cells

Cells that are linked through a field of their own. A chain is described by the list of its
cells; a write to a cell outside the chain leaves it as it is.

Nothing here refers to a particular program.
-/

namespace Checked

variable {α : Type} {next next' : α → Option α} {head : Option α} {l : List α} {p : α}

/-- The chain that starts with `head` has the cells of the list and ends with a null pointer. -/
def Chain (next : α → Option α) : Option α → List α → Prop
  | head, [] => head = none
  | head, p :: l => head = some p ∧ Chain next (next p) l

/-- The pointer that is reached after a number of links. -/
def follow (next : α → Option α) (head : Option α) : ℕ → Option α
  | 0 => head
  | i + 1 => follow next (head.bind next) i

/-- The empty chain. -/
@[simp] theorem chain_nil : Chain next head [] ↔ head = none := Iff.rfl

/-- A chain with a first block. -/
@[simp] theorem chain_cons : Chain next head (p :: l) ↔ head = some p ∧ Chain next (next p) l := Iff.rfl

/-- A chain depends only on the links of its blocks. -/
theorem Chain.congr (h : Chain next head l) (hnext : ∀ q ∈ l, next' q = next q) : Chain next' head l := by
  induction l generalizing head with
  | nil => exact h
  | cons p l ih =>
    obtain ⟨hhead, hrest⟩ := h
    refine ⟨hhead, ?_⟩
    rw [hnext p List.mem_cons_self]
    exact ih hrest fun q hq => hnext q (List.mem_cons_of_mem p hq)

/-- The first cell of a chain that is not empty. -/
theorem Chain.exists_cons (h : Chain next (some p) l) : ∃ rest, l = p :: rest ∧ Chain next (next p) rest := by
  cases l with
  | nil => cases h
  | cons q rest =>
    obtain ⟨hq, hrest⟩ := h
    obtain rfl := Option.some.inj hq
    exact ⟨rest, rfl, hrest⟩

/-- The pointers of a chain are its cells, and then null. -/
theorem Chain.follow_eq (h : Chain next head l) (i : ℕ) : follow next head i = l[i]? := by
  induction i generalizing head l with
  | zero =>
    cases l with
    | nil => exact h
    | cons p l => exact h.1
  | succ i ih =>
    cases l with
    | nil =>
      have hhead : head.bind next = none := by rw [show head = none from h, Option.bind_none]
      rw [follow, hhead, ih (l := []) rfl]
      simp
    | cons p l =>
      have hhead : head.bind next = next p := by rw [h.1, Option.bind_some]
      rw [follow, hhead, ih h.2, List.getElem?_cons_succ]

end Checked
