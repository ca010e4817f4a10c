import ToggleTree.Scheduler.Counters

/-!
# Control states of the deque operations

What is left of a call is one of a few programs, one for each point between two atomic
operations. This module names these points and computes the next one.
-/

namespace ToggleTree

open ForkJoin ForkJoin.Prog

namespace Deque

variable {J : Type} (T : DequeType)

/-- Points of `push_bottom`; `p` is the word that was read. -/
inductive PushState
  | entered
  | loaded (p : ℕ)
  | checked (p : ℕ)
  | stored (p : ℕ)
  | returned (result : Bool × Bool)

/-- Points of `pop_bottom`; from `clearing` on, `job` is the job taken. -/
inductive PopState (J : Type)
  | entered
  | decided
  | clearing (p : ℕ) (job : J)
  | returned (result : Bool)

/-- Points of `pop_top`; from `exchanged` on, `job` is the job taken. -/
inductive TopState (J : Type)
  | entered
  | proposing (p : ℕ)
  | exchanged (p : ℕ) (job : J)
  | clearing (p : ℕ) (job : J)
  | returned (result : Option J × Bool)

/-- The rest of `push_bottom`. -/
def PushState.rest (job : J) : PushState → Prog (Deque J) Empty (Bool × Bool)
  | entered => pushBottom T job
  | loaded p => do
      let old ← atomicRead (slot (target T p))
      if old.isSome then return (false, false)
      else do
        atomicWrite (slot (target T p)) (some job)
        advance T p
        return (true, decide (T.length p ≤ 1))
  | checked p => do
      atomicWrite (slot (target T p)) (some job)
      advance T p
      return (true, decide (T.length p ≤ 1))
  | stored p => do
      advance T p
      return (true, decide (T.length p ≤ 1))
  | returned result => ret result

/-- The rest of `pop_bottom`. -/
def PopState.rest : PopState J → Prog (Deque J) Empty Bool
  | entered => popBottom T
  | decided => do
      let p ← fetchAndUpdate position fun p => T.sub p T.unit
      if T.length p = 1 then return false
      else do
        atomicWrite (slot (T.tail (T.sub p (2 * T.unit)))) none
        return true
  | clearing p _ => do
      atomicWrite (slot (T.tail (T.sub p (2 * T.unit)))) none
      return true
  | returned result => ret result

/-- The rest of `pop_top`. -/
def TopState.rest : TopState J → Prog (Deque J) Empty (Option J × Bool)
  | entered => popTop T
  | proposing p => do
      let (swapped, seen) ← compareExchange position p
        ((p >>> T.bits) <<< T.bits ||| T.toST (T.toST p + 1))
      if swapped = false then return (none, decide (T.length seen ≤ 1))
      else do
        let job ← atomicRead (slot (T.head p))
        atomicWrite (slot (T.head p)) none
        return (job, decide (T.length p = 2))
  | exchanged p _ => do
      let job ← atomicRead (slot (T.head p))
      atomicWrite (slot (T.head p)) none
      return (job, decide (T.length p = 2))
  | clearing p job => do
      atomicWrite (slot (T.head p)) none
      return (some job, decide (T.length p = 2))
  | returned result => ret result

/-- The word after the update of the tail in `push_bottom`. -/
def advanced (p pos : ℕ) : ℕ :=
  if T.weakMemory then (pos + if T.length p = 0 then 2 * T.unit else T.unit) % T.range
  else T.toST (T.toST (p >>> T.bits) + if T.length p = 0 then 2 else 1) <<< T.bits + T.toST pos

section Next

variable {d d' : Deque J}

/-- The steps of `push_bottom`. -/
theorem PushState.step {job : J} {s : PushState} {rest : Prog (Deque J) Empty (Bool × Bool)}
    (h : ForkJoin.Step Empty.elim (s.rest T job) d rest d') :
    (s = entered ∧ d' = d ∧
      rest = (if T.length d.pos = T.capacity - 1 then returned (false, false)
        else loaded d.pos).rest T job) ∨
    (∃ p, s = loaded p ∧ d' = d ∧
      rest = (if (d.deq (target T p)).isSome then returned (false, false) else checked p).rest T job) ∨
    (∃ p, s = checked p ∧ d' = { d with deq := Function.update d.deq (target T p) (some job) } ∧
      rest = (stored p).rest T job) ∨
    ∃ p, s = stored p ∧ d' = { d with pos := advanced T p d.pos } ∧
      rest = (returned (true, decide (T.length p ≤ 1))).rest T job := by
  cases s with
  | entered =>
    obtain ⟨rfl, hd⟩ := h
    refine Or.inl ⟨rfl, hd, ?_⟩
    change (if T.length d.pos = T.capacity - 1 then _ else _) = _
    split <;> rfl
  | loaded p =>
    obtain ⟨rfl, hd⟩ := h
    refine Or.inr (Or.inl ⟨p, rfl, hd, ?_⟩)
    change (if (d.deq (target T p)).isSome = true then _ else _) = _
    split <;> rfl
  | checked p =>
    obtain ⟨rfl, rfl⟩ := h
    exact Or.inr (Or.inr (Or.inl ⟨p, rfl, rfl, rfl⟩))
  | stored p =>
    refine Or.inr (Or.inr (Or.inr ⟨p, rfl, ?_⟩))
    rw [PushState.rest, advance] at h
    rw [advanced]
    by_cases hw : T.weakMemory = true
    · rw [if_pos hw] at h ⊢
      obtain ⟨rfl, rfl⟩ := h
      exact ⟨rfl, rfl⟩
    · rw [if_neg hw] at h ⊢
      obtain ⟨rfl, rfl⟩ := h
      exact ⟨rfl, rfl⟩
  | returned r => exact h.elim

/-- The steps of `pop_bottom`. -/
theorem PopState.step {s : PopState J} {rest : Prog (Deque J) Empty Bool}
    (h : ForkJoin.Step Empty.elim (s.rest T) d rest d') :
    (s = entered ∧ d' = d ∧
      rest = (if T.length d.pos ≤ 1 then returned false else decided : PopState J).rest T) ∨
    (s = decided ∧ d' = { d with pos := T.sub d.pos T.unit } ∧
      (T.length d.pos = 1 → rest = (returned false : PopState J).rest T) ∧
      (T.length d.pos ≠ 1 → ∀ job, rest = (clearing d.pos job).rest T)) ∨
    ∃ p job, s = clearing p job ∧
      d' = { d with deq := Function.update d.deq (T.tail (T.sub p (2 * T.unit))) none } ∧
      rest = (returned true : PopState J).rest T := by
  cases s with
  | entered =>
    obtain ⟨rfl, hd⟩ := h
    refine Or.inl ⟨rfl, hd, ?_⟩
    change (if T.length d.pos ≤ 1 then _ else _) = _
    split <;> rfl
  | decided =>
    obtain ⟨rfl, rfl⟩ := h
    refine Or.inr (Or.inl ⟨rfl, rfl, fun hone => ?_, fun hne job => ?_⟩)
    · exact if_pos hone
    · exact if_neg hne
  | clearing p job =>
    obtain ⟨rfl, rfl⟩ := h
    exact Or.inr (Or.inr ⟨p, job, rfl, rfl, rfl⟩)
  | returned r => exact h.elim

/-- The steps of `pop_top`. -/
theorem TopState.step {s : TopState J} {rest : Prog (Deque J) Empty (Option J × Bool)}
    (h : ForkJoin.Step Empty.elim (s.rest T) d rest d') :
    (s = entered ∧ d' = d ∧
      rest = (if T.length d.pos ≤ 1 then returned (none, true) else proposing d.pos).rest T) ∨
    (∃ p, s = proposing p ∧ d.pos ≠ p ∧ d' = d ∧
      rest = (returned (none, decide (T.length d.pos ≤ 1))).rest T) ∨
    (∃ p, s = proposing p ∧ d.pos = p ∧
      d' = { d with pos := (p >>> T.bits) <<< T.bits ||| T.toST (T.toST p + 1) } ∧
      ∀ job, rest = (exchanged p job).rest T) ∨
    (∃ p job, s = exchanged p job ∧ d' = d ∧ ∀ job', d.deq (T.head p) = some job' →
      rest = (clearing p job').rest T) ∨
    ∃ p job, s = clearing p job ∧
      d' = { d with deq := Function.update d.deq (T.head p) none } ∧
      rest = (returned (some job, decide (T.length p = 2))).rest T := by
  cases s with
  | entered =>
    obtain ⟨rfl, hd⟩ := h
    refine Or.inl ⟨rfl, hd, ?_⟩
    change (if T.length d.pos ≤ 1 then _ else _) = _
    split <;> rfl
  | proposing p =>
    obtain ⟨rfl, hd⟩ := h
    change d' = (if d.pos = p then _ else d) at hd
    by_cases hp : d.pos = p
    · refine Or.inr (Or.inr (Or.inl ⟨p, rfl, hp, ?_, fun job => ?_⟩))
      · rw [if_pos hp] at hd
        exact hd
      · change (if decide (d.pos = p) = false then _ else _) = _
        rw [if_neg (by simp [hp])]
        rfl
    · refine Or.inr (Or.inl ⟨p, rfl, hp, ?_, ?_⟩)
      · rwa [if_neg hp] at hd
      · change (if decide (d.pos = p) = false then _ else _) = _
        rw [if_pos (by simp [hp])]
        rfl
  | exchanged p job =>
    obtain ⟨rfl, hd⟩ := h
    refine Or.inr (Or.inr (Or.inr (Or.inl ⟨p, job, rfl, hd, fun job' hjob => ?_⟩)))
    change (atomicWrite (slot (T.head p)) none >>= fun _ => ret (d.deq (T.head p), _)) = _
    rw [hjob]
    rfl
  | clearing p job =>
    obtain ⟨rfl, rfl⟩ := h
    exact Or.inr (Or.inr (Or.inr (Or.inr ⟨p, job, rfl, rfl, rfl⟩)))
  | returned r => exact h.elim

end Next

end Deque

end ToggleTree
