import ToggleTree.Scheduler.ExactlyOnce

/-!
# What one step does to a deque

The users of a deque need not know the points of its operations. For each label this module
says what a step does to the calls and to the ledger of a reachable deque: the ledger moves at
most once in a call, and the call then knows the number of the job.
-/

namespace ToggleTree

open ForkJoin ForkJoin.Prog

namespace Deque

variable {J K : Type}

/-- What the owner asks of its deque. -/
inductive Request (J : Type)
  | push (job : J)
  | pop

/-- The request that a call of the owner serves. -/
def OwnerCall.request : OwnerCall J → Option (Request J)
  | none => Option.none
  | push job _ _ _ => some (.push job)
  | pop _ _ => some .pop

/-- The number of the job that the call has pushed or taken. -/
def OwnerCall.number : OwnerCall J → Option ℕ
  | none => Option.none
  | push _ _ number _ => number
  | pop _ number => number

/-- Whether the thief is in a call. -/
def ThiefCall.busy : ThiefCall J → Bool
  | none => false
  | top _ _ => true

/-- The number of the job that the thief has taken. -/
def ThiefCall.number : ThiefCall J → Option ℕ
  | none => Option.none
  | top _ number => number

/-- A call that is not busy has no number. -/
theorem ThiefCall.number_eq_none {c : ThiefCall J} (h : c.busy = false) : c.number = Option.none := by
  cases c with
  | none => rfl
  | top rest number => cases h

/-- The jobs of the items, from the head to the tail. -/
def Ledger.Holds (l : Ledger J) (jobs : List J) : Prop :=
  l.items.map (fun number => l.pushed[number]?) = jobs.map some

namespace Ledger.Holds

variable {l : Ledger J} {jobs : List J}

/-- An empty ledger has no jobs. -/
theorem init : (Ledger.init : Ledger J).Holds [] := rfl

/-- Pushing a job appends it. -/
theorem push (h : l.Holds jobs) (job : J) : (l.push job).Holds (jobs ++ [job]) := by
  have hold : l.items.map (fun number => (l.push job).pushed[number]?) =
      l.items.map fun number => l.pushed[number]? := by
    refine List.map_congr_left fun number hnumber => ?_
    have hmem : l.pushed[number]? ∈ jobs.map some := by
      rw [← h]
      exact List.mem_map_of_mem (f := fun number => l.pushed[number]?) hnumber
    obtain ⟨j, _, hj⟩ := List.mem_map.mp hmem
    rw [← hj]
    exact Ledger.pushed_push job number j hj.symm
  unfold Ledger.Holds at h ⊢
  rw [Ledger.push] at hold ⊢
  simp only [List.map_append, List.map_cons, List.map_nil] at hold ⊢
  rw [hold, h]
  simp

/-- Popping from the bottom removes the last job. -/
theorem popBottom (h : l.Holds jobs) : l.popBottom.Holds jobs.dropLast := by
  unfold Ledger.Holds Ledger.popBottom at *
  simp only [List.map_dropLast, h]

/-- Popping from the top removes the first job. -/
theorem popTop (h : l.Holds jobs) : l.popTop.Holds jobs.tail := by
  unfold Ledger.Holds Ledger.popTop at *
  simp only [List.map_tail, h]

/-- The item at the tail is the last of the jobs. -/
theorem getLast? (h : l.Holds jobs) {number : ℕ} (hn : l.items.getLast? = some number) :
    ∃ job, jobs.getLast? = some job ∧ l.pushed[number]? = some job := by
  have hmap := congrArg List.getLast? h
  rw [List.getLast?_map, List.getLast?_map, hn] at hmap
  cases hjobs : jobs.getLast? with
  | none => rw [hjobs] at hmap; cases hmap
  | some job =>
    rw [hjobs] at hmap
    exact ⟨job, rfl, Option.some.inj hmap⟩

/-- The item at the head is the first of the jobs. -/
theorem head? (h : l.Holds jobs) {number : ℕ} (hn : l.items.head? = some number) :
    ∃ job, jobs.head? = some job ∧ l.pushed[number]? = some job := by
  have hmap := congrArg List.head? h
  rw [List.head?_map, List.head?_map, hn] at hmap
  cases hjobs : jobs.head? with
  | none => rw [hjobs] at hmap; cases hmap
  | some job =>
    rw [hjobs] at hmap
    exact ⟨job, rfl, Option.some.inj hmap⟩

/-- A ledger without items has no jobs. -/
theorem eq_nil_iff (h : l.Holds jobs) : l.items = [] ↔ jobs = [] := by
  rw [← List.map_eq_nil_iff (f := fun number => l.pushed[number]?), h, List.map_eq_nil_iff]

end Ledger.Holds

section Moves

variable {T : DequeType} {c c' : Config J K}

/-- The call that pushes has not pushed before. -/
theorem Config.Reachable.push_once [DecidableEq K] (hreach : Config.Reachable T c) {job : J}
    {rest rest' : Prog (Deque J) Empty (Bool × Bool)} {number : Option ℕ} {quiet : Prop} {d : Deque J}
    (hcall : c.owner = .push job rest number quiet)
    (hstep : ForkJoin.Step Empty.elim rest c.deque rest' d) (hpos : d.pos ≠ c.deque.pos) :
    number = none := by
  obtain ⟨h, t, os, ts, hinv⟩ := hreach.inv
  obtain ⟨point, rfl, rfl⟩ := OwnerState.call_eq_push (hinv.owner_eq.symm.trans hcall)
  have hvalid := hinv.owner_valid
  rcases PushState.step T hstep with ⟨_, rfl, _⟩ | ⟨_, _, rfl, _⟩ | ⟨_, _, rfl, _⟩ | ⟨p, rfl, _, _⟩
  · exact (hpos rfl).elim
  · exact (hpos rfl).elim
  · exact (hpos rfl).elim
  · exact hvalid.1

/-- The call that takes a job at the bottom has not taken one before. -/
theorem Config.Reachable.pop_once [DecidableEq K] (hreach : Config.Reachable T c)
    {rest rest' : Prog (Deque J) Empty Bool} {number : Option ℕ} {d : Deque J}
    (hcall : c.owner = .pop rest number) (hstep : ForkJoin.Step Empty.elim rest c.deque rest' d)
    (hpos : d.pos ≠ c.deque.pos) : number = none := by
  obtain ⟨h, t, os, ts, hinv⟩ := hreach.inv
  obtain ⟨point, rfl, rfl⟩ := OwnerState.call_eq_pop (hinv.owner_eq.symm.trans hcall)
  have hvalid := hinv.owner_valid
  rcases PopState.step T hstep with ⟨_, rfl, _⟩ | ⟨rfl, _, _, _⟩ | ⟨_, _, _, rfl, _⟩
  · exact (hpos rfl).elim
  · exact hvalid.1
  · exact (hpos rfl).elim

/-- The thief that takes a job has not taken one before, and there is one to take. -/
theorem Config.Reachable.top_once [DecidableEq K] (hreach : Config.Reachable T c) {k : K}
    {rest rest' : Prog (Deque J) Empty (Option J × Bool)} {number : Option ℕ} {d : Deque J}
    (hcall : c.thief k = .top rest number) (hstep : ForkJoin.Step Empty.elim rest c.deque rest' d)
    (hpos : d.pos ≠ c.deque.pos) : number = none ∧ ∃ m, c.ledger.items.head? = some m := by
  obtain ⟨h, t, os, ts, hinv⟩ := hreach.inv
  obtain ⟨point, hk, rfl⟩ := ThiefState.call_eq_top ((hinv.thief_eq k).symm.trans hcall)
  have hvalid := hinv.thief_valid k
  rw [hk] at hvalid
  rcases TopState.step T hstep with ⟨_, rfl, _⟩ | ⟨_, _, _, rfl, _⟩ | ⟨p, rfl, hp, _, _⟩ |
    ⟨_, _, _, rfl, _⟩ | ⟨_, _, _, rfl, _⟩
  · exact (hpos rfl).elim
  · exact (hpos rfl).elim
  · obtain ⟨job, ⟨m, hm, _⟩, _⟩ := hinv.takeTop hk hp
    exact ⟨hvalid.1, m, hm⟩
  · exact (hpos rfl).elim
  · exact (hpos rfl).elim

variable [DecidableEq K]

/-- A step of the owner's call. -/
theorem Config.Reachable.stepOwner (hreach : Config.Reachable T c)
    (hstep : Config.Step T .stepOwner c c') :
    c'.owner.request = c.owner.request ∧ c'.thief = c.thief ∧
      ((c'.owner.number = c.owner.number ∧ c'.ledger = c.ledger) ∨
       (∃ job, c.owner.request = some (.push job) ∧ c.owner.number = none ∧
          c'.owner.number = some c.ledger.pushed.length ∧ c'.ledger = c.ledger.push job) ∨
       c.owner.request = some .pop ∧ c.owner.number = none ∧
          c'.owner.number = c.ledger.items.getLast? ∧ c'.ledger = c.ledger.popBottom) := by
  cases hstep with
  | @stepPush _ job rest rest' number quiet d hcall hprog =>
    refine ⟨by rw [hcall]; rfl, rfl, ?_⟩
    by_cases hpos : d.pos = c.deque.pos
    · refine Or.inl ⟨?_, if_pos hpos⟩
      rw [hcall]
      exact if_pos hpos
    · refine Or.inr (Or.inl ⟨job, by rw [hcall]; rfl, ?_, if_neg hpos, if_neg hpos⟩)
      rw [hcall]
      exact hreach.push_once hcall hprog hpos
  | @stepPop _ rest rest' number d hcall hprog =>
    refine ⟨by rw [hcall]; rfl, rfl, ?_⟩
    by_cases hpos : d.pos = c.deque.pos
    · refine Or.inl ⟨?_, if_pos hpos⟩
      rw [hcall]
      exact if_pos hpos
    · refine Or.inr (Or.inr ⟨by rw [hcall]; rfl, ?_, if_neg hpos, if_neg hpos⟩)
      rw [hcall]
      exact hreach.pop_once hcall hprog hpos

/-- A step of a thief's call. -/
theorem Config.Reachable.stepThief (hreach : Config.Reachable T c) {k : K}
    (hstep : Config.Step T (.stepThief k) c c') :
    c'.owner = c.owner ∧ (∀ m ≠ k, c'.thief m = c.thief m) ∧
      (c.thief k).busy ∧ (c'.thief k).busy ∧
      (((c'.thief k).number = (c.thief k).number ∧ c'.ledger = c.ledger) ∨
       ∃ m, c.ledger.items.head? = some m ∧ (c.thief k).number = none ∧
          (c'.thief k).number = some m ∧ c'.ledger = c.ledger.popTop) := by
  cases hstep with
  | @stepTop _ _ rest rest' number d hcall hprog =>
    refine ⟨rfl, fun m hm => Function.update_of_ne hm _ _, by rw [hcall]; rfl, ?_, ?_⟩
    · simp only [Function.update_self]
      rfl
    · simp only [Function.update_self, hcall, ThiefCall.number]
      by_cases hpos : d.pos = c.deque.pos
      · exact Or.inl ⟨if_pos hpos, if_pos hpos⟩
      · obtain ⟨hnumber, m, hm⟩ := hreach.top_once hcall hprog hpos
        exact Or.inr ⟨m, hm, hnumber, (if_neg hpos).trans hm, if_neg hpos⟩

/-- A push starts. -/
theorem Config.Step.callPush_effect {job : J} (hstep : Config.Step T (.callPush job) c c') :
    c.owner.request = none ∧ c'.owner.request = some (.push job) ∧ c'.owner.number = none ∧
      c'.thief = c.thief ∧ c'.ledger = c.ledger := by
  cases hstep with
  | callPush hnone => exact ⟨by rw [hnone]; rfl, rfl, rfl, rfl, rfl⟩

/-- A pop starts. -/
theorem Config.Step.callPop_effect (hstep : Config.Step T .callPop c c') :
    c.owner.request = none ∧ c'.owner.request = some .pop ∧ c'.owner.number = none ∧
      c'.thief = c.thief ∧ c'.ledger = c.ledger := by
  cases hstep with
  | callPop hnone => exact ⟨by rw [hnone]; rfl, rfl, rfl, rfl, rfl⟩

/-- A take at the top starts. -/
theorem Config.Step.callTop_effect {k : K} (hstep : Config.Step T (.callTop k) c c') :
    c'.owner = c.owner ∧ (∀ m ≠ k, c'.thief m = c.thief m) ∧
      (c'.thief k).busy ∧ (c'.thief k).number = none ∧ c'.ledger = c.ledger := by
  cases hstep with
  | callTop hnone =>
    refine ⟨rfl, fun m hm => Function.update_of_ne hm _ _, ?_, ?_, rfl⟩ <;>
      simp only [Function.update_self] <;> rfl

/-- A push returns. -/
theorem Config.Reachable.returnPush (hreach : Config.Reachable T c) {job : J} {r : Bool × Bool}
    (hstep : Config.Step T (.returnPush job r) c c') :
    c.owner.request = some (.push job) ∧ c'.owner.request = none ∧ c'.owner.number = none ∧
      c'.thief = c.thief ∧ c'.ledger = c.ledger ∧
      if r.1 then c.owner.number ≠ none else c.owner.number = none := by
  cases hstep with
  | @returnPush _ _ _ number quiet hcall =>
    refine ⟨by rw [hcall]; rfl, rfl, rfl, rfl, rfl, ?_⟩
    obtain ⟨h, t, os, ts, hinv⟩ := hreach.inv
    obtain ⟨b, f⟩ := r
    rw [hcall]
    cases b with
    | true =>
      obtain ⟨m, hm, _⟩ := hinv.guarantees.pushed _ _ _ _ hcall
      exact hm ▸ Option.some_ne_none m
    | false => exact (hinv.guarantees.refused _ _ _ _ hcall).2.1

/-- A pop returns. -/
theorem Config.Reachable.returnPop (hreach : Config.Reachable T c) {r : Bool}
    (hstep : Config.Step T (.returnPop r) c c') :
    c.owner.request = some .pop ∧ c'.owner.request = none ∧ c'.owner.number = none ∧
      c'.thief = c.thief ∧ c'.ledger = c.ledger ∧
      if r then c.owner.number ≠ none else c.owner.number = none ∧ c.ledger.items = [] := by
  cases hstep with
  | @returnPop _ _ number hcall =>
    refine ⟨by rw [hcall]; rfl, rfl, rfl, rfl, rfl, ?_⟩
    obtain ⟨h, t, os, ts, hinv⟩ := hreach.inv
    rw [hcall]
    cases r with
    | true =>
      obtain ⟨m, hm, _⟩ := hinv.guarantees.popped _ hcall
      exact Option.ne_none_iff_exists'.mpr ⟨m, hm⟩
    | false => exact hinv.guarantees.emptied _ hcall

/-- A take at the top returns. -/
theorem Config.Reachable.returnTop (hreach : Config.Reachable T c) {k : K} {r : Option J × Bool}
    (hstep : Config.Step T (.returnTop k r) c c') :
    c'.owner = c.owner ∧ (∀ m ≠ k, c'.thief m = c.thief m) ∧
      (c.thief k).busy ∧ (c'.thief k).busy = false ∧ c'.ledger = c.ledger ∧
      ∀ job, r.1 = some job → c.ledger.Dealt (c.thief k).number job := by
  cases hstep with
  | @returnTop _ _ _ number hcall =>
    refine ⟨rfl, fun m hm => Function.update_of_ne hm _ _, by rw [hcall]; rfl, ?_, rfl, ?_⟩
    · simp only [Function.update_self]
      rfl
    · rintro job hjob
      obtain ⟨h, t, os, ts, hinv⟩ := hreach.inv
      obtain ⟨o, e⟩ := r
      cases hjob
      rw [hcall]
      exact (hinv.guarantees.stolen _ _ _ _ hcall).1

end Moves

end Deque

end ToggleTree
