import ToggleTree.Scheduler.Schedule
import ToggleTree.Scheduler.Termination
import ToggleTree.Scheduler.Trace

/-!
# Guarantees of `parallel_do` and `parallel_for`

For every number of workers, every program and every interleaving: a pop that succeeds has taken
the job of its own `parallel_do`, each branch and each iteration is executed exactly once, and a
call returns only after all that it has started. In every fair run all calls return.
-/

namespace ToggleTree

open ForkJoin ForkJoin.Prog

namespace System

variable {σ : Type} {W : ℕ} [NeZero W] {T : DequeType} {p : Program σ} {s : σ}
  {sys : System (Traced σ) W}

/-- A program before its first step, with an empty log. -/
def start (s : σ) : Traced σ := ⟨s, 0, []⟩

/-- The program has returned. -/
def Finished (sys : System (Traced σ) W) : Prop := sys.worker 0 = .run .done .main

/-- What the scheduler guarantees in a state of a program. -/
structure Guarantees (p : Program σ) (s : σ) (sys : System (Traced σ) W) : Prop where
  /-- A pop inside `parallel_do` that returns true has removed the job of the same call. -/
  popped : ∀ w job next stack number, sys.worker w = .pop job next stack →
    (sys.deque w).owner = .pop (ret true) number →
    ∃ m, number = some m ∧ (sys.deque w).ledger.pushed[m]? = some job
  /-- Everything happens after what it needs: a call returns after all that it has started. -/
  orderly : Orderly sys.shared.log
  /-- Nothing happens twice. -/
  once : ∀ e, sys.shared.log.count e ≤ 1
  /-- Both branches of a `parallel_do` that has returned have been executed once. -/
  branches : ∀ n, (n, .fork) ∈ sys.shared.log → (n, .returned) ∈ sys.shared.log →
    ∀ m ∈ [Mark.leftStart, .leftEnd, .rightStart, .rightEnd], sys.shared.log.count (n, m) = 1
  /-- A `parallel_for` calls its function only in its range, and, once it has returned, exactly
  once on each index there. -/
  calls : ∀ n start stop i, (n, .loop start stop) ∈ sys.shared.log →
    ((n, .callStart i) ∈ sys.shared.log → start ≤ i ∧ i < stop) ∧
    ((n, .returned) ∈ sys.shared.log → start ≤ i → i < stop →
      sys.shared.log.count (n, .callStart i) = 1 ∧ sys.shared.log.count (n, .callEnd i) = 1)
  /-- When the program has returned, so have all of its calls. -/
  complete : sys.Finished → ∀ n m, (n, m) ∈ sys.shared.log → (n, .returned) ∈ sys.shared.log
  /-- The state is one that the fork–join program reaches, with nothing left when it has returned. -/
  simulates : ∃ r, Steps Empty.elim p.code.traced.prog (start s) r sys.shared ∧
    (sys.Finished → r = ret ())
  /-- A single worker never waits for a job. -/
  alone : W = 1 → ∀ w job next stack, sys.worker w ≠ .seek (.waitFor job next stack) ∧
    ∀ v, sys.worker w ≠ .probe (.waitFor job next stack) v

/-- Nothing has been traced at the start. -/
theorem start_tracing (s : σ) : tracing.inv (start s) 0 :=
  ⟨trivial, fun _ he => (List.not_mem_nil he).elim, Multiset.nodup_zero,
    fun _ he => (Multiset.notMem_zero _ he).elim, fun _ hi => (Nat.not_lt_zero _ hi).elim⟩

/-- A log in order counts each of its events once. -/
theorem count_eq_one {log : List Event} (h : Orderly log) {e : Event} (he : e ∈ log) : log.count e = 1 :=
  List.count_eq_one_of_mem h.nodup he

/-- The scheduler keeps its guarantees in every state that a program reaches. -/
theorem Reachable.guarantees (hreach : Reachable T p.code.traced (start s) sys) : Guarantees p s sys := by
  obtain ⟨queues, home, status, res, hinv, hsteps⟩ := hreach.simulates
  have hdoes := p.does (start s) 0 trivial
  rw [add_zero] at hdoes
  obtain ⟨a, ⟨horderly, hcalls, hnodup, hpermit, hreturns⟩, hrest⟩ :=
    hdoes.invariant (start_tracing s) hsteps
  refine ⟨fun w job next stack number hw hcall => hinv.popped_own hw hcall, horderly,
    fun e => List.nodup_iff_count_le_one.mp horderly.nodup e, fun n hfork hret m hm => ?_,
    fun n start stop i hloop => ⟨horderly.call_mem hloop, fun hret h₁ h₂ => ?_⟩, fun hdone n m hm => ?_,
    ⟨_, hsteps, hinv.returned⟩, fun hone w job next stack => ?_⟩
  · obtain ⟨hls, hle, hrs, hre⟩ := horderly.returned_do hret hfork
    simp only [List.mem_cons, List.not_mem_nil, or_false] at hm
    rcases hm with rfl | rfl | rfl | rfl
    · exact count_eq_one horderly hls
    · exact count_eq_one horderly hle
    · exact count_eq_one horderly hrs
    · exact count_eq_one horderly hre
  · obtain ⟨hstart, hend⟩ := horderly.returned_for hret hloop ⟨h₁, h₂⟩
    exact ⟨count_eq_one horderly hstart, count_eq_one horderly hend⟩
  · -- The permissions that are left are those of the rest of the program, which is empty.
    rw [hinv.returned hdone] at hrest
    have hinv' : tracing.inv sys.shared (a + 0) := by
      rw [add_zero]
      exact ⟨horderly, hcalls, hnodup, hpermit, hreturns⟩
    obtain ⟨b, hb, _, _, rfl⟩ := hrest.post (tracing.refl _) hinv'
    rw [add_zero] at hb
    exact (hb.2.2.2.2 n (hcalls (n, m) hm)).resolve_right (Multiset.notMem_zero _)
  · have hsolo := hinv.solo hone w
    constructor
    · intro hw
      rw [hw] at hsolo
      exact hsolo
    · intro v hw
      rw [hw] at hsolo
      exact hsolo

/-- All that has been started has been executed once and has returned. -/
structure Executed (log : List Event) : Prop where
  branches : ∀ n, (n, .fork) ∈ log → ∀ m ∈ [Mark.leftStart, .leftEnd, .rightStart, .rightEnd],
    log.count (n, m) = 1
  calls : ∀ n start stop, (n, .loop start stop) ∈ log → ∀ i,
    log.count (n, .callStart i) = if start ≤ i ∧ i < stop then 1 else 0
  ends : ∀ n start stop, (n, .loop start stop) ∈ log → ∀ i, start ≤ i → i < stop → log.count (n, .callEnd i) = 1
  returns : ∀ n m, (n, m) ∈ log → log.count (n, .returned) = 1

/-- Once the program has returned, everything has been executed. -/
theorem Guarantees.executed (h : Guarantees p s sys) (hdone : sys.Finished) : Executed sys.shared.log where
  branches n hfork := h.branches n hfork (h.complete hdone n _ hfork)
  calls n start stop hloop i := by
    obtain ⟨hrange, hcalled⟩ := h.calls n start stop i hloop
    split
    · next hi => exact (hcalled (h.complete hdone n _ hloop) hi.1 hi.2).1
    · next hi => exact List.count_eq_zero.mpr fun hmem => hi (hrange hmem)
  ends n start stop hloop i h₁ h₂ := ((h.calls n start stop i hloop).2 (h.complete hdone n _ hloop) h₁ h₂).2
  returns n m hm := count_eq_one h.orderly (h.complete hdone n m hm)

/-- In every state that a program can reach, what has been started is executed in order and nothing
twice; and every fair run comes to a state in which the program has returned and everything has been
executed. -/
theorem reachable_forkJoin (T : DequeType) (p : Program σ) (s : σ) :
    (∀ sys : System (Traced σ) W, Reachable T p.code.traced (start s) sys → Guarantees p s sys) ∧
      ∀ r : Fairness.Run (Threads.Step T : Fin W → Threads (Traced σ) W → Threads (Traced σ) W → Prop),
        r.state 0 = Threads.init p.code.traced (start s) → r.Fair →
          ∃ k, (r.state k).sys.Finished ∧ Executed (r.state k).sys.shared.log := by
  refine ⟨fun sys hreach => hreach.guarantees, fun r hstart hfair => ?_⟩
  obtain ⟨k, hk⟩ := Threads.exists_returned r hstart hfair
  have hreach : Threads.Reachable T p.code.traced (start s) (r.state k) :=
    Fairness.Run.invariant (by rw [hstart]; exact .init) (fun _ _ _ h hstep => h.step hstep) k
  exact ⟨k, hk, hreach.system.guarantees.executed hk⟩

/-- A loop over three indices. -/
def summing : Program ℕ :=
  .parallelFor 0 3 (fun i => .atom (· + 10 ^ i) fun _ => .done) 1 (by decide) (by decide) .done

/-- Thread 1 is about to sleep when thread 0 pushes the second half of the loop, is woken up and steals
it, while thread 0 finds its job gone and waits. Thread 1 pushes a job of its own and takes it back.
In the end both threads are at rest. -/
def sharing : List (Turn 2) :=
  let main : Fin 2 := (Fin.last 0).castSucc
  let thief : Fin 2 := Fin.last 1
  .replicate 2 (.act thief 0) ++ .replicate 14 (.act main 0) ++ .replicate 8 (.act thief 0) ++
    .replicate 8 (.act main 0) ++ .replicate 28 (.act thief 0) ++ .replicate 3 (.act main 0) ++ [.doze thief] ++
    .replicate 3 (.act thief 0)

/-- The end of the run: the sum, the jobs stolen from worker 0 and popped by worker 1, the number of marks,
and that no thread can move. -/
theorem reached_sharing : (fun t : Threads (Traced ℕ) 2 => (t.sys.shared.state, (t.sys.deque 0).ledger.stolen,
    (t.sys.deque 1).ledger.popped, t.sys.shared.log.length, decide (∀ w, t.Still w)))
      (Threads.reached .dq sharing summing.code.traced (start 0)) = (111, [0], [0], 20, true) := by
  decide +kernel

/-- A fair run of the loop in which one job is stolen and the other one popped: the guarantees hold all the
time, and in the end everything has been executed. -/
theorem reachable_forkJoin_sharing :
    ∃ r : Fairness.Run (Threads.Step .dq : Fin 2 → Threads (Traced ℕ) 2 → Threads (Traced ℕ) 2 → Prop),
      (∃ k, (r.state k).sys.shared.state = 111 ∧ ((r.state k).sys.deque 0).ledger.stolen = [0] ∧
        ((r.state k).sys.deque 1).ledger.popped = [0]) ∧
      (∀ k, Guarantees summing 0 (r.state k).sys) ∧
      ∃ k, (r.state k).sys.Finished ∧ Executed (r.state k).sys.shared.log := by
  have hreached := reached_sharing
  generalize hend : Threads.reached .dq sharing summing.code.traced (start 0) = t at hreached
  simp only [Prod.mk.injEq, decide_eq_true_eq] at hreached
  obtain ⟨hstate, hstolen, hpopped, -, hstill⟩ := hreached
  have hforkJoin := reachable_forkJoin (W := 2) .dq summing 0
  refine ⟨Threads.scheduled .dq sharing summing.code.traced (start 0), ⟨sharing.length, ?_⟩, fun k => ?_, ?_⟩
  · rw [Threads.state_scheduled, hend]
    exact ⟨hstate, hstolen, hpopped⟩
  · exact hforkJoin.1 _ (Threads.reachable_scheduled .dq sharing summing.code.traced (start 0) k).system
  · refine hforkJoin.2 _ rfl (Threads.fair_scheduled fun w => ?_)
    rw [hend]
    exact hstill w

end System

end ToggleTree
