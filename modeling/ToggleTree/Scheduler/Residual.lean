import ToggleTree.Scheduler.Machine

/-!
# What is left of each job

The stack of a worker is cut at the jobs it executes. Each segment is the rest of one job, a
fork–join program in which the right branches that wait elsewhere appear as what is left of
their own jobs. A step of a job is therefore a step of every job above it, up to the program.
-/

namespace ToggleTree

open ForkJoin ForkJoin.Prog

variable {σ : Type}

namespace Stack

/-- The job that the top of the stack executes. -/
def task : Stack σ → ℕ
  | main => 0
  | spawned job => job
  | left _ _ _ below => below.task
  | right _ _ below => below.task
  | waiting stolen _ _ _ => stolen

/-- The jobs that the stack executes, from the top. -/
def tasks : Stack σ → List ℕ
  | main => [0]
  | spawned job => [job]
  | left _ _ _ below => below.tasks
  | right _ _ below => below.tasks
  | waiting stolen _ _ below => stolen :: below.tasks

/-- The jobs that the stack waits for or will wait for, each with the job that waits. -/
def joins : Stack σ → List (ℕ × ℕ)
  | main => []
  | spawned _ => []
  | left job _ _ below => (job, below.task) :: below.joins
  | right _ _ below => below.joins
  | waiting _ job _ below => (job, below.task) :: below.joins

/-- The jobs that have been put into the deque of the worker and not been taken back. -/
def published : Stack σ → List ℕ
  | main => []
  | spawned _ => []
  | left job inDeque _ below => if inDeque then job :: below.published else below.published
  | right _ _ below => below.published
  | waiting _ job _ below => job :: below.published

/-- The jobs that the worker will run itself. -/
def withheld : Stack σ → List ℕ
  | main => []
  | spawned _ => []
  | left job inDeque _ below => if inDeque then below.withheld else job :: below.withheld
  | right _ _ below => below.withheld
  | waiting _ _ _ below => below.withheld

/-- What is left of the jobs of the stack when `p` runs at its top and `res` is what is left
of the jobs that it waits for. -/
def unwind (res : ℕ → Prog σ Empty Unit) : Prog σ Empty Unit → Stack σ → List (ℕ × Prog σ Empty Unit)
  | p, main => [(0, p)]
  | p, spawned job => [(job, p)]
  | p, left job _ next below => unwind res (fork p (res job) fun _ _ => next.prog) below
  | p, right _ next below => unwind res (fork (ret ()) p fun _ _ => next.prog) below
  | p, waiting stolen job next below =>
      (stolen, p) :: unwind res (fork (ret ()) (res job) fun _ _ => next.prog) below

variable {res res' : ℕ → Prog σ Empty Unit} {p p' : Prog σ Empty Unit} {st : Stack σ} {s s' : σ}

/-- The task of a stack is one of its tasks. -/
theorem task_mem_tasks (st : Stack σ) : st.task ∈ st.tasks := by
  induction st with
  | main => exact List.mem_singleton_self 0
  | spawned job => exact List.mem_singleton_self job
  | left _ _ _ _ ih => exact ih
  | right _ _ _ ih => exact ih
  | waiting stolen _ _ _ _ => exact List.mem_cons_self

/-- A job that waits for a join is one of the tasks. -/
theorem snd_mem_tasks {e : ℕ × ℕ} (h : e ∈ st.joins) : e.2 ∈ st.tasks := by
  induction st with
  | main => cases h
  | spawned job => cases h
  | left job b next below ih =>
    rcases List.mem_cons.mp h with rfl | h
    · exact task_mem_tasks below
    · exact ih h
  | right job next below ih => exact ih h
  | waiting stolen job next below ih =>
    rcases List.mem_cons.mp h with rfl | h
    · exact List.mem_cons_of_mem _ (task_mem_tasks below)
    · exact List.mem_cons_of_mem _ (ih h)

/-- The tasks of an unwound stack. -/
theorem unwind_map_fst (res : ℕ → Prog σ Empty Unit) (p : Prog σ Empty Unit) (st : Stack σ) :
    (unwind res p st).map Prod.fst = st.tasks := by
  induction st generalizing p with
  | main => rfl
  | spawned job => rfl
  | left job b next below ih => exact ih _
  | right job next below ih => exact ih _
  | waiting stolen job next below ih => exact congrArg (List.cons stolen) (ih _)

/-- Only the jobs that the stack waits for matter. -/
theorem unwind_congr (h : ∀ e ∈ st.joins, res e.1 = res' e.1) : unwind res p st = unwind res' p st := by
  induction st generalizing p with
  | main => rfl
  | spawned job => rfl
  | left job b next below ih =>
    unfold unwind
    rw [h (job, below.task) List.mem_cons_self]
    exact ih fun e he => h e (List.mem_cons_of_mem _ he)
  | right job next below ih => exact ih h
  | waiting stolen job next below ih =>
    unfold unwind
    rw [h (job, below.task) List.mem_cons_self]
    exact congrArg (List.cons (stolen, p)) (ih fun e he => h e (List.mem_cons_of_mem _ he))

/-- A step at the top of the stack is a step of the job there. -/
theorem unwind_step (res : ℕ → Prog σ Empty Unit) (st : Stack σ) (h : ForkJoin.Step Empty.elim p s p' s') :
    ∃ q q' rest, unwind res p st = (st.task, q) :: rest ∧ unwind res p' st = (st.task, q') :: rest ∧
      ForkJoin.Step Empty.elim q s q' s' := by
  induction st generalizing p p' with
  | main => exact ⟨p, p', [], rfl, rfl, h⟩
  | spawned job => exact ⟨p, p', [], rfl, rfl, h⟩
  | left job b next below ih => exact ih (Or.inl ⟨p', h, rfl⟩)
  | right job next below ih => exact ih (Or.inr (Or.inl ⟨p', h, rfl⟩))
  | waiting stolen job next below _ => exact ⟨p, p', _, rfl, rfl, h⟩

/-- A step of a job that the stack waits for is a step of the job that waits. -/
theorem unwind_update (res : ℕ → Prog σ Empty Unit) {j u : ℕ} (hnodup : (st.joins.map Prod.fst).Nodup)
    (hmem : (j, u) ∈ st.joins) (h : ForkJoin.Step Empty.elim (res j) s p' s') :
    ∃ q q' before rest, unwind res p st = before ++ (u, q) :: rest ∧
      unwind (Function.update res j p') p st = before ++ (u, q') :: rest ∧
      ForkJoin.Step Empty.elim q s q' s' := by
  have hcongr (below : Stack σ) (hnot : j ∉ below.joins.map Prod.fst) (r : Prog σ Empty Unit) :
      unwind (Function.update res j p') r below = unwind res r below :=
    unwind_congr fun e he => Function.update_of_ne
      (fun heq => hnot (List.mem_map.mpr ⟨e, he, heq⟩)) _ _
  induction st generalizing p with
  | main => cases hmem
  | spawned job => cases hmem
  | right job next below ih => exact ih hnodup hmem
  | left job b next below ih =>
    obtain ⟨hnot, hbelow⟩ := List.nodup_cons.mp hnodup
    rcases List.mem_cons.mp hmem with heq | hmem
    · obtain ⟨rfl, rfl⟩ := Prod.mk.inj heq
      obtain ⟨q, q', rest, hold, hnew, hstep⟩ := unwind_step res below
        (show ForkJoin.Step Empty.elim (fork p (res j) fun _ _ => next.prog) s
          (fork p p' fun _ _ => next.prog) s' from Or.inr (Or.inl ⟨p', h, rfl⟩))
      refine ⟨q, q', [], rest, hold, ?_, hstep⟩
      unfold unwind
      rw [hcongr below hnot, Function.update_self]
      exact hnew
    · have hne : job ≠ j := fun heq => hnot (List.mem_map.mpr ⟨_, hmem, heq.symm⟩)
      obtain ⟨q, q', before, rest, hold, hnew, hstep⟩ :=
        ih (p := fork p (res job) fun _ _ => next.prog) hbelow hmem
      refine ⟨q, q', before, rest, hold, ?_, hstep⟩
      unfold unwind
      rw [Function.update_of_ne hne]
      exact hnew
  | waiting stolen job next below ih =>
    obtain ⟨hnot, hbelow⟩ := List.nodup_cons.mp hnodup
    rcases List.mem_cons.mp hmem with heq | hmem
    · obtain ⟨rfl, rfl⟩ := Prod.mk.inj heq
      obtain ⟨q, q', rest, hold, hnew, hstep⟩ := unwind_step res below
        (show ForkJoin.Step Empty.elim (fork (ret ()) (res j) fun _ _ => next.prog) s
          (fork (ret ()) p' fun _ _ => next.prog) s' from Or.inr (Or.inl ⟨p', h, rfl⟩))
      refine ⟨q, q', [(stolen, p)], rest, congrArg (List.cons (stolen, p)) hold, ?_, hstep⟩
      unfold unwind
      rw [hcongr below hnot, Function.update_self]
      exact congrArg (List.cons (stolen, p)) hnew
    · have hne : job ≠ j := fun heq => hnot (List.mem_map.mpr ⟨_, hmem, heq.symm⟩)
      obtain ⟨q, q', before, rest, hold, hnew, hstep⟩ :=
        ih (p := fork (ret ()) (res job) fun _ _ => next.prog) hbelow hmem
      refine ⟨q, q', (stolen, p) :: before, rest, congrArg (List.cons (stolen, p)) hold, ?_, hstep⟩
      unfold unwind
      rw [Function.update_of_ne hne]
      exact congrArg (List.cons (stolen, p)) hnew

/-- The published jobs are those of some joins. -/
theorem published_sublist (st : Stack σ) : st.published.Sublist (st.joins.map Prod.fst) := by
  induction st with
  | main => exact List.Sublist.slnil
  | spawned job => exact List.Sublist.slnil
  | left job b next below ih =>
    cases b with
    | true => exact ih.cons_cons job
    | false => exact ih.cons job
  | right job next below ih => exact ih
  | waiting stolen job next below ih => exact ih.cons_cons job

/-- The withheld jobs are those of some joins. -/
theorem withheld_sublist (st : Stack σ) : st.withheld.Sublist (st.joins.map Prod.fst) := by
  induction st with
  | main => exact List.Sublist.slnil
  | spawned job => exact List.Sublist.slnil
  | left job b next below ih =>
    cases b with
    | true => exact ih.cons job
    | false => exact ih.cons_cons job
  | right job next below ih => exact ih
  | waiting stolen job next below ih => exact ih.cons job

end Stack

/-- What is running at the top of a worker's stack, if the worker executes a job. -/
abbrev View (σ : Type) := Option (Prog σ Empty Unit × Stack σ)

namespace View

/-- The tasks of a view. -/
def tasks (x : View σ) : List ℕ := x.elim [] fun y => y.2.tasks

/-- The joins of a view. -/
def joins (x : View σ) : List (ℕ × ℕ) := x.elim [] fun y => y.2.joins

/-- The published jobs of a view. -/
def published (x : View σ) : List ℕ := x.elim [] fun y => y.2.published

/-- The withheld jobs of a view. -/
def withheld (x : View σ) : List ℕ := x.elim [] fun y => y.2.withheld

/-- What is left of the tasks of a view. -/
def unwind (res : ℕ → Prog σ Empty Unit) (x : View σ) : List (ℕ × Prog σ Empty Unit) :=
  x.elim [] fun y => y.2.unwind res y.1

variable {x : View σ} {res res' : ℕ → Prog σ Empty Unit} {s s' : σ}

/-- The tasks of an unwound view are its tasks. -/
theorem mem_tasks {e : ℕ × Prog σ Empty Unit} (h : e ∈ x.unwind res) : e.1 ∈ x.tasks := by
  cases x with
  | none => cases h
  | some y =>
    rw [View.tasks, Option.elim_some, ← Stack.unwind_map_fst res y.1]
    exact List.mem_map_of_mem (f := Prod.fst) h

/-- The tasks of an unwound view in their order. -/
theorem unwind_map_fst (x : View σ) (res : ℕ → Prog σ Empty Unit) :
    (x.unwind res).map Prod.fst = x.tasks := by
  cases x with
  | none => rfl
  | some y => exact Stack.unwind_map_fst _ _ _

/-- A job that waits for a join is one of the tasks. -/
theorem snd_mem_tasks {e : ℕ × ℕ} (h : e ∈ x.joins) : e.2 ∈ x.tasks := by
  cases x with
  | none => cases h
  | some y => exact Stack.snd_mem_tasks h

/-- Unwinding depends only on what is left of the joined jobs. -/
theorem unwind_congr (h : ∀ e ∈ x.joins, res e.1 = res' e.1) : x.unwind res = x.unwind res' := by
  cases x with
  | none => rfl
  | some y => exact Stack.unwind_congr h

/-- A step of a joined job is a step of the task that waits for it. -/
theorem unwind_update (x : View σ) (res : ℕ → Prog σ Empty Unit) {p' : Prog σ Empty Unit} {j u : ℕ}
    (hnodup : (x.joins.map Prod.fst).Nodup) (hmem : (j, u) ∈ x.joins)
    (h : ForkJoin.Step Empty.elim (res j) s p' s') :
    ∃ q q' before rest, x.unwind res = before ++ (u, q) :: rest ∧
      x.unwind (Function.update res j p') = before ++ (u, q') :: rest ∧
      ForkJoin.Step Empty.elim q s q' s' := by
  cases x with
  | none => cases hmem
  | some y => exact Stack.unwind_update res hnodup hmem h

end View

end ToggleTree
