import Mathlib.Logic.Relation
import ToggleTree.Scheduler.Custody

/-!
# Threads that sleep

The thread of a worker that finds no job for a while goes to sleep, and workers that put jobs into
deques or see jobs there wake the threads that sleep. The machine of the workers runs inside: a
thread in `go_sleep` or `may_wake_others` does nothing else.
-/

namespace ToggleTree

open ForkJoin ForkJoin.Prog

variable {σ : Type} {W : ℕ}

namespace System

/-- The steps of worker `w`, by what it is doing. `news` says that the worker calls
`may_wake_others` next: its push has found the deque empty, or its `pop_top` has not. -/
def Acts (T : DequeType) (w : Fin W) (sys sys' : System σ W) (news : Bool) : Prop :=
  match sys.worker w with
  | .run (.atom act next) stack =>
      news = false ∧ sys' = { sys with shared := act sys.shared }.goto w (.run (next sys.shared) stack)
  | .run (.parallelDo lf rf next) stack => news = false ∧
      ∃ d, Deque.Config.Step T (.callPush sys.count) (sys.deque w) d ∧
        sys' = ((sys.newJob rf).setDeque w d).goto w (.push sys.count lf next stack)
  | .run .done .main => False
  | .run .done (.spawned job) => news = false ∧ sys' = (sys.finish job).goto w (.seek .idle)
  | .run .done (.left job false next stack) =>
      news = false ∧ sys' = sys.goto w (.run (sys.code job) (.right job next stack))
  | .run .done (.left job true next stack) => news = false ∧
      ∃ d, Deque.Config.Step T .callPop (sys.deque w) d ∧ sys' = (sys.setDeque w d).goto w (.pop job next stack)
  | .run .done (.right _ next stack) => news = false ∧ sys' = sys.goto w (.run next stack)
  | .run .done (.waiting stolen job next stack) =>
      news = false ∧ sys' = (sys.finish stolen).goto w (.seek (.waitFor job next stack))
  | .push job lf next stack => ∃ d,
      (news = false ∧ Deque.Config.Step T .stepOwner (sys.deque w) d ∧ sys' = sys.setDeque w d) ∨
      ∃ inDeque, Deque.Config.Step T (.returnPush job (inDeque, news)) (sys.deque w) d ∧
        sys' = (sys.setDeque w d).goto w (.run lf (.left job inDeque next stack))
  | .pop job next stack => news = false ∧ ∃ d,
      (Deque.Config.Step T .stepOwner (sys.deque w) d ∧ sys' = sys.setDeque w d) ∨
      (Deque.Config.Step T (.returnPop true) (sys.deque w) d ∧
        sys' = (sys.setDeque w d).goto w (.run (sys.code job) (.right job next stack))) ∨
      Deque.Config.Step T (.returnPop false) (sys.deque w) d ∧
        sys' = (sys.setDeque w d).goto w (.seek (.waitFor job next stack))
  | .seek loop => news = false ∧
      ((∃ job next stack, loop = .waitFor job next stack ∧ sys.done job = true ∧
        sys' = sys.goto w (.run next stack)) ∨
      (∀ job next stack, loop = .waitFor job next stack → sys.done job = false) ∧ ∃ v d, v ≠ w ∧
        Deque.Config.Step T (.callTop w) (sys.deque v) d ∧ sys' = (sys.setDeque v d).goto w (.probe loop v))
  | .probe loop v => ∃ d,
      (news = false ∧ Deque.Config.Step T (.stepThief w) (sys.deque v) d ∧ sys' = sys.setDeque v d) ∨
      (∃ job, Deque.Config.Step T (.returnTop w (some job, !news)) (sys.deque v) d ∧
        sys' = (sys.setDeque v d).goto w (.run (sys.code job) (loop.execute job))) ∨
      Deque.Config.Step T (.returnTop w (none, !news)) (sys.deque v) d ∧
        sys' = (sys.setDeque v d).goto w (.seek loop)

variable {T : DequeType} {sys sys' : System σ W} {queues : Fin W → List ℕ} {home : ℕ → Fin W}
  {status : ℕ → Status W} {res : ℕ → Prog σ Empty Unit} {w v u : Fin W} {news : Bool}

/-- A worker of the pool executes a job to its end. -/
theorem Step.executed_spawned {job : ℕ} (hw : sys.worker w = .run .done (.spawned job)) :
    Step T sys ((sys.finish job).goto w (.seek .idle)) :=
  .executed hw

/-- A waiting worker executes a stolen job to its end. -/
theorem Step.executed_waiting {stolen job : ℕ} {next : Code σ} {stack : Stack σ}
    (hw : sys.worker w = .run .done (.waiting stolen job next stack)) :
    Step T sys ((sys.finish stolen).goto w (.seek (.waitFor job next stack))) :=
  .executed hw

/-- What a worker does is a step of the machine. -/
theorem Acts.step (h : Acts T w sys sys' news) : Step T sys sys' := by
  unfold Acts at h
  split at h
  · next hw =>
    obtain ⟨_, rfl⟩ := h
    exact .atom hw
  · next hw =>
    obtain ⟨_, d, hd, rfl⟩ := h
    exact .parallelDo hw hd
  · exact h.elim
  · next job hw =>
    obtain ⟨_, rfl⟩ := h
    exact Step.executed_spawned hw
  · next hw =>
    obtain ⟨_, rfl⟩ := h
    exact .refused hw
  · next hw =>
    obtain ⟨_, d, hd, rfl⟩ := h
    exact .leftDone hw hd
  · next hw =>
    obtain ⟨_, rfl⟩ := h
    exact .rightDone hw
  · next stolen job next stack hw =>
    obtain ⟨_, rfl⟩ := h
    exact Step.executed_waiting hw
  · next hw =>
    obtain ⟨d, ⟨_, hd, rfl⟩ | ⟨inDeque, hd, rfl⟩⟩ := h
    · exact .stepOwner hd
    · exact .pushed hw hd
  · next hw =>
    obtain ⟨_, d, ⟨hd, rfl⟩ | ⟨hd, rfl⟩ | ⟨hd, rfl⟩⟩ := h
    · exact .stepOwner hd
    · exact .popped hw hd
    · exact .missed hw hd
  · next hw =>
    obtain ⟨_, ⟨job, next, stack, rfl, hdone, rfl⟩ | ⟨hflag, v, d, hv, hd, rfl⟩⟩ := h
    · exact .joined hw hdone
    · exact .aim hw hflag hv hd
  · next hw =>
    obtain ⟨d, ⟨_, hd, rfl⟩ | ⟨job, hd, rfl⟩ | ⟨hd, rfl⟩⟩ := h
    · exact .stepThief hd
    · exact .stole hw hd
    · exact .failed hw hd

section Intro

variable {code : Code σ} {lf rf next : Code σ} {stack : Stack σ} {loop : StealLoop σ} {job : ℕ}
  {d : Deque.Config ℕ (Fin W)}

/-- An atomic step of the code. -/
theorem Acts.atom {act : σ → σ} {next : σ → Code σ} (hw : sys.worker w = .run (.atom act next) stack) :
    Acts T w sys ({ sys with shared := act sys.shared }.goto w (.run (next sys.shared) stack)) false := by
  unfold Acts
  rw [hw]
  exact ⟨rfl, rfl⟩

/-- A fork creates the job for the right branch and starts to push it. -/
theorem Acts.parallelDo (hw : sys.worker w = .run (.parallelDo lf rf next) stack)
    (hd : Deque.Config.Step T (.callPush sys.count) (sys.deque w) d) :
    Acts T w sys (((sys.newJob rf).setDeque w d).goto w (.push sys.count lf next stack)) false := by
  unfold Acts
  rw [hw]
  exact ⟨rfl, d, hd, rfl⟩

/-- A spawned job is done. -/
theorem Acts.spawned (hw : sys.worker w = .run .done (.spawned job)) :
    Acts T w sys ((sys.finish job).goto w (.seek .idle)) false := by
  unfold Acts
  rw [hw]
  exact ⟨rfl, rfl⟩

/-- A stolen job is done, and the worker waits on. -/
theorem Acts.waited {stolen : ℕ} (hw : sys.worker w = .run .done (.waiting stolen job next stack)) :
    Acts T w sys ((sys.finish stolen).goto w (.seek (.waitFor job next stack))) false := by
  unfold Acts
  rw [hw]
  exact ⟨rfl, rfl⟩

/-- A stolen job is done, and the worker goes back to its loop. -/
theorem Acts.executed (hw : sys.worker w = .run .done (loop.execute job)) :
    Acts T w sys ((sys.finish job).goto w (.seek loop)) false := by
  cases loop with
  | idle => exact .spawned hw
  | waitFor awaited next stack => exact .waited hw

/-- The left branch is done, and the job could not be pushed: the worker executes it itself. -/
theorem Acts.refused (hw : sys.worker w = .run .done (.left job false next stack)) :
    Acts T w sys (sys.goto w (.run (sys.code job) (.right job next stack))) false := by
  unfold Acts
  rw [hw]
  exact ⟨rfl, rfl⟩

/-- The left branch is done, and the worker starts to pop. -/
theorem Acts.leftDone (hw : sys.worker w = .run .done (.left job true next stack))
    (hd : Deque.Config.Step T .callPop (sys.deque w) d) :
    Acts T w sys ((sys.setDeque w d).goto w (.pop job next stack)) false := by
  unfold Acts
  rw [hw]
  exact ⟨rfl, d, hd, rfl⟩

/-- The right branch is done, and the code goes on. -/
theorem Acts.rightDone (hw : sys.worker w = .run .done (.right job next stack)) :
    Acts T w sys (sys.goto w (.run next stack)) false := by
  unfold Acts
  rw [hw]
  exact ⟨rfl, rfl⟩

/-- A step of a push. -/
theorem Acts.pushing (hw : sys.worker w = .push job lf next stack)
    (hd : Deque.Config.Step T .stepOwner (sys.deque w) d) : Acts T w sys (sys.setDeque w d) false := by
  unfold Acts
  rw [hw]
  exact ⟨d, Or.inl ⟨rfl, hd, rfl⟩⟩

/-- A push returns, and the worker executes the left branch. -/
theorem Acts.pushed {inDeque : Bool} (hw : sys.worker w = .push job lf next stack)
    (hd : Deque.Config.Step T (.returnPush job (inDeque, news)) (sys.deque w) d) :
    Acts T w sys ((sys.setDeque w d).goto w (.run lf (.left job inDeque next stack))) news := by
  unfold Acts
  rw [hw]
  exact ⟨d, Or.inr ⟨inDeque, hd, rfl⟩⟩

/-- A step of a pop. -/
theorem Acts.popping (hw : sys.worker w = .pop job next stack)
    (hd : Deque.Config.Step T .stepOwner (sys.deque w) d) : Acts T w sys (sys.setDeque w d) false := by
  unfold Acts
  rw [hw]
  exact ⟨rfl, d, Or.inl ⟨hd, rfl⟩⟩

/-- A pop returns the job, and the worker executes it. -/
theorem Acts.popped (hw : sys.worker w = .pop job next stack)
    (hd : Deque.Config.Step T (.returnPop true) (sys.deque w) d) :
    Acts T w sys ((sys.setDeque w d).goto w (.run (sys.code job) (.right job next stack))) false := by
  unfold Acts
  rw [hw]
  exact ⟨rfl, d, Or.inr (Or.inl ⟨hd, rfl⟩)⟩

/-- A pop returns nothing, and the worker waits for the job. -/
theorem Acts.missed (hw : sys.worker w = .pop job next stack)
    (hd : Deque.Config.Step T (.returnPop false) (sys.deque w) d) :
    Acts T w sys ((sys.setDeque w d).goto w (.seek (.waitFor job next stack))) false := by
  unfold Acts
  rw [hw]
  exact ⟨rfl, d, Or.inr (Or.inr ⟨hd, rfl⟩)⟩

/-- The job that is waited for is done, and the code goes on. -/
theorem Acts.joined (hw : sys.worker w = .seek (.waitFor job next stack)) (hdone : sys.done job = true) :
    Acts T w sys (sys.goto w (.run next stack)) false := by
  unfold Acts
  rw [hw]
  exact ⟨rfl, Or.inl ⟨job, next, stack, rfl, hdone, rfl⟩⟩

/-- The worker chooses a victim. -/
theorem Acts.aim (hw : sys.worker w = .seek loop)
    (hflag : ∀ job next stack, loop = .waitFor job next stack → sys.done job = false) (hv : v ≠ w)
    (hd : Deque.Config.Step T (.callTop w) (sys.deque v) d) :
    Acts T w sys ((sys.setDeque v d).goto w (.probe loop v)) false := by
  unfold Acts
  rw [hw]
  exact ⟨rfl, Or.inr ⟨hflag, v, d, hv, hd, rfl⟩⟩

/-- A step of a theft. -/
theorem Acts.probing (hw : sys.worker w = .probe loop v)
    (hd : Deque.Config.Step T (.stepThief w) (sys.deque v) d) :
    Acts T w sys (sys.setDeque v d) false := by
  unfold Acts
  rw [hw]
  exact ⟨d, Or.inl ⟨rfl, hd, rfl⟩⟩

/-- A theft returns a job, and the worker executes it. -/
theorem Acts.stole {empty : Bool} (hw : sys.worker w = .probe loop v)
    (hd : Deque.Config.Step T (.returnTop w (some job, empty)) (sys.deque v) d) :
    Acts T w sys ((sys.setDeque v d).goto w (.run (sys.code job) (loop.execute job))) !empty := by
  unfold Acts
  rw [hw]
  refine ⟨d, Or.inr (Or.inl ⟨job, ?_, rfl⟩)⟩
  rwa [Bool.not_not]

/-- A theft returns nothing, and the worker goes back to its loop. -/
theorem Acts.failed {empty : Bool} (hw : sys.worker w = .probe loop v)
    (hd : Deque.Config.Step T (.returnTop w (none, empty)) (sys.deque v) d) :
    Acts T w sys ((sys.setDeque v d).goto w (.seek loop)) !empty := by
  unfold Acts
  rw [hw]
  refine ⟨d, Or.inr (Or.inr ⟨?_, rfl⟩)⟩
  rwa [Bool.not_not]

end Intro

/-- Every step of the machine is something that one of the workers does. -/
theorem Step.acts [NeZero W] (h : Step T sys sys') (hinv : Inv T sys queues home status res)
    (hcustody : Custody sys) :
    ∃ w news, Acts T w sys sys' news := by
  cases h with
  | atom hw => exact ⟨_, _, .atom hw⟩
  | parallelDo hw hd => exact ⟨_, _, .parallelDo hw hd⟩
  | @stepOwner w d hd =>
    -- Only a worker that pushes or pops is in a call on its own deque.
    have hsome : (sys.worker w).request ≠ none := by
      rw [← hinv.coupled.request]
      cases hd with
      | stepPush hcall _ =>
        rw [hcall]
        exact Option.some_ne_none _
      | stepPop hcall _ =>
        rw [hcall]
        exact Option.some_ne_none _
    cases hw : sys.worker w with
    | push job lf next stack => exact ⟨w, _, .pushing hw hd⟩
    | pop job next stack => exact ⟨w, _, .popping hw hd⟩
    | _ =>
      rw [hw] at hsome
      exact (hsome rfl).elim
  | @stepThief v w d hd =>
    obtain ⟨_, _, hbusy, _⟩ := (hinv.coupled.reachable v).stepThief hd
    obtain ⟨loop, hw⟩ := Worker.eq_probe ((hcustody.calls v w).mp hbusy)
    exact ⟨w, _, .probing hw hd⟩
  | pushed hw hd => exact ⟨_, _, .pushed hw hd⟩
  | refused hw => exact ⟨_, _, .refused hw⟩
  | leftDone hw hd => exact ⟨_, _, .leftDone hw hd⟩
  | popped hw hd => exact ⟨_, _, .popped hw hd⟩
  | missed hw hd => exact ⟨_, _, .missed hw hd⟩
  | rightDone hw => exact ⟨_, _, .rightDone hw⟩
  | joined hw hdone => exact ⟨_, _, .joined hw hdone⟩
  | aim hw hflag hv hd => exact ⟨_, _, .aim hw hflag hv hd⟩
  | stole hw hd => exact ⟨_, _, .stole hw hd⟩
  | failed hw hd => exact ⟨_, _, .failed hw hd⟩
  | executed hw => exact ⟨_, _, .executed hw⟩

/-- The machine and its workers reach the same states. -/
theorem reachable_iff_acts [NeZero W] {main : Code σ} {s : σ} : Reachable T main s sys ↔
    Relation.ReflTransGen (fun sys sys' : System σ W => ∃ w news, Acts T w sys sys' news) (init main s) sys := by
  constructor
  · intro h
    induction h with
    | init => exact .refl
    | step hreach hstep ih =>
      obtain ⟨_, _, _, _, hinv, _⟩ := hreach.simulates
      exact ih.tail (hstep.acts hinv hreach.custody)
  · intro h
    induction h with
    | refl => exact .init
    | tail _ hacts ih =>
      obtain ⟨_, _, hact⟩ := hacts
      exact ih.step hact.step

/-- A worker that calls `may_wake_others` is not in a steal attempt. -/
theorem Acts.victim_eq_none (h : Acts T w sys sys' true) : (sys'.worker w).victim = none := by
  have hself (sys : System σ W) (x : Worker σ W) : (sys.goto w x).worker w = x := Function.update_self _ _ _
  unfold Acts at h
  split at h
  · cases h.1
  · cases h.1
  · exact h.elim
  · cases h.1
  · cases h.1
  · cases h.1
  · cases h.1
  · cases h.1
  · obtain ⟨d, ⟨hfalse, _⟩ | ⟨inDeque, _, rfl⟩⟩ := h
    · cases hfalse
    · rw [hself]
      rfl
  · cases h.1
  · cases h.1
  · obtain ⟨d, ⟨hfalse, _⟩ | ⟨job, _, rfl⟩ | ⟨_, rfl⟩⟩ := h
    · cases hfalse
    · rw [hself]
      rfl
    · rw [hself]
      rfl

section Frame

/-- What the step of a worker leaves to worker `u`. -/
structure Frame (u : Fin W) (sys sys' : System σ W) : Prop where
  worker : sys'.worker u = sys.worker u
  thief : ∀ v, (sys'.deque v).thief u = (sys.deque v).thief u
  done : ∀ j < sys.count, sys.done j = true → sys'.done j = true

/-- A worker that goes on leaves the others alone. -/
theorem frame_goto (hu : u ≠ w) {x : Worker σ W} (hdone : ∀ j < sys.count, sys.done j = true → sys'.done j = true)
    (hdeque : sys'.deque = sys.deque) (hworker : sys'.worker = Function.update sys.worker w x) :
    Frame u sys sys' := by
  refine ⟨?_, fun v => ?_, hdone⟩
  · rw [hworker, Function.update_of_ne hu]
  · rw [hdeque]

/-- A step of a deque leaves the other workers alone. -/
theorem frame_deque {d : Deque.Config ℕ (Fin W)} (hthief : d.thief u = (sys.deque v).thief u)
    (hworker : sys'.worker u = sys.worker u) (hdeque : sys'.deque = Function.update sys.deque v d)
    (hdone : ∀ j < sys.count, sys.done j = true → sys'.done j = true) : Frame u sys sys' := by
  refine ⟨hworker, fun v' => ?_, hdone⟩
  rw [hdeque]
  by_cases hv : v' = v
  · rw [hv, Function.update_self, hthief]
  · rw [Function.update_of_ne hv]

/-- A worker does not notice what another worker does. -/
theorem Acts.frame (h : Acts T w sys sys' news) (hinv : Inv T sys queues home status res) (hu : u ≠ w) :
    Frame u sys sys' := by
  have hkeep (x : Worker σ W) : Function.update sys.worker w x u = sys.worker u := Function.update_of_ne hu _ _
  unfold Acts at h
  split at h
  · obtain ⟨_, rfl⟩ := h
    exact frame_goto hu (fun _ _ hd => hd) rfl rfl
  · obtain ⟨_, d, hd, rfl⟩ := h
    obtain ⟨_, _, _, hthief, _⟩ := hd.callPush_effect
    refine frame_deque (congrFun hthief u) (hkeep _) rfl fun j hj hdone => ?_
    change Function.update sys.done sys.count false j = true
    rwa [Function.update_of_ne (Nat.ne_of_lt hj)]
  · exact h.elim
  · obtain ⟨_, rfl⟩ := h
    exact frame_goto hu (fun j _ hd => finish_done _ j hd) rfl rfl
  · obtain ⟨_, rfl⟩ := h
    exact frame_goto hu (fun _ _ hd => hd) rfl rfl
  · obtain ⟨_, d, hd, rfl⟩ := h
    obtain ⟨_, _, _, hthief, _⟩ := hd.callPop_effect
    exact frame_deque (congrFun hthief u) (hkeep _) rfl fun _ _ hd => hd
  · obtain ⟨_, rfl⟩ := h
    exact frame_goto hu (fun _ _ hd => hd) rfl rfl
  · obtain ⟨_, rfl⟩ := h
    exact frame_goto hu (fun j _ hd => finish_done _ j hd) rfl rfl
  · obtain ⟨d, ⟨_, hd, rfl⟩ | ⟨inDeque, hd, rfl⟩⟩ := h
    · obtain ⟨_, hthief, _⟩ := (hinv.coupled.reachable w).stepOwner hd
      exact frame_deque (congrFun hthief u) rfl rfl fun _ _ hd => hd
    · obtain ⟨_, _, _, hthief, _⟩ := (hinv.coupled.reachable w).returnPush hd
      exact frame_deque (congrFun hthief u) (hkeep _) rfl fun _ _ hd => hd
  · obtain ⟨_, d, ⟨hd, rfl⟩ | ⟨hd, rfl⟩ | ⟨hd, rfl⟩⟩ := h
    · obtain ⟨_, hthief, _⟩ := (hinv.coupled.reachable w).stepOwner hd
      exact frame_deque (congrFun hthief u) rfl rfl fun _ _ hd => hd
    · obtain ⟨_, _, _, hthief, _⟩ := (hinv.coupled.reachable w).returnPop hd
      exact frame_deque (congrFun hthief u) (hkeep _) rfl fun _ _ hd => hd
    · obtain ⟨_, _, _, hthief, _⟩ := (hinv.coupled.reachable w).returnPop hd
      exact frame_deque (congrFun hthief u) (hkeep _) rfl fun _ _ hd => hd
  · obtain ⟨_, ⟨job, next, stack, _, _, rfl⟩ | ⟨_, v, d, _, hd, rfl⟩⟩ := h
    · exact frame_goto hu (fun _ _ hd => hd) rfl rfl
    · obtain ⟨_, hthief, _⟩ := hd.callTop_effect
      exact frame_deque (hthief u hu) (hkeep _) rfl fun _ _ hd => hd
  · next v _ =>
    obtain ⟨d, ⟨_, hd, rfl⟩ | ⟨job, hd, rfl⟩ | ⟨hd, rfl⟩⟩ := h
    · obtain ⟨_, hthief, _⟩ := (hinv.coupled.reachable v).stepThief hd
      exact frame_deque (hthief u hu) rfl rfl fun _ _ hd => hd
    · obtain ⟨_, hthief, _⟩ := (hinv.coupled.reachable v).returnTop hd
      exact frame_deque (hthief u hu) (hkeep _) rfl fun _ _ hd => hd
    · obtain ⟨_, hthief, _⟩ := (hinv.coupled.reachable v).returnTop hd
      exact frame_deque (hthief u hu) (hkeep _) rfl fun _ _ hd => hd

end Frame

end System

/-- Which operation of `may_wake_others` or `go_sleep` a thread executes next, if it is in one of
them. In `may_wake_others` it reads `num_awake`, raises `wait_flag` and notifies; in `go_sleep` it
reads `wait_flag`, lowers `num_awake`, waits and raises `num_awake` again. -/
inductive Pause
  | none
  | wake
  | raise
  | notify
  | sleep
  | lower (epoch : ℕ)
  | wait (epoch : ℕ) (blocked : Bool)
  | rise
  deriving DecidableEq

namespace Pause

/-- The thread is in `go_sleep`. -/
def Asleep : Pause → Prop
  | sleep | lower _ | wait _ _ | rise => True
  | _ => False

/-- How many operations of `may_wake_others` a thread has left at most. -/
def delay : Pause → ℕ
  | wake => 3
  | raise => 2
  | notify => 1
  | _ => 0

/-- A pause is left after three steps. -/
theorem delay_le (p : Pause) : p.delay ≤ 3 := by
  unfold delay
  split <;> decide

/-- A notification ends the blocking of a thread; the thread then looks at `wait_flag` again. -/
def notified : Pause → Pause
  | wait epoch _ => wait epoch false
  | p => p

/-- A notification does not wake a worker that has announced its sleep. -/
theorem asleep_notified (p : Pause) : p.notified.Asleep ↔ p.Asleep := by cases p <;> exact Iff.rfl

/-- A worker that is not going to sleep is not changed by a notification. -/
theorem notified_eq {p : Pause} (h : ¬p.Asleep) : p.notified = p := by
  cases p with
  | wait epoch blocked => exact (h trivial).elim
  | _ => rfl

end Pause

/-- The workers with their threads and the counters of the scheduler. -/
structure Threads (σ : Type) (W : ℕ) where
  sys : System σ W
  pause : Fin W → Pause
  waitFlag : ℕ
  numAwake : ℕ

namespace Threads

/-- A program starts on worker 0; the other threads start with `go_sleep`. -/
def init [NeZero W] (main : Code σ) (s : σ) : Threads σ W where
  sys := System.init main s
  pause := Function.update (fun _ => .sleep) 0 .none
  waitFlag := 0
  numAwake := W

/-- Thread `w` goes to another point of `go_sleep` or `may_wake_others`. -/
def goto (t : Threads σ W) (w : Fin W) (p : Pause) : Threads σ W :=
  { t with pause := Function.update t.pause w p }

/-- One step of thread `w`. When an idle thread goes to sleep is up to the clock. -/
inductive Step (T : DequeType) (w : Fin W) : Threads σ W → Threads σ W → Prop
  | act {t : Threads σ W} {sys : System σ W} {news : Bool} (h : t.pause w = .none)
    (hact : System.Acts T w t.sys sys news) :
      Step T w t ({ t with sys := sys }.goto w (if news then .wake else .none))
  | wake {t : Threads σ W} (h : t.pause w = .wake) :
    Step T w t (t.goto w (if t.numAwake ≠ W then .raise else .none))
  | raise {t : Threads σ W} (h : t.pause w = .raise) :
      Step T w t ({ t with waitFlag := (t.waitFlag + 1) % 2 ^ 32 }.goto w .notify)
  | notify {t : Threads σ W} (h : t.pause w = .notify) :
      Step T w t ({ t with pause := fun u => (t.pause u).notified }.goto w .none)
  | doze {t : Threads σ W} (h : t.pause w = .none) (hw : t.sys.worker w = .seek .idle) :
    Step T w t (t.goto w .sleep)
  | sleep {t : Threads σ W} (h : t.pause w = .sleep) : Step T w t (t.goto w (.lower t.waitFlag))
  | lower {t : Threads σ W} {epoch : ℕ} (h : t.pause w = .lower epoch) :
      Step T w t ({ t with numAwake := (t.numAwake + (2 ^ 64 - 1)) % 2 ^ 64 }.goto w (.wait epoch false))
  | block {t : Threads σ W} {epoch : ℕ} (h : t.pause w = .wait epoch false) (hflag : t.waitFlag = epoch) :
      Step T w t (t.goto w (.wait epoch true))
  | pass {t : Threads σ W} {epoch : ℕ} (h : t.pause w = .wait epoch false) (hflag : t.waitFlag ≠ epoch) :
      Step T w t (t.goto w .rise)
  | rise {t : Threads σ W} (h : t.pause w = .rise) :
      Step T w t ({ t with numAwake := (t.numAwake + 1) % 2 ^ 64 }.goto w .none)

/-- The states that a program can reach. -/
inductive Reachable [NeZero W] (T : DequeType) (main : Code σ) (s : σ) : Threads σ W → Prop
  | init : Reachable T main s (init main s)
  | step {t t' : Threads σ W} {w : Fin W} (h : Reachable T main s t) (hstep : Step T w t t') :
    Reachable T main s t'

variable {T : DequeType} {t t' : Threads σ W} {w u : Fin W}

/-- A step of a thread is a step of its worker or leaves the workers as they are. -/
theorem Step.sys (h : Step T w t t') : t'.sys = t.sys ∨ ∃ news, System.Acts T w t.sys t'.sys news := by
  cases h with
  | act _ hact => exact Or.inr ⟨_, hact⟩
  | _ => exact Or.inl rfl

/-- All that another thread can do to a thread is to notify it. -/
theorem Step.pause (h : Step T w t t') (hu : u ≠ w) :
    t'.pause u = t.pause u ∨ t'.pause u = (t.pause u).notified := by
  cases h with
  | notify _ => exact Or.inr (Function.update_of_ne hu _ _)
  | _ => exact Or.inl (Function.update_of_ne hu _ _)

variable [NeZero W] {main : Code σ} {s : σ}

/-- Sleeping adds nothing to what the workers can do. -/
theorem Reachable.system (h : Reachable T main s t) : System.Reachable T main s t.sys := by
  induction h with
  | init => exact .init
  | step _ hstep ih =>
    rcases hstep.sys with heq | ⟨_, hact⟩
    · rwa [heq]
    · exact ih.step hact.step

/-- A thread that sleeps has no job. -/
theorem Reachable.idle (h : Reachable T main s t) (hw : (t.pause w).Asleep) : t.sys.worker w = .seek .idle := by
  induction h with
  | init =>
    by_cases h0 : w = 0
    · rw [h0] at hw
      change (Function.update (fun _ => Pause.sleep) 0 Pause.none (0 : Fin W)).Asleep at hw
      rw [Function.update_self] at hw
      exact hw.elim
    · change Function.update (fun _ => Worker.seek StealLoop.idle) 0 (.run main .main) w = _
      rw [Function.update_of_ne h0]
  | @step t t' u hreach hstep ih =>
    by_cases hu : w = u
    · subst hu
      have hself (t : Threads σ W) (p : Pause) : (t.goto w p).pause w = p := Function.update_self _ _ _
      cases hstep with
      | @act sys news _ _ =>
        rw [hself] at hw
        cases news <;> exact hw.elim
      | wake _ =>
        rw [hself] at hw
        split at hw <;> exact hw.elim
      | raise _ =>
        rw [hself] at hw
        exact hw.elim
      | notify _ =>
        rw [hself] at hw
        exact hw.elim
      | doze _ hidle => exact hidle
      | sleep hp => exact ih (by rw [hp]; trivial)
      | lower hp => exact ih (by rw [hp]; trivial)
      | block hp _ => exact ih (by rw [hp]; trivial)
      | pass hp _ => exact ih (by rw [hp]; trivial)
      | rise _ =>
        rw [hself] at hw
        exact hw.elim
    · have hold : (t.pause w).Asleep := by
        rcases hstep.pause hu with heq | heq
        · rwa [heq] at hw
        · rwa [heq, Pause.asleep_notified] at hw
      have hidle := ih hold
      rcases hstep.sys with heq | ⟨_, hact⟩
      · rwa [heq]
      · obtain ⟨_, _, _, _, hinv, _⟩ := hreach.system.simulates
        rw [(hact.frame hinv hu).worker]
        exact hidle

/-- A thread calls `may_wake_others` and `go_sleep` between attempts to steal only. -/
theorem Reachable.pause_or (h : Reachable T main s t) (w : Fin W) : t.pause w = .none ∨
    (t.sys.worker w).victim = none := by
  induction h with
  | init =>
    refine Or.inr ?_
    change (Function.update (fun _ => Worker.seek StealLoop.idle) 0 (.run main .main) w).victim = none
    by_cases hw : w = 0
    · rw [hw, Function.update_self]
      rfl
    · rw [Function.update_of_ne hw]
      rfl
  | @step t t' u hreach hstep ih =>
    by_cases hu : w = u
    · subst hu
      have hself (t : Threads σ W) (p : Pause) : (t.goto w p).pause w = p := Function.update_self _ _ _
      have hkeep {p : Pause} (hp : t.pause w = p) (hne : p ≠ .none) : (t.sys.worker w).victim = none :=
        ih.resolve_left fun hnone => hne (hp.symm.trans hnone)
      cases hstep with
      | @act sys news _ hact =>
        cases news with
        | false => exact Or.inl (hself _ _)
        | true => exact Or.inr hact.victim_eq_none
      | wake hp => exact Or.inr (hkeep hp Pause.noConfusion)
      | raise hp => exact Or.inr (hkeep hp Pause.noConfusion)
      | notify hp => exact Or.inr (hkeep hp Pause.noConfusion)
      | doze _ hidle =>
        refine Or.inr ?_
        change (t.sys.worker w).victim = none
        rw [hidle]
        rfl
      | sleep hp => exact Or.inr (hkeep hp Pause.noConfusion)
      | lower hp => exact Or.inr (hkeep hp Pause.noConfusion)
      | block hp _ => exact Or.inr (hkeep hp Pause.noConfusion)
      | pass hp _ => exact Or.inr (hkeep hp Pause.noConfusion)
      | rise _ => exact Or.inl (hself _ _)
    · refine ih.imp (fun hnone => ?_) fun hvictim => ?_
      · rcases hstep.pause hu with heq | heq
        · rw [heq, hnone]
        · rw [heq, hnone]
          rfl
      · rcases hstep.sys with heq | ⟨_, hact⟩
        · rwa [heq]
        · obtain ⟨_, _, _, _, hinv, _⟩ := hreach.system.simulates
          rwa [(hact.frame hinv hu).worker]

end Threads

end ToggleTree
