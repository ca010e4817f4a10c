import ToggleTree.Scheduler.Code
import ToggleTree.Scheduler.Deque

/-!
# The workers of the scheduler

Each worker owns a deque and has a stack of calls in flight. A right branch becomes a job:
its worker pushes it, runs the left branch and then either takes the job back or, when the
job is gone, steals other jobs until the job is done. All steps of all workers interleave.
-/

namespace ToggleTree

/-- `roll_dice`, once the dice have been thrown. -/
def victim (numThreads threadId dice : ℕ) : ℕ :=
  let v := dice % (numThreads - 1)
  v + if threadId ≤ v then 1 else 0

/-- A worker never chooses itself, and it can choose every other worker. -/
theorem victim_spec {numThreads threadId : ℕ} (h : 1 < numThreads) (hid : threadId < numThreads) :
    (∀ dice, victim numThreads threadId dice < numThreads ∧ victim numThreads threadId dice ≠ threadId) ∧
      ∀ v < numThreads, v ≠ threadId → ∃ dice, victim numThreads threadId dice = v := by
  constructor
  · intro dice
    have hlt : dice % (numThreads - 1) < numThreads - 1 := Nat.mod_lt _ (by omega)
    unfold victim
    constructor <;> dsimp only <;> split <;> omega
  · intro v hv hne
    refine ⟨if threadId ≤ v then v - 1 else v, ?_⟩
    unfold victim
    by_cases hle : threadId ≤ v
    · rw [if_pos hle, Nat.mod_eq_of_lt (by omega)]
      dsimp only
      rw [if_pos (by omega)]
      omega
    · rw [if_neg hle, Nat.mod_eq_of_lt (by omega)]
      dsimp only
      rw [if_neg hle, Nat.add_zero]

/-- The calls below the code that a worker runs.

`main` is the bottom of the thread that has started the program, `spawned` the loop of another
thread that executes `job`. In `left` the left branch of a `parallel_do` is running above, in
`right` its right branch. In `waiting` the `parallel_do` waits for its right branch `job` and
has started to execute the stolen job `stolen`. -/
inductive Stack (σ : Type)
  | main
  | spawned (job : ℕ)
  | left (job : ℕ) (inDeque : Bool) (next : Code σ) (below : Stack σ)
  | right (job : ℕ) (next : Code σ) (below : Stack σ)
  | waiting (stolen job : ℕ) (next : Code σ) (below : Stack σ)

/-- The loops that steal: the one of a spawned thread and `steal_while_waiting_for`. -/
inductive StealLoop (σ : Type)
  | idle
  | waitFor (job : ℕ) (next : Code σ) (below : Stack σ)

/-- The stack on which a stolen job is executed. -/
def StealLoop.execute {σ : Type} (stolen : ℕ) : StealLoop σ → Stack σ
  | idle => .spawned stolen
  | waitFor job next below => .waiting stolen job next below

/-- What a worker is doing: it runs code, it is inside a call of `push_bottom` or `pop_bottom`
on its own deque, or it is at the head of a loop that steals or inside its call of `pop_top`
on the deque of another worker. -/
inductive Worker (σ : Type) (W : ℕ)
  | run (code : Code σ) (stack : Stack σ)
  | push (job : ℕ) (lf next : Code σ) (stack : Stack σ)
  | pop (job : ℕ) (next : Code σ) (stack : Stack σ)
  | seek (loop : StealLoop σ)
  | probe (loop : StealLoop σ) (v : Fin W)

/-- The shared state, the jobs with their `done` flags, the deques and the workers. -/
structure System (σ : Type) (W : ℕ) where
  shared : σ
  /-- How many jobs there have been; the program itself is job 0. -/
  count : ℕ
  code : ℕ → Code σ
  done : ℕ → Bool
  deque : Fin W → Deque.Config ℕ (Fin W)
  worker : Fin W → Worker σ W

namespace System

variable {σ : Type} {W : ℕ}

/-- A program starts on worker 0. -/
def init [NeZero W] (main : Code σ) (s : σ) : System σ W where
  shared := s
  count := 1
  code _ := main
  done _ := false
  deque _ := Deque.Config.init
  worker := Function.update (fun _ => .seek .idle) 0 (.run main .main)

/-- Worker `w` goes to another point. -/
def goto (sys : System σ W) (w : Fin W) (x : Worker σ W) : System σ W :=
  { sys with worker := Function.update sys.worker w x }

/-- The deque of worker `v` makes a step. -/
def setDeque (sys : System σ W) (v : Fin W) (d : Deque.Config ℕ (Fin W)) : System σ W :=
  { sys with deque := Function.update sys.deque v d }

/-- A `JobImpl` is constructed. -/
def newJob (sys : System σ W) (rf : Code σ) : System σ W :=
  { sys with
    count := sys.count + 1
    code := Function.update sys.code sys.count rf
    done := Function.update sys.done sys.count false }

/-- The job is done. -/
def finish (sys : System σ W) (job : ℕ) : System σ W :=
  { sys with done := Function.update sys.done job true }

/-- One step of one worker. -/
inductive Step (T : DequeType) : System σ W → System σ W → Prop
  | atom {sys : System σ W} {w : Fin W} {act : σ → σ} {next : σ → Code σ} {stack : Stack σ}
      (h : sys.worker w = .run (.atom act next) stack) :
      Step T sys ({ sys with shared := act sys.shared }.goto w (.run (next sys.shared) stack))
  | parallelDo {sys : System σ W} {w : Fin W} {lf rf next : Code σ} {stack : Stack σ}
      {d : Deque.Config ℕ (Fin W)} (h : sys.worker w = .run (.parallelDo lf rf next) stack)
      (hd : Deque.Config.Step T (.callPush sys.count) (sys.deque w) d) :
      Step T sys (((sys.newJob rf).setDeque w d).goto w (.push sys.count lf next stack))
  | stepOwner {sys : System σ W} {w : Fin W} {d : Deque.Config ℕ (Fin W)}
      (hd : Deque.Config.Step T .stepOwner (sys.deque w) d) : Step T sys (sys.setDeque w d)
  | stepThief {sys : System σ W} {v w : Fin W} {d : Deque.Config ℕ (Fin W)}
      (hd : Deque.Config.Step T (.stepThief w) (sys.deque v) d) : Step T sys (sys.setDeque v d)
  | pushed {sys : System σ W} {w : Fin W} {job : ℕ} {lf next : Code σ} {stack : Stack σ}
      {inDeque first : Bool} {d : Deque.Config ℕ (Fin W)} (h : sys.worker w = .push job lf next stack)
      (hd : Deque.Config.Step T (.returnPush job (inDeque, first)) (sys.deque w) d) :
      Step T sys ((sys.setDeque w d).goto w (.run lf (.left job inDeque next stack)))
  | refused {sys : System σ W} {w : Fin W} {job : ℕ} {next : Code σ} {stack : Stack σ}
      (h : sys.worker w = .run .done (.left job false next stack)) :
      Step T sys (sys.goto w (.run (sys.code job) (.right job next stack)))
  | leftDone {sys : System σ W} {w : Fin W} {job : ℕ} {next : Code σ} {stack : Stack σ}
      {d : Deque.Config ℕ (Fin W)} (h : sys.worker w = .run .done (.left job true next stack))
      (hd : Deque.Config.Step T .callPop (sys.deque w) d) :
      Step T sys ((sys.setDeque w d).goto w (.pop job next stack))
  | popped {sys : System σ W} {w : Fin W} {job : ℕ} {next : Code σ} {stack : Stack σ}
      {d : Deque.Config ℕ (Fin W)} (h : sys.worker w = .pop job next stack)
      (hd : Deque.Config.Step T (.returnPop true) (sys.deque w) d) :
      Step T sys ((sys.setDeque w d).goto w (.run (sys.code job) (.right job next stack)))
  | missed {sys : System σ W} {w : Fin W} {job : ℕ} {next : Code σ} {stack : Stack σ}
      {d : Deque.Config ℕ (Fin W)} (h : sys.worker w = .pop job next stack)
      (hd : Deque.Config.Step T (.returnPop false) (sys.deque w) d) :
      Step T sys ((sys.setDeque w d).goto w (.seek (.waitFor job next stack)))
  | rightDone {sys : System σ W} {w : Fin W} {job : ℕ} {next : Code σ} {stack : Stack σ}
      (h : sys.worker w = .run .done (.right job next stack)) :
      Step T sys (sys.goto w (.run next stack))
  | joined {sys : System σ W} {w : Fin W} {job : ℕ} {next : Code σ} {stack : Stack σ}
      (h : sys.worker w = .seek (.waitFor job next stack)) (hdone : sys.done job) :
      Step T sys (sys.goto w (.run next stack))
  | aim {sys : System σ W} {v w : Fin W} {loop : StealLoop σ} {d : Deque.Config ℕ (Fin W)}
      (h : sys.worker w = .seek loop)
      (hflag : ∀ job next stack, loop = .waitFor job next stack → sys.done job = false) (hv : v ≠ w)
      (hd : Deque.Config.Step T (.callTop w) (sys.deque v) d) :
      Step T sys ((sys.setDeque v d).goto w (.probe loop v))
  | stole {sys : System σ W} {v w : Fin W} {loop : StealLoop σ} {job : ℕ} {empty : Bool}
      {d : Deque.Config ℕ (Fin W)} (h : sys.worker w = .probe loop v)
      (hd : Deque.Config.Step T (.returnTop w (some job, empty)) (sys.deque v) d) :
      Step T sys ((sys.setDeque v d).goto w (.run (sys.code job) (loop.execute job)))
  | failed {sys : System σ W} {v w : Fin W} {loop : StealLoop σ} {empty : Bool}
      {d : Deque.Config ℕ (Fin W)} (h : sys.worker w = .probe loop v)
      (hd : Deque.Config.Step T (.returnTop w (none, empty)) (sys.deque v) d) :
      Step T sys ((sys.setDeque v d).goto w (.seek loop))
  | executed {sys : System σ W} {w : Fin W} {loop : StealLoop σ} {job : ℕ}
      (h : sys.worker w = .run .done (loop.execute job)) :
      Step T sys ((sys.finish job).goto w (.seek loop))

/-- The states that a program can reach. -/
inductive Reachable [NeZero W] (T : DequeType) (main : Code σ) (s : σ) : System σ W → Prop
  | init : Reachable T main s (init main s)
  | step {sys sys' : System σ W} (h : Reachable T main s sys) (hstep : Step T sys sys') :
      Reachable T main s sys'

end System

end ToggleTree
