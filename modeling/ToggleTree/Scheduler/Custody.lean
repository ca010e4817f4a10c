import ToggleTree.Scheduler.Simulation

/-!
# Who holds a job

A worker that waits for a job has constructed the job itself, after it had started everything below
it on its stack. The job has left its deque at the head: it is done, or another worker has it in
its hands or on its stack.
-/

namespace ToggleTree

open ForkJoin ForkJoin.Prog

variable {σ : Type} {W : ℕ}

/-- The job is one of the items. -/
def Deque.Ledger.Contains {J : Type} (l : Deque.Ledger J) (job : J) : Prop :=
  ∃ n ∈ l.items, l.pushed[n]? = some job

/-- A ledger has a job in it if it is in the list. -/
theorem Deque.Ledger.Holds.contains_iff {J : Type} {l : Deque.Ledger J} {jobs : List J}
    (h : l.Holds jobs) {job : J} :
    l.Contains job ↔ job ∈ jobs := by
  have hmem : some job ∈ l.items.map (fun n => l.pushed[n]?) ↔ some job ∈ jobs.map some := by rw [h]
  rw [List.mem_map, List.mem_map] at hmem
  refine hmem.trans ⟨?_, fun hj => ⟨job, hj, rfl⟩⟩
  rintro ⟨i, hi, heq⟩
  rwa [← Option.some.inj heq]

/-- A take at the top that finds nothing has taken nothing. -/
theorem Deque.Config.Reachable.returnTop_none {J K : Type} [DecidableEq K] {T : DequeType}
    {c c' : Deque.Config J K} (hreach : Deque.Config.Reachable T c) {k : K} {empty : Bool}
    (hstep : Deque.Config.Step T (.returnTop k (none, empty)) c c') : (c.thief k).number = none := by
  cases hstep with
  | @returnTop _ _ _ number hcall =>
    obtain ⟨_, _, _, _, hinv⟩ := hreach.inv
    rw [hcall]
    exact hinv.guarantees.missed k empty number hcall

namespace Stack

/-- The program itself is at the bottom. -/
def Rooted : Stack σ → Prop
  | main => True
  | spawned _ => False
  | left _ _ _ below => below.Rooted
  | right _ _ below => below.Rooted
  | waiting _ _ _ below => below.Rooted

/-- A right branch is younger than all jobs that are executed below it. -/
def Ordered : Stack σ → Prop
  | main => True
  | spawned _ => True
  | left job _ _ below => (∀ t ∈ below.tasks, t < job) ∧ below.Ordered
  | right _ _ below => below.Ordered
  | waiting _ job _ below => (∀ t ∈ below.tasks, t < job) ∧ below.Ordered

/-- The jobs that are waited for while stolen jobs are executed. -/
def waits : Stack σ → List ℕ
  | main => []
  | spawned _ => []
  | left _ _ _ below => below.waits
  | right _ _ below => below.waits
  | waiting _ job _ below => job :: below.waits

/-- The jobs that are waited for are those of some joins. -/
theorem waits_sublist (st : Stack σ) : st.waits.Sublist (st.joins.map Prod.fst) := by
  induction st with
  | main => exact List.Sublist.slnil
  | spawned job => exact List.Sublist.slnil
  | left job b next below ih => exact ih.cons job
  | right job next below ih => exact ih
  | waiting stolen job next below ih => exact ih.cons_cons job

/-- The stack goes on as `st'`: it executes the same jobs, and it has published and waits for nothing
that is new. -/
structure GoesOn (st st' : Stack σ) : Prop where
  tasks : st'.tasks = st.tasks
  published : st'.published ⊆ st.published
  rooted : st.Rooted → st'.Rooted
  ordered : st.Ordered → st'.Ordered

variable {st : Stack σ} {job : ℕ} {inDeque : Bool} {next : Code σ}

/-- A stack goes on as itself. -/
theorem GoesOn.refl (st : Stack σ) : GoesOn st st := ⟨rfl, fun _ h => h, id, id⟩

/-- The worker goes on with the other job itself. -/
theorem GoesOn.inline : GoesOn (left job false next st) (right job next st) := ⟨rfl, fun _ h => h, id, And.right⟩

/-- The worker goes on after a join. -/
theorem GoesOn.joined : GoesOn (right job next st) st := ⟨rfl, fun _ h => h, id, id⟩

/-- The worker goes on after its first job. -/
theorem GoesOn.done : GoesOn (left job true next st) st :=
  ⟨rfl, fun _ h => List.mem_cons_of_mem _ h, id, And.right⟩

end Stack

namespace View

/-- The stack of the view is rooted. -/
def Rooted (x : View σ) : Prop := x.elim False fun y => y.2.Rooted

/-- The stack of the view is ordered. -/
def Ordered (x : View σ) : Prop := x.elim True fun y => y.2.Ordered

/-- The published jobs are those of some joins. -/
theorem published_sublist (x : View σ) : x.published.Sublist (x.joins.map Prod.fst) := by
  cases x with
  | none => exact List.Sublist.slnil
  | some y => exact y.2.published_sublist

end View

/-- The jobs that the loop and the stack below it wait for. -/
def StealLoop.waits : StealLoop σ → List ℕ
  | idle => []
  | waitFor job _ below => job :: below.waits

/-- The jobs that a worker waits for. -/
def Worker.waits : Worker σ W → List ℕ
  | .run _ stack => stack.waits
  | .push _ _ _ stack => stack.waits
  | .pop _ _ stack => stack.waits
  | .seek loop => loop.waits
  | .probe loop _ => loop.waits

/-- The worker on whose deque the worker calls `pop_top`. -/
def Worker.victim : Worker σ W → Option (Fin W)
  | .probe _ v => some v
  | _ => none

/-- A worker with a victim is probing it. -/
theorem Worker.eq_probe {x : Worker σ W} {v : Fin W} (h : x.victim = some v) : ∃ loop, x = .probe loop v := by
  cases x with
  | probe loop v' =>
    cases h
    exact ⟨loop, rfl⟩
  | _ => cases h

namespace System

/-- Job `j` is in the deque of worker `w`. -/
def Queued (sys : System σ W) (w : Fin W) (j : ℕ) : Prop := (sys.deque w).ledger.Contains j

/-- Worker `t` has taken job `j` and has not started it. -/
def InHands (sys : System σ W) (t : Fin W) (j : ℕ) : Prop :=
  ∃ v n, ((sys.deque v).thief t).number = some n ∧ (sys.deque v).ledger.pushed[n]? = some j

/-- Worker `t` has job `j` on its stack or in its hands. -/
def Holds (sys : System σ W) (t : Fin W) (j : ℕ) : Prop := j ∈ (sys.view t).tasks ∨ sys.InHands t j

/-- What is known of the jobs that have been put into a deque. -/
structure Custody [NeZero W] (sys : System σ W) : Prop where
  rooted : (sys.view 0).Rooted
  ordered : ∀ w, (sys.view w).Ordered
  calls : ∀ v t, ((sys.deque v).thief t).busy = true ↔ (sys.worker t).victim = some v
  published : ∀ w, ∀ j ∈ (sys.view w).published, sys.Queued w j ∨ sys.done j = true ∨ ∃ t, sys.Holds t j
  waited : ∀ w, ∀ j ∈ (sys.worker w).waits, ¬sys.Queued w j

variable {T : DequeType} {sys sys' : System σ W} {queues : Fin W → List ℕ} {home : ℕ → Fin W}
  {status : ℕ → Status W} {res : ℕ → Prog σ Empty Unit} {w v : Fin W}

/-- A job on a stack or in a deque has been constructed. -/
theorem Inv.task_lt (h : Inv T sys queues home status res) {j : ℕ} (hj : j ∈ (sys.view w).tasks) :
    j < sys.count := by
  by_contra hge
  have hrunning := (h.layout.tidy w).running j hj
  rw [h.layout.fresh j (not_lt.mp hge)] at hrunning
  cases hrunning

/-- A published job has been created. -/
theorem Inv.published_lt (h : Inv T sys queues home status res) {j : ℕ} (hj : j ∈ (sys.view w).published) :
    j < sys.count := by
  obtain ⟨e, he, rfl⟩ := List.mem_map.mp ((sys.view w).published_sublist.subset hj)
  exact (h.layout.join_pos he).2

/-- The views after a worker goes on. -/
theorem view_goto (sys : System σ W) (w : Fin W) (x : Worker σ W) :
    (sys.goto w x).view = Function.update sys.view w (x.view (sys.deque w).owner.number) := by
  rw [view_update sys (sys.goto w x) w (fun u hu => Function.update_of_ne hu _ _) fun _ _ => rfl]
  simp only [goto, Function.update_self]

/-- The views after a worker has made a step of its own deque. -/
theorem view_own (sys : System σ W) (w : Fin W) (d : Deque.Config ℕ (Fin W)) (x : Worker σ W) :
    ((sys.setDeque w d).goto w x).view = Function.update sys.view w (x.view d.owner.number) := by
  rw [view_update sys ((sys.setDeque w d).goto w x) w (fun u hu => Function.update_of_ne hu _ _)
    fun u hu => owner_update hu]
  simp only [goto, setDeque, Function.update_self]

/-- The deques keep their ledgers and their thieves when the owner of one starts or ends a call. -/
theorem ledger_update {d : Deque.Config ℕ (Fin W)} (hledger : d.ledger = (sys.deque w).ledger) (u : Fin W) :
    (Function.update sys.deque w d u).ledger = (sys.deque u).ledger := by
  by_cases hu : u = w
  · rw [hu, Function.update_self, hledger]
  · rw [Function.update_of_ne hu]

/-- The steals of the deques after one of them is written. -/
theorem thief_update {d : Deque.Config ℕ (Fin W)} (hthief : d.thief = (sys.deque w).thief) (u : Fin W) :
    (Function.update sys.deque w d u).thief = (sys.deque u).thief := by
  by_cases hu : u = w
  · rw [hu, Function.update_self, hthief]
  · rw [Function.update_of_ne hu]

/-- A job whose flag is set keeps it. -/
theorem finish_done (job j : ℕ) (hj : sys.done j = true) : (sys.finish job).done j = true := by
  change Function.update sys.done job true j = true
  by_cases hjob : j = job
  · rw [hjob, Function.update_self]
  · rwa [Function.update_of_ne hjob]

section Moves

variable [NeZero W]

/-- Worker `w` moves on, and the deques keep their jobs. -/
theorem Custody.move (h : Custody sys) {y : View σ} (hview : sys'.view = Function.update sys.view w y)
    (hledger : ∀ v, (sys'.deque v).ledger = (sys.deque v).ledger) (hroot : (sys.view w).Rooted → y.Rooted)
    (hordered : y.Ordered) (hcalls : ∀ v t, ((sys'.deque v).thief t).busy = true ↔
      (sys'.worker t).victim = some v)
    (hpublished : ∀ j ∈ y.published, j ∈ (sys.view w).published)
    (hdone : ∀ u, ∀ j ∈ (sys.view u).published, sys.done j = true → sys'.done j = true)
    (htasks : ∀ j ∈ (sys.view w).tasks, j ∈ y.tasks ∨ sys'.done j = true)
    (hhands : ∀ t j, sys.InHands t j → sys'.InHands t j ∨ j ∈ y.tasks)
    (hwaits : ∀ u, ∀ j ∈ (sys'.worker u).waits, j ∈ (sys.worker u).waits ∨ ¬sys.Queued u j) : Custody sys' := by
  have hqueued (u : Fin W) (j : ℕ) : sys'.Queued u j ↔ sys.Queued u j := by
    rw [Queued, hledger, Queued]
  have hself : sys'.view w = y := by rw [hview, Function.update_self]
  have hother {u : Fin W} (hu : u ≠ w) : sys'.view u = sys.view u := by rw [hview, Function.update_of_ne hu]
  refine ⟨?_, fun u => ?_, hcalls, fun u j hj => ?_, fun u j hj => ?_⟩
  · by_cases hw : 0 = w
    · subst hw
      rw [hself]
      exact hroot h.rooted
    · rw [hother hw]
      exact h.rooted
  · by_cases hu : u = w
    · rw [hu, hself]
      exact hordered
    · rw [hother hu]
      exact h.ordered u
  · have hold : j ∈ (sys.view u).published := by
      by_cases hu : u = w
      · rw [hu, hself] at hj
        rw [hu]
        exact hpublished j hj
      · rwa [hother hu] at hj
    rw [hqueued]
    refine (h.published u j hold).imp_right fun hrest => ?_
    rcases hrest with hd | ⟨t, ht | ht⟩
    · exact Or.inl (hdone u j hold hd)
    · by_cases htw : t = w
      · rw [htw] at ht
        refine (htasks j ht).symm.imp_right fun hmem => ⟨w, Or.inl ?_⟩
        rwa [hself]
      · refine Or.inr ⟨t, Or.inl ?_⟩
        rwa [hother htw]
    · rcases hhands t j ht with ht' | hmem
      · exact Or.inr ⟨t, Or.inr ht'⟩
      · refine Or.inr ⟨w, Or.inl ?_⟩
        rwa [hself]
  · rw [hqueued]
    exact (hwaits u j hj).elim (h.waited u j) id

/-- Worker `w` moves on without a call on the deque of another worker. -/
theorem Custody.own (h : Custody sys) {x : Worker σ W} {y : View σ}
    (hview : sys'.view = Function.update sys.view w y)
    (hworker : sys'.worker = Function.update sys.worker w x)
    (hledger : ∀ v, (sys'.deque v).ledger = (sys.deque v).ledger)
    (hthief : ∀ v, (sys'.deque v).thief = (sys.deque v).thief) (hold : (sys.worker w).victim = none)
    (hnew : x.victim = none) (hroot : (sys.view w).Rooted → y.Rooted) (hordered : y.Ordered)
    (hpublished : ∀ j ∈ y.published, j ∈ (sys.view w).published)
    (hdone : ∀ u, ∀ j ∈ (sys.view u).published, sys.done j = true → sys'.done j = true)
    (htasks : ∀ j ∈ (sys.view w).tasks, j ∈ y.tasks ∨ sys'.done j = true)
    (hwaits : ∀ j ∈ x.waits, j ∈ (sys.worker w).waits ∨ ¬sys.Queued w j) : Custody sys' := by
  refine h.move hview hledger hroot hordered (fun v t => ?_) hpublished hdone htasks (fun t j hj => Or.inl ?_)
    fun u j hj => ?_
  · rw [hthief, hworker]
    by_cases ht : t = w
    · rw [ht, Function.update_self]
      rw [h.calls, hold, hnew]
    · rw [Function.update_of_ne ht]
      exact h.calls v t
  · obtain ⟨v, n, hn, hpushed⟩ := hj
    refine ⟨v, n, ?_, ?_⟩
    · rwa [hthief]
    · rwa [hledger]
  · rw [hworker] at hj
    by_cases hu : u = w
    · rw [hu, Function.update_self] at hj
      rw [hu]
      exact hwaits j hj
    · rw [Function.update_of_ne hu] at hj
      exact Or.inl hj

/-- The code at the top of a stack goes on, and so does the stack. -/
theorem Custody.goesOn (h : Custody sys) {x : Worker σ W} {p p' : Prog σ Empty Unit} {st st' : Stack σ}
    (hst : st.GoesOn st') (hold : sys.view w = some (p, st))
    (hview : sys'.view = Function.update sys.view w (some (p', st')))
    (hworker : sys'.worker = Function.update sys.worker w x)
    (hledger : ∀ v, (sys'.deque v).ledger = (sys.deque v).ledger)
    (hthief : ∀ v, (sys'.deque v).thief = (sys.deque v).thief) (hcall : (sys.worker w).victim = none)
    (hnew : x.victim = none) (hdone : sys'.done = sys.done)
    (hwaits : ∀ j ∈ x.waits, j ∈ (sys.worker w).waits ∨ ¬sys.Queued w j) : Custody sys' := by
  refine h.own hview hworker hledger hthief hcall hnew ?_ ?_ ?_ (fun _ _ _ hd => ?_) ?_ hwaits
  · rw [hold]
    exact hst.rooted
  · have hordered := h.ordered w
    rw [hold] at hordered
    exact hst.ordered hordered
  · rw [hold]
    exact fun j hj => hst.published hj
  · rwa [hdone]
  · rw [hold]
    intro j hj
    refine Or.inl ?_
    change j ∈ st'.tasks
    rwa [hst.tasks]

/-- Code runs. -/
theorem Custody.stepAtom (h : Custody sys) {act : σ → σ} {next : σ → Code σ} {stack : Stack σ}
    (hw : sys.worker w = .run (.atom act next) stack) :
    Custody ({ sys with shared := act sys.shared }.goto w (.run (next sys.shared) stack)) := by
  refine h.goesOn (p := (Code.atom act next).prog) (.refl stack) (by rw [view, hw]; rfl)
    (view_goto _ w _) rfl (fun _ => rfl)
    (fun _ => rfl) (by rw [hw]; rfl) rfl rfl fun j hj => Or.inl ?_
  rw [hw]
  exact hj

/-- A branch of which nobody else knows is run. -/
theorem Custody.stepRefused (h : Custody sys) {job : ℕ} {next : Code σ} {stack : Stack σ}
    (hw : sys.worker w = .run .done (.left job false next stack)) :
    Custody (sys.goto w (.run (sys.code job) (.right job next stack))) := by
  refine h.goesOn (p := ret ()) .inline (by rw [view, hw]; rfl) (view_goto _ w _) rfl (fun _ => rfl)
    (fun _ => rfl) (by rw [hw]; rfl) rfl rfl fun j hj => Or.inl ?_
  rw [hw]
  exact hj

/-- A right branch is over. -/
theorem Custody.stepRightDone (h : Custody sys) {job : ℕ} {next : Code σ} {stack : Stack σ}
    (hw : sys.worker w = .run .done (.right job next stack)) : Custody (sys.goto w (.run next stack)) := by
  refine h.goesOn (p := ret ()) .joined (by rw [view, hw]; rfl) (view_goto _ w _) rfl (fun _ => rfl)
    (fun _ => rfl) (by rw [hw]; rfl) rfl rfl fun j hj => Or.inl ?_
  rw [hw]
  exact hj

/-- The job that is waited for is done. -/
theorem Custody.stepJoined (h : Custody sys) {job : ℕ} {next : Code σ} {stack : Stack σ}
    (hw : sys.worker w = .seek (.waitFor job next stack)) : Custody (sys.goto w (.run next stack)) := by
  refine h.goesOn (p := ret ()) .done (by rw [view, hw]; rfl) (view_goto _ w _) rfl (fun _ => rfl)
    (fun _ => rfl) (by rw [hw]; rfl) rfl rfl fun j hj => Or.inl ?_
  rw [hw]
  exact List.mem_cons_of_mem job hj

/-- `parallel_do` constructs a job and starts to push it. -/
theorem Custody.stepParallelDo (h : Custody sys) (hinv : Inv T sys queues home status res) {lf rf next : Code σ}
    {stack : Stack σ} {d : Deque.Config ℕ (Fin W)} (hw : sys.worker w = .run (.parallelDo lf rf next) stack)
    (hd : Deque.Config.Step T (.callPush sys.count) (sys.deque w) d) :
    Custody (((sys.newJob rf).setDeque w d).goto w (.push sys.count lf next stack)) := by
  obtain ⟨_, _, hnumber, hthief, hledger⟩ := hd.callPush_effect
  have hold : sys.view w = some ((Code.parallelDo lf rf next).prog, stack) := by rw [view, hw]; rfl
  have hview := view_own (sys.newJob rf) w d (.push sys.count lf next stack)
  rw [hnumber] at hview
  refine h.own (y := some (lf.prog, .left sys.count false next stack)) hview rfl (ledger_update hledger)
    (thief_update hthief)
    (by rw [hw]; rfl) rfl ?_ ?_ ?_ (fun u j hj hdone => ?_) ?_ fun j hj => Or.inl ?_
  · rw [hold]
    exact id
  · have hordered := h.ordered w
    rw [hold] at hordered
    refine ⟨fun t ht => hinv.task_lt (w := w) ?_, hordered⟩
    rw [hold]
    exact ht
  · rw [hold]
    exact fun j hj => hj
  · have hne : j ≠ sys.count := Nat.ne_of_lt (hinv.published_lt hj)
    change Function.update sys.done sys.count false j = true
    rwa [Function.update_of_ne hne]
  · rw [hold]
    exact fun j hj => Or.inl hj
  · rw [hw]
    exact hj

/-- A push returns. -/
theorem Custody.stepPushed (h : Custody sys) (hinv : Inv T sys queues home status res) {job : ℕ}
    {lf next : Code σ} {stack : Stack σ} {inDeque first : Bool} {d : Deque.Config ℕ (Fin W)}
    (hw : sys.worker w = .push job lf next stack)
    (hd : Deque.Config.Step T (.returnPush job (inDeque, first)) (sys.deque w) d) :
    Custody ((sys.setDeque w d).goto w (.run lf (.left job inDeque next stack))) := by
  obtain ⟨_, _, _, hthief, hledger, hresult⟩ := (hinv.coupled.reachable w).returnPush hd
  have hflag : inDeque = (sys.deque w).owner.number.isSome := by
    cases inDeque with
    | true => exact (Option.isSome_iff_ne_none.mpr hresult).symm
    | false =>
      rw [show (sys.deque w).owner.number = none from hresult]
      rfl
  refine h.goesOn (p := lf.prog) (.refl (.left job inDeque next stack)) ?_ (view_own sys w d _) rfl
    (ledger_update hledger)
    (thief_update hthief) (by rw [hw]; rfl) rfl rfl fun j hj => Or.inl ?_
  · rw [view, hw, hflag]
    rfl
  · rw [hw]
    exact hj

/-- The left branch is over. -/
theorem Custody.stepLeftDone (h : Custody sys) {job : ℕ} {next : Code σ} {stack : Stack σ}
    {d : Deque.Config ℕ (Fin W)} (hw : sys.worker w = .run .done (.left job true next stack))
    (hd : Deque.Config.Step T .callPop (sys.deque w) d) :
    Custody ((sys.setDeque w d).goto w (.pop job next stack)) := by
  obtain ⟨_, _, hnumber, hthief, hledger⟩ := hd.callPop_effect
  have hview := view_own sys w d (.pop job next stack)
  rw [hnumber] at hview
  refine h.goesOn (p := ret ()) (.refl (.left job true next stack))
    (by rw [view, hw]; rfl) hview rfl (ledger_update hledger)
    (thief_update hthief) (by rw [hw]; rfl) rfl rfl fun j hj => Or.inl ?_
  rw [hw]
  exact hj

/-- The worker runs the right branch that it has taken back. -/
theorem Custody.stepPopped (h : Custody sys) (hinv : Inv T sys queues home status res) {job : ℕ} {next : Code σ}
    {stack : Stack σ} {d : Deque.Config ℕ (Fin W)} (hw : sys.worker w = .pop job next stack)
    (hd : Deque.Config.Step T (.returnPop true) (sys.deque w) d) :
    Custody ((sys.setDeque w d).goto w (.run (sys.code job) (.right job next stack))) := by
  obtain ⟨_, _, _, hthief, hledger, hresult⟩ := (hinv.coupled.reachable w).returnPop hd
  obtain ⟨m, hm⟩ := Option.ne_none_iff_exists'.mp hresult
  refine h.goesOn (p := ret ()) .inline ?_ (view_own sys w d _) rfl (ledger_update hledger) (thief_update hthief)
    (by rw [hw]; rfl) rfl rfl fun j hj => Or.inl ?_
  · rw [view, hw, hm]
    rfl
  · rw [hw]
    exact hj

/-- The job of the right branch is gone, and so is everything else in the deque. -/
theorem Custody.stepMissed (h : Custody sys) (hinv : Inv T sys queues home status res) {job : ℕ} {next : Code σ}
    {stack : Stack σ} {d : Deque.Config ℕ (Fin W)} (hw : sys.worker w = .pop job next stack)
    (hd : Deque.Config.Step T (.returnPop false) (sys.deque w) d) :
    Custody ((sys.setDeque w d).goto w (.seek (.waitFor job next stack))) := by
  obtain ⟨_, _, _, hthief, hledger, hnumber, hitems⟩ := (hinv.coupled.reachable w).returnPop hd
  refine h.goesOn (p := ret ()) (.refl (.left job true next stack)) ?_ (view_own sys w d _) rfl
    (ledger_update hledger) (thief_update hthief) (by rw [hw]; rfl) rfl rfl fun j _ => Or.inr ?_
  · rw [view, hw, hnumber]
    rfl
  · rintro ⟨n, hn, _⟩
    rw [hitems] at hn
    cases hn

/-- A worker has executed a stolen job. -/
theorem Custody.stepExecuted (h : Custody sys) {loop : StealLoop σ} {job : ℕ}
    (hw : sys.worker w = .run .done (loop.execute job)) : Custody ((sys.finish job).goto w (.seek loop)) := by
  have hold : sys.view w = some (ret (), loop.execute job) := by rw [view, hw]; rfl
  have hordered := h.ordered w
  rw [hold] at hordered
  have hself : (sys.finish job).done job = true := by
    change Function.update sys.done job true job = true
    exact Function.update_self _ _ _
  refine h.own (y := loop.view) (view_goto (sys.finish job) w (.seek loop)) rfl (fun _ => rfl) (fun _ => rfl)
    (by rw [hw]; rfl) rfl ?_ ?_ ?_ (fun _ j _ => finish_done job j) ?_ fun j hj => Or.inl ?_
  · rw [hold]
    cases loop <;> exact id
  · cases loop with
    | idle => trivial
    | waitFor i next below => exact hordered
  · rw [hold]
    cases loop with
    | idle => exact fun j hj => (List.not_mem_nil hj).elim
    | waitFor i next below => exact fun j hj => hj
  · rw [hold]
    intro j hj
    cases loop with
    | idle =>
      obtain rfl := List.mem_singleton.mp hj
      exact Or.inr hself
    | waitFor i next below =>
      rcases List.mem_cons.mp hj with rfl | hj
      · exact Or.inr hself
      · exact Or.inl hj
  · rw [hw]
    cases loop <;> exact hj

section Thieves

variable {d : Deque.Config ℕ (Fin W)} {loop : StealLoop σ} {x : Worker σ W}

/-- A thief moves on, and its call on the deque of another worker starts or ends. -/
theorem Custody.steal (h : Custody sys) {y : View σ}
    (hview : ((sys.setDeque v d).goto w x).view = Function.update sys.view w y)
    (hledger : d.ledger = (sys.deque v).ledger) (hthief : ∀ u ≠ w, d.thief u = (sys.deque v).thief u)
    (hbusy : (d.thief w).busy = true ↔ x.victim = some v)
    (hfree : ∀ u ≠ v, (sys.worker w).victim ≠ some u ∧ x.victim ≠ some u)
    (hroot : (sys.view w).Rooted → y.Rooted) (hordered : y.Ordered)
    (hpublished : ∀ j ∈ y.published, j ∈ (sys.view w).published) (htasks : ∀ j ∈ (sys.view w).tasks, j ∈ y.tasks)
    (hhands : ∀ n j, ((sys.deque v).thief w).number = some n →
      (sys.deque v).ledger.pushed[n]? = some j → j ∈ y.tasks)
    (hwaits : ∀ j ∈ x.waits, j ∈ (sys.worker w).waits) : Custody ((sys.setDeque v d).goto w x) := by
  have hworker {u : Fin W} (hu : u ≠ w) : ((sys.setDeque v d).goto w x).worker u = sys.worker u :=
    Function.update_of_ne hu _ _
  have hself : ((sys.setDeque v d).goto w x).worker w = x := Function.update_self _ _ _
  have hdeque {u : Fin W} (hu : u ≠ v) : ((sys.setDeque v d).goto w x).deque u = sys.deque u :=
    Function.update_of_ne hu _ _
  have hnew : ((sys.setDeque v d).goto w x).deque v = d := Function.update_self _ _ _
  refine h.move hview (ledger_update hledger) hroot hordered (fun u t => ?_) hpublished (fun _ _ _ hd => hd)
    (fun j hj => Or.inl (htasks j hj)) (fun t j hj => ?_) fun u j hj => Or.inl ?_
  · by_cases ht : t = w
    · rw [ht, hself]
      by_cases hu : u = v
      · rw [hu, hnew]
        exact hbusy
      · rw [hdeque hu, h.calls]
        exact iff_of_false (hfree u hu).1 (hfree u hu).2
    · rw [hworker ht, ← h.calls]
      by_cases hu : u = v
      · rw [hu, hnew, hthief t ht]
      · rw [hdeque hu]
  · obtain ⟨u, n, hn, hpushed⟩ := hj
    by_cases hu : u = v
    · rw [hu] at hn hpushed
      by_cases ht : t = w
      · rw [ht] at hn
        exact Or.inr (hhands n j hn hpushed)
      · refine Or.inl ⟨v, n, ?_, ?_⟩
        · rwa [hnew, hthief t ht]
        · rwa [hnew, hledger]
    · refine Or.inl ⟨u, n, ?_, ?_⟩
      · rwa [hdeque hu]
      · rwa [hdeque hu]
  · by_cases hu : u = w
    · rw [hu, hself] at hj
      rw [hu]
      exact hwaits j hj
    · rwa [hworker hu] at hj

/-- A thief starts a call on the deque of another worker. -/
theorem Custody.stepAim (h : Custody sys) (hw : sys.worker w = .seek loop)
    (hd : Deque.Config.Step T (.callTop w) (sys.deque v) d) :
    Custody ((sys.setDeque v d).goto w (.probe loop v)) := by
  obtain ⟨howner, hthief, hbusy, _, hledger⟩ := hd.callTop_effect
  have hview : sys.view w = loop.view := by rw [view, hw]; rfl
  have hidle : ((sys.deque v).thief w).number = none := by
    refine Deque.ThiefCall.number_eq_none (Bool.eq_false_iff.mpr fun hb => ?_)
    have := (h.calls v w).mp hb
    rw [hw] at this
    cases this
  refine h.steal (y := loop.view) (view_steal sys howner fun _ => rfl) hledger hthief (iff_of_true hbusy rfl)
    (fun u hu => ?_) ?_ ?_ ?_ ?_
    (fun n j hn _ => ?_) fun j hj => ?_
  · rw [hw]
    exact ⟨fun heq => (by cases heq), fun heq => hu (Option.some.inj heq).symm⟩
  · rw [hview]
    exact id
  · rw [← hview]
    exact h.ordered w
  · rw [hview]
    exact fun j hj => hj
  · rw [hview]
    exact fun j hj => hj
  · rw [hidle] at hn
    cases hn
  · rw [hw]
    exact hj

/-- A thief has found nothing. -/
theorem Custody.stepFailed (h : Custody sys) (hinv : Inv T sys queues home status res) {empty : Bool}
    (hw : sys.worker w = .probe loop v) (hd : Deque.Config.Step T (.returnTop w (none, empty)) (sys.deque v) d) :
    Custody ((sys.setDeque v d).goto w (.seek loop)) := by
  obtain ⟨howner, hthief, _, hbusy', hledger, _⟩ := (hinv.coupled.reachable v).returnTop hd
  have hnone := (hinv.coupled.reachable v).returnTop_none hd
  have hview : sys.view w = loop.view := by rw [view, hw]; rfl
  refine h.steal (y := loop.view) (view_steal sys howner fun _ => rfl) hledger hthief ?_
    (fun u hu => ?_) ?_ ?_ ?_ ?_ (fun n j hn _ => ?_) fun j hj => ?_
  · rw [hbusy']
    exact iff_of_false Bool.false_ne_true fun heq => by cases heq
  · rw [hw]
    exact ⟨fun heq => hu (Option.some.inj heq).symm, fun heq => (by cases heq)⟩
  · rw [hview]
    exact id
  · rw [← hview]
    exact h.ordered w
  · rw [hview]
    exact fun j hj => hj
  · rw [hview]
    exact fun j hj => hj
  · rw [hnone] at hn
    cases hn
  · rw [hw]
    exact hj

/-- A thief starts the job that it has taken. -/
theorem Custody.stepStole (h : Custody sys) (hinv : Inv T sys queues home status res) {job : ℕ} {empty : Bool}
    (hw : sys.worker w = .probe loop v)
    (hd : Deque.Config.Step T (.returnTop w (some job, empty)) (sys.deque v) d) :
    Custody ((sys.setDeque v d).goto w (.run (sys.code job) (loop.execute job))) := by
  obtain ⟨howner, hthief, _, hbusy', hledger, hdealt⟩ := (hinv.coupled.reachable v).returnTop hd
  obtain ⟨m, hm, hjob⟩ := hdealt job rfl
  have hview : sys.view w = loop.view := by rw [view, hw]; rfl
  have hordered := h.ordered w
  rw [hview] at hordered
  have htop : job ∈ (loop.execute job).tasks := by cases loop <;> exact List.mem_cons_self
  refine h.steal (y := some ((sys.code job).prog, loop.execute job))
    (view_steal sys howner fun _ => rfl) hledger hthief ?_
    (fun u hu => ?_) ?_ ?_ ?_ ?_ (fun n j hn hpushed => ?_) fun j hj => ?_
  · rw [hbusy']
    exact iff_of_false Bool.false_ne_true fun heq => by cases heq
  · rw [hw]
    exact ⟨fun heq => hu (Option.some.inj heq).symm, fun heq => (by cases heq)⟩
  · rw [hview]
    cases loop <;> exact id
  · cases loop with
    | idle => trivial
    | waitFor i next below => exact hordered
  · rw [hview]
    cases loop with
    | idle => exact fun j hj => (List.not_mem_nil hj).elim
    | waitFor i next below => exact fun j hj => hj
  · rw [hview]
    cases loop with
    | idle => exact fun j hj => (List.not_mem_nil hj).elim
    | waitFor i next below => exact fun j hj => List.mem_cons_of_mem job hj
  · rw [hm] at hn
    rw [← Option.some.inj hn, hjob] at hpushed
    rwa [← Option.some.inj hpushed]
  · rw [hw]
    cases loop <;> exact hj

end Thieves

section Calls

variable {d : Deque.Config ℕ (Fin W)}

/-- A step inside a call changes the deque of worker `v` and at most how its owner goes on. -/
theorem Custody.call (h : Custody sys) {y : View σ}
    (hview : (sys.setDeque v d).view = Function.update sys.view v y)
    (hroot : (sys.view v).Rooted → y.Rooted) (hordered : y.Ordered) (htasks : y.tasks = (sys.view v).tasks)
    (hbusy : ∀ t, (d.thief t).busy = ((sys.deque v).thief t).busy)
    (hhands : ∀ t n j, ((sys.deque v).thief t).number = some n → (sys.deque v).ledger.pushed[n]? = some j →
      (d.thief t).number = some n ∧ d.ledger.pushed[n]? = some j)
    (hpublished : ∀ j ∈ y.published, d.ledger.Contains j ∨
      (j ∈ (sys.view v).published ∧ (sys.Queued v j → ∃ t, (sys.setDeque v d).Holds t j)))
    (hwaited : ∀ j ∈ (sys.worker v).waits, ¬d.ledger.Contains j) : Custody (sys.setDeque v d) := by
  have hself : (sys.setDeque v d).view v = y := by rw [hview, Function.update_self]
  have hother {u : Fin W} (hu : u ≠ v) : (sys.setDeque v d).view u = sys.view u := by
    rw [hview, Function.update_of_ne hu]
  have hdeque {u : Fin W} (hu : u ≠ v) : (sys.setDeque v d).deque u = sys.deque u := Function.update_of_ne hu _ _
  have hnew : (sys.setDeque v d).deque v = d := Function.update_self _ _ _
  have hheld {t : Fin W} {j : ℕ} (ht : sys.Holds t j) : (sys.setDeque v d).Holds t j := by
    rcases ht with ht | ⟨u, n, hn, hpushed⟩
    · refine Or.inl ?_
      by_cases htv : t = v
      · rw [htv, hself, htasks]
        rwa [htv] at ht
      · rwa [hother htv]
    · by_cases hu : u = v
      · rw [hu] at hn hpushed
        obtain ⟨hn', hpushed'⟩ := hhands t n j hn hpushed
        refine Or.inr ⟨v, n, ?_, ?_⟩
        · rwa [hnew]
        · rwa [hnew]
      · refine Or.inr ⟨u, n, ?_, ?_⟩
        · rwa [hdeque hu]
        · rwa [hdeque hu]
  refine ⟨?_, fun u => ?_, fun u t => ?_, fun u j hj => ?_, fun u j hj => ?_⟩
  · by_cases hv : 0 = v
    · subst hv
      rw [hself]
      exact hroot h.rooted
    · rw [hother hv]
      exact h.rooted
  · by_cases hu : u = v
    · rw [hu, hself]
      exact hordered
    · rw [hother hu]
      exact h.ordered u
  · refine Iff.trans ?_ (h.calls u t)
    by_cases hu : u = v
    · rw [hu, hnew, hbusy]
    · rw [hdeque hu]
  · have hrest (hrest : sys.done j = true ∨ ∃ t, sys.Holds t j) :
        (sys.setDeque v d).done j = true ∨ ∃ t, (sys.setDeque v d).Holds t j :=
      hrest.imp_right fun ⟨t, ht⟩ => ⟨t, hheld ht⟩
    by_cases hu : u = v
    · rw [hu, hself] at hj
      rw [hu, Queued, hnew]
      refine (hpublished j hj).imp_right fun ⟨hold, hqueued⟩ => ?_
      exact (h.published v j hold).elim (fun hq => Or.inr (hqueued hq)) hrest
    · rw [hother hu] at hj
      rw [Queued, hdeque hu]
      exact (h.published u j hj).imp_right hrest
  · by_cases hu : u = v
    · rw [hu] at hj
      rw [hu, Queued, hnew]
      exact hwaited j hj
    · rw [Queued, hdeque hu]
      exact h.waited u j hj

/-- A step inside a call that only looks at the deque or touches a slot. -/
theorem Custody.look (h : Custody sys) (howner : d.owner.number = (sys.deque v).owner.number)
    (hledger : d.ledger = (sys.deque v).ledger) (hbusy : ∀ t, (d.thief t).busy = ((sys.deque v).thief t).busy)
    (hnumber : ∀ t, (d.thief t).number = ((sys.deque v).thief t).number) : Custody (sys.setDeque v d) := by
  have hview : (sys.setDeque v d).view = Function.update sys.view v (sys.view v) := by
    rw [view_update sys (sys.setDeque v d) v (fun _ _ => rfl) fun u hu => owner_update hu]
    simp only [setDeque, Function.update_self, howner, view]
  refine h.call hview id (h.ordered v) rfl hbusy (fun t n j hn hpushed => ?_) (fun j hj => ?_) fun j hj => ?_
  · rw [hnumber, hledger]
    exact ⟨hn, hpushed⟩
  · rw [hledger]
    by_cases hq : sys.Queued v j
    · exact Or.inl hq
    · exact Or.inr ⟨hj, fun hq' => absurd hq' hq⟩
  · rw [hledger]
    exact h.waited v j hj

/-- The push becomes visible. -/
theorem Custody.pushBottom (h : Custody sys) (hinv : Inv T sys queues home status res)
    (hthief : d.thief = (sys.deque w).thief)
    (hpush : (sys.deque w).owner.request = some (.push job)) (hnone : (sys.deque w).owner.number = none)
    (hnumber : d.owner.number = some (sys.deque w).ledger.pushed.length)
    (hledger : d.ledger = (sys.deque w).ledger.push job) :
    Custody (sys.setDeque w d) := by
  have hbusy (t : Fin W) : (d.thief t).busy = ((sys.deque w).thief t).busy := by rw [hthief]
  have hview := view_update sys (sys.setDeque w d) w (fun _ _ => rfl) fun u hu => owner_update hu
  simp only [setDeque, Function.update_self] at hview
  rw [hinv.coupled.request] at hpush
  obtain ⟨lf, next, stack, hw⟩ : ∃ lf next stack, sys.worker w = .push job lf next stack := by
    cases hw : sys.worker w <;> rw [hw] at hpush <;> cases hpush
    exact ⟨_, _, _, rfl⟩
  have hold : sys.view w = some (lf.prog, .left job false next stack) := by
    rw [view, hw, hnone]
    rfl
  have hordered := h.ordered w
  have hnodup := (hinv.layout.tidy w).nodup
  rw [hold] at hordered hnodup
  rw [hw, hnumber] at hview
  have hcontains (j : ℕ) : d.ledger.Contains j ↔ sys.Queued w j ∨ j = job := by
    rw [hledger, ((hinv.coupled.holds w).push job).contains_iff, Queued, (hinv.coupled.holds w).contains_iff,
      List.mem_append, List.mem_singleton]
  refine h.call hview ?_ hordered ?_ hbusy (fun t n j hn hpushed => ⟨?_, ?_⟩) (fun j hj => ?_) fun j hj => ?_
  · rw [hold]
    exact id
  · rw [hold]
    rfl
  · rwa [hthief]
  · rw [hledger]
    exact Deque.Ledger.pushed_push job n j hpushed
  · rw [hcontains]
    rcases List.mem_cons.mp hj with rfl | hj
    · exact Or.inl (Or.inr rfl)
    · by_cases hq : sys.Queued w j
      · exact Or.inl (Or.inl hq)
      · refine Or.inr ⟨?_, fun hq' => absurd hq' hq⟩
        rw [hold]
        exact hj
  · rw [hcontains]
    refine not_or.mpr ⟨h.waited w j hj, ?_⟩
    rintro rfl
    rw [hw] at hj
    exact (List.nodup_cons.mp hnodup).1 (stack.waits_sublist.subset hj)

/-- The pop takes the last item, if there is one. -/
theorem Custody.popBottom (h : Custody sys) (hinv : Inv T sys queues home status res)
    (hthief : d.thief = (sys.deque w).thief)
    (hpop : (sys.deque w).owner.request = some .pop) (hnone : (sys.deque w).owner.number = none)
    (hnumber : d.owner.number = (sys.deque w).ledger.items.getLast?)
    (hledger : d.ledger = (sys.deque w).ledger.popBottom) :
    Custody (sys.setDeque w d) := by
  have hbusy (t : Fin W) : (d.thief t).busy = ((sys.deque w).thief t).busy := by rw [hthief]
  have hview := view_update sys (sys.setDeque w d) w (fun _ _ => rfl) fun u hu => owner_update hu
  simp only [setDeque, Function.update_self] at hview
  rw [hinv.coupled.request] at hpop
  obtain ⟨job, next, stack, hw⟩ : ∃ job next stack, sys.worker w = .pop job next stack := by
    cases hw : sys.worker w <;> rw [hw] at hpop <;> cases hpop
    exact ⟨_, _, _, rfl⟩
  have hold : sys.view w = some (ret (), .left job true next stack) := by
    rw [view, hw, hnone]
    rfl
  cases hlast : (sys.deque w).ledger.items.getLast? with
  | none =>
    have hitems := List.getLast?_eq_none_iff.mp hlast
    refine h.look ?_ (hledger.trans (Deque.Ledger.popBottom_of_nil hitems)) hbusy fun t => by rw [hthief]
    rw [hnumber, hlast, hnone]
  | some m =>
    obtain ⟨i, hi, _⟩ := (hinv.coupled.holds w).getLast? hlast
    have hqueue : queues w = (queues w).dropLast ++ [i] := (List.dropLast_append_getLast? i hi).symm
    obtain ⟨rfl, _⟩ := hinv.layout.withdraw hold hqueue
    have hcontains (j : ℕ) : sys.Queued w j ↔ d.ledger.Contains j ∨ j = i := by
      rw [hledger, (hinv.coupled.holds w).popBottom.contains_iff, Queued, (hinv.coupled.holds w).contains_iff]
      rw [hqueue, List.dropLast_concat, List.mem_append, List.mem_singleton]
    have hordered := h.ordered w
    have hnodup := (hinv.layout.tidy w).nodup
    rw [hold] at hordered hnodup
    rw [hw, hnumber, hlast] at hview
    refine h.call hview ?_ hordered ?_ hbusy (fun t n j hn hpushed => ⟨?_, ?_⟩) (fun j hj => ?_) fun j hj hq => ?_
    · rw [hold]
      exact id
    · rw [hold]
      rfl
    · rwa [hthief]
    · rwa [hledger]
    · by_cases hq : d.ledger.Contains j
      · exact Or.inl hq
      · refine Or.inr ⟨?_, fun hq' => ?_⟩
        · rw [hold]
          exact List.mem_cons_of_mem i hj
        · obtain rfl := ((hcontains j).mp hq').resolve_left hq
          exact absurd (stack.published_sublist.subset hj) (List.nodup_cons.mp hnodup).1
    · exact h.waited w j hj ((hcontains j).mpr (Or.inl hq))

/-- A step inside a call of a worker on its own deque. -/
theorem Custody.stepOwner (h : Custody sys) (hinv : Inv T sys queues home status res)
    (hd : Deque.Config.Step T .stepOwner (sys.deque w) d) : Custody (sys.setDeque w d) := by
  obtain ⟨_, hthief, hmove⟩ := (hinv.coupled.reachable w).stepOwner hd
  rcases hmove with ⟨hnumber, hledger⟩ | ⟨job, hpush, hnone, hnumber, hledger⟩ | ⟨hpop, hnone, hnumber, hledger⟩
  · exact h.look hnumber hledger (fun t => by rw [hthief]) fun t => by rw [hthief]
  · exact h.pushBottom hinv hthief hpush hnone hnumber hledger
  · exact h.popBottom hinv hthief hpop hnone hnumber hledger

/-- A step inside the call of a thief. -/
theorem Custody.stepThief (h : Custody sys) (hinv : Inv T sys queues home status res)
    (hd : Deque.Config.Step T (.stepThief w) (sys.deque v) d) : Custody (sys.setDeque v d) := by
  obtain ⟨howner, hthief, hbusy, hbusy', hmove⟩ := (hinv.coupled.reachable v).stepThief hd
  have hall (t : Fin W) : (d.thief t).busy = ((sys.deque v).thief t).busy := by
    by_cases ht : t = w
    · rw [ht, hbusy, hbusy']
    · rw [hthief t ht]
  rcases hmove with ⟨hnumber, hledger⟩ | ⟨m, hm, hnone, hnumber, hledger⟩
  · refine h.look (congrArg Deque.OwnerCall.number howner) hledger hall fun t => ?_
    by_cases ht : t = w
    · rw [ht, hnumber]
    · rw [hthief t ht]
  · obtain ⟨i, hi, hpushed⟩ := (hinv.coupled.holds v).head? hm
    have hqueue : queues v = i :: (queues v).tail := (List.cons_head?_tail hi).symm
    have hcontains (j : ℕ) : sys.Queued v j ↔ j = i ∨ d.ledger.Contains j := by
      rw [hledger, (hinv.coupled.holds v).popTop.contains_iff, Queued, (hinv.coupled.holds v).contains_iff]
      rw [hqueue, List.tail_cons, List.mem_cons]
    have hview : (sys.setDeque v d).view = Function.update sys.view v (sys.view v) := by
      rw [view_foreign sys v d howner, Function.update_eq_self]
    have hnew : (sys.setDeque v d).deque v = d := Function.update_self _ _ _
    refine h.call hview id (h.ordered v) rfl hall (fun t n j hn hj => ⟨?_, ?_⟩) (fun j hj => ?_) fun j hj hq => ?_
    · have ht : t ≠ w := by
        rintro rfl
        rw [hnone] at hn
        cases hn
      rwa [hthief t ht]
    · rwa [hledger]
    · by_cases hq : d.ledger.Contains j
      · exact Or.inl hq
      · refine Or.inr ⟨hj, fun hq' => ⟨w, Or.inr ⟨v, m, ?_, ?_⟩⟩⟩
        · rwa [hnew]
        · obtain rfl := ((hcontains j).mp hq').resolve_right hq
          rw [hnew, hledger]
          exact hpushed
    · exact h.waited v j hj ((hcontains j).mpr (Or.inr hq))

end Calls

/-- Before the first step there is only the program. -/
theorem Custody.init (main : Code σ) (s : σ) : Custody (System.init main s : System σ W) := by
  have hview (u : Fin W) (hu : u ≠ 0) : (System.init main s : System σ W).view u = none := by
    simp only [System.view, System.init, Function.update_of_ne hu]
    rfl
  have hmain : (System.init main s : System σ W).view 0 = some (main.prog, .main) := by
    simp only [System.view, System.init, Function.update_self]
    rfl
  refine ⟨?_, fun u => ?_, fun v t => ?_, fun u j hj => ?_, fun u j _ hq => ?_⟩
  · rw [hmain]
    trivial
  · by_cases hu : u = 0
    · rw [hu, hmain]
      trivial
    · rw [hview u hu]
      trivial
  · refine iff_of_false Bool.false_ne_true fun ht => ?_
    obtain ⟨loop, hloop⟩ := Worker.eq_probe ht
    by_cases hu : t = 0
    · rw [hu] at hloop
      simp only [System.init, Function.update_self] at hloop
      cases hloop
    · simp only [System.init, Function.update_of_ne hu] at hloop
      cases hloop
  · by_cases hu : u = 0
    · rw [hu, hmain] at hj
      cases hj
    · rw [hview u hu] at hj
      cases hj
  · obtain ⟨n, hn, _⟩ := hq
    cases hn

/-- Each step of a worker keeps track of the jobs. -/
theorem Custody.step (h : Custody sys) (hinv : Inv T sys queues home status res) (hstep : Step T sys sys') :
    Custody sys' := by
  cases hstep with
  | atom hw => exact h.stepAtom hw
  | parallelDo hw hd => exact h.stepParallelDo hinv hw hd
  | stepOwner hd => exact h.stepOwner hinv hd
  | stepThief hd => exact h.stepThief hinv hd
  | pushed hw hd => exact h.stepPushed hinv hw hd
  | refused hw => exact h.stepRefused hw
  | leftDone hw hd => exact h.stepLeftDone hw hd
  | popped hw hd => exact h.stepPopped hinv hw hd
  | missed hw hd => exact h.stepMissed hinv hw hd
  | rightDone hw => exact h.stepRightDone hw
  | joined hw _ => exact h.stepJoined hw
  | aim hw _ _ hd => exact h.stepAim hw hd
  | stole hw hd => exact h.stepStole hinv hw hd
  | failed hw hd => exact h.stepFailed hinv hw hd
  | executed hw => exact h.stepExecuted hw

/-- Every reachable system keeps its jobs. -/
theorem Reachable.custody {main : Code σ} {s : σ} {sys : System σ W} (hreach : Reachable T main s sys) :
    Custody sys := by
  induction hreach with
  | init => exact Custody.init main s
  | step hreach hstep ih =>
    obtain ⟨queues, home, status, res, hinv, _⟩ := hreach.simulates
    exact ih.step hinv hstep

end Moves

end System

end ToggleTree
