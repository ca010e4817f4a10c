import ToggleTree.Scheduler.Coupling

/-!
# Every run of the scheduler is a fork–join run

The deques hold what the stack discipline says, so each step of a worker is a move of the
discipline. A state that the scheduler reaches is therefore a state of the fork–join program,
whatever is stolen and in whatever order the workers run.
-/

namespace ToggleTree

open ForkJoin ForkJoin.Prog

variable {σ : Type} {W : ℕ}

namespace System

/-- What runs at the top of each worker. -/
def view (sys : System σ W) (w : Fin W) : View σ := (sys.worker w).view (sys.deque w).owner.number

/-- The invariant of the scheduler. -/
structure Inv (T : DequeType) (sys : System σ W) (queues : Fin W → List ℕ) (home : ℕ → Fin W)
    (status : ℕ → Status W) (res : ℕ → Prog σ Empty Unit) : Prop where
  coupled : Coupled T sys.deque sys.worker queues status
  layout : Layout sys.view queues sys.count home status
  meaning : Meaning sys.view sys.code status res
  flags : ∀ j, sys.done j = true → status j = .finished
  solo : W = 1 → ∀ w, (sys.worker w).Solo

variable {T : DequeType} {sys sys' : System σ W} {queues : Fin W → List ℕ} {home : ℕ → Fin W}
  {status : ℕ → Status W} {res res' : ℕ → Prog σ Empty Unit} {w v : Fin W}

/-- The program makes at most one step. -/
def Follows (sys sys' : System σ W) (res res' : ℕ → Prog σ Empty Unit) : Prop :=
  (res' 0 = res 0 ∧ sys'.shared = sys.shared) ∨
    ForkJoin.Step Empty.elim (res 0) sys.shared (res' 0) sys'.shared

/-- The views after a step of one worker. -/
theorem view_update (sys sys' : System σ W) (w : Fin W) (hworker : ∀ u ≠ w, sys'.worker u = sys.worker u)
    (hdeque : ∀ u ≠ w, (sys'.deque u).owner = (sys.deque u).owner) :
    sys'.view = Function.update sys.view w ((sys'.worker w).view (sys'.deque w).owner.number) := by
  funext u
  by_cases hu : u = w
  · subst hu
    rw [Function.update_self]
    rfl
  · rw [Function.update_of_ne hu, view, view, hworker u hu, hdeque u hu]

/-- The owners of the other deques stay. -/
theorem owner_update {deque : Fin W → Deque.Config ℕ (Fin W)} {d : Deque.Config ℕ (Fin W)} {u : Fin W}
    (hu : u ≠ w) : (Function.update deque w d u).owner = (deque u).owner := by
  rw [Function.update_of_ne hu]

/-- What a thief does in a deque does not show on the stack of its owner. -/
theorem view_foreign (sys : System σ W) (v : Fin W) (d : Deque.Config ℕ (Fin W))
    (howner : d.owner = (sys.deque v).owner) : (sys.setDeque v d).view = sys.view := by
  rw [view_update sys (sys.setDeque v d) v (fun _ _ => rfl) fun u hu => owner_update hu]
  refine Function.update_eq_iff.mpr ⟨?_, fun _ _ => rfl⟩
  simp only [setDeque, Function.update_self, howner, view]

/-- A worker goes to a point that does not depend on what happens in its own deque. -/
theorem view_steal (sys : System σ W) {d : Deque.Config ℕ (Fin W)} {x : Worker σ W} {y : View σ}
    (howner : d.owner = (sys.deque v).owner) (hx : ∀ number, x.view number = y) :
    ((sys.setDeque v d).goto w x).view = Function.update sys.view w y := by
  rw [← view_foreign sys v d howner, view_update (sys.setDeque v d) ((sys.setDeque v d).goto w x) w
    (fun u hu => Function.update_of_ne hu _ _) fun _ _ => rfl]
  simp only [goto, Function.update_self, hx]

/-- With two different workers there are more than one. -/
theorem one_lt_of_ne (h : v ≠ w) : 1 < W := by
  have hv := v.isLt
  have hw := w.isLt
  have hne : v.val ≠ w.val := fun heq => h (Fin.ext heq)
  omega

/-- The workers stay alone with their stacks. -/
theorem solo_update {worker : Fin W → Worker σ W} {x : Worker σ W} (h : ∀ u, (worker u).Solo)
    (hx : x.Solo) (u : Fin W) : (Function.update worker w x u).Solo := by
  by_cases hu : u = w
  · subst hu
    rwa [Function.update_self]
  · rw [Function.update_of_ne hu]
    exact h u

/-- The flags do not speak of jobs that are not done. -/
theorem Inv.flags_update (h : Inv T sys queues home status res) {j₀ : ℕ} {new : Status W}
    (hj₀ : status j₀ ≠ .finished) (j : ℕ) (hj : sys.done j = true) :
    Function.update status j₀ new j = .finished := by
  have hne : j ≠ j₀ := by
    rintro rfl
    exact hj₀ (h.flags j hj)
  rw [Function.update_of_ne hne]
  exact h.flags j hj

section Running

/-- A worker runs code: the program makes a step. -/
theorem Inv.run (h : Inv T sys queues home status res) {code : Code σ} {stack : Stack σ} {t : ℕ}
    {q q' : Prog σ Empty Unit} {rest : List (ℕ × Prog σ Empty Unit)} (s' : σ)
    (hrequest : (sys.worker w).request = none)
    (hlayout : Layout (Function.update sys.view w (some (code.prog, stack))) queues sys.count home status)
    (hold : (sys.view w).unwind res = (t, q) :: rest)
    (hnew : stack.unwind res code.prog = (t, q') :: rest)
    (hstep : ForkJoin.Step Empty.elim q sys.shared q' s') (hsolo : (sys.worker w).Solo → stack.Solo) :
    ∃ res', Inv T ({ sys with shared := s' }.goto w (.run code stack)) queues home status res' ∧
      Follows sys ({ sys with shared := s' }.goto w (.run code stack)) res res' := by
  obtain ⟨res', hmeaning, hmain⟩ := h.meaning.step hlayout (x := some (code.prog, stack)) hold hnew hstep
  have hview : ({ sys with shared := s' }.goto w (.run code stack)).view =
      Function.update sys.view w (some (code.prog, stack)) := by
    have heq :=
      view_update sys ({ sys with shared := s' }.goto w (.run code stack)) w
        (fun u hu => Function.update_of_ne hu _ _) fun _ _ => rfl
    simp only [goto, Function.update_self] at heq
    exact heq
  refine ⟨res', ⟨?_, by rw [hview]; exact hlayout, by rw [hview]; exact hmeaning, h.flags, ?_⟩, Or.inr hmain⟩
  · exact h.coupled.goto rfl hrequest fun _ _ _ ht => ht
  · exact fun hone => solo_update (h.solo hone) (hsolo (h.solo hone w))

/-- A worker runs an atomic step. -/
theorem Inv.stepAtom (h : Inv T sys queues home status res) {act : σ → σ} {next : σ → Code σ}
    {stack : Stack σ} (hw : sys.worker w = .run (.atom act next) stack) :
    ∃ res', Inv T ({ sys with shared := act sys.shared }.goto w (.run (next sys.shared) stack))
        queues home status res' ∧
      Follows sys ({ sys with shared := act sys.shared }.goto w (.run (next sys.shared) stack)) res res' := by
  have hview : sys.view w = some ((Code.atom act next).prog, stack) := by rw [view, hw]; rfl
  obtain ⟨q, q', rest, hold, hnew, hstep⟩ := Stack.unwind_step res stack
    (show ForkJoin.Step Empty.elim (Code.atom act next).prog sys.shared (next sys.shared).prog
      (act sys.shared) from ⟨rfl, rfl⟩)
  refine h.run (act sys.shared) (by rw [hw]; rfl) (h.layout.advance hview) ?_ hnew hstep ?_
  · rw [hview]
    exact hold
  · rw [hw]
    exact id

/-- The right branch that the worker has run itself is over. -/
theorem Inv.stepRightDone (h : Inv T sys queues home status res) {job : ℕ} {next : Code σ}
    {stack : Stack σ} (hw : sys.worker w = .run .done (.right job next stack)) :
    ∃ res', Inv T (sys.goto w (.run next stack)) queues home status res' ∧
      Follows sys (sys.goto w (.run next stack)) res res' := by
  have hview : sys.view w = some (ret (), .right job next stack) := by rw [view, hw]; rfl
  obtain ⟨q, q', rest, hold, hnew, hstep⟩ := Stack.unwind_step res stack
    (show ForkJoin.Step Empty.elim (fork (ret ()) (ret ()) fun _ _ => next.prog) sys.shared
      next.prog sys.shared from Or.inr (Or.inr ⟨(), (), rfl, rfl, rfl, rfl⟩))
  refine h.run sys.shared (by rw [hw]; rfl) (h.layout.returned hview) ?_ hnew hstep ?_
  · rw [hview]
    exact hold
  · rw [hw]
    exact id

/-- The right branch that another worker has run is over. -/
theorem Inv.stepJoined (h : Inv T sys queues home status res) {job : ℕ} {next : Code σ}
    {stack : Stack σ} (hw : sys.worker w = .seek (.waitFor job next stack)) (hdone : sys.done job) :
    ∃ res', Inv T (sys.goto w (.run next stack)) queues home status res' ∧
      Follows sys (sys.goto w (.run next stack)) res res' := by
  have hview : sys.view w = some (ret (), .left job true next stack) := by rw [view, hw]; rfl
  have hfinished := h.flags job hdone
  obtain ⟨q, q', rest, hold, hnew, hstep⟩ := Stack.unwind_step res stack
    (show ForkJoin.Step Empty.elim (fork (ret ()) (ret ()) fun _ _ => next.prog) sys.shared
      next.prog sys.shared from Or.inr (Or.inr ⟨(), (), rfl, rfl, rfl, rfl⟩))
  refine h.run sys.shared (by rw [hw]; rfl) (h.layout.join hview hfinished) ?_ hnew hstep ?_
  · rw [hview]
    change stack.unwind res (fork (ret ()) (res job) fun _ _ => next.prog) = _
    rw [h.meaning.finished job hfinished]
    exact hold
  · rw [hw]
    exact False.elim

end Running

section Stealing

/-- A worker goes on to another point with the same view of its stack. -/
theorem Inv.sameView (h : Inv T sys queues home status res) (hsame : sys'.view = sys.view)
    (hcoupled : Coupled T sys'.deque sys'.worker queues status) (hcount : sys'.count = sys.count)
    (hcode : sys'.code = sys.code) (hdone : sys'.done = sys.done) (hshared : sys'.shared = sys.shared)
    (hsolo : W = 1 → ∀ w, (sys'.worker w).Solo) :
    Inv T sys' queues home status res ∧ Follows sys sys' res res := by
  refine ⟨⟨hcoupled, ?_, ?_, ?_, hsolo⟩, Or.inl ⟨rfl, hshared⟩⟩
  · rw [hsame, hcount]
    exact h.layout
  · rw [hsame, hcode]
    exact h.meaning
  · rw [hdone]
    exact h.flags

/-- `parallel_do` constructs a job and starts to push it. -/
theorem Inv.stepParallelDo (h : Inv T sys queues home status res) {lf rf next : Code σ}
    {stack : Stack σ} {d : Deque.Config ℕ (Fin W)}
    (hw : sys.worker w = .run (.parallelDo lf rf next) stack)
    (hd : Deque.Config.Step T (.callPush sys.count) (sys.deque w) d) :
    ∃ home' status' res', Inv T (((sys.newJob rf).setDeque w d).goto w (.push sys.count lf next stack))
        queues home' status' res' ∧
      Follows sys (((sys.newJob rf).setDeque w d).goto w (.push sys.count lf next stack)) res res' := by
  obtain ⟨_, hrequest, hnumber, hthief, hledger⟩ := hd.callPush_effect
  have hview : sys.view w = some ((Code.parallelDo lf rf next).prog, stack) := by rw [view, hw]; rfl
  have hnew : (((sys.newJob rf).setDeque w d).goto w (.push sys.count lf next stack)).view =
      Function.update sys.view w (some (lf.prog, .left sys.count false next stack)) := by
    have heq := view_update sys (((sys.newJob rf).setDeque w d).goto w (.push sys.count lf next stack)) w
      (fun u hu => Function.update_of_ne hu _ _)
      (fun u hu => owner_update hu)
    simp only [goto, setDeque, newJob, Function.update_self, Worker.view, hnumber] at heq
    exact heq
  have hpos := h.layout.task_lt hview
  refine ⟨Function.update home sys.count w, Function.update status sys.count (.held w),
    Function.update res sys.count rf.prog, ⟨?_, ?_, ?_, ?_, ?_⟩,
    Or.inl ⟨Function.update_of_ne (by omega) _ _, rfl⟩⟩
  · have hcoupled := h.coupled.own_deque (.push sys.count lf next stack)
      (Function.update status sys.count (.held w)) ((h.coupled.reachable w).step hd)
      (by rw [hledger]; exact h.coupled.holds w) hrequest (fun _ _ _ _ hpop => by cases hpop) hthief
      (fun m j hj => by rwa [hledger]) fun j v u ht => ?_
    · rw [Function.update_eq_self] at hcoupled
      exact hcoupled
    · rwa [Status.update_other (h.layout.fresh sys.count le_rfl) (by rw [ht]; simp)]
  · rw [hnew]
    exact h.layout.fork hview
  · rw [hnew]
    exact h.meaning.fork h.layout hview
  · intro j hj
    have hne : j ≠ sys.count := by
      rintro rfl
      simp [goto, setDeque, newJob] at hj
    exact h.flags_update (by rw [h.layout.fresh sys.count le_rfl]; simp) j
      (by simpa [goto, setDeque, newJob, hne] using hj)
  · intro hone
    have hsolo := h.solo hone w
    rw [hw] at hsolo
    exact solo_update (h.solo hone) hsolo

/-- A push returns. -/
theorem Inv.stepPushed (h : Inv T sys queues home status res) {job : ℕ} {lf next : Code σ}
    {stack : Stack σ} {inDeque first : Bool} {d : Deque.Config ℕ (Fin W)}
    (hw : sys.worker w = .push job lf next stack)
    (hd : Deque.Config.Step T (.returnPush job (inDeque, first)) (sys.deque w) d) :
    Inv T ((sys.setDeque w d).goto w (.run lf (.left job inDeque next stack))) queues home status res ∧
      Follows sys ((sys.setDeque w d).goto w (.run lf (.left job inDeque next stack))) res res := by
  obtain ⟨_, hrequest, hnumber, hthief, hledger, hresult⟩ := (h.coupled.reachable w).returnPush hd
  have hflag : inDeque = (sys.deque w).owner.number.isSome := by
    cases inDeque with
    | true => exact (Option.isSome_iff_ne_none.mpr hresult).symm
    | false =>
      rw [show (sys.deque w).owner.number = none from hresult]
      rfl
  refine h.sameView ?_ ?_ rfl rfl rfl rfl ?_
  · rw [view_update sys ((sys.setDeque w d).goto w (.run lf (.left job inDeque next stack))) w
      (fun u hu => Function.update_of_ne hu _ _) fun u hu => owner_update hu]
    refine Function.update_eq_iff.mpr ⟨?_, fun _ _ => rfl⟩
    simp only [goto, setDeque, Function.update_self, view, hw, Worker.view, hflag]
  · have hcoupled := h.coupled.own_deque (.run lf (.left job inDeque next stack)) status
      ((h.coupled.reachable w).step hd) (by rw [hledger]; exact h.coupled.holds w) hrequest
      (fun _ _ _ _ hpop => by cases hpop) hthief (fun m j hj => by rwa [hledger]) fun _ _ _ ht => ht
    rw [Function.update_eq_self] at hcoupled
    exact hcoupled
  · intro hone
    have hsolo := h.solo hone w
    rw [hw] at hsolo
    exact solo_update (h.solo hone) hsolo

/-- The left branch is over and the worker looks for the job of the right branch. -/
theorem Inv.stepLeftDone (h : Inv T sys queues home status res) {job : ℕ} {next : Code σ}
    {stack : Stack σ} {d : Deque.Config ℕ (Fin W)}
    (hw : sys.worker w = .run .done (.left job true next stack))
    (hd : Deque.Config.Step T .callPop (sys.deque w) d) :
    Inv T ((sys.setDeque w d).goto w (.pop job next stack)) queues home status res ∧
      Follows sys ((sys.setDeque w d).goto w (.pop job next stack)) res res := by
  obtain ⟨_, hrequest, hnumber, hthief, hledger⟩ := hd.callPop_effect
  refine h.sameView ?_ ?_ rfl rfl rfl rfl ?_
  · rw [view_update sys ((sys.setDeque w d).goto w (.pop job next stack)) w
      (fun u hu => Function.update_of_ne hu _ _) fun u hu => owner_update hu]
    refine Function.update_eq_iff.mpr ⟨?_, fun _ _ => rfl⟩
    simp only [goto, setDeque, Function.update_self, view, hw, Worker.view, hnumber]
    rfl
  · have hcoupled := h.coupled.own_deque (.pop job next stack) status
      ((h.coupled.reachable w).step hd) (by rw [hledger]; exact h.coupled.holds w) hrequest
      (fun _ _ _ _ _ hm => by rw [hnumber] at hm; cases hm) hthief (fun m j hj => by rwa [hledger])
      fun _ _ _ ht => ht
    rw [Function.update_eq_self] at hcoupled
    exact hcoupled
  · intro hone
    have hsolo := h.solo hone w
    rw [hw] at hsolo
    exact solo_update (h.solo hone) hsolo

/-- The job of the right branch is gone and the worker waits for it. -/
theorem Inv.stepMissed (h : Inv T sys queues home status res) {job : ℕ} {next : Code σ}
    {stack : Stack σ} {d : Deque.Config ℕ (Fin W)} (hw : sys.worker w = .pop job next stack)
    (hd : Deque.Config.Step T (.returnPop false) (sys.deque w) d) :
    Inv T ((sys.setDeque w d).goto w (.seek (.waitFor job next stack))) queues home status res ∧
      Follows sys ((sys.setDeque w d).goto w (.seek (.waitFor job next stack))) res res := by
  obtain ⟨_, hrequest, hnumber, hthief, hledger, hold, hitems⟩ := (h.coupled.reachable w).returnPop hd
  have hview : sys.view w = some (ret (), .left job true next stack) := by
    rw [view, hw, hold]
    rfl
  have halone := h.layout.missed hview (((h.coupled.holds w).eq_nil_iff).mp hitems)
  refine h.sameView ?_ ?_ rfl rfl rfl rfl fun hone => by omega
  · rw [view_update sys ((sys.setDeque w d).goto w (.seek (.waitFor job next stack))) w
      (fun u hu => Function.update_of_ne hu _ _) fun u hu => owner_update hu]
    refine Function.update_eq_iff.mpr ⟨?_, fun _ _ => rfl⟩
    rw [hview]
    simp only [goto, setDeque, Function.update_self, Worker.view, StealLoop.view]
  · have hcoupled := h.coupled.own_deque (.seek (.waitFor job next stack)) status
      ((h.coupled.reachable w).step hd) (by rw [hledger]; exact h.coupled.holds w) hrequest
      (fun _ _ _ _ hpop => by cases hpop) hthief (fun m j hj => by rwa [hledger]) fun _ _ _ ht => ht
    rw [Function.update_eq_self] at hcoupled
    exact hcoupled

/-- The worker runs a right branch itself. -/
theorem Inv.stepInline (h : Inv T sys queues home status res) {job : ℕ} {next : Code σ}
    {stack : Stack σ} (hw : sys.view w = some (ret (), .left job false next stack))
    (hnew : sys'.view = Function.update sys.view w (some ((sys.code job).prog, .right job next stack)))
    (hcoupled : status job = .held w →
      Coupled T sys'.deque sys'.worker queues (Function.update status job .settled))
    (hcount : sys'.count = sys.count) (hcode : sys'.code = sys.code) (hdone : sys'.done = sys.done)
    (hshared : sys'.shared = sys.shared) (hsolo : W = 1 → ∀ w, (sys'.worker w).Solo) :
    ∃ status', Inv T sys' queues home status' res ∧ Follows sys sys' res res := by
  obtain ⟨hheld, hlayout⟩ := h.layout.inline (sys.code job).prog hw
  have hres : res job = (sys.code job).prog := h.meaning.code job (by rw [hheld]; trivial)
  refine ⟨_, ⟨hcoupled hheld, ?_, ?_, ?_, hsolo⟩, Or.inl ⟨rfl, hshared⟩⟩
  · rw [hnew, hcount]
    exact hlayout
  · rw [hnew, hcode]
    refine h.meaning.silent _ _ False.elim (fun hj => by cases hj) fun e he => Or.inl ?_
    rw [hw]
    change e ∈ stack.unwind res (fork (ret ()) (res job) fun _ _ => next.prog)
    rw [hres]
    exact he
  · rw [hdone]
    exact h.flags_update (by rw [hheld]; simp)

/-- The worker runs a right branch whose push has been refused. -/
theorem Inv.stepRefused (h : Inv T sys queues home status res) {job : ℕ} {next : Code σ}
    {stack : Stack σ} (hw : sys.worker w = .run .done (.left job false next stack)) :
    ∃ status', Inv T (sys.goto w (.run (sys.code job) (.right job next stack))) queues home status' res ∧
      Follows sys (sys.goto w (.run (sys.code job) (.right job next stack))) res res := by
  have hview : sys.view w = some (ret (), .left job false next stack) := by rw [view, hw]; rfl
  refine h.stepInline hview ?_ (fun hheld => ?_) rfl rfl rfl rfl fun hone => ?_
  · rw [view_update sys (sys.goto w (.run (sys.code job) (.right job next stack))) w
      (fun u hu => Function.update_of_ne hu _ _) fun _ _ => rfl]
    simp only [goto, Function.update_self, Worker.view]
  · refine h.coupled.goto rfl (by rw [hw]; rfl) fun j v u ht => ?_
    rwa [Status.update_other hheld (by rw [ht]; simp)]
  · have hsolo := h.solo hone w
    rw [hw] at hsolo
    exact solo_update (h.solo hone) hsolo

/-- The worker runs a right branch that it has taken back. -/
theorem Inv.stepPopped (h : Inv T sys queues home status res) {job : ℕ} {next : Code σ}
    {stack : Stack σ} {d : Deque.Config ℕ (Fin W)} (hw : sys.worker w = .pop job next stack)
    (hd : Deque.Config.Step T (.returnPop true) (sys.deque w) d) :
    ∃ status', Inv T ((sys.setDeque w d).goto w (.run (sys.code job) (.right job next stack)))
        queues home status' res ∧
      Follows sys ((sys.setDeque w d).goto w (.run (sys.code job) (.right job next stack))) res res := by
  obtain ⟨_, hrequest, hnumber, hthief, hledger, hold⟩ := (h.coupled.reachable w).returnPop hd
  obtain ⟨m, hm⟩ := Option.ne_none_iff_exists'.mp hold
  have hview : sys.view w = some (ret (), .left job false next stack) := by
    rw [view, hw, hm]
    rfl
  refine h.stepInline hview ?_ (fun hheld => ?_) rfl rfl rfl rfl fun hone => ?_
  · rw [view_update sys ((sys.setDeque w d).goto w (.run (sys.code job) (.right job next stack))) w
      (fun u hu => Function.update_of_ne hu _ _) fun u hu => owner_update hu]
    simp only [goto, setDeque, Function.update_self, Worker.view]
  · have hcoupled := h.coupled.own_deque (.run (sys.code job) (.right job next stack))
      (Function.update status job .settled) ((h.coupled.reachable w).step hd)
      (by rw [hledger]; exact h.coupled.holds w) hrequest (fun _ _ _ _ hpop => by cases hpop) hthief
      (fun m j hj => by rwa [hledger]) fun j v u ht => ?_
    · rw [Function.update_eq_self] at hcoupled
      exact hcoupled
    · rwa [Status.update_other hheld (by rw [ht]; simp)]
  · have hsolo := h.solo hone w
    rw [hw] at hsolo
    exact solo_update (h.solo hone) hsolo

/-- A step inside the call of a worker on its own deque. -/
theorem Inv.stepOwner (h : Inv T sys queues home status res) {d : Deque.Config ℕ (Fin W)}
    (hd : Deque.Config.Step T .stepOwner (sys.deque w) d) :
    ∃ queues' status', Inv T (sys.setDeque w d) queues' home status' res ∧
      Follows sys (sys.setDeque w d) res res := by
  obtain ⟨hrequest, hthief, hmove⟩ := (h.coupled.reachable w).stepOwner hd
  have hreach := (h.coupled.reachable w).step hd
  have hrequest' : d.owner.request = (sys.worker w).request := hrequest.trans (h.coupled.request w)
  have hview := view_update sys (sys.setDeque w d) w (fun _ _ => rfl) fun u hu => owner_update hu
  simp only [setDeque, Function.update_self] at hview
  have hworkers : Function.update sys.worker w (sys.worker w) = sys.worker := Function.update_eq_self _ _
  rcases hmove with ⟨hnumber, hledger⟩ | ⟨job, hpush, hnone, hnumber, hledger⟩ |
    ⟨hpop, hnone, hnumber, hledger⟩
  · -- The call has only looked at the deque or touched a slot.
    refine ⟨queues, status, h.sameView ?_ ?_ rfl rfl rfl rfl h.solo⟩
    · refine hview.trans (Function.update_eq_iff.mpr ⟨?_, fun _ _ => rfl⟩)
      rw [hnumber]
      rfl
    · have hcoupled := h.coupled.own_deque (sys.worker w) status hreach
        (by rw [hledger]; exact h.coupled.holds w) hrequest' (fun job next stack m hpop hm => ?_) hthief
        (fun m j hj => by rwa [hledger]) fun _ _ _ ht => ht
      · simp only [Function.update_eq_self] at hcoupled
        exact hcoupled
      · rw [hledger]
        exact h.coupled.own w job next stack m hpop (hnumber ▸ hm)
  · -- The push becomes visible.
    rw [h.coupled.request] at hpush
    obtain ⟨lf, next, stack, hw⟩ : ∃ lf next stack, sys.worker w = .push job lf next stack := by
      cases hw : sys.worker w <;> rw [hw] at hpush <;> cases hpush
      exact ⟨_, _, _, rfl⟩
    have hold : sys.view w = some (lf.prog, .left job false next stack) := by
      rw [view, hw, hnone]
      rfl
    have hheld : status job = .held w :=
      (h.layout.tidy w).withheld job (by rw [hold]; exact List.mem_cons_self)
    rw [hw, hnumber] at hview
    refine ⟨Function.update queues w (queues w ++ [job]), Function.update status job (.queued w),
      ⟨?_, ?_, ?_, h.flags_update (by rw [hheld]; simp), h.solo⟩, Or.inl ⟨rfl, rfl⟩⟩
    · have hcoupled := h.coupled.own_deque (sys.worker w) (Function.update status job (.queued w)) hreach
        (by rw [hledger]; exact (h.coupled.holds w).push job) hrequest'
        (fun _ _ _ _ hpop => by rw [hw] at hpop; cases hpop) hthief
        (fun m j hj => by rw [hledger]; exact Deque.Ledger.pushed_push job m j hj) fun j v u ht => ?_
      · rw [hworkers] at hcoupled
        exact hcoupled
      · rwa [Status.update_other hheld (by rw [ht]; simp)]
    · rw [show (sys.setDeque w d).view = _ from hview]
      exact h.layout.publish hold
    · rw [show (sys.setDeque w d).view = _ from hview]
      refine h.meaning.silent _ _ (fun _ => by rw [hheld]; trivial) (fun hj => by cases hj)
        fun e he => Or.inl ?_
      rw [hold]
      exact he
  · -- The pop takes the last item, if there is one.
    rw [h.coupled.request] at hpop
    obtain ⟨job, next, stack, hw⟩ : ∃ job next stack, sys.worker w = .pop job next stack := by
      cases hw : sys.worker w <;> rw [hw] at hpop <;> cases hpop
      exact ⟨_, _, _, rfl⟩
    have hold : sys.view w = some (ret (), .left job true next stack) := by
      rw [view, hw, hnone]
      rfl
    have hholds := (h.coupled.holds w).popBottom
    cases hlast : (sys.deque w).ledger.items.getLast? with
    | none =>
      rw [hlast] at hnumber
      have hqueue : queues w = [] := by
        rw [← (h.coupled.holds w).eq_nil_iff]
        exact List.getLast?_eq_none_iff.mp hlast
      refine ⟨queues, status, h.sameView ?_ ?_ rfl rfl rfl rfl h.solo⟩
      · refine hview.trans (Function.update_eq_iff.mpr ⟨?_, fun _ _ => rfl⟩)
        rw [hnumber, ← hnone]
        rfl
      · have hcoupled := h.coupled.own_deque (sys.worker w) status hreach
          (by rw [hledger]; exact hholds) hrequest'
          (fun _ _ _ m _ hm => by rw [hnumber] at hm; cases hm) hthief
          (fun m j hj => by rw [hledger]; exact hj) fun _ _ _ ht => ht
        rw [hqueue, List.dropLast_nil, ← hqueue] at hcoupled
        simp only [Function.update_eq_self] at hcoupled
        exact hcoupled
    | some m =>
      rw [hlast] at hnumber
      obtain ⟨i, hi, hpushed⟩ := (h.coupled.holds w).getLast? hlast
      have hqueue : queues w = (queues w).dropLast ++ [i] := (List.dropLast_append_getLast? i hi).symm
      obtain ⟨rfl, hlayout⟩ := h.layout.withdraw hold hqueue
      have hqueued : status i = .queued w :=
        (h.layout.tidy w).queued i (by rw [hqueue]; exact List.mem_append_right _ List.mem_cons_self)
      rw [hw, hnumber] at hview
      refine ⟨Function.update queues w (queues w).dropLast, Function.update status i (.held w),
        ⟨?_, ?_, ?_, h.flags_update (by rw [hqueued]; simp), h.solo⟩, Or.inl ⟨rfl, rfl⟩⟩
      · have hcoupled := h.coupled.own_deque (sys.worker w) (Function.update status i (.held w)) hreach
          (by rw [hledger]; exact hholds) hrequest' (fun job next stack m' hpop hm => ?_) hthief
          (fun m j hj => by rw [hledger]; exact hj) fun j v u ht => ?_
        · rw [hworkers] at hcoupled
          exact hcoupled
        · rw [hw] at hpop
          cases hpop
          rw [hnumber] at hm
          rw [hledger, ← Option.some.inj hm]
          exact hpushed
        · rwa [Status.update_other hqueued (by rw [ht]; simp)]
      · rw [show (sys.setDeque w d).view = _ from hview]
        exact hlayout
      · rw [show (sys.setDeque w d).view = _ from hview]
        refine h.meaning.silent _ _ (fun _ => by rw [hqueued]; trivial) (fun hj => by cases hj)
          fun e he => Or.inl ?_
        rw [hold]
        exact he

/-- A step inside the call of a thief. -/
theorem Inv.stepThief (h : Inv T sys queues home status res) {d : Deque.Config ℕ (Fin W)}
    (hd : Deque.Config.Step T (.stepThief w) (sys.deque v) d) :
    ∃ queues' status', Inv T (sys.setDeque v d) queues' home status' res ∧
      Follows sys (sys.setDeque v d) res res := by
  obtain ⟨howner, hthief, hbusy, hbusy', hmove⟩ := (h.coupled.reachable v).stepThief hd
  have hreach := (h.coupled.reachable v).step hd
  have halone := h.coupled.busy v w hbusy
  have hview := view_foreign sys v d howner
  rcases hmove with ⟨hnumber, hledger⟩ | ⟨m, hm, hnone, hnumber, hledger⟩
  · refine ⟨queues, status, h.sameView hview ?_ rfl rfl rfl rfl h.solo⟩
    have hcoupled := h.coupled.foreign_deque status hreach
      (by rw [hledger]; exact h.coupled.holds v) howner (by rw [hledger]) halone (fun u m hum => ?_)
      fun _ _ _ _ ht => ht
    · simp only [Function.update_eq_self] at hcoupled
      exact hcoupled
    · refine h.coupled.taken v u m ?_
      by_cases hu : u = w
      · subst hu
        rwa [← hnumber]
      · rwa [← hthief u hu]
  · obtain ⟨i, hi, hpushed⟩ := (h.coupled.holds v).head? hm
    obtain ⟨queue, hqueue⟩ : ∃ queue, queues v = i :: queue := by
      cases hq : queues v with
      | nil => rw [hq] at hi; cases hi
      | cons j queue =>
        rw [hq] at hi
        cases hi
        exact ⟨queue, rfl⟩
    obtain ⟨hqueued, hlayout⟩ := h.layout.steal w hqueue halone
    refine ⟨Function.update queues v queue, Function.update status i (.taken v w),
      ⟨?_, ?_, ?_, h.flags_update (by rw [hqueued]; simp), h.solo⟩, Or.inl ⟨rfl, rfl⟩⟩
    · refine h.coupled.foreign_deque _ hreach ?_ howner (by rw [hledger]; rfl) halone
        (fun u m' hum => ?_) fun j v' u _ ht => ?_
      · have := (h.coupled.holds v).popTop
        rw [hqueue] at this
        rw [hledger]
        exact this
      · by_cases hu : u = w
        · subst hu
          rw [hnumber] at hum
          exact ⟨i, by rw [← Option.some.inj hum]; exact hpushed, Function.update_self _ _ _⟩
        · rw [hthief u hu] at hum
          obtain ⟨job, hjob, htaken⟩ := h.coupled.taken v u m' hum
          exact ⟨job, hjob, by rwa [Status.update_other hqueued (by rw [htaken]; simp)]⟩
      · rwa [Status.update_other hqueued (by rw [ht]; simp)]
    · rw [hview]
      exact hlayout
    · rw [hview]
      have hmeaning := h.meaning.silent (w := v) (x := sys.view v) i (.taken v w)
        (fun _ => by rw [hqueued]; trivial) (fun hj => by cases hj) fun e he => Or.inl he
      rwa [Function.update_eq_self] at hmeaning

/-- A thief starts a call on the deque of another worker. -/
theorem Inv.stepAim (h : Inv T sys queues home status res) {loop : StealLoop σ}
    {d : Deque.Config ℕ (Fin W)} (hw : sys.worker w = .seek loop) (hv : v ≠ w)
    (hd : Deque.Config.Step T (.callTop w) (sys.deque v) d) :
    Inv T ((sys.setDeque v d).goto w (.probe loop v)) queues home status res ∧
      Follows sys ((sys.setDeque v d).goto w (.probe loop v)) res res := by
  obtain ⟨howner, hthief, hbusy, hnumber, hledger⟩ := hd.callTop_effect
  have halone := one_lt_of_ne hv
  have hview : sys.view w = loop.view := by rw [view, hw]; rfl
  have hsame := (view_steal (w := w) (x := .probe loop v) sys howner fun _ => rfl).trans
    (Function.update_eq_iff.mpr ⟨hview.symm, fun _ _ => rfl⟩)
  refine h.sameView hsame ?_ rfl rfl rfl rfl fun hone => by omega
  have hcoupled := (h.coupled.foreign_deque status ((h.coupled.reachable v).step hd)
    (by rw [hledger]; exact h.coupled.holds v) howner (by rw [hledger]) halone (fun u m hum => ?_)
    fun _ _ _ _ ht => ht).goto (w := w) (x := .probe loop v) rfl (by rw [hw]; rfl) fun _ _ _ ht => ht
  · simp only [Function.update_eq_self] at hcoupled
    exact hcoupled
  · have hu : u ≠ w := by
      rintro rfl
      rw [hnumber] at hum
      cases hum
    rw [hthief u hu] at hum
    exact h.coupled.taken v u m hum

/-- A thief has found nothing. -/
theorem Inv.stepFailed (h : Inv T sys queues home status res) {loop : StealLoop σ} {empty : Bool}
    {d : Deque.Config ℕ (Fin W)} (hw : sys.worker w = .probe loop v)
    (hd : Deque.Config.Step T (.returnTop w (none, empty)) (sys.deque v) d) :
    Inv T ((sys.setDeque v d).goto w (.seek loop)) queues home status res ∧
      Follows sys ((sys.setDeque v d).goto w (.seek loop)) res res := by
  obtain ⟨howner, hthief, hbusy, hbusy', hledger, _⟩ := (h.coupled.reachable v).returnTop hd
  have halone := h.coupled.busy v w hbusy
  have hview : sys.view w = loop.view := by rw [view, hw]; rfl
  have hsame := (view_steal (w := w) (x := .seek loop) sys howner fun _ => rfl).trans
    (Function.update_eq_iff.mpr ⟨hview.symm, fun _ _ => rfl⟩)
  refine h.sameView hsame ?_ rfl rfl rfl rfl fun hone => by omega
  have hcoupled := (h.coupled.foreign_deque status ((h.coupled.reachable v).step hd)
    (by rw [hledger]; exact h.coupled.holds v) howner (by rw [hledger]) halone (fun u m hum => ?_)
    fun _ _ _ _ ht => ht).goto (w := w) (x := .seek loop) rfl (by rw [hw]; rfl) fun _ _ _ ht => ht
  · simp only [Function.update_eq_self] at hcoupled
    exact hcoupled
  · have hu : u ≠ w := by
      rintro rfl
      rw [Deque.ThiefCall.number_eq_none hbusy'] at hum
      cases hum
    rw [hthief u hu] at hum
    exact h.coupled.taken v u m hum

/-- A thief starts the job that it has taken. -/
theorem Inv.stepStole (h : Inv T sys queues home status res) {loop : StealLoop σ} {job : ℕ}
    {empty : Bool} {d : Deque.Config ℕ (Fin W)} (hw : sys.worker w = .probe loop v)
    (hd : Deque.Config.Step T (.returnTop w (some job, empty)) (sys.deque v) d) :
    ∃ status', Inv T ((sys.setDeque v d).goto w (.run (sys.code job) (loop.execute job)))
        queues home status' res ∧
      Follows sys ((sys.setDeque v d).goto w (.run (sys.code job) (loop.execute job))) res res := by
  obtain ⟨howner, hthief, hbusy, hbusy', hledger, hdealt⟩ := (h.coupled.reachable v).returnTop hd
  have halone := h.coupled.busy v w hbusy
  have hview : sys.view w = loop.view := by rw [view, hw]; rfl
  obtain ⟨m, hm, hpushed⟩ := hdealt job rfl
  obtain ⟨job', hjob', htaken⟩ := h.coupled.taken v w m hm
  obtain rfl : job' = job := Option.some.inj (hjob'.symm.trans hpushed)
  have hres : res job' = (sys.code job').prog := h.meaning.code job' (by rw [htaken]; trivial)
  have hnew := view_steal (w := w) sys (x := .run (sys.code job') (loop.execute job')) howner fun _ => rfl
  refine ⟨Function.update status job' (.running w), ⟨?_, ?_, ?_,
    h.flags_update (by rw [htaken]; simp), fun hone => by omega⟩, Or.inl ⟨rfl, rfl⟩⟩
  · have hcoupled := (h.coupled.foreign_deque (Function.update status job' (.running w))
      ((h.coupled.reachable v).step hd) (by rw [hledger]; exact h.coupled.holds v) howner
      (by rw [hledger]) halone (fun u m' hum => ?_) fun j v' u hne ht => ?_).goto (w := w)
      (x := .run (sys.code job') (loop.execute job')) rfl (by rw [hw]; rfl) fun _ _ _ ht => ht
    · simp only [Function.update_eq_self] at hcoupled
      exact hcoupled
    · have hu : u ≠ w := by
        rintro rfl
        rw [Deque.ThiefCall.number_eq_none hbusy'] at hum
        cases hum
      rw [hthief u hu] at hum
      obtain ⟨j, hj, ht⟩ := h.coupled.taken v u m' hum
      refine ⟨j, hj, ?_⟩
      rwa [Status.update_other htaken (by rw [ht]; simp [hu])]
    · rwa [Status.update_other htaken (by rw [ht]; simp [hne])]
  · rw [hnew]
    exact h.layout.start loop hview htaken
  · rw [hnew]
    refine h.meaning.silent _ _ False.elim (fun hj => by cases hj) fun e he => ?_
    rw [hview]
    cases loop with
    | idle =>
      obtain rfl := List.mem_singleton.mp he
      exact Or.inr hres
    | waitFor i next below =>
      rcases List.mem_cons.mp he with rfl | he
      · exact Or.inr hres
      · exact Or.inl he

/-- A worker has executed a job: its flag is set. -/
theorem Inv.stepExecuted (h : Inv T sys queues home status res) {loop : StealLoop σ} {job : ℕ}
    (hw : sys.worker w = .run .done (loop.execute job)) :
    ∃ status', Inv T ((sys.finish job).goto w (.seek loop)) queues home status' res ∧
      Follows sys ((sys.finish job).goto w (.seek loop)) res res := by
  have hview : sys.view w = some (ret (), loop.execute job) := by rw [view, hw]; rfl
  obtain ⟨hrunning, hlayout⟩ := h.layout.finish loop hview
  have hnew : ((sys.finish job).goto w (.seek loop)).view = Function.update sys.view w loop.view := by
    rw [view_update sys ((sys.finish job).goto w (.seek loop)) w
      (fun u hu => Function.update_of_ne hu _ _) fun _ _ => rfl]
    simp only [goto, finish, Function.update_self, Worker.view]
  refine ⟨Function.update status job .finished, ⟨?_, ?_, ?_, fun j hj => ?_, fun hone => ?_⟩,
    Or.inl ⟨rfl, rfl⟩⟩
  · refine h.coupled.goto rfl (by rw [hw]; rfl) fun j v u ht => ?_
    rwa [Status.update_other hrunning (by rw [ht]; simp)]
  · rw [hnew]
    exact hlayout
  · rw [hnew]
    refine h.meaning.silent _ _ False.elim (fun _ => ?_) fun e he => Or.inl ?_
    · refine h.meaning.solves w (job, ret ()) ?_
      rw [hview]
      cases loop <;> exact List.mem_cons_self
    · rw [hview]
      cases loop with
      | idle => cases he
      | waitFor i next below => exact List.mem_cons_of_mem _ he
  · by_cases hjob : j = job
    · rw [hjob, Function.update_self]
    · rw [Function.update_of_ne hjob]
      refine h.flags j ?_
      simpa [goto, finish, hjob] using hj
  · have hsolo := h.solo hone w
    rw [hw] at hsolo
    cases loop <;> exact hsolo.elim

end Stealing

section Runs

/-- Before the first step the program runs on worker 0. -/
theorem Inv.init [NeZero W] (main : Code σ) (s : σ) :
    Inv T (System.init main s : System σ W) (fun _ => []) (fun _ => 0)
      (Function.update (fun _ => .settled) 0 (.running 0)) fun _ => main.prog := by
  have hview : (System.init main s : System σ W).view =
      Function.update (fun _ => none) (0 : Fin W) (some (main.prog, Stack.main)) := by
    funext u
    by_cases hu : u = 0
    · subst hu
      simp only [System.view, System.init, Function.update_self]
      rfl
    · simp only [System.view, System.init, Function.update_of_ne hu]
      rfl
  have hnone (w : Fin W) : Tidy w (none : View σ) [] 1 (fun _ => (0 : Fin W))
      (Function.update (fun _ => .settled) 0 (.running 0)) :=
    ⟨List.nodup_nil, fun _ he => (List.not_mem_nil he).elim, List.nodup_nil,
      fun _ he => (List.not_mem_nil he).elim, ⟨[], rfl, fun _ he => (List.not_mem_nil he).elim⟩,
      fun _ he => (List.not_mem_nil he).elim, fun _ he => (List.not_mem_nil he).elim⟩
  have hidle (j : ℕ) (hj : j ≠ 0) :
      Function.update (fun _ => Status.settled) 0 (.running (0 : Fin W)) j = .settled :=
    Function.update_of_ne hj _ _
  refine ⟨⟨fun _ => .init, fun _ => Deque.Ledger.Holds.init, fun w => ?_, fun w _ _ _ _ _ hm => (by cases hm),
    fun v w m hm => (by cases hm), fun v w hbusy => (by cases hbusy)⟩, ⟨fun w => ?_, fun j hj => ?_,
    fun t ht hlive => ?_, fun t ht hstolen => ?_⟩, ⟨fun _ _ => rfl, fun j hj => ?_, fun w e he => ?_⟩,
    fun j hj => (by cases hj), fun _ w => ?_⟩
  · by_cases hw : w = 0
    · subst hw
      simp only [System.init, Function.update_self]
      rfl
    · simp only [System.init, Function.update_of_ne hw]
      rfl
  · rw [hview]
    by_cases hw : w = 0
    · subst hw
      rw [Function.update_self]
      refine ⟨List.nodup_nil, (hnone 0).home, List.nodup_singleton 0, fun t ht => ?_,
        (hnone 0).published, (hnone 0).queued, (hnone 0).withheld⟩
      rw [List.mem_singleton.mp ht, Function.update_self]
    · rw [Function.update_of_ne hw]
      exact hnone w
  · exact hidle j (Nat.one_le_iff_ne_zero.mp hj)
  · rw [hidle t ht] at hlive
    exact hlive.elim
  · rw [hidle t ht] at hstolen
    exact hstolen.elim
  · by_cases hj0 : j = 0
    · subst hj0
      rw [Function.update_self] at hj
      cases hj
    · rw [hidle j hj0] at hj
      cases hj
  · rw [hview] at he
    by_cases hw : w = 0
    · subst hw
      rw [Function.update_self] at he
      obtain rfl := List.mem_singleton.mp he
      rfl
    · rw [Function.update_of_ne hw] at he
      cases he
  · by_cases hw : w = 0
    · subst hw
      simp only [System.init, Function.update_self]
      trivial
    · simp only [System.init, Function.update_of_ne hw]
      trivial

/-- Each step of a worker keeps the invariant and is at most one step of the program. -/
theorem Inv.step (h : Inv T sys queues home status res) (hstep : Step T sys sys') :
    ∃ queues' home' status' res', Inv T sys' queues' home' status' res' ∧ Follows sys sys' res res' := by
  cases hstep with
  | atom hw =>
    obtain ⟨res', hnext⟩ := h.stepAtom hw
    exact ⟨_, _, _, res', hnext⟩
  | parallelDo hw hd =>
    obtain ⟨home', status', res', hnext⟩ := h.stepParallelDo hw hd
    exact ⟨_, home', status', res', hnext⟩
  | stepOwner hd =>
    obtain ⟨queues', status', hnext⟩ := h.stepOwner hd
    exact ⟨queues', _, status', _, hnext⟩
  | stepThief hd =>
    obtain ⟨queues', status', hnext⟩ := h.stepThief hd
    exact ⟨queues', _, status', _, hnext⟩
  | pushed hw hd => exact ⟨_, _, _, _, h.stepPushed hw hd⟩
  | refused hw =>
    obtain ⟨status', hnext⟩ := h.stepRefused hw
    exact ⟨_, _, status', _, hnext⟩
  | leftDone hw hd => exact ⟨_, _, _, _, h.stepLeftDone hw hd⟩
  | popped hw hd =>
    obtain ⟨status', hnext⟩ := h.stepPopped hw hd
    exact ⟨_, _, status', _, hnext⟩
  | missed hw hd => exact ⟨_, _, _, _, h.stepMissed hw hd⟩
  | rightDone hw =>
    obtain ⟨res', hnext⟩ := h.stepRightDone hw
    exact ⟨_, _, _, res', hnext⟩
  | joined hw hdone =>
    obtain ⟨res', hnext⟩ := h.stepJoined hw hdone
    exact ⟨_, _, _, res', hnext⟩
  | aim hw _ hv hd => exact ⟨_, _, _, _, h.stepAim hw hv hd⟩
  | stole hw hd =>
    obtain ⟨status', hnext⟩ := h.stepStole hw hd
    exact ⟨_, _, status', _, hnext⟩
  | failed hw hd => exact ⟨_, _, _, _, h.stepFailed hw hd⟩
  | executed hw =>
    obtain ⟨status', hnext⟩ := h.stepExecuted hw
    exact ⟨_, _, status', _, hnext⟩

/-- In every reachable state the invariant holds, and the shared state is one that the fork–join
program reaches. -/
theorem Reachable.simulates [NeZero W] {main : Code σ} {s : σ} {sys : System σ W}
    (hreach : Reachable T main s sys) :
    ∃ queues home status res, Inv T sys queues home status res ∧
      Steps Empty.elim main.prog s (res 0) sys.shared := by
  induction hreach with
  | init => exact ⟨_, _, _, _, Inv.init main s, Steps.refl _ _⟩
  | step _ hstep ih =>
    obtain ⟨queues, home, status, res, hinv, hsteps⟩ := ih
    obtain ⟨queues', home', status', res', hinv', hfollows⟩ := hinv.step hstep
    refine ⟨queues', home', status', res', hinv', ?_⟩
    rcases hfollows with ⟨hres, hshared⟩ | hprog
    · rw [hres, hshared]
      exact hsteps
    · exact hsteps.tail hprog

/-- A program that has returned has nothing left to do. -/
theorem Inv.returned (h : Inv T sys queues home status res) (hw : sys.worker w = .run .done .main) :
    res 0 = ret () := by
  refine h.meaning.solves w (0, ret ()) ?_
  rw [view, hw]
  exact List.mem_cons_self

/-- A pop that has taken a job has taken the job of its own `parallel_do`. -/
theorem Inv.popped_own (h : Inv T sys queues home status res) {job : ℕ} {next : Code σ}
    {stack : Stack σ} {number : Option ℕ} (hw : sys.worker w = .pop job next stack)
    (hcall : (sys.deque w).owner = .pop (ret true) number) :
    ∃ m, number = some m ∧ (sys.deque w).ledger.pushed[m]? = some job := by
  obtain ⟨_, _, _, _, _, hold⟩ := (h.coupled.reachable w).returnPop (.returnPop hcall)
  obtain ⟨m, hm⟩ := Option.ne_none_iff_exists'.mp hold
  refine ⟨m, ?_, h.coupled.own w job next stack m hw hm⟩
  rw [hcall] at hm
  exact hm

end Runs

end System

end ToggleTree
