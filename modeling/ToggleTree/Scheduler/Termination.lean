import ToggleTree.Parallel.Fairness
import ToggleTree.Scheduler.Progress
import ToggleTree.Scheduler.Weight

/-!
# Every fair run of the scheduler ends

No step makes the weight of a state larger, and a step that makes progress makes it smaller. The
scheduler is never without a thread that makes progress soon, so the program ends in every run in which
no thread is neglected for ever. Whom the thieves choose and what they find does not matter.
-/

namespace ToggleTree

open ForkJoin ForkJoin.Prog

variable {σ : Type} {W : ℕ}

/-- The main code is a task of a rooted stack. -/
theorem Stack.zero_mem_tasks (st : Stack σ) (h : st.Rooted) : 0 ∈ st.tasks := by
  induction st with
  | main => exact List.mem_singleton_self 0
  | spawned job => exact h.elim
  | left job b next below ih => exact ih h
  | right job next below ih => exact ih h
  | waiting stolen job next below ih => exact List.mem_cons_of_mem stolen (ih h)

namespace System

variable {T : DequeType} {sys sys' : System σ W} {queues : Fin W → List ℕ} {home : ℕ → Fin W}
  {status : ℕ → Status W} {res : ℕ → Prog σ Empty Unit} {w v : Fin W} {j : ℕ} {news : Bool}

/-- The step makes the state lighter, or it makes no progress and no difference. -/
def Eases (w : Fin W) (sys sys' : System σ W) : Prop :=
  sys'.Lighter sys ∨ ¬sys.Advances w ∧ sys'.weight = sys.weight

section Started

/-- A job that its worker has not published is pending. -/
theorem Inv.pending_withheld (h : Inv T sys queues home status res) (hj : j ∈ (sys.view w).withheld) :
    sys.Pending j := by
  have hheld := (h.layout.tidy w).withheld j hj
  refine ⟨⟨w, ?_⟩, ?_, fun u hu => ?_⟩
  · cases hview : sys.view w with
    | none =>
      rw [hview] at hj
      cases hj
    | some y =>
      rw [hview] at hj
      exact y.2.withheld_sublist.subset hj
  · rw [Bool.eq_false_iff]
    intro hdone
    cases hheld.symm.trans (h.flags j hdone)
  · cases hheld.symm.trans ((h.layout.tidy u).running j hu)

/-- A job in the hands of a thief is pending. -/
theorem Inv.pending_taken [NeZero W] (h : Inv T sys queues home status res) (hcustody : Custody sys)
    (hj : status j = .taken v w) : sys.Pending j := by
  have hzero : j ≠ 0 := by
    rintro rfl
    have hrooted := hcustody.rooted
    have hmem : 0 ∈ (sys.view 0).tasks := by
      cases hview : sys.view 0 with
      | none =>
        rw [hview] at hrooted
        exact hrooted.elim
      | some y =>
        rw [hview] at hrooted
        exact y.2.zero_mem_tasks hrooted
    cases hj.symm.trans ((h.layout.tidy 0).running 0 hmem)
  obtain ⟨u, t, hmem⟩ := h.layout.joined j hzero (by rw [hj]; trivial)
  refine ⟨⟨u, List.mem_map_of_mem (f := Prod.fst) hmem⟩, ?_, fun u hu => ?_⟩
  · rw [Bool.eq_false_iff]
    intro hdone
    cases hj.symm.trans (h.flags j hdone)
  · cases hj.symm.trans ((h.layout.tidy u).running j hu)

end Started

section Steps

/-- What is pending can be counted. -/
def Counted (sys : System σ W) : Prop := ∀ j, j ∈ sys.pending ↔ sys.Pending j

/-- The pending jobs are counted. -/
theorem Inv.counted (h : Inv T sys queues home status res) : sys.Counted := fun _ => mem_pending h

/-- The pending jobs stay the same. -/
theorem Counted.same (h : sys.Counted) (h' : sys'.Counted) (hpending : ∀ j, sys'.Pending j ↔ sys.Pending j) :
    sys'.pending = sys.pending :=
  Finset.ext fun j => by rw [h', h, hpending]

/-- One pending job is done. -/
theorem Counted.erase (h : sys.Counted) (h' : sys'.Counted) {i : ℕ}
    (hpending : ∀ j, sys'.Pending j ↔ sys.Pending j ∧ j ≠ i) :
    sys'.pending = sys.pending.erase i :=
  Finset.ext fun j => by rw [h', Finset.mem_erase, h, hpending, and_comm]

variable {next : Code σ} {stack : Stack σ} {loop : StealLoop σ} {job : ℕ} {d : Deque.Config ℕ (Fin W)}
  {x : Worker σ W}

/-- Code is executed, and no job is started. -/
theorem eases_of_execute (code : Code σ) (pieces rest : Multiset (Code σ))
    (hold : (sys.worker w).codes = {code} + rest) (hnew : x.codes = pieces + rest)
    (hpieces : ∀ c ∈ pieces, Code.Piece c code) (hworker : sys'.worker = Function.update sys.worker w x)
    (hcode : sys'.code = sys.code) (hpending : sys'.pending = sys.pending) : Eases w sys sys' := by
  refine Or.inl (lighter_of_codes code pieces hpieces (add_right_cancel (b := rest) ?_))
  have hsum := codes_same hworker hcode hpending
  rwa [hold, hnew, ← add_assoc, ← add_assoc] at hsum

/-- A small step is made. -/
theorem eases_of_small (hworker : sys'.worker = Function.update sys.worker w x)
    (hdeque : sys'.deque = Function.update sys.deque v d) (hcode : sys'.code = sys.code)
    (hpending : sys'.pending = sys.pending)
    (hcodes : x.codes = (sys.worker w).codes) (hlt : x.work + d.work < (sys.worker w).work + (sys.deque v).work) :
    Eases w sys sys' := by
  refine Or.inl (lighter_of_work ?_ ?_)
  · have hsum := codes_same hworker hcode hpending
    rw [hcodes] at hsum
    exact add_right_cancel hsum
  · have hsum := work_update hworker hdeque
    rw [hpending] at hsum
    omega

/-- A step that makes no difference. -/
theorem eases_of_idle (hnot : ¬sys.Advances w) (hworker : sys'.worker = Function.update sys.worker w x)
    (hdeque : sys'.deque = Function.update sys.deque v d) (hcode : sys'.code = sys.code)
    (hpending : sys'.pending = sys.pending)
    (hcodes : x.codes = (sys.worker w).codes) (heq : x.work + d.work = (sys.worker w).work + (sys.deque v).work) :
    Eases w sys sys' := by
  refine Or.inr ⟨hnot, Prod.ext ?_ ?_⟩
  · have hsum := codes_same hworker hcode hpending
    rw [hcodes] at hsum
    exact add_right_cancel hsum
  · have hsum := work_update hworker hdeque
    rw [hpending] at hsum
    change sys'.work = sys.work
    omega

/-- A job is taken out of a deque and started. -/
theorem eases_of_start (job : ℕ) (hworker : sys'.worker = Function.update sys.worker w x)
    (hdeque : sys'.deque = Function.update sys.deque v d) (hcode : sys'.code = sys.code)
    (hpending : sys'.pending = sys.pending.erase job) (hjob : job ∈ sys.pending)
    (hcodes : x.codes = {sys.code job} + (sys.worker w).codes)
    (hlt : x.work + d.work < (sys.worker w).work + (sys.deque v).work + 5) : Eases w sys sys' := by
  refine Or.inl (lighter_of_work ?_ ?_)
  · have hsum := codes_start hworker hcode hpending hjob
    rw [hcodes, add_assoc, add_comm {sys.code job}] at hsum
    exact add_right_cancel hsum
  · have hsum := work_update hworker hdeque
    rw [hpending] at hsum
    have hcard := Finset.card_erase_add_one hjob
    omega

/-- An atomic step makes the system lighter. -/
theorem Counted.atom (h : sys.Counted) {act : σ → σ} {next : σ → Code σ}
    (hw : sys.worker w = .run (.atom act next) stack)
    (h' : ({ sys with shared := act sys.shared }.goto w (.run (next sys.shared) stack)).Counted) :
    Eases w sys ({ sys with shared := act sys.shared }.goto w (.run (next sys.shared) stack)) := by
  have hold : sys.view w = some ((Code.atom act next).prog, stack) := by rw [view, hw]; rfl
  refine eases_of_execute (.atom act next) {next sys.shared} stack.codes ?_ rfl (fun c hc => ?_)
    rfl rfl (h.same h' fun j => pending_same (view_goto _ w _) ?_ ?_ rfl)
  · rw [hw]
    rfl
  · rw [Multiset.mem_singleton.mp hc]
    exact .atom _ _ _
  · rw [hold]
    rfl
  · rw [hold]
    rfl

/-- Code that is done is left. -/
theorem eases_of_done (hold : (sys.worker w).codes = {.done} + x.codes)
    (hworker : sys'.worker = Function.update sys.worker w x)
    (hcode : sys'.code = sys.code) (hpending : sys'.pending = sys.pending) : Eases w sys sys' :=
  eases_of_execute .done 0 x.codes hold (zero_add _).symm (fun _ hc => absurd hc (Multiset.notMem_zero _)) hworker
    hcode hpending

/-- A fork makes the system lighter. -/
theorem Counted.parallelDo (h : sys.Counted) (hinv : Inv T sys queues home status res) {lf rf next : Code σ}
    (hw : sys.worker w = .run (.parallelDo lf rf next) stack)
    (hd : Deque.Config.Step T (.callPush sys.count) (sys.deque w) d)
    (h' : (((sys.newJob rf).setDeque w d).goto w (.push sys.count lf next stack)).Counted) :
    Eases w sys (((sys.newJob rf).setDeque w d).goto w (.push sys.count lf next stack)) := by
  have hold : sys.view w = some ((Code.parallelDo lf rf next).prog, stack) := by rw [view, hw]; rfl
  obtain ⟨_, _, hnumber, _⟩ := hd.callPush_effect
  have hview := view_own (sys.newJob rf) w d (.push sys.count lf next stack)
  rw [hnumber] at hview
  generalize hsys' : ((sys.newJob rf).setDeque w d).goto w (.push sys.count lf next stack) = sys' at h' hview ⊢
  have hworker : sys'.worker = Function.update sys.worker w (.push sys.count lf next stack) := by
    rw [← hsys']; rfl
  have hcode : sys'.code = Function.update sys.code sys.count rf := by rw [← hsys']; rfl
  have hfresh : sys.count ∉ sys.pending := by
    rw [h]
    rintro ⟨⟨u, hu⟩, _⟩
    obtain ⟨e, he, heq⟩ := List.mem_map.mp hu
    exact (hinv.layout.join_pos he).2.ne heq
  have hpending : sys'.pending = insert sys.count sys.pending := by
    ext j
    rw [h', Finset.mem_insert, h, or_comm]
    refine pending_fork hinv (y := some (lf.prog, .left sys.count false next stack)) hview ?_ ?_
      (by rw [← hsys']; rfl)
    · rw [hold]
      rfl
    · rw [hold]
      rfl
  have hkeep : ∑ j ∈ sys.pending, ({sys'.code j} : Multiset (Code σ)) = ∑ j ∈ sys.pending, {sys.code j} := by
    refine Finset.sum_congr rfl fun j hj => ?_
    have hne : j ≠ sys.count := fun heq => hfresh (heq ▸ hj)
    rw [hcode, Function.update_of_ne hne]
  have hsum := codes_update hworker
  rw [hpending, Finset.sum_insert hfresh, hkeep, hcode, Function.update_self, hw, ← add_assoc] at hsum
  refine Or.inl (lighter_of_codes (.parallelDo lf rf next) ({lf} + {next} + {rf}) (fun c hc => ?_) ?_)
  · rcases Multiset.mem_add.mp hc with hc | hc
    · rcases Multiset.mem_add.mp hc with hc | hc
      · rw [Multiset.mem_singleton.mp hc]
        exact .left _ _ _
      · rw [Multiset.mem_singleton.mp hc]
        exact .next _ _ _
    · rw [Multiset.mem_singleton.mp hc]
      exact .right _ _ _
  · refine add_right_cancel (b := stack.codes) ?_
    calc
      _ = sys'.codes + ({.parallelDo lf rf next} + stack.codes) := add_assoc _ _ _
      _ = sys.codes + ({lf} + ({next} + stack.codes)) + {rf} := add_right_cancel hsum
      _ = _ := by ac_rfl

/-- The joins do not depend on the number that is shown. -/
theorem Worker.joins_view (x : Worker σ W) (n m : Option ℕ) : (x.view n).joins = (x.view m).joins := by
    cases x <;> rfl

/-- The tasks do not depend on the number that is shown. -/
theorem Worker.tasks_view (x : Worker σ W) (n m : Option ℕ) : (x.view n).tasks = (x.view m).tasks := by
    cases x <;> rfl

/-- A step of a worker in a call on its own deque. -/
theorem Counted.stepOwner (h : sys.Counted) (hinv : Inv T sys queues home status res)
    (hd : Deque.Config.Step T .stepOwner (sys.deque w) d) (h' : (sys.setDeque w d).Counted) :
      Eases w sys (sys.setDeque w d) := by
  have hview := view_update sys (sys.setDeque w d) w (fun _ _ => rfl) fun u hu => owner_update hu
  refine eases_of_small (Function.update_eq_self w sys.worker).symm rfl rfl
    (h.same h' fun j => pending_same hview (Worker.joins_view _ _ _) (Worker.tasks_view _ _ _) rfl) rfl ?_
  exact Nat.add_lt_add_left ((hinv.coupled.reachable w).stepOwner_work hd) _

/-- A push returns. -/
theorem Counted.pushed (h : sys.Counted) {lf : Code σ} {inDeque first : Bool}
    (hw : sys.worker w = .push job lf next stack)
    (hd : Deque.Config.Step T (.returnPush job (inDeque, first)) (sys.deque w) d)
    (h' : ((sys.setDeque w d).goto w (.run lf (.left job inDeque next stack))).Counted) :
    Eases w sys ((sys.setDeque w d).goto w (.run lf (.left job inDeque next stack))) := by
  refine eases_of_small rfl rfl rfl (h.same h' fun j => pending_same (view_own sys w d _) ?_ ?_ rfl) ?_ ?_
  · rw [view, hw]
    rfl
  · rw [view, hw]
    rfl
  · rw [hw]
    rfl
  · rw [hw]
    exact Nat.add_lt_add_left hd.returnPush_work 0

/-- A worker runs the right branch that it could not push. -/
theorem Counted.refused (h : sys.Counted) (hinv : Inv T sys queues home status res)
    (hw : sys.worker w = .run .done (.left job false next stack))
    (h' : (sys.goto w (.run (sys.code job) (.right job next stack))).Counted) :
    Eases w sys (sys.goto w (.run (sys.code job) (.right job next stack))) := by
  have hold : sys.view w = some (ret (), .left job false next stack) := by rw [view, hw]; rfl
  have hpending := h.erase h' fun j => pending_inline hinv (i := job)
    (view_goto sys w (.run (sys.code job) (.right job next stack)))
    (by rw [hold]; rfl) (by rw [hold]; rfl) rfl
  have hjob : job ∈ sys.pending := by
    rw [h]
    refine hinv.pending_withheld (w := w) ?_
    rw [hold]
    exact List.mem_cons_self
  have hsum : (sys.goto w (.run (sys.code job) (.right job next stack))).codes + _ + _ = sys.codes + _ :=
    codes_start rfl rfl hpending hjob
  rw [hw] at hsum
  refine Or.inl (lighter_of_codes .done 0 (fun _ hc => absurd hc (Multiset.notMem_zero _)) ?_)
  refine add_right_cancel (b := {sys.code job} + ({next} + stack.codes)) ?_
  rw [add_zero]
  refine Eq.trans ?_ hsum
  change _ = _ + ({.done} + ({next} + stack.codes)) + {sys.code job}
  ac_rfl

/-- A worker takes its right branch back. -/
theorem Counted.popped (h : sys.Counted) (hinv : Inv T sys queues home status res)
    (hw : sys.worker w = .pop job next stack)
    (hd : Deque.Config.Step T (.returnPop true) (sys.deque w) d)
    (h' : ((sys.setDeque w d).goto w (.run (sys.code job) (.right job next stack))).Counted) :
    Eases w sys ((sys.setDeque w d).goto w (.run (sys.code job) (.right job next stack))) := by
  obtain ⟨_, _, _, _, _, hresult⟩ := (hinv.coupled.reachable w).returnPop hd
  obtain ⟨m, hm⟩ := Option.ne_none_iff_exists'.mp hresult
  have hold : sys.view w = some (ret (), .left job false next stack) := by rw [view, hw, hm]; rfl
  refine eases_of_start job rfl rfl rfl (h.erase h' fun j =>
    pending_inline hinv (view_own sys w d _) ?_ ?_ rfl) ?_ ?_
    ?_
  · rw [hold]
    rfl
  · rw [hold]
    rfl
  · rw [h]
    refine hinv.pending_withheld (w := w) ?_
    rw [hold]
    exact List.mem_cons_self
  · rw [hw]
    rfl
  · have hle := hd.returnPop_work
    rw [hw]
    simp only [Worker.work]
    omega

/-- The right branch is gone. -/
theorem Counted.missed (h : sys.Counted) (hw : sys.worker w = .pop job next stack)
    (hd : Deque.Config.Step T (.returnPop false) (sys.deque w) d)
    (h' : ((sys.setDeque w d).goto w (.seek (.waitFor job next stack))).Counted) :
    Eases w sys ((sys.setDeque w d).goto w (.seek (.waitFor job next stack))) := by
  refine eases_of_small rfl rfl rfl (h.same h' fun j => pending_same (view_own sys w d _) ?_ ?_ rfl) ?_ ?_
  · rw [view, hw]
    rfl
  · rw [view, hw]
    rfl
  · rw [hw]
    rfl
  · have hle := hd.returnPop_work
    rw [hw]
    simp only [Worker.work, StealLoop.work]
    omega

/-- The left branch is over. -/
theorem Counted.leftDone (h : sys.Counted) (hw : sys.worker w = .run .done (.left job true next stack))
    (h' : ((sys.setDeque w d).goto w (.pop job next stack)).Counted) :
    Eases w sys ((sys.setDeque w d).goto w (.pop job next stack)) := by
  refine eases_of_done (x := .pop job next stack) ?_ rfl rfl
    (h.same h' fun j => pending_same (view_own sys w d _) ?_ ?_ rfl)
  · rw [hw]
    rfl
  · rw [view, hw]
    rfl
  · rw [view, hw]
    rfl

/-- A right branch is over. -/
theorem Counted.rightDone (h : sys.Counted) (hw : sys.worker w = .run .done (.right job next stack))
    (h' : (sys.goto w (.run next stack)).Counted) : Eases w sys (sys.goto w (.run next stack)) := by
  refine eases_of_done (x := .run next stack) ?_ rfl rfl
    (h.same h' fun j => pending_same (view_goto sys w _) ?_ ?_ rfl)
  · rw [hw]
    rfl
  · rw [view, hw]
    rfl
  · rw [view, hw]
    rfl

/-- The job that is waited for is done. -/
theorem Counted.joined (h : sys.Counted) (hw : sys.worker w = .seek (.waitFor job next stack))
    (hdone : sys.done job = true)
    (h' : (sys.goto w (.run next stack)).Counted) : Eases w sys (sys.goto w (.run next stack)) := by
  refine eases_of_small (v := w) rfl (Function.update_eq_self w sys.deque).symm rfl
    (h.same h' fun j => pending_join (view_goto sys w _) ?_ ?_ rfl hdone) ?_ ?_
  · rw [view, hw]
    rfl
  · rw [view, hw]
    rfl
  · rw [hw]
    rfl
  · rw [hw]
    exact Nat.add_lt_add_right Nat.one_pos _

/-- A job is done. -/
theorem Counted.executed (h : sys.Counted) (loop : StealLoop σ)
    (hw : sys.worker w = .run .done (loop.execute job))
    (h' : ((sys.finish job).goto w (.seek loop)).Counted) :
    Eases w sys ((sys.finish job).goto w (.seek loop)) := by
  refine eases_of_done (x := .seek loop) ?_ rfl rfl
    (h.same h' fun j => pending_finish (view_goto (sys.finish job) w (.seek loop)) ?_ ?_ rfl)
  · rw [hw, Worker.codes, Worker.codes, StealLoop.codes_execute]
  · rw [view, hw]
    cases loop <;> rfl
  · rw [view, hw]
    cases loop <;> rfl

/-- A thief starts a call. -/
theorem Counted.aim (h : sys.Counted) (hw : sys.worker w = .seek loop)
    (hflag : ∀ job next stack, loop = .waitFor job next stack → sys.done job = false)
    (hd : Deque.Config.Step T (.callTop w) (sys.deque v) d)
    (h' : ((sys.setDeque v d).goto w (.probe loop v)).Counted) :
    Eases w sys ((sys.setDeque v d).goto w (.probe loop v)) := by
  obtain ⟨howner, _⟩ := hd.callTop_effect
  refine eases_of_idle ?_ rfl rfl rfl (h.same h' fun j =>
    pending_same (view_steal sys howner fun _ => rfl) ?_ ?_ rfl)
    ?_ ?_
  · rw [Advances, hw]
    rintro ⟨job, next, stack, heq, hdone⟩
    rw [hflag job next stack heq] at hdone
    cases hdone
  · rw [view, hw]
    rfl
  · rw [view, hw]
    rfl
  · rw [hw]
    rfl
  · rw [hw, hd.callTop_work]
    rfl

/-- A thief makes a step of its call. -/
theorem Counted.probing (h : sys.Counted) (hinv : Inv T sys queues home status res)
    (hw : sys.worker w = .probe loop v)
    (hd : Deque.Config.Step T (.stepThief w) (sys.deque v) d) (h' : (sys.setDeque v d).Counted) :
    Eases w sys (sys.setDeque v d) := by
  obtain ⟨howner, _⟩ := (hinv.coupled.reachable v).stepThief hd
  have hpending := h.same h' fun j => pending_same (w := w) (y := sys.view w)
    ((view_foreign sys v d howner).trans (Function.update_eq_self w sys.view).symm) rfl rfl rfl
  rcases (hinv.coupled.reachable v).stepThief_work hd with hlt | ⟨hnumber, heq⟩
  · exact eases_of_small (Function.update_eq_self w sys.worker).symm rfl rfl hpending rfl
      (Nat.add_lt_add_left hlt _)
  · refine eases_of_idle ?_ (Function.update_eq_self w sys.worker).symm rfl rfl hpending rfl (congrArg _ heq)
    rw [Advances, hw]
    exact fun hne => hne hnumber

/-- A thief starts the job that it has claimed. -/
theorem Counted.stole [NeZero W] (h : sys.Counted) (hinv : Inv T sys queues home status res)
    (hcustody : Custody sys) {empty : Bool} (hw : sys.worker w = .probe loop v)
    (hd : Deque.Config.Step T (.returnTop w (some job, empty)) (sys.deque v) d)
    (h' : ((sys.setDeque v d).goto w (.run (sys.code job) (loop.execute job))).Counted) :
    Eases w sys ((sys.setDeque v d).goto w (.run (sys.code job) (loop.execute job))) := by
  obtain ⟨howner, _, _, _, _, hdealt⟩ := (hinv.coupled.reachable v).returnTop hd
  obtain ⟨m, hm, hjob⟩ := hdealt job rfl
  obtain ⟨i, hi, htaken⟩ := hinv.coupled.taken v w m hm
  obtain rfl : job = i := Option.some.inj (hjob.symm.trans hi)
  refine eases_of_start job rfl rfl rfl (h.erase h' fun j =>
    pending_start (view_steal sys howner fun _ => rfl) ?_ ?_ rfl) ?_ ?_ ?_
  · rw [view, hw]
    cases loop <;> rfl
  · rw [view, hw]
    cases loop <;> rfl
  · rw [h]
    exact hinv.pending_taken hcustody htaken
  · rw [hw, Worker.codes, Worker.codes, StealLoop.codes_execute]
  · have hsum := (hinv.coupled.reachable v).returnTop_work hd
    simp only [Worker.work]
    omega

/-- A thief has found nothing. -/
theorem Counted.failed (h : sys.Counted) (hinv : Inv T sys queues home status res) {empty : Bool}
    (hw : sys.worker w = .probe loop v) (hd : Deque.Config.Step T (.returnTop w (none, empty)) (sys.deque v) d)
    (h' : ((sys.setDeque v d).goto w (.seek loop)).Counted) :
    Eases w sys ((sys.setDeque v d).goto w (.seek loop)) := by
  obtain ⟨howner, _⟩ := (hinv.coupled.reachable v).returnTop hd
  have hnumber := (hinv.coupled.reachable v).returnTop_none hd
  refine eases_of_idle ?_ rfl rfl rfl (h.same h' fun j =>
    pending_same (view_steal sys howner fun _ => rfl) ?_ ?_ rfl)
    ?_ ?_
  · rw [Advances, hw]
    exact fun hne => hne hnumber
  · rw [view, hw]
    rfl
  · rw [view, hw]
    rfl
  · rw [hw]
    rfl
  · have hsum := (hinv.coupled.reachable v).returnTop_work hd
    rw [Deque.ThiefCall.work_of_number hnumber] at hsum
    rw [hw]
    simp only [Worker.work]
    omega

/-- Whatever a worker does, the state gets no heavier, and lighter when the worker makes progress. -/
theorem Acts.eases [NeZero W] (hact : Acts T w sys sys' news) (hinv : Inv T sys queues home status res)
    (hcustody : Custody sys)
    (h' : sys'.Counted) : Eases w sys sys' := by
  have h := hinv.counted
  unfold Acts at hact
  split at hact
  · next hw =>
    obtain ⟨_, rfl⟩ := hact
    exact h.atom hw h'
  · next hw =>
    obtain ⟨_, d, hd, rfl⟩ := hact
    exact h.parallelDo hinv hw hd h'
  · exact hact.elim
  · next job hw =>
    obtain ⟨_, rfl⟩ := hact
    exact h.executed .idle hw h'
  · next hw =>
    obtain ⟨_, rfl⟩ := hact
    exact h.refused hinv hw h'
  · next hw =>
    obtain ⟨_, d, _, rfl⟩ := hact
    exact h.leftDone hw h'
  · next hw =>
    obtain ⟨_, rfl⟩ := hact
    exact h.rightDone hw h'
  · next stolen job next stack hw =>
    obtain ⟨_, rfl⟩ := hact
    exact h.executed (.waitFor job next stack) hw h'
  · next hw =>
    obtain ⟨d, ⟨_, hd, rfl⟩ | ⟨inDeque, hd, rfl⟩⟩ := hact
    · exact h.stepOwner hinv hd h'
    · exact h.pushed hw hd h'
  · next hw =>
    obtain ⟨_, d, ⟨hd, rfl⟩ | ⟨hd, rfl⟩ | ⟨hd, rfl⟩⟩ := hact
    · exact h.stepOwner hinv hd h'
    · exact h.popped hinv hw hd h'
    · exact h.missed hw hd h'
  · next hw =>
    obtain ⟨_, ⟨job, next, stack, rfl, hdone, rfl⟩ | ⟨hflag, v, d, _, hd, rfl⟩⟩ := hact
    · exact h.joined hw hdone h'
    · exact h.aim hw hflag hd h'
  · next hw =>
    obtain ⟨d, ⟨_, hd, rfl⟩ | ⟨job, hd, rfl⟩ | ⟨hd, rfl⟩⟩ := hact
    · exact h.probing hinv hw hd h'
    · exact h.stole hinv hcustody hw hd h'
    · exact h.failed hinv hw hd h'

end Steps

end System

namespace Threads

variable {T : DequeType} {t t' : Threads σ W} {w : Fin W} [NeZero W] {main : Code σ} {s : σ}

/-- No step of a thread makes the state heavier, and one that makes progress makes it lighter. -/
theorem Reachable.eases (h : Reachable T main s t) (hstep : Step T w t t') :
    t'.sys.Lighter t.sys ∨ ¬t.Advances w ∧ t'.sys.weight = t.sys.weight := by
  have hother {p : Pause} (hp : t.pause w = p) (hne : p ≠ .none) : ¬t.Advances w := fun hadv =>
    hne (hp.symm.trans hadv.1)
  cases hstep with
  | @act sys news hp hact =>
    obtain ⟨_, _, _, _, hinv, _⟩ := h.system.simulates
    obtain ⟨_, _, _, _, hinv', _⟩ := (h.system.step hact.step).simulates
    exact (hact.eases hinv h.system.custody hinv'.counted).imp_right fun heq => ⟨fun hadv => heq.1 hadv.2, heq.2⟩
  | doze _ hidle =>
    refine Or.inr ⟨fun hadv => ?_, rfl⟩
    have hsys := hadv.2
    rw [System.Advances, hidle] at hsys
    obtain ⟨_, _, _, heq, _⟩ := hsys
    cases heq
  | wake hp => exact Or.inr ⟨hother hp Pause.noConfusion, rfl⟩
  | raise hp => exact Or.inr ⟨hother hp Pause.noConfusion, rfl⟩
  | notify hp => exact Or.inr ⟨hother hp Pause.noConfusion, rfl⟩
  | sleep hp => exact Or.inr ⟨hother hp Pause.noConfusion, rfl⟩
  | lower hp => exact Or.inr ⟨hother hp Pause.noConfusion, rfl⟩
  | block hp _ => exact Or.inr ⟨hother hp Pause.noConfusion, rfl⟩
  | pass hp _ => exact Or.inr ⟨hother hp Pause.noConfusion, rfl⟩
  | rise hp => exact Or.inr ⟨hother hp Pause.noConfusion, rfl⟩

/-- A fair run reaches a state in which the program has returned. -/
theorem exists_returned (r : Fairness.Run (Step T : Fin W → Threads σ W → Threads σ W → Prop))
    (hstart : r.state 0 = init main s) (hfair : r.Fair) :
    ∃ k, (r.state k).sys.worker 0 = .run .done .main := by
  refine hfair.eventually (I := Reachable T main s) (A := Multiset (Code σ) × ℕ)
    (WellFounded.prod_lex Code.wellFounded_piece.cutExpand wellFounded_lt) (fun t => t.sys.weight)
    (fun t => t.sys.worker 0 = .run .done .main) (fun w n t => Nears T t w n) ?_
    (fun _ _ _ h hstep => h.step hstep) (fun w t t' h hstep => ?_) (fun t h hrun => ?_)
    (fun w n t h hw => hw.enabled h)
    (fun u w n t t' h hw hne hstep => hw.other h hne.symm hstep) fun w n t t' h hw hstep => ?_
  · rw [hstart]
    exact .init
  · exact (h.eases hstep).symm.imp_left And.right
  · obtain ⟨w, hw⟩ := h.exists_nears hrun
    exact ⟨w, 6, hw⟩
  · by_cases hadv : t.Advances w
    · exact Or.inl ((h.eases hstep).resolve_right fun hnot => hnot.1 hadv)
    · exact Or.inr (hw.own h hadv hstep)

/-- Every fair run ends: the program returns, in a state that the fork–join program reaches. -/
theorem fair_run_returns (r : Fairness.Run (Step T : Fin W → Threads σ W → Threads σ W → Prop))
    (hstart : r.state 0 = init main s) (hfair : r.Fair) :
    ∃ k, (r.state k).sys.worker 0 = .run .done .main ∧
      Steps Empty.elim main.prog s (ret ()) (r.state k).sys.shared := by
  obtain ⟨k, hk⟩ := exists_returned r hstart hfair
  have hreach : Reachable T main s (r.state k) :=
    Fairness.Run.invariant (by rw [hstart]; exact .init) (fun _ _ _ h hstep => h.step hstep) k
  obtain ⟨_, _, _, _, hinv, hsteps⟩ := hreach.system.simulates
  rw [hinv.returned hk] at hsteps
  exact ⟨k, hk, hsteps⟩

/-- Thread 1 falls asleep, thread 0 pushes a job, wakes thread 1 and takes the job back, and thread 1
falls asleep again. -/
def poppingTurns : List (Turn 2) :=
  let main : Fin 2 := (Fin.last 0).castSucc
  let sleeper : Fin 2 := Fin.last 1
  .replicate 3 (.act sleeper 0) ++ .replicate 17 (.act main 0) ++ .replicate 2 (.act sleeper 0) ++
    [.doze sleeper] ++ .replicate 3 (.act sleeper 0)

/-- The end of the run: the sum of both steps, the job pushed and popped, and that no thread can move. -/
theorem reached_popping : (fun t : Threads ℕ 2 => (t.sys.shared, (t.sys.deque 0).ledger.pushed,
    (t.sys.deque 0).ledger.popped, decide (∀ w, t.Still w))) (reached .dq poppingTurns forking 0) =
      (3, [1], [0], true) := by
  decide +kernel

/-- A fair run of a `parallel_do` with two threads ends with the result of the program. -/
theorem fair_run_returns_popping : ∃ r : Fairness.Run (Step .dq : Fin 2 → Threads ℕ 2 → Threads ℕ 2 → Prop),
    (∃ k, (r.state k).sys.shared = 3 ∧ ((r.state k).sys.deque 0).ledger.pushed = [1] ∧
      ((r.state k).sys.deque 0).ledger.popped = [0]) ∧
    ∃ k, (r.state k).sys.worker 0 = .run .done .main ∧
      Steps Empty.elim forking.prog 0 (ret ()) (r.state k).sys.shared := by
  have hreached := reached_popping
  generalize hend : reached .dq poppingTurns forking 0 = t at hreached
  simp only [Prod.mk.injEq, decide_eq_true_eq] at hreached
  obtain ⟨hshared, hpushed, hpopped, hstill⟩ := hreached
  refine ⟨scheduled .dq poppingTurns forking 0, ⟨poppingTurns.length, ?_⟩,
    fair_run_returns _ rfl (fair_scheduled fun w => ?_)⟩
  · rw [state_scheduled, hend]
    exact ⟨hshared, hpushed, hpopped⟩
  · rw [hend]
    exact hstill w

end Threads

end ToggleTree
