import Mathlib.Algebra.BigOperators.Group.Finset.Basic
import Mathlib.Data.Prod.Lex
import Mathlib.Logic.Hydra
import ToggleTree.ForkJoin.Straight
import ToggleTree.Scheduler.Sleep

/-!
# What is left to do

The weight of a state has two parts: the code that has not been executed, wherever it waits, and the
small steps by which workers put jobs into deques and get them out again. Executing code replaces a
piece of code by smaller pieces; everything else that helps the program on leaves the code alone and
takes one of the small steps.
-/

namespace ToggleTree

open ForkJoin ForkJoin.Prog

variable {σ : Type} {W : ℕ}

/-- The pieces that a piece of code leaves when it is executed. -/
inductive Code.Piece : Code σ → Code σ → Prop
  | atom (act : σ → σ) (next : σ → Code σ) (s : σ) : Piece (next s) (.atom act next)
  | left (lf rf next : Code σ) : Piece lf (.parallelDo lf rf next)
  | right (lf rf next : Code σ) : Piece rf (.parallelDo lf rf next)
  | next (lf rf next : Code σ) : Piece next (.parallelDo lf rf next)

/-- There is no infinite descent into pieces of code. -/
theorem Code.wellFounded_piece : WellFounded (Code.Piece : Code σ → Code σ → Prop) := by
  refine ⟨fun code => ?_⟩
  induction code with
  | done => exact ⟨_, fun _ h => by cases h⟩
  | atom act next ih =>
    refine ⟨_, fun _ h => ?_⟩
    cases h with
    | atom _ _ s => exact ih s
  | parallelDo lf rf next ihl ihr ih =>
    refine ⟨_, fun _ h => ?_⟩
    cases h with
    | left => exact ihl
    | right => exact ihr
    | next => exact ih

namespace Deque

variable {J K : Type} {T : DequeType}

/-- A push takes at most four steps. -/
theorem PushState.within_rest (job : J) (s : PushState) : (s.rest T job).Within 4 := by
  have hstore (n : ℕ) (p : ℕ) : Within (n + 1)
      (do advance T p; return (true, decide (T.length p ≤ 1)) : Prog (Deque J) Empty (Bool × Bool)) := by
    unfold advance
    split
    · exact fun _ => within_ret _
    · exact fun _ => within_ret _
  cases s with
  | entered =>
    intro p
    change Within 3 (if T.length p = T.capacity - 1 then ret (false, false) else _)
    split
    · exact within_ret _
    · intro old
      change Within 2 (if old.isSome = true then ret (false, false) else _)
      split
      · exact within_ret _
      · exact fun _ => hstore 0 p
  | loaded p =>
    intro old
    change Within 3 (if old.isSome = true then ret (false, false) else _)
    split
    · exact within_ret _
    · exact fun _ => hstore 1 p
  | checked p => exact fun _ => hstore 2 p
  | stored p => exact hstore 3 p
  | returned r => exact within_ret r

/-- A pop takes at most three steps. -/
theorem PopState.within_rest (s : PopState J) : (s.rest T).Within 3 := by
  cases s with
  | entered =>
    intro p
    change Within 2 (if T.length p ≤ 1 then ret false else _)
    split
    · exact within_ret _
    · intro p
      change Within 1 (if T.length p = 1 then ret false else _)
      split
      · exact within_ret _
      · exact fun _ => within_ret _
  | decided =>
    intro p
    change Within 2 (if T.length p = 1 then ret false else _)
    split
    · exact within_ret _
    · exact fun _ => within_ret _
  | clearing p job => exact fun _ => within_ret _
  | returned r => exact within_ret r

/-- The steps of a call of the owner, those to its return and after it. -/
noncomputable def OwnerCall.work : OwnerCall J → ℕ
  | none => 0
  | push _ rest _ _ => rest.steps + 1
  | pop rest _ => rest.steps + 2

/-- The steps of a thief that has claimed a job. A thief that has not might claim one. -/
noncomputable def ThiefCall.work : ThiefCall J → ℕ
  | none => 4
  | top _ Option.none => 4
  | top rest (some _) => rest.steps + 1

/-- A theft that has no number has all its work before it. -/
theorem ThiefCall.work_of_number {c : ThiefCall J} (h : c.number = Option.none) : c.work = 4 := by
  cases c with
  | none => rfl
  | top rest number =>
    obtain rfl : number = Option.none := h
    rfl

/-- The steps of all calls on a deque. -/
noncomputable def Config.work [Fintype K] (c : Config J K) : ℕ := c.owner.work + ∑ k, (c.thief k).work

section Calls

variable [DecidableEq K] {c c' : Config J K} {k : K}

/-- In every reachable deque a push takes at most four steps. -/
theorem Config.Reachable.within_push (hreach : Config.Reachable T c) {job : J}
    {rest : Prog (Deque J) Empty (Bool × Bool)}
    {number : Option ℕ} {quiet : Prop} (hcall : c.owner = .push job rest number quiet) : rest.Within 4 := by
  obtain ⟨h, t, os, ts, hinv⟩ := hreach.inv
  obtain ⟨point, rfl, rfl⟩ := OwnerState.call_eq_push (hinv.owner_eq.symm.trans hcall)
  exact point.within_rest job

/-- In every reachable deque a pop takes at most three steps. -/
theorem Config.Reachable.within_pop (hreach : Config.Reachable T c) {rest : Prog (Deque J) Empty Bool}
    {number : Option ℕ} (hcall : c.owner = .pop rest number) : rest.Within 3 := by
  obtain ⟨h, t, os, ts, hinv⟩ := hreach.inv
  obtain ⟨point, rfl, rfl⟩ := OwnerState.call_eq_pop (hinv.owner_eq.symm.trans hcall)
  exact point.within_rest

/-- A thief that has claimed a job reads it, clears its slot and returns. -/
theorem Config.Reachable.within_top (hreach : Config.Reachable T c)
    {rest : Prog (Deque J) Empty (Option J × Bool)}
    {i : ℕ} (hcall : c.thief k = .top rest (some i)) : rest.Within 2 := by
  obtain ⟨h, t, os, ts, hinv⟩ := hreach.inv
  obtain ⟨point, hk, rfl⟩ := ThiefState.call_eq_top ((hinv.thief_eq k).symm.trans hcall)
  have hvalid := hinv.thief_valid k
  rw [hk] at hvalid
  cases point with
  | entered => cases hvalid
  | proposing p => cases hvalid.1
  | exchanged p job => exact fun _ _ => within_ret _
  | clearing p job => exact fun _ => within_ret _
  | returned r => exact within_ret r

/-- Every step of the owner counts. -/
theorem Config.Reachable.owner_work_lt (hreach : Config.Reachable T c) (hstep : Config.Step T .stepOwner c c') :
    c'.owner.work < c.owner.work := by
  cases hstep with
  | stepPush hcall hprog =>
    have hlt := (hreach.within_push hcall).steps_lt hprog
    rw [hcall]
    exact Nat.succ_lt_succ hlt
  | stepPop hcall hprog =>
    have hlt := (hreach.within_pop hcall).steps_lt hprog
    rw [hcall]
    exact Nat.add_lt_add_right hlt 2

/-- Every step of a thief counts that has claimed a job, and the step that claims one. -/
theorem Config.Reachable.thief_work (hreach : Config.Reachable T c) (hstep : Config.Step T (.stepThief k) c c') :
    (c'.thief k).work < (c.thief k).work ∨
      (c.thief k).number = none ∧ (c'.thief k).work = (c.thief k).work := by
  have hreach' := hreach.step hstep
  obtain ⟨_, _, _, _, hnumber⟩ := hreach.stepThief hstep
  cases hstep with
  | @stepTop _ _ rest rest' number d hcall hprog =>
    -- The number that the call has after the step is all that matters of it.
    generalize hc' : ({ c with
      deque := d
      thief := Function.update c.thief k (.top rest' (if d.pos = c.deque.pos then number
        else c.ledger.items.head?))
      ledger := if d.pos = c.deque.pos then c.ledger
        else c.ledger.popTop } : Config J K) = c' at hnumber hreach' ⊢
    obtain ⟨after, hafter⟩ : ∃ after, c'.thief k = .top rest' after :=
      ⟨_, by rw [← hc']; exact Function.update_self _ _ _⟩
    rw [hcall, hafter] at hnumber
    rw [hcall, hafter]
    cases number with
    | none =>
      cases after with
      | none => exact Or.inr ⟨rfl, rfl⟩
      | some i =>
        have hle := (hreach'.within_top hafter).steps_le
        exact Or.inl (Nat.lt_succ_of_le (Nat.succ_le_succ hle))
    | some i =>
      have hlt := (hreach.within_top hcall).steps_lt hprog
      rcases hnumber with ⟨heq, _⟩ | ⟨_, _, hnone, _⟩
      · obtain rfl : after = some i := heq
        exact Or.inl (Nat.succ_lt_succ hlt)
      · cases hnone

end Calls

end Deque

/-- The code that follows the `parallel_do`s of a stack. -/
def Stack.codes : Stack σ → Multiset (Code σ)
  | main | spawned _ => 0
  | left _ _ next below | right _ next below | waiting _ _ next below => {next} + below.codes

/-- The codes that a loop goes back to. -/
def StealLoop.codes : StealLoop σ → Multiset (Code σ)
  | idle => 0
  | waitFor _ next below => {next} + below.codes

/-- Executing a stolen job keeps the codes of the loop. -/
@[simp] theorem StealLoop.codes_execute (loop : StealLoop σ) (job : ℕ) :
    (loop.execute job).codes = loop.codes := by
  cases loop <;> rfl

/-- The code that a worker is going to execute, but for the jobs that it has put into a deque. -/
def Worker.codes : Worker σ W → Multiset (Code σ)
  | .run code stack => {code} + stack.codes
  | .push _ lf next stack => {lf} + ({next} + stack.codes)
  | .pop _ next stack => {next} + stack.codes
  | .seek loop | .probe loop _ => loop.codes

/-- A worker that waits has to join. -/
def StealLoop.work : StealLoop σ → ℕ
  | idle => 0
  | waitFor _ _ _ => 1

/-- The steps that a worker has left within its code. -/
def Worker.work : Worker σ W → ℕ
  | .seek loop | .probe loop _ => loop.work
  | _ => 0

namespace System

/-- The job has been constructed and has not been started. -/
def Pending (sys : System σ W) (j : ℕ) : Prop :=
  (∃ w, j ∈ (sys.view w).joins.map Prod.fst) ∧ sys.done j = false ∧ ∀ w, j ∉ (sys.view w).tasks

open Classical in
/-- The jobs that are not done. -/
noncomputable def pending (sys : System σ W) : Finset ℕ := (Finset.range sys.count).filter sys.Pending

/-- The code that has not been executed. -/
noncomputable def codes (sys : System σ W) : Multiset (Code σ) :=
  ∑ w, (sys.worker w).codes + ∑ j ∈ sys.pending, {sys.code j}

/-- The small steps that are left: a job that is started frees a thief for another claim. -/
noncomputable def work (sys : System σ W) : ℕ :=
  ∑ w, (sys.worker w).work + ∑ v, (sys.deque v).work + 5 * sys.pending.card

/-- The weight of a system: the codes that are left, and the steps within them. -/
noncomputable def weight (sys : System σ W) : Multiset (Code σ) × ℕ := (sys.codes, sys.work)

/-- There is less code to execute, or as much and fewer small steps to make. -/
def Lighter (sys' sys : System σ W) : Prop :=
  Prod.Lex (Relation.CutExpand Code.Piece) (· < ·) sys'.weight sys.weight

variable {T : DequeType} {sys sys' : System σ W} {queues : Fin W → List ℕ} {home : ℕ → Fin W}
  {status : ℕ → Status W} {res : ℕ → Prog σ Empty Unit} {w v : Fin W} {j : ℕ}

/-- Code is executed. -/
theorem lighter_of_codes (code : Code σ) (pieces : Multiset (Code σ)) (hpieces : ∀ c ∈ pieces, Code.Piece c code)
    (h : sys'.codes + {code} = sys.codes + pieces) : sys'.Lighter sys :=
  Prod.Lex.left _ _ ⟨pieces, code, hpieces, h⟩

/-- Less work at the same codes is lighter. -/
theorem lighter_of_work (hcodes : sys'.codes = sys.codes) (hwork : sys'.work < sys.work) : sys'.Lighter sys := by
  rw [Lighter, weight, hcodes]
  exact Prod.Lex.right _ hwork

/-- One summand changes. -/
theorem sum_update {A M : Type*} [AddCommMonoid M] (f : A → M) (g : Fin W → A) (w : Fin W) (x : A) :
    ∑ u, f (Function.update g w x u) + f (g w) = ∑ u, f (g u) + f x := by
  rw [← Finset.add_sum_erase _ _ (Finset.mem_univ w),
    ← Finset.add_sum_erase _ (fun u => f (g u)) (Finset.mem_univ w),
    Function.update_self]
  have hrest : ∑ u ∈ Finset.univ.erase w, f (Function.update g w x u) = ∑ u ∈ Finset.univ.erase w, f (g u) :=
    Finset.sum_congr rfl fun u hu => by rw [Function.update_of_ne (Finset.ne_of_mem_erase hu)]
  rw [hrest]
  ac_rfl

section Pending

/-- The pending jobs are those that have been created and are not done. -/
theorem mem_pending (h : Inv T sys queues home status res) : j ∈ sys.pending ↔ sys.Pending j := by
  classical
  rw [pending, Finset.mem_filter, Finset.mem_range, and_iff_right_iff_imp]
  rintro ⟨⟨w, hw⟩, _⟩
  obtain ⟨e, he, rfl⟩ := List.mem_map.mp hw
  exact (h.layout.join_pos he).2

/-- Only worker `w` has changed. -/
theorem pending_iff {y : View σ} (hview : sys'.view = Function.update sys.view w y) :
    sys'.Pending j ↔ (j ∈ y.joins.map Prod.fst ∨ ∃ u ≠ w, j ∈ (sys.view u).joins.map Prod.fst) ∧
      sys'.done j = false ∧
      j ∉ y.tasks ∧ ∀ u ≠ w, j ∉ (sys.view u).tasks := by
  have hself : sys'.view w = y := by rw [hview, Function.update_self]
  have hother {u : Fin W} (hu : u ≠ w) : sys'.view u = sys.view u := by rw [hview, Function.update_of_ne hu]
  have hjoins : (∃ u, j ∈ (sys'.view u).joins.map Prod.fst) ↔
      j ∈ y.joins.map Prod.fst ∨ ∃ u ≠ w, j ∈ (sys.view u).joins.map Prod.fst := by
    constructor
    · rintro ⟨u, hu⟩
      by_cases huw : u = w
      · rw [huw, hself] at hu
        exact Or.inl hu
      · rw [hother huw] at hu
        exact Or.inr ⟨u, huw, hu⟩
    · rintro (hw | ⟨u, huw, hu⟩)
      · exact ⟨w, by rwa [hself]⟩
      · exact ⟨u, by rwa [hother huw]⟩
  have htasks : (∀ u, j ∉ (sys'.view u).tasks) ↔ j ∉ y.tasks ∧ ∀ u ≠ w, j ∉ (sys.view u).tasks := by
    constructor
    · intro h
      refine ⟨fun hj => h w ?_, fun u huw hu => h u ?_⟩
      · rwa [hself]
      · rwa [hother huw]
    · rintro ⟨hw, hrest⟩ u hu
      by_cases huw : u = w
      · rw [huw, hself] at hu
        exact hw hu
      · rw [hother huw] at hu
        exact hrest u huw hu
  rw [Pending, hjoins, htasks]

/-- A worker goes on with the same jobs. -/
theorem pending_same {y : View σ} (hview : sys'.view = Function.update sys.view w y)
    (hjoins : y.joins = (sys.view w).joins)
    (htasks : y.tasks = (sys.view w).tasks) (hdone : sys'.done = sys.done) : sys'.Pending j ↔ sys.Pending j := by
  rw [pending_iff hview, pending_iff (Function.update_eq_self w sys.view).symm, hjoins, htasks, hdone]

/-- A worker joins the job that it waits for. -/
theorem pending_join {y : View σ} {i : ℕ} (hview : sys'.view = Function.update sys.view w y)
    (hjoins : (sys.view w).joins.map Prod.fst = i :: y.joins.map Prod.fst)
    (htasks : y.tasks = (sys.view w).tasks) (hdone : sys'.done = sys.done) (hi : sys.done i = true) :
    sys'.Pending j ↔ sys.Pending j := by
  rw [pending_iff hview, pending_iff (Function.update_eq_self w sys.view).symm, hjoins, htasks, hdone,
    List.mem_cons]
  by_cases hj : j = i
  · rw [hj, hi]
    exact iff_of_false (fun h => Bool.noConfusion h.2.1) fun h => Bool.noConfusion h.2.1
  · rw [or_iff_right hj]

/-- A worker finishes a job. -/
theorem pending_finish {y : View σ} {i : ℕ} (hview : sys'.view = Function.update sys.view w y)
    (hjoins : y.joins = (sys.view w).joins) (htasks : (sys.view w).tasks = i :: y.tasks)
    (hdone : sys'.done = Function.update sys.done i true) : sys'.Pending j ↔ sys.Pending j := by
  rw [pending_iff hview, pending_iff (Function.update_eq_self w sys.view).symm, hjoins, htasks, hdone,
    List.mem_cons]
  by_cases hj : j = i
  · rw [hj, Function.update_self]
    exact iff_of_false (fun h => Bool.noConfusion h.2.1) fun h => h.2.2.1 (Or.inl rfl)
  · rw [Function.update_of_ne hj, or_iff_right hj]

/-- A worker starts a job that it has taken from a deque. -/
theorem pending_start {y : View σ} {i : ℕ} (hview : sys'.view = Function.update sys.view w y)
    (hjoins : y.joins = (sys.view w).joins) (htasks : y.tasks = i :: (sys.view w).tasks)
    (hdone : sys'.done = sys.done) :
    sys'.Pending j ↔ sys.Pending j ∧ j ≠ i := by
  rw [pending_iff hview, pending_iff (Function.update_eq_self w sys.view).symm, hjoins, htasks, hdone,
    List.mem_cons,
    not_or]
  tauto

/-- A worker starts a job of its own. -/
theorem pending_inline (hinv : Inv T sys queues home status res) {y : View σ} {i : ℕ}
    (hview : sys'.view = Function.update sys.view w y)
    (hjoins : (sys.view w).joins.map Prod.fst = i :: y.joins.map Prod.fst)
    (htasks : y.tasks = (sys.view w).tasks) (hdone : sys'.done = sys.done) : sys'.Pending j ↔ sys.Pending j ∧
      j ≠ i := by
  rw [pending_iff hview, pending_iff (Function.update_eq_self w sys.view).symm, hjoins, htasks, hdone,
    List.mem_cons]
  have hnodup := (hinv.layout.tidy w).nodup
  rw [hjoins, List.nodup_cons] at hnodup
  have hother : ∀ u ≠ w, i ∉ (sys.view u).joins.map Prod.fst := by
    intro u huw hu
    obtain ⟨e, he, heq⟩ := List.mem_map.mp hu
    have hmem : i ∈ (sys.view w).joins.map Prod.fst := by
      rw [hjoins]
      exact List.mem_cons_self
    obtain ⟨e', he', heq'⟩ := List.mem_map.mp hmem
    have hu' := ((hinv.layout.tidy u).home e he).1
    have hw' := ((hinv.layout.tidy w).home e' he').1
    rw [heq] at hu'
    rw [heq', hu'] at hw'
    exact huw hw'
  by_cases hj : j = i
  · rw [hj]
    refine iff_of_false (fun h => ?_) fun h => h.2 rfl
    rcases h.1 with hmem | ⟨u, huw, hu⟩
    · exact hnodup.1 hmem
    · exact hother u huw hu
  · rw [or_iff_right hj, and_iff_left hj]

/-- A worker constructs a job. -/
theorem pending_fork (hinv : Inv T sys queues home status res) {y : View σ}
    (hview : sys'.view = Function.update sys.view w y)
    (hjoins : y.joins.map Prod.fst = sys.count :: (sys.view w).joins.map Prod.fst)
    (htasks : y.tasks = (sys.view w).tasks) (hdone : sys'.done = Function.update sys.done sys.count false) :
    sys'.Pending j ↔ sys.Pending j ∨ j = sys.count := by
  rw [pending_iff hview, pending_iff (Function.update_eq_self w sys.view).symm, hjoins, htasks, hdone,
    List.mem_cons]
  by_cases hj : j = sys.count
  · rw [hj, Function.update_self]
    have hfresh (u : Fin W) : sys.count ∉ (sys.view u).tasks := fun hu => absurd (hinv.task_lt hu) (lt_irrefl _)
    exact iff_of_true ⟨Or.inl (Or.inl rfl), rfl, hfresh w, fun u _ => hfresh u⟩ (Or.inr rfl)
  · rw [Function.update_of_ne hj, or_iff_right hj, or_iff_left hj]

end Pending

section Sums

variable {x : Worker σ W} {d : Deque.Config ℕ (Fin W)}

/-- Worker `w` goes to another point. -/
theorem codes_update (hworker : sys'.worker = Function.update sys.worker w x) :
    sys'.codes + (sys.worker w).codes + ∑ j ∈ sys.pending, {sys.code j} =
      sys.codes + x.codes + ∑ j ∈ sys'.pending, {sys'.code j} := by
  have hsum := sum_update (fun y : Worker σ W => y.codes) sys.worker w x
  rw [codes, codes, hworker]
  calc
    _ = ∑ u, (Function.update sys.worker w x u).codes + (sys.worker w).codes +
        (∑ j ∈ sys'.pending, {sys'.code j} + ∑ j ∈ sys.pending, {sys.code j}) := by ac_rfl
    _ = ∑ u, (sys.worker u).codes + x.codes +
        (∑ j ∈ sys'.pending, {sys'.code j} + ∑ j ∈ sys.pending, {sys.code j}) := by rw [hsum]
    _ = _ := by ac_rfl

/-- The codes when only those of one worker change. -/
theorem codes_same (hworker : sys'.worker = Function.update sys.worker w x) (hcode : sys'.code = sys.code)
    (hpending : sys'.pending = sys.pending) : sys'.codes + (sys.worker w).codes = sys.codes + x.codes := by
  have hsum := codes_update hworker
  rw [hcode, hpending] at hsum
  exact add_right_cancel hsum

/-- Job `j` is started. -/
theorem codes_start (hworker : sys'.worker = Function.update sys.worker w x) (hcode : sys'.code = sys.code)
    (hpending : sys'.pending = sys.pending.erase j) (hj : j ∈ sys.pending) :
    sys'.codes + (sys.worker w).codes + {sys.code j} = sys.codes + x.codes := by
  have hsum := codes_update hworker
  rw [hcode, hpending, ← Finset.add_sum_erase _ _ hj, ← add_assoc] at hsum
  exact add_right_cancel hsum

/-- Worker `w` goes to another point, and the deque of worker `v` changes. -/
theorem work_update (hworker : sys'.worker = Function.update sys.worker w x)
    (hdeque : sys'.deque = Function.update sys.deque v d) :
    sys'.work + (sys.worker w).work + (sys.deque v).work + 5 * sys.pending.card =
      sys.work + x.work + d.work + 5 * sys'.pending.card := by
  have hworkers := sum_update (fun y : Worker σ W => y.work) sys.worker w x
  have hdeques := sum_update (fun c : Deque.Config ℕ (Fin W) => c.work) sys.deque v d
  rw [work, work, hworker, hdeque]
  omega

end Sums

end System

namespace Deque.Config

variable {J : Type} {c d : Deque.Config J (Fin W)} {w : Fin W}

/-- The work when only the owner changes. -/
theorem work_owner (hthief : d.thief = c.thief) : d.work + c.owner.work = c.work + d.owner.work := by
  rw [Config.work, Config.work, hthief]
  omega

/-- The work when only one thief changes. -/
theorem work_thief (howner : d.owner = c.owner) (hthief : ∀ u ≠ w, d.thief u = c.thief u) :
    d.work + (c.thief w).work = c.work + (d.thief w).work := by
  have hupdate : d.thief = Function.update c.thief w (d.thief w) := by
    funext u
    by_cases hu : u = w
    · rw [hu, Function.update_self]
    · rw [Function.update_of_ne hu, hthief u hu]
  have hsum := System.sum_update (fun y : ThiefCall J => y.work) c.thief w (d.thief w)
  rw [← hupdate] at hsum
  rw [Config.work, Config.work, howner]
  omega

variable {T : DequeType} {job : J}

/-- A call that returns has had its return to make. -/
theorem Step.returnPush_work {r : Bool × Bool} (hstep : Step T (.returnPush job r) c d) : d.work < c.work := by
  cases hstep with
  | returnPush hcall =>
    have hsum := work_owner (c := c) (d := { c with owner := .none }) rfl
    rw [hcall, OwnerCall.work, OwnerCall.work] at hsum
    omega

/-- The return of a pop leaves less work. -/
theorem Step.returnPop_work {r : Bool} (hstep : Step T (.returnPop r) c d) : d.work + 2 ≤ c.work := by
  cases hstep with
  | returnPop hcall =>
    have hsum := work_owner (c := c) (d := { c with owner := .none }) rfl
    rw [hcall, OwnerCall.work, OwnerCall.work] at hsum
    omega

/-- The start of a theft leaves the work. -/
theorem Step.callTop_work (hstep : Step T (.callTop w) c d) : d.work = c.work := by
  have hidle : (c.thief w).work = 4 := by
    cases hstep with
    | callTop hnone => rw [hnone, ThiefCall.work]
  obtain ⟨howner, hthief, _, hnumber, _⟩ := hstep.callTop_effect
  have hsum := work_thief howner hthief
  rw [ThiefCall.work_of_number hnumber, hidle] at hsum
  omega

/-- The return of a theft starts its work again. -/
theorem Reachable.returnTop_work (hreach : Reachable T c) {r : Option J × Bool}
    (hstep : Step T (.returnTop w r) c d) :
    d.work + (c.thief w).work = c.work + 4 := by
  obtain ⟨howner, hthief, _, hbusy, _⟩ := hreach.returnTop hstep
  have hsum := work_thief howner hthief
  rwa [ThiefCall.work_of_number (ThiefCall.number_eq_none hbusy)] at hsum

/-- A step of the owner leaves less work. -/
theorem Reachable.stepOwner_work (hreach : Reachable T c) (hstep : Step T .stepOwner c d) : d.work < c.work := by
  obtain ⟨_, hthief, _⟩ := hreach.stepOwner hstep
  have hsum := work_owner hthief
  have hlt := hreach.owner_work_lt hstep
  omega

/-- A step of a thief leaves less work, or the thief has not read the word yet. -/
theorem Reachable.stepThief_work (hreach : Reachable T c) (hstep : Step T (.stepThief w) c d) :
    d.work < c.work ∨ (c.thief w).number = none ∧ d.work = c.work := by
  obtain ⟨howner, hthief, _⟩ := hreach.stepThief hstep
  have hsum := work_thief howner hthief
  refine (hreach.thief_work hstep).imp (fun hlt => ?_) fun heq => ⟨heq.1, ?_⟩
  · omega
  · have hequal := heq.2
    omega

end Deque.Config

end ToggleTree
