import ToggleTree.Parallel.Fairness
import ToggleTree.Scheduler.Sleep

/-!
# Schedules

A schedule says which thread takes the next turn, and with which dice it looks for a victim. What the
scheduler does under a schedule can be computed, and all of it is what the machine of the threads may
do. The dice reach every other worker, so the machine leaves the choice of a victim open.
-/

namespace ToggleTree

open ForkJoin ForkJoin.Prog

variable {σ : Type} {W : ℕ}

namespace System

variable {T : DequeType} {sys sys' : System σ W} {w v : Fin W} {loop : StealLoop σ}

/-- The worker that `roll_dice` chooses. -/
def chosen (h : 1 < W) (w : Fin W) (dice : ℕ) : Fin W := ⟨victim W w dice, ((victim_spec h w.isLt).1 dice).1⟩

/-- A worker never chooses itself. -/
theorem chosen_ne (h : 1 < W) (w : Fin W) (dice : ℕ) : chosen h w dice ≠ w :=
  fun heq => ((victim_spec h w.isLt).1 dice).2 (congrArg Fin.val heq)

/-- Some dice choose any other worker. -/
theorem exists_chosen (hv : v ≠ w) : ∃ h : 1 < W, ∃ dice, chosen h w dice = v := by
  have hne : (v : ℕ) ≠ w := Fin.val_ne_of_ne hv
  have hW : 1 < W := by omega
  obtain ⟨dice, hdice⟩ := (victim_spec hW w.isLt).2 v v.isLt hne
  exact ⟨hW, dice, Fin.ext hdice⟩

/-- A worker in a loop that steals throws the dice and calls `pop_top` on the deque of its victim. -/
def aim? (T : DequeType) (w : Fin W) (dice : ℕ) (loop : StealLoop σ) (sys : System σ W) : Option (System σ W) :=
  if h : 1 < W then
    (Deque.Config.perform T (.callTop w) (sys.deque (chosen h w dice))).map fun d =>
      (sys.setDeque (chosen h w dice) d).goto w (.probe loop (chosen h w dice))
  else none

/-- The machine lets a worker aim at exactly those workers that its dice can choose. -/
theorem exists_aim?_iff : (∃ dice, aim? T w dice loop sys = some sys') ↔ ∃ v d, v ≠ w ∧
    Deque.Config.Step T (.callTop w) (sys.deque v) d ∧ sys' = (sys.setDeque v d).goto w (.probe loop v) := by
  constructor
  · rintro ⟨dice, haim⟩
    unfold aim? at haim
    split at haim
    · next h =>
      obtain ⟨d, hd, rfl⟩ := Option.map_eq_some_iff.mp haim
      exact ⟨chosen h w dice, d, chosen_ne h w dice, Deque.Config.step_of_perform T hd, rfl⟩
    · cases haim
  · rintro ⟨v, d, hv, hd, rfl⟩
    obtain ⟨h, dice, rfl⟩ := exists_chosen hv
    refine ⟨dice, ?_⟩
    unfold aim?
    cases hd with
    | callTop hthief =>
      rw [dif_pos h, Deque.Config.perform, hthief]
      rfl

/-- What worker `w` does next, and whether it calls `may_wake_others` then. -/
def act? (T : DequeType) (w : Fin W) (dice : ℕ) (sys : System σ W) : Option (System σ W × Bool) :=
  match sys.worker w with
  | .run (.atom act next) stack =>
      some ({ sys with shared := act sys.shared }.goto w (.run (next sys.shared) stack), false)
  | .run (.parallelDo lf rf next) stack => (Deque.Config.perform T (.callPush sys.count)
    (sys.deque w)).map fun d =>
      (((sys.newJob rf).setDeque w d).goto w (.push sys.count lf next stack), false)
  | .run .done .main => none
  | .run .done (.spawned job) => some ((sys.finish job).goto w (.seek .idle), false)
  | .run .done (.left job false next stack) =>
    some (sys.goto w (.run (sys.code job) (.right job next stack)), false)
  | .run .done (.left job true next stack) => (Deque.Config.perform T .callPop (sys.deque w)).map fun d =>
      ((sys.setDeque w d).goto w (.pop job next stack), false)
  | .run .done (.right _ next stack) => some (sys.goto w (.run next stack), false)
  | .run .done (.waiting stolen job next stack) =>
      some ((sys.finish stolen).goto w (.seek (.waitFor job next stack)), false)
  | .push job lf next stack =>
      match (sys.deque w).owner with
      | .push _ (ret r) _ _ => (Deque.Config.perform T (.returnPush job r) (sys.deque w)).map fun d =>
          ((sys.setDeque w d).goto w (.run lf (.left job r.1 next stack)), r.2)
      | _ => (Deque.Config.perform T .stepOwner (sys.deque w)).map fun d => (sys.setDeque w d, false)
  | .pop job next stack =>
      match (sys.deque w).owner with
      | .pop (ret true) _ => (Deque.Config.perform T (.returnPop true) (sys.deque w)).map fun d =>
          ((sys.setDeque w d).goto w (.run (sys.code job) (.right job next stack)), false)
      | .pop (ret false) _ => (Deque.Config.perform T (.returnPop false) (sys.deque w)).map fun d =>
          ((sys.setDeque w d).goto w (.seek (.waitFor job next stack)), false)
      | _ => (Deque.Config.perform T .stepOwner (sys.deque w)).map fun d => (sys.setDeque w d, false)
  | .seek .idle => (aim? T w dice .idle sys).map fun sys' => (sys', false)
  | .seek (.waitFor job next stack) =>
      if sys.done job then some (sys.goto w (.run next stack), false)
      else (aim? T w dice (.waitFor job next stack) sys).map fun sys' => (sys', false)
  | .probe loop v =>
      match (sys.deque v).thief w with
      | .top (ret (some job, empty)) _ =>
          (Deque.Config.perform T (.returnTop w (some job, empty)) (sys.deque v)).map fun d =>
            ((sys.setDeque v d).goto w (.run (sys.code job) (loop.execute job)), !empty)
      | .top (ret (none, empty)) _ => (Deque.Config.perform T (.returnTop w (none, empty))
        (sys.deque v)).map fun d =>
          ((sys.setDeque v d).goto w (.seek loop), !empty)
      | _ => (Deque.Config.perform T (.stepThief w) (sys.deque v)).map fun d => (sys.setDeque v d, false)

/-- What a worker does next is something that it may do. -/
theorem acts_of_act? {dice : ℕ} {r : System σ W × Bool} (h : act? T w dice sys = some r) :
    Acts T w sys r.1 r.2 := by
  have hperform {label : Deque.Label ℕ (Fin W)} {v : Fin W} {f : Deque.Config ℕ (Fin W) → System σ W × Bool}
      (hr : (Deque.Config.perform T label (sys.deque v)).map f = some r) :
      ∃ d, Deque.Config.Step T label (sys.deque v) d ∧ f d = r := by
    obtain ⟨d, hd, hfd⟩ := Option.map_eq_some_iff.mp hr
    exact ⟨d, Deque.Config.step_of_perform T hd, hfd⟩
  unfold act? at h
  split at h
  · next hw =>
    obtain rfl := Option.some.inj h
    exact .atom hw
  · next hw =>
    obtain ⟨d, hd, rfl⟩ := hperform h
    exact .parallelDo hw hd
  · cases h
  · next hw =>
    obtain rfl := Option.some.inj h
    exact .spawned hw
  · next hw =>
    obtain rfl := Option.some.inj h
    exact .refused hw
  · next hw =>
    obtain ⟨d, hd, rfl⟩ := hperform h
    exact .leftDone hw hd
  · next hw =>
    obtain rfl := Option.some.inj h
    exact .rightDone hw
  · next hw =>
    obtain rfl := Option.some.inj h
    exact .waited hw
  · next hw =>
    split at h
    · obtain ⟨d, hd, rfl⟩ := hperform h
      exact .pushed hw hd
    · obtain ⟨d, hd, rfl⟩ := hperform h
      exact .pushing hw hd
  · next hw =>
    split at h
    · obtain ⟨d, hd, rfl⟩ := hperform h
      exact .popped hw hd
    · obtain ⟨d, hd, rfl⟩ := hperform h
      exact .missed hw hd
    · obtain ⟨d, hd, rfl⟩ := hperform h
      exact .popping hw hd
  · next hw =>
    obtain ⟨sys', haim, rfl⟩ := Option.map_eq_some_iff.mp h
    obtain ⟨v, d, hv, hd, rfl⟩ := exists_aim?_iff.mp ⟨dice, haim⟩
    exact .aim hw (by simp) hv hd
  · next job next stack hw =>
    split at h
    · next hdone =>
      obtain rfl := Option.some.inj h
      exact .joined hw hdone
    · next hdone =>
      obtain ⟨sys', haim, rfl⟩ := Option.map_eq_some_iff.mp h
      obtain ⟨v, d, hv, hd, rfl⟩ := exists_aim?_iff.mp ⟨dice, haim⟩
      refine .aim hw (fun job' next' stack' heq => ?_) hv hd
      obtain ⟨rfl, -, -⟩ := StealLoop.waitFor.inj heq
      exact Bool.eq_false_iff.mpr hdone
  · next hw =>
    split at h
    · obtain ⟨d, hd, rfl⟩ := hperform h
      exact .stole hw hd
    · obtain ⟨d, hd, rfl⟩ := hperform h
      exact .failed hw hd
    · obtain ⟨d, hd, rfl⟩ := hperform h
      exact .probing hw hd

end System

/-- A thread takes its next step, with the given dice, or an idle one goes to sleep. -/
inductive Turn (W : ℕ)
  | act (w : Fin W) (dice : ℕ)
  | doze (w : Fin W)

/-- The thread whose turn it is. -/
def Turn.thread : Turn W → Fin W
  | act w _ => w
  | doze w => w

namespace Threads

variable {T : DequeType} {t t' : Threads σ W} {w : Fin W}

/-- What a thread does on its turn, if it is not blocked. -/
def turn (T : DequeType) : Turn W → Threads σ W → Option (Threads σ W)
  | .doze w, t =>
      match t.pause w, t.sys.worker w with
      | .none, .seek .idle => some (t.goto w .sleep)
      | _, _ => none
  | .act w dice, t =>
      match t.pause w with
      | .none => (t.sys.act? T w dice).map fun r => { t with sys := r.1 }.goto w (if r.2 then .wake else .none)
      | .wake => some (t.goto w (if t.numAwake ≠ W then .raise else .none))
      | .raise => some ({ t with waitFlag := (t.waitFlag + 1) % 2 ^ 32 }.goto w .notify)
      | .notify => some ({ t with pause := fun u => (t.pause u).notified }.goto w .none)
      | .sleep => some (t.goto w (.lower t.waitFlag))
      | .lower epoch => some ({ t with numAwake := (t.numAwake + (2 ^ 64 - 1)) % 2 ^ 64 }.goto w
        (.wait epoch false))
      | .wait epoch false => some (t.goto w (if t.waitFlag = epoch then .wait epoch true else .rise))
      | .wait _ true => none
      | .rise => some ({ t with numAwake := (t.numAwake + 1) % 2 ^ 64 }.goto w .none)

/-- A turn is a step of its thread. -/
theorem step_of_turn {x : Turn W} (h : turn T x t = some t') : Step T x.thread t t' := by
  unfold turn at h
  split at h
  · split at h
    · next hp hw =>
      obtain rfl := Option.some.inj h
      exact .doze hp hw
    · cases h
  · split at h
    · next hp =>
      obtain ⟨r, hr, rfl⟩ := Option.map_eq_some_iff.mp h
      exact .act hp (System.acts_of_act? hr)
    · next hp =>
      obtain rfl := Option.some.inj h
      exact .wake hp
    · next hp =>
      obtain rfl := Option.some.inj h
      exact .raise hp
    · next hp =>
      obtain rfl := Option.some.inj h
      exact .notify hp
    · next hp =>
      obtain rfl := Option.some.inj h
      exact .sleep hp
    · next hp =>
      obtain rfl := Option.some.inj h
      exact .lower hp
    · next hp =>
      obtain rfl := Option.some.inj h
      split
      · next hflag => exact .block hp hflag
      · next hflag => exact .pass hp hflag
    · cases h
    · next hp =>
      obtain rfl := Option.some.inj h
      exact .rise hp

/-- The thread cannot move: it is blocked, or its worker has returned from the program. -/
def Still (t : Threads σ W) (w : Fin W) : Bool :=
  match t.pause w, t.sys.worker w with
  | .wait _ true, _ => true
  | .none, .run .done .main => true
  | _, _ => false

/-- A thread that makes a step is not blocked, and if it is not pausing its worker acts or is idle. -/
theorem Step.movable (h : Step T w t t') :
    (∀ epoch, t.pause w ≠ .wait epoch true) ∧
      (t.pause w = .none → (∃ sys news, System.Acts T w t.sys sys news) ∨ t.sys.worker w = .seek .idle) := by
  cases h with
  | act hp hact => exact ⟨fun _ he => (nomatch hp.symm.trans he), fun _ => Or.inl ⟨_, _, hact⟩⟩
  | doze hp hw => exact ⟨fun _ he => (nomatch hp.symm.trans he), fun _ => Or.inr hw⟩
  | block hp _ | pass hp _ =>
    exact ⟨fun _ he => (nomatch hp.symm.trans he), fun he => nomatch hp.symm.trans he⟩
  | wake hp | raise hp | notify hp | sleep hp | lower hp | rise hp =>
    exact ⟨fun _ he => (nomatch hp.symm.trans he), fun he => nomatch hp.symm.trans he⟩

/-- A worker that is still makes no step. -/
theorem not_step_of_still (h : t.Still w) : ¬Step T w t t' := by
  intro hstep
  obtain ⟨hblocked, hmoves⟩ := hstep.movable
  unfold Still at h
  split at h
  · next hp => exact hblocked _ hp
  · next hp hw =>
    rcases hmoves hp with ⟨_, _, hact⟩ | hidle
    · unfold System.Acts at hact
      rw [hw] at hact
      exact hact
    · cases hw.symm.trans hidle
  · cases h

variable [NeZero W] {main : Code σ} {s : σ}

/-- The run of a program under a schedule. -/
def scheduled (T : DequeType) (turns : List (Turn W)) (main : Code σ) (s : σ) :
    Fairness.Run (Step T : Fin W → Threads σ W → Threads σ W → Prop) :=
  Fairness.Run.ofTurns (fun _ _ _ => step_of_turn) turns (init main s)

/-- What a program has reached at the end of a schedule. -/
def reached (T : DequeType) (turns : List (Turn W)) (main : Code σ) (s : σ) : Threads σ W :=
  Fairness.Run.follow (turn T) turns (init main s)

/-- The run of a schedule comes to its end. -/
theorem state_scheduled (T : DequeType) (turns : List (Turn W)) (main : Code σ) (s : σ) :
    (scheduled T turns main s).state turns.length = reached T turns main s :=
  congrArg (fun turns => Fairness.Run.follow (turn T) turns (init main s)) (List.take_length ..)

/-- The states of a schedule are states that the program can reach. -/
theorem reachable_scheduled (T : DequeType) (turns : List (Turn W)) (main : Code σ) (s : σ) (k : ℕ) :
    Reachable T main s ((scheduled T turns main s).state k) :=
  Fairness.Run.invariant .init (fun _ _ _ h hstep => h.step hstep) k

/-- A schedule leads to a state that the program can reach. -/
theorem reachable_reached (T : DequeType) (turns : List (Turn W)) (main : Code σ) (s : σ) :
    Reachable T main s (reached T turns main s) :=
  state_scheduled T turns main s ▸ reachable_scheduled T turns main s turns.length

/-- A schedule is fair if no thread can move at its end. -/
theorem fair_scheduled {turns : List (Turn W)} (h : ∀ w, (reached T turns main s).Still w) :
    (scheduled T turns main s).Fair :=
  Fairness.Run.fair_ofTurns fun w _ => not_step_of_still (h w)

end Threads

end ToggleTree
