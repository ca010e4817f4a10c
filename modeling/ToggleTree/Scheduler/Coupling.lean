import ToggleTree.Scheduler.Effect
import ToggleTree.Scheduler.Moves

/-!
# Stacks and deques

What the calls of a worker on its own deque have done so far decides whether the job of its top
`parallel_do` counts as published. The deques hold the jobs of the queues, and a thief that has
taken a job holds it until it starts it.
-/

namespace ToggleTree

open ForkJoin ForkJoin.Prog

variable {σ : Type} {W : ℕ}

/-- What a worker asks of its own deque. -/
def Worker.request : Worker σ W → Option (Deque.Request ℕ)
  | .push job _ _ _ => some (.push job)
  | .pop _ _ _ => some .pop
  | _ => none

/-- What runs at the top of a worker, given what its call on its own deque has done so far. -/
def Worker.view (number : Option ℕ) : Worker σ W → View σ
  | .run code stack => some (code.prog, stack)
  | .push job lf next stack => some (lf.prog, .left job number.isSome next stack)
  | .pop job next stack => some (ret (), .left job number.isNone next stack)
  | .seek loop => loop.view
  | .probe loop _ => loop.view

/-- Nothing on the stack has been stolen or waits for a thief. -/
def Stack.Solo : Stack σ → Prop
  | main => True
  | spawned _ => False
  | left _ _ _ below => below.Solo
  | right _ _ below => below.Solo
  | waiting _ _ _ _ => False

/-- The worker has never had to steal. -/
def Worker.Solo : Worker σ W → Prop
  | .run _ stack => stack.Solo
  | .push _ _ _ stack => stack.Solo
  | .pop _ _ stack => stack.Solo
  | .seek .idle => True
  | .seek (.waitFor _ _ _) => False
  | .probe _ _ => False

/-- The deques hold the jobs of the queues, and the calls on them know what they do. -/
structure Coupled (T : DequeType) (deque : Fin W → Deque.Config ℕ (Fin W)) (worker : Fin W → Worker σ W)
    (queues : Fin W → List ℕ) (status : ℕ → Status W) : Prop where
  reachable : ∀ v, Deque.Config.Reachable T (deque v)
  holds : ∀ v, (deque v).ledger.Holds (queues v)
  request : ∀ w, (deque w).owner.request = (worker w).request
  own : ∀ w job next stack m, worker w = .pop job next stack → (deque w).owner.number = some m →
    (deque w).ledger.pushed[m]? = some job
  taken : ∀ v w m, ((deque v).thief w).number = some m →
    ∃ job, (deque v).ledger.pushed[m]? = some job ∧ status job = .taken v w
  busy : ∀ v w, ((deque v).thief w).busy → 1 < W

section Coupling

variable {T : DequeType} {deque : Fin W → Deque.Config ℕ (Fin W)} {worker : Fin W → Worker σ W}
  {queues : Fin W → List ℕ} {status status' : ℕ → Status W} {w v : Fin W} {x : Worker σ W}
  {d : Deque.Config ℕ (Fin W)} {queue : List ℕ}

/-- A worker moves without touching a deque. -/
theorem Coupled.goto (h : Coupled T deque worker queues status) (hrequest : x.request = none)
    (hold : (worker w).request = none)
    (hstatus : ∀ j v u, status j = .taken v u → status' j = .taken v u) :
    Coupled T deque (Function.update worker w x) queues status' where
  reachable := h.reachable
  holds := h.holds
  request u := by
    by_cases hu : u = w
    · subst hu
      rw [Function.update_self, h.request, hold, hrequest]
    · rw [Function.update_of_ne hu, h.request]
  own u job next stack m hpop hm := by
    by_cases hu : u = w
    · subst hu
      rw [Function.update_self] at hpop
      rw [hpop] at hrequest
      cases hrequest
    · rw [Function.update_of_ne hu] at hpop
      exact h.own u job next stack m hpop hm
  taken v u m hm := by
    obtain ⟨job, hjob, htaken⟩ := h.taken v u m hm
    exact ⟨job, hjob, hstatus job v u htaken⟩
  busy := h.busy

/-- A worker moves together with its own deque. -/
theorem Coupled.own_deque (h : Coupled T deque worker queues status) (x : Worker σ W)
    (status' : ℕ → Status W) (hreach : Deque.Config.Reachable T d) (hholds : d.ledger.Holds queue)
    (hrequest : d.owner.request = x.request)
    (hown : ∀ job next stack m, x = .pop job next stack → d.owner.number = some m →
      d.ledger.pushed[m]? = some job)
    (hthief : d.thief = (deque w).thief)
    (hpushed : ∀ (m : ℕ) (j : ℕ), (deque w).ledger.pushed[m]? = some j → d.ledger.pushed[m]? = some j)
    (hstatus : ∀ j v u, status j = .taken v u → status' j = .taken v u) :
    Coupled T (Function.update deque w d) (Function.update worker w x) (Function.update queues w queue)
      status' where
  reachable u := by
    by_cases hu : u = w
    · subst hu
      rwa [Function.update_self]
    · rw [Function.update_of_ne hu]
      exact h.reachable u
  holds u := by
    by_cases hu : u = w
    · subst hu
      rwa [Function.update_self, Function.update_self]
    · rw [Function.update_of_ne hu, Function.update_of_ne hu]
      exact h.holds u
  request u := by
    by_cases hu : u = w
    · subst hu
      rwa [Function.update_self, Function.update_self]
    · rw [Function.update_of_ne hu, Function.update_of_ne hu]
      exact h.request u
  own u job next stack m hpop hm := by
    by_cases hu : u = w
    · subst hu
      rw [Function.update_self] at hpop hm ⊢
      exact hown job next stack m hpop hm
    · rw [Function.update_of_ne hu] at hpop hm ⊢
      exact h.own u job next stack m hpop hm
  taken v u m hm := by
    by_cases hv : v = w
    · subst hv
      rw [Function.update_self] at hm ⊢
      rw [hthief] at hm
      obtain ⟨job, hjob, htaken⟩ := h.taken v u m hm
      exact ⟨job, hpushed m job hjob, hstatus job v u htaken⟩
    · rw [Function.update_of_ne hv] at hm ⊢
      obtain ⟨job, hjob, htaken⟩ := h.taken v u m hm
      exact ⟨job, hjob, hstatus job v u htaken⟩
  busy v u hu := by
    by_cases hv : v = w
    · subst hv
      rw [Function.update_self, hthief] at hu
      exact h.busy v u hu
    · rw [Function.update_of_ne hv] at hu
      exact h.busy v u hu

/-- A thief moves in the deque of another worker. -/
theorem Coupled.foreign_deque (h : Coupled T deque worker queues status) (status' : ℕ → Status W)
    (hreach : Deque.Config.Reachable T d) (hholds : d.ledger.Holds queue)
    (howner : d.owner = (deque v).owner) (hpushed : d.ledger.pushed = (deque v).ledger.pushed)
    (halone : 1 < W)
    (hthief : ∀ u m, (d.thief u).number = some m →
      ∃ job, (deque v).ledger.pushed[m]? = some job ∧ status' job = .taken v u)
    (hstatus : ∀ j v' u, v' ≠ v → status j = .taken v' u → status' j = .taken v' u) :
    Coupled T (Function.update deque v d) worker (Function.update queues v queue) status' where
  reachable u := by
    by_cases hu : u = v
    · subst hu
      rwa [Function.update_self]
    · rw [Function.update_of_ne hu]
      exact h.reachable u
  holds u := by
    by_cases hu : u = v
    · subst hu
      rwa [Function.update_self, Function.update_self]
    · rw [Function.update_of_ne hu, Function.update_of_ne hu]
      exact h.holds u
  request u := by
    by_cases hu : u = v
    · subst hu
      rw [Function.update_self, howner, h.request]
    · rw [Function.update_of_ne hu, h.request]
  own u job next stack m hpop hm := by
    by_cases hu : u = v
    · subst hu
      rw [Function.update_self, howner] at hm
      rw [Function.update_self, hpushed]
      exact h.own u job next stack m hpop hm
    · rw [Function.update_of_ne hu] at hm ⊢
      exact h.own u job next stack m hpop hm
  taken v' u m hm := by
    by_cases hv : v' = v
    · subst hv
      rw [Function.update_self] at hm ⊢
      rw [hpushed]
      exact hthief u m hm
    · rw [Function.update_of_ne hv] at hm ⊢
      obtain ⟨job, hjob, htaken⟩ := h.taken v' u m hm
      exact ⟨job, hjob, hstatus job v' u hv htaken⟩
  busy _ _ _ := halone

end Coupling

end ToggleTree
