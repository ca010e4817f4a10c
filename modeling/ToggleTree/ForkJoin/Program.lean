import Mathlib.Data.List.Range
import Mathlib.Tactic

/-!
# Fork–join programs over a shared state

A program is a tree of atomic steps on one shared state, of fork–join pairs and of calls
of named procedures. The small-step relation interleaves the two branches of a fork in
every possible way, so a statement about all runs is a statement about all schedules.

Nothing here refers to a particular program: the state, the procedure names and the
results are parameters.
-/

namespace ForkJoin

/-- Programs over the state `σ` whose procedures are named by `ι`. -/
inductive Prog (σ ι : Type) : Type → Type 1
  | ret {α : Type} (a : α) : Prog σ ι α
  | atom {α β : Type} (act : σ → β × σ) (next : β → Prog σ ι α) : Prog σ ι α
  | pick {α β : Type} (dflt : β) (next : β → Prog σ ι α) : Prog σ ι α
  | call {α : Type} (proc : ι) (next : Prog σ ι α) : Prog σ ι α
  | fork {α β γ : Type} (left : Prog σ ι β) (right : Prog σ ι γ)
      (next : β → γ → Prog σ ι α) : Prog σ ι α

namespace Prog

variable {σ ι α β γ : Type}

/-- Sequential composition: run `p`, then the continuation on its result. -/
protected def bind : {α : Type} → Prog σ ι α → (α → Prog σ ι β) → Prog σ ι β
  | _, ret a, f => f a
  | _, atom act next, f => atom act fun b => (next b).bind f
  | _, pick d next, f => pick d fun b => (next b).bind f
  | _, call proc next, f => call proc (next.bind f)
  | _, fork l r next, f => fork l r fun b c => (next b c).bind f

/-- The programs are a monad. -/
instance : Monad (Prog σ ι) where
  pure := ret
  bind := Prog.bind

/-- The value of the monad is the program that has returned it. -/
@[simp] theorem pure_eq (a : α) : (pure a : Prog σ ι α) = ret a := rfl

/-- A sequence after a value. -/
@[simp] theorem ret_bind (a : α) (f : α → Prog σ ι β) : (ret a >>= f) = f a := rfl

/-- A sequence after an atomic step. -/
@[simp] theorem atom_bind {δ : Type} (act : σ → δ × σ) (next : δ → Prog σ ι α)
    (f : α → Prog σ ι β) : (atom act next >>= f) = atom act fun b => next b >>= f := rfl

/-- A sequence after a choice. -/
@[simp] theorem pick_bind {δ : Type} (d : δ) (next : δ → Prog σ ι α) (f : α → Prog σ ι β) :
    (pick d next >>= f) = pick d fun b => next b >>= f := rfl

/-- A sequence after a call. -/
@[simp] theorem call_bind (proc : ι) (next : Prog σ ι α) (f : α → Prog σ ι β) :
    (call proc next >>= f) = call proc (next >>= f) := rfl

/-- A sequence after a fork. -/
@[simp] theorem fork_bind {δ ε : Type} (l : Prog σ ι δ) (r : Prog σ ι ε)
    (next : δ → ε → Prog σ ι α) (f : α → Prog σ ι β) :
    (fork l r next >>= f) = fork l r fun b c => next b c >>= f := rfl

/-- Returning the result of a program unchanged is the program itself. -/
theorem bind_ret (p : Prog σ ι α) : (p >>= ret) = p := by
  induction p with
  | ret a => rfl
  | atom act next ih => simp only [atom_bind, ih]
  | pick d next ih => simp only [pick_bind, ih]
  | call proc next ih => simp only [call_bind, ih]
  | fork l r next _ _ ih => simp only [fork_bind, ih]

/-- Sequential composition is associative. -/
theorem bind_assoc (p : Prog σ ι α) (f : α → Prog σ ι β) (g : β → Prog σ ι γ) :
    (p >>= f >>= g) = p >>= fun a => f a >>= g := by
  induction p with
  | ret a => rfl
  | atom act next ih => simp only [atom_bind, ih]
  | pick d next ih => simp only [pick_bind, ih]
  | call proc next ih => simp only [call_bind, ih]
  | fork l r next _ _ ih => simp only [fork_bind, ih]

/-- The monad laws. -/
instance : LawfulMonad (Prog σ ι) :=
  LawfulMonad.mk' _ (fun p => bind_ret p) (fun _ _ => rfl) (fun p f g => bind_assoc p f g)

/-- One atomic step that updates the state and returns a value. -/
def act (f : σ → β × σ) : Prog σ ι β := atom f ret

/-- One atomic step that only reads. -/
def read (f : σ → β) : Prog σ ι β := act fun s => (f s, s)

/-- One atomic step that only writes. -/
def modify (f : σ → σ) : Prog σ ι Unit := act fun s => ((), f s)

/-- Call a procedure and wait for it to return. -/
def invoke (proc : ι) : Prog σ ι Unit := call proc (ret ())

/-- Run two programs concurrently and wait for both. -/
def both (l : Prog σ ι Unit) (r : Prog σ ι Unit) : Prog σ ι Unit := fork l r fun _ _ => ret ()

/-- A sequential loop over `[start, stop)`. -/
def seqFor (start stop : ℕ) (f : ℕ → Prog σ ι Unit) : Prog σ ι Unit :=
  if start < stop then do f start; seqFor (start + 1) stop f else ret ()
termination_by stop - start

/-- A sequential loop over `[start, stop)` that carries an accumulator. -/
def foldFor (start stop : ℕ) (init : β) (f : ℕ → β → Prog σ ι β) : Prog σ ι β :=
  if start < stop then do
    let b ← f start init
    foldFor (start + 1) stop b f
  else ret init
termination_by stop - start

/-- A sequential search over `[start, stop)` for the first index that passes a test. -/
def findFor (start stop : ℕ) (test : ℕ → Prog σ ι Bool) : Prog σ ι (Option ℕ) :=
  if start < stop then do
    let found ← test start
    if found then ret (some start) else findFor (start + 1) stop test
  else ret none
termination_by stop - start

/-- A parallel loop over `[start, stop)`, split in halves down to single iterations.

A coarser granularity makes neighbouring iterations run one after the other; each such
run is also a run of this loop, so the granularity is not part of the model. -/
def parallelFor (start stop : ℕ) (f : ℕ → Prog σ ι Unit) : Prog σ ι Unit :=
  if stop - start ≤ 1 then
    if start < stop then f start else ret ()
  else
    let mid := start + (stop - start) / 2
    both (parallelFor start mid f) (parallelFor mid stop f)
termination_by stop - start

/-- A parallel loop whose iteration `i` stores its result in slot `i` of a local array. -/
def parallelCollect (start stop : ℕ) (f : ℕ → Prog σ ι β) : Prog σ ι (List β) :=
  if stop - start ≤ 1 then
    if start < stop then do
      let b ← f start
      ret [b]
    else ret []
  else
    let mid := start + (stop - start) / 2
    fork (parallelCollect start mid f) (parallelCollect mid stop f) fun bs cs => ret (bs ++ cs)
termination_by stop - start

/-- One concurrent branch for each entry of a list. -/
def parallelEach : List β → (β → Prog σ ι Unit) → Prog σ ι Unit
  | [], _ => ret ()
  | b :: bs, f => both (f b) (parallelEach bs f)

/-- The run of a program without procedures that finishes every left branch first. -/
def exec : {α : Type} → Prog σ Empty α → σ → α × σ
  | _, ret a, s => (a, s)
  | _, atom act next, s => exec (next (act s).1) (act s).2
  | _, pick d next, s => exec (next d) s
  | _, call proc _, _ => proc.elim
  | _, fork l r next, s =>
      exec (next (exec l s).1 (exec r (exec l s).2).1) (exec r (exec l s).2).2

/-- Running one program after the other. -/
theorem exec_bind (p : Prog σ Empty α) (f : α → Prog σ Empty β) (s : σ) :
    exec (p >>= f) s = exec (f (exec p s).1) (exec p s).2 := by
  induction p generalizing s with
  | ret a => rfl
  | atom act next ih => exact ih _ f _
  | pick d next ih => exact ih _ f _
  | call proc _ _ => exact proc.elim
  | fork l r next _ _ ih => exact ih _ _ f _

/-- Visit the entries of a list one after the other. -/
def seqEach : List β → (β → Prog σ ι Unit) → Prog σ ι Unit
  | [], _ => ret ()
  | b :: bs, f => do f b; seqEach bs f

/-- A sequential loop over two lists is the loop over the first one and the loop over the second one. -/
theorem exec_seqEach_append (bs cs : List β) (f : β → Prog σ Empty Unit) (s : σ) :
    exec (seqEach (bs ++ cs) f) s = exec (seqEach cs f) (exec (seqEach bs f) s).2 := by
  induction bs generalizing s with
  | nil => rfl
  | cons b bs ih =>
    change exec (f b >>= fun _ => seqEach (bs ++ cs) f) s = _
    rw [exec_bind, ih]
    change _ = exec (seqEach cs f) (exec (f b >>= fun _ => seqEach bs f) s).2
    rw [exec_bind]

/-- Run sequentially, a parallel loop visits its range in ascending order. -/
theorem exec_parallelFor (start stop : ℕ) (f : ℕ → Prog σ Empty Unit) (s : σ) :
    exec (parallelFor start stop f) s = exec (seqEach (List.range' start (stop - start)) f) s := by
  induction hn : stop - start using Nat.strong_induction_on generalizing start stop s with
  | _ n ih =>
    unfold parallelFor
    split
    · split
      · obtain rfl : n = 1 := by omega
        change _ = exec (f start >>= fun _ => ret ()) s
        rw [bind_ret]
      · obtain rfl : n = 0 := by omega
        rfl
    · have hmid : stop - start = (stop - start) / 2 + (stop - (start + (stop - start) / 2)) := by
        omega
      have hunit (x : Unit × σ) : ((), x.2) = x := rfl
      change ((), (exec (parallelFor _ stop f) (exec (parallelFor start _ f) s).2).2) = _
      rw [hunit, ih _ (by omega) start _ s rfl, ih _ (by omega) _ stop _ rfl, ← hn,
        show start + (stop - start) / 2 - start = (stop - start) / 2 by omega]
      conv_rhs => rw [hmid, ← List.range'_append_1, exec_seqEach_append]

end Prog

section Semantics

variable {σ ι α β γ : Type} (env : ι → Prog σ ι Unit)

open Prog

/-- One step of one branch. A fork joins once both of its branches have returned. -/
def Step : {α : Type} → Prog σ ι α → σ → Prog σ ι α → σ → Prop
  | _, ret _, _, _, _ => False
  | _, atom act next, s, p', s' => p' = next (act s).1 ∧ s' = (act s).2
  | _, pick _ next, s, p', s' => ∃ b, p' = next b ∧ s' = s
  | _, call proc next, s, p', s' => p' = (env proc >>= fun _ => next) ∧ s' = s
  | _, fork l r next, s, p', s' =>
      (∃ l', Step l s l' s' ∧ p' = fork l' r next) ∨
      (∃ r', Step r s r' s' ∧ p' = fork l r' next) ∨
      ∃ b c, l = ret b ∧ r = ret c ∧ p' = next b c ∧ s' = s

/-- Every run from `p` in state `s` is finite and ends with a result that satisfies `Q`. -/
inductive Total (Q : α → σ → Prop) : Prog σ ι α → σ → Prop
  | intro {p : Prog σ ι α} {s : σ} (post : ∀ v, p = ret v → Q v s)
      (step : ∀ p' s', Step env p s p' s' → Total Q p' s') : Total Q p s

/-- Finitely many steps. -/
inductive Steps : Prog σ ι α → σ → Prog σ ι α → σ → Prop
  | refl (p : Prog σ ι α) (s : σ) : Steps p s p s
  | tail {p p' p'' : Prog σ ι α} {s s' s'' : σ} (run : Steps p s p' s')
      (step : Step env p' s' p'' s'') : Steps p s p'' s''

/-- A program that has not returned can take a step in every state: nothing blocks. -/
theorem step_progress (p : Prog σ ι α) (s : σ) : (∃ v, p = ret v) ∨ ∃ p' s', Step env p s p' s' := by
  induction p with
  | ret v => exact Or.inl ⟨v, rfl⟩
  | atom act next _ => exact Or.inr ⟨_, _, rfl, rfl⟩
  | pick d next _ => exact Or.inr ⟨_, _, d, rfl, rfl⟩
  | call proc next _ => exact Or.inr ⟨_, _, rfl, rfl⟩
  | fork l r next ihl ihr _ =>
    right
    rcases ihl with ⟨b, rfl⟩ | ⟨l', s', hl⟩
    · rcases ihr with ⟨c, rfl⟩ | ⟨r', s', hr⟩
      · exact ⟨_, _, Or.inr (Or.inr ⟨b, c, rfl, rfl, rfl, rfl⟩)⟩
      · exact ⟨_, _, Or.inr (Or.inl ⟨r', hr, rfl⟩)⟩
    · exact ⟨_, _, Or.inl ⟨l', hl, rfl⟩⟩

variable {env}

/-- A step of a composition is a step of its first part, or of the rest once that returned. -/
theorem step_bind {p : Prog σ ι α} {f : α → Prog σ ι β} {s s' : σ} {q : Prog σ ι β}
    (h : Step env (p >>= f) s q s') :
    (∃ v, p = ret v ∧ Step env (f v) s q s') ∨ ∃ p', Step env p s p' s' ∧ q = (p' >>= f) := by
  cases p with
  | ret v => exact Or.inl ⟨v, rfl, h⟩
  | atom act next =>
    obtain ⟨rfl, rfl⟩ := h
    exact Or.inr ⟨_, ⟨rfl, rfl⟩, rfl⟩
  | pick d next =>
    obtain ⟨b, rfl, rfl⟩ := h
    exact Or.inr ⟨_, ⟨b, rfl, rfl⟩, rfl⟩
  | call proc next =>
    obtain ⟨rfl, rfl⟩ := h
    exact Or.inr ⟨_, ⟨rfl, rfl⟩, (Prog.bind_assoc _ _ _).symm⟩
  | fork l r next =>
    rcases h with ⟨l', hl, rfl⟩ | ⟨r', hr, rfl⟩ | ⟨b, c, hl, hr, rfl, rfl⟩
    · exact Or.inr ⟨_, Or.inl ⟨l', hl, rfl⟩, rfl⟩
    · exact Or.inr ⟨_, Or.inr (Or.inl ⟨r', hr, rfl⟩), rfl⟩
    · exact Or.inr ⟨_, Or.inr (Or.inr ⟨b, c, hl, hr, rfl, rfl⟩), rfl⟩

/-- The first part of a composition steps inside the composition. -/
theorem step_bind_left {p p' : Prog σ ι α} {s s' : σ} (f : α → Prog σ ι β)
    (h : Step env p s p' s') : Step env (p >>= f) s (p' >>= f) s' := by
  cases p with
  | ret v => exact h.elim
  | atom act next =>
    obtain ⟨rfl, rfl⟩ := h
    exact ⟨rfl, rfl⟩
  | pick d next =>
    obtain ⟨b, rfl, rfl⟩ := h
    exact ⟨b, rfl, rfl⟩
  | call proc next =>
    obtain ⟨rfl, rfl⟩ := h
    exact ⟨Prog.bind_assoc _ _ _, rfl⟩
  | fork l r next =>
    rcases h with ⟨l', hl, rfl⟩ | ⟨r', hr, rfl⟩ | ⟨b, c, hl, hr, rfl, rfl⟩
    · exact Or.inl ⟨l', hl, rfl⟩
    · exact Or.inr (Or.inl ⟨r', hr, rfl⟩)
    · exact Or.inr (Or.inr ⟨b, c, hl, hr, rfl, rfl⟩)

/-- Steps of the left branch are steps of the fork. -/
theorem Steps.fork_left {l l' : Prog σ ι β} {r : Prog σ ι γ} {next : β → γ → Prog σ ι α}
    {s s' : σ} (h : Steps env l s l' s') : Steps env (fork l r next) s (fork l' r next) s' := by
  induction h with
  | refl => exact Steps.refl _ _
  | tail _ hstep ih => exact Steps.tail ih (Or.inl ⟨_, hstep, rfl⟩)

/-- Steps of the right branch are steps of the fork. -/
theorem Steps.fork_right {l : Prog σ ι β} {r r' : Prog σ ι γ} {next : β → γ → Prog σ ι α}
    {s s' : σ} (h : Steps env r s r' s') : Steps env (fork l r next) s (fork l r' next) s' := by
  induction h with
  | refl => exact Steps.refl _ _
  | tail _ hstep ih => exact Steps.tail ih (Or.inr (Or.inl ⟨_, hstep, rfl⟩))

/-- Runs are transitive. -/
theorem Steps.trans {p p' p'' : Prog σ ι α} {s s' s'' : σ} (h : Steps env p s p' s')
    (h' : Steps env p' s' p'' s'') : Steps env p s p'' s'' := by
  induction h' with
  | refl => exact h
  | tail _ hstep ih => exact Steps.tail (ih h) hstep

/-- Steps of the first part of a composition are steps of the composition. -/
theorem Steps.bind_left {p p' : Prog σ ι α} {s s' : σ} (f : α → Prog σ ι β)
    (h : Steps env p s p' s') : Steps env (p >>= f) s (p' >>= f) s' := by
  induction h with
  | refl => exact Steps.refl _ _
  | tail _ hstep ih => exact Steps.tail ih (step_bind_left f hstep)

/-- A step before a run. -/
theorem Steps.head {p p' p'' : Prog σ ι α} {s s' s'' : σ} (h : Step env p s p' s')
    (h' : Steps env p' s' p'' s'') : Steps env p s p'' s'' :=
  Steps.trans (Steps.tail (Steps.refl p s) h) h'

/-- The sequential run is one of the runs. -/
theorem steps_exec (env : Empty → Prog σ Empty Unit) (p : Prog σ Empty α) (s : σ) :
    Steps env p s (ret (exec p s).1) (exec p s).2 := by
  induction p generalizing s with
  | ret a => exact Steps.refl _ _
  | atom act next ih => exact Steps.head ⟨rfl, rfl⟩ (ih _ _)
  | pick d next ih => exact Steps.head ⟨d, rfl, rfl⟩ (ih _ _)
  | call proc _ _ => exact proc.elim
  | fork l r next ihl ihr ih =>
    refine (Steps.fork_left (ihl s)).trans ((Steps.fork_right (ihr _)).trans ?_)
    exact Steps.head (Or.inr (Or.inr ⟨_, _, rfl, rfl, rfl, rfl⟩)) (ih _ _ _)

namespace Total

variable {Q Q' : α → σ → Prop}

/-- Total correctness holds of every configuration a run passes through. -/
theorem steps {p p' : Prog σ ι α} {s s' : σ} (h : Total env Q p s)
    (run : Steps env p s p' s') : Total env Q p' s' := by
  induction run with
  | refl => exact h
  | tail _ hstep ih =>
    cases ih h with
    | intro _ step => exact step _ _ hstep

/-- A run that has returned satisfies the postcondition. -/
theorem result {p : Prog σ ι α} {s s' : σ} {v : α} (h : Total env Q p s)
    (run : Steps env p s (ret v) s') : Q v s' := by
  cases h.steps run with
  | intro post _ => exact post v rfl

/-- The sequential run satisfies the postcondition. -/
theorem exec {Q : α → σ → Prop} {env : Empty → Prog σ Empty Unit} {p : Prog σ Empty α} {s : σ}
    (h : Total env Q p s) : Q (exec p s).1 (exec p s).2 :=
  h.result (steps_exec env p s)

/-- Some run returns: the postcondition is not satisfied vacuously. -/
theorem returns {p : Prog σ ι α} {s : σ} (h : Total env Q p s) :
    ∃ v s', Steps env p s (ret v) s' ∧ Q v s' := by
  induction h with
  | @intro p s post step ih =>
    rcases step_progress env p s with ⟨v, rfl⟩ | ⟨p', s', hstep⟩
    · exact ⟨v, s, Steps.refl _ _, post v rfl⟩
    · obtain ⟨v, s'', run, hq⟩ := ih p' s' hstep
      exact ⟨v, s'', Steps.head hstep run, hq⟩

/-- Weaken the postcondition. -/
theorem mono {p : Prog σ ι α} {s : σ} (h : Total env Q p s) (hq : ∀ v s', Q v s' → Q' v s') :
    Total env Q' p s := by
  induction h with
  | intro post _ ih => exact intro (fun v hv => hq v _ (post v hv)) ih

/-- Two postconditions that hold of every run hold together. -/
theorem and {p : Prog σ ι α} {s : σ} (h : Total env Q p s) (h' : Total env Q' p s) :
    Total env (fun v s' => Q v s' ∧ Q' v s') p s := by
  induction h with
  | intro post _ ih =>
    cases h' with
    | intro post' step' =>
      exact intro (fun v hv => ⟨post v hv, post' v hv⟩) fun p' s' hstep => ih p' s' hstep (step' p' s' hstep)

/-- A program that has returned. -/
theorem ret {v : α} {s : σ} (h : Q v s) : Total env Q (ret v) s :=
  intro (fun _ hv => by cases hv; exact h) (fun _ _ hstep => hstep.elim)

/-- An atomic step. -/
theorem atom {δ : Type} {act : σ → δ × σ} {next : δ → Prog σ ι α} {s : σ}
    (h : Total env Q (next (act s).1) (act s).2) : Total env Q (atom act next) s :=
  intro (fun _ hv => by cases hv) (fun _ _ hstep => by obtain ⟨rfl, rfl⟩ := hstep; exact h)

/-- A choice. -/
theorem pick {δ : Type} {d : δ} {next : δ → Prog σ ι α} {s : σ}
    (h : ∀ b, Total env Q (next b) s) : Total env Q (pick d next) s :=
  intro (fun _ hv => by cases hv) (fun _ _ hstep => by obtain ⟨b, rfl, rfl⟩ := hstep; exact h b)

/-- A call. -/
theorem call {proc : ι} {next : Prog σ ι α} {s : σ}
    (h : Total env Q (env proc >>= fun _ => next) s) : Total env Q (call proc next) s :=
  intro (fun _ hv => by cases hv) (fun _ _ hstep => by obtain ⟨rfl, rfl⟩ := hstep; exact h)

/-- Sequential composition: the first result and state are the start of the rest. -/
theorem bind {R : β → σ → Prop} {p : Prog σ ι α} {f : α → Prog σ ι β} {s : σ}
    (hp : Total env Q p s) (hf : ∀ v s', Q v s' → Total env R (f v) s') :
    Total env R (p >>= f) s := by
  induction hp with
  | @intro p s post step ih =>
    rcases step_progress env p s with ⟨v, rfl⟩ | ⟨p', s', hstep⟩
    · exact hf v s (post v rfl)
    · have hne : ∀ v, p ≠ Prog.ret v := by
        rintro v rfl
        exact hstep
      refine intro ?_ ?_
      · intro w hw
        cases p with
        | ret v => exact (hne v rfl).elim
        | _ => cases hw
      · intro q s'' hq
        rcases step_bind hq with ⟨v, hv, _⟩ | ⟨p'', hp'', rfl⟩
        · exact (hne v hv).elim
        · exact ih p'' s'' hp''

/-- An atomic step in a sequence. -/
theorem act {δ : Type} {f : σ → δ × σ} {next : δ → Prog σ ι α} {s : σ}
    (h : Total env Q (next (f s).1) (f s).2) : Total env Q (Prog.act f >>= next) s :=
  atom h

/-- A read in a sequence. -/
theorem read {δ : Type} {f : σ → δ} {next : δ → Prog σ ι α} {s : σ}
    (h : Total env Q (next (f s)) s) : Total env Q (Prog.read f >>= next) s :=
  atom h

/-- A write in a sequence. -/
theorem modify {f : σ → σ} {next : Unit → Prog σ ι α} {s : σ}
    (h : Total env Q (next ()) (f s)) : Total env Q (Prog.modify f >>= next) s :=
  atom h

/-- A call of a procedure is its body. -/
theorem invoke {proc : ι} {Q : Unit → σ → Prop} {s : σ} (h : Total env Q (env proc) s) :
    Total env Q (Prog.invoke proc) s :=
  call (h.bind fun _ _ hq => ret hq)

end Total

end Semantics

end ForkJoin
