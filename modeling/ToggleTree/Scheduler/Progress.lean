import ToggleTree.Scheduler.Schedule

/-!
# The scheduler does not deadlock

A worker waits for a job that is younger than everything on its stack, so chains of workers that
wait for one another end at a worker that can go on. Wake-ups play no part in this: a thread that
sleeps has no job.
-/

namespace ToggleTree

open ForkJoin ForkJoin.Prog

variable {σ : Type} {W : ℕ}

/-- The job that the loop of a worker waits for. -/
def Worker.awaited : Worker σ W → Option ℕ
  | .seek (.waitFor job _ _) => some job
  | .probe (.waitFor job _ _) _ => some job
  | _ => none

/-- A job that is waited for has been published. -/
theorem Stack.waits_subset (st : Stack σ) : st.waits ⊆ st.published := by
  induction st with
  | main => exact List.Subset.refl _
  | spawned job => exact List.Subset.refl _
  | left job b next below ih =>
    cases b with
    | true => exact fun j hj => List.mem_cons_of_mem _ (ih hj)
    | false => exact ih
  | right job next below ih => exact ih
  | waiting stolen job next below ih => exact List.cons_subset_cons job ih

namespace System

/-- Worker `w` waits for a job that is not done and that is on the stack of worker `u`. -/
def WaitsOn (sys : System σ W) (w u : Fin W) : Prop :=
  ∃ j, (sys.worker w).awaited = some j ∧ sys.done j = false ∧ j ∈ (sys.view u).tasks

/-- The next step of worker `w` makes progress: the worker executes code, it is in a call on its own
deque, it has claimed a job, or the job that it waits for is done. -/
def Advances (sys : System σ W) (w : Fin W) : Prop :=
  match sys.worker w with
  | .run .done .main => False
  | .run _ _ => True
  | .push _ _ _ _ => True
  | .pop _ _ _ => True
  | .seek loop => ∃ job next stack, loop = .waitFor job next stack ∧ sys.done job = true
  | .probe _ v => ((sys.deque v).thief w).number ≠ none

variable {T : DequeType} {sys sys' : System σ W} {queues : Fin W → List ℕ} {home : ℕ → Fin W}
  {status : ℕ → Status W} {res : ℕ → Prog σ Empty Unit} {w u : Fin W} {j : ℕ}

section Order

/-- What is waited for has been published. -/
theorem waits_subset (sys : System σ W) (w : Fin W) : (sys.worker w).waits ⊆ (sys.view w).published := by
  rw [view]
  cases sys.worker w with
  | run code stack => exact stack.waits_subset
  | push job lf next stack => exact Stack.waits_subset (.left job (sys.deque w).owner.number.isSome next stack)
  | pop job next stack => exact Stack.waits_subset (.left job (sys.deque w).owner.number.isNone next stack)
  | seek loop =>
    cases loop with
    | idle => exact List.Subset.refl _
    | waitFor job next below => exact List.cons_subset_cons job below.waits_subset
  | probe loop v =>
    cases loop with
    | idle => exact List.Subset.refl _
    | waitFor job next below => exact List.cons_subset_cons job below.waits_subset

/-- A worker that waits has the `parallel_do` that waits at the top of its stack. -/
theorem view_of_awaited (hw : (sys.worker w).awaited = some j) :
    j ∈ (sys.worker w).waits ∧ ∃ next below, sys.view w = some (ret (), .left j true next below) := by
  rw [view]
  cases hx : sys.worker w with
  | seek loop =>
    rw [hx] at hw
    cases loop with
    | idle => cases hw
    | waitFor job next below =>
      obtain rfl := Option.some.inj hw
      exact ⟨List.mem_cons_self, next, below, rfl⟩
  | probe loop v =>
    rw [hx] at hw
    cases loop with
    | idle => cases hw
    | waitFor job next below =>
      obtain rfl := Option.some.inj hw
      exact ⟨List.mem_cons_self, next, below, rfl⟩
  | _ =>
    rw [hx] at hw
    cases hw

variable [NeZero W]

/-- A worker waits for a job that is younger than all jobs on its stack. -/
theorem Custody.lt_awaited (h : Custody sys) {i : ℕ} (hw : (sys.worker w).awaited = some j)
    (hi : i ∈ (sys.view w).tasks) :
    i < j := by
  obtain ⟨_, next, below, hview⟩ := view_of_awaited hw
  have hordered := h.ordered w
  rw [hview] at hordered hi
  exact hordered.1 i hi

/-- Along a chain of waits the jobs get younger. -/
theorem Custody.lt_of_chain (h : Custody sys) (hchain : Relation.TransGen sys.WaitsOn w u) :
    ∃ j, (sys.worker w).awaited = some j ∧ ∀ j', (sys.worker u).awaited = some j' → j < j' := by
  induction hchain with
  | single hwait =>
    obtain ⟨j, hj, _, hmem⟩ := hwait
    exact ⟨j, hj, fun j' hj' => h.lt_awaited hj' hmem⟩
  | tail _ hwait ih =>
    obtain ⟨i, hi, _, hmem⟩ := hwait
    obtain ⟨j, hj, hlt⟩ := ih
    exact ⟨j, hj, fun j' hj' => (hlt i hi).trans (h.lt_awaited hj' hmem)⟩

/-- No worker waits, however indirectly, for a job on its own stack. -/
theorem Custody.acyclic (h : Custody sys) (w : Fin W) : ¬Relation.TransGen sys.WaitsOn w w := by
  intro hchain
  obtain ⟨j, hj, hlt⟩ := h.lt_of_chain hchain
  exact lt_irrefl j (hlt j hj)

/-- A job that is waited for is done, or a worker has it. -/
theorem Custody.holder (h : Custody sys) (hj : j ∈ (sys.worker w).waits) (hdone : sys.done j = false) :
    ∃ u, sys.Holds u j := by
  rcases h.published w j (waits_subset sys w hj) with hq | hd | hheld
  · exact absurd hq (h.waited w j hj)
  · rw [hdone] at hd
    cases hd
  · exact hheld

end Order

section Ready

/-- The job that the worker waits for is done. -/
def Released (sys : System σ W) (w : Fin W) : Prop := ∃ j, (sys.worker w).awaited = some j ∧ sys.done j = true

/-- A worker with a stack runs or waits. -/
theorem advances_or_awaits (hmain : sys.worker w ≠ .run .done .main) (hview : sys.view w ≠ none) :
    sys.Advances w ∨ ∃ j, (sys.worker w).awaited = some j := by
  unfold Advances
  split
  · next hw => exact absurd hw hmain
  · exact Or.inl trivial
  · exact Or.inl trivial
  · exact Or.inl trivial
  · next loop hw =>
    cases loop with
    | idle =>
      rw [view, hw] at hview
      exact absurd rfl hview
    | waitFor job next below =>
      rw [hw]
      exact Or.inr ⟨job, rfl⟩
  · next loop v hw =>
    cases loop with
    | idle =>
      rw [view, hw] at hview
      exact absurd rfl hview
    | waitFor job next below =>
      rw [hw]
      exact Or.inr ⟨job, rfl⟩

variable [NeZero W]

/-- A worker that has a job in its hands continues with it. -/
theorem Custody.advances_of_inHands (h : Custody sys) (hw : sys.InHands w j) : sys.Advances w := by
  obtain ⟨v, n, hn, _⟩ := hw
  have hbusy : ((sys.deque v).thief w).busy = true := by
    cases hcall : (sys.deque v).thief w with
    | none =>
      rw [hcall] at hn
      cases hn
    | top rest number => rfl
  obtain ⟨loop, hprobe⟩ := Worker.eq_probe ((h.calls v w).mp hbusy)
  rw [Advances, hprobe]
  change ((sys.deque v).thief w).number ≠ none
  rw [hn]
  exact Option.some_ne_none n

/-- A chain of waits ends at a worker that goes on or is released. -/
theorem Custody.exists_ready_of_awaited (h : Custody sys) (hinv : Inv T sys queues home status res)
    (hw : (sys.worker w).awaited = some j) : ∃ u, sys.Advances u ∨ sys.Released u := by
  -- The induction is on the number of jobs that are younger than the awaited one.
  induction hn : sys.count - j using Nat.strong_induction_on generalizing w j with
  | _ n ih =>
    obtain ⟨hmem, next, below, hview⟩ := view_of_awaited hw
    have hlt := hinv.published_lt (waits_subset sys w hmem)
    cases hdone : sys.done j with
    | true => exact ⟨w, Or.inr ⟨j, hw, hdone⟩⟩
    | false =>
      obtain ⟨u, hu | hu⟩ := h.holder hmem hdone
      · have hne : sys.view u ≠ none := by
          intro hnone
          rw [hnone] at hu
          cases hu
        have hmain : sys.worker u ≠ .run .done .main := by
          intro hmain
          rw [view, hmain] at hu
          have hpos :=
            hinv.layout.join_pos (w := w) (e := (j, below.task)) (by rw [hview]; exact List.mem_cons_self)
          exact hpos.1 (List.mem_singleton.mp hu)
        rcases advances_or_awaits hmain hne with hadv | ⟨i, hi⟩
        · exact ⟨u, Or.inl hadv⟩
        · have hyounger := h.lt_awaited hi hu
          exact ih (sys.count - i) (by omega) hi rfl
      · exact ⟨u, Or.inl (h.advances_of_inHands hu)⟩

/-- While the program runs, a worker goes on or is released. -/
theorem Custody.exists_ready (h : Custody sys) (hinv : Inv T sys queues home status res)
    (hrun : sys.worker 0 ≠ .run .done .main) : ∃ u, sys.Advances u ∨ sys.Released u := by
  have hne : sys.view 0 ≠ none := by
    intro hnone
    have := h.rooted
    rw [hnone] at this
    exact this
  rcases advances_or_awaits hrun hne with hadv | ⟨j, hj⟩
  · exact ⟨0, Or.inl hadv⟩
  · exact h.exists_ready_of_awaited hinv hj

end Ready

section Enabled

/-- An owner that asks for nothing is in no call. -/
theorem owner_eq_none {d : Deque.Config ℕ (Fin W)} (h : d.owner.request = none) : d.owner = .none := by
  cases hd : d.owner with
  | none => rfl
  | _ =>
    rw [hd] at h
    cases h

/-- A call of `push_bottom` goes on or returns. -/
theorem exists_push {d : Deque.Config ℕ (Fin W)} {job : ℕ} (h : d.owner.request = some (.push job)) :
    (∃ d', Deque.Config.Step T .stepOwner d d') ∨ ∃ r d', Deque.Config.Step T (.returnPush job r) d d' := by
  cases hd : d.owner with
  | push job' rest number quiet =>
    rw [hd] at h
    obtain rfl : job' = job := by
      cases h
      rfl
    rcases step_progress Empty.elim rest d.deque with ⟨r, rfl⟩ | ⟨rest', deque', hstep⟩
    · exact Or.inr ⟨r, _, .returnPush hd⟩
    · exact Or.inl ⟨_, .stepPush hd hstep⟩
  | _ =>
    rw [hd] at h
    cases h

/-- A call of `pop_bottom` goes on or returns. -/
theorem exists_pop {d : Deque.Config ℕ (Fin W)} (h : d.owner.request = some .pop) :
    (∃ d', Deque.Config.Step T .stepOwner d d') ∨ ∃ r d', Deque.Config.Step T (.returnPop r) d d' := by
  cases hd : d.owner with
  | pop rest number =>
    rcases step_progress Empty.elim rest d.deque with ⟨r, rfl⟩ | ⟨rest', deque', hstep⟩
    · exact Or.inr ⟨r, _, .returnPop hd⟩
    · exact Or.inl ⟨_, .stepPop hd hstep⟩
  | _ =>
    rw [hd] at h
    cases h

/-- A call of `pop_top` goes on or returns. -/
theorem exists_top {d : Deque.Config ℕ (Fin W)} (h : (d.thief w).busy = true) :
    (∃ d', Deque.Config.Step T (.stepThief w) d d') ∨ ∃ r d', Deque.Config.Step T (.returnTop w r) d d' := by
  cases hd : d.thief w with
  | top rest number =>
    rcases step_progress Empty.elim rest d.deque with ⟨r, rfl⟩ | ⟨rest', deque', hstep⟩
    · exact Or.inr ⟨r, _, .returnTop hd⟩
    · exact Or.inl ⟨_, .stepTop hd hstep⟩
  | none =>
    rw [hd] at h
    cases h

variable [NeZero W]

/-- A worker inside a steal attempt is never blocked. -/
theorem Custody.enabled_probe (h : Custody sys) {loop : StealLoop σ} {v : Fin W}
    (hw : sys.worker w = .probe loop v) :
    ∃ sys' news, Acts T w sys sys' news := by
  have hbusy : ((sys.deque v).thief w).busy = true := by
    rw [h.calls, hw]
    rfl
  rcases exists_top (T := T) hbusy with ⟨d, hd⟩ | ⟨⟨job, empty⟩, d, hd⟩
  · exact ⟨_, _, .probing hw hd⟩
  · cases job with
    | none => exact ⟨_, _, .failed hw hd⟩
    | some job => exact ⟨_, _, .stole hw hd⟩

/-- A worker that can make progress is not blocked. -/
theorem Custody.enabled (h : Custody sys) (hinv : Inv T sys queues home status res) (hw : sys.Advances w) :
    ∃ sys' news, Acts T w sys sys' news := by
  have hrequest := hinv.coupled.request w
  cases hx : sys.worker w with
  | run code stack =>
    rw [hx] at hrequest
    have hnone := owner_eq_none hrequest
    cases code with
    | atom act next => exact ⟨_, _, .atom hx⟩
    | parallelDo lf rf next => exact ⟨_, _, .parallelDo hx (.callPush hnone)⟩
    | done =>
      cases stack with
      | main =>
        rw [Advances, hx] at hw
        exact hw.elim
      | spawned job => exact ⟨_, _, .spawned hx⟩
      | left job inDeque next stack =>
        cases inDeque with
        | false => exact ⟨_, _, .refused hx⟩
        | true => exact ⟨_, _, .leftDone hx (.callPop hnone)⟩
      | right job next stack => exact ⟨_, _, .rightDone hx⟩
      | waiting stolen job next stack => exact ⟨_, _, .waited hx⟩
  | push job lf next stack =>
    rw [hx] at hrequest
    rcases exists_push (T := T) hrequest with ⟨d, hd⟩ | ⟨⟨inDeque, first⟩, d, hd⟩
    · exact ⟨_, _, .pushing hx hd⟩
    · exact ⟨_, _, .pushed hx hd⟩
  | pop job next stack =>
    rw [hx] at hrequest
    rcases exists_pop (T := T) hrequest with ⟨d, hd⟩ | ⟨r, d, hd⟩
    · exact ⟨_, _, .popping hx hd⟩
    · cases r with
      | true => exact ⟨_, _, .popped hx hd⟩
      | false => exact ⟨_, _, .missed hx hd⟩
  | seek loop =>
    rw [Advances, hx] at hw
    obtain ⟨job, next, stack, rfl, hdone⟩ := hw
    exact ⟨_, _, .joined hx hdone⟩
  | probe loop v => exact h.enabled_probe hx

end Enabled

section Frames

/-- What others do keeps a worker released. -/
theorem Released.frame (h : sys.Released w) (hf : Frame w sys sys') (hinv : Inv T sys queues home status res) :
    sys'.Released w := by
  obtain ⟨j, hj, hdone⟩ := h
  refine ⟨j, ?_, hf.done j ?_ hdone⟩
  · rwa [hf.worker]
  · obtain ⟨hmem, _⟩ := view_of_awaited hj
    exact hinv.published_lt (waits_subset sys w hmem)

/-- What others do keeps a worker advancing. -/
theorem Advances.frame (h : sys.Advances w) (hf : Frame w sys sys') (hinv : Inv T sys queues home status res) :
    sys'.Advances w := by
  cases hx : sys.worker w with
  | seek loop =>
    rw [Advances, hx] at h
    rw [Advances, hf.worker, hx]
    obtain ⟨job, next, stack, rfl, hdone⟩ := h
    have hreleased : sys.Released w := ⟨job, by rw [hx]; rfl, hdone⟩
    obtain ⟨j, hj, hdone'⟩ := hreleased.frame hf hinv
    rw [hf.worker, hx] at hj
    obtain rfl := Option.some.inj hj
    exact ⟨job, next, stack, rfl, hdone'⟩
  | probe loop v =>
    rw [Advances, hx] at h
    rw [Advances, hf.worker, hx]
    change ((sys'.deque v).thief w).number ≠ none
    rw [hf.thief]
    exact h
  | run code stack =>
    rw [Advances, hx] at h
    rw [Advances, hf.worker, hx]
    cases code with
    | done => cases stack <;> exact h
    | _ => exact h
  | _ =>
    rw [Advances, hx] at h
    rw [Advances, hf.worker, hx]
    exact h

end Frames

end System

namespace Deque

variable {J K : Type} {T : DequeType}

/-- The points of a `pop_top` that has not claimed a job, with the atomic operations it has left. -/
inductive TopState.Searches : TopState J → ℕ → Prop
  | entered : Searches .entered 2
  | proposing (p : ℕ) : Searches (.proposing p) 1
  | returned (empty : Bool) : Searches (.returned (none, empty)) 0

/-- A thief that has not claimed a job is still searching. -/
theorem Config.Reachable.searches [DecidableEq K] {c : Config J K} (hreach : Config.Reachable T c) {k : K}
    (hbusy : (c.thief k).busy = true) (hnumber : (c.thief k).number = none) :
    ∃ point m, m ≤ 2 ∧ TopState.Searches point m ∧ c.thief k = .top (point.rest T) none := by
  obtain ⟨h, t, os, ts, hinv⟩ := hreach.inv
  have hvalid := hinv.thief_valid k
  rw [hinv.thief_eq] at hbusy hnumber ⊢
  cases hts : ts k with
  | none =>
    rw [hts] at hbusy
    cases hbusy
  | top point number =>
    rw [hts] at hnumber hvalid
    obtain rfl : number = none := hnumber
    cases point with
    | entered => exact ⟨_, 2, le_rfl, .entered, rfl⟩
    | proposing p => exact ⟨_, 1, one_le_two, .proposing p, rfl⟩
    | exchanged p job =>
      obtain ⟨⟨_, hk, _⟩, _⟩ := hvalid
      cases hk
    | clearing p job =>
      obtain ⟨⟨_, hk, _⟩, _⟩ := hvalid
      cases hk
    | returned r =>
      obtain ⟨job, empty⟩ := r
      cases job with
      | none => exact ⟨_, 0, Nat.zero_le 2, .returned empty, rfl⟩
      | some job =>
        obtain ⟨⟨_, hk, _⟩, _⟩ := hvalid
        cases hk

/-- A step of a thief that searches claims a job or brings the end of the search nearer. -/
theorem Config.Reachable.search_step [DecidableEq K] {c c' : Config J K} (hreach : Config.Reachable T c) {k : K}
    {point : TopState J} {m : ℕ} (hpoint : point.Searches m) (hcall : c.thief k = .top (point.rest T) none)
    (hstep : Config.Step T (.stepThief k) c c') :
    (c'.thief k).number ≠ none ∨ ∃ point' m', m' < m ∧ TopState.Searches point' m' ∧
      c'.thief k = .top (point'.rest T) none := by
  cases hstep with
  | @stepTop _ _ rest rest' number d hcall' hprog =>
    obtain ⟨rfl, rfl⟩ : point.rest T = rest ∧ none = number := by
      have heq := hcall.symm.trans hcall'
      cases heq
      exact ⟨rfl, rfl⟩
    simp only [Function.update_self]
    cases hpoint with
    | entered =>
      rcases TopState.step T hprog with ⟨_, rfl, rfl⟩ | ⟨_, h, _⟩ | ⟨_, h, _⟩ | ⟨_, _, h, _⟩ | ⟨_, _, h, _⟩
      · refine Or.inr ?_
        rw [if_pos rfl]
        split
        · exact ⟨_, 0, two_pos, .returned true, rfl⟩
        · exact ⟨_, 1, one_lt_two, .proposing _, rfl⟩
      all_goals cases h
    | proposing p =>
      rcases TopState.step T hprog with ⟨h, _⟩ | ⟨_, _, _, rfl, rfl⟩ | ⟨p', h, hp, rfl, _⟩ | ⟨_, _, h,
        _⟩ | ⟨_, _, h, _⟩
      · cases h
      · refine Or.inr ?_
        rw [if_pos rfl]
        exact ⟨_, 0, one_pos, .returned _, rfl⟩
      · cases h
        obtain ⟨h, t, os, ts, hinv⟩ := hreach.inv
        have hmoved : ((p >>> T.bits) <<< T.bits ||| T.toST (T.toST p + 1)) ≠ c.deque.pos := by
          rw [← hp, hinv.pos_eq, T.pack_next]
          exact T.pack_ne_head h t
        obtain ⟨_, i, hi⟩ := hreach.top_once hcall hprog hmoved
        refine Or.inl ?_
        rw [if_neg hmoved, hi]
        exact Option.some_ne_none i
      · cases h
      · cases h
    | returned empty => exact hprog.elim

end Deque

namespace Threads

variable {T : DequeType} {t t' : Threads σ W} {w u : Fin W} {n : ℕ}

/-- The next step of thread `w` makes progress. -/
def Advances (t : Threads σ W) (w : Fin W) : Prop := t.pause w = .none ∧ t.sys.Advances w

/-- Thread `w` makes progress after at most `n` other steps: it calls `may_wake_others` first, or it
finishes an attempt to steal that it has begun before the job that it waits for was done. -/
inductive Nears (T : DequeType) (t : Threads σ W) (w : Fin W) (n : ℕ) : Prop
  | ready (hawake : ¬(t.pause w).Asleep) (hdelay : (t.pause w).delay ≤ n) (h : t.sys.Advances w)
  | probing {loop : StealLoop σ} {v : Fin W} {point : Deque.TopState ℕ} {m : ℕ} (hpause : t.pause w = .none)
      (hw : t.sys.worker w = .probe loop v) (h : t.sys.Released w) (hpoint : point.Searches m)
      (hcall : (t.sys.deque v).thief w = .top (point.rest T) none) (hm : m + 4 ≤ n)

/-- A worker that nears its next step is awake. -/
theorem Nears.awake (h : Nears T t w n) : ¬(t.pause w).Asleep := by
  cases h with
  | ready hawake _ _ => exact hawake
  | probing hpause _ _ _ _ _ =>
    rw [hpause]
    exact id

variable [NeZero W] {main : Code σ} {s : σ}

/-- A thread that makes progress soon is not blocked. -/
theorem Nears.enabled (h : Nears T t w n) (hreach : Reachable T main s t) : ∃ t', Step T w t t' := by
  have hcustody := hreach.system.custody
  obtain ⟨_, _, _, _, hinv, _⟩ := hreach.system.simulates
  cases h with
  | ready hawake _ hadv =>
    cases hp : t.pause w with
    | none =>
      obtain ⟨sys, news, hact⟩ := hcustody.enabled hinv hadv
      exact ⟨_, .act hp hact⟩
    | wake => exact ⟨_, .wake hp⟩
    | raise => exact ⟨_, .raise hp⟩
    | notify => exact ⟨_, .notify hp⟩
    | _ =>
      rw [hp] at hawake
      exact absurd trivial hawake
  | probing hpause hw _ _ _ _ =>
    obtain ⟨sys, news, hact⟩ := hcustody.enabled_probe hw
    exact ⟨_, .act hpause hact⟩

/-- What the other threads do leaves it where it is. -/
theorem Nears.other (h : Nears T t w n) (hreach : Reachable T main s t) (hu : w ≠ u) (hstep : Step T u t t') :
    Nears T t' w n := by
  obtain ⟨_, _, _, _, hinv, _⟩ := hreach.system.simulates
  have hpause : t'.pause w = t.pause w := by
    rcases hstep.pause hu with heq | heq
    · exact heq
    · rw [heq, Pause.notified_eq h.awake]
  have hframe : System.Frame w t.sys t'.sys := by
    rcases hstep.sys with heq | ⟨_, hact⟩
    · rw [heq]
      exact ⟨rfl, fun _ => rfl, fun _ _ hd => hd⟩
    · exact hact.frame hinv hu
  cases h with
  | ready hawake hdelay hadv =>
    refine .ready ?_ ?_ (hadv.frame hframe hinv)
    · rwa [hpause]
    · rwa [hpause]
  | probing hnone hw hreleased hpoint hcall hm =>
    exact .probing (hpause.trans hnone) (hframe.worker.trans hw) (hreleased.frame hframe hinv) hpoint
      ((hframe.thief _).trans hcall) hm

/-- An access of an attempt to steal claims a job, brings the attempt nearer to its end, or ends it. -/
theorem Nears.own_probing (hreach : Reachable T main s t) {loop : StealLoop σ} {v : Fin W}
    {point : Deque.TopState ℕ} {m : ℕ}
    (hw : t.sys.worker w = .probe loop v) (hreleased : t.sys.Released w) (hpoint : point.Searches m)
    (hcall : (t.sys.deque v).thief w = .top (point.rest T) none) (hm : m + 4 ≤ n) {sys : System σ W} {news : Bool}
    (hact : System.Acts T w t.sys sys news) :
    ∃ k < n, Nears T ({ t with sys := sys }.goto w (if news then .wake else .none)) w k := by
  obtain ⟨_, _, _, _, hinv, _⟩ := hreach.system.simulates
  have hself (t : Threads σ W) (p : Pause) : (t.goto w p).pause w = p := Function.update_self _ _ _
  unfold System.Acts at hact
  rw [hw] at hact
  obtain ⟨d, ⟨rfl, hd, rfl⟩ | ⟨job, hd, rfl⟩ | ⟨hd, rfl⟩⟩ := hact
  · have hdeque : (t.sys.setDeque v d).deque v = d := Function.update_self _ _ _
    rcases (hinv.coupled.reachable v).search_step hpoint hcall hd with hclaimed | ⟨point', m', hlt,
      hpoint', hcall'⟩
    · refine ⟨0, by omega, .ready ?_ ?_ ?_⟩
      · rw [hself]
        exact id
      · rw [hself]
        exact le_rfl
      · change (t.sys.setDeque v d).Advances w
        rw [System.Advances, show (t.sys.setDeque v d).worker w = _ from hw]
        change (((t.sys.setDeque v d).deque v).thief w).number ≠ none
        rwa [hdeque]
    · refine ⟨m' + 4, by omega, .probing (hself _ _) hw hreleased hpoint' ?_ le_rfl⟩
      change ((t.sys.setDeque v d).deque v).thief w = _
      rwa [hdeque]
  · -- A thief that returns a job has claimed it.
    obtain ⟨_, _, _, _, _, hdealt⟩ := (hinv.coupled.reachable v).returnTop hd
    obtain ⟨i, hi, _⟩ := hdealt job rfl
    rw [hcall] at hi
    cases hi
  · obtain ⟨j, hj, hdone⟩ := hreleased
    rw [hw] at hj
    cases loop with
    | idle => cases hj
    | waitFor i next below =>
      obtain rfl := Option.some.inj hj
      refine ⟨3, by omega, .ready ?_ ?_ ?_⟩
      · rw [hself]
        split <;> exact id
      · rw [hself]
        split <;> decide
      · have hseek : ((t.sys.setDeque v d).goto w (.seek (.waitFor i next below))).worker w =
            .seek (.waitFor i next below) := Function.update_self _ _ _
        change ((t.sys.setDeque v d).goto w (.seek (.waitFor i next below))).Advances w
        rw [System.Advances, hseek]
        exact ⟨i, next, below, rfl, hdone⟩

/-- A step of its own makes progress or brings it nearer. -/
theorem Nears.own (h : Nears T t w n) (hreach : Reachable T main s t) (hnot : ¬t.Advances w)
    (hstep : Step T w t t') :
    ∃ m < n, Nears T t' w m := by
  have hself (t : Threads σ W) (p : Pause) : (t.goto w p).pause w = p := Function.update_self _ _ _
  cases h with
  | ready hawake hdelay hadv =>
    have hne : t.pause w ≠ .none := fun hp => hnot ⟨hp, hadv⟩
    have hready (t' : Threads σ W) (hsys : t'.sys = t.sys) (hawake' : ¬(t'.pause w).Asleep)
        (hlt : (t'.pause w).delay < (t.pause w).delay) : ∃ m < n, Nears T t' w m := by
      refine ⟨(t'.pause w).delay, by omega, .ready hawake' le_rfl ?_⟩
      rwa [hsys]
    cases hstep with
    | act hp _ => exact absurd hp hne
    | wake hp =>
      refine hready _ rfl ?_ ?_
      · rw [hself]
        split <;> exact id
      · rw [hself, hp]
        split <;> decide
    | raise hp =>
      refine hready _ rfl ?_ ?_
      · rw [hself]
        exact id
      · rw [hself, hp]
        decide
    | notify hp =>
      refine hready _ rfl ?_ ?_
      · rw [hself]
        exact id
      · rw [hself, hp]
        decide
    | doze hp _ => exact absurd hp hne
    | sleep hp => exact absurd (by rw [hp]; trivial) hawake
    | lower hp => exact absurd (by rw [hp]; trivial) hawake
    | block hp _ => exact absurd (by rw [hp]; trivial) hawake
    | pass hp _ => exact absurd (by rw [hp]; trivial) hawake
    | rise hp => exact absurd (by rw [hp]; trivial) hawake
  | @probing loop v point m hpause hw hreleased hpoint hcall hm =>
    cases hstep with
    | act _ hact => exact Nears.own_probing hreach hw hreleased hpoint hcall hm hact
    | doze _ hidle =>
      rw [hw] at hidle
      cases hidle
    | wake hp => exact absurd (hpause.symm.trans hp) Pause.noConfusion
    | raise hp => exact absurd (hpause.symm.trans hp) Pause.noConfusion
    | notify hp => exact absurd (hpause.symm.trans hp) Pause.noConfusion
    | sleep hp => exact absurd (hpause.symm.trans hp) Pause.noConfusion
    | lower hp => exact absurd (hpause.symm.trans hp) Pause.noConfusion
    | block hp _ => exact absurd (hpause.symm.trans hp) Pause.noConfusion
    | pass hp _ => exact absurd (hpause.symm.trans hp) Pause.noConfusion
    | rise hp => exact absurd (hpause.symm.trans hp) Pause.noConfusion

/-- A worker that goes on or is released is awake. -/
theorem Reachable.awake_of_ready (h : Reachable T main s t) (hw : t.sys.Advances w ∨ t.sys.Released w) :
    ¬(t.pause w).Asleep := by
  intro hasleep
  have hidle := h.idle hasleep
  rcases hw with hadv | ⟨j, hj, _⟩
  · rw [System.Advances, hidle] at hadv
    obtain ⟨_, _, _, heq, _⟩ := hadv
    cases heq
  · rw [hidle] at hj
    cases hj

omit [NeZero W] in
/-- A worker that is released and not in an attempt to steal makes progress. -/
theorem advances_of_released (h : t.sys.Released w) (hw : (t.sys.worker w).victim = none) : t.sys.Advances w := by
  obtain ⟨j, hj, hdone⟩ := h
  cases hx : t.sys.worker w with
  | seek loop =>
    rw [hx] at hj
    cases loop with
    | idle => cases hj
    | waitFor job next below =>
      obtain rfl := Option.some.inj hj
      rw [System.Advances, hx]
      exact ⟨job, next, below, rfl, hdone⟩
  | probe loop v =>
    rw [hx] at hw
    cases hw
  | _ =>
    rw [hx] at hj
    cases hj

/-- A thread whose worker goes on or is released makes progress soon. -/
theorem Reachable.nears (h : Reachable T main s t) (hw : t.sys.Advances w ∨ t.sys.Released w) : Nears T t w 6 := by
  have hcustody := h.system.custody
  obtain ⟨_, _, _, _, hinv, _⟩ := h.system.simulates
  have hawake := h.awake_of_ready hw
  have hdelay : (t.pause w).delay ≤ 6 := (Pause.delay_le _).trans (by decide)
  rcases hw with hadv | hreleased
  · exact .ready hawake hdelay hadv
  · cases hvictim : (t.sys.worker w).victim with
    | none => exact .ready hawake hdelay (advances_of_released hreleased hvictim)
    | some v =>
      obtain ⟨loop, hx⟩ := Worker.eq_probe hvictim
      by_cases hnumber : ((t.sys.deque v).thief w).number = none
      · obtain ⟨point, m, hm, hpoint, hcall⟩ :=
          (hinv.coupled.reachable v).searches ((hcustody.calls v w).mpr hvictim) hnumber
        refine .probing ((h.pause_or w).resolve_right fun hnone => ?_) hx hreleased hpoint hcall (by omega)
        rw [hvictim] at hnone
        cases hnone
      · refine .ready hawake hdelay ?_
        rw [System.Advances, hx]
        exact hnumber

/-- While the program runs, some thread makes progress soon. -/
theorem Reachable.exists_nears (h : Reachable T main s t) (hrun : t.sys.worker 0 ≠ .run .done .main) :
    ∃ w, Nears T t w 6 := by
  obtain ⟨_, _, _, _, hinv, _⟩ := h.system.simulates
  obtain ⟨w, hw⟩ := h.system.custody.exists_ready hinv hrun
  exact ⟨w, h.nears hw⟩

/-- A run from `t` in which thread `w` makes `k` steps, none of which makes progress. -/
inductive Delayed (T : DequeType) (w : Fin W) (t : Threads σ W) : ℕ → Threads σ W → Prop
  | refl : Delayed T w t 0 t
  | other {k : ℕ} {t' t'' : Threads σ W} {u : Fin W} (h : Delayed T w t k t') (hu : w ≠ u)
    (hstep : Step T u t' t'') :
      Delayed T w t k t''
  | own {k : ℕ} {t' t'' : Threads σ W} (h : Delayed T w t k t') (hnot : ¬t'.Advances w)
    (hstep : Step T w t' t'') :
      Delayed T w t (k + 1) t''

/-- A delay is as short as it has been announced. -/
theorem Nears.delayed (h : Nears T t w n) (hreach : Reachable T main s t) {k : ℕ} (hrun : Delayed T w t k t') :
    Reachable T main s t' ∧ ∃ m, m + k ≤ n ∧ Nears T t' w m := by
  induction hrun with
  | refl => exact ⟨hreach, n, le_rfl, h⟩
  | other _ hu hstep ih =>
    obtain ⟨hreach', m, hm, hnears⟩ := ih
    exact ⟨hreach'.step hstep, m, hm, hnears.other hreach' hu hstep⟩
  | own _ hnot hstep ih =>
    obtain ⟨hreach', m, hm, hnears⟩ := ih
    obtain ⟨m', hlt, hnears'⟩ := hnears.own hreach' hnot hstep
    exact ⟨hreach'.step hstep, m', by omega, hnears'⟩

/-- What the scheduler guarantees in a state. -/
structure Lively (T : DequeType) (t : Threads σ W) : Prop where
  /-- While the program runs, a thread that is awake makes progress after at most six other steps of
  its own, whatever the others do, and until then it is never blocked. -/
  progress : t.sys.worker 0 ≠ .run .done .main → ∃ w, ∀ k t', Delayed T w t k t' →
    ¬(t'.pause w).Asleep ∧ k ≤ 6 ∧ ∃ t'', Step T w t' t''
  acyclic : ∀ w, ¬Relation.TransGen t.sys.WaitsOn w w
  held : ∀ w, ∀ j ∈ (t.sys.worker w).waits, t.sys.done j = false → ∃ u, ¬(t.pause u).Asleep ∧ t.sys.Holds u j
  awake : ∀ w j, t.sys.Holds w j → ¬(t.pause w).Asleep

/-- A worker that holds a job is awake. -/
theorem Reachable.awake (h : Reachable T main s t) {j : ℕ} (hw : t.sys.Holds w j) : ¬(t.pause w).Asleep := by
  rcases hw with hmem | hhands
  · intro hasleep
    rw [System.view, h.idle hasleep] at hmem
    cases hmem
  · exact h.awake_of_ready (Or.inl (h.system.custody.advances_of_inHands hhands))

/-- A job that is waited for is done, or a worker that is awake has it. -/
theorem Reachable.held (h : Reachable T main s t) {j : ℕ} (hj : j ∈ (t.sys.worker w).waits)
    (hdone : t.sys.done j = false) : ∃ u, ¬(t.pause u).Asleep ∧ t.sys.Holds u j := by
  obtain ⟨u, hu⟩ := h.system.custody.holder hj hdone
  exact ⟨u, h.awake hu, hu⟩

/-- The scheduler does not deadlock. -/
theorem reachable_lively (h : Reachable T main s t) : Lively T t where
  progress hrun := by
    obtain ⟨w, hnears⟩ := h.exists_nears hrun
    refine ⟨w, fun k t' hdelayed => ?_⟩
    obtain ⟨hreach, m, hm, hnears'⟩ := hnears.delayed h hdelayed
    exact ⟨hnears'.awake, by omega, hnears'.enabled hreach⟩
  acyclic := h.system.custody.acyclic
  held _ _ hj hdone := h.held hj hdone
  awake _ _ hw := h.awake hw

/-- A `parallel_do` with one step in each branch. -/
def forking : Code ℕ := .parallelDo (.step (· + 1)) (.step (· + 2)) .done

/-- Thread 2 falls asleep, thread 1 steals the job of thread 0, and thread 0 finds it gone. -/
def waiting : List (Turn 3) :=
  let main : Fin 3 := (Fin.last 0).castSucc.castSucc
  let thief : Fin 3 := (Fin.last 1).castSucc
  let sleeper : Fin 3 := Fin.last 2
  .replicate 3 (.act sleeper 0) ++ .replicate 2 (.act thief 0) ++ .replicate 9 (.act main 0) ++
    .replicate 8 (.act thief 0) ++ .replicate 4 (.act main 0)

/-- Worker 0 waits for the job that worker 1 has, while thread 2 is in `go_sleep`. -/
theorem reached_waiting : (fun t : Threads ℕ 3 => (t.pause 2, (t.sys.worker 0).waits, t.sys.done 1))
    (reached .dq waiting forking 0) = (.wait 0 false, [1], false) := by
  decide +kernel

/-- The scheduler does not deadlock while one worker waits for a job and another one sleeps. -/
theorem reachable_lively_waiting : ∃ t : Threads ℕ 3, (t.pause 2).Asleep ∧ (t.sys.worker 0).waits = [1] ∧
    t.sys.done 1 = false ∧ Lively .dq t := by
  have hreached := reached_waiting
  have hlively := reachable_lively (reachable_reached .dq waiting forking 0)
  generalize reached .dq waiting forking 0 = t at hreached hlively
  simp only [Prod.mk.injEq] at hreached
  obtain ⟨hpause, hwaits, hdone⟩ := hreached
  refine ⟨t, ?_, hwaits, hdone, hlively⟩
  rw [hpause]
  trivial

/-- A thread whose worker goes on or is released is not blocked. -/
theorem Reachable.enabled (h : Reachable T main s t) (hw : t.sys.Advances w ∨ t.sys.Released w) :
    ∃ t', Step T w t t' :=
  (h.nears hw).enabled h

end Threads

end ToggleTree
