import ToggleTree.Scheduler.Residual

/-!
# The stack discipline

The jobs in the deque of a worker are the jobs that its stack has published last: thieves take
the oldest, the worker itself takes back the newest. This module states the discipline on the
stacks and the queues alone and shows that each kind of move keeps it.
-/

namespace ToggleTree

open ForkJoin ForkJoin.Prog

variable {σ : Type} {W : ℕ}

/-- Where a job is on its way: with the `parallel_do` that has constructed it, in the deque of
that worker, in the hands of the thief that has taken it, running, or done. Jobs that the
`parallel_do` runs itself are `settled`, and so is whatever is not a job yet. -/
inductive Status (W : ℕ)
  | held (w : Fin W)
  | queued (w : Fin W)
  | taken (victim thief : Fin W)
  | running (w : Fin W)
  | finished
  | settled

namespace Status

/-- The job has left the deque at its head. -/
def Stolen : Status W → Prop
  | taken _ _ | running _ | finished => True
  | _ => False

/-- The job is not done, and its `parallel_do` does not run it. -/
def Live : Status W → Prop
  | held _ | queued _ | taken _ _ | running _ => True
  | _ => False

/-- Nobody has started the job. -/
def Unstarted : Status W → Prop
  | held _ | queued _ | taken _ _ => True
  | _ => False

/-- A change of status that worker `w` does not notice. -/
def Unnoticed (w : Fin W) (old new : Status W) : Prop :=
  new = old ∨ (old ≠ held w ∧ old ≠ queued w ∧ old ≠ running w ∧ (old.Stolen → new.Stolen))

end Status

/-- The discipline of one worker. -/
structure Tidy (w : Fin W) (x : View σ) (queue : List ℕ) (count : ℕ) (home : ℕ → Fin W)
    (status : ℕ → Status W) : Prop where
  nodup : (x.joins.map Prod.fst).Nodup
  home : ∀ e ∈ x.joins, home e.1 = w ∧ e.2 < e.1 ∧ e.1 < count
  tasks_nodup : x.tasks.Nodup
  running : ∀ t ∈ x.tasks, status t = .running w
  published : ∃ gone, x.published = queue.reverse ++ gone ∧ ∀ j ∈ gone, (status j).Stolen
  queued : ∀ j ∈ queue, status j = .queued w
  withheld : ∀ j ∈ x.withheld, status j = .held w

/-- The discipline of all workers. -/
structure Layout (view : Fin W → View σ) (queue : Fin W → List ℕ) (count : ℕ) (home : ℕ → Fin W)
    (status : ℕ → Status W) : Prop where
  tidy : ∀ w, Tidy w (view w) (queue w) count home status
  fresh : ∀ j, count ≤ j → status j = .settled
  joined : ∀ t, t ≠ 0 → (status t).Live → ∃ v u, (t, u) ∈ (view v).joins
  alone : ∀ t, t ≠ 0 → (status t).Stolen → 1 < W

/-- What is left of each job, `res`, agrees with the stacks and with the states of the jobs. -/
structure Meaning (view : Fin W → View σ) (code : ℕ → Code σ) (status : ℕ → Status W)
    (res : ℕ → Prog σ Empty Unit) : Prop where
  code : ∀ j, (status j).Unstarted → res j = (code j).prog
  finished : ∀ j, status j = .finished → res j = ret ()
  solves : ∀ w, ∀ e ∈ (view w).unwind res, res e.1 = e.2

section Frame

variable {w : Fin W} {x : View σ} {queue : List ℕ} {count count' : ℕ} {home home' : ℕ → Fin W}
  {status status' : ℕ → Status W}

/-- What a worker does not notice leaves it tidy. -/
theorem Tidy.frame (h : Tidy w x queue count home status) (hcount : count ≤ count')
    (hhome : ∀ j < count, home' j = home j)
    (hstatus : ∀ j, Status.Unnoticed w (status j) (status' j)) :
    Tidy w x queue count' home' status' where
  nodup := h.nodup
  home e he := by
    obtain ⟨hw, hlt, hc⟩ := h.home e he
    exact ⟨by rw [hhome _ hc, hw], hlt, hc.trans_le hcount⟩
  tasks_nodup := h.tasks_nodup
  running t ht := by
    have hold := h.running t ht
    rcases hstatus t with heq | ⟨_, _, hne, _⟩
    · rw [heq, hold]
    · exact (hne hold).elim
  published := by
    obtain ⟨gone, hgone, hstolen⟩ := h.published
    refine ⟨gone, hgone, fun j hj => ?_⟩
    rcases hstatus j with heq | ⟨_, _, _, himp⟩
    · rw [heq]
      exact hstolen j hj
    · exact himp (hstolen j hj)
  queued j hj := by
    have hold := h.queued j hj
    rcases hstatus j with heq | ⟨_, hne, _, _⟩
    · rw [heq, hold]
    · exact (hne hold).elim
  withheld j hj := by
    have hold := h.withheld j hj
    rcases hstatus j with heq | ⟨hne, _, _, _⟩
    · rw [heq, hold]
    · exact (hne hold).elim

/-- A worker notices only changes of its own jobs. -/
theorem Status.unnoticed_update (j₀ : ℕ) (new : Status W) (h : Status.Unnoticed w (status j₀) new)
    (j : ℕ) : Status.Unnoticed w (status j) (Function.update status j₀ new j) := by
  by_cases hj : j = j₀
  · subst hj
    rw [Function.update_self]
    exact h
  · rw [Function.update_of_ne hj]
    exact Or.inl rfl

variable {view : Fin W → View σ} {queues : Fin W → List ℕ}

/-- One worker changes its stack and its queue. -/
theorem Layout.update (h : Layout view queues count home status) (x' : View σ) (queue' : List ℕ)
    (home' : ℕ → Fin W) (status' : ℕ → Status W)
    (htidy : Tidy w x' queue' count' home' status') (hcount : count ≤ count')
    (hhome : ∀ j < count, home' j = home j)
    (hstatus : ∀ v ≠ w, ∀ j, Status.Unnoticed v (status j) (status' j))
    (hfresh : ∀ j, count' ≤ j → status' j = .settled)
    (hjoined : ∀ t ≠ 0, (status' t).Live →
      (∃ u, (t, u) ∈ x'.joins) ∨ ((status t).Live ∧ ∀ u, (t, u) ∉ (view w).joins))
    (halone : ∀ t ≠ 0, (status' t).Stolen → 1 < W) :
    Layout (Function.update view w x') (Function.update queues w queue') count' home' status' where
  tidy v := by
    by_cases hv : v = w
    · subst hv
      rw [Function.update_self, Function.update_self]
      exact htidy
    · rw [Function.update_of_ne hv, Function.update_of_ne hv]
      exact (h.tidy v).frame hcount hhome (hstatus v hv)
  fresh := hfresh
  joined t ht hlive := by
    rcases hjoined t ht hlive with ⟨u, hu⟩ | ⟨hold, hnot⟩
    · exact ⟨w, u, by rwa [Function.update_self]⟩
    · obtain ⟨v, u, hu⟩ := h.joined t ht hold
      have hv : v ≠ w := by
        rintro rfl
        exact hnot u hu
      exact ⟨v, u, by rwa [Function.update_of_ne hv]⟩
  alone := halone

/-- A job that is joined has been created and is not the first one. -/
theorem Layout.join_pos (h : Layout view queues count home status) {e : ℕ × ℕ}
    (he : e ∈ (view w).joins) : e.1 ≠ 0 ∧ e.1 < count := by
  obtain ⟨_, hlt, hc⟩ := (h.tidy w).home e he
  exact ⟨by omega, hc⟩

/-- A job is executed by one worker. -/
theorem Layout.worker_unique (h : Layout view queues count home status) {v : Fin W} {t : ℕ}
    (hw : t ∈ (view w).tasks) (hv : t ∈ (view v).tasks) : v = w := by
  have heq := ((h.tidy v).running t hv).symm.trans ((h.tidy w).running t hw)
  exact Status.running.inj heq

end Frame

section Lift

variable {w : Fin W} {count : ℕ} {home : ℕ → Fin W} {status : ℕ → Status W}
  {view : Fin W → View σ} {queues : Fin W → List ℕ} {s s' : σ}

/-- A step of a job is a step of the whole program: what is left of the jobs above it, one
after the other, makes the same step. -/
theorem Layout.lift (h : Layout view queues count home status) {t : ℕ} (hmem : t ∈ (view w).tasks)
    (res : ℕ → Prog σ Empty Unit) (p' : Prog σ Empty Unit)
    (hpending : ∀ v, ∀ e ∈ (view v).unwind res, (e.1 = t → e.2 = p') ∧ (e.1 ≠ t → res e.1 = e.2))
    (hstep : ForkJoin.Step Empty.elim (res t) s p' s') :
    ∃ res', (∀ v, ∀ e ∈ (view v).unwind res', res' e.1 = e.2) ∧
      ForkJoin.Step Empty.elim (res 0) s (res' 0) s' ∧
      ∀ j, (∀ v, j ∉ (view v).tasks) → res' j = res j := by
  -- The induction climbs from a job to the job that waits for it, which is older.
  induction t using Nat.strong_induction_on generalizing w res p' with
  | _ t ih =>
    have hkeep : ∀ j, (∀ v, j ∉ (view v).tasks) → Function.update res t p' j = res j := by
      intro j hj
      have hne : j ≠ t := by
        rintro rfl
        exact hj w hmem
      exact Function.update_of_ne hne _ _
    have hframe (v : Fin W) (hnot : t ∉ (view v).joins.map Prod.fst) :
        (view v).unwind (Function.update res t p') = (view v).unwind res :=
      View.unwind_congr fun e he => Function.update_of_ne
        (fun heq => hnot (List.mem_map.mpr ⟨e, he, heq⟩)) _ _
    have hsolved (v : Fin W) (e : ℕ × Prog σ Empty Unit) (he : e ∈ (view v).unwind res) :
        Function.update res t p' e.1 = e.2 := by
      by_cases het : e.1 = t
      · rw [het, Function.update_self, (hpending v e he).1 het]
      · rw [Function.update_of_ne het, (hpending v e he).2 het]
    by_cases ht : t = 0
    · subst ht
      refine ⟨Function.update res 0 p', fun v e he => ?_, ?_, hkeep⟩
      · rw [hframe v fun hz => ?_] at he
        · exact hsolved v e he
        · obtain ⟨e', he', heq⟩ := List.mem_map.mp hz
          exact (h.join_pos he').1 heq
      · rw [Function.update_self]
        exact hstep
    · have hlive : (status t).Live := by
        rw [(h.tidy w).running t hmem]
        trivial
      obtain ⟨v, u, hu⟩ := h.joined t ht hlive
      obtain ⟨hhome, hut, _⟩ := (h.tidy v).home _ hu
      have huv : u ∈ (view v).tasks := View.snd_mem_tasks hu
      have hne : u ≠ t := Nat.ne_of_lt hut
      obtain ⟨q, q', before, rest, hold, hnew, hq⟩ :=
        View.unwind_update (view v) res (h.tidy v).nodup hu hstep
      have hqu : res u = q := (hpending v (u, q) (by rw [hold]; simp)).2 hne
      have hnodup : (before.map Prod.fst ++ u :: rest.map Prod.fst).Nodup := by
        have := (h.tidy v).tasks_nodup
        rw [← View.unwind_map_fst _ res, hold, List.map_append, List.map_cons] at this
        exact this
      have hother (e : ℕ × Prog σ Empty Unit) (he : e ∈ before ++ rest) : e.1 ≠ u := by
        rintro rfl
        have hmem' : e.1 ∈ before.map Prod.fst ++ rest.map Prod.fst := by
          rw [← List.map_append]
          exact List.mem_map_of_mem (f := Prod.fst) he
        exact (List.nodup_middle.mp hnodup |> List.nodup_cons.mp).1 hmem'
      obtain ⟨res', hsolves, hmain, hkept⟩ := ih u hut huv
        (Function.update res t p') q' (fun v' e he => by
          by_cases hv : v' = v
          · subst hv
            rw [hnew] at he
            rcases List.mem_append.mp he with hb | hr
            · refine ⟨fun heq => (hother e (List.mem_append_left _ hb) heq).elim, fun _ => ?_⟩
              exact hsolved v' e (by rw [hold]; exact List.mem_append_left _ hb)
            · rcases List.mem_cons.mp hr with rfl | hr
              · exact ⟨fun _ => rfl, fun hne => (hne rfl).elim⟩
              · refine ⟨fun heq => (hother e (List.mem_append_right _ hr) heq).elim, fun _ => ?_⟩
                exact hsolved v' e (by rw [hold]; exact List.mem_append_right _ (List.mem_cons_of_mem _ hr))
          · have hnot : t ∉ (view v').joins.map Prod.fst := by
              intro hz
              obtain ⟨e', he', heq⟩ := List.mem_map.mp hz
              have := ((h.tidy v').home e' he').1
              rw [heq, hhome] at this
              exact hv this.symm
            rw [hframe v' hnot] at he
            refine ⟨fun heq => ?_, fun _ => hsolved v' e he⟩
            exact (hv (h.worker_unique huv (heq ▸ View.mem_tasks he))).elim)
        (by rw [Function.update_of_ne hne, hqu]; exact hq)
      refine ⟨res', hsolves, ?_, fun j hj => (hkept j hj).trans (hkeep j hj)⟩
      rwa [Function.update_of_ne (Ne.symm ht)] at hmain

end Lift

end ToggleTree
