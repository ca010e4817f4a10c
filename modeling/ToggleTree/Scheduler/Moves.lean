import ToggleTree.Scheduler.Discipline

/-!
# The moves of the discipline

A worker forks, publishes and takes back its jobs, thieves take jobs and start them, and a
`parallel_do` continues once its right branch is over. Each move keeps the discipline; the
moves that run code are steps of the fork–join program, the others leave it as it is.
-/

namespace ToggleTree

open ForkJoin ForkJoin.Prog

variable {σ : Type} {W : ℕ}

/-- Jobs with another status keep it. -/
theorem Status.update_other {status : ℕ → Status W} {i j : ℕ} {old new : Status W} (hj : status j = old)
    (hi : status i ≠ old) : Function.update status j new i = status i := by
  refine Function.update_of_ne ?_ _ _
  rintro rfl
  exact hi hj

/-- Jobs that are gone stay gone. -/
theorem Status.stolen_update {status : ℕ → Status W} {j : ℕ} {new : Status W} {gone : List ℕ}
    (hstolen : ∀ i ∈ gone, (status i).Stolen) (hnew : (status j).Stolen → new.Stolen) :
    ∀ i ∈ gone, (Function.update status j new i).Stolen := by
  intro i hi
  by_cases hij : i = j
  · subst hij
    rw [Function.update_self]
    exact hnew (hstolen i hi)
  · rw [Function.update_of_ne hij]
    exact hstolen i hi

/-- The view of a worker that steals. -/
def StealLoop.view : StealLoop σ → View σ
  | idle => none
  | waitFor job next below => some (ret (), .left job true next below)

section Layouts

variable {w : Fin W} {count : ℕ} {home : ℕ → Fin W} {status : ℕ → Status W}
  {view : Fin W → View σ} {queues : Fin W → List ℕ} {p p' : Prog σ Empty Unit} {st : Stack σ}
  {next : Code σ} {queue : List ℕ} {j : ℕ} {x : View σ}

/-- One worker changes its stack and its queue, and one of the jobs its status. -/
theorem Layout.change (h : Layout view queues count home status) (x : View σ) (queue : List ℕ)
    (new : Status W) (hj : status j ≠ .settled) (htidy : Tidy w x queue count home (Function.update status j new))
    (hstatus : ∀ v ≠ w, Status.Unnoticed v (status j) new)
    (hjoins : ∀ t, (Function.update status j new t).Live → ∀ u, (t, u) ∈ (view w).joins →
      (t, u) ∈ x.joins)
    (hlive : new.Live → (status j).Live) (halone : j ≠ 0 → new.Stolen → 1 < W) :
    Layout (Function.update view w x) (Function.update queues w queue) count home
      (Function.update status j new) := by
  refine h.update x queue home _ htidy le_rfl (fun _ _ => rfl)
    (fun v hv => Status.unnoticed_update j new (hstatus v hv))
    (fun i hi => ?_) (fun t _ hlive' => ?_) fun t ht hstolen => ?_
  · have hne : i ≠ j := by
      rintro rfl
      exact hj (h.fresh i hi)
    rw [Function.update_of_ne hne]
    exact h.fresh i hi
  · by_cases hold : ∃ u, (t, u) ∈ (view w).joins
    · obtain ⟨u, hu⟩ := hold
      exact Or.inl ⟨u, hjoins t hlive' u hu⟩
    · refine Or.inr ⟨?_, not_exists.mp hold⟩
      by_cases htj : t = j
      · subst htj
        rw [Function.update_self] at hlive'
        exact hlive hlive'
      · rwa [Function.update_of_ne htj] at hlive'
  · by_cases htj : t = j
    · subst htj
      rw [Function.update_self] at hstolen
      exact halone ht hstolen
    · rw [Function.update_of_ne htj] at hstolen
      exact h.alone t ht hstolen

/-- One worker changes its stack, but not the jobs on it. -/
theorem Layout.setView (h : Layout view queues count home status)
    (htidy : Tidy w x (queues w) count home status)
    (hjoins : ∀ t, (status t).Live → ∀ u, (t, u) ∈ (view w).joins → (t, u) ∈ x.joins) :
    Layout (Function.update view w x) queues count home status := by
  have hnew := h.update x (queues w) home status htidy le_rfl (fun _ _ => rfl) (fun v _ j => Or.inl rfl) h.fresh
    (fun t _ hlive => ?_) h.alone
  · rwa [Function.update_eq_self] at hnew
  · by_cases hold : ∃ u, (t, u) ∈ (view w).joins
    · obtain ⟨u, hu⟩ := hold
      exact Or.inl ⟨u, hjoins t hlive u hu⟩
    · exact Or.inr ⟨hlive, not_exists.mp hold⟩

/-- Code runs at the top of the stack. -/
theorem Layout.advance (h : Layout view queues count home status) (hw : view w = some (p, st)) :
    Layout (Function.update view w (some (p', st))) queues count home status := by
  have ht := h.tidy w
  rw [hw] at ht
  refine h.setView ⟨ht.nodup, ht.home, ht.tasks_nodup, ht.running, ht.published, ht.queued,
    ht.withheld⟩ fun t _ u hu => ?_
  rwa [hw] at hu

/-- The job that a worker executes is one of the jobs constructed so far. -/
theorem Layout.task_lt (h : Layout view queues count home status) (hw : view w = some (p, st)) :
    st.task < count := by
  by_contra hge
  have hrunning := (h.tidy w).running st.task (by rw [hw]; exact st.task_mem_tasks)
  rw [h.fresh _ (not_lt.mp hge)] at hrunning
  cases hrunning

/-- `parallel_do` constructs a job. -/
theorem Layout.fork (h : Layout view queues count home status) (hw : view w = some (p, st)) :
    Layout (Function.update view w (some (p', .left count false next st))) queues (count + 1)
      (Function.update home count w) (Function.update status count (.held w)) := by
  have hsettled := h.fresh count le_rfl
  have hne (i : ℕ) (hi : status i ≠ .settled) : i ≠ count := by
    rintro rfl
    exact hi hsettled
  have hstatus (i : ℕ) (hi : status i ≠ .settled) :
      Function.update status count (.held w) i = status i := Function.update_of_ne (hne i hi) _ _
  have htask := h.task_lt hw
  have ht := (h.tidy w).frame (Nat.le_succ count)
    (fun i hi => Function.update_of_ne (Nat.ne_of_lt hi) w home)
    (Status.unnoticed_update count (.held w) (Or.inr
      ⟨by rw [hsettled]; simp, by rw [hsettled]; simp, by rw [hsettled]; simp, by
        rw [hsettled]
        exact False.elim⟩))
  have hlt := fun e he => ((h.tidy w).home e he).2.2
  rw [hw] at ht hlt
  have hnew := h.update (some (p', .left count false next st)) (queues w)
    (Function.update home count w) (Function.update status count (.held w))
    ⟨?_, ?_, ht.tasks_nodup, ht.running, ht.published, ht.queued, ?_⟩ (Nat.le_succ count)
    (fun i hi => Function.update_of_ne (Nat.ne_of_lt hi) w home) (fun v hv => ?_) (fun i hi => ?_)
    (fun t _ hlive => ?_) fun t ht hstolen => ?_
  · rwa [Function.update_eq_self] at hnew
  · refine List.nodup_cons.mpr ⟨fun hmem => ?_, ht.nodup⟩
    obtain ⟨e, he, heq⟩ := List.mem_map.mp hmem
    exact (hlt e he).ne heq
  · intro e he
    rcases List.mem_cons.mp he with rfl | he
    · exact ⟨Function.update_self _ _ _, htask, Nat.lt_succ_self count⟩
    · exact ht.home e he
  · intro i hi
    rcases List.mem_cons.mp hi with rfl | hi
    · exact Function.update_self _ _ _
    · exact ht.withheld i hi
  · refine Status.unnoticed_update _ _ (Or.inr ?_)
    rw [hsettled]
    exact ⟨by simp, by simp, by simp, False.elim⟩
  · rw [Function.update_of_ne (by omega)]
    exact h.fresh i (by omega)
  · by_cases htc : t = count
    · subst htc
      exact Or.inl ⟨st.task, List.mem_cons_self⟩
    · rw [Function.update_of_ne htc] at hlive
      by_cases hold : ∃ u, (t, u) ∈ (view w).joins
      · obtain ⟨u, hu⟩ := hold
        rw [hw] at hu
        exact Or.inl ⟨u, List.mem_cons_of_mem _ hu⟩
      · exact Or.inr ⟨hlive, not_exists.mp hold⟩
  · by_cases htc : t = count
    · subst htc
      rw [Function.update_self] at hstolen
      exact hstolen.elim
    · rw [Function.update_of_ne htc] at hstolen
      exact h.alone t ht hstolen

/-- The job of the top `parallel_do` becomes visible in the deque. -/
theorem Layout.publish (h : Layout view queues count home status)
    (hw : view w = some (p, .left j false next st)) :
    Layout (Function.update view w (some (p, .left j true next st)))
      (Function.update queues w (queues w ++ [j])) count home (Function.update status j (.queued w)) := by
  have ht := h.tidy w
  rw [hw] at ht
  have hj : status j = .held w := ht.withheld j List.mem_cons_self
  obtain ⟨hnot, _⟩ := List.nodup_cons.mp ht.nodup
  have hother (i : ℕ) (hi : status i ≠ .held w) : Function.update status j (.queued w) i = status i :=
    Status.update_other hj hi
  refine h.change _ _ _ (by rw [hj]; simp) ⟨ht.nodup, ht.home, ht.tasks_nodup, fun t htask => ?_, ?_,
    fun i hi => ?_, fun i hi => ?_⟩ (fun v hv => Or.inr ?_) (fun t _ u hu => by rwa [hw] at hu)
    (fun _ => by rw [hj]; trivial) fun _ => False.elim
  · rw [hother t (by rw [ht.running t htask]; simp), ht.running t htask]
  · obtain ⟨gone, hgone, hstolen⟩ := ht.published
    change st.published = _ at hgone
    refine ⟨gone, ?_, Status.stolen_update hstolen (by rw [hj]; exact False.elim)⟩
    change j :: st.published = _
    rw [hgone, List.reverse_append]
    rfl
  · rcases List.mem_append.mp hi with hi | hi
    · rw [hother i (by rw [ht.queued i hi]; simp), ht.queued i hi]
    · rw [List.mem_singleton.mp hi]
      exact Function.update_self _ _ _
  · have hne : i ≠ j := by
      rintro rfl
      exact hnot (st.withheld_sublist.subset hi)
    rw [Function.update_of_ne hne]
    exact ht.withheld i (List.mem_cons_of_mem _ hi)
  · rw [hj]
    exact ⟨fun heq => hv (Status.held.inj heq).symm, by simp, by simp, False.elim⟩

/-- The worker takes the newest job of its deque: the job of its top `parallel_do`. -/
theorem Layout.withdraw (h : Layout view queues count home status) {i : ℕ}
    (hw : view w = some (p, .left j true next st)) (hqueue : queues w = queue ++ [i]) :
    i = j ∧ Layout (Function.update view w (some (p, .left j false next st)))
      (Function.update queues w queue) count home (Function.update status j (.held w)) := by
  have ht := h.tidy w
  rw [hw, hqueue] at ht
  obtain ⟨gone, hgone, hstolen⟩ := ht.published
  change j :: st.published = _ at hgone
  rw [List.reverse_append] at hgone
  obtain ⟨rfl, hrest⟩ := List.cons.inj hgone
  change st.published = queue.reverse ++ gone at hrest
  have hj : status j = .queued w := ht.queued j (by simp)
  obtain ⟨hnot, _⟩ := List.nodup_cons.mp ht.nodup
  have hother (i : ℕ) (hi : status i ≠ .queued w) : Function.update status j (.held w) i = status i :=
    Status.update_other hj hi
  refine ⟨rfl, h.change _ _ _ (by rw [hj]; simp) ⟨ht.nodup, ht.home, ht.tasks_nodup, fun t htask => ?_,
    ⟨gone, hrest, Status.stolen_update hstolen (by rw [hj]; exact False.elim)⟩, fun i hi => ?_,
    fun i hi => ?_⟩ (fun v hv => Or.inr ?_) (fun t _ u hu => by rwa [hw] at hu)
    (fun _ => by rw [hj]; trivial) fun _ => False.elim⟩
  · rw [hother t (by rw [ht.running t htask]; simp), ht.running t htask]
  · have hne : i ≠ j := by
      rintro rfl
      refine hnot (st.published_sublist.subset ?_)
      rw [hrest]
      exact List.mem_append_left _ (List.mem_reverse.mpr hi)
    rw [Function.update_of_ne hne]
    exact ht.queued i (List.mem_append_left _ hi)
  · rcases List.mem_cons.mp hi with rfl | hi
    · exact Function.update_self _ _ _
    · rw [hother i (by rw [ht.withheld i hi]; simp), ht.withheld i hi]
  · rw [hj]
    exact ⟨by simp, fun heq => hv (Status.queued.inj heq).symm, by simp, False.elim⟩

/-- A thief takes the oldest job of a deque. -/
theorem Layout.steal (h : Layout view queues count home status) (thief : Fin W)
    (hqueue : queues w = j :: queue) (halone : 1 < W) :
    status j = .queued w ∧ Layout view (Function.update queues w queue) count home
      (Function.update status j (.taken w thief)) := by
  have ht := h.tidy w
  rw [hqueue] at ht
  have hj : status j = .queued w := ht.queued j List.mem_cons_self
  have hother (i : ℕ) (hi : status i ≠ .queued w) : Function.update status j (.taken w thief) i = status i :=
    Status.update_other hj hi
  obtain ⟨gone, hgone, hstolen⟩ := ht.published
  rw [List.reverse_cons, List.append_assoc] at hgone
  have hnodup : (View.published (view w)).Nodup := by
    cases hv : view w with
    | none => exact List.nodup_nil
    | some y =>
      have hn := ht.nodup
      rw [hv] at hn
      exact hn.sublist y.2.published_sublist
  have hnew :=
    h.change (view w) queue (.taken w thief) (by rw [hj]; simp)
      ⟨ht.nodup, ht.home, ht.tasks_nodup, fun t htask => ?_,
      ⟨[j] ++ gone, hgone, fun i hi => ?_⟩, fun i hi => ?_, fun i hi => ?_⟩ (fun v hv => Or.inr ?_)
    (fun t _ u hu => hu) (fun _ => by rw [hj]; trivial) fun _ _ => halone
  · rw [Function.update_eq_self] at hnew
    exact ⟨hj, hnew⟩
  · rw [hother t (by rw [ht.running t htask]; simp), ht.running t htask]
  · by_cases hij : i = j
    · subst hij
      rw [Function.update_self]
      trivial
    · rw [Function.update_of_ne hij]
      rcases List.mem_append.mp hi with hi | hi
      · exact (hij (List.mem_singleton.mp hi)).elim
      · exact hstolen i hi
  · have hne : i ≠ j := by
      rintro rfl
      rw [hgone] at hnodup
      exact (List.disjoint_of_nodup_append hnodup) (List.mem_reverse.mpr hi) (by simp)
    rw [Function.update_of_ne hne]
    exact ht.queued i (List.mem_cons_of_mem _ hi)
  · rw [hother i (by rw [ht.withheld i hi]; simp), ht.withheld i hi]
  · rw [hj]
    exact ⟨by simp, fun heq => hv (Status.queued.inj heq).symm, by simp, False.elim⟩

/-- The worker runs a right branch itself. -/
theorem Layout.inline (h : Layout view queues count home status) (p' : Prog σ Empty Unit)
    (hw : view w = some (p, .left j false next st)) :
    status j = .held w ∧ Layout (Function.update view w (some (p', .right j next st))) queues count home
      (Function.update status j .settled) := by
  have ht := h.tidy w
  rw [hw] at ht
  have hj : status j = .held w := ht.withheld j List.mem_cons_self
  obtain ⟨hnot, hnodup⟩ := List.nodup_cons.mp ht.nodup
  have hother (i : ℕ) (hi : status i ≠ .held w) : Function.update status j .settled i = status i :=
    Status.update_other hj hi
  have hnew := h.change (some (p', .right j next st)) (queues w) .settled
    (by rw [hj]; simp) ⟨hnodup, fun e he => ht.home e (List.mem_cons_of_mem _ he), ht.tasks_nodup,
      fun t htask => ?_, ?_, fun i hi => ?_, fun i hi => ?_⟩ (fun v hv => Or.inr ?_)
    (fun t hlive u hu => ?_) False.elim fun _ => False.elim
  · rw [Function.update_eq_self] at hnew
    exact ⟨hj, hnew⟩
  · rw [hother t (by rw [ht.running t htask]; simp), ht.running t htask]
  · obtain ⟨gone, hgone, hstolen⟩ := ht.published
    exact ⟨gone, hgone, Status.stolen_update hstolen (by rw [hj]; exact False.elim)⟩
  · rw [hother i (by rw [ht.queued i hi]; simp), ht.queued i hi]
  · have hne : i ≠ j := by
      rintro rfl
      exact hnot (st.withheld_sublist.subset hi)
    rw [Function.update_of_ne hne]
    exact ht.withheld i (List.mem_cons_of_mem _ hi)
  · rw [hj]
    exact ⟨fun heq => hv (Status.held.inj heq).symm, by simp, by simp, False.elim⟩
  · rw [hw] at hu
    rcases List.mem_cons.mp hu with heq | hu
    · obtain ⟨rfl, _⟩ := Prod.mk.inj heq
      rw [Function.update_self] at hlive
      exact hlive.elim
    · exact hu

/-- The right branch that the worker has run itself is over. -/
theorem Layout.returned (h : Layout view queues count home status)
    (hw : view w = some (p, .right j next st)) :
    Layout (Function.update view w (some (p', st))) queues count home status := by
  have ht := h.tidy w
  rw [hw] at ht
  refine h.setView ⟨ht.nodup, ht.home, ht.tasks_nodup, ht.running, ht.published, ht.queued,
    ht.withheld⟩ fun t _ u hu => ?_
  rwa [hw] at hu

/-- The right branch that another worker has run is over. -/
theorem Layout.join (h : Layout view queues count home status)
    (hw : view w = some (p, .left j true next st)) (hj : status j = .finished) :
    Layout (Function.update view w (some (p', st))) queues count home status := by
  have ht := h.tidy w
  rw [hw] at ht
  obtain ⟨gone, hgone, hstolen⟩ := ht.published
  change j :: st.published = _ at hgone
  have hempty : queues w = [] := by
    rcases List.eq_nil_or_concat (queues w) with hnil | ⟨queue, i, hq⟩
    · exact hnil
    · rw [hq, List.concat_eq_append, List.reverse_append] at hgone
      obtain ⟨rfl, _⟩ := List.cons.inj hgone
      have hqueued := ht.queued j (by rw [hq]; simp)
      rw [hj] at hqueued
      cases hqueued
  rw [hempty] at hgone
  refine h.setView ⟨(List.nodup_cons.mp ht.nodup).2, fun e he => ht.home e (List.mem_cons_of_mem _ he),
    ht.tasks_nodup, ht.running, ⟨st.published, ?_, fun i hi => ?_⟩, ht.queued, ht.withheld⟩
    fun t hlive u hu => ?_
  · rw [hempty]
    rfl
  · refine hstolen i ?_
    change j :: st.published = gone at hgone
    rw [← hgone]
    exact List.mem_cons_of_mem _ hi
  · rw [hw] at hu
    rcases List.mem_cons.mp hu with heq | hu
    · obtain ⟨rfl, _⟩ := Prod.mk.inj heq
      rw [hj] at hlive
      exact hlive.elim
    · exact hu

/-- A worker starts the job that it has stolen. -/
theorem Layout.start (h : Layout view queues count home status) (loop : StealLoop σ)
    (hw : view w = loop.view) {v : Fin W} (hj : status j = .taken v w) :
    Layout (Function.update view w (some (p, loop.execute j))) queues count home
      (Function.update status j (.running w)) := by
  have ht := h.tidy w
  have hother (i : ℕ) (hi : status i ≠ .taken v w) : Function.update status j (.running w) i = status i :=
    Status.update_other hj hi
  have htasks : View.tasks (some (p, loop.execute j)) = j :: (view w).tasks := by
    rw [hw]
    cases loop <;> rfl
  have hjoins : View.joins (some (p, loop.execute j)) = (view w).joins := by
    rw [hw]
    cases loop <;> rfl
  have hpublished : View.published (some (p, loop.execute j)) = (view w).published := by
    rw [hw]
    cases loop <;> rfl
  have hwithheld : View.withheld (some (p, loop.execute j)) = (view w).withheld := by
    rw [hw]
    cases loop <;> rfl
  have hnew := h.change (some (p, loop.execute j)) (queues w) (.running w)
    (by rw [hj]; simp) ⟨by rw [hjoins]; exact ht.nodup,
      by rw [hjoins]; exact ht.home, ?_, fun t htask => ?_, ?_, fun i hi => ?_, fun i hi => ?_⟩
    (fun v hv => Or.inr ?_) (fun t _ u hu => by rwa [hjoins]) (fun _ => by rw [hj]; trivial)
    fun hne _ => h.alone j hne (by rw [hj]; trivial)
  · rwa [Function.update_eq_self] at hnew
  · rw [htasks]
    refine List.nodup_cons.mpr ⟨fun hmem => ?_, ht.tasks_nodup⟩
    have := ht.running j hmem
    rw [hj] at this
    cases this
  · rw [htasks] at htask
    rcases List.mem_cons.mp htask with rfl | htask
    · exact Function.update_self _ _ _
    · rw [hother t (by rw [ht.running t htask]; simp), ht.running t htask]
  · obtain ⟨gone, hgone, hstolen⟩ := ht.published
    exact ⟨gone, by rw [hpublished]; exact hgone, Status.stolen_update hstolen fun _ => trivial⟩
  · rw [hother i (by rw [ht.queued i hi]; simp), ht.queued i hi]
  · rw [hwithheld] at hi
    rw [hother i (by rw [ht.withheld i hi]; simp), ht.withheld i hi]
  · rw [hj]
    exact ⟨by simp, by simp, by simp, fun _ => trivial⟩

/-- A worker has executed the job that it has stolen. -/
theorem Layout.finish (h : Layout view queues count home status) (loop : StealLoop σ)
    (hw : view w = some (p, loop.execute j)) :
    status j = .running w ∧ Layout (Function.update view w loop.view) queues count home
      (Function.update status j .finished) := by
  have ht := h.tidy w
  have htasks : (view w).tasks = j :: loop.view.tasks := by
    rw [hw]
    cases loop <;> rfl
  have hjoins : (view w).joins = loop.view.joins := by
    rw [hw]
    cases loop <;> rfl
  have hpublished : (view w).published = loop.view.published := by
    rw [hw]
    cases loop <;> rfl
  have hwithheld : (view w).withheld = loop.view.withheld := by
    rw [hw]
    cases loop <;> rfl
  have hj : status j = .running w := ht.running j (by rw [htasks]; exact List.mem_cons_self)
  have hother (i : ℕ) (hi : status i ≠ .running w) : Function.update status j .finished i = status i :=
    Status.update_other hj hi
  have htnodup := ht.tasks_nodup
  rw [htasks] at htnodup
  obtain ⟨hnot, htnodup⟩ := List.nodup_cons.mp htnodup
  have hnew := h.change loop.view (queues w) .finished
    (by rw [hj]; simp) ⟨by rw [← hjoins]; exact ht.nodup, by rw [← hjoins]; exact ht.home, htnodup,
      fun t htask => ?_, ?_, fun i hi => ?_, fun i hi => ?_⟩ (fun v hv => Or.inr ?_)
    (fun t _ u hu => by rwa [← hjoins]) False.elim fun hne _ => h.alone j hne (by rw [hj]; trivial)
  · rw [Function.update_eq_self] at hnew
    exact ⟨hj, hnew⟩
  · have hne : t ≠ j := by
      rintro rfl
      exact hnot htask
    rw [Function.update_of_ne hne]
    exact ht.running t (by rw [htasks]; exact List.mem_cons_of_mem _ htask)
  · obtain ⟨gone, hgone, hstolen⟩ := ht.published
    exact ⟨gone, by rw [← hpublished]; exact hgone, Status.stolen_update hstolen fun _ => trivial⟩
  · rw [hother i (by rw [ht.queued i hi]; simp), ht.queued i hi]
  · rw [← hwithheld] at hi
    rw [hother i (by rw [ht.withheld i hi]; simp), ht.withheld i hi]
  · rw [hj]
    exact ⟨by simp, by simp, fun heq => hv (Status.running.inj heq).symm, fun _ => trivial⟩

/-- The job of a worker that finds its deque empty has been stolen. -/
theorem Layout.missed (h : Layout view queues count home status)
    (hw : view w = some (p, .left j true next st)) (hqueue : queues w = []) : 1 < W := by
  have ht := h.tidy w
  obtain ⟨gone, hgone, hstolen⟩ := ht.published
  rw [hw, hqueue] at hgone
  change j :: st.published = gone at hgone
  refine h.alone j ?_ (hstolen j (by rw [← hgone]; exact List.mem_cons_self))
  exact (h.join_pos (w := w) (e := (j, st.task)) (by rw [hw]; exact List.mem_cons_self)).1

end Layouts

section Meanings

variable {w : Fin W} {count : ℕ} {home : ℕ → Fin W} {status status' : ℕ → Status W}
  {view view' : Fin W → View σ} {queues : Fin W → List ℕ} {code : ℕ → Code σ}
  {res : ℕ → Prog σ Empty Unit} {s s' : σ} {x : View σ}

/-- A move that runs no code changes the status of one job. -/
theorem Meaning.silent (h : Meaning view code status res) (j₀ : ℕ) (new : Status W)
    (hcode : new.Unstarted → (status j₀).Unstarted) (hfinished : new = .finished → res j₀ = ret ())
    (hview : ∀ e ∈ x.unwind res, e ∈ (view w).unwind res ∨ res e.1 = e.2) :
    Meaning (Function.update view w x) code (Function.update status j₀ new) res where
  code j hj := by
    by_cases heq : j = j₀
    · subst heq
      rw [Function.update_self] at hj
      exact h.code j (hcode hj)
    · rw [Function.update_of_ne heq] at hj
      exact h.code j hj
  finished j hj := by
    by_cases heq : j = j₀
    · subst heq
      rw [Function.update_self] at hj
      exact hfinished hj
    · rw [Function.update_of_ne heq] at hj
      exact h.finished j hj
  solves v e he := by
    by_cases hv : v = w
    · subst hv
      rw [Function.update_self] at he
      exact (hview e he).elim (h.solves v e) id
    · rw [Function.update_of_ne hv] at he
      exact h.solves v e he

/-- The construction of a job. -/
theorem Meaning.fork {p : Prog σ Empty Unit} {st : Stack σ} {rf next : Code σ}
    (h : Meaning view code status res) (hl : Layout view queues count home status)
    (hw : view w = some (Prog.fork p rf.prog fun _ _ => next.prog, st)) :
    Meaning (Function.update view w (some (p, .left count false next st)))
      (Function.update code count rf) (Function.update status count (.held w))
      (Function.update res count rf.prog) where
  code j hj := by
    by_cases hjc : j = count
    · subst hjc
      rw [Function.update_self, Function.update_self]
    · rw [Function.update_of_ne hjc] at hj ⊢
      rw [Function.update_of_ne hjc]
      exact h.code j hj
  finished j hj := by
    by_cases hjc : j = count
    · subst hjc
      rw [Function.update_self] at hj
      cases hj
    · rw [Function.update_of_ne hjc] at hj ⊢
      exact h.finished j hj
  solves v e he := by
    have hframe (v : Fin W) : (view v).unwind (Function.update res count rf.prog) = (view v).unwind res :=
      View.unwind_congr fun e he => Function.update_of_ne (hl.join_pos he).2.ne _ _
    have hold : e ∈ (view v).unwind res := by
      by_cases hv : v = w
      · subst hv
        rw [← hframe, hw]
        rw [Function.update_self] at he
        simp only [View.unwind, Option.elim_some, Stack.unwind, Function.update_self] at he
        exact he
      · rw [Function.update_of_ne hv, hframe] at he
        exact he
    have hne : e.1 ≠ count := by
      intro heq
      have hrunning := (hl.tidy v).running e.1 (View.mem_tasks hold)
      rw [heq, hl.fresh count le_rfl] at hrunning
      cases hrunning
    rw [Function.update_of_ne hne]
    exact h.solves v e hold

/-- A move that runs code is a step of the program. -/
theorem Meaning.step (h : Meaning view code status res)
    (hl : Layout (Function.update view w x) queues count home status) {t : ℕ} {q q' : Prog σ Empty Unit}
    {rest : List (ℕ × Prog σ Empty Unit)} (hold : (view w).unwind res = (t, q) :: rest)
    (hnew : x.unwind res = (t, q') :: rest) (hstep : ForkJoin.Step Empty.elim q s q' s') :
    ∃ res', Meaning (Function.update view w x) code status res' ∧
      ForkJoin.Step Empty.elim (res 0) s (res' 0) s' := by
  have hself : (Function.update view w x w).unwind res = (t, q') :: rest := by
    rw [Function.update_self, hnew]
  have hmem : t ∈ (Function.update view w x w).tasks := by
    rw [← View.unwind_map_fst _ res, hself]
    exact List.mem_cons_self
  have hres : res t = q := h.solves w (t, q) (by rw [hold]; exact List.mem_cons_self)
  have hnodup := (hl.tidy w).tasks_nodup
  rw [← View.unwind_map_fst _ res, hself, List.map_cons, List.nodup_cons] at hnodup
  obtain ⟨res', hsolves, hmain, hkeep⟩ := hl.lift hmem res q' (fun v e he => by
    by_cases hv : v = w
    · subst hv
      rw [hself] at he
      rcases List.mem_cons.mp he with rfl | he
      · exact ⟨fun _ => rfl, fun hne => (hne rfl).elim⟩
      · refine ⟨fun heq => ?_, fun _ => h.solves v e (by rw [hold]; exact List.mem_cons_of_mem _ he)⟩
        exact (hnodup.1 (List.mem_map.mpr ⟨e, he, heq⟩)).elim
    · refine ⟨fun heq => ?_, fun _ => ?_⟩
      · exact (hv (hl.worker_unique hmem (heq ▸ View.mem_tasks he))).elim
      · rw [Function.update_of_ne hv] at he
        exact h.solves v e he) (by rw [hres]; exact hstep)
  have hidle (j : ℕ) (hj : ∀ v, status j ≠ .running v) : res' j = res j :=
    hkeep j fun v htask => hj v ((hl.tidy v).running j htask)
  refine ⟨res', ⟨fun j hj => ?_, fun j hj => ?_, hsolves⟩, hmain⟩
  · rw [hidle j (fun v heq => by rw [heq] at hj; exact hj), h.code j hj]
  · rw [hidle j (fun v heq => by rw [heq] at hj; cases hj), h.finished j hj]

end Meanings

end ToggleTree
