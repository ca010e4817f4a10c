import ToggleTree.BreadthFirstSearch.Relaxation

/-!
# Every local search keeps the invariant and stops

A local search calls itself only after it lowered a cell, so the sum of all cells bounds the
depth of the recursion; the loop over a local queue takes one vertex out in each iteration that
lowers nothing. The proofs follow the program: gather from the in-neighbours, relax one slot,
visit one vertex of a queue, empty a queue, and the search from a vertex.
-/

namespace ToggleTree

open ForkJoin ForkJoin.Prog

namespace Search

variable {G : CSR} {L : Labels} {source unreached : ℕ} {goal : ℕ → ℕ} {r B : ℕ}
  {s s' : SearchState} {v x y : ℕ} {a t : Debt} {env : SearchCall → SearchProg Unit}

/-- What `gather` returns for a vertex queued at distance `x`: a distance that is not larger, above
that of some in-neighbour, and a value with this distance that is not below the goal. -/
def Gathered (G : CSR) (L : Labels) (goal : ℕ → ℕ) (v x : ℕ) (c : ℕ × ℕ) (s : SearchState) : Prop :=
  ∃ y ≤ x, c.1 = y + 1 ∧ goal v ≤ c.2 ∧ L.level c.2 = y ∧ ∃ u, G.Edge u v ∧ levelOf L s u + 1 ≤ y

/-- Both ways to gather are correct in every local search. -/
def GathersAll (G : CSR) (L : Labels) (source unreached : ℕ) (goal : ℕ → ℕ)
    (env : SearchCall → SearchProg Unit) : Prop :=
  ∀ r B s v x, Queued G L source B s v x → ∀ pull ∈ [L.gather v, L.gatherParallel v],
    Ensures (searchProtocol G L source unreached goal r B) env
      (fun c s b => Gathered G L goal v x c s ∧ b = 0) pull s 0

/-- The two outcomes of a `write_min`. -/
theorem ensures_writeMin {M β : Type} [AddCommMonoid M] {P : Protocol SearchState M}
    {Q : β → SearchState → M → Prop} {next : Bool → SearchProg β} {m : M}
    (hlower : ∀ s' o, P.rel s s' → P.inv s' (m + o) → x < s'.dist v → ∃ m', P.rel s' ((cell v).put x s') ∧
      P.inv ((cell v).put x s') (m' + o) ∧ Ensures P env Q (next true) ((cell v).put x s') m')
    (hkeep : ∀ s' o, P.rel s s' → P.inv s' (m + o) → s'.dist v ≤ x →
      ∃ m', P.inv s' (m' + o) ∧ Ensures P env Q (next false) s' m') :
    Ensures P env Q (writeMin (cell v) x >>= next) s m := by
  refine Ensures.act fun s' o hrel hinv => ?_
  change ∃ m', P.rel s' (if x < s'.dist v then (cell v).put x s' else s') ∧
    P.inv (if x < s'.dist v then (cell v).put x s' else s') (m' + o) ∧
    Ensures P env Q (next (decide (x < s'.dist v))) (if x < s'.dist v then (cell v).put x s' else s') m'
  by_cases hlt : x < s'.dist v
  · rw [if_pos hlt, decide_eq_true hlt]
    exact hlower s' o hrel hinv hlt
  · rw [if_neg hlt, decide_eq_false hlt]
    obtain ⟨m', hinv', hnext⟩ := hkeep s' o hrel hinv (not_lt.mp hlt)
    exact ⟨m', P.refl s', hinv', hnext⟩

section Steps

variable {β : Type} {Q : β → SearchState → Debt → Prop} {u i : ℕ}
  (hL : Labelling G L source unreached goal)
include hL

/-- Gathering and writing the own cell: afterwards the slots are owed at a distance for which
relaxing them with the gathered distance is good enough. -/
theorem ensures_pull {pull : SearchProg (ℕ × ℕ)} {next : ℕ × ℕ → SearchProg β}
    (hq : Queued G L source B s v x)
    (hpull : Ensures (searchProtocol G L source unreached goal r B) env
      (fun c s b => Gathered G L goal v x c s ∧ b = 0) pull s 0)
    (hnext : ∀ c s' x', SearchRel s s' → Queued G L source B s' v x' → levelOf L s' v + 1 ≤ c.1 →
      c.1 ≤ x' + 1 → Ensures (searchProtocol G L source unreached goal r B) env Q (next c) s'
        (owedSlots G v x' + a)) :
    Ensures (searchProtocol G L source unreached goal r B) env Q
      (pull >>= fun c => writeMin (cell v) c.2 >>= fun _ => next c) s (owedSlots G v x + a) := by
  have hframe := (hpull.withStable (K := fun s' => SearchRel s s') (fun _ _ hrel h => h.trans hrel)
    ⟨fun _ => le_rfl, rfl, rfl⟩).frame (owedSlots G v x + a)
  rw [zero_add] at hframe
  refine hframe.bind ?_
  rintro c s₁ _ ⟨_, ⟨⟨⟨y, hyx, hc, hgoal, hlevel, u, hu, huy⟩, rfl⟩, hrel₁⟩, rfl⟩
  rw [zero_add]
  have hmoved : ∀ s₂, SearchRel s₁ s₂ → SearchRel s s₂ ∧ Queued G L source B s₂ v x ∧ levelOf L s₂ u + 1 ≤ y :=
    fun s₂ hrel₂ => ⟨hrel₁.trans hrel₂, hL.queued (hrel₁.trans hrel₂) hq,
      (Nat.succ_le_succ (hL.levelOf_le hrel₂ u)).trans huy⟩
  refine ensures_writeMin (fun s₂ o hrel₂ hinv hlt => ?_) fun s₂ o hrel₂ hinv hle => ?_
  · obtain ⟨hrel, hq₂, huy₂⟩ := hmoved s₂ hrel₂
    have hput := searchRel_put hlt
    have hinv' : SearchInv G L source unreached goal r B s₂ (owedSlots G v x + (a + o)) := by
      rw [← add_assoc]
      exact hinv
    obtain ⟨hnew, hself, hcount⟩ := hinv'.lower_cell hL (fun e he => by
        obtain ⟨j, _, rfl⟩ := mem_owedSlots.mp he
        rfl) (fun w => not_mem_owedSlots) hq.lt hlt hgoal hlevel (hyx.trans hq.below.le)
      (by have := hq₂.count; omega) ⟨u, hu, huy₂⟩
    have hyB : y < B := lt_of_le_of_lt hyx hq.below
    rw [debtAt, if_pos hyB, ← add_assoc] at hnew
    exact ⟨owedSlots G v y + a, hput, hnew, hnext c _ y (hrel.trans hput)
      ⟨hq.lt, hq.ne, hself.le, hyB, hcount⟩ (by rw [hself, hc]) hc.le⟩
  · obtain ⟨hrel, hq₂, _⟩ := hmoved s₂ hrel₂
    have hself : levelOf L s₂ v ≤ y := hlevel ▸ hL.level_mono _ _ hle
    exact ⟨owedSlots G v x + a, hinv, hnext c s₂ x hrel hq₂ (by omega) (by omega)⟩

/-- Relaxing one slot: the debt for it is paid, and lowering a cell makes new debts. -/
theorem ensures_relax {next : Bool → SearchProg β} (hq : Queued G L source B s u x) (hi : G.OutSlot u i)
    (hy : levelOf L s u + 1 ≤ y) (hyx : y ≤ x + 1)
    (hfail : ∀ s', SearchRel s s' →
      Ensures (searchProtocol G L source unreached goal r B) env Q (next false) s' a)
    (hlower : ∀ s', SearchRel s s' → weight G s' < weight G s → G.outEdge i ≠ source →
      levelOf L s' (G.outEdge i) = y → y ≤ B → y + 1 ≤ reachedCount G L s' →
      Ensures (searchProtocol G L source unreached goal r B) env Q (next true) s'
        (debtAt G B (G.outEdge i) y + a)) :
    Ensures (searchProtocol G L source unreached goal r B) env Q
      (writeMin (cell (G.outEdge i)) (L.make y u) >>= next) s (owed u i x + a) := by
  have hx := hL.level_lt hq
  have hu := hq.lt
  have hedge : G.Edge u (G.outEdge i) := ⟨hu, i, hi, rfl⟩
  have hsucc : y - 1 + 1 = y := by omega
  refine ensures_writeMin (fun s₁ o hrel hinv hlt => ?_) fun s₁ o hrel hinv hle => ?_
  · have hy₁ : levelOf L s₁ u + 1 ≤ y := (Nat.succ_le_succ (hL.levelOf_le hrel u)).trans hy
    have hinv' : SearchInv G L source unreached goal r B s₁ (0 + (owed u i x + (a + o))) := by
      rw [zero_add, ← add_assoc]
      exact hinv
    have hgoal : goal (G.outEdge i) ≤ L.make y u := by
      have hle := hL.level_mono _ _ (hinv'.lower u)
      have := hL.goal_le u (G.outEdge i) (y - 1) hedge (by unfold levelOf at hy₁; omega) (by omega)
      rwa [hsucc] at this
    have hput := searchRel_put hlt
    have hd : G.outEdge i < G.n := CSR.outEdge_lt hu hi
    have hyB : y ≤ B := hyx.trans hq.below
    obtain ⟨hnew, hself, hcount⟩ := hinv'.lower_cell hL (fun e he => (not_mem_zero_fst he).elim)
      (fun w => not_mem_zero_snd) hd hlt hgoal (hL.level_make y u (by omega) (hu.trans hL.size)) hyB
      (hyx.trans (hL.queued hrel hq).count) ⟨u, hedge, hy₁⟩
    have hnew' : SearchInv G L source unreached goal r B ((cell (G.outEdge i)).put (L.make y u) s₁)
        (debtAt G B (G.outEdge i) y + a + o) := by
      refine SearchInv.surrender (u := u) (i := i) (x := x) ?_ fun hlevel => ?_
      · rw [show owed u i x + (debtAt G B (G.outEdge i) y + a + o) =
          debtAt G B (G.outEdge i) y + (owed u i x + (a + o)) by abel]
        exact hnew
      · have := hL.levelOf_le hput u
        rw [dist_put_self, show x + 1 = y by omega]
    exact ⟨_, hput, hnew', hlower _ (SearchRel.trans hrel hput)
      ((weight_put_lt hd hlt).trans_le (weight_le hrel)) (hinv'.ne_source hL hlt hgoal) hself hyB hcount⟩
  · have hy₁ : levelOf L s₁ u + 1 ≤ y := (Nat.succ_le_succ (hL.levelOf_le hrel u)).trans hy
    have hpaid : SearchInv G L source unreached goal r B s₁ (a + o) := by
      refine SearchInv.surrender (u := u) (i := i) (x := x) (by rw [← add_assoc]; exact hinv) fun hlevel => ?_
      rwa [show x + 1 = y by omega]
    exact ⟨a, hpaid, hfail s₁ hrel⟩

omit hL

/-- Inserting a vertex that is due. -/
theorem ensures_insert {next : Bool → SearchProg β}
    (hnext : ∀ b s', SearchRel s s' →
      Ensures (searchProtocol G L source unreached goal r B) env Q (next b) s' a) :
    Ensures (searchProtocol G L source unreached goal r B) env Q
      (VertexSet.insert nextFrontier v >>= next) s (due v + a) := by
  refine Ensures.act fun s₁ o hrel hinv => ?_
  have hinv' : SearchInv G L source unreached goal r B s₁ (due v + (a + o)) := by
    rw [← add_assoc]
    exact hinv
  exact ⟨a, ⟨fun _ => le_rfl, rfl, rfl⟩, hinv'.insert_due,
    hnext _ _ (SearchRel.trans hrel ⟨fun _ => le_rfl, rfl, rfl⟩)⟩

end Steps

section Queues

variable {q q' : LocalQueue}

/-- The slots of all vertices in the queue are owed. -/
structure QueueOwed (G : CSR) (L : Labels) (source B : ℕ) (q : LocalQueue) (s : SearchState) (t : Debt) :
    Prop where
  le : q.lpos ≤ q.rpos
  owed : ∃ x : ℕ → ℕ, (∀ p, q.Holds p → Queued G L source B s (q.localQueue p) (x p)) ∧
    t = ∑ p ∈ Finset.Ico q.lpos q.rpos, owedSlots G (q.localQueue p) (x p)

namespace QueueOwed

/-- A queue that is owed stays owed when the search goes on. -/
theorem mono (hL : Labelling G L source unreached goal) (h : QueueOwed G L source B q s t)
    (hrel : SearchRel s s') : QueueOwed G L source B q s' t := by
  obtain ⟨hle, x, hx, ht⟩ := h
  exact ⟨hle, x, fun p hp => hL.queued hrel (hx p hp), ht⟩

/-- A queue that is empty owes nothing. -/
theorem of_empty (h : q.lpos = q.rpos) : QueueOwed G L source B q s 0 := by
  refine ⟨h.le, fun _ => 0, fun p hp => ?_, ?_⟩
  · have := hp.1
    have := hp.2
    omega
  · rw [h, Finset.Ico_self, Finset.sum_empty]

/-- The queue takes over the debt for the vertex that is pushed. -/
theorem pushBack (h : QueueOwed G L source B q s t) (hq : Queued G L source B s v y)
    (hv : v < 2 ^ 32) : QueueOwed G L source B (q.pushBack v) s (owedSlots G v y + t) := by
  obtain ⟨hle, x, hx, rfl⟩ := h
  refine ⟨Nat.le_succ_of_le hle, Function.update x q.rpos y, fun p hp => ?_, ?_⟩
  · rcases eq_or_ne p q.rpos with rfl | hne
    · rwa [LocalQueue.pushBack_last hv, Function.update_self]
    · rw [LocalQueue.pushBack_of_ne hne, Function.update_of_ne hne]
      have hlt : p < q.rpos + 1 := hp.2
      exact hx p ⟨hp.1, by omega⟩
  · rw [LocalQueue.pushBack_lpos, LocalQueue.pushBack_rpos, Finset.sum_Ico_succ_top hle,
      LocalQueue.pushBack_last hv, Function.update_self, add_comm]
    congr 1
    refine Finset.sum_congr rfl fun p hp => ?_
    have hne : p ≠ q.rpos := (Finset.mem_Ico.mp hp).2.ne
    rw [LocalQueue.pushBack_of_ne hne, Function.update_of_ne hne]

/-- The vertex that is taken out brings its debt along. -/
theorem popTop (h : QueueOwed G L source B q s t) (hpop : q.popTop G = some (v, q')) :
    ∃ x t', Queued G L source B s v x ∧ QueueOwed G L source B q' s t' ∧ t = owedSlots G v x + t' := by
  obtain ⟨hle, x, hx, rfl⟩ := h
  obtain ⟨hne, rfl, hl, hr, hdata⟩ := LocalQueue.popTop_eq_some hpop
  have hlt : q.lpos < q.rpos := lt_of_le_of_ne hle hne
  refine ⟨x q.lpos, ∑ p ∈ Finset.Ico (q.lpos + 1) q.rpos, owedSlots G (q.localQueue p) (x p),
    hx q.lpos ⟨le_rfl, hlt⟩, ⟨by omega, x, fun p hp => ?_, by rw [hl, hr, hdata]⟩,
    Finset.sum_eq_sum_Ico_succ_bot hlt _⟩
  rw [hdata]
  have h₁ := hp.1
  have h₂ := hp.2
  exact hx p ⟨by omega, by omega⟩

end QueueOwed

end Queues

section Searches

variable (hL : Labelling G L source unreached goal) (hgather : GathersAll G L source unreached goal env)
  {round stride : ℕ} (hB : round + stride = B) (hB' : B < 2 ^ 64)

/-- Every local search from a state of weight below `k` meets its specification. -/
def SearchesBelow (G : CSR) (L : Labels) (source unreached : ℕ) (goal : ℕ → ℕ) (r B : ℕ)
    (env : SearchCall → SearchProg Unit) (round stride k : ℕ) : Prop :=
  ∀ s v x, weight G s < k → Queued G L source B s v x →
    Ensures (searchProtocol G L source unreached goal r B) env (fun _ _ b => b = 0)
      (env (.localSearch round stride v)) s (owedSlots G v x)

include hL hgather hB hB'

/-- Visiting a vertex moves the debt for its slots into the queue. If nothing was lowered, the queue
is as long as before. -/
theorem ensures_visit {q : LocalQueue} {k : ℕ} (hq : Queued G L source B s v x)
    (hqueue : QueueOwed G L source B q s t) (hk : weight G s ≤ k) :
    Ensures (searchProtocol G L source unreached goal r B) env
      (fun q' s' b => QueueOwed G L source B q' s' b ∧ weight G s' ≤ k ∧
        (weight G s' < k ∨ q'.lpos = q.lpos ∧ q'.rpos = q.rpos))
      (visit G L round stride v q) s (owedSlots G v x + t) := by
  refine ensures_pull hL hq (hgather r B s v x hq _ (by simp)) fun c s₁ y hrel₁ hq₁ hc hcy => ?_
  have hstop : G.outOffset v ≤ G.outOffset (v + 1) := CSR.outOffset_le hq.lt
  refine (Ensures.foldFor (I := fun i q' s' b => ∃ b', QueueOwed G L source B q' s' b' ∧
      b = b' + ∑ j ∈ Finset.Ico i (G.outOffset (v + 1)), owed v j y ∧ SearchRel s₁ s' ∧
        (weight G s' < k ∨ q'.lpos = q.lpos ∧ q'.rpos = q.rpos))
    hstop ?_ ⟨t, hqueue.mono hL hrel₁, add_comm _ _, ⟨fun _ => le_rfl, rfl, rfl⟩, Or.inr ⟨rfl, rfl⟩⟩ ?_).mono ?_
  · rintro q' s₂ s₃ b hrel ⟨b', hb', hb, hrel₂, hless⟩
    exact ⟨b', hb'.mono hL hrel, hb, hrel₂.trans hrel, hless.imp (weight_le hrel).trans_lt id⟩
  · rintro i q' s₂ _ hi hi' ⟨b', hb', rfl, hrel₂, hless⟩
    have hq₂ := hL.queued hrel₂ hq₁
    rw [Finset.sum_eq_sum_Ico_succ_bot hi', add_left_comm]
    refine ensures_relax hL hq₂ ⟨hi, hi'⟩ ((Nat.succ_le_succ (hL.levelOf_le hrel₂ v)).trans hc) hcy ?_ ?_
    · intro s₃ hrel₃
      refine Ensures.ret fun s₄ o hrel₄ hinv => ⟨_, hinv, b', ?_, rfl, ?_, ?_⟩
      · exact hb'.mono hL (hrel₃.trans hrel₄)
      · exact hrel₂.trans (hrel₃.trans hrel₄)
      · exact hless.imp (weight_le (hrel₃.trans hrel₄)).trans_lt id
    · intro s₃ hrel₃ hweight hne hlevel hyB hcount
      have hwk : weight G s₃ < k := hweight.trans_le ((weight_le (hrel₁.trans hrel₂)).trans hk)
      rw [if_pos rfl, Nat.mod_eq_of_lt (by omega), hB]
      split
      · next hlast =>
        rw [debtAt, if_neg (by omega)]
        refine ensures_insert fun _ s₄ hrel₄ => ?_
        refine Ensures.ret fun s₅ o hrel₅ hinv => ⟨_, hinv, b', ?_, rfl, ?_, Or.inl ?_⟩
        · exact hb'.mono hL (hrel₃.trans (hrel₄.trans hrel₅))
        · exact hrel₂.trans (hrel₃.trans (hrel₄.trans hrel₅))
        · exact (weight_le (hrel₄.trans hrel₅)).trans_lt hwk
      · next hlast =>
        have hlt : c.1 < B := by omega
        rw [debtAt, if_pos hlt]
        have hd : G.outEdge i < G.n := CSR.outEdge_lt hq.lt ⟨hi, hi'⟩
        have hqd : Queued G L source B s₃ (G.outEdge i) c.1 := ⟨hd, hne, hlevel.le, hlt, hcount⟩
        refine Ensures.ret fun s₄ o hrel₄ hinv => ⟨_, hinv, owedSlots G (G.outEdge i) c.1 + b', ?_, ?_, ?_, ?_⟩
        · exact (hb'.mono hL (hrel₃.trans hrel₄)).pushBack (hL.queued hrel₄ hqd) (hd.trans hL.size)
        · exact (add_assoc _ _ _).symm
        · exact hrel₂.trans (hrel₃.trans hrel₄)
        · exact Or.inl ((weight_le hrel₄).trans_lt hwk)
  · rintro q' s' b ⟨b', hb', rfl, hrel, hless⟩
    rw [Finset.Ico_self, Finset.sum_empty, add_zero]
    exact ⟨hb', (weight_le (hrel₁.trans hrel)).trans hk, hless⟩

omit hL hgather hB hB' in
/-- The searches from the vertices that are left in a queue. -/
theorem ensures_forEach {q : LocalQueue} {k : ℕ}
    (hbelow : SearchesBelow G L source unreached goal r B env round stride k)
    (hqueue : QueueOwed G L source B q s t) (hk : weight G s < k ∨ q.lpos = q.rpos) :
    Ensures (searchProtocol G L source unreached goal r B) env (fun _ _ b => b = 0)
      (q.forEach fun v => invoke (.localSearch round stride v)) s t := by
  obtain ⟨_, x, hx, rfl⟩ := hqueue
  refine (Ensures.parallelFor (Q := fun _ _ => True) (fun p => owedSlots G (q.localQueue p) (x p))
    (fun _ _ _ _ _ h => h) fun p hp hp' => ?_).mono fun _ _ _ h => h.2
  have hlt : weight G s < k := hk.resolve_right (by omega)
  exact (Ensures.invoke (hbelow s _ _ hlt (hx p ⟨hp, hp'⟩))).mono fun _ _ _ h => ⟨trivial, h⟩

variable (hdrain : ∀ q, env (.drain round stride q) = drain G L round stride q)
include hdrain

/-- The loop over a local queue stops, and the searches after it pay all debts of the queue. -/
theorem ensures_drain {k : ℕ} (hbelow : SearchesBelow G L source unreached goal r B env round stride k)
    {m : ℕ} (hm : m < k) {q : LocalQueue} (hqueue : QueueOwed G L source B q s t) (hweight : weight G s ≤ m) :
    Ensures (searchProtocol G L source unreached goal r B) env (fun _ _ b => b = 0)
      (drain G L round stride q) s t := by
  induction m using Nat.strong_induction_on generalizing s t q with
  | _ m ih =>
    -- Between two successful writes, each iteration shortens the queue.
    induction hn : q.rpos - q.lpos generalizing s t q with
    | zero =>
      have hempty : q.lpos = q.rpos := by have := hqueue.le; omega
      have hpop : q.popTop G = none := if_pos hempty
      rw [drain, hpop]
      exact ensures_forEach hbelow hqueue (Or.inr hempty)
    | succ n ihn =>
      unfold drain
      cases hpop : q.popTop G with
      | none => exact ensures_forEach hbelow hqueue (Or.inl (by omega))
      | some top =>
        obtain ⟨v, q₁⟩ := top
        obtain ⟨_, _, hl, hr, _⟩ := LocalQueue.popTop_eq_some hpop
        obtain ⟨x, t', hq, hqueue', rfl⟩ := hqueue.popTop hpop
        refine (ensures_visit hL hgather hB hB' hq hqueue' hweight).bind ?_
        rintro q₂ s₁ t₁ ⟨hqueue₁, hle, hless⟩
        refine Ensures.invoke ?_
        rw [hdrain]
        rcases hless with hlt | ⟨hl₂, hr₂⟩
        · exact ih (weight G s₁) hlt (hlt.trans hm) hqueue₁ le_rfl
        · exact ihn hqueue₁ hle (by omega)

variable (hsearch : ∀ v, env (.localSearch round stride v) = localSearch G L round stride v)
include hsearch

/-- A local search pays the debt for the slots of its vertex and stops. -/
theorem ensures_localSearch (hq : Queued G L source B s v x) :
    Ensures (searchProtocol G L source unreached goal r B) env (fun _ _ b => b = 0)
      (env (.localSearch round stride v)) s (owedSlots G v x) := by
  suffices hall : ∀ k, SearchesBelow G L source unreached goal r B env round stride k from
    hall (weight G s + 1) s v x (Nat.lt_succ_self _) hq
  intro k
  induction k with
  | zero => exact fun s v x h => absurd h (Nat.not_lt_zero _)
  | succ k ih =>
    intro s v x hweight hq
    have hk : weight G s ≤ k := Nat.lt_succ_iff.mp hweight
    rw [hsearch]
    unfold localSearch
    split
    · rw [← add_zero (owedSlots G v x)]
      refine ensures_pull hL hq (hgather r B s v x hq _ (by simp)) fun c s₁ y hrel₁ hq₁ hc hcy => ?_
      rw [add_zero]
      refine (Ensures.parallelFor (Q := fun _ _ => True) (fun i => owed v i y) (fun _ _ _ _ _ h => h)
        fun i hi hi' => ?_).mono fun _ _ _ h => h.2
      rw [← add_zero (owed v i y)]
      refine ensures_relax hL hq₁ ⟨hi, hi'⟩ hc hcy (fun s₂ _ => ?_) fun s₂ hrel₂ hlt hne hlevel hyB hcount => ?_
      · exact Ensures.ret fun _ _ _ hinv => ⟨0, hinv, trivial, rfl⟩
      · rw [if_pos rfl, Nat.mod_eq_of_lt (by omega), hB, add_zero]
        split
        · rw [debtAt, if_neg (by omega), ← add_zero (due _)]
          exact ensures_insert fun _ _ _ => Ensures.ret fun _ _ _ hinv => ⟨0, hinv, trivial, rfl⟩
        · have hlt' : c.1 < B := by omega
          rw [debtAt, if_pos hlt']
          refine (Ensures.invoke (ih s₂ _ c.1 (hlt.trans_le ((weight_le hrel₁).trans hk)) ?_)).mono
            fun _ _ _ h => ⟨trivial, h⟩
          exact ⟨CSR.outEdge_lt hq.lt ⟨hi, hi'⟩, hne, hlevel.le, hlt', hcount⟩
    · next hdeg =>
      obtain ⟨q, hpop, hl, hr⟩ := LocalQueue.popTop_create (hq.lt.trans hL.size)
        (show G.outOffset (v + 1) - G.outOffset v < 1024 by omega)
      refine Ensures.invoke ?_
      rw [hdrain]
      unfold drain
      rw [hpop, ← add_zero (owedSlots G v x)]
      refine (ensures_visit hL hgather hB hB' hq (QueueOwed.of_empty (hl.trans hr.symm)) hk).bind ?_
      rintro q₁ s₁ t₁ ⟨hqueue₁, hle, hless⟩
      refine Ensures.invoke ?_
      rw [hdrain]
      rcases hless with hlt | ⟨hl₁, hr₁⟩
      · exact ensures_drain hL hgather hB hB' hdrain ih hlt hqueue₁ le_rfl
      · have hempty : q₁.lpos = q₁.rpos := by omega
        have hpop₁ : q₁.popTop G = none := if_pos hempty
        rw [drain, hpop₁]
        exact ensures_forEach ih hqueue₁ (Or.inr hempty)

end Searches

end Search

end ToggleTree
