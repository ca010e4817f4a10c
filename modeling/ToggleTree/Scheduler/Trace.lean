import ToggleTree.ForkJoin.Logic
import ToggleTree.Scheduler.Code

/-!
# Marks for the calls of a program

To say what is executed how often, a program is run together with a log. Each call of
`parallel_do` and `parallel_for` gets a number and leaves marks when it starts, when each of its
branches and iterations starts and ends, and when it returns.

The logic of fork–join programs then shows that the log of every run is orderly: a branch owns
the permission to leave each of its marks once.
-/

namespace ToggleTree

open ForkJoin ForkJoin.Prog

variable {σ : Type}

/-- What a call does. -/
inductive Mark
  | fork
  | leftStart
  | leftEnd
  | rightStart
  | rightEnd
  | loop (start stop : ℕ)
  | callStart (i : ℕ)
  | callEnd (i : ℕ)
  | returned
  deriving DecidableEq

/-- The number of a call, with what it does. -/
abbrev Event := ℕ × Mark

/-- The state of a program, the number of calls so far and their marks, the latest first. -/
structure Traced (σ : Type) where
  state : σ
  calls : ℕ
  log : List Event

/-- The call `n` leaves a mark. -/
def Traced.add (n : ℕ) (m : Mark) (t : Traced σ) : Traced σ := { t with log := (n, m) :: t.log }

/-- A call gets its number. -/
def Traced.enter (m : Mark) (t : Traced σ) : Traced σ :=
  { t with calls := t.calls + 1, log := (t.calls, m) :: t.log }

namespace Code

/-- Leave a mark. -/
def emit (n : ℕ) (m : Mark) : Code (Traced σ) := step (Traced.add n m)

/-- Leave a mark before and after. -/
def between (n : ℕ) (before after : Mark) (c : Code (Traced σ)) : Code (Traced σ) :=
  (emit n before).seq (c.seq (emit n after))

/-- The same code with marks for each `parallel_do`. -/
def traced : Code (Traced σ) → Code (Traced σ)
  | done => done
  | atom act next => atom act fun t => (next t).traced
  | parallelDo lf rf next => atom (Traced.enter .fork) fun t =>
      parallelDo (lf.traced.between t.calls .leftStart .leftEnd)
        (rf.traced.between t.calls .rightStart .rightEnd) ((emit t.calls .returned).seq next.traced)

/-- A traced sequence. -/
theorem traced_seq (c k : Code (Traced σ)) : (c.seq k).traced = c.traced.seq k.traced := by
  induction c with
  | done => rfl
  | atom act next ih => simp only [seq, traced, ih]
  | parallelDo lf rf next _ _ ih => simp only [seq, traced, ih, emit, step]

/-- A traced code between two marks. -/
theorem traced_between (n : ℕ) (before after : Mark) (c : Code (Traced σ)) :
    (c.between n before after).traced = c.traced.between n before after := by
  simp only [between, traced_seq]
  rfl

end Code

/-- A program built from nested calls of `parallel_do` and `parallel_for`. -/
inductive Program (σ : Type)
  | done
  | atom (act : σ → σ) (next : σ → Program σ)
  | parallelDo (lf rf next : Program σ)
  | parallelFor (start stop : ℕ) (f : ℕ → Program σ) (granularity : ℕ) (le : start ≤ stop)
      (pos : 1 ≤ granularity) (next : Program σ)

/-- The code of a program, with marks for each `parallel_for`. -/
def Program.code : Program σ → Code (Traced σ)
  | done => .done
  | atom act next => .atom (fun t => { t with state := act t.state }) fun t => (next t.state).code
  | parallelDo lf rf next => .parallelDo lf.code rf.code next.code
  | parallelFor start stop f granularity _ pos next => .atom (Traced.enter (.loop start stop)) fun t =>
      (Code.parallelFor start stop (fun i => (f i).code.between t.calls (.callStart i) (.callEnd i))
        granularity pos).seq ((Code.emit t.calls .returned).seq next.code)

/-- The marks with which a call starts. -/
def Mark.Begins : Mark → Prop
  | fork | loop _ _ => True
  | _ => False

/-- An event has everything before it that it needs. -/
def Justified (past : List Event) : Event → Prop
  | (n, .fork) => ∀ m, (n, m) ∉ past
  | (n, .loop _ _) => ∀ m, (n, m) ∉ past
  | (n, .leftStart) => (n, .fork) ∈ past
  | (n, .leftEnd) => (n, .leftStart) ∈ past
  | (n, .rightStart) => (n, .fork) ∈ past
  | (n, .rightEnd) => (n, .rightStart) ∈ past
  | (n, .callStart i) => ∃ start stop, (n, .loop start stop) ∈ past ∧ start ≤ i ∧ i < stop
  | (n, .callEnd i) => (n, .callStart i) ∈ past
  | (n, .returned) =>
      ((n, .fork) ∈ past ∧ (n, .leftEnd) ∈ past ∧ (n, .rightEnd) ∈ past) ∨
      ∃ start stop, (n, .loop start stop) ∈ past ∧ ∀ i, start ≤ i → i < stop → (n, .callEnd i) ∈ past

/-- Each event happens once, after everything that it needs. -/
def Orderly : List Event → Prop
  | [] => True
  | e :: past => e ∉ past ∧ Justified past e ∧ Orderly past

namespace Orderly

variable {log : List Event} {n start stop i : ℕ} {m m' : Mark} {e : Event}

/-- No event is logged twice. -/
theorem nodup (h : Orderly log) : log.Nodup := by
  induction log with
  | nil => exact List.nodup_nil
  | cons e past ih => exact List.nodup_cons.mpr ⟨h.1, ih h.2.2⟩

/-- Each event has happened after what it needs. -/
theorem justified (h : Orderly log) (he : e ∈ log) : ∃ past, past ⊆ log ∧ Justified past e := by
  induction log with
  | nil => cases he
  | cons e' past ih =>
    rcases List.mem_cons.mp he with rfl | he
    · exact ⟨past, List.subset_cons_self _ _, h.2.1⟩
    · obtain ⟨past', hsub, hjust⟩ := ih h.2.2 he
      exact ⟨past', fun x hx => List.mem_cons_of_mem _ (hsub hx), hjust⟩

/-- An event that begins a call has not happened before. -/
theorem justified_begins {past : List Event} (hm : m.Begins) (h : Justified past (n, m)) (m' : Mark) :
    (n, m') ∉ past := by
  cases m <;> first | exact h m' | exact hm.elim

/-- A call starts once. -/
theorem begins_unique (h : Orderly log) (hn : (n, m) ∈ log) (hn' : (n, m') ∈ log) (hm : m.Begins)
    (hm' : m'.Begins) : m = m' := by
  induction log with
  | nil => cases hn
  | cons e past ih =>
    rcases List.mem_cons.mp hn with rfl | hold
    · rcases List.mem_cons.mp hn' with heq | hold'
      · exact (Prod.mk.inj heq).2.symm
      · exact (justified_begins hm h.2.1 m' hold').elim
    · rcases List.mem_cons.mp hn' with rfl | hold'
      · exact (justified_begins hm' h.2.1 m hold).elim
      · exact ih h.2.2 hold hold'

/-- A `parallel_do` that has returned has executed both of its branches. -/
theorem returned_do (h : Orderly log) (hret : (n, .returned) ∈ log) (hfork : (n, .fork) ∈ log) :
    (n, .leftStart) ∈ log ∧ (n, .leftEnd) ∈ log ∧ (n, .rightStart) ∈ log ∧ (n, .rightEnd) ∈ log := by
  obtain ⟨past, hsub, hjust⟩ := h.justified hret
  rcases hjust with ⟨_, hleft, hright⟩ | ⟨start, stop, hloop, _⟩
  · obtain ⟨past', hsub', hleft'⟩ := h.justified (hsub hleft)
    obtain ⟨past'', hsub'', hright'⟩ := h.justified (hsub hright)
    exact ⟨hsub' hleft', hsub hleft, hsub'' hright', hsub hright⟩
  · cases h.begins_unique hfork (hsub hloop) trivial trivial

/-- A `parallel_for` calls its function on indices of its range only. -/
theorem call_mem (h : Orderly log) (hloop : (n, .loop start stop) ∈ log)
    (hcall : (n, .callStart i) ∈ log) : start ≤ i ∧ i < stop := by
  obtain ⟨past, hsub, start', stop', hloop', hi⟩ := h.justified hcall
  cases h.begins_unique hloop (hsub hloop') trivial trivial
  exact hi

/-- A `parallel_for` that has returned has completed the call on each index of its range. -/
theorem returned_for (h : Orderly log) (hret : (n, .returned) ∈ log)
    (hloop : (n, .loop start stop) ∈ log) (hi : start ≤ i ∧ i < stop) :
    (n, .callStart i) ∈ log ∧ (n, .callEnd i) ∈ log := by
  obtain ⟨past, hsub, hjust⟩ := h.justified hret
  rcases hjust with ⟨hfork, _, _⟩ | ⟨start', stop', hloop', hcalls⟩
  · cases h.begins_unique hloop (hsub hfork) trivial trivial
  · cases h.begins_unique hloop (hsub hloop') trivial trivial
    have hend := hsub (hcalls i hi.1 hi.2)
    obtain ⟨past', hsub', hstart⟩ := h.justified hend
    exact ⟨hsub' hstart, hend⟩

end Orderly

/-- A branch holds the permission for each of its marks. Every call has returned or will. -/
def tracing : Protocol (Traced σ) (Multiset Event) where
  inv t a := Orderly t.log ∧ (∀ e ∈ t.log, e.1 < t.calls) ∧ a.Nodup ∧
    (∀ e ∈ a, e.1 < t.calls ∧ e ∉ t.log) ∧ ∀ n < t.calls, (n, .returned) ∈ t.log ∨ (n, .returned) ∈ a
  rel t t' := t.log <:+ t'.log
  refl t := List.suffix_refl t.log
  trans h h' := h.trans h'

/-- A fact about the log that no later event undoes. -/
def Lasting (H : Traced σ → Prop) : Prop := ∀ t t', tracing.rel t t' → H t → H t'

/-- Two lasting properties together. -/
theorem Lasting.and {H Q : Traced σ → Prop} (hH : Lasting H) (hQ : Lasting Q) :
    Lasting fun t => H t ∧ Q t := fun t t' hrel h => ⟨hH t t' hrel h.1, hQ t t' hrel h.2⟩

/-- An event that has been logged stays in the log. -/
theorem Lasting.mem (σ : Type) (e : Event) : Lasting fun t : Traced σ => e ∈ t.log :=
  fun _ _ hrel h => hrel.subset h

/-- From a state with `H` the code leaves the marks `a`, each once, and ends with `Q`. -/
def Does (H : Traced σ → Prop) (c : Code (Traced σ)) (a : Multiset Event) (Q : Traced σ → Prop) : Prop :=
  ∀ t k, H t →
    Ensures tracing Empty.elim (fun _ t' b => Q t' ∧ tracing.rel t t' ∧ b = k) c.prog t (k + a)

namespace Does

variable {H Q R : Traced σ → Prop} {c c' : Code (Traced σ)} {a a' : Multiset Event}

/-- The code that does nothing. -/
theorem done (hH : Lasting H) : Does H .done 0 H := fun _ k ht =>
  Ensures.ret fun t' _ hrel hinv => ⟨k, by rwa [add_zero] at hinv, hH _ t' hrel ht, hrel, rfl⟩

/-- A weaker postcondition. -/
theorem mono (h : Does H c a Q) (hQ : ∀ t, Q t → R t) : Does H c a R := fun t k ht =>
  (h t k ht).mono fun _ t' _ h' => ⟨hQ t' h'.1, h'.2⟩

/-- A stronger precondition. -/
theorem weaken (h : Does H c a Q) (hR : ∀ t, R t → H t) : Does R c a Q := fun t k ht => h t k (hR t ht)

/-- What was true before is still true afterwards. -/
theorem keep (h : Does H c a Q) (hH : Lasting H) : Does H c a fun t => H t ∧ Q t := fun t k ht =>
  (h t k ht).mono fun _ t' _ h' => ⟨⟨hH t t' h'.2.1 ht, h'.1⟩, h'.2⟩

/-- One code after the other. -/
theorem seq (h : Does H c a Q) (h' : Does Q c' a' R) : Does H (c.seq c') (a + a') R := by
  intro t k ht
  rw [Code.prog_seq, add_comm a a', ← add_assoc]
  refine (h t (k + a') ht).bind ?_
  rintro _ t' _ ⟨hQ, hrel, rfl⟩
  exact (h' t' k hQ).mono fun _ t'' _ hR => ⟨hR.1, hrel.trans hR.2.1, hR.2.2⟩

/-- One mark. -/
theorem emit (n : ℕ) (m : Mark) (hH : Lasting H) (hjust : ∀ t, H t → Justified t.log (n, m)) :
    Does H (Code.emit n m) {(n, m)} fun t => H t ∧ (n, m) ∈ t.log := by
  intro t k ht
  refine Ensures.atom fun t' o hrel hinv => ⟨k, List.suffix_cons _ _, ?_, ?_⟩
  · obtain ⟨horderly, hcalls, hnodup, hpermit, hreturns⟩ := hinv
    have hsplit : k + {(n, m)} + o = (n, m) ::ₘ (k + o) := by
      rw [add_right_comm, Multiset.add_comm (k + o), Multiset.singleton_add]
    rw [hsplit] at hnodup hpermit hreturns
    obtain ⟨hnot, hnodup⟩ := Multiset.nodup_cons.mp hnodup
    obtain ⟨hlt, hnew⟩ := hpermit (n, m) (Multiset.mem_cons_self _ _)
    refine ⟨⟨hnew, hjust t' (hH t t' hrel ht), horderly⟩, fun e he => ?_, hnodup, fun e he => ?_,
      fun i hi => ?_⟩
    · rcases List.mem_cons.mp he with rfl | he
      · exact hlt
      · exact hcalls e he
    · obtain ⟨hlt', hnew'⟩ := hpermit e (Multiset.mem_cons_of_mem he)
      refine ⟨hlt', fun hmem => ?_⟩
      rcases List.mem_cons.mp hmem with rfl | hmem
      · exact hnot he
      · exact hnew' hmem
    · rcases hreturns i hi with hlog | hmem
      · exact Or.inl (List.mem_cons_of_mem _ hlog)
      · rcases Multiset.mem_cons.mp hmem with heq | hmem
        · exact Or.inl (heq ▸ List.mem_cons_self)
        · exact Or.inr hmem
  · refine Ensures.ret fun t'' o' hrel' hinv' => ⟨k, hinv', ⟨hH t t'' ?_ ht, ?_⟩, ?_, rfl⟩
    · exact (hrel.trans (List.suffix_cons _ _)).trans hrel'
    · exact hrel'.subset List.mem_cons_self
    · exact (hrel.trans (List.suffix_cons _ _)).trans hrel'

/-- A mark before and a mark after. -/
theorem between (n : ℕ) (before after : Mark) (hH : Lasting H) (hQ : Lasting Q) (h : Does H c a Q)
    (hbefore : ∀ t, H t → Justified t.log (n, before))
    (hafter : ∀ t : Traced σ, (n, before) ∈ t.log → Justified t.log (n, after)) :
    Does H (c.between n before after) ({(n, before)} + (a + {(n, after)}))
      fun t => Q t ∧ (n, after) ∈ t.log := by
  have hmem := Lasting.mem σ (n, before)
  have hbody : Does (fun t => H t ∧ (n, before) ∈ t.log) c a fun t => (n, before) ∈ t.log ∧ Q t :=
    ((h.weaken fun _ ht => ht.1).keep (hH.and hmem)).mono fun _ ht => ⟨ht.1.2, ht.2⟩
  refine (emit n before hH hbefore).seq (hbody.seq
    ((emit n after (hmem.and hQ) fun t ht => hafter t ht.1).mono ?_))
  exact fun _ ht => ⟨ht.1.2, ht.2⟩

/-- The two branches of a `parallel_do` and what follows. -/
theorem parallelDo {lf rf : Code (Traced σ)} {b : Multiset Event} {Q₁ Q₂ : Traced σ → Prop}
    (hH : Lasting H) (hlf : Does H lf a Q₁) (hrf : Does H rf b Q₂)
    (hnext : Does (fun t => H t ∧ Q₁ t ∧ Q₂ t) c a' R) :
    Does H (.parallelDo lf rf c) (a + b + a') R := by
  intro t k ht
  have hsplit : k + (a + b + a') = (k + a' + a) + (0 + b) := by
    rw [zero_add, add_comm (a + b), ← add_assoc, ← add_assoc]
  rw [hsplit]
  refine Ensures.fork (hlf t (k + a') ht) (hrf t 0 ht) ?_
  rintro _ _ t' _ _ ⟨hq₁, hrel, rfl⟩ ⟨hq₂, hrel', rfl⟩
  rw [add_zero]
  exact (hnext t' k ⟨hH t t' hrel ht, hq₁, hq₂⟩).mono fun _ t'' _ h' => ⟨h'.1, hrel.trans h'.2.1, h'.2.2⟩

/-- A call gets its number and the permissions for its marks. -/
theorem enter (m : Mark) (next : ℕ → Code (Traced σ)) (permits : ℕ → Multiset Event) (hH : Lasting H)
    (hbegins : ∀ n past, Justified past (n, m) ↔ ∀ m', (n, m') ∉ past)
    (hnodup : ∀ n, (permits n).Nodup) (hpermits : ∀ n, ∀ e ∈ permits n, e.1 = n ∧ e.2 ≠ m)
    (hreturned : ∀ n, (n, .returned) ∈ permits n)
    (h : ∀ n, Does (fun t => H t ∧ (n, m) ∈ t.log) (next n) (permits n + a) R) :
    Does H (.atom (Traced.enter m) fun t => next t.calls) a R := by
  intro t k ht
  refine Ensures.atom fun t' o hrel hinv => ⟨k + (permits t'.calls + a), List.suffix_cons _ _, ?_, ?_⟩
  · obtain ⟨horderly, hcalls, hnodup', hpermit, hreturns⟩ := hinv
    have hsplit : k + (permits t'.calls + a) + o = permits t'.calls + (k + a + o) := by
      rw [← add_assoc, add_comm k, add_assoc, add_assoc, add_assoc]
    have hfresh (e : Event) (he : e ∈ t'.log) : e.1 ≠ t'.calls := (hcalls e he).ne
    rw [hsplit]
    refine ⟨⟨fun hmem => hfresh _ hmem rfl, (hbegins _ _).mpr fun m' hmem => hfresh _ hmem rfl, horderly⟩,
      fun e he => ?_, ?_, fun e he => ?_, fun i hi => ?_⟩
    · rcases List.mem_cons.mp he with rfl | he
      · exact Nat.lt_succ_self _
      · exact (hcalls e he).trans (Nat.lt_succ_self _)
    · refine Multiset.nodup_add.mpr ⟨hnodup _, hnodup', Multiset.disjoint_left.mpr fun {e} he he' => ?_⟩
      exact (hpermit e he').1.ne (hpermits _ e he).1
    · rcases Multiset.mem_add.mp he with he | he
      · obtain ⟨hn, hne⟩ := hpermits _ e he
        refine ⟨hn ▸ Nat.lt_succ_self _, fun hmem => ?_⟩
        rcases List.mem_cons.mp hmem with rfl | hmem
        · exact hne rfl
        · exact hfresh e hmem hn
      · obtain ⟨hlt, hnew⟩ := hpermit e he
        refine ⟨hlt.trans (Nat.lt_succ_self _), fun hmem => ?_⟩
        rcases List.mem_cons.mp hmem with rfl | hmem
        · exact hlt.ne rfl
        · exact hnew hmem
    · rcases Nat.lt_succ_iff_lt_or_eq.mp hi with hi | rfl
      · rcases hreturns i hi with hlog | hmem
        · exact Or.inl (List.mem_cons_of_mem _ hlog)
        · exact Or.inr (Multiset.mem_add.mpr (Or.inr hmem))
      · exact Or.inr (Multiset.mem_add.mpr (Or.inl (hreturned _)))
  · have hstep : tracing.rel t (t'.enter m) := hrel.trans (List.suffix_cons _ _)
    exact (h t'.calls (t'.enter m) k ⟨hH t _ hstep ht, List.mem_cons_self⟩).mono
      fun _ t'' _ h' => ⟨h'.1, hstep.trans h'.2.1, h'.2.2⟩

/-- A `parallel_do` with its marks. -/
theorem traced_parallelDo {lf rf next : Code (Traced σ)} {b : Multiset Event} {Q₁ Q₂ : Traced σ → Prop}
    (hH : Lasting H) (hQ₁ : Lasting Q₁) (hQ₂ : Lasting Q₂) (hlf : Does H lf.traced a Q₁)
    (hrf : Does H rf.traced b Q₂) (hnext : Does (fun t => Q₁ t ∧ Q₂ t) next.traced a' R) :
    Does H (Code.parallelDo lf rf next).traced (a + b + a') R := by
  refine Does.enter .fork (fun n => .parallelDo (lf.traced.between n .leftStart .leftEnd)
    (rf.traced.between n .rightStart .rightEnd) ((Code.emit n .returned).seq next.traced))
      (fun n => {(n, .leftStart), (n, .leftEnd), (n, .rightStart),
    (n, .rightEnd), (n, .returned)}) hH (fun n past => Iff.rfl) (fun n => by simp) (fun n e he => ?_)
    (fun n => by simp) fun n => ?_
  · simp only [Multiset.insert_eq_cons, Multiset.mem_cons, Multiset.mem_singleton] at he
    rcases he with rfl | rfl | rfl | rfl | rfl <;> exact ⟨rfl, by simp⟩
  · have hfork := Lasting.mem σ (n, .fork)
    have hleft := Lasting.mem σ (n, .leftEnd)
    have hright := Lasting.mem σ (n, .rightEnd)
    have hreturn : Does (fun t => (H t ∧ (n, .fork) ∈ t.log) ∧ (Q₁ t ∧ (n, .leftEnd) ∈ t.log) ∧
        Q₂ t ∧ (n, .rightEnd) ∈ t.log) (Code.emit n .returned) {(n, .returned)} fun t => Q₁ t ∧ Q₂ t :=
      (emit n .returned ((hH.and hfork).and ((hQ₁.and hleft).and (hQ₂.and hright)))
        fun t ht => Or.inl ⟨ht.1.2, ht.2.1.2, ht.2.2.2⟩).mono fun _ ht => ⟨ht.1.2.1.1, ht.1.2.2.1⟩
    have hboth := parallelDo (hH.and hfork)
      (between n .leftStart .leftEnd (hH.and hfork) hQ₁ (hlf.weaken fun _ ht => ht.1)
        (fun _ ht => ht.2) fun _ ht => ht)
      (between n .rightStart .rightEnd (hH.and hfork) hQ₂ (hrf.weaken fun _ ht => ht.1)
        (fun _ ht => ht.2) fun _ ht => ht) (hreturn.seq hnext)
    have hsplit : ({(n, .leftStart), (n, .leftEnd), (n, .rightStart), (n, .rightEnd), (n, .returned)} :
        Multiset Event) + (a + b + a') = {(n, .leftStart)} + (a + {(n, .leftEnd)}) +
        ({(n, .rightStart)} + (b + {(n, .rightEnd)})) + ({(n, .returned)} + a') := by
      simp only [Multiset.insert_eq_cons, ← Multiset.singleton_add]
      abel
    rw [hsplit]
    exact hboth

/-- The sequential loop of a `parallel_for`. -/
theorem traced_seqFor {f : ℕ → Code (Traced σ)} {start stop : ℕ} (a : ℕ → Multiset Event)
    {Q : ℕ → Traced σ → Prop} (hH : Lasting H) (hQ : ∀ i, Lasting (Q i))
    (hf : ∀ i, start ≤ i → i < stop → Does H (f i).traced (a i) (Q i)) :
    Does H (Code.seqFor start stop f).traced (∑ i ∈ Finset.Ico start stop, a i)
      fun t => ∀ i, start ≤ i → i < stop → Q i t := by
  induction hn : stop - start generalizing start with
  | zero =>
    unfold Code.seqFor
    rw [if_neg (by omega), Finset.Ico_eq_empty (by omega), Finset.sum_empty]
    exact (done hH).mono fun _ _ i h₁ h₂ => by omega
  | succ n ih =>
    unfold Code.seqFor
    rw [if_pos (by omega), Code.traced_seq, Finset.sum_eq_sum_Ico_succ_bot (by omega)]
    refine ((hf start le_rfl (by omega)).keep hH).seq
      ((((@ih (start + 1) (fun i hi => hf i (by omega)) (by omega)).weaken
        fun _ ht => ht.1).keep (hH.and (hQ start))).mono fun t ht i h₁ h₂ => ?_)
    by_cases hi : i = start
    · rw [hi]
      exact ht.1.2
    · exact ht.2 i (by omega) h₂

/-- A `parallel_for` calls its function on each index of its range, whatever its granularity. -/
theorem traced_parallelFor {f : ℕ → Code (Traced σ)} {start stop granularity : ℕ}
    (hpos : 1 ≤ granularity) (a : ℕ → Multiset Event) {Q : ℕ → Traced σ → Prop} (hH : Lasting H)
    (hQ : ∀ i, Lasting (Q i))
    (hf : ∀ i, start ≤ i → i < stop → Does H (f i).traced (a i) (Q i)) :
    Does H (Code.parallelFor start stop f granularity hpos).traced (∑ i ∈ Finset.Ico start stop, a i)
      fun t => ∀ i, start ≤ i → i < stop → Q i t := by
  have hall (start stop : ℕ) : Lasting fun t => ∀ i, start ≤ i → i < stop → Q i t :=
    fun t t' hrel h i h₁ h₂ => hQ i t t' hrel (h i h₁ h₂)
  induction hn : stop - start using Nat.strong_induction_on generalizing start stop with
  | _ n ih =>
    unfold Code.parallelFor
    split
    · exact traced_seqFor a hH hQ hf
    · have hmid : start ≤ start + (stop - start) / 2 := Nat.le_add_right _ _
      have hmid' : start + (stop - start) / 2 ≤ stop := by omega
      have hjoin : Does (fun t => (∀ i, start ≤ i → i < start + (stop - start) / 2 → Q i t) ∧
          ∀ i, start + (stop - start) / 2 ≤ i → i < stop → Q i t) (Code.done : Code (Traced σ)).traced 0
          fun t => ∀ i, start ≤ i → i < stop → Q i t := by
        refine (done ((hall _ _).and (hall _ _))).mono fun t ht i h₁ h₂ => ?_
        by_cases hlt : i < start + (stop - start) / 2
        · exact ht.1 i h₁ hlt
        · exact ht.2 i (by omega) h₂
      rw [← Finset.sum_Ico_consecutive a hmid hmid']
      have hboth := traced_parallelDo hH (hall _ _) (hall _ _)
        (ih (start + (stop - start) / 2 - start) (by omega) (fun i h₁ h₂ => hf i h₁ (by omega)) rfl)
        (ih (stop - (start + (stop - start) / 2)) (by omega) (fun i h₁ h₂ => hf i (by omega) h₂) rfl) hjoin
      rwa [add_zero] at hboth

end Does

/-- What is always true is lasting. -/
theorem Lasting.true : Lasting fun _ : Traced σ => True := fun _ _ _ _ => trivial

/-- The marks of the calls of a loop. -/
def callEvents (n start stop : ℕ) : Multiset Event :=
  ∑ i ∈ Finset.Ico start stop, ({(n, .callStart i)} + (0 + {(n, .callEnd i)}))

/-- The events of a call are its own, and neither a fork of its loop nor its return. -/
theorem mem_callEvents {n start stop : ℕ} {e : Event} (h : e ∈ callEvents n start stop) :
    e.1 = n ∧ (∀ a b, e.2 ≠ .loop a b) ∧ e.2 ≠ .returned := by
  obtain ⟨i, _, hi⟩ := Multiset.mem_sum.mp h
  simp only [zero_add, Multiset.singleton_add, Multiset.mem_cons, Multiset.mem_singleton] at hi
  rcases hi with rfl | rfl <;> simp

/-- The events of a call are different. -/
theorem callEvents_nodup (n start stop : ℕ) : (callEvents n start stop).Nodup := by
  change (Multiset.bind (Finset.Ico start stop).val fun i => _).Nodup
  refine Multiset.nodup_bind.mpr ⟨fun i _ => by simp, Multiset.Nodup.pairwise (fun i _ j _ hij => ?_)
    (Finset.Ico start stop).nodup⟩
  simpa [Function.onFun] using hij.symm

/-- Every program leaves its marks in order. -/
theorem Program.does (p : Program σ) : Does (fun _ => True) p.code.traced 0 fun _ => True := by
  induction p with
  | done => exact Does.done Lasting.true
  | atom act next ih =>
    intro t k _
    refine Ensures.atom fun t' o hrel hinv => ⟨k, List.suffix_rfl, ?_, ?_⟩
    · rw [add_zero] at hinv
      exact hinv
    · have hnext := ih t'.state { t' with state := act t'.state } k trivial
      rw [add_zero] at hnext
      exact hnext.mono fun _ t'' _ h' => ⟨trivial, hrel.trans h'.2.1, h'.2.2⟩
  | parallelDo lf rf next ihl ihr ih =>
    rw [← add_zero (0 : Multiset Event), ← add_zero ((0 : Multiset Event) + 0)]
    exact Does.traced_parallelDo Lasting.true Lasting.true Lasting.true ihl ihr
      (ih.weaken fun _ _ => trivial)
  | parallelFor start stop f granularity le pos next ihf ih =>
    refine Does.enter (.loop start stop) (fun n => ((Code.parallelFor start stop (fun i =>
      (f i).code.between n (.callStart i) (.callEnd i)) granularity pos).seq
        ((Code.emit n .returned).seq next.code)).traced) (fun n => (n, .returned) ::ₘ callEvents n start stop)
      Lasting.true (fun n past => Iff.rfl) (fun n => ?_) (fun n e he => ?_)
      (fun n => Multiset.mem_cons_self _ _) fun n => ?_
    · exact Multiset.nodup_cons.mpr ⟨fun hmem => (mem_callEvents hmem).2.2 rfl, callEvents_nodup n start stop⟩
    · rcases Multiset.mem_cons.mp he with rfl | he
      · exact ⟨rfl, by simp⟩
      · exact ⟨(mem_callEvents he).1, (mem_callEvents he).2.1 start stop⟩
    · have hloop := Lasting.mem σ (n, .loop start stop)
      have hcalls := Does.traced_parallelFor (H := fun t => True ∧ (n, .loop start stop) ∈ t.log) pos
        (fun i => {(n, .callStart i)} + (0 + {(n, .callEnd i)})) (Lasting.true.and hloop)
        (fun i => Lasting.true.and (Lasting.mem σ (n, .callEnd i))) fun i h₁ h₂ => by
          rw [Code.traced_between]
          exact Does.between n _ _ (Lasting.true.and hloop) Lasting.true ((ihf i).weaken fun _ _ => trivial)
            (fun t ht => ⟨start, stop, ht.2, h₁, h₂⟩) fun t ht => ht
      have hall : Lasting fun t : Traced σ =>
          ∀ i, start ≤ i → i < stop → True ∧ (n, .callEnd i) ∈ t.log :=
        fun t t' hrel h i h₁ h₂ => ⟨trivial, hrel.subset (h i h₁ h₂).2⟩
      have hreturn := Does.emit n .returned ((Lasting.true.and hloop).and hall)
        fun t ht => Or.inr ⟨start, stop, ht.1.2, fun i h₁ h₂ => (ht.2 i h₁ h₂).2⟩
      have hsplit : (n, .returned) ::ₘ callEvents n start stop + 0 =
          callEvents n start stop + ({(n, .returned)} + 0) := by
        rw [add_zero, add_zero, ← Multiset.singleton_add, add_comm]
      rw [hsplit, Code.traced_seq, Code.traced_seq]
      exact (hcalls.keep (Lasting.true.and hloop)).seq (hreturn.seq (ih.weaken fun _ _ => trivial))

end ToggleTree
