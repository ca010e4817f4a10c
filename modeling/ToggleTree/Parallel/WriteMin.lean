import Mathlib.Data.Set.Insert
import Mathlib.Order.Bounds.Basic
import ToggleTree.ForkJoin.Pool
import ToggleTree.Parallel.Atomic
import ToggleTree.Parallel.Interleaving

/-!
# Concurrent lowering of a cell

`write_min` reads the cell and then tries to exchange it until its value is stored or no longer
smaller. A failed exchange overwrites the value that was read, a successful one does not, so the
comparison after the loop tells whether the own value was stored. The value may be wider than the
cell; it is truncated when it is stored. `write_max` is the same loop with the comparison reversed.
-/

namespace ToggleTree

open Interleaving

namespace WriteRace

/-- Where a call is: before its read, in its loop with the value it knows, or returned. -/
inductive Phase
  | start
  | loop (old : ℕ)
  | done (result : Bool)

/-- The value of the cell, and the stores so far with the calls that made them. -/
structure Cell (ι : Type) where
  value : ℕ
  stored : List (ι × ℕ)

variable {ι : Type} [DecidableEq ι]

/-- The next atomic access of call `i` to a cell of `w` bits, with the comparisons that follow. -/
def access (w : ℕ) (better : ℕ → ℕ → Prop) [DecidableRel better] (value : ι → ℕ) (i : ι) (c : Cell ι) :
    Phase → Cell ι × Phase
  | .start => (c, .loop c.value)
  | .loop old =>
    if better (value i) old then
      if c.value = old then
        (⟨value i % 2 ^ w, c.stored ++ [(i, value i % 2 ^ w)]⟩, .done (better (value i) old))
      else (c, .loop c.value)
    else (c, .done (better (value i) old))
  | .done result => (c, .done result)

/-- The cell with its first value, before any call. -/
def initial (x : ℕ) : Calls ι (Cell ι) Phase := ⟨⟨x, []⟩, fun _ => .start⟩

/-- Calls of `write_min`. -/
def writeMin (w : ℕ) (value : ι → ℕ) (x : ℕ) (order : List ι) : Calls ι (Cell ι) Phase :=
  run (access w (· < ·) value) order (initial x)

/-- Calls of `write_max`. -/
def writeMax (w : ℕ) (value : ι → ℕ) (x : ℕ) (order : List ι) : Calls ι (Cell ι) Phase :=
  run (access w (· > ·) value) order (initial x)

/-- What a call knows: its read is not newer than the cell, and it returns whether it has stored. -/
def Knows (w : ℕ) (better : ℕ → ℕ → Prop) (v cell : ℕ) (stores : Prop) : Phase → Prop
  | .start => ¬stores
  | .loop old => old < 2 ^ w ∧ (old = cell ∨ better cell old) ∧ ¬stores
  | .done b => (b = true ↔ stores) ∧ ¬better v cell

/-- Call `i` has stored its value. -/
def Cell.Stores (c : Cell ι) (i : ι) : Prop := ∃ x, (i, x) ∈ c.stored

/-- What holds between the accesses. -/
structure Inv (w : ℕ) (better : ℕ → ℕ → Prop) (value : ι → ℕ) (x : ℕ) (s : Calls ι (Cell ι) Phase) : Prop where
  fits : s.shared.value < 2 ^ w
  last : (x :: s.shared.stored.map Prod.snd).getLast? = some s.shared.value
  chain : (x :: s.shared.stored.map Prod.snd).Pairwise fun y z => better z y
  values : ∀ e ∈ s.shared.stored, e.2 = value e.1
  calls : ∀ i, Knows w better (value i) s.shared.value (s.shared.Stores i) (s.phase i)

section Invariant

variable {w : ℕ} {better : ℕ → ℕ → Prop} {value : ι → ℕ} {x : ℕ} {s : Calls ι (Cell ι) Phase} {i : ι}

omit [DecidableEq ι] in
/-- The invariant holds at the start. -/
theorem Inv.init (h : x < 2 ^ w) : Inv w better value x (initial x) where
  fits := h
  last := rfl
  chain := List.pairwise_singleton _ _
  values := fun _ he => absurd he List.not_mem_nil
  calls := fun _ ⟨_, he⟩ => absurd he List.not_mem_nil

/-- An access that only changes what one call knows. -/
theorem Inv.setPhase (h : Inv w better value x s) {p : Phase}
    (hp : Knows w better (value i) s.shared.value (s.shared.Stores i) p) :
    Inv w better value x ⟨s.shared, Function.update s.phase i p⟩ where
  fits := h.fits
  last := h.last
  chain := h.chain
  values := h.values
  calls := fun j => by
    dsimp only
    by_cases hji : j = i
    · subst hji
      rw [Function.update_self]
      exact hp
    · rw [Function.update_of_ne hji]
      exact h.calls j

omit [DecidableEq ι] in
/-- The cell is the best of the values it had. -/
theorem Inv.best (h : Inv w better value x s) {y : ℕ} (hy : y ∈ x :: s.shared.stored.map Prod.snd) :
    y = s.shared.value ∨ better s.shared.value y := by
  obtain ⟨previous, hprevious⟩ := List.getLast?_eq_some_iff.mp h.last
  have hchain := h.chain
  rw [hprevious] at hy hchain
  rcases List.mem_append.mp hy with hy | hy
  · exact Or.inr ((List.pairwise_append.mp hchain).2.2 y hy s.shared.value (List.mem_singleton_self _))
  · exact Or.inl (List.mem_singleton.mp hy)

omit [DecidableEq ι] in
/-- The cell holds the initial value or that of a call that has stored it. -/
theorem Inv.cell_mem (h : Inv w better value x s) :
    s.shared.value = x ∨ ∃ i, s.shared.Stores i ∧ value i = s.shared.value := by
  rcases List.mem_cons.mp (List.mem_of_getLast? h.last) with heq | hmem
  · exact Or.inl heq
  · obtain ⟨⟨i, y⟩, he, hy⟩ := List.mem_map.mp hmem
    exact Or.inr ⟨i, ⟨y, he⟩, (h.values _ he).symm.trans hy⟩

variable [IsStrictTotalOrder ℕ better]

/-- What other calls know stays true when the cell gets a better value. -/
theorem Knows.lower {v y cell : ℕ} {stores stores' : Prop} {p : Phase} (h : Knows w better v cell stores p)
    (hy : better y cell) (hstores : stores ↔ stores') : Knows w better v y stores' p := by
  cases p with
  | start => exact fun h' => h (hstores.mpr h')
  | loop old =>
    refine ⟨h.1, Or.inr ?_, fun h' => h.2.2 (hstores.mpr h')⟩
    rcases h.2.1 with rfl | hold
    · exact hy
    · exact IsTrans.trans _ _ _ hy hold
  | done b => exact ⟨h.1.trans hstores, fun hv => h.2 (IsTrans.trans _ _ _ hv hy)⟩

/-- A successful exchange. -/
theorem Inv.exchange (h : Inv w better value x s) (hfits : value i < 2 ^ w)
    (hbetter : better (value i) s.shared.value) :
    Inv w better value x
      ⟨⟨value i, s.shared.stored ++ [(i, value i)]⟩, Function.update s.phase i (.done true)⟩ where
  fits := hfits
  last := by
    rw [List.map_append, ← List.cons_append]
    exact List.getLast?_concat
  chain := by
    rw [List.map_append, ← List.cons_append, List.pairwise_append]
    refine ⟨h.chain, List.pairwise_singleton _ _, fun y hy z hz => ?_⟩
    obtain rfl : z = value i := by simpa using hz
    rcases h.best hy with rfl | hy
    · exact hbetter
    · exact IsTrans.trans _ _ _ hbetter hy
  values := fun e he => by
    rcases List.mem_append.mp he with he | he
    · exact h.values e he
    · rw [List.mem_singleton.mp he]
  calls := fun j => by
    dsimp only [Cell.Stores]
    by_cases hji : j = i
    · subst hji
      rw [Function.update_self]
      refine ⟨?_, irrefl_of better _⟩
      simp
    · rw [Function.update_of_ne hji]
      refine (h.calls j).lower hbetter (exists_congr fun y => ?_)
      simp [hji]

variable [DecidableRel better]

/-- One access keeps the invariant, and the cell only gets better. -/
theorem Inv.step (hfits : ∀ i y, y < 2 ^ w → better (value i) y → value i < 2 ^ w)
    (h : Inv w better value x s) (i : ι) :
    Inv w better value x (step (access w better value) s i) ∧
      ((step (access w better value) s i).shared.value = s.shared.value ∨
        better (step (access w better value) s i).shared.value s.shared.value) := by
  have hknows := h.calls i
  unfold Interleaving.step
  cases hi : s.phase i with
  | start =>
    rw [hi] at hknows
    exact ⟨h.setPhase ⟨h.fits, Or.inl rfl, hknows⟩, Or.inl rfl⟩
  | loop old =>
    rw [hi] at hknows
    simp only [access]
    split
    · next hbetter =>
      split
      · next hold =>
        subst hold
        have hvalue := hfits i s.shared.value h.fits hbetter
        rw [Nat.mod_eq_of_lt hvalue, decide_eq_true hbetter]
        exact ⟨h.exchange hvalue hbetter, Or.inr hbetter⟩
      · exact ⟨h.setPhase ⟨h.fits, Or.inl rfl, hknows.2.2⟩, Or.inl rfl⟩
    · next hnot =>
      rw [decide_eq_false hnot]
      refine ⟨h.setPhase ⟨?_, fun hbetter => hnot ?_⟩, Or.inl rfl⟩
      · simp only [Bool.false_eq_true, false_iff]
        exact hknows.2.2
      · rcases hknows.2.1 with rfl | hold
        · exact hbetter
        · exact IsTrans.trans _ _ _ hbetter hold
  | done b =>
    rw [hi] at hknows
    exact ⟨h.setPhase hknows, Or.inl rfl⟩

omit [DecidableEq ι] [DecidableRel better] in
/-- No two calls have stored the same value. -/
theorem Inv.stores_inj (h : Inv w better value x s) {j : ι} (hi : s.shared.Stores i) (hj : s.shared.Stores j)
    (hij : value i = value j) : i = j := by
  obtain ⟨y, hy⟩ := hi
  obtain ⟨z, hz⟩ := hj
  have hnodup : (s.shared.stored.map Prod.snd).Nodup := by
    refine (List.pairwise_cons.mp h.chain).2.imp fun hab heq => ?_
    subst heq
    exact irrefl_of better _ hab
  have hyz : y = z := (h.values _ hy).trans (hij.trans (h.values _ hz).symm)
  exact congrArg Prod.fst (List.inj_on_of_nodup_map hnodup hy hz hyz)

omit [DecidableEq ι] [DecidableRel better] in
/-- Exactly one call returns that it stored the final value, unless the cell never changed. -/
theorem Inv.existsUnique (h : Inv w better value x s) (hfinished : ∀ i, ∃ b, s.phase i = .done b)
    (hne : s.shared.value ≠ x) : ∃! i, s.phase i = .done true ∧ value i = s.shared.value := by
  have hresult (i : ι) : s.phase i = .done true ↔ s.shared.Stores i := by
    obtain ⟨b, hb⟩ := hfinished i
    have hcall := h.calls i
    rw [hb] at hcall ⊢
    rw [← hcall.1, Phase.done.injEq]
  obtain ⟨i, hi, hvalue⟩ := h.cell_mem.resolve_left hne
  refine ⟨i, ⟨(hresult i).mpr hi, hvalue⟩, fun j hj => ?_⟩
  exact h.stores_inj ((hresult j).mp hj.1) hi (hj.2.trans hvalue.symm)

end Invariant

section Work

variable [Fintype ι] {w : ℕ} {better : ℕ → ℕ → Prop} [DecidableRel better] {value : ι → ℕ}
  {s : Calls ι (Cell ι) Phase} {i : ι}

/-- The call is still under way. -/
def Phase.running : Phase → Bool
  | .done _ => false
  | _ => true

/-- The call has to read the cell before it can exchange it. -/
def Phase.stale (cell : ℕ) : Phase → Bool
  | .start => true
  | .loop old => old != cell
  | .done _ => false

/-- A bound on the accesses to come: every exchange that succeeds makes the others read again. -/
def work (s : Calls ι (Cell ι) Phase) : ℕ :=
  (Fintype.card ι + 1) * count Phase.running s.phase + count (Phase.stale s.shared.value) s.phase

/-- A call that returns leaves less work, whatever it has stored. -/
theorem work_return (h : (s.phase i).running = true) (c : Cell ι) (b : Bool) :
    work ⟨c, Function.update s.phase i (.done b)⟩ < work s := by
  have hrunning := count_update Phase.running s.phase i (.done b)
  have hstale : count (Phase.stale c.value) (Function.update s.phase i (.done b)) ≤ Fintype.card ι :=
    count_le_card
  rw [h] at hrunning
  have hone : count Phase.running s.phase = count Phase.running (Function.update s.phase i (.done b)) + 1 :=
    hrunning.symm
  unfold work
  dsimp only
  rw [hone, Nat.mul_add]
  omega

/-- A call that reads the cell leaves less work if it has to. -/
theorem work_reread (h : (s.phase i).stale s.shared.value = true) :
    work ⟨s.shared, Function.update s.phase i (.loop s.shared.value)⟩ < work s := by
  have hrunning := count_update Phase.running s.phase i (.loop s.shared.value)
  have hstale := count_update (Phase.stale s.shared.value) s.phase i (.loop s.shared.value)
  have hi : (s.phase i).running = true := by
    cases hp : s.phase i with
    | done b => simp [hp, Phase.stale] at h
    | _ => rfl
  rw [hi] at hrunning
  rw [h] at hstale
  simp only [Phase.running, Phase.stale, bne_self_eq_false, Bool.toNat_true, Bool.toNat_false] at hrunning hstale
  unfold work
  dsimp only
  rw [show count Phase.running (Function.update s.phase i (.loop s.shared.value)) = count Phase.running
    s.phase by omega]
  omega

/-- Every access of a call that has not returned leaves less work. -/
theorem work_step (h : (s.phase i).running = true) : work (step (access w better value) s i) < work s := by
  unfold Interleaving.step
  cases hi : s.phase i with
  | start => exact work_reread (by rw [hi]; rfl)
  | loop old =>
    simp only [access]
    split
    · split
      · exact work_return h _ _
      · next hne => exact work_reread (by rw [hi]; simpa [Phase.stale] using Ne.symm hne)
    · exact work_return h _ _
  | done b => simp [hi, Phase.running] at h

omit [DecidableEq ι] in
/-- The work that is left at the start. -/
theorem work_initial (x : ℕ) : work (initial x : Calls ι (Cell ι) Phase) ≤ (Fintype.card ι + 1) ^ 2 := by
  have hstale : count (Phase.stale (initial x : Calls ι (Cell ι) Phase).shared.value)
      (initial x : Calls ι (Cell ι) Phase).phase ≤ Fintype.card ι := count_le_card
  have hrunning : count Phase.running (initial x : Calls ι (Cell ι) Phase).phase ≤ Fintype.card ι := count_le_card
  have hmul := Nat.mul_le_mul_left (Fintype.card ι + 1) hrunning
  have hsquare :
    (Fintype.card ι + 1) ^ 2 = (Fintype.card ι + 1) * Fintype.card ι + (Fintype.card ι + 1) := by ring
  unfold work
  omega

end Work

section OneStep

variable {σ κ T : Type} [LinearOrder T] {env : κ → ForkJoin.Prog σ κ Unit} {c : Loc σ T} {val : T → ℕ} {w : ℕ}
  {value : ι → T} {s₀ : σ} {x y : T} {s : Calls ι (Cell ι) Phase}

/-- What is left of the call of the one-step `write_min` while a call of the loop is in a phase: the call
takes effect when the loop returns. -/
def left (c : Loc σ T) (v : T) : Phase → ForkJoin.Prog σ κ Bool
  | .done b => .ret b
  | _ => ToggleTree.writeMin c v

omit [DecidableEq ι] in
/-- The step of the one-step `write_min` that stores its value. -/
theorem step_stores (hc : c.Lawful) {v : T} (h : v < y) :
    ForkJoin.Step env (ToggleTree.writeMin c v) (c.put y s₀) (.ret true) (c.put v s₀) := by
  refine ⟨?_, ?_⟩
  · dsimp only
    rw [hc.get_put, decide_eq_true h]
  · dsimp only
    rw [hc.get_put, if_pos h, hc.put_put]

omit [DecidableEq ι] in
/-- The step of the one-step `write_min` that finds a value that is not larger. -/
theorem step_declines (hc : c.Lawful) {v : T} (h : ¬v < y) :
    ForkJoin.Step env (ToggleTree.writeMin c v) (c.put y s₀) (.ret false) (c.put y s₀) := by
  refine ⟨?_, ?_⟩
  · dsimp only
    rw [hc.get_put, decide_eq_false h]
  · dsimp only
    rw [hc.get_put, if_neg h]

/-- An access of a call of the loop is the step of the one-step call, or changes neither the value of the
cell nor what is left of that call. -/
theorem Inv.effect (hc : c.Lawful) (h : Inv w (· < ·) (fun i => val (value i)) (val x) s) (hval : StrictMono val)
    (hy : s.shared.value = val y) (i : ι) :
    let s' := Interleaving.step (access w (· < ·) fun i => val (value i)) s i
    ∃ y', s'.shared.value = val y' ∧
      (ForkJoin.Step env (left c (value i) (s.phase i)) (c.put y s₀) (left c (value i) (s'.phase i))
        (c.put y' s₀) ∨
        (left c (value i) (s.phase i) : ForkJoin.Prog σ κ Bool) = left c (value i) (s'.phase i) ∧ y' = y) := by
  have hknows := h.calls i
  unfold Interleaving.step
  dsimp only
  rw [Function.update_self]
  cases hi : s.phase i with
  | start => exact ⟨y, hy, Or.inr ⟨rfl, rfl⟩⟩
  | loop old =>
    rw [hi] at hknows
    simp only [access]
    split
    · next hbetter =>
      split
      · next hold =>
        -- The exchange succeeds: the cell still holds the value that was compared.
        subst hold
        have hfits : val (value i) < 2 ^ w := hbetter.trans h.fits
        rw [decide_eq_true hbetter]
        rw [hy] at hbetter
        exact ⟨value i, Nat.mod_eq_of_lt hfits, Or.inl (step_stores hc (hval.lt_iff_lt.mp hbetter))⟩
      · exact ⟨y, hy, Or.inr ⟨rfl, rfl⟩⟩
    · next hnot =>
      -- The cell has only become smaller since it was read.
      have hle : ¬value i < y := by
        intro hlt
        have hcell := hval hlt
        rw [← hy] at hcell
        rcases hknows.2.1 with hold | hold
        · exact hnot (hold ▸ hcell)
        · exact hnot (hcell.trans hold)
      rw [decide_eq_false hnot]
      exact ⟨y, hy, Or.inl (step_declines hc hle)⟩
  | done b => exact ⟨y, hy, Or.inr ⟨rfl, rfl⟩⟩

/-- The one-step calls on the location have led to the value of the cell. -/
structure Linked (env : κ → ForkJoin.Prog σ κ Unit) (c : Loc σ T) (val : T → ℕ) (w : ℕ) (value : ι → T) (s₀ : σ)
    (s : Calls ι (Cell ι) Phase) : Prop where
  inv : Inv w (· < ·) (fun i => val (value i)) (val (c.get s₀)) s
  run : ∃ y, s.shared.value = val y ∧ ForkJoin.PoolSteps env (fun i => ToggleTree.writeMin c (value i)) s₀
    (fun i => left c (value i) (s.phase i)) (c.put y s₀)

/-- Every access keeps the link. -/
theorem Linked.step (h : Linked env c val w value s₀ s) (hc : c.Lawful) (hval : StrictMono val) (i : ι) :
    Linked env c val w value s₀ (Interleaving.step (access w (· < ·) fun i => val (value i)) s i) where
  inv := (h.inv.step (fun _ _ hy hlt => hlt.trans hy) i).1
  run := by
    obtain ⟨y, hy, hrun⟩ := h.run
    obtain ⟨y', hy', heffect⟩ := h.inv.effect hc hval hy i
    refine ⟨y', hy', ?_⟩
    have hmoved : (fun j => left c (value j)
          ((Interleaving.step (access w (· < ·) fun i => val (value i)) s i).phase j) :
            ι → ForkJoin.Prog σ κ Bool) =
        Function.update (fun j => left c (value j) (s.phase j)) i
          (left c (value i) ((Interleaving.step (access w (· < ·) fun i => val (value i)) s i).phase i)) := by
      funext j
      rw [Interleaving.step]
      dsimp only
      rw [Function.update_self]
      exact Function.apply_update (fun j => left c (value j)) s.phase i _ j
    rw [hmoved]
    cases heffect with
    | inl htaken => exact hrun.tail htaken
    | inr hsame =>
      obtain ⟨heq, rfl⟩ := hsame
      rwa [← heq, Function.update_eq_self i fun j => left c (value j) (s.phase j)]

/-- Calls of the loop on a cell, interleaved in any order, are calls of the one-step `write_min` on the
location of that cell: the same steps lead to the same value, and a call that has returned has returned
the same. -/
theorem writeMin_takesEffect (hc : c.Lawful) (hval : StrictMono val) (s₀ : σ) (hx : val (c.get s₀) < 2 ^ w)
    (value : ι → T) (order : List ι) :
    ∃ y, (writeMin w (fun i => val (value i)) (val (c.get s₀)) order).shared.value = val y ∧
      ForkJoin.PoolSteps env (fun i => ToggleTree.writeMin c (value i)) s₀
        (fun i => left c (value i) ((writeMin w (fun i => val (value i)) (val (c.get s₀)) order).phase i))
        (c.put y s₀) := by
  have hstart : Linked env c val w value s₀ (initial (val (c.get s₀))) := by
    refine ⟨Inv.init hx, c.get s₀, rfl, ?_⟩
    rw [hc.put_get]
    exact ForkJoin.PoolSteps.refl _ _
  have hlinked : Linked env c val w value s₀ (writeMin w (fun i => val (value i)) (val (c.get s₀)) order) :=
    run_invariant hstart fun s i hs => hs.step hc hval i
  exact hlinked.run

end OneStep

section Linearizable

/-- What the states after all interleavings of the accesses of some calls have in common: the cell
only gets better, the stores get strictly better and are the values of the calls that return
`true`, and once all calls have returned the cell holds the best of all values, stored by exactly
one call unless it is the initial value. No interleaving goes on forever. -/
structure Linearizable [Fintype ι] (better : ℕ → ℕ → Prop) (value : ι → ℕ) (x : ℕ)
    (state : List ι → Calls ι (Cell ι) Phase) : Prop where
  cell : ∀ order i, (state (order ++ [i])).shared.value = (state order).shared.value ∨
    better (state (order ++ [i])).shared.value (state order).shared.value
  stores : ∀ order, ((state order).shared.stored.map Prod.snd).Pairwise (fun y z => better z y) ∧
    ∀ e ∈ (state order).shared.stored, e.2 = value e.1
  results : ∀ order i b, (state order).phase i = .done b → (b = true ↔ (i, value i) ∈ (state order).shared.stored)
  best : ∀ order, (∀ i, ∃ b, (state order).phase i = .done b) →
    (state order).shared.value ∈ insert x (Set.range value) ∧
    ∀ y ∈ insert x (Set.range value), ¬better y (state order).shared.value
  winner : ∀ order, (∀ i, ∃ b, (state order).phase i = .done b) → (state order).shared.value ≠ x →
    ∃! i, (state order).phase i = .done true ∧ value i = (state order).shared.value
  finite : ∀ order, (∀ l i l', order = l ++ i :: l' → ((state l).phase i).running = true) →
    order.length ≤ (Fintype.card ι + 1) ^ 2

variable [Fintype ι] {w : ℕ} {better : ℕ → ℕ → Prop} [DecidableRel better] {value : ι → ℕ} {x : ℕ}

/-- The calls of `write_min` and of `write_max` are linearizable and come to an end. -/
theorem linearizable [IsStrictTotalOrder ℕ better]
    (hfits : ∀ i y, y < 2 ^ w → better (value i) y → value i < 2 ^ w)
    (h : x < 2 ^ w) : Linearizable better value x fun order => run (access w better value) order (initial x) := by
  have hinv (order : List ι) : Inv w better value x (run (access w better value) order (initial x)) :=
    run_invariant (Inv.init h) fun s i hs => (hs.step hfits i).1
  refine ⟨fun order i => ?_, fun order => ?_, fun order i b hb => ?_, fun order hfinished => ⟨?_, ?_⟩,
    fun order => (hinv order).existsUnique, fun order hactive => ?_⟩
  · rw [run_concat]
    exact ((hinv order).step hfits i).2
  · exact ⟨(List.pairwise_cons.mp (hinv order).chain).2, (hinv order).values⟩
  · have hcall := (hinv order).calls i
    rw [hb] at hcall
    refine hcall.1.trans ⟨fun ⟨y, hy⟩ => ?_, fun hi => ⟨_, hi⟩⟩
    rwa [← show y = value i from (hinv order).values _ hy]
  · rcases (hinv order).cell_mem with heq | ⟨i, _, hi⟩
    · exact Or.inl heq
    · exact Or.inr ⟨i, hi⟩
  · rintro y (rfl | ⟨i, rfl⟩) hbetter
    · rcases (hinv order).best List.mem_cons_self with heq | hcell
      · rw [← heq] at hbetter
        exact irrefl_of better _ hbetter
      · exact irrefl_of better _ (IsTrans.trans _ _ _ hbetter hcell)
    · obtain ⟨b, hb⟩ := hfinished i
      have hcall := (hinv order).calls i
      rw [hb] at hcall
      exact hcall.2 hbetter
  · have hlength := length_add_le work hactive fun s i hi => work_step hi
    have hwork : work (initial x : Calls ι (Cell ι) Phase) ≤ (Fintype.card ι + 1) ^ 2 := work_initial x
    omega

/-- Calls of `write_min` with values of any width, and calls of `write_max` with values that fit,
are linearizable updates: whatever the interleaving, the final value is the least (the greatest) one. -/
theorem writeMin_writeMax_linearizable (w : ℕ) (value : ι → ℕ) (x : ℕ) (h : x < 2 ^ w) :
    (Linearizable (· < ·) value x (writeMin w value x) ∧
      ∀ order, (∀ i, ∃ b, (writeMin w value x order).phase i = .done b) →
        IsLeast (insert x (Set.range value)) (writeMin w value x order).shared.value) ∧
    ((∀ i, value i < 2 ^ w) → Linearizable (· > ·) value x (writeMax w value x) ∧
      ∀ order, (∀ i, ∃ b, (writeMax w value x order).phase i = .done b) →
        IsGreatest (insert x (Set.range value)) (writeMax w value x order).shared.value) := by
  constructor
  · have hmin : Linearizable (· < ·) value x (writeMin w value x) :=
      linearizable (fun _ _ hy hlt => hlt.trans hy) h
    refine ⟨hmin, fun order hfinished => ?_⟩
    obtain ⟨hmem, hleast⟩ := hmin.best order hfinished
    exact ⟨hmem, fun y hy => not_lt.mp (hleast y hy)⟩
  · intro hvalue
    have hmax : Linearizable (· > ·) value x (writeMax w value x) := linearizable (fun i _ _ _ => hvalue i) h
    refine ⟨hmax, fun order hfinished => ?_⟩
    obtain ⟨hmem, hgreatest⟩ := hmax.best order hfinished
    exact ⟨hmem, fun y hy => not_lt.mp (hgreatest y hy)⟩

/-- Two calls with the values 5 and 2^32 on an 8-bit cell that holds 7, and two calls that raise it. -/
theorem writeMin_writeMax_linearizable_wide :
    Linearizable (· < ·) ![5, 2 ^ 32] 7 (writeMin 8 ![5, 2 ^ 32] 7) ∧
      Linearizable (· > ·) ![5, 9] 7 (writeMax 8 ![5, 9] 7) :=
  ⟨(writeMin_writeMax_linearizable 8 ![5, 2 ^ 32] 7 (by decide)).1.1,
    ((writeMin_writeMax_linearizable 8 ![5, 9] 7 (by decide)).2 (by decide)).1⟩

end Linearizable

end WriteRace

end ToggleTree
