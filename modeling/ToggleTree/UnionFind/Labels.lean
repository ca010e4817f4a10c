import ToggleTree.UnionFind.Components

/-!
# Labels of the components

Once the edges are united, every vertex looks for its root and stores it as its own parent, all
vertices at the same time. A store is one more plain write to a vertex that is linked already, or it
changes nothing, so the array follows the links at any time. A vertex that has stored its root keeps it, since
the calls for the other vertices write to those only.
-/

namespace ToggleTree

open LinkForest

namespace UnionFind

/-- Where the iteration of a vertex stands: inside `find`, or after its store. -/
inductive Labelling
  | finding (l : Local)
  | stored

/-- One access of the iteration of vertex `s`. -/
def Labelling.step (maxValue s : ℕ) (q : Labelling) (parent : ℕ → ℕ) : Labelling × (ℕ → ℕ) :=
  match q with
  | finding (.returned v) => (stored, Function.update parent s v)
  | finding l => (finding (l.step maxValue parent).1, (l.step maxValue parent).2.1)
  | stored => (stored, parent)

/-- The array, and the iterations of the vertices. -/
structure Labels (n : ℕ) where
  parent : ℕ → ℕ
  vertices : Fin n → Labelling

variable {n : ℕ}

/-- The loop over the vertices before its first access. -/
def Labels.start (parent : ℕ → ℕ) : Labels n := ⟨parent, fun s => .finding (Call.find s).start⟩

/-- The next access of the iteration of a vertex. -/
def Labels.advance (maxValue : ℕ) (t : Labels n) (s : Fin n) : Labels n :=
  let r := (t.vertices s).step maxValue s t.parent
  ⟨r.2, Function.update t.vertices s r.1⟩

/-- The accesses of the iterations in the order of a schedule. -/
def Labels.run (maxValue : ℕ) (schedule : List (Fin n)) (t : Labels n) : Labels n :=
    schedule.foldl (Labels.advance maxValue) t

/-- Both loops: the calls in the order of the first schedule, and then the labels in the order of the
second one. -/
def labelled {C : Type} [DecidableEq C] (maxValue n : ℕ) (calls : C → Call) (unites : List C)
    (finds : List (Fin n)) :
    Labels n :=
  Labels.run maxValue finds (Labels.start (run maxValue unites (State.init calls)).parent)

section Step

variable {maxValue a s : ℕ} {links : List (ℕ × ℕ)} {parent : ℕ → ℕ} {l : Local} {q : Labelling}

/-- A call of `find` makes no link. -/
theorem Local.Good.find_unlinked (hl : l.Good links maxValue n (.find a)) :
    (l.step maxValue parent).2.2 = none := by
  cases hmade : (l.step maxValue parent).2.2 with
  | none => rfl
  | some made =>
    rw [(eq_exchange_of_link hmade).1] at hl
    exact hl.elim

/-- A call of `find` writes to its own vertex only. -/
theorem Local.Good.find_frame (hl : l.Good links maxValue n (.find a)) {x : ℕ} (hx : x ≠ a) :
    (l.step maxValue parent).2.1 x = parent x := by
  cases l with
  | findParent i => rfl
  | findGrandparent i pi =>
    rw [Local.step]
    split <;> rfl
  | findClimb i pi =>
    rw [Local.step]
    split <;> rfl
  | findWrite i pi =>
    obtain ⟨rfl, -⟩ := hl
    exact Function.update_of_ne hx pi parent
  | returned v => rfl
  | _ => exact hl.elim

/-- What the iteration of vertex `s` knows. -/
def Labelling.Good (links : List (ℕ × ℕ)) (maxValue n s : ℕ) (parent : ℕ → ℕ) : Labelling → Prop
  | finding l => l.Good links maxValue n (.find s) ∧ l.Settled links
  | stored => parent s ∉ children links

/-- The iteration of another vertex does not concern this one. -/
theorem Labelling.Good.frame {parent' : ℕ → ℕ} (hq : q.Good links maxValue n s parent)
    (h : parent' s = parent s) :
    q.Good links maxValue n s parent' := by
  cases q with
  | finding l => exact hq
  | stored =>
    change parent' s ∉ children links
    rw [h]
    exact hq

/-- The store of a root. -/
theorem Follows.store {v : ℕ} (hf : Follows links n parent) (hforest : Forest links) (hs : s < n)
    (hroot : v ∉ children links)
    (hconn : Connected (Linked links) s v) : Follows links n (Function.update parent s v) := by
  by_cases hmem : s ∈ children links
  · have hne : v ≠ s := fun heq => hroot (heq ▸ hmem)
    exact hf.write hmem (lt_of_le_of_ne (hforest.root_le hroot hconn.symm) hne) hconn
  · have heq : v = parent s := by
      rw [(hf.root_iff s hs).mpr hmem]
      exact hforest.root_unique hroot hmem hconn.symm
    rw [heq, Function.update_eq_self]
    exact hf

/-- A labelling that looks for the root makes a step of `find`. -/
theorem Labelling.step_finding (h : ∀ v, l ≠ .returned v) : (finding l).step maxValue s parent =
    (finding (l.step maxValue parent).1, (l.step maxValue parent).2.1) := by
  cases l with
  | returned v => exact absurd rfl (h v)
  | _ => rfl

/-- A step of `find` keeps a labelling good. -/
theorem Labelling.Good.step_finding (hq : (finding l).Good links maxValue n s parent)
    (hf : Follows links n parent) :
    Follows links n (l.step maxValue parent).2.1 ∧
      (finding (l.step maxValue parent).1).Good links maxValue n s (l.step maxValue parent).2.1 := by
  obtain ⟨hl, hsettled⟩ := hq
  obtain ⟨heffect, hgood⟩ := hl.step hf
  have hfollows := heffect.follows hf
  rw [hl.find_unlinked] at hgood hfollows
  exact ⟨hfollows, hgood, hsettled.step hl hf⟩

/-- One access keeps the array right and what the iteration knows. -/
theorem Labelling.Good.step (hq : q.Good links maxValue n s parent) (hf : Follows links n parent)
    (hforest : Forest links)
    (hs : s < n) : Follows links n (q.step maxValue s parent).2 ∧
      (q.step maxValue s parent).1.Good links maxValue n s (q.step maxValue s parent).2 := by
  cases q with
  | stored => exact ⟨hf, hq⟩
  | finding l =>
    by_cases hreturned : ∃ v, l = .returned v
    · obtain ⟨v, rfl⟩ := hreturned
      obtain ⟨hconn, hroot⟩ := hq
      refine ⟨hf.store hforest hs hroot hconn, ?_⟩
      change Function.update parent s v s ∉ children links
      rw [Function.update_self]
      exact hroot
    · rw [not_exists] at hreturned
      rw [Labelling.step_finding hreturned]
      exact hq.step_finding hf

/-- A labelling changes only the entry of its own vertex. -/
theorem Labelling.Good.step_frame (hq : q.Good links maxValue n s parent) {x : ℕ} (hx : x ≠ s) :
    (q.step maxValue s parent).2 x = parent x := by
  cases q with
  | stored => rfl
  | finding l =>
    by_cases hreturned : ∃ v, l = .returned v
    · obtain ⟨v, rfl⟩ := hreturned
      exact Function.update_of_ne hx v parent
    · rw [not_exists] at hreturned
      rw [Labelling.step_finding hreturned]
      exact hq.1.find_frame hx

/-- The accesses that the iteration still makes at most. -/
def Labelling.remaining : Labelling → ℕ
  | finding l => l.remaining + 1
  | stored => 0

/-- A labelling comes closer to its end with every step. -/
theorem Labelling.Good.remaining_step (hq : q.Good links maxValue n s parent) (hf : Follows links n parent) :
    q = stored ∨ (q.step maxValue s parent).1.remaining < q.remaining := by
  cases q with
  | stored => exact Or.inl rfl
  | finding l =>
    refine Or.inr ?_
    rcases UnionFind.remaining_step hq.1 hf with ⟨v, rfl⟩ | hlt
    · exact Nat.succ_pos _
    · rw [Labelling.step_finding]
      · exact Nat.succ_lt_succ hlt
      · rintro v rfl
        exact absurd hlt (Nat.not_lt_zero _)

end Step

section Run

variable {maxValue : ℕ} {links : List (ℕ × ℕ)} {t : Labels n}

/-- The invariant of the loop that stores the labels. -/
structure Labels.Inv (links : List (ℕ × ℕ)) (maxValue : ℕ) (t : Labels n) : Prop where
  follows : Follows links n t.parent
  good : ∀ s : Fin n, (t.vertices s).Good links maxValue n s t.parent

/-- The labellings are good at the start. -/
theorem Labels.Inv.start {parent : ℕ → ℕ} (hf : Follows links n parent) :
    (Labels.start parent : Labels n).Inv links maxValue :=
  ⟨hf, fun s => ⟨⟨rfl, s.isLt⟩, trivial⟩⟩

/-- Every step keeps the invariant of the labellings. -/
theorem Labels.Inv.step (h : t.Inv links maxValue) (hforest : Forest links) (s : Fin n) :
    (t.advance maxValue s).Inv links maxValue := by
  obtain ⟨hfollows, hgood⟩ := (h.good s).step h.follows hforest s.isLt
  refine ⟨hfollows, fun x => ?_⟩
  simp only [Labels.advance]
  by_cases hx : x = s
  · rw [hx, Function.update_self]
    exact hgood
  · rw [Function.update_of_ne hx]
    exact (h.good x).frame ((h.good s).step_frame fun heq => hx (Fin.ext heq))

/-- Every run keeps the invariant of the labellings. -/
theorem Labels.Inv.run (h : t.Inv links maxValue) (hforest : Forest links) (schedule : List (Fin n)) :
    (Labels.run maxValue schedule t).Inv links maxValue := by
  induction schedule generalizing t with
  | nil => exact h
  | cons s schedule ih => exact ih (h.step hforest s)

/-- After enough steps of its own a vertex has its label. -/
theorem Labels.Inv.stored (h : t.Inv links maxValue) (hforest : Forest links) (s : Fin n)
    (schedule : List (Fin n)) (hcount : (t.vertices s).remaining ≤ schedule.count s) :
    (Labels.run maxValue schedule t).vertices s = .stored := by
  induction schedule generalizing t with
  | nil =>
    rw [List.count_nil, Nat.le_zero] at hcount
    cases hq : t.vertices s with
    | stored => exact hq
    | finding l =>
      rw [hq] at hcount
      cases hcount
  | cons u schedule ih =>
    refine ih (h.step hforest u) ?_
    simp only [Labels.advance]
    by_cases hsu : s = u
    · subst hsu
      rw [List.count_cons_self] at hcount
      rw [Function.update_self]
      rcases (h.good s).remaining_step h.follows with hq | hlt
      · rw [hq]
        exact Nat.zero_le _
      · omega
    · rw [List.count_cons_of_ne (Ne.symm hsu)] at hcount
      rw [Function.update_of_ne hsu]
      exact hcount

end Run

variable {C : Type} [DecidableEq C] {calls : C → Call}

/-- The run of the labellings after the calls keeps its invariant. -/
theorem inv_labelled (maxValue : ℕ) (hcalls : ∀ c, (calls c).Within n) (unites : List C) (finds : List (Fin n)) :
    (labelled maxValue n calls unites finds).Inv (run maxValue unites (State.init calls)).links maxValue :=
  (Labels.Inv.start ((Inv.init hcalls).run unites).follows).run ((Inv.init hcalls).run unites).forest finds

/-- The label of a vertex whose iteration is done. -/
theorem isLeast_labelled (hcalls : ∀ c, (calls c).Within n) {maxValue : ℕ} {unites : List C}
    {finds : List (Fin n)} (hall : AllUnited calls (run maxValue unites (State.init calls))) {s : Fin n}
    (hstored : (labelled maxValue n calls unites finds).vertices s = .stored) :
    IsLeast {y | Connected (United calls) s y} ((labelled maxValue n calls unites finds).parent s) := by
  have hunited : Inv maxValue n calls (run maxValue unites (State.init calls)) := (Inv.init hcalls).run unites
  have hinv := inv_labelled maxValue hcalls unites finds
  have hconn := hinv.follows.connected s s.isLt
  have hroot := hinv.good s
  rw [hstored] at hroot
  refine ⟨(hunited.connected_iff hall s _).mpr hconn, fun y hy => ?_⟩
  exact hunited.forest.root_le hroot (hconn.symm.trans ((hunited.connected_iff hall s y).mp hy))

/-- An iteration is done after `s + 4` accesses at most. -/
theorem labelled_stored (maxValue : ℕ) (hcalls : ∀ c, (calls c).Within n) (unites : List C) {finds : List (Fin n)}
    {s : Fin n}
    (hcount : s + 4 ≤ finds.count s) : (labelled maxValue n calls unites finds).vertices s = .stored :=
  have hunited : Inv maxValue n calls (run maxValue unites (State.init calls)) := (Inv.init hcalls).run unites
  (Labels.Inv.start hunited.follows).stored hunited.forest s finds hcount

/-- Whatever the order of the accesses in both loops, the label of a vertex is the least vertex of its
component as soon as its iteration is done, which takes at most `s + 4` accesses, and the array is safe at
any time. -/
theorem labelled_least (maxValue : ℕ) (hcalls : ∀ c, (calls c).Within n) (unites : List C) (finds : List (Fin n))
    (hall : AllUnited calls (run maxValue unites (State.init calls))) (s : Fin n) :
    ((labelled maxValue n calls unites finds).vertices s = .stored →
      IsLeast {y | Connected (United calls) s y} ((labelled maxValue n calls unites finds).parent s)) ∧
    (s + 4 ≤ finds.count s → (labelled maxValue n calls unites finds).vertices s = .stored) ∧
    (labelled maxValue n calls unites finds).parent s ≤ s ∧
    Connected (United calls) s ((labelled maxValue n calls unites finds).parent s) := by
  have hunited : Inv maxValue n calls (run maxValue unites (State.init calls)) := (Inv.init hcalls).run unites
  have hfollows := (inv_labelled maxValue hcalls unites finds).follows
  exact ⟨isLeast_labelled hcalls hall, labelled_stored maxValue hcalls unites, hfollows.le s s.isLt,
    (hunited.connected_iff hall s _).mpr (hfollows.connected s s.isLt)⟩

/-- The edges of a path with three vertices. -/
def uniteThree : Bool → Call
  | false => .unite 1 2
  | true => .unite 0 1

/-- The calls of the example stay within their vertices. -/
theorem uniteThree_within (c : Bool) : (uniteThree c).Within 3 := by
  cases c with
  | false => exact ⟨by decide, by decide⟩
  | true => exact ⟨by decide, by decide⟩

/-- The iterations of the vertices of a path in turns. -/
theorem labelled_least_path : (labelled 255 3 uniteThree (List.replicate 20 false ++ List.replicate 20 true)
    ((List.replicate 7 [0, 1, 2]).flatten)).parent 2 = 0 := by
  have hleast := labelled_least 255 uniteThree_within (List.replicate 20 false ++ List.replicate 20 true)
    ((List.replicate 7 [0, 1, 2]).flatten) (by
      intro c i j _
      cases c with
      | false => exact ⟨_, rfl⟩
      | true => exact ⟨_, rfl⟩) 2
  exact Nat.le_zero.mp ((hleast.1 (hleast.2.1 (by decide))).2
    ((Connected.of_rel ⟨false, rfl⟩).symm.trans (Connected.of_rel ⟨true, rfl⟩).symm))

end UnionFind

end ToggleTree
