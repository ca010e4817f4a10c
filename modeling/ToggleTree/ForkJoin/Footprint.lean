import ToggleTree.ForkJoin.Logic

/-!
# The steps that a program may take next

A kind is a property of atomic steps. A program is confined to a kind under an invariant if all
its steps are of that kind, as long as every step before was taken in a state of the invariant.
The invariant need not be one that the program keeps on its own: where the kind itself keeps it,
all runs do, and otherwise it is known of the run from elsewhere.

A guarded program may also run programs of a given class, such as the calls of a function that it
has been passed. It is confined if they are, and keeps any protocol that its own steps and they keep.

Nothing here refers to a particular program.
-/

namespace ForkJoin

open Prog

variable {σ ι α β γ : Type}

/-- A property of atomic steps. -/
abbrev Kind (σ : Type) : Type 1 := ∀ β : Type, (σ → β × σ) → Prop

/-- The steps of a kind that keep an invariant. -/
def Kind.keeping (A : Kind σ) (I : σ → Prop) : Kind σ := fun β act => A β act ∧ ∀ s, I s → I (act s).2

/-- Every atomic step that the program may take next is of the given kind. -/
def Pending (A : Kind σ) : {α : Type} → Prog σ ι α → Prop
  | _, ret _ => True
  | _, atom act _ => A _ act
  | _, pick _ _ => True
  | _, call _ _ => True
  | _, fork l r _ => Pending A l ∧ Pending A r

/-- More steps may be pending. -/
theorem Pending.mono {A A' : Kind σ} (hA : ∀ β act, A β act → A' β act) {p : Prog σ ι α}
    (h : Pending A p) : Pending A' p := by
  induction p with
  | ret _ => trivial
  | atom act _ _ => exact hA _ act h
  | pick _ _ _ => trivial
  | call _ _ _ => trivial
  | fork l r _ ihl ihr _ => exact ⟨ihl h.1, ihr h.2⟩

/-- The program calls no procedure, its steps are of kind `A` as long as they are taken in states of
`I`, and its result satisfies `Q`. -/
def Confined (I : σ → Prop) (A : Kind σ) : {α : Type} → Prog σ ι α → (α → Prop) → Prop
  | _, ret a, Q => Q a
  | _, atom act next, Q => A _ act ∧ ∀ s, I s → Confined I A (next (act s).1) Q
  | _, pick _ next, Q => ∀ b, Confined I A (next b) Q
  | _, call _ _, _ => False
  | _, fork l r next, Q => ∃ Q₁ Q₂, Confined I A l Q₁ ∧ Confined I A r Q₂ ∧
      ∀ b c, Q₁ b → Q₂ c → Confined I A (next b c) Q

namespace Confined

variable {I : σ → Prop} {A : Kind σ}

/-- One program after the other. -/
theorem bind {p : Prog σ ι α} {f : α → Prog σ ι β} {Q : α → Prop} {R : β → Prop}
    (hp : Confined I A p Q) (hf : ∀ a, Q a → Confined I A (f a) R) : Confined I A (p >>= f) R := by
  induction p with
  | ret a => exact hf a hp
  | atom act _ ih => exact ⟨hp.1, fun s hs => ih _ (hp.2 s hs) hf⟩
  | pick _ _ ih => exact fun b => ih b (hp b) hf
  | call _ _ _ => exact hp.elim
  | fork l r _ _ _ ih =>
    obtain ⟨Q₁, Q₂, hl, hr, hnext⟩ := hp
    exact ⟨Q₁, Q₂, hl, hr, fun b c hb hc => ih b c (hnext b c hb hc) hf⟩

/-- The steps that come next are of the kind. -/
theorem pending {p : Prog σ ι α} {Q : α → Prop} (h : Confined I A p Q) : Pending A p := by
  induction p with
  | ret _ => trivial
  | atom _ _ _ => exact h.1
  | pick _ _ _ => trivial
  | call _ _ _ => trivial
  | fork l r _ ihl ihr _ =>
    obtain ⟨Q₁, Q₂, hl, hr, _⟩ := h
    exact ⟨ihl hl, ihr hr⟩

variable {env : ι → Prog σ ι Unit}

/-- After a step from a state of the invariant, the rest of the program is confined. -/
theorem step {p q : Prog σ ι α} {Q : α → Prop} {s t : σ} (h : Confined I A p Q) (hs : I s)
    (hstep : Step env p s q t) : Confined I A q Q := by
  induction p with
  | ret _ => exact hstep.elim
  | atom act next _ =>
    obtain ⟨rfl, rfl⟩ := hstep
    exact h.2 s hs
  | pick d next _ =>
    obtain ⟨b, rfl, _⟩ := hstep
    exact h b
  | call _ _ _ => exact h.elim
  | fork l r next ihl ihr _ =>
    obtain ⟨Q₁, Q₂, hl, hr, hnext⟩ := h
    rcases hstep with ⟨l', hl', rfl⟩ | ⟨r', hr', rfl⟩ | ⟨b, c, rfl, rfl, rfl, _⟩
    · exact ⟨Q₁, Q₂, ihl hl hl', hr, hnext⟩
    · exact ⟨Q₁, Q₂, hl, ihr hr hr', hnext⟩
    · exact hnext b c hl hr

/-- A step of a kind that keeps the invariant keeps it. -/
theorem step_keeps {p q : Prog σ ι α} {Q : α → Prop} {s t : σ} (h : Confined I (A.keeping I) p Q) (hs : I s)
    (hstep : Step env p s q t) : I t := by
  induction p with
  | ret _ => exact hstep.elim
  | atom act next _ =>
    obtain ⟨rfl, rfl⟩ := hstep
    exact h.1.2 s hs
  | pick d next _ =>
    obtain ⟨_, _, rfl⟩ := hstep
    exact hs
  | call _ _ _ => exact h.elim
  | fork l r next ihl ihr _ =>
    obtain ⟨Q₁, Q₂, hl, hr, _⟩ := h
    rcases hstep with ⟨l', hl', _⟩ | ⟨r', hr', _⟩ | ⟨_, _, _, _, _, rfl⟩
    · exact ihl hl hl'
    · exact ihr hr hr'
    · exact hs

/-- A run that stays in the invariant takes only steps of the kind. -/
theorem run {p q : Prog σ ι α} {Q : α → Prop} {s t : σ} (h : Confined I A p Q)
    (hI : ∀ q t, Steps env p s q t → I t) (run : Steps env p s q t) : Confined I A q Q := by
  induction run with
  | refl => exact h
  | tail run hstep ih => exact (ih hI).step (hI _ _ run) hstep

/-- Where every step keeps the invariant, all runs stay in it. -/
theorem run_keeps {p q : Prog σ ι α} {Q : α → Prop} {s t : σ} (h : Confined I (A.keeping I) p Q) (hs : I s)
    (run : Steps env p s q t) : I t ∧ Confined I (A.keeping I) q Q := by
  induction run with
  | refl => exact ⟨hs, h⟩
  | tail _ hstep ih =>
    obtain ⟨hI, hq⟩ := ih hs
    exact ⟨hq.step_keeps hI hstep, hq.step hI hstep⟩

end Confined

/-- A class of programs. -/
abbrev ProgClass (σ ι : Type) : Type 1 := ∀ α : Type, Prog σ ι α → Prop

/-- The class without programs. -/
def ProgClass.none : ProgClass σ ι := fun _ _ => False

/-- The steps of the program are of kind `A` as long as they are taken in states of `I`, except where it
runs a program of the class `C`, and its result satisfies `Q`. -/
inductive Guarded (I : σ → Prop) (A : Kind σ) (C : ProgClass σ ι) : {α : Type} → Prog σ ι α → (α → Prop) → Prop
  | ret {α : Type} {a : α} {Q : α → Prop} (h : Q a) : Guarded I A C (ret a) Q
  | atom {α β : Type} {act : σ → β × σ} {next : β → Prog σ ι α} {Q : α → Prop} (hact : A β act)
      (rest : ∀ s, I s → Guarded I A C (next (act s).1) Q) : Guarded I A C (atom act next) Q
  | pick {α β : Type} {dflt : β} {next : β → Prog σ ι α} {Q : α → Prop} (rest : ∀ b, Guarded I A C (next b) Q) :
      Guarded I A C (pick dflt next) Q
  | sub {α β : Type} {p : Prog σ ι β} {next : β → Prog σ ι α} {Q : α → Prop} (hp : C β p)
      (rest : ∀ b, Guarded I A C (next b) Q) : Guarded I A C (p >>= next) Q
  | fork {α β γ : Type} {l : Prog σ ι β} {r : Prog σ ι γ} {next : β → γ → Prog σ ι α} {Q : α → Prop}
      {Q₁ : β → Prop} {Q₂ : γ → Prop} (hl : Guarded I A C l Q₁) (hr : Guarded I A C r Q₂)
      (rest : ∀ b c, Q₁ b → Q₂ c → Guarded I A C (next b c) Q) : Guarded I A C (fork l r next) Q

namespace Guarded

variable {I : σ → Prop} {A A' : Kind σ} {C : ProgClass σ ι}

/-- One program after the other. -/
theorem bind {p : Prog σ ι α} {f : α → Prog σ ι β} {Q : α → Prop} {R : β → Prop}
    (hp : Guarded I A C p Q) (hf : ∀ a, Q a → Guarded I A C (f a) R) : Guarded I A C (p >>= f) R := by
  induction hp with
  | ret h => exact hf _ h
  | atom hact _ ih => exact atom hact fun s hs => ih s hs hf
  | pick _ ih => exact pick fun b => ih b hf
  | sub hp _ ih =>
    rw [bind_assoc]
    exact sub hp fun b => ih b hf
  | fork hl hr _ _ _ ih => exact fork hl hr fun b c hb hc => ih b c hb hc hf

/-- A step of an admitted kind. -/
theorem act {act : σ → β × σ} {Q : β → Prop} (hact : A β act) (hQ : ∀ s, I s → Q (act s).1) :
    Guarded I A C (Prog.act act : Prog σ ι β) Q := atom hact fun s hs => ret (hQ s hs)

/-- Two branches whose results do not matter. -/
theorem fork_done {l : Prog σ ι β} {r : Prog σ ι γ} {next : β → γ → Prog σ ι α} {Q : α → Prop}
    (hl : Guarded I A C l fun _ => True) (hr : Guarded I A C r fun _ => True)
    (rest : ∀ b c, Guarded I A C (next b c) Q) : Guarded I A C (Prog.fork l r next) Q :=
  fork hl hr fun b c _ _ => rest b c

/-- A branch. -/
theorem ite {c : Prop} [Decidable c] {p q : Prog σ ι α} {Q : α → Prop} (hp : c → Guarded I A C p Q)
    (hq : ¬c → Guarded I A C q Q) : Guarded I A C (if c then p else q) Q := by
  split
  · next h => exact hp h
  · next h => exact hq h

/-- A parallel loop whose iterations are guarded. -/
theorem parallelFor {start stop : ℕ} {f : ℕ → Prog σ ι Unit}
    (hf : ∀ i, start ≤ i → i < stop → Guarded I A C (f i) fun _ => True) :
    Guarded I A C (Prog.parallelFor start stop f) fun _ => True := by
  induction hn : stop - start using Nat.strong_induction_on generalizing start stop with
  | _ n ih =>
    unfold Prog.parallelFor
    split
    · split
      · exact hf start le_rfl (by omega)
      · exact ret trivial
    · refine fork_done ?_ ?_ fun _ _ => ret trivial
      · exact ih _ (by omega) (fun i hi hlt => hf i hi (by omega)) rfl
      · exact ih _ (by omega) (fun i hi hlt => hf i (by omega) hlt) rfl

/-- A parallel loop that collects results, whose iterations are guarded. -/
theorem parallelCollect {start stop : ℕ} {f : ℕ → Prog σ ι β}
    (hf : ∀ i, start ≤ i → i < stop → Guarded I A C (f i) fun _ => True) :
    Guarded I A C (Prog.parallelCollect start stop f) fun _ => True := by
  induction hn : stop - start using Nat.strong_induction_on generalizing start stop with
  | _ n ih =>
    unfold Prog.parallelCollect
    split
    · split
      · exact (hf start le_rfl (by omega)).bind fun _ _ => ret trivial
      · exact ret trivial
    · refine fork_done ?_ ?_ fun _ _ => ret trivial
      · exact ih _ (by omega) (fun i hi hlt => hf i hi (by omega)) rfl
      · exact ih _ (by omega) (fun i hi hlt => hf i (by omega) hlt) rfl

/-- A sequential loop that keeps a property of its accumulator. -/
theorem foldFor {start stop : ℕ} {init : β} {f : ℕ → β → Prog σ ι β} {J : β → Prop} (h0 : J init)
    (hf : ∀ i b, start ≤ i → i < stop → J b → Guarded I A C (f i b) J) :
    Guarded I A C (Prog.foldFor start stop init f) J := by
  induction hn : stop - start generalizing start init with
  | zero =>
    unfold Prog.foldFor
    rw [if_neg (by omega)]
    exact ret h0
  | succ n ih =>
    unfold Prog.foldFor
    rw [if_pos (by omega)]
    exact (hf start init le_rfl (by omega) h0).bind fun b hb =>
      ih hb (fun i c hi => hf i c (by omega)) (by omega)

/-- A guarded program is confined if the programs it runs are. -/
theorem confined (hA : ∀ β act, A β act → A' β act)
    (hC : ∀ α (p : Prog σ ι α), C α p → Confined I A' p fun _ => True) {p : Prog σ ι α} {Q : α → Prop}
    (h : Guarded I A C p Q) : Confined I A' p Q := by
  induction h with
  | ret h => exact h
  | atom hact _ ih => exact ⟨hA _ _ hact, ih⟩
  | pick _ ih => exact ih
  | sub hp _ ih => exact (hC _ _ hp).bind fun b _ => ih b
  | fork _ _ _ ihl ihr ih => exact ⟨_, _, ihl, ihr, ih⟩

/-- A program that calls nothing is confined. -/
theorem confined_none {p : Prog σ ι α} {Q : α → Prop} (h : Guarded I A ProgClass.none p Q) : Confined I A p Q :=
  h.confined (fun _ _ => id) fun _ _ hp => hp.elim

/-- A guarded program keeps a protocol that its own steps and the programs it runs keep. -/
theorem ensures {M : Type} [AddCommMonoid M] {P : Protocol σ M} {env : ι → Prog σ ι Unit}
    (hI : ∀ s a, P.inv s a → I s)
    (hA : ∀ β act, A β act → ∀ s a, P.inv s a → P.rel s (act s).2 ∧ P.inv (act s).2 a)
    (hC : ∀ α (p : Prog σ ι α), C α p → ∀ s, Ensures P env (fun _ _ a => a = 0) p s 0) {p : Prog σ ι α}
    {Q : α → Prop} (h : Guarded I A C p Q) (s : σ) : Ensures P env (fun v _ a => Q v ∧ a = 0) p s 0 := by
  induction h generalizing s with
  | ret h => exact Ensures.ret fun _ _ _ hinv => ⟨0, hinv, h, rfl⟩
  | atom hact _ ih =>
    refine Ensures.atom fun s' o _ hinv => ?_
    obtain ⟨hrel, hnext⟩ := hA _ _ hact s' _ hinv
    exact ⟨0, hrel, hnext, ih s' (hI s' _ hinv) _⟩
  | pick _ ih => exact Ensures.pick fun b => ih b s
  | sub hp _ ih =>
    refine (hC _ _ hp s).bind ?_
    rintro b s' _ rfl
    exact ih b s'
  | fork _ _ _ ihl ihr ih =>
    rw [← add_zero (0 : M)]
    refine Ensures.fork (ihl s) (ihr s) ?_
    rintro b c s' _ _ ⟨hb, rfl⟩ ⟨hc, rfl⟩
    rw [add_zero]
    exact ih b c hb hc s'

end Guarded

end ForkJoin
