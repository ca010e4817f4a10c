import Mathlib.Algebra.BigOperators.Intervals
import ToggleTree.ForkJoin.Program

/-!
# A logic for fork–join programs

A protocol fixes what the branches of a fork may rely on: an invariant of the shared
state and of the sum of all ghost resources the branches hold, and a preorder that every
step of every branch respects. A branch is verified alone, against every state that the
protocol allows the other branches to produce; a fork splits the resources of its parent
and a join adds what the branches return.

The judgement is inductive, so it also says that the branch stops after finitely many
steps of its own, whatever the other branches do.
-/

namespace ForkJoin

open Prog

/-- What concurrent branches promise each other about the state and their resources. -/
structure Protocol (σ M : Type) [AddCommMonoid M] where
  inv : σ → M → Prop
  rel : σ → σ → Prop
  refl : ∀ s, rel s s
  trans : ∀ {s s' s''}, rel s s' → rel s' s'' → rel s s''

variable {σ ι M α β γ : Type} [AddCommMonoid M]

/-- From state `s` and holding `a`, the branch `p` keeps the protocol and ends in `Q`.

The function `own` names the resource that the branch holds after each of its steps. -/
inductive Ensures (P : Protocol σ M) (env : ι → Prog σ ι Unit) (Q : α → σ → M → Prop) :
    Prog σ ι α → σ → M → Prop
  | intro {p : Prog σ ι α} {s : σ} {a : M}
      (post : ∀ v, p = ret v → ∀ s' o, P.rel s s' → P.inv s' (a + o) →
        ∃ a', P.inv s' (a' + o) ∧ Q v s' a')
      (own : σ → M → Prog σ ι α → σ → M)
      (safe : ∀ s' o p' s'', P.rel s s' → P.inv s' (a + o) → Step env p s' p' s'' →
        P.rel s' s'' ∧ P.inv s'' (own s' o p' s'' + o))
      (step : ∀ s' o p' s'', P.rel s s' → P.inv s' (a + o) → Step env p s' p' s'' →
        Ensures P env Q p' s'' (own s' o p' s'')) :
      Ensures P env Q p s a

namespace Ensures

variable {P : Protocol σ M} {env : ι → Prog σ ι Unit} {Q Q' : α → σ → M → Prop}

/-- Introduction with an existential resource for each step. -/
theorem mk {p : Prog σ ι α} {s : σ} {a : M}
    (post : ∀ v, p = ret v → ∀ s' o, P.rel s s' → P.inv s' (a + o) →
      ∃ a', P.inv s' (a' + o) ∧ Q v s' a')
    (step : ∀ s' o p' s'', P.rel s s' → P.inv s' (a + o) → Step env p s' p' s'' →
      ∃ a', P.rel s' s'' ∧ P.inv s'' (a' + o) ∧ Ensures P env Q p' s'' a') :
    Ensures P env Q p s a := by
  classical
  have choice : ∀ s' o p' s'', ∃ a', P.rel s s' → P.inv s' (a + o) → Step env p s' p' s'' →
      P.rel s' s'' ∧ P.inv s'' (a' + o) ∧ Ensures P env Q p' s'' a' := by
    intro s' o p' s''
    by_cases h : P.rel s s' ∧ P.inv s' (a + o) ∧ Step env p s' p' s''
    · obtain ⟨a', ha'⟩ := step s' o p' s'' h.1 h.2.1 h.2.2
      exact ⟨a', fun _ _ _ => ha'⟩
    · exact ⟨a, fun h₁ h₂ h₃ => (h ⟨h₁, h₂, h₃⟩).elim⟩
  choose own hown using choice
  exact intro post own (fun s' o p' s'' h₁ h₂ h₃ => ⟨(hown s' o p' s'' h₁ h₂ h₃).1,
    (hown s' o p' s'' h₁ h₂ h₃).2.1⟩) (fun s' o p' s'' h₁ h₂ h₃ => (hown s' o p' s'' h₁ h₂ h₃).2.2)

/-- A returned branch can hand over its postcondition in every state of its environment. -/
theorem post {v : α} {s s' : σ} {a o : M} (h : Ensures P env Q (Prog.ret v) s a)
    (hrel : P.rel s s') (hinv : P.inv s' (a + o)) : ∃ a', P.inv s' (a' + o) ∧ Q v s' a' := by
  cases h with
  | intro post _ _ _ => exact post v rfl s' o hrel hinv

/-- One step of the branch keeps the protocol and leaves the branch verified. -/
theorem step {p p' : Prog σ ι α} {s s' s'' : σ} {a o : M} (h : Ensures P env Q p s a)
    (hrel : P.rel s s') (hinv : P.inv s' (a + o)) (hstep : Step env p s' p' s'') :
    ∃ a', P.rel s' s'' ∧ P.inv s'' (a' + o) ∧ Ensures P env Q p' s'' a' := by
  cases h with
  | intro _ own safe step =>
    exact ⟨own s' o p' s'', (safe s' o p' s'' hrel hinv hstep).1,
      (safe s' o p' s'' hrel hinv hstep).2, step s' o p' s'' hrel hinv hstep⟩

/-- A verified branch stays verified when its environment moves. -/
theorem rely {p : Prog σ ι α} {s t : σ} {a : M} (h : Ensures P env Q p s a) (hst : P.rel s t) :
    Ensures P env Q p t a := by
  cases h with
  | intro post own safe step =>
    exact intro (fun v hv s' o hrel => post v hv s' o (P.trans hst hrel)) own
      (fun s' o p' s'' hrel => safe s' o p' s'' (P.trans hst hrel))
      (fun s' o p' s'' hrel => step s' o p' s'' (P.trans hst hrel))

/-- Weaken the postcondition. -/
theorem mono {p : Prog σ ι α} {s : σ} {a : M} (h : Ensures P env Q p s a)
    (hq : ∀ v s' a', Q v s' a' → Q' v s' a') : Ensures P env Q' p s a := by
  induction h with
  | intro post own safe _ ih =>
    refine intro ?_ own safe ih
    intro v hv s' o hrel hinv
    obtain ⟨a', ha', hQ⟩ := post v hv s' o hrel hinv
    exact ⟨a', ha', hq v s' a' hQ⟩

/-- Exchange the resource held for another one that fits the same environments. -/
theorem update {p : Prog σ ι α} {s : σ} {a : M}
    (h : ∀ s' o, P.rel s s' → P.inv s' (a + o) → ∃ a', P.inv s' (a' + o) ∧ Ensures P env Q p s' a') :
    Ensures P env Q p s a := by
  refine mk ?_ ?_
  · rintro v rfl s' o hrel hinv
    obtain ⟨a', ha', hp⟩ := h s' o hrel hinv
    exact hp.post (P.refl s') ha'
  · intro s' o p' s'' hrel hinv hstep
    obtain ⟨a', ha', hp⟩ := h s' o hrel hinv
    exact hp.step (P.refl s') ha' hstep

/-- A branch may use what the invariant says about the state it starts from. -/
theorem use_inv {p : Prog σ ι α} {s : σ} {a : M}
    (h : ∀ s' o, P.rel s s' → P.inv s' (a + o) → Ensures P env Q p s' a) :
    Ensures P env Q p s a :=
  update fun s' o hrel hinv => ⟨a, hinv, h s' o hrel hinv⟩

/-- A program that has returned: the postcondition holds with some claim, however the others go on. -/
theorem ret {v : α} {s : σ} {a : M}
    (h : ∀ s' o, P.rel s s' → P.inv s' (a + o) → ∃ a', P.inv s' (a' + o) ∧ Q v s' a') :
    Ensures P env Q (ret v) s a :=
  mk (fun _ hv s' o hrel hinv => by cases hv; exact h s' o hrel hinv)
    (fun _ _ _ _ _ _ hstep => hstep.elim)

/-- An atomic step keeps the invariant and the relation, and the rest goes on with a new claim. -/
theorem atom {δ : Type} {act : σ → δ × σ} {next : δ → Prog σ ι α} {s : σ} {a : M}
    (h : ∀ s' o, P.rel s s' → P.inv s' (a + o) → ∃ a', P.rel s' (act s').2 ∧
      P.inv (act s').2 (a' + o) ∧ Ensures P env Q (next (act s').1) (act s').2 a') :
    Ensures P env Q (atom act next) s a :=
  mk (fun _ hv => by cases hv) (fun s' o _ _ hrel hinv hstep => by
    obtain ⟨rfl, rfl⟩ := hstep
    exact h s' o hrel hinv)

/-- A choice: every outcome has to go on. -/
theorem pick {δ : Type} {d : δ} {next : δ → Prog σ ι α} {s : σ} {a : M}
    (h : ∀ b, Ensures P env Q (next b) s a) : Ensures P env Q (pick d next) s a :=
  mk (fun _ hv => by cases hv) (fun s' _ _ _ hrel hinv hstep => by
    obtain ⟨b, rfl, rfl⟩ := hstep
    exact ⟨a, P.refl _, hinv, (h b).rely hrel⟩)

/-- A call is its body followed by what comes after it. -/
theorem call {proc : ι} {next : Prog σ ι α} {s : σ} {a : M}
    (h : Ensures P env Q (env proc >>= fun _ => next) s a) : Ensures P env Q (call proc next) s a :=
  mk (fun _ hv => by cases hv) (fun _ _ _ _ hrel hinv hstep => by
    obtain ⟨rfl, rfl⟩ := hstep
    exact ⟨a, P.refl _, hinv, h.rely hrel⟩)

/-- Sequential composition: the rest starts from the postcondition of the first part. -/
theorem bind {R : β → σ → M → Prop} {p : Prog σ ι α} {f : α → Prog σ ι β} {s : σ} {a : M}
    (hp : Ensures P env Q p s a) (hf : ∀ v s' a', Q v s' a' → Ensures P env R (f v) s' a') :
    Ensures P env R (p >>= f) s a := by
  induction hp with
  | @intro p s a post own safe step ih =>
    by_cases hret : ∃ v, p = Prog.ret v
    · obtain ⟨v, rfl⟩ := hret
      refine update fun s' o hrel hinv => ?_
      obtain ⟨a', ha', hQ⟩ := post v rfl s' o hrel hinv
      exact ⟨a', ha', hf v s' a' hQ⟩
    · refine mk ?_ ?_
      · intro w hw
        cases p with
        | ret v => exact (hret ⟨v, rfl⟩).elim
        | _ => cases hw
      · intro s' o q s'' hrel hinv hstep
        rcases step_bind hstep with ⟨v, hv, _⟩ | ⟨p', hp', rfl⟩
        · exact (hret ⟨v, hv⟩).elim
        · exact ⟨own s' o p' s'', (safe s' o p' s'' hrel hinv hp').1,
            (safe s' o p' s'' hrel hinv hp').2, ih s' o p' s'' hrel hinv hp'⟩

/-- Concurrent composition: each branch is verified with its own share of the resources. -/
theorem fork {Q₁ : β → σ → M → Prop} {Q₂ : γ → σ → M → Prop} {l : Prog σ ι β} {r : Prog σ ι γ}
    {next : β → γ → Prog σ ι α} {s : σ} {a b : M}
    (hl : Ensures P env Q₁ l s a) (hr : Ensures P env Q₂ r s b)
    (hjoin : ∀ v w s' a' b', Q₁ v s' a' → Q₂ w s' b' → Ensures P env Q (next v w) s' (a' + b')) :
    Ensures P env Q (fork l r next) s (a + b) := by
  -- The outer induction follows the left branch and is kept, for every later state, while
  -- the inner one follows the right branch.
  suffices key : ∀ {l : Prog σ ι β} {t : σ} {a : M}, Ensures P env Q₁ l t a →
      ∀ s, P.rel t s → ∀ {r : Prog σ ι γ} {b : M}, Ensures P env Q₂ r s b →
      Ensures P env Q (.fork l r next) s (a + b) from key hl s (P.refl s) hr
  intro l t a hl
  induction hl with
  | @intro l t a postl own safe stepl ihl =>
    intro s hts r b hr
    induction hr with
    | @intro r s b postr own' safe' stepr ihr =>
      refine mk (fun _ hv => by cases hv) ?_
      intro s' o p' s'' hrel hinv hstep
      have hts' : P.rel t s' := P.trans hts hrel
      have hinvl : P.inv s' (a + (b + o)) := by rwa [← add_assoc]
      have hinvr : P.inv s' (b + (a + o)) := by
        rw [← add_assoc, add_comm b a]
        exact hinv
      rcases hstep with ⟨l', hl', rfl⟩ | ⟨r', hr', rfl⟩ | ⟨v, w, rfl, rfl, rfl, rfl⟩
      · obtain ⟨hgo, hinv'⟩ := safe s' (b + o) l' s'' hts' hinvl hl'
        refine ⟨own s' (b + o) l' s'' + b, hgo, by rwa [add_assoc], ?_⟩
        exact ihl s' (b + o) l' s'' hts' hinvl hl' s'' (P.refl _)
          (rely (intro postr own' safe' stepr) (P.trans hrel hgo))
      · obtain ⟨hgo, hinv'⟩ := safe' s' (a + o) r' s'' hrel hinvr hr'
        refine ⟨a + own' s' (a + o) r' s'', hgo, ?_, ?_⟩
        · rw [add_comm a, add_assoc]
          exact hinv'
        · exact ihr s' (a + o) r' s'' hrel hinvr hr' (P.trans hts' hgo)
      · obtain ⟨a', ha', hq₁⟩ := postl v rfl s'' (b + o) hts' hinvl
        have hb : P.inv s'' (b + (a' + o)) := by
          rw [← add_assoc, add_comm b a', add_assoc]
          exact ha'
        obtain ⟨b', hb', hq₂⟩ := postr w rfl s'' (a' + o) hrel hb
        refine ⟨a' + b', P.refl _, ?_, hjoin v w s'' a' b' hq₁ hq₂⟩
        rw [add_comm a' b', add_assoc]
        exact hb'

/-- What a branch holds besides its resource stays as it is. -/
theorem frame {p : Prog σ ι α} {s : σ} {a : M} (h : Ensures P env Q p s a) (k : M) :
    Ensures P env (fun v s' b => ∃ b', Q v s' b' ∧ b = b' + k) p s (a + k) := by
  induction h with
  | @intro p s a post own safe step ih =>
    refine mk ?_ ?_
    · intro v hv s' o hrel hinv
      rw [add_assoc] at hinv
      obtain ⟨a', ha', hq⟩ := post v hv s' (k + o) hrel hinv
      exact ⟨a' + k, by rwa [add_assoc], a', hq, rfl⟩
    · intro s' o p' s'' hrel hinv hstep
      rw [add_assoc] at hinv
      obtain ⟨hgo, hinv'⟩ := safe s' (k + o) p' s'' hrel hinv hstep
      exact ⟨own s' (k + o) p' s'' + k, hgo, by rwa [add_assoc], ih s' (k + o) p' s'' hrel hinv hstep⟩

/-- An atomic step in a sequence. -/
theorem act {δ : Type} {f : σ → δ × σ} {next : δ → Prog σ ι α} {s : σ} {a : M}
    (h : ∀ s' o, P.rel s s' → P.inv s' (a + o) → ∃ a', P.rel s' (f s').2 ∧
      P.inv (f s').2 (a' + o) ∧ Ensures P env Q (next (f s').1) (f s').2 a') :
    Ensures P env Q (Prog.act f >>= next) s a :=
  atom h

/-- A read in a sequence. -/
theorem read {δ : Type} {f : σ → δ} {next : δ → Prog σ ι α} {s : σ} {a : M}
    (h : ∀ s' o, P.rel s s' → P.inv s' (a + o) → Ensures P env Q (next (f s')) s' a) :
    Ensures P env Q (Prog.read f >>= next) s a :=
  atom fun s' o hrel hinv => ⟨a, P.refl _, hinv, h s' o hrel hinv⟩

/-- A write in a sequence. -/
theorem modify {f : σ → σ} {next : Unit → Prog σ ι α} {s : σ} {a : M}
    (h : ∀ s' o, P.rel s s' → P.inv s' (a + o) → ∃ a', P.rel s' (f s') ∧
      P.inv (f s') (a' + o) ∧ Ensures P env Q (next ()) (f s') a') :
    Ensures P env Q (Prog.modify f >>= next) s a :=
  atom h

/-- A call of a procedure is its body. -/
theorem invoke {Q : Unit → σ → M → Prop} {proc : ι} {s : σ} {a : M}
    (h : Ensures P env Q (env proc) s a) : Ensures P env Q (Prog.invoke proc) s a := by
  refine call ?_
  have : (env proc >>= fun _ => Prog.ret ()) = env proc := bind_ret (env proc)
  rwa [this]

/-- The two branches of `both`, whose postconditions outlive what their environment does. -/
theorem both {Q₁ Q₂ : σ → M → Prop} {Q : Unit → σ → M → Prop} {l r : Prog σ ι Unit} {s : σ}
    {a b : M} (hl : Ensures P env (fun _ => Q₁) l s a) (hr : Ensures P env (fun _ => Q₂) r s b)
    (hjoin : ∀ s' s'' a' b', Q₁ s' a' → Q₂ s' b' → P.rel s' s'' → Q () s'' (a' + b')) :
    Ensures P env Q (Prog.both l r) s (a + b) :=
  fork hl hr fun _ _ s' a' b' h₁ h₂ => ret fun s'' _ hrel hinv =>
    ⟨a' + b', hinv, hjoin s' s'' a' b' h₁ h₂ hrel⟩

/-- A postcondition that later steps of the environment cannot undo. -/
def Stable (P : Protocol σ M) (Q : σ → M → Prop) : Prop :=
  ∀ s s' a, P.rel s s' → Q s a → Q s' a

/-- A fact about the state that no step undoes still holds at the end. -/
theorem withStable {K : σ → Prop} {p : Prog σ ι α} {s : σ} {a : M} (h : Ensures P env Q p s a)
    (hstable : ∀ s s', P.rel s s' → K s → K s') (hK : K s) :
    Ensures P env (fun v s' a' => Q v s' a' ∧ K s') p s a := by
  induction h with
  | @intro p s a post own safe _ ih =>
    refine intro ?_ own safe ?_
    · intro v hv s' o hrel hinv
      obtain ⟨a', ha', hq⟩ := post v hv s' o hrel hinv
      exact ⟨a', ha', hq, hstable s s' hrel hK⟩
    · intro s' o p' s'' hrel hinv hstep
      exact ih s' o p' s'' hrel hinv hstep
        (hstable s s'' (P.trans hrel (safe s' o p' s'' hrel hinv hstep).1) hK)

/-- A branch that starts with nothing may carry a resource and a fact that no step undoes. -/
theorem carry {K : σ → Prop} {p : Prog σ ι α} {s : σ} (h : Ensures P env Q p s 0)
    (hstable : ∀ s s', P.rel s s' → K s → K s') (hK : K s) (k : M) :
    Ensures P env (fun v s' b => ∃ a, (Q v s' a ∧ K s') ∧ b = a + k) p s k := by
  have hframe := (h.withStable hstable hK).frame k
  rwa [zero_add] at hframe

/-- A sequential loop keeps a stable invariant indexed by the next iteration. -/
theorem seqFor {I : ℕ → σ → M → Prop} {f : ℕ → Prog σ ι Unit} {start stop : ℕ} {s : σ} {a : M}
    (hle : start ≤ stop) (hstable : Stable P (I stop)) (h0 : I start s a)
    (hf : ∀ i s a, start ≤ i → i < stop → I i s a → Ensures P env (fun _ => I (i + 1)) (f i) s a) :
    Ensures P env (fun _ => I stop) (Prog.seqFor start stop f) s a := by
  induction hn : stop - start generalizing start s a with
  | zero =>
    have : start = stop := by omega
    subst this
    unfold Prog.seqFor
    rw [if_neg (lt_irrefl _)]
    exact ret fun s' _ hrel hinv => ⟨a, hinv, hstable _ _ _ hrel h0⟩
  | succ n ih =>
    have hlt : start < stop := by omega
    unfold Prog.seqFor
    rw [if_pos hlt]
    exact (hf start s a le_rfl hlt h0).bind fun _ s' a' h1 =>
      ih hlt h1 (fun i s a hi => hf i s a (by omega)) (by omega)

/-- A sequential loop with an accumulator keeps a stable invariant of both. -/
theorem foldFor {I : ℕ → β → σ → M → Prop} {f : ℕ → β → Prog σ ι β} {start stop : ℕ} {init : β}
    {s : σ} {a : M} (hle : start ≤ stop) (hstable : ∀ b, Stable P (I stop b)) (h0 : I start init s a)
    (hf : ∀ i b s a, start ≤ i → i < stop → I i b s a → Ensures P env (I (i + 1)) (f i b) s a) :
    Ensures P env (I stop) (Prog.foldFor start stop init f) s a := by
  induction hn : stop - start generalizing start init s a with
  | zero =>
    have : start = stop := by omega
    subst this
    unfold Prog.foldFor
    rw [if_neg (lt_irrefl _)]
    exact ret fun s' _ hrel hinv => ⟨a, hinv, hstable _ _ _ _ hrel h0⟩
  | succ n ih =>
    have hlt : start < stop := by omega
    unfold Prog.foldFor
    rw [if_pos hlt]
    exact (hf start init s a le_rfl hlt h0).bind fun b s' a' h1 =>
      ih hlt h1 (fun i b s a hi => hf i b s a (by omega)) (by omega)

/-- What a sequential search finds if the answers of its test do not depend on the schedule. -/
structure FirstIndex (p : ℕ → Prop) (start stop : ℕ) (found : Option ℕ) : Prop where
  some_iff : ∀ i, found = some i ↔ start ≤ i ∧ i < stop ∧ p i ∧ ∀ j, start ≤ j → j < i → ¬p j
  none_iff : found = none ↔ ∀ j, start ≤ j → j < stop → ¬p j

/-- A sequential search returns the first index whose test answers yes. -/
theorem findFor {p : ℕ → Prop} {test : ℕ → Prog σ ι Bool} {start stop : ℕ} {s : σ} (hle : start ≤ stop)
    (htest : ∀ i s', start ≤ i → i < stop → P.rel s s' →
      Ensures P env (fun b _ a => (b = true ↔ p i) ∧ a = 0) (test i) s' 0) :
    Ensures P env (fun found _ a => FirstIndex p start stop found ∧ a = 0)
      (Prog.findFor start stop test) s 0 := by
  induction hn : stop - start generalizing start s with
  | zero =>
    have : start = stop := by omega
    subst this
    unfold Prog.findFor
    rw [if_neg (lt_irrefl _)]
    refine ret fun _ _ _ hinv => ⟨0, hinv, ⟨fun i => ?_, ?_⟩, rfl⟩
    · exact iff_of_false (by simp) (by rintro ⟨h₁, h₂, _⟩; omega)
    · exact iff_of_true rfl fun j h₁ h₂ => by omega
  | succ n ih =>
    have hlt : start < stop := by omega
    unfold Prog.findFor
    rw [if_pos hlt]
    refine ((htest start s le_rfl hlt (P.refl s)).withStable (K := fun s' => P.rel s s')
      (fun s₁ s₂ hrel h => P.trans h hrel) (P.refl s)).bind ?_
    rintro b s' _ ⟨⟨hb, rfl⟩, hrel⟩
    by_cases hp : p start
    · rw [hb.mpr hp, if_pos rfl]
      refine ret fun _ _ _ hinv => ⟨0, hinv, ⟨fun i => ?_, ?_⟩, rfl⟩
      · constructor
        · intro h
          obtain rfl : start = i := Option.some.inj h
          exact ⟨le_rfl, hlt, hp, fun j h₁ h₂ => by omega⟩
        · rintro ⟨h₁, _, _, hfirst⟩
          by_contra hne
          have hi : start ≠ i := fun h => hne (congrArg some h)
          exact hfirst start le_rfl (by omega) hp
      · exact iff_of_false (by simp) fun h => h start le_rfl hlt hp
    · rw [if_neg (fun h => hp (hb.mp h))]
      refine (ih hlt (fun i s'' h₁ h₂ hrel' => htest i s'' (by omega) h₂ (P.trans hrel hrel')) (by omega)).mono ?_
      rintro found _ _ ⟨hfound, rfl⟩
      refine ⟨⟨fun i => ?_, ?_⟩, rfl⟩
      · rw [hfound.some_iff i]
        constructor
        · rintro ⟨h₁, h₂, h₃, h₄⟩
          refine ⟨by omega, h₂, h₃, fun j hj hji => ?_⟩
          rcases Nat.eq_or_lt_of_le hj with rfl | hlt'
          · exact hp
          · exact h₄ j hlt' hji
        · rintro ⟨h₁, h₂, h₃, h₄⟩
          have hne : start ≠ i := fun h => hp (h ▸ h₃)
          exact ⟨by omega, h₂, h₃, fun j hj hji => h₄ j (by omega) hji⟩
      · rw [hfound.none_iff]
        constructor
        · intro h j hj hjs
          rcases Nat.eq_or_lt_of_le hj with rfl | hlt'
          · exact hp
          · exact h j hlt' hjs
        · exact fun h j hj hjs => h j (by omega) hjs

/-- A parallel loop: every iteration is verified with its own share of the resources. -/
theorem parallelFor {Q : ℕ → σ → Prop} {f : ℕ → Prog σ ι Unit} {start stop : ℕ} {s : σ} (a : ℕ → M)
    (hstable : ∀ i, Stable P fun s _ => Q i s)
    (hf : ∀ i, start ≤ i → i < stop → Ensures P env (fun _ s b => Q i s ∧ b = 0) (f i) s (a i)) :
    Ensures P env (fun _ s b => (∀ i, start ≤ i → i < stop → Q i s) ∧ b = 0)
      (Prog.parallelFor start stop f) s (∑ i ∈ Finset.Ico start stop, a i) := by
  induction hn : stop - start using Nat.strong_induction_on generalizing start stop with
  | _ n ih =>
    unfold Prog.parallelFor
    split
    · split
      · have hstop : stop = start + 1 := by omega
        subst hstop
        rw [Nat.Ico_succ_singleton, Finset.sum_singleton]
        refine (hf start le_rfl (by omega)).mono ?_
        rintro _ s' b ⟨hq, rfl⟩
        exact ⟨fun i h₁ h₂ => by rwa [show i = start by omega], rfl⟩
      · rw [Finset.Ico_eq_empty (by omega), Finset.sum_empty]
        exact ret fun s' _ _ hinv => ⟨0, hinv, fun i h₁ h₂ => by omega, rfl⟩
    · have hmid : start ≤ start + (stop - start) / 2 := Nat.le_add_right _ _
      have hmid' : start + (stop - start) / 2 ≤ stop := by omega
      rw [← Finset.sum_Ico_consecutive a hmid hmid']
      refine both (ih _ (by omega) (fun i h₁ h₂ => hf i h₁ (by omega)) rfl)
        (ih _ (by omega) (fun i h₁ h₂ => hf i (by omega) h₂) rfl) ?_
      rintro s' s'' b c ⟨h₁, rfl⟩ ⟨h₂, rfl⟩ hrel
      refine ⟨fun i hi hi' => ?_, add_zero 0⟩
      by_cases hlt : i < start + (stop - start) / 2
      · exact hstable i s' s'' 0 hrel (h₁ i hi hlt)
      · exact hstable i s' s'' 0 hrel (h₂ i (by omega) hi')

/-- A parallel loop whose iterations hold nothing when they start. -/
theorem parallelForZero {Q : ℕ → σ → Prop} {f : ℕ → Prog σ ι Unit} {start stop : ℕ} {s : σ}
    (hstable : ∀ i, Stable P fun s _ => Q i s)
    (hf : ∀ i, start ≤ i → i < stop → Ensures P env (fun _ s b => Q i s ∧ b = 0) (f i) s 0) :
    Ensures P env (fun _ s b => (∀ i, start ≤ i → i < stop → Q i s) ∧ b = 0)
      (Prog.parallelFor start stop f) s 0 := by
  have h := parallelFor (fun _ => 0) hstable hf
  rwa [Finset.sum_const_zero] at h

/-- A parallel loop that collects results: every iteration ends in its own postcondition, and what
the iterations hold at the end is put together. -/
theorem parallelCollect_own {R : ℕ → β → σ → M → Prop} {f : ℕ → Prog σ ι β} {start stop : ℕ} {s : σ}
    (a : ℕ → M) (hstable : ∀ i v, Stable P (R i v))
    (hf : ∀ i, start ≤ i → i < stop → Ensures P env (R i) (f i) s (a i)) :
    Ensures P env (fun vs s' b => ∃ c : ℕ → M, b = ∑ i ∈ Finset.Ico start stop, c i ∧
        vs.length = stop - start ∧ ∀ i v, vs[i]? = some v → R (start + i) v s' (c (start + i)))
      (Prog.parallelCollect start stop f) s (∑ i ∈ Finset.Ico start stop, a i) := by
  induction hn : stop - start using Nat.strong_induction_on generalizing start stop with
  | _ n ih =>
    unfold Prog.parallelCollect
    split
    · split
      · obtain rfl : n = 1 := by omega
        have hstop : stop = start + 1 := by omega
        subst hstop
        rw [Nat.Ico_succ_singleton, Finset.sum_singleton]
        refine (hf start le_rfl (by omega)).bind fun v s' b hv => ?_
        refine ret fun s'' _ hrel hinv => ⟨b, hinv, fun _ => b, by rw [Finset.sum_singleton], rfl, ?_⟩
        intro i x hx
        obtain ⟨rfl, rfl⟩ : i = 0 ∧ v = x := by simpa [List.getElem?_eq_some_iff] using hx
        exact hstable _ _ _ _ _ hrel hv
      · obtain rfl : n = 0 := by omega
        rw [Finset.Ico_eq_empty (by omega), Finset.sum_empty]
        exact ret fun _ _ _ hinv => ⟨0, hinv, fun _ => 0, rfl, rfl, fun i v h => by simp at h⟩
    · have hmid : start ≤ start + (stop - start) / 2 := Nat.le_add_right _ _
      have hmid' : start + (stop - start) / 2 ≤ stop := by omega
      rw [← Finset.sum_Ico_consecutive a hmid hmid']
      refine fork (ih _ (by omega) (fun i h₁ h₂ => hf i h₁ (by omega)) rfl)
        (ih _ (by omega) (fun i h₁ h₂ => hf i (by omega) h₂) rfl) ?_
      generalize hm : start + (stop - start) / 2 = mid at hmid hmid'
      rintro vs ws s' _ _ ⟨c, rfl, hvs, hc⟩ ⟨d, rfl, hws, hd⟩
      refine ret fun s'' _ hrel hinv => ⟨_, hinv, fun i => if i < mid then c i else d i, ?_, ?_, fun i v hv => ?_⟩
      · rw [← Finset.sum_Ico_consecutive _ hmid hmid']
        refine congrArg₂ (· + ·) (Finset.sum_congr rfl fun i hi => ?_) (Finset.sum_congr rfl fun i hi => ?_)
        · rw [if_pos (Finset.mem_Ico.mp hi).2]
        · rw [if_neg (not_lt.mpr (Finset.mem_Ico.mp hi).1)]
      · rw [List.length_append, hvs, hws]
        omega
      · by_cases hi : i < vs.length
        · rw [List.getElem?_append_left hi] at hv
          dsimp only
          rw [if_pos (by omega)]
          exact hstable _ _ _ _ _ hrel (hc i v hv)
        · rw [List.getElem?_append_right (not_lt.mp hi)] at hv
          have hright := hstable _ _ _ _ _ hrel (hd _ v hv)
          rw [show mid + (i - vs.length) = start + i by omega] at hright
          dsimp only
          rwa [if_neg (by omega)]

/-- A parallel loop that collects results which do not depend on the schedule. -/
theorem parallelCollect {f : ℕ → Prog σ ι β} {start stop : ℕ} {s : σ} (a : ℕ → M) (g : ℕ → β)
    (hf : ∀ i, start ≤ i → i < stop → Ensures P env (fun v _ b => v = g i ∧ b = 0) (f i) s (a i)) :
    Ensures P env (fun vs _ b => vs = (List.range' start (stop - start)).map g ∧ b = 0)
      (Prog.parallelCollect start stop f) s (∑ i ∈ Finset.Ico start stop, a i) := by
  refine (parallelCollect_own (R := fun i v _ b => v = g i ∧ b = 0) a (fun _ _ _ _ _ _ h => h) hf).mono ?_
  rintro vs _ _ ⟨c, rfl, hlength, hc⟩
  have hget (i : ℕ) (hi : i < vs.length) := hc i vs[i] (List.getElem?_eq_getElem hi)
  refine ⟨List.ext_getElem (by simpa using hlength) fun i hi _ => ?_, Finset.sum_eq_zero fun i hi => ?_⟩
  · rw [(hget i hi).1, List.getElem_map, List.getElem_range', one_mul]
  · obtain ⟨hlow, hhigh⟩ := Finset.mem_Ico.mp hi
    have hzero := (hget (i - start) (by omega)).2
    rwa [Nat.add_sub_cancel' hlow] at hzero

/-- Concurrent branches for the entries of a list. -/
theorem parallelEach {Q : β → σ → Prop} {f : β → Prog σ ι Unit} {bs : List β} {s : σ} (a : β → M)
    (hstable : ∀ b, Stable P fun s _ => Q b s)
    (hf : ∀ b ∈ bs, Ensures P env (fun _ s c => Q b s ∧ c = 0) (f b) s (a b)) :
    Ensures P env (fun _ s c => (∀ b ∈ bs, Q b s) ∧ c = 0) (Prog.parallelEach bs f) s
      (bs.map a).sum := by
  induction bs with
  | nil => exact ret fun s' _ _ hinv => ⟨0, hinv, fun b hb => by simp at hb, rfl⟩
  | cons b bs ih =>
    rw [List.map_cons, List.sum_cons]
    refine both (hf b List.mem_cons_self) (ih fun c hc => hf c (List.mem_cons_of_mem _ hc)) ?_
    rintro s' s'' c d ⟨h₁, rfl⟩ ⟨h₂, rfl⟩ hrel
    refine ⟨fun e he => ?_, add_zero 0⟩
    rcases List.mem_cons.mp he with rfl | he
    · exact hstable _ s' s'' 0 hrel h₁
    · exact hstable _ s' s'' 0 hrel (h₂ e he)

/-- Concurrent branches for different entries, which keep what they hold at their ends. -/
theorem parallelEach_own {R : β → σ → M → Prop} {f : β → Prog σ ι Unit} {bs : List β} {s : σ} (a : β → M)
    (hnodup : bs.Nodup) (hstable : ∀ b, Stable P (R b))
    (hf : ∀ b ∈ bs, Ensures P env (fun _ => R b) (f b) s (a b)) :
    Ensures P env (fun _ s c => ∃ d : β → M, c = (bs.map d).sum ∧ ∀ b ∈ bs, R b s (d b))
      (Prog.parallelEach bs f) s (bs.map a).sum := by
  classical
  induction bs with
  | nil => exact ret fun s' _ _ hinv => ⟨0, hinv, a, rfl, fun b hb => absurd hb List.not_mem_nil⟩
  | cons b bs ih =>
    obtain ⟨hb, hnodup'⟩ := List.nodup_cons.mp hnodup
    rw [List.map_cons, List.sum_cons]
    refine both (hf b List.mem_cons_self) (ih hnodup' fun c hc => hf c (List.mem_cons_of_mem _ hc)) ?_
    rintro s' s'' c _ hc ⟨d, rfl, hd⟩ hrel
    have hother {e : β} (he : e ∈ bs) : Function.update d b c e = d e :=
      Function.update_of_ne (fun heq : e = b => hb (heq ▸ he)) _ _
    refine ⟨Function.update d b c, ?_, fun e he => ?_⟩
    · rw [List.map_cons, List.sum_cons, Function.update_self, List.map_congr_left fun e he => hother he]
    · rcases List.mem_cons.mp he with rfl | he
      · rw [Function.update_self]
        exact hstable _ s' s'' c hrel hc
      · rw [hother he]
        exact hstable _ s' s'' _ hrel (hd e he)

/-- A branch that is alone runs to completion and ends in its postcondition. -/
theorem total {p : Prog σ ι α} {s : σ} {a : M} (h : Ensures P env Q p s a) (hinv : P.inv s a) :
    Total env (fun v s' => P.rel s s' ∧ ∃ a', P.inv s' a' ∧ Q v s' a') p s := by
  suffices key : ∀ s', P.rel s s' → P.inv s' a →
      Total env (fun v t => P.rel s' t ∧ ∃ a', P.inv t a' ∧ Q v t a') p s' from
    key s (P.refl s) hinv
  clear hinv
  induction h with
  | @intro p s a post own safe step ih =>
    intro s' hrel hinv
    rw [← add_zero a] at hinv
    refine Total.intro ?_ ?_
    · rintro v rfl
      obtain ⟨a', ha', hq⟩ := post v rfl s' 0 hrel hinv
      exact ⟨P.refl s', a', by rwa [add_zero] at ha', hq⟩
    · intro p' s'' hstep
      obtain ⟨hgo, hinv'⟩ := safe s' 0 p' s'' hrel hinv hstep
      rw [add_zero] at hinv'
      exact (ih s' 0 p' s'' hrel hinv hstep s'' (P.refl _) hinv').mono
        fun v t ht => ⟨P.trans hgo ht.1, ht.2⟩

/-- The invariant holds in every state that a run of a verified program passes through. -/
theorem invariant {p p' : Prog σ ι α} {s s' : σ} {a : M} (h : Ensures P env Q p s a)
    (hinv : P.inv s a) (run : Steps env p s p' s') : ∃ a', P.inv s' a' ∧ Ensures P env Q p' s' a' := by
  induction run with
  | refl => exact ⟨a, hinv, h⟩
  | tail _ hstep ih =>
    obtain ⟨a', ha', hp⟩ := ih h hinv
    obtain ⟨a'', _, ha'', hp'⟩ := hp.step (P.refl _) (show P.inv _ (a' + 0) by rwa [add_zero]) hstep
    exact ⟨a'', by rwa [add_zero] at ha'', hp'⟩

end Ensures

end ForkJoin
