import ToggleTree.ForkJoin.Footprint
import ToggleTree.Parallel.Atomic

/-!
# What an atomic step works on

An atomic step is a function of the whole state. It accesses a location if all that it takes from
the state is the value of the location, and all that it changes is that value; it leaves a location
aside if it commutes with every write to it.
-/

namespace ToggleTree

open ForkJoin ForkJoin.Prog

variable {σ V β : Type} {c : Loc σ V}

/-- The step reads the location, or replaces its value by a function of it. -/
inductive Accesses (c : Loc σ V) : (σ → β × σ) → Prop
  | load (g : V → β) : Accesses c fun s => (g (c.get s), s)
  | update (h : V → β × V) : Accesses c fun s => ((h (c.get s)).1, c.put (h (c.get s)).2 s)

/-- The step neither depends on the location nor changes it. -/
def Aside (c : Loc σ V) (act : σ → β × σ) : Prop := ∀ v s, act (c.put v s) = ((act s).1, c.put v (act s).2)

/-- A read is an access. -/
theorem accesses_read : Accesses c fun s => (c.get s, s) := Accesses.load id

/-- A write is an access. -/
theorem accesses_write (v : V) : Accesses c fun s => ((), c.put v s) := Accesses.update fun _ => ((), v)

/-- An atomic update is an access. -/
theorem accesses_fetch (f : V → V) : Accesses c fun s => (c.get s, c.put (f (c.get s)) s) :=
  Accesses.update fun old => (old, f old)

/-- A step that leaves a location aside does not change its value. -/
theorem Aside.get_eq {act : σ → β × σ} (h : Aside c act) (hc : c.Lawful) (s : σ) :
    c.get (act s).2 = c.get s := by
  have hsame := h (c.get s) s
  rw [hc.put_get] at hsame
  calc c.get (act s).2 = c.get (c.put (c.get s) (act s).2) := congrArg (fun r => c.get r.2) hsame
    _ = c.get s := hc.get_put _ _

end ToggleTree
