import ToggleTree.ForkJoin.Program
import ToggleTree.Parallel.Word

/-!
# Memory locations and atomic operations

A location reads and writes one value inside the shared state. Every atomic operation of
the library is one step of the program that executes it. All orderings are modelled as
sequentially consistent interleavings of these steps.
-/

namespace ToggleTree

open ForkJoin ForkJoin.Prog

/-- A location of type `V` in states of type `σ`. -/
structure Loc (σ V : Type) where
  get : σ → V
  put : V → σ → σ

variable {σ ι V : Type}

/-- Reading and writing behave as for a variable of the state. -/
structure Loc.Lawful (c : Loc σ V) : Prop where
  get_put : ∀ v s, c.get (c.put v s) = v
  put_get : ∀ s, c.put (c.get s) s = s
  put_put : ∀ v w s, c.put v (c.put w s) = c.put v s

/-- The whole state as a location. -/
def Loc.self : Loc V V := ⟨id, fun v _ => v⟩

/-- The whole state is a part of itself. -/
theorem Loc.self_lawful : (Loc.self : Loc V V).Lawful := ⟨fun _ _ => rfl, fun _ => rfl, fun _ _ _ => rfl⟩

/-- The first component of a pair. -/
def Loc.fst {U : Type} : Loc (V × U) V := ⟨Prod.fst, fun v s => (v, s.2)⟩

/-- The first component is a part of the state. -/
theorem Loc.fst_lawful {U : Type} : (Loc.fst : Loc (V × U) V).Lawful :=
  ⟨fun _ _ => rfl, fun _ => rfl, fun _ _ _ => rfl⟩

/-- An atomic load. -/
def atomicRead (c : Loc σ V) : Prog σ ι V := read c.get

/-- An atomic store. -/
def atomicWrite (c : Loc σ V) (value : V) : Prog σ ι Unit := modify (c.put value)

/-- Replace the value by a function of it and return the old one. -/
def fetchAndUpdate (c : Loc σ V) (f : V → V) : Prog σ ι V :=
  act fun s => (c.get s, c.put (f (c.get s)) s)

/-- `fetch_or` -/
def fetchAndOr (c : Loc σ Word) (value : Word) : Prog σ ι Word := fetchAndUpdate c (· ||| value)

/-- `fetch_and` -/
def fetchAndAnd (c : Loc σ Word) (value : Word) : Prog σ ι Word := fetchAndUpdate c (· &&& value)

/-- `fetch_add` -/
def fetchAndAdd (c : Loc σ Word) (value : Word) : Prog σ ι Word := fetchAndUpdate c (· + value)

/-- `fetch_sub` -/
def fetchAndSub (c : Loc σ Word) (value : Word) : Prog σ ι Word := fetchAndUpdate c (· - value)

/-- Lower the value if the new one is smaller, and tell whether it was. The loop of compare-and-swaps
of the source takes effect in one step, when it returns: `WriteRace.writeMin_takesEffect`. -/
def writeMin [LT V] [DecidableLT V] (c : Loc σ V) (value : V) : Prog σ ι Bool :=
  act fun s => (decide (value < c.get s), if value < c.get s then c.put value s else s)

end ToggleTree
