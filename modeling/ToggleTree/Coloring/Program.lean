import ToggleTree.Coloring.Priority
import ToggleTree.ForkJoin.Reduce
import ToggleTree.Graph.VertexSet

/-!
# Parallel greedy colouring

A vertex counts the neighbours before it that have no colour. In each round the vertices that wait
for nobody take the least colour that their neighbours leave free, and are subtracted from the
counts of the neighbours that still wait. The colours below 512 are collected in a palette of eight
words, and larger ones are marked in the slots of the vertex.
-/

namespace ToggleTree

open ForkJoin ForkJoin.Prog

/-- The state of `graph_coloring`. -/
structure ColoringState where
  color : ℕ → ℕ
  frontier : Finset ℕ
  nextFrontier : Finset ℕ
  numBlockers : ℕ → ℕ
  usedColor : ℕ → Bool

/-- The iterations of the main loop. -/
inductive ColoringCall
  | loop

namespace Coloring

/-- A program of the colouring. -/
abbrev ColoringProg (α : Type) := Prog ColoringState ColoringCall α

/-- The largest 32-bit number stands for no colour. -/
def uncolored : ℕ := 2 ^ 32 - 1

/-- The colours of the neighbours as 512 bits. -/
abbrev Palette := Fin 8 → Word

/-- The colours of both palettes. -/
def colorMix (a b : Palette) : Palette := fun w => a w ||| b w

/-- The palette of one colour below 512. -/
def pigment (c : ℕ) : Palette := fun w => if w.val = c >>> 6 then flag (c &&& 63) else 0

/-- The least colour that is not in the palette. -/
def freeColor (used : Palette) : Option ℕ :=
  ((List.finRange 8).find? fun w => used w ≠ BitVec.allOnes 64).map fun w => w.val * 64 + countrZero (~~~used w)

/-- The set `frontier`. -/
def frontier : Loc ColoringState (Finset ℕ) := ⟨ColoringState.frontier, fun S s => { s with frontier := S }⟩

/-- The set `next_frontier`. -/
def nextFrontier : Loc ColoringState (Finset ℕ) :=
  ⟨ColoringState.nextFrontier, fun S s => { s with nextFrontier := S }⟩

/-- `color[v]` -/
def colorCell (v : ℕ) : Loc ColoringState ℕ :=
  ⟨fun s => s.color v, fun c s => { s with color := Function.update s.color v c }⟩

/-- `num_blockers[v]` -/
def blockersCell (v : ℕ) : Loc ColoringState ℕ :=
  ⟨fun s => s.numBlockers v, fun k s => { s with numBlockers := Function.update s.numBlockers v k }⟩

/-- A cell of the array `used`. -/
def usedCell (k : ℕ) : Loc ColoringState Bool :=
  ⟨fun s => s.usedColor k, fun b s => { s with usedColor := Function.update s.usedColor k b }⟩

variable (G : CSR)

/-- The reduction that counts the neighbours with priority. -/
def countBlockers (s : ℕ) : ColoringProg ℕ :=
  reduce (fun a b => (a + b) % 2 ^ 32) 0 1024 (G.outOffset s) (G.outOffset (s + 1)) fun i =>
    return if prior G (G.outEdge i) s then 1 else 0

/-- The iteration of the first loop for `s`. -/
def initVertex (s : ℕ) : ColoringProg Unit := do
  if G.degree s = 0 then atomicWrite (colorCell s) 0
  else do
    let count ← countBlockers G s
    atomicWrite (blockersCell s) count
    let blockers ← atomicRead (blockersCell s)
    if blockers = 0 then do
      let _ ← VertexSet.insert frontier s
      return ()
    else return ()

/-- `s` does not block `d` any more. -/
def unblock (d : ℕ) : ColoringProg Unit := do
  let previous ← fetchAndUpdate (blockersCell d) fun k => (k + (2 ^ 32 - 1)) % 2 ^ 32
  if previous = 1 then do
    let _ ← VertexSet.insert nextFrontier d
    return ()
  else return ()

/-- Look at slot `i` of the vertex `s`, and return its contribution to the palette. -/
def inspect (s i : ℕ) : ColoringProg Palette := do
  let colorD ← atomicRead (colorCell (G.outEdge i))
  if colorD = uncolored then do
    unblock (G.outEdge i)
    return fun _ => 0
  else if colorD < 512 then return pigment colorD
  else if colorD < G.degree s then do
    atomicWrite (usedCell (G.outOffset s + colorD)) true
    return fun _ => 0
  else return fun _ => 0

/-- The least colour that the palette and the marked slots leave free. -/
def chooseColor (s : ℕ) (used : Palette) : ColoringProg ℕ :=
  match freeColor used with
  | some c => return c
  | none => do
    let free ← findFor 512 (G.degree s) fun i => do
      let marked ← atomicRead (usedCell (G.outOffset s + i))
      return !marked
    return free.getD (G.degree s)

/-- The call for a vertex of the frontier. -/
def colorVertex (s : ℕ) : ColoringProg Unit := do
  let used ← reduce colorMix (fun _ => 0) 256 (G.outOffset s) (G.outOffset (s + 1)) (inspect G s)
  let c ← chooseColor G s used
  atomicWrite (colorCell s) c

/-- A round of the loop. -/
def coloringRound : ColoringProg Unit := do
  let done ← VertexSet.empty frontier
  if done then return ()
  else do
    VertexSet.consumeEach frontier (colorVertex G)
    VertexSet.swap frontier nextFrontier
    invoke .loop

/-- The calls are the loop. -/
def coloringProcedures : ColoringCall → ColoringProg Unit
  | .loop => coloringRound G

/-- `numBlockers` is not initialised. -/
def graphColoring : ColoringProg (ℕ → ℕ) := do
  modify fun s => ⟨fun _ => uncolored, ∅, ∅, s.numBlockers, fun _ => false⟩
  parallelFor 0 G.n (initVertex G)
  invoke .loop
  read ColoringState.color

section Palettes

variable {used : Palette} {c : ℕ}

/-- Whether a colour below 512 is in the palette. -/
def inPalette (used : Palette) (c : ℕ) : Prop := ∃ w : Fin 8, w.val = c / 64 ∧ (used w).getLsbD (c % 64) = true

/-- The empty palette has no colour. -/
theorem inPalette_zero : ¬inPalette (fun _ => 0) c := by
  rintro ⟨w, _, h⟩
  simp at h

/-- The colours of a mixed palette. -/
theorem inPalette_colorMix {a b : Palette} : inPalette (colorMix a b) c ↔ inPalette a c ∨ inPalette b c := by
  unfold inPalette colorMix
  rw [← exists_or]
  refine exists_congr fun w => ?_
  rw [BitVec.getLsbD_or, Bool.or_eq_true, and_or_left]

/-- The palette of one colour. -/
theorem inPalette_pigment {d : ℕ} (hd : d < 512) : inPalette (pigment d) c ↔ c = d := by
  have hword : d >>> 6 = d / 64 := Nat.shiftRight_eq_div_pow d 6
  have hbit : d &&& 63 = d % 64 := Nat.and_two_pow_sub_one_eq_mod d 6
  have hmod : d % 64 < 64 := Nat.mod_lt _ (by norm_num)
  unfold inPalette pigment
  rw [hword, hbit]
  constructor
  · rintro ⟨w, hw, h⟩
    split at h
    · next hw' =>
      rw [getLsbD_flag hmod, decide_eq_true_iff] at h
      omega
    · simp at h
  · rintro rfl
    refine ⟨⟨c / 64, by omega⟩, rfl, ?_⟩
    rw [if_pos rfl, getLsbD_flag hmod, decide_eq_true_iff]

/-- `std::countr_zero` returns the lowest bit of a word. -/
theorem countrZero_spec {word : Word} (h : word ≠ 0) :
    countrZero word < 64 ∧ word.getLsbD (countrZero word) = true ∧
      ∀ i < countrZero word, word.getLsbD i = false := by
  obtain ⟨k, m, hk⟩ := toNat_eq_lowest h
  have heq : countrZero word = k := by
    rw [countrZero_eq_head, bits_lowest hk]
    rfl
  obtain ⟨hset, hclear⟩ := getLsbD_lowest hk
  rw [heq]
  exact ⟨bits_lt (mem_bits.mpr hset), hset, hclear⟩

/-- The first gap of the palette is its least free colour. -/
theorem freeColor_eq_some (h : freeColor used = some c) :
    c < 512 ∧ ¬inPalette used c ∧ ∀ d < c, inPalette used d := by
  obtain ⟨w, hw, rfl⟩ := Option.map_eq_some_iff.mp h
  obtain ⟨hgap, i, hi, hwi, hfull⟩ := List.find?_eq_some_iff_getElem.mp hw
  rw [List.getElem_finRange] at hwi
  have hwi' : i = w.val := congrArg Fin.val hwi
  have hne : ~~~used w ≠ 0 := by
    intro hzero
    refine of_decide_eq_true hgap ?_
    rw [← BitVec.not_not (b := used w), hzero]
    rfl
  obtain ⟨hlt, hset, hclear⟩ := countrZero_spec hne
  have hw8 := w.isLt
  have hbit (d : ℕ) (hd : d < 64) : (~~~used w).getLsbD d = !(used w).getLsbD d := by
    rw [BitVec.getLsbD_not, decide_eq_true hd, Bool.true_and]
  generalize countrZero (~~~used w) = k at hlt hset hclear
  refine ⟨by omega, ?_, fun d hd => ?_⟩
  · rintro ⟨w', hw', hin⟩
    obtain rfl : w' = w := Fin.ext (by omega)
    have hk : (w'.val * 64 + k) % 64 = k := by omega
    rw [hbit k hlt] at hset
    rw [hk] at hin
    rw [hin] at hset
    exact Bool.false_ne_true hset
  · by_cases hword : d / 64 = w.val
    · have hlow := hclear (d % 64) (by omega)
      rw [hbit _ (by omega)] at hlow
      exact ⟨w, hword.symm, by simpa using hlow⟩
    · have hbefore := hfull (d / 64) (by omega)
      rw [List.getElem_finRange] at hbefore
      refine ⟨⟨d / 64, by omega⟩, rfl, ?_⟩
      have hones : used ⟨d / 64, by omega⟩ = BitVec.allOnes 64 := by simpa using hbefore
      rw [hones, BitVec.getLsbD_allOnes, decide_eq_true_iff]
      exact Nat.mod_lt _ (by norm_num)

/-- If there is no free colour all 512 are used. -/
theorem freeColor_eq_none (h : freeColor used = none) (hc : c < 512) : inPalette used c := by
  have hfull := List.find?_eq_none.mp (Option.map_eq_none_iff.mp h) ⟨c / 64, by omega⟩ (List.mem_finRange _)
  have hones : used ⟨c / 64, by omega⟩ = BitVec.allOnes 64 := by simpa using hfull
  refine ⟨⟨c / 64, by omega⟩, rfl, ?_⟩
  rw [hones, BitVec.getLsbD_allOnes, decide_eq_true_iff]
  exact Nat.mod_lt _ (by norm_num)

end Palettes

end Coloring

end ToggleTree
