import Mathlib.Tactic

/-!
# The sources of a benchmark

The drivers read the sources of a graph from a table of comma-separated values and fall back to
`0, 1, 2, …` with a warning. A missing table, a missing row and a row that is too short are noticed
before the cells are read. The loop over the cells is left at the first one that is not a number,
and what was read before it is returned.
-/

namespace ToggleTree

namespace Benchmark

/-- Everything up to the next separator, again and again. Nothing is read behind the last separator. -/
def getLines (separator : Char) : List Char → List (List Char)
  | [] => []
  | c :: cs =>
    if c = separator then [] :: getLines separator cs
    else
      match getLines separator cs with
      | [] => [[c]]
      | line :: lines => (c :: line) :: lines

/-- The rows of a table; `none` stands for a file that cannot be opened. -/
def readCsv : Option (List Char) → List (List (List Char))
  | none => []
  | some content => (getLines '\n' content).map (getLines ',')

/-- The value of some decimal digits. -/
def ofDigits (digits : List Char) : ℕ := digits.foldl (fun value c => 10 * value + (c.toNat - '0'.toNat)) 0

/-- The 64-bit number that a text starts with, and what is behind it. -/
def fromChars (cell : List Char) : Option (ℕ × List Char) :=
  let digits := cell.takeWhile Char.isDigit
  if digits = [] then none
  else if ofDigits digits < 2 ^ 64 then some (ofDigits digits, cell.dropWhile Char.isDigit)
  else none

/-- What a run ends with: a vector, a read behind the end of a row, or no more fuel. -/
inductive Outcome
  | returned (sources : List ℕ)
  | outOfBounds
  | unfinished
deriving DecidableEq

/-- The loop over the cells with its 32-bit counter. -/
def readCells (row : List (List Char)) (numSources : ℕ) : ℕ → ℕ → List ℕ → Outcome
  | 0, _, _ => .unfinished
  | fuel + 1, i, sources =>
    if i ≤ numSources then
      match row[i]? with
      | none => .outOfBounds
      | some cell =>
        match fromChars cell with
        | some (s, []) => readCells row numSources fuel ((i + 1) % 2 ^ 32) (sources ++ [s % 2 ^ 32])
        | _ => .returned sources
    else .returned sources

/-- The first row behind the header that starts with the name. -/
def findRow (content : Option (List Char)) (graphName : List Char) : Option (List (List Char)) :=
  (readCsv content).tail.find? fun row => row.head? == some graphName

/-- The documented fallback. -/
def fallback (numSources : ℕ) : Outcome := .returned (List.range numSources)

/-- `get_sources` -/
def getSources (fuel : ℕ) (content : Option (List Char)) (graphName : List Char) (numSources : ℕ) : Outcome :=
  if readCsv content = [] then fallback numSources
  else
    match findRow content graphName with
    | none => fallback numSources
    | some row =>
      if row.length < (numSources + 1) % 2 ^ 32 then fallback numSources
      else readCells row numSources fuel 1 []

/-- A cell that is a number of 64 bits, with nothing behind it. -/
def IsNumber (cell : List Char) : Prop := ∃ s, fromChars cell = some (s, [])

/-- The cells from 1 up to `numSources` of the row are numbers. -/
def Filled (row : List (List Char)) (numSources : ℕ) : Prop :=
  ∀ i, 1 ≤ i → i ≤ numSources → ∃ cell, row[i]? = some cell ∧ IsNumber cell

/-- The row of the graph has as many numbers as sources are asked for. -/
def Usable (content : Option (List Char)) (graphName : List Char) (numSources : ℕ) : Prop :=
  ∃ row, findRow content graphName = some row ∧ Filled row numSources

/-- What the drivers rely on: as many sources as they ask for, those of the fallback if the row of
the graph is not usable. -/
def MeetsPromise (content : Option (List Char)) (graphName : List Char) (numSources : ℕ) : Prop :=
  ∃ fuel sources, getSources fuel content graphName numSources = .returned sources ∧
    sources.length = numSources ∧ (¬Usable content graphName numSources → sources = List.range numSources)

section Cells

variable {row : List (List Char)} {numSources i : ℕ} {sources : List ℕ}

/-- A number in the row is read and the counter goes on. -/
theorem readCells_number (fuel : ℕ) (sources : List ℕ) (hi : i ≤ numSources) {cell : List Char}
    (hcell : row[i]? = some cell)
    (hnumber : IsNumber cell) : ∃ s, readCells row numSources (fuel + 1) i sources =
      readCells row numSources fuel ((i + 1) % 2 ^ 32) (sources ++ [s]) := by
  obtain ⟨s, hs⟩ := hnumber
  refine ⟨s % 2 ^ 32, ?_⟩
  rw [readCells, if_pos hi, hcell]
  simp only [hs]

/-- A row of numbers is read up to its end. -/
theorem readCells_numbers (fuel n i : ℕ) (sources : List ℕ) (hn : i + n ≤ numSources + 1)
    (hsources : numSources < 2 ^ 32)
    (hcells : ∀ j, i ≤ j → j < i + n → ∃ cell, row[j]? = some cell ∧ IsNumber cell) :
    ∃ more : List ℕ, more.length = n ∧ readCells row numSources (n + fuel) i sources =
      readCells row numSources fuel (if n = 0 then i else (i + n) % 2 ^ 32) (sources ++ more) := by
  induction n generalizing i sources with
  | zero => exact ⟨[], rfl, by rw [if_pos rfl, Nat.zero_add, List.append_nil]⟩
  | succ n ih =>
    obtain ⟨cell, hcell, hnumber⟩ := hcells i le_rfl (by omega)
    obtain ⟨s, hs⟩ := readCells_number (n + fuel) sources (show i ≤ numSources by omega) hcell hnumber
    rw [Nat.add_right_comm, hs, if_neg (Nat.succ_ne_zero n)]
    rcases Nat.eq_zero_or_pos n with rfl | hpos
    · exact ⟨[s], rfl, by rw [Nat.zero_add]⟩
    · rw [Nat.mod_eq_of_lt (show i + 1 < 2 ^ 32 by omega)]
      obtain ⟨more, hlength, heq⟩ := ih (i + 1) (sources ++ [s]) (by omega)
        fun j hj hj' => hcells j (by omega) (by omega)
      rw [if_neg (by omega)] at heq
      refine ⟨s :: more, by rw [List.length_cons, hlength], ?_⟩
      rw [heq, List.append_assoc, List.singleton_append, show i + 1 + n = i + (n + 1) by omega]

/-- A cell that is missing or not a number keeps the result too short. -/
theorem length_lt_of_notNumber {fuel j : ℕ} {result : List ℕ} (hsources : numSources < 2 ^ 32) (hij : i ≤ j)
    (hj : j ≤ numSources) (hcell : ¬∃ cell, row[j]? = some cell ∧ IsNumber cell)
    (h : readCells row numSources fuel i sources = .returned result) :
    result.length < sources.length + (numSources + 1 - i) := by
  induction fuel generalizing i sources with
  | zero => cases h
  | succ fuel ih =>
    by_cases hnumber : ∃ cell, row[i]? = some cell ∧ IsNumber cell
    · obtain ⟨cell, hcell', hnumber⟩ := hnumber
      have hne : i ≠ j := by
        rintro rfl
        exact hcell ⟨cell, hcell', hnumber⟩
      obtain ⟨s, hs⟩ := readCells_number fuel sources (hij.trans hj) hcell' hnumber
      rw [hs, Nat.mod_eq_of_lt (show i + 1 < 2 ^ 32 by omega)] at h
      have hlt := ih (by omega) h
      rw [List.length_append, List.length_singleton] at hlt
      omega
    · rw [readCells, if_pos (hij.trans hj)] at h
      split at h
      · cases h
      · next cell hcell' =>
        split at h
        · next s hs => exact absurd ⟨cell, hcell', s, hs⟩ hnumber
        · cases h
          omega

/-- With the largest number of sources the counter wraps, and a row of numbers is read forever. -/
theorem readCells_forever (hcells : ∀ j < 2 ^ 32, ∃ cell, row[j]? = some cell ∧ IsNumber cell) {fuel : ℕ}
    (hi : i < 2 ^ 32) (result : List ℕ) : readCells row (2 ^ 32 - 1) fuel i sources ≠ .returned result := by
  induction fuel generalizing i sources with
  | zero => exact fun h => by cases h
  | succ fuel ih =>
    obtain ⟨cell, hcell, hnumber⟩ := hcells i hi
    obtain ⟨s, hs⟩ := readCells_number fuel sources (show i ≤ 2 ^ 32 - 1 by omega) hcell hnumber
    rw [hs]
    exact ih (Nat.mod_lt _ (by decide))

end Cells

section Rows

variable {content : Option (List Char)} {graphName : List Char} {row : List (List Char)} {numSources fuel : ℕ}

/-- The row that is found begins with the name of the graph. -/
theorem findRow_first (h : findRow content graphName = some row) : row[0]? = some graphName := by
  have hhead := List.find?_some h
  rw [beq_iff_eq] at hhead
  rw [← List.head?_eq_getElem?, hhead]

/-- Without a row for the graph the default sources are returned. -/
theorem getSources_none (h : findRow content graphName = none) :
    getSources fuel content graphName numSources = fallback numSources := by
  unfold getSources
  split
  · rfl
  · rw [h]

/-- With a row for the graph its cells are read, or the default sources are returned if it is too short.
-/
theorem getSources_some (h : findRow content graphName = some row) :
    getSources fuel content graphName numSources =
      if row.length < (numSources + 1) % 2 ^ 32 then fallback numSources
      else readCells row numSources fuel 1 [] := by
  unfold getSources
  split
  · next hempty =>
    rw [findRow, hempty] at h
    cases h
  · rw [h]

/-- A row of numbers is read completely, and the counter stops or meets the name of the graph. -/
theorem readCells_filled (hsources : numSources < 2 ^ 32) (hfilled : Filled row numSources)
    (hfirst : row[0]? = some graphName) (hname : numSources + 1 = 2 ^ 32 → ¬IsNumber graphName) :
    ∃ sources : List ℕ, sources.length = numSources ∧
      readCells row numSources (numSources + 1) 1 [] = .returned sources := by
  obtain ⟨sources, hlength, heq⟩ := readCells_numbers 1 numSources 1 [] (Nat.add_comm _ _).le hsources
    fun j hj hj' => hfilled j hj (by omega)
  refine ⟨sources, hlength, ?_⟩
  rw [heq, List.nil_append, readCells]
  by_cases hwrap : numSources + 1 = 2 ^ 32
  · have hzero : (1 + numSources) % 2 ^ 32 = 0 := by omega
    rw [if_neg (show numSources ≠ 0 by omega), hzero, if_pos (Nat.zero_le _), hfirst]
    dsimp only
    split
    · next s hs => exact absurd ⟨s, hs⟩ (hname hwrap)
    · rfl
  · rw [if_neg]
    split
    · omega
    · rw [Nat.mod_eq_of_lt (by omega)]
      omega

/-- If the cells of a row that is long enough are read to the end, they are numbers. -/
theorem filled_of_length {result : List ℕ} (hsources : numSources < 2 ^ 32)
    (h : readCells row numSources fuel 1 [] = .returned result) (hlength : result.length = numSources) :
    Filled row numSources := by
  intro j hj hj'
  by_contra hcell
  have hlt := length_lt_of_notNumber hsources hj hj' hcell h
  rw [List.length_nil, hlength] at hlt
  omega

/-- As many sources as asked for are returned exactly if there is no row for the graph, or the row is
noticed to be too short, or all its cells are numbers; with the largest possible number of sources the
row cannot be too short, and the name of the graph, which the wrapped counter reads next, has to end
the loop. -/
theorem getSources_meetsPromise_iff (content : Option (List Char)) (graphName : List Char) (numSources : ℕ)
    (h : numSources < 2 ^ 32) :
    MeetsPromise content graphName numSources ↔ ∀ row, findRow content graphName = some row →
      numSources + 1 < 2 ^ 32 ∧ row.length ≤ numSources ∨
      Filled row numSources ∧ (numSources + 1 = 2 ^ 32 → ¬IsNumber graphName) := by
  constructor
  · rintro ⟨fuel, sources, heq, hlength, _⟩ row hrow
    rw [getSources_some hrow] at heq
    split at heq
    · next hshort =>
      left
      by_cases hwrap : numSources + 1 = 2 ^ 32
      · rw [hwrap, Nat.mod_self] at hshort
        exact absurd hshort (Nat.not_lt_zero _)
      · rw [Nat.mod_eq_of_lt (by omega)] at hshort
        omega
    · have hfilled := filled_of_length h heq hlength
      refine Or.inr ⟨hfilled, fun hwrap hnumber => ?_⟩
      obtain rfl : numSources = 2 ^ 32 - 1 := by omega
      refine readCells_forever (fun j hj => ?_) (by decide) sources heq
      rcases Nat.eq_zero_or_pos j with rfl | hpos
      · exact ⟨graphName, findRow_first hrow, hnumber⟩
      · exact hfilled j hpos (by omega)
  · intro hcondition
    cases hrow : findRow content graphName with
    | none => exact ⟨0, _, getSources_none hrow, List.length_range, fun _ => rfl⟩
    | some row =>
      rcases hcondition row hrow with ⟨hlt, hshort⟩ | ⟨hfilled, hname⟩
      · refine ⟨0, List.range numSources, ?_, List.length_range, fun _ => rfl⟩
        rw [getSources_some hrow, if_pos (by rw [Nat.mod_eq_of_lt hlt]; omega)]
        rfl
      · by_cases hshort : row.length < (numSources + 1) % 2 ^ 32
        · exact ⟨0, _, by rw [getSources_some hrow, if_pos hshort]; rfl, List.length_range, fun _ => rfl⟩
        · obtain ⟨sources, hlength, heq⟩ := readCells_filled h hfilled (findRow_first hrow) hname
          refine ⟨numSources + 1, sources, ?_, hlength, fun hnot => absurd ⟨row, hrow, hfilled⟩ hnot⟩
          rw [getSources_some hrow, if_neg hshort, heq]

/-- Two sources are asked for, and both cells are numbers. -/
theorem getSources_meetsPromise_iff_numbers :
    MeetsPromise (some "graph,a,b\nroad,17,4\n".toList) "road".toList 2 := by
  refine (getSources_meetsPromise_iff _ _ 2 (by decide)).mpr fun row hrow => Or.inr ⟨?_, by omega⟩
  obtain rfl : ["road".toList, "17".toList, "4".toList] = row := Option.some.inj (Eq.trans (by rfl) hrow)
  intro i hi hi'
  interval_cases i
  · exact ⟨"17".toList, rfl, 17, rfl⟩
  · exact ⟨"4".toList, rfl, 4, rfl⟩

/-- One source is asked for, and its cell is not a number: nothing is returned. -/
theorem getSources_notNumber : ¬MeetsPromise (some "graph,a\nroad,x\n".toList) "road".toList 1 := by
  rintro ⟨fuel, sources, heq, hlength, _⟩
  cases fuel with
  | zero =>
    have hunfinished : getSources 0 (some "graph,a\nroad,x\n".toList) "road".toList 1 = .unfinished := rfl
    rw [hunfinished] at heq
    cases heq
  | succ fuel =>
    have hnothing : getSources (fuel + 1) (some "graph,a\nroad,x\n".toList) "road".toList 1 = .returned [] := rfl
    rw [hnothing, Outcome.returned.injEq] at heq
    subst heq
    exact absurd hlength (by decide)

end Rows

end Benchmark

end ToggleTree
