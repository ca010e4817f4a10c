import Mathlib.Data.List.TakeWhile
import ToggleTree.Benchmark.Table

/-!
# The sources that are stored

The driver that finds the sources of a graph stores them one by one, in the columns `source_1`,
`source_2`, … of the table; the other drivers read them back by the positions of the cells. What they
get is what has been stored last, as long as they ask for no more than that. Where they ask for more
the fallback depends on the other graphs: a row is as long as the table was wide, and the empty cells
behind its sources count.
-/

namespace ToggleTree

namespace Benchmark

/-- The decimal digits of a number. -/
def decimal (n : ℕ) : List Char := Nat.toDigits 10 n

/-- The column of the source with index `i`. -/
def sourceColumn (i : ℕ) : List Char := "source_".toList ++ decimal (i + 1)

/-- The content of the file after the sources of a graph have been stored. -/
def storeSources (content : Option (List Char)) (graphName : List Char) (sources : List ℕ) : Option (List Char) :=
  sources.zipIdx.foldl (fun content source =>
    some (updateCsvCell content graphName (sourceColumn source.2) (decimal source.1))) content

/-- The header of a table with the sources of index less than `k`. -/
def sourceHeader (k : ℕ) : List (List Char) := "graph".toList :: (List.range k).map sourceColumn

section Texts

variable {n m i j k : ℕ} {c : Char}

/-- The characters of a decimal number are digits. -/
theorem isDigit_of_mem_decimal (h : c ∈ decimal n) : c.isDigit = true :=
    Nat.isDigit_of_mem_toDigits (by decide) (by decide) h

/-- A decimal number has a digit. -/
theorem decimal_ne_nil : decimal n ≠ [] := Nat.toDigits_ne_nil

/-- A decimal number is read as what it was written for. -/
theorem ofDigits_decimal : ofDigits (decimal n) = n := Nat.ofDigitChars_ten_toDigits

/-- A number is read as it has been printed. -/
theorem fromChars_decimal (h : n < 2 ^ 64) : fromChars (decimal n) = some (n, []) := by
  have htake : (decimal n).takeWhile Char.isDigit = decimal n :=
    List.takeWhile_eq_self_iff.mpr fun c hc => isDigit_of_mem_decimal hc
  have hdrop : (decimal n).dropWhile Char.isDigit = [] :=
    List.dropWhile_eq_nil_iff.mpr fun c hc => isDigit_of_mem_decimal hc
  rw [fromChars, htake, hdrop, if_neg decimal_ne_nil, ofDigits_decimal, if_pos h]

/-- A decimal number can stand in a cell. -/
theorem plain_decimal : Plain (decimal n) :=
  ⟨fun h => absurd (isDigit_of_mem_decimal h) (by decide), fun h => absurd (isDigit_of_mem_decimal h) (by decide)⟩

/-- The name of a column can stand in a cell. -/
theorem plain_sourceColumn : Plain (sourceColumn i) := by
  constructor
  · intro h
    exact (List.mem_append.mp h).elim (by decide) plain_decimal.1
  · intro h
    exact (List.mem_append.mp h).elim (by decide) plain_decimal.2

/-- The name of a column is not empty. -/
theorem sourceColumn_ne_nil : sourceColumn i ≠ [] := by
  intro h
  exact decimal_ne_nil (List.append_eq_nil_iff.mp h).2

/-- No column of sources is the column of the graphs. -/
theorem sourceColumn_ne_graph : sourceColumn i ≠ "graph".toList := by
  intro h
  exact absurd (List.cons.inj h).1 (by decide)

/-- Different columns have different names. -/
theorem sourceColumn_injective : Function.Injective sourceColumn := by
  intro i j h
  have hdecimal : ofDigits (decimal (i + 1)) = ofDigits (decimal (j + 1)) := by rw [List.append_cancel_left h]
  rw [ofDigits_decimal, ofDigits_decimal] at hdecimal
  exact Nat.succ_injective hdecimal

/-- The number of cells of a header. -/
theorem length_sourceHeader : (sourceHeader k).length = k + 1 := by
  rw [sourceHeader, List.length_cons, List.length_map, List.length_range]

/-- The columns that a header has. -/
theorem mem_sourceHeader : sourceColumn i ∈ sourceHeader k ↔ i < k := by
  rw [sourceHeader, List.mem_cons, or_iff_right sourceColumn_ne_graph,
    List.mem_map_of_injective sourceColumn_injective,
    List.mem_range]

/-- No column of a header is empty. -/
theorem nil_notMem_sourceHeader : [] ∉ sourceHeader k := by
  intro h
  rcases List.mem_cons.mp h with h | h
  · cases h
  · obtain ⟨i, _, hi⟩ := List.mem_map.mp h
    exact sourceColumn_ne_nil hi

/-- A header with one more column. -/
theorem sourceHeader_succ : sourceHeader (k + 1) = sourceHeader k ++ [sourceColumn k] := by
  rw [sourceHeader, List.range_succ, List.map_append]
  rfl

/-- The source with index `i` is behind the name and the sources with a smaller index. -/
theorem idxOf_sourceHeader (h : i ≤ k) : (sourceHeader k).idxOf (sourceColumn i) = i + 1 := by
  induction k with
  | zero =>
    obtain rfl := Nat.le_zero.mp h
    rfl
  | succ k ih =>
    rw [sourceHeader_succ]
    rcases Nat.lt_or_ge i k with hlt | hge
    · rw [List.idxOf_append_of_mem (mem_sourceHeader.mpr hlt), ih hlt.le]
    · rw [List.idxOf_append_of_notMem fun hmem => absurd (mem_sourceHeader.mp hmem) (Nat.not_lt.mpr hge),
        length_sourceHeader]
      rcases Nat.eq_or_lt_of_le hge with rfl | hlt
      · rw [List.idxOf_cons_self, Nat.add_zero]
      · have hne : sourceColumn k ≠ sourceColumn i := fun heq => hlt.ne (sourceColumn_injective heq)
        rw [List.idxOf_cons_ne _ hne, List.idxOf_nil]
        omega

/-- The table gets a column when a source is stored for which it has none. -/
theorem addColumn_sourceHeader (h : i ≤ k) :
    addColumn (sourceHeader k) (sourceColumn i) = sourceHeader (max k (i + 1)) := by
  rw [addColumn, idxOf_sourceHeader h, length_sourceHeader]
  rcases Nat.eq_or_lt_of_le h with rfl | hlt
  · rw [if_pos rfl, max_eq_right (Nat.le_succ i), sourceHeader_succ]
  · rw [if_neg (by omega), max_eq_left hlt]

end Texts

/-- The table has `k` columns for sources, and `latest` says which sources each graph has. -/
structure Kept (k : ℕ) (latest : List Char → List ℕ) (content : Option (List Char)) : Prop where
  proper : Proper "graph".toList (readCsv content)
  cells : ∀ g ≠ [], ∀ i, cellOf (readCsv content) g (sourceColumn i) = ((latest g)[i]?.map decimal).getD []
  table : readCsv content = [] ∧ k = 0 ∨
    ∃ rows, readCsv content = (sourceHeader k :: rows).map trimmed ∧ ∀ row ∈ rows, row.length = k + 1
  found : ∀ g ≠ [], (findRow content g).isSome = true ↔ latest g ≠ []
  length_le : ∀ g, (latest g).length ≤ k

section Storing

variable {content : Option (List Char)} {graphName g value : List Char} {k i s : ℕ} {latest : List Char → List ℕ}
  {rows : Csv} {sources : List ℕ}

/-- A source fits into the file. -/
theorem fits_source (hname : Plain graphName) :
    Update.Fits "graph".toList ⟨graphName, sourceColumn i, decimal s⟩ where
  graph := hname
  column := plain_sourceColumn
  value := plain_decimal
  nonempty := sourceColumn_ne_nil
  ne_name := sourceColumn_ne_graph

/-- All rows are as long as the header when they are written. -/
theorem updateTable_sources (graphName value : List Char) (h : i ≤ k) (hrows : ∀ row ∈ rows, row.length ≤ k + 1) :
    ∃ rows', updateTable (sourceHeader k :: rows) graphName (sourceColumn i) value =
      sourceHeader (max k (i + 1)) :: rows' ∧
      ∀ row ∈ rows', row.length = max k (i + 1) + 1 := by
  rw [updateTable, if_neg (List.cons_ne_nil _ _)]
  dsimp only
  rw [addColumn_sourceHeader h, length_sourceHeader]
  refine ⟨_, rfl, fun row hrow => ?_⟩
  obtain ⟨old, hold, heq⟩ := mem_updated hrow
  have hlength : old.length = max k (i + 1) + 1 := by
    rcases hold with ⟨row', hrow', rfl⟩ | rfl
    · have hle := hrows row' hrow'
      rw [length_widen]
      omega
    · rw [List.length_set, List.length_replicate]
  rcases heq with rfl | rfl
  · exact hlength
  · rwa [List.length_set]

/-- The row of a graph is the first one below the header that begins with its name. -/
theorem findRow_eq : findRow content g = (readCsv content).tail.find? (isRowOf g) := rfl

/-- Trimming the rows does not change which one is found. -/
theorem find?_trimmed (hg : g ≠ []) : (rows.map trimmed).find? (isRowOf g) =
    (rows.find? (isRowOf g)).map trimmed := by
  have hcomp : isRowOf g ∘ trimmed = isRowOf g := funext fun row => isRowOf_trimmed hg
  rw [List.find?_map, hcomp]

/-- An element that is put into a list, or behind it. -/
theorem getElem?_put {α : Type} {l : List α} {i j : ℕ} (x : α) (hi : i ≤ l.length) :
    (l.take i ++ x :: l.drop (i + 1))[j]? = if j = i then some x else l[j]? := by
  have hlength : (l.take i).length = i := by rw [List.length_take, min_eq_left hi]
  rcases lt_trichotomy j i with hlt | rfl | hgt
  · rw [if_neg hlt.ne, List.getElem?_append_left (by rwa [hlength]), List.getElem?_take_of_lt hlt]
  · rw [if_pos rfl, List.getElem?_append_right hlength.le, hlength, Nat.sub_self]
    rfl
  · obtain ⟨d, rfl⟩ := Nat.exists_eq_add_of_lt hgt
    rw [if_neg hgt.ne', List.getElem?_append_right (by rw [hlength]; exact hgt.le), hlength,
      show i + d + 1 - i = d + 1 by omega,
      List.getElem?_cons_succ, List.getElem?_drop, show i + 1 + d = i + d + 1 by omega]

/-- A source is stored behind those that are stored already, or in place of one of them. -/
theorem Kept.put (h : Kept k latest content) (s : ℕ) (hname : Plain graphName)
    (hi : i ≤ (latest graphName).length) :
    Kept (max k (i + 1))
      (Function.update latest graphName ((latest graphName).take i ++ s :: (latest graphName).drop (i + 1)))
      (some (updateCsvCell content graphName (sourceColumn i) (decimal s))) := by
  have hik : i ≤ k := hi.trans (h.length_le graphName)
  have hread : readCsv (some (updateCsvCell content graphName (sourceColumn i) (decimal s))) =
      (updateTable (readCsv content) graphName (sourceColumn i) (decimal s)).map trimmed :=
    readCsv_updateCsvCell (fits_source hname)
  refine ⟨?_, fun g hg j => ?_, Or.inr ?_, fun g hg => ?_, fun g => ?_⟩
  · exact h.proper.updateCsvCell (fits_source hname)
  · refine (cellOf_updateCsvCell h.proper (fits_source hname) hg sourceColumn_ne_graph).trans ?_
    change (if g = graphName ∧ sourceColumn j = sourceColumn i then decimal s else _) = _
    rw [h.cells g hg]
    by_cases hsame : g = graphName
    · subst hsame
      rw [Function.update_self, getElem?_put s hi]
      by_cases hj : j = i
      · rw [if_pos hj, if_pos ⟨rfl, congrArg sourceColumn hj⟩]
        rfl
      · rw [if_neg hj, if_neg fun heq => hj (sourceColumn_injective heq.2)]
    · rw [if_neg fun heq => hsame heq.1, Function.update_of_ne hsame]
  · rw [hread]
    rcases h.table with ⟨hempty, rfl⟩ | ⟨rows, heq, hrows⟩
    · obtain rfl := Nat.le_zero.mp hik
      have hnone : ∀ row ∈ ([] : Csv), row.length ≤ 1 + 1 := fun row hrow => by cases hrow
      obtain ⟨rows', heq', hrows'⟩ := updateTable_sources graphName (decimal s) (Nat.zero_le 1) hnone
      refine ⟨rows', ?_, hrows'⟩
      rw [hempty, updateTable_nil]
      exact congrArg (List.map trimmed) heq'
    · have hle : ∀ row ∈ rows.map trimmed, row.length ≤ k + 1 := by
        intro row hrow
        obtain ⟨row', hrow', rfl⟩ := List.mem_map.mp hrow
        exact length_trimmed_le.trans (hrows row' hrow').le
      obtain ⟨rows', heq', hrows'⟩ := updateTable_sources graphName (decimal s) hik hle
      refine ⟨rows', ?_, hrows'⟩
      rw [heq, List.map_cons, trimmed_eq_self nil_notMem_sourceHeader, heq']
  · have hold := h.found g hg
    rw [findRow_eq] at hold
    rw [findRow_eq, hread, ← List.map_tail, find?_trimmed hg, Option.isSome_map,
      find?_updateTable h.proper sourceColumn_ne_graph sourceColumn_ne_nil hg, hold]
    by_cases hsame : g = graphName
    · subst hsame
      rw [Function.update_self]
      exact iff_of_true (Or.inl rfl) (List.append_ne_nil_of_right_ne_nil _ (List.cons_ne_nil _ _))
    · rw [Function.update_of_ne hsame, or_iff_right hsame]
  · by_cases hsame : g = graphName
    · subst hsame
      have hle := h.length_le g
      rw [Function.update_self, List.length_append, List.length_take, List.length_cons, List.length_drop]
      omega
    · rw [Function.update_of_ne hsame]
      exact (h.length_le g).trans (le_max_left _ _)

/-- The sources of a graph are stored over those that it had. -/
theorem Kept.store (h : Kept k latest content) (sources : List ℕ) (hname : Plain graphName)
    (hi : i ≤ (latest graphName).length) :
    Kept (max k (i + sources.length))
      (Function.update latest graphName
        ((latest graphName).take i ++ sources ++ (latest graphName).drop (i + sources.length)))
      ((sources.zipIdx i).foldl (fun content source =>
        some (updateCsvCell content graphName (sourceColumn source.2) (decimal source.1))) content) := by
  induction sources generalizing i k latest content with
  | nil =>
    have hle := hi.trans (h.length_le graphName)
    rw [List.append_nil, List.length_nil, Nat.add_zero, List.take_append_drop, Function.update_eq_self,
      max_eq_left hle]
    exact h
  | cons s sources ih =>
    have hlength : ((latest graphName).take i).length = i := by rw [List.length_take, min_eq_left hi]
    have hput := h.put s hname hi
    have hi' : i + 1 ≤ (Function.update latest graphName
        ((latest graphName).take i ++ s :: (latest graphName).drop (i + 1)) graphName).length := by
      rw [Function.update_self, List.length_append, hlength, List.length_cons]
      omega
    have hnext := ih hput hi'
    have htake : ((latest graphName).take i ++ s :: (latest graphName).drop (i + 1)).take (i + 1) =
        (latest graphName).take i ++ [s] := by
      rw [List.take_append, List.take_of_length_le (by omega), hlength, Nat.add_sub_cancel_left,
        List.take_succ_cons,
        List.take_zero]
    have hdrop : ((latest graphName).take i ++ s :: (latest graphName).drop (i + 1)).drop
      (i + 1 + sources.length) = (latest graphName).drop (i + 1 + sources.length) := by
      rw [List.drop_append, List.drop_of_length_le (by omega), hlength, List.nil_append,
        show i + 1 + sources.length - i = sources.length + 1 by omega, List.drop_succ_cons, List.drop_drop]
    rw [Function.update_self, Function.update_idem, htake, hdrop, max_assoc,
      max_eq_right (show i + 1 ≤ i + 1 + sources.length by omega)] at hnext
    rwa [List.zipIdx_cons, List.foldl_cons, List.length_cons,
      show i + (sources.length + 1) = i + 1 + sources.length by omega,
      List.append_cons]

end Storing

/-- The content of the file after some runs of the driver, which each store the sources of a graph. -/
def afterRuns (runs : List (List Char × List ℕ)) : Option (List Char) :=
  runs.foldl (fun content run => storeSources content run.1 run.2) none

/-- The sources of a graph: what the last run has stored, and behind it what it has left of the runs before. -/
def latestSources (runs : List (List Char × List ℕ)) (graphName : List Char) : List ℕ :=
  runs.foldl (fun old run => if run.1 = graphName then run.2 ++ old.drop run.2.length else old) []

/-- The largest number of sources that a run has stored. -/
def columns (runs : List (List Char × List ℕ)) : ℕ := runs.foldl (fun k run => max k run.2.length) 0

section Reading

variable {runs : List (List Char × List ℕ)} {graphName : List Char} {numSources i : ℕ} {row : List (List Char)}
  {sources found : List ℕ}

/-- After some runs the file has the sources of the latest runs. -/
theorem kept_afterRuns (h : ∀ run ∈ runs, Plain run.1) :
    Kept (columns runs) (latestSources runs) (afterRuns runs) := by
  induction runs using List.reverseRecOn with
  | nil =>
    refine ⟨rfl, fun g _ i => rfl, Or.inl ⟨rfl, rfl⟩, fun g _ => ?_, fun g => le_rfl⟩
    exact iff_of_false Bool.false_ne_true fun hne => hne rfl
  | append_singleton runs run ih =>
    have hold := ih fun run' hrun' => h run' (List.mem_append_left _ hrun')
    have hstore := hold.store run.2 (h run (List.mem_append_right _ List.mem_cons_self)) (Nat.zero_le _)
    have hlatest : latestSources (runs ++ [run]) = Function.update (latestSources runs) run.1
        (run.2 ++ (latestSources runs run.1).drop run.2.length) := by
      funext g
      rw [latestSources, List.foldl_append]
      by_cases hg : g = run.1
      · subst hg
        rw [Function.update_self]
        exact if_pos rfl
      · rw [Function.update_of_ne hg]
        exact if_neg fun heq => hg heq.symm
    rw [List.take_zero, List.nil_append, Nat.zero_add, ← hlatest] at hstore
    rwa [columns, afterRuns, List.foldl_append, List.foldl_append]

/-- Cells that have been printed are read. -/
theorem readCells_decimals (fuel : ℕ) (found : List ℕ) (hsources : ∀ s ∈ sources, s < 2 ^ 32)
    (hbound : i + sources.length ≤ numSources + 1)
    (hnum : numSources + 1 < 2 ^ 32)
    (hcells : ∀ j (hj : j < sources.length), row[i + j]? = some (decimal sources[j])) :
    readCells row numSources (sources.length + fuel) i found =
      readCells row numSources fuel (i + sources.length) (found ++ sources) := by
  induction sources generalizing i found with
  | nil => rw [List.length_nil, Nat.zero_add, Nat.add_zero, List.append_nil]
  | cons s sources ih =>
    rw [List.length_cons] at hbound
    have hs := hsources s List.mem_cons_self
    have hcell : row[i]? = some (decimal s) := hcells 0 (Nat.succ_pos _)
    have hrest : ∀ j (hj : j < sources.length), row[i + 1 + j]? = some (decimal sources[j]) := by
      intro j hj
      rw [Nat.add_right_comm, Nat.add_assoc]
      exact hcells (j + 1) (Nat.succ_lt_succ hj)
    have hnext := ih (found ++ [s]) (fun s' hs' => hsources s' (List.mem_cons_of_mem s hs')) (by omega) hrest
    rw [List.length_cons, Nat.add_right_comm, readCells, if_pos (by omega), hcell]
    dsimp only
    rw [fromChars_decimal (by omega)]
    dsimp only
    rw [Nat.mod_eq_of_lt (by omega), Nat.mod_eq_of_lt hs, hnext, List.append_assoc, List.singleton_append]
    congr 1
    omega

/-- The sources that are stored last fit into 32 bits. -/
theorem lt_of_mem_latestSources (h : ∀ run ∈ runs, ∀ s ∈ run.2, s < 2 ^ 32) : ∀ s ∈ latestSources runs graphName,
    s < 2 ^ 32 := by
  induction runs using List.reverseRecOn with
  | nil => exact fun s hs => by cases hs
  | append_singleton runs run ih =>
    have hold := ih fun run' hrun' => h run' (List.mem_append_left _ hrun')
    intro s hs
    rw [latestSources, List.foldl_append, List.foldl_cons, List.foldl_nil] at hs
    split at hs
    · rcases List.mem_append.mp hs with hs | hs
      · exact h run (List.mem_append_right _ List.mem_cons_self) s hs
      · exact hold s (List.mem_of_mem_drop hs)
    · exact hold s hs

/-- Reading drops the last cell of a row exactly if it is empty. -/
theorem length_trimmed {n : ℕ} (h : row.length = n + 1) :
    (trimmed row).length = if row.getD n [] = [] then n else n + 1 := by
  have hlast : row.getLast? = some (row.getD n []) := by
    rw [List.getLast?_eq_getElem?, h, Nat.add_sub_cancel, List.getD_eq_getElem?_getD,
      List.getElem?_eq_getElem (show n < row.length by omega)]
    rfl
  rw [trimmed, hlast]
  by_cases hempty : row.getD n [] = []
  · rw [if_pos hempty, if_pos (congrArg some hempty), List.length_dropLast, h, Nat.add_sub_cancel]
  · rw [if_neg hempty, if_neg fun heq => hempty (Option.some.inj heq), h]

/-- The row of a graph that has sources. -/
theorem Kept.exists_row {k : ℕ} {latest : List Char → List ℕ} {content : Option (List Char)}
    (h : Kept k latest content)
    (hname : graphName ≠ []) (hsources : latest graphName ≠ []) : ∃ row, findRow content graphName = some row ∧
      (∀ j < k, row.getD (j + 1) [] = ((latest graphName)[j]?.map decimal).getD []) ∧
      row.length = if (latest graphName).length = k then k + 1 else k := by
  obtain ⟨row, hrow⟩ := Option.isSome_iff_exists.mp ((h.found graphName hname).mpr hsources)
  have hpos : 0 < (latest graphName).length := List.length_pos_iff.mpr hsources
  have hle := h.length_le graphName
  rcases h.table with ⟨hempty, rfl⟩ | ⟨rows, htable, hrows⟩
  · omega
  have hcells : ∀ j < k, row.getD (j + 1) [] = ((latest graphName)[j]?.map decimal).getD [] := by
    intro j hj
    rw [← h.cells graphName hname]
    rw [findRow_eq, htable, List.map_cons, List.tail_cons] at hrow
    rw [htable, List.map_cons, trimmed_eq_self nil_notMem_sourceHeader]
    dsimp only [cellOf]
    rw [if_pos (mem_sourceHeader.mpr hj), hrow, idxOf_sourceHeader hj.le]
    rfl
  refine ⟨row, hrow, hcells, ?_⟩
  obtain ⟨old, hold, rfl⟩ : ∃ old ∈ rows, row = trimmed old := by
    rw [findRow_eq, htable, List.map_cons, List.tail_cons] at hrow
    obtain ⟨old, hold, heq⟩ := List.mem_map.mp (List.mem_of_find?_eq_some hrow)
    exact ⟨old, hold, heq.symm⟩
  have hlast := hcells (k - 1) (by omega)
  rw [Nat.sub_add_cancel (by omega), getD_trimmed] at hlast
  rw [length_trimmed (hrows old hold), hlast]
  rcases Nat.lt_or_ge (k - 1) (latest graphName).length with hlt | hge
  · rw [List.getElem?_eq_getElem hlt, if_pos (show (latest graphName).length = k by omega)]
    exact if_neg decimal_ne_nil
  · rw [List.getElem?_eq_none hge, if_neg (show (latest graphName).length ≠ k by omega)]
    rfl

/-- What is read from a table that has been kept. -/
theorem Kept.getSources {k : ℕ} {latest : List Char → List ℕ} {content : Option (List Char)}
    (hkept : Kept k latest content)
    (hname : graphName ≠ []) (hlt : ∀ s ∈ latest graphName, s < 2 ^ 32) (hnum : numSources + 1 < 2 ^ 32) :
    Benchmark.getSources (numSources + 1) content graphName numSources =
      if latest graphName = [] ∨ (latest graphName).length < numSources ∧ k ≤ numSources then fallback numSources
      else .returned ((latest graphName).take numSources) := by
  by_cases hnone : latest graphName = []
  · have hrow : findRow content graphName = none := by
      rw [← Option.not_isSome_iff_eq_none]
      exact fun hsome => (hkept.found graphName hname).mp hsome hnone
    rw [if_pos (Or.inl hnone), getSources_none hrow]
  · obtain ⟨row, hrow, hcells, hlength⟩ := hkept.exists_row hname hnone
    have hle := hkept.length_le graphName
    rw [getSources_some hrow, Nat.mod_eq_of_lt hnum, hlength]
    generalize latest graphName = sources at *
    -- A cell that has been printed is not empty, so it is there.
    have hprinted : ∀ j (hj : j < sources.length), row[1 + j]? = some (decimal sources[j]) := by
      intro j hj
      have hcell := hcells j (by omega)
      rw [List.getElem?_eq_getElem hj, Option.map_some, Option.getD_some, List.getD_eq_getElem?_getD] at hcell
      rw [Nat.add_comm]
      cases hget : row[j + 1]? with
      | none =>
        rw [hget] at hcell
        exact absurd hcell.symm decimal_ne_nil
      | some cell =>
        rw [hget] at hcell
        exact congrArg some hcell
    by_cases hfew : sources.length < numSources ∧ k ≤ numSources
    · rw [if_pos (Or.inr hfew), if_pos]
      split <;> omega
    · rw [if_neg (not_or.mpr ⟨hnone, hfew⟩), if_neg (by split <;> omega)]
      rcases Nat.lt_or_ge sources.length numSources with hshort | henough
      · -- The cell behind the last source is empty.
        have hempty : row[1 + sources.length]? = some [] := by
          have hcell := hcells sources.length (by omega)
          have hin : sources.length + 1 < row.length := by
            rw [hlength]
            split <;> omega
          rw [List.getElem?_eq_none le_rfl, List.getD_eq_getElem?_getD, List.getElem?_eq_getElem hin] at hcell
          rw [Nat.add_comm, List.getElem?_eq_getElem hin]
          exact congrArg some hcell
        have hread := readCells_decimals (numSources - sources.length + 1) [] hlt (by omega) hnum hprinted
        rw [show sources.length + (numSources - sources.length + 1) = numSources + 1 by omega] at hread
        rw [hread, readCells, if_pos (by omega), hempty, List.take_of_length_le hshort.le]
        rfl
      · have htake : (sources.take numSources).length = numSources := by
          rw [List.length_take, min_eq_left henough]
        have hfirst : ∀ j (hj : j < (sources.take numSources).length),
          row[1 + j]? = some (decimal (sources.take numSources)[j]) := by
          intro j hj
          rw [List.getElem_take]
          exact hprinted j _
        have hread := readCells_decimals 1 [] (fun s hs => hlt s (List.mem_of_mem_take hs)) (by omega) hnum hfirst
        rw [htake] at hread
        rw [hread, readCells, if_neg (by omega), List.nil_append]

/-- What the other drivers get after any runs of the driver that stores sources: the fallback if it
has not been run for their graph or if they ask for more sources than it has and than the table has
columns, and otherwise the first ones of those that are stored; these are too few if the table has
more columns than the graph has sources. -/
theorem getSources_afterRuns (runs : List (List Char × List ℕ))
    (hruns : ∀ run ∈ runs, Plain run.1 ∧ ∀ s ∈ run.2, s < 2 ^ 32)
    (graphName : List Char) (hname : graphName ≠ []) (numSources : ℕ) (hnum : numSources + 1 < 2 ^ 32) :
    getSources (numSources + 1) (afterRuns runs) graphName numSources =
      if latestSources runs graphName = [] ∨
          (latestSources runs graphName).length < numSources ∧ columns runs ≤ numSources then fallback numSources
      else .returned ((latestSources runs graphName).take numSources) :=
  (kept_afterRuns fun run hrun => (hruns run hrun).1).getSources hname
    (lt_of_mem_latestSources fun run hrun => (hruns run hrun).2) hnum

/-- Two sources of one graph and three of another one, and the two are read back. -/
theorem getSources_afterRuns_two : getSources 3 (afterRuns [("road".toList, [17, 4]), ("web".toList, [0, 5, 9])])
    "road".toList 2 =
    .returned [17, 4] := by
  refine getSources_afterRuns _ (fun run hrun => ?_) "road".toList (by decide) 2 (by decide)
  fin_cases hrun
  · exact ⟨⟨by decide, by decide⟩, by decide⟩
  · exact ⟨⟨by decide, by decide⟩, by decide⟩

end Reading

end Benchmark

end ToggleTree
