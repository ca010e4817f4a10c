import Mathlib.Data.List.GetD
import ToggleTree.Benchmark.Sources

/-!
# The tables of the benchmarks

Running times, fingerprints and sources are kept in tables of comma-separated values with a row for
each graph. A cell is changed by reading the whole table, changing it and writing it again. Reading
drops an empty cell at the end of a row, so the file is not what has been written; but nobody who
looks a cell up by its graph and its column notices, and the table is a store from graphs and columns
to values.
-/

namespace ToggleTree

namespace Benchmark

/-- Rows of cells. -/
abbrev Csv := List (List (List Char))

/-- A line for each row, with commas between its cells. -/
def writeCsv (table : Csv) : List Char := table.flatMap fun row => [','].intercalate row ++ ['\n']

/-- The header gets the column if it does not have it yet. -/
def addColumn (header : List (List Char)) (column : List Char) : List (List Char) :=
  if header.idxOf column = header.length then header ++ [column] else header

/-- A row that is too short is filled up with empty cells. -/
def widen (width : ℕ) (row : List (List Char)) : List (List Char) := row ++ List.replicate (width - row.length) []

/-- The row starts with the name of the graph. -/
def isRowOf (graph : List Char) (row : List (List Char)) : Bool := row.head? == some graph

/-- The position of the first row of the graph. -/
def findGraph (rows : Csv) (graph : List Char) : ℕ := rows.findIdx (isRowOf graph)

/-- A row for the graph is added if it has none. -/
def addGraph (width : ℕ) (rows : Csv) (graph : List Char) : Csv :=
  if findGraph rows graph = rows.length then rows ++ [(List.replicate width []).set 0 graph] else rows

/-- The table after a cell is set: the header is extended, a row is added if there is none, and the rows
are widened. -/
def updateTable (table : Csv) (graph column value : List Char) : Csv :=
  match (if table = [] then [["graph".toList, column]] else table) with
  | [] => []
  | header :: rows =>
    addColumn header column ::
      (addGraph (addColumn header column).length (rows.map (widen (addColumn header column).length)) graph).modify
        (findGraph (rows.map (widen (addColumn header column).length)) graph) fun row =>
          row.set (header.idxOf column) value

/-- The content of the file after the change of one cell. -/
def updateCsvCell (content : Option (List Char)) (graph column value : List Char) : List Char :=
  writeCsv (updateTable (readCsv content) graph column value)

/-- The cell of a graph in a column. A cell that does not exist is as good as an empty one. -/
def cellOf (table : Csv) (graph column : List Char) : List Char :=
  match table with
  | [] => []
  | header :: rows =>
    if column ∈ header then
      ((rows.find? (isRowOf graph)).getD []).getD (header.idxOf column) []
    else []

/-- A table as the drivers keep it: `name` stands above the names of the graphs, no column is
nameless, and no row is longer than the header. -/
def Proper (name : List Char) : Csv → Prop
  | [] => name = "graph".toList
  | header :: rows => header.head? = some name ∧ [] ∉ header ∧ ∀ row ∈ rows, row.length ≤ header.length

/-- What reading drops. -/
def trimmed (row : List (List Char)) : List (List Char) := if row.getLast? = some [] then row.dropLast else row

/-- The text can be a cell. -/
def Plain (cell : List Char) : Prop := ',' ∉ cell ∧ '\n' ∉ cell

section Separators

variable {separator c : Char} {s line : List Char} {lines : List (List Char)}

/-- What is read has no separator in it and consists of characters of the text. -/
theorem mem_getLines (h : line ∈ getLines separator s) (hc : c ∈ line) : c ≠ separator ∧ c ∈ s := by
  induction s generalizing line with
  | nil => cases h
  | cons d ds ih =>
    rw [getLines] at h
    split at h
    · rcases List.mem_cons.mp h with rfl | h
      · cases hc
      · exact (ih h hc).imp_right (List.mem_cons_of_mem d)
    · next hd =>
      split at h
      · rw [List.mem_singleton] at h
        subst h
        rw [List.mem_singleton] at hc
        exact ⟨hc ▸ hd, hc ▸ List.mem_cons_self⟩
      · next first rest hrest =>
        rcases List.mem_cons.mp h with rfl | h
        · rcases List.mem_cons.mp hc with rfl | hc
          · exact ⟨hd, List.mem_cons_self⟩
          · exact (ih (hrest ▸ List.mem_cons_self) hc).imp_right (List.mem_cons_of_mem d)
        · exact (ih (hrest ▸ List.mem_cons_of_mem first h) hc).imp_right (List.mem_cons_of_mem d)

/-- A line is read up to its separator. -/
theorem getLines_append (h : separator ∉ line) (s : List Char) :
    getLines separator (line ++ separator :: s) = line :: getLines separator s := by
  induction line with
  | nil => rw [List.nil_append, getLines, if_pos rfl]
  | cons c cs ih =>
    have hc : c ≠ separator := fun heq => h (heq ▸ List.mem_cons_self)
    rw [List.cons_append, getLines, if_neg hc, ih fun hmem => h (List.mem_cons_of_mem c hmem)]

/-- The last line needs no separator. -/
theorem getLines_last (h : separator ∉ line) : getLines separator line = if line = [] then [] else [line] := by
  induction line with
  | nil => rfl
  | cons c cs ih =>
    have hc : c ≠ separator := fun heq => h (heq ▸ List.mem_cons_self)
    rw [getLines, if_neg hc, ih fun hmem => h (List.mem_cons_of_mem c hmem), if_neg (List.cons_ne_nil c cs)]
    by_cases hcs : cs = []
    · rw [if_pos hcs, hcs]
    · rw [if_neg hcs]

/-- Lines that end with a separator are read as they are. -/
theorem getLines_lines (h : ∀ line ∈ lines, separator ∉ line) :
    getLines separator (lines.flatMap fun line => line ++ [separator]) = lines := by
  induction lines with
  | nil => rfl
  | cons line lines ih =>
    rw [List.flatMap_cons, List.append_assoc, List.singleton_append, getLines_append (h line List.mem_cons_self),
      ih fun line' hline => h line' (List.mem_cons_of_mem line hline)]

/-- Of lines with separators between them a last one that is empty is not read. -/
theorem getLines_intercalate (h : ∀ line ∈ lines, separator ∉ line) :
    getLines separator ([separator].intercalate lines) = trimmed lines := by
  induction lines with
  | nil => rfl
  | cons line lines ih =>
    have hline := h line List.mem_cons_self
    cases lines with
    | nil =>
      rw [List.intercalate_singleton, getLines_last hline, trimmed]
      by_cases hempty : line = []
      · rw [if_pos hempty, hempty]
        rfl
      · have hlast : [line].getLast? ≠ some [] := fun heq => hempty (Option.some.inj heq)
        rw [if_neg hempty, if_neg hlast]
    | cons next lines =>
      rw [List.intercalate_cons_cons, List.append_assoc, List.singleton_append, getLines_append hline,
        ih fun line' hmem => h line' (List.mem_cons_of_mem line hmem), trimmed, trimmed, List.getLast?_cons_cons]
      split
      · rw [List.dropLast_cons_of_ne_nil (List.cons_ne_nil next lines)]
      · rfl

end Separators

section Files

variable {table : Csv} {content : Option (List Char)}

/-- The cells of a table that has been read are cells. -/
theorem plain_readCsv : ∀ row ∈ readCsv content, ∀ cell ∈ row, Plain cell := by
  intro row hrow cell hcell
  cases content with
  | none => cases hrow
  | some content =>
    obtain ⟨line, hline, rfl⟩ := List.mem_map.mp hrow
    exact ⟨fun hc => (mem_getLines hcell hc).1 rfl,
      fun hc => (mem_getLines hline (mem_getLines hcell hc).2).1 rfl⟩

/-- The characters of joined lines are the separator and those of the lines. -/
theorem mem_intercalate {separator c : Char} {lines : List (List Char)} (h : c ∈ [separator].intercalate lines) :
    c = separator ∨ ∃ line ∈ lines, c ∈ line := by
  induction lines with
  | nil => cases h
  | cons line lines ih =>
    cases lines with
    | nil =>
      rw [List.intercalate_singleton] at h
      exact Or.inr ⟨line, List.mem_cons_self, h⟩
    | cons next lines =>
      rw [List.intercalate_cons_cons, List.append_assoc, List.mem_append, List.singleton_append,
        List.mem_cons] at h
      rcases h with h | h | h
      · exact Or.inr ⟨line, List.mem_cons_self, h⟩
      · exact Or.inl h
      · exact (ih h).imp_right fun ⟨line', hmem, hc⟩ => ⟨line', List.mem_cons_of_mem line hmem, hc⟩

/-- A table that is written and read again has lost an empty cell at the end of each row. -/
theorem readCsv_writeCsv (h : ∀ row ∈ table, ∀ cell ∈ row, Plain cell) :
    readCsv (some (writeCsv table)) = table.map trimmed := by
  have hline : ∀ line ∈ table.map fun row => [','].intercalate row, '\n' ∉ line := by
    intro line hline hmem
    obtain ⟨row, hrow, rfl⟩ := List.mem_map.mp hline
    rcases mem_intercalate hmem with heq | ⟨cell, hcell, hc⟩
    · exact absurd heq (by decide)
    · exact (h row hrow cell hcell).2 hc
  have hlines := getLines_lines hline
  rw [List.flatMap_map] at hlines
  rw [readCsv, writeCsv, hlines, List.map_map]
  exact List.map_congr_left fun row hrow => getLines_intercalate fun cell hcell => (h row hrow cell hcell).1

end Files

section Rows

variable {header row : List (List Char)} {rows : Csv} {graph graph' column value c : List Char} {width i : ℕ}

/-- A row belongs to the graph whose name it begins with. -/
theorem isRowOf_iff : isRowOf graph row = true ↔ row.head? = some graph := beq_iff_eq

/-- The columns after one is added. -/
theorem mem_addColumn : c ∈ addColumn header column ↔ c ∈ header ∨ c = column := by
  unfold addColumn
  split
  · rw [List.mem_append, List.mem_singleton]
  · next h =>
    have hmem : column ∈ header := by
      by_contra hnot
      exact h (List.idxOf_eq_length_iff.mpr hnot)
    exact ⟨Or.inl, fun hc => hc.elim id fun heq => heq ▸ hmem⟩

/-- Columns stay where they are. -/
theorem idxOf_addColumn (h : c ∈ header ∨ c = column) : (addColumn header column).idxOf c = header.idxOf c := by
  unfold addColumn
  split
  · next hlast =>
    by_cases hc : c ∈ header
    · exact List.idxOf_append_of_mem hc
    · obtain rfl := h.resolve_left hc
      rw [List.idxOf_append_of_notMem hc, List.idxOf_cons_self, hlast, Nat.add_zero]
  · rfl

/-- The first column stays. -/
theorem head?_addColumn (h : header ≠ []) : (addColumn header column).head? = header.head? := by
  unfold addColumn
  split
  · exact List.head?_append_of_ne_nil _ h
  · rfl

/-- The number of cells of a widened row. -/
theorem length_widen : (widen width row).length = max width row.length := by
  rw [widen, List.length_append, List.length_replicate]
  omega

/-- Widening a row keeps its cells. -/
theorem getD_widen : (widen width row).getD i [] = row.getD i [] := by
  rw [widen]
  rcases Nat.lt_or_ge i row.length with h | h
  · rw [List.getD_append _ _ _ _ h]
  · rw [List.getD_append_right _ _ _ _ h, List.getD_eq_getElem?_getD,
      List.getElem?_getD_replicate_default_eq, List.getD_eq_default _ _ h]

/-- Filling up gives no row the name of a graph. -/
theorem isRowOf_widen (hgraph : graph ≠ []) : isRowOf graph (widen width row) = isRowOf graph row := by
  cases row with
  | nil =>
    rw [widen, List.nil_append]
    cases width with
    | zero => rfl
    | succ width =>
      have hne : ¬isRowOf graph (List.replicate (width + 1) []) = true := fun h =>
        hgraph (Option.some.inj (isRowOf_iff.mp h)).symm
      rw [Bool.not_eq_true] at hne
      exact hne
  | cons cell cells => rfl

/-- A row belongs to its graph after another cell is set. -/
theorem isRowOf_set (hi : i ≠ 0) : isRowOf graph (row.set i value) = isRowOf graph row := by
  cases row with
  | nil => rfl
  | cons cell cells =>
    cases i with
    | zero => exact absurd rfl hi
    | succ i => rfl

/-- The row of the graph is found at once. -/
theorem findGraph_cons_of_pos (h : isRowOf graph row = true) : findGraph (row :: rows) graph = 0 := by
  rw [findGraph, List.findIdx_cons, h]
  rfl

/-- The row of the graph is found in the rest. -/
theorem findGraph_cons_of_neg (h : ¬isRowOf graph row = true) :
    findGraph (row :: rows) graph = findGraph rows graph + 1 := by
  rw [Bool.not_eq_true] at h
  rw [findGraph, List.findIdx_cons, h]
  rfl

/-- The rows of the other graphs are found as they were. -/
theorem find?_modify (f : List (List Char) → List (List Char))
    (hf : ∀ row graph, isRowOf graph (f row) = isRowOf graph row) :
    (rows.modify (findGraph rows graph) f).find? (isRowOf graph') =
      if graph' = graph then (rows.find? (isRowOf graph)).map f else rows.find? (isRowOf graph') := by
  induction rows with
  | nil =>
    rw [List.modify_nil]
    split <;> rfl
  | cons row rows ih =>
    by_cases hrow : isRowOf graph row = true
    · rw [findGraph_cons_of_pos hrow, List.modify_zero_cons]
      split
      · next heq =>
        rw [heq, List.find?_cons_of_pos (by rwa [hf]), List.find?_cons_of_pos hrow, Option.map_some]
      · next hne =>
        have hother : ¬isRowOf graph' row = true := fun h =>
          hne (Option.some.inj ((isRowOf_iff.mp h).symm.trans (isRowOf_iff.mp hrow)))
        rw [List.find?_cons_of_neg (by rwa [hf]), List.find?_cons_of_neg hother]
    · rw [findGraph_cons_of_neg hrow, List.modify_succ_cons, List.find?_cons, ih, List.find?_cons_of_neg hrow]
      split
      · next hfound =>
        rw [if_neg]
        · rw [List.find?_cons_of_pos hfound]
        · intro heq
          exact hrow (heq ▸ hfound)
      · next hother => rw [List.find?_cons_of_neg (Bool.not_eq_true _ ▸ hother)]

/-- What is found after a row has been added for a graph that had none. -/
theorem find?_addGraph (hwidth : 0 < width) : (addGraph width rows graph).find? (isRowOf graph') =
    (rows.find? (isRowOf graph')).or (if graph' = graph then some ((List.replicate width []).set 0 graph)
      else none) := by
  obtain ⟨width, rfl⟩ := Nat.exists_eq_succ_of_ne_zero hwidth.ne'
  have hnew : isRowOf graph' ((List.replicate (width + 1) []).set 0 graph) = true ↔ graph = graph' :=
    isRowOf_iff.trans Option.some_inj
  unfold addGraph
  split
  · rw [List.find?_append, List.find?_singleton]
    by_cases heq : graph' = graph
    · rw [if_pos heq, if_pos (hnew.mpr heq.symm)]
    · rw [if_neg heq, if_neg fun h => heq (hnew.mp h).symm]
  · next h =>
    by_cases heq : graph' = graph
    · have hsome : (rows.find? (isRowOf graph')).isSome = true := by
        rw [List.find?_isSome, heq]
        by_contra hnone
        refine h (List.findIdx_eq_length.mpr fun row hrow => ?_)
        rw [← Bool.not_eq_true]
        exact fun hfound => hnone ⟨row, hrow, hfound⟩
      rw [Option.or_of_isSome hsome]
    · rw [if_neg heq, Option.or_none]

/-- An added row stands where the row of the graph is looked for. -/
theorem findGraph_addGraph (hwidth : 0 < width) :
    findGraph (addGraph width rows graph) graph = findGraph rows graph := by
  obtain ⟨width, rfl⟩ := Nat.exists_eq_succ_of_ne_zero hwidth.ne'
  have hnew : isRowOf graph ((List.replicate (width + 1) []).set 0 graph) = true := isRowOf_iff.mpr rfl
  unfold addGraph
  split
  · next h =>
    unfold findGraph at h ⊢
    rw [List.findIdx_append, if_neg (by omega), List.findIdx_cons, hnew, h]
    exact Nat.zero_add _
  · rfl

/-- The rows that a change of the table leaves. -/
theorem find?_update (hwidth : 0 < width) (hi : i ≠ 0) (hgraph' : graph' ≠ []) :
    ((addGraph width (rows.map (widen width)) graph).modify (findGraph (rows.map (widen width)) graph)
        fun row => row.set i value).find? (isRowOf graph') =
      if graph' = graph then
        some ((((rows.find? (isRowOf graph)).map (widen width)).getD
          ((List.replicate width []).set 0 graph)).set i value)
      else (rows.find? (isRowOf graph')).map (widen width) := by
  have hwiden (g : List Char) (hg : g ≠ []) :
      (rows.map (widen width)).find? (isRowOf g) = (rows.find? (isRowOf g)).map (widen width) := by
    have hcomp : isRowOf g ∘ widen width = isRowOf g := funext fun row => isRowOf_widen hg
    rw [List.find?_map, hcomp]
  rw [← findGraph_addGraph hwidth, find?_modify _ fun row g => isRowOf_set hi, find?_addGraph hwidth,
    find?_addGraph hwidth,
    if_pos rfl]
  by_cases heq : graph' = graph
  · subst heq
    rw [if_pos rfl, if_pos rfl, hwiden _ hgraph']
    cases rows.find? (isRowOf graph') <;> rfl
  · rw [if_neg heq, if_neg heq, if_neg heq, Option.or_none, hwiden _ hgraph']

/-- Widening the row that was found keeps its cells. -/
theorem getD_find?_widen (row? : Option (List (List Char))) :
    ((row?.map (widen width)).getD []).getD i [] = (row?.getD []).getD i [] := by
  cases row? with
  | none => rfl
  | some row => exact getD_widen

/-- The cell that is set has the new value. -/
theorem getD_set_self (h : i < row.length) : (row.set i value).getD i [] = value := by
  rw [List.getD_eq_getElem?_getD, List.getElem?_set_self h, Option.getD_some]

/-- The other cells of a row keep their values. -/
theorem getD_set_of_ne {j : ℕ} (h : i ≠ j) : (row.set i value).getD j [] = row.getD j [] := by
  rw [List.getD_eq_getElem?_getD, List.getElem?_set_ne h, List.getD_eq_getElem?_getD]

/-- A column other than the first one stands behind it. -/
theorem idxOf_ne_zero {name : List Char} (hname : header.head? = some name) (hc : c ≠ name) :
    header.idxOf c ≠ 0 := by
  cases header with
  | nil => cases hname
  | cons first columns =>
    obtain rfl := Option.some.inj hname
    rw [List.idxOf_cons_ne _ hc.symm]
    exact Nat.succ_ne_zero _

/-- The column stands in the extended header. -/
theorem idxOf_lt_addColumn : header.idxOf column < (addColumn header column).length := by
  rw [← idxOf_addColumn (Or.inr rfl)]
  exact List.idxOf_lt_length_of_mem (mem_addColumn.mpr (Or.inr rfl))

/-- A change of the table changes what is looked up at one place. -/
theorem cellOf_updateTable_cons {name : List Char} (h : Proper name (header :: rows)) (hcolumn : column ≠ name)
    (hgraph' : graph' ≠ []) (hc : c ≠ name) : cellOf (updateTable (header :: rows) graph column value) graph' c =
      if graph' = graph ∧ c = column then value else cellOf (header :: rows) graph' c := by
  obtain ⟨hname, _, hrows⟩ := h
  have hlt : header.idxOf column < (addColumn header column).length := idxOf_lt_addColumn
  rw [updateTable, if_neg (List.cons_ne_nil _ _)]
  dsimp only [cellOf]
  rw [find?_update (by omega) (idxOf_ne_zero hname hcolumn) hgraph']
  by_cases hmem : c ∈ header ∨ c = column
  · rw [if_pos (mem_addColumn.mpr hmem), idxOf_addColumn hmem]
    by_cases hgraph : graph' = graph
    · subst hgraph
      rw [if_pos rfl, Option.getD_some]
      by_cases heq : c = column
      · subst heq
        rw [if_pos ⟨rfl, rfl⟩, getD_set_self]
        cases rows.find? (isRowOf graph') with
        | none =>
          rw [Option.map_none, Option.getD_none, List.length_set, List.length_replicate]
          exact hlt
        | some row =>
          rw [Option.map_some, Option.getD_some, length_widen]
          exact lt_of_lt_of_le hlt (le_max_left _ _)
      · have hmem' := hmem.resolve_right heq
        have hne : header.idxOf column ≠ header.idxOf c := fun h =>
          heq ((List.idxOf_inj hmem').mp h.symm)
        rw [if_neg fun h => heq h.2, if_pos hmem', getD_set_of_ne hne]
        cases rows.find? (isRowOf graph') with
        | none =>
          rw [Option.map_none, Option.getD_none, getD_set_of_ne (idxOf_ne_zero hname hc).symm,
            List.getD_eq_getElem?_getD,
            List.getElem?_getD_replicate_default_eq]
          rfl
        | some row => exact getD_widen
    · rw [if_neg hgraph, if_neg fun h => hgraph h.1, getD_find?_widen]
      by_cases hold : c ∈ header
      · rw [if_pos hold]
      · -- No row has a cell in a column that is new.
        rw [if_neg hold, List.idxOf_of_notMem hold]
        cases hfind : rows.find? (isRowOf graph') with
        | none => rfl
        | some row => exact List.getD_eq_default _ _ (hrows row (List.mem_of_find?_eq_some hfind))
  · rw [not_or] at hmem
    rw [if_neg fun h => (mem_addColumn.mp h).elim hmem.1 hmem.2, if_neg fun h => hmem.2 h.2, if_neg hmem.1]

/-- The table of a file that does not exist is made from its header. -/
theorem updateTable_nil : updateTable [] graph column value =
    updateTable [["graph".toList, column]] graph column value := rfl

/-- A new table is proper. -/
theorem Proper.first (hcolumn : column ≠ []) : Proper "graph".toList [["graph".toList, column]] := by
  refine ⟨rfl, fun h => ?_, fun row hrow => by cases hrow⟩
  rcases List.mem_cons.mp h with h | h
  · cases h
  · exact hcolumn (List.mem_singleton.mp h).symm

/-- A table after a cell is set differs in that cell alone. -/
theorem cellOf_updateTable {table : Csv} {name : List Char} (h : Proper name table) (hcolumn : column ≠ name)
    (hnonempty : column ≠ []) (hgraph' : graph' ≠ []) (hc : c ≠ name) :
      cellOf (updateTable table graph column value) graph' c =
      if graph' = graph ∧ c = column then value else cellOf table graph' c := by
  cases table with
  | nil =>
    obtain rfl : name = "graph".toList := h
    rw [updateTable_nil, cellOf_updateTable_cons (.first hnonempty) hcolumn hgraph' hc]
    congr 1
    dsimp only [cellOf]
    split <;> rfl
  | cons header rows => exact cellOf_updateTable_cons h hcolumn hgraph' hc

/-- A change of the table makes a row for its graph and for no other one. -/
theorem find?_updateTable {table : Csv} {name : List Char} (h : Proper name table) (hcolumn : column ≠ name)
    (hnonempty : column ≠ []) (hgraph' : graph' ≠ []) :
    ((updateTable table graph column value).tail.find? (isRowOf graph')).isSome = true ↔
      graph' = graph ∨ (table.tail.find? (isRowOf graph')).isSome = true := by
  have hcons (header : List (List Char)) (rows : Csv) (h : Proper name (header :: rows)) :
      ((updateTable (header :: rows) graph column value).tail.find? (isRowOf graph')).isSome = true ↔
        graph' = graph ∨ (rows.find? (isRowOf graph')).isSome = true := by
    have hlt : header.idxOf column < (addColumn header column).length := idxOf_lt_addColumn
    rw [updateTable, if_neg (List.cons_ne_nil _ _)]
    dsimp only [List.tail_cons]
    rw [find?_update (by omega) (idxOf_ne_zero h.1 hcolumn) hgraph']
    split
    · next heq => exact iff_of_true rfl (Or.inl heq)
    · next hne => rw [Option.isSome_map, or_iff_right hne]
  cases table with
  | nil =>
    obtain rfl : name = "graph".toList := h
    exact hcons _ _ (.first hnonempty)
  | cons header rows => exact hcons header rows h

/-- The entries of a list after one of them is modified. -/
theorem mem_modify {α : Type} {l : List α} {f : α → α} {x : α} (h : x ∈ l.modify i f) :
    ∃ y ∈ l, x = y ∨ x = f y := by
  induction l generalizing i with
  | nil =>
    rw [List.modify_nil] at h
    cases h
  | cons y l ih =>
    cases i with
    | zero =>
      rw [List.modify_zero_cons] at h
      rcases List.mem_cons.mp h with rfl | h
      · exact ⟨y, List.mem_cons_self, Or.inr rfl⟩
      · exact ⟨x, List.mem_cons_of_mem y h, Or.inl rfl⟩
    | succ i =>
      rw [List.modify_succ_cons] at h
      rcases List.mem_cons.mp h with rfl | h
      · exact ⟨x, List.mem_cons_self, Or.inl rfl⟩
      · obtain ⟨z, hz, heq⟩ := ih h
        exact ⟨z, List.mem_cons_of_mem y hz, heq⟩

/-- Where the rows of a changed table come from. -/
theorem mem_updated {row : List (List Char)}
    (h : row ∈ (addGraph width (rows.map (widen width)) graph).modify (findGraph (rows.map (widen width)) graph)
      fun row => row.set i value) :
    ∃ old, ((∃ row' ∈ rows, old = widen width row') ∨ old = (List.replicate width []).set 0 graph) ∧
      (row = old ∨ row = old.set i value) := by
  obtain ⟨old, hold, heq⟩ := mem_modify h
  refine ⟨old, ?_, heq⟩
  have hmem : old ∈ rows.map (widen width) ∨ old = (List.replicate width []).set 0 graph := by
    unfold addGraph at hold
    split at hold
    · exact (List.mem_append.mp hold).imp_right List.mem_singleton.mp
    · exact Or.inl hold
  exact hmem.imp_left fun hmap => (List.mem_map.mp hmap).imp fun row' hrow' => ⟨hrow'.1, hrow'.2.symm⟩

/-- Setting a cell keeps a table with a header proper. -/
theorem Proper.update_cons {name : List Char} (h : Proper name (header :: rows)) (hcolumn : column ≠ []) :
    Proper name (updateTable (header :: rows) graph column value) := by
  obtain ⟨hname, hcolumns, hrows⟩ := h
  have hne : header ≠ [] := by
    rintro rfl
    cases hname
  have hle : header.length ≤ (addColumn header column).length := by
    unfold addColumn
    split
    · rw [List.length_append]
      exact Nat.le_add_right _ _
    · exact le_rfl
  rw [updateTable, if_neg (List.cons_ne_nil _ _)]
  refine ⟨(head?_addColumn hne).trans hname, fun hmem => ?_, fun row hrow => ?_⟩
  · exact (mem_addColumn.mp hmem).elim hcolumns hcolumn.symm
  · obtain ⟨old, hold, heq⟩ := mem_updated hrow
    have hlength : old.length ≤ (addColumn header column).length := by
      rcases hold with ⟨row', hrow', rfl⟩ | rfl
      · rw [length_widen]
        exact max_le le_rfl ((hrows row' hrow').trans hle)
      · rw [List.length_set, List.length_replicate]
    rcases heq with rfl | rfl
    · exact hlength
    · rwa [List.length_set]

/-- Setting a cell keeps a table proper. -/
theorem Proper.update {table : Csv} {name : List Char} (h : Proper name table) (hcolumn : column ≠ []) :
    Proper name (updateTable table graph column value) := by
  cases table with
  | nil =>
    obtain rfl : name = "graph".toList := h
    exact (Proper.first hcolumn).update_cons hcolumn
  | cons header rows => exact h.update_cons hcolumn

/-- After a cell of a table with a header is set all cells can stand in a file. -/
theorem plain_updateTable_cons (h : ∀ row ∈ header :: rows, ∀ cell ∈ row, Plain cell) (hgraph : Plain graph)
    (hcolumn : Plain column) (hvalue : Plain value) :
    ∀ row ∈ updateTable (header :: rows) graph column value, ∀ cell ∈ row, Plain cell := by
  have hempty : Plain [] := ⟨List.not_mem_nil, List.not_mem_nil⟩
  rw [updateTable, if_neg (List.cons_ne_nil _ _)]
  intro row hrow cell hcell
  rcases List.mem_cons.mp hrow with rfl | hrow
  · rcases mem_addColumn.mp hcell with hcell | rfl
    · exact h header List.mem_cons_self cell hcell
    · exact hcolumn
  · obtain ⟨old, hold, heq⟩ := mem_updated hrow
    have hplain : ∀ cell ∈ old, Plain cell := by
      intro cell hcell
      rcases hold with ⟨row', hrow', rfl⟩ | rfl
      · rcases List.mem_append.mp hcell with hcell | hcell
        · exact h row' (List.mem_cons_of_mem header hrow') cell hcell
        · rwa [List.eq_of_mem_replicate hcell]
      · rcases List.mem_or_eq_of_mem_set hcell with hcell | rfl
        · rwa [List.eq_of_mem_replicate hcell]
        · exact hgraph
    rcases heq with rfl | rfl
    · exact hplain cell hcell
    · rcases List.mem_or_eq_of_mem_set hcell with hcell | rfl
      · exact hplain cell hcell
      · exact hvalue

/-- After a cell is set all cells of a table can stand in a file. -/
theorem plain_updateTable {table : Csv} (h : ∀ row ∈ table, ∀ cell ∈ row, Plain cell) (hgraph : Plain graph)
    (hcolumn : Plain column) (hvalue : Plain value) :
    ∀ row ∈ updateTable table graph column value, ∀ cell ∈ row, Plain cell := by
  cases table with
  | nil =>
    refine plain_updateTable_cons (fun row hrow cell hcell => ?_) hgraph hcolumn hvalue
    obtain rfl := List.mem_singleton.mp hrow
    rcases List.mem_cons.mp hcell with rfl | hcell
    · exact ⟨by decide, by decide⟩
    · rwa [List.mem_singleton.mp hcell]
  | cons header rows => exact plain_updateTable_cons h hgraph hcolumn hvalue

end Rows

section Trimming

variable {header row : List (List Char)} {rows table : Csv} {graph name c : List Char} {i : ℕ}

/-- A row without empty cells is not trimmed. -/
theorem trimmed_eq_self (h : [] ∉ row) : trimmed row = row := by
  have hlast : row.getLast? ≠ some [] := fun heq => h (List.mem_of_getLast? heq)
  rw [trimmed, if_neg hlast]

/-- Trimming does not lengthen a row. -/
theorem length_trimmed_le : (trimmed row).length ≤ row.length := by
  unfold trimmed
  split
  · rw [List.length_dropLast]
    exact Nat.sub_le _ _
  · exact le_rfl

/-- Trimming a row keeps its cells. -/
theorem getD_trimmed : (trimmed row).getD i [] = row.getD i [] := by
  unfold trimmed
  split
  · next h =>
    obtain ⟨cells, rfl⟩ := List.getLast?_eq_some_iff.mp h
    rw [List.dropLast_concat]
    rcases Nat.lt_or_ge i cells.length with hi | hi
    · rw [List.getD_append _ _ _ _ hi]
    · rw [List.getD_append_right _ _ _ _ hi, List.getD_eq_default _ _ hi]
      cases i - cells.length <;> rfl
  · rfl

/-- Trimming a row keeps which graph it belongs to. -/
theorem isRowOf_trimmed (hgraph : graph ≠ []) : isRowOf graph (trimmed row) = isRowOf graph row := by
  unfold trimmed
  split
  · next h =>
    obtain ⟨cells, rfl⟩ := List.getLast?_eq_some_iff.mp h
    rw [List.dropLast_concat]
    cases cells with
    | nil =>
      have hne : ¬isRowOf graph [[]] = true := fun h => hgraph (Option.some.inj (isRowOf_iff.mp h)).symm
      rw [Bool.not_eq_true] at hne
      exact hne.symm
    | cons cell cells => rfl
  · rfl

/-- Trimming the rows keeps a table proper. -/
theorem Proper.trim (h : Proper name table) : Proper name (table.map trimmed) := by
  cases table with
  | nil => exact h
  | cons header rows =>
    obtain ⟨hname, hcolumns, hrows⟩ := h
    rw [List.map_cons, trimmed_eq_self hcolumns]
    refine ⟨hname, hcolumns, fun row hrow => ?_⟩
    obtain ⟨row', hrow', rfl⟩ := List.mem_map.mp hrow
    exact length_trimmed_le.trans (hrows row' hrow')

/-- Nobody misses what reading drops. -/
theorem cellOf_trim (h : Proper name table) (hgraph : graph ≠ []) :
    cellOf (table.map trimmed) graph c = cellOf table graph c := by
  cases table with
  | nil => rfl
  | cons header rows =>
    have hcomp : isRowOf graph ∘ trimmed = isRowOf graph := funext fun row => isRowOf_trimmed hgraph
    rw [List.map_cons, trimmed_eq_self h.2.1]
    dsimp only [cellOf]
    rw [List.find?_map, hcomp]
    split
    · cases rows.find? (isRowOf graph) with
      | none => rfl
      | some row => exact getD_trimmed
    · rfl

end Trimming

/-- One call of `update_csv_cell`. -/
structure Update where
  graph : List Char
  column : List Char
  value : List Char

/-- The texts of the call can be cells, and the column is not that of the names. -/
structure Update.Fits (name : List Char) (u : Update) : Prop where
  graph : Plain u.graph
  column : Plain u.column
  value : Plain u.value
  nonempty : u.column ≠ []
  ne_name : u.column ≠ name

/-- The content of the file after some calls. -/
def afterUpdates (content : Option (List Char)) (updates : List Update) : Option (List Char) :=
  updates.foldl (fun content u => some (updateCsvCell content u.graph u.column u.value)) content

/-- What the last of the calls for a graph and a column has written. -/
def lastValue (updates : List Update) (graph column : List Char) : Option (List Char) :=
  (updates.reverse.find? fun u => u.graph = graph ∧ u.column = column).map Update.value

section Store

variable {content : Option (List Char)} {updates : List Update} {u : Update} {name graph column : List Char}

/-- The file is read back as the table after the cell is set. -/
theorem readCsv_updateCsvCell (hfits : u.Fits name) :
    readCsv (some (updateCsvCell content u.graph u.column u.value)) =
    (updateTable (readCsv content) u.graph u.column u.value).map trimmed :=
  readCsv_writeCsv (plain_updateTable plain_readCsv hfits.graph hfits.column hfits.value)

/-- The file stays a proper table. -/
theorem Proper.updateCsvCell (h : Proper name (readCsv content)) (hfits : u.Fits name) :
    Proper name (readCsv (some (updateCsvCell content u.graph u.column u.value))) := by
  rw [readCsv_updateCsvCell hfits]
  exact (h.update hfits.nonempty).trim

/-- The cells of the file after an update. -/
theorem cellOf_updateCsvCell (h : Proper name (readCsv content)) (hfits : u.Fits name) (hgraph : graph ≠ [])
    (hcolumn : column ≠ name) : cellOf (readCsv (some (Benchmark.updateCsvCell content u.graph u.column u.value)))
      graph column =
      if graph = u.graph ∧ column = u.column then u.value else cellOf (readCsv content) graph column := by
  rw [readCsv_updateCsvCell hfits, cellOf_trim (h.update hfits.nonempty) hgraph,
    cellOf_updateTable h hfits.ne_name hfits.nonempty hgraph hcolumn]

/-- The table is a store: from any proper table, after any calls, the cell of a graph in a column is
what the last call for them has written, or what it was if there has been none; in particular no call
touches another cell. -/
theorem afterUpdates_cellOf (hproper : Proper name (readCsv content)) (hfits : ∀ u ∈ updates, u.Fits name)
    (hgraph : graph ≠ []) (hcolumn : column ≠ name) :
    Proper name (readCsv (afterUpdates content updates)) ∧
      cellOf (readCsv (afterUpdates content updates)) graph column =
      (lastValue updates graph column).getD (cellOf (readCsv content) graph column) := by
  induction updates using List.reverseRecOn with
  | nil => exact ⟨hproper, rfl⟩
  | append_singleton updates u ih =>
    obtain ⟨hold, hcell⟩ := ih fun u' hu' => hfits u' (List.mem_append_left _ hu')
    have hu := hfits u (List.mem_append_right _ List.mem_cons_self)
    rw [afterUpdates, List.foldl_append]
    change Proper name (readCsv (some (updateCsvCell (afterUpdates content updates) _ _ _))) ∧
      cellOf (readCsv (some (updateCsvCell (afterUpdates content updates) _ _ _))) graph column = _
    refine ⟨hold.updateCsvCell hu, ?_⟩
    rw [cellOf_updateCsvCell hold hu hgraph hcolumn, hcell, lastValue, lastValue, List.reverse_append,
      List.reverse_singleton,
      List.singleton_append, List.find?_cons]
    by_cases hsame : graph = u.graph ∧ column = u.column
    · rw [if_pos hsame, decide_eq_true ⟨hsame.1.symm, hsame.2.symm⟩]
      rfl
    · rw [if_neg hsame, decide_eq_false fun h => hsame ⟨h.1.symm, h.2.symm⟩]

/-- Two graphs in a file that does not exist yet; one of the cells is written twice. -/
theorem afterUpdates_cellOf_twice :
    cellOf (readCsv (afterUpdates none [⟨"road".toList, "bfs".toList, "1".toList⟩,
      ⟨"web".toList, "kcore".toList, "2".toList⟩,
      ⟨"road".toList, "bfs".toList, "3".toList⟩])) "road".toList "bfs".toList = "3".toList := by
  have hproper : Proper "graph".toList (readCsv none) := rfl
  refine (afterUpdates_cellOf hproper (fun u hu => ?_) (by decide) (by decide)).2
  fin_cases hu <;> exact ⟨⟨by decide, by decide⟩, ⟨by decide, by decide⟩,
    ⟨by decide, by decide⟩, by decide, by decide⟩

end Store

end Benchmark

end ToggleTree
