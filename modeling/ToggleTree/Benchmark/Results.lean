import ToggleTree.Benchmark.StoredSources
import ToggleTree.Checked.Reduce
import ToggleTree.Primitives.Hash

/-!
# Recording the results of the benchmarks

Every benchmark hands its result to `process_result`, which prints the largest entry and a hash, stores
the time and the hash in one table each, and can write the entries themselves into a file. The hash
mixes every entry with its position, so the halves may be mixed in any order.
-/

namespace ToggleTree

open Checked Primitives

namespace Benchmark

/-- A call of `process_result`. The entries are unsigned numbers of 16, 32 or 64 bits, which streams write
as decimal numbers; an entry of 8 bits would be written as a character. -/
structure Call where
  width : ℕ
  width_mem : width ∈ [16, 32, 64]
  result : Array (BitVec width)
  seconds : List Char
  csvpath : List Char
  row : List Char
  column : List Char
  dumppath : List Char

/-- The entries have bits, so that the largest number is not 0. -/
theorem Call.width_pos (call : Call) : 0 < call.width := by
  have hmem := call.width_mem
  simp only [List.mem_cons, List.not_mem_nil, or_false] at hmem
  omega

/-- The entries fit into a word. -/
theorem Call.width_le (call : Call) : call.width ≤ 64 := by
  have hmem := call.width_mem
  simp only [List.mem_cons, List.not_mem_nil, or_false] at hmem
  omega

section Code

variable {w : ℕ} (result : Array (BitVec w))

/-- An entry and its position, mixed. -/
def mix (x : BitVec w) (i : ℕ) : Word := hash64 (x.setWidth 64) + hash64 (BitVec.ofNat 64 i)

/-- The mixed entry at a position. -/
def mixAt (i : ℕ) : Option Word := do
  let x ← result[i]?
  some (mix x i)

/-- The entries from `l` up to `r`, mixed in halves. -/
def reduceMix (l r : ℕ) : Option Word :=
  if l = r then some 0
  else if r - l ≤ 1024 then do
    let aggregate ← mixAt result l
    loop (l + 1) r aggregate fun i aggregate => do
      let x ← mixAt result i
      some (aggregate ^^^ x)
  else do
    let m := l + (r - l) / 2
    let left ← reduceMix l m
    let right ← reduceMix m r
    some (left ^^^ right)
termination_by r - l

/-- The two halves of a mix, folded into one. -/
def folded (resultMix : Word) : BitVec 32 := resultMix.setWidth 32 ^^^ (resultMix >>> 32).setWidth 32

/-- A number in hexadecimal, filled up with zeros to eight digits. -/
def hexText (x : BitVec 32) : List Char :=
  let digits := Nat.toDigits 16 x.toNat
  List.replicate (8 - digits.length) '0' ++ digits

/-- `getHash` -/
def getHash : Option (List Char) := do
  let resultMix ← reduceMix result 0 result.size
  some (hexText (folded resultMix))

/-- The greater of two entries. -/
def stdMax (x y : BitVec w) : BitVec w := if x < y then y else x

/-- The largest entry from `l` up to `r` that is not the largest number, and 0 if there is none. -/
def reduceMax (l r : ℕ) : Option (BitVec w) :=
  if r - l ≤ 1024 then
    loop l r 0 fun i aggregate => do
      let x ← result[i]?
      some (if x ≠ BitVec.allOnes w then stdMax x aggregate else aggregate)
  else do
    let m := l + (r - l) / 2
    let left ← reduceMax l m
    let right ← reduceMax m r
    some (if left = BitVec.allOnes w then right else stdMax left right)
termination_by r - l

/-- The entries as they are written into a file, each as a decimal number. -/
def dumpText : List Char := (result.toList.flatMap fun x => decimal x.toNat ++ [',']) ++ ['\n']

end Code

/-- The contents of the files. -/
abbrev Files := List Char → Option (List Char)

/-- The file of the running times. -/
def benchmarkFile (csvpath : List Char) : List Char := csvpath ++ "/benchmark.csv".toList

/-- The file of the hashes. -/
def verifyFile (csvpath : List Char) : List Char := csvpath ++ "/verify.csv".toList

/-- One cell of a file is set. -/
def updateFile (files : Files) (path graph column value : List Char) : Files :=
  Function.update files path (some (updateCsvCell (files path) graph column value))

/-- What a call prints. -/
structure Report where
  maximum : ℕ
  hash : List Char
deriving DecidableEq

/-- `process_result` -/
def processResult (files : Files) (call : Call) : Option (Report × Files) := do
  let resultMax ← reduceMax call.result 0 call.result.size
  let resHash ← getHash call.result
  let files := updateFile files (benchmarkFile call.csvpath) call.row call.column call.seconds
  let files := updateFile files (verifyFile call.csvpath) call.row call.column resHash
  let files := if call.dumppath ≠ "disabled".toList ∧ call.dumppath ≠ [] then
    Function.update files call.dumppath (some (dumpText call.result)) else files
  some (⟨resultMax.toNat, resHash⟩, files)

/-- One call after the other. -/
def processResults (files : Files) : List Call → Option (List Report × Files)
  | [] => some ([], files)
  | call :: calls => do
    let (report, files) ← processResult files call
    let (reports, files) ← processResults files calls
    some (report :: reports, files)

section Mixing

variable {w : ℕ} {result result' : Array (BitVec w)} {l r m n i j : ℕ}

/-- The mixed entries up to `n`. -/
def mixed (result : Array (BitVec w)) (l r : ℕ) : Word :=
  ((List.range' l (r - l)).map fun i => mix (result.getD i 0) i).foldl (· ^^^ ·) 0#64

/-- A read inside the array returns the entry. -/
theorem getElem?_eq_getD (hi : i < result.size) : result[i]? = some (result.getD i 0) := by
  rw [Array.getElem?_eq_getElem hi, Array.getD, dif_pos hi]
  rfl

/-- The mixed value of a position inside the array. -/
theorem mixAt_eq (hi : i < result.size) : mixAt result i = some (mix (result.getD i 0) i) := by
  rw [mixAt, getElem?_eq_getD hi]
  rfl

/-- The mixed value of no positions. -/
theorem mixed_self : mixed result l l = 0#64 := by
  rw [mixed, Nat.sub_self]
  rfl

/-- The start value comes out of an exclusive or. -/
theorem foldl_xor (init : Word) (words : List Word) :
    words.foldl (· ^^^ ·) init = init ^^^ words.foldl (· ^^^ ·) 0#64 := by
  calc words.foldl (· ^^^ ·) init = words.foldl (· ^^^ ·) (init ^^^ 0#64) := by rw [BitVec.xor_zero]
    _ = init ^^^ words.foldl (· ^^^ ·) 0#64 := List.foldl_assoc

/-- Mixing two halves on their own. -/
theorem mixed_append (hl : l ≤ m) (hr : m ≤ r) : mixed result l m ^^^ mixed result m r = mixed result l r := by
  have hrange : List.range' l (r - l) = List.range' l (m - l) ++ List.range' (l + (m - l)) (r - m) := by
    rw [List.range'_append_1]
    congr 1
    omega
  rw [Nat.add_sub_cancel' hl] at hrange
  rw [mixed, mixed, mixed, hrange, List.map_append, List.foldl_append, foldl_xor (List.foldl _ _ _)]

/-- Wherever the ranges are split, the entries are mixed one after the other. -/
theorem reduceMix_eq (hl : l ≤ r) (hr : r ≤ result.size) : reduceMix result l r = some (mixed result l r) := by
  induction hn : r - l using Nat.strong_induction_on generalizing l r with
  | _ length ih =>
    rw [reduceMix]
    split
    · next h => rw [h, mixed_self]; rfl
    · next hne =>
      split
      · rw [mixAt_eq (by omega)]
        change loop (l + 1) r (mix (result.getD l 0) l) _ = _
        rw [loop_foldl (· ^^^ ·) (by omega) _ fun i hi hi' => mixAt_eq (by omega), mixed,
          show r - l = r - (l + 1) + 1 by omega, List.range'_succ, List.map_cons, List.foldl_cons,
            BitVec.zero_xor]
      · have hleft := ih ((r - l) / 2) (by omega) (show l ≤ l + (r - l) / 2 by omega) (by omega) (by omega)
        have hright := ih (r - (l + (r - l) / 2)) (by omega) (show l + (r - l) / 2 ≤ r by omega) hr rfl
        dsimp only
        rw [hleft, hright]
        exact congrArg some (mixed_append (by omega) (by omega))

/-- One more position is mixed. -/
theorem mixed_succ : mixed result 0 (n + 1) = mixed result 0 n ^^^ mix (result.getD n 0) n := by
  rw [mixed, mixed, Nat.sub_zero, Nat.sub_zero, List.range'_1_concat, List.map_append,
    List.foldl_append, Nat.zero_add]
  rfl

/-- Entries with the same mixed value at one position are the same. -/
theorem mix_inj {x y : BitVec w} (hw : w ≤ 64) : mix x i = mix y i ↔ x = y := by
  refine ⟨fun h => ?_, fun h => by rw [h]⟩
  rw [mix, mix, add_left_inj] at h
  have hwide : x.setWidth 64 = y.setWidth 64 := unhash64_hash64.injective h
  apply BitVec.eq_of_toNat_eq
  have hnat := congrArg BitVec.toNat hwide
  rwa [BitVec.toNat_setWidth_of_le hw, BitVec.toNat_setWidth_of_le hw] at hnat

/-- Two results that agree before `n`. -/
theorem mixed_congr (h : ∀ i < n, result.getD i 0 = result'.getD i 0) : mixed result 0 n = mixed result' 0 n := by
  induction n with
  | zero => rw [mixed_self, mixed_self]
  | succ n ih => rw [mixed_succ, mixed_succ, ih fun i hi => h i (by omega), h n (by omega)]

/-- If a single entry changes, so does the mix. -/
theorem mixed_ne (hw : w ≤ 64) (hj : j < n) (hne : result.getD j 0 ≠ result'.getD j 0)
    (h : ∀ i < n, i ≠ j → result.getD i 0 = result'.getD i 0) : mixed result 0 n ≠ mixed result' 0 n := by
  induction n with
  | zero => exact absurd hj (Nat.not_lt_zero j)
  | succ n ih =>
    rw [mixed_succ, mixed_succ]
    by_cases hlast : j = n
    · subst hlast
      rw [mixed_congr fun i hi => h i (by omega) (by omega), Ne, BitVec.xor_right_inj, mix_inj hw]
      exact hne
    · rw [h n (by omega) (Ne.symm hlast), Ne, BitVec.xor_left_inj]
      exact ih (by omega) fun i hi => h i (by omega)

end Mixing

section Hexadecimal

variable {c : Char} {d n : ℕ}

/-- The value of a hexadecimal digit. -/
def hexDigit (c : Char) : ℕ := if c.isDigit then c.toNat - '0'.toNat else c.toNat - 'a'.toNat + 10

/-- The number that hexadecimal digits stand for. -/
def hexValue (digits : List Char) : ℕ := digits.foldl (fun value c => 16 * value + hexDigit c) 0

/-- A digit is read as what it was written for. -/
theorem hexDigit_digitChar (h : d < 16) : hexDigit d.digitChar = d := by
  interval_cases d <;> rfl

/-- A digit is neither a comma nor a line feed. -/
theorem plain_digitChar (h : d < 16) : d.digitChar ≠ ',' ∧ d.digitChar ≠ '\n' := by
  interval_cases d <;> decide

/-- Hexadecimal digits are read as the number they were written for. -/
theorem hexValue_toDigits : hexValue (Nat.toDigits 16 n) = n := by
  induction n using Nat.strong_induction_on with
  | _ n ih =>
    rw [Nat.toDigits_eq_if (by decide)]
    split
    · next h => exact (Nat.zero_add _).trans (hexDigit_digitChar h)
    · next h =>
      rw [hexValue, List.foldl_append]
      change 16 * hexValue (Nat.toDigits 16 (n / 16)) + hexDigit (n % 16).digitChar = n
      rw [ih (n / 16) (by omega), hexDigit_digitChar (Nat.mod_lt n (by decide))]
      omega

/-- The digits of a number are characters of digits. -/
theorem mem_toDigits (h : c ∈ Nat.toDigits 16 n) : ∃ d < 16, c = d.digitChar := by
  induction n using Nat.strong_induction_on with
  | _ n ih =>
    rw [Nat.toDigits_eq_if (by decide)] at h
    split at h
    · next hn => exact ⟨n, hn, List.mem_singleton.mp h⟩
    · next hn =>
      rcases List.mem_append.mp h with h | h
      · exact ih (n / 16) (by omega) h
      · exact ⟨n % 16, Nat.mod_lt n (by decide), List.mem_singleton.mp h⟩

/-- Leading zeros do not count. -/
theorem hexValue_replicate (k : ℕ) (digits : List Char) :
    hexValue (List.replicate k '0' ++ digits) = hexValue digits := by
  induction k with
  | zero => rfl
  | succ k ih =>
    rw [List.replicate_succ, List.cons_append]
    exact ih

variable {x y : BitVec 32}

/-- A hash has eight digits. -/
theorem length_hexText : (hexText x).length = 8 := by
  have hdigits : (Nat.toDigits 16 x.toNat).length ≤ 8 :=
    (Nat.length_toDigits_le_iff (by decide) (by decide)).mpr x.isLt
  rw [hexText, List.length_append, List.length_replicate]
  omega

/-- Different hashes have different texts. -/
theorem hexText_injective : Function.Injective hexText := by
  intro x y h
  have hvalue := congrArg hexValue h
  rw [hexText, hexText, hexValue_replicate, hexValue_replicate, hexValue_toDigits, hexValue_toDigits] at hvalue
  exact BitVec.eq_of_toNat_eq hvalue

/-- The text of a hash can stand in a cell. -/
theorem plain_hexText : Plain (hexText x) := by
  have hmem (c : Char) (hc : c ∈ hexText x) : c ≠ ',' ∧ c ≠ '\n' := by
    rcases List.mem_append.mp hc with hc | hc
    · rw [List.eq_of_mem_replicate hc]
      decide
    · obtain ⟨d, hd, rfl⟩ := mem_toDigits hc
      exact plain_digitChar hd
  exact ⟨fun h => (hmem _ h).1 rfl, fun h => (hmem _ h).2 rfl⟩

end Hexadecimal

section Maximum

variable {w : ℕ} {result : Array (BitVec w)} {l r i : ℕ}

/-- The value that an entry has for the maximum: the largest number stands for no value. -/
def finite (x : BitVec w) : ℕ := if x = BitVec.allOnes w then 0 else x.toNat

/-- `std::max` is the maximum of the values. -/
theorem toNat_stdMax (x y : BitVec w) : (stdMax x y).toNat = max x.toNat y.toNat := by
  rw [stdMax]
  split
  · next h => exact (max_eq_right (BitVec.lt_def.mp h).le).symm
  · next h => exact (max_eq_left (not_lt.mp fun h' => h (BitVec.lt_def.mpr h'))).symm

/-- What counts for the largest entry is below the greatest value. -/
theorem finite_lt (hw : 0 < w) (x : BitVec w) : finite x < 2 ^ w - 1 := by
  have hpow : 2 ^ 1 ≤ 2 ^ w := Nat.pow_le_pow_right (by decide) hw
  rw [finite]
  split
  · omega
  · next h =>
    have hne : x.toNat ≠ 2 ^ w - 1 := fun h' => h (BitVec.eq_of_toNat_eq (by rw [h', BitVec.toNat_allOnes]))
    have := x.isLt
    omega

/-- The maximum of a range is that of the entries that have a value. -/
theorem reduceMax_eq (hw : 0 < w) (hl : l ≤ r) (hr : r ≤ result.size) :
    ∃ maximum, reduceMax result l r = some maximum ∧
    maximum.toNat = (Finset.Ico l r).sup fun i => finite (result.getD i 0) := by
  induction hn : r - l using Nat.strong_induction_on generalizing l r with
  | _ length ih =>
    rw [reduceMax]
    split
    · refine Returns.loop (I := fun t (aggregate : BitVec w) =>
        aggregate.toNat = (Finset.Ico l t).sup fun i => finite (result.getD i 0)) hl ?_ ?_
      · rw [Finset.Ico_self, Finset.sup_empty]
        exact BitVec.toNat_zero
      · intro i aggregate hi hi' haggregate
        refine Returns.bind_eq (getElem?_eq_getD (by omega)) (Returns.pure ?_)
        rw [← Finset.insert_Ico_right_eq_Ico_add_one hi, Finset.sup_insert, ← haggregate, finite]
        split
        · exact toNat_stdMax _ _
        · next htop =>
          rw [if_pos (not_not.mp htop)]
          exact (Nat.zero_max _).symm
    · obtain ⟨left, hleft, hleft'⟩ := ih ((r - l) / 2) (by omega) (show l ≤ l + (r - l) / 2 by omega) (by omega)
        (by omega)
      obtain ⟨right, hright, hright'⟩ :=
        ih (r - (l + (r - l) / 2)) (by omega) (show l + (r - l) / 2 ≤ r by omega) hr rfl
      have htop : left ≠ BitVec.allOnes w := by
        rintro rfl
        have hlt : (Finset.Ico l (l + (r - l) / 2)).sup (fun i => finite (result.getD i 0)) < 2 ^ w - 1 :=
          (Finset.sup_lt_iff ((Nat.zero_le _).trans_lt (finite_lt hw 0))).mpr fun i _ => finite_lt hw _
        rw [← hleft', BitVec.toNat_allOnes] at hlt
        exact lt_irrefl _ hlt
      dsimp only
      rw [hleft, hright]
      refine ⟨stdMax left right, congrArg some (if_neg htop), ?_⟩
      rw [toNat_stdMax, hleft', hright', ← Finset.Ico_union_Ico_eq_Ico (show l ≤ l + (r - l) / 2 by omega)
        (show l + (r - l) / 2 ≤ r by omega), Finset.sup_union]

end Maximum

section Difference

variable {w : ℕ} {result result' : Array (BitVec w)} {i j n : ℕ}

/-- `getHash` returns the text of the mixed value of all positions. -/
theorem getHash_eq : getHash result = some (hexText (folded (mixed result 0 result.size))) := by
  rw [getHash, reduceMix_eq (Nat.zero_le _) le_rfl]
  rfl

/-- Folding an exclusive or folds both of its sides. -/
theorem folded_xor (x y : Word) : folded (x ^^^ y) = folded x ^^^ folded y := by
  rw [folded, folded, folded, BitVec.ushiftRight_xor_distrib, BitVec.setWidth_xor, BitVec.setWidth_xor]
  ac_rfl

/-- The other entries contribute equally to both results. -/
theorem folded_mixed_eq_iff (hj : j < n) (h : ∀ i < n, i ≠ j → result.getD i 0 = result'.getD i 0) :
    folded (mixed result 0 n) = folded (mixed result' 0 n) ↔
      folded (mix (result.getD j 0) j) = folded (mix (result'.getD j 0) j) := by
  induction n with
  | zero => exact absurd hj (Nat.not_lt_zero j)
  | succ n ih =>
    rw [mixed_succ, mixed_succ, folded_xor, folded_xor]
    by_cases hlast : j = n
    · subst hlast
      rw [mixed_congr fun i hi => h i (by omega) (by omega), BitVec.xor_right_inj]
    · rw [h n (by omega) (Ne.symm hlast), BitVec.xor_left_inj]
      exact ih (by omega) fun i hi => h i (by omega)

end Difference

/-- What a call prints, said without the splitting into ranges. -/
def reportOf (call : Call) : Report :=
  ⟨(Finset.range call.result.size).sup fun i => finite (call.result.getD i 0),
    hexText (folded (mixed call.result 0 call.result.size))⟩

/-- The texts of the call can be cells, the column is not that of the names, and the entries are not
written over a table. -/
structure Call.Fits (call : Call) : Prop where
  row : Plain call.row
  column : Plain call.column
  seconds : Plain call.seconds
  nonempty : call.column ≠ []
  ne_graph : call.column ≠ "graph".toList
  dump : ∀ csvpath, call.dumppath ≠ benchmarkFile csvpath ∧ call.dumppath ≠ verifyFile csvpath

/-- The time and the hash that the tables of a directory hold. -/
def recorded (files : Files) (csvpath row column : List Char) : List Char × List Char :=
  (cellOf (readCsv (files (benchmarkFile csvpath))) row column,
    cellOf (readCsv (files (verifyFile csvpath))) row column)

/-- The last call for a cell. -/
def lastCall (calls : List Call) (csvpath row column : List Char) : Option Call :=
  calls.reverse.find? fun call => call.csvpath = csvpath ∧ call.row = row ∧ call.column = column

/-- The last call that writes its entries into a file. -/
def lastDump (calls : List Call) (path : List Char) : Option Call :=
  calls.reverse.find? fun call => call.dumppath = path

/-- The tables of all directories are as the drivers keep them. -/
def ProperTables (files : Files) : Prop :=
  ∀ csvpath, Proper "graph".toList (readCsv (files (benchmarkFile csvpath))) ∧
    Proper "graph".toList (readCsv (files (verifyFile csvpath)))

/-- A file for the entries of a result. -/
structure IsDump (path : List Char) : Prop where
  enabled : path ≠ "disabled".toList
  nonempty : path ≠ []
  ne_table : ∀ csvpath, path ≠ benchmarkFile csvpath ∧ path ≠ verifyFile csvpath

section Recording

variable {files : Files} {call : Call} {calls : List Call} {csvpath csvpath' row column path : List Char}

/-- The names of the tables end with `csv`. -/
theorem ne_table_of_getLast? (h : path.getLast? ≠ some 'v') (csvpath : List Char) :
    path ≠ benchmarkFile csvpath ∧ path ≠ verifyFile csvpath := by
  refine ⟨fun heq => h ?_, fun heq => h ?_⟩
  · rw [heq, benchmarkFile, List.getLast?_append]
    rfl
  · rw [heq, verifyFile, List.getLast?_append]
    rfl

/-- The two files of a directory are different. -/
theorem benchmarkFile_ne_verifyFile : benchmarkFile csvpath ≠ verifyFile csvpath' := by
  intro h
  have hchar := congrArg (fun path => path.reverse[4]?) h
  simp only [benchmarkFile, verifyFile, List.reverse_append] at hchar
  have hsome : some 'k' = some 'y' := hchar
  exact absurd hsome (by decide)

/-- The files of the running times of two directories are different. -/
theorem benchmarkFile_inj : benchmarkFile csvpath = benchmarkFile csvpath' ↔ csvpath = csvpath' :=
    List.append_left_inj _

/-- The files of the hashes of two directories are different. -/
theorem verifyFile_inj : verifyFile csvpath = verifyFile csvpath' ↔ csvpath = csvpath' := List.append_left_inj _

/-- The call of `update_csv_cell` for the time. -/
def Call.time (call : Call) : Update := ⟨call.row, call.column, call.seconds⟩

/-- The call of `update_csv_cell` for the hash. -/
def Call.verify (call : Call) : Update := ⟨call.row, call.column, (reportOf call).hash⟩

/-- The running time of a call fits into its file. -/
theorem Call.Fits.time (h : call.Fits) : call.time.Fits "graph".toList :=
  ⟨h.row, h.column, h.seconds, h.nonempty, h.ne_graph⟩

/-- The hash of a call fits into its file. -/
theorem Call.Fits.verify (h : call.Fits) : call.verify.Fits "graph".toList :=
  ⟨h.row, h.column, plain_hexText, h.nonempty, h.ne_graph⟩

/-- What the files hold after a call. -/
def afterCall (files : Files) (call : Call) : Files :=
  let files := updateFile files (benchmarkFile call.csvpath) call.row call.column call.seconds
  let files := updateFile files (verifyFile call.csvpath) call.row call.column (reportOf call).hash
  if call.dumppath ≠ "disabled".toList ∧ call.dumppath ≠ [] then
    Function.update files call.dumppath (some (dumpText call.result)) else files

/-- A call returns its report and the files after it. -/
theorem processResult_eq : processResult files call = some (reportOf call, afterCall files call) := by
  obtain ⟨maximum, hmaximum, hvalue⟩ :=
    reduceMax_eq call.width_pos (Nat.zero_le call.result.size) le_rfl
  rw [processResult, hmaximum, getHash_eq, reportOf, Finset.range_eq_Ico, ← hvalue]
  rfl

/-- A file that a call does not name stays as it was. -/
theorem afterCall_of_ne (hdump : call.dumppath ≠ path) (hbenchmark : path ≠ benchmarkFile call.csvpath)
    (hverify : path ≠ verifyFile call.csvpath) : afterCall files call path = files path := by
  rw [afterCall]
  split
  · rw [Function.update_of_ne hdump.symm, updateFile, Function.update_of_ne hverify, updateFile,
      Function.update_of_ne hbenchmark]
  · rw [updateFile, Function.update_of_ne hverify, updateFile, Function.update_of_ne hbenchmark]

/-- The file of the running times after a call. -/
theorem afterCall_benchmarkFile (hdump : call.dumppath ≠ benchmarkFile csvpath) :
    afterCall files call (benchmarkFile csvpath) = if csvpath = call.csvpath then
      some (updateCsvCell (files (benchmarkFile csvpath)) call.row call.column call.seconds) else files
        (benchmarkFile csvpath) := by
  split
  · next h =>
    subst h
    rw [afterCall]
    split
    · rw [Function.update_of_ne hdump.symm, updateFile,
        Function.update_of_ne benchmarkFile_ne_verifyFile, updateFile,
        Function.update_self]
    · rw [updateFile, Function.update_of_ne benchmarkFile_ne_verifyFile, updateFile, Function.update_self]
  · next h =>
    exact afterCall_of_ne hdump (mt benchmarkFile_inj.mp h) benchmarkFile_ne_verifyFile

/-- The file of the hashes after a call. -/
theorem afterCall_verifyFile (hdump : call.dumppath ≠ verifyFile csvpath) :
    afterCall files call (verifyFile csvpath) = if csvpath = call.csvpath then
      some (updateCsvCell (files (verifyFile csvpath)) call.row call.column (reportOf call).hash) else files
        (verifyFile csvpath) := by
  split
  · next h =>
    subst h
    rw [afterCall]
    split
    · rw [Function.update_of_ne hdump.symm, updateFile, Function.update_self, updateFile,
        Function.update_of_ne benchmarkFile_ne_verifyFile.symm]
    · rw [updateFile, Function.update_self, updateFile, Function.update_of_ne benchmarkFile_ne_verifyFile.symm]
  · next h =>
    exact afterCall_of_ne hdump benchmarkFile_ne_verifyFile.symm (mt verifyFile_inj.mp h)

/-- The tables stay proper. -/
theorem afterCall_properTables (hfiles : ProperTables files) (hcall : call.Fits) :
    ProperTables (afterCall files call) := by
  intro csvpath
  rw [afterCall_benchmarkFile (hcall.dump csvpath).1, afterCall_verifyFile (hcall.dump csvpath).2]
  split
  · exact ⟨(hfiles csvpath).1.updateCsvCell hcall.time, (hfiles csvpath).2.updateCsvCell hcall.verify⟩
  · exact hfiles csvpath

/-- A call sets the time and the hash of its own cell, and leaves all other cells as they are. -/
theorem afterCall_recorded (hfiles : ProperTables files) (hcall : call.Fits) (hrow : row ≠ [])
    (hcolumn : column ≠ "graph".toList) :
    recorded (afterCall files call) csvpath row column =
      if csvpath = call.csvpath ∧ row = call.row ∧ column = call.column then (call.seconds, (reportOf call).hash)
      else recorded files csvpath row column := by
  rw [recorded, recorded, afterCall_benchmarkFile (hcall.dump csvpath).1,
    afterCall_verifyFile (hcall.dump csvpath).2]
  by_cases hdir : csvpath = call.csvpath
  · have htime : cellOf (readCsv (some (updateCsvCell
      (files (benchmarkFile csvpath)) call.row call.column call.seconds)))
        row column = if row = call.row ∧ column = call.column then call.seconds else _ :=
      cellOf_updateCsvCell (hfiles csvpath).1 hcall.time hrow hcolumn
    have hverify : cellOf (readCsv (some (updateCsvCell (files (verifyFile csvpath)) call.row call.column
        (reportOf call).hash))) row column =
          if row = call.row ∧ column = call.column then (reportOf call).hash else _ :=
      cellOf_updateCsvCell (hfiles csvpath).2 hcall.verify hrow hcolumn
    rw [if_pos hdir, if_pos hdir, htime, hverify]
    by_cases hcell : row = call.row ∧ column = call.column
    · rw [if_pos hcell, if_pos hcell, if_pos ⟨hdir, hcell⟩]
    · rw [if_neg hcell, if_neg hcell, if_neg fun h => hcell h.2]
  · rw [if_neg hdir, if_neg hdir, if_neg fun h => hdir h.1]

/-- A call writes its entries into the file that it names. -/
theorem afterCall_dump (hpath : IsDump path) :
    afterCall files call path = if call.dumppath = path then some (dumpText call.result) else files path := by
  split
  · next h =>
    subst h
    rw [afterCall]
    rw [if_pos ⟨hpath.enabled, hpath.nonempty⟩, Function.update_self]
  · next h =>
    exact afterCall_of_ne h (hpath.ne_table call.csvpath).1 (hpath.ne_table call.csvpath).2

/-- The last of some calls for a cell, by the first of them. -/
theorem lastCall_cons : lastCall (call :: calls) csvpath row column = (lastCall calls csvpath row column).or
    (if csvpath = call.csvpath ∧ row = call.row ∧ column = call.column then some call else none) := by
  rw [lastCall, List.reverse_cons, List.find?_append, List.find?_singleton, lastCall]
  congr 1
  simp only [decide_eq_true_eq, @eq_comm _ csvpath, @eq_comm _ row, @eq_comm _ column]

/-- The last of some calls that dump to a file, by the first of them. -/
theorem lastDump_cons :
    lastDump (call :: calls) path = (lastDump calls path).or (if call.dumppath = path then some call
      else none) := by
  rw [lastDump, List.reverse_cons, List.find?_append, List.find?_singleton, lastDump]
  simp only [decide_eq_true_eq]

/-- A file of entries, read as a table, has one row with all of them. -/
theorem readCsv_dumpText {w : ℕ} (result : Array (BitVec w)) :
    readCsv (some (dumpText result)) = [result.toList.map fun x => decimal x.toNat] := by
  have hcells : ∀ cell ∈ result.toList.map fun x => decimal x.toNat, ',' ∉ cell := by
    intro cell hcell
    obtain ⟨x, -, rfl⟩ := List.mem_map.mp hcell
    exact plain_decimal.1
  have hline : '\n' ∉ result.toList.flatMap fun x => decimal x.toNat ++ [','] := by
    intro hmem
    obtain ⟨x, -, hx⟩ := List.mem_flatMap.mp hmem
    rcases List.mem_append.mp hx with hx | hx
    · exact plain_decimal.2 hx
    · exact absurd (List.mem_singleton.mp hx) (by decide)
  have hrow := getLines_lines hcells
  rw [List.flatMap_map] at hrow
  rw [readCsv, dumpText, getLines_append hline, List.map_cons, hrow]
  rfl

/-- If two results of one size differ in a single entry, their mixes differ, and whether their hashes do
depends on nothing but that entry. -/
theorem single_entry {w : ℕ} {result result' : Array (BitVec w)} {j : ℕ} (hw : w ≤ 64)
    (hsize : result.size = result'.size)
    (hj : j < result.size) (h : ∀ i < result.size, i ≠ j → result.getD i 0 = result'.getD i 0) :
    (getHash result = getHash result' ↔ folded (mix (result.getD j 0) j) = folded (mix (result'.getD j 0) j)) ∧
    (reduceMix result 0 result.size = reduceMix result' 0 result'.size ↔ result = result') := by
  constructor
  · rw [getHash_eq, getHash_eq, Option.some_inj, hexText_injective.eq_iff, ← hsize, folded_mixed_eq_iff hj h]
  · rw [reduceMix_eq (Nat.zero_le _) le_rfl, reduceMix_eq (Nat.zero_le _) le_rfl, Option.some_inj, ← hsize]
    refine ⟨fun hmixed => ?_, fun heq => by rw [heq]⟩
    by_contra hne
    refine mixed_ne hw hj (fun heq => hne (Array.ext hsize fun i hi hi' => ?_)) h hmixed
    have hentry : result.getD i 0 = result'.getD i 0 := by
      by_cases hij : i = j
      · rwa [hij]
      · exact h i hi hij
    rw [← Option.some_inj, ← Array.getElem?_eq_getElem, ← Array.getElem?_eq_getElem, getElem?_eq_getD hi,
      getElem?_eq_getD hi',
      hentry]

/-- The calls return their reports and the files after all of them. -/
theorem processResults_eq : processResults files calls =
    some (calls.map reportOf, calls.foldl afterCall files) := by
  induction calls generalizing files with
  | nil => rfl
  | cons call calls ih =>
    rw [processResults, processResult_eq]
    change (do
      let (reports, files) ← processResults (afterCall files call) calls
      some (reportOf call :: reports, files)) = _
    rw [ih]
    rfl

/-- The tables and the files of entries are stores: every call succeeds, wherever its ranges are split,
and prints the largest entry and the hash; after the calls a cell has the time and the hash of the last
call for it, or what it had before, and a file of entries holds all entries of the last call that named
it. -/
theorem processResults_recorded (hfiles : ProperTables files) (hcalls : ∀ call ∈ calls, call.Fits) :
    (∃ files', processResults files calls = some (calls.map reportOf, files') ∧
      (∀ csvpath row column, row ≠ [] → column ≠ "graph".toList → recorded files' csvpath row column =
        ((lastCall calls csvpath row column).map fun call => (call.seconds, (reportOf call).hash)).getD
          (recorded files csvpath row column)) ∧
      (∀ path, IsDump path →
        files' path = ((lastDump calls path).map fun call => some (dumpText call.result)).getD (files path))) ∧
    (∀ call : Call, readCsv (some (dumpText call.result)) = [call.result.toList.map fun x => decimal x.toNat] ∧
      getHash call.result = some (reportOf call).hash ∧ (reportOf call).hash.length = 8 ∧
      ∀ (result : Array (BitVec call.width)) (j : ℕ), result.size = call.result.size → j < result.size →
        (∀ i < result.size, i ≠ j → result.getD i 0 = call.result.getD i 0) →
        (getHash result = getHash call.result ↔
          folded (mix (result.getD j 0) j) = folded (mix (call.result.getD j 0) j)) ∧
        (reduceMix result 0 result.size = reduceMix call.result 0 call.result.size ↔ result = call.result)) := by
  refine ⟨⟨calls.foldl afterCall files, processResults_eq, ?_, ?_⟩,
    fun call => ⟨readCsv_dumpText call.result, getHash_eq, length_hexText,
      fun result j => single_entry call.width_le⟩⟩
  · intro csvpath row column hrow hcolumn
    induction calls generalizing files with
    | nil => rfl
    | cons call calls ih =>
      have hcall := hcalls call List.mem_cons_self
      rw [List.foldl_cons, ih (afterCall_properTables hfiles hcall) fun c hc =>
        hcalls c (List.mem_cons_of_mem call hc),
        afterCall_recorded hfiles hcall hrow hcolumn, lastCall_cons]
      cases lastCall calls csvpath row column with
      | some last => rfl
      | none =>
        rw [Option.none_or]
        split <;> rfl
  · intro path hpath
    induction calls generalizing files with
    | nil => rfl
    | cons call calls ih =>
      have hcall := hcalls call List.mem_cons_self
      rw [List.foldl_cons, ih (afterCall_properTables hfiles hcall) fun c hc =>
        hcalls c (List.mem_cons_of_mem call hc),
        afterCall_dump hpath, lastDump_cons]
      cases lastDump calls path with
      | some last => rfl
      | none =>
        rw [Option.none_or]
        split <;> rfl

/-- A call with three entries of 32 bits; the largest number stands for a vertex that is not reached. -/
def roadCall (entry : BitVec 32) (seconds : List Char) : Call :=
  ⟨32, by decide, #[entry, 4294967295, 7], seconds, ".".toList, "road".toList, "ToT".toList,
    "dump.txt".toList⟩

/-- Two calls for one graph and one algorithm. -/
theorem processResults_recorded_road : ∃ files',
    processResults (fun _ => none) [roadCall 9 "0.5".toList, roadCall 3 "0.25".toList] =
      some ([reportOf (roadCall 9 "0.5".toList), reportOf (roadCall 3 "0.25".toList)], files') ∧
    recorded files' ".".toList "road".toList "ToT".toList =
      ("0.25".toList, (reportOf (roadCall 3 "0.25".toList)).hash) ∧
    files' "dump.txt".toList = some "3,4294967295,7,\n".toList := by
  have hfiles : ProperTables fun _ => none := fun csvpath => ⟨rfl, rfl⟩
  have hdump := ne_table_of_getLast? (show "dump.txt".toList.getLast? ≠ some 'v' by decide)
  have hcalls : ∀ call ∈ [roadCall 9 "0.5".toList, roadCall 3 "0.25".toList], call.Fits := by
    intro call hcall
    fin_cases hcall <;>
      exact ⟨⟨by decide, by decide⟩, ⟨by decide, by decide⟩, ⟨by decide, by decide⟩, by decide, by decide, hdump⟩
  obtain ⟨⟨files', hrun, hcells, hdumps⟩, -⟩ := processResults_recorded hfiles hcalls
  refine ⟨files', hrun, ?_, ?_⟩
  · rw [hcells ".".toList "road".toList "ToT".toList (by decide) (by decide)]
    rfl
  · rw [hdumps "dump.txt".toList ⟨by decide, by decide, hdump⟩]
    rfl

end Recording

end Benchmark

end ToggleTree
