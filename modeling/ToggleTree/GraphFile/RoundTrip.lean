import ToggleTree.GraphFile.Binary

/-!
# Round trips through the binary format

The bytes that are written are the records of the header, the offsets and the edges, however the
edges are cut into chunks. Both ways of reading find the records where they are and convert the
edges, also for a graph without edges, whose file does not tell whether it has weights.
-/

namespace ToggleTree

open Checked Primitives

namespace GraphFile

/-- The graphs that the format is made for. -/
structure WellFormed (G : GraphData) (weighted : Bool) : Prop where
  n_lt : G.n < 2 ^ 32
  outOffsets_size : G.outOffsets.size = G.n + 1
  outEdges_size : G.outEdges.size = G.m
  offset_zero : G.outOffsets.getD 0 0 = 0
  offset_le : ∀ u < G.n, G.outOffsets.getD u 0 ≤ G.outOffsets.getD (u + 1) 0
  offset_last : G.outOffsets.getD G.n 0 = G.m
  target_lt : ∀ i < G.m, G.outEdges.getD i 0 % 2 ^ 32 < G.n
  edge_lt : ∀ i < G.m, G.outEdges.getD i 0 < 256 ^ edgeWidth weighted
  /-- Files are counted in signed 64-bit numbers. -/
  bytes_lt : 24 + (G.n + 1) * 8 + G.m * 8 < 2 ^ 63

namespace WellFormed

variable {G : GraphData} {weighted : Bool} (h : WellFormed G weighted)
include h

/-- The offsets are the entries of their array. -/
theorem offsets : Contents G.outOffsets (G.n + 1) fun i => G.outOffsets.getD i 0 :=
  ⟨h.outOffsets_size, fun i hi => by simp [Array.getD, h.outOffsets_size, hi]⟩

/-- The edges are the entries of their array. -/
theorem edges : Contents G.outEdges G.m fun i => G.outEdges.getD i 0 :=
  ⟨h.outEdges_size, fun i hi => by simp [Array.getD, h.outEdges_size, hi]⟩

/-- The offsets increase. -/
theorem offset_mono {u v : ℕ} (huv : u ≤ v) (hv : v ≤ G.n) : G.outOffsets.getD u 0 ≤ G.outOffsets.getD v 0 := by
  induction v, huv using Nat.le_induction with
  | base => exact le_rfl
  | succ v _ ih => exact (ih (by omega)).trans (h.offset_le v (by omega))

/-- An offset fits into a word. -/
theorem offset_lt {u : ℕ} (hu : u ≤ G.n) : G.outOffsets.getD u 0 < 2 ^ 64 := by
  have hle := h.offset_mono hu le_rfl
  have hlast := h.offset_last
  have hbytes := h.bytes_lt
  omega

/-- There are fewer than `2 ^ 60` edges. -/
theorem m_lt : G.m < 2 ^ 60 := by
  have := h.bytes_lt
  omega

end WellFormed

section Layout

/-- The record that is stored for an edge. -/
def storedEdge (weighted : Bool) (e : ℕ) : ℕ := if weighted then swapHalves e else e

/-- The numbers of the header. -/
def headerWord (G : GraphData) (weighted : Bool) (i : ℕ) : ℕ := [G.n, G.m, sizeWord G.n G.m weighted].getD i 0

/-- The file of a graph. -/
def fileOf (G : GraphData) (weighted : Bool) : List Byte :=
  records 8 0 3 (headerWord G weighted) ++ records 8 0 (G.n + 1) (fun i => G.outOffsets.getD i 0) ++
    records (edgeWidth weighted) 0 G.m fun i => storedEdge weighted (G.outEdges.getD i 0)

variable {G : GraphData} {weighted : Bool}

/-- The chunks of the edges are written one after the other. -/
theorem writeChunks_eq (h : WellFormed G true) (schedules : ℕ → Schedule) (first : ℕ) {raw : Array ℕ}
    (hraw : raw.size = min G.m chunk) (out : List Byte) :
    writeChunks schedules G first raw out =
      some (out ++ records 8 first (G.m - first) fun i => swapHalves (G.outEdges.getD i 0)) := by
  induction hn : G.m - first using Nat.strong_induction_on generalizing first raw out with
  | _ rest ih =>
    subst hn
    rw [writeChunks]
    have hchunk : 0 < chunk := by decide
    by_cases hfirst : first < G.m
    · rw [if_pos hfirst]
      have hfill : Returns (fun raw' : Array ℕ => ∃ g, Contents raw' (min G.m chunk) g ∧
          ∀ i ∈ Finset.range (min chunk (G.m - first)), g i = swapHalves (G.outEdges.getD (first + i) 0))
          (parallelLoop (schedules first) (min chunk (G.m - first)) raw fun i raw => do
            let x ← G.outEdges[first + i]?
            write raw i (swapHalves x)) := by
        refine Returns.parallelLoop (I := fun done raw' => ∃ g, Contents raw' (min G.m chunk) g ∧
          ∀ i ∈ done, g i = swapHalves (G.outEdges.getD (first + i) 0)) ?_ ?_
        · exact ⟨_, hraw ▸ Contents.self raw, fun i hi => absurd hi (Finset.notMem_empty i)⟩
        · rintro done i raw' hi hnot ⟨g, hg, hdone⟩
          refine Returns.bind_eq (h.edges.get _ (by omega)) ?_
          obtain ⟨raw'', hwrite, hg'⟩ := hg.write (i := i) (by omega) (swapHalves (G.outEdges.getD (first + i) 0))
          refine Returns.of_eq hwrite ⟨_, hg', fun j hj => ?_⟩
          rcases Finset.mem_insert.mp hj with rfl | hj
          · exact Function.update_self ..
          · rw [Function.update_of_ne (fun hji : j = i => hnot (hji ▸ hj))]
            exact hdone j hj
      obtain ⟨raw', heq, g, hg, hdone⟩ := hfill
      have hbytes : bytesOf 8 raw' (min chunk (G.m - first)) =
          some (records 8 first (min chunk (G.m - first)) fun i => swapHalves (G.outEdges.getD i 0)) := by
        rw [bytesOf_contents hg (by omega), records_congr fun i _ hi =>
          hdone i (Finset.mem_range.mpr (by rwa [Nat.zero_add] at hi)),
          records_shift (f := fun i => swapHalves (G.outEdges.getD i 0))]
      refine (bind_eq_of_eq heq _).trans ((bind_eq_of_eq hbytes _).trans ?_)
      have hjoin : (records 8 first (min chunk (G.m - first)) fun i => swapHalves (G.outEdges.getD i 0)) ++
          records 8 (first + chunk) (G.m - (first + chunk)) (fun i => swapHalves (G.outEdges.getD i 0)) =
            records 8 first (G.m - first) fun i => swapHalves (G.outEdges.getD i 0) := by
        by_cases hlast : first + chunk ≤ G.m
        · rw [min_eq_left (by omega), records_append, show chunk + (G.m - (first + chunk)) = G.m - first by omega]
        · rw [min_eq_right (by omega), Nat.sub_eq_zero_of_le (show G.m ≤ first + chunk by omega), records_zero,
            List.append_nil]
      rw [ih (G.m - (first + chunk)) (by omega) (first + chunk) hg.size _ rfl, List.append_assoc, hjoin]
    · rw [if_neg hfirst, Nat.sub_eq_zero_of_le (by omega), records_zero, List.append_nil]

/-- What `write_graph` writes. -/
theorem writeGraph_eq (h : WellFormed G weighted) (schedules : ℕ → Schedule) (uninit : ℕ) :
    writeGraph schedules uninit weighted G = some (fileOf G weighted) := by
  have hheader : bytesOf 8 #[G.n, G.m, sizeWord G.n G.m weighted] 3 =
    some (records 8 0 3 (headerWord G weighted)) :=
    bytesOf_contents (Contents.ofList [G.n, G.m, sizeWord G.n G.m weighted] 0) le_rfl
  have hoffsets : bytesOf 8 G.outOffsets (G.n + 1) =
    some (records 8 0 (G.n + 1) fun i => G.outOffsets.getD i 0) :=
    bytesOf_contents h.offsets le_rfl
  unfold writeGraph
  simp only [hheader, hoffsets, Option.bind_eq_bind, Option.bind_some]
  cases weighted with
  | true =>
    rw [if_pos rfl, writeChunks_eq h schedules 0 Array.size_replicate]
    rfl
  | false =>
    have hedges : bytesOf 4 G.outEdges G.m = some (records 4 0 G.m fun i => G.outEdges.getD i 0) :=
      bytesOf_contents h.edges le_rfl
    rw [if_neg Bool.false_ne_true, hedges]
    rfl

end Layout

section Halves

variable {x hi lo : ℕ}

/-- A glued word by its halves. -/
theorem glue32_eq (hhi : hi < 2 ^ 32) (hlo : lo < 2 ^ 32) : glue32 hi lo = hi * 2 ^ 32 + lo := by
  rw [glue32, ← Nat.shiftLeft_add_eq_or_of_lt hlo, Nat.shiftLeft_eq, Nat.mod_eq_of_lt (by omega)]

/-- The upper half of a word is its quotient. -/
theorem hi32_eq (x : ℕ) : hi32 x = x / 2 ^ 32 := Nat.shiftRight_eq_div_pow x 32

/-- Swapping the halves of a word. -/
theorem swapHalves_eq (hx : x < 2 ^ 64) : swapHalves x = x % 2 ^ 32 * 2 ^ 32 + x / 2 ^ 32 := by
  have hhigh : x / 2 ^ 32 < 2 ^ 32 := by omega
  have hlow : (x <<< 32) % 2 ^ 64 = (x % 2 ^ 32) <<< 32 := by
    rw [Nat.shiftLeft_eq, Nat.shiftLeft_eq]
    omega
  rw [swapHalves, Nat.or_mod_two_pow, hlow, Nat.shiftRight_eq_div_pow, Nat.mod_eq_of_lt (by omega), Nat.or_comm,
    ← Nat.shiftLeft_add_eq_or_of_lt hhigh, Nat.shiftLeft_eq]

/-- What reading makes of an edge: the weight is dropped, or it is 1. -/
def convertEdge : Bool → Bool → ℕ → ℕ
  | true, false, e => e % 2 ^ 32
  | false, true, e => 1 * 2 ^ 32 + e % 2 ^ 32
  | _, _, e => e

/-- A stored edge fits into its record. -/
theorem storedEdge_lt {weighted : Bool} (hx : x < 256 ^ edgeWidth weighted) :
    storedEdge weighted x < 256 ^ edgeWidth weighted := by
  cases weighted with
  | false => exact hx
  | true =>
    have hx' : x < 2 ^ 64 := hx
    change swapHalves x < 2 ^ 64
    rw [swapHalves_eq hx']
    omega

/-- A stored edge is read as the converted edge. -/
theorem edgeFromFile_stored {weighted weighted' : Bool} (hx : x < 256 ^ edgeWidth weighted) :
    edgeFromFile weighted' weighted (storedEdge weighted x) = convertEdge weighted weighted' x := by
  cases weighted with
  | false =>
    have hx' : x < 2 ^ 32 := hx
    cases weighted' with
    | false => rfl
    | true =>
      change glue32 1 x = 1 * 2 ^ 32 + x % 2 ^ 32
      rw [glue32_eq (by norm_num) hx', Nat.mod_eq_of_lt hx']
  | true =>
    have hx' : x < 2 ^ 64 := hx
    have hswap : storedEdge true x = x % 2 ^ 32 * 2 ^ 32 + x / 2 ^ 32 := swapHalves_eq hx'
    rw [hswap]
    cases weighted' with
    | false =>
      change hi32 _ = x % 2 ^ 32
      rw [hi32_eq]
      omega
    | true =>
      change glue32 (lo32 _) (hi32 _) = x
      rw [hi32_eq, lo32, glue32_eq (Nat.mod_lt _ (by norm_num)) (by omega)]
      omega

end Halves

section Stream

variable {file : List Byte} {output : Array Byte} {f : ℕ → Byte} {fileOffset size capacity k position : ℕ}

/-- Every byte is read by one of the readers. -/
theorem returns_parallelRead (schedule : Schedule) (houtput : Contents output capacity f)
    (hsize : size ≤ capacity) (hbound : size < 2 ^ 63) (hfile : fileOffset + size ≤ file.length) :
    Returns (fun output' => ∃ g, Contents output' capacity g ∧ ∀ j < size, file[fileOffset + j]? = some (g j))
      (parallelRead schedule file fileOffset output size) := by
  unfold parallelRead
  by_cases hzero : size = 0
  · rw [if_pos hzero]
    exact Returns.pure ⟨f, houtput, fun j hj => absurd hj (by omega)⟩
  rw [if_neg hzero]
  have hpositive : 0 < ceilDiv (ceilDiv size 192) 4096 * 4096 ∧
    size + ceilDiv (ceilDiv size 192) 4096 * 4096 ≤ 2 ^ 64 := by
    have hpart : 0 < ceilDiv size 192 ∧ ceilDiv size 192 < 2 ^ 62 := by
      rw [ceilDiv_eq (by omega)]
      omega
    rw [ceilDiv_eq (k := 4096) (by omega)]
    omega
  generalize ceilDiv (ceilDiv size 192) 4096 * 4096 = chunkSize at hpositive
  obtain ⟨hpositive, hfit⟩ := hpositive
  have hchunks : Returns (fun output' => ∃ g, Contents output' capacity g ∧
      ∀ j < size, j / chunkSize ∈ Finset.range (ceilDiv size chunkSize) → file[fileOffset + j]? = some (g j))
      (parallelLoop schedule (ceilDiv size chunkSize) output fun chunk output =>
        loop 0 (min chunkSize (size - chunk * chunkSize)) output fun j output => do
          let b ← file[fileOffset + chunk * chunkSize + j]?
          write output (chunk * chunkSize + j) b) := by
    refine Returns.parallelLoop (I := fun done output' => ∃ g, Contents output' capacity g ∧
      ∀ j < size, j / chunkSize ∈ done → file[fileOffset + j]? = some (g j)) ?_ ?_
    · exact ⟨f, houtput, fun j _ hj => absurd hj (Finset.notMem_empty _)⟩
    · rintro done chunk output' - - ⟨g, hg, hdone⟩
      refine (Returns.loop (I := fun t output'' => ∃ g, Contents output'' capacity g ∧
        ∀ j < size, j / chunkSize ∈ done ∨ chunk * chunkSize ≤ j ∧ j < chunk * chunkSize + t →
          file[fileOffset + j]? = some (g j)) (Nat.zero_le _) ?_ ?_).mono ?_
      · refine ⟨g, hg, fun j hj hor => ?_⟩
        rcases hor with hmem | hrange
        · exact hdone j hj hmem
        · omega
      · rintro t output'' - ht ⟨g, hg, hread⟩
        have hbyte : file[fileOffset + chunk * chunkSize + t]? =
          some (file.getD (fileOffset + chunk * chunkSize + t) 0) := by
          have hlt : fileOffset + chunk * chunkSize + t < file.length := by omega
          rw [List.getD_eq_getElem?_getD, List.getElem?_eq_getElem hlt, Option.getD_some]
        refine Returns.bind_eq hbyte ?_
        obtain ⟨output₃, hwrite, hg'⟩ := hg.write (i := chunk * chunkSize + t) (by omega)
          (file.getD (fileOffset + chunk * chunkSize + t) 0)
        refine Returns.of_eq hwrite ⟨_, hg', fun j hj hor => ?_⟩
        by_cases heq : j = chunk * chunkSize + t
        · rw [heq, Function.update_self, ← Nat.add_assoc]
          exact hbyte
        · rw [Function.update_of_ne heq]
          exact hread j hj (hor.imp_right fun hrange => by omega)
      · rintro output'' ⟨g, hg, hread⟩
        refine ⟨g, hg, fun j hj hmem => hread j hj ?_⟩
        rcases Finset.mem_insert.mp hmem with heq | hmem
        · have hdiv := Nat.div_add_mod j chunkSize
          have hmod := Nat.mod_lt j hpositive
          rw [heq, Nat.mul_comm] at hdiv
          exact Or.inr ⟨by omega, by omega⟩
        · exact Or.inl hmem
  refine hchunks.mono fun output' ⟨g, hg, hread⟩ => ⟨g, hg, fun j hj => hread j hj (Finset.mem_range.mpr ?_)⟩
  have hcover := le_mul_ceilDiv hfit hpositive
  rw [Nat.div_lt_iff_lt_mul hpositive, Nat.mul_comm]
  omega

/-- Numbers can be read from the buffer instead of the file. -/
theorem readAt_buffer (hoffset : fileOffset + size ≤ file.length) (houtput : Contents output capacity f)
    (hsize : size ≤ capacity) (hread : ∀ j < size, file[fileOffset + j]? = some (f j))
    (hposition : position + k ≤ size) :
    readAt output.toList k position = readAt file k (fileOffset + position) := by
  have hlength : output.toList.length = capacity := by rw [Array.length_toList, houtput.size]
  rw [readAt, readAt, if_pos (by omega), if_pos (by omega)]
  refine congrArg (some ∘ decode) (List.ext_getElem? fun i => ?_)
  rw [List.getElem?_take, List.getElem?_take]
  by_cases hi : i < k
  · rw [if_pos hi, if_pos hi, List.getElem?_drop, List.getElem?_drop, Nat.add_assoc,
      hread (position + i) (by omega),
      Array.getElem?_toList, houtput.get (position + i) (by omega)]
  · rw [if_neg hi, if_neg hi]

end Stream

section Read

variable {G : GraphData} {weighted weighted' : Bool} {m : ℕ}

/-- Filling the edges from data in which every record can be read. -/
theorem fillEdgesFromFile_eq (schedule : Schedule) {data : List Byte} {base : ℕ} {fileWeighted : Bool}
    {edges : Array ℕ} {stored : ℕ → ℕ} (hsize : edges.size = m)
    (hdata : ∀ i < m, readAt data (edgeWidth fileWeighted)
      (base + edgeWidth fileWeighted * i) = some (stored i)) :
    Returns (fun edges' => Contents edges' m fun i => edgeFromFile weighted' fileWeighted (stored i))
      (fillEdgesFromFile weighted' schedule m data base fileWeighted edges) := by
  have hloop : Returns (fun edges' : Array ℕ => ∃ g, Contents edges' m g ∧
      ∀ i ∈ Finset.range m, g i = edgeFromFile weighted' fileWeighted (stored i))
      (fillEdgesFromFile weighted' schedule m data base fileWeighted edges) := by
    refine Returns.parallelLoop (I := fun done edges' => ∃ g, Contents edges' m g ∧
      ∀ i ∈ done, g i = edgeFromFile weighted' fileWeighted (stored i)) ?_ ?_
    · exact ⟨_, hsize ▸ Contents.self edges, fun i hi => absurd hi (Finset.notMem_empty i)⟩
    · rintro done i edges' hi hnot ⟨g, hg, hdone⟩
      refine Returns.bind_eq (hdata i hi) ?_
      obtain ⟨edges'', hwrite, hg'⟩ := hg.write hi (edgeFromFile weighted' fileWeighted (stored i))
      refine Returns.of_eq hwrite ⟨_, hg', fun j hj => ?_⟩
      rcases Finset.mem_insert.mp hj with rfl | hj
      · exact Function.update_self ..
      · rw [Function.update_of_ne (fun hji : j = i => hnot (hji ▸ hj))]
        exact hdone j hj
  exact hloop.mono fun edges' ⟨g, hg, hdone⟩ => hg.congr fun i hi => hdone i (Finset.mem_range.mpr hi)

/-- The header of a file. -/
theorem readAt_header (h : WellFormed G weighted) :
    readAt (fileOf G weighted) 8 0 = some G.n ∧ readAt (fileOf G weighted) 8 8 = some G.m ∧
      readAt (fileOf G weighted) 8 16 = some (sizeWord G.n G.m weighted) := by
  have hread (i : ℕ) (hi : i < 3) : readAt (fileOf G weighted) 8 (8 * i) =
    some (headerWord G weighted i % 256 ^ 8) := by
    have hrec := @readAt_records 8 0 3 i (headerWord G weighted) []
      (records 8 0 (G.n + 1) (fun i => G.outOffsets.getD i 0) ++
        records (edgeWidth weighted) 0 G.m fun i => storedEdge weighted (G.outEdges.getD i 0)) hi
    rwa [List.nil_append, List.length_nil, Nat.zero_add, Nat.zero_add, ← List.append_assoc] at hrec
  have hn := h.n_lt
  have hm := h.m_lt
  refine ⟨(hread 0 (by omega)).trans ?_, (hread 1 (by omega)).trans ?_, (hread 2 (by omega)).trans ?_⟩
  · exact congrArg some (Nat.mod_eq_of_lt (hn.trans (by norm_num)))
  · exact congrArg some (Nat.mod_eq_of_lt (hm.trans (by norm_num)))
  · exact congrArg some (Nat.mod_eq_of_lt (Nat.mod_lt _ (by norm_num)))

/-- The offsets can be read at their places in the file. -/
theorem readAt_offsets (h : WellFormed G weighted) {i : ℕ} (hi : i < G.n + 1) :
    readAt (fileOf G weighted) 8 (24 + 8 * i) = some (G.outOffsets.getD i 0) := by
  have hrec := @readAt_records 8 0 (G.n + 1) i (fun i => G.outOffsets.getD i 0)
    (records 8 0 3 (headerWord G weighted))
    (records (edgeWidth weighted) 0 G.m fun i => storedEdge weighted (G.outEdges.getD i 0)) hi
  have hlt : G.outOffsets.getD i 0 < 256 ^ 8 := h.offset_lt (by omega)
  rw [length_records, Nat.zero_add, Nat.mod_eq_of_lt hlt] at hrec
  exact hrec

/-- The edges can be read at their places in the file. -/
theorem readAt_edges (h : WellFormed G weighted) {i : ℕ} (hi : i < G.m) :
    readAt (fileOf G weighted) (edgeWidth weighted) (24 + (G.n + 1) * 8 + edgeWidth weighted * i) =
      some (storedEdge weighted (G.outEdges.getD i 0)) := by
  have hrec := @readAt_records (edgeWidth weighted) 0 G.m i (fun i => storedEdge weighted (G.outEdges.getD i 0))
    (records 8 0 3 (headerWord G weighted) ++ records 8 0 (G.n + 1) fun i => G.outOffsets.getD i 0) [] hi
  rw [List.length_append, length_records, length_records, Nat.zero_add, List.append_nil,
    Nat.mod_eq_of_lt (storedEdge_lt (h.edge_lt i hi))] at hrec
  rw [Nat.mul_comm (G.n + 1) 8]
  exact hrec

/-- The size tells whether there are weights, unless there are no edges. -/
theorem sizeWord_eq_iff (h : WellFormed G weighted) (hm : G.m ≠ 0) :
    decide (sizeWord G.n G.m weighted = sizeWord G.n G.m true) = weighted := by
  have hbytes := h.bytes_lt
  cases weighted with
  | true => exact decide_eq_true rfl
  | false =>
    refine decide_eq_false ?_
    unfold sizeWord edgeWidth
    rw [if_neg Bool.false_ne_true, if_pos rfl, Nat.mod_eq_of_lt (by omega), Nat.mod_eq_of_lt (by omega)]
    omega

/-- The records that a reader sees, whatever it takes the file for. -/
theorem readAt_edges_file (h : WellFormed G weighted) {i : ℕ} (hi : i < G.m) :
    readAt (fileOf G weighted) (edgeWidth (decide (sizeWord G.n G.m weighted = sizeWord G.n G.m true)))
        (24 + (G.n + 1) * 8 + edgeWidth (decide (sizeWord G.n G.m weighted = sizeWord G.n G.m true)) * i) =
      some (storedEdge weighted (G.outEdges.getD i 0)) := by
  rw [sizeWord_eq_iff h (by omega)]
  exact readAt_edges h hi

/-- What reading a file has to give. -/
structure ReadBack (G : GraphData) (weighted weighted' : Bool) (H : GraphData) : Prop where
  n : H.n = G.n
  m : H.m = G.m
  outOffsets : H.outOffsets = G.outOffsets
  outEdges : H.outEdges = G.outEdges.map (convertEdge weighted weighted')
  inOffsets : H.inOffsets = #[]
  inEdges : H.inEdges = #[]

/-- The edges that have been read are the converted ones. -/
theorem edges_eq (h : WellFormed G weighted) {edges : Array ℕ}
    (hedges : Contents edges G.m fun i => edgeFromFile weighted'
      (decide (sizeWord G.n G.m weighted = sizeWord G.n G.m true)) (storedEdge weighted (G.outEdges.getD i 0))) :
    edges = G.outEdges.map (convertEdge weighted weighted') := by
  have hmap : Contents (G.outEdges.map (convertEdge weighted weighted')) G.m
      fun i => convertEdge weighted weighted' (G.outEdges.getD i 0) := by
    refine ⟨by rw [Array.size_map, h.outEdges_size], fun i hi => ?_⟩
    rw [Array.getElem?_map, h.edges.get i hi, Option.map_some]
  refine (hedges.congr fun i hi => ?_).eq hmap
  rw [sizeWord_eq_iff h (by omega), edgeFromFile_stored (h.edge_lt i hi)]

/-- A mapped file is read back. -/
theorem readMapped_eq (h : WellFormed G weighted) (schedules : ℕ → Schedule) (uninit : ℕ) :
    Returns (ReadBack G weighted weighted') (readMapped schedules uninit weighted' (fileOf G weighted)) := by
  obtain ⟨hn, hm, hsize⟩ := readAt_header h
  unfold readMapped
  refine Returns.bind_eq hn (Returns.bind_eq hm (Returns.bind_eq hsize ?_))
  have hoffsets : Returns (fun a : Array ℕ => ∃ g, Contents a (G.n + 1) g ∧
      ∀ i ∈ Finset.range (G.n + 1), g i = G.outOffsets.getD i 0)
      (parallelLoop (schedules 0) (G.n + 1) (Array.replicate (G.n + 1) uninit) fun i outOffsets => do
        let x ← readAt (fileOf G weighted) 8 (24 + 8 * i)
        write outOffsets i x) := by
    refine Returns.parallelLoop (I := fun done a => ∃ g, Contents a (G.n + 1) g ∧
      ∀ i ∈ done, g i = G.outOffsets.getD i 0) ?_ ?_
    · exact ⟨_, Contents.replicate _ _, fun i hi => absurd hi (Finset.notMem_empty i)⟩
    · rintro done i a hi hnot ⟨g, hg, hdone⟩
      refine Returns.bind_eq (readAt_offsets h hi) ?_
      obtain ⟨a', hwrite, hg'⟩ := hg.write hi (G.outOffsets.getD i 0)
      refine Returns.of_eq hwrite ⟨_, hg', fun j hj => ?_⟩
      rcases Finset.mem_insert.mp hj with rfl | hj
      · exact Function.update_self ..
      · rw [Function.update_of_ne (fun hji : j = i => hnot (hji ▸ hj))]
        exact hdone j hj
  refine hoffsets.bind fun a ⟨g, hg, hdone⟩ => ?_
  have ha : a = G.outOffsets := (hg.congr fun i hi => hdone i (Finset.mem_range.mpr hi)).eq h.offsets
  refine (fillEdgesFromFile_eq (schedules 1) Array.size_replicate fun i hi => readAt_edges_file h hi).bind
    fun edges hedges => ?_
  exact Returns.pure ⟨rfl, rfl, ha, edges_eq h hedges, rfl, rfl⟩

/-- The length of a file. -/
theorem length_fileOf : (fileOf G weighted).length = 24 + (G.n + 1) * 8 + G.m * edgeWidth weighted := by
  rw [fileOf, List.length_append, List.length_append, length_records, length_records, length_records]
  ring

/-- An edge has between 1 and 8 bytes. -/
theorem edgeWidth_pos_le (weighted : Bool) : 0 < edgeWidth weighted ∧ edgeWidth weighted ≤ 8 := by
  cases weighted with
  | false => exact ⟨by decide, by decide⟩
  | true => exact ⟨by decide, by decide⟩

/-- The bytes of the edges, whatever the reader takes the file for. -/
theorem edgeBytes_eq (h : WellFormed G weighted) :
    G.m * edgeWidth (decide (sizeWord G.n G.m weighted = sizeWord G.n G.m true)) = G.m * edgeWidth weighted := by
  by_cases hm : G.m = 0
  · rw [hm, Nat.zero_mul, Nat.zero_mul]
  · rw [sizeWord_eq_iff h hm]

/-- A file in a stream is read back. -/
theorem readStream_eq (h : WellFormed G weighted) (schedules : ℕ → Schedule) (uninit : ℕ) (fresh : Byte) :
    Returns (ReadBack G weighted weighted') (readStream schedules uninit weighted' fresh
      (fileOf G weighted)) := by
  obtain ⟨hn, hm, hsize⟩ := readAt_header h
  have hbytes := h.bytes_lt
  have hwidth : G.m * edgeWidth weighted ≤ G.m * 8 := Nat.mul_le_mul_left _ (edgeWidth_pos_le weighted).2
  have hlength : (fileOf G weighted).length = 24 + (G.n + 1) * 8 + G.m * edgeWidth weighted := length_fileOf
  unfold readStream
  refine Returns.bind_eq hn (Returns.bind_eq hm (Returns.bind_eq hsize ?_))
  refine (returns_parallelRead (schedules 0) (Contents.replicate _ _) le_rfl (by omega) (by omega)).bind ?_
  rintro buffer ⟨f, hbuffer, hread⟩
  have hbuild : Returns (fun a => Contents a (G.n + 1) fun i => G.outOffsets.getD i 0)
      (build (G.n + 1) fun i => readAt buffer.toList 8 (8 * i)) := by
    refine Returns.build fun i hi => ?_
    rw [readAt_buffer (by omega) hbuffer le_rfl hread (by omega)]
    exact readAt_offsets h hi
  refine hbuild.bind fun offsets hoffsets => ?_
  have hraw := edgeBytes_eq h
  refine (returns_parallelRead (schedules 1) (Contents.replicate _ _) (by omega) (by omega) (by omega)).bind ?_
  rintro raw ⟨g, hcontents, hread'⟩
  have hrecords : ∀ i < G.m,
      readAt raw.toList (edgeWidth (decide (sizeWord G.n G.m weighted = sizeWord G.n G.m true)))
        (0 + edgeWidth (decide (sizeWord G.n G.m weighted = sizeWord G.n G.m true)) * i) =
          some (storedEdge weighted (G.outEdges.getD i 0)) := by
    intro i hi
    have hfit := Nat.mul_le_mul_left (edgeWidth (decide (sizeWord G.n G.m weighted = sizeWord G.n G.m true)))
      (show i + 1 ≤ G.m by omega)
    rw [Nat.mul_comm _ G.m, Nat.mul_succ] at hfit
    rw [readAt_buffer (by omega) hcontents (by omega) hread' (by omega), Nat.zero_add]
    exact readAt_edges_file h hi
  refine (fillEdgesFromFile_eq (schedules 2) Array.size_replicate hrecords).bind fun edges hedges => ?_
  exact Returns.pure ⟨rfl, rfl, hoffsets.eq h.offsets, edges_eq h hedges, rfl, rfl⟩

/-- Both ways of reading a file that was written. -/
theorem readBinaryFormat_eq (weighted' : Bool) (h : WellFormed G weighted) (schedules : ℕ → Schedule)
    (uninit : ℕ) (mapped : Bool) (fresh : Byte) :
    Returns (ReadBack G weighted weighted')
      (readBinaryFormat schedules uninit weighted' mapped fresh (fileOf G weighted)) := by
  cases mapped with
  | true => exact readMapped_eq h schedules uninit
  | false => exact readStream_eq h schedules uninit fresh

end Read

end GraphFile

end ToggleTree
