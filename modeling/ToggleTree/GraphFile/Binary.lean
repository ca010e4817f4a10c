import ToggleTree.Checked.Bytes
import ToggleTree.Parallel.Word
import ToggleTree.Primitives.Blocks

/-!
# The binary graph format

A file holds the number of vertices, the number of edges and its own size, then the offsets, then
the edges. An edge is the target alone, or the weight and the target in one word; in a file the two
halves of that word are swapped. The size tells whether the edges have weights.

Files are read through a mapping or, where mappings are not to be used, in chunks that are read
independently of each other. Weights are 32-bit integers.
-/

namespace ToggleTree

open Checked Primitives

/-- The data of a graph in compressed sparse row format. -/
structure GraphData where
  n : ℕ
  m : ℕ
  outOffsets : Array ℕ
  outEdges : Array ℕ
  inOffsets : Array ℕ
  inEdges : Array ℕ

namespace GraphFile

/-- The bytes of an edge. -/
def edgeWidth (weighted : Bool) : ℕ := if weighted then 8 else 4

/-- The bytes of a file with `n` vertices and `m` edges. -/
def sizeWord (n m : ℕ) (weighted : Bool) : ℕ := (24 + (n + 1) * 8 + m * edgeWidth weighted) % 2 ^ 64

section Write

/-- The word with its halves exchanged. -/
def swapHalves (x : ℕ) : ℕ := (x >>> 32 ||| x <<< 32) % 2 ^ 64

/-- The number of edges that are written at a time. -/
def chunk : ℕ := 1 <<< 26

/-- The loop that writes weighted edges; `raw` is the buffer and `out` what has been written. -/
def writeChunks (schedules : ℕ → Schedule) (G : GraphData) (first : ℕ) (raw : Array ℕ) (out : List Byte) :
    Option (List Byte) :=
  if first < G.m then do
    let length := min chunk (G.m - first)
    let raw ← parallelLoop (schedules first) length raw fun i raw => do
      let x ← G.outEdges[first + i]?
      write raw i (swapHalves x)
    let bytes ← bytesOf 8 raw length
    writeChunks schedules G (first + chunk) raw (out ++ bytes)
  else some out
termination_by G.m - first
decreasing_by
  have : 0 < chunk := by decide
  omega

/-- `write_graph`: the bytes of the file. -/
def writeGraph (schedules : ℕ → Schedule) (uninit : ℕ) (weighted : Bool) (G : GraphData) :
    Option (List Byte) := do
  let header ← bytesOf 8 #[G.n, G.m, sizeWord G.n G.m weighted] 3
  let offsets ← bytesOf 8 G.outOffsets (G.n + 1)
  if weighted then writeChunks schedules G 0 (Array.replicate (min G.m chunk) uninit) (header ++ offsets)
  else do
    let edges ← bytesOf 4 G.outEdges G.m
    some (header ++ offsets ++ edges)

end Write

section Read

variable (schedules : ℕ → Schedule) (uninit : ℕ) (weighted : Bool)

/-- The edge that is stored for a record of the file. -/
def edgeFromFile (fileWeighted : Bool) (x : ℕ) : ℕ :=
  match fileWeighted, weighted with
  | false, false => x
  | false, true => glue32 1 x
  | true, false => hi32 x
  | true, true => glue32 (lo32 x) (hi32 x)

/-- `fill_edges_from_file` with the edge data at `base`. -/
def fillEdgesFromFile (schedule : Schedule) (m : ℕ) (data : List Byte) (base : ℕ) (fileWeighted : Bool)
    (edges : Array ℕ) :
    Option (Array ℕ) :=
  parallelLoop schedule m edges fun i edges => do
    let x ← readAt data (edgeWidth fileWeighted) (base + edgeWidth fileWeighted * i)
    write edges i (edgeFromFile weighted fileWeighted x)

/-- `read_binary_format` with a mapped file. -/
def readMapped (data : List Byte) : Option GraphData := do
  let n ← readAt data 8 0
  let m ← readAt data 8 8
  let size ← readAt data 8 16
  let fileWeighted := decide (size = sizeWord n m true)
  let outOffsets ← parallelLoop (schedules 0) (n + 1) (Array.replicate (n + 1) uninit) fun i outOffsets => do
    let x ← readAt data 8 (24 + 8 * i)
    write outOffsets i x
  let outEdges ← fillEdgesFromFile weighted (schedules 1) m data (24 + (n + 1) * 8) fileWeighted
    (Array.replicate m uninit)
  some ⟨n, m, outOffsets, outEdges, #[], #[]⟩

/-- `parallel_read`: bytes of the file from `fileOffset` on, in chunks of whole pages for 192 readers. -/
def parallelRead (schedule : Schedule) (file : List Byte) (fileOffset : ℕ) (output : Array Byte) (size : ℕ) :
    Option (Array Byte) :=
  if size = 0 then some output
  else
    let chunkSize := ceilDiv (ceilDiv size 192) 4096 * 4096
    parallelLoop schedule (ceilDiv size chunkSize) output fun chunk output =>
      let start := chunk * chunkSize
      loop 0 (min chunkSize (size - start)) output fun j output => do
        let b ← file[fileOffset + start + j]?
        write output (start + j) b

/-- `read_binary_format` with chunks; `fresh` is what new buffers hold. -/
def readStream (fresh : Byte) (file : List Byte) : Option GraphData := do
  let n ← readAt file 8 0
  let m ← readAt file 8 8
  let size ← readAt file 8 16
  let fileWeighted := decide (size = sizeWord n m true)
  let offsetsBytes := (n + 1) * 8
  let buffer ← parallelRead (schedules 0) file 24 (Array.replicate offsetsBytes fresh) offsetsBytes
  let outOffsets ← build (n + 1) fun i => readAt buffer.toList 8 (8 * i)
  let edgeBytes := m * edgeWidth fileWeighted
  let raw ← parallelRead (schedules 1) file (24 + offsetsBytes)
    (Array.replicate ((edgeBytes + 7) / 8 * 8) fresh) edgeBytes
  let outEdges ← fillEdgesFromFile weighted (schedules 2) m raw.toList 0 fileWeighted (Array.replicate m uninit)
  some ⟨n, m, outOffsets, outEdges, #[], #[]⟩

/-- `read_binary_format`, in one of the two ways that the build chooses. -/
def readBinaryFormat (mapped : Bool) (fresh : Byte) (file : List Byte) : Option GraphData :=
  if mapped then readMapped schedules uninit weighted file else readStream schedules uninit weighted fresh file

end Read

end GraphFile

end ToggleTree
