import ToggleTree.BreadthFirstSearch.Tree
import ToggleTree.IndexSet.Mixed
import ToggleTree.IndexSet.Window
import ToggleTree.IndexMap.Operated
import ToggleTree.IndexMap.Orders
import ToggleTree.Scheduler.ParallelDo
import ToggleTree.Scheduler.Termination
import ToggleTree.Primitives.SampleSort
import ToggleTree.Primitives.Scan
import ToggleTree.UnionFind.WaitFree
import ToggleTree.IndexMap.Layers
import ToggleTree.ShortestPath.BellmanFord
import ToggleTree.Coloring.Greedy
import ToggleTree.KCore.Sampling
import ToggleTree.KCore.Exact
import ToggleTree.Allocator.Arrays
import ToggleTree.GraphFile.Consistent
import ToggleTree.GraphFile.GenerateWeight
import ToggleTree.Graph.QueueSession
import ToggleTree.Parallel.Deposit
import ToggleTree.Parallel.WriteMin
import ToggleTree.Parallel.Speculation
import ToggleTree.Primitives.Reduce
import ToggleTree.Benchmark.SearchDriver
import ToggleTree.Benchmark.Results
import ToggleTree.Graph.SetRefinement
