import Mcpq.Hierarchical.Run

/-!
# Access patterns

The class `AccessPatterns`: the calls that simulated programs make. What a trace does next never
depends on the outcomes of its calls, so that it is the list of its calls; a trace may also have no
end.
-/

namespace Mcpq.Hierarchical

namespace AccessPatterns

/-! ## Block join -/

/-- The R blocks `l` to `i` (excluded) that are in memory together, for each iteration of the outer
    loop from the block `l` on. An iteration retrieves at most `n` of the `r` blocks. -/
def groups (n r : ℕ) : ℕ → ℕ → Java (List (ℕ × ℕ))
  | fuel, l =>
    if l < r then
      match fuel with
      | 0 => .error .diverges
      | fuel + 1 => do
        let i := min (l + n) r
        let rest ← groups n r fuel i
        pure ((l, i) :: rest)
    else .ok []

/-- Retrieve the R blocks from `l` to `i` from disk into memory. -/
def retrieve (chain : ℤ) (l i : ℕ) : List Call :=
  (List.range' l (i - l)).flatMap fun b : ℕ => [.access b, .link chain b]

/-- Load the S block `j` from disk, and compare its records with those of the R blocks. -/
def compare (l i j : ℕ) : List Call :=
  .access j :: ((List.range' l (i - l)).flatMap fun b : ℕ => [.access b, .access j]) ++ [.unlink j]

/-- An iteration of the outer loop. The S blocks are numbered from `r + s` on. -/
def join (chain : ℤ) (r s l i : ℕ) : List Call :=
  retrieve chain l i ++ (List.range' (r + s) s).flatMap (compare l i) ++ [.breakMemoryChain chain]

/-- The calls of `trace_block_join(r, s)` to a manager: the chain created has the next identifier
    of the manager. -/
def traceBlockJoin (memMgr : HierarchicalMemoryManager) (r s : ℕ) : Java (List Call) := do
  let chain := memMgr.chainId
  -- An iteration that makes progress retrieves a block.
  let iterations ← groups (memMgr.size - 1) r r 0
  pure (.createMemoryChain .mru :: iterations.flatMap (fun (l, i) => join chain r s l i) ++
    [.releaseMemoryChain chain])

/-! ## Naive matrix multiplication -/

/-- The accesses of the innermost loop, to an element of `A` and to one of `B`. The elements of the row
    of `A` are linked when they are accessed first. -/
def multiply (chain : ℤ) (m n i j k : ℕ) : List Call :=
  let A : ℤ := i * n + k
  let B : ℤ := j * n + k + m * n
  [.access A] ++ (if j = 0 then [.link chain A] else []) ++ [.access B]

/-- The accesses for an entry of the result. -/
def entry (chain : ℤ) (m n i j : ℕ) : List Call := (List.range n).flatMap (multiply chain m n i j)

/-- An iteration of the outer loop. -/
def row (chain : ℤ) (m n i : ℕ) : List Call :=
  (List.range m).flatMap (entry chain m n i) ++ [.breakMemoryChain chain]

/-- The calls of `trace_naive_matrix_multiplication(m, n)` to a manager. -/
def traceNaiveMatrixMultiplication (memMgr : HierarchicalMemoryManager) (m n : ℕ) : List Call :=
  let chain := memMgr.chainId
  .createMemoryChain .mru :: (List.range n).flatMap (row chain m n)

end AccessPatterns

end Mcpq.Hierarchical
