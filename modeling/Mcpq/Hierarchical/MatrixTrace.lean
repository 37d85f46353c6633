import Mcpq.Hierarchical.MatrixMultiplication

/-!
# What the matrix trace multiplies

The trace of a matrix multiplication should multiply an `m` by `n` matrix `A`, stored by rows from 0 on,
with an `n` by `m` matrix `B`, stored by columns after `A` (`IsProduct`). Its outer loop makes `n`
iterations instead of `m` (`accesses_trace`), so that it does for square matrices only
(`trace_isProduct`). If `n` exceeds `m`, the rows it reads after the last one of `A` are elements of `B`
(`apart_iff`).
-/

namespace Mcpq.Hierarchical

open AccessPatterns

/-- The operands multiplied for an entry of the result, an element of `A` and one of `B` for each
    product. -/
def entryOperands (m n i j : ℕ) : List (ℤ × ℤ) :=
  (List.range n).map fun k : ℕ => (i * n + k, m * n + j * n + k)

/-- The operands multiplied for a list of entries. -/
def operands (m n : ℕ) (entries : List (ℕ × ℕ)) : List (ℤ × ℤ) :=
  entries.flatMap fun e => entryOperands m n e.1 e.2

/-- The accesses to operands, to that of `A` first. -/
def operandAccesses (ops : List (ℤ × ℤ)) : List ℤ := ops.flatMap fun o => [o.1, o.2]

/-- No address is that of an element of `A` and of an element of `B`. -/
def Apart (ops : List (ℤ × ℤ)) : Prop := (ops.map Prod.fst).Disjoint (ops.map Prod.snd)

/-- The accesses are those of the product of an `m` by `n` matrix and an `n` by `m` matrix: they are made
    for each entry of the result, in some order, and no address belongs to both matrices. -/
def IsProduct (m n : ℕ) (as : List ℤ) : Prop :=
  ∃ entries, entries.Perm (List.range m ×ˢ List.range m) ∧
    as = operandAccesses (operands m n entries) ∧ Apart (operands m n entries)

variable {m n : ℕ}

theorem operandAccesses_operands (entries : List (ℕ × ℕ)) : operandAccesses (operands m n entries) =
    entries.flatMap fun e => operandAccesses (entryOperands m n e.1 e.2) := List.flatMap_assoc

theorem accesses_flatMap {β : Type*} (l : List β) (body : β → List Call) :
    accesses (l.flatMap body) = l.flatMap fun b => accesses (body b) := List.filterMap_flatMap

/-! ## The loops -/

theorem accesses_entry (c : ℤ) (i j : ℕ) :
    accesses (entry c m n i j) = operandAccesses (entryOperands m n i j) := by
  rw [entry, accesses_flatMap, operandAccesses, entryOperands, List.flatMap_map]
  refine List.flatMap_congr fun k _ => ?_
  rw [accesses_multiply, show (j * n + k + m * n : ℤ) = m * n + j * n + k by ring]

theorem accesses_row (c : ℤ) (i : ℕ) :
    accesses (row c m n i) = operandAccesses (operands m n ((List.range m).map (i, ·))) := by
  rw [row, accesses_append, accesses_flatMap, operandAccesses_operands, List.flatMap_map]
  refine (List.append_nil _).trans (List.flatMap_congr fun j _ => ?_)
  exact accesses_entry c i j

/-- The trace makes the accesses for the entries in `n` rows. -/
theorem accesses_trace (memMgr : HierarchicalMemoryManager) :
    accesses (traceNaiveMatrixMultiplication memMgr m n) =
      operandAccesses (operands m n (List.range n ×ˢ List.range m)) := by
  have hrows : accesses (traceNaiveMatrixMultiplication memMgr m n) =
      accesses ((List.range n).flatMap (row memMgr.chainId m n)) := rfl
  have hentries : List.range n ×ˢ List.range m =
      (List.range n).flatMap fun i => (List.range m).map (i, ·) := rfl
  rw [hrows, accesses_flatMap, hentries, operandAccesses_operands, List.flatMap_assoc]
  refine List.flatMap_congr fun i _ => ?_
  rw [accesses_row, operandAccesses_operands]

/-! ## The operands -/

theorem mem_operands {entries : List (ℕ × ℕ)} {o : ℤ × ℤ} : o ∈ operands m n entries ↔
    ∃ i j k : ℕ, (i, j) ∈ entries ∧ k < n ∧ o = ((i * n + k : ℤ), (m * n + j * n + k : ℤ)) := by
  simp only [operands, entryOperands, List.mem_flatMap, List.mem_map, List.mem_range, Prod.exists]
  constructor
  · rintro ⟨i, j, he, k, hk, rfl⟩
    exact ⟨i, j, k, he, hk, rfl⟩
  · rintro ⟨i, j, k, he, hk, rfl⟩
    exact ⟨i, j, he, k, hk, rfl⟩

theorem length_entryOperands (i j : ℕ) :
    (operandAccesses (entryOperands m n i j)).length = n * 2 := by
  simp [operandAccesses, entryOperands, List.length_flatMap, Function.comp_def]

theorem length_operandAccesses (entries : List (ℕ × ℕ)) :
    (operandAccesses (operands m n entries)).length = entries.length * (n * 2) := by
  rw [operandAccesses_operands]
  induction entries with
  | nil => exact (Nat.zero_mul _).symm
  | cons e es ih =>
    rw [List.flatMap_cons, List.length_append, ih, List.length_cons, length_entryOperands,
      Nat.succ_mul, Nat.add_comm]

/-- The elements of `A` come before those of `B` if and only if there are at most `m` rows. -/
theorem apart_iff {rows columns : ℕ} (hcolumns : 1 ≤ columns) (hn : 1 ≤ n) :
    Apart (operands m n (List.range rows ×ˢ List.range columns)) ↔ rows ≤ m := by
  constructor
  · intro h
    by_contra hrows
    -- The row after the last one of `A` starts where `B` does.
    have hmem : ∀ i, i < rows → ((i * n : ℤ), (m * n : ℤ)) ∈
        operands m n (List.range rows ×ˢ List.range columns) := fun i hi =>
      mem_operands.2 ⟨i, 0, 0, List.mem_product.2 ⟨List.mem_range.2 hi, List.mem_range.2 hcolumns⟩, hn,
        by simp⟩
    exact h (List.mem_map_of_mem (hmem m (by omega))) (List.mem_map_of_mem (hmem 0 (by omega)))
  · intro hrows a ha hb
    obtain ⟨_, ho, rfl⟩ := List.mem_map.1 ha
    obtain ⟨_, ho', heq⟩ := List.mem_map.1 hb
    obtain ⟨i, j, k, he, hk, rfl⟩ := mem_operands.1 ho
    obtain ⟨i', j', k', -, -, rfl⟩ := mem_operands.1 ho'
    have hi : i + 1 ≤ m := (List.mem_range.1 (List.mem_product.1 he).1).trans_le hrows
    have hlt : i * n + k < m * n := calc
      i * n + k < (i + 1) * n := by rw [Nat.succ_mul]; omega
      _ ≤ m * n := Nat.mul_le_mul_right n hi
    have hlt' : (i * n + k : ℤ) < m * n := by exact_mod_cast hlt
    have hle : (0 : ℤ) ≤ j' * n := by positivity
    simp only at heq
    omega

/-! ## The product -/

theorem IsProduct.length_eq {as : List ℤ} (h : IsProduct m n as) :
    as.length = m * m * (n * 2) := by
  obtain ⟨entries, hperm, rfl, -⟩ := h
  rw [length_operandAccesses, hperm.length_eq, List.length_product, List.length_range]

/-- The trace is that of the product if and only if the matrices are square. -/
theorem trace_isProduct (memMgr : HierarchicalMemoryManager) (hm : 1 ≤ m) (hn : 1 ≤ n) :
    IsProduct m n (accesses (traceNaiveMatrixMultiplication memMgr m n)) ↔ m = n := by
  rw [accesses_trace]
  constructor
  · intro h
    have hlen := h.length_eq
    rw [length_operandAccesses, List.length_product, List.length_range, List.length_range] at hlen
    have hrows := Nat.eq_of_mul_eq_mul_right (by omega) hlen
    exact (Nat.eq_of_mul_eq_mul_right hm hrows).symm
  · rintro rfl
    exact ⟨_, .refl _, rfl, (apart_iff hm hn).2 le_rfl⟩

/-- The product of square matrices. -/
theorem trace_isProduct_three :
    IsProduct 3 3 (accesses (traceNaiveMatrixMultiplication (.make 5 {} fun _ => 0) 3 3)) :=
  (trace_isProduct _ (by decide) (by decide)).2 rfl

/-- The trace for a matrix of three rows and four columns reads four rows. -/
theorem not_trace_isProduct : ¬∀ (memMgr : HierarchicalMemoryManager) (m n : ℕ), 1 ≤ m → 1 ≤ n →
    IsProduct m n (accesses (traceNaiveMatrixMultiplication memMgr m n)) := by
  intro hproduct
  have hlen := (hproduct (.make 5 {} fun _ => 0) 3 4 (by decide) (by decide)).length_eq
  rw [accesses_trace, length_operandAccesses] at hlen
  exact absurd hlen (by decide)

end Mcpq.Hierarchical
