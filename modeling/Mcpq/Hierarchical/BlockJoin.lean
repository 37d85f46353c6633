import Mcpq.Hierarchical.AccessPatterns
import Mcpq.Hierarchical.OneChain
import Mathlib.Algebra.Order.Floor.Div

/-!
# The block join does not thrash

The trace of a nested block join links the R blocks of an iteration to a chain, and hates each S
block after its use, so that it is an S block, or an R block of a former iteration, that is evicted
(`Between`, `joins`): an R block is loaded once, and an S block once in each iteration
(`block_join`).
-/

namespace Mcpq.Hierarchical

open HierarchicalMemoryManager AccessPatterns

variable {k : ℕ} {c a : ℤ} {C H D : List ℤ} {order : ℕ → List ℤ → List ℤ}

/-! ## Commands -/

theorem triple_hit (ha : a ∈ C ∨ a ∈ D) :
    Triple (Call.command order) (Queues k c C H D) [.access a]
      fun s os => Queues k c C H D s ∧ os = [.hit] :=
  .single fun i s hs => by
    obtain ⟨s', heq, hs', -⟩ := hs.access_hit ha (order i s.usrChains)
    refine ⟨s', [.hit], ?_, hs', rfl⟩
    rw [Call.command, Call.exec, heq]
    rfl

theorem triple_fault (ho : ∀ i l, (order i l).Perm l) (hk : 0 < k) (haC : a ∉ C) (haH : a ∉ H)
    (hor : C.length + H.length < k ∨ H ≠ []) :
    Triple (Call.command order) (Queues k c C H []) [.access a] fun s os =>
      Queues k c C (if C.length + H.length < k then H else H.dropLast) [a] s ∧
        os = [.fault (if C.length + H.length < k then none else H.getLast?)] :=
  .single fun i s hs => by
    obtain ⟨s', heq, hs'⟩ := hs.access_fault hk (ho i s.usrChains) haC haH hor
    refine ⟨s', _, ?_, hs', rfl⟩
    rw [Call.command, Call.exec, heq]
    rfl

theorem triple_link :
    Triple (Call.command order) (Queues k c C H [a]) [.link c a]
      fun s os => Queues k c (a :: C) H [] s ∧ os = [] :=
  .single fun i s hs => by
    obtain ⟨s', heq, hs', -⟩ := hs.link
    refine ⟨s', [], ?_, hs', rfl⟩
    rw [Call.command, Call.exec, heq]
    rfl

theorem triple_unlink :
    Triple (Call.command order) (Queues k c C H [a]) [.unlink a]
      fun s os => Queues k c C (a :: H) [] s ∧ os = [] :=
  .single fun i s hs => by
    obtain ⟨s', heq, hs'⟩ := hs.unlink
    refine ⟨s', [], ?_, hs', rfl⟩
    rw [Call.command, Call.exec, heq]
    rfl

theorem triple_break :
    Triple (Call.command order) (Queues k c C H []) [.breakMemoryChain c]
      fun s os => Queues k c [] (C.reverse ++ H) [] s ∧ os = [] :=
  .single fun i s hs => by
    obtain ⟨s', heq, hs'⟩ := hs.breakMemoryChain
    refine ⟨s', [], ?_, hs', rfl⟩
    rw [Call.command, Call.exec, heq]
    rfl

/-! ## Retrieving the R blocks -/

/-- The pages are those of R blocks before `l`. -/
def Old (l : ℕ) (H : List ℤ) : Prop := ∀ a ∈ H, a < l

/-- What is hated between two iterations of the outer loop, in a memory of capacity `k`: the R blocks
    before `l`, and possibly an S block, hated first in a full memory. -/
def Between (k l r : ℕ) (H : List ℤ) : Prop :=
  H.length ≤ k ∧ (Old l H ∨ H.length = k ∧ ∃ H' v, H = H' ++ [v] ∧ Old l H' ∧ (r : ℤ) ≤ v)

/-- No R block from `l` to `i` is evicted. -/
def Spares (l i : ℕ) (os : List (Outcome ℤ)) : Prop :=
  ∀ v : ℤ, .fault (some v) ∈ os → v < l ∨ i ≤ v

theorem Old.dropLast {l : ℕ} (h : Old l H) : Old l H.dropLast := fun a ha =>
  h a (List.mem_of_mem_dropLast ha)

/-- An access to an R block evicts the S block, if there is one. -/
theorem Between.old {l r : ℕ} (h : Between k l r H) :
    Old l (if H.length < k then H else H.dropLast) := by
  rcases h.2 with hold | ⟨hlen, H', v, rfl, hold, -⟩
  · split_ifs
    · exact hold
    · exact hold.dropLast
  · rw [if_neg (by omega), List.dropLast_concat]
    exact hold

theorem Between.not_mem {l r b : ℕ} (h : Between k l r H) (hl : l ≤ b) (hr : b < r) :
    (b : ℤ) ∉ H := by
  intro hb
  rcases h.2 with hold | ⟨-, H', v, rfl, hold, hv⟩
  · have := hold _ hb
    omega
  · rcases List.mem_append.1 hb with hb | hb
    · have := hold _ hb
      omega
    · rw [List.mem_singleton] at hb
      omega

theorem Spares.append {l i : ℕ} {os os' : List (Outcome ℤ)} (h : Spares l i os)
    (h' : Spares l i os') : Spares l i (os ++ os') := fun v hv =>
  (List.mem_append.1 hv).elim (h v) (h' v)

/-- The addresses of blocks. -/
def blocks (l : List ℕ) : List ℤ := l.map (↑)

theorem mem_blocks {l : List ℕ} : a ∈ blocks l ↔ ∃ b ∈ l, (b : ℤ) = a := List.mem_map

theorem old_blocks {l i : ℕ} (h : l ≤ i) : Old i (blocks (List.range' l (i - l))) := fun a ha => by
  obtain ⟨b, hb, rfl⟩ := mem_blocks.1 ha
  rw [List.mem_range'_1] at hb
  omega

/-- An iteration of the loop that retrieves the R blocks. -/
theorem triple_retrieve_step (ho : ∀ i l, (order i l).Perm l) {b : ℕ} (hbC : (b : ℤ) ∉ C)
    (hbH : (b : ℤ) ∉ H) (hlen : C.length + 1 < k) :
    Triple (Call.command order) (Queues k c C H []) [.access b, .link c b] fun s os =>
      Queues k c (b :: C) (if C.length + H.length < k then H else H.dropLast) [] s ∧
        os = [.fault (if C.length + H.length < k then none else H.getLast?)] := by
  have hor : C.length + H.length < k ∨ H ≠ [] := by
    by_cases hnil : H = []
    · rw [hnil, List.length_nil]
      omega
    · exact .inr hnil
  refine (triple_fault ho (by omega) hbC hbH hor).append fun os => .of_and fun hos => ?_
  refine triple_link.conseq (fun _ h => h) ?_
  rintro s' _ ⟨hs', rfl⟩
  exact ⟨hs', by rw [hos, List.append_nil]⟩

/-- The R blocks from `l` to `i` are retrieved: each is loaded, and linked to the chain. -/
theorem triple_retrieve (ho : ∀ i l, (order i l).Perm l) {l i r : ℕ} (hli : l < i) (hir : i ≤ r)
    (hk : i - l < k) :
    Triple (Call.command order) (fun s => ∃ H, Queues k c [] H [] s ∧ Between k l r H)
      (retrieve c l i) fun s os =>
        ∃ H, Queues k c (blocks (List.range' l (i - l))).reverse H [] s ∧
          (i - l + H.length ≤ k ∧ Old l H) ∧
          os.map Outcome.isFault = List.replicate (i - l) true ∧ Spares l i os := by
  refine (Triple.flatMap (fun done s os => ∃ H, Queues k c (blocks done).reverse H [] s ∧
    (done.length + H.length ≤ k ∧ (done ≠ [] → Old l H) ∧ (done = [] → Between k l r H)) ∧
    os.map Outcome.isFault = List.replicate done.length true ∧ Spares l i os) ?_).conseq ?_ ?_
  · intro done b rest hdone os
    obtain ⟨m, hm, rfl, hrest⟩ := List.range'_eq_append_iff.1 hdone
    obtain ⟨hb, hm', -⟩ := List.range'_eq_cons_iff.1 hrest.symm
    obtain rfl : l + m = b := by rw [← hb, Nat.mul_one]
    refine .of_exists fun H => .of_and fun ⟨⟨hlen, hold, hbtw⟩, hos, hsp⟩ => ?_
    rw [List.length_range'] at hlen hos
    have hC : (blocks (List.range' l m)).reverse.length = m := by simp [blocks]
    have hbC : ((l + m : ℕ) : ℤ) ∉ (blocks (List.range' l m)).reverse := by
      simp only [List.mem_reverse, mem_blocks, List.mem_range'_1, not_exists, not_and]
      omega
    -- The blocks hated are before `l`, but for the S block that the first access evicts.
    have hbtw' : m = 0 → Between k l r H := fun h0 => hbtw (by rw [h0]; rfl)
    have hold' : m ≠ 0 → Old l H := fun h0 => hold fun hnil => h0 (by
      simpa using congrArg List.length hnil)
    have hbH : ((l + m : ℕ) : ℤ) ∉ H := fun hb => by
      by_cases h0 : m = 0
      · exact (hbtw' h0).not_mem (Nat.le_add_right l m) (by omega) hb
      · have := hold' h0 _ hb
        omega
    have hnew : Old l (if m + H.length < k then H else H.dropLast) := by
      by_cases h0 : m = 0
      · simpa [h0] using (hbtw' h0).old
      · split_ifs
        · exact hold' h0
        · exact (hold' h0).dropLast
    have hCk : (blocks (List.range' l m)).reverse.length + 1 < k := by
      rw [hC]
      omega
    refine (triple_retrieve_step ho hbC hbH hCk).conseq (fun _ h => h) ?_
    rintro s' _ ⟨hs', rfl⟩
    rw [hC] at hs' ⊢
    refine ⟨_, ?_, ⟨?_, fun _ => hnew, fun h => absurd h (by simp)⟩, ?_, hsp.append ?_⟩
    · simpa [blocks] using hs'
    · rw [List.length_append, List.length_range', List.length_singleton]
      split_ifs
      · omega
      · rw [List.length_dropLast]
        omega
    · rw [List.map_append, hos, List.length_append, List.length_range', List.length_singleton,
        List.replicate_succ']
      rfl
    · intro v hv
      have hv' : v ∈ H := by
        simp only [List.mem_singleton, Outcome.fault.injEq] at hv
        split_ifs at hv
        exact List.mem_of_getLast? hv.symm
      by_cases h0 : m = 0
      · rcases (hbtw' h0).2 with hold | ⟨-, H', w, rfl, hold, hw⟩
        · exact .inl (hold v hv')
        · rcases List.mem_append.1 hv' with hv' | hv'
          · exact .inl (hold v hv')
          · rw [List.mem_singleton.1 hv']
            omega
      · exact .inl (hold' h0 v hv')
  · rintro s ⟨H, hs, hH⟩
    exact ⟨H, hs, ⟨by simpa using hH.1, fun h => absurd rfl h, fun _ => hH⟩, rfl, by simp [Spares]⟩
  · rintro s os ⟨H, hs, ⟨hlen, hold, -⟩, hos, hsp⟩
    rw [List.length_range'] at hlen hos
    refine ⟨H, hs, ⟨hlen, hold fun hnil => ?_⟩, hos, hsp⟩
    have := congrArg List.length hnil
    rw [List.length_range', List.length_nil] at this
    omega

/-! ## Comparing with the S blocks -/

/-- The accesses that compare the records of an S block with those of the R blocks hit. -/
theorem triple_compare_hits {l n : ℕ} :
    Triple (Call.command order)
      (Queues k c (blocks (List.range' l n)).reverse H [a])
      ((List.range' l n).flatMap fun b : ℕ => [.access b, .access a]) fun s os =>
        Queues k c (blocks (List.range' l n)).reverse H [a] s ∧
          os = List.replicate (2 * n) .hit := by
  refine (Triple.flatMap (fun done s os =>
    Queues k c (blocks (List.range' l n)).reverse H [a] s ∧
      os = List.replicate (2 * done.length) .hit) ?_).conseq (fun s hs => ⟨hs, rfl⟩) ?_
  · intro done b rest hdone os
    have hb : (b : ℤ) ∈ (blocks (List.range' l n)).reverse := by
      rw [List.mem_reverse, mem_blocks, hdone]
      exact ⟨b, by simp, rfl⟩
    rw [← List.singleton_append]
    refine .of_and fun hos => (triple_hit (.inl hb)).append fun os₁ => ?_
    refine .of_and fun hos₁ => (triple_hit (.inr (List.mem_singleton_self a))).conseq
      (fun _ h => h) ?_
    rintro s' _ ⟨hs', rfl⟩
    refine ⟨hs', ?_⟩
    rw [hos, hos₁, List.length_append, List.length_singleton, Nat.mul_add, List.replicate_add]
    rfl
  · rintro s os ⟨hs, rfl⟩
    rw [List.length_range']
    exact ⟨hs, rfl⟩

/-- The comparison with the S block `j` loads it, and hates it afterwards. -/
theorem triple_compare (ho : ∀ i l, (order i l).Perm l) {l i j : ℕ} (hk : i - l < k)
    (hjl : i ≤ j) (hjH : (j : ℤ) ∉ H) :
    Triple (Call.command order) (Queues k c (blocks (List.range' l (i - l))).reverse H [])
      (compare l i j) fun st os =>
        Queues k c (blocks (List.range' l (i - l))).reverse
            (j :: if i - l + H.length < k then H else H.dropLast) [] st ∧
          os = .fault (if i - l + H.length < k then none else H.getLast?) ::
            List.replicate (2 * (i - l)) .hit := by
  have hC : (blocks (List.range' l (i - l))).reverse.length = i - l := by simp [blocks]
  have hjC : (j : ℤ) ∉ (blocks (List.range' l (i - l))).reverse := by
    simp only [List.mem_reverse, mem_blocks, List.mem_range'_1, not_exists, not_and]
    omega
  have hor : (blocks (List.range' l (i - l))).reverse.length + H.length < k ∨ H ≠ [] := by
    by_cases hnil : H = []
    · rw [hnil, List.length_nil, hC]
      omega
    · exact .inr hnil
  have hload := triple_fault (c := c) ho (by omega) hjC hjH hor
  rw [hC] at hload
  refine (hload.append (Q := fun st os => Queues k c (blocks (List.range' l (i - l))).reverse
    (if i - l + H.length < k then H else H.dropLast) [(j : ℤ)] st ∧
      os = .fault (if i - l + H.length < k then none else H.getLast?) ::
        List.replicate (2 * (i - l)) .hit) fun os => .of_and fun hos => ?_).append fun os =>
    .of_and fun hos => triple_unlink.conseq (fun _ h => h) ?_
  · refine triple_compare_hits.conseq (fun _ h => h) ?_
    rintro st _ ⟨hst, rfl⟩
    exact ⟨hst, by rw [hos]; rfl⟩
  · rintro st _ ⟨hst, rfl⟩
    exact ⟨hst, by rw [hos, List.append_nil]⟩

/-- The faults of an iteration of the outer loop with `n` R blocks and `s` S blocks: the R blocks are
    loaded, and then each S block is, before the accesses to it and to the R blocks hit. -/
def faultsOf (n s : ℕ) : List Bool :=
  List.replicate n true ++ (List.replicate s (true :: List.replicate (2 * n) false)).flatten

/-- The R blocks from `l` to `i` are compared with the S blocks. -/
theorem triple_compares (ho : ∀ i l, (order i l).Perm l) {l i r s : ℕ} (hli : l ≤ i) (hir : i ≤ r)
    (hk : i - l < k) (hlen : i - l + H.length ≤ k) (hold : Old l H) :
    Triple (Call.command order) (Queues k c (blocks (List.range' l (i - l))).reverse H [])
      ((List.range' (r + s) s).flatMap (compare l i)) fun st os =>
        ∃ H', Queues k c (blocks (List.range' l (i - l))).reverse H' [] st ∧
          (i - l + H'.length ≤ k ∧ (s = 0 → Old l H') ∧
            (s ≠ 0 → ∃ v H'', H' = v :: H'' ∧ (r : ℤ) ≤ v)) ∧
          os.map Outcome.isFault =
            (List.replicate s (true :: List.replicate (2 * (i - l)) false)).flatten ∧
          Spares l i os := by
  -- The invariant of the iterations: the hated chain holds blocks before `l` and S blocks only.
  refine (Triple.flatMap (fun done st os =>
    ∃ H', Queues k c (blocks (List.range' l (i - l))).reverse H' [] st ∧
      (i - l + H'.length ≤ k ∧ (∀ a ∈ H', a < l ∨ a ∈ blocks done) ∧
        (done ≠ [] → ∃ v H'', H' = v :: H'' ∧ (r : ℤ) ≤ v)) ∧
      os.map Outcome.isFault =
        (List.replicate done.length (true :: List.replicate (2 * (i - l)) false)).flatten ∧
      Spares l i os) ?_).conseq ?_ ?_
  · intro done j rest hdone os
    have hmem : ∀ b ∈ done ++ [j], r + s ≤ b := fun b hb => by
      have hb' : b ∈ List.range' (r + s) s := by
        rw [hdone]
        rw [← List.singleton_append, ← List.append_assoc]
        exact List.mem_append_left _ hb
      exact (List.mem_range'_1.1 hb').1
    have hj := hmem j (by simp)
    have hjdone : j ∉ done := by
      have hnd : (done ++ j :: rest).Nodup := hdone ▸ List.nodup_range'
      exact fun h => (List.nodup_append.1 hnd).2.2 j h j (by simp) rfl
    refine .of_exists fun H' => .of_and fun ⟨⟨hlen', hmem', _⟩, hos, hsp⟩ => ?_
    -- The block has not been compared before, and is no R block.
    have hjH : (j : ℤ) ∉ H' := fun hjH => by
      rcases hmem' _ hjH with h | h
      · omega
      · obtain ⟨b, hb, hbj⟩ := mem_blocks.1 h
        obtain rfl : b = j := by omega
        exact hjdone hb
    refine (triple_compare ho hk (by omega) hjH).conseq (fun _ h => h) ?_
    rintro st _ ⟨hst, rfl⟩
    -- If memory is full, the least recently used page of the hated chain is evicted for the block.
    have hsub : ∀ a ∈ (if i - l + H'.length < k then H' else H'.dropLast), a ∈ H' := fun a ha => by
      split_ifs at ha
      · exact ha
      · exact List.mem_of_mem_dropLast ha
    refine ⟨_, hst, ⟨?_, fun a ha => ?_, fun _ => ⟨_, _, rfl, by omega⟩⟩, ?_, hsp.append ?_⟩
    · rw [List.length_cons]
      split_ifs
      · omega
      · rw [List.length_dropLast]
        omega
    · rcases List.mem_cons.1 ha with rfl | ha
      · exact .inr (mem_blocks.2 ⟨j, by simp, rfl⟩)
      · refine (hmem' a (hsub a ha)).imp_right fun h => ?_
        obtain ⟨b, hb, rfl⟩ := mem_blocks.1 h
        exact mem_blocks.2 ⟨b, List.mem_append_left _ hb, rfl⟩
    · rw [List.map_append, hos, List.length_append, List.length_singleton, List.replicate_succ',
        List.flatten_append]
      simp [Outcome.isFault]
    · -- The page that is evicted was on the hated chain: it is no R block of this iteration.
      intro v hv
      have hv' : v ∈ H' := by
        simp only [List.mem_cons, List.mem_replicate, reduceCtorEq, and_false, or_false,
          Outcome.fault.injEq] at hv
        split_ifs at hv
        exact List.mem_of_getLast? hv.symm
      refine (hmem' v hv').imp_right fun h => ?_
      obtain ⟨b, hb, rfl⟩ := mem_blocks.1 h
      have := hmem b (List.mem_append_left _ hb)
      omega
  · intro st hst
    exact ⟨H, hst, ⟨hlen, fun a ha => .inl (hold a ha), fun h => absurd rfl h⟩, rfl,
      by simp [Spares]⟩
  · rintro st os ⟨H', hst, ⟨hlen', hmem', hcons⟩, hos, hsp⟩
    rw [List.length_range'] at hos
    refine ⟨H', hst, ⟨hlen', fun h0 a ha => ?_, fun h0 => hcons fun hnil => h0 ?_⟩, hos, hsp⟩
    · refine (hmem' a ha).resolve_right fun h => ?_
      rw [h0] at h
      exact absurd h (by simp [blocks])
    · simpa using congrArg List.length hnil

/-! ## The outer loop -/

/-- What an iteration of the outer loop on the R blocks from `l` to `i` does. -/
def Joins (s l i : ℕ) (os : List (Outcome ℤ)) : Prop :=
  os.map Outcome.isFault = faultsOf (i - l) s ∧ Spares l i os

/-- An iteration of the outer loop. All but the last one fill the memory but for one block. -/
theorem triple_join (ho : ∀ i l, (order i l).Perm l) {l i r s : ℕ} (hli : l < i) (hir : i ≤ r)
    (hk : i - l < k) (hfull : i < r → i - l + 1 = k) :
    Triple (Call.command order) (fun st => ∃ H, Queues k c [] H [] st ∧ Between k l r H)
      (join c r s l i) fun st os =>
        (∃ H, Queues k c [] H [] st ∧ (i < r → Between k i r H)) ∧ Joins s l i os := by
  refine ((triple_retrieve ho hli hir hk).append (Q := fun st os => ∃ H,
    Queues k c (blocks (List.range' l (i - l))).reverse H [] st ∧
      (i - l + H.length ≤ k ∧ (s = 0 → Old l H) ∧
        (s ≠ 0 → ∃ v H', H = v :: H' ∧ (r : ℤ) ≤ v)) ∧ Joins s l i os) fun os =>
      .of_exists fun H => .of_and fun ⟨⟨hlen, hold⟩, hos, hsp⟩ => ?_).append fun os =>
    .of_exists fun H => .of_and fun ⟨⟨hlen, hold, hcons⟩, hj⟩ => ?_
  · refine (triple_compares ho hli.le hir hk hlen hold).conseq (fun _ h => h) ?_
    rintro st os' ⟨H', hst, hH', hos', hsp'⟩
    refine ⟨H', hst, hH', ?_, hsp.append hsp'⟩
    rw [List.map_append, hos, hos', faultsOf]
  · refine triple_break.conseq (fun _ h => h) ?_
    rintro st _ ⟨hst, rfl⟩
    rw [List.reverse_reverse] at hst
    refine ⟨⟨_, hst, fun hi => ?_⟩, by rwa [List.append_nil]⟩
    have hnew := old_blocks hli.le
    have hlength : (blocks (List.range' l (i - l)) ++ H).length = i - l + H.length := by
      simp [blocks]
    rw [Between, hlength]
    refine ⟨hlen, ?_⟩
    by_cases h0 : s = 0
    · refine .inl fun a ha => (List.mem_append.1 ha).elim (hnew a) fun h => ?_
      have := hold h0 a h
      omega
    · -- Every other block has been evicted for the S blocks.
      obtain ⟨v, H', rfl, hv⟩ := hcons h0
      have hfull := hfull hi
      rw [List.length_cons] at hlen
      obtain rfl : H' = [] := List.length_eq_zero_iff.1 (by omega)
      exact .inr ⟨hfull, _, v, rfl, hnew, hv⟩

theorem groups_of_lt {n r fuel l : ℕ} (h : l < r) :
    groups n r (fuel + 1) l =
      (groups n r fuel (min (l + n) r) >>= fun rest => pure ((l, min (l + n) r) :: rest)) := by
  rw [groups, if_pos h]

theorem groups_of_not_lt {n r fuel l : ℕ} (h : ¬l < r) : groups n r fuel l = .ok [] := by
  cases fuel
  all_goals rw [groups, if_neg h]

/-- The outer loop ends after ⌈(r - l) / n⌉ iterations, that retrieve the blocks from `l` on. -/
theorem groups_spec {n r : ℕ} (hn : 0 < n) : ∀ fuel l, r - l ≤ fuel →
    ∃ gs, groups n r fuel l = .ok gs ∧ gs.length = (r - l) ⌈/⌉ n ∧
      (gs.map fun g => g.2 - g.1).sum = r - l := by
  intro fuel
  induction fuel with
  | zero =>
    intro l hl
    rw [Nat.le_zero] at hl
    refine ⟨[], groups_of_not_lt (by omega), ?_, hl.symm⟩
    rw [hl, zero_ceilDiv, List.length_nil]
  | succ fuel ih =>
    intro l hl
    by_cases hlr : l < r
    · obtain ⟨gs, hgs, hlen, hsum⟩ := ih (min (l + n) r) (by omega)
      refine ⟨_, by rw [groups_of_lt hlr, hgs]; rfl, ?_, ?_⟩
      · rw [List.length_cons, hlen, Nat.ceilDiv_eq_add_pred_div, Nat.ceilDiv_eq_add_pred_div]
        by_cases hle : l + n ≤ r
        · rw [min_eq_left hle, show r - l + n - 1 = r - (l + n) + n - 1 + n by omega,
            Nat.add_div_right _ hn]
        · rw [min_eq_right (by omega), Nat.sub_self, Nat.zero_add,
            Nat.div_eq_of_lt (by omega : n - 1 < n),
            show r - l + n - 1 = r - l - 1 + n by omega, Nat.add_div_right _ hn,
            Nat.div_eq_of_lt (by omega)]
      · rw [List.map_cons, List.sum_cons, hsum]
        dsimp only
        omega
    · refine ⟨[], groups_of_not_lt hlr, ?_, ?_⟩
      · rw [show r - l = 0 by omega, zero_ceilDiv, List.length_nil]
      · rw [show r - l = 0 by omega]
        rfl

/-- The iterations of the outer loop from the block `l` on. -/
theorem triple_joins (ho : ∀ i l, (order i l).Perm l) {r s : ℕ} (hk : 2 ≤ k) :
    ∀ {fuel l : ℕ} {gs}, groups (k - 1) r fuel l = .ok gs →
      Triple (Call.command order)
        (fun st => ∃ H, Queues k c [] H [] st ∧ (l < r → Between k l r H))
        (gs.flatMap fun (l, i) => join c r s l i) fun st os =>
          (∃ H, Queues k c [] H [] st) ∧
            ∃ oss, os = oss.flatten ∧ List.Forall₂ (fun g => Joins s g.1 g.2) gs oss := by
  intro fuel
  induction fuel with
  | zero =>
    intro l gs hgs
    rw [groups] at hgs
    split_ifs at hgs
    obtain rfl := Except.ok.inj hgs
    refine .nil ?_
    rintro st ⟨H, hst, -⟩
    exact ⟨⟨H, hst⟩, [], rfl, .nil⟩
  | succ fuel ih =>
    intro l gs hgs
    by_cases hlr : l < r
    · rw [groups_of_lt hlr] at hgs
      cases hrest : groups (k - 1) r fuel (min (l + (k - 1)) r) with
      | error e =>
        rw [hrest] at hgs
        cases hgs
      | ok rest =>
        rw [hrest] at hgs
        obtain rfl := Except.ok.inj hgs
        rw [List.flatMap_cons]
        refine ((triple_join (k := k) (s := s) ho (lt_min (by omega) hlr) (min_le_right _ _) (by omega)
          (by omega)).conseq ?_ fun _ _ h => h).append fun os => .of_and fun hj => ?_
        · rintro st ⟨H, hst, hH⟩
          exact ⟨H, hst, hH hlr⟩
        · refine (ih hrest).conseq (fun _ h => h) ?_
          rintro st os' ⟨hst, oss, rfl, hoss⟩
          exact ⟨hst, os :: oss, rfl, .cons hj hoss⟩
    · rw [groups_of_not_lt hlr] at hgs
      obtain rfl := Except.ok.inj hgs
      refine .nil ?_
      rintro st ⟨H, hst, -⟩
      exact ⟨⟨H, hst⟩, [], rfl, .nil⟩

theorem faults_of_joins {s l i : ℕ} {os : List (Outcome ℤ)} (h : Joins s l i os) :
    faults os = i - l + s := by
  have hcount : faults os = (os.map Outcome.isFault).count true := by
    rw [faults, List.count, List.countP_map]
    exact List.countP_congr fun o _ => by simp
  rw [hcount, h.1, faultsOf, List.count_append, List.count_replicate_self, List.count_flatten,
    List.map_replicate, List.sum_replicate]
  simp [List.count_replicate]

theorem faults_flatten {s : ℕ} {gs : List (ℕ × ℕ)} {oss : List (List (Outcome ℤ))}
    (h : List.Forall₂ (fun g => Joins s g.1 g.2) gs oss) :
    faults oss.flatten = (gs.map fun g => g.2 - g.1).sum + gs.length * s := by
  induction h with
  | nil => simp [faults]
  | @cons g os gs oss hj _ ih =>
    have happend : faults (os :: oss).flatten = faults os + faults oss.flatten :=
      List.countP_append
    rw [happend, ih, faults_of_joins hj, List.map_cons, List.sum_cons, List.length_cons]
    ring

/-- The block join does not thrash: with `k - 1` R blocks in memory at a time, each R block is
    loaded once, and each S block once in each iteration of the outer loop. -/
theorem block_join (hk : 2 ≤ k) (r s : ℕ) (ho : ∀ i l, (order i l).Perm l) (clock : LogicalClock)
    (draws : ℕ → ℕ) :
    ∃ gs calls st oss, groups (k - 1) r r 0 = .ok gs ∧
      traceBlockJoin (.make k clock draws) r s = .ok calls ∧
      runCalls order 0 (.make k clock draws) calls = .ok (st, List.flatten oss) ∧
      List.Forall₂ (fun g => Joins s g.1 g.2) gs oss ∧
      faults (List.flatten oss) = r + r ⌈/⌉ (k - 1) * s := by
  obtain ⟨gs, hgs, hlen, hsum⟩ := groups_spec (show 0 < k - 1 by omega) r 0 le_rfl
  have hcreate : Triple (Call.command order) (· = .make k clock draws) [.createMemoryChain .mru]
      fun st os => (∃ H, Queues k 3 [] H [] st ∧ (0 < r → Between k 0 r H)) ∧ os = [] :=
    .single fun i st hst => by
      subst hst
      exact ⟨_, [], rfl, ⟨[], Queues.make k clock draws .mru, fun _ =>
        ⟨Nat.zero_le _, .inl fun a ha => absurd ha List.not_mem_nil⟩⟩, rfl⟩
  have hrelease : Triple (Call.command order) (fun st => ∃ H, Queues k 3 [] H [] st)
      [.releaseMemoryChain 3] fun _ os => os = [] :=
    .single fun i st hst => by
      obtain ⟨H, hst⟩ := hst
      obtain ⟨st', heq⟩ := hst.releaseMemoryChain
      refine ⟨st', [], ?_, rfl⟩
      rw [Call.command, Call.exec, heq]
      rfl
  have hrun : Triple (Call.command order) (· = .make k clock draws)
      ([.createMemoryChain .mru] ++ gs.flatMap (fun (l, i) => join 3 r s l i) ++
        [.releaseMemoryChain 3]) fun _ os => ∃ oss, os = oss.flatten ∧
          List.Forall₂ (fun g => Joins s g.1 g.2) gs oss := by
    refine (hcreate.append fun os => .of_and fun hos => ?_).append (R := fun st os =>
      (∃ H, Queues k 3 [] H [] st) ∧ ∃ oss, os = oss.flatten ∧
        List.Forall₂ (fun g => Joins s g.1 g.2) gs oss) fun os => .of_and fun hj => ?_
    · rw [hos]
      exact triple_joins ho hk hgs
    · refine hrelease.conseq (fun _ h => h) ?_
      rintro st _ rfl
      rwa [List.append_nil]
  obtain ⟨st, _, heq, oss, rfl, hoss⟩ := hrun 0 _ rfl
  refine ⟨gs, _, st, oss, hgs, ?_, (runCalls_eq_runScript ..).trans heq, hoss, ?_⟩
  · rw [traceBlockJoin, show (make k clock draws).size - 1 = k - 1 from rfl, hgs]
    rfl
  · rw [faults_flatten hoss, hsum, hlen, Nat.sub_zero]

/-- Two blocks, of which the second one has one page of `S` only, and five frames of the outer
    relation. -/
theorem block_join_five : ∃ gs calls st oss, groups 2 5 5 0 = .ok gs ∧
    traceBlockJoin (.make 3 {} fun _ => 0) 5 4 = .ok calls ∧
    runCalls (fun _ l => l) 0 (.make 3 {} fun _ => 0) calls = .ok (st, List.flatten oss) ∧
    List.Forall₂ (fun g => Joins 4 g.1 g.2) gs oss ∧
    faults (List.flatten oss) = 5 + 5 ⌈/⌉ 2 * 4 :=
  block_join (k := 3) (by decide) 5 4 (fun _ l => List.Perm.refl l) {} fun _ => 0

end Mcpq.Hierarchical
