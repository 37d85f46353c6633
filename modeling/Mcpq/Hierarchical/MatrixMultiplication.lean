import Mcpq.Hierarchical.AccessPatterns
import Mcpq.Hierarchical.OneChain

/-!
# Chaining keeps the matrix row in memory

The trace of a matrix multiplication links the elements of a row of `A` when they are accessed first, and
breaks the chain when the row is done. It is never an element of the row that is evicted meanwhile
(`matrix_multiplication`): the page evicted is one of a former row, hated since then, or one of `B`.

While the row is linked, its chain competes with the pages of `B` by its timestamp, that of the element
accessed last. All pages of `B` are older, but possibly the one accessed last (`InRow`), and memory always
holds another one.
-/

namespace Mcpq.Hierarchical

open HierarchicalMemoryManager AccessPatterns

/-! ## Outcomes -/

/-- The addresses that calls access. -/
def accesses (calls : List Call) : List ℤ :=
  calls.filterMap fun
    | .access a => some a
    | _ => none

/-- The outcomes of the accesses to the address `a`. -/
def outcomesAt (a : ℤ) (calls : List Call) (os : List (Outcome ℤ)) : List (Outcome ℤ) :=
  ((accesses calls).zip os).filterMap fun x => if x.1 = a then some x.2 else none

/-- An access in a row: the elements of `A`, which are below `u`, fault when they are accessed first, and
    no address from `l` to `u` is evicted. -/
def InRowOutcome (first : Bool) (l u a : ℤ) (o : Outcome ℤ) : Prop :=
  (a < u → o.isFault = first) ∧ ∀ v, o = .fault (some v) → v < l ∨ u ≤ v

theorem accesses_append (calls calls' : List Call) :
    accesses (calls ++ calls') = accesses calls ++ accesses calls' := List.filterMap_append

theorem outcomesAt_append {a : ℤ} {calls calls' : List Call} {os os' : List (Outcome ℤ)}
    (h : (accesses calls).length = os.length) :
    outcomesAt a (calls ++ calls') (os ++ os') =
      outcomesAt a calls os ++ outcomesAt a calls' os' := by
  rw [outcomesAt, accesses_append, List.zip_append h, List.filterMap_append]
  rfl

/-- The accesses to an element of `A` in an entry all fault, or none does. -/
theorem map_outcomesAt {first : Bool} {l u a : ℤ} {calls : List Call} {os : List (Outcome ℤ)}
    (ha : a < u) (h : List.Forall₂ (InRowOutcome first l u) (accesses calls) os) :
    (outcomesAt a calls os).map Outcome.isFault =
      List.replicate ((accesses calls).count a) first := by
  rw [outcomesAt]
  generalize accesses calls = bs at h ⊢
  induction h with
  | nil => rfl
  | @cons b o bs os hbo _ ih =>
    rw [List.zip_cons_cons]
    by_cases hb : b = a
    · subst hb
      simp only [List.filterMap_cons, if_true, List.map_cons, hbo.1 ha, ih]
      rw [List.count_cons_self, List.replicate_succ]
    · simp only [List.filterMap_cons, if_neg hb, ih]
      rw [List.count_cons_of_ne hb]

/-! ## The pages in memory -/

variable {cap m n : ℕ} {c l u a b : ℤ} {C E : List ℤ} {order : ℕ → List ℤ → List ℤ}

/-- The elements of `A` linked are those of `C`. The other pages are those of former rows, below `l`,
    which are hated, and those of `B`, from `u` on. An element that is linked was accessed after all those
    of `B` but those in `E`. -/
def InRow (cap : ℕ) (c : ℤ) (C : List ℤ) (l u : ℤ) (E : List ℤ) (s : HierarchicalMemoryManager) :
    Prop :=
  ∃ H D, Queues cap c C H D s ∧ (∀ a ∈ H, a < l) ∧ (∀ a ∈ D, u ≤ a) ∧
    (C ≠ [] → ∃ x ∈ C, ∀ b ∈ D, b ∉ E → s.stampAt b < s.stampAt x)

/-- An access to an element that is linked. -/
theorem triple_linked (ha : a ∈ C) :
    Triple (Call.command order) (InRow cap c C l u E) [.access a]
      fun s os => InRow cap c C l u [] s ∧ os = [.hit] :=
  .single fun i s hs => by
    obtain ⟨H, D, hq, hH, hD, -⟩ := hs
    obtain ⟨s', heq, hq', htouch⟩ := hq.access_hit (.inl ha) (order i s.usrChains)
    refine ⟨s', [.hit], ?_, ⟨H, D, hq', hH, hD, fun _ => ⟨a, ha, fun b hb _ => ?_⟩⟩, rfl⟩
    · rw [Call.command, Call.exec, heq]
      rfl
    · have hba : b ≠ a := by
        rintro rfl
        exact (List.nodup_append.1 hq.nodup).2.2 b ha b (List.mem_append_right _ hb) rfl
      obtain ⟨hb', hlt⟩ := htouch b (List.mem_append_right _ (List.mem_append_right _ hb)) hba
      rwa [hb']

/-- If memory is full and no page is hated, it holds an element of `B` that is older than an element that
    is linked. -/
theorem exists_older {H D : List ℤ} {stamp : ℤ → ℕ}
    (hx : C ≠ [] → ∃ x ∈ C, ∀ b ∈ D, b ∉ E → stamp b < stamp x)
    (hfull : ¬C.length + D.length < cap → ∃ b ∈ D, b ∉ E) :
    C.length + H.length + D.length < cap ∨ C = [] ∨ H ≠ [] ∨
      ∃ x ∈ C, ∃ b ∈ D, stamp b < stamp x := by
  by_cases hne : C = []
  · exact .inr (.inl hne)
  by_cases hnil : H = []
  · by_cases hlt : C.length + D.length < cap
    · exact .inl (by rwa [hnil, List.length_nil, Nat.add_zero])
    · obtain ⟨x, hxC, hltx⟩ := hx hne
      obtain ⟨b, hbD, hbE⟩ := hfull hlt
      exact .inr (.inr (.inr ⟨x, hxC, b, hbD, hltx b hbD hbE⟩))
  · exact .inr (.inr (.inl hnil))

/-- An access to an element of `B`, right after one to an element that is linked. -/
theorem triple_other (ho : ∀ i l, (order i l).Perm l) (hlu : l ≤ u) (hb : u ≤ b) (hbC : b ∉ C)
    (hC : C.length < cap) :
    Triple (Call.command order) (InRow cap c C l u []) [.access b]
      fun s os => InRow cap c C l u [b] s ∧
        ∃ o, os = [o] ∧ ∀ v, o = .fault (some v) → v < l ∨ u ≤ v :=
  .single fun i s hs => by
    obtain ⟨H, D, hq, hH, hD, hx⟩ := hs
    by_cases hbD : b ∈ D
    · obtain ⟨s', heq, hq', htouch⟩ := hq.access_hit (.inr hbD) (order i s.usrChains)
      refine ⟨s', [.hit], ?_, ⟨H, D, hq', hH, hD, fun hne => ?_⟩, .hit, rfl, by simp⟩
      · rw [Call.command, Call.exec, heq]
        rfl
      · obtain ⟨x, hxC, hlt⟩ := hx hne
        refine ⟨x, hxC, fun d hd hdb => ?_⟩
        rw [(htouch x (List.mem_append_left _ hxC) fun h => hbC (h ▸ hxC)).1,
          (htouch d (List.mem_append_right _ (List.mem_append_right _ hd))
            (by simpa using hdb)).1]
        exact hlt d hd List.not_mem_nil
    · have hbH : b ∉ H := fun h => by
        have := hH b h
        omega
      -- A full memory holds an element of `B`.
      have hold := exists_older (H := H) hx fun (hfull : ¬ C.length + D.length < cap) => by
        rcases D with _ | ⟨d, D⟩
        · exact absurd hC hfull
        · exact ⟨d, List.mem_cons_self, List.not_mem_nil⟩
      obtain ⟨s', v, H', D', heq, hq', hsubH, hsubD, hv, htouch⟩ :=
        hq.access_load (by omega) (ho i s.usrChains) hbC hbH hbD hold
      refine ⟨s', [.fault v], ?_, ⟨H', b :: D', hq', fun a ha => hH a (hsubH.subset ha),
        fun a ha => ?_, fun hne => ?_⟩, _, rfl, fun w hw => ?_⟩
      · rw [Call.command, Call.exec, heq]
        rfl
      · rcases List.mem_cons.1 ha with rfl | ha
        · exact hb
        · exact hD a (hsubD.subset ha)
      · obtain ⟨x, hxC, hlt⟩ := hx hne
        refine ⟨x, hxC, fun d hd hdb => ?_⟩
        have hdb' : d ≠ b := by simpa using hdb
        have hd' := (List.mem_cons.1 hd).resolve_left hdb'
        rw [(htouch x (List.mem_append_left _ hxC) fun h => hbC (h ▸ hxC)).1,
          (htouch d (List.mem_append_right _ (List.mem_append_right _ hd')) hdb').1]
        exact hlt d (hsubD.subset hd') List.not_mem_nil
      · exact (hv w (Outcome.fault.inj hw)).imp (hH w) (hD w)

/-- The first access to an element of the row, which is then linked. -/
theorem triple_new (ho : ∀ i l, (order i l).Perm l) (hla : l ≤ a) (hau : a < u) (haC : a ∉ C)
    (hE : E.length ≤ 1) (hC : C.length + 1 < cap) :
    Triple (Call.command order) (InRow cap c C l u E) [.access a, .link c a]
      fun s os => InRow cap c (a :: C) l u [] s ∧
        ∃ v, os = [.fault v] ∧ ∀ w, v = some w → w < l ∨ u ≤ w := by
  rw [show [Call.access a, .link c a] = [.access a] ++ [.link c a] from rfl]
  refine Triple.append (R := fun s os =>
    (∃ H D, Queues cap c C H (a :: D) s ∧ (∀ a ∈ H, a < l) ∧ (∀ a ∈ D, u ≤ a) ∧
      ∀ b ∈ D, s.stampAt b < s.stampAt a) ∧
    ∃ v, os = [.fault v] ∧ ∀ w, v = some w → w < l ∨ u ≤ w) ?_ fun os => .of_and ?_
  · refine .single ?_
    rintro i s ⟨H, D, hq, hH, hD, hx⟩
    have haH : a ∉ H := fun h => by
      have := hH a h
      omega
    have haD : a ∉ D := fun h => by
      have := hD a h
      omega
    -- A full memory holds two elements of `B`, one of which is not in `E`.
    have hold := exists_older (H := H) hx fun (hfull : ¬ C.length + D.length < cap) => by
      by_contra hall
      push Not at hall
      have hnd : D.Nodup := (List.nodup_append.1 (List.nodup_append.1 hq.nodup).2.1).2.1
      have := (List.subperm_of_subset hnd hall).length_le
      omega
    obtain ⟨s', v, H', D', heq, hq', hsubH, hsubD, hv, htouch⟩ :=
      hq.access_load (by omega) (ho i s.usrChains) haC haH haD hold
    refine ⟨s', [.fault v], ?_, ⟨H', D', hq', fun b hb => hH b (hsubH.subset hb),
      fun b hb => hD b (hsubD.subset hb), fun b hb => ?_⟩, v, rfl,
      fun w hw => (hv w hw).imp (hH w) (hD w)⟩
    · rw [Call.command, Call.exec, heq]
      rfl
    · obtain ⟨hb', hlt⟩ := htouch b (List.mem_append_right _ (List.mem_append_right _ hb)) fun h =>
        haD (h ▸ hsubD.subset hb)
      rwa [hb']
  · rintro ⟨v, hos, hv⟩
    refine .single ?_
    rintro i s ⟨H, D, hq, hH, hD, hlt⟩
    obtain ⟨s', heq, hq', hstamp⟩ := hq.link
    refine ⟨s', [], ?_, ⟨H, D, hq', hH, hD, fun _ => ⟨a, List.mem_cons_self, fun b hb _ => ?_⟩⟩,
      v, by rw [hos, List.append_nil], hv⟩
    · rw [Call.command, Call.exec, heq]
      rfl
    · rw [hstamp, hstamp]
      exact hlt b hb

/-- The row is done. -/
theorem triple_done {v : ℤ} (hl : l ≤ v) (hC : ∀ a ∈ C, a < v) :
    Triple (Call.command order) (InRow cap c C l u E) [.breakMemoryChain c]
      fun s os => InRow cap c [] v u [] s ∧ os = [] :=
  .single fun i s hs => by
    obtain ⟨H, D, hq, hH, hD, -⟩ := hs
    obtain ⟨s', heq, hq'⟩ := hq.breakMemoryChain
    refine ⟨s', [], ?_, ⟨_, D, hq', fun a ha => ?_, hD, fun h => absurd rfl h⟩, rfl⟩
    · rw [Call.command, Call.exec, heq]
      rfl
    · rcases List.mem_append.1 ha with ha | ha
      · exact hC a (List.mem_reverse.1 ha)
      · exact (hH a ha).trans_le hl

/-! ## The loops -/

/-- The elements of a row of `A`, up to the column `k`, the last one first. -/
def elements (i n k : ℕ) : List ℤ := ((List.range k).map fun k : ℕ => (i * n + k : ℤ)).reverse

theorem mem_elements {i k : ℕ} : a ∈ elements i n k ↔ ∃ k' < k, (i * n + k' : ℤ) = a := by
  simp only [elements, List.mem_reverse, List.mem_map, List.mem_range]

theorem elements_succ (i n k : ℕ) : elements i n (k + 1) = (i * n + k : ℤ) :: elements i n k := by
  simp [elements, List.range_succ]

theorem length_elements (i n k : ℕ) : (elements i n k).length = k := by simp [elements]

/-- The elements of the row `i` are before those of the next one, and of `B`. -/
theorem element_lt {i k : ℕ} (hi : i < n) (hk : k < n) (hnm : n ≤ m) :
    (i * n + k : ℤ) < (i + 1) * n ∧ ((i + 1) * n : ℤ) ≤ m * n := by
  constructor
  · have : (k : ℤ) < n := Int.ofNat_lt.2 hk
    linarith
  · have : (i + 1) * n ≤ m * n := Nat.mul_le_mul_right n (hi.trans_le hnm)
    exact_mod_cast this

theorem le_other (m n j k : ℕ) : (m * n : ℤ) ≤ j * n + k + m * n := by
  have : (0 : ℤ) ≤ j * n + k := by positivity
  linarith

/-- No element of `B` has the address of one of the row. -/
theorem other_not_mem {i k l : ℕ} (hi : i < n) (hl : l ≤ n) (hnm : n ≤ m) (j : ℕ) :
    (j * n + k + m * n : ℤ) ∉ elements i n l := fun h => by
  obtain ⟨k', hk', heq⟩ := mem_elements.1 h
  obtain ⟨hlt, hle⟩ := element_lt hi (hk'.trans_le hl) hnm
  have := le_other m n j k
  omega

theorem multiply_zero (c : ℤ) (m n i k : ℕ) : multiply c m n i 0 k =
    [.access (i * n + k), .link c (i * n + k)] ++ [.access ((0 : ℕ) * n + k + m * n)] := rfl

theorem multiply_of_ne {j : ℕ} (hj : j ≠ 0) (c : ℤ) (m n i k : ℕ) : multiply c m n i j k =
    [.access (i * n + k)] ++ [.access (j * n + k + m * n)] := by
  rw [multiply, if_neg hj, List.append_nil]

theorem accesses_multiply (c : ℤ) (m n i j k : ℕ) : accesses (multiply c m n i j k) =
    [(i * n + k : ℤ), (j * n + k + m * n : ℤ)] := by
  by_cases hj : j = 0
  · subst hj
    rfl
  · rw [multiply_of_ne hj]
    rfl

/-- What the accesses for an entry of the result do. -/
def EntryOutcomes (c : ℤ) (m n i j : ℕ) (os : List (Outcome ℤ)) : Prop :=
  List.Forall₂ (InRowOutcome (decide (j = 0)) (i * n) (m * n)) (accesses (entry c m n i j)) os

/-- The first entry of a row of the result: the row of `A` is linked. -/
theorem triple_first (ho : ∀ i l, (order i l).Perm l) {i : ℕ} (hi : i < n) (hnm : n ≤ m)
    (hcap : n + 1 ≤ cap) :
    Triple (Call.command order) (fun s => ∃ E, InRow cap c [] (i * n) (m * n) E s ∧ E.length ≤ 1)
      (entry c m n i 0) fun s os =>
        (∃ E, InRow cap c (elements i n n) (i * n) (m * n) E s) ∧ EntryOutcomes c m n i 0 os := by
  refine (Triple.range (fun k s os => ∃ E, InRow cap c (elements i n k) (i * n) (m * n) E s ∧
    (E.length ≤ 1 ∧ List.Forall₂ (InRowOutcome true (i * n) (m * n))
      (accesses ((List.range k).flatMap (multiply c m n i 0))) os)) ?_).conseq ?_ ?_
  · intro k hk os
    obtain ⟨hlt, hle⟩ := element_lt hi hk hnm
    refine .of_exists fun E => .of_and fun ⟨hE, hos⟩ => ?_
    have hnew : (i * n + k : ℤ) ∉ elements i n k := fun h => by
      obtain ⟨k', hk', heq⟩ := mem_elements.1 h
      omega
    rw [multiply_zero]
    refine (triple_new ho (by omega) (by omega) hnew hE (by rw [length_elements]; omega)).append
      fun os₁ => .of_and fun ⟨v, hos₁, hv⟩ => ?_
    rw [← elements_succ]
    refine (triple_other ho (by omega) (le_other m n 0 k) (other_not_mem hi hk hnm 0)
      (by rw [length_elements]; omega)).conseq (fun _ h => h) ?_
    rintro s _ ⟨hs, o, rfl, hspare⟩
    refine ⟨_, hs, le_rfl, ?_⟩
    rw [List.range_succ, List.flatMap_append, List.flatMap_singleton, accesses_append,
      accesses_multiply, hos₁]
    refine List.rel_append hos (.cons ⟨fun _ => rfl, fun w hw => hv w (Outcome.fault.inj hw)⟩
      (.cons ⟨fun h => absurd h (not_lt.2 (le_other m n 0 k)), hspare⟩ .nil))
  · rintro s ⟨E, hs, hE⟩
    exact ⟨E, hs, hE, .nil⟩
  · rintro s os ⟨E, hs, -, hos⟩
    exact ⟨⟨E, hs⟩, hos⟩

/-- The other entries of a row of the result: the row of `A` is in memory. -/
theorem triple_entry (ho : ∀ i l, (order i l).Perm l) {i j : ℕ} (hi : i < n) (hj : j ≠ 0)
    (hnm : n ≤ m) (hcap : n + 1 ≤ cap) :
    Triple (Call.command order) (fun s => ∃ E, InRow cap c (elements i n n) (i * n) (m * n) E s)
      (entry c m n i j) fun s os =>
        (∃ E, InRow cap c (elements i n n) (i * n) (m * n) E s) ∧ EntryOutcomes c m n i j os := by
  refine (Triple.range (fun k s os => (∃ E, InRow cap c (elements i n n) (i * n) (m * n) E s) ∧
    List.Forall₂ (InRowOutcome false (i * n) (m * n))
      (accesses ((List.range k).flatMap (multiply c m n i j))) os) ?_).conseq
        (fun s hs => ⟨hs, .nil⟩) ?_
  · intro k hk os
    obtain ⟨hlt, hle⟩ := element_lt hi hk hnm
    refine .of_and fun hos => .of_exists fun E => ?_
    have hmem : (i * n + k : ℤ) ∈ elements i n n := mem_elements.2 ⟨k, hk, rfl⟩
    rw [multiply_of_ne hj]
    refine (triple_linked hmem).append fun os₁ => .of_and fun hos₁ => ?_
    refine (triple_other ho (by omega) (le_other m n j k) (other_not_mem hi le_rfl hnm j)
      (by rw [length_elements]; omega)).conseq (fun _ h => h) ?_
    rintro s _ ⟨hs, o, rfl, hspare⟩
    refine ⟨⟨_, hs⟩, ?_⟩
    rw [List.range_succ, List.flatMap_append, List.flatMap_singleton, accesses_append,
      accesses_multiply, hos₁]
    exact List.rel_append hos (.cons ⟨fun _ => rfl, by simp⟩
      (.cons ⟨fun h => absurd h (not_lt.2 (le_other m n j k)), hspare⟩ .nil))
  · rintro s os ⟨hs, hos⟩
    rw [EntryOutcomes, decide_eq_false hj]
    exact ⟨hs, hos⟩

/-- What the accesses of an iteration of the outer loop do. -/
def RowOutcomes (c : ℤ) (m n i : ℕ) (os : List (Outcome ℤ)) : Prop :=
  ∃ oss, os = oss.flatten ∧ List.Forall₂ (EntryOutcomes c m n i) (List.range m) oss

/-- An iteration of the outer loop. -/
theorem triple_row (ho : ∀ i l, (order i l).Perm l) {i : ℕ} (hi : i < n) (hnm : n ≤ m)
    (hcap : n + 1 ≤ cap) :
    Triple (Call.command order) (fun s => ∃ E, InRow cap c [] (i * n) (m * n) E s ∧ E.length ≤ 1)
      (row c m n i) fun s os =>
        (∃ E, InRow cap c [] ((i + 1 : ℕ) * n) (m * n) E s ∧ E.length ≤ 1) ∧
          RowOutcomes c m n i os := by
  -- The entries of the row are computed, and then the chain of the row is broken.
  refine Triple.append (R := fun s os => (∃ E, InRow cap c (elements i n n) (i * n) (m * n) E s) ∧
    RowOutcomes c m n i os) ?_ fun os => .of_and fun hos => .of_exists fun E => ?_
  · -- The first entry loads the row, which is on its chain when the others are computed.
    refine (Triple.range (fun j s os => (j = 0 → ∃ E, InRow cap c [] (i * n) (m * n) E s ∧
      E.length ≤ 1) ∧ (j ≠ 0 → ∃ E, InRow cap c (elements i n n) (i * n) (m * n) E s) ∧
        ∃ oss, os = oss.flatten ∧ List.Forall₂ (EntryOutcomes c m n i) (List.range j) oss)
        ?_).conseq ?_ ?_
    · intro j hj os
      have hpost : ∀ s os', (∃ E, InRow cap c (elements i n n) (i * n) (m * n) E s) ∧
          EntryOutcomes c m n i j os' →
          (∃ oss, os = oss.flatten ∧
            List.Forall₂ (EntryOutcomes c m n i) (List.range j) oss) →
          (j + 1 = 0 → ∃ E, InRow cap c [] (i * n) (m * n) E s ∧ E.length ≤ 1) ∧
            (j + 1 ≠ 0 → ∃ E, InRow cap c (elements i n n) (i * n) (m * n) E s) ∧
            ∃ oss, os ++ os' = oss.flatten ∧
              List.Forall₂ (EntryOutcomes c m n i) (List.range (j + 1)) oss := by
        rintro s os' ⟨hs, hos'⟩ ⟨oss, rfl, hoss⟩
        refine ⟨fun h => absurd h (by omega), fun _ => hs, oss ++ [os'], by simp, ?_⟩
        rw [List.range_succ]
        exact List.rel_append hoss (.cons hos' .nil)
      intro t s ⟨hzero, hne, hoss⟩
      by_cases h0 : j = 0
      · subst h0
        obtain ⟨s', os', heq, h⟩ := triple_first ho hi hnm hcap t s (hzero rfl)
        exact ⟨s', os', heq, hpost s' os' h hoss⟩
      · obtain ⟨s', os', heq, h⟩ := triple_entry ho hi h0 hnm hcap t s (hne h0)
        exact ⟨s', os', heq, hpost s' os' h hoss⟩
    · exact fun s hs => ⟨fun _ => hs, fun h => absurd rfl h, [], rfl, .nil⟩
    · rintro s os ⟨-, hne, hoss⟩
      exact ⟨hne (by omega), hoss⟩
  · refine (triple_done (v := (i + 1 : ℕ) * n) ?_ fun a ha => ?_).conseq (fun _ h => h) ?_
    · push_cast
      nlinarith
    · obtain ⟨k, hk, rfl⟩ := mem_elements.1 ha
      have := (element_lt hi hk hnm).1
      push_cast
      exact this
    · rintro s _ ⟨hs, rfl⟩
      rw [List.append_nil]
      exact ⟨⟨[], hs, Nat.zero_le 1⟩, hos⟩

/-! ## The trace -/

theorem element_inj {i i' k k' : ℕ} (hk : k < n) (hk' : k' < n)
    (h : (i' * n + k' : ℤ) = i * n + k) : i' = i ∧ k' = k := by
  have heq : k' + n * i' = k + n * i := by
    rw [Nat.mul_comm, Nat.mul_comm n i, Nat.add_comm, Nat.add_comm k]
    exact_mod_cast h
  have hn : 0 < n := Nat.zero_lt_of_lt hk
  have hi := congrArg (· / n) heq
  simp only [Nat.add_mul_div_left _ _ hn, Nat.div_eq_of_lt hk, Nat.div_eq_of_lt hk',
    Nat.zero_add] at hi
  subst hi
  exact ⟨rfl, Nat.add_right_cancel heq⟩

/-- An element of `A` is accessed once for each entry in its row of the result. -/
theorem count_entry {i i' k : ℕ} (hi : i < n) (hk : k < n) (hnm : n ≤ m) (j : ℕ) :
    (accesses (entry c m n i' j)).count (i * n + k : ℤ) = if i' = i then 1 else 0 := by
  suffices h : ∀ l ≤ n, (accesses ((List.range l).flatMap (multiply c m n i' j))).count
      (i * n + k : ℤ) = if i' = i ∧ k < l then 1 else 0 by
    simpa [entry, hk] using h n le_rfl
  intro l hl
  induction l with
  | zero => simp [accesses]
  | succ l ih =>
    have hother : (j * n + l + m * n : ℤ) ≠ i * n + k := fun h => by
      obtain ⟨hlt, hle⟩ := element_lt hi hk hnm
      have := le_other m n j l
      omega
    have hcons : ([(i' * n + l : ℤ), (j * n + l + m * n : ℤ)]).count (i * n + k : ℤ) =
        if (i' * n + l : ℤ) = i * n + k then 1 else 0 := by
      rw [List.count_cons, List.count_eq_zero_of_not_mem (by simpa using Ne.symm hother)]
      simp only [beq_iff_eq, Nat.zero_add]
    rw [List.range_succ, List.flatMap_append, List.flatMap_singleton, accesses_append,
      List.count_append, ih (by omega), accesses_multiply, hcons]
    by_cases h : i' = i ∧ l = k
    · obtain ⟨rfl, rfl⟩ := h
      simp
    · rw [if_neg fun heq => h (element_inj hk (by omega) heq)]
      split_ifs with h₁ h₂ h₂
      · rfl
      · exact absurd ⟨h₁.1, by omega⟩ h₂
      · exact absurd ⟨h₂.1, by omega⟩ h
      · rfl

theorem length_flatten {β : Type*} {body : β → List Call} {l : List β}
    {oss : List (List (Outcome ℤ))}
    (h : List.Forall₂ (fun b os => (accesses (body b)).length = os.length) l oss) :
    (accesses (l.flatMap body)).length = oss.flatten.length := by
  induction h with
  | nil => rfl
  | cons hb _ ih =>
    rw [List.flatMap_cons, List.flatten_cons, accesses_append, List.length_append,
      List.length_append, hb, ih]

/-- The outcomes of loops. -/
theorem outcomesAt_flatten {β : Type*} {g : β → List Call} {f : β → List Bool} {l : List β}
    {oss : List (List (Outcome ℤ))} (h : List.Forall₂ (fun b os =>
      (accesses (g b)).length = os.length ∧
        (outcomesAt a (g b) os).map Outcome.isFault = f b) l oss) :
    (outcomesAt a (l.flatMap g) oss.flatten).map Outcome.isFault = l.flatMap f := by
  induction h with
  | nil => rfl
  | cons hb _ ih =>
    rw [List.flatMap_cons, List.flatten_cons, outcomesAt_append hb.1, List.map_append, hb.2, ih,
      List.flatMap_cons]

theorem flatMap_range_ite {β : Type*} {l : List β} {i : ℕ} (hi : i < n) :
    ((List.range n).flatMap fun i' => if i' = i then l else []) = l := by
  suffices h : ∀ n, ((List.range n).flatMap fun i' => if i' = i then l else []) =
      if i < n then l else [] by
    rw [h, if_pos hi]
  intro n
  induction n with
  | zero => simp
  | succ n ih =>
    rw [List.range_succ, List.flatMap_append, List.flatMap_singleton, ih]
    split_ifs <;> first | omega | simp

namespace RowOutcomes

variable {i i' k : ℕ} {os : List (Outcome ℤ)}

theorem length_eq (h : RowOutcomes c m n i os) : (accesses (row c m n i)).length = os.length := by
  obtain ⟨oss, rfl, hoss⟩ := h
  rw [row, accesses_append, List.length_append,
    length_flatten (hoss.imp fun _ _ hj => hj.length_eq)]
  rfl

/-- No element of the row is evicted. -/
theorem spares (h : RowOutcomes c m n i os) {v : ℤ} (hv : .fault (some v) ∈ os) :
    v < i * n ∨ m * n ≤ v := by
  obtain ⟨oss, rfl, hoss⟩ := h
  obtain ⟨os, hos, hv⟩ := List.mem_flatten.1 hv
  obtain ⟨t, ht, rfl⟩ := List.mem_iff_getElem.1 hos
  have hj := hoss.get (by rw [hoss.length_eq]; exact ht) ht
  obtain ⟨r, hr, heq⟩ := List.mem_iff_getElem.1 hv
  exact (List.Forall₂.get hj (by rw [List.Forall₂.length_eq hj]; exact hr) hr).2 v heq

/-- An element of `A` faults at its first access in its row. -/
theorem map_outcomesAt (h : RowOutcomes c m n i' os) (hi : i < n) (hk : k < n) (hnm : n ≤ m) :
    (outcomesAt (i * n + k) (row c m n i') os).map Outcome.isFault =
      if i' = i then true :: List.replicate (m - 1) false else [] := by
  have hlt := element_lt hi hk hnm
  obtain ⟨oss, rfl, hoss⟩ := h
  have hent := outcomesAt_flatten (a := i * n + k) (g := entry c m n i')
    (f := fun j => List.replicate (if i' = i then 1 else 0) (decide (j = 0)))
    (hoss.imp fun j os hj => ⟨hj.length_eq, by
      rw [Hierarchical.map_outcomesAt (by omega) hj, count_entry hi hk hnm]⟩)
  have hlen := length_flatten (hoss.imp fun _ _ hj => hj.length_eq)
  rw [row, ← List.append_nil oss.flatten, outcomesAt_append hlen, List.map_append, hent]
  have hbreak : (outcomesAt (i * n + k) [.breakMemoryChain c] []).map Outcome.isFault = [] := rfl
  rw [hbreak, List.append_nil]
  split_ifs
  · obtain ⟨m, rfl⟩ : ∃ m', m = m' + 1 := ⟨m - 1, by omega⟩
    -- The entry 0 comes first.
    rw [List.range_succ_eq_map, List.flatMap_cons, List.flatMap_map]
    simp [← List.map_eq_flatMap]
  · simp

end RowOutcomes

/-- Chaining keeps the matrix row in memory: each element of `A` is loaded once, and no page of the row
    is evicted before the chain is broken. The addresses are below `2 * m * n`, and do not wrap around
    while this is at most `2 ^ 31`. -/
theorem matrix_multiplication (hnm : n ≤ m) (hcap : n + 1 ≤ cap)
    (ho : ∀ i l, (order i l).Perm l) (clock : LogicalClock) (draws : ℕ → ℕ) :
    let calls := traceNaiveMatrixMultiplication (.make cap clock draws) m n
    ∃ st oss, runCalls order 0 (.make cap clock draws) calls = .ok (st, List.flatten oss) ∧
      (∀ i < n, ∀ k < n, (outcomesAt (i * n + k) calls oss.flatten).map Outcome.isFault =
        true :: List.replicate (m - 1) false) ∧
      List.Forall₂ (fun (i : ℕ) os => (accesses (row 3 m n i)).length = os.length ∧
        ∀ v : ℤ, .fault (some v) ∈ os → v < i * n ∨ (i + 1) * n ≤ v) (List.range n) oss := by
  intro calls
  -- The chain is created, and no page is in memory.
  have hcreate : Triple (Call.command order) (· = .make cap clock draws) [.createMemoryChain .mru]
      fun st os => (∃ E, InRow cap 3 [] ((0 : ℕ) * n) (m * n) E st ∧ E.length ≤ 1) ∧ os = [] :=
    .single fun i st hst => by
      subst hst
      exact ⟨_, [], rfl, ⟨[], ⟨[], [], Queues.make cap clock draws .mru, by simp, by simp,
        fun h => absurd rfl h⟩, Nat.zero_le 1⟩, rfl⟩
  -- The invariant of the rows: no element of the row to come is in memory.
  let I : ℕ → HierarchicalMemoryManager → List (Outcome ℤ) → Prop := fun i st os =>
    (∃ E, InRow cap 3 [] (i * n) (m * n) E st ∧ E.length ≤ 1) ∧
      ∃ oss, os = oss.flatten ∧ List.Forall₂ (RowOutcomes 3 m n) (List.range i) oss
  have hrows : Triple (Call.command order) (I 0 · []) ((List.range n).flatMap (row 3 m n)) (I n) := by
    refine Triple.range I fun i hi os => .of_and fun ⟨oss, hos, hoss⟩ => ?_
    refine (triple_row ho hi hnm hcap).conseq (fun _ h => h) fun st os' ⟨hst, hos'⟩ =>
      ⟨hst, oss ++ [os'], by simp [hos], ?_⟩
    rw [List.range_succ]
    exact List.rel_append hoss (.cons hos' .nil)
  have hrun : Triple (Call.command order) (· = .make cap clock draws) calls fun _ os =>
      ∃ oss, os = oss.flatten ∧ List.Forall₂ (RowOutcomes 3 m n) (List.range n) oss := by
    refine (hcreate.append fun os => .of_and fun hos => ?_ :
      Triple _ _ ([.createMemoryChain .mru] ++ (List.range n).flatMap (row 3 m n)) _)
    rw [hos]
    exact hrows.conseq (fun _ h => ⟨h, [], rfl, .nil⟩) fun _ _ h => h.2
  obtain ⟨st, _, heq, oss, rfl, hoss⟩ := hrun 0 _ rfl
  refine ⟨st, oss, (runCalls_eq_runScript ..).trans heq, fun i hi k hk => ?_, ?_⟩
  · -- The element is accessed in its row only.
    have hrow := outcomesAt_flatten (a := i * n + k) (g := row 3 m n)
      (hoss.imp fun i' os h => ⟨h.length_eq, h.map_outcomesAt hi hk hnm⟩)
    exact hrow.trans (flatMap_range_ite hi)
  · -- The pages spared are those before the row, and those after the matrix.
    refine ((List.forall₂_and_left _ _).2 ⟨fun i => List.mem_range.1, hoss⟩).imp
      fun i os ⟨hi, h⟩ => ⟨h.length_eq, fun v hv => (h.spares hv).imp_right fun hv => ?_⟩
    have : (i + 1) * n ≤ m * n := Nat.mul_le_mul_right n (hi.trans_le hnm)
    exact le_trans (by exact_mod_cast this) hv

/-- Two square matrices of two rows, and three frames. -/
theorem matrix_multiplication_two :
    let calls := traceNaiveMatrixMultiplication (.make 3 {} fun _ => 0) 2 2
    ∃ st oss, runCalls (fun _ l => l) 0 (.make 3 {} fun _ => 0) calls = .ok (st, List.flatten oss) ∧
      (∀ i < (2 : ℕ), ∀ k < (2 : ℕ),
        (outcomesAt (i * (2 : ℕ) + k) calls oss.flatten).map Outcome.isFault =
          true :: List.replicate (2 - 1) false) ∧
      List.Forall₂ (fun (i : ℕ) os => (accesses (row 3 2 2 i)).length = os.length ∧
        ∀ v : ℤ, .fault (some v) ∈ os → v < i * (2 : ℕ) ∨ (i + 1) * (2 : ℕ) ≤ v) (List.range 2) oss :=
  matrix_multiplication (show 2 ≤ 2 from le_rfl) (show 2 + 1 ≤ 3 from le_rfl)
    (fun _ l => List.Perm.refl l) {} fun _ => 0

end Mcpq.Hierarchical
