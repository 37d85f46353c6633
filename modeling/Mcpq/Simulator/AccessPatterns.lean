import Mcpq.Simulator.LoveLevels

/-!
# Access patterns

The two methods `trace_block_join` of the class `AccessPatterns`: the calls that a simulated block join
makes, for each iteration of its outer loop. What a trace does next never depends on the outcomes of its
calls.

An iteration should hate, in the end, the R blocks that it has accessed and loved, each once
(`HatesLoved`). The first method counts them, and does; the second one keeps the first of them and uses
it as if it was their number, and so hates as many blocks as the iterations before have retrieved
(`joinQ_hatesLoved`, `block_join_hatesLoved`).
-/

namespace Mcpq.Simulator

namespace AccessPatterns

/-- The loop that retrieves R blocks from disk into memory, where `turns` iterations are left, `i` is the
    next block and `n` is the number of blocks retrieved. -/
def retrieve (l : ℤ) (r : ℕ) : ℕ → ℕ → ℕ → List HintCall × ℕ × ℕ
  | 0, i, n => ([], i, n)
  | turns + 1, i, n =>
    if i < r then
      let (calls, i', n') := retrieve l r turns (i + 1) (n + 1)
      (.access i :: .love i l :: calls, i', n')
    else ([], i, n)

/-- The loop that hates the `n` blocks before the block `i`. -/
def hateBlocks (i n : ℕ) : List HintCall :=
  (List.range' 1 n).map fun k : ℕ => .hate (i - k) 0

/-- An iteration of the outer loop of `trace_block_join(l, r, s)` from the block `i` on: its calls, and
    the next block. The S blocks are numbered from `r + s` on. -/
def join (capacity : ℕ) (l : ℤ) (r s i : ℕ) : List HintCall × ℕ :=
  let (retrieved, i, n) := retrieve l r (capacity - 1) i 0
  let compared := (List.range' (r + s) s).flatMap fun j : ℕ =>
    (List.range' 1 n).flatMap fun k : ℕ => [.access j, .access (i - k)]
  (retrieved ++ compared ++ hateBlocks i n, i)

/-- An iteration of the outer loop of `trace_block_join(l, r, s, q)`. -/
def joinQ (capacity : ℕ) (l : ℤ) (r s i : ℕ) : List HintCall × ℕ :=
  let n := i
  let (retrieved, i, _) := retrieve l r (capacity - 1) i 0
  let compared := (List.range' (r + s) s).flatMap fun j : ℕ =>
    .access j :: (List.range' n (i - n)).flatMap fun b : ℕ => [.access b, .access j]
  (retrieved ++ compared ++ hateBlocks i n, i)

/-- The outer loop over the R blocks from `i` on: the calls of each iteration. -/
def iterations (body : ℕ → List HintCall × ℕ) (r : ℕ) : ℕ → ℕ → Java (List (List HintCall))
  | fuel, i =>
    if i < r then
      match fuel with
      | 0 => .error .diverges
      | fuel + 1 => do
        let (calls, i) := body i
        let rest ← iterations body r fuel i
        pure (calls :: rest)
    else .ok []

section

variable {σ : Type} (m : MemoryManager σ) (l : ℤ) (r s : ℕ)

/-- The calls of `trace_block_join(l, r, s)` to a manager, for each iteration of the outer loop. -/
def traceBlockJoin : Java (List (List HintCall)) :=
  -- An iteration that makes progress retrieves a block.
  iterations (join m.capacity l r s) r r 0

/-- The calls of `trace_block_join(l, r, s, q)`, which does not read `q`. -/
def traceBlockJoinQ (_ : ℤ) : Java (List (List HintCall)) :=
  iterations (joinQ m.capacity l r s) r r 0

end

/-- The page hated by a call. -/
def hated? : HintCall → Option ℤ
  | .hate page _ => some page
  | _ => none

/-- The calls hate the R blocks that they access and love, each once. -/
def HatesLoved (l : ℤ) (r : ℕ) (calls : List HintCall) : Prop :=
  (calls.filterMap hated?).Nodup ∧ ∀ a, a ∈ calls.filterMap hated? ↔
    (0 ≤ a ∧ a < r) ∧ .access a ∈ calls ∧ .love a l ∈ calls

variable {l : ℤ} {r s i n : ℕ}

/-! ## The loops -/

/-- The calls that retrieve the R blocks from `i` to `i + n` (excluded). -/
def retrieved (l : ℤ) (i n : ℕ) : List HintCall :=
  (List.range' i n).flatMap fun b : ℕ => [.access b, .love b l]

theorem retrieve_eq (turns : ℕ) : retrieve l r turns i n =
    (retrieved l i (min turns (r - i)), i + min turns (r - i), n + min turns (r - i)) := by
  induction turns generalizing i n with
  | zero => simp only [retrieve, retrieved, Nat.zero_min, List.range'_zero, List.flatMap_nil, add_zero]
  | succ turns ih =>
    rw [retrieve]
    split_ifs with hi
    · obtain ⟨d, hd⟩ : ∃ d, min (turns + 1) (r - i) = d + 1 ∧ min turns (r - (i + 1)) = d :=
        ⟨min turns (r - (i + 1)), by omega, rfl⟩
      rw [ih, hd.1, hd.2, retrieved, retrieved, List.range'_succ, List.flatMap_cons]
      exact Prod.ext rfl (Prod.ext (by simp only; omega) (by simp only; omega))
    · have hd : min (turns + 1) (r - i) = 0 := by omega
      rw [hd, retrieved, List.range'_zero, List.flatMap_nil]
      rfl

/-- The outer loop starts an iteration at each multiple of `g`, if an iteration retrieves `g` blocks or
    the last ones. -/
theorem iterations_eq {body : ℕ → List HintCall × ℕ} {g : ℕ} (hg : 0 < g)
    (hbody : ∀ i < r, (body i).2 = min (i + g) r) {fuel : ℕ} (hfuel : r ≤ i + fuel) :
    ∃ its, iterations body r fuel i = .ok its ∧
      ∀ k, its[k]? = if i + k * g < r then some (body (i + k * g)).1 else none := by
  induction fuel generalizing i with
  | zero =>
    refine ⟨[], by rw [iterations, if_neg (by omega)], fun k => ?_⟩
    rw [if_neg (by omega)]
    rfl
  | succ fuel ih =>
    by_cases hi : i < r
    · obtain ⟨its, heq, hits⟩ := ih (i := min (i + g) r) (by omega)
      refine ⟨(body i).1 :: its, ?_, fun k => ?_⟩
      · rw [iterations, if_pos hi]
        simp only [hbody i hi, heq, ok_bind, pure_eq_ok]
      · cases k with
        | zero => simp [hi]
        | succ k =>
          have hk : i + (k + 1) * g = i + g + k * g := by ring
          rw [List.getElem?_cons_succ, hits, hk]
          by_cases hlt : i + g + k * g < r
          · rw [min_eq_left (by omega)]
          · rw [if_neg hlt, if_neg (by omega)]
    · refine ⟨[], by rw [iterations, if_neg hi], fun k => ?_⟩
      rw [if_neg (by omega)]
      rfl

/-! ## An iteration -/

theorem mem_retrieved {c : HintCall} {d : ℕ} : c ∈ retrieved l i d ↔
    ∃ b : ℕ, (i ≤ b ∧ b < i + d) ∧ (c = .access b ∨ c = .love b l) := by
  simp only [retrieved, List.mem_flatMap, List.mem_range'_1, List.mem_cons, List.not_mem_nil, or_false]

theorem hated_retrieved (d : ℕ) : (retrieved l i d).filterMap hated? = [] := by
  refine List.filterMap_eq_nil_iff.2 fun c hc => ?_
  obtain ⟨b, -, rfl | rfl⟩ := mem_retrieved.1 hc <;> rfl

theorem hated_hateBlocks :
    (hateBlocks i n).filterMap hated? = (List.range' 1 n).map fun k : ℕ => (i - k : ℤ) := by
  rw [hateBlocks, List.filterMap_map]
  exact congrFun (List.filterMap_eq_map (f := fun k : ℕ => (i - k : ℤ))) _

theorem mem_hated_hateBlocks {a : ℤ} :
    a ∈ (hateBlocks i n).filterMap hated? ↔ (i : ℤ) - n ≤ a ∧ a < i := by
  rw [hated_hateBlocks, List.mem_map]
  constructor
  · rintro ⟨k, hk, rfl⟩
    rw [List.mem_range'_1] at hk
    omega
  · rintro ⟨hle, hlt⟩
    exact ⟨(i - a).toNat, by rw [List.mem_range'_1]; omega, by omega⟩

theorem nodup_hated_hateBlocks : ((hateBlocks i n).filterMap hated?).Nodup := by
  rw [hated_hateBlocks]
  refine List.Nodup.map (fun k k' hk => ?_) (List.nodup_range' ..)
  omega

/-- An iteration that retrieves `d` blocks and hates `n` blocks hates what it has loved if and only if
    the two numbers are equal. -/
theorem hatesLoved_iff {compared : List HintCall} (hcompared : ∀ c ∈ compared, ∃ a, c = .access a)
    {d : ℕ} (hd : 0 < d) (hir : i + d ≤ r) :
    HatesLoved l r (retrieved l i d ++ compared ++ hateBlocks (i + d) n) ↔ n = d := by
  have hnone : compared.filterMap hated? = [] := by
    refine List.filterMap_eq_nil_iff.2 fun c hc => ?_
    obtain ⟨a, rfl⟩ := hcompared c hc
    rfl
  have haccess : ∀ a : ℤ, i ≤ a → a < i + d →
      HintCall.access a ∈ retrieved l i d ++ compared ++ hateBlocks (i + d) n := fun a hle hlt =>
    List.mem_append_left _ (List.mem_append_left _ (mem_retrieved.2
      ⟨a.toNat, by omega, .inl (by rw [Int.toNat_of_nonneg (by omega)])⟩))
  have hlove : ∀ a : ℤ, .love a l ∈ retrieved l i d ++ compared ++ hateBlocks (i + d) n ↔
      i ≤ a ∧ a < i + d := by
    intro a
    constructor
    · intro ha
      rcases List.mem_append.1 ha with ha | ha
      · rcases List.mem_append.1 ha with ha | ha
        · obtain ⟨b, hb, h | h⟩ := mem_retrieved.1 ha
          · cases h
          · obtain ⟨rfl, -⟩ := HintCall.love.inj h
            omega
        · obtain ⟨b, h⟩ := hcompared _ ha
          cases h
      · obtain ⟨k, -, h⟩ := List.mem_map.1 ha
        cases h
    · rintro ⟨hle, hlt⟩
      exact List.mem_append_left _ (List.mem_append_left _ (mem_retrieved.2
        ⟨a.toNat, by omega, .inr (by rw [Int.toNat_of_nonneg (by omega)])⟩))
  simp only [HatesLoved, List.filterMap_append, hated_retrieved, hnone, List.nil_append,
    nodup_hated_hateBlocks, true_and, mem_hated_hateBlocks, hlove]
  constructor
  · intro h
    -- The first block retrieved is hated, and so is no block before it.
    have hfirst := (h i).2 ⟨by omega, haccess i le_rfl (by omega), by omega⟩
    have hlast := (h ((i + d : ℕ) - n)).1 (by omega)
    omega
  · rintro rfl a
    constructor
    · rintro ⟨hle, hlt⟩
      exact ⟨by omega, haccess a (by omega) (by omega), by omega⟩
    · rintro ⟨-, -, hle, hlt⟩
      omega

variable {capacity : ℕ}

theorem join_snd (hi : i < r) : (join capacity l r s i).2 = min (i + (capacity - 1)) r := by
  rw [join, retrieve_eq]
  simp only
  omega

theorem joinQ_snd (hi : i < r) : (joinQ capacity l r s i).2 = min (i + (capacity - 1)) r := by
  rw [joinQ, retrieve_eq]
  simp only
  omega

/-- Each iteration of `trace_block_join(l, r, s)` hates what it has loved. -/
theorem join_hatesLoved (hcapacity : 2 ≤ capacity) (hi : i < r) :
    HatesLoved l r (join capacity l r s i).1 := by
  rw [join, retrieve_eq]
  refine (hatesLoved_iff (fun c hc => ?_) (by omega) (by omega)).2 (Nat.zero_add _)
  simp only [List.mem_flatMap, List.mem_cons, List.not_mem_nil, or_false] at hc
  obtain ⟨j, -, k, -, rfl | rfl⟩ := hc
  · exact ⟨_, rfl⟩
  · exact ⟨_, rfl⟩

/-- An iteration of `trace_block_join(l, r, s, q)` hates what it has loved if and only if it retrieves as
    many blocks as there are before. -/
theorem joinQ_hatesLoved (hcapacity : 2 ≤ capacity) (hi : i < r) :
    HatesLoved l r (joinQ capacity l r s i).1 ↔ i = min (capacity - 1) (r - i) := by
  rw [joinQ, retrieve_eq]
  refine hatesLoved_iff (fun c hc => ?_) (by omega) (by omega)
  simp only [List.mem_flatMap, List.mem_cons, List.not_mem_nil, or_false] at hc
  obtain ⟨j, -, rfl | ⟨b, -, rfl | rfl⟩⟩ := hc
  · exact ⟨_, rfl⟩
  · exact ⟨_, rfl⟩
  · exact ⟨_, rfl⟩

/-! ## The traces -/

variable {σ : Type} {m : MemoryManager σ}

theorem traceBlockJoin_eq (hcapacity : 2 ≤ m.capacity) :
    ∃ its, traceBlockJoin m l r s = .ok its ∧ ∀ k, its[k]? =
      if k * (m.capacity - 1) < r then some (join m.capacity l r s (k * (m.capacity - 1))).1
      else none := by
  obtain ⟨its, heq, hits⟩ := iterations_eq (g := m.capacity - 1) (by omega)
    (fun i hi => join_snd (l := l) (s := s) hi) (Nat.le_add_left r 0)
  exact ⟨its, heq, by simpa only [Nat.zero_add] using hits⟩

theorem traceBlockJoinQ_eq (hcapacity : 2 ≤ m.capacity) (q : ℤ) :
    ∃ its, traceBlockJoinQ m l r s q = .ok its ∧ ∀ k, its[k]? =
      if k * (m.capacity - 1) < r then some (joinQ m.capacity l r s (k * (m.capacity - 1))).1
      else none := by
  obtain ⟨its, heq, hits⟩ := iterations_eq (g := m.capacity - 1) (by omega)
    (fun i hi => joinQ_snd (l := l) (s := s) hi) (Nat.le_add_left r 0)
  exact ⟨its, heq, by simpa only [Nat.zero_add] using hits⟩

/-- The trace ends, and each of its iterations hates what it has loved. -/
def EachHatesLoved (l : ℤ) (r : ℕ) (trace : Java (List (List HintCall))) : Prop :=
  ∃ its, trace = .ok its ∧ ∀ calls ∈ its, HatesLoved l r calls

theorem traceBlockJoin_hatesLoved (hcapacity : 2 ≤ m.capacity) :
    EachHatesLoved l r (traceBlockJoin m l r s) := by
  obtain ⟨its, heq, hits⟩ := traceBlockJoin_eq hcapacity
  refine ⟨its, heq, fun calls hcalls => ?_⟩
  obtain ⟨k, hk⟩ := List.mem_iff_getElem?.1 hcalls
  rw [hits] at hk
  split_ifs at hk with hlt
  obtain rfl := Option.some.inj hk
  exact join_hatesLoved hcapacity hlt

/-- Of the iterations of `trace_block_join(l, r, s, q)`, only the second one may hate what it has loved:
    if it retrieves as many blocks as the first one. -/
theorem traceBlockJoinQ_hatesLoved (hcapacity : 2 ≤ m.capacity) (q : ℤ) :
    ∃ its, traceBlockJoinQ m l r s q = .ok its ∧ (0 < r → ∃ calls, its[0]? = some calls) ∧
      ∀ k calls, its[k]? = some calls →
        (HatesLoved l r calls ↔ k = 1 ∧ 2 * (m.capacity - 1) ≤ r) := by
  obtain ⟨its, heq, hits⟩ := traceBlockJoinQ_eq hcapacity q
  refine ⟨its, heq, fun hr => ?_, fun k calls hk => ?_⟩
  · rw [hits, Nat.zero_mul, if_pos hr]
    exact ⟨_, rfl⟩
  · rw [hits] at hk
    split_ifs at hk with hlt
    obtain rfl := Option.some.inj hk
    rw [joinQ_hatesLoved hcapacity hlt]
    constructor
    · intro h
      -- As many blocks are before as one iteration retrieves.
      obtain rfl : k = 1 := by
        have hle : k * (m.capacity - 1) ≤ 1 * (m.capacity - 1) := by omega
        have hk := Nat.le_of_mul_le_mul_right hle (by omega)
        have hne : k ≠ 0 := by
          rintro rfl
          omega
        omega
      exact ⟨rfl, by omega⟩
    · rintro ⟨rfl, hle⟩
      omega

/-- The iterations of `trace_block_join(l, r, s)` hate what they have loved. Of those of
    `trace_block_join(l, r, s, q)`, only the second one may, and so all do if and only if there are none. -/
theorem block_join_hatesLoved (hcapacity : 2 ≤ m.capacity) (q : ℤ) :
    EachHatesLoved l r (traceBlockJoin m l r s) ∧
      ∃ its, traceBlockJoinQ m l r s q = .ok its ∧
        (∀ k calls, its[k]? = some calls →
          (HatesLoved l r calls ↔ k = 1 ∧ 2 * (m.capacity - 1) ≤ r)) ∧
        ((∀ calls ∈ its, HatesLoved l r calls) ↔ r = 0) := by
  obtain ⟨its, heq, hfirst, hits⟩ := traceBlockJoinQ_hatesLoved hcapacity q
  refine ⟨traceBlockJoin_hatesLoved hcapacity, its, heq, hits, fun hall => ?_, fun hr => ?_⟩
  · by_contra hr
    -- The first iteration hates nothing.
    obtain ⟨calls, hcalls⟩ := hfirst (Nat.pos_of_ne_zero hr)
    have h := (hits 0 calls hcalls).1 (hall calls (List.mem_of_getElem? hcalls))
    exact absurd h.1 zero_ne_one
  · obtain rfl : [] = its := Except.ok.inj (hr ▸ heq)
    exact fun _ h => absurd h List.not_mem_nil

/-- Five R blocks, in a memory of three pages: two iterations retrieve two blocks, and one a block. -/
theorem block_join_hatesLoved_of_five :
    EachHatesLoved 254 5 (traceBlockJoin (.make () 3 {} : MemoryManager Unit) 254 5 2) ∧
      ∃ its, traceBlockJoinQ (.make () 3 {} : MemoryManager Unit) 254 5 2 0 = .ok its ∧
        (∀ k calls, its[k]? = some calls → (HatesLoved 254 5 calls ↔ k = 1 ∧ 2 * (3 - 1) ≤ 5)) ∧
        ((∀ calls ∈ its, HatesLoved 254 5 calls) ↔ 5 = 0) :=
  block_join_hatesLoved (m := .make () 3 {}) (by decide) 0

/-- The only R block of a relation is loved, and not hated. -/
theorem not_block_join_hatesLoved : ¬∀ (m : MemoryManager Unit) (l : ℤ) (r s : ℕ) (q : ℤ),
    2 ≤ m.capacity → EachHatesLoved l r (traceBlockJoinQ m l r s q) := by
  intro hhates
  obtain ⟨its, heq, hall⟩ := hhates (.make () 2 {}) 1 1 0 0 (le_refl 2)
  obtain rfl : [[.access 0, .love 0 1]] = its := Except.ok.inj heq
  exact absurd ((hall _ List.mem_cons_self).2 0) (by decide)

end AccessPatterns

end Mcpq.Simulator
