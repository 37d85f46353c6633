import Mcpq.Simulator.LoveLevels
import Mcpq.Lib.Competitive
import Mathlib.Data.List.ReduceOption

/-!
# LRU and the other policies

Whatever the policy, an access to a page that is not in memory loads it in the place of at most one
page, and nothing else does: the memory is one that `LRUReplacementPolicy` can be compared with
(`access_demand`). With a memory of `n` pages, it misses at most `n / (n + 1 - h)` times as often as any
policy does with a memory of `h` pages, and whatever it is told to love or to hate (`lru_competitive`).
-/

namespace Mcpq.Simulator

variable {σ : Type}

namespace HintCall

/-- Execute a call with a policy; also the outcome of an access. -/
def run (P : IPageReplacementPolicy σ) (m : MemoryManager σ) :
    HintCall → Java (MemoryManager σ × Option (Outcome ℤ))
  | access address => (m.access P address).map fun r => (r.1, some r.2)
  | love page l => (m.love P page l).map (·, none)
  | lovePin page l pin => (m.lovePin P page l pin).map (·, none)
  | hate page l => (m.hate P page l).map (·, none)

/-- The page that a call accesses. -/
def accessed? : HintCall → Option ℤ
  | access address => some address
  | _ => none

end HintCall

/-- Calls to the manager, and the outcomes of the accesses. -/
def hintRun (P : IPageReplacementPolicy σ) :
    MemoryManager σ → List HintCall → Java (MemoryManager σ × List (Outcome ℤ))
  | m, [] => .ok (m, [])
  | m, call :: calls => do
    let (m, o) ← call.run P m
    let (m, os) ← hintRun P m calls
    pure (m, o.toList ++ os)

namespace MemoryManager

variable {P : IPageReplacementPolicy σ} {m m' : MemoryManager σ} {a p : ℤ} {o : Outcome ℤ}

/-- The pages in memory. -/
def pages (m : MemoryManager σ) : Finset ℤ := m.memory.reduceOption.toFinset

theorem mem_pages : p ∈ m.pages ↔ some p ∈ m.memory := by
  rw [pages, List.mem_toFinset, List.reduceOption_mem_iff]

theorem card_pages_le (m : MemoryManager σ) : m.pages.card ≤ m.memory.length :=
  (List.toFinset_card_le _).trans (List.reduceOption_length_le _)

theorem getFromMemory_eq_none_iff : m.getFromMemory a = none ↔ a ∉ m.pages := by
  rw [mem_pages, getFromMemory, Option.join_eq_none_iff]
  constructor
  · rintro (h | h) hmem
    · exact absurd (beq_self_eq_true (some a)) (List.find?_eq_none.1 h _ hmem)
    · exact absurd (List.find?_some h) (by simp)
  · intro h
    refine .inl (List.find?_eq_none.2 fun q hq hqa => h ?_)
    rwa [eq_of_beq hqa] at hq

/-- A page is loaded in the place of at most one page. -/
theorem loadTo_pages {position : ℤ} (h : m.loadTo position a = .ok m') :
    a ∈ m'.pages ∧ m'.pages ⊆ insert a m.pages ∧ m'.memory.length = m.memory.length := by
  obtain ⟨memory, hset, heq⟩ := bind_eq_ok h
  cases heq
  have hpage : (m.getFromDisk a).2 = a := by
    rw [getFromDisk]
    split_ifs <;> rfl
  have hmemory : (m.getFromDisk a).1.memory = m.memory := by
    rw [getFromDisk]
    split_ifs <;> rfl
  change arraySet (m.getFromDisk a).1.memory position (some (m.getFromDisk a).2) = _ at hset
  rw [hpage, hmemory, arraySet] at hset
  split_ifs at hset with hlt
  cases hset
  refine ⟨mem_pages.2 (List.mem_set hlt.2 _), fun q hq => ?_, List.length_set ..⟩
  rcases List.mem_or_eq_of_mem_set (mem_pages.1 hq) with hq | hq
  · exact Finset.mem_insert_of_mem (mem_pages.2 hq)
  · exact Finset.mem_insert.2 (.inl (Option.some.inj hq))

/-- The policy writes no slot. -/
theorem freePosition_memory {r : MemoryManager σ × ℤ × Option ℤ} (h : m.freePosition P = .ok r) :
    r.1.memory = m.memory := by
  rw [freePosition] at h
  split_ifs at h
  · obtain ⟨_, -, h⟩ := bind_eq_ok h
    obtain ⟨_, -, h⟩ := bind_eq_ok h
    cases h
    rfl
  · cases h
    rfl

/-- An access, with any policy. -/
theorem access_demand (h : m.access P a = .ok (m', o)) :
    Demand m.memory.length m.pages a o m'.pages ∧ m'.memory.length = m.memory.length := by
  rw [access] at h
  split at h
  · rename_i hget
    obtain ⟨⟨m₁, i, v⟩, hfree, h⟩ := bind_eq_ok h
    obtain ⟨m₂, hload, h⟩ := bind_eq_ok h
    cases h
    obtain ⟨hmem, hsub, hlen⟩ := loadTo_pages hload
    have hmem₁ : m₁.memory = m.memory := freePosition_memory hfree
    have hpages : m₁.pages = m.pages := congrArg (fun l => l.reduceOption.toFinset) hmem₁
    rw [hmem₁] at hlen
    rw [hpages] at hsub
    exact ⟨⟨⟨fun _ => getFromMemory_eq_none_iff.1 hget, fun _ => rfl⟩, hmem, hsub,
      hlen ▸ m'.card_pages_le⟩, hlen⟩
  · rename_i page hget
    cases h
    have ha : a ∈ m.pages := by
      by_contra ha
      rw [getFromMemory_eq_none_iff.2 ha] at hget
      cases hget
    exact ⟨⟨⟨fun h => absurd h Bool.false_ne_true, fun h => absurd ha h⟩, ha,
      Finset.subset_insert _ _, m.card_pages_le⟩, rfl⟩

/-- The calls that are not accesses write no slot. -/
theorem run_cases {call : HintCall} {r : MemoryManager σ × Option (Outcome ℤ)}
    (h : call.run P m = .ok r) :
    (∃ a o, call.accessed? = some a ∧ r.2 = some o ∧ m.access P a = .ok (r.1, o)) ∨
      call.accessed? = none ∧ r.2 = none ∧ r.1.memory = m.memory := by
  cases call with
  | access a =>
    obtain ⟨⟨m', o⟩, haccess, heq⟩ := map_eq_ok h
    cases heq
    exact .inl ⟨a, o, rfl, rfl, haccess⟩
  | love p l =>
    obtain ⟨m', hlove, heq⟩ := map_eq_ok h
    cases heq
    obtain ⟨_, -, heq⟩ := bind_eq_ok hlove
    cases heq
    exact .inr ⟨rfl, rfl, rfl⟩
  | lovePin p l pin =>
    obtain ⟨m', hlove, heq⟩ := map_eq_ok h
    cases heq
    obtain ⟨_, -, heq⟩ := bind_eq_ok hlove
    cases heq
    exact .inr ⟨rfl, rfl, rfl⟩
  | hate p l =>
    obtain ⟨m', hhate, heq⟩ := map_eq_ok h
    cases heq
    refine .inr ⟨rfl, rfl, ?_⟩
    rw [MemoryManager.hate] at hhate
    split at hhate
    · cases hhate
      rfl
    · cases hhate
      rfl
    · cases hhate

/-- The accesses of a run are those of a memory. -/
theorem demandRun_hintRun {calls : List HintCall} {os : List (Outcome ℤ)}
    (h : hintRun P m calls = .ok (m', os)) :
    DemandRun m.memory.length m.pages (calls.filterMap HintCall.accessed?) os m'.pages := by
  induction calls generalizing m os with
  | nil =>
    cases h
    exact .nil _
  | cons call calls ih =>
    obtain ⟨⟨m₁, o⟩, hcall, h⟩ := bind_eq_ok h
    obtain ⟨⟨m₂, os⟩, hrun, h⟩ := bind_eq_ok h
    cases h
    have hrun := ih hrun
    rcases run_cases hcall with ⟨a, o, ha, rfl, haccess⟩ | ⟨ha, rfl, hmem⟩
    · obtain ⟨hd, hlen⟩ := access_demand haccess
      rw [List.filterMap_cons_some ha]
      exact .cons hd (hlen ▸ hrun)
    · rw [List.filterMap_cons_none ha]
      rw [pages, hmem] at hrun
      exact hrun

end MemoryManager

/-- LRU misses at most `n / (n + 1 - h)` times as often with a memory of `n` pages as any policy with a
    memory of `h` pages, whatever pages it is told to love or to hate. -/
theorem lru_competitive {P : IPageReplacementPolicy σ} {policy : σ} {h n : ℕ} (h0 : 0 < n)
    {clock : LogicalClock} {calls : List HintCall} {m : MemoryManager σ} {os : List (Outcome ℤ)}
    (hrun : hintRun P (.make policy h clock) calls = .ok (m, os)) (clock' : LogicalClock) :
    ∃ m' os', lruRun n clock' (calls.filterMap HintCall.accessed?) = .ok (m', os') ∧
      (n + 1 - h) * faults os' ≤ n * faults os := by
  obtain ⟨m', heq, -⟩ := lru_outcomes h0 clock' (calls.filterMap HintCall.accessed?)
  have hdemand := MemoryManager.demandRun_hintRun hrun
  rw [MemoryManager.make, MemoryManager.pages, List.length_replicate,
    List.reduceOption_replicate_none, List.toFinset_nil] at hdemand
  exact ⟨m', _, heq, hdemand.faults_le⟩

/-- A policy that is told to love a page, and LRU with a page more. -/
theorem lru_competitive_three : ∃ m, hintRun loveHateReplacementPolicy (.make () 2 {})
      [.access 1, .love 1 1, .access 2, .access 3, .access 1] =
        .ok (m, [.fault none, .fault none, .fault (some 2), .hit]) ∧
    ∃ m' os', lruRun 3 {} [1, 2, 3, 1] = .ok (m', os') ∧ (3 + 1 - 2) * faults os' ≤ 3 * 3 := by
  have heq : (hintRun loveHateReplacementPolicy (.make () 2 {})
      [.access 1, .love 1 1, .access 2, .access 3, .access 1]).map (·.2) =
        .ok [.fault none, .fault none, .fault (some 2), .hit] := by
    rfl
  obtain ⟨⟨m, os⟩, hrun, rfl⟩ := map_eq_ok heq
  exact ⟨m, hrun, lru_competitive (n := 3) (by decide) hrun {}⟩

end Mcpq.Simulator
