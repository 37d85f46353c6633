import Mcpq.Simulator.Clocks
import Mcpq.Lib.RoundRobin

/-!
# The love clock

The loop of `LoveClockReplacementPolicy.findPageToEvict` goes around the memory until the love of a page
and its bit have gone down, which takes `rank` visits to the page. It ends if a page has a rank, that is
if its love is not negative, and finds the first page of least rank from the hand on (`find_least`).
-/

namespace Mcpq.Simulator.LoveClockReplacementPolicy

/-- What a visit of the hand does to a page. -/
def visit (p : MemoryPage) : MemoryPage :=
  let p := if p.love = 0 then { p with referenced := false } else p
  if p.love > 0 then { p with love := p.love - 1, referenced := true } else p

/-- The hand stops at the page. -/
def Stops (p : MemoryPage) : Prop := p.love = 0 ∧ ¬p.referenced

instance : DecidablePred Stops := fun _ => instDecidableAnd

/-- The number of visits to a page before the hand stops there; it never stops at a page of negative
    love. -/
def rank (p : MemoryPage) : Option ℕ :=
  if p.love < 0 then none
  else if p.love = 0 then some (if p.referenced then 1 else 0) else some (p.love.toNat + 1)

theorem visit_of_zero {p : MemoryPage} (h : p.love = 0) : visit p = { p with referenced := false } := by
  rw [visit, if_pos h]
  exact if_neg (by simp [h])

theorem visit_of_pos {p : MemoryPage} (h : 0 < p.love) :
    visit p = { p with love := p.love - 1, referenced := true } := by
  rw [visit, if_neg h.ne']
  exact if_pos h

theorem visit_of_neg {p : MemoryPage} (h : p.love < 0) : visit p = p := by
  rw [visit, if_neg h.ne]
  exact if_neg h.not_gt

/-- A visit to a page brings it one visit closer to where the hand stops. -/
theorem rank_visits : RoundRobin.Rank visit Stops rank where
  stop_iff p := by
    rw [Stops, rank]
    split_ifs with hneg hzero href
    · simp [hneg.ne]
    · simp [hzero, href]
    · simp [hzero, href]
    · simp [hzero]
  visit_succ p r hr := by
    rw [rank] at hr
    split_ifs at hr with hneg hzero href
    · obtain rfl : r = 0 := by simpa using hr.symm
      rw [visit_of_zero hzero, rank]
      simp [hzero]
    · simp at hr
    · -- The last visit that takes love away leaves the bit set.
      have hpos : 0 < p.love := lt_of_le_of_ne (not_lt.1 hneg) (Ne.symm hzero)
      have hr' : p.love.toNat = r := by simpa using hr
      rw [visit_of_pos hpos, rank]
      dsimp only
      rw [if_neg (by omega), if_pos rfl]
      split_ifs with hone
      · congr 1
        omega
      · congr 1
        omega
  visit_none p hp := by
    have hneg : p.love < 0 := by
      rw [rank] at hp
      split_ifs at hp with hneg
      exact hneg
    rw [visit_of_neg hneg, hp]

theorem isSome_rank {p : MemoryPage} : (rank p).isSome = true ↔ 0 ≤ p.love := by
  rw [rank]
  by_cases hneg : p.love < 0
  · simp [hneg]
  · rw [if_neg hneg, apply_ite Option.isSome]
    exact iff_of_true (ite_self _) (not_lt.1 hneg)

theorem rank_le {p : MemoryPage} {R : ℕ} (hR : rank p = some R) : R ≤ p.love.toNat + 1 := by
  rw [rank] at hR
  split_ifs at hR
  all_goals
    obtain rfl := Option.some.inj hR
    omega

/-! ## The loop -/

variable {pages : List PageRef} {h : Heap}

/-- The two assignments of the loop are a visit. -/
theorem modify_visit (h : Heap) (p : PageRef) :
    (let h₁ := if (h.page p).love = 0 then h.modify p ({ · with referenced := false }) else h
     if (h₁.page p).love > 0 then
       h₁.modify p fun q => { q with love := q.love - 1, referenced := true }
     else h₁) = h.modify p visit := by
  dsimp only
  rcases lt_trichotomy (h.page p).love 0 with hneg | hzero | hpos
  · rw [if_neg hneg.ne, if_neg hneg.not_gt, Heap.modify, visit_of_neg hneg, Function.update_eq_self]
  · rw [if_pos hzero, Heap.modify_page_self, if_neg (by simp [hzero]), Heap.modify, Heap.modify,
      visit_of_zero hzero]
  · rw [if_neg hpos.ne', if_pos hpos, Heap.modify, Heap.modify, visit_of_pos hpos]

/-- A turn of the loop. -/
theorem turn_succ {i : ℕ} (hi : i < pages.length) (fuel : ℕ) :
    turn (pages.map some) (fuel + 1) h i =
      if Stops (h.page pages[i]) then .ok (some pages[i], h, (i : ℤ))
      else turn (pages.map some) fuel (h.modify pages[i] visit) ((i + 1) % pages.length : ℕ) := by
  have hget : arrayGet (pages.map some) (i : ℤ) = .ok (some pages[i]) :=
    arrayGet_natCast (by rw [List.getElem?_map, List.getElem?_eq_getElem hi]; rfl)
  rw [turn, hget, List.length_map, ← modify_visit]
  push_cast
  rfl

/-- The loop visits the pages from the hand on. -/
theorem turn_go {fuel i : ℕ} {p : PageRef} {s : PageRef → MemoryPage} {ring : List PageRef}
    (hi : i < pages.length)
    (heq : RoundRobin.go visit Stops fuel h.page (pages.rotate i) = some (p, s, ring)) :
    ∃ j < pages.length, turn (pages.map some) fuel h i = .ok (some p, { h with page := s }, (j : ℤ)) ∧
      pages.rotate j = ring := by
  induction fuel generalizing h i with
  | zero => cases heq
  | succ fuel ih =>
    obtain ⟨l, hrot, hsucc⟩ := rotate_succ hi
    rw [hrot, RoundRobin.go] at heq
    rw [turn_succ hi]
    by_cases hstop : Stops (h.page pages[i])
    · rw [if_pos hstop] at heq ⊢
      obtain ⟨rfl, hrest⟩ := Prod.mk.inj (Option.some.inj heq)
      obtain ⟨rfl, rfl⟩ := Prod.mk.inj hrest
      exact ⟨i, hi, rfl, hrot⟩
    · rw [if_neg hstop] at heq ⊢
      rw [← hsucc, ← List.rotate_mod] at heq
      exact ih (h := h.modify pages[i] visit) (Nat.mod_lt _ (Nat.zero_lt_of_lt hi)) heq

/-- The turns of the loop suffice for the rounds to the rank of a page. -/
theorem lt_turns {p : PageRef} {R d : ℕ} (hp : p ∈ pages) (hR : rank (h.page p) = some R)
    (hd : d < pages.length) : R * pages.length + d < turns h (pages.map some) := by
  have hle : R ≤ ((pages.map some).map fun p => p.elim 0 fun p => (h.page p).love.toNat + 1).sum := by
    refine (rank_le hR).trans (List.single_le_sum (fun _ _ => Nat.zero_le _) _ ?_)
    rw [List.map_map, List.mem_map]
    exact ⟨p, hp, rfl⟩
  have hmul := Nat.mul_le_mul_right pages.length hle
  rw [turns, List.length_map, Nat.add_mul, one_mul]
  omega

/-- The loop ends if there is a page whose love is not negative, at the page that is the first of those
    of least rank from the hand on. The pages before it have been visited once more than that rank, and
    the others as often as that rank. -/
theorem find_least (hnd : pages.Nodup) {i : ℕ} (hi : i < pages.length)
    (hlove : ∃ p ∈ pages, 0 ≤ (h.page p).love) :
    ∃ p R d h', RoundRobin.Rank.Least rank h.page (pages.rotate i) p R d ∧
      loveClockReplacementPolicy.findPageToEvict i h (pages.map some) =
        .ok (some p, h', ((i + d) % pages.length : ℕ)) ∧
      (∀ e q, (pages.rotate i)[e]? = some q →
        h'.page q = visit^[if e < d then R + 1 else R] (h.page q)) ∧
      (∀ q, q ∉ pages → h'.page q = h.page q) ∧ h'.disk = h.disk ∧ h'.clock = h.clock := by
  have hlen : (pages.rotate i).length = pages.length := List.length_rotate ..
  have hndr : (pages.rotate i).Nodup := List.nodup_rotate.2 hnd
  have hex : ∃ p ∈ pages.rotate i, (rank (h.page p)).isSome = true := by
    obtain ⟨p, hp, hle⟩ := hlove
    exact ⟨p, List.mem_rotate.2 hp, isSome_rank.2 hle⟩
  obtain ⟨p, R, d, hl⟩ := RoundRobin.Rank.exists_least hex
  obtain ⟨hd, hp⟩ := List.getElem?_eq_some_iff.1 hl.1
  rw [hlen] at hd
  have hmem : p ∈ pages := List.mem_rotate.1 (hp ▸ List.getElem_mem _)
  obtain ⟨s, hgo, hvisits, hrest⟩ := rank_visits.go_eq_some hndr hl
    (hlen.symm ▸ lt_turns hmem hl.2.1 hd)
  obtain ⟨j, hj, hturn, hrot⟩ := turn_go hi hgo
  -- The hand has advanced by `d`, up to whole rounds.
  have hjd : j = (i + d) % pages.length := by
    rw [List.rotate_rotate] at hrot
    rcases (List.Nodup.rotate_congr_iff hnd).1 hrot with hmod | hnil
    · rwa [Nat.mod_eq_of_lt hj] at hmod
    · rw [hnil] at hi
      exact absurd hi (Nat.not_lt_zero i)
  refine ⟨p, R, d, { h with page := s }, hl, ?_, hvisits, fun q hq =>
    hrest q fun hq' => hq (List.mem_rotate.1 hq'), rfl, rfl⟩
  rw [← hjd]
  exact hturn

/-- Three pages: one is loved, the one under the hand is referenced, and one has a negative love. -/
def heapOfThree : Heap where
  page p := if p = 1 then { love := 2 } else if p = 2 then { referenced := true } else { love := -1 }

/-- Three frames, and the hand in the middle. -/
theorem find_least_three :
    ∃ p R d h', RoundRobin.Rank.Least rank heapOfThree.page ([1, 2, 3].rotate 1) p R d ∧
      loveClockReplacementPolicy.findPageToEvict (1 : ℕ) heapOfThree ([1, 2, 3].map some) =
        .ok (some p, h', ((1 + d) % 3 : ℕ)) ∧
      (∀ e q, ([1, 2, 3].rotate 1)[e]? = some q →
        h'.page q = visit^[if e < d then R + 1 else R] (heapOfThree.page q)) ∧
      (∀ q, q ∉ [1, 2, 3] → h'.page q = heapOfThree.page q) ∧ h'.disk = heapOfThree.disk ∧
      h'.clock = heapOfThree.clock :=
  find_least (by decide) (by decide) ⟨2, by decide, by decide⟩

end Mcpq.Simulator.LoveClockReplacementPolicy
