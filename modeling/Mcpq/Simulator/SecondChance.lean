import Mcpq.Simulator.HintFree
import Mcpq.Lib.SecondChance

/-!
# The clock and second chance

A memory manager with `ClockReplacementPolicy` is a ring, read from the hand on: the page evicted is
replaced where it was, and the hand stays there (`Clocked.access`). It does not advance past the page
it has just loaded, whose bit it clears first at the next fault, and is thus not the second-chance
queue (`not_secondChance`). It has the outcomes of the queue exactly if its evictions are in time
(`clock_secondChance_iff`).
-/

namespace Mcpq.Simulator

open SecondChance

/-- A page with its bit. -/
def Heap.bit (h : Heap) (p : PageRef) : PageRef × Bool := (p, (h.page p).referenced)

/-- The pages in memory with their bits, from the hand on. -/
def ring (m : MemoryManager ℤ) : List (PageRef × Bool) :=
  ((m.memory.rotate m.policy.toNat).filterMap id).map m.heap.bit

/-- The slots in use of the memory hold the pages `slots`, and the hand is at `i`. -/
structure Clocked (n : ℕ) (m : MemoryManager ℤ) (slots : List PageRef) (i : ℕ) : Prop
    extends Frames n m slots where
  hand_eq : m.policy = i
  hand_lt : i < n
  hand_zero : slots.length < n → i = 0

variable {n i : ℕ} {m m' : MemoryManager ℤ} {slots : List PageRef} {a p : ℤ} {h h' : Heap}

theorem map_bit_of_ne {l : List PageRef} (hpage : ∀ q, q ≠ a → h'.page q = h.page q) (ha : a ∉ l) :
    l.map h'.bit = l.map h.bit :=
  List.map_congr_left fun q hq => by
    rw [Heap.bit, Heap.bit, hpage q fun hqa => ha (hqa ▸ hq)]

theorem pages_map_bit (l : List PageRef) : SecondChance.pages (l.map h.bit) = l := by
  rw [SecondChance.pages, List.map_map]
  exact List.map_id l

/-- The loop of the clock examines the pages from the hand on. -/
theorem turn_examine (hnd : slots.Nodup) {fuel : ℕ} {rest : List (PageRef × Bool)} (h : Heap)
    (hi : i < slots.length) (heq : examine fuel ((slots.rotate i).map h.bit) = some (p, rest)) :
    ∃ h' j, j < slots.length ∧
      ClockReplacementPolicy.turn (slots.map some) fuel h i = .ok (some p, h', (j : ℤ)) ∧
      (slots.rotate j).map h'.bit = (p, false) :: rest := by
  induction fuel generalizing h i with
  | zero => cases heq
  | succ fuel ih =>
    obtain ⟨l, hrot, hsucc⟩ := rotate_succ hi
    rw [ClockReplacementPolicy.turn_succ hi]
    by_cases href : (h.page slots[i]).referenced = true
    · rw [if_neg (by simpa using href)]
      -- The bit of the page under the hand is cleared, and the page comes last.
      have hl : slots[i] ∉ l := by
        have := (List.nodup_rotate (n := i)).2 hnd
        rw [hrot] at this
        exact (List.nodup_cons.1 this).1
      have hnext : (slots.rotate ((i + 1) % slots.length)).map
          (ClockReplacementPolicy.pass h slots[i]).bit = l.map h.bit ++ [(slots[i], false)] := by
        have hpass : ∀ q, q ≠ slots[i] → (ClockReplacementPolicy.pass h slots[i]).page q = h.page q :=
          fun q hq => Heap.modify_page_of_ne _ _ hq
        rw [List.rotate_mod, hsucc, List.map_append, map_bit_of_ne hpass hl]
        simp [Heap.bit, ClockReplacementPolicy.pass]
      refine ih (ClockReplacementPolicy.pass h slots[i])
        (Nat.mod_lt _ (Nat.zero_lt_of_lt hi)) ?_
      rw [hnext, ← heq, hrot, List.map_cons, Heap.bit, href, examine]
    · rw [if_pos (by simpa using href)]
      have hbit : h.bit slots[i] = (slots[i], false) := by
        rw [Heap.bit, Bool.eq_false_of_not_eq_true href]
      rw [hrot, List.map_cons, hbit, examine] at heq
      obtain ⟨rfl, rfl⟩ := Prod.mk.inj (Option.some.inj heq)
      exact ⟨h, i, hi, rfl, by rw [hrot, List.map_cons, hbit]⟩

namespace Clocked

theorem ring_eq (hc : Clocked n m slots i) : ring m = (slots.rotate i).map m.heap.bit := by
  have hle := hc.length_le
  rw [ring, hc.hand_eq, Int.toNat_natCast]
  rcases hle.lt_or_eq with hlt | hfull
  · obtain rfl := hc.hand_zero hlt
    rw [List.rotate_zero, List.rotate_zero, hc.memory_eq, List.filterMap_append]
    simp
  · rw [hc.memory_of_full hfull, ← List.map_rotate]
    simp

theorem pages_ring (hc : Clocked n m slots i) : SecondChance.pages (ring m) = slots.rotate i := by
  rw [hc.ring_eq, pages_map_bit]

theorem length_ring (hc : Clocked n m slots i) : (ring m).length = slots.length := by
  rw [hc.ring_eq, List.length_map, List.length_rotate]

theorem make (h0 : 0 < n) (clock : LogicalClock) : Clocked n (.make 0 n clock) [] 0 :=
  ⟨.make 0 clock, rfl, h0, fun _ => rfl⟩

/-- A page in memory is referenced. -/
theorem access_hit (hc : Clocked n m slots i) (ha : a ∈ slots) :
    ∃ m', m.access clockReplacementPolicy a = .ok (m', .hit) ∧ Clocked n m' slots i ∧
      ring m' = mark a (ring m) := by
  have h' : Clocked n { m with heap := m.heap.updateRefStats a } slots i :=
    ⟨hc.hit ha, hc.hand_eq, hc.hand_lt, hc.hand_zero⟩
  refine ⟨_, ?_, h', ?_⟩
  · rw [MemoryManager.access, hc.getFromMemory_of_mem ha]
  · rw [h'.ring_eq, hc.ring_eq, mark, List.map_map]
    refine List.map_congr_left fun q _ => ?_
    by_cases hq : q = a
    · simp [Heap.bit, hq, Heap.updateRefStats, MemoryPage.updateRefStats]
    · simp [Heap.bit, hq, Heap.updateRefStats, Heap.modify_page_of_ne _ _ hq]

/-- A page is loaded to a free slot. -/
theorem access_free (hc : Clocked n m slots i) (ha : a ∉ slots) (hlt : slots.length < n) :
    ∃ m', m.access clockReplacementPolicy a = .ok (m', .fault none) ∧
      Clocked n m' (slots ++ [a]) i ∧ ring m' = ring m ++ [(a, true)] := by
  have hfull : ¬m.isFull = true := by
    rw [hc.isFull_iff]
    exact hlt.ne
  obtain ⟨m', heq, hpol, hr, hf⟩ := hc.append ha hlt
  have hi : i = 0 := hc.hand_zero hlt
  have h' : Clocked n m' (slots ++ [a]) i := ⟨hf, hpol ▸ hc.hand_eq, hc.hand_lt, fun _ => hi⟩
  refine ⟨m', ?_, h', ?_⟩
  · rw [MemoryManager.access, hc.getFromMemory_of_not_mem ha]
    simp only [MemoryManager.freePosition, if_neg hfull, ok_bind]
    rw [heq]
    rfl
  · rw [h'.ring_eq, hc.ring_eq, hi, List.rotate_zero, List.rotate_zero, List.map_append,
      map_bit_of_ne hr.page_eq ha, List.map_singleton, Heap.bit, loadTo_referenced heq]

/-- A page is loaded to the slot of the page that the ring evicts, and the hand stays there. -/
theorem access_full (hc : Clocked n m slots i) (ha : a ∉ slots) (hlen : slots.length = n)
    {rest : List (PageRef × Bool)} (hevict : evict (ring m) = some (p, rest)) :
    ∃ m' slots' i', m.access clockReplacementPolicy a = .ok (m', .fault (some p)) ∧
      Clocked n m' slots' i' ∧ ring m' = (a, true) :: rest := by
  have hi : i < slots.length := hlen ▸ hc.hand_lt
  rw [evict, hc.length_ring, hc.ring_eq] at hevict
  obtain ⟨h₁, j, hj, hturn, hrot⟩ := turn_examine hc.nodup m.heap hi hevict
  have hfind : clockReplacementPolicy.findPageToEvict m.policy m.heap m.memory =
      .ok (some p, h₁, (j : ℤ)) := by
    change ClockReplacementPolicy.findPageToEvict _ _ _ = _
    rw [ClockReplacementPolicy.findPageToEvict, hc.hand_eq, hc.memory_of_full hlen, List.length_map]
    exact hturn
  -- What else the loop does to the heap.
  obtain ⟨_, -, h₁', j', -, hturn', -, -, -, hdisk, hpage⟩ :=
    ClockReplacementPolicy.turn_spec (h := m.heap) hi (Nat.lt_succ_of_le List.countP_le_length)
  obtain ⟨-, hrest⟩ := Prod.mk.inj (Except.ok.inj (hturn'.symm.trans hturn))
  obtain ⟨rfl, -⟩ := Prod.mk.inj hrest
  -- The page evicted is the one under the hand.
  obtain ⟨l, hl, -⟩ := rotate_succ hj
  rw [hl, List.map_cons] at hrot
  obtain ⟨hbit, hrest⟩ := List.cons.inj hrot
  have hp : slots[j] = p := congrArg Prod.fst hbit
  obtain ⟨l₁, l₂, hslots, hl₁⟩ := Frames.exists_split (List.getElem?_eq_getElem hj)
  rw [hp] at hslots
  have hf : Frames n { m with heap := h₁'.updateEvictStats p, policy := (j : ℤ) } slots := by
    refine hc.toFrames.congr rfl rfl hdisk fun q hq => ?_
    have hqp : q ≠ p := fun hqp => hq (hc.disk q (by rw [hqp, hslots]; simp))
    exact (Heap.modify_page_of_ne _ _ hqp).trans (hpage q fun hqs => hq (hc.disk q hqs))
  obtain ⟨m', heq, hpol, hr, hf'⟩ := (hslots ▸ hf).replace_at (hslots ▸ hlen) (hslots ▸ ha)
  have hlen' : (l₁ ++ a :: l₂).length = n := by
    rw [← hlen, hslots]
    simp
  have h' : Clocked n m' (l₁ ++ a :: l₂) j :=
    ⟨hf', hpol, hlen ▸ hj, fun hlt => absurd hlen' hlt.ne⟩
  refine ⟨m', _, j, ?_, h', ?_⟩
  · rw [MemoryManager.access, hc.getFromMemory_of_not_mem ha]
    simp only [MemoryManager.freePosition, hc.isFull_iff.2 hlen, if_true, hfind, ok_bind,
      deref_some, pure_eq_ok]
    rw [heq]
    rfl
  · have hrotate : ∀ b, (l₁ ++ b :: l₂).rotate j = b :: (l₂ ++ l₁) := fun b => by
      rw [hl₁, List.rotate_append_length_eq]
      rfl
    have hlrest : l = l₂ ++ l₁ := by
      have := hrotate p
      rw [← hslots, hl] at this
      exact (List.cons.inj this).2
    have hal : a ∉ l := by
      rw [hlrest]
      rw [hslots] at ha
      simp only [List.mem_append, List.mem_cons] at ha ⊢
      tauto
    have hpl : p ∉ l := by
      rw [hlrest, List.mem_append, or_comm, ← List.mem_append]
      have := hc.nodup
      rw [hslots, List.nodup_middle] at this
      exact (List.nodup_cons.1 this).1
    have hstats : ∀ q, q ≠ p → (h₁'.updateEvictStats p).page q = h₁'.page q :=
      fun q hq => Heap.modify_page_of_ne _ _ hq
    rw [h'.ring_eq, hrotate, ← hlrest, List.map_cons, map_bit_of_ne hr.page_eq hal,
      map_bit_of_ne hstats hpl, hrest, Heap.bit, loadTo_referenced heq]

/-- The clock is a ring where the new page joins the front. -/
theorem access (hc : Clocked n m slots i) (a : ℤ) :
    ∃ m' slots' i', m.access clockReplacementPolicy a =
        .ok (m', (SecondChance.access joinFront n (ring m) a).2) ∧ Clocked n m' slots' i' ∧
      ring m' = (SecondChance.access joinFront n (ring m) a).1 := by
  have hmem : a ∈ SecondChance.pages (ring m) ↔ a ∈ slots := by
    rw [hc.pages_ring, List.mem_rotate]
  rw [SecondChance.access, hc.length_ring]
  by_cases ha : a ∈ slots
  · obtain ⟨m', heq, h', hring⟩ := hc.access_hit ha
    rw [if_pos (hmem.2 ha)]
    exact ⟨m', slots, i, heq, h', hring⟩
  rw [if_neg (mt hmem.1 ha)]
  rcases hc.length_le.lt_or_eq with hlt | hlen
  · obtain ⟨m', heq, h', hring⟩ := hc.access_free ha hlt
    rw [if_pos hlt]
    exact ⟨m', _, i, heq, h', hring⟩
  · have hne : ring m ≠ [] := List.ne_nil_of_length_pos (by
      rw [hc.length_ring, hlen]
      exact Nat.zero_lt_of_lt hc.hand_lt)
    obtain ⟨p, hp⟩ := exists_isVictim hne
    obtain ⟨rest, -, -, hevict, -⟩ := evict_eq_some hp
    rw [if_neg hlen.not_lt, hevict]
    exact hc.access_full ha hlen hevict

end Clocked

/-- Each eviction of a run of the manager is in time, by the bits of the pages in memory and by the
    trail of the hand. -/
def EvictsInTime (n : ℕ) : MemoryManager ℤ → Trail ℤ → List ℤ → Prop
  | _, _, [] => True
  | m, t, a :: as => ((m.getFromMemory a).isNone = true → m.isFull = true → t.InTime (ring m)) ∧
      ∀ m' o, m.access clockReplacementPolicy a = .ok (m', o) →
        EvictsInTime n m' (t.access n (ring m) a) as

/-- The runs of the manager are those of its ring. -/
theorem Clocked.run (hc : Clocked n m slots i) (k : ℕ) (as : List ℤ) :
    ∃ m', runAccesses (fun _ m a => m.access clockReplacementPolicy a) k m as =
      .ok (m', outcomes joinFront n (ring m) as) := by
  induction as generalizing m slots i k with
  | nil => exact ⟨m, rfl⟩
  | cons a as ih =>
    obtain ⟨m₁, slots₁, i₁, heq, hc₁, hring⟩ := hc.access a
    obtain ⟨m₂, hrun⟩ := ih hc₁ (k + 1)
    exact ⟨m₂, runAccesses_cons heq (hring ▸ hrun)⟩

/-- The evictions of the manager are in time if those of its ring are. -/
theorem Clocked.evictsInTime_iff (hc : Clocked n m slots i) (t : Trail ℤ) (as : List ℤ) :
    EvictsInTime n m t as ↔ Timely n t (ring m) as := by
  induction as generalizing m slots i t with
  | nil => exact Iff.rfl
  | cons a as ih =>
    obtain ⟨m₁, slots₁, i₁, heq, hc₁, hring⟩ := hc.access a
    have hmem : (m.getFromMemory a).isNone = true ↔ a ∉ SecondChance.pages (ring m) := by
      rw [hc.pages_ring, List.mem_rotate, ← hc.getFromMemory_isSome]
      simp
    have hfull : m.isFull = true ↔ (ring m).length = n := by
      rw [hc.isFull_iff, hc.length_ring]
    have hnext : (∀ m' o, m.access clockReplacementPolicy a = .ok (m', o) →
        EvictsInTime n m' (t.access n (ring m) a) as) ↔
        EvictsInTime n m₁ (t.access n (ring m) a) as := by
      refine ⟨fun h => h m₁ _ heq, fun h m' o hm' => ?_⟩
      obtain ⟨rfl, -⟩ := Prod.mk.inj (Except.ok.inj (heq.symm.trans hm'))
      exact h
    rw [EvictsInTime, Timely, hmem, hfull, hnext, ← hring]
    exact and_congr_right fun _ => ih hc₁ _

/-- The manager with `ClockReplacementPolicy` has the outcomes of the second-chance queue exactly if its
    evictions are in time. -/
theorem clock_secondChance_iff {n : ℕ} (h0 : 0 < n) (clock : LogicalClock) (as : List ℤ) :
    (∃ m, policyRun clockReplacementPolicy 0 n clock as = .ok (m, outcomes joinBack n [] as)) ↔
      EvictsInTime n (.make 0 n clock) .start as := by
  have hc := Clocked.make h0 clock
  have hring : ring (.make 0 n clock) = [] := by
    rw [hc.ring_eq]
    rfl
  have hrel : Rel n .start (ring (.make 0 n clock)) [] := by
    rw [hring]
    exact .filling fun e he => absurd he List.not_mem_nil
  rw [hc.evictsInTime_iff, ← hrel.outcomes_eq_iff List.nodup_nil (Nat.zero_le n) h0]
  obtain ⟨m, hrun⟩ := hc.run 0 as
  constructor
  · rintro ⟨m', hm'⟩
    exact (Prod.mk.inj (Except.ok.inj (hrun.symm.trans hm'))).2
  · intro heq
    exact ⟨m, heq ▸ hrun⟩

/-- A memory of two pages, where the page loaded before is accessed again. -/
theorem clock_secondChance_iff_two :
    (∃ m, policyRun clockReplacementPolicy 0 2 {} [1, 2, 3, 3, 4, 5] =
        .ok (m, outcomes joinBack 2 [] [1, 2, 3, 3, 4, 5])) ↔
      EvictsInTime 2 (.make 0 2 {}) .start [1, 2, 3, 3, 4, 5] :=
  clock_secondChance_iff (by decide) {} [1, 2, 3, 3, 4, 5]

/-- The manager does not evict the oldest page whose bit is clear: the page loaded before is examined
    first, and its bit is cleared. -/
theorem not_secondChance : ¬∀ n : ℕ, 0 < n → ∀ as : List ℤ,
    ∃ m, policyRun clockReplacementPolicy 0 n {} as = .ok (m, outcomes joinBack n [] as) := by
  intro h
  obtain ⟨m, hm⟩ := h 2 (by decide) [1, 2, 3, 2, 4]
  have hrun : (policyRun clockReplacementPolicy 0 2 {} [1, 2, 3, 2, 4]).map Prod.snd =
      .ok [.fault none, .fault none, .fault (some 1), .hit, .fault (some 3)] := by rfl
  rw [hm, Except.map] at hrun
  have heq : outcomes joinBack 2 [] ([1, 2, 3, 2, 4] : List ℤ) =
      [.fault none, .fault none, .fault (some 1), .hit, .fault (some 3)] := Except.ok.inj hrun
  exact absurd heq (by decide)

end Mcpq.Simulator
