import Mcpq.Hierarchical.Reachable

/-!
# The effective timestamps of user chains

A user chain caches the greatest of the timestamps of its members, and the member that has it, its
representative. The cache is right (`TimestampsOk`) as long as no page is sent to a chain that was
emptied by `breakMemoryChain` with a timestamp below the cached one: `unchain` leaves the cache as
it is (`effective_timestamp`, `effective_timestamp_fails`).
-/

namespace Mcpq.Hierarchical

open HierarchicalMemoryManager

variable {n : ℕ} {s s' : HierarchicalMemoryManager}

/-- The effective timestamp of each user chain that holds pages is the greatest of their
    timestamps, and its representative is one of them. -/
def TimestampsOk (s : HierarchicalMemoryManager) : Prop :=
  ∀ id ∈ s.usrChains, ∀ l, (s.chains id).iterate s.heap = .ok l → l ≠ [] →
    (∃ v, s.HasTimestamp id v ∧ IsGreatest {t | ∃ q ∈ l, (s.heap.page q).timestamp = t} v) ∧
    ∀ x, (s.chains id).representative = some x → x ∈ l

theorem timestampsOk_iff {L : ℤ → List PageRef} (hs : s.Rep L) :
    TimestampsOk s ↔ s.CacheValid L := by
  constructor
  · intro h id hid hne
    exact (h id hid (L id) (hs.iterate id) hne).2
  · intro hv id hid l hl hne
    rw [hs.iterate] at hl
    cases hl
    refine ⟨?_, hv id hid hne⟩
    rcases hr : (s.chains id).representative with _ | x
    · obtain ⟨p, hp, heq, hmax⟩ := MemoryChain.getTimestamp_of_none (hs.chains.holds id)
        (hs.chains.length_le_fresh id) hne (fun q hq => hs.store.stamp_pos q (hs.lt_fresh hq)) hr
      refine ⟨_, ⟨_, heq⟩, ⟨p, hp, rfl⟩, ?_⟩
      rintro _ ⟨q, hq, rfl⟩
      exact hmax q hq
    · -- The representative is a member: its timestamp is the cached one.
      have hx := hv id hid hne x hr
      have heq : (s.heap.page x).timestamp = (s.chains id).timestamp :=
        le_antisymm (hs.cache.le_stamp id hid x hx) (hs.cache.representative id hid x hr).2
      refine ⟨_, Rep.hasTimestamp_of_some hr, ⟨x, hx, heq⟩, ?_⟩
      rintro _ ⟨q, hq, rfl⟩
      exact hs.cache.le_stamp id hid q hq

/-- The effective timestamps are right in every run none of whose calls sends a page to an empty
    chain whose cached timestamp is that of another page and not smaller; and such a call makes
    them wrong. -/
theorem effective_timestamp :
    (∀ s, (System n).ReachableBy (fun s call => ¬call.Stale s) s → TimestampsOk s) ∧
      ∀ s call s', (System n).ReachableBy (fun s call => ¬call.Stale s) s → Step s call s' →
        (TimestampsOk s' ↔ ¬call.Stale s) := by
  have hinv : ∀ s, (System n).ReachableBy (fun s call => ¬call.Stale s) s →
      ∃ L, s.Rep L ∧ s.Settled ∧ s.CacheValid L := by
    intro s hs
    refine hs.invariant (I := fun s => ∃ L, s.Rep L ∧ s.Settled ∧ s.CacheValid L) ?_ ?_
    · rintro _ ⟨clock, draws, rfl⟩
      exact ⟨_, .make n clock draws, Rep.settled_make n clock draws, fun _ _ h => absurd rfl h⟩
    · rintro s call s' ⟨L, hs, hset, hv⟩ hst hstep
      obtain ⟨L', hs', hset', -, hv'⟩ := hs.step hset hstep
      exact ⟨L', hs', hset', (hv' hv).2 hst⟩
  constructor
  · intro s hs
    obtain ⟨L, hs, -, hv⟩ := hinv s hs
    exact (timestampsOk_iff hs).2 hv
  · intro s call s' hs hstep
    obtain ⟨L, hs, hset, hv⟩ := hinv s hs
    obtain ⟨L', hs', -, -, hv'⟩ := hs.step hset hstep
    exact (timestampsOk_iff hs').trans (hv' hv)

/-- Two pages, of different timestamps, are linked to a new chain. -/
theorem effective_timestamp_two :
    ∃ s, (System 2).Reachable s ∧ (s.chains 3).iterate s.heap = .ok [1, 0] ∧
      (s.heap.page 0).timestamp ≠ (s.heap.page 1).timestamp ∧ TimestampsOk s := by
  have h₀ : (System 2).ReachableBy (fun s call => ¬call.Stale s) (.make 2 {} fun _ => 0) :=
    .init ⟨_, _, rfl⟩
  have h₁ := h₀.step (i := .createMemoryChain .lru) id ⟨by simp [Call.chain?], [], _, .nil, rfl⟩
  have h₂ := h₁.step (i := .access 1) id ⟨by simp [Call.chain?], [3], _, .refl _, rfl⟩
  have h₃ := h₂.step (i := .access 2) id ⟨by simp [Call.chain?], [3], _, .refl _, rfl⟩
  have h₄ := h₃.step (i := .link 3 1) (by
      rintro ⟨p, -, -, -, x, hx, -⟩
      cases hx)
    ⟨fun chain h => by cases h; exact List.mem_singleton_self 3, [3], _, .refl _, rfl⟩
  have h₅ := h₄.step (i := .link 3 2) (by
      rintro ⟨p, -, -, hsize, -⟩
      cases hsize)
    ⟨fun chain h => by cases h; exact List.mem_singleton_self 3, [3], _, .refl _, rfl⟩
  exact ⟨_, h₅.reachable, rfl, by decide, effective_timestamp.1 _ h₅⟩

/-- A chain is broken and a page accessed before its cached timestamp is linked to it. -/
theorem effective_timestamp_fails : ¬∀ n s, (System n).Reachable s → TimestampsOk s := by
  intro h
  obtain ⟨s, hs, hq⟩ := exists_reachable (n := 2)
    (Q := fun s => 3 ∈ s.usrChains ∧ ((s.chains 3).iterate s.heap).toOption = some [0] ∧
      (s.chains 3).representative = some 1)
    [.createMemoryChain .lru, .access 1, .access 2, .link 3 2, .breakMemoryChain 3, .link 3 1]
    (by decide)
  obtain ⟨hid, hl, hx⟩ := of_decide_eq_true hq
  have hl' : (s.chains 3).iterate s.heap = .ok [0] := by
    cases hi : (s.chains 3).iterate s.heap with
    | error e => simp [hi, Except.toOption] at hl
    | ok l => simpa [hi, Except.toOption] using hl
  simpa using (h 2 s hs 3 hid [0] hl' (by simp)).2 1 hx

end Mcpq.Hierarchical
