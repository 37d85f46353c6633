import Mcpq.Hierarchical.Calls

/-!
# Eviction

The two phases of `evict`: the choice of a victim (`Chosen`), and its removal (`Evicts`).

The choice reads the timestamps of user chains, which are computed again where they are not valid;
this changes nothing but the caches (`Refreshes`), and no timestamp that is read.

* `Rep.considerChain`: an iteration of the loop over the user chains;
* `Rep.selectVictim`: the loop, in whatever order it goes through them;
* `Rep.evict`: the eviction of the victim, and `Rep.evict_removes`: what an eviction does that goes
  through a part of the user chains only.
-/

namespace Mcpq.Hierarchical

namespace HierarchicalMemoryManager

/-- `chain.timestamp()` returns `v`. -/
def HasTimestamp (s : HierarchicalMemoryManager) (id : ℤ) (v : ℕ) : Prop :=
  ∃ c, (s.chains id).getTimestamp s.heap = .ok (v, c)

/-- The page `p` of the chain `id` is the one to evict, by the priorities of the system chains and
    the timestamps. -/
inductive Chosen (s : HierarchicalMemoryManager) (L : ℤ → List PageRef) : ℤ → PageRef → Prop
  | hated {p : PageRef} : (L SystemQueue.hated.ordinal).getLast? = some p →
      Chosen s L SystemQueue.hated.ordinal p
  | spillover {p : PageRef} : L SystemQueue.hated.ordinal = [] →
      p ∈ L SystemQueue.spillover.ordinal →
      (∀ q ∈ L SystemQueue.spillover.ordinal,
        (s.heap.page p).timestamp ≤ (s.heap.page q).timestamp) →
      Chosen s L SystemQueue.spillover.ordinal p
  | default {p : PageRef} : L SystemQueue.hated.ordinal = [] →
      L SystemQueue.spillover.ordinal = [] → p ∈ L SystemQueue.default.ordinal →
      (∀ q ∈ L SystemQueue.default.ordinal,
        (s.heap.page p).timestamp ≤ (s.heap.page q).timestamp) →
      (∀ d ∈ s.usrChains, L d ≠ [] → ∀ w, s.HasTimestamp d w → (s.heap.page p).timestamp ≤ w) →
      Chosen s L SystemQueue.default.ordinal p
  | user {id : ℤ} {v : ℕ} {p : PageRef} : L SystemQueue.hated.ordinal = [] →
      L SystemQueue.spillover.ordinal = [] → id ∈ s.usrChains → s.HasTimestamp id v → p ∈ L id →
      (∀ q ∈ L id, (s.heap.page p).timestamp ≤ (s.heap.page q).timestamp) →
      (∀ q ∈ L SystemQueue.default.ordinal, v ≤ (s.heap.page q).timestamp) →
      (∀ d ∈ s.usrChains, L d ≠ [] → ∀ w, s.HasTimestamp d w → v ≤ w) → Chosen s L id p

theorem Chosen.mem {s : HierarchicalMemoryManager} {L : ℤ → List PageRef} {id : ℤ} {p : PageRef}
    (h : Chosen s L id p) : p ∈ L id := by
  cases h with
  | hated hp => exact List.mem_of_getLast? hp
  | spillover _ hp => exact hp
  | default _ _ hp => exact hp
  | user _ _ _ _ hp => exact hp

/-- The page `p` of the chain `id` leaves its chain and its frame. -/
structure Removes (s s' : HierarchicalMemoryManager) (L : ℤ → List PageRef) (id : ℤ)
    (p : PageRef) : Prop where
  mem : p ∈ L id
  rep : s'.Rep (Function.update L id ((L id).erase p))
  valid : s.CacheValid L → s'.CacheValid (Function.update L id ((L id).erase p))
  frames : ∃ f : ℕ, s.memory.pages[f]? = some (some p) ∧
    s'.memory.pages = s.memory.pages.set f none
  mapping_eq : s'.pageTable.mapping =
    Function.update s.pageTable.mapping (s.heap.page p).address none
  swap_eq : s'.swap = Function.update s.swap (s.heap.page p).address (some p)
  core_eq : ∀ q, (s'.heap.page q).core = (s.heap.page q).core
  assigned_eq : ∀ q, (s'.heap.page q).assigned = (s.heap.page q).assigned
  resides_eq : ∀ q, (s'.heap.page q).resides = if q = p then -1 else (s.heap.page q).resides
  fresh_eq : s'.heap.fresh = s.heap.fresh
  clock_eq : s'.heap.clock = s.heap.clock
  usrChains_eq : s'.usrChains = s.usrChains
  chainId_eq : s'.chainId = s.chainId
  size_eq : s'.size = s.size

/-- The victim is evicted. -/
structure Evicts (s s' : HierarchicalMemoryManager) (L : ℤ → List PageRef) (id : ℤ)
    (p : PageRef) : Prop extends Removes s s' L id p where
  chosen : Chosen s L id p

/-- The timestamps of some chains whose representative was not known are computed again. -/
structure Refreshes (s s' : HierarchicalMemoryManager) (L : ℤ → List PageRef) : Prop where
  rest : s' = { s with chains := s'.chains }
  chain : ∀ d, s'.chains d = s.chains d ∨ (s.chains d).representative = none ∧ ∃ x ∈ L d,
    (∀ q ∈ L d, (s.heap.page q).timestamp ≤ (s.heap.page x).timestamp) ∧
    s'.chains d = { s.chains d with
      timestamp := (s.heap.page x).timestamp, representative := some x }

/-! ## The timestamps of the chains -/

section

variable {s s' s'' : HierarchicalMemoryManager} {L : ℤ → List PageRef} {id : ℤ} {p : PageRef}
  {v w : ℕ}

theorem HasTimestamp.unique (h : s.HasTimestamp id v) (h' : s.HasTimestamp id w) : v = w := by
  obtain ⟨c, hc⟩ := h
  obtain ⟨c', hc'⟩ := h'
  rw [hc] at hc'
  cases hc'
  rfl

theorem Refreshes.refl (s : HierarchicalMemoryManager) (L : ℤ → List PageRef) :
    Refreshes s s L :=
  ⟨rfl, fun _ => .inl rfl⟩

theorem Refreshes.heap_eq (h : Refreshes s s' L) : s'.heap = s.heap := by rw [h.rest]

theorem Refreshes.usrChains_eq (h : Refreshes s s' L) : s'.usrChains = s.usrChains := by
  rw [h.rest]

theorem Refreshes.trans (h : Refreshes s s' L) (h' : Refreshes s' s'' L) :
    Refreshes s s'' L := by
  refine ⟨by rw [h'.rest, h.rest], fun d => ?_⟩
  rcases h'.chain d with he' | ⟨hn', x, hx, hmax, he'⟩
  · rw [he']
    exact h.chain d
  · rw [h.heap_eq] at hmax he'
    rcases h.chain d with he | ⟨-, y, -, -, he⟩
    · rw [he] at hn' he'
      exact .inr ⟨hn', x, hx, hmax, he'⟩
    · rw [he] at hn'
      cases hn'

theorem Refreshes.moves (h : Refreshes s s' L) : Moves s s' :=
  ⟨by rw [h.rest], fun q => by rw [h.heap_eq], by rw [h.heap_eq], by rw [h.heap_eq]⟩

theorem Refreshes.frame_eq (h : Refreshes s s' L) (d : ℤ) :
    (s'.chains d).frame = (s.chains d).frame := by
  rcases h.chain d with he | ⟨-, x, -, -, he⟩
  · rw [he]
  · rw [he]
    rfl

namespace Rep

theorem refreshes (hs : s.Rep L) (h : Refreshes s s' L) : s'.Rep L := by
  refine hs.moves h.moves (hs.chains.congr (fun q => by rw [h.heap_eq])
    (fun r hr => ?_) (by rw [h.heap_eq]) h.frame_eq fun d _ => (h.moves.isChain_iff d).2)
    ⟨fun d hd => ?_, fun d hd r hr => ?_, fun d hd x hx => ?_⟩ fun r hr => ?_
  · rw [h.heap_eq] at hr ⊢
    exact hs.chains.blank r hr
  all_goals rw [h.heap_eq] at *
  · rw [h.usrChains_eq] at hd
    rcases h.chain d with he | ⟨-, x, hx, -, he⟩
    · rw [he]
      exact hs.cache.le_clock d hd
    · rw [he]
      exact hs.store.stamp_le x (hs.lt_fresh hx)
  · rw [h.usrChains_eq] at hd
    rcases h.chain d with he | ⟨-, x, hx, hmax, he⟩
    · rw [he]
      exact hs.cache.le_stamp d hd r hr
    · rw [he]
      exact hmax r hr
  · rw [h.usrChains_eq] at hd
    rcases h.chain d with he | ⟨-, y, hy, hmax, he⟩
    · rw [he] at hx ⊢
      exact hs.cache.representative d hd x hx
    · rw [he] at hx ⊢
      cases hx
      exact ⟨hs.lt_fresh hy, le_rfl⟩
  · exact hs.resident r hr

theorem cacheValid_refreshes (h : Refreshes s s' L) (hv : s.CacheValid L) : s'.CacheValid L := by
  intro d hd hne x hx
  rw [h.usrChains_eq] at hd
  rcases h.chain d with he | ⟨-, y, hy, -, he⟩
  · rw [he] at hx
    exact hv d hd hne x hx
  · rw [he] at hx
    cases hx
    exact hy

/-- A chain whose representative is known has the timestamp it caches. -/
theorem hasTimestamp_of_some {x : PageRef} (hx : (s.chains id).representative = some x) :
    s.HasTimestamp id (s.chains id).timestamp :=
  ⟨_, MemoryChain.getTimestamp_of_some hx⟩

/-- `chain.timestamp()`, of a chain that holds pages. -/
theorem chainTimestamp (hs : s.Rep L) (hne : L id ≠ []) :
    ∃ v s', s.chainTimestamp id = .ok (v, s') ∧ s.HasTimestamp id v ∧ Refreshes s s' L := by
  rcases hr : (s.chains id).representative with _ | x
  · obtain ⟨x, hx, heq, hmax⟩ := MemoryChain.getTimestamp_of_none (hs.chains.holds id)
      (hs.chains.length_le_fresh id) hne (fun q hq => hs.store.stamp_pos q (hs.lt_fresh hq)) hr
    refine ⟨_, _, by rw [HierarchicalMemoryManager.chainTimestamp, heq]; rfl, ⟨_, heq⟩, rfl,
      fun d => ?_⟩
    by_cases hd : d = id
    · subst hd
      exact .inr ⟨hr, x, hx, hmax, Function.update_self ..⟩
    · exact .inl (Function.update_of_ne hd _ _)
  · have heq := MemoryChain.getTimestamp_of_some (h := s.heap) hr
    refine ⟨_, _, by rw [HierarchicalMemoryManager.chainTimestamp, heq]; rfl, ⟨_, heq⟩, rfl,
      fun d => .inl ?_⟩
    simp [setChain]

/-- The timestamps computed again are those that were read. -/
theorem hasTimestamp_refreshes (hs : s.Rep L) (h : Refreshes s s' L) (hne : L id ≠ []) :
    s'.HasTimestamp id v ↔ s.HasTimestamp id v := by
  rcases h.chain id with he | ⟨hn, x, hx, hmax, he⟩
  · rw [HasTimestamp, HasTimestamp, he, h.heap_eq]
  · have hx' : s'.HasTimestamp id (s.heap.page x).timestamp := by
      have hx' : s'.HasTimestamp id (s'.chains id).timestamp :=
        hasTimestamp_of_some (x := x) (by rw [he])
      rwa [he] at hx'
    obtain ⟨y, hy, heq, hmaxy⟩ := MemoryChain.getTimestamp_of_none (hs.chains.holds id)
      (hs.chains.length_le_fresh id) hne (fun q hq => hs.store.stamp_pos q (hs.lt_fresh hq)) hn
    have hxy : (s.heap.page y).timestamp = (s.heap.page x).timestamp :=
      le_antisymm (hmax y hy) (hmaxy x hx)
    have hy' : s.HasTimestamp id (s.heap.page x).timestamp := ⟨_, hxy ▸ heq⟩
    constructor
    · intro hv
      exact hv.unique hx' ▸ hy'
    · intro hv
      exact hv.unique hy' ▸ hx'

theorem hasTimestamp_le_clock (hs : s.Rep L) (hid : id ∈ s.usrChains) (hne : L id ≠ [])
    (hv : s.HasTimestamp id v) : v ≤ s.heap.clock.current := by
  rcases hr : (s.chains id).representative with _ | x
  · obtain ⟨x, hx, heq, -⟩ := MemoryChain.getTimestamp_of_none (hs.chains.holds id)
      (hs.chains.length_le_fresh id) hne (fun q hq => hs.store.stamp_pos q (hs.lt_fresh hq)) hr
    rw [hv.unique ⟨_, heq⟩]
    exact hs.store.stamp_le x (hs.lt_fresh hx)
  · rw [hv.unique (hasTimestamp_of_some hr)]
    exact hs.cache.le_clock id hid

/-- The timestamp of a chain is not below those of its pages. -/
theorem stamp_le_of_hasTimestamp (hs : s.Rep L) (hid : id ∈ s.usrChains) (hp : p ∈ L id)
    (hv : s.HasTimestamp id v) : (s.heap.page p).timestamp ≤ v := by
  rcases hr : (s.chains id).representative with _ | x
  · obtain ⟨x, -, heq, hmax⟩ := MemoryChain.getTimestamp_of_none (hs.chains.holds id)
      (hs.chains.length_le_fresh id) (List.ne_nil_of_mem hp)
      (fun q hq => hs.store.stamp_pos q (hs.lt_fresh hq)) hr
    rw [hv.unique ⟨_, heq⟩]
    exact hmax p hp
  · rw [hv.unique (hasTimestamp_of_some hr)]
    exact hs.cache.le_stamp id hid p hp

/-! ## The choice of a victim -/

theorem victim (hs : s.Rep L) (hne : L id ≠ []) :
    ∃ p ∈ L id, (s.chains id).victim s.heap = .ok (some p) ∧
      ∀ q ∈ L id, (s.heap.page p).timestamp ≤ (s.heap.page q).timestamp :=
  MemoryChain.victim_spec (hs.chains.holds id) (hs.chains.length_le_fresh id) hne fun q hq =>
    hs.store.stamp_le q (hs.lt_fresh hq)

theorem considerChain_of_nil (hs : s.Rep L) (hnil : L id = []) (best : Candidate) :
    considerChain (s, best) id = .ok (s, best) := by
  rw [considerChain, if_neg fun h => (hs.chains.holds id).size_pos_iff.1 h hnil]
  rfl

theorem considerChain (hs : s.Rep L) (hne : L id ≠ []) (best : Candidate) :
    ∃ v s' p, HierarchicalMemoryManager.considerChain (s, best) id = .ok (s',
        if v < best.minimum then { minimum := v, page := some p, chain := some id } else best) ∧
      s.HasTimestamp id v ∧ Refreshes s s' L ∧ p ∈ L id ∧
      ∀ q ∈ L id, (s.heap.page p).timestamp ≤ (s.heap.page q).timestamp := by
  obtain ⟨v, s₁, h₁, hv, hr₁⟩ := hs.chainTimestamp hne
  have hs₁ := hs.refreshes hr₁
  obtain ⟨p, hp, hvic, hle⟩ := hs₁.victim hne
  obtain ⟨w, s₂, h₂, hw, hr₂⟩ := hs₁.chainTimestamp hne
  -- The timestamp that is read again has not changed.
  obtain rfl : w = v := HasTimestamp.unique ((hs.hasTimestamp_refreshes hr₁ hne).1 hw) hv
  simp only [hr₁.heap_eq] at hle
  have hsize := (hs.chains.holds id).size_pos_iff.2 hne
  by_cases hlt : w < best.minimum
  · refine ⟨w, s₂, p, ?_, hv, hr₁.trans hr₂, hp, hle⟩
    rw [HierarchicalMemoryManager.considerChain]
    simp only [gt_iff_lt, hsize, if_true, h₁, ok_bind, hlt, hvic, h₂, pure_eq_ok]
  · refine ⟨w, s₁, p, ?_, hv, hr₁, hp, hle⟩
    rw [HierarchicalMemoryManager.considerChain]
    simp only [gt_iff_lt, hsize, if_true, h₁, ok_bind, hlt, if_false, pure_eq_ok]

/-- The best candidate among the pages of the default chain and the user chains `done`. -/
inductive Best (s : HierarchicalMemoryManager) (L : ℤ → List PageRef) (done : List ℤ) :
    Candidate → Prop
  | none : L SystemQueue.default.ordinal = [] → (∀ d ∈ done, L d = []) →
      Best s L done ⟨s.heap.clock.current + 1, .none, .none⟩
  | default {p : PageRef} : p ∈ L SystemQueue.default.ordinal →
      (∀ q ∈ L SystemQueue.default.ordinal,
        (s.heap.page p).timestamp ≤ (s.heap.page q).timestamp) →
      (∀ d ∈ done, L d ≠ [] → ∀ w, s.HasTimestamp d w → (s.heap.page p).timestamp ≤ w) →
      Best s L done ⟨(s.heap.page p).timestamp, some p, some SystemQueue.default.ordinal⟩
  | user {id : ℤ} {v : ℕ} {p : PageRef} : id ∈ done → s.HasTimestamp id v → p ∈ L id →
      (∀ q ∈ L id, (s.heap.page p).timestamp ≤ (s.heap.page q).timestamp) →
      (∀ q ∈ L SystemQueue.default.ordinal, v ≤ (s.heap.page q).timestamp) →
      (∀ d ∈ done, L d ≠ [] → ∀ w, s.HasTimestamp d w → v ≤ w) →
      Best s L done ⟨v, some p, some id⟩

/-- A chain that is considered after those in `done`. -/
theorem Best.consider {done : List ℤ} {best : Candidate} (hs : s.Rep L)
    (hid : id ∈ s.usrChains) (hb : Best s L done best) (hv : s.HasTimestamp id v) (hp : p ∈ L id)
    (hle : ∀ q ∈ L id, (s.heap.page p).timestamp ≤ (s.heap.page q).timestamp) :
    Best s L (done ++ [id])
      (if v < best.minimum then { minimum := v, page := some p, chain := some id } else best) := by
  have hmem : ∀ {d}, d ∈ done ++ [id] → d ∈ done ∨ d = id := fun h => by
    simpa using h
  have hnew : ∀ m, m ≤ v → (∀ d ∈ done, L d ≠ [] → ∀ w, s.HasTimestamp d w → m ≤ w) →
      ∀ d ∈ done ++ [id], L d ≠ [] → ∀ w, s.HasTimestamp d w → m ≤ w := by
    intro m hm h d hd hne w hw
    rcases hmem hd with hd | rfl
    · exact h d hd hne w hw
    · exact hv.unique hw ▸ hm
  have hin : id ∈ done ++ [id] := by simp
  cases hb with
  | none hdef hdone =>
    have hlt : v < s.heap.clock.current + 1 :=
      Nat.lt_succ_of_le (hs.hasTimestamp_le_clock hid (List.ne_nil_of_mem hp) hv)
    rw [if_pos hlt]
    refine .user hin hv hp hle (by simp [hdef]) (hnew v le_rfl fun d hd hne => ?_)
    exact absurd (hdone d hd) hne
  | @default q hq hleq hdone =>
    split_ifs with hlt
    · refine .user hin hv hp hle (fun r hr => hlt.le.trans (hleq r hr))
        (hnew v le_rfl fun d hd hne w hw => hlt.le.trans (hdone d hd hne w hw))
    · exact .default hq hleq (hnew _ (not_lt.1 hlt) hdone)
  | @user d w q hd hw hq hleq hdef hdone =>
    split_ifs with hlt
    · refine .user hin hv hp hle (fun r hr => hlt.le.trans (hdef r hr))
        (hnew v le_rfl fun d hd hne u hu => hlt.le.trans (hdone d hd hne u hu))
    · exact .user (List.mem_append_left _ hd) hw hq hleq hdef (hnew _ (not_lt.1 hlt) hdone)

/-- A chain without pages does not change the best candidate. -/
theorem Best.skip {done : List ℤ} {best : Candidate} (hb : Best s L done best)
    (hnil : L id = []) : Best s L (done ++ [id]) best := by
  have hmem : ∀ {d}, d ∈ done ++ [id] → L d ≠ [] → d ∈ done := fun hd hne => by
    rcases List.mem_append.1 hd with h | h
    · exact h
    · exact absurd (List.mem_singleton.1 h ▸ hnil) hne
  cases hb with
  | none hdef hdone =>
    refine .none hdef fun d hd => ?_
    by_contra hne
    exact hne (hdone d (hmem hd hne))
  | default hq hleq hdone => exact .default hq hleq fun d hd hne => hdone d (hmem hd hne) hne
  | user hd hw hq hleq hdef hdone =>
    exact .user (List.mem_append_left _ hd) hw hq hleq hdef fun d hd hne =>
      hdone d (hmem hd hne) hne

/-- The loop over the user chains. -/
theorem considerChains (hs : s.Rep L) {order : List ℤ} (ho : ∀ d ∈ order, d ∈ s.usrChains)
    {best : Candidate} (hb : Best s L [] best) :
    ∃ r, order.foldlM HierarchicalMemoryManager.considerChain (s, best) = .ok r ∧
      Refreshes s r.1 L ∧ Best s L order r.2 := by
  refine foldlM_ok (fun done (r : HierarchicalMemoryManager × Candidate) =>
    Refreshes s r.1 L ∧ Best s L done r.2) ?_ ⟨.refl s L, hb⟩
  rintro done id rest hsplit ⟨s₁, b₁⟩ ⟨(hr₁ : Refreshes s s₁ L), hb₁⟩
  have hid : id ∈ s.usrChains := ho id (hsplit ▸ by simp)
  have hs₁ := hs.refreshes hr₁
  by_cases hnil : L id = []
  · exact ⟨_, hs₁.considerChain_of_nil hnil b₁, hr₁, hb₁.skip hnil⟩
  · obtain ⟨v, s₂, p, heq, hv, hr₂, hp, hle⟩ := hs₁.considerChain hnil b₁
    simp only [hr₁.heap_eq] at hle
    exact ⟨_, heq, hr₁.trans hr₂,
      hb₁.consider hs hid ((hs.hasTimestamp_refreshes hr₁ hnil).1 hv) hp hle⟩

/-- The loop over the pages of a chain. -/
theorem foldl_keepLeast_pages (hs : s.Rep L) (hne : L id ≠ []) :
    ∃ p ∈ L id, (L id).foldl (keepLeast fun p => (s.heap.page p).timestamp)
        (s.heap.clock.current + 1, none) = ((s.heap.page p).timestamp, some p) ∧
      ∀ q ∈ L id, (s.heap.page p).timestamp ≤ (s.heap.page q).timestamp := by
  obtain ⟨a, ha⟩ := List.exists_mem_of_ne_nil _ hne
  obtain ⟨p, hp, heq, -, hle⟩ := foldl_keepLeast_of_lt (fun p => (s.heap.page p).timestamp) none
    ⟨a, ha, Nat.lt_succ_of_le (hs.store.stamp_le a (hs.lt_fresh ha))⟩
  exact ⟨p, hp, heq, hle⟩

theorem iterate (hs : s.Rep L) (id : ℤ) : (s.chains id).iterate s.heap = .ok (L id) :=
  MemoryChain.iterate_spec (hs.chains.holds id) (hs.chains.length_le_fresh id)

/-- The first phase of `evict` chooses a page of the system chains, or the best candidate among those
    and the user chains it goes through. -/
theorem selectVictim_best (hs : s.Rep L) {order : List ℤ} (ho : ∀ d ∈ order, d ∈ s.usrChains) :
    ∃ s' c, s.selectVictim order = .ok (s', c) ∧ Refreshes s s' L ∧
      (L SystemQueue.hated.ordinal = [] ∧ L SystemQueue.spillover.ordinal = [] ∧
          Best s L order c ∨
        ∃ m id p, c = ⟨m, some p, some id⟩ ∧ Chosen s L id p) := by
  rw [HierarchicalMemoryManager.selectVictim]
  by_cases h0 : L SystemQueue.hated.ordinal = []
  · rw [if_neg fun h => (hs.chains.holds _).size_pos_iff.1 h h0]
    by_cases h1 : L SystemQueue.spillover.ordinal = []
    · rw [if_neg fun h => (hs.chains.holds _).size_pos_iff.1 h h1, hs.iterate, ok_bind]
      -- The pages of the default chain come first, then those of the user chains.
      obtain ⟨m, page, hfold, hb⟩ : ∃ m page, (L SystemQueue.default.ordinal).foldl
          (keepLeast fun p => (s.heap.page p).timestamp) (s.heap.clock.current + 1, none) =
            (m, page) ∧
          Best s L [] ⟨m, page, page.map fun _ => SystemQueue.default.ordinal⟩ := by
        by_cases h2 : L SystemQueue.default.ordinal = []
        · rw [h2]
          exact ⟨_, _, rfl, .none h2 (by simp)⟩
        · obtain ⟨p, hp, heq, hle⟩ := hs.foldl_keepLeast_pages h2
          exact ⟨_, _, heq, .default hp hle (by simp)⟩
      obtain ⟨⟨s', c⟩, heq, hr, hb'⟩ := hs.considerChains ho hb
      simp only [hfold, heq]
      exact ⟨s', c, rfl, hr, .inl ⟨h0, h1, hb'⟩⟩
    · rw [if_pos ((hs.chains.holds _).size_pos_iff.2 h1), hs.iterate, ok_bind]
      obtain ⟨p, hp, heq, hle⟩ := hs.foldl_keepLeast_pages h1
      rw [heq]
      exact ⟨s, _, rfl, .refl s L, .inr ⟨_, _, p, rfl, .spillover h0 hp hle⟩⟩
  · rw [if_pos ((hs.chains.holds _).size_pos_iff.2 h0), (hs.chains.holds _).list.tail_eq h0]
    have hp := List.getLast?_eq_some_getLast h0
    exact ⟨s, _, rfl, .refl s L, .inr ⟨_, _, _, by rw [hp], .hated hp⟩⟩

/-- The first phase of `evict` chooses a page, if there is one on some chain. -/
theorem selectVictim (hs : s.Rep L) (hne : ∃ d, L d ≠ []) {order : List ℤ}
    (ho : ∀ d, d ∈ order ↔ d ∈ s.usrChains) :
    ∃ s' m id p, s.selectVictim order = .ok (s', ⟨m, some p, some id⟩) ∧ Refreshes s s' L ∧
      Chosen s L id p := by
  obtain ⟨s', c, heq, hr, ⟨h0, h1, hb⟩ | ⟨m, id, p, rfl, hch⟩⟩ :=
    hs.selectVictim_best fun d => (ho d).1
  · cases hb with
    | none hdef hdone =>
      -- No chain holds a page.
      obtain ⟨d, hd⟩ := hne
      obtain ⟨r, hr'⟩ := List.exists_mem_of_ne_nil _ hd
      rcases hs.chains.isChain_of_mem hr' with hsys | husr
      · have hd' : d = 0 ∨ d = 1 ∨ d = 2 := by
          have := isSysMemChain_iff.1 hsys
          omega
        rcases hd' with rfl | rfl | rfl
        · exact absurd h0 hd
        · exact absurd h1 hd
        · exact absurd hdef hd
      · exact absurd (hdone d ((ho d).2 husr)) hd
    | default hq hleq hdone =>
      exact ⟨s', _, _, _, heq, hr, .default h0 h1 hq hleq fun d hd => hdone d ((ho d).2 hd)⟩
    | user hd hw hq hleq hdef hdone =>
      exact ⟨s', _, _, _, heq, hr, .user h0 h1 ((ho _).1 hd) hw hq hleq hdef fun d hd =>
        hdone d ((ho d).2 hd)⟩
  · exact ⟨s', m, id, p, heq, hr, hch⟩

/-- The first phase of `evict` chooses no page if there is none on any chain. -/
theorem selectVictim_of_nil (hs : s.Rep L) (hnil : ∀ d, L d = []) (order : List ℤ) :
    s.selectVictim order = .ok (s, ⟨s.heap.clock.current + 1, none, none⟩) := by
  have hsize : ∀ d, ¬(s.chains d).size > 0 := fun d h =>
    (hs.chains.holds d).size_pos_iff.1 h (hnil d)
  rw [HierarchicalMemoryManager.selectVictim, if_neg (hsize _), if_neg (hsize _), hs.iterate,
    hnil]
  change order.foldlM HierarchicalMemoryManager.considerChain (s, _) = _
  induction order with
  | nil => rfl
  | cons d order ih => rw [List.foldlM_cons, hs.considerChain_of_nil (hnil d), ok_bind, ih]

/-! ## The removal of the victim -/

/-- A page that is on no chain leaves its frame. -/
theorem remove (hs : s.Rep L) {f : ℕ} (hf : s.memory.pages[f]? = some (some p))
    (hr : (s.heap.page p).resides = -1) : (s.remove p f).Rep L := by
  refine ⟨⟨hs.ids.nodup, hs.ids.range, hs.ids.three_le⟩, hs.store.remove hf,
    hs.chains.congr (fun _ => rfl) hs.chains.blank rfl (fun _ => rfl) fun _ _ => id,
    ⟨hs.cache.le_clock, hs.cache.le_stamp, hs.cache.representative⟩, fun r hrr => ?_⟩
  refine (hs.store.resident_remove hf r).2 ⟨hs.resident r hrr, ?_⟩
  rintro rfl
  exact hrr hr

/-- The page that the first phase of `evict` chose leaves its chain and its frame. -/
theorem evict_of_selectVictim (hs : s.Rep L) (hr : Refreshes s s' L) (hp : p ∈ L id) {m : ℕ}
    {order : List ℤ} (hsel : s.selectVictim order = .ok (s', ⟨m, some p, some id⟩)) :
    ∃ s'', s.evict order = .ok (s'', p) ∧ Removes s s'' L id p := by
  have hs' := hs.refreshes hr
  obtain ⟨hs₂, hu⟩ := hs'.unlink hp
  have hm := hr.moves.trans hu.toMoves
  obtain ⟨f, hpf, hf⟩ := hs₂.store.getElem?_frame ((hm.resident_iff p).2 (hs.mem_resident hp))
  have hlt := (List.getElem?_eq_some_iff.1 hf).1
  refine ⟨(s'.chainUnlink id (some p)).remove p f, ?_, hp,
    hs₂.remove hf ((hu.resides_eq p).trans (if_pos rfl)), fun hv => ?_, ⟨f, ?_, ?_⟩, ?_, ?_,
    hm.core_eq, fun q => ?_, fun q => ?_, hm.fresh_eq, hm.clock_eq, hm.usrChains_eq,
    hm.chainId_eq, hm.size_eq⟩
  · rw [HierarchicalMemoryManager.evict, hsel]
    simp only [ok_bind, deref_some, hpf, Memory.store_natCast _ none hlt]
    rfl
  · exact hs'.cacheValid_unlink hp (cacheValid_refreshes hr hv)
  · rw [← hm.memory_eq]
    exact hf
  · simp only [HierarchicalMemoryManager.remove, hm.memory_eq]
  · simp only [HierarchicalMemoryManager.remove, PageTable.remove, hm.pageTable_eq, hm.address_eq]
  · simp only [HierarchicalMemoryManager.remove, hm.swap_eq, hm.address_eq]
  · exact (hu.assigned_eq q).trans (by rw [hr.heap_eq])
  · exact (hu.resides_eq q).trans (by rw [hr.heap_eq])

/-- `evict` evicts a page, if there is one on some chain. -/
theorem evict (hs : s.Rep L) (hne : ∃ d, L d ≠ []) {order : List ℤ}
    (ho : ∀ d, d ∈ order ↔ d ∈ s.usrChains) :
    ∃ s' id p, s.evict order = .ok (s', p) ∧ Evicts s s' L id p := by
  obtain ⟨s₁, m, id, p, hsel, hr, hch⟩ := hs.selectVictim hne ho
  obtain ⟨s', heq, hrem⟩ := hs.evict_of_selectVictim hr hch.mem hsel
  exact ⟨s', id, p, heq, hrem, hch⟩

/-- `evict` ends normally if one of the chains it goes through holds a page. -/
theorem evict_returns (hs : s.Rep L) {order : List ℤ} (ho : ∀ d ∈ order, d ∈ s.usrChains)
    (hne : ∃ d, (isSysMemChain d = true ∨ d ∈ order) ∧ L d ≠ []) :
    ∃ s' p, s.evict order = .ok (s', p) := by
  have hmem : ∀ {s₁ : HierarchicalMemoryManager} {m : ℕ} {id : ℤ} {q : PageRef},
      s.selectVictim order = .ok (s₁, ⟨m, some q, some id⟩) → Refreshes s s₁ L → q ∈ L id →
      ∃ s' p, s.evict order = .ok (s', p) := fun hsel hr hq => by
    obtain ⟨s₂, heq, -⟩ := hs.evict_of_selectVictim hr hq hsel
    exact ⟨s₂, _, heq⟩
  obtain ⟨s₁, c, hsel, hr, ⟨h0, h1, hb⟩ | ⟨m, id, q, rfl, hch⟩⟩ := hs.selectVictim_best ho
  · cases hb with
    | none hdef hdone =>
      obtain ⟨d, hd, hnil⟩ := hne
      refine absurd ?_ hnil
      rcases hd with hsys | hd
      · obtain rfl | rfl | rfl : d = 0 ∨ d = 1 ∨ d = 2 := by
          have := isSysMemChain_iff.1 hsys
          omega
        · exact h0
        · exact h1
        · exact hdef
      · exact hdone d hd
    | default hq => exact hmem hsel hr hq
    | user _ _ hq => exact hmem hsel hr hq
  · exact hmem hsel hr hch.mem

/-- If `evict` ends normally, whichever user chains it goes through, a page leaves its chain and its
    frame. -/
theorem evict_removes (hs : s.Rep L) {order : List ℤ} (ho : ∀ d ∈ order, d ∈ s.usrChains)
    (heq : s.evict order = .ok (s', p)) : ∃ id, Removes s s' L id p := by
  have hmem : ∀ {s₁ : HierarchicalMemoryManager} {m : ℕ} {id : ℤ} {q : PageRef},
      s.selectVictim order = .ok (s₁, ⟨m, some q, some id⟩) → Refreshes s s₁ L → q ∈ L id →
      ∃ id, Removes s s' L id p := fun hsel hr hq => by
    obtain ⟨s₂, heq', hrem⟩ := hs.evict_of_selectVictim hr hq hsel
    rw [heq'] at heq
    cases heq
    exact ⟨_, hrem⟩
  obtain ⟨s₁, c, hsel, hr, ⟨-, -, hb⟩ | ⟨m, id, q, rfl, hch⟩⟩ := hs.selectVictim_best ho
  · cases hb with
    | none =>
      rw [HierarchicalMemoryManager.evict, hsel] at heq
      cases heq
    | default hq => exact hmem hsel hr hq
    | user _ _ hq => exact hmem hsel hr hq
  · exact hmem hsel hr hch.mem

end Rep

end

end HierarchicalMemoryManager

end Mcpq.Hierarchical
