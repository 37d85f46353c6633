import Mcpq.Simulator.LruStack
import Mcpq.Lib.Transition

/-!
# Levels of love

The runs of a memory manager with `LoveHateReplacementPolicy` (`LoveHateSystem`). Each fault that spares
the least recently used page takes a level from its love, so that the page is evicted after as many
faults, and one more, as it has levels; a page of the highest level is spared as long as another one has
a lower level (`love_levels`).
-/

namespace Mcpq.Simulator

/-- A call to the manager. -/
inductive HintCall
  | access (address : ℤ)
  | love (page l : ℤ)
  | lovePin (page l : ℤ) (pin : Bool)
  | hate (page l : ℤ)
  deriving DecidableEq, Repr

namespace HintCall

/-- The page accessed, loved or hated. -/
def page : HintCall → ℤ
  | access address => address
  | love page _ => page
  | lovePin page _ _ => page
  | hate page _ => page

/-- The page loved or hated. -/
def hinted? : HintCall → Option ℤ
  | access _ => none
  | love page _ => some page
  | lovePin page _ _ => some page
  | hate page _ => some page

/-- The level given. -/
def level? : HintCall → Option ℤ
  | access _ => none
  | love _ l => some l
  | lovePin _ l _ => some l
  | hate _ l => some l

/-- The page evicted by an access. -/
def evicted? : Outcome ℤ → Option ℤ
  | .hit => none
  | .fault evicted => evicted

/-- Execute a call; also the page evicted. -/
def exec (m : MemoryManager Unit) : HintCall → Java (MemoryManager Unit × Option ℤ)
  | access address => (m.access loveHateReplacementPolicy address).map fun r => (r.1, evicted? r.2)
  | love page l => (m.love loveHateReplacementPolicy page l).map (·, none)
  | lovePin page l pin => (m.lovePin loveHateReplacementPolicy page l pin).map (·, none)
  | hate page l => (m.hate loveHateReplacementPolicy page l).map (·, none)

end HintCall

/-- The runs of a memory manager of capacity `n`, where no level is negative. A step is labelled with
    the page evicted, if one is. -/
def LoveHateSystem (n : ℕ) : Transition (MemoryManager Unit) (HintCall × Option ℤ) where
  init m := ∃ clock, m = .make () n clock
  step m i m' := (∀ l ∈ i.1.level?, 0 ≤ l) ∧ i.1.exec m = .ok (m', i.2)

/-- The pages evicted in a run, in order. -/
def evictions (is : List (HintCall × Option ℤ)) : List ℤ := is.filterMap Prod.snd

/-- The page is in memory. -/
def MemoryManager.Resident {σ : Type} (m : MemoryManager σ) (p : ℤ) : Prop :=
  (m.getFromMemory p).isSome = true

namespace LoveHateReplacementPolicy

variable {h : Heap} {pages : List PageRef} {p q u v : PageRef}

/-- The page `p` has the least love of the pages, and the least time among those of its love. -/
def LeastLoved (h : Heap) (pages : List PageRef) (p : PageRef) : Prop :=
  ∀ q ∈ pages, (h.page p).love < (h.page q).love ∨
    (h.page p).love = (h.page q).love ∧ h.time p ≤ h.time q

/-- The search has found the least loved of the pages `done`. -/
structure Search.Finds (h : Heap) (s : Search) (done : List PageRef) (v : PageRef) : Prop where
  evicted_eq : s.evictedBlock = some v
  mem : v ∈ done
  minLove_eq : s.minLove = (h.page v).love
  minTime_eq : s.minTime = h.time v
  least : LeastLoved h done v

/-- The search for the least recently used page. -/
theorem Search.block_lru (s : Search) (h : Heap) (p : PageRef) :
    ((s.block h p).lruMinTime, (s.block h p).lruEvictedBlock) =
      keepLeast h.time (s.lruMinTime, s.lruEvictedBlock) p := by
  rw [Search.block, keepLeast, Heap.time]
  split_ifs
  all_goals rfl

/-- The search for the least loved page. -/
theorem Search.block_least (s : Search) (h : Heap) (p : PageRef) :
    ((s.block h p).minTime, (s.block h p).minLove, (s.block h p).evictedBlock) =
      if (h.page p).love < s.minLove ∨ (h.page p).love = s.minLove ∧ h.time p < s.minTime then
        (h.time p, (h.page p).love, some p)
      else (s.minTime, s.minLove, s.evictedBlock) := by
  rw [Search.block, Heap.time]
  split_ifs
  all_goals rfl

/-- The page is found if it is loved less than all others. -/
theorem Search.finds_block {s : Search} {done : List PageRef}
    (hcond : (h.page p).love < s.minLove ∨ (h.page p).love = s.minLove ∧ h.time p < s.minTime)
    (hleast : LeastLoved h done p) : (s.block h p).Finds h (done ++ [p]) p := by
  have hblock := s.block_least h p
  rw [if_pos hcond] at hblock
  obtain ⟨htime, hrest⟩ := Prod.mk.inj hblock
  obtain ⟨hlove, hevicted⟩ := Prod.mk.inj hrest
  refine ⟨hevicted, by simp, hlove, htime, fun q hq => ?_⟩
  rcases List.mem_append.1 hq with hq | hq
  · exact hleast q hq
  · rw [List.mem_singleton.1 hq]
    exact .inr ⟨rfl, le_rfl⟩

/-- An iteration of the search. -/
theorem Search.Finds.block {s : Search} {done : List PageRef} (hs : s.Finds h done v) (p : PageRef) :
    ∃ v', (s.block h p).Finds h (done ++ [p]) v' := by
  by_cases hcond : (h.page p).love < s.minLove ∨ (h.page p).love = s.minLove ∧ h.time p < s.minTime
  · refine ⟨p, Search.finds_block hcond fun q hq => ?_⟩
    have hv := hs.least q hq
    rw [hs.minLove_eq, hs.minTime_eq] at hcond
    omega
  · have hblock := s.block_least h p
    rw [if_neg hcond] at hblock
    obtain ⟨htime, hrest⟩ := Prod.mk.inj hblock
    obtain ⟨hlove, hevicted⟩ := Prod.mk.inj hrest
    refine ⟨v, hevicted.trans hs.evicted_eq, List.mem_append_left _ hs.mem, hlove.trans hs.minLove_eq,
      htime.trans hs.minTime_eq, fun q hq => ?_⟩
    rcases List.mem_append.1 hq with hq | hq
    · exact hs.least q hq
    · rw [List.mem_singleton.1 hq]
      rw [hs.minLove_eq, hs.minTime_eq] at hcond
      omega

theorem Search.Finds.foldl {s : Search} {done : List PageRef} (hs : s.Finds h done v)
    (pages : List PageRef) : ∃ v', (pages.foldl (Search.block h) s).Finds h (done ++ pages) v' := by
  induction pages generalizing s done v with
  | nil => exact ⟨v, by rwa [List.append_nil]⟩
  | cons p pages ih =>
    obtain ⟨v', hs'⟩ := hs.block p
    rw [List.append_cons]
    exact ih hs'

theorem foldl_lru (s : Search) (h : Heap) (pages : List PageRef) :
    ((pages.foldl (Search.block h) s).lruMinTime, (pages.foldl (Search.block h) s).lruEvictedBlock) =
      pages.foldl (keepLeast h.time) (s.lruMinTime, s.lruEvictedBlock) := by
  induction pages generalizing s with
  | nil => rfl
  | cons p pages ih => rw [List.foldl_cons, List.foldl_cons, ← s.block_lru h p, ih]

/-- From `h` to `h'`, a level of love is taken from the page `u` if `c` holds. -/
structure TakesLevel (h h' : Heap) (u : PageRef) (c : Prop) : Prop where
  page_eq : ∀ q, q ≠ u → h'.page q = h.page q
  time_eq : ∀ q, h'.time q = h.time q
  clock_eq : h'.clock = h.clock
  disk_eq : h'.disk = h.disk
  love_eq : c → (h'.page u).love = (h.page u).love - 1
  love_keeps : ¬c → (h'.page u).love = (h.page u).love

theorem takesLevel_modify {c : Prop} (hc : c) :
    TakesLevel h (h.modify u fun p => { p with love := p.love - 1 }) u c := by
  refine ⟨fun q hq => Heap.modify_page_of_ne _ _ hq, fun q => ?_, rfl, rfl, fun _ => ?_,
    fun hn => absurd hc hn⟩
  · rw [Heap.time, Heap.modify_page]
    split_ifs with hq
    · rw [hq, Heap.time]
    · rfl
  · rw [Heap.modify_page_self]

theorem takesLevel_self {c : Prop} (hc : ¬c) : TakesLevel h h u c :=
  ⟨fun _ _ => rfl, fun _ => rfl, rfl, rfl, fun h => absurd h hc, fun _ => rfl⟩

/-- What the policy does to a full memory: it finds the least loved page `v`, and takes a level from the
    least recently used page `u` if that is another one, and not pinned. -/
theorem find_spec (hne : pages ≠ []) (htime : ∀ p ∈ pages, h.time p ≤ h.clock.current)
    (hlove : ∀ p ∈ pages, (h.page p).love ≤ pinLevel) :
    ∃ v ∈ pages, ∃ u ∈ pages, LeastLoved h pages v ∧ Oldest h.time pages u ∧ ∃ h',
      loveHateReplacementPolicy.findPageToEvict () h (pages.map some) = .ok (some v, h', ()) ∧
      TakesLevel h h' u ((h.page u).love ≠ pinLevel ∧ h.time u < h.time v) := by
  obtain ⟨u, hu, hlru, hold⟩ := foldl_keepLeast_time hne htime
  obtain ⟨a, rest, rfl⟩ := List.exists_cons_of_ne_nil hne
  obtain ⟨s₀, hs₀⟩ : ∃ s₀ : Search,
      s₀ = { minTime := h.clock.current + 1, lruMinTime := h.clock.current + 1 } := ⟨_, rfl⟩
  have hpin : pinLevel < s₀.minLove := by
    rw [hs₀]
    exact (by decide : pinLevel < 2147483647)
  have hfirst : (s₀.block h a).Finds h ([] ++ [a]) a :=
    Search.finds_block (.inl ((hlove a List.mem_cons_self).trans_lt hpin))
      fun _ hq => absurd hq List.not_mem_nil
  obtain ⟨v, hv⟩ := hfirst.foldl rest
  have hlru' : ((a :: rest).foldl (Search.block h) s₀).lruEvictedBlock = some u := by
    rw [hs₀]
    have hfold := foldl_lru { minTime := h.clock.current + 1, lruMinTime := h.clock.current + 1 } h
      (a :: rest)
    exact congrArg Prod.snd (hfold.trans hlru)
  refine ⟨v, hv.mem, u, hu, hv.least, hold, ?_⟩
  change ∃ h', findPageToEvict () h ((a :: rest).map some) = _ ∧ _
  have hev : ((a :: rest).foldl (Search.block h) s₀).evictedBlock = some v := hv.evicted_eq
  rw [findPageToEvict, foldlM_deref, ← hs₀]
  simp only [ok_bind, hlru', hev, deref_some, pure_eq_ok]
  split_ifs with hpinned hlt
  · exact ⟨_, rfl, takesLevel_modify ⟨hpinned, hlt⟩⟩
  · exact ⟨_, rfl, takesLevel_self fun hc => hlt hc.2⟩
  · exact ⟨_, rfl, takesLevel_self fun hc => hpinned hc.1⟩

end LoveHateReplacementPolicy

open LoveHateReplacementPolicy

/-- The pages in memory have been accessed at distinct times, and the levels of all pages are in
    range. -/
structure Hinted (n : ℕ) (m : MemoryManager Unit) (slots : List PageRef) : Prop
    extends Layout n m slots where
  time_inj : ∀ p ∈ slots, ∀ q ∈ slots, m.heap.time p = m.heap.time q → p = q
  love_nonneg : ∀ p, 0 ≤ (m.heap.page p).love
  love_le : ∀ p, (m.heap.page p).love ≤ pinLevel

/-- What an access does to the levels of love. -/
structure TakesLove (h h' : Heap) (slots : List PageRef) (o : Outcome ℤ) : Prop where
  /-- A level is taken from the least recently used page when another page is evicted. -/
  evicts : ∀ v, o = .fault (some v) → v ∈ slots ∧ LeastLoved h slots v ∧
    ∃ u ∈ slots, Oldest h.time slots u ∧ (∀ q, q ≠ u → (h'.page q).love = (h.page q).love) ∧
      ((h.page u).love ≠ pinLevel ∧ h.time u < h.time v → (h'.page u).love = (h.page u).love - 1) ∧
      (¬((h.page u).love ≠ pinLevel ∧ h.time u < h.time v) → (h'.page u).love = (h.page u).love)
  keeps : (∀ v, o ≠ .fault (some v)) → ∀ q, (h'.page q).love = (h.page q).love

namespace Hinted

variable {n : ℕ} {m m' : MemoryManager Unit} {slots : List PageRef} {a p : ℤ}

theorem make (clock : LogicalClock) : Hinted n (.make () n clock) [] where
  toLayout := .make () clock
  time_inj _ hp := absurd hp List.not_mem_nil
  love_nonneg _ := le_rfl
  love_le _ := (by decide : (0 : ℤ) ≤ pinLevel)

theorem resident_iff (h : Hinted n m slots) : m.Resident p ↔ p ∈ slots := h.getFromMemory_isSome

/-- The levels stay in range. -/
theorem TakesLove.range {h' : Heap} {o : Outcome ℤ} (h : Hinted n m slots)
    (ht : TakesLove m.heap h' slots o) (q : ℤ) :
    0 ≤ (h'.page q).love ∧ (h'.page q).love ≤ pinLevel := by
  have hq := h.love_nonneg q
  have hq' := h.love_le q
  by_cases hev : ∃ v, o = .fault (some v)
  · obtain ⟨v, hv⟩ := hev
    obtain ⟨-, hleast, u, hu, hold, hother, htakes, hkeeps⟩ := ht.evicts v hv
    by_cases hqu : q = u
    · rw [hqu] at hq hq' ⊢
      by_cases hcond : (m.heap.page u).love ≠ pinLevel ∧ m.heap.time u < m.heap.time v
      · -- The page evicted is loved less than the one that loses a level.
        have := h.love_nonneg v
        have := hleast u hu
        have := htakes hcond
        omega
      · rw [hkeeps hcond]
        exact ⟨hq, hq'⟩
    · rw [hother q hqu]
      exact ⟨hq, hq'⟩
  · rw [ht.keeps (not_exists.1 hev)]
    exact ⟨hq, hq'⟩

/-- The pages in memory after an access. -/
theorem serves {o : Outcome ℤ} {slots' : List PageRef} {V : PageRef → Prop} (h : Hinted n m slots)
    (h' : Layout n m' slots') (hs : Serves n a o slots slots' V m.heap.time m'.heap.time)
    (ht : TakesLove m.heap m'.heap slots o) : Hinted n m' slots' := by
  refine ⟨h', fun p hp q hq heq => ?_, fun q => (TakesLove.range h ht q).1,
    fun q => (TakesLove.range h ht q).2⟩
  -- The page accessed is stamped later than all others.
  have hlt : ∀ r ∈ slots', r ≠ a → m'.heap.time r < m'.heap.time a := fun r hr hra => by
    have hrs := (((hs.mem_iff r).1 hr).resolve_left hra).1
    rw [hs.stamp_eq r hrs hr hra]
    exact hs.stamp_lt r hrs hra
  by_cases hpa : p = a
  · by_contra hne
    have := hlt q hq fun hqa => hne (hpa.trans hqa.symm)
    rw [hpa] at heq
    exact absurd heq this.ne'
  · by_cases hqa : q = a
    · rw [hqa] at heq
      exact absurd heq (hlt p hp hpa).ne
    · have hps := (((hs.mem_iff p).1 hp).resolve_left hpa).1
      have hqs := (((hs.mem_iff q).1 hq).resolve_left hqa).1
      rw [hs.stamp_eq p hps hp hpa, hs.stamp_eq q hqs hq hqa] at heq
      exact h.time_inj p hps q hqs heq

/-- An access to a page in memory, or when there is a free slot. -/
theorem access_keeps {o : Outcome ℤ} {slots' : List PageRef} {k : ℕ} (h : Hinted n m slots)
    (h' : Layout n m' slots') (hr : References m.heap m'.heap a k) (hk : 0 < k)
    (hmem : ∀ b, b ∈ slots' ↔ b = a ∨ b ∈ slots ∧ o ≠ .fault (some b))
    (ho : a ∈ slots ∧ o = .hit ∨ a ∉ slots ∧ slots.length < n ∧ o = .fault none) :
    Hinted n m' slots' ∧ Serves n a o slots slots' (fun _ => True) m.heap.time m'.heap.time ∧
      TakesLove m.heap m'.heap slots o := by
  have hne : ∀ v, o ≠ .fault (some v) := fun v => by
    rcases ho with ⟨-, rfl⟩ | ⟨-, -, rfl⟩
    · simp
    · simp
  have hserves : Serves n a o slots slots' (fun _ => True) m.heap.time m'.heap.time :=
    h.toLayout.serves h' hr hk (fun _ => rfl) rfl hmem (ho.imp_right .inl)
  have ht : TakesLove m.heap m'.heap slots o :=
    ⟨fun v hv => absurd hv (hne v), fun _ q => congrArg (·.1) (hr.hints q)⟩
  exact ⟨h.serves h' hserves ht, hserves, ht⟩

/-- An access to a page that is not in memory, when memory is full. -/
theorem access_full (h : Hinted n m slots) (ha : a ∉ slots) (hlen : slots.length = n) (h0 : 0 < n) :
    ∃ m' o slots', m.access loveHateReplacementPolicy a = .ok (m', o) ∧ Hinted n m' slots' ∧
      Serves n a o slots slots' (fun _ => True) m.heap.time m'.heap.time ∧
      TakesLove m.heap m'.heap slots o := by
  obtain ⟨v, hv, u, hu, hleast, hold, h₁, hfind, ht⟩ := find_spec
    (List.ne_nil_of_length_pos (hlen ▸ h0) : slots ≠ []) h.time_le fun p _ => h.love_le p
  obtain ⟨m', slots', heq, h', -, hhints, hserves⟩ := h.access_evict (V := fun _ => True) ha hlen hv hfind
    ht.time_eq ht.clock_eq ht.disk_eq (fun q hq _ => ht.page_eq q fun hqu => hq (hqu ▸ hu)) trivial
  have hlove : ∀ q, (m'.heap.page q).love = (h₁.page q).love := fun q => congrArg (·.1) (hhints q)
  have htakes : TakesLove m.heap m'.heap slots (.fault (some v)) := by
    refine ⟨fun w hw => ?_, fun hne => absurd rfl (hne v)⟩
    obtain rfl : v = w := by simpa using hw
    refine ⟨hv, hleast, u, hu, hold, fun q hq => ?_, fun hc => ?_, fun hc => ?_⟩
    · rw [hlove, ht.page_eq q hq]
    · rw [hlove, ht.love_eq hc]
    · rw [hlove, ht.love_keeps hc]
  exact ⟨m', _, slots', heq, h.serves h' hserves htakes, hserves, htakes⟩

/-- An access is served. -/
theorem access (h : Hinted n m slots) (h0 : 0 < n) (a : ℤ) :
    ∃ m' o slots', m.access loveHateReplacementPolicy a = .ok (m', o) ∧ Hinted n m' slots' ∧
      Serves n a o slots slots' (fun _ => True) m.heap.time m'.heap.time ∧
      TakesLove m.heap m'.heap slots o := by
  by_cases ha : a ∈ slots
  · refine ⟨{ m with heap := m.heap.updateRefStats a }, .hit, slots, ?_,
      h.access_keeps (h.hit ha) (references_updateRefStats (h.disk a ha)) Nat.one_pos (fun b => ?_)
        (.inl ⟨ha, rfl⟩)⟩
    · rw [MemoryManager.access, h.getFromMemory_of_mem ha]
    · simp only [ne_eq, reduceCtorEq, not_false_eq_true, and_true, iff_or_self]
      rintro rfl
      exact ha
  rcases h.length_le.lt_or_eq with hlt | hlen
  · have hfull : ¬m.isFull = true := by
      rw [h.isFull_iff]
      exact hlt.ne
    obtain ⟨m', heq, -, hr, h'⟩ := h.append ha hlt
    refine ⟨m', .fault none, slots ++ [a], ?_, h.access_keeps h' hr Nat.two_pos (fun b => ?_)
      (.inr ⟨ha, hlt, rfl⟩)⟩
    · rw [MemoryManager.access, h.getFromMemory_of_not_mem ha]
      simp only [MemoryManager.freePosition, if_neg hfull, ok_bind]
      rw [heq]
      rfl
    · simp [or_comm]
  · exact h.access_full ha hlen h0

/-- A memory without slots serves no access. -/
theorem pos_of_access {o : Outcome ℤ} (h : Hinted n m slots)
    (heq : m.access loveHateReplacementPolicy a = .ok (m', o)) : 0 < n := by
  by_contra h0
  obtain rfl : n = 0 := Nat.eq_zero_of_not_pos h0
  obtain rfl : slots = [] := List.length_eq_zero_iff.1 (Nat.le_zero.1 h.length_le)
  have hfind : loveHateReplacementPolicy.findPageToEvict m.policy m.heap m.memory =
      .error .nullPointer := by
    rw [h.memory_of_full rfl]
    rfl
  rw [MemoryManager.access, h.getFromMemory_of_not_mem List.not_mem_nil] at heq
  simp only [MemoryManager.freePosition, h.isFull_iff.2 rfl, if_true, hfind] at heq
  cases heq

/-- The fields of a page in memory are written. -/
theorem hint {f : MemoryPage → MemoryPage} (h : Hinted n m slots)
    (hf : ∀ x : MemoryPage, 0 ≤ x.love → x.love ≤ pinLevel → 0 ≤ (f x).love ∧ (f x).love ≤ pinLevel)
    (htime : ∀ x, (f x).time = x.time) (p : ℤ) :
    Hinted n { m with heap := (m.getFromMemory p).elim m.heap (m.heap.modify · f) } slots ∧
      (∀ q, ((m.getFromMemory p).elim m.heap (m.heap.modify · f)).time q = m.heap.time q) ∧
      ∀ q, q ≠ p →
        ((m.getFromMemory p).elim m.heap (m.heap.modify · f)).page q = m.heap.page q := by
  by_cases hp : p ∈ slots
  · rw [h.getFromMemory_of_mem hp, Option.elim_some]
    have htimes : ∀ q, (m.heap.modify p f).time q = m.heap.time q := fun q => by
      rw [Heap.time, Heap.modify_page]
      split_ifs with hq
      · rw [htime, hq, Heap.time]
      · rfl
    have hpage : ∀ q, q ≠ p → (m.heap.modify p f).page q = m.heap.page q := fun q hq =>
      Heap.modify_page_of_ne _ _ hq
    have hlove : ∀ q, 0 ≤ ((m.heap.modify p f).page q).love ∧
        ((m.heap.modify p f).page q).love ≤ pinLevel := fun q => by
      rw [Heap.modify_page]
      split_ifs
      · exact hf _ (h.love_nonneg p) (h.love_le p)
      · exact ⟨h.love_nonneg q, h.love_le q⟩
    refine ⟨⟨h.toLayout.congr rfl rfl rfl rfl (fun q hq => hpage q ?_) htimes,
      fun q hq r hr heq => h.time_inj q hq r hr ?_, fun q => (hlove q).1, fun q => (hlove q).2⟩,
      htimes, hpage⟩
    · rintro rfl
      exact hq (h.disk q hp)
    · rw [← htimes q, ← htimes r]
      exact heq
  · rw [h.getFromMemory_of_not_mem hp]
    exact ⟨h, fun _ => rfl, fun _ _ => rfl⟩

end Hinted

/-- What a step does: it is an access, or it writes the page it is given. -/
inductive StepDoes (n : ℕ) (m m' : MemoryManager Unit) (slots slots' : List PageRef) :
    HintCall × Option ℤ → Prop
  | access {a : ℤ} {o : Outcome ℤ}
      (serves : Serves n a o slots slots' (fun _ => True) m.heap.time m'.heap.time)
      (takes : TakesLove m.heap m'.heap slots o) :
      StepDoes n m m' slots slots' (.access a, HintCall.evicted? o)
  | hint {call : HintCall} (slots_eq : slots' = slots) (time_eq : ∀ q, m'.heap.time q = m.heap.time q)
      (page_eq : ∀ q, q ∉ call.hinted? → m'.heap.page q = m.heap.page q) :
      StepDoes n m m' slots slots' (call, none)

namespace Hinted

variable {n : ℕ} {m m' : MemoryManager Unit} {slots : List PageRef} {i : HintCall × Option ℤ}

/-- A step that writes the love of a page in memory. -/
theorem step_hint {f : MemoryPage → MemoryPage} {call : HintCall} {ev : Option ℤ} {p : ℤ}
    (h : Hinted n m slots) (hp : call.hinted? = some p)
    (hf : ∀ x : MemoryPage, 0 ≤ x.love → x.love ≤ pinLevel → 0 ≤ (f x).love ∧ (f x).love ≤ pinLevel)
    (htime : ∀ x, (f x).time = x.time)
    (hexec : Except.ok
      ({ m with heap := (m.getFromMemory p).elim m.heap (m.heap.modify · f) }, none) =
        (.ok (m', ev) : Java (MemoryManager Unit × Option ℤ))) :
    ∃ slots', Hinted n m' slots' ∧ StepDoes n m m' slots slots' (call, ev) := by
  obtain ⟨rfl, rfl⟩ := Prod.mk.inj (Except.ok.inj hexec)
  obtain ⟨h', htimes, hpage⟩ := h.hint hf htime p
  refine ⟨slots, h', .hint rfl htimes fun q hq => hpage q ?_⟩
  rintro rfl
  exact hq hp

/-- A step keeps the levels in range. -/
theorem step (h : Hinted n m slots) (hstep : (LoveHateSystem n).step m i m') :
    ∃ slots', Hinted n m' slots' ∧ StepDoes n m m' slots slots' i := by
  obtain ⟨call, ev⟩ := i
  obtain ⟨hlevel, hexec⟩ := hstep
  cases call with
  | access a =>
    obtain ⟨⟨m₁, o⟩, heq, hres⟩ := map_eq_ok hexec
    obtain ⟨rfl, rfl⟩ := Prod.mk.inj hres
    obtain ⟨m₂, o₂, slots', heq₂, h', hserves, htakes⟩ := h.access (h.pos_of_access heq) a
    obtain ⟨rfl, rfl⟩ := Prod.mk.inj (Except.ok.inj (heq.symm.trans heq₂))
    exact ⟨slots', h', .access hserves htakes⟩
  | love p l =>
    have hl : 0 ≤ l := hlevel l rfl
    refine h.step_hint (f := ({ · with love := min l pinLevel })) rfl (fun x _ _ => ?_) (fun _ => rfl) hexec
    exact ⟨le_min hl (by decide), min_le_right _ _⟩
  | lovePin p l pin =>
    have hl : 0 ≤ l := hlevel l rfl
    refine h.step_hint (f := ({ · with love := if pin then pinLevel else min l (pinLevel - 1) }))
      rfl (fun x _ _ => ?_) (fun _ => rfl) hexec
    dsimp only
    split_ifs
    · exact ⟨by decide, le_rfl⟩
    · exact ⟨le_min hl (by decide), (min_le_right _ _).trans (by decide)⟩
  | hate p l =>
    have hl : 0 ≤ l := hlevel l rfl
    refine h.step_hint (f := fun x => { x with love := min l x.love }) rfl (fun x hx hx' => ?_)
      (fun _ => rfl) hexec
    exact ⟨le_min hl hx, (min_le_right _ _).trans hx'⟩

theorem of_reachable (hm : (LoveHateSystem n).Reachable m) : ∃ slots, Hinted n m slots := by
  refine hm.invariant (I := fun m => ∃ slots, Hinted n m slots) ?_ ?_
  · rintro _ ⟨clock, rfl⟩
    exact ⟨[], make clock⟩
  · rintro m i m' ⟨slots, h⟩ - hstep
    obtain ⟨slots', h', -⟩ := h.step hstep
    exact ⟨slots', h'⟩

end Hinted

/-! ## What a level buys -/

section levels

variable {n : ℕ} {m m' : MemoryManager Unit} {slots slots' : List PageRef} {p : ℤ}
  {i : HintCall × Option ℤ} {is : List (HintCall × Option ℤ)}

theorem evicted?_eq_none {o : Outcome ℤ} (ho : ∀ v, o ≠ .fault (some v)) :
    HintCall.evicted? o = none := by
  match o with
  | .hit => rfl
  | .fault none => rfl
  | .fault (some v) => exact absurd rfl (ho v)

theorem page_of_hinted {call : HintCall} (h : p ∈ call.hinted?) : call.page = p := by
  cases call with
  | access => cases h
  | love => exact Option.some.inj h
  | lovePin => exact Option.some.inj h
  | hate => exact Option.some.inj h

/-- The least recently used page is evicted, or stays so, and each eviction takes a level from it. -/
theorem Hinted.ages (h : Hinted n m slots) (hd : StepDoes n m m' slots slots' i) (hp : p ∈ slots)
    (hold : Oldest m.heap.time slots p) (hlt : (m.heap.page p).love < pinLevel) (hne : i.1.page ≠ p) :
    i.2 = some p ∨ p ∈ slots' ∧ Oldest m'.heap.time slots' p ∧
      (i.2 = none ∧ (m'.heap.page p).love = (m.heap.page p).love ∨
        ∃ v, i.2 = some v ∧ (m'.heap.page p).love = (m.heap.page p).love - 1) := by
  cases hd with
  | hint hslots htime hpage =>
    subst hslots
    refine .inr ⟨hp, fun q hq => ?_, .inl ⟨rfl, ?_⟩⟩
    · rw [htime, htime]
      exact hold q hq
    · rw [hpage p fun hhint => hne (page_of_hinted hhint)]
  | @access a o hserves htakes =>
    have hpa : p ≠ a := fun hpa => hne hpa.symm
    have hstays : o ≠ .fault (some p) → p ∈ slots' := fun ho => (hserves.mem_iff p).2 (.inr ⟨hp, ho⟩)
    have hold' : p ∈ slots' → Oldest m'.heap.time slots' p := fun hp' q hq => by
      rw [hserves.stamp_eq p hp hp' hpa]
      by_cases hqa : q = a
      · rw [hqa]
        exact (hserves.stamp_lt p hp hpa).le
      · have hqs := (((hserves.mem_iff q).1 hq).resolve_left hqa).1
        rw [hserves.stamp_eq q hqs hq hqa]
        exact hold q hqs
    by_cases hev : ∃ v, o = .fault (some v)
    · obtain ⟨v, rfl⟩ := hev
      by_cases hvp : v = p
      · exact .inl (congrArg some hvp)
      · have hp' := hstays fun heq => hvp (by simpa using heq)
        obtain ⟨hv, hleast, u, hu, holdu, -, htakes', -⟩ := htakes.evicts v rfl
        obtain rfl : u = p := h.time_inj u hu p hp (le_antisymm (holdu p hp) (hold u hu))
        have hlt' : m.heap.time u < m.heap.time v := (hold v hv).lt_of_ne fun heq =>
          hvp (h.time_inj u hu v hv heq).symm
        exact .inr ⟨hp', hold' hp', .inr ⟨v, rfl, htakes' ⟨hlt.ne, hlt'⟩⟩⟩
    · have hev' := not_exists.1 hev
      have hp' := hstays (hev' p)
      exact .inr ⟨hp', hold' hp', .inl ⟨evicted?_eq_none hev', htakes.keeps hev' p⟩⟩

/-- The least recently used page is evicted after as many evictions as it has levels, and one more. -/
theorem Hinted.evicted_within (h : Hinted n m slots) (hp : p ∈ slots)
    (hold : Oldest m.heap.time slots p) (hlt : (m.heap.page p).love < pinLevel)
    (hrun : (LoveHateSystem n).RunBy (fun _ i => i.1.page ≠ p) m is m') {L : ℕ}
    (hL : (m.heap.page p).love = L) (hlen : L < (evictions is).length) :
    p ∈ (evictions is).take (L + 1) := by
  induction hrun generalizing slots L with
  | nil => exact absurd hlen (Nat.not_lt_zero L)
  | @cons m m₁ m' i is hne hstep hrest ih =>
    obtain ⟨slots', h', hd⟩ := h.step hstep
    rcases h.ages hd hp hold hlt hne with hev | ⟨hp', hold', ⟨hev, hlove⟩ | ⟨v, hev, hlove⟩⟩
    · rw [evictions, List.filterMap_cons_some hev, List.take_succ_cons]
      exact List.mem_cons_self
    · rw [evictions, List.filterMap_cons_none hev] at hlen ⊢
      exact ih h' hp' hold' (hlove ▸ hlt) (hlove.trans hL) hlen
    · -- A level is left, since the levels of love are not negative.
      have hnonneg := h'.love_nonneg p
      obtain ⟨k, rfl⟩ : ∃ k, L = k + 1 := ⟨L - 1, by omega⟩
      rw [evictions, List.filterMap_cons_some hev, List.take_succ_cons]
      rw [evictions, List.filterMap_cons_some hev, List.length_cons] at hlen
      exact List.mem_cons_of_mem _ (ih h' hp' hold' (by omega) (by omega) (Nat.lt_of_succ_lt_succ hlen))

/-- A page of the highest level keeps it, and is evicted only if all other pages have it. -/
theorem StepDoes.pinned (hd : StepDoes n m m' slots slots' i)
    (hlove : (m.heap.page p).love = pinLevel) :
    (p ∉ i.1.hinted? → (m'.heap.page p).love = pinLevel) ∧
      (i.2 = some p → ∀ q ∈ slots, pinLevel ≤ (m.heap.page q).love) := by
  cases hd with
  | hint hslots htime hpage => exact ⟨fun hp => by rw [hpage p hp, hlove], fun hev => by cases hev⟩
  | @access a o hserves htakes =>
    by_cases hev : ∃ v, o = .fault (some v)
    · obtain ⟨v, rfl⟩ := hev
      obtain ⟨hv, hleast, u, hu, hold, hother, -, hkeeps⟩ := htakes.evicts v rfl
      refine ⟨fun _ => ?_, fun hvp q hq => ?_⟩
      · by_cases hpu : p = u
        · rw [hpu] at hlove ⊢
          rw [hkeeps fun hc => hc.1 hlove, hlove]
        · rw [hother p hpu, hlove]
      · obtain rfl : v = p := Option.some.inj hvp
        have := hleast q hq
        omega
    · have hev' := not_exists.1 hev
      refine ⟨fun _ => by rw [htakes.keeps hev', hlove], fun hvp => ?_⟩
      rw [show (HintCall.access a, HintCall.evicted? o).2 = none from evicted?_eq_none hev'] at hvp
      cases hvp

/-- What a level of love buys, in every run: the levels are in range; the least recently used page is
    evicted within as many evictions as it has levels, and one more, unless it is accessed, loved or
    hated; and a page of the highest level keeps it unless it is loved or hated, and is not evicted as
    long as a page in memory has a lower one. -/
theorem love_levels {n : ℕ} {m : MemoryManager Unit} (hm : (LoveHateSystem n).Reachable m) :
    (∀ p, 0 ≤ (m.heap.page p).love ∧ (m.heap.page p).love ≤ 255) ∧
    (∀ p is m', m.Resident p → (∀ q, m.Resident q → m.heap.time p ≤ m.heap.time q) →
      (m.heap.page p).love < 255 → (LoveHateSystem n).RunBy (fun _ i => i.1.page ≠ p) m is m' →
      (m.heap.page p).love + 1 ≤ (evictions is).length →
      p ∈ (evictions is).take ((m.heap.page p).love + 1).toNat) ∧
    ∀ p is m', (m.heap.page p).love = 255 →
      (LoveHateSystem n).RunBy (fun _ i => p ∉ i.1.hinted?) m is m' →
      (m'.heap.page p).love = 255 ∧ ∀ i m'', (LoveHateSystem n).step m' i m'' → i.2 = some p →
        ∀ q, m'.Resident q → 255 ≤ (m'.heap.page q).love := by
  obtain ⟨slots, h⟩ := Hinted.of_reachable hm
  refine ⟨fun p => ⟨h.love_nonneg p, h.love_le p⟩, fun p is m' hp hold hlt hrun hlen => ?_,
    fun p is m' hlove hrun => ?_⟩
  · obtain ⟨L, hL⟩ := Int.eq_ofNat_of_zero_le (h.love_nonneg p)
    have hold' : Oldest m.heap.time slots p := fun q hq => hold q (h.resident_iff.2 hq)
    rw [hL] at hlen ⊢
    exact h.evicted_within (h.resident_iff.1 hp) hold' hlt hrun hL (by omega)
  · have hpinned : ∃ slots', Hinted n m' slots' ∧ (m'.heap.page p).love = pinLevel := by
      refine hrun.invariant (I := fun m => ∃ slots, Hinted n m slots ∧ (m.heap.page p).love = pinLevel)
        ?_ ⟨slots, h, hlove⟩
      rintro m₁ i m₂ ⟨slots₁, h₁, hlove₁⟩ hp hstep
      obtain ⟨slots₂, h₂, hd⟩ := h₁.step hstep
      exact ⟨slots₂, h₂, (hd.pinned hlove₁).1 hp⟩
    obtain ⟨slots', h', hlove'⟩ := hpinned
    refine ⟨hlove', fun i m'' hstep hev q hq => ?_⟩
    obtain ⟨_, _, hd⟩ := h'.step hstep
    exact (hd.pinned hlove').2 hev q (h'.resident_iff.1 hq)

/-- Two pages in memory, one of which is loved. -/
theorem love_levels_two : ∃ m, (LoveHateSystem 2).Reachable m ∧ m.Resident 1 ∧ m.Resident 2 ∧
    (m.heap.page 1).love = 1 ∧
    (∀ p, 0 ≤ (m.heap.page p).love ∧ (m.heap.page p).love ≤ 255) ∧
    (∀ p is m', m.Resident p → (∀ q, m.Resident q → m.heap.time p ≤ m.heap.time q) →
      (m.heap.page p).love < 255 → (LoveHateSystem 2).RunBy (fun _ i => i.1.page ≠ p) m is m' →
      (m.heap.page p).love + 1 ≤ (evictions is).length →
      p ∈ (evictions is).take ((m.heap.page p).love + 1).toNat) ∧
    ∀ p is m', (m.heap.page p).love = 255 →
      (LoveHateSystem 2).RunBy (fun _ i => p ∉ i.1.hinted?) m is m' →
      (m'.heap.page p).love = 255 ∧ ∀ i m'', (LoveHateSystem 2).step m' i m'' → i.2 = some p →
        ∀ q, m'.Resident q → 255 ≤ (m'.heap.page q).love := by
  have hnone : ∀ l ∈ (none : Option ℤ), 0 ≤ l := fun l hl => absurd hl (Option.not_mem_none l)
  have hone : ∀ l ∈ some (1 : ℤ), 0 ≤ l := fun l hl => Option.mem_some_iff.1 hl ▸ (by decide)
  have hm : ∃ m, (LoveHateSystem 2).Reachable m ∧ m.Resident 1 ∧ m.Resident 2 ∧
      (m.heap.page 1).love = 1 :=
    ⟨_, .step (i := (.love 1 1, none)) (.step (i := (.access 2, none)) (.step (i := (.access 1, none))
      (.init ⟨{}, rfl⟩) trivial ⟨hnone, rfl⟩) trivial ⟨hnone, rfl⟩) trivial ⟨hone, rfl⟩, rfl, rfl, rfl⟩
  obtain ⟨m, hm, h₁, h₂, hlove⟩ := hm
  exact ⟨m, hm, h₁, h₂, hlove, love_levels hm⟩

end levels

end Mcpq.Simulator
