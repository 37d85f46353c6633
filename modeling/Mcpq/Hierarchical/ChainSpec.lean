import Mcpq.Hierarchical.MemoryChain

/-!
# What the methods of memory chains do

A chain *holds* a list of pages (`Holds`) when the list is threaded through its head, its tail and
the links of the pages. For each method, the list the chain holds afterwards, and what becomes of
the heap and of the fields of the chain:

* `unlink_spec`, `link_spec`, `unchain_spec` for the methods that change the list;
* `iterate_spec`, and `scanned` for the loops that read it from both ends (`scan_best`).

A method only writes the pages of its list and the page it is about, and of the former only their
links.
-/

namespace Mcpq.Hierarchical

/-- The chain `c` holds the pages `l`. -/
structure Holds (c : MemoryChain) (h : Heap) (l : List PageRef) : Prop where
  list : DList h.next h.prev c.head c.tail l
  size : c.size = l.length
  anchor : ∀ a, c.anchor = some a → a ∈ l

/-- From `h` to `h'`, only the pages `l` and the page `p` are written, and of the former only
    their links. -/
structure Writes (h h' : Heap) (l : List PageRef) (p : PageRef) : Prop where
  page_eq : ∀ q, q ∉ l → q ≠ p → h'.page q = h.page q
  detach_eq : ∀ q, q ≠ p → (h'.page q).detach = (h.page q).detach
  fresh_eq : h'.fresh = h.fresh
  clock_eq : h'.clock = h.clock
  draws_eq : h'.draws = h.draws

namespace Holds

variable {c : MemoryChain} {h h' : Heap} {l : List PageRef}

/-- The list is read off the fields of its own pages only. -/
theorem congr (hc : Holds c h l) (heq : ∀ q ∈ l, h'.page q = h.page q) : Holds c h' l :=
  ⟨hc.list.congr (fun q hq => congrArg Page.next (heq q hq))
    (fun q hq => congrArg Page.prev (heq q hq)), hc.size, hc.anchor⟩

/-- A chain has at most as many pages as there are. -/
theorem length_le (hc : Holds c h l) (hfresh : ∀ q ∈ l, q < h.fresh) : l.length ≤ h.fresh := by
  have hsub : l ⊆ List.range h.fresh := fun q hq => List.mem_range.2 (hfresh q hq)
  have hle := (hc.list.nodup.subperm hsub).length_le
  rwa [List.length_range] at hle

/-- The size tells whether there is a page. -/
theorem size_pos_iff (hc : Holds c h l) : 0 < c.size ↔ l ≠ [] := by
  rw [hc.size, Int.natCast_pos, List.length_pos_iff]

end Holds

namespace MemoryChain

variable {c : MemoryChain} {h : Heap} {l : List PageRef} {p : PageRef}

/-! ## Unlinking -/

section bypass

variable (c h p)

/-- What is read again after the successor of the page is written to its predecessor is what it
    was. -/
theorem bypass_eq : c.bypass h p =
    match h.prev p, h.next p with
    | none, none => (h, { c with head := none })
    | none, some n => (h.setPrev n none, { c with head := some n })
    | some m, none => (h.setNext m none, { c with tail := some m })
    | some m, some n => ((h.setNext m (some n)).setPrev n (some m), c) := by
  have hself : ∀ m, (h.setNext m (h.next p)).next p = h.next p := fun m => by
    rw [Heap.setNext_next]
    split_ifs <;> rfl
  unfold bypass
  cases hp : h.prev p with
  | none => cases h.next p <;> rfl
  | some m =>
    simp only [hself, Heap.setNext_prev, hp]
    cases h.next p <;> rfl

/-- The page before the one that is taken out points to the page after it. -/
theorem bypass_next (q : PageRef) :
    (c.bypass h p).1.next q = if h.prev p = some q then h.next p else h.next q := by
  rw [bypass_eq]
  cases h.prev p <;> cases h.next p <;> simp [eq_comm]

/-- The page after the one that is taken out points back to the page before it. -/
theorem bypass_prev (q : PageRef) :
    (c.bypass h p).1.prev q = if h.next p = some q then h.prev p else h.prev q := by
  rw [bypass_eq]
  cases h.prev p <;> cases h.next p <;> simp [eq_comm]

/-- Nothing but the two pointers of a page changes. -/
theorem bypass_detach (q : PageRef) :
    ((c.bypass h p).1.page q).detach = (h.page q).detach := by
  rw [bypass_eq]
  cases h.prev p <;> cases h.next p <;> simp

/-- Only the neighbours of the page are written. -/
theorem bypass_page {q : PageRef} (hp : h.prev p ≠ some q) (hn : h.next p ≠ some q) :
    (c.bypass h p).1.page q = h.page q :=
  Heap.page_eq (bypass_detach c h p q) (by rw [bypass_next, if_neg hp])
    (by rw [bypass_prev, if_neg hn])

/-- The rest of the heap is unchanged. -/
theorem bypass_fields :
    (c.bypass h p).1.fresh = h.fresh ∧ (c.bypass h p).1.clock = h.clock ∧
      (c.bypass h p).1.draws = h.draws ∧ (c.bypass h p).1.links = h.links := by
  rw [bypass_eq]
  cases h.prev p <;> cases h.next p <;> exact ⟨rfl, rfl, rfl, rfl⟩

/-- The chain afterwards: its tail is kept up to date unless the page is alone. -/
theorem bypass_chain :
    ∃ head tail, (c.bypass h p).2 = { c with head, tail } ∧
      head = (if h.prev p = none then h.next p else c.head) ∧
      (h.prev p ≠ none ∨ h.next p ≠ none →
        tail = if h.next p = none then h.prev p else c.tail) := by
  rw [bypass_eq]
  cases h.prev p with
  | none =>
    cases h.next p with
    | none => exact ⟨none, c.tail, rfl, rfl, by simp⟩
    | some n => exact ⟨some n, c.tail, rfl, rfl, by simp⟩
  | some m =>
    cases h.next p with
    | none => exact ⟨c.head, some m, rfl, by simp, by simp⟩
    | some n => exact ⟨c.head, c.tail, rfl, by simp, by simp⟩

end bypass

theorem unlink_spec (hc : Holds c h l) (hp : p ∈ l) (hr : (h.page p).resides ≠ -1) :
    ∃ h' head tail, c.unlink h (some p) = (h', { c with
        head, tail
        size := c.size - 1
        anchor := if c.anchor = some p then none else c.anchor
        representative := if c.representative = some p then none else c.representative }) ∧
      Holds (c.unlink h (some p)).2 h' (l.erase p) ∧ Writes h h' l p ∧ h'.links = h.links ∧
      h'.page p = { h.page p with next := none, prev := none, resides := -1 } := by
  obtain ⟨head, tail, hchain, hhead, htail⟩ := bypass_chain c h p
  obtain ⟨hf₁, hf₂, hf₃, hf₄⟩ := bypass_fields c h p
  have heq : c.unlink h (some p) = (reset (c.bypass h p).1 p, { c with
      head, tail
      size := c.size - 1
      anchor := if c.anchor = some p then none else c.anchor
      representative := if c.representative = some p then none else c.representative }) := by
    simp only [unlink, if_neg hr, hchain]
    by_cases ha : c.anchor = some p <;> by_cases hrep : c.representative = some p <;>
      simp [ha, hrep]
  obtain ⟨l₁, l₂, hl⟩ := List.append_of_mem hp
  have hnp := hc.list.next_eq hl
  have hpp := hc.list.prev_eq hl
  -- The neighbours of the page, which are the other pages written, are on the list.
  have hmem₁ : ∀ q, h.prev p = some q → q ∈ l := fun q hq => by
    rw [hpp] at hq
    exact hl ▸ List.mem_append_left _ (List.mem_of_getLast? hq)
  have hmem₂ : ∀ q, h.next p = some q → q ∈ l := fun q hq => by
    rw [hnp] at hq
    exact hl ▸ List.mem_append_right _ (List.mem_cons_of_mem _ (List.mem_of_head? hq))
  have hreset : ∀ q, q ≠ p → (reset (c.bypass h p).1 p).page q = (c.bypass h p).1.page q :=
    fun q hq => Heap.modify_page_of_ne _ _ hq
  refine ⟨reset (c.bypass h p).1 p, head, tail, heq, ?_, ?_, hf₄, ?_⟩
  · rw [heq]
    refine ⟨hc.list.erase hp (fun q _ hq => ?_) (fun q _ hq => ?_) hhead fun hne => ?_, ?_, ?_⟩
    · rw [Heap.next, hreset q hq]
      exact bypass_next c h p q
    · rw [Heap.prev, hreset q hq]
      exact bypass_prev c h p q
    · -- The list has another page: the page has a neighbour, and the tail is kept up to date.
      refine htail ?_
      rw [hpp, hnp]
      by_contra hnn
      push Not at hnn
      rw [List.getLast?_eq_none_iff] at hnn
      rw [List.head?_eq_none_iff] at hnn
      rw [hl, hnn.1, hnn.2] at hne
      simp at hne
    · simp only [hc.size, List.length_erase_of_mem hp]
      have := List.length_pos_of_mem hp
      omega
    · -- The anchor is another page of the list: the page is no anchor any more.
      intro a ha
      simp only at ha
      split_ifs at ha with hap
      have hne : a ≠ p := by rintro rfl; exact hap ha
      exact (List.mem_erase_of_ne hne).2 (hc.anchor a ha)
  · refine ⟨fun q hq hqp => ?_, fun q hqp => ?_, hf₁, hf₂, hf₃⟩
    · rw [hreset q hqp]
      exact bypass_page c h p (fun h' => hq (hmem₁ q h')) fun h' => hq (hmem₂ q h')
    · rw [hreset q hqp, bypass_detach]
  · rw [reset, Heap.modify_page_self]
    exact congrArg (fun q : Page => { q with resides := -1 }) (bypass_detach c h p p)

/-! ## Linking -/

section push

variable (c h p)

/-- The page that is put in front points to the old head. -/
theorem push_next (hn : h.next p = none) (q : PageRef) :
    (c.push h p).1.next q = if q = p then c.head else h.next q := by
  unfold push
  cases c.head with
  | none =>
    rw [Heap.setResides_next]
    split_ifs with hq
    · rw [hq, hn]
    · rfl
  | some head => rw [Heap.setResides_next, Heap.setNext_next, Heap.setPrev_next]

/-- The old head points back to the page that is put in front. -/
theorem push_prev (q : PageRef) :
    (c.push h p).1.prev q = if c.head = some q then some p else h.prev q := by
  unfold push
  cases c.head with
  | none => rw [Heap.setResides_prev, if_neg (by simp)]
  | some head =>
    rw [Heap.setResides_prev, Heap.setNext_prev, Heap.setPrev_prev]
    simp [eq_comm]

/-- Nothing but the two pointers of the other pages changes. -/
theorem push_detach {q : PageRef} (hq : q ≠ p) :
    ((c.push h p).1.page q).detach = (h.page q).detach := by
  unfold push
  cases c.head <;> simp [Heap.setResides_page_of_ne _ hq]

/-- The page that is put in front is on the chain from now on. -/
theorem push_detach_self : ((c.push h p).1.page p).detach =
    { (h.page p).detach with resides := c.id, linkedAt := h.links } := by
  unfold push
  cases c.head with
  | none =>
    rw [Heap.setResides_page_self]
    rfl
  | some head =>
    have hd : (((h.setPrev head (some p)).setNext p (some head)).page p).detach =
        (h.page p).detach := by simp
    rw [Heap.setResides_page_self, ← hd]
    rfl

/-- The links are counted, and the rest of the heap is unchanged. -/
theorem push_fields : (c.push h p).1.fresh = h.fresh ∧ (c.push h p).1.clock = h.clock ∧
    (c.push h p).1.draws = h.draws ∧ (c.push h p).1.links = h.links + 1 := by
  unfold push
  cases c.head <;> exact ⟨rfl, rfl, rfl, rfl⟩

theorem push_chain : (c.push h p).2 = { c with
    head := some p
    tail := if c.head = none then some p else c.tail
    timestamp := if (h.page p).timestamp > c.timestamp then (h.page p).timestamp else c.timestamp
    representative := if (h.page p).timestamp > c.timestamp then some p
      else c.representative } := by
  have hd := push_detach_self c h p
  have ht : ((c.push h p).1.page p).timestamp = (h.page p).timestamp :=
    (congrArg Page.timestamp hd :)
  have hr : ((c.push h p).1.page p).resides = c.id := (congrArg Page.resides hd :)
  have heq : (c.push h p).2 = setRepresentative
      { c with head := some p, tail := if c.head = none then some p else c.tail }
      (c.push h p).1 p := by
    unfold push
    cases c.head <;> rfl
  rw [heq, setRepresentative, ht, hr]
  by_cases hlt : (h.page p).timestamp > c.timestamp <;> simp [hlt]

end push

/-- A method `link` that does link the page: it pushes it at the head. -/
theorem link_spec (hb : c.bounded = false) (hc : Holds c h l) (hp : p ∉ l)
    (hr : (h.page p).resides ≠ c.id) (hn : h.next p = none) (hpv : h.prev p = none) :
    ∃ h' head tail, c.link h p = .ok (none, h', { c with
        head, tail
        size := c.size + 1
        timestamp := if (h.page p).timestamp > c.timestamp then (h.page p).timestamp
          else c.timestamp
        representative := if (h.page p).timestamp > c.timestamp then some p
          else c.representative }) ∧
      Holds { c with head, tail, size := c.size + 1 } h' (p :: l) ∧ Writes h h' l p ∧
      h'.links = h.links + 1 ∧
      (h'.page p).detach = { (h.page p).detach with resides := c.id, linkedAt := h.links } := by
  obtain ⟨hf₁, hf₂, hf₃, hf₄⟩ := push_fields { c with size := c.size + 1 } h p
  have hchain := push_chain { c with size := c.size + 1 } h p
  have hhead : ∀ q, c.head = some q → q ∈ l := fun q hq => by
    rw [hc.list.head_eq] at hq
    exact List.mem_of_head? hq
  refine ⟨(push { c with size := c.size + 1 } h p).1, some p,
    if c.head = none then some p else c.tail, ?_, ?_, ?_, hf₄, push_detach_self _ h p⟩
  · rw [link, if_neg hr, if_neg (by simp [hb])]
    exact congrArg (fun c' => Except.ok (none, _, c')) hchain
  · refine ⟨hc.list.cons hp ?_ ?_ (fun q hq => ?_) (fun q hq => ?_), ?_, fun a ha => ?_⟩
    · rw [push_next _ h p hn, if_pos rfl]
    · rw [push_prev, if_neg (fun h' => hp (hhead p h')), hpv]
    · rw [push_next _ h p hn, if_neg]
      rintro rfl
      exact hp hq
    · rw [push_prev]
    · simp [hc.size]
    · exact List.mem_cons_of_mem _ (hc.anchor a ha)
  · refine ⟨fun q hq hqp => ?_, fun q hqp => push_detach _ h p hqp, hf₁, hf₂, hf₃⟩
    refine Heap.page_eq (push_detach _ h p hqp) ?_ ?_
    · rw [push_next _ h p hn, if_neg hqp]
    · rw [push_prev, if_neg fun h' => hq (hhead q h')]

/-- A page already on the chain is not linked again. -/
theorem link_of_resides (hr : (h.page p).resides = c.id) : c.link h p = .ok (none, h, c) :=
  if_pos hr

/-! ## Removing all the pages -/

theorem reset_page (q : PageRef) : (reset h p).page q =
    if q = p then { h.page p with prev := none, next := none, resides := -1 } else h.page q :=
  h.modify_page p q _

/-- What `unchain` leaves of a page. -/
theorem foldl_reset_page (l : List PageRef) (h : Heap) (q : PageRef) :
    (l.foldl reset h).page q =
      if q ∈ l then { h.page q with prev := none, next := none, resides := -1 } else h.page q := by
  induction l generalizing h with
  | nil => simp
  | cons a l ih =>
    rw [List.foldl_cons, ih, reset_page]
    by_cases hqa : q = a
    · by_cases hql : q ∈ l <;> simp [hqa]
    · by_cases hql : q ∈ l <;> simp [hqa, hql]

/-- The rest of the heap is unchanged. -/
theorem foldl_reset_fields (l : List PageRef) (h : Heap) :
    (l.foldl reset h).fresh = h.fresh ∧ (l.foldl reset h).clock = h.clock ∧
      (l.foldl reset h).draws = h.draws ∧ (l.foldl reset h).links = h.links := by
  induction l generalizing h with
  | nil => exact ⟨rfl, rfl, rfl, rfl⟩
  | cons a l ih => exact ih (reset h a)

/-- The walk of `unchain` ends, and returns the pages in the order of the chain. -/
theorem unchainFrom_eq {pr : Option PageRef} (hs : Segment h.next h.prev pr l none)
    (hnd : l.Nodup) :
    unchainFrom l.length h l.head? = .ok (l.foldl reset h, l.map some) := by
  induction l generalizing h pr with
  | nil => rfl
  | cons a l ih =>
    obtain ⟨_, hnext, hs⟩ := hs
    obtain ⟨ha, hnd⟩ := List.nodup_cons.1 hnd
    -- The page removed is not met again.
    have hpage : ∀ b ∈ l, (reset h a).page b = h.page b := fun b hb => by
      rw [reset_page, if_neg]
      rintro rfl
      exact ha hb
    have hs' : Segment (reset h a).next (reset h a).prev (some a) l none :=
      hs.congr (fun b hb => congrArg Page.next (hpage b hb))
        fun b hb => congrArg Page.prev (hpage b hb)
    rw [Option.or_none] at hnext
    simp only [List.length_cons, List.head?_cons, unchainFrom, hnext, ih hs' hnd, ok_bind,
      pure_eq_ok, List.foldl_cons, List.map_cons]

/-- `unchain` empties the chain, and returns all of its pages. -/
theorem unchain_spec (hc : Holds c h l) :
    c.unchain h = .ok (l.map some, l.foldl reset h,
      { c with head := none, tail := none, anchor := none, size := 0 }) := by
  have hsize : ¬c.size < 0 := by
    have := hc.size
    omega
  have hlen : c.size.toNat = l.length := by
    rw [hc.size]
    exact Int.toNat_natCast _
  rw [unchain, if_neg hsize, hlen, hc.list.head_eq, unchainFrom_eq hc.list.segment hc.list.nodup]
  rfl

/-- The emptied chain is well formed. -/
theorem holds_unchained (c : MemoryChain) (h : Heap) :
    Holds { c with head := none, tail := none, anchor := none, size := 0 } h [] :=
  ⟨.nil rfl, rfl, fun _ ha => absurd ha (by simp)⟩

/-! ## Reading -/

/-- The iterator visits the pages in the order of the chain. -/
theorem iterate_spec (hc : Holds c h l) (hl : l.length ≤ h.fresh) : c.iterate h = .ok l :=
  hc.list.walk_eq hl

/-- The pages but the anchor. -/
def others (c : MemoryChain) (l : List PageRef) : List PageRef :=
  l.filter fun p => some p ≠ c.anchor

/-- The pages that are not the anchor. -/
theorem mem_others : p ∈ c.others l ↔ p ∈ l ∧ c.anchor ≠ some p := by
  rw [others, List.mem_filter, decide_eq_true_eq, ne_comm]

/-- A scan from both ends of the chain finds the best of the pages that are eligible. -/
theorem scan_best {better le : ℕ → ℕ → Prop} [DecidableRel better] (ok : PageRef → Prop)
    [DecidablePred ok] (hc : Holds c h l) (hl : l.length ≤ h.fresh) (hb : Compares better le) {m : ℕ}
    (hm : ∀ q ∈ l, ok q → better (h.timestamp q) m) :
    ∃ b r, c.scan h (keepBest h.timestamp better ok) (m, none) = .ok (b, r) ∧
      Best h.timestamp le (l.filter ok) r ∧ b = r.elim m h.timestamp := by
  obtain ⟨v, hv, heq⟩ := hc.list.scanEnds_eq (keepBest h.timestamp better ok) hl (m, none)
  obtain ⟨b, r, hfold, hbest, hbr⟩ := best_foldl_keepBest ok hb fun q hq => hm q ((hv q).1 hq)
  refine ⟨b, r, heq.trans (congrArg Except.ok hfold), hbest.congr fun q => ?_, hbr⟩
  rw [List.mem_filter, List.mem_filter, hv]

/-- `victim` is the page of the least timestamp. -/
theorem victim_best (hc : Holds c h l) (hl : l.length ≤ h.fresh)
    (ht : ∀ q ∈ l, h.timestamp q ≤ h.clock.current) :
    ∃ r, c.victim h = .ok r ∧ Best h.timestamp (· ≤ ·) l r := by
  obtain ⟨b, r, heq, hbest, -⟩ := scan_best (fun _ => True) hc hl compares_lt
    fun q hq _ => Nat.lt_succ_of_le (ht q hq)
  rw [← keepLeast_eq] at heq
  simp only [decide_true, List.filter_true] at hbest
  refine ⟨r, ?_, hbest⟩
  rw [victim]
  exact congrArg (· >>= fun x : ℕ × Option PageRef => pure x.2) heq

/-- `leastRecentlyUsed` is the page of the least timestamp that is not the anchor. -/
theorem leastRecentlyUsed_best (hc : Holds c h l) (hl : l.length ≤ h.fresh)
    (ht : ∀ q ∈ l, h.timestamp q ≤ h.clock.current) :
    ∃ r, c.leastRecentlyUsed h = .ok r ∧ Best h.timestamp (· ≤ ·) (c.others l) r := by
  obtain ⟨b, r, heq, hbest, -⟩ := scan_best (fun p => some p ≠ c.anchor) hc hl compares_le
    fun q hq _ => (ht q hq).trans (Nat.le_succ _)
  refine ⟨r, ?_, hbest⟩
  rw [leastRecentlyUsed]
  exact congrArg (· >>= fun x : ℕ × Option PageRef => pure x.2) heq

/-- `mostRecentlyUsed` is the page of the greatest timestamp that is not the anchor. -/
theorem mostRecentlyUsed_best (hc : Holds c h l) (hl : l.length ≤ h.fresh) :
    ∃ r, c.mostRecentlyUsed h = .ok r ∧ Best h.timestamp (· ≥ ·) (c.others l) r := by
  obtain ⟨b, r, heq, hbest, -⟩ := scan_best (fun p => some p ≠ c.anchor) hc hl compares_ge
    fun q _ _ => Nat.zero_le (h.timestamp q)
  refine ⟨r, ?_, hbest⟩
  rw [mostRecentlyUsed]
  exact congrArg (· >>= fun x : ℕ × Option PageRef => pure x.2) heq

/-- The page to be selected from a chain that is not empty. -/
theorem victim_spec (hc : Holds c h l) (hl : l.length ≤ h.fresh) (hne : l ≠ [])
    (ht : ∀ q ∈ l, (h.page q).timestamp ≤ h.clock.current) :
    ∃ p ∈ l, c.victim h = .ok (some p) ∧
      ∀ q ∈ l, (h.page p).timestamp ≤ (h.page q).timestamp := by
  obtain ⟨r, heq, hnone, hbest⟩ := victim_best hc hl ht
  cases r with
  | none => exact absurd (hnone.1 rfl) hne
  | some p =>
    obtain ⟨hp, hle⟩ := hbest p rfl
    exact ⟨p, hp, heq, hle⟩

/-- A chain with a representative has the timestamp it has saved. -/
theorem getTimestamp_of_some {r : PageRef} (hr : c.representative = some r) :
    c.getTimestamp h = .ok (c.timestamp, c) := by
  rw [getTimestamp, hr]

/-- A timestamp computed again is the greatest of the timestamps of the members, or 0. -/
theorem getTimestamp_best (hc : Holds c h l) (hl : l.length ≤ h.fresh)
    (ht : ∀ q ∈ l, 0 < h.timestamp q) (hr : c.representative = none) :
    ∃ r, c.getTimestamp h = .ok (greatest h.timestamp l,
        { c with timestamp := greatest h.timestamp l, representative := r }) ∧
      Best h.timestamp (· ≥ ·) l r := by
  obtain ⟨b, r, heq, hbest, hbr⟩ := scan_best (fun _ => True) hc hl compares_gt
    fun q hq _ => ht q hq
  rw [← keepGreatest_eq] at heq
  simp only [decide_true, List.filter_true] at hbest
  have hb : b = greatest h.timestamp l := by
    rw [hbr]
    cases r with
    | none =>
      rw [hbest.1.1 rfl]
      rfl
    | some p =>
      obtain ⟨hp, hle⟩ := hbest.2 p rfl
      show h.timestamp p = greatest h.timestamp l
      exact le_antisymm (le_greatest hp) (greatest_le hle)
  refine ⟨r, ?_, hbest⟩
  rw [getTimestamp, hr, ← hb]
  exact congrArg (· >>= fun x => pure (x.1, { c with timestamp := x.1, representative := x.2 })) heq

/-- A chain without one takes the least timestamp of its pages. -/
theorem getTimestamp_of_none (hc : Holds c h l) (hl : l.length ≤ h.fresh) (hne : l ≠ [])
    (ht : ∀ q ∈ l, 0 < (h.page q).timestamp) (hr : c.representative = none) :
    ∃ p ∈ l, c.getTimestamp h = .ok ((h.page p).timestamp,
        { c with timestamp := (h.page p).timestamp, representative := some p }) ∧
      ∀ q ∈ l, (h.page q).timestamp ≤ (h.page p).timestamp := by
  obtain ⟨r, heq, hnone, hbest⟩ := getTimestamp_best hc hl ht hr
  cases r with
  | none => exact absurd (hnone.1 rfl) hne
  | some p =>
    obtain ⟨hp, hle⟩ := hbest p rfl
    have hgreatest : greatest h.timestamp l = h.timestamp p :=
      le_antisymm (greatest_le hle) (le_greatest hp)
    rw [hgreatest] at heq
    exact ⟨p, hp, heq, hle⟩

/-! ## The scans from both ends -/

/-- The scans end and miss no page: the page of least timestamp is found, or that of least or greatest
    timestamp but the anchor, and if there is no representative, the timestamp is computed again. -/
structure Scanned (c : MemoryChain) (h : Heap) (l : List PageRef) : Prop where
  victim : ∃ r, c.victim h = .ok r ∧ Best h.timestamp (· ≤ ·) l r
  lru : ∃ r, c.leastRecentlyUsed h = .ok r ∧ Best h.timestamp (· ≤ ·) (c.others l) r
  mru : ∃ r, c.mostRecentlyUsed h = .ok r ∧ Best h.timestamp (· ≥ ·) (c.others l) r
  timestamp : c.representative = none → ∃ r, c.getTimestamp h = .ok (greatest h.timestamp l,
      { c with timestamp := greatest h.timestamp l, representative := r }) ∧
    Best h.timestamp (· ≥ ·) l r

/-- The four scans of a chain find what their names say. -/
theorem scanned (hc : Holds c h l) (hfresh : ∀ q ∈ l, q < h.fresh)
    (ht : ∀ q ∈ l, 1 ≤ h.timestamp q ∧ h.timestamp q ≤ h.clock.current) : c.Scanned h l where
  victim := victim_best hc (hc.length_le hfresh) fun q hq => (ht q hq).2
  lru := leastRecentlyUsed_best hc (hc.length_le hfresh) fun q hq => (ht q hq).2
  mru := mostRecentlyUsed_best hc (hc.length_le hfresh)
  timestamp := getTimestamp_best hc (hc.length_le hfresh) fun q hq => (ht q hq).1

/-- The scans of a chain of three pages, the last of which is the anchor. -/
theorem scanned_three : Scanned
    { id := 3, size := 3, anchor := some 1, head := some 3, tail := some 1 }
    { page := fun r =>
        { resides := 3
          prev := if r < 3 then some (r + 1) else none
          next := if r > 1 then some (r - 1) else none
          timestamp := r }
      fresh := 4
      clock := ⟨3⟩ } [3, 2, 1] :=
  scanned ⟨⟨by decide, ⟨rfl, rfl, rfl, rfl, rfl, rfl, trivial⟩, rfl, fun _ => rfl⟩, rfl, by simp⟩
    (by decide) (by decide)

end MemoryChain

end Mcpq.Hierarchical
