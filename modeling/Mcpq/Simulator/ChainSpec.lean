import Mcpq.Simulator.Chain

/-!
# What the methods of chains do

A chain *holds* a list of pages (`Holds`) when the list is threaded through its head, its tail and
the links of the pages. For each method, the list the chain holds afterwards, and what becomes of the
pages and of the fields of the chain: `unlink_spec`, `unchain_spec`, `push_spec`, `evict_leaves`,
`evictLeast_spec` and `getTimestamp_spec`.
-/

namespace Mcpq.Simulator

/-- The chain `c` holds the pages `l`. -/
structure Holds (c : Chain) (h : Heap) (l : List PageRef) : Prop where
  list : DList h.next h.prev c.head c.tail l
  size : c.size = l.length
  anchor : ∀ a, c.anchor = some a → a ∈ l

/-- From `h` to `h'`, only the pages `l` and the page `p` are written, and of the former only
    their links. -/
structure Writes (h h' : Heap) (l : List PageRef) (p : PageRef) : Prop where
  page_eq : ∀ q, q ∉ l → q ≠ p → h'.page q = h.page q
  detach_eq : ∀ q, q ≠ p → (h'.page q).detach = (h.page q).detach
  disk_eq : h'.disk = h.disk
  clock_eq : h'.clock = h.clock

/-- The fields of a chain that do not depend on its pages. -/
def Chain.fixed (c : Chain) : ℤ × Bool × ℕ × ℕ := (c.capacity, c.anchored, c.timestamp, c.sample)

/-- The list is read off the pointers of its own pages only. -/
theorem Holds.congr {c : Chain} {h h' : Heap} {l : List PageRef} (hc : Holds c h l)
    (hn : ∀ q ∈ l, h'.next q = h.next q) (hp : ∀ q ∈ l, h'.prev q = h.prev q) : Holds c h' l :=
  ⟨hc.list.congr hn hp, hc.size, hc.anchor⟩

namespace Chain

variable {c : Chain} {h : Heap} {l : List PageRef} {p : PageRef}

/-! ## Unlinking -/

section bypass

variable (c h p)

/-- What is read again after the successor of the page is written to its predecessor is what it
    was. -/
theorem bypass_eq : c.bypass h p =
    match h.prev p, h.next p with
    | none, none => (h, { c with head := none })
    | none, some n => (h.setPrev n none, { c with head := some n })
    | some m, none => (h.setNext m none, { c with tail := some m })
    | some m, some n => ((h.setNext m (some n)).setPrev n (some m), c) := by
  have hself : ∀ m, (h.setNext m (h.next p)).next p = h.next p := fun m => by
    rw [Heap.setNext_next]
    split_ifs <;> rfl
  unfold bypass
  cases hp : h.prev p with
  | none => cases h.next p <;> rfl
  | some m =>
    simp only [hself, Heap.setNext_prev, hp]
    cases h.next p <;> rfl

/-- The page before the one that is taken out points to the page after it. -/
theorem bypass_next (q : PageRef) :
    (c.bypass h p).1.next q = if h.prev p = some q then h.next p else h.next q := by
  rw [bypass_eq]
  cases h.prev p <;> cases h.next p <;> simp [eq_comm]

/-- The page after the one that is taken out points back to the page before it. -/
theorem bypass_prev (q : PageRef) :
    (c.bypass h p).1.prev q = if h.next p = some q then h.prev p else h.prev q := by
  rw [bypass_eq]
  cases h.prev p <;> cases h.next p <;> simp [eq_comm]

/-- Nothing but the two pointers of a page changes. -/
theorem bypass_detach (q : PageRef) :
    ((c.bypass h p).1.page q).detach = (h.page q).detach := by
  rw [bypass_eq]
  cases h.prev p <;> cases h.next p <;> simp

/-- The rest of the heap is unchanged. -/
theorem bypass_fields :
    (c.bypass h p).1.disk = h.disk ∧ (c.bypass h p).1.clock = h.clock := by
  rw [bypass_eq]
  cases h.prev p <;> cases h.next p <;> exact ⟨rfl, rfl⟩

/-- The chain afterwards: its tail is kept up to date unless the page is alone. -/
theorem bypass_chain :
    ∃ head tail, (c.bypass h p).2 = { c with head, tail } ∧
      head = (if h.prev p = none then h.next p else c.head) ∧
      (h.prev p ≠ none ∨ h.next p ≠ none →
        tail = if h.next p = none then h.prev p else c.tail) := by
  rw [bypass_eq]
  cases h.prev p with
  | none =>
    cases h.next p with
    | none => exact ⟨none, c.tail, rfl, rfl, by simp⟩
    | some n => exact ⟨some n, c.tail, rfl, rfl, by simp⟩
  | some m =>
    cases h.next p with
    | none => exact ⟨c.head, some m, rfl, by simp, by simp⟩
    | some n => exact ⟨c.head, c.tail, rfl, by simp, by simp⟩

end bypass

/-- Only one page is written. -/
theorem removeLink_page_of_ne {q : PageRef} (hq : q ≠ p) :
    (removeLink h p).page q = h.page q := Heap.modify_page_of_ne _ _ hq

theorem unlink_spec (hc : Holds c h l) (hp : p ∈ l) (hr : (h.page p).link ≠ -1) :
    ∃ h' head tail, c.unlink h (some p) = (h', { c with
        head, tail
        size := c.size - 1
        anchor := if c.anchor = some p then none else c.anchor }) ∧
      Holds (c.unlink h (some p)).2 h' (l.erase p) ∧ Writes h h' l p ∧
      h'.page p = { h.page p with next := none, prev := none, link := -1 } := by
  obtain ⟨head, tail, hchain, hhead, htail⟩ := bypass_chain c h p
  obtain ⟨hf₁, hf₂⟩ := bypass_fields c h p
  have heq : c.unlink h (some p) = (removeLink (c.bypass h p).1 p, { c with
      head, tail
      size := c.size - 1
      anchor := if c.anchor = some p then none else c.anchor }) := by
    simp only [unlink, if_neg hr, hchain]
    split_ifs <;> rfl
  obtain ⟨l₁, l₂, hl⟩ := List.append_of_mem hp
  have hnp := hc.list.next_eq hl
  have hpp := hc.list.prev_eq hl
  -- The neighbours of the page, which are the other pages written, are on the list.
  have hne₁ : ∀ q, q ∉ l → h.prev p ≠ some q := fun q hq hpq => by
    rw [hpp] at hpq
    exact hq (hl ▸ List.mem_append_left _ (List.mem_of_getLast? hpq))
  have hne₂ : ∀ q, q ∉ l → h.next p ≠ some q := fun q hq hnq => by
    rw [hnp] at hnq
    exact hq (hl ▸ List.mem_append_right _ (List.mem_cons_of_mem _ (List.mem_of_head? hnq)))
  have hother : ∀ q, q ≠ p →
      (removeLink (c.bypass h p).1 p).page q = (c.bypass h p).1.page q := fun q hq =>
    removeLink_page_of_ne hq
  refine ⟨removeLink (c.bypass h p).1 p, head, tail, heq, ?_, ?_, ?_⟩
  · rw [heq]
    refine ⟨hc.list.erase hp (fun q _ hq => ?_) (fun q _ hq => ?_) hhead fun hne => ?_, ?_, ?_⟩
    · rw [Heap.next, hother q hq]
      exact bypass_next c h p q
    · rw [Heap.prev, hother q hq]
      exact bypass_prev c h p q
    · -- The list has another page: the page has a neighbour, and the tail is kept up to date.
      refine htail ?_
      rw [hpp, hnp]
      by_contra hnn
      push Not at hnn
      rw [List.getLast?_eq_none_iff, List.head?_eq_none_iff] at hnn
      rw [hl, hnn.1, hnn.2] at hne
      simp at hne
    · simp only [hc.size, List.length_erase_of_mem hp]
      have := List.length_pos_of_mem hp
      omega
    · -- The anchor is another page of the list: the page is no anchor any more.
      intro a ha
      simp only at ha
      split_ifs at ha with hap
      have hne : a ≠ p := by rintro rfl; exact hap ha
      exact (List.mem_erase_of_ne hne).2 (hc.anchor a ha)
  · refine ⟨fun q hq hqp => ?_, fun q hqp => ?_, hf₁, hf₂⟩
    · rw [hother q hqp]
      refine Heap.page_eq (bypass_detach c h p q) ?_ ?_
      · rw [bypass_next, if_neg (hne₁ q hq)]
      · rw [bypass_prev, if_neg (hne₂ q hq)]
    · rw [hother q hqp, bypass_detach]
  · rw [removeLink, Heap.modify_page_self]
    exact congrArg (fun q : MemoryPage => { q with link := -1 }) (bypass_detach c h p p)

/-- The loop of `unchain` removes the links of the pages. -/
theorem unchainFrom_spec {l : List PageRef} {q : Option PageRef} {h : Heap}
    (hl : Segment h.next h.prev q l none) (hnd : l.Nodup) {n : ℕ} (hn : l.length ≤ n) :
    ∃ h', unchainFrom n h l.head? = .ok h' ∧
      (∀ p ∈ l, h'.page p = { h.page p with prev := none, next := none, link := -1 }) ∧
      (∀ p, p ∉ l → h'.page p = h.page p) ∧ h'.disk = h.disk ∧ h'.clock = h.clock := by
  induction l generalizing q h n with
  | nil =>
    refine ⟨h, ?_, by simp, by simp, rfl, rfl⟩
    cases n <;> rfl
  | cons a l ih =>
    obtain ⟨-, hnext, hseg⟩ := hl
    obtain ⟨ha, hnd⟩ := List.nodup_cons.1 hnd
    obtain ⟨n, rfl⟩ : ∃ k, n = k + 1 := ⟨n - 1, by rw [List.length_cons] at hn; omega⟩
    have hother : ∀ p ∈ l, (removeLink h a).page p = h.page p := fun p hp =>
      removeLink_page_of_ne fun hpa => ha (hpa ▸ hp)
    obtain ⟨h', heq, hin, hout, hdisk, hclock⟩ := ih
      (hseg.congr (fun p hp => congrArg MemoryPage.next (hother p hp))
        fun p hp => congrArg MemoryPage.prev (hother p hp)) hnd (Nat.le_of_succ_le_succ hn)
    refine ⟨h', ?_, fun p hp => ?_, fun p hp => ?_, hdisk, hclock⟩
    · rw [List.head?_cons, unchainFrom, hnext, Option.or_none]
      exact heq
    · rcases List.mem_cons.1 hp with rfl | hp
      · rw [hout p ha, removeLink, Heap.modify_page_self]
      · rw [hin p hp, hother p hp]
    · rw [List.mem_cons, not_or] at hp
      rw [hout p hp.2, removeLink_page_of_ne hp.1]

/-- All the pages are removed from the chain. -/
theorem unchain_spec (hc : Holds c h l) (hl : l.length ≤ h.disk.length) :
    ∃ h', c.unchain h = .ok (h', { c with head := none, tail := none, anchor := none, size := 0 }) ∧
      (∀ p ∈ l, h'.page p = { h.page p with prev := none, next := none, link := -1 }) ∧
      (∀ p, p ∉ l → h'.page p = h.page p) ∧ h'.disk = h.disk ∧ h'.clock = h.clock := by
  obtain ⟨h', heq, hspec⟩ := unchainFrom_spec hc.list.segment hc.list.nodup (Nat.le_succ_of_le hl)
  refine ⟨h', ?_, hspec⟩
  rw [unchain, hc.list.head_eq, heq]
  rfl

/-! ## Adding -/

section push

variable (c h p)

/-- The page that is put in front points to the old head. -/
theorem push_next (hn : h.next p = none) (q : PageRef) :
    (c.push h p).1.next q = if q = p then c.head else h.next q := by
  unfold push
  cases c.head with
  | none =>
    simp only [Heap.setLink_next]
    split_ifs with hq
    · rw [hq, hn]
    · rfl
  | some head => simp only [Heap.setLink_next, Heap.setNext_next, Heap.setPrev_next]

/-- The old head points back to the page that is put in front. -/
theorem push_prev (q : PageRef) :
    (c.push h p).1.prev q = if c.head = some q then some p else h.prev q := by
  unfold push
  cases c.head with
  | none => simp
  | some head => simp [eq_comm]

/-- Nothing but the two pointers of the other pages changes. -/
theorem push_detach {q : PageRef} (hq : q ≠ p) :
    ((c.push h p).1.page q).detach = (h.page q).detach := by
  unfold push
  cases c.head <;> simp [Heap.setLink, Heap.modify_page_of_ne _ _ hq]

/-- The page that is put in front is on the chain from now on. -/
theorem push_detach_self :
    ((c.push h p).1.page p).detach = { (h.page p).detach with link := c.id } := by
  unfold push
  cases c.head with
  | none =>
    simp only [Heap.setLink, Heap.modify_page_self]
    rfl
  | some head =>
    have hd : (((h.setPrev head (some p)).setNext p (some head)).page p).detach =
        (h.page p).detach := by simp
    simp only [Heap.setLink, Heap.modify_page_self, ← hd]
    rfl

theorem push_chain : (c.push h p).2 = { c with
    size := c.size + 1
    head := some p
    tail := if c.head = none then some p else c.tail } := by
  unfold push
  cases c.head <;> simp

/-- The rest of the heap is unchanged. -/
theorem push_fields : (c.push h p).1.disk = h.disk ∧ (c.push h p).1.clock = h.clock := by
  unfold push
  cases c.head <;> simp [Heap.setLink, Heap.setNext, Heap.setPrev]

end push

/-- A page that is on no chain is pushed at the head. -/
theorem push_spec (hc : Holds c h l) (hp : p ∉ l) (hn : h.next p = none)
    (hpv : h.prev p = none) :
    Holds (c.push h p).2 (c.push h p).1 (p :: l) ∧ Writes h (c.push h p).1 l p := by
  have hhead : ∀ q, c.head = some q → q ∈ l := fun q hq => by
    rw [hc.list.head_eq] at hq
    exact List.mem_of_head? hq
  obtain ⟨hf₁, hf₂⟩ := push_fields c h p
  constructor
  · rw [push_chain]
    refine ⟨hc.list.cons hp ?_ ?_ (fun q hq => ?_) (fun q hq => ?_), ?_, fun a ha => ?_⟩
    · rw [push_next _ h p hn, if_pos rfl]
    · rw [push_prev, if_neg (fun h' => hp (hhead p h')), hpv]
    · rw [push_next _ h p hn, if_neg]
      rintro rfl
      exact hp hq
    · rw [push_prev]
    · simp [hc.size]
    · exact List.mem_cons_of_mem _ (hc.anchor a ha)
  · refine ⟨fun q hq hqp => ?_, fun q hqp => push_detach _ h p hqp, hf₁, hf₂⟩
    refine Heap.page_eq (push_detach _ h p hqp) ?_ ?_
    · rw [push_next _ h p hn, if_neg hqp]
    · rw [push_prev, if_neg fun h' => hq (hhead q h')]

/-! ## Evicting -/

/-- From `h` to `h'`, the page `p` leaves a chain of the pages `l`. -/
structure Leaves (h h' : Heap) (l : List PageRef) (p : PageRef) : Prop where
  page_eq : ∀ q, q ∉ l → h'.page q = h.page q
  link_eq : ∀ q, q ≠ p → (h'.page q).link = (h.page q).link
  link_self : (h'.page p).link = -1
  links_self : h'.next p = none ∧ h'.prev p = none
  disk_eq : h'.disk = h.disk

/-- The least time of the pages that may be evicted, and the page to evict. -/
def victim (c : Chain) (h : Heap) (l : List PageRef) : ℕ × Option PageRef :=
  l.foldl (keepLastLeast (fun p => (h.page p).time) fun p => some p ≠ c.anchor)
    (h.clock.current + 1, c.fallback h)

/-- The page to evict is one of the chain. -/
theorem mem_of_victim (hc : Holds c h l) (hv : (c.victim h l).2 = some p) : p ∈ l := by
  rcases foldl_keepLastLeast (fun p => (h.page p).time) (fun p => some p ≠ c.anchor) l
    (h.clock.current + 1, c.fallback h) with ⟨hfold, -⟩ | ⟨q, hq, -, hfold, -⟩
  · rw [victim, hfold, fallback] at hv
    dsimp only at hv
    split_ifs at hv with hsize
    · rw [hc.list.head_eq] at hv
      exact List.mem_of_head? hv
    · -- A neighbour of the anchor.
      obtain ⟨a, ha, hnb⟩ := Option.bind_eq_some_iff.1 hv
      obtain ⟨l₁, l₂, hl⟩ := List.append_of_mem (hc.anchor a ha)
      rw [hc.list.prev_eq hl, hc.list.next_eq hl, Option.or_eq_some_iff] at hnb
      rcases hnb with hnb | ⟨-, hnb⟩
      · exact hl ▸ List.mem_append_left _ (List.mem_of_getLast? hnb)
      · exact hl ▸ List.mem_append_right _ (List.mem_cons_of_mem _ (List.mem_of_head? hnb))
  · rw [victim, hfold] at hv
    exact Option.some.inj hv ▸ hq

/-- The head is stamped, and no pointer changes. -/
theorem touchHead_links (c : Chain) (h : Heap) (q : PageRef) :
    (c.touchHead h).next q = h.next q ∧ (c.touchHead h).prev q = h.prev q ∧
      ((c.touchHead h).page q).link = (h.page q).link := by
  rw [touchHead]
  split
  · rw [Heap.next, Heap.prev, Heap.tick_page, Heap.setTime]
    exact ⟨h.modify_field _ q fun _ => rfl, h.modify_field _ q fun _ => rfl,
      h.modify_field (g := MemoryPage.link) _ q fun _ => rfl⟩
  · exact ⟨rfl, rfl, rfl⟩

/-- No page is added to the disk. -/
theorem touchHead_disk (c : Chain) (h : Heap) : (c.touchHead h).disk = h.disk := by
  rw [touchHead]
  split <;> rfl

/-- Only the head of an anchored chain is touched. -/
theorem touchHead_page (c : Chain) (h : Heap) {q : PageRef}
    (hq : c.anchored = true → c.head ≠ some q) : (c.touchHead h).page q = h.page q := by
  rw [touchHead]
  split
  · rename_i head hanchored hhead
    have hqh : q ≠ head := fun hqh => hq hanchored (hqh ▸ hhead)
    rw [Heap.tick_page, Heap.setTime, Heap.modify_page_of_ne _ _ hqh]
  · rfl

/-- Without an anchor nothing is stamped. -/
theorem touchHead_of_not_anchored (hanchored : c.anchored = false) : c.touchHead h = h := by
  simp [touchHead, hanchored]

/-- The page to evict leaves the chain. -/
theorem evict_leaves (hc : Holds c h l) (hl : l.length ≤ h.disk.length)
    (hlink : ∀ q ∈ l, (h.page q).link ≠ -1) (hv : (c.victim h l).2 = some p) :
    ∃ h' head tail, c.evict h = .ok (p, h', { c with
        head, tail
        size := c.size - 1
        anchor := if c.anchor = some p then none else c.anchor }) ∧
      Holds { c with
        head, tail
        size := c.size - 1
        anchor := if c.anchor = some p then none else c.anchor } h' (l.erase p) ∧
      Leaves h h' l p ∧ (c.anchored = false → h'.clock = h.clock) ∧
      ∀ q, q ≠ p → (c.anchored = true → c.head ≠ some q) → h'.time q = h.time q := by
  have hp := mem_of_victim hc hv
  -- The head of an anchored chain is touched before the search, which writes times only.
  have htouch := touchHead_links c h
  have hc₁ : Holds c (c.touchHead h) l := hc.congr (fun q _ => (htouch q).1) fun q _ => (htouch q).2.1
  obtain ⟨h₁, head, tail, heq, hholds, hw, hpage⟩ := unlink_spec hc₁ hp (by
    rw [(htouch p).2.2]
    exact hlink p hp)
  have hset : ∀ q, q ≠ p → (h₁.setTime p (c.victim h l).1).page q = h₁.page q := fun q hq =>
    Heap.modify_page_of_ne _ _ hq
  have hself : (h₁.setTime p (c.victim h l).1).page p =
      { h₁.page p with time := (c.victim h l).1 } := Heap.modify_page_self ..
  refine ⟨h₁.setTime p (c.victim h l).1, head, tail, ?_, ?_, ⟨fun q hq => ?_, fun q hq => ?_, ?_,
    ?_, hw.disk_eq.trans (touchHead_disk c h)⟩, fun hanchored => ?_, fun q hq hhead => ?_⟩
  · rw [evict, hc.list.walk_eq hl]
    simp only [ok_bind]
    rw [← victim, hv, heq]
    rfl
  · rw [heq] at hholds
    exact hholds.congr (fun q _ => Heap.modify_field _ _ q fun _ => rfl) fun q _ =>
      Heap.modify_field _ _ q fun _ => rfl
  · -- A page that is not on the list is neither the head nor a neighbour.
    have hqp : q ≠ p := fun hqp => hq (hqp ▸ hp)
    have hhead : c.head ≠ some q := fun h' => hq (List.mem_of_head? (hc.list.head_eq ▸ h'))
    rw [hset q hqp, hw.page_eq q hq hqp, touchHead_page c h fun _ => hhead]
  · rw [hset q hq, ← (htouch q).2.2]
    exact (congrArg MemoryPage.link (hw.detach_eq q hq) :)
  · rw [hself, hpage]
  · rw [Heap.next, Heap.prev, hself, hpage]
    exact ⟨rfl, rfl⟩
  · rw [touchHead_of_not_anchored hanchored] at hw
    exact hw.clock_eq
  · rw [Heap.time, hset q hq, Heap.time, ← touchHead_page c h hhead]
    exact (congrArg MemoryPage.time (hw.detach_eq q hq) :)

/-- The page that `evict` removes is the victim. -/
theorem victim_of_evict (hc : Holds c h l) (hl : l.length ≤ h.disk.length) {h' : Heap} {c' : Chain}
    (heq : c.evict h = .ok (p, h', c')) : (c.victim h l).2 = some p := by
  rw [evict, hc.list.walk_eq hl] at heq
  simp only [ok_bind] at heq
  rw [← victim] at heq
  obtain ⟨q, hq, heq⟩ := bind_eq_ok heq
  obtain ⟨rfl, -⟩ := Prod.mk.inj (Except.ok.inj heq)
  cases hv : (c.victim h l).2 with
  | none =>
    rw [hv] at hq
    cases hq
  | some v =>
    rw [hv] at hq
    rw [Except.ok.inj hq]

/-- A chain without an anchor evicts the last of its least recently used pages. -/
theorem evictLeast_spec (hc : Holds c h l) (hl : l.length ≤ h.disk.length) (hne : l ≠ [])
    (hanchored : c.anchored = false) (hanchor : c.anchor = none)
    (hlink : ∀ q ∈ l, (h.page q).link ≠ -1) (ht : ∀ q ∈ l, h.time q ≤ h.clock.current + 1) :
    ∃ p ∈ l, ∃ h' head tail, c.evict h = .ok (p, h', { c with head, tail, size := c.size - 1 }) ∧
      Oldest h.time l p ∧ Holds { c with head, tail, size := c.size - 1 } h' (l.erase p) ∧
      Writes h h' l p ∧ h'.page p = { h.page p with next := none, prev := none, link := -1 } := by
  obtain ⟨a, ha⟩ := List.exists_mem_of_ne_nil l hne
  rcases foldl_keepLastLeast (fun p => (h.page p).time) (fun p => some p ≠ c.anchor) l
    (h.clock.current + 1, c.fallback h) with ⟨-, hlt⟩ | ⟨p, hp, -, hfold, -, hle⟩
  · exact absurd (ht a ha) (not_le.2 (hlt a ha (by simp [hanchor])))
  obtain ⟨h', head, tail, heq, hholds, hw, hpage⟩ := unlink_spec hc hp (hlink p hp)
  have hanchor' : (if c.anchor = some p then none else c.anchor) = c.anchor := by simp [hanchor]
  have htouch : c.touchHead h = h := touchHead_of_not_anchored hanchored
  rw [hanchor'] at heq
  rw [heq] at hholds
  -- The time of the page is set to what it is.
  have hset : h'.setTime p (h.page p).time = h' := by
    have hp' : ({ h'.page p with time := (h.page p).time } : MemoryPage) = h'.page p := by
      rw [hpage]
    rw [Heap.setTime, Heap.modify, hp', Function.update_eq_self]
  refine ⟨p, hp, h', head, tail, ?_, fun q hq => hle q hq (by simp [hanchor]), hholds, hw, hpage⟩
  rw [evict, hc.list.walk_eq hl]
  simp only [ok_bind, hfold, htouch, heq, deref_some, hset, pure_eq_ok]

/-- A page of a well-formed chain that is not alone on it is chosen among those of least time, the
    anchor left aside. -/
theorem victim_spec (hc : Holds c h l) (hne : l ≠ []) (ht : ∀ q ∈ l, h.time q ≤ h.clock.current + 1) :
    ∃ p, (c.victim h l).2 = some p ∧ (1 < l.length →
      c.anchor ≠ some p ∧ ∀ q ∈ l, c.anchor ≠ some q → h.time p ≤ h.time q) := by
  rcases foldl_keepLastLeast (fun p => (h.page p).time) (fun p => some p ≠ c.anchor) l
    (h.clock.current + 1, c.fallback h) with ⟨hfold, hlt⟩ | ⟨p, -, hp, hfold, -, hle⟩
  · -- Every page is the anchor: there is only one.
    have hanchor : ∀ q ∈ l, c.anchor = some q := fun q hq =>
      by_contra fun hq' => absurd (ht q hq) (not_le.2 (hlt q hq (Ne.symm hq')))
    obtain ⟨a, -, rfl⟩ := hc.list.eq_singleton hne hanchor
    refine ⟨a, ?_, fun hlt => absurd hlt (lt_irrefl 1)⟩
    rw [victim, hfold, fallback, if_pos (show c.size = 1 from hc.size), hc.list.head_eq, List.head?_cons]
  · rw [victim, hfold]
    exact ⟨p, rfl, fun _ => ⟨hp.symm, fun q hq hq' => hle q hq (Ne.symm hq')⟩⟩

/-- A well-formed chain: it holds the pages `l`, which exist and name it. -/
structure Sound (c : Chain) (h : Heap) (l : List PageRef) : Prop where
  holds : Holds c h l
  id_ne : c.id ≠ -1
  link_eq : ∀ q ∈ l, (h.page q).link = c.id
  mem_disk : ∀ q ∈ l, q ∈ h.disk

/-- Eviction from a chain: one page leaves it, the least recently used of those that are not the
    anchor, and the others stay in order. -/
theorem evict_removes_least (hc : c.Sound h l) (hne : l ≠ [])
    (ht : ∀ q ∈ l, h.time q ≤ h.clock.current + 1) :
    ∃ p ∈ l, ∃ h' c', c.evict h = .ok (p, h', c') ∧ c'.Sound h' (l.erase p) ∧
      (1 < l.length → c.anchor ≠ some p ∧ ∀ q ∈ l, c.anchor ≠ some q → h.time p ≤ h.time q) ∧
      (h'.page p).link = -1 ∧ h'.next p = none ∧ h'.prev p = none ∧ c'.size = c.size - 1 ∧
      c'.anchor = (if c.anchor = some p then none else c.anchor) ∧
      (∀ q ∈ l, q ≠ p → (c.anchored = true → c.head ≠ some q) → h'.time q = h.time q) ∧
      (∀ q, q ∉ l → h'.page q = h.page q) ∧ c'.fixed = c.fixed := by
  have hl : l.length ≤ h.disk.length := (hc.holds.list.nodup.subperm hc.mem_disk).length_le
  have hlink : ∀ q ∈ l, (h.page q).link ≠ -1 := fun q hq => hc.link_eq q hq ▸ hc.id_ne
  obtain ⟨p, hv, hleast⟩ := victim_spec hc.holds hne ht
  have hp := mem_of_victim hc.holds hv
  obtain ⟨h', head, tail, heq, hholds, hleaves, -, htime⟩ := evict_leaves hc.holds hl hlink hv
  refine ⟨p, hp, h', _, heq, ⟨hholds, hc.id_ne, fun q hq => ?_, fun q hq => ?_⟩, hleast,
    hleaves.link_self, hleaves.links_self.1, hleaves.links_self.2, rfl, rfl, fun q _ => htime q,
    hleaves.page_eq, rfl⟩
  · have hqp : q ≠ p := fun hqp => hc.holds.list.nodup.not_mem_erase (hqp ▸ hq)
    rw [hleaves.link_eq q hqp]
    exact hc.link_eq q (List.mem_of_mem_erase hq)
  · rw [hleaves.disk_eq]
    exact hc.mem_disk q (List.mem_of_mem_erase hq)

/-- The anchor was used before the other page, which is evicted. -/
theorem evict_removes_least_anchored : ∃ (c c' : Chain) (h h' : Heap), c.anchor = some 1 ∧
    h.time 1 < h.time 2 ∧ c.evict h = .ok (2, h', c') ∧ c'.Sound h' [1] := by
  let c : Chain := { id := 0, size := 2, anchored := true, anchor := some 1, head := some 1, tail := some 2 }
  let h : Heap :=
    { page := fun r => if r = 1 then { link := 0, next := some 2, time := 1 }
        else if r = 2 then { link := 0, prev := some 1, time := 2 } else {}
      disk := [1, 2]
      clock := ⟨2⟩ }
  have hc : c.Sound h [1, 2] :=
    { holds := ⟨⟨by decide, ⟨rfl, rfl, rfl, rfl, trivial⟩, rfl, fun _ => rfl⟩, rfl, by decide⟩
      id_ne := by decide
      link_eq := by decide
      mem_disk := by decide }
  obtain ⟨p, hp, h', c', heq, hc', hleast, -⟩ := evict_removes_least hc (by decide) (by decide)
  obtain rfl : p = 2 := by
    rcases List.mem_pair.1 hp with rfl | rfl
    · exact absurd rfl (hleast (by decide)).1
    · rfl
  exact ⟨c, c', h, h', rfl, by decide, heq, hc'⟩

/-! ## The timestamp -/

/-- A timestamp is no later than the times of the pages and than it was. -/
theorem getTimestamp_spec (hc : Holds c h l) (hl : l.length ≤ h.disk.length) (sample : ℕ) {m : ℕ}
    (hm : c.timestamp ≤ m) (ht : ∀ q ∈ l, h.time q ≤ m) :
    ∃ timestamp ≤ m,
      c.getTimestamp h sample = .ok (timestamp, { c with timestamp, sample }) := by
  rw [getTimestamp]
  split_ifs with hs
  · refine ⟨c.timestamp, hm, ?_⟩
    rw [← hs]
  · refine ⟨max c.timestamp (greatest h.time l), max_le hm (greatest_le ht), ?_⟩
    rw [hc.list.walk_eq hl, ← foldl_max]
    rfl

end Chain

end Mcpq.Simulator
