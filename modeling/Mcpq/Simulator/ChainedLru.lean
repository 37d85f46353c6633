import Mcpq.Simulator.Chain
import Mcpq.Simulator.LruStack

/-!
# The chained LRU policy

The class `ChainedLeastRecentlyUsedReplacementPolicy`: pages that are loved are linked to chains, and
a chain is as old as the most recently used of its pages. Without chains it is LRU
(`chainedLru_evictsLeast`).

Chain objects are known by their identifiers, which the policy gives out in order; the map
`link_table` is the list of its keys.
-/

namespace Mcpq.Simulator

/-- The state of the class `ChainedLeastRecentlyUsedReplacementPolicy`. -/
structure ChainedLeastRecentlyUsed where
  /-- The identifier of the next chain. -/
  linkId : ℤ := 0
  /-- The chain objects. -/
  chains : ℤ → Chain := fun id => .unbounded id false
  /-- The keys of the map of the chains. -/
  linkTable : List ℤ := []
  sample : ℕ := 0

namespace ChainedLeastRecentlyUsed

variable (s : ChainedLeastRecentlyUsed) (h : Heap)

/-- `link_table.get(id)`, dereferenced. -/
def chain (id : ℤ) : Java ℤ := if id ∈ s.linkTable then .ok id else .error .nullPointer

def setChain (id : ℤ) (c : Chain) : ChainedLeastRecentlyUsed :=
  { s with chains := Function.update s.chains id c }

@[simp] theorem setChain_self (id : ℤ) (c : Chain) : (s.setChain id c).chains id = c :=
  Function.update_self ..

theorem setChain_of_ne {id d : ℤ} (hd : d ≠ id) (c : Chain) :
    (s.setChain id c).chains d = s.chains d := Function.update_of_ne hd ..

/-- The chain is entered in the table under the next identifier. -/
def addChain (c : Chain) : ℤ × ChainedLeastRecentlyUsed :=
  (c.id, { s.setChain c.id c with linkId := s.linkId + 1, linkTable := c.id :: s.linkTable })

/-- The methods `love` that create a chain. -/
def newChain : ℤ × ChainedLeastRecentlyUsed := s.addChain (.unbounded s.linkId false)

/-- `love(anchored)`. -/
def newAnchoredChain (anchored : Bool) : ℤ × ChainedLeastRecentlyUsed :=
  s.addChain (.unbounded s.linkId anchored)

/-- `love(capacity)`. -/
def newBoundedChain (capacity : ℤ) : ℤ × ChainedLeastRecentlyUsed :=
  s.addChain (.bounded s.linkId capacity)

/-- The flag is ignored: the chain is anchored. -/
def newBoundedAnchoredChain (capacity : ℤ) (_anchored : Bool) : ℤ × ChainedLeastRecentlyUsed :=
  s.addChain (.make s.linkId capacity true)

/-- `link_table.get(id).unlink(page)`. -/
def chainUnlink (id : ℤ) (page : Option PageRef) : Java (Heap × ChainedLeastRecentlyUsed) := do
  let id ← s.chain id
  let (h, c) := (s.chains id).unlink h page
  pure (h, s.setChain id c)

/-- `link_table.get(id).add(page)`. -/
def chainAdd (id : ℤ) (page : PageRef) : Java (Heap × ChainedLeastRecentlyUsed) := do
  let id ← s.chain id
  let (h, c) ← (s.chains id).add h page
  pure (h, s.setChain id c)

/-- `link_table.get(id).anchor(page)`. -/
def chainAnchor (id : ℤ) (page : PageRef) : Java (Heap × ChainedLeastRecentlyUsed) := do
  let id ← s.chain id
  let (h, c) ← (s.chains id).anchorPage h page
  pure (h, s.setChain id c)

/-- `link_table.get(id).unchain()`. -/
def chainUnchain (id : ℤ) : Java (Heap × ChainedLeastRecentlyUsed) := do
  let id ← s.chain id
  let (h, c) ← (s.chains id).unchain h
  pure (h, s.setChain id c)

/-- Unlink a page from a chain other than `link`. -/
def leave (page : PageRef) (link : ℤ) : Java (Heap × ChainedLeastRecentlyUsed) :=
  if (h.page page).link ≠ -1 ∧ (h.page page).link ≠ link then
    s.chainUnlink h (h.page page).link (some page)
  else .ok (h, s)

/-- `love`: the page leaves the chain it is on, and joins the chain `link`. -/
def love (page : Option PageRef) (link : ℤ) : Java (Heap × ChainedLeastRecentlyUsed) := do
  let page ← deref page
  let (h, s) ← s.leave h page link
  s.chainAdd h link page

/-- `love` with a pin. -/
def lovePin (page : Option PageRef) (link : ℤ) (pin : Bool) :
    Java (Heap × ChainedLeastRecentlyUsed) := do
  let p ← deref page
  let (h, s) ← s.leave h p link
  if pin then s.chainAnchor h link p else s.love h page link

/-- Remove all the pages from the chain of a page. -/
def hate (page : Option PageRef) : Java (Heap × ChainedLeastRecentlyUsed) := do
  let page ← deref page
  if (h.page page).link ≠ -1 then s.chainUnchain h (h.page page).link else pure (h, s)

/-- `hate(page, link)`. -/
def hateLink (page : Option PageRef) (link : ℤ) : Java (Heap × ChainedLeastRecentlyUsed) :=
  s.chainUnlink h link page

/-- `hate(link)`: remove a chain. -/
def hateChain (link : ℤ) : Java (Heap × ChainedLeastRecentlyUsed) := do
  let (h, s) ← s.chainUnchain h link
  pure (h, { s with linkTable := s.linkTable.erase link })

/-- The choice so far: the least time, and the chain or the page it is of. -/
structure Candidate where
  min : ℕ
  id : Option ℤ := none
  pg : Option PageRef := none
  deriving DecidableEq, Repr

/-- An iteration of the loop over the pages. -/
def consider (h : Heap) (best : ChainedLeastRecentlyUsed × Candidate) (p : Option PageRef) :
    Java (ChainedLeastRecentlyUsed × Candidate) := do
  let (s, best) := best
  let p ← deref p
  let link := (h.page p).link
  if link ≥ 0 then
    let id ← s.chain link
    let (timestamp, c) ← (s.chains id).getTimestamp h s.sample
    let s := s.setChain id c
    if timestamp < best.min then pure (s, { min := timestamp, id := some link })
    else pure (s, best)
  else if link = -1 ∧ (h.page p).time ≤ best.min then
    pure (s, { min := (h.page p).time, pg := some p })
  else pure (s, best)

/-- `findPageToEvict`: the page of the oldest unit, as far as the samples tell. -/
def findPageToEvict (pages : List (Option PageRef)) :
    Java (Option PageRef × Heap × ChainedLeastRecentlyUsed) := do
  let min := h.clock.current + 1
  let (s, best) ← pages.foldlM (consider h) ({ s with sample := s.sample + 1 }, { min })
  match best.id with
  | some id =>
    let id ← s.chain id
    let (pg, h, c) ← (s.chains id).evict h
    pure (some pg, h.setLink pg (-1), s.setChain id c)
  | none => pure (best.pg, h, s)

end ChainedLeastRecentlyUsed

open ChainedLeastRecentlyUsed in
/-- The class `ChainedLeastRecentlyUsedReplacementPolicy`. -/
def chainedLeastRecentlyUsedReplacementPolicy :
    IPageReplacementPolicy ChainedLeastRecentlyUsed where
  findPageToEvict := findPageToEvict
  love := love
  lovePin := lovePin
  hate := hate
  hateLevel := hateLink

/-! ## Without chains -/

namespace ChainedLeastRecentlyUsed

/-- The search over pages that are on no chain. -/
theorem foldlM_consider (s : ChainedLeastRecentlyUsed) {h : Heap} {pages : List PageRef}
    (hlink : ∀ p ∈ pages, (h.page p).link = -1) (best : ℕ × Option PageRef) :
    (pages.map some).foldlM (consider h) (s, { min := best.1, pg := best.2 }) =
      let best := pages.foldl (keepLastLeast (fun p => (h.page p).time) fun _ => True) best
      .ok (s, { min := best.1, pg := best.2 }) := by
  induction pages generalizing best with
  | nil => rfl
  | cons a pages ih =>
    have ha := hlink a List.mem_cons_self
    have hstep : consider h (s, { min := best.1, pg := best.2 }) (some a) =
        let best := keepLastLeast (fun p => (h.page p).time) (fun _ => True) best a
        .ok (s, { min := best.1, pg := best.2 }) := by
      by_cases hle : (h.page a).time ≤ best.1 <;> simp [consider, keepLastLeast, ha, hle]
    rw [List.map_cons, List.foldlM_cons, hstep]
    exact ih (fun p hp => hlink p (List.mem_cons_of_mem a hp)) _

end ChainedLeastRecentlyUsed

theorem chainedLru_evictsLeast {n : ℕ} :
    EvictsLeast n chainedLeastRecentlyUsedReplacementPolicy
      fun _ h => ∀ q, (h.page q).link = -1 := by
  refine ⟨fun s h pages hI _ hne htime => ?_, fun _ h h' hI hhints q => ?_⟩
  · obtain ⟨a, ha⟩ := List.exists_mem_of_ne_nil _ hne
    have heq := ChainedLeastRecentlyUsed.foldlM_consider
      { s with sample := s.sample + 1 } (fun p (_ : p ∈ pages) => hI p) (h.clock.current + 1, none)
    rcases foldl_keepLastLeast (fun p => (h.page p).time) (fun _ => True) pages
      (h.clock.current + 1, none) with ⟨-, hlt⟩ | ⟨p, hp, -, hfold, -, hle⟩
    · exact absurd (htime a ha) (not_le.2 ((Nat.lt_succ_self _).trans (hlt a ha trivial)))
    · refine ⟨p, hp, h, { s with sample := s.sample + 1 }, ?_, fun q hq => hle q hq trivial, hI,
        fun _ => rfl, rfl, rfl, fun _ _ _ => rfl⟩
      change ChainedLeastRecentlyUsed.findPageToEvict s h (pages.map some) = _
      rw [ChainedLeastRecentlyUsed.findPageToEvict, heq, hfold]
      rfl
  · have := congrArg (·.2.1) (hhints q)
    exact this.trans (hI q)

end Mcpq.Simulator
