import Mcpq.Kernel.Concurrent
import Mcpq.Kernel.Fork
import Mcpq.Lib.Locks

/-!
# The locks of the chains

The calls, as the locks that the threads acquire and release: the `lock` of a collection of chains, the
`lock` of a chain, the `link_lock` of a page, and the `lru_lock` of a zone. Which locks a call takes
depends on the links between the pages and the chains at the time (`Shared`); the rest of what the
sections do is left out. A page is linked and unlinked here as it is in the memory
(`Mm.linkPage_shared`, `Mm.unlinkPage_shared`).

All the calls take the locks in the order above, except when a page that is on a chain is linked to
another one: `__link_page` takes the lock of the chain it leaves, with the `link_lock` of the page and
the `lru_lock` held, while a thread that breaks this chain has its lock and waits for the page
(`breaking_deadlock`). Nor may a page be anchored in a way that takes `lru_lock`, which the page loop
holds. The runs where neither happens have no deadlock (`lock_progresses`).
-/

namespace Mcpq.Kernel

/-- A zone. -/
abbrev ZoneRef := ℕ

/-- The locks that the calls take. -/
inductive Lock
  | collection (mcc : MccRef)
  | chain (c : ChainRef)
  | link (p : PageRef)
  | lru (z : ZoneRef)
  deriving DecidableEq, Repr

/-- The zone of a page, and the zones whose `lru_lock` the functions of `mlock.c` may take, one after
    the other, for a page. They take no other of the locks, and return. -/
class PageZones where
  pageZone : PageRef → ZoneRef
  mlock : PageRef → List ZoneRef → Prop
  munlock : PageRef → List ZoneRef → Prop
  mlock_returns : ∀ p, ∃ zs, mlock p zs
  munlock_returns : ∀ p, ∃ zs, munlock p zs

export PageZones (pageZone)

/-- What the calls read to find the locks that they take: the chain of each page, the links and the
    anchor of each chain, and the chains by descriptor. -/
structure Shared where
  chainOf : PageRef → Option ChainRef
  links : ChainRef → List PageRef
  anchor : ChainRef → Option PageRef
  chains : MccRef → ℕ → Option ChainRef

namespace Shared

variable (d : Shared) (c : ChainRef) (p : PageRef)

/-- `list_del` from the list that the page is on, and `__reset_page`. -/
def delPage : Shared :=
  { d with
    chainOf := Function.update d.chainOf p none
    links := fun c => (d.links c).erase p }

/-- `__unlink_page`, of a page of the chain `c`. -/
def unlinkPage : Shared :=
  { d.delPage p with
    anchor := Function.update d.anchor c (if d.anchor c = some p then none else d.anchor c) }

/-- The end of `__link_page`. No chain is bounded: its `attributes` are never set. -/
def addPage : Shared :=
  { d with
    chainOf := Function.update d.chainOf p (some c)
    links := Function.update d.links c (p :: d.links c) }

def setAnchor : Shared := { d with anchor := Function.update d.anchor c (some p) }

/-- The end of `__unlink_chain`. -/
def resetChain : Shared :=
  { d with
    links := Function.update d.links c []
    anchor := Function.update d.anchor c none }

def freeSlot (mcc : MccRef) (i : ℕ) : Shared :=
  { d with chains := Function.update d.chains mcc (Function.update (d.chains mcc) i none) }

/-- What is found in `page->link.next`: the page after `p`, if `p` is on the list. -/
def Next (next : Option PageRef) : Prop :=
  p ∈ d.links c → next = (d.links c)[(d.links c).idxOf p + 1]?

end Shared

/-- The calls of a thread, and the functions that they go on with. The pages of an address range are
    those that `__get_user_page` finds, with their addresses. -/
inductive Call
  | linkAddrRng (mcc : MccRef) (c : ℕ) (pages : List (ℕ × PageRef))
  | anchor (mcc : MccRef) (c addr : ℕ) (pages : List (ℕ × PageRef))
  | brkMemChain (mcc : MccRef) (c : ℕ)
  | rlsMemChain (mcc : MccRef) (c : ℕ)
  | doExit (mcc : MccRef)
  | freePagesPrepare (p : PageRef)
  | doMlinkPages (mcc : MccRef) (c anchor : ℕ) (pages : List (ℕ × PageRef))
  | linkPage (c : ChainRef) (p : PageRef)
  | unlinkPage (p : PageRef)
  | unlockChainOf (p : PageRef)
  | addPage (c : ChainRef) (p : PageRef)
  | mlockVmaPage (p : PageRef)
  | setAnchor (c : ChainRef) (p : PageRef)
  | munlockVmaPage (p : PageRef)
  | lruSections (zones : List ZoneRef)
  | markPageAccessed (p : PageRef)
  | brkChain (mcc : MccRef) (c : ℕ)
  | rlsChain (mcc : MccRef) (c : ℕ)
  | unlinkPages (c : ChainRef)
  | unlinkPagesFrom (c : ChainRef) (page : Option PageRef)
  | delPage (p : PageRef)
  | munlockAnchor (c : ChainRef)
  | resetChain (c : ChainRef)
  | freeSlot (mcc : MccRef) (c : ℕ)
  | exitSlots (mcc : MccRef) (i : ℕ)
  deriving DecidableEq, Repr

/-- The calls that a thread makes. -/
def Call.IsEntry : Call → Prop
  | linkAddrRng .. | anchor .. | brkMemChain .. | rlsMemChain .. | doExit .. | freePagesPrepare .. => True
  | _ => False

/-- The instructions of the calls: to acquire or to release a lock, and sections of code. -/
abbrev LockInstr := Instr Lock Call

namespace LockInstr

open Instr Lock

variable [PageZones]

/-- An iteration of the page loop of `__mlink_vma_pages_range`. -/
def mlinkPage (c : ChainRef) (anchor : ℕ) (x : ℕ × PageRef) : List LockInstr :=
  locked (link x.2) (locked (lru (pageZone x.2)) (.call (.linkPage c x.2) ::
    if x.1 = anchor then [.call (.mlockVmaPage x.2), .call (.setAnchor c x.2)] else [])) ++
  [.call (.markPageAccessed x.2)]

/-- `mark_page_accessed`, of a page that is to be activated: the sections of `PageReferenced` and
    `SetPageReferenced`, unless the page is referenced, of `activate_page`, and of
    `ClearPageReferenced`. -/
def activate (p : PageRef) (isSet linked : Bool) : List LockInstr :=
  (if isSet then [] else locked (link p) []) ++ (if linked && !isSet then locked (link p) [] else []) ++
  locked (lru (pageZone p)) [] ++ locked (link p) []

/-- `mark_page_accessed`, of a page that is not: the sections of `PageReferenced`, if it gets there and
    the page is not referenced, and of `SetPageReferenced`, unless the page is referenced. -/
def reference (p : PageRef) (isSet tested : Bool) : List LockInstr :=
  (if tested && !isSet then locked (link p) [] else []) ++ (if isSet then [] else locked (link p) [])

/-- `__unlink_chain`. -/
def unlinkChain (c : ChainRef) : List LockInstr :=
  [.call (.unlinkPages c), .call (.munlockAnchor c), .call (.resetChain c)]

/-- `unlink_chain_fast`. -/
def unlinkChainFast (c : ChainRef) : List LockInstr := locked (chain c) [.call (.unlinkPages c)]

end LockInstr

open LockInstr Instr in
/-- The functions. -/
inductive LockCalls [PageZones] (d : Shared) : Call → Shared → List LockInstr → Prop
  | linkAddrRng {mcc c pages} : LockCalls d (.linkAddrRng mcc c pages) d
    [.acquire (.collection mcc), .call (.doMlinkPages mcc c 0 pages)]
  | anchor {mcc c addr pages} : LockCalls d (.anchor mcc c addr pages) d
    [.acquire (.collection mcc), .call (.doMlinkPages mcc c (Mm.pageMask addr) pages)]
  | mlinkInvalid {mcc c anchor pages} (hc : d.chains mcc c = none) :
    LockCalls d (.doMlinkPages mcc c anchor pages) d [.release (.collection mcc)]
  | mlinkValid {mcc c anchor pages chain} (hc : d.chains mcc c = some chain) :
    LockCalls d (.doMlinkPages mcc c anchor pages) d
      (.release (.collection mcc) :: pages.flatMap (mlinkPage chain anchor))
  | linkSame {c p} (hp : d.chainOf p = some c) : LockCalls d (.linkPage c p) d []
  | linkNone {c p} (hp : d.chainOf p = none) : LockCalls d (.linkPage c p) d [.call (.addPage c p)]
  -- The lock released is that of the chain the page is linked to then.
  | linkOther {c p c'} (hp : d.chainOf p = some c') (hc : c' ≠ c) : LockCalls d (.linkPage c p) d
    [.acquire (.chain c'), .call (.unlinkPage p), .call (.unlockChainOf p), .call (.addPage c p)]
  | unlinkNone {p} (hp : d.chainOf p = none) : LockCalls d (.unlinkPage p) d []
  | unlinkPage {p c} (hp : d.chainOf p = some c) : LockCalls d (.unlinkPage p) (d.unlinkPage c p)
    (if d.anchor c = some p then [.call (.munlockVmaPage p)] else [])
  | unlockChainOf {p c} (hp : d.chainOf p = some c) :
    LockCalls d (.unlockChainOf p) d [.release (.chain c)]
  | addPage {c p} : LockCalls d (.addPage c p) (d.addPage c p) []
  | mlockVmaPage {p zs} (hzs : PageZones.mlock p zs) :
    LockCalls d (.mlockVmaPage p) d [.call (.lruSections zs)]
  | setAnchor {c p} : LockCalls d (.setAnchor c p) (d.setAnchor c p) []
  | munlockVmaPage {p zs} (hzs : PageZones.munlock p zs) :
    LockCalls d (.munlockVmaPage p) d [.call (.lruSections zs)]
  | lruSections {zs} : LockCalls d (.lruSections zs) d (zs.flatMap fun z => locked (.lru z) [])
  | activate {p} (isSet linked : Bool) : LockCalls d (.markPageAccessed p) d (activate p isSet linked)
  | reference {p} (isSet tested : Bool) :
    LockCalls d (.markPageAccessed p) d (reference p isSet tested)
  | brkMemChain {mcc c} : LockCalls d (.brkMemChain mcc c) d
    (locked (.collection mcc) [.call (.brkChain mcc c)])
  | brkInvalid {mcc c} (hc : d.chains mcc c = none) : LockCalls d (.brkChain mcc c) d []
  | brkValid {mcc c chain} (hc : d.chains mcc c = some chain) :
    LockCalls d (.brkChain mcc c) d (locked (.chain chain) (unlinkChain chain))
  | rlsMemChain {mcc c} : LockCalls d (.rlsMemChain mcc c) d
    (locked (.collection mcc) [.call (.rlsChain mcc c)])
  | rlsInvalid {mcc c} (hc : d.chains mcc c = none) : LockCalls d (.rlsChain mcc c) d []
  | rlsValid {mcc c chain} (hc : d.chains mcc c = some chain) : LockCalls d (.rlsChain mcc c) d
    (locked (.chain chain) (unlinkChain chain) ++ [.call (.freeSlot mcc c)])
  | unlinkPages {c} :
    LockCalls d (.unlinkPages c) d [.call (.unlinkPagesFrom c (d.links c).head?)]
  | unlinkEnd {c} : LockCalls d (.unlinkPagesFrom c none) d []
  -- The next page is read before the page is deleted from the list.
  | unlinkFrom {c p next} (hnext : d.Next c p next) : LockCalls d (.unlinkPagesFrom c (some p)) d
    (locked (.link p) [.call (.delPage p)] ++ [.call (.unlinkPagesFrom c next)])
  | delPage {p} : LockCalls d (.delPage p) (d.delPage p) []
  | munlockNone {c} (hc : d.anchor c = none) : LockCalls d (.munlockAnchor c) d []
  | munlockAnchor {c p} (hc : d.anchor c = some p) :
    LockCalls d (.munlockAnchor c) d [.call (.munlockVmaPage p)]
  | resetChain {c} : LockCalls d (.resetChain c) (d.resetChain c) []
  | freeSlot {mcc c} : LockCalls d (.freeSlot mcc c) (d.freeSlot mcc c) []
  | doExit {mcc} : LockCalls d (.doExit mcc) d [.call (.exitSlots mcc 0)]
  | exitEnd {mcc i} (hi : Mm.maxNumChains ≤ i) : LockCalls d (.exitSlots mcc i) d []
  | exitFree {mcc i} (hi : i < Mm.maxNumChains) (hc : d.chains mcc i = none) :
    LockCalls d (.exitSlots mcc i) d [.call (.exitSlots mcc (i + 1))]
  | exitSlot {mcc i chain} (hi : i < Mm.maxNumChains) (hc : d.chains mcc i = some chain) :
    LockCalls d (.exitSlots mcc i) d (unlinkChainFast chain ++ [.call (.exitSlots mcc (i + 1))])
  | freeNone {p} (hp : d.chainOf p = none) : LockCalls d (.freePagesPrepare p) d []
  | freePagesPrepare {p c} (hp : d.chainOf p = some c) : LockCalls d (.freePagesPrepare p) d
    (locked (.chain c) (locked (.link p) [.call (.unlinkPage p)]))

/-- The threads, with the locks that they have and the links. -/
abbrev LockState := Locking ThreadRef Lock Call Shared

/-- The runs of threads that make any calls, from when they have no locks. -/
def LockSystem [PageZones] : Transition LockState ThreadRef where
  init s := (∀ l, s.owner l = none) ∧ ∀ t, ∃ ks : List Call, (∀ k ∈ ks, k.IsEntry) ∧
    s.prog t = ks.map .call
  step s t s' := s.Step LockCalls t s'

/-- A page is linked only when it is on no other chain, and its lock in memory takes no `lru_lock` when
    the thread has one. -/
def InLockOrder (s : LockState) (t : ThreadRef) : Prop :=
  match s.prog t with
  | .call (.linkPage c p) :: _ => s.data.chainOf p = none ∨ s.data.chainOf p = some c
  | .call (.lruSections (_ :: _)) :: _ => ∀ z, s.owner (.lru z) ≠ some t
  | _ => True

/-! ## The links of the memory -/

namespace Mm

/-- What the calls read of the memory. -/
def shared (s : Mm) : Shared where
  chainOf := s.home
  links := s.links
  anchor c := (s.chain c).bind MemoryChain.anchor
  chains tsk c := (s.mcc tsk).bind fun mcc => if mcc.capacity ≤ c then none else mcc.chains[c]?.join

variable {s s' : Mm} {c : ChainRef} {p : PageRef} {m m' : MemoryChain}

theorem anchor_of_chain (h : s.chain c = some m) : s.shared.anchor c = m.anchor := by
  change (s.chain c).bind _ = _
  rw [h]
  rfl

/-- The page `p` is updated, and the chain `c`. -/
theorem shared_eq {x : Page} (hpage : s'.page = Function.update s.page p x)
    (hchain : s'.chain = Function.update s.chain c (some m')) (hmcc : s'.mcc = s.mcc) :
    s'.shared = ⟨Function.update s.home p x.chain, Function.update s.links c m'.links,
      Function.update s.shared.anchor c m'.anchor, s.shared.chains⟩ := by
  have hanchor : s'.shared.anchor = Function.update s.shared.anchor c m'.anchor := by
    funext d
    change (s'.chain d).bind _ = _
    rw [hchain, Function.update_apply, Function.update_apply]
    split_ifs
    · rfl
    · rfl
  have hchains : s'.shared.chains = s.shared.chains := by
    rw [shared, shared, hmcc]
  rw [← hchains, ← hanchor, ← links_of_update hchain, ← home_of_page hpage]
  rfl

variable [Mlock]

/-- A page without a chain is linked. -/
theorem linkPage_shared (hp : s.home p = none) (heq : s.linkPage c p = .ok s') :
    s'.shared = s.shared.addPage c p := by
  have hp' : (s.page p).chain = none := hp
  rw [linkPage, hp', if_neg (by simp), unlinkFromOther, hp', ok_bind] at heq
  obtain ⟨m, hm, heq⟩ := bind_eq_ok.1 heq
  cases hfull : m.isFull with
  | true =>
    rw [hfull, if_pos rfl] at heq
    cases heq
  | false =>
    rw [hfull, if_neg Bool.false_ne_true, ok_bind, hm, ok_bind] at heq
    obtain rfl := Except.ok.inj heq
    have hm := derefChain_eq_ok.1 hm
    refine Eq.trans (shared_eq (s := s) (p := p) (c := c) rfl rfl rfl) ?_
    dsimp only
    rw [← links_of_chain hm, ← anchor_of_chain hm, Function.update_eq_self]
    rfl

/-- A page of a chain is unlinked. -/
theorem unlinkPage_shared (h : s.Linked) (hp : s.home p = some c) (heq : s.unlinkPage p = .ok s') :
    s'.shared = s.shared.unlinkPage c p := by
  obtain ⟨m, hm, hpm⟩ := h.live hp
  have hlinks : Function.update s.links c (m.links.erase p) = fun d => (s.links d).erase p := by
    funext d
    rw [Function.update_apply]
    split_ifs with hd
    · rw [hd, links_of_chain hm]
    · refine (List.erase_of_not_mem fun hpd => hd ?_).symm
      exact Option.some.inj (((h.members.mem_iff p d).1 hpd).symm.trans hp)
  rw [unlinkPage, show (s.page p).chain = some c from hp] at heq
  dsimp only at heq
  rw [derefChain_eq_ok.2 hm, ok_bind, listDel, if_pos hpm, ok_bind, resetPage, Bool.false_and,
    if_neg Bool.false_ne_true] at heq
  obtain rfl := Except.ok.inj heq
  have hanchor : (s.shared.unlinkPage c p) = ⟨Function.update s.home p none,
      Function.update s.links c (m.links.erase p),
      Function.update s.shared.anchor c (if m.anchor = some p then none else m.anchor),
      s.shared.chains⟩ := by
    rw [Shared.unlinkPage, anchor_of_chain hm, hlinks]
    rfl
  -- The page may be unlocked.
  obtain ⟨s₁, hs₁⟩ : ∃ s₁, (if m.anchor = some p then s.modifyPage p Mlock.munlockVmaPage else s) =
      s₁ := ⟨_, rfl⟩
  obtain ⟨hchain, hmcc, y, hpage⟩ : s₁.chain = s.chain ∧ s₁.mcc = s.mcc ∧
      ∃ y : Page, s₁.page = Function.update s.page p y := by
    subst hs₁
    split_ifs
    · exact ⟨rfl, rfl, _, rfl⟩
    · exact ⟨rfl, rfl, s.page p, (Function.update_eq_self ..).symm⟩
  rw [hs₁, hanchor]
  refine Eq.trans (shared_eq (s := s) (p := p) (c := c) (x := { y with chain := none }) ?_
    (congrArg (Function.update · c _) hchain) hmcc) rfl
  change Function.update s₁.page p { s₁.page p with chain := none } = _
  rw [hpage, Function.update_self, Function.update_idem]

end Mm

/-! ## The order of the locks -/

namespace Lock

/-- The place of a lock in the order. -/
def rank : Lock → Fin 4
  | collection _ => 0
  | chain _ => 1
  | link _ => 2
  | lru _ => 3

/-- All the locks held come before those of the rank `r`. -/
def Below (held : List Lock) (r : Fin 4) : Prop := ∀ l ∈ held, l.rank < r

/-- No lock of a zone is held. -/
def NoLru (held : List Lock) : Prop := ∀ z, lru z ∉ held

variable {held : List Lock} {l : Lock} {r r' : Fin 4} {c : ChainRef} {p : PageRef}

theorem Below.nil : Below [] r := List.forall_mem_nil _

theorem Below.mono (h : Below held r) (hr : r ≤ r') : Below held r' := fun l hl => (h l hl).trans_le hr

theorem Below.cons (h : Below held r) (hl : l.rank < r) : Below (l :: held) r :=
  List.forall_mem_cons.2 ⟨hl, h⟩

theorem collection_lt {mcc : MccRef} : (collection mcc).rank < 1 := by
  rw [rank]
  decide

theorem chain_lt : (chain c).rank < 2 := by
  rw [rank]
  decide

theorem link_lt : (link p).rank < 3 := by
  rw [rank]
  decide

end Lock

open Lock

/-- With which locks the functions are called. No function releases the lock of the chain that a page
    has left: no page is to leave a chain for another one. -/
def Call.fits : Call → List Lock → List Lock → Prop
  | doMlinkPages mcc .., held, held' => held = [.collection mcc] ∧ held' = []
  | unlockChainOf _, _, _ => False
  | linkAddrRng .., held, held' | anchor .., held, held' | brkMemChain .., held, held'
  | rlsMemChain .., held, held' | doExit _, held, held' | freePagesPrepare _, held, held'
  | markPageAccessed _, held, held' | exitSlots .., held, held' => held' = held ∧ held = []
  | brkChain .., held, held' | rlsChain .., held, held' => held' = held ∧ Below held 1
  | unlinkPages _, held, held' | unlinkPagesFrom .., held, held' => held' = held ∧ Below held 2
  | unlinkPage _, held, held' | munlockVmaPage _, held, held' | munlockAnchor _, held, held' =>
    held' = held ∧ Below held 3
  | mlockVmaPage _, held, held' | lruSections _, held, held' =>
    held' = held ∧ (NoLru held → Below held 3)
  | linkPage .., held, held' | addPage .., held, held' | setAnchor .., held, held'
  | delPage _, held, held' | resetChain _, held, held' | freeSlot .., held, held' => held' = held

/-- The order: collections, chains, pages, zones. -/
def lockOrder : LockOrder Lock Call (Fin 4) where
  rank := Lock.rank
  fits := Call.fits

namespace LockInstr

variable {held : List Lock} {c : ChainRef} {p : PageRef}

open LockOrder

theorem runs_locked_nil {l : Lock} (h : Below held l.rank) :
    lockOrder.Runs held (Instr.locked l []) held :=
  .locked h .nil

theorem runs_unlinkChain (h : Below held 2) : lockOrder.Runs held (unlinkChain c) held :=
  .call ⟨rfl, h⟩ (.call ⟨rfl, h.mono (by decide)⟩ (.singleton rfl))

theorem runs_unlinkChainFast (h : Below held 1) : lockOrder.Runs held (unlinkChainFast c) held :=
  .locked h (.singleton ⟨rfl, (h.mono (by decide)).cons chain_lt⟩)

theorem runs_reference (isSet tested : Bool) : lockOrder.Runs [] (reference p isSet tested) [] := by
  refine .append (m := []) ?_ ?_
  · split_ifs
    · exact runs_locked_nil Below.nil
    · exact .nil
  · split_ifs
    · exact .nil
    · exact runs_locked_nil Below.nil

variable [PageZones]

theorem runs_activate (isSet linked : Bool) : lockOrder.Runs [] (activate p isSet linked) [] := by
  refine .append (m := []) (.append (m := []) (.append (m := []) ?_ ?_) (runs_locked_nil Below.nil))
    (runs_locked_nil Below.nil)
  · split_ifs
    · exact .nil
    · exact runs_locked_nil Below.nil
  · split_ifs
    · exact runs_locked_nil Below.nil
    · exact .nil

theorem runs_mlinkPage (c : ChainRef) (anchor : ℕ) (x : ℕ × PageRef) :
    lockOrder.Runs [] (mlinkPage c anchor x) [] := by
  refine .append (.locked Below.nil (.locked (Below.nil.cons link_lt) (.call rfl ?_)))
    (.singleton ⟨rfl, rfl⟩)
  split_ifs
  -- The lock of the zone is held: it is not to be taken again.
  · exact .call ⟨rfl, fun h => absurd List.mem_cons_self (h _)⟩ (.singleton rfl)
  · exact .nil

end LockInstr

open LockInstr LockOrder

variable [PageZones] {s s' : LockState} {t : ThreadRef} {d d' : Shared} {k : Call}
  {held held' : List Lock} {body is : List LockInstr}

/-- What remains of a function follows the order. -/
theorem LockCalls.runs (hk : LockCalls s.data k d body) (hp : s.prog t = .call k :: is)
    (hsafe : InLockOrder s t) (hheld : Holds s t held) (hfits : k.fits held held') :
    lockOrder.Runs held body held' := by
  rw [InLockOrder, hp] at hsafe
  cases hk with
  | linkAddrRng | anchor =>
    obtain ⟨rfl, rfl⟩ := hfits
    exact .acquire Below.nil (.singleton ⟨rfl, rfl⟩)
  | mlinkInvalid =>
    -- The descriptor is not valid: the lock of the collection is released at once.
    obtain ⟨rfl, rfl⟩ := hfits
    exact .release List.mem_cons_self (by rw [List.erase_cons_head]; exact .nil)
  | mlinkValid =>
    obtain ⟨rfl, rfl⟩ := hfits
    refine .release List.mem_cons_self ?_
    rw [List.erase_cons_head]
    exact .flatMap fun x _ => runs_mlinkPage _ _ x
  | linkSame | addPage | setAnchor | delPage | resetChain | freeSlot =>
    obtain rfl := hfits
    exact .nil
  | linkNone =>
    obtain rfl := hfits
    exact .singleton rfl
  | linkOther hp' hc =>
    -- A page of another chain would be unlinked from it under that chain's lock, which the
    -- condition on the call excludes.
    dsimp only at hsafe
    rw [hp'] at hsafe
    rcases hsafe with h | h
    · cases h
    · exact absurd (Option.some.inj h) hc
  | unlinkNone | brkInvalid | rlsInvalid | unlinkEnd | munlockNone | exitEnd | freeNone =>
    obtain ⟨rfl, -⟩ := hfits
    exact .nil
  | unlinkPage =>
    obtain ⟨rfl, h⟩ := hfits
    split_ifs
    · exact .singleton ⟨rfl, h⟩
    · exact .nil
  | unlockChainOf => exact hfits.elim
  | mlockVmaPage =>
    obtain ⟨rfl, h⟩ := hfits
    exact .singleton ⟨rfl, h⟩
  | munlockVmaPage =>
    obtain ⟨rfl, h⟩ := hfits
    exact .singleton ⟨rfl, fun _ => h⟩
  | @lruSections zs =>
    -- The locks of the zones are taken one after the other: none is held in between.
    obtain ⟨rfl, h⟩ := hfits
    cases zs with
    | nil => exact .nil
    | cons z zs =>
      have hlru : NoLru held' := fun z' hz' => hsafe z' ((hheld.2 _).1 hz')
      exact .flatMap fun z' _ => runs_locked_nil (h hlru)
  | activate =>
    obtain ⟨rfl, rfl⟩ := hfits
    exact runs_activate _ _
  | reference =>
    obtain ⟨rfl, rfl⟩ := hfits
    exact runs_reference _ _
  | brkMemChain | rlsMemChain =>
    -- The lock of the collection is held around the chain's.
    obtain ⟨rfl, rfl⟩ := hfits
    exact .locked Below.nil (.singleton ⟨rfl, Below.nil.cons collection_lt⟩)
  | brkValid =>
    obtain ⟨rfl, h⟩ := hfits
    exact .locked h (runs_unlinkChain ((h.mono (by decide)).cons chain_lt))
  | rlsValid =>
    obtain ⟨rfl, h⟩ := hfits
    exact .append (m := held') (.locked h (runs_unlinkChain ((h.mono (by decide)).cons chain_lt)))
      (.singleton rfl)
  | unlinkPages =>
    obtain ⟨rfl, h⟩ := hfits
    exact .singleton ⟨rfl, h⟩
  | unlinkFrom =>
    obtain ⟨rfl, h⟩ := hfits
    exact .append (m := held') (.locked h (.singleton rfl)) (.singleton ⟨rfl, h⟩)
  | munlockAnchor =>
    obtain ⟨rfl, h⟩ := hfits
    exact .singleton ⟨rfl, h⟩
  | doExit | exitFree =>
    obtain ⟨rfl, rfl⟩ := hfits
    exact .singleton ⟨rfl, rfl⟩
  | exitSlot =>
    obtain ⟨rfl, rfl⟩ := hfits
    exact (runs_unlinkChainFast Below.nil).append (.singleton ⟨rfl, rfl⟩)
  | freePagesPrepare =>
    -- The locks of the chain and of the page are taken in this order.
    obtain ⟨rfl, rfl⟩ := hfits
    exact .locked Below.nil (.locked (Below.nil.cons chain_lt)
      (.singleton ⟨rfl, ((Below.nil.cons chain_lt).mono (by decide)).cons link_lt⟩))

/-- A function that may be called goes on. -/
theorem LockCalls.exists (d : Shared) (hfits : k.fits held held') : ∃ d' body, LockCalls d k d' body := by
  cases k with
  | linkAddrRng => exact ⟨_, _, .linkAddrRng⟩
  | anchor => exact ⟨_, _, .anchor⟩
  | brkMemChain => exact ⟨_, _, .brkMemChain⟩
  | rlsMemChain => exact ⟨_, _, .rlsMemChain⟩
  | doExit => exact ⟨_, _, .doExit⟩
  | freePagesPrepare p =>
    cases hp : d.chainOf p with
    | none => exact ⟨_, _, .freeNone hp⟩
    | some c => exact ⟨_, _, .freePagesPrepare hp⟩
  | doMlinkPages mcc c =>
    cases hc : d.chains mcc c with
    | none => exact ⟨_, _, .mlinkInvalid hc⟩
    | some chain => exact ⟨_, _, .mlinkValid hc⟩
  | linkPage c p =>
    cases hp : d.chainOf p with
    | none => exact ⟨_, _, .linkNone hp⟩
    | some c' =>
      by_cases hc : c' = c
      · exact ⟨_, _, .linkSame (hc ▸ hp)⟩
      · exact ⟨_, _, .linkOther hp hc⟩
  | unlinkPage p =>
    cases hp : d.chainOf p with
    | none => exact ⟨_, _, .unlinkNone hp⟩
    | some c => exact ⟨_, _, .unlinkPage hp⟩
  | unlockChainOf => exact hfits.elim
  | addPage => exact ⟨_, _, .addPage⟩
  | mlockVmaPage p =>
    obtain ⟨zs, hzs⟩ := PageZones.mlock_returns p
    exact ⟨_, _, .mlockVmaPage hzs⟩
  | setAnchor => exact ⟨_, _, .setAnchor⟩
  | munlockVmaPage p =>
    obtain ⟨zs, hzs⟩ := PageZones.munlock_returns p
    exact ⟨_, _, .munlockVmaPage hzs⟩
  | lruSections => exact ⟨_, _, .lruSections⟩
  | markPageAccessed => exact ⟨_, _, .activate true true⟩
  | brkChain mcc c =>
    cases hc : d.chains mcc c with
    | none => exact ⟨_, _, .brkInvalid hc⟩
    | some chain => exact ⟨_, _, .brkValid hc⟩
  | rlsChain mcc c =>
    cases hc : d.chains mcc c with
    | none => exact ⟨_, _, .rlsInvalid hc⟩
    | some chain => exact ⟨_, _, .rlsValid hc⟩
  | unlinkPages => exact ⟨_, _, .unlinkPages⟩
  | unlinkPagesFrom c page =>
    cases page with
    | none => exact ⟨_, _, .unlinkEnd⟩
    | some p => exact ⟨_, _, .unlinkFrom fun _ => rfl⟩
  | delPage => exact ⟨_, _, .delPage⟩
  | munlockAnchor c =>
    cases hc : d.anchor c with
    | none => exact ⟨_, _, .munlockNone hc⟩
    | some p => exact ⟨_, _, .munlockAnchor hc⟩
  | resetChain => exact ⟨_, _, .resetChain⟩
  | freeSlot => exact ⟨_, _, .freeSlot⟩
  | exitSlots mcc i =>
    rcases le_or_gt Mm.maxNumChains i with hi | hi
    · exact ⟨_, _, .exitEnd hi⟩
    · cases hc : d.chains mcc i with
      | none => exact ⟨_, _, .exitFree hi hc⟩
      | some chain => exact ⟨_, _, .exitSlot hi hc⟩

omit [PageZones] in
/-- The calls that threads make are made without locks. -/
theorem Call.IsEntry.fits (hk : k.IsEntry) : k.fits [] [] := by
  cases k with
  | linkAddrRng | anchor | brkMemChain | rlsMemChain | doExit | freePagesPrepare => exact ⟨rfl, rfl⟩
  | _ => exact hk.elim

theorem LockSystem.ordered (hs : LockSystem.ReachableBy InLockOrder s) : lockOrder.Ordered s := by
  refine hs.invariant (fun s hs t => ?_) fun _ t _ h hsafe hst =>
    h.step hst fun hp hk hheld hfits => hk.runs hp hsafe hheld hfits
  obtain ⟨ks, hks, hprog⟩ := hs.2 t
  refine ⟨[], ⟨List.nodup_nil, fun l => ?_⟩, ?_⟩
  · rw [hs.1 l]
    exact iff_of_false List.not_mem_nil fun h => by cases h
  · have hruns : lockOrder.Runs [] (ks.map .call) [] := .map fun k hk => (hks k hk).fits
    rw [hprog, ← List.append_nil (ks.map _)]
    exact hruns [] rfl

/-- When no page of a chain is linked to another chain, and no page is anchored in a way that takes an
    `lru_lock`, some thread that has not finished can always take its next step. -/
theorem lock_progresses (hs : LockSystem.ReachableBy InLockOrder s) : s.Progresses LockCalls :=
  (LockSystem.ordered hs).progresses fun _ hfits => LockCalls.exists _ hfits

/-! ## Two tasks that link a page -/

/-- The pages are in one zone, and `mlock_vma_page` isolates a page. -/
@[reducible] def PageZones.one : PageZones where
  pageZone _ := 0
  mlock _ zs := zs = [0]
  munlock _ zs := zs = [0]
  mlock_returns _ := ⟨_, rfl⟩
  munlock_returns _ := ⟨_, rfl⟩

/-- Two tasks, with a chain each: the first one links a page and breaks its chain, the second one links
    the page as well. -/
def linkBreak : LockState where
  prog := fun
    | 0 => [.call (.linkAddrRng 0 0 [(4096, 0)]), .call (.brkMemChain 0 0)]
    | 1 => [.call (.linkAddrRng 1 0 [(4096, 0)])]
    | _ => []
  owner _ := none
  data := {
    chainOf := fun _ => none
    links := fun _ => []
    anchor := fun _ => none
    chains := fun mcc c => if c = 0 then some mcc else none }

omit [PageZones] in
theorem linkBreak_init : (@LockSystem PageZones.one).init linkBreak :=
  ⟨fun _ => rfl, fun
    | 0 => ⟨[.linkAddrRng 0 0 [(4096, 0)], .brkMemChain 0 0], by simp [Call.IsEntry], rfl⟩
    | 1 => ⟨[.linkAddrRng 1 0 [(4096, 0)]], by simp [Call.IsEntry], rfl⟩
    | _ + 2 => ⟨[], List.forall_mem_nil _, rfl⟩⟩

set_option maxRecDepth 4000 in
omit [PageZones] in
/-- The first task breaks its chain and waits for the page, which the second task is linking; this one
    waits for the chain. -/
theorem linkBreak_run : let _ := PageZones.one
    ∃ s is is', LockSystem.RunBy (fun _ _ => True) linkBreak
        (List.replicate 17 0 ++ List.replicate 7 1) s ∧
      s.prog 0 = .acquire (.link 0) :: is ∧ s.prog 1 = .acquire (.chain 0) :: is' ∧
      (∀ t, s.prog (t + 2) = []) ∧ s.owner (.link 0) = some 1 ∧ s.owner (.chain 0) = some 0 := by
  let _ := PageZones.one
  refine ⟨_, _, _, .cons trivial (.call rfl .linkAddrRng) <| .cons trivial (.acquire rfl rfl) <|
    .cons trivial (.call rfl (.mlinkValid rfl)) <| .cons trivial (.release rfl) <|
    .cons trivial (.acquire rfl rfl) <| .cons trivial (.acquire rfl rfl) <|
    .cons trivial (.call rfl (.linkNone rfl)) <| .cons trivial (.call rfl .addPage) <|
    .cons trivial (.release rfl) <| .cons trivial (.release rfl) <|
    .cons trivial (.call rfl (.reference true false)) <| .cons trivial (.call rfl .brkMemChain) <|
    .cons trivial (.acquire rfl rfl) <| .cons trivial (.call rfl (.brkValid rfl)) <|
    .cons trivial (.acquire rfl rfl) <| .cons trivial (.call rfl .unlinkPages) <|
    .cons trivial (.call rfl (.unlinkFrom fun _ => rfl)) <|
    .cons trivial (.call rfl .linkAddrRng) <| .cons trivial (.acquire rfl rfl) <|
    .cons trivial (.call rfl (.mlinkValid rfl)) <| .cons trivial (.release rfl) <|
    .cons trivial (.acquire rfl rfl) <| .cons trivial (.acquire rfl rfl) <|
    .cons trivial (.call rfl (.linkOther rfl (by decide))) .nil,
    rfl, rfl, fun _ => rfl, rfl, rfl⟩

omit [PageZones] in
/-- Neither of the tasks can go on. -/
theorem breaking_deadlock : ∃ s, (@LockSystem PageZones.one).Reachable s ∧
    ¬ s.Progresses (@LockCalls PageZones.one) := by
  let _ := PageZones.one
  obtain ⟨s, is, is', hr, h₀, h₁, hnil, hlink, hchain⟩ := linkBreak_run
  refine ⟨s, hr.reachable (.init linkBreak_init), fun h => ?_⟩
  obtain ⟨t, ht, s', hst⟩ := h ⟨0, by rw [h₀]; exact List.cons_ne_nil _ _⟩
  match t with
  | 0 => exact absurd (hst.owner_eq_none h₀) (by rw [hlink]; exact Option.some_ne_none _)
  | 1 => exact absurd (hst.owner_eq_none h₁) (by rw [hchain]; exact Option.some_ne_none _)
  | t + 2 => exact ht (hnil t)

omit [PageZones] in
/-- A thread that links a page has the locks of the page and the zone. -/
theorem lock_progresses_link : let _ := PageZones.one
    ∃ s : LockState, s.owner (.link 0) = some 1 ∧ s.owner (.lru 0) = some 1 ∧ s.prog 1 ≠ [] ∧
      s.Progresses LockCalls := by
  let _ := PageZones.one
  obtain ⟨s, hr, hs⟩ : ∃ s, LockSystem.RunBy InLockOrder linkBreak (List.replicate 6 1) s ∧
      s.owner (.link 0) = some 1 ∧ s.owner (.lru 0) = some 1 ∧ s.prog 1 ≠ [] :=
    ⟨_, .cons trivial (.call rfl .linkAddrRng) <| .cons trivial (.acquire rfl rfl) <|
      .cons trivial (.call rfl (.mlinkValid rfl)) <| .cons trivial (.release rfl) <|
      .cons trivial (.acquire rfl rfl) <| .cons trivial (.acquire rfl rfl) .nil,
      rfl, rfl, List.cons_ne_nil _ _⟩
  exact ⟨s, hs.1, hs.2.1, hs.2.2, lock_progresses (hr.reachable (.init linkBreak_init))⟩

end Mcpq.Kernel
