import Mcpq.Kernel.Mm

/-!
# Memory chains

The functions of `mchain.c`, the chain code of the page allocator (`page_alloc.c`) and of the exit of
a task (`exit.c`).

An address space is the list of its memory areas from `find_vma` on, with the page that `follow_page`
finds at each address, after the faults of `__get_user_page`. The address of a chain allocated is the one
`kmalloc` returns.
-/

namespace Mcpq.Kernel

namespace Mm

variable [Mlock] (s : Mm)

/-! ## Links -/

/-- `list_del(&page->link)`, of a page on the list of the chain. -/
def listDel (m : MemoryChain) (pg : PageRef) : Result MemoryChain :=
  if pg ∈ m.links then .ok { m with links := m.links.erase pg } else .error .corruptList

/-- `__reset_page`. -/
def resetPage (page : PageRef) (clrFlgs : Bool) : Result Mm :=
  let chain := (s.page page).chain
  let s := s.modifyPage page fun p => { p with chain := none }
  if clrFlgs && (s.page page).referenced then
    let s := s.modifyPage page (·.clearBit .referenced)
    match chain with
    | none => .error .nullPointer
    | some c => s.modifyChain c fun m => { m with refCounter := m.refCounter - 1 }
  else .ok s

/-- `__unlink_page`: the page leaves its chain, if it is on one. -/
def unlinkPage (pg : PageRef) : Result Mm :=
  match (s.page pg).chain with
  | none => .ok s
  | some c => do
    let m ← s.derefChain c
    let m ← listDel m pg
    let s := if m.anchor = some pg then s.modifyPage pg Mlock.munlockVmaPage else s
    let m := { m with
      anchor := if m.anchor = some pg then none else m.anchor
      delegate := if m.delegate = some pg then none else m.delegate
      nrLinks := m.nrLinks - 1
      refCounter := if (s.page pg).referenced then m.refCounter - 1 else m.refCounter }
    (s.setChain c (some m)).resetPage pg false

/-- `__evict_page`: no victim is chosen. -/
def evictPage (_ : MemoryChain) : Option PageRef := none

/-- The page is unlinked from another chain, before it is linked. -/
def unlinkFromOther (pg : PageRef) : Result Mm :=
  match (s.page pg).chain with
  | none => .ok s
  | some _ => do
    let s ← s.unlinkPage pg
    -- The lock released is that of the chain the page is linked to now.
    match (s.page pg).chain with
    | none => .error .nullPointer
    | some _ => .ok s

/-- `__link_page`: the page leaves the chain it is on for the chain `c`. -/
def linkPage (c : ChainRef) (pg : PageRef) : Result Mm :=
  if (s.page pg).chain = some c then .ok s
  else do
    let s ← s.unlinkFromOther pg
    let m ← s.derefChain c
    let s ← (if m.isFull then
        match evictPage m with
        | none => .error .nullPointer
        | some victim => s.unlinkPage victim
      else .ok s)
    let m ← s.derefChain c
    let s := s.modifyPage pg fun p => { p with chain := some c }
    pure (s.setChain c (some { m with
      links := pg :: m.links
      nrLinks := m.nrLinks + 1
      refCounter := if (s.page pg).referenced then m.refCounter + 1 else m.refCounter }))

/-- An iteration of the loop of `__unlink_chain`. -/
def unlinkFromChain (c : ChainRef) (page : PageRef) : Result Mm := do
  let m ← s.derefChain c
  let m ← listDel m page
  (s.setChain c (some m)).resetPage page true

/-- `__unlink_chain`: the pages of the chain leave it, one after the other. -/
def unlinkChain (c : ChainRef) : Result Mm := do
  let m ← s.derefChain c
  let s ← m.links.foldlM (fun s page => s.unlinkFromChain c page) s
  let m ← s.derefChain c
  let s := match m.anchor with
    | none => s
    | some anchor => s.modifyPage anchor Mlock.munlockVmaPage
  pure (s.setChain c (some { m with
    links := [], anchor := none, delegate := none, nrLinks := 0, refCounter := 0 }))

/-! ## Address ranges -/

/-- A memory area; `stackGuard` tells whether its first page is the guard page of a stack. -/
structure Vma where
  vmStart : ℕ
  vmEnd : ℕ
  stackGuard : Bool := false
  deriving DecidableEq, Repr

/-- `PAGE_SIZE`. -/
def pageSize : ℕ := 4096

/-- The number of addresses: an `unsigned long` is taken modulo it. -/
def addressSpace : ℕ := 2 ^ 32

/-- `addr & PAGE_MASK`. -/
def pageMask (addr : ℕ) : ℕ := addr - addr % pageSize

/-- `PAGE_ALIGN`. -/
def pageAlign (addr : ℕ) : ℕ := pageMask ((addr + (pageSize - 1)) % addressSpace)

/-- `is_stack_guard_page`. -/
def isStackGuardPage (vma : Vma) (addr : ℕ) : Bool := vma.stackGuard && decide (vma.vmStart = addr)

/-- The addresses of the pages from `start` to `stop`. -/
def pageAddrs (start stop : ℕ) : List ℕ :=
  List.range' start ((stop - start + (pageSize - 1)) / pageSize) pageSize

/-- `__get_user_page`: the page found is marked as accessed (`FOLL_TOUCH`). -/
def getUserPage (lookup : ℕ → Option PageRef) (addr : ℕ) : Result (Mm × Option PageRef) :=
  match lookup addr with
  | none => .ok (s, none)
  | some page => do
    let s ← s.markPageAccessed page
    pure (s, some page)

/-- The page of an address is linked to the chain. -/
def mlinkPage (c : ChainRef) (anchor addr : ℕ) (page : PageRef) : Result Mm := do
  let s ← s.linkPage c page
  let s ← (if addr = anchor then
      (s.modifyPage page Mlock.mlockVmaPage).modifyChain c fun m => { m with anchor := some page }
    else .ok s)
  s.markPageAccessed page

/-- The addresses visited in an area: the guard page of a stack is not accessed. -/
def vmaAddrs (vma : Vma) (start stop : ℕ) : List ℕ :=
  pageAddrs (if isStackGuardPage vma start then start + pageSize else start) stop

/-- The loop of `__mlink_vma_pages_range`, with the number of pages linked. -/
def mlinkAddrs (lookup : ℕ → Option PageRef) (c : ChainRef) (anchor : ℕ) (addrs : List ℕ) :
    Result (Mm × ℤ) :=
  addrs.foldlM (fun r addr => do
    let (s, page) ← r.1.getUserPage lookup addr
    match page with
    | none => pure (s, r.2)
    | some page => do
      let s ← s.mlinkPage c anchor addr page
      pure (s, r.2 + 1)) (s, 0)

/-- `__mlink_vma_pages_range`: the pages of a part of an area are linked. -/
def mlinkVmaPagesRange (lookup : ℕ → Option PageRef) (c : ChainRef) (vma : Vma)
    (start stop anchor : ℕ) : Result (Mm × ℤ) :=
  if start < vma.vmStart ∨ vma.vmEnd < stop then .error .bug
  else s.mlinkAddrs lookup c anchor (vmaAddrs vma start stop)

/-- The areas from the one on that the address has come to. -/
def nextArea (vmas : List Vma) (at' : ℕ) : List Vma :=
  match vmas with
  | [] => []
  | vma :: next => if vma.vmEnd ≤ at' then next else vma :: next

/-- The loop of `do_mlink_pages` over the areas from the current one on, with the address `at'` it
    has come to and the value `r` to return. -/
def mlinkAreas (lookup : ℕ → Option PageRef) (c : ChainRef) (stop anchor : ℕ) :
    ℕ → List Vma → ℕ → ℤ → Mm → Result (Mm × ℤ)
  | fuel, vmas, at', r, s =>
    if at' < stop then
      match fuel with
      | 0 => .error .diverges
      | fuel + 1 =>
        match nextArea vmas at' with
        | [] => .ok (s, -1)
        | vma :: next =>
          if stop ≤ vma.vmStart then .ok (s, -1)
          else do
            let e := if stop < vma.vmEnd then stop else vma.vmEnd
            let start := if at' < vma.vmStart then vma.vmStart else at'
            let (s, r) ← s.mlinkVmaPagesRange lookup c vma start e anchor
            mlinkAreas lookup c stop anchor fuel (vma :: next) e r s
    else .ok (s, r)

/-- `find_vma`: the areas from the first one that ends after the address on. -/
def findVma (vmas : List Vma) (addr : ℕ) : List Vma := vmas.dropWhile fun vma => vma.vmEnd ≤ addr

/-- `do_mlink_pages`. Each iteration but the first one comes to the next area. -/
def doMlinkPages (vmas : List Vma) (lookup : ℕ → Option PageRef) (c : ChainRef)
    (start len anchor : ℕ) : Result (Mm × ℤ) :=
  let stop := (start + len) % addressSpace
  match findVma vmas start with
  | [] => .ok (s, -1)
  | vma :: next =>
    if stop ≤ vma.vmStart then .ok (s, -1)
    else mlinkAreas lookup c stop anchor (next.length + 2) (vma :: next) start (-1) s

/-! ## System calls -/

/-- The capacity of a collection. -/
def maxNumChains : ℕ := 255

/-- The loop of `__find_free_slot`, whose iterations examine five slots each. -/
def findFreeSlotFrom (array : List (Option ChainRef)) (len : ℕ) : ℕ → ℕ → Result ℤ
  | fuel, slot =>
    if slot < len then
      match fuel with
      | 0 => .error .diverges
      | fuel + 1 => do
        if (← arrayGet array slot).isNone then return slot
        let slot := slot + 1
        if (← arrayGet array slot).isNone then return slot
        let slot := slot + 1
        if (← arrayGet array slot).isNone then return slot
        let slot := slot + 1
        if (← arrayGet array slot).isNone then return slot
        let slot := slot + 1
        if (← arrayGet array slot).isNone then return slot
        findFreeSlotFrom array len fuel (slot + 1)
    else .ok (-1)

/-- `__find_free_slot`: the first slot that is free, or `-1`. -/
def findFreeSlot (array : List (Option ChainRef)) (len : ℕ) : Result ℤ :=
  findFreeSlotFrom array len len 0

/-- The collection `__init_mcc` allocates. -/
def initMcc : MemoryChainCollection where
  count := 0
  capacity := maxNumChains
  chains := List.replicate maxNumChains none

def setMcc (tsk : TaskRef) (mcc : Option MemoryChainCollection) : Mm :=
  { s with mcc := Function.update s.mcc tsk mcc }

/-- `new_mem_chain`, with the slot of the chain, allocated at `addr`. -/
def newMemChain (tsk : TaskRef) (addr : ChainRef) : Result (Mm × ℤ) :=
  let mcc := (s.mcc tsk).getD initMcc
  if mcc.count < mcc.capacity then do
    let slot ← findFreeSlot mcc.chains mcc.capacity
    if 0 ≤ slot ∧ slot.toNat < mcc.chains.length then
      let s := s.setChain addr (some { id := slot.toNat })
      pure (s.setMcc tsk (some { mcc with
        chains := mcc.chains.set slot.toNat (some addr), count := mcc.count + 1 }), slot)
    else .error .outOfBounds
  else .ok (s.setMcc tsk (some mcc), -2)

/-- The chain of a descriptor of the task, or `none` if it is invalid. -/
def chainOf (tsk : TaskRef) (c : ℕ) : Result (Option (MemoryChainCollection × ChainRef)) :=
  match s.mcc tsk with
  | none => .ok none
  | some mcc =>
    if mcc.capacity ≤ c then .ok none
    else do
      let chain ← arrayGet mcc.chains c
      pure (chain.map fun chain => (mcc, chain))

/-- The system call `link_addr_rng`. -/
def linkAddrRng (vmas : List Vma) (lookup : ℕ → Option PageRef) (tsk : TaskRef) (c start len : ℕ) :
    Result (Mm × ℤ) := do
  match ← s.chainOf tsk c with
  | none => pure (s, -1)
  | some (_, chain) =>
    let len := pageAlign ((len + start % pageSize) % addressSpace)
    s.doMlinkPages vmas lookup chain (pageMask start) len 0

/-- The system call `anchor`. -/
def anchor (vmas : List Vma) (lookup : ℕ → Option PageRef) (tsk : TaskRef) (c addr : ℕ) :
    Result (Mm × ℤ) := do
  match ← s.chainOf tsk c with
  | none => pure (s, -1)
  | some (_, chain) =>
    let len := pageAlign ((pageSize + addr % pageSize) % addressSpace)
    let (s, _) ← s.doMlinkPages vmas lookup chain (pageMask addr) len (pageMask addr)
    pure (s, 0)

/-- The system call `brk_mem_chain`: the pages of the chain leave it, and it stays. -/
def brkMemChain (tsk : TaskRef) (c : ℕ) : Result (Mm × ℤ) := do
  match ← s.chainOf tsk c with
  | none => pure (s, -1)
  | some (_, chain) =>
    let s ← s.unlinkChain chain
    pure (s, 0)

/-- `kfree` of a chain. -/
def kfreeChain (c : ChainRef) : Result Mm := do
  let _ ← s.derefChain c
  pure (s.setChain c none)

/-- The system call `rls_mem_chain`: the chain is freed, and its slot too. -/
def rlsMemChain (tsk : TaskRef) (c : ℕ) : Result (Mm × ℤ) := do
  match ← s.chainOf tsk c with
  | none => pure (s, -1)
  | some (mcc, chain) =>
    let s ← s.unlinkChain chain
    let s ← s.kfreeChain chain
    pure (s.setMcc tsk (some { mcc with chains := mcc.chains.set c none, count := mcc.count - 1 }),
      0)

/-! ## The page allocator -/

/-- The loop of `free_pages_prepare` over the pages, with the number of bad ones. -/
def freePagesChecks (page : PageRef) (order : ℕ) : Mm × ℕ :=
  (List.range (2 ^ order)).foldl (fun (s, bad) i =>
    let checked := (s.page (page + i)).freePagesCheck
    (s.modifyPage (page + i) fun _ => checked.1, if checked.2 then bad + 1 else bad)) (s, 0)

/-- The chain code of `free_pages_prepare`. -/
def unlinkFreed (page : PageRef) : Result Mm :=
  match (s.page page).chain with
  | none => .ok s
  | some c => do
    let s ← s.modifyChain c fun m => { m with evictCnt := m.evictCnt + 1 }
    s.unlinkPage page

/-- `free_pages_prepare`, with the value returned. -/
def freePagesPrepare (page : PageRef) (order : ℕ) : Result (Mm × Bool) :=
  let r := (s.modifyPage page Page.unmapAnon).freePagesChecks page order
  if r.2 ≠ 0 then .ok (r.1, false)
  else do
    let s ← r.1.unlinkFreed page
    pure (s, true)

/-- An order-0 free: the page goes to the page allocator, unless it is bad. -/
def freePage (page : PageRef) : Result Mm := do
  let r ← s.freePagesPrepare page 0
  pure (if r.2 then { r.1 with allocated := Function.update r.1.allocated page false } else r.1)

/-- `prep_new_page` of order 0, with the value returned. -/
def prepNewPage (page : PageRef) : Mm × ℤ :=
  let checked := (s.page page).checkNewPage
  if checked.2 then (s.modifyPage page fun _ => checked.1, 1)
  else (s.modifyPage page fun p => { p with count := 1, chain := none }, 0)

/-- An order-0 allocation of a page of the page allocator, which keeps no page that is bad. -/
def allocPage (page : PageRef) : Mm :=
  let r := s.prepNewPage page
  if r.2 = 0 then { r.1 with allocated := Function.update r.1.allocated page true } else r.1

/-! ## The exit of a task -/

/-- `unlink_chain_fast`. -/
def unlinkChainFast (c : ChainRef) : Result Mm := do
  let m ← s.derefChain c
  m.links.foldlM (fun s page => do
    let m ← s.derefChain c
    let m ← listDel m page
    pure ((s.setChain c (some m)).modifyPage page fun p => { p with chain := none })) s

/-- A slot is examined by the exit of a task: the chain in it is freed. The attributes of the chain
    are freed before it. -/
def exitSlot (mcc : MemoryChainCollection) (i : ℕ) (s : Mm) : Result (MemoryChainCollection × Mm) := do
  match ← arrayGet mcc.chains i with
  | none => pure (mcc, s)
  | some c =>
    let _ ← s.derefChain c
    let s ← s.unlinkChainFast c
    let s ← s.kfreeChain c
    pure ({ mcc with count := mcc.count - 1 }, s)

/-- The loop of `do_exit` over the slots, whose iterations examine five slots each. -/
def exitSlots : ℕ → ℕ → MemoryChainCollection → Mm → Result (MemoryChainCollection × Mm)
  | fuel, i, mcc, s =>
    if i < mcc.capacity ∧ 0 < mcc.count then
      match fuel with
      | 0 => .error .diverges
      | fuel + 1 => do
        let (mcc, s) ← exitSlot mcc i s
        let i := i + 1
        let (mcc, s) ← exitSlot mcc i s
        let i := i + 1
        let (mcc, s) ← exitSlot mcc i s
        let i := i + 1
        let (mcc, s) ← exitSlot mcc i s
        let i := i + 1
        let (mcc, s) ← exitSlot mcc i s
        exitSlots fuel (i + 1) mcc s
    else .ok (mcc, s)

/-- The chain code of `do_exit`. -/
def doExit (tsk : TaskRef) : Result Mm := do
  let s ← (match s.mcc tsk with
    | none => .ok s
    | some mcc => do
      let (_, s) ← exitSlots mcc.capacity 0 mcc s
      pure s)
  pure (s.setMcc tsk none)

/-! ## What a system call has done -/

section calls

variable {s} {s' : Mm} {vmas : List Vma} {lookup : ℕ → Option PageRef} {tsk : TaskRef}
  {c start len addr : ℕ} {r : ℤ}

/-- A range has been linked, unless the descriptor is not valid. -/
theorem linkAddrRng_cases (heq : s.linkAddrRng vmas lookup tsk c start len = .ok (s', r)) :
    s.chainOf tsk c = .ok none ∧ s' = s ∨ ∃ x, s.chainOf tsk c = .ok (some x) ∧
      s.doMlinkPages vmas lookup x.2 (pageMask start)
        (pageAlign ((len + start % pageSize) % addressSpace)) 0 = .ok (s', r) := by
  obtain ⟨o, ho, heq⟩ := bind_eq_ok.1 heq
  rcases o with _ | x
  · exact .inl ⟨ho, (congrArg Prod.fst (Except.ok.inj heq)).symm⟩
  · exact .inr ⟨x, ho, heq⟩

/-- The range of an address has been linked, with the page of the address as the anchor. -/
theorem anchor_cases (heq : s.anchor vmas lookup tsk c addr = .ok (s', r)) :
    s.chainOf tsk c = .ok none ∧ s' = s ∨ ∃ x r', s.chainOf tsk c = .ok (some x) ∧
      s.doMlinkPages vmas lookup x.2 (pageMask addr)
        (pageAlign ((pageSize + addr % pageSize) % addressSpace)) (pageMask addr) = .ok (s', r') := by
  obtain ⟨o, ho, heq⟩ := bind_eq_ok.1 heq
  rcases o with _ | x
  · exact .inl ⟨ho, (congrArg Prod.fst (Except.ok.inj heq)).symm⟩
  · obtain ⟨y, hy, heq⟩ := bind_eq_ok.1 heq
    obtain rfl := congrArg Prod.fst (Except.ok.inj heq)
    exact .inr ⟨x, y.2, ho, hy⟩

/-- The pages of a chain have been unlinked. -/
theorem brkMemChain_cases (heq : s.brkMemChain tsk c = .ok (s', r)) :
    s.chainOf tsk c = .ok none ∧ s' = s ∨
      ∃ x, s.chainOf tsk c = .ok (some x) ∧ s.unlinkChain x.2 = .ok s' := by
  obtain ⟨o, ho, heq⟩ := bind_eq_ok.1 heq
  rcases o with _ | x
  · exact .inl ⟨ho, (congrArg Prod.fst (Except.ok.inj heq)).symm⟩
  · obtain ⟨s₁, hs₁, heq⟩ := bind_eq_ok.1 heq
    obtain rfl := congrArg Prod.fst (Except.ok.inj heq)
    exact .inr ⟨x, ho, hs₁⟩

/-- The pages of a chain have been unlinked, and the chain freed. -/
theorem rlsMemChain_cases (heq : s.rlsMemChain tsk c = .ok (s', r)) :
    s.chainOf tsk c = .ok none ∧ s' = s ∨ ∃ x s₁ s₂, s.chainOf tsk c = .ok (some x) ∧
      s.unlinkChain x.2 = .ok s₁ ∧ s₁.kfreeChain x.2 = .ok s₂ ∧ s' = s₂.setMcc tsk
        (some { x.1 with chains := x.1.chains.set c none, count := x.1.count - 1 }) := by
  obtain ⟨o, ho, heq⟩ := bind_eq_ok.1 heq
  rcases o with _ | x
  · exact .inl ⟨ho, (congrArg Prod.fst (Except.ok.inj heq)).symm⟩
  · obtain ⟨s₁, hs₁, heq⟩ := bind_eq_ok.1 heq
    obtain ⟨s₂, hs₂, heq⟩ := bind_eq_ok.1 heq
    exact .inr ⟨x, s₁, s₂, ho, hs₁, hs₂, (congrArg Prod.fst (Except.ok.inj heq)).symm⟩

omit [Mlock] in
/-- The exit of a task has examined a slot: it was empty, or its chain has been freed. -/
theorem exitSlot_cases {mcc : MemoryChainCollection} {i : ℕ} {r : MemoryChainCollection × Mm}
    (heq : exitSlot mcc i s = .ok r) : r = (mcc, s) ∨ ∃ d m s₁, some d ∈ mcc.chains ∧
      s.derefChain d = .ok m ∧ s.unlinkChainFast d = .ok s₁ ∧ s₁.kfreeChain d = .ok r.2 ∧
      r.1 = { mcc with count := mcc.count - 1 } := by
  obtain ⟨o, ho, heq⟩ := bind_eq_ok.1 heq
  rcases o with _ | d
  · exact .inl (Except.ok.inj heq).symm
  · obtain ⟨m, hm, heq⟩ := bind_eq_ok.1 heq
    obtain ⟨s₁, hs₁, heq⟩ := bind_eq_ok.1 heq
    obtain ⟨s₂, hs₂, heq⟩ := bind_eq_ok.1 heq
    obtain rfl := Except.ok.inj heq
    exact .inr ⟨d, m, s₁, mem_of_arrayGet ho, hm, hs₁, hs₂, rfl⟩

omit [Mlock] in
/-- A task has exited: the slots of its collection, if it has one, have been examined. -/
theorem doExit_cases (heq : s.doExit tsk = .ok s') : s.mcc tsk = none ∧ s' = s.setMcc tsk none ∨
    ∃ mcc x, s.mcc tsk = some mcc ∧ exitSlots mcc.capacity 0 mcc s = .ok x ∧
      s' = x.2.setMcc tsk none := by
  obtain ⟨s₁, hs₁, heq⟩ := bind_eq_ok.1 heq
  obtain rfl := Except.ok.inj heq
  cases hmcc : s.mcc tsk with
  | none =>
    rw [hmcc] at hs₁
    obtain rfl := Except.ok.inj hs₁
    exact .inl ⟨rfl, rfl⟩
  | some mcc =>
    rw [hmcc] at hs₁
    obtain ⟨x, hx, hs₁⟩ := bind_eq_ok.1 hs₁
    obtain rfl := Except.ok.inj hs₁
    exact .inr ⟨mcc, x, rfl, hx, rfl⟩

end calls

end Mm

end Mcpq.Kernel
