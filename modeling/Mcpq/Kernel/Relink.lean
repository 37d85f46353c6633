import Mcpq.Kernel.Structure

/-!
# Moving a page to another chain

A page that is on a chain is to be unlinked from it before it is linked to another one, under the lock
of the chain it leaves (`linkPageLocks`: `linkPage` with the chain locks it acquires and releases). But
`__unlink_page` resets the pointer by which the lock is found again: no page is moved (`relink_fails`).
-/

namespace Mcpq.Kernel.Mm

/-- What is done with the lock of a chain. -/
inductive ChainLockOp
  | acquire (c : ChainRef)
  | release (c : ChainRef)
  deriving DecidableEq, Repr

variable [Mlock] (s : Mm)

/-- `unlinkFromOther`, with the locks. -/
def unlinkFromOtherLocks (pg : PageRef) : Result (Mm × List ChainLockOp) :=
  match (s.page pg).chain with
  | none => .ok (s, [])
  | some c => do
    let s ← s.unlinkPage pg
    match (s.page pg).chain with
    | none => .error .nullPointer
    | some d => .ok (s, [.acquire c, .release d])

/-- `linkPage`, with the locks. -/
def linkPageLocks (c : ChainRef) (pg : PageRef) : Result (Mm × List ChainLockOp) :=
  if (s.page pg).chain = some c then .ok (s, [])
  else do
    let (s, locks) ← s.unlinkFromOtherLocks pg
    let m ← s.derefChain c
    let s ← (if m.isFull then
        match evictPage m with
        | none => .error .nullPointer
        | some victim => s.unlinkPage victim
      else .ok s)
    let m ← s.derefChain c
    let s := s.modifyPage pg fun p => { p with chain := some c }
    pure (s.setChain c (some { m with
      links := pg :: m.links
      nrLinks := m.nrLinks + 1
      refCounter := if (s.page pg).referenced then m.refCounter + 1 else m.refCounter }), locks)

variable {s} {s' : Mm} {p : PageRef} {c d : ChainRef}

theorem unlinkFromOtherLocks_fst (s : Mm) (p : PageRef) :
    (s.unlinkFromOtherLocks p).map Prod.fst = s.unlinkFromOther p := by
  rw [unlinkFromOtherLocks, unlinkFromOther]
  cases (s.page p).chain with
  | none => rfl
  | some c =>
    dsimp only
    cases s.unlinkPage p with
    | error e => rfl
    | ok s₁ =>
      dsimp only [ok_bind]
      cases (s₁.page p).chain with
      | none => rfl
      | some d => rfl

/-- The locks do not matter for what is linked. -/
theorem linkPageLocks_fst (s : Mm) (c : ChainRef) (p : PageRef) :
    (s.linkPageLocks c p).map Prod.fst = s.linkPage c p := by
  rw [linkPageLocks, linkPage, ← unlinkFromOtherLocks_fst]
  split_ifs
  · rfl
  · cases s.unlinkFromOtherLocks p with
    | error e => rfl
    | ok r =>
      change Except.map Prod.fst (do let m ← r.1.derefChain c; _) = (do let m ← r.1.derefChain c; _)
      cases r.1.derefChain c with
      | error e => rfl
      | ok m =>
        dsimp only [ok_bind]
        cases (if m.isFull = true then
            (match evictPage m with
              | none => Except.error Oops.nullPointer
              | some victim => r.1.unlinkPage victim)
            else Except.ok r.1) with
        | error e => rfl
        | ok s₁ =>
          dsimp only [ok_bind]
          cases s₁.derefChain c with
          | error e => rfl
          | ok m => rfl

/-- The page `p` of the chain `c` is moved to the chain `d`: the chain left is locked, and released; it
    loses the page, with its reference and its roles; the other chain gets it; and the rest of the
    memory stays the same. -/
def PageMoved (s : Mm) (c d : ChainRef) (p : PageRef) : Prop :=
  ∃ s' m m' n n', s.linkPageLocks d p = .ok (s', [.acquire c, .release c]) ∧
    s.chain c = some m ∧ s'.chain c = some m' ∧ s.chain d = some n ∧ s'.chain d = some n' ∧
    m' = { m with
      links := m.links.erase p
      nrLinks := m.nrLinks - 1
      refCounter := m.refCounter - (s.bit p).toNat
      anchor := if m.anchor = some p then none else m.anchor
      delegate := if m.delegate = some p then none else m.delegate } ∧
    n' = { n with
      links := p :: n.links
      nrLinks := n.nrLinks + 1
      refCounter := n.refCounter + (s.bit p).toNat } ∧
    (s'.page p).chain = some d ∧ (s'.page p).referenced = (s.page p).referenced ∧
    (∀ q, q ≠ p → s'.page q = s.page q) ∧ ∀ e, e ≠ c → e ≠ d → s'.chain e = s.chain e

/-- A page that is moved is linked. -/
theorem PageMoved.linkPage (h : PageMoved s c d p) : ∃ s', s.linkPage d p = .ok s' := by
  obtain ⟨s', m, m', n, n', heq, -⟩ := h
  refine ⟨s', ?_⟩
  rw [← linkPageLocks_fst, heq]
  rfl

/-- No page of a chain is moved to another one. The page points to no chain when the lock of the chain
    it has left is to be released. -/
theorem relink_fails (h : s.Linked) {m : MemoryChain} (hm : s.chain c = some m) (hp : p ∈ m.links)
    (hcd : c ≠ d) :
    s.linkPage d p = .error .nullPointer ∧ ¬ PageMoved s c d p := by
  have hhome : s.home p = some c := (h.members.mem_iff p c).1 (links_of_chain hm ▸ hp)
  have hnull := linkPage_of_other h hhome hcd
  refine ⟨hnull, fun hmoved => ?_⟩
  obtain ⟨s', heq⟩ := hmoved.linkPage
  rw [hnull] at heq
  cases heq

/-- A page is linked to a chain of a task that has two. -/
def relinked : List Op :=
  [.allocPage 0, .newMemChain 0 7, .newMemChain 0 8,
    .linkAddrRng [⟨4096, 8192, false⟩] (fun a => if a = 4096 then some 0 else none) 0 0 4096 4096]

set_option maxRecDepth 8000 in
omit [Mlock] in
/-- Both chains are live, and the page is the delegate of the first one. -/
theorem relinked_run : let _ := Mlock.flag
    ∃ s, (@System Mlock.flag).Reachable s ∧ s.linkPage 8 0 = .error .nullPointer ∧
      s.chain 8 = some { id := 1 } ∧
      s.chain 7 = some { id := 0, nrLinks := 1, links := [0], refCounter := 1, delegate := some 0 } := by
  let _ := Mlock.flag
  have hs : System.Reachable ({} : Mm) :=
    .init ⟨fun _ => rfl, fun _ => rfl, fun _ => rfl, fun _ h => nomatch h⟩
  obtain ⟨s, hr, hs₁⟩ : ∃ s, System.RunBy (fun _ _ => True) {} relinked s ∧
      s.linkPage 8 0 = .error .nullPointer ∧ s.chain 8 = some { id := 1 } ∧ s.chain 7 = some
        { id := 0, nrLinks := 1, links := [0], refCounter := 1, delegate := some 0 } := by
    refine ⟨_, .cons trivial ⟨⟨rfl, by decide⟩, rfl⟩ (.cons trivial ⟨rfl, rfl⟩ (.cons trivial ⟨rfl, rfl⟩
      (.cons trivial ⟨fun a p ha => ?_, rfl⟩ .nil))), rfl, rfl, rfl⟩
    dsimp only at ha
    split_ifs at ha
    exact Option.some.inj ha ▸ rfl
  exact ⟨s, hr.reachable hs, hs₁⟩

omit [Mlock] in
/-- The page is the delegate of the chain it is on. -/
theorem relink_fails_delegate : ∃ s m, (@System Mlock.flag).Reachable s ∧ s.chain 7 = some m ∧
    0 ∈ m.links ∧ @linkPage Mlock.flag s 8 0 = .error .nullPointer ∧ ¬ @PageMoved Mlock.flag s 7 8 0 := by
  let _ := Mlock.flag
  obtain ⟨s, hs, -, -, hm⟩ := relinked_run
  exact ⟨s, _, hs, hm, List.mem_singleton_self 0, relink_fails (reachable_covers hs).1 hm
    (List.mem_singleton_self 0) (by decide)⟩

omit [Mlock] in
/-- A page is to be moved between two chains of a task. -/
theorem not_pageMoved : ∃ s m n, (@System Mlock.flag).Reachable s ∧ s.chain 7 = some m ∧ 0 ∈ m.links ∧
    s.chain 8 = some n ∧ ¬ @PageMoved Mlock.flag s 7 8 0 := by
  let _ := Mlock.flag
  obtain ⟨s, hs, hnull, hn, hm⟩ := relinked_run
  refine ⟨s, _, _, hs, hm, List.mem_singleton_self 0, hn, fun hmoved => ?_⟩
  obtain ⟨s', heq⟩ := hmoved.linkPage
  rw [hnull] at heq
  cases heq

end Mcpq.Kernel.Mm
