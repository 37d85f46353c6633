import Mcpq.Kernel.Structure

/-!
# References that threads count concurrently

The functions that set and clear the reference of a page write its bit first, and the counter of its
chain under the `link_lock` of the page afterwards (`page-flags.h`). In between, other threads may link
or unlink the page, which counts the bit as it is then (`ThreadSystem`).

So a page that is linked while a thread is about to count that its bit has been cleared, or unlinked
while one is about to count that it has been set, makes the counter of the chain too low
(`counter_negative`). It is not in the runs without such steps (`counter_covers`), unless a counter that
has the greatest value is incremented.
-/

namespace Mcpq.Kernel

/-- A thread. -/
abbrev ThreadRef := ℕ

/-- An operation on the reference of a page that is half-way: the bit has been written. -/
inductive Half
  | set (p : PageRef)
  | clear (p : PageRef) (isSet : Bool)
  | testClear (p : PageRef) (v : Bool)
  deriving DecidableEq, Repr

namespace Mm

variable (s : Mm) (p : PageRef)

/-- The section of `SetPageReferenced` under `link_lock`. -/
def setSection : Result Mm :=
  match (s.page p).chain with
  | none => .ok s
  | some c => s.modifyChain c fun m => { m with refCounter := m.refCounter + 1 }

/-- The section of `ClearPageReferenced` under `link_lock`. -/
def clearSection (isSet : Bool) : Result Mm :=
  match (s.page p).chain with
  | none => .ok s
  | some c =>
    if isSet then s.modifyChain c fun m => { m with refCounter := m.refCounter - 1 } else .ok s

/-- The section of `TestClearPageReferenced` under `link_lock`, with the value returned. -/
def testClearSection (v : Bool) : Result (Mm × Bool) :=
  match (s.page p).chain with
  | none => .ok (s, v)
  | some c => do
    let s ← (if v then s.modifyChain c fun m => { m with refCounter := m.refCounter - 1 }
      else .ok s)
    let m ← s.derefChain c
    pure (s, v || decide (m.counter ≠ 0))

/-- Without other threads, the halves are the functions. -/
theorem sections_eq :
    s.setPageReferenced p = (s.modifyPage p (·.setBit .referenced)).setSection p ∧
    s.clearPageReferenced p = (s.modifyPage p (·.clearBit .referenced)).clearSection p (s.bit p) ∧
    s.testClearPageReferenced p =
      (s.modifyPage p (·.clearBit .referenced)).testClearSection p (s.bit p) :=
  ⟨rfl, rfl, rfl⟩

end Mm

namespace Half

/-- The page of the operation. -/
def page : Half → PageRef
  | set p => p
  | clear p _ => p
  | testClear p _ => p

/-- What the other half adds to the counter of the chain of the page. -/
def delta : Half → ℤ
  | set _ => 1
  | clear _ isSet => -isSet.toNat
  | testClear _ v => -v.toNat

/-- Execute the other half. -/
def exec (s : Mm) : Half → Result Mm
  | set p => s.setSection p
  | clear p isSet => s.clearSection p isSet
  | testClear p v => (s.testClearSection p v).map Prod.fst

end Half

/-- The memory, and the operations that threads have half-way. -/
structure Threads where
  mm : Mm := {}
  halves : List (ThreadRef × Half) := []

namespace Threads

variable (s : Threads)

/-- The thread has no operation half-way. -/
def Idle (t : ThreadRef) : Prop := ∀ x, (t, x) ∉ s.halves

/-- The sets of the bit of a page that are not counted yet, less the clears that are not. -/
def uncounted (p : PageRef) : ℤ :=
  (s.halves.map fun x => if p = x.2.page then x.2.delta else 0).sum

end Threads

/-- A step of a thread. -/
inductive ThreadOp
  | setBit (t : ThreadRef) (p : PageRef)
  | clearBit (t : ThreadRef) (p : PageRef)
  | testClearBit (t : ThreadRef) (p : PageRef)
  | lockSection (t : ThreadRef)
  | linkPage (t : ThreadRef) (c : ChainRef) (p : PageRef)
  | unlinkPage (t : ThreadRef) (p : PageRef)
  deriving DecidableEq, Repr

/-- The steps: an atomic operation on the bit, or a section under `link_lock`. A page that is linked is
    not with the page allocator. -/
inductive ThreadStep [Mlock] (s : Threads) : ThreadOp → Threads → Prop
  | setBit {t : ThreadRef} {p : PageRef} (ht : s.Idle t) : ThreadStep s (.setBit t p)
    ⟨s.mm.modifyPage p (·.setBit .referenced), (t, .set p) :: s.halves⟩
  | clearBit {t : ThreadRef} {p : PageRef} (ht : s.Idle t) : ThreadStep s (.clearBit t p)
    ⟨s.mm.modifyPage p (·.clearBit .referenced), (t, .clear p (s.mm.bit p)) :: s.halves⟩
  | testClearBit {t : ThreadRef} {p : PageRef} (ht : s.Idle t) : ThreadStep s (.testClearBit t p)
    ⟨s.mm.modifyPage p (·.clearBit .referenced), (t, .testClear p (s.mm.bit p)) :: s.halves⟩
  | lockSection {t : ThreadRef} {x : Half} {mm : Mm} (hx : (t, x) ∈ s.halves)
    (heq : x.exec s.mm = .ok mm) : ThreadStep s (.lockSection t) ⟨mm, s.halves.erase (t, x)⟩
  | linkPage {t : ThreadRef} {c : ChainRef} {p : PageRef} {mm : Mm} (ht : s.Idle t)
    (hp : s.mm.allocated p = true) (heq : s.mm.linkPage c p = .ok mm) :
    ThreadStep s (.linkPage t c p) ⟨mm, s.halves⟩
  | unlinkPage {t : ThreadRef} {p : PageRef} {mm : Mm} (ht : s.Idle t)
    (heq : s.mm.unlinkPage p = .ok mm) : ThreadStep s (.unlinkPage t p) ⟨mm, s.halves⟩

/-- The runs of the threads, from a memory whose counters count the references at least, and fit. -/
def ThreadSystem [Mlock] : Transition Threads ThreadOp where
  init s := s.mm.Covers ∧ s.mm.Fits ∧ s.halves = []
  step := ThreadStep

/-- The counter of the chain does not have the greatest value. -/
def CounterBelow (s : Threads) (c : ChainRef) : Prop :=
  ∀ m, s.mm.chain c = some m → m.counter ≠ 2 ^ 31 - 1

/-- A page is linked only when at least as many sets as clears of it are half-way, and unlinked only when
    at most as many are; and no counter is incremented that has the greatest value. -/
def OutsideHalves (s : Threads) : ThreadOp → Prop
  | .linkPage _ c p => s.mm.home p = none → 0 ≤ s.uncounted p ∧ (s.mm.bit p = true → CounterBelow s c)
  | .unlinkPage _ p => s.mm.home p ≠ none → s.uncounted p ≤ 0
  | .lockSection t => ∀ p c, (t, .set p) ∈ s.halves → s.mm.home p = some c → CounterBelow s c
  | _ => True

/-! ## The counters -/

namespace Threads

open Mm

variable {s s' : Threads} {t : ThreadRef} {p : PageRef} {c : ChainRef} {x : Half}

/-- By how much the counter of a chain will exceed the number of its pages that are referenced, when
    the operations half-way have been counted. -/
def balance (s : Threads) (c : ChainRef) : ℤ := s.mm.excess c + ((s.mm.links c).map s.uncounted).sum

/-- The counters will count the references at least. -/
def Balanced (s : Threads) : Prop := s.mm.Linked ∧ ∀ c, 0 ≤ s.balance c

theorem uncounted_nil (h : s.halves = []) (p : PageRef) : s.uncounted p = 0 := by
  rw [uncounted, h]
  rfl

theorem uncounted_cons (hs : s'.halves = (t, x) :: s.halves) (p : PageRef) :
    s'.uncounted p = s.uncounted p + if p = x.page then x.delta else 0 := by
  rw [uncounted, hs, List.map_cons, List.sum_cons, add_comm]
  rfl

theorem uncounted_erase (hx : (t, x) ∈ s.halves) (hs : s'.halves = s.halves.erase (t, x))
    (p : PageRef) : s'.uncounted p = s.uncounted p + if p = x.page then -x.delta else 0 := by
  have hperm := ((List.perm_cons_erase hx).map fun y : ThreadRef × Half =>
    if p = y.2.page then y.2.delta else 0).sum_eq
  rw [List.map_cons, List.sum_cons] at hperm
  rw [uncounted, uncounted, hs, hperm]
  split_ifs
  · ring
  · ring

/-- A page is touched, with `j` more counted, and `k` more to be counted. -/
theorem Balanced.touch (h : s.Balanced) {y : Page} {e : ChainRef → ℤ} {j k : ℤ}
    (ht : Touches s.mm s'.mm p y e) (he : ∀ c, e c = s.mm.excess c + if s.mm.home p = some c then j else 0)
    (hu : ∀ q, s'.uncounted q = s.uncounted q + if q = p then k else 0) (hjk : 0 ≤ j + k) :
    s'.Balanced := by
  refine ⟨ht.linked, fun c => ?_⟩
  have hsum : ((s'.mm.links c).map s'.uncounted).sum = ((s.mm.links c).map s.uncounted).sum +
      if p ∈ s.mm.links c then k else 0 := by
    rw [ht.links_eq, ← sum_map_add_ite (h.1.members.nodup c)]
    congr 2
    funext q
    exact hu q
  have hb := h.2 c
  rw [balance] at hb
  rw [balance, ht.excess_eq, he, hsum, if_congr (h.1.members.mem_iff p c) rfl rfl]
  split_ifs
  · linarith
  · linarith

/-- The other half of an operation, on a page of a chain. -/
theorem exec_eq {s₁ : Mm} {m : MemoryChain} (hp : s₁.home x.page = some c) (hm : s₁.chain c = some m) :
    x.exec s₁ = .ok (s₁.setChain c (some { m with refCounter := m.refCounter + x.delta })) := by
  have hp' : (s₁.page x.page).chain = some c := hp
  have hself : s₁.setChain c (some { m with refCounter := m.refCounter + 0 }) = s₁ := by
    rw [add_zero, setChain, ← hm, Function.update_eq_self]
  match x with
  | .set p =>
    rw [Half.exec, setSection, show (s₁.page p).chain = some c from hp']
    exact modifyChain_eq hm _
  | .clear p true =>
    rw [Half.exec, clearSection, show (s₁.page p).chain = some c from hp']
    exact modifyChain_eq hm _
  | .clear p false =>
    rw [Half.exec, clearSection, show (s₁.page p).chain = some c from hp']
    exact congrArg Except.ok hself.symm
  | .testClear p true =>
    rw [Half.exec, testClearSection, show (s₁.page p).chain = some c from hp']
    dsimp only
    rw [if_pos rfl, modifyChain_eq hm, ok_bind, derefChain_eq_ok.2 (setChain_self _)]
    rfl
  | .testClear p false =>
    rw [Half.exec, testClearSection, show (s₁.page p).chain = some c from hp']
    dsimp only
    rw [if_neg Bool.false_ne_true, ok_bind, derefChain_eq_ok.2 hm]
    exact congrArg Except.ok hself.symm

/-- The other half of an operation, on a page without a chain. -/
theorem exec_of_none {s₁ : Mm} (hp : s₁.home x.page = none) : x.exec s₁ = .ok s₁ := by
  have hp' : (s₁.page x.page).chain = none := hp
  match x with
  | .set p => rw [Half.exec, setSection, show (s₁.page p).chain = none from hp']
  | .clear p v => rw [Half.exec, clearSection, show (s₁.page p).chain = none from hp']
  | .testClear p v =>
    rw [Half.exec, testClearSection, show (s₁.page p).chain = none from hp']
    rfl

/-- The other half of an operation adds to the counter of the chain of the page. -/
theorem exec_spec {s₁ : Mm} (h : s₁.Linked) (x : Half) : ∃ s', x.exec s₁ = .ok s' ∧
    Touches s₁ s' x.page (s₁.page x.page) fun c =>
      s₁.excess c + if s₁.home x.page = some c then x.delta else 0 := by
  cases hp : s₁.home x.page with
  | none => exact ⟨s₁, exec_of_none hp, (Touches.refl h).congr rfl fun c => by simp⟩
  | some c =>
    obtain ⟨m, hm, -⟩ := h.live hp
    refine ⟨_, exec_eq hp hm, (h.setRefs hm _ x.page).congr rfl fun d => ?_⟩
    by_cases hd : d = c
    · rw [if_pos hd, if_pos (congrArg some hd.symm), hd]
      ring
    · rw [if_neg hd, if_neg fun hcd => hd (Option.some.inj hcd).symm, add_zero]

/-- A page without a chain is linked. -/
theorem Balanced.link [Mlock] {mm : Mm} (h : s.Balanced) (hp : s.mm.allocated p = true)
    (hu : s.mm.home p = none → 0 ≤ s.uncounted p) (heq : s.mm.linkPage c p = .ok mm) :
    Balanced ⟨mm, s.halves⟩ := by
  obtain ⟨m, hm⟩ := linkPage_live h.1 heq
  obtain ⟨-, hr⟩ := linkPage_ok h.1 hm hp heq
  refine ⟨hr.linked, fun d => ?_⟩
  have hb := h.2 d
  rw [balance] at hb ⊢
  change 0 ≤ mm.excess d + ((mm.links d).map s.uncounted).sum
  rw [hr.excess_eq, hr.links_eq]
  by_cases hd : d = c
  · subst hd
    rw [Function.update_self]
    split_ifs with hhome
    · exact hb
    · have hnone : s.mm.home p = none := by
        obtain ⟨hor, -⟩ := linkPage_ok h.1 hm hp heq
        exact hor.resolve_right hhome
      have := hu hnone
      rw [List.map_cons, List.sum_cons]
      linarith
  · rwa [Function.update_of_ne hd]

/-- A page is unlinked. -/
theorem Balanced.unlink [Mlock] {mm : Mm} (h : s.Balanced)
    (hu : s.mm.home p ≠ none → s.uncounted p ≤ 0) (heq : s.mm.unlinkPage p = .ok mm) :
    Balanced ⟨mm, s.halves⟩ := by
  cases hp : s.mm.home p with
  | none =>
    rw [unlinkPage, show (s.mm.page p).chain = none from hp] at heq
    obtain rfl := Except.ok.inj heq
    exact h
  | some c =>
    obtain ⟨s', x, heq', -, hr⟩ := unlinkPage_spec h.1 hp
    obtain rfl := Except.ok.inj (heq'.symm.trans heq)
    refine ⟨hr.linked, fun d => ?_⟩
    have hb := h.2 d
    rw [balance] at hb ⊢
    change 0 ≤ s'.excess d + ((s'.links d).map s.uncounted).sum
    rw [hr.excess_eq, hr.links_eq]
    by_cases hd : d = c
    · subst hd
      have hmem : p ∈ s.mm.links d := (h.1.members.mem_iff p d).2 hp
      have hsum := ((List.perm_cons_erase hmem).map s.uncounted).sum_eq
      rw [List.map_cons, List.sum_cons] at hsum
      have := hu (by rw [hp]; exact Option.some_ne_none d)
      rw [Function.update_self]
      linarith
    · rwa [Function.update_of_ne hd]

/-- A bit is set: it will be counted. -/
theorem Balanced.setBit (h : s.Balanced) (t : ThreadRef) (p : PageRef) :
    Balanced ⟨s.mm.modifyPage p (·.setBit .referenced), (t, .set p) :: s.halves⟩ := by
  have ht := h.1.touch (p := p) (f := (·.setBit .referenced)) rfl
  refine h.touch ht (fun _ => rfl) (uncounted_cons (x := .set p) rfl) ?_
  have href : ((s.mm.page p).setBit .referenced).referenced = true := by simp [Page.referenced]
  rw [href]
  simp [Half.delta]

/-- A bit is cleared: it will be counted if it was set. -/
theorem Balanced.clearBit (h : s.Balanced) (t : ThreadRef) (x : Half) (p : PageRef) (hp : x.page = p)
    (hx : x.delta = -(s.mm.bit p).toNat) :
    Balanced ⟨s.mm.modifyPage p (·.clearBit .referenced), (t, x) :: s.halves⟩ := by
  have ht := h.1.touch (p := p) (f := (·.clearBit .referenced)) rfl
  refine h.touch ht (fun _ => rfl) (hp ▸ uncounted_cons rfl) ?_
  have href : ((s.mm.page p).clearBit .referenced).referenced = false := by simp [Page.referenced]
  rw [href, hx]
  simp

end Threads

open Threads

variable [Mlock] {s s' : Threads} {op : ThreadOp}

omit [Mlock] in
/-- The value of a counter is less than the greatest one. -/
theorem CounterBelow.count_lt {c : ChainRef} (h : CounterBelow s c) (hf : s.mm.Fits) :
    s.mm.count c + 1 < 2 ^ 31 := by
  have hlt := hf c
  cases hm : s.mm.chain c with
  | none =>
    rw [Mm.count, hm]
    decide
  | some m =>
    have hne := h m hm
    rw [Mm.count_of_chain hm] at hlt ⊢
    have hmax : m.refCounter ≠ 2 ^ 31 - 1 := fun heq => hne (by rw [MemoryChain.counter, heq]; decide)
    omega

/-- The counters fit after a step that does not increment one of the greatest value. -/
theorem ThreadStep.fits (hst : ThreadStep s op s') (h : s.mm.Linked) (hf : s.mm.Fits)
    (hP : OutsideHalves s op) : s'.mm.Fits := by
  cases hst with
  | setBit => exact hf
  | clearBit => exact hf
  | testClearBit => exact hf
  | @lockSection t x mm hx heq =>
    obtain ⟨mm', heq', ht⟩ := exec_spec h x
    obtain rfl := Except.ok.inj (heq'.symm.trans heq)
    intro d
    change mm'.count d < _
    have hcount : mm'.count d = s.mm.count d + if s.mm.home x.page = some d then x.delta else 0 := by
      rw [ht.count_eq h, Mm.count_eq s.mm, show (s.mm.page x.page).referenced = s.mm.bit x.page from rfl]
      split_ifs
      · ring
      · ring
    rw [hcount]
    split_ifs with hhome
    · match x with
      | .set p => exact (hP p d hx hhome).count_lt hf
      | .clear p v =>
        have := hf d
        rw [Half.delta]
        omega
      | .testClear p v =>
        have := hf d
        rw [Half.delta]
        omega
    · rw [add_zero]
      exact hf d
  | @linkPage t c p mm _ hp heq =>
    obtain ⟨m, hm⟩ := Mm.linkPage_live h heq
    obtain ⟨hor, hr⟩ := Mm.linkPage_ok h hm hp heq
    intro d
    change mm.count d < _
    have hbit : mm.bit = s.mm.bit := by
      rw [Mm.bit_of_page hr.page_eq]
      exact Function.update_eq_self p s.mm.bit
    rw [Mm.count_eq, hr.excess_eq, Mm.refs, hr.links_eq, hbit]
    by_cases hd : d = c
    · subst hd
      rw [Function.update_self]
      split_ifs with hhome
      · rw [← Mm.refs, ← Mm.count_eq]
        exact hf d
      · obtain ⟨-, hbelow⟩ := hP (hor.resolve_right hhome)
        have hlt := hf d
        have hcount := Mm.count_eq s.mm d
        rw [List.countP_cons]
        cases hb : s.mm.bit p with
        | false =>
          rw [if_neg Bool.false_ne_true, add_zero, ← Mm.refs]
          omega
        | true =>
          have := (hbelow hb).count_lt hf
          rw [if_pos rfl, ← Mm.refs]
          push_cast
          omega
    · rw [Function.update_of_ne hd, ← Mm.refs, ← Mm.count_eq]
      exact hf d
  | @unlinkPage t p mm _ heq =>
    cases hp : s.mm.home p with
    | none =>
      rw [Mm.unlinkPage, show (s.mm.page p).chain = none from hp] at heq
      obtain rfl := Except.ok.inj heq
      exact hf
    | some c =>
      obtain ⟨s', x, heq', -, hr⟩ := Mm.unlinkPage_spec h hp
      obtain rfl := Except.ok.inj (heq'.symm.trans heq)
      intro d
      change s'.count d < _
      have hle := hr.refs_le h hp d
      have hlt := hf d
      rw [Mm.count_eq] at hlt
      rw [Mm.count_eq, hr.excess_eq]
      omega

/-- A step that neither links nor unlinks a page between the halves of an operation. -/
theorem ThreadStep.balanced (hst : ThreadStep s op s') (h : s.Balanced) (hP : OutsideHalves s op) :
    s'.Balanced := by
  cases hst with
  | setBit => exact h.setBit _ _
  | clearBit => exact h.clearBit _ _ _ rfl rfl
  | testClearBit => exact h.clearBit _ _ _ rfl rfl
  | @lockSection t x mm hx heq =>
    obtain ⟨mm', heq', ht⟩ := exec_spec h.1 x
    obtain rfl := Except.ok.inj (heq'.symm.trans heq)
    exact h.touch ht (fun _ => rfl) (uncounted_erase hx rfl) (add_neg_cancel x.delta).ge
  | linkPage _ hp heq => exact h.link hp (fun hnone => (hP hnone).1) heq
  | unlinkPage _ heq => exact h.unlink hP heq

/-- The counter of each chain is at least the number of its pages that are referenced, whenever no
    operation is half-way, in the runs where no page is linked or unlinked in between. -/
theorem counter_covers (hs : (ThreadSystem).ReachableBy OutsideHalves s) (hhalves : s.halves = [])
    {c : ChainRef} {m : MemoryChain} (hm : s.mm.chain c = some m) :
    ((m.links.countP fun p => (s.mm.page p).referenced : ℕ) : ℤ) ≤ m.counter ∧ 0 ≤ m.counter := by
  obtain ⟨hb, hf⟩ : s.Balanced ∧ s.mm.Fits := by
    refine hs.invariant (I := fun s : Threads => s.Balanced ∧ s.mm.Fits) (fun s hs => ?_)
      fun _ _ _ h hP hst => ⟨ThreadStep.balanced hst h.1 hP, ThreadStep.fits hst h.1.1 h.2 hP⟩
    obtain ⟨hcov, hfits, hnil⟩ := hs
    refine ⟨⟨hcov.1, fun c => ?_⟩, hfits⟩
    rw [balance, show s.uncounted = fun _ => 0 from funext (uncounted_nil hnil)]
    simpa using hcov.2 c
  have hc := hb.2 c
  rw [balance, show s.uncounted = fun _ => 0 from funext (uncounted_nil hhalves),
    Mm.excess_of_chain hm, Mm.refs, Mm.links_of_chain hm] at hc
  have hle : (m.links.countP s.mm.bit : ℤ) ≤ m.refCounter := by simpa using hc
  have h0 : 0 ≤ m.refCounter := (Int.natCast_nonneg _).trans hle
  have hlt := hf c
  rw [Mm.count_of_chain hm] at hlt
  rw [MemoryChain.counter_eq h0 hlt]
  exact ⟨hle, h0⟩

/-- A chain without pages, and pages that are referenced. -/
def emptyChain : Threads where
  mm := {
    page := fun _ => { flags := fun f => decide (f = .referenced) }
    allocated := fun p => decide (p < maxPages)
    chain := fun c => if c = 0 then some { id := 0 } else none }

theorem emptyChain_init : ThreadSystem.init emptyChain := by
  have hchain : ∀ c m, emptyChain.mm.chain c = some m → m = { id := 0 } := fun c m hm => by
    change (if c = 0 then some _ else none) = some m at hm
    split_ifs at hm
    exact (Option.some.inj hm).symm
  have hlinks : emptyChain.mm.links = fun _ => [] := by
    funext c
    rw [Mm.links]
    cases hm : emptyChain.mm.chain c with
    | none => rfl
    | some m => exact congrArg MemoryChain.links (hchain c m hm)
  refine ⟨⟨⟨?_, fun c m hm => ?_, fun _ _ => rfl, fun _ => of_decide_eq_true⟩, fun c => ?_⟩, fun c => ?_,
    rfl⟩
  · rw [hlinks]
    exact Members.empty
  · rw [hchain c m hm]
    exact ⟨rfl, rfl, fun _ hp => absurd hp.symm (by simp), fun _ hp => absurd hp.symm (by simp)⟩
  · cases hm : emptyChain.mm.chain c with
    | none => rw [Mm.excess_of_free hm]
    | some m =>
      rw [Mm.excess_of_chain hm, Mm.refs, hlinks, hchain c m hm]
      rfl
  · cases hm : emptyChain.mm.chain c with
    | none =>
      rw [Mm.count, hm]
      decide
    | some m =>
      rw [Mm.count_of_chain hm, hchain c m hm]
      decide

omit [Mlock] in
/-- A page is linked, and its bit is set. -/
theorem counter_covers_set : ∃ s m, (@ThreadSystem Mlock.flag).Reachable s ∧ s.halves = [] ∧
    s.mm.chain 0 = some m ∧ m.links = [0] ∧
    ((m.links.countP fun p => (s.mm.page p).referenced : ℕ) : ℤ) ≤ m.counter ∧ 0 ≤ m.counter := by
  let _ := Mlock.flag
  obtain ⟨s, hr, hhalves, m, hm, hlinks⟩ : ∃ s, ThreadSystem.RunBy OutsideHalves emptyChain
      [.linkPage 0 0 0, .setBit 1 0, .lockSection 1] s ∧ s.halves = [] ∧
        ∃ m, s.mm.chain 0 = some m ∧ m.links = [0] := by
    refine ⟨_, .cons (fun _ => ⟨le_rfl, fun _ m hm => ?_⟩)
      (.linkPage (fun _ => List.not_mem_nil) (by decide) rfl)
      (.cons trivial (.setBit fun _ => List.not_mem_nil) (.cons (fun p c hx hp m hm => ?_)
        (.lockSection List.mem_cons_self rfl) .nil)), rfl, _, rfl, rfl⟩
    · rw [← Option.some.inj hm]
      decide
    · obtain rfl : p = 0 := Half.set.inj (congrArg Prod.snd (List.mem_singleton.1 hx))
      obtain rfl : 0 = c := Option.some.inj hp
      rw [← Option.some.inj hm]
      decide
  have hs := hr.reachable (.init emptyChain_init)
  exact ⟨s, m, hs.reachable, hhalves, hm, hlinks, counter_covers hs hhalves hm⟩

omit [Mlock] in
/-- A page is linked after its bit has been cleared, and before that is counted. -/
theorem counter_negative : ¬∀ s, (@ThreadSystem Mlock.flag).Reachable s → s.halves = [] →
    ∀ c m, s.mm.chain c = some m →
      ((m.links.countP fun p => (s.mm.page p).referenced : ℕ) : ℤ) ≤ m.counter ∧ 0 ≤ m.counter := by
  let _ := Mlock.flag
  intro h
  obtain ⟨s, hr, hhalves, m, hm, hneg⟩ : ∃ s, ThreadSystem.RunBy (fun _ _ => True) emptyChain
      [.clearBit 0 0, .linkPage 1 0 0, .lockSection 0] s ∧ s.halves = [] ∧
        ∃ m, s.mm.chain 0 = some m ∧ m.counter = -1 := by
    refine ⟨_, .cons trivial (.clearBit fun _ => List.not_mem_nil)
      (.cons trivial (.linkPage (fun x hx => ?_) (by decide) rfl)
        (.cons trivial (.lockSection List.mem_cons_self rfl) .nil)), rfl, _, rfl, rfl⟩
    exact absurd (congrArg Prod.fst (List.mem_singleton.1 hx)) (by decide : (1 : ℕ) ≠ 0)
  have := (h s (hr.reachable (.init emptyChain_init)) hhalves 0 m hm).2
  rw [hneg] at this
  exact absurd this (by decide)

end Mcpq.Kernel
