import Mathlib.Tactic

/-!
# Pages

The page descriptors of the kernel (`page-flags.h`, `mm_types.h`), as far as memory chains, LRU lists
and the page allocator read and write them, and the checks of the page allocator.

A function of the kernel ends with a value, or with an *oops*: the dereference of `NULL` or of freed
memory, an access outside an array, the deletion of a node that is not on its list, a failed
assertion.

The counters are integers. Where a result depends on it that one of them may wrap around, its value is
taken modulo `2 ^ 32`, or the runs are those in which it does not.
-/

namespace Mcpq.Kernel

/-- The ways a function of the kernel may end other than by returning. -/
inductive Oops
  | nullPointer
  | useAfterFree
  | outOfBounds
  | corruptList
  | bug
  | diverges
  deriving DecidableEq, Repr

/-- The result of a function of the kernel. -/
abbrev Result := Except Oops

section Result

universe u

variable {α β : Type u}

@[simp] theorem ok_bind (a : α) (f : α → Result β) : (Except.ok a >>= f) = f a := rfl

@[simp] theorem error_bind (e : Oops) (f : α → Result β) :
    ((Except.error e : Result α) >>= f) = .error e := rfl

@[simp] theorem pure_eq_ok (a : α) : (pure a : Result α) = .ok a := rfl

theorem bind_eq_ok {x : Result α} {f : α → Result β} {b : β} :
    (x >>= f) = .ok b ↔ ∃ a, x = .ok a ∧ f a = .ok b := by
  cases x with
  | error e => simp
  | ok a => simp

end Result

/-- The element of an array at the index `i`. -/
def arrayGet {α : Type*} (xs : List α) (i : ℕ) : Result α :=
  (xs[i]?).elim (.error .outOfBounds) .ok

theorem mem_of_arrayGet {α : Type*} {xs : List α} {i : ℕ} {x : α} (heq : arrayGet xs i = .ok x) :
    x ∈ xs := by
  rw [arrayGet] at heq
  cases hget : xs[i]? with
  | none =>
    rw [hget] at heq
    cases heq
  | some y =>
    rw [hget] at heq
    obtain rfl : y = x := Except.ok.inj heq
    exact List.mem_of_getElem? hget

/-- A page, by its frame. -/
abbrev PageRef := ℕ

/-- The number of page descriptors, at most: they are kept in the address space of `2 ^ 32` bytes of the
    kernel, and one has more than 32 bytes. -/
def maxPages : ℕ := 2 ^ 27

/-- The address of a chain. -/
abbrev ChainRef := ℕ
/-- A task. -/
abbrev TaskRef := ℕ

/-- The enumeration `pageflags`. -/
inductive PageFlag
  | locked
  | error
  | referenced
  | uptodate
  | dirty
  | lru
  | active
  | slab
  | ownerPriv1
  | arch1
  | reserved
  | private1
  | private2
  | writeback
  | compound
  | swapcache
  | mappedtodisk
  | reclaim
  | swapbacked
  | unevictable
  | mlocked
  | uncached
  | hwpoison
  | compoundLock
  deriving DecidableEq, Repr

/-- All the flags: `PAGE_FLAGS_CHECK_AT_PREP`. -/
def PageFlag.all : List PageFlag :=
  [.locked, .error, .referenced, .uptodate, .dirty, .lru, .active, .slab, .ownerPriv1, .arch1,
    .reserved, .private1, .private2, .writeback, .compound, .swapcache, .mappedtodisk, .reclaim,
    .swapbacked, .unevictable, .mlocked, .uncached, .hwpoison, .compoundLock]

/-- What the field `mapping` of a page is: `NULL`, an `anon_vma` or an inode's address space. -/
inductive Mapping
  | null
  | anon
  | file
  deriving DecidableEq, Repr

/-- A page descriptor; `mapcount` is `page_mapcount`, and `count` the field `_count`. -/
structure Page where
  flags : PageFlag → Bool := fun _ => false
  mapcount : ℤ := 0
  mapping : Mapping := .null
  count : ℤ := 0
  chain : Option ChainRef := none

namespace Page

/-- `PageFoo`, the flag being given. -/
def testBit (p : Page) (f : PageFlag) : Bool := p.flags f

/-- `SetPageFoo`. -/
def setBit (p : Page) (f : PageFlag) : Page := { p with flags := Function.update p.flags f true }

/-- `ClearPageFoo`. -/
def clearBit (p : Page) (f : PageFlag) : Page := { p with flags := Function.update p.flags f false }

/-- `__PageReferenced`: the bit of the page itself. -/
def referenced (p : Page) : Bool := p.testBit .referenced

/-- `PageLinked`. -/
def linked (p : Page) : Bool := p.chain.isSome

@[simp] theorem setBit_chain (p : Page) (f : PageFlag) : (p.setBit f).chain = p.chain := rfl

@[simp] theorem clearBit_chain (p : Page) (f : PageFlag) : (p.clearBit f).chain = p.chain := rfl

@[simp] theorem testBit_setBit (p : Page) (f g : PageFlag) :
    (p.setBit f).testBit g = (decide (g = f) || p.testBit g) := by
  by_cases h : g = f
  · subst h
    simp [testBit, setBit]
  · simp [testBit, setBit, h]

@[simp] theorem testBit_clearBit (p : Page) (f g : PageFlag) :
    (p.clearBit f).testBit g = (!decide (g = f) && p.testBit g) := by
  by_cases h : g = f
  · subst h
    simp [testBit, clearBit]
  · simp [testBit, clearBit, h]

/-- `PAGE_FLAGS_CHECK_AT_FREE`: no flag of these may be set when a page is freed. -/
def flagsCheckAtFree : List PageFlag :=
  [.lru, .locked, .private1, .private2, .writeback, .reserved, .slab, .swapcache, .active,
    .unevictable, .mlocked, .hwpoison, .compoundLock]

/-- What `bad_page` leaves: `reset_page_mapcount`. -/
def badPage (p : Page) : Page := { p with mapcount := 0 }

/-- The conditions that `free_pages_check` and `check_new_page` both check. -/
def inUse (p : Page) : Bool := p.mapcount ≠ 0 || p.mapping ≠ .null || p.count ≠ 0

/-- `free_pages_check`: the page, and whether it is bad. The flags `PAGE_FLAGS_CHECK_AT_PREP` of a
    page that is not are cleared: these are all the flags. -/
def freePagesCheck (p : Page) : Page × Bool :=
  if p.inUse || flagsCheckAtFree.any p.testBit then (p.badPage, true)
  else ({ p with flags := fun _ => false }, false)

/-- The first statement of `free_pages_prepare`. -/
def unmapAnon (p : Page) : Page := if p.mapping = .anon then { p with mapping := .null } else p

/-- `check_new_page`: the page, and whether it is bad. -/
def checkNewPage (p : Page) : Page × Bool :=
  if p.inUse || PageFlag.all.any p.testBit then (p.badPage, true) else (p, false)

theorem unmapAnon_chain (p : Page) : p.unmapAnon.chain = p.chain := by
  rw [unmapAnon]
  split_ifs
  all_goals rfl

theorem unmapAnon_referenced (p : Page) : p.unmapAnon.referenced = p.referenced := by
  rw [unmapAnon]
  split_ifs
  all_goals rfl

theorem freePagesCheck_chain (p : Page) : p.freePagesCheck.1.chain = p.chain := by
  rw [freePagesCheck]
  split_ifs
  all_goals rfl

/-- A page that is bad keeps its flags. -/
theorem freePagesCheck_referenced (p : Page) :
    p.freePagesCheck.1.referenced = (p.freePagesCheck.2 && p.referenced) := by
  rw [freePagesCheck]
  split_ifs
  · rw [Bool.true_and]
    rfl
  · rw [Bool.false_and]
    rfl

end Page

end Mcpq.Kernel
