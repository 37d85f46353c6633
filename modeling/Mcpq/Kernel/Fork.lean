import Mcpq.Kernel.Table
import Mcpq.Lib.Transition

/-!
# Forks

The collections of the chains of tasks that fork and exit (`fork.c`, `exit.c`): `do_fork` copies the
pointer of the parent to its collection with the rest of its `task_struct`, wakes the child up, and
clears the pointer of the child only then. So the parent and the child may share a collection, which
the exit of one of them frees, and a collection that the child has allocated in between is lost.

The collections are owned in the runs where a task forks without a collection, and the child has none
when its pointer is cleared (`collections_owned`).
-/

namespace Mcpq.Kernel

/-- The address of a collection. -/
abbrev MccRef := ℕ

/-- Where a task is: in `do_fork`, with the child `p`, or not. -/
inductive Pc
  /-- There is no such task. -/
  | unused
  /-- The task has been copied, but has not been woken up. -/
  | new
  | user
  | copied (p : TaskRef) (vfork : Bool)
  | waiting (p : TaskRef)
  | woken (p : TaskRef)
  | exited
  deriving DecidableEq, Repr

/-- A `task_struct`. -/
structure Task where
  mcc : Option MccRef := none
  pc : Pc := .unused
  deriving DecidableEq, Repr

/-- The tasks and the memory. The collections of `mm` are given by their addresses, which are not used
    again; `creator` is the task that allocated each of them. -/
structure Tasks where
  task : TaskRef → Task := fun _ => {}
  mm : Mm := {}
  creator : MccRef → Option TaskRef := fun _ => none

namespace Tasks

variable (s : Tasks) (t p : TaskRef)

/-- The collection of the task. -/
def mcc : Option MccRef := (s.task t).mcc

/-- Where the task is in `do_fork` or `do_exit`. -/
def pc : Pc := (s.task t).pc

def modifyTask (f : Task → Task) : Tasks :=
  { s with task := Function.update s.task t (f (s.task t)) }

def setMcc (mcc : Option MccRef) : Tasks := s.modifyTask t fun x => { x with mcc := mcc }

def setPc (pc : Pc) : Tasks := s.modifyTask t fun x => { x with pc := pc }

/-! ## The steps of `do_fork` -/

/-- `copy_process`, as far as `dup_task_struct` goes. -/
def copyProcess (vfork : Bool) : Tasks :=
  { s with task := Function.update s.task p { s.task t with pc := .new } }.setPc t (.copied p vfork)

/-- `wake_up_new_task`: the child may run; after `vfork`, the parent waits for it. -/
def wakeUpNewTask (vfork : Bool) : Tasks :=
  (s.setPc p .user).setPc t (if vfork then .waiting p else .woken p)

/-- `p->mcc = NULL`. -/
def clearMcc : Tasks := (s.setMcc p none).setPc t .user

/-! ## System calls -/

/-- The collection a pointer that is not `NULL` points to. -/
def derefMcc (r : MccRef) : Result MemoryChainCollection :=
  (s.mm.mcc r).elim (.error .useAfterFree) .ok

variable [Mlock]

/-- `new_mem_chain`; if a collection is allocated, it is at `r`. -/
def newMemChain (r : MccRef) (addr : ChainRef) : Result Tasks :=
  match s.mcc t with
  | none => do
    let (mm, _) ← s.mm.newMemChain r addr
    pure ({ s with mm := mm, creator := Function.update s.creator r (some t) }.setMcc t (some r))
  | some r => do
    let _ ← s.derefMcc r
    let (mm, _) ← s.mm.newMemChain r addr
    pure { s with mm := mm }

/-- `rls_mem_chain` of a task, in its own collection. -/
def rlsMemChain (c : ℕ) : Result Tasks :=
  match s.mcc t with
  | none => .ok s
  | some r => do
    let _ ← s.derefMcc r
    let (mm, _) ← s.mm.rlsMemChain r c
    pure { s with mm := mm }

/-- `do_exit`: the collection of the task is freed. -/
def doExit : Result Tasks := do
  let s ← (match s.mcc t with
    | none => .ok s
    | some r => do
      let _ ← s.derefMcc r
      let mm ← s.mm.doExit r
      pure { s with mm := mm })
  pure ((s.setMcc t none).setPc t .exited)

end Tasks

/-- A step of a task. -/
inductive ForkOp
  | copyProcess (t p : TaskRef) (vfork : Bool)
  | wakeUpNewTask (t : TaskRef)
  | waitForCompletion (t : TaskRef)
  | clearMcc (t : TaskRef)
  | newMemChain (t : TaskRef) (r : MccRef) (addr : ChainRef)
  | rlsMemChain (t : TaskRef) (c : ℕ)
  | doExit (t : TaskRef)

/-- The steps: those of `do_fork` in program order, and the system calls of the tasks that are not in
    `do_fork`. The vfork wait ends when the child has exited. -/
inductive ForkStep [Mlock] (s : Tasks) : ForkOp → Tasks → Prop
  | copyProcess {t p : TaskRef} {vfork : Bool} (ht : s.pc t = .user) (hp : s.pc p = .unused) :
    ForkStep s (.copyProcess t p vfork) (s.copyProcess t p vfork)
  | wakeUpNewTask {t p : TaskRef} {vfork : Bool} (ht : s.pc t = .copied p vfork) :
    ForkStep s (.wakeUpNewTask t) (s.wakeUpNewTask t p vfork)
  | waitForCompletion {t p : TaskRef} (ht : s.pc t = .waiting p) (hp : s.pc p = .exited) :
    ForkStep s (.waitForCompletion t) (s.setPc t (.woken p))
  | clearMcc {t p : TaskRef} (ht : s.pc t = .woken p) : ForkStep s (.clearMcc t) (s.clearMcc t p)
  | newMemChain {t : TaskRef} {r : MccRef} {addr : ChainRef} {s' : Tasks} (ht : s.pc t = .user)
    (hr : s.creator r = none) (haddr : s.mm.chain addr = none)
    (heq : s.newMemChain t r addr = .ok s') : ForkStep s (.newMemChain t r addr) s'
  | rlsMemChain {t : TaskRef} {c : ℕ} {s' : Tasks} (ht : s.pc t = .user)
    (heq : s.rlsMemChain t c = .ok s') : ForkStep s (.rlsMemChain t c) s'
  | doExit {t : TaskRef} {s' : Tasks} (ht : s.pc t = .user) (heq : s.doExit t = .ok s') :
    ForkStep s (.doExit t) s'

/-- The runs of the tasks, from tasks and a memory without chains. -/
def ForkSystem [Mlock] : Transition Tasks ForkOp where
  init s := (∀ t, s.mcc t = none ∧ (s.pc t = .user ∨ s.pc t = .unused)) ∧
    (∀ r, s.mm.mcc r = none ∧ s.creator r = none) ∧
    (∀ c, s.mm.chain c = none) ∧ ∀ p, (s.mm.page p).chain = none
  step := ForkStep

namespace Tasks

/-- A task is able to run: it has been woken up, has not exited, and does not wait for its child. -/
def CanRun (s : Tasks) (t : TaskRef) : Prop :=
  match s.pc t with
  | .user | .copied _ _ | .woken _ => True
  | .waiting p => s.pc p = .exited
  | .unused | .new | .exited => False

/-- The collections are owned by the tasks. -/
structure Owned (s : Tasks) : Prop where
  /-- No two tasks that are able to run have the same collection. -/
  not_shared : ∀ t u r, s.CanRun t → s.CanRun u → s.mcc t = some r → s.mcc u = some r → t = u
  /-- A task that may make a system call, which uses its collection, has none that has been freed. -/
  not_freed : ∀ t r, s.pc t = .user → s.mcc t = some r → s.mm.mcc r ≠ none
  /-- The task that has allocated a collection has it until it is freed. -/
  not_dropped : ∀ r t, s.creator r = some t → s.mm.mcc r ≠ none → s.mcc t = some r

end Tasks

/-- A task is not woken up with the collection of its parent, unless that waits for it; a collection
    is not freed while another task has it; and the pointer of a task is cleared while it is `NULL`. -/
def ForkOp.Owns (s : Tasks) : ForkOp → Prop
  | wakeUpNewTask t => ∀ p, s.pc t = .copied p false → s.mcc p = none
  | doExit t => ∀ u r, s.mcc t = some r → s.mcc u = some r → t = u
  | clearMcc t => ∀ p, s.pc t = .woken p → s.mcc p = none
  | _ => True

/-! ## The collections of the memory -/

namespace Mm

variable {s s' : Mm} {r : MccRef} {c : ChainRef}

theorem exitSlot_mcc {mcc : MemoryChainCollection} {i : ℕ} {x : MemoryChainCollection × Mm}
    (heq : exitSlot mcc i s = .ok x) : x.2.mcc = s.mcc := by
  rcases exitSlot_cases heq with rfl | ⟨c, m, s₁, -, -, heq₁, heq₂, -⟩
  · rfl
  · exact (kfreeChain_mcc heq₂).trans (KeepsTables.unlinkChainFast heq₁).mcc_eq

/-- The exit of a task frees its collection, and no other. -/
theorem doExit_mcc (heq : s.doExit r = .ok s') : s'.mcc = Function.update s.mcc r none := by
  obtain ⟨s₁, hs₁, rfl⟩ := doExit_invariant (I := fun s₁ => s₁.mcc = s.mcc)
    (fun mcc i s₂ x h₂ heq₃ => (exitSlot_mcc heq₃).trans h₂) rfl heq
  rw [← hs₁]
  rfl

theorem newMemChain_mcc {addr : ChainRef} {x : Mm × ℤ} (heq : s.newMemChain r addr = .ok x) :
    ∃ mcc, x.1.mcc = Function.update s.mcc r (some mcc) := by
  rw [newMemChain] at heq
  dsimp only at heq
  split_ifs at heq
  · obtain ⟨slot, -, heq⟩ := bind_eq_ok.1 heq
    split_ifs at heq
    obtain rfl := Except.ok.inj heq
    exact ⟨_, rfl⟩
  · obtain rfl := Except.ok.inj heq
    exact ⟨_, rfl⟩

variable [Mlock]

/-- The collection is updated, if there is one. -/
theorem rlsMemChain_mcc {c : ℕ} {x : Mm × ℤ} (heq : s.rlsMemChain r c = .ok x) :
    ∀ q, x.1.mcc q = none ↔ s.mcc q = none := by
  obtain ⟨s', v⟩ := x
  rcases rlsMemChain_cases heq with ⟨-, rfl⟩ | ⟨y, s₁, s₂, ho, heq₁, heq₂, rfl⟩
  · exact fun q => Iff.rfl
  · have hr : s.mcc r ≠ none := fun hr => by
      rw [chainOf, hr] at ho
      cases ho
    have h₂ : s₂.mcc = s.mcc := (kfreeChain_mcc heq₂).trans (KeepsTables.unlinkChain heq₁).mcc_eq
    intro q
    change Function.update s₂.mcc r _ q = none ↔ _
    by_cases hq : q = r
    · rw [hq, Function.update_self]
      exact iff_of_false (Option.some_ne_none _) hr
    · rw [Function.update_of_ne hq, h₂]

end Mm

/-! ## Owners -/

namespace Pc

/-- The task runs, in `do_fork` or not. -/
def runs : Pc → Bool
  | user | copied _ _ | woken _ => true
  | unused | new | waiting _ | exited => false

/-- The task has no `task_struct`, or will not use it any more. -/
def gone : Pc → Bool
  | unused | exited => true
  | new | user | copied _ _ | waiting _ | woken _ => false

end Pc

namespace Tasks

variable {s s' : Tasks} {t u p : TaskRef} {r : MccRef}

theorem modifyTask_pc (f : Task → Task) :
    (s.modifyTask t f).pc = Function.update s.pc t (f (s.task t)).pc :=
  Function.comp_update Task.pc s.task t _

theorem modifyTask_mcc (f : Task → Task) :
    (s.modifyTask t f).mcc = Function.update s.mcc t (f (s.task t)).mcc :=
  Function.comp_update Task.mcc s.task t _

@[simp] theorem setPc_pc (x : Pc) : (s.setPc t x).pc = Function.update s.pc t x :=
  modifyTask_pc _

@[simp] theorem setPc_mcc (x : Pc) : (s.setPc t x).mcc = s.mcc :=
  (modifyTask_mcc _).trans (Function.update_eq_self ..)

@[simp] theorem setMcc_pc (o : Option MccRef) : (s.setMcc t o).pc = s.pc :=
  (modifyTask_pc _).trans (Function.update_eq_self ..)

@[simp] theorem setMcc_mcc (o : Option MccRef) : (s.setMcc t o).mcc = Function.update s.mcc t o :=
  modifyTask_mcc _

end Tasks

/-- The invariant of the runs whose steps keep the owners: of where the tasks are, the collections
    they point to, which collections are allocated, and the tasks that allocated them. -/
structure Forks (pc : TaskRef → Pc) (mcc : TaskRef → Option MccRef) (live : MccRef → Prop)
    (creator : MccRef → Option TaskRef) : Prop where
  fresh : ∀ r, creator r = none → ¬live r
  owner : ∀ r t, creator r = some t → live r → mcc t = some r
  live : ∀ t r, mcc t = some r → live r
  gone : ∀ t, (pc t).gone = true → mcc t = none
  /-- The child is a copy. -/
  child : ∀ t p v, pc t = .copied p v → pc p = .new ∧ mcc p = mcc t
  child_inj : ∀ t u p v w, pc t = .copied p v → pc u = .copied p w → t = u
  /-- A task that waits shares its collection with its child. -/
  waiting : ∀ t p r, pc t = .waiting p → mcc t = some r → mcc p = some r
  runs : ∀ t u r, (pc t).runs = true → (pc u).runs = true → mcc t = some r → mcc u = some r → t = u

namespace Forks

variable {pc : TaskRef → Pc} {mcc : TaskRef → Option MccRef} {live : MccRef → Prop}
  {creator : MccRef → Option TaskRef} {t p : TaskRef} {r : MccRef}

/-- The child does not run yet. -/
theorem copyProcess (h : Forks pc mcc live creator) {v : Bool} (ht : pc t = .user)
    (hp : pc p = .unused) : Forks (Function.update (Function.update pc p .new) t (.copied p v))
      (Function.update mcc p (mcc t)) live creator := by
  have hmcc : mcc p = none := h.gone p (by rw [hp]; rfl)
  have hnew : ∀ u w, pc u ≠ .copied p w := fun u w hu => by
    cases hp.symm.trans (h.child u p w hu).1
  exact {
    fresh := h.fresh
    owner := by grind [Function.update_apply, h.owner]
    live := by grind [Function.update_apply, h.live]
    gone := by grind [Function.update_apply, Pc.gone, h.gone]
    child := by grind [Function.update_apply, h.child]
    child_inj := by grind [Function.update_apply, h.child_inj]
    waiting := by grind [Function.update_apply, h.waiting]
    runs := by grind [Function.update_apply, Pc.runs, h.runs] }

/-- A child is woken up that has no collection, or the collection of its parent, which waits for it. -/
theorem wakeUpNewTask (h : Forks pc mcc live creator) {v : Bool} (ht : pc t = .copied p v)
    (hv : v = false → mcc p = none) :
    Forks (Function.update (Function.update pc p .user) t (if v then .waiting p else .woken p))
      mcc live creator := by
  obtain ⟨hnew, hmcc⟩ := h.child t p v ht
  have hother : ∀ u w, pc u = .copied p w → u = t := fun u w hu => h.child_inj u t p w v hu ht
  have hrun : (pc t).runs = true := by rw [ht]; rfl
  exact {
    fresh := h.fresh
    owner := h.owner
    live := h.live
    gone := by grind [Function.update_apply, Pc.gone, h.gone]
    child := by grind [Function.update_apply, h.child]
    child_inj := by grind [Function.update_apply, h.child_inj]
    waiting := by grind [Function.update_apply, h.waiting]
    runs := by grind [Function.update_apply, Pc.runs, h.runs] }

/-- A task that has waited has no collection, as its child has none. -/
theorem waitForCompletion (h : Forks pc mcc live creator) (ht : pc t = .waiting p)
    (hp : pc p = .exited) : Forks (Function.update pc t (.woken p)) mcc live creator := by
  have hmcc : mcc t = none := by
    refine Option.eq_none_iff_forall_ne_some.2 fun r hr => ?_
    cases (h.waiting t p r ht hr).symm.trans (h.gone p (by rw [hp]; rfl))
  exact {
    fresh := h.fresh
    owner := h.owner
    live := h.live
    gone := by grind [Function.update_apply, Pc.gone, h.gone]
    child := by grind [Function.update_apply, h.child]
    child_inj := by grind [Function.update_apply, h.child_inj]
    waiting := by grind [Function.update_apply, h.waiting]
    runs := by grind [Function.update_apply, Pc.runs, h.runs] }

/-- The pointer that is cleared is `NULL`. -/
theorem clearMcc (h : Forks pc mcc live creator) (ht : pc t = .woken p) (hp : mcc p = none) :
    Forks (Function.update pc t .user) (Function.update mcc p none) live creator := by
  have hmcc : Function.update mcc p none = mcc := by rw [← hp, Function.update_eq_self]
  have hrun : (pc t).runs = true := by rw [ht]; rfl
  rw [hmcc]
  clear hmcc
  exact {
    fresh := h.fresh
    owner := h.owner
    live := h.live
    gone := by grind [Function.update_apply, Pc.gone, h.gone]
    child := by grind [Function.update_apply, h.child]
    child_inj := by grind [Function.update_apply, h.child_inj]
    waiting := by grind [Function.update_apply, h.waiting]
    runs := by grind [Function.update_apply, Pc.runs, h.runs] }

/-- A task allocates a collection. -/
theorem initMcc (h : Forks pc mcc live creator) (ht : pc t = .user) (hmcc : mcc t = none)
    (hr : creator r = none) : Forks pc (Function.update mcc t (some r))
      (fun q => q = r ∨ live q) (Function.update creator r (some t)) := by
  have hfresh : ∀ u, mcc u ≠ some r := fun u hu => h.fresh r hr (h.live u r hu)
  exact {
    fresh := by grind [Function.update_apply, h.fresh]
    owner := by grind [Function.update_apply, h.owner]
    live := by grind [Function.update_apply, h.live]
    gone := by grind [Function.update_apply, Pc.gone, h.gone]
    child := by grind [Function.update_apply, h.child]
    child_inj := h.child_inj
    waiting := by grind [Function.update_apply, h.waiting]
    runs := by grind [Function.update_apply, h.runs] }

/-- A collection is freed that no other task points to. -/
theorem doExit (h : Forks pc mcc live creator) (ht : pc t = .user)
    (hother : ∀ u r, mcc t = some r → mcc u = some r → t = u) :
    Forks (Function.update pc t .exited) (Function.update mcc t none)
      (fun q => mcc t ≠ some q ∧ live q) creator where
  fresh := by grind [h.fresh]
  owner := by grind [Function.update_apply, h.owner]
  live := by grind [Function.update_apply, h.live]
  gone := by grind [Function.update_apply, Pc.gone, h.gone]
  child := by grind [Function.update_apply, h.child]
  child_inj := by grind [Function.update_apply, h.child_inj]
  waiting := by grind [Function.update_apply, h.waiting]
  runs := by grind [Function.update_apply, Pc.runs, h.runs]

end Forks

namespace Tasks

variable {s s' : Tasks} {t u p : TaskRef} {r : MccRef}

/-- The invariant of a state. -/
def Ok (s : Tasks) : Prop := Forks s.pc s.mcc (fun r => s.mm.mcc r ≠ none) s.creator

theorem Ok.owned (h : s.Ok) : s.Owned where
  not_freed t r _ := h.live t r
  not_dropped := h.owner
  not_shared := by
    -- A task that waits for a child that has exited has no collection.
    have hrun : ∀ t r, s.CanRun t → s.mcc t = some r → (s.pc t).runs = true := fun t r ht hr => by
      rw [CanRun] at ht
      cases hpc : s.pc t with
      | waiting p =>
        rw [hpc] at ht
        cases (h.waiting t p r hpc hr).symm.trans (h.gone p (by rw [show s.pc p = .exited from ht]; rfl))
      | unused | new | exited =>
        rw [hpc] at ht
        exact ht.elim
      | user | copied p v | woken p => rfl
    exact fun t u r ht hu hrt hru => h.runs t u r (hrun t r ht hrt) (hrun u r hu hru) hrt hru

theorem Ok.init [Mlock] (h : ForkSystem.init s) : s.Ok := by
  obtain ⟨htask, hmcc, -⟩ := h
  exact {
    fresh := fun r _ => by simp [(hmcc r).1]
    owner := fun r t hr => by cases (hmcc r).2.symm.trans hr
    live := fun t r hr => by cases (htask t).1.symm.trans hr
    gone := fun t _ => (htask t).1
    child := fun t p v ht => by grind
    child_inj := fun t u p v w ht => by grind
    waiting := fun t p r ht => by grind
    runs := fun t u r _ _ hr => by cases (htask t).1.symm.trans hr }

/-- The collections allocated are those `live`. -/
theorem Ok.of_forks {l : MccRef → Prop} (h : Forks s.pc s.mcc l s.creator)
    (hl : ∀ r, s.mm.mcc r ≠ none ↔ l r) : s.Ok := by
  rw [Ok, show (fun r => s.mm.mcc r ≠ none) = l from funext fun r => propext (hl r)]
  exact h

theorem Ok.newMemChain (h : s.Ok) {addr : ChainRef} (ht : s.pc t = .user)
    (hr : s.creator r = none) (heq : s.newMemChain t r addr = .ok s') : s'.Ok := by
  rw [Tasks.newMemChain] at heq
  split at heq
  · -- The task has no collection, and one is allocated at a new address.
    rename_i hmcc
    obtain ⟨x, hx, heq⟩ := bind_eq_ok.1 heq
    obtain rfl := Except.ok.inj heq
    obtain ⟨mcc, hx⟩ := Mm.newMemChain_mcc hx
    refine .of_forks (l := fun q => q = r ∨ s.mm.mcc q ≠ none) ?_ fun q => ?_
    · rw [setMcc_pc, setMcc_mcc]
      exact h.initMcc ht hmcc hr
    · change x.1.mcc q ≠ none ↔ _
      rw [hx]
      rcases eq_or_ne q r with hq | hq
      · simp [hq]
      · simp [hq]
  · rename_i r hmcc
    obtain ⟨_, -, heq⟩ := bind_eq_ok.1 heq
    obtain ⟨x, hx, heq⟩ := bind_eq_ok.1 heq
    obtain rfl := Except.ok.inj heq
    obtain ⟨mcc, hx⟩ := Mm.newMemChain_mcc hx
    refine .of_forks (s := { s with mm := x.1 }) h fun q => ?_
    dsimp only
    rw [hx]
    rcases eq_or_ne q r with hq | hq
    · simpa [hq] using h.live t r hmcc
    · simp [hq]

/-- The exit of a task frees the collection that the task points to, and no other. -/
theorem doExit_cases (heq : s.doExit t = .ok s') : ∃ s₁ : Tasks,
    s' = (s₁.setMcc t none).setPc t .exited ∧ s₁.pc = s.pc ∧ s₁.mcc = s.mcc ∧
      s₁.creator = s.creator ∧ ∀ q, s₁.mm.mcc q ≠ none ↔ s.mcc t ≠ some q ∧ s.mm.mcc q ≠ none := by
  obtain ⟨s₁, heq₁, heq⟩ := bind_eq_ok.1 heq
  refine ⟨s₁, (Except.ok.inj heq).symm, ?_⟩
  split at heq₁
  · rename_i hmcc
    obtain rfl := Except.ok.inj heq₁
    exact ⟨rfl, rfl, rfl, fun q => by simp [hmcc]⟩
  · rename_i r hmcc
    obtain ⟨_, -, heq₁⟩ := bind_eq_ok.1 heq₁
    obtain ⟨mm, hmm, heq₁⟩ := bind_eq_ok.1 heq₁
    obtain rfl := Except.ok.inj heq₁
    refine ⟨rfl, rfl, rfl, fun q => ?_⟩
    dsimp only
    rw [Mm.doExit_mcc hmm, hmcc]
    rcases eq_or_ne q r with hq | hq
    · simp [hq]
    · simp [hq, Ne.symm hq]

variable [Mlock]

theorem Ok.rlsMemChain (h : s.Ok) {c : ℕ} (heq : s.rlsMemChain t c = .ok s') : s'.Ok := by
  rw [Tasks.rlsMemChain] at heq
  split at heq
  · obtain rfl := Except.ok.inj heq
    exact h
  · obtain ⟨_, -, heq⟩ := bind_eq_ok.1 heq
    obtain ⟨x, hx, heq⟩ := bind_eq_ok.1 heq
    obtain rfl := Except.ok.inj heq
    exact .of_forks (s := { s with mm := x.1 }) h fun q => (Mm.rlsMemChain_mcc hx q).not

/-- A step keeps the invariant if it keeps the owners. -/
theorem Ok.step (h : s.Ok) {op : ForkOp} (hop : op.Owns s) (hst : ForkStep s op s') : s'.Ok := by
  cases hst with
  | copyProcess ht hp =>
    rename_i t p v
    have hpc : (s.copyProcess t p v).pc =
        Function.update (Function.update s.pc p .new) t (.copied p v) := by
      rw [Tasks.copyProcess, setPc_pc]
      exact congrArg (Function.update · t _) (Function.comp_update Task.pc s.task p _)
    have hmcc : (s.copyProcess t p v).mcc = Function.update s.mcc p (s.mcc t) := by
      rw [Tasks.copyProcess, setPc_mcc]
      exact Function.comp_update Task.mcc s.task p _
    rw [Ok, hpc, hmcc]
    exact h.copyProcess ht hp
  | wakeUpNewTask ht =>
    rename_i t p v
    rw [Ok, Tasks.wakeUpNewTask, setPc_pc, setPc_pc, setPc_mcc, setPc_mcc]
    exact h.wakeUpNewTask ht fun hv => hop p (hv ▸ ht)
  | waitForCompletion ht hp =>
    rw [Ok, setPc_pc, setPc_mcc]
    exact h.waitForCompletion ht hp
  | clearMcc ht =>
    rw [Ok, Tasks.clearMcc, setPc_pc, setPc_mcc, setMcc_pc, setMcc_mcc]
    exact h.clearMcc ht (hop _ ht)
  | newMemChain ht hr haddr heq => exact h.newMemChain ht hr heq
  | rlsMemChain ht heq => exact h.rlsMemChain heq
  | doExit ht heq =>
    rename_i t
    obtain ⟨s₁, rfl, hpc, hmcc, hcreator, hlive⟩ := doExit_cases heq
    refine .of_forks (l := fun q => s.mcc t ≠ some q ∧ s.mm.mcc q ≠ none) ?_ hlive
    rw [setPc_pc, setPc_mcc, setMcc_pc, setMcc_mcc, hpc, hmcc]
    change Forks _ _ _ s₁.creator
    rw [hcreator]
    exact h.doExit ht hop

/-- The collections are owned in the runs whose steps keep the owners. -/
theorem collections_owned (s : Tasks) (hs : ForkSystem.ReachableBy ForkOp.Owns s) : s.Owned :=
  (hs.invariant (I := Ok) (fun _ => Ok.init) fun _ _ _ h hop hst => h.step hop hst).owned

/-! ## Runs -/

omit [Mlock] in
/-- One task. -/
def initTask : Tasks where
  task := Function.update (fun _ => {}) 0 { pc := .user }

omit [Mlock] in
theorem initTask_init (mlock : Mlock) : (@ForkSystem mlock).init initTask := by
  refine ⟨fun t => ?_, fun _ => ⟨rfl, rfl⟩, fun _ => rfl, fun _ => rfl⟩
  by_cases ht : t = 0
  · subst ht
    exact ⟨rfl, .inl rfl⟩
  · have : Function.update (fun _ => ({} : Task)) 0 { pc := .user } t = {} :=
      Function.update_of_ne ht _ _
    exact ⟨congrArg Task.mcc this, .inr (congrArg Task.pc this)⟩

set_option maxRecDepth 4000 in
omit [Mlock] in
/-- A task and its child have a collection each. The child has waited for a child of its own. -/
theorem collections_owned_fork : ∃ s, (@ForkSystem Mlock.flag).Reachable s ∧ s.mcc 0 = some 5 ∧
    s.mcc 1 = some 6 ∧ s.pc 2 = .exited ∧ s.Owned := by
  let _ := Mlock.flag
  have hs : ForkSystem.ReachableBy ForkOp.Owns initTask := .init (initTask_init Mlock.flag)
  obtain ⟨s, hr, h⟩ : ∃ s, ForkSystem.RunBy ForkOp.Owns initTask [.copyProcess 0 1 false,
      .wakeUpNewTask 0, .copyProcess 1 2 true, .clearMcc 0, .newMemChain 0 5 7, .wakeUpNewTask 1,
      .doExit 2, .waitForCompletion 1, .clearMcc 1, .newMemChain 1 6 8] s ∧
        s.mcc 0 = some 5 ∧ s.mcc 1 = some 6 ∧ s.pc 2 = .exited := by
    refine ⟨_, .cons trivial (.copyProcess rfl rfl) (.cons (fun p hp => ?_) (.wakeUpNewTask rfl)
      (.cons trivial (.copyProcess rfl rfl) (.cons (fun p hp => ?_) (.clearMcc rfl)
        (.cons trivial (.newMemChain rfl rfl rfl rfl) (.cons (fun p hp => ?_) (.wakeUpNewTask rfl)
          (.cons (fun u r hr => by cases hr) (.doExit rfl rfl) (.cons trivial
            (.waitForCompletion rfl rfl) (.cons (fun p hp => ?_) (.clearMcc rfl) (.cons trivial
              (.newMemChain rfl rfl rfl rfl) .nil))))))))), rfl, rfl, rfl⟩
    · obtain rfl := (Pc.copied.inj hp).1
      rfl
    · obtain rfl := Pc.woken.inj hp
      rfl
    · cases (Pc.copied.inj hp).2
    · obtain rfl := Pc.woken.inj hp
      rfl
  exact ⟨s, (hr.reachable hs).reachable, h.1, h.2.1, h.2.2, collections_owned s (hr.reachable hs)⟩

set_option maxRecDepth 4000 in
omit [Mlock] in
/-- A task that has a collection shares it with its child; the exit of the child frees it. -/
theorem collections_owned_fails : ∃ s s', (@ForkSystem Mlock.flag).Reachable s ∧
    (@ForkSystem Mlock.flag).Reachable s' ∧ (s.CanRun 0 ∧ s.CanRun 1 ∧ s.mcc 0 = some 5 ∧
      s.mcc 1 = some 5) ∧ s'.pc 0 = .user ∧ s'.mcc 0 = some 5 ∧ s'.mm.mcc 5 = none := by
  let _ := Mlock.flag
  have hs : ForkSystem.Reachable initTask := .init (initTask_init Mlock.flag)
  obtain ⟨s, hr, h, s', hr', h'⟩ : ∃ s, ForkSystem.RunBy (fun _ _ => True) initTask
      [.newMemChain 0 5 7, .copyProcess 0 1 false, .wakeUpNewTask 0] s ∧ (s.CanRun 0 ∧
        s.CanRun 1 ∧ s.mcc 0 = some 5 ∧ s.mcc 1 = some 5) ∧ ∃ s', ForkSystem.RunBy
          (fun _ _ => True) s [.doExit 1, .clearMcc 0] s' ∧ s'.pc 0 = .user ∧ s'.mcc 0 = some 5 ∧
            s'.mm.mcc 5 = none := by
    refine ⟨_, .cons trivial (.newMemChain rfl rfl rfl rfl) (.cons trivial (.copyProcess rfl rfl)
      (.cons trivial (.wakeUpNewTask rfl) .nil)), ⟨trivial, trivial, rfl, rfl⟩, _, .cons trivial
        (.doExit rfl rfl) (.cons trivial (.clearMcc rfl) .nil), rfl, rfl, rfl⟩
  exact ⟨s, s', hr.reachable hs, hr'.reachable (hr.reachable hs), h, h'⟩

end Tasks

end Mcpq.Kernel
