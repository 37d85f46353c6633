import Mcpq.Lib.Transition
import Mathlib.Logic.Function.Basic
import Mathlib.Data.List.Basic
import Mathlib.Order.WellFounded

/-!
# Threads that take locks

Threads run programs that acquire and release locks, and call functions on the data they share. What a
function goes on to do may depend on the data when it is called, so a call is replaced by the
instructions of its body (`Locking.Step`).

When every thread takes the locks by increasing rank (`LockOrder.Follows`), of the threads that have not
finished one can always take its next step: a thread that waits for a lock waits for one whose lock, if
it waits too, is of a higher rank (`LockOrder.Ordered.progresses`).
-/

namespace Mcpq

universe u v w x y

/-- An instruction of a thread. -/
inductive Instr (L : Type u) (κ : Type v)
  | acquire (l : L)
  | release (l : L)
  | call (k : κ)
  deriving DecidableEq, Repr

/-- The instructions, with the lock held. -/
def Instr.locked {L : Type u} {κ : Type v} (l : L) (is : List (Instr L κ)) : List (Instr L κ) :=
  .acquire l :: (is ++ [.release l])

/-- What the functions do: called on the data before, with the data after and the instructions that
    remain of the function. -/
abbrev Calls (L : Type u) (κ : Type v) (D : Type w) := D → κ → D → List (Instr L κ) → Prop

/-- The state of the threads: what remains of their programs, which thread has which lock, and the data
    they share. -/
structure Locking (T : Type x) (L : Type u) (κ : Type v) (D : Type w) where
  prog : T → List (Instr L κ)
  owner : L → Option T
  data : D

namespace Locking

variable {T : Type x} {L : Type u} {κ : Type v} {D : Type w} [DecidableEq T] [DecidableEq L]
  (s : Locking T L κ D) (t : T) (l : L) (is : List (Instr L κ))

/-- The thread gets the lock. -/
def acquire : Locking T L κ D :=
  { s with prog := Function.update s.prog t is, owner := Function.update s.owner l (some t) }

/-- The thread gives the lock back. -/
def release : Locking T L κ D :=
  { s with prog := Function.update s.prog t is, owner := Function.update s.owner l none }

/-- The thread goes on, with the data `d`. -/
def goOn (d : D) : Locking T L κ D := { s with prog := Function.update s.prog t is, data := d }

variable {s t l is}

theorem acquire_prog (u : T) : (s.acquire t l is).prog u = if u = t then is else s.prog u :=
  Function.update_apply ..

theorem acquire_owner (k : L) : (s.acquire t l is).owner k = if k = l then some t else s.owner k :=
  Function.update_apply ..

theorem release_prog (u : T) : (s.release t l is).prog u = if u = t then is else s.prog u :=
  Function.update_apply ..

theorem release_owner (k : L) : (s.release t l is).owner k = if k = l then none else s.owner k :=
  Function.update_apply ..

omit [DecidableEq L] in
theorem goOn_prog {d : D} (u : T) : (s.goOn t is d).prog u = if u = t then is else s.prog u :=
  Function.update_apply ..

variable (s)

/-- The steps of the threads. A lock that a thread has, or the thread itself, is waited for. -/
inductive Step (calls : Calls L κ D) (s : Locking T L κ D) : T → Locking T L κ D → Prop
  | acquire {t : T} {l : L} {is : List (Instr L κ)} (hp : s.prog t = .acquire l :: is)
    (hl : s.owner l = none) : Step calls s t (s.acquire t l is)
  | release {t : T} {l : L} {is : List (Instr L κ)} (hp : s.prog t = .release l :: is) :
    Step calls s t (s.release t l is)
  | call {t : T} {k : κ} {d : D} {body is : List (Instr L κ)} (hp : s.prog t = .call k :: is)
    (hk : calls s.data k d body) : Step calls s t (s.goOn t (body ++ is) d)

/-- A thread that takes a step does not wait for a lock that a thread has. -/
theorem Step.owner_eq_none {s s' : Locking T L κ D} {calls : Calls L κ D} {t : T} {l : L}
    {is : List (Instr L κ)} (hst : s.Step calls t s') (hp : s.prog t = .acquire l :: is) :
    s.owner l = none := by
  cases hst with
  | acquire hp' hl =>
    obtain ⟨hi, -⟩ := List.cons.inj (hp.symm.trans hp')
    exact Instr.acquire.inj hi ▸ hl
  | release hp' | call hp' =>
    obtain ⟨hi, -⟩ := List.cons.inj (hp.symm.trans hp')
    cases hi

/-- If a thread has not finished, then one that has not finished can take its next step. -/
def Progresses (calls : Calls L κ D) : Prop :=
  (∃ t, s.prog t ≠ []) → ∃ t, s.prog t ≠ [] ∧ ∃ s', s.Step calls t s'

end Locking

/-- An order on locks by rank, and which functions may be called with which locks held: those held
    before a call, and those held after it. -/
structure LockOrder (L : Type u) (κ : Type v) (R : Type y) where
  rank : L → R
  fits : κ → List L → List L → Prop

namespace LockOrder

variable {T : Type x} {L : Type u} {κ : Type v} {D : Type w} {R : Type y} [DecidableEq L] [Preorder R]
  (O : LockOrder L κ R)

/-- The instructions follow the order, with the locks held before them, and end without locks. -/
def Follows : List L → List (Instr L κ) → Prop
  | held, [] => held = []
  | held, .acquire l :: is => (∀ k ∈ held, O.rank k < O.rank l) ∧ Follows (l :: held) is
  | held, .release l :: is => l ∈ held ∧ Follows (held.erase l) is
  | held, .call k :: is => ∃ held', O.fits k held held' ∧ Follows held' is

/-- The instructions may be run with the locks `held`, and leave the thread with the locks `held'`. -/
def Runs (held : List L) (is : List (Instr L κ)) (held' : List L) : Prop :=
  ∀ rest, O.Follows held' rest → O.Follows held (is ++ rest)

/-- The locks that the thread has. -/
def Holds (s : Locking T L κ D) (t : T) (held : List L) : Prop :=
  held.Nodup ∧ ∀ l, l ∈ held ↔ s.owner l = some t

/-- What remains of each thread follows the order. -/
def Ordered (s : Locking T L κ D) : Prop :=
  ∀ t, ∃ held, Holds s t held ∧ O.Follows held (s.prog t)

/-! ## Programs that follow the order -/

section Runs

variable {O} {l : L} {held m held' : List L} {is is' : List (Instr L κ)} {k : κ}

theorem Runs.nil : O.Runs held [] held := fun _ h => h

theorem Runs.append (h : O.Runs held is m) (h' : O.Runs m is' held') :
    O.Runs held (is ++ is') held' := fun rest hrest => by
  rw [List.append_assoc]
  exact h _ (h' _ hrest)

theorem Runs.acquire (hl : ∀ k ∈ held, O.rank k < O.rank l) (h : O.Runs (l :: held) is held') :
    O.Runs held (.acquire l :: is) held' := fun _ hrest => ⟨hl, h _ hrest⟩

theorem Runs.release (hl : l ∈ held) (h : O.Runs (held.erase l) is held') :
    O.Runs held (.release l :: is) held' := fun _ hrest => ⟨hl, h _ hrest⟩

theorem Runs.call (hk : O.fits k held m) (h : O.Runs m is held') :
    O.Runs held (.call k :: is) held' := fun _ hrest => ⟨m, hk, h _ hrest⟩

theorem Runs.singleton (hk : O.fits k held held') : O.Runs held [.call k] held' := .call hk .nil

theorem Runs.locked (hl : ∀ k ∈ held, O.rank k < O.rank l) (h : O.Runs (l :: held) is (l :: held)) :
    O.Runs held (Instr.locked l is) held := by
  refine .acquire hl (h.append (.release List.mem_cons_self ?_))
  rw [List.erase_cons_head]
  exact .nil

theorem Runs.flatMap {α : Type*} {f : α → List (Instr L κ)} {as : List α}
    (h : ∀ a ∈ as, O.Runs held (f a) held) : O.Runs held (as.flatMap f) held := by
  induction as with
  | nil => exact .nil
  | cons a as ih =>
    rw [List.flatMap_cons]
    exact (h a List.mem_cons_self).append (ih fun b hb => h b (List.mem_cons_of_mem a hb))

theorem Runs.map {α : Type*} {f : α → κ} {as : List α} (h : ∀ a ∈ as, O.fits (f a) held held) :
    O.Runs held (as.map fun a => .call (f a)) held := by
  induction as with
  | nil => exact .nil
  | cons a as ih => exact .call (h a List.mem_cons_self) (ih fun b hb => h b (List.mem_cons_of_mem a hb))

end Runs

/-! ## Threads that follow the order -/

variable {O} [DecidableEq T] {s s' : Locking T L κ D} {calls : Calls L κ D} {t u : T} {l : L}
  {held : List L} {is : List (Instr L κ)}

theorem Holds.acquire (h : Holds s u held) (hl : s.owner l = none) :
    Holds (s.acquire t l is) u (if u = t then l :: held else held) := by
  have hmem : l ∉ held := fun hmem => by
    rw [h.2, hl] at hmem
    cases hmem
  split_ifs with hu
  · refine ⟨List.nodup_cons.2 ⟨hmem, h.1⟩, fun k => ?_⟩
    rw [List.mem_cons, Locking.acquire_owner, h.2, hu]
    split_ifs with hk
    · exact iff_of_true (.inl hk) rfl
    · exact or_iff_right hk
  · refine ⟨h.1, fun k => ?_⟩
    rw [Locking.acquire_owner]
    split_ifs with hk
    · exact iff_of_false (hk ▸ hmem) fun heq => hu (Option.some.inj heq).symm
    · exact h.2 k

theorem Holds.release (h : Holds s u held) (hl : s.owner l = some t) :
    Holds (s.release t l is) u (if u = t then held.erase l else held) := by
  split_ifs with hu
  · refine ⟨h.1.erase l, fun k => ?_⟩
    rw [h.1.mem_erase_iff, Locking.release_owner, h.2]
    split_ifs with hk
    · exact iff_of_false (fun hk' => hk'.1 hk) fun heq => by cases heq
    · exact and_iff_right hk
  · refine ⟨h.1, fun k => ?_⟩
    rw [Locking.release_owner, h.2]
    split_ifs with hk
    · rw [hk, hl]
      exact iff_of_false (fun heq => hu (Option.some.inj heq).symm) fun heq => by cases heq
    · rfl

/-- A step keeps the order, when the body of a function called follows it. -/
theorem Ordered.step (h : O.Ordered s) (hst : s.Step calls t s')
    (hcall : ∀ {k d body is held held'}, s.prog t = .call k :: is → calls s.data k d body →
      Holds s t held → O.fits k held held' → O.Runs held body held') :
    O.Ordered s' := by
  intro u
  obtain ⟨held, hheld, hf⟩ := h u
  cases hst with
  | @acquire l is hp hl =>
    refine ⟨_, hheld.acquire hl, ?_⟩
    rw [Locking.acquire_prog]
    split_ifs with hu
    · rw [hu, hp] at hf
      exact hf.2
    · exact hf
  | @release l is hp =>
    obtain ⟨held', hheld', hf'⟩ := h t
    rw [hp] at hf'
    refine ⟨_, hheld.release ((hheld'.2 l).1 hf'.1), ?_⟩
    rw [Locking.release_prog]
    split_ifs with hu
    · rw [hu, hp] at hf
      exact hf.2
    · exact hf
  | @call k d body is hp hk =>
    refine ⟨held, hheld, ?_⟩
    rw [Locking.goOn_prog]
    split_ifs with hu
    · subst hu
      rw [hp] at hf
      obtain ⟨held', hfits, hf⟩ := hf
      exact hcall hp hk hheld hfits _ hf
    · exact hf

/-- A thread that waits for a lock: the one that has it can take its next step, or waits for a lock of
    a higher rank. -/
theorem Ordered.exists_step [WellFoundedGT R] (h : O.Ordered s)
    (hcall : ∀ {t k is held held'}, s.prog t = .call k :: is → O.fits k held held' →
      ∃ d body, calls s.data k d body) (r : R) :
    ∀ {t l is}, s.prog t = .acquire l :: is → O.rank l = r →
      ∃ u, s.prog u ≠ [] ∧ ∃ s', s.Step calls u s' := by
  induction r using WellFoundedGT.induction with
  | ind r ih =>
    intro t l is hp hr
    cases hl : s.owner l with
    | none => exact ⟨t, by rw [hp]; exact List.cons_ne_nil _ _, _, .acquire hp hl⟩
    | some u =>
      obtain ⟨held, hheld, hf⟩ := h u
      have hmem : l ∈ held := (hheld.2 l).2 hl
      cases hu : s.prog u with
      | nil =>
        rw [hu] at hf
        exact absurd (hf ▸ hmem) List.not_mem_nil
      | cons i is' =>
        have hne : s.prog u ≠ [] := by
          rw [hu]
          exact List.cons_ne_nil _ _
        rw [hu] at hf
        cases i with
        | acquire k => exact ih (O.rank k) (hr ▸ hf.1 l hmem) hu rfl
        | release k => exact ⟨u, hne, _, .release hu⟩
        | call k =>
          obtain ⟨held', hfits, -⟩ := hf
          obtain ⟨d, body, hk⟩ := hcall hu hfits
          exact ⟨u, hne, _, .call hu hk⟩

/-- When the threads follow an order whose ranks do not increase for ever, there is no deadlock. -/
theorem Ordered.progresses [WellFoundedGT R] (h : O.Ordered s)
    (hcall : ∀ {t k is held held'}, s.prog t = .call k :: is → O.fits k held held' →
      ∃ d body, calls s.data k d body) : s.Progresses calls := by
  rintro ⟨t, ht⟩
  obtain ⟨held, -, hf⟩ := h t
  cases hp : s.prog t with
  | nil => exact absurd hp ht
  | cons i is =>
    rw [hp] at hf
    cases i with
    | acquire l => exact h.exists_step hcall _ hp rfl
    | release l => exact ⟨t, ht, _, .release hp⟩
    | call k =>
      obtain ⟨held', hfits, -⟩ := hf
      obtain ⟨d, body, hk⟩ := hcall hp hfits
      exact ⟨t, ht, _, .call hp hk⟩

end LockOrder

end Mcpq
