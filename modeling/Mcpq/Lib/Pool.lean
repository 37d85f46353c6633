import Mcpq.Lib.Transition
import Mathlib.Algebra.BigOperators.Group.List.Basic

/-!
# Pools of threads

A *pool* has data that its threads share, and each thread is the list of the instructions that it has
left. An instruction is executed in one step and replaced by the instructions that it returns; what is
called from outside changes the shared data and adds a thread (`Pool.Step`).

An invariant of a pool may depend on what the instructions of all its threads claim together
(`Pool.claims`), in any commutative monoid. It is enough to check each instruction on its own, together
with anything that may be claimed besides (`Pool.invariant`). The runs may be restricted by a condition on
the instructions that are executed and on the data when they are. `Pool.next` computes the steps of such
a run.
-/

namespace Mcpq

universe u v w x y z

/-- A pool of threads. -/
structure Pool (σ : Type u) (ι : Type v) where
  shared : σ
  threads : List (List ι)

namespace Pool

variable {σ : Type u} {ι : Type v} {κ : Type w} {γ : Type x} {ε : Type y}

/-- A step: something is called, or a thread executes its next instruction, with a choice. -/
inductive Label (κ : Type w) (γ : Type x)
  | call (a : κ)
  | run (thread : ℕ) (c : γ)

/-- A thread is started by a call, or one of the threads executes an instruction. -/
inductive Step (call : κ → σ → Option (σ × List ι)) (exec : γ → σ → ι → Except ε (σ × List ι)) :
    Pool σ ι → Label κ γ → Pool σ ι → Prop
  | call {s s' : σ} {ts : List (List ι)} {a : κ} {prog : List ι} : call a s = some (s', prog) →
    Step call exec ⟨s, ts⟩ (.call a) ⟨s', ts ++ [prog]⟩
  | run {s s' : σ} {ts ts' : List (List ι)} {c : γ} {i : ι} {is k : List ι} :
    exec c s i = .ok (s', is) →
    Step call exec ⟨s, ts ++ (i :: k) :: ts'⟩ (.run ts.length c) ⟨s', ts ++ (is ++ k) :: ts'⟩

/-- The transition system of a pool: there are no threads at first. -/
def system (init : σ → Prop) (call : κ → σ → Option (σ × List ι))
    (exec : γ → σ → ι → Except ε (σ × List ι)) : Transition (Pool σ ι) (Label κ γ) where
  init P := init P.shared ∧ P.threads = []
  step := Step call exec

variable {M : Type z} [AddCommMonoid M]

/-- What the instructions of all threads claim together. -/
def claims (f : ι → M) (ts : List (List ι)) : M := (ts.map fun prog => (prog.map f).sum).sum

variable {f : ι → M} {ts ts' : List (List ι)} {i : ι} {is k : List ι}

theorem claims_append : claims f (ts ++ ts') = claims f ts + claims f ts' := by
  rw [claims, List.map_append, List.sum_append, claims, claims]

/-- What the first instructions of a thread claim is separated from the rest. -/
theorem claims_split :
    claims f (ts ++ (is ++ k) :: ts') = (is.map f).sum + claims f (ts ++ k :: ts') := by
  simp only [claims, List.map_append, List.map_cons, List.sum_append, List.sum_cons]
  rw [add_assoc, add_left_comm]

theorem claims_split_cons :
    claims f (ts ++ (i :: k) :: ts') = f i + claims f (ts ++ k :: ts') := by
  have h : claims f (ts ++ ([i] ++ k) :: ts') = _ := claims_split
  rwa [List.map_singleton, List.sum_singleton] at h

/-- What an instruction claims is a part of what is claimed. -/
theorem claims_of_mem (h : i :: k ∈ ts) : ∃ R, claims f ts = f i + R := by
  obtain ⟨ts₁, ts₂, rfl⟩ := List.append_of_mem h
  exact ⟨_, claims_split_cons⟩

/-- The instruction that is executed in a step meets the condition. -/
def Executes (Q : σ → ι → Prop) (P : Pool σ ι) : Label κ γ → Prop
  | .call _ => True
  | .run t _ => ∀ i k, P.threads[t]? = some (i :: k) → Q P.shared i

/-- An invariant of the shared data and of what is claimed: each call, and each instruction that meets
    the condition, keeps it, whatever is claimed besides. -/
theorem invariant {init : σ → Prop} {call : κ → σ → Option (σ × List ι)}
    {exec : γ → σ → ι → Except ε (σ × List ι)} {Q : σ → ι → Prop} {I : σ → M → Prop}
    (hinit : ∀ s, init s → I s 0)
    (hcall : ∀ a s s' prog R, I s R → call a s = some (s', prog) → I s' ((prog.map f).sum + R))
    (hexec : ∀ c s i s' is R, I s (f i + R) → Q s i → exec c s i = .ok (s', is) →
      I s' ((is.map f).sum + R))
    {P : Pool σ ι} (hP : (system init call exec).ReachableBy (Executes Q) P) :
    I P.shared (claims f P.threads) := by
  refine hP.invariant (I := fun P => I P.shared (claims f P.threads)) ?_ ?_
  · rintro ⟨s, ts⟩ ⟨hs, rfl⟩
    exact hinit s hs
  · rintro _ _ _ hI hQ (@⟨s, s', ts, a, prog, hc⟩ | @⟨s, s', ts, ts', c, i, is, k, he⟩)
    · have h := hcall a s s' prog _ hI hc
      rwa [claims_append, add_comm, claims, List.map_singleton, List.sum_singleton]
    · have hQi : Q s i := hQ i k (by simp)
      rw [claims_split_cons] at hI
      rw [claims_split]
      exact hexec c s i s' is _ hI hQi he

/-- A step of a run whose instructions meet the condition, or `none`. -/
def next (call : κ → σ → Option (σ × List ι)) (exec : γ → σ → ι → Except ε (σ × List ι))
    (Q : σ → ι → Prop) [∀ s i, Decidable (Q s i)] (P : Pool σ ι) : Label κ γ → Option (Pool σ ι)
  | .call a => (call a P.shared).map fun r => ⟨r.1, P.threads ++ [r.2]⟩
  | .run t c =>
    match P.threads.drop t with
    | (i :: k) :: ts =>
      match exec c P.shared i with
      | .ok r => if Q P.shared i then some ⟨r.1, P.threads.take t ++ (r.2 ++ k) :: ts⟩ else none
      | .error _ => none
    | _ => none

section Next

variable {init : σ → Prop} {call : κ → σ → Option (σ × List ι)}
  {exec : γ → σ → ι → Except ε (σ × List ι)} {Q : σ → ι → Prop} [∀ s i, Decidable (Q s i)]
  {P P' : Pool σ ι} {l : Label κ γ}

theorem step_of_next (h : next call exec Q P l = some P') :
    Executes Q P l ∧ Step call exec P l P' := by
  obtain ⟨s, threads⟩ := P
  cases l with
  | call a =>
    obtain ⟨r, hr, rfl⟩ := Option.map_eq_some_iff.1 h
    exact ⟨trivial, .call hr⟩
  | run t c =>
    rw [next] at h
    split at h
    next i k ts hdrop =>
      split at h
      next r hr =>
        split_ifs at h with hQ
        obtain rfl := Option.some.inj h
        have hlt : t < threads.length := by
          by_contra hge
          rw [List.drop_eq_nil_of_le (Nat.le_of_not_lt hge)] at hdrop
          cases hdrop
        have hthreads : threads = threads.take t ++ (i :: k) :: ts := by
          rw [← hdrop, List.take_append_drop]
        have hlen : (threads.take t).length = t := List.length_take_of_le (Nat.le_of_lt hlt)
        refine ⟨fun i' k' hget => ?_, ?_⟩
        · rw [hthreads, List.getElem?_append_right (Nat.le_of_eq hlen), hlen, Nat.sub_self] at hget
          obtain ⟨rfl, -⟩ := List.cons.inj (Option.some.inj hget)
          exact hQ
        · have hstep : Step call exec ⟨s, threads.take t ++ (i :: k) :: ts⟩
              (.run (threads.take t).length c) ⟨r.1, threads.take t ++ (r.2 ++ k) :: ts⟩ := .run hr
          rwa [← hthreads, hlen] at hstep
      next => cases h
    next => cases h

/-- What a run computes is reached, by steps from states that meet a condition if all those computed on
    the way do. -/
theorem reachableBy_of_foldlM {ls : List (Label κ γ)} {B : Pool σ ι → Prop}
    (h : ls.foldlM (next call exec Q) P = some P')
    (hB : ∀ n P₁, (ls.take n).foldlM (next call exec Q) P = some P₁ → B P₁)
    (hP : (system init call exec).ReachableBy (fun P l => Executes Q P l ∧ B P) P) :
    (system init call exec).ReachableBy (fun P l => Executes Q P l ∧ B P) P' := by
  induction ls generalizing P with
  | nil => exact Option.some.inj h ▸ hP
  | cons l ls ih =>
    rw [List.foldlM_cons, Option.bind_eq_bind, Option.bind_eq_some_iff] at h
    obtain ⟨P₁, hnext, h⟩ := h
    obtain ⟨hQ, hstep⟩ := step_of_next hnext
    refine ih h (fun n P₂ hP₂ => hB (n + 1) P₂ ?_) (.step hP ⟨hQ, hB 0 P rfl⟩ hstep)
    rw [List.take_succ_cons, List.foldlM_cons, Option.bind_eq_bind, hnext]
    exact hP₂

end Next

end Pool

end Mcpq
