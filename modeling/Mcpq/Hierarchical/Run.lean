import Mcpq.Hierarchical.Manager
import Mcpq.Lib.Transition

/-!
# Runs of the hierarchical memory manager

The calls to a manager (`Call`), and the transition systems of the calls that return normally: on chains
the manager created and has not released (`System`), or on any chains it created (`FullSystem`). In each
call, the map of the user chains may be iterated in any order.
-/

namespace Mcpq.Hierarchical

/-- A call to the manager; a chain is given by its identifier. -/
inductive Call
  | access (address : ℤ)
  | createMemoryChain (policy : EvictionPolicy)
  | createBoundedMemoryChain (policy : EvictionPolicy) (capacity : ℤ)
  | createAnchoredMemoryChain (policy : EvictionPolicy) (capacity : ℤ) (anchored : Bool)
  | link (chain address : ℤ)
  | anchor (chain address : ℤ)
  | unlink (address : ℤ)
  | breakMemoryChain (chain : ℤ)
  | releaseMemoryChain (chain : ℤ)
  deriving DecidableEq, Repr

namespace Call

/-- The chain a call is given. -/
def chain? : Call → Option ℤ
  | link chain _ => some chain
  | anchor chain _ => some chain
  | breakMemoryChain chain => some chain
  | releaseMemoryChain chain => some chain
  | _ => none

/-- Execute a call. Only an access has an outcome. -/
def exec (order : List ℤ) (s : HierarchicalMemoryManager) :
    Call → Java (HierarchicalMemoryManager × Option (Outcome ℤ))
  | access address => (s.access order address).map fun (s, o) => (s, some o)
  | createMemoryChain policy => .ok (s.createMemoryChain policy, none)
  | createBoundedMemoryChain policy capacity =>
    .ok (s.createBoundedMemoryChain policy capacity, none)
  | createAnchoredMemoryChain policy capacity anchored =>
    (HierarchicalMemoryManager.createAnchoredMemoryChain policy capacity anchored).map (·, none)
  | link chain address => (s.link chain address).map (·, none)
  | anchor chain address => (s.anchor chain address).map (·, none)
  | unlink address => (s.unlink address).map (·, none)
  | breakMemoryChain chain => (s.breakMemoryChain chain).map (·, none)
  | releaseMemoryChain chain => (s.releaseMemoryChain chain).map (·, none)

end Call

/-- A call that returns normally, on live chains. -/
structure Step (s : HierarchicalMemoryManager) (call : Call) (s' : HierarchicalMemoryManager) :
    Prop where
  live : ∀ chain, call.chain? = some chain → chain ∈ s.usrChains
  returns : ∃ order o, order.Perm s.usrChains ∧ call.exec order s = .ok (s', o)

/-- A call that returns normally, on chains that the manager created, and may have released. -/
structure FullStep (s : HierarchicalMemoryManager) (call : Call) (s' : HierarchicalMemoryManager) :
    Prop where
  created : ∀ chain, call.chain? = some chain → 3 ≤ chain ∧ chain < s.chainId
  returns : ∃ order o, order.Perm s.usrChains ∧ call.exec order s = .ok (s', o)

/-- The runs of a manager of capacity `n`. -/
def System (n : ℕ) : Transition HierarchicalMemoryManager Call where
  init s := ∃ clock draws, s = .make n clock draws
  step := Step

/-- The runs of a manager of capacity `n` whose calls may be on chains that have been released. -/
def FullSystem (n : ℕ) : Transition HierarchicalMemoryManager Call where
  init s := ∃ clock draws, s = .make n clock draws
  step := FullStep

/-- A run of a list of calls, with the outcomes of its accesses. The `i`-th call iterates the map
    of the user chains in the order `order i` gives. -/
def runCalls (order : ℕ → List ℤ → List ℤ) :
    ℕ → HierarchicalMemoryManager → List Call →
      Java (HierarchicalMemoryManager × List (Outcome ℤ))
  | _, s, [] => .ok (s, [])
  | i, s, call :: calls => do
    let (s, o) ← call.exec (order i s.usrChains) s
    let (s, os) ← runCalls order (i + 1) s calls
    pure (s, o.toList ++ os)

/-- The state a list of calls on live chains leads to, if they all end normally. -/
def replay : HierarchicalMemoryManager → List Call → Option HierarchicalMemoryManager
  | s, [] => some s
  | s, call :: calls =>
    if call.chain?.all (· ∈ s.usrChains) then
      match call.exec s.usrChains s with
      | .ok (s, _) => replay s calls
      | .error _ => none
    else none

theorem replay_cons {s s' : HierarchicalMemoryManager} {call : Call} {calls : List Call}
    (h : replay s (call :: calls) = some s') :
    ∃ s₁, replay s [call] = some s₁ ∧ replay s₁ calls = some s' := by
  rw [replay] at h ⊢
  split_ifs at h ⊢ with hlive
  split at h
  · exact ⟨_, rfl, h⟩
  · cases h

theorem reachable_replay {n : ℕ} {s s' : HierarchicalMemoryManager} {calls : List Call}
    (hs : (System n).Reachable s) (h : replay s calls = some s') : (System n).Reachable s' := by
  induction calls generalizing s with
  | nil =>
    cases h
    exact hs
  | cons call calls ih =>
    rw [replay] at h
    split_ifs at h with hlive
    split at h
    · rename_i s₁ o heq
      refine ih (.step hs trivial ⟨fun chain hc => ?_, s.usrChains, o, .refl _, heq⟩) h
      simpa [hc] using hlive
    · cases h

/-- What is computed of the state a list of calls leads to holds of a reachable state. -/
theorem exists_reachable {n : ℕ} {Q : HierarchicalMemoryManager → Bool} (calls : List Call)
    (h : (replay (.make n {} fun _ => 0) calls).any Q = true) :
    ∃ s, (System n).Reachable s ∧ Q s = true := by
  obtain ⟨s, hs, hq⟩ := (Option.any_eq_true ..).1 h
  exact ⟨s, reachable_replay (.init ⟨_, _, rfl⟩) hs, hq⟩

end Mcpq.Hierarchical
