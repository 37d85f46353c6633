import Mcpq.Lib.Paging
import Mathlib.Data.Finset.Card
import Mathlib.Tactic.Linarith

/-!
# Competitive analysis

How often the LRU stack faults, against any memory that serves the same accesses (`Demand`): one that
holds at most `h` pages, loads a page when it is accessed, and may drop any pages, for whatever reason.

The comparison is by a potential. The page at position `i` of the LRU stack of capacity `n` weighs
`n - i`, and the pages that the memory holds weigh `credit`. The credit is at most `n` for each page held
(`credit_le`): what is missing is paid when a page is loaded by the memory, and is spent when the LRU
stack faults.

* `Demand.credit`: what one access does to the credit;
* `DemandRun.faults_le`: a run from an empty memory, in which the LRU stack of capacity `n` faults at
  most `n / (n + 1 - h)` times as often as the memory.
-/

namespace Mcpq

variable {α : Type*} [DecidableEq α]

/-! ## The memories -/

/-- What an access to `a` does to the pages of a memory of capacity `h`. -/
structure Demand (h : ℕ) (C : Finset α) (a : α) (o : Outcome α) (D : Finset α) : Prop where
  isFault_iff : o.isFault = true ↔ a ∉ C
  mem : a ∈ D
  subset : D ⊆ insert a C
  card_le : D.card ≤ h

/-- A run of accesses. -/
inductive DemandRun (h : ℕ) : Finset α → List α → List (Outcome α) → Finset α → Prop
  | nil (C : Finset α) : DemandRun h C [] [] C
  | cons {C C₁ D : Finset α} {a : α} {o : Outcome α} {as : List α} {os : List (Outcome α)}
      (hd : Demand h C a o C₁) (ht : DemandRun h C₁ as os D) :
      DemandRun h C (a :: as) (o :: os) D

theorem DemandRun.append {h : ℕ} {C C₁ D : Finset α} {as as' : List α} {os os' : List (Outcome α)}
    (hr : DemandRun h C as os C₁) (hr' : DemandRun h C₁ as' os' D) :
    DemandRun h C (as ++ as') (os ++ os') D := by
  induction hr with
  | nil => exact hr'
  | cons hd _ ih => exact .cons hd (ih hr')

omit [DecidableEq α] in
theorem faults_append (os os' : List (Outcome α)) : faults (os ++ os') = faults os + faults os' :=
  List.countP_append

/-! ## The potential -/

/-- The number of the first `n` pages of the stack that are in `C`. -/
def held (C : Finset α) (n : ℕ) (l : List α) : ℕ := (l.take n).countP (· ∈ C)

/-- The weight of the pages of the stack that are in `C`. -/
def credit (C : Finset α) : ℕ → List α → ℕ
  | 0, _ => 0
  | _, [] => 0
  | n + 1, a :: l => (if a ∈ C then n + 1 else 0) + credit C n l

section credit

variable {C D : Finset α} {n : ℕ} {l : List α} {a : α}

@[simp] theorem credit_zero : credit C 0 l = 0 := by
  cases l <;> rfl

@[simp] theorem credit_nil : credit C n [] = 0 := by
  cases n <;> rfl

theorem credit_cons :
    credit C (n + 1) (a :: l) = (if a ∈ C then n + 1 else 0) + credit C n l := rfl

/-- Only the first `n` pages weigh. -/
theorem credit_take : credit C n (l.take n) = credit C n l := by
  induction l generalizing n with
  | nil => rw [List.take_nil]
  | cons b l ih =>
    cases n with
    | zero => simp
    | succ n => rw [List.take_succ_cons, credit_cons, credit_cons, ih]

theorem held_cons : held C (n + 1) (a :: l) = (if a ∈ C then 1 else 0) + held C n l := by
  rw [held, List.take_succ_cons, List.countP_cons, held]
  simp [Nat.add_comm]

/-- A stack whose pages are all one position further up. -/
theorem credit_add_held : credit C n l + held C (n + 1) l = credit C (n + 1) l := by
  induction l generalizing n with
  | nil => simp [held]
  | cons b l ih =>
    rw [held_cons, credit_cons]
    cases n with
    | zero => simp [held]
    | succ n =>
      rw [credit_cons, ← ih]
      split_ifs <;> omega

theorem held_le (hl : l.Nodup) (hC : ∀ b ∈ C, b ∈ l → b ∈ D) : held C n l ≤ D.card := by
  rw [held, List.countP_eq_length_filter,
    ← List.toFinset_card_of_nodup ((hl.sublist (List.take_sublist n l)).filter _)]
  refine Finset.card_le_card fun b hb => ?_
  rw [List.mem_toFinset, List.mem_filter, decide_eq_true_eq] at hb
  exact hC b hb.2 (List.mem_of_mem_take hb.1)

/-- Each page held weighs at most `n`. -/
theorem credit_le (hl : l.Nodup) : credit C n l ≤ n * C.card := by
  refine le_trans ?_ (Nat.mul_le_mul_left n (held_le (n := n) hl fun _ hb _ => hb))
  induction l generalizing n with
  | nil => simp
  | cons b l ih =>
    cases n with
    | zero => simp
    | succ n =>
      have := ih (n := n) (List.nodup_cons.1 hl).2
      rw [credit_cons, held_cons]
      split_ifs <;> nlinarith

/-- A page dropped costs at most its weight. -/
theorem credit_drop (hl : l.Nodup) : credit C n l ≤ credit D n l + n * (C \ D).card := by
  suffices h : credit C n l ≤ credit D n l + credit (C \ D) n l from
    h.trans (Nat.add_le_add_left (credit_le hl) _)
  clear hl
  induction l generalizing n with
  | nil => simp
  | cons b l ih =>
    cases n with
    | zero => simp
    | succ n =>
      have := ih (n := n)
      simp only [credit_cons, Finset.mem_sdiff]
      by_cases hb : b ∈ C <;> by_cases hb' : b ∈ D <;> simp [hb, hb'] <;> omega

/-- The pages come down by at most one position when a page of `C` comes first. -/
theorem credit_le_cons_erase (ha : a ∈ C) : credit C n l ≤ credit C n (a :: l.erase a) := by
  induction l generalizing n with
  | nil => simp
  | cons b l ih =>
    rw [List.erase_cons]
    split_ifs with hb
    · rw [eq_of_beq hb]
    · rcases n with _ | _ | n
      · simp
      · simp only [credit_cons, if_pos ha, credit_zero]
        split_ifs <;> omega
      · have := ih (n := n + 1)
        simp only [credit_cons, if_pos ha] at this ⊢
        split_ifs <;> omega

/-- A page of `C` that is new on the stack. -/
theorem credit_cons_of_mem (ha : a ∈ C) : credit C n l + n ≤ credit C n (a :: l) + held C n l := by
  cases n with
  | zero => simp
  | succ n =>
    rw [credit_cons, if_pos ha, ← credit_add_held]
    omega

end credit

/-! ## Runs -/

theorem nodup_touch {l : List α} (hl : l.Nodup) (n : ℕ) (a : α) : (touch n l a).Nodup :=
  (List.nodup_cons.2 ⟨hl.not_mem_erase, hl.erase a⟩).sublist (List.take_sublist ..)

theorem nodup_lruStack {l : List α} (hl : l.Nodup) (n : ℕ) (as : List α) :
    (lruStack n l as).Nodup := by
  induction as generalizing l with
  | nil => exact hl
  | cons a as ih => exact ih (nodup_touch hl n a)

section run

variable {h n : ℕ} {C D : Finset α} {a : α} {o : Outcome α} {l as : List α} {os : List (Outcome α)}

/-- The pages that are loaded and dropped by an access. -/
theorem Demand.card_add_le (hd : Demand h C a o D) :
    D.card + (C \ D).card ≤ C.card + faults [o] := by
  have hnew : (D \ C).card ≤ faults [o] := by
    by_cases ha : a ∈ C
    · rw [Finset.sdiff_eq_empty_iff_subset.2 ((Finset.insert_eq_of_mem ha) ▸ hd.subset)]
      exact Nat.zero_le _
    · rw [faults, List.countP_singleton, if_pos (hd.isFault_iff.2 ha), ← Finset.card_singleton a]
      refine Finset.card_le_card fun b hb => ?_
      obtain ⟨hb, hbC⟩ := Finset.mem_sdiff.1 hb
      exact Finset.mem_singleton.2 ((Finset.mem_insert.1 (hd.subset hb)).resolve_right hbC)
  have := Finset.card_sdiff_add_card C D
  have := Finset.card_sdiff_add_card D C
  rw [Finset.union_comm] at this
  omega

/-- What an access does to the credit of the memory. -/
theorem Demand.credit_le (hd : Demand h C a o D) (hl : l.Nodup) :
    credit C n l + n * D.card + (n + 1 - h) * faults [outcome n l a] ≤
      credit D n (touch n l a) + n * C.card + n * faults [o] := by
  have hdrop : credit C n l ≤ credit D n l + n * (C \ D).card := credit_drop hl
  -- The page comes first on the stack.
  have htouch : credit D n l + (n + 1 - h) * faults [outcome n l a] ≤
      credit D n (touch n l a) := by
    have hle := credit_le_cons_erase (n := n) (l := l) hd.mem
    rw [touch, credit_take, outcome]
    by_cases ha : a ∈ l
    · rw [if_pos ha]
      exact hle
    · have hheld : held D n l ≤ (D.erase a).card :=
        held_le hl fun b hb hbl => Finset.mem_erase.2 ⟨fun hba => ha (hba ▸ hbl), hb⟩
      have hcons := credit_cons_of_mem (n := n) (l := l) hd.mem
      have := Finset.card_erase_add_one hd.mem
      have := hd.card_le
      rw [List.erase_of_not_mem ha] at hle ⊢
      rw [if_neg ha, faults, List.countP_singleton]
      simp only [Outcome.isFault, if_true]
      omega
  have := Nat.mul_le_mul_left n hd.card_add_le
  rw [Nat.mul_add, Nat.mul_add] at this
  omega

theorem DemandRun.credit_le (hr : DemandRun h C as os D) (hl : l.Nodup) :
    credit C n l + n * D.card + (n + 1 - h) * faults (lruOutcomes n l as) ≤
      credit D n (lruStack n l as) + n * C.card + n * faults os := by
  induction hr generalizing l with
  | nil => rfl
  | @cons _ _ _ a o as os hd _ ih =>
    have hstep := hd.credit_le (n := n) hl
    have hrun := ih (nodup_touch hl n a)
    rw [lruOutcomes, ← List.singleton_append, faults_append, ← List.singleton_append (l := os),
      faults_append, Nat.mul_add, Nat.mul_add]
    change _ ≤ credit _ n (lruStack n (touch n l a) as) + _ + _
    omega

/-- From an empty memory, the LRU stack of capacity `n` faults at most `n / (n + 1 - h)` times as often
    as a memory of capacity `h`. -/
theorem DemandRun.faults_le (hr : DemandRun h ∅ as os D) :
    (n + 1 - h) * faults (lruOutcomes n [] as) ≤ n * faults os := by
  have hrun := hr.credit_le (n := n) (l := []) List.nodup_nil
  have hend : credit D n (lruStack n [] as) ≤ n * D.card :=
    Mcpq.credit_le (nodup_lruStack List.nodup_nil n as)
  rw [credit_nil, Finset.card_empty] at hrun
  omega

end run

end Mcpq
