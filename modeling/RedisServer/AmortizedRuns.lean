import Mathlib

/-!
# Amortized bounds on runs

A rank of the states pays for the steps of a run. A step that costs something takes it from the
rank, or its label has been credited with it. However the steps follow one another, their costs
are then bounded by the first rank and the credits.
-/

namespace RedisServer.AmortizedRuns

variable {σ Λ : Type*} {step : Λ → σ → σ → Prop} {I : σ → Prop} {s t u : σ} {l : Λ} {ls : List Λ}

/-- A run and the labels of its steps. -/
inductive Path (step : Λ → σ → σ → Prop) : σ → List Λ → σ → Prop
  | nil (s : σ) : Path step s [] s
  | cons {s t u : σ} {l : Λ} {ls : List Λ} (hstep : step l s t) (hrest : Path step t ls u) :
      Path step s (l :: ls) u

theorem Path.preserves (h : Path step s ls t) (hs : I s)
    (hkeeps : ∀ l s t, I s → step l s t → I t) : I t := by
  induction h with
  | nil => exact hs
  | cons hstep _ ih => exact ih (hkeeps _ _ _ hs hstep)

/-- Every step keeps the invariant, and its cost is paid for. -/
structure Priced (step : Λ → σ → σ → Prop) (I : σ → Prop) (rank : σ → ℕ) (cost credit : Λ → ℕ) :
    Prop where
  keeps : ∀ l s t, I s → step l s t → I t
  pays : ∀ l s t, I s → step l s t → rank t + cost l ≤ rank s + credit l

theorem Priced.bound {rank : σ → ℕ} {cost credit : Λ → ℕ} (h : Priced step I rank cost credit)
    (hs : I s) (hpath : Path step s ls t) :
    rank t + (ls.map cost).sum ≤ rank s + (ls.map credit).sum := by
  induction hpath with
  | nil => rfl
  | cons hstep _ ih =>
    have hpays := h.pays _ _ _ hs hstep
    have hrest := ih (h.keeps _ _ _ hs hstep)
    simp only [List.map_cons, List.sum_cons]
    omega

/-- What is counted for one kind of label. -/
theorem sum_map_ite [DecidableEq Λ] (a : Λ) (k : ℕ) (ls : List Λ) :
    (ls.map fun l => if l = a then k else 0).sum = k * ls.count a := by
  induction ls with
  | nil => rfl
  | cons l ls ih =>
    rw [List.map_cons, List.sum_cons, ih]
    by_cases hl : l = a
    · subst hl
      rw [if_pos rfl, List.count_cons_self, Nat.mul_succ, Nat.add_comm]
    · rw [if_neg hl, List.count_cons_of_ne hl, Nat.zero_add]

/-! ### Ranks that are sums over threads -/

variable {ι : Type*} [Fintype ι] {f g : ι → ℕ} {i : ι} {a b k : ℕ}

/-- The step of one thread pays for the others, whose ranks may grow. -/
theorem sum_add_le (hi : g i + a ≤ f i + b) (hothers : ∀ j ≠ i, g j ≤ f j + k) :
    ∑ j, g j + a ≤ ∑ j, f j + b + Fintype.card ι * k := by
  classical
  have hsum : ∑ j ∈ Finset.univ.erase i, g j ≤ ∑ j ∈ Finset.univ.erase i, f j + Fintype.card ι * k :=
    calc ∑ j ∈ Finset.univ.erase i, g j
        ≤ ∑ j ∈ Finset.univ.erase i, (f j + k) :=
          Finset.sum_le_sum fun j hj => hothers j (Finset.ne_of_mem_erase hj)
      _ = ∑ j ∈ Finset.univ.erase i, f j + (Finset.univ.erase i).card * k := by
          rw [Finset.sum_add_distrib, Finset.sum_const_nat fun _ _ => rfl]
      _ ≤ ∑ j ∈ Finset.univ.erase i, f j + Fintype.card ι * k :=
          Nat.add_le_add_left (Nat.mul_le_mul_right k (Finset.card_le_univ _)) _
  have hg := Finset.add_sum_erase Finset.univ g (Finset.mem_univ i)
  have hf := Finset.add_sum_erase Finset.univ f (Finset.mem_univ i)
  omega

/-- The step of one thread that leaves the others alone. -/
theorem sum_update_add [DecidableEq ι] {C : Type*} (rank : C → ℕ) (pc : ι → C) (i : ι) (c : C) :
    ∑ j, rank (Function.update pc i c j) + rank (pc i) = ∑ j, rank (pc j) + rank c := by
  have hothers : ∑ j ∈ Finset.univ.erase i, rank (Function.update pc i c j)
      = ∑ j ∈ Finset.univ.erase i, rank (pc j) := by
    apply Finset.sum_congr rfl
    intro j hj
    rw [Function.update_of_ne (Finset.ne_of_mem_erase hj)]
  have hnew := Finset.add_sum_erase Finset.univ (fun j => rank (Function.update pc i c j))
    (Finset.mem_univ i)
  have hold := Finset.add_sum_erase Finset.univ (fun j => rank (pc j)) (Finset.mem_univ i)
  rw [Function.update_self] at hnew
  omega

end RedisServer.AmortizedRuns
