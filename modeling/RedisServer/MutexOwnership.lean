import Mathlib.Logic.Function.Basic
import Mathlib.Tactic.Common

/-!
# Threads that share a mutex

Whether a thread holds the mutex is read off its program counter. The owner recorded in
the mutex and the program counters agree through every lock, unlock and step between.
-/

namespace RedisServer.MutexOwnership

variable {P C : Type} {holds : C → Bool} {pc : P → C} {owner : Option P} {p q : P} {c : C}

/-- Exactly the recorded owner is at a program counter that holds the mutex. -/
def Guarded (holds : C → Bool) (pc : P → C) (owner : Option P) : Prop :=
  ∀ p, holds (pc p) = true ↔ owner = some p

namespace Guarded

theorem unique (h : Guarded holds pc owner) (hp : holds (pc p) = true) (hq : holds (pc q) = true) :
    p = q :=
  Option.some.inj (((h p).mp hp).symm.trans ((h q).mp hq))

variable [DecidableEq P]

theorem acquire (h : Guarded holds pc none) (hc : holds c = true) :
    Guarded holds (Function.update pc p c) (some p) := by
  intro q
  by_cases hq : q = p
  · subst hq
    simp [hc]
  · have hfree : ¬ holds (pc q) = true := fun hheld => nomatch (h q).mp hheld
    simp [hq, hfree, Ne.symm hq]

theorem release (h : Guarded holds pc (some p)) (hc : holds c = false) :
    Guarded holds (Function.update pc p c) none := by
  intro q
  by_cases hq : q = p
  · subst hq
    simp [hc]
  · have hfree : ¬ holds (pc q) = true := fun hheld => hq (Option.some.inj ((h q).mp hheld)).symm
    simp [hq, hfree]

theorem keep (h : Guarded holds pc owner) (hc : holds c = holds (pc p)) :
    Guarded holds (Function.update pc p c) owner := by
  intro q
  by_cases hq : q = p
  · subst hq
    simpa [hc] using h q
  · simpa [hq] using h q

end Guarded

end RedisServer.MutexOwnership
