import Mathlib.Logic.Function.Basic
import Mathlib.Order.Basic
import Mathlib.Tactic.Common

/-!
# Maps whose entries expire

An entry is visible while it is alive, and what has died stays dead. A map from which
dead entries have been dropped shows at every later time what the complete map shows.
-/

namespace RedisServer.ExpiringMaps

variable {K E T : Type} [Preorder T]

/-- When an entry is alive. -/
structure Lifetime (E T : Type) [Preorder T] where
  alive : E → T → Prop
  dead_mono : ∀ {e t t'}, ¬ alive e t → t ≤ t' → ¬ alive e t'

variable {L : Lifetime E T} {m h : K → Option E} {now t : T} {k : K} {e : E}

/-- `e` is what the map shows for `k` at time `t`. -/
def Visible (L : Lifetime E T) (m : K → Option E) (k : K) (t : T) (e : E) : Prop :=
  m k = some e ∧ L.alive e t

/-- `m` is `h` without some entries that were dead by `now`. -/
def Pruned (L : Lifetime E T) (m h : K → Option E) (now : T) : Prop :=
  ∀ k, m k = h k ∨ (m k = none ∧ ∃ e, h k = some e ∧ ¬ L.alive e now)

namespace Pruned

theorem refl (m : K → Option E) (now : T) : Pruned L m m now := fun _ => .inl rfl

theorem later (hp : Pruned L m h now) (ht : now ≤ t) : Pruned L m h t := fun k =>
  (hp k).imp_right fun ⟨hm, e, he, hdead⟩ => ⟨hm, e, he, L.dead_mono hdead ht⟩

/-- Writing the same entry to both maps. -/
theorem write [DecidableEq K] (hp : Pruned L m h now) (k : K) (e : E) :
    Pruned L (Function.update m k (some e)) (Function.update h k (some e)) now := by
  intro k'
  by_cases hk : k' = k
  · subst hk
    left
    simp
  · simpa [hk] using hp k'

/-- Dropping an entry that is dead. -/
theorem drop [DecidableEq K] (hp : Pruned L m h now) (hk : m k = some e) (hdead : ¬ L.alive e now) :
    Pruned L (Function.update m k none) h now := by
  intro k'
  by_cases hk' : k' = k
  · subst hk'
    rcases hp k' with heq | ⟨hnone, -⟩
    · exact .inr ⟨by simp, e, heq ▸ hk, hdead⟩
    · exact nomatch hnone.symm.trans hk
  · simpa [hk'] using hp k'

/-- What is missing from a pruned map could not be seen any more. -/
theorem visible_iff (hp : Pruned L m h now) (ht : now ≤ t) :
    Visible L m k t e ↔ Visible L h k t e := by
  unfold Visible
  rcases hp k with heq | ⟨hnone, e', he', hdead⟩
  · rw [heq]
  · rw [hnone, he']
    constructor
    · rintro ⟨hk, -⟩
      cases hk
    · rintro ⟨hk, halive⟩
      cases hk
      exact absurd halive (L.dead_mono hdead ht)

end Pruned

end RedisServer.ExpiringMaps
