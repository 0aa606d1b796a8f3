import Mathlib.Data.List.Infix
import Mathlib.Tactic.Common

/-!
# Histories of concurrent queues

What any number of threads do to a queue, as one list of events. A history is served by an
abstract queue if every value that is taken is the first one there, and if the queue is empty
whenever a thread finds it empty. The values that are taken are then a beginning of the values
that were put in.
-/

namespace RedisServer.QueueHistories

/-- A value becomes part of the queue, a thread finds out whether the queue is empty, a thread
takes the first value for itself, a call that takes values returns. -/
inductive Event (α : Type) where
  | linked (value : α)
  | inspected (empty : Bool)
  | claimed (value : α)
  | returned (result : Option α)
  deriving DecidableEq

/-- The events of all threads in the order in which they happen. -/
abbrev History (ι α : Type) := List (ι × Event α)

variable {ι α : Type}

def Event.linked? : Event α → Option α
  | .linked value => some value
  | _ => none

def Event.claimed? : Event α → Option α
  | .claimed value => some value
  | _ => none

def linkedValues (t : History ι α) : List α := t.filterMap fun x => x.2.linked?

def claimedValues (t : History ι α) : List α := t.filterMap fun x => x.2.claimed?

/-- What an event does to an abstract queue. -/
inductive Serves : List α → Event α → List α → Prop
  | linked (q : List α) (value : α) : Serves q (.linked value) (q ++ [value])
  | claimed (value : α) (q : List α) : Serves (value :: q) (.claimed value) q
  | empty : Serves [] (.inspected true) []
  | inspected (q : List α) : Serves q (.inspected false) q
  | returned (q : List α) (result : Option α) : Serves q (.returned result) q

/-- An abstract queue goes through a history. -/
inductive Served : List α → History ι α → List α → Prop
  | nil (q : List α) : Served q [] q
  | cons {q m q' : List α} {i : ι} {e : Event α} {t : History ι α} :
      Serves q e m → Served m t q' → Served q ((i, e) :: t) q'

namespace Served

variable {q m q' : List α} {t u : History ι α} {i : ι} {e : Event α}

theorem append (h : Served q t m) (h' : Served m u q') : Served q (t ++ u) q' := by
  induction h with
  | nil => exact h'
  | cons he _ ih => exact .cons he (ih h')

theorem snoc (h : Served q t m) (i : ι) (he : Serves m e q') : Served q (t ++ [(i, e)]) q' :=
  h.append (.cons he (.nil q'))

theorem split (h : Served q (t ++ u) q') : ∃ m, Served q t m ∧ Served m u q' := by
  induction t generalizing q with
  | nil => exact ⟨q, .nil q, h⟩
  | cons x t ih =>
    cases h with
    | cons he h =>
      obtain ⟨m, ht, hu⟩ := ih h
      exact ⟨m, .cons he ht, hu⟩

/-- What was in the queue and what was put in has been taken, or it is still there. -/
theorem append_linkedValues (h : Served q t q') :
    q ++ linkedValues t = claimedValues t ++ q' := by
  induction h with
  | nil => simp [linkedValues, claimedValues]
  | cons he _ ih =>
    cases he
    all_goals simpa [linkedValues, claimedValues, Event.linked?, Event.claimed?] using ih

/-- First in, first out. -/
theorem claimedValues_prefix (h : Served [] t q) : claimedValues t <+: linkedValues t :=
  ⟨q, h.append_linkedValues.symm⟩

/-- A queue is found empty when all values have been taken. -/
theorem claimedValues_eq (h : Served [] (t ++ (i, .inspected true) :: u) q) :
    claimedValues t = linkedValues t := by
  obtain ⟨m, ht, hu⟩ := h.split
  cases hu with
  | cons he =>
    cases he with
    | empty => simpa using ht.append_linkedValues.symm

end Served

/-! ### The last event of a thread -/

/-- The last event of `i` is `e`. -/
def Last (t : History ι α) (i : ι) (e : Event α) : Prop :=
  ∃ u v, t = u ++ (i, e) :: v ∧ ∀ x ∈ v, x.1 ≠ i

theorem last_append_self (t : History ι α) (i : ι) (e : Event α) : Last (t ++ [(i, e)]) i e :=
  ⟨t, [], rfl, by simp⟩

/-- The events of others change nothing. -/
theorem Last.append {t u : History ι α} {i : ι} {e : Event α} (h : Last t i e)
    (hu : ∀ x ∈ u, x.1 ≠ i) : Last (t ++ u) i e := by
  obtain ⟨v, w, rfl, hw⟩ := h
  refine ⟨v, w ++ u, by simp, fun x hx => ?_⟩
  rcases List.mem_append.mp hx with hx | hx
  · exact hw x hx
  · exact hu x hx

/-! ### Calls that return -/

/-- The event that a result rests on. -/
def Event.cause : Option α → Event α
  | some value => .claimed value
  | none => .inspected true

/-- Before a call returns, the last thing its thread has done is to take the value that is
returned, or to find the queue empty. -/
def Justified (t : History ι α) : Prop :=
  ∀ u i result v, t = u ++ (i, .returned result) :: v → Last u i (Event.cause result)

theorem justified_nil : Justified ([] : History ι α) := by
  intro u i result v h
  simp at h

theorem Justified.append {t : History ι α} {i : ι} {e : Event α} (h : Justified t)
    (he : ∀ result, e = .returned result → Last t i (Event.cause result)) :
    Justified (t ++ [(i, e)]) := by
  intro u j result v heq
  rcases List.eq_nil_or_concat v with rfl | ⟨v, x, rfl⟩
  · obtain ⟨rfl, hx⟩ := List.append_inj' heq rfl
    obtain ⟨rfl, rfl⟩ := Prod.mk.inj (List.singleton_injective hx)
    exact he result rfl
  · rw [List.concat_eq_append, ← List.cons_append, ← List.append_assoc] at heq
    obtain ⟨rfl, -⟩ := List.append_inj' heq rfl
    exact h u j result v rfl

/-- First in, first out, without loss or duplication: what is taken is a beginning of what was
put in, a call returns the value that it has taken, and it returns none only after it has found
all values taken. -/
structure FirstInFirstOut (t : History ι α) : Prop where
  order : claimedValues t <+: linkedValues t
  value : ∀ u i value v, t = u ++ (i, .returned (some value)) :: v → Last u i (.claimed value)
  empty : ∀ u i v, t = u ++ (i, .returned none) :: v → ∃ w x, u = w ++ (i, .inspected true) :: x ∧
    (∀ y ∈ x, y.1 ≠ i) ∧ claimedValues w = linkedValues w

theorem Served.firstInFirstOut {t : History ι α} {q : List α} (h : Served [] t q)
    (hj : Justified t) : FirstInFirstOut t where
  order := h.claimedValues_prefix
  value u i value v ht := hj u i (some value) v ht
  empty u i v ht := by
    obtain ⟨w, x, rfl, hx⟩ := hj u i none v ht
    subst ht
    have hall : Served [] (w ++ (i, .inspected true) :: (x ++ (i, .returned none) :: v)) q := by
      simpa [Event.cause] using h
    exact ⟨w, x, rfl, hx, hall.claimedValues_eq⟩

end RedisServer.QueueHistories
