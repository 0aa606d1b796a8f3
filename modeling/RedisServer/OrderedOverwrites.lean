import Mathlib.Data.Finmap

/-!
# Ordered overwrites of finite maps

A list of entries written one after another into a map. What a key holds afterwards is
its last entry in the list, so writing the whole list again changes nothing.
-/

namespace RedisServer.OrderedOverwrites

variable {κ ν : Type*} [DecidableEq κ]

/-- Write the entries in order. -/
def overwrite (l : List (κ × ν)) (m : Finmap fun _ : κ => ν) : Finmap fun _ : κ => ν :=
  l.foldl (fun m e => m.insert e.1 e.2) m

/-- The last value written for a key. -/
def lastValue (k : κ) : List (κ × ν) → Option ν
  | [] => none
  | e :: l => (lastValue k l).or (if e.1 = k then some e.2 else none)

variable {l : List (κ × ν)} {m : Finmap fun _ : κ => ν}

@[simp] theorem overwrite_nil : overwrite [] m = m := rfl

@[simp] theorem overwrite_cons (e : κ × ν) :
    overwrite (e :: l) m = overwrite l (m.insert e.1 e.2) := rfl

theorem overwrite_flatten (ls : List (List (κ × ν))) :
    overwrite ls.flatten m = ls.foldl (fun m l => overwrite l m) m :=
  List.foldl_flatten

theorem lookup_overwrite (k : κ) : (overwrite l m).lookup k = (lastValue k l).or (m.lookup k) := by
  induction l generalizing m with
  | nil => rfl
  | cons e l ih =>
    rw [overwrite_cons, ih, lastValue, Option.or_assoc]
    by_cases hk : e.1 = k
    · subst hk
      simp
    · rw [if_neg hk, Finmap.lookup_insert_of_ne m (Ne.symm hk)]
      rfl

theorem mem_of_lastValue {k : κ} {v : ν} (h : lastValue k l = some v) : (k, v) ∈ l := by
  induction l with
  | nil => cases h
  | cons e l ih =>
    rw [lastValue, Option.or_eq_some_iff] at h
    rcases h with h | ⟨-, h⟩
    · exact List.mem_cons_of_mem e (ih h)
    · obtain ⟨rfl, hv⟩ := Option.ite_none_right_eq_some.mp h
      cases hv
      exact List.mem_cons_self

/-- Into an empty map nothing is written but the entries. -/
theorem mem_of_lookup_overwrite {k : κ} {v : ν} (h : (overwrite l ∅).lookup k = some v) :
    (k, v) ∈ l := by
  rw [lookup_overwrite, Finmap.lookup_empty, Option.or_none] at h
  exact mem_of_lastValue h

/-- A key that is not written keeps its value. -/
theorem lookup_overwrite_of_notMem {k : κ} (h : k ∉ l.map Prod.fst) :
    (overwrite l m).lookup k = m.lookup k := by
  induction l generalizing m with
  | nil => rfl
  | cons e l ih =>
    rw [List.map_cons, List.mem_cons, not_or] at h
    rw [overwrite_cons, ih h.2, Finmap.lookup_insert_of_ne m h.1]

/-- Entries with distinct keys are all there in the end. -/
theorem lookup_overwrite_of_mem (hl : (l.map Prod.fst).Nodup) {e : κ × ν} (he : e ∈ l) :
    (overwrite l m).lookup e.1 = some e.2 := by
  induction l generalizing m with
  | nil => cases he
  | cons e' l ih =>
    obtain ⟨hfirst, hrest⟩ := List.nodup_cons.mp hl
    rcases List.mem_cons.mp he with rfl | he
    · rw [overwrite_cons, lookup_overwrite_of_notMem hfirst, Finmap.lookup_insert]
    · exact ih hrest he

/-- Writing the same list twice is writing it once. -/
theorem overwrite_idem : overwrite l (overwrite l m) = overwrite l m := by
  apply Finmap.ext_lookup
  intro k
  rw [lookup_overwrite, lookup_overwrite]
  cases lastValue k l <;> rfl

/-- A property of all values that every written entry has. -/
theorem forall_overwrite {P : ν → Prop} (hm : ∀ k v, m.lookup k = some v → P v)
    (hl : ∀ e ∈ l, P e.2) (k : κ) (v : ν) (h : (overwrite l m).lookup k = some v) : P v := by
  induction l generalizing m with
  | nil => exact hm k v h
  | cons e l ih =>
    refine ih (fun k' v' h' => ?_) (fun e' he' => hl e' (List.mem_cons_of_mem _ he')) h
    by_cases hk : k' = e.1
    · subst hk
      rw [Finmap.lookup_insert] at h'
      exact Option.some.inj h' ▸ hl e List.mem_cons_self
    · rw [Finmap.lookup_insert_of_ne m hk] at h'
      exact hm k' v' h'

end RedisServer.OrderedOverwrites
