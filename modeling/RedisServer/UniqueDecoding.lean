import Mathlib.InformationTheory.Coding.UniquelyDecodable
import Mathlib.Tactic.Common

/-!
# Codes read from the front

A message is a concatenation of words. A code is uniquely decodable if the first word
of a message can be told from the message, although that word may be the beginning of
another word: it is enough that no message continues the way the longer word does.
-/

namespace RedisServer.UniqueDecoding
open InformationTheory

variable {α : Type*} {S T : Set (List α)} {L : List (List α)}

/-- Two messages that agree begin with the same word. -/
def FirstWordDetermined (S : Set (List α)) : Prop :=
  ∀ u ∈ S, ∀ v ∈ S, ∀ L L' : List (List α), (∀ w ∈ L, w ∈ S) → (∀ w ∈ L', w ∈ S) →
    u ++ L.flatten = v ++ L'.flatten → u = v

theorem uniquelyDecodable_of_firstWordDetermined (hnil : [] ∉ S) (hfirst : FirstWordDetermined S) :
    UniquelyDecodable S := by
  intro L L' hL hL' h
  induction L generalizing L' with
  | nil =>
    cases L' with
    | nil => rfl
    | cons v L' =>
      have hv : v = [] := (List.append_eq_nil_iff.mp h.symm).1
      exact absurd (hv ▸ hL' v List.mem_cons_self) hnil
  | cons u L ih =>
    cases L' with
    | nil =>
      have hu : u = [] := (List.append_eq_nil_iff.mp h).1
      exact absurd (hu ▸ hL u List.mem_cons_self) hnil
    | cons v L' =>
      obtain ⟨hu, hrest⟩ := List.forall_mem_cons.mp hL
      obtain ⟨hv, hrest'⟩ := List.forall_mem_cons.mp hL'
      obtain rfl : u = v := hfirst u hu v hv L L' hrest hrest' h
      rw [ih L' hrest hrest' (List.append_cancel_left h)]

theorem UniquelyDecodable.mono (h : UniquelyDecodable T) (hST : S ⊆ T) : UniquelyDecodable S :=
  fun L L' hL hL' => h L L' (fun w hw => hST (hL w hw)) fun w hw => hST (hL' w hw)

/-- A message begins like one of its words. -/
theorem head?_flatten_ne {a : α} (hne : ∀ w ∈ L, w ≠ []) (ha : ∀ w ∈ L, w.head? ≠ some a) :
    L.flatten.head? ≠ some a := by
  cases L with
  | nil => simp
  | cons w L =>
    obtain ⟨b, bs, rfl⟩ := List.exists_cons_of_ne_nil (hne w List.mem_cons_self)
    exact ha (b :: bs) List.mem_cons_self

end RedisServer.UniqueDecoding
