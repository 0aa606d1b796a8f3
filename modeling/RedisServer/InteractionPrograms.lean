import Mathlib.Control.Basic
import Mathlib.Tactic.Common

/-!
# Interaction programs with recursive procedures

A program is a tree of shared-state operations. A procedure call is a node of the
tree rather than an unfolding of the callee, so a body may call itself without a
termination argument. Two readings are given: a big-step relation, which runs a
program alone, and a thread, which keeps an explicit stack of pending
continuations and advances one operation at a time. The two agree.
-/

namespace RedisServer.InteractionPrograms

/-- Operations with their answer types, callable procedures and raisable errors. -/
structure Signature where
  Op : Type
  Answer : Op → Type
  Proc : Type
  Err : Type

variable {S : Signature} {α β γ : Type} {W : Type}

/-- A computation over the operations of `S` that returns an `α`. -/
inductive Program (S : Signature) (α : Type) : Type where
  | pure (a : α)
  | throw (e : S.Err)
  | op (o : S.Op) (k : S.Answer o → Program S α)
  | call (f : S.Proc) (k : Program S α)

namespace Program

def bind : Program S α → (α → Program S β) → Program S β
  | .pure a, f => f a
  | .throw e, _ => .throw e
  | .op o k, f => .op o (fun r => (k r).bind f)
  | .call l k, f => .call l (k.bind f)

instance : Monad (Program S) where
  pure := .pure
  bind := bind

/-- Continue with the value, or raise the error. -/
def ofExcept : Except S.Err α → Program S α
  | .ok a => .pure a
  | .error e => .throw e

@[simp] theorem pure_eq (a : α) : (Pure.pure a : Program S α) = .pure a := rfl

@[simp] theorem pure_bind (a : α) (f : α → Program S β) : (Program.pure a >>= f) = f a := rfl

@[simp] theorem throw_bind (e : S.Err) (f : α → Program S β) :
    ((.throw e : Program S α) >>= f) = .throw e := rfl

@[simp] theorem op_bind (o : S.Op) (k : S.Answer o → Program S α) (f : α → Program S β) :
    (Program.op o k >>= f) = .op o (fun r => k r >>= f) := rfl

@[simp] theorem call_bind (l : S.Proc) (k : Program S α) (f : α → Program S β) :
    (Program.call l k >>= f) = .call l (k >>= f) := rfl

@[simp] theorem ofExcept_ok (a : α) : (ofExcept (.ok a) : Program S α) = .pure a := rfl

@[simp] theorem ofExcept_error (e : S.Err) : (ofExcept (.error e) : Program S α) = .throw e := rfl

theorem bind_pure_self (p : Program S α) : (p >>= .pure) = p := by
  induction p with
  | pure a => rfl
  | throw e => rfl
  | op o k ih => exact congrArg (Program.op o) (funext ih)
  | call l k ih => exact congrArg (Program.call l) ih

theorem bind_assoc (p : Program S α) (f : α → Program S β) (g : β → Program S γ) :
    (p >>= f >>= g) = (p >>= fun a => f a >>= g) := by
  induction p with
  | pure a => rfl
  | throw e => rfl
  | op o k ih => exact congrArg (Program.op o) (funext ih)
  | call l k ih => exact congrArg (Program.call l) ih

end Program

/-- Every operation the program can come to perform satisfies `P`, and every procedure
it can come to call satisfies `C`, whatever the operations answer. -/
def Program.Always (P : S.Op → Prop) (C : S.Proc → Prop) : Program S α → Prop
  | .pure _ => True
  | .throw _ => True
  | .op o k => P o ∧ ∀ r, (k r).Always P C
  | .call f k => C f ∧ k.Always P C

namespace Program.Always

variable {P Q : S.Op → Prop} {C D : S.Proc → Prop}

theorem bind {p : Program S α} {f : α → Program S β} (h : p.Always P C)
    (hf : ∀ a, (f a).Always P C) : (p >>= f).Always P C := by
  induction p with
  | pure a => exact hf a
  | throw e => trivial
  | op o k ih => exact ⟨h.1, fun r => ih r (h.2 r)⟩
  | call l k ih => exact ⟨h.1, ih h.2⟩

theorem mono {p : Program S α} (h : p.Always P C) (hP : ∀ o, P o → Q o) (hC : ∀ f, C f → D f) :
    p.Always Q D := by
  induction p with
  | pure a => trivial
  | throw e => trivial
  | op o k ih => exact ⟨hP o h.1, fun r => ih r (h.2 r)⟩
  | call l k ih => exact ⟨hC l h.1, ih h.2⟩

end Program.Always

/-- What the operations do to the shared state, and the bodies of the procedures. -/
structure Machine (S : Signature) (W : Type) where
  step : (o : S.Op) → W → S.Answer o × W
  body : S.Proc → Program S Unit

variable {M : Machine S W}

/-- Run a program alone. The list records the operations performed, in order. -/
inductive Exec (M : Machine S W) : {α : Type} →
    Program S α → W → List S.Op → Except S.Err α → W → Prop where
  | pure {α : Type} (a : α) (w : W) : Exec M (.pure a) w [] (.ok a) w
  | throw {α : Type} (e : S.Err) (w : W) : Exec M (.throw e : Program S α) w [] (.error e) w
  | op {α : Type} {o : S.Op} {k : S.Answer o → Program S α} {w w' : W} {tr r}
      (rest : Exec M (k (M.step o w).1) (M.step o w).2 tr r w') :
      Exec M (.op o k) w (o :: tr) r w'
  | call {α : Type} {f : S.Proc} {k : Program S α} {w w₁ w' : W} {tr tr' r}
      (callee : Exec M (M.body f) w tr (.ok ()) w₁) (rest : Exec M k w₁ tr' r w') :
      Exec M (.call f k) w (tr ++ tr') r w'
  | callThrow {α : Type} {f : S.Proc} {k : Program S α} {w w' : W} {tr e}
      (callee : Exec M (M.body f) w tr (.error e) w') :
      Exec M (.call f k) w tr (.error e) w'

namespace Exec

theorem op_iff {o : S.Op} {k : S.Answer o → Program S α} {w w' : W} {tr r} :
    Exec M (.op o k) w tr r w' ↔
      ∃ tr', tr = o :: tr' ∧ Exec M (k (M.step o w).1) (M.step o w).2 tr' r w' := by
  constructor
  · intro h; cases h with | op rest => exact ⟨_, rfl, rest⟩
  · rintro ⟨tr', rfl, h⟩; exact .op h

/-- The big-step reading determines trace, result and final state. -/
theorem deterministic {p : Program S α} {w w₁ w₂ : W} {tr₁ tr₂ r₁ r₂}
    (h₁ : Exec M p w tr₁ r₁ w₁) (h₂ : Exec M p w tr₂ r₂ w₂) :
    tr₁ = tr₂ ∧ r₁ = r₂ ∧ w₁ = w₂ := by
  induction h₁ generalizing tr₂ w₂ with
  | pure a w => cases h₂; exact ⟨rfl, rfl, rfl⟩
  | throw e w => cases h₂; exact ⟨rfl, rfl, rfl⟩
  | op _ ih =>
    cases h₂ with
    | op rest =>
      obtain ⟨rfl, rfl, rfl⟩ := ih rest
      exact ⟨rfl, rfl, rfl⟩
  | call _ _ ihc ihr =>
    cases h₂ with
    | call callee rest =>
      obtain ⟨rfl, -, rfl⟩ := ihc callee
      obtain ⟨rfl, rfl, rfl⟩ := ihr rest
      exact ⟨rfl, rfl, rfl⟩
    | callThrow callee => cases (ihc callee).2.1
  | callThrow _ ih =>
    cases h₂ with
    | call callee rest => cases (ih callee).2.1
    | callThrow callee =>
      obtain ⟨rfl, he, rfl⟩ := ih callee
      cases he
      exact ⟨rfl, rfl, rfl⟩

theorem bind {p : Program S α} {f : α → Program S β} {w w₁ w' : W} {tr tr' a r}
    (h : Exec M p w tr (.ok a) w₁) (hf : Exec M (f a) w₁ tr' r w') :
    Exec M (p >>= f) w (tr ++ tr') r w' := by
  generalize hr : (Except.ok a : Except S.Err α) = res at h
  induction h with
  | pure b w => cases hr; exact hf
  | throw e w => cases hr
  | op _ ih => exact .op (ih hf hr)
  | call callee _ _ ih =>
    rw [List.append_assoc]
    exact .call callee (ih hf hr)
  | callThrow => cases hr

theorem bind_throw {p : Program S α} {f : α → Program S β} {w w' : W} {tr e}
    (h : Exec M p w tr (.error e) w') : Exec M (p >>= f) w tr (.error e) w' := by
  generalize hr : (Except.error e : Except S.Err α) = res at h
  induction h with
  | pure b w => cases hr
  | throw e' w => cases hr; exact .throw e w
  | op _ ih => exact .op (ih hr)
  | call callee _ _ ih => exact .call callee (ih hr)
  | callThrow callee => cases hr; exact .callThrow callee

/-- A run of a sequence splits at the point between its two parts. -/
theorem of_bind {p : Program S α} {f : α → Program S β} {w w' : W} {tr r}
    (h : Exec M (p >>= f) w tr r w') :
    (∃ e, r = .error e ∧ Exec M p w tr (.error e) w') ∨
    ∃ a tr₁ w₁ tr₂, tr = tr₁ ++ tr₂ ∧ Exec M p w tr₁ (.ok a) w₁ ∧ Exec M (f a) w₁ tr₂ r w' := by
  induction p generalizing w tr with
  | pure a => exact .inr ⟨a, [], w, tr, rfl, .pure a w, h⟩
  | throw e =>
    cases h
    exact .inl ⟨e, rfl, .throw e _⟩
  | op o k ih =>
    cases h with
    | op rest =>
      rcases ih _ rest with ⟨e, rfl, hk⟩ | ⟨a, tr₁, w₁, tr₂, rfl, hk, hf⟩
      · exact .inl ⟨e, rfl, .op hk⟩
      · exact .inr ⟨a, o :: tr₁, w₁, tr₂, rfl, .op hk, hf⟩
  | call l k ih =>
    cases h with
    | call callee rest =>
      rcases ih rest with ⟨e, rfl, hk⟩ | ⟨a, tr₁, w₁, tr₂, rfl, hk, hf⟩
      · exact .inl ⟨e, rfl, .call callee hk⟩
      · exact .inr ⟨a, _, w₁, tr₂, (List.append_assoc ..).symm, .call callee hk, hf⟩
    | callThrow callee => exact .inl ⟨_, rfl, .callThrow callee⟩

/-- What every operation of a run preserves, the run preserves. -/
theorem preserves_of_trace {p : Program S α} {I : W → Prop} {w w' : W} {tr r}
    (hx : Exec M p w tr r w') (htr : ∀ o ∈ tr, ∀ w, I w → I (M.step o w).2) (hw : I w) : I w' := by
  induction hx with
  | pure => exact hw
  | throw => exact hw
  | op _ ih =>
    obtain ⟨ho, htr⟩ := List.forall_mem_cons.mp htr
    exact ih htr (ho _ hw)
  | call _ _ ih ih' =>
    obtain ⟨htr, htr'⟩ := List.forall_mem_append.mp htr
    exact ih' htr' (ih htr hw)
  | callThrow _ ih => exact ih htr hw

end Exec

section NoCalls

variable {P : S.Op → Prop} {p : Program S α}

/-- A program without calls always has a run. -/
theorem Program.Always.exists_exec (h : p.Always P (fun _ => False)) (w : W) :
    ∃ tr r w', Exec M p w tr r w' := by
  induction p generalizing w with
  | pure a => exact ⟨_, _, _, .pure a w⟩
  | throw e => exact ⟨_, _, _, .throw e w⟩
  | op o k ih =>
    obtain ⟨tr, r, w', hk⟩ := ih _ (h.2 _) (M.step o w).2
    exact ⟨_, _, _, .op hk⟩
  | call f k => exact h.1.elim

/-- A run performs only operations that its program can come to perform. -/
theorem Exec.always {w w' : W} {tr r} (h : p.Always P (fun _ => False)) (hx : Exec M p w tr r w') :
    ∀ o ∈ tr, P o := by
  induction hx with
  | pure => exact nofun
  | throw => exact nofun
  | op _ ih => exact List.forall_mem_cons.mpr ⟨h.1, ih (h.2 _)⟩
  | call => exact h.1.elim
  | callThrow => exact h.1.elim

/-- What every single operation preserves, a run preserves. -/
theorem Exec.preserves {I : W → Prop} {w w' : W} {tr r} (h : p.Always P (fun _ => False))
    (hstep : ∀ o w, P o → I w → I (M.step o w).2) (hx : Exec M p w tr r w') (hw : I w) : I w' := by
  induction hx with
  | pure => exact hw
  | throw => exact hw
  | op _ ih => exact ih (h.2 _) (hstep _ _ h.1 hw)
  | call => exact h.1.elim
  | callThrow => exact h.1.elim

/-- The bodies of the procedures do not matter to a program without calls. -/
theorem Exec.of_step_eq {M' : Machine S W} {w w' : W} {tr r} (h : p.Always P (fun _ => False))
    (hstep : M.step = M'.step) (hx : Exec M p w tr r w') : Exec M' p w tr r w' := by
  induction hx with
  | pure a w => exact .pure a w
  | throw e w => exact .throw e w
  | @op _ o k w _ _ _ _ ih =>
    refine .op ?_
    rw [← hstep]
    exact ih (h.2 _)
  | call => exact h.1.elim
  | callThrow => exact h.1.elim

end NoCalls

/-- The run of a program comes to a call of `g` that the program itself makes. -/
inductive ComesTo (M : Machine S W) : {α : Type} → Program S α → W → S.Proc → W → Prop where
  | call {α : Type} (g : S.Proc) (k : Program S α) (w : W) : ComesTo M (.call g k) w g w
  | op {α : Type} {o : S.Op} {k : S.Answer o → Program S α} {w w' : W} {g}
      (rest : ComesTo M (k (M.step o w).1) (M.step o w).2 g w') : ComesTo M (.op o k) w g w'
  | after {α : Type} {f : S.Proc} {k : Program S α} {w w₁ w' : W} {tr g}
      (callee : Exec M (M.body f) w tr (.ok ()) w₁) (rest : ComesTo M k w₁ g w') :
      ComesTo M (.call f k) w g w'

namespace ComesTo

variable {P : S.Op → Prop} {C : S.Proc → Prop} {p : Program S α} {w w' : W} {g : S.Proc}

theorem always (h : p.Always P C) (hx : ComesTo M p w g w') : C g := by
  induction hx with
  | call => exact h.1
  | op _ ih => exact ih (h.2 _)
  | after _ _ ih => exact ih h.2

/-- A call in a sequence whose first part makes none. -/
theorem bind_iff {f : α → Program S β} (h : p.Always P (fun _ => False)) :
    ComesTo M (p >>= f) w g w' ↔
      ∃ tr a w₁, Exec M p w tr (.ok a) w₁ ∧ ComesTo M (f a) w₁ g w' := by
  constructor
  · intro hx
    induction p generalizing w with
    | pure a => exact ⟨[], a, w, .pure a w, hx⟩
    | throw e => cases hx
    | op o k ih =>
      cases hx with
      | op rest =>
        obtain ⟨tr, a, w₁, hk, hf⟩ := ih _ (h.2 _) rest
        exact ⟨o :: tr, a, w₁, .op hk, hf⟩
    | call => exact h.1.elim
  · rintro ⟨tr, a, w₁, hp, hf⟩
    generalize hr : (Except.ok a : Except S.Err α) = r at hp
    induction hp with
    | pure b w => cases hr; exact hf
    | throw => cases hr
    | op _ ih => exact .op (ih (h.2 _) _ hf hr)
    | call => exact h.1.elim
    | callThrow => exact h.1.elim

end ComesTo

/-- Interpret a program, given an interpretation of its calls. -/
def Program.interpret (M : Machine S W)
    (onCall : S.Proc → W → Option (List S.Op × Except S.Err Unit × W)) :
    Program S α → W → Option (List S.Op × Except S.Err α × W)
  | .pure a, w => some ([], .ok a, w)
  | .throw e, w => some ([], .error e, w)
  | .op o k, w =>
    ((k (M.step o w).1).interpret M onCall (M.step o w).2).map fun x => (o :: x.1, x.2)
  | .call f k, w =>
    match onCall f w with
    | none => none
    | some (tr, .error e, w') => some (tr, .error e, w')
    | some (tr, .ok (), w') => (k.interpret M onCall w').map fun x => (tr ++ x.1, x.2)

/-- Evaluate a procedure with at most `n` nested calls. -/
def Machine.evalProc (M : Machine S W) :
    ℕ → S.Proc → W → Option (List S.Op × Except S.Err Unit × W)
  | 0, _, _ => none
  | n + 1, f, w => (M.body f).interpret M (M.evalProc n) w

/-- Evaluate a program with at most `n` nested calls. -/
def Machine.eval (M : Machine S W) (n : ℕ) (p : Program S α) (w : W) :
    Option (List S.Op × Except S.Err α × W) :=
  p.interpret M (M.evalProc n) w

theorem Program.interpret_sound {onCall} {p : Program S α} {w w' : W} {tr r}
    (hcall : ∀ f w tr r w', onCall f w = some (tr, r, w') → Exec M (M.body f) w tr r w')
    (h : p.interpret M onCall w = some (tr, r, w')) : Exec M p w tr r w' := by
  induction p generalizing w tr with
  | pure a => cases h; exact .pure a _
  | throw e => cases h; exact .throw e _
  | op o k ih =>
    simp only [Program.interpret, Option.map_eq_some_iff] at h
    obtain ⟨⟨tr', r', w''⟩, hk, heq⟩ := h
    cases heq
    exact .op (ih _ hk)
  | call f k ih =>
    simp only [Program.interpret] at h
    split at h
    · cases h
    · next hc => cases h; exact .callThrow (hcall _ _ _ _ _ hc)
    · next hc =>
      simp only [Option.map_eq_some_iff] at h
      obtain ⟨⟨tr', r', w''⟩, hk, heq⟩ := h
      cases heq
      exact .call (hcall _ _ _ _ _ hc) (ih hk)

theorem Machine.evalProc_sound (n : ℕ) {f : S.Proc} {w w' : W} {tr r}
    (h : M.evalProc n f w = some (tr, r, w')) : Exec M (M.body f) w tr r w' := by
  induction n generalizing f w tr r w' with
  | zero => cases h
  | succ n ih => exact Program.interpret_sound (fun _ _ _ _ _ hc => ih hc) h

/-- An evaluation that ends within its bound is a run. -/
theorem Machine.eval_sound {n : ℕ} {p : Program S α} {w w' : W} {tr r}
    (h : M.eval n p w = some (tr, r, w')) : Exec M p w tr r w' :=
  Program.interpret_sound (fun _ _ _ _ _ hc => M.evalProc_sound n hc) h

end RedisServer.InteractionPrograms
