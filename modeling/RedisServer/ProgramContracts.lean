import RedisServer.InteractionThreads

/-!
# Contracts of programs and threads

A contract says in which states an operation may be performed, in which states a
procedure may be called, and what holds when a procedure returns or an error is raised.
If the bodies of the procedures keep the contract, every thread of such programs does.
-/

namespace RedisServer.InteractionPrograms

structure Contract (S : Signature) (W : Type) where
  allows : S.Op → W → Prop
  calls : S.Proc → W → Prop
  returns : W → Prop

variable {S : Signature} {α β : Type} {W : Type} {M : Machine S W} {C : Contract S W}

/-- The program keeps the contract from `w` on, and its value is returned in a state of `Q`. -/
def Program.Keeps (M : Machine S W) (C : Contract S W) : Program S α → (α → W → Prop) → W → Prop
  | .pure a, Q, w => Q a w
  | .throw _, _, w => C.returns w
  | .op o k, Q, w => C.allows o w ∧ (k (M.step o w).1).Keeps M C Q (M.step o w).2
  | .call f k, Q, w => C.calls f w ∧ ∀ w', C.returns w' → k.Keeps M C Q w'

def Contract.KeptBy (C : Contract S W) (M : Machine S W) : Prop :=
  ∀ f w, C.calls f w → (M.body f).Keeps M C (fun _ => C.returns) w

namespace Program.Keeps

theorem bind {p : Program S α} {f : α → Program S β} {Q : β → W → Prop} {w : W}
    (h : p.Keeps M C (fun a => (f a).Keeps M C Q) w) : (p >>= f).Keeps M C Q w := by
  induction p generalizing w with
  | pure a => exact h
  | throw e => exact h
  | op o k ih => exact ⟨h.1, ih _ h.2⟩
  | call g k ih => exact ⟨h.1, fun w' hw' => ih (h.2 w' hw')⟩

theorem mono {p : Program S α} {Q Q' : α → W → Prop} {w : W} (h : p.Keeps M C Q w)
    (hQ : ∀ a w', Q a w' → Q' a w') : p.Keeps M C Q' w := by
  induction p generalizing w with
  | pure a => exact hQ a w h
  | throw e => exact h
  | op o k ih => exact ⟨h.1, ih _ h.2⟩
  | call g k ih => exact ⟨h.1, fun w' hw' => ih (h.2 w' hw')⟩

/-- A program without calls whose operations are allowed in the states of an invariant that
they preserve. -/
theorem of_always {P : S.Op → Prop} {I : W → Prop} {p : Program S α} {w : W}
    (h : p.Always P (fun _ => False)) (hallows : ∀ o w, P o → I w → C.allows o w)
    (hstep : ∀ o w, P o → I w → I (M.step o w).2) (hreturns : ∀ w, I w → C.returns w) (hw : I w) :
    p.Keeps M C (fun _ => I) w := by
  induction p generalizing w with
  | pure a => exact hw
  | throw e => exact hreturns w hw
  | op o k ih => exact ⟨hallows o w h.1 hw, ih _ (h.2 _) (hstep o w h.1 hw)⟩
  | call f k => exact h.1.elim

/-- A program whose operations are allowed in the states of an invariant, that they preserve,
and whose calls need no more than the invariant and return with it. -/
theorem of_always_calls {P : S.Op → Prop} {D : S.Proc → Prop} {I : W → Prop} {p : Program S α}
    {w : W} (h : p.Always P D) (hallows : ∀ o w, P o → I w → C.allows o w)
    (hstep : ∀ o w, P o → I w → I (M.step o w).2) (hcalls : ∀ f w, D f → I w → C.calls f w)
    (hreturns : ∀ w, C.returns w ↔ I w) (hw : I w) : p.Keeps M C (fun _ => I) w := by
  induction p generalizing w with
  | pure a => exact hw
  | throw e => exact (hreturns w).mpr hw
  | op o k ih => exact ⟨hallows o w h.1 hw, ih _ (h.2 _) (hstep o w h.1 hw)⟩
  | call f k ih =>
    exact ⟨hcalls f w h.1 hw, fun w' hw' => ih h.2 ((hreturns w').mp hw')⟩

end Program.Keeps

/-- The thread keeps the contract from `w` on. -/
def Thread.Keeps (M : Machine S W) (C : Contract S W) (t : Thread S) (w : W) : Prop :=
  t.current.Keeps M C (fun _ => C.returns) w ∧
    ∀ k ∈ t.stack, ∀ w', C.returns w' → k.Keeps M C (fun _ => C.returns) w'

namespace Thread.Keeps

theorem start {p : Program S Unit} {w : W} (h : p.Keeps M C (fun _ => C.returns) w) :
    (Thread.start p).Keeps M C w := ⟨h, nofun⟩

theorem internal {t u : Thread S} {w : W} (h : t.Keeps M C w) (hM : C.KeptBy M)
    (hv : t.view M = .internal u) : u.Keeps M C w := by
  rcases Thread.view_eq_internal.mp hv with ⟨k, ks, rfl, rfl⟩ | ⟨f, k, ks, rfl, rfl⟩
  · obtain ⟨hcur, hstack⟩ := h
    obtain ⟨hk, hks⟩ := List.forall_mem_cons.mp hstack
    exact ⟨hk w hcur, hks⟩
  · obtain ⟨⟨hcall, hk⟩, hks⟩ := h
    exact ⟨hM f w hcall, List.forall_mem_cons.mpr ⟨hk, hks⟩⟩

/-- What a thread performs is allowed, and the thread keeps the contract after it. -/
theorem performs {t : Thread S} {w : W} {o : S.Op} {k : S.Answer o → Thread S}
    (h : t.Keeps M C w) (hv : t.view M = .performs o k) :
    C.allows o w ∧ (k (M.step o w).1).Keeps M C (M.step o w).2 := by
  obtain ⟨k', ks, rfl, rfl⟩ := Thread.view_eq_performs.mp hv
  exact ⟨h.1.1, h.1.2, h.2⟩

/-- A thread is about to perform an allowed operation, calls or returns. -/
theorem cases {t : Thread S} {w : W} (h : t.Keeps M C w) :
    (∃ o k, t.view M = .performs o k ∧ C.allows o w) ∨ (∃ f, C.calls f w) ∨ C.returns w := by
  obtain ⟨p, ks⟩ := t
  cases p with
  | pure a => exact .inr (.inr h.1)
  | throw e => exact .inr (.inr h.1)
  | op o k => exact .inl ⟨o, _, rfl, h.1.1⟩
  | call f k => exact .inr (.inl ⟨f, h.1.1⟩)

end Thread.Keeps

/-- A run of a thread keeps the contract at every point. -/
theorem Reaches.keeps {t u : Thread S} {w v : W} {tr} (hM : C.KeptBy M) (h : Reaches M t w tr u v)
    (ht : t.Keeps M C w) : u.Keeps M C v := by
  induction h with
  | refl => exact ht
  | internal hv _ ih => exact ih (ht.internal hM hv)
  | performs hv _ ih => exact ih (ht.performs hv).2

theorem Reaches.allows {t u : Thread S} {w v : W} {tr} (hM : C.KeptBy M) (h : Reaches M t w tr u v)
    (ht : t.Keeps M C w) : ∀ o ∈ tr, ∃ w', C.allows o w' := by
  induction h with
  | refl => exact nofun
  | internal hv _ ih => exact ih (ht.internal hM hv)
  | performs hv _ ih =>
    obtain ⟨hallowed, hrest⟩ := ht.performs hv
    exact List.forall_mem_cons.mpr ⟨⟨_, hallowed⟩, ih hrest⟩

/-- A run of a program ends in a state of `Q` if it returns. -/
theorem Exec.keeps {p : Program S α} {Q : α → W → Prop} {w w' : W} {tr r} (hM : C.KeptBy M)
    (h : Exec M p w tr r w') (hp : p.Keeps M C Q w) : ∀ a, r = .ok a → Q a w' := by
  induction h with
  | pure a w => rintro _ ⟨⟩; exact hp
  | throw e w => exact nofun
  | op _ ih => exact ih hp.2
  | call _ _ ihc ihr => exact ihr (hp.2 _ (ihc (hM _ _ hp.1) () rfl))
  | callThrow _ _ => exact nofun

end RedisServer.InteractionPrograms
