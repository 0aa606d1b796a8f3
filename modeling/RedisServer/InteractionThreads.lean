import RedisServer.InteractionPrograms

/-!
# Threads: programs advanced one operation at a time

A thread is a program together with the continuations of its pending calls. Calls
and returns are internal; every other move performs exactly one operation. The
runs of a thread started on a program are the prefixes of its big-step run.
-/

namespace RedisServer.InteractionPrograms

variable {S : Signature} {W : Type} {M : Machine S W}

structure Thread (S : Signature) where
  current : Program S Unit
  stack : List (Program S Unit)

/-- The next move of a thread. -/
inductive View (S : Signature) where
  | halted
  | raises (e : S.Err)
  | internal (next : Thread S)
  | performs (o : S.Op) (next : S.Answer o → Thread S)

def Thread.start (p : Program S Unit) : Thread S := ⟨p, []⟩

def Thread.view (M : Machine S W) (t : Thread S) : View S :=
  match t.current, t.stack with
  | .pure (), [] => .halted
  | .pure (), k :: ks => .internal ⟨k, ks⟩
  | .throw e, _ => .raises e
  | .op o k, ks => .performs o (fun r => ⟨k r, ks⟩)
  | .call f k, ks => .internal ⟨M.body f, k :: ks⟩

theorem Thread.view_eq_internal {t t' : Thread S} :
    t.view M = .internal t' ↔
      (∃ k ks, t = ⟨.pure (), k :: ks⟩ ∧ t' = ⟨k, ks⟩) ∨
      ∃ f k ks, t = ⟨.call f k, ks⟩ ∧ t' = ⟨M.body f, k :: ks⟩ := by
  constructor
  · intro h
    obtain ⟨p, ks⟩ := t
    cases p with
    | pure a =>
      cases ks with
      | nil => cases h
      | cons k ks => cases h; exact .inl ⟨k, ks, rfl, rfl⟩
    | throw e => cases h
    | op o k => cases h
    | call f k => cases h; exact .inr ⟨f, k, ks, rfl, rfl⟩
  · rintro (⟨k, ks, rfl, rfl⟩ | ⟨f, k, ks, rfl, rfl⟩) <;> rfl

theorem Thread.view_eq_performs {t : Thread S} {o : S.Op} {k : S.Answer o → Thread S} :
    t.view M = .performs o k ↔ ∃ k' ks, t = ⟨.op o k', ks⟩ ∧ k = fun r => ⟨k' r, ks⟩ := by
  constructor
  · intro h
    obtain ⟨p, ks⟩ := t
    cases p with
    | pure a => cases ks <;> cases h
    | throw e => cases h
    | op o k => cases h; exact ⟨k, ks, rfl, rfl⟩
    | call f k => cases h
  · rintro ⟨k', ks, rfl, rfl⟩
    rfl

/-- Finitely many moves of a thread alone, with the operations performed. -/
inductive Reaches (M : Machine S W) : Thread S → W → List S.Op → Thread S → W → Prop where
  | refl (t : Thread S) (w : W) : Reaches M t w [] t w
  | internal {t t' u : Thread S} {w v : W} {tr} (h : t.view M = .internal t')
      (rest : Reaches M t' w tr u v) : Reaches M t w tr u v
  | performs {t u : Thread S} {w v : W} {o k tr} (h : t.view M = .performs o k)
      (rest : Reaches M (k (M.step o w).1) (M.step o w).2 tr u v) :
      Reaches M t w (o :: tr) u v

namespace Reaches

theorem trans {t u x : Thread S} {w v y : W} {tr tr'} (h : Reaches M t w tr u v)
    (h' : Reaches M u v tr' x y) : Reaches M t w (tr ++ tr') x y := by
  induction h with
  | refl => exact h'
  | internal hv _ ih => exact .internal hv (ih h')
  | performs hv _ ih => exact .performs hv (ih h')

theorem snoc_internal {t u u' : Thread S} {w v : W} {tr} (h : Reaches M t w tr u v)
    (hv : u.view M = .internal u') : Reaches M t w tr u' v := by
  simpa using h.trans (.internal hv (.refl u' v))

theorem snoc_performs {t u : Thread S} {w v : W} {tr o k} (h : Reaches M t w tr u v)
    (hv : u.view M = .performs o k) :
    Reaches M t w (tr ++ [o]) (k (M.step o v).1) (M.step o v).2 :=
  h.trans (.performs hv (.refl _ _))

/-- A run from `t` extends every shorter run from `t`: threads have no choice. -/
theorem split {t u x : Thread S} {w v y : W} {tr full} (h : Reaches M t w tr u v)
    (hfull : Reaches M t w full x y) (hx : x.view M = .halted ∨ ∃ e, x.view M = .raises e) :
    ∃ rem, full = tr ++ rem ∧ Reaches M u v rem x y := by
  induction h generalizing full with
  | refl => exact ⟨full, rfl, hfull⟩
  | internal hv _ ih =>
    cases hfull with
    | refl =>
      rcases hx with hx | ⟨e, hx⟩ <;> cases hv.symm.trans hx
    | internal hv' rest =>
      cases hv.symm.trans hv'
      exact ih rest
    | performs hv' rest => cases hv.symm.trans hv'
  | performs hv _ ih =>
    cases hfull with
    | refl =>
      rcases hx with hx | ⟨e, hx⟩ <;> cases hv.symm.trans hx
    | internal hv' rest => cases hv.symm.trans hv'
    | performs hv' rest =>
      cases hv.symm.trans hv'
      obtain ⟨rem, rfl, hr⟩ := ih rest
      exact ⟨rem, rfl, hr⟩

/-- Of two runs from the same thread one extends the other. -/
theorem compare {t u x : Thread S} {w v y : W} {tr tr'} (h : Reaches M t w tr u v)
    (h' : Reaches M t w tr' x y) :
    (∃ rem, tr' = tr ++ rem ∧ Reaches M u v rem x y) ∨
      ∃ rem, tr = tr' ++ rem ∧ Reaches M x y rem u v := by
  induction h generalizing tr' with
  | refl => exact .inl ⟨tr', rfl, h'⟩
  | internal hv rest ih =>
    cases h' with
    | refl => exact .inr ⟨_, rfl, .internal hv rest⟩
    | internal hv' rest' =>
      cases hv.symm.trans hv'
      exact ih rest'
    | performs hv' rest' => cases hv.symm.trans hv'
  | performs hv rest ih =>
    cases h' with
    | refl => exact .inr ⟨_, rfl, .performs hv rest⟩
    | internal hv' rest' => cases hv.symm.trans hv'
    | performs hv' rest' =>
      cases hv.symm.trans hv'
      rcases ih rest' with ⟨rem, rfl, hr⟩ | ⟨rem, rfl, hr⟩
      · exact .inl ⟨rem, rfl, hr⟩
      · exact .inr ⟨rem, rfl, hr⟩

/-- What every single operation preserves, a thread preserves. -/
theorem preserves {I : W → Prop} (hstep : ∀ o w, I w → I (M.step o w).2) {t u : Thread S} {w v : W}
    {tr} (h : Reaches M t w tr u v) (hw : I w) : I v := by
  induction h with
  | refl => exact hw
  | internal _ _ ih => exact ih hw
  | performs _ _ ih => exact ih (hstep _ _ hw)

/-- A run passes through a thread at every point of its list of operations. -/
theorem of_append {t x : Thread S} {w y : W} {tr tr' : List S.Op}
    (h : Reaches M t w (tr ++ tr') x y) :
    ∃ u v, Reaches M t w tr u v ∧ Reaches M u v tr' x y := by
  generalize hfull : tr ++ tr' = full at h
  induction h generalizing tr with
  | refl =>
    obtain ⟨rfl, rfl⟩ := List.append_eq_nil_iff.mp hfull
    exact ⟨_, _, .refl _ _, .refl _ _⟩
  | internal hv _ ih =>
    obtain ⟨u, v, hu, hx⟩ := ih hfull
    exact ⟨u, v, .internal hv hu, hx⟩
  | performs hv rest ih =>
    cases tr with
    | nil => cases hfull; exact ⟨_, _, .refl _ _, .performs hv rest⟩
    | cons o tr =>
      obtain ⟨rfl, htail⟩ := List.cons.inj hfull
      obtain ⟨u, v, hu, hx⟩ := ih htail
      exact ⟨u, v, .performs hv hu, hx⟩

/-- A run that begins with an operation comes to a thread that performs it. -/
theorem of_cons {t x : Thread S} {w y : W} {o : S.Op} {tr : List S.Op}
    (h : Reaches M t w (o :: tr) x y) : ∃ u k, Reaches M t w [] u w ∧ u.view M = .performs o k ∧
      Reaches M (k (M.step o w).1) (M.step o w).2 tr x y := by
  generalize hfull : o :: tr = full at h
  induction h with
  | refl => cases hfull
  | internal hv _ ih =>
    obtain ⟨u, k, hu, hview, hx⟩ := ih hfull
    exact ⟨u, k, .internal hv hu, hview, hx⟩
  | performs hv rest =>
    cases hfull
    exact ⟨_, _, .refl _ _, hv, rest⟩

/-- Run a subprogram to its value on top of any pending stack. -/
theorem of_exec {α : Type} {p : Program S α} {w w' : W} {tr a}
    (h : Exec M p w tr (.ok a) w') (f : α → Program S Unit) (ks : List (Program S Unit)) :
    Reaches M ⟨p >>= f, ks⟩ w tr ⟨f a, ks⟩ w' := by
  generalize hr : (Except.ok a : Except S.Err α) = res at h
  induction h generalizing ks with
  | pure b w => cases hr; exact .refl _ _
  | throw e w => cases hr
  | op _ ih => exact .performs rfl (ih f ks hr)
  | @call _ g k w w₁ w' tr tr' r callee rest ihc ihr =>
    have hcallee := ihc .pure (k.bind f :: ks) rfl
    rw [Program.bind_pure_self] at hcallee
    exact .internal rfl ((hcallee.snoc_internal rfl).trans (ihr f ks hr))
  | callThrow => cases hr

/-- Run a subprogram to the error it raises. -/
theorem of_exec_throw {α : Type} {p : Program S α} {w w' : W} {tr e}
    (h : Exec M p w tr (.error e) w') (f : α → Program S Unit) (ks : List (Program S Unit)) :
    ∃ u, Reaches M ⟨p >>= f, ks⟩ w tr u w' ∧ u.view M = .raises e := by
  generalize hr : (Except.error e : Except S.Err α) = res at h
  induction h generalizing ks with
  | pure b w => cases hr
  | throw e' w => cases hr; exact ⟨_, .refl _ _, rfl⟩
  | op _ ih =>
    obtain ⟨u, hu, hv⟩ := ih f ks hr
    exact ⟨u, .performs rfl hu, hv⟩
  | @call _ g k w w₁ w' tr tr' r callee rest ihc ihr =>
    have hcallee := of_exec callee .pure (k.bind f :: ks)
    rw [Program.bind_pure_self] at hcallee
    obtain ⟨u, hu, hv⟩ := ihr f ks hr
    exact ⟨u, .internal rfl ((hcallee.snoc_internal rfl).trans hu), hv⟩
  | @callThrow _ g k w w' tr e' callee ihc =>
    cases hr
    obtain ⟨u, hu, hv⟩ := ihc .pure (k.bind f :: ks) rfl
    rw [Program.bind_pure_self] at hu
    exact ⟨u, .internal rfl hu, hv⟩

/-- A run performs only operations that its thread can come to perform, if the bodies of the
procedures it can come to call are closed under the same description. -/
theorem always {P : S.Op → Prop} {C : S.Proc → Prop} (hbody : ∀ f, C f → (M.body f).Always P C)
    {t u : Thread S} {w v : W} {tr} (h : Reaches M t w tr u v) (hcur : t.current.Always P C)
    (hstack : ∀ k ∈ t.stack, k.Always P C) : ∀ o ∈ tr, P o := by
  induction h with
  | refl => exact nofun
  | internal hv _ ih =>
    rcases Thread.view_eq_internal.mp hv with ⟨k, ks, rfl, rfl⟩ | ⟨f, k, ks, rfl, rfl⟩
    · obtain ⟨hk, hks⟩ := List.forall_mem_cons.mp hstack
      exact ih hk hks
    · exact ih (hbody f hcur.1) (List.forall_mem_cons.mpr ⟨hcur.2, hstack⟩)
  | performs hv _ ih =>
    obtain ⟨k', ks, rfl, rfl⟩ := Thread.view_eq_performs.mp hv
    exact List.forall_mem_cons.mpr ⟨hcur.1, ih (hcur.2 _) hstack⟩

end Reaches

/-- Run the current program of a thread and then its pending continuations. -/
inductive Thread.Exec (M : Machine S W) :
    Thread S → W → List S.Op → Except S.Err Unit → W → Prop where
  | last {p : Program S Unit} {w w' : W} {tr r}
      (h : InteractionPrograms.Exec M p w tr r w') : Thread.Exec M ⟨p, []⟩ w tr r w'
  | frame {p k : Program S Unit} {ks w w₁ w' tr tr' r}
      (h : InteractionPrograms.Exec M p w tr (.ok ()) w₁)
      (rest : Thread.Exec M ⟨k, ks⟩ w₁ tr' r w') : Thread.Exec M ⟨p, k :: ks⟩ w (tr ++ tr') r w'
  | frameThrow {p k : Program S Unit} {ks w w' tr e}
      (h : InteractionPrograms.Exec M p w tr (.error e) w') :
      Thread.Exec M ⟨p, k :: ks⟩ w tr (.error e) w'

namespace Thread.Exec

theorem of_internal {t t' : Thread S} {w w' : W} {tr r} (hv : t.view M = .internal t')
    (h : Thread.Exec M t' w tr r w') : Thread.Exec M t w tr r w' := by
  obtain ⟨p, ks⟩ := t
  cases p with
  | pure a =>
    cases ks with
    | nil => cases hv
    | cons k ks => cases hv; exact .frame (.pure () w) h
  | throw e => cases hv
  | op o k => cases hv
  | call f k =>
    cases hv
    cases h with
    | frame callee rest =>
      cases rest with
      | last rest => exact .last (.call callee rest)
      | frame rest rest' => rw [← List.append_assoc]; exact .frame (.call callee rest) rest'
      | frameThrow rest => exact .frameThrow (.call callee rest)
    | frameThrow callee =>
      cases ks with
      | nil => exact .last (.callThrow callee)
      | cons k' ks => exact .frameThrow (.callThrow callee)

theorem of_performs {t : Thread S} {w w' : W} {o k tr r} (hv : t.view M = .performs o k)
    (h : Thread.Exec M (k (M.step o w).1) (M.step o w).2 tr r w') :
    Thread.Exec M t w (o :: tr) r w' := by
  obtain ⟨p, ks⟩ := t
  cases p with
  | pure a =>
    cases ks with
    | nil => cases hv
    | cons k ks => cases hv
  | throw e => cases hv
  | op o' k' =>
    cases hv
    cases h with
    | last h => exact .last (.op h)
    | frame h rest => exact .frame (.op h) rest
    | frameThrow h => exact .frameThrow (.op h)
  | call f k => cases hv

theorem of_reaches {t u : Thread S} {w v w' : W} {tr tr' r} (h : Reaches M t w tr u v)
    (hu : Thread.Exec M u v tr' r w') : Thread.Exec M t w (tr ++ tr') r w' := by
  induction h with
  | refl => exact hu
  | internal hv _ ih => exact of_internal hv (ih hu)
  | performs hv _ ih => exact of_performs hv (ih hu)

theorem of_halted {t : Thread S} (w : W) (hv : t.view M = .halted) :
    Thread.Exec M t w [] (.ok ()) w := by
  obtain ⟨p, ks⟩ := t
  cases p with
  | pure a =>
    cases ks with
    | nil => exact .last (.pure () w)
    | cons k ks => cases hv
  | throw e => cases hv
  | op o k => cases hv
  | call f k => cases hv

theorem of_raises {t : Thread S} (w : W) {e} (hv : t.view M = .raises e) :
    Thread.Exec M t w [] (.error e) w := by
  obtain ⟨p, ks⟩ := t
  cases p with
  | pure a => cases ks <;> cases hv
  | throw e' =>
    cases hv
    cases ks with
    | nil => exact .last (.throw e w)
    | cons k ks => exact .frameThrow (.throw e w)
  | op o k => cases hv
  | call f k => cases hv

end Thread.Exec

/-- A thread runs a program to the end exactly when the program has that run. -/
theorem reaches_halted_iff {p : Program S Unit} {w w' : W} {tr} :
    (∃ u, Reaches M (.start p) w tr u w' ∧ u.view M = .halted) ↔ Exec M p w tr (.ok ()) w' := by
  constructor
  · rintro ⟨u, h, hu⟩
    have hx := Thread.Exec.of_reaches h (.of_halted w' hu)
    rw [List.append_nil] at hx
    cases hx with | last hx => exact hx
  · intro h
    have hr := Reaches.of_exec h .pure []
    rw [Program.bind_pure_self] at hr
    exact ⟨_, hr, rfl⟩

/-- A thread comes to raise an error exactly when its program does. -/
theorem reaches_raises_iff {p : Program S Unit} {w w' : W} {tr e} :
    (∃ u, Reaches M (.start p) w tr u w' ∧ u.view M = .raises e) ↔
      Exec M p w tr (.error e) w' := by
  constructor
  · rintro ⟨u, h, hu⟩
    have hx := Thread.Exec.of_reaches h (.of_raises w' hu)
    rw [List.append_nil] at hx
    cases hx with | last hx => exact hx
  · intro h
    have hr := Reaches.of_exec_throw h .pure []
    rw [Program.bind_pure_self] at hr
    exact hr

section Composition

variable {p q k : Program S Unit} {w v v' w' : W} {tr tr' tr'' : List S.Op} {r : Except S.Err Unit}

/-- A run up to another program, and the run of that program. -/
theorem Reaches.exec (h : Reaches M ⟨p, []⟩ w tr ⟨q, []⟩ v) (hq : Exec M q v tr' r w') :
    Exec M p w (tr ++ tr') r w' := by
  have hx := Thread.Exec.of_reaches h (.last hq)
  cases hx with | last hx => exact hx

/-- A run up to a call, the run of the callee, and the run of what is left. -/
theorem Reaches.exec_call (h : Reaches M ⟨p, []⟩ w tr ⟨q, [k]⟩ v)
    (hq : Exec M q v tr' (.ok ()) v') (hk : Exec M k v' tr'' r w') :
    Exec M p w (tr ++ (tr' ++ tr'')) r w' := by
  have hx := Thread.Exec.of_reaches h (.frame hq (.last hk))
  cases hx with | last hx => exact hx

/-- A run up to a call whose callee throws. -/
theorem Reaches.exec_callThrow {e : S.Err} (h : Reaches M ⟨p, []⟩ w tr ⟨q, [k]⟩ v)
    (hq : Exec M q v tr' (.error e) w') : Exec M p w (tr ++ tr') (.error e) w' := by
  have hx := Thread.Exec.of_reaches h (.frameThrow hq)
  cases hx with | last hx => exact hx

/-- The run of a program passes through every thread that its own thread comes to. -/
theorem Exec.split {full : List S.Op} {u : Thread S} (hx : Exec M p w full r w')
    (h : Reaches M (.start p) w tr u v) : ∃ rem, full = tr ++ rem ∧ Thread.Exec M u v rem r w' := by
  cases r with
  | ok a =>
    obtain ⟨x, hfull, hview⟩ := reaches_halted_iff.mpr hx
    obtain ⟨rem, rfl, hrem⟩ := h.split hfull (.inl hview)
    exact ⟨rem, rfl, by simpa using Thread.Exec.of_reaches hrem (.of_halted w' hview)⟩
  | error e =>
    obtain ⟨x, hfull, hview⟩ := reaches_raises_iff.mpr hx
    obtain ⟨rem, rfl, hrem⟩ := h.split hfull (.inr ⟨e, hview⟩)
    exact ⟨rem, rfl, by simpa using Thread.Exec.of_reaches hrem (.of_raises w' hview)⟩

end Composition

end RedisServer.InteractionPrograms
