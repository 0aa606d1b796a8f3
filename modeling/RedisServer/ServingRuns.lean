import RedisServer.WorkerPool

/-!
# A server at rest can serve any request

The steps by which a request that has been received comes to run on a worker, its session
goes on while the other threads stand still, and the server comes to rest again.
-/

namespace RedisServer.WorkerPool
open ByteStrings InteractionPrograms ServerState RedisParser ResponseExchange

variable {ι κ : Type}

/-- Every client handler waits for its client, and every worker for the mutex. -/
structure Pool.AtRest (s : Pool ι κ) : Prop where
  alive : s.terminated = false
  mtx : s.mtx = none
  workers : ∀ w, s.workers w = .locking
  clients : ∀ c, s.clients c = .receiving
  taskQueue : s.taskQueue = []

/-- A worker runs a task, and apart from it the server is at rest. -/
structure Pool.Serving (s : Pool ι κ) (w : ι) (task : Task) (x : Exchange) : Prop where
  alive : s.terminated = false
  mtx : s.mtx = some (.inl w)
  running : s.workers w = .running task x
  workers : ∀ w', w' ≠ w → s.workers w' = .locking
  clients : ∀ c, s.clients c = .receiving
  taskQueue : s.taskQueue = []

theorem atRest_start (st : Store) : (Pool.start st : Pool ι κ).AtRest :=
  ⟨rfl, rfl, fun _ => rfl, fun _ => rfl, rfl⟩

variable [DecidableEq ι] [DecidableEq κ] {host : Host} {socket : κ → ℤ}
  {allowed : Exchange → Move → Prop} {s s' s'' : Pool ι κ} {w : ι} {c : κ} {b : Bytes}
  {task : Task} {x : Exchange} {log log' : List (Task × Action)} {st st' : Store}

/-- Steps of a server that receives nothing, with what they log. -/
inductive Works (host : Host) (socket : κ → ℤ) (allowed : Exchange → Move → Prop) :
    Pool ι κ → List (Task × Action) → Pool ι κ → Prop where
  | refl (s : Pool ι κ) : Works host socket allowed s [] s
  | internal {s s' s'' : Pool ι κ} {log} (h : Works host socket allowed s log s')
      (hs : PoolStep host socket allowed .internal s' s'') : Works host socket allowed s log s''
  | observed {s s' s'' : Pool ι κ} {log task acts} (h : Works host socket allowed s log s')
      (hs : PoolStep host socket allowed (.observed task acts) s' s'') :
      Works host socket allowed s (log ++ acts.map (Prod.mk task)) s''

theorem Works.trans (h : Works host socket allowed s log s')
    (h' : Works host socket allowed s' log' s'') : Works host socket allowed s (log ++ log') s'' := by
  induction h' with
  | refl => simpa using h
  | internal _ hs ih => exact ih.internal hs
  | observed _ hs ih =>
    rw [← List.append_assoc]
    exact ih.observed hs

theorem Works.log_eq (h : Works host socket allowed s log s') : s'.log = s.log ++ log := by
  induction h with
  | refl => rw [List.append_nil]
  | internal _ hs ih =>
    rw [← ih]
    cases hs <;> rfl
  | observed _ hs ih =>
    rw [← List.append_assoc, ← ih]
    cases hs
    rfl

theorem PoolRun.works (h : PoolRun host socket allowed st s)
    (hw : Works host socket allowed s log s') : PoolRun host socket allowed st s' := by
  induction hw with
  | refl => exact h
  | internal _ hs ih => exact ih.step hs
  | observed _ hs ih => exact ih.step hs

/-- What a client handler has received becomes a task, and a worker begins to run it. -/
theorem Pool.AtRest.exists_serving (h : s.AtRest) (w : ι) (c : κ) (b : Bytes) :
    ∃ s', Works host socket allowed (s.setClient c (.locking b)) [] s' ∧
      s'.Serving w ⟨s.enqueued.length, socket c, b⟩
        (Task.start host ⟨s.enqueued.length, socket c, b⟩) ∧
      s'.store = s.store ∧ s'.log = s.log ∧
      s'.enqueued = s.enqueued ++ [⟨s.enqueued.length, socket c, b⟩] := by
  obtain ⟨halive, hmtx, hworkers, hclients, hqueue⟩ := h
  have h₀ : Works host socket allowed (s.setClient c (.locking b)) [] (s.setClient c (.locking b)) :=
    .refl _
  have h₁ := h₀.internal (.clientLock (c := c) halive (show _ = ClientPc.locking b by simp) hmtx)
  have h₂ := h₁.internal (.push (c := c) halive (show _ = ClientPc.pushing b by simp))
  have h₃ := h₂.internal (.clientUnlock (c := c) halive (by simp))
  have h₄ := h₃.internal (.notifyNone (c := c) halive (by simp) (by simp [hworkers]))
  have h₅ := h₄.internal (.workerLock (w := w) halive (by simp [hworkers]) (by simp))
  have h₆ := h₅.internal (.tested (w := w) halive (by simp) (by simp))
  have h₇ := h₆.internal (.pop (w := w) halive (by simp)
    (show _ = [(⟨s.enqueued.length, socket c, b⟩ : Task)] by simp [hqueue]))
  refine ⟨_, h₇, ⟨halive, by simp, by simp, fun w' hw' => by simp [hw', hworkers], fun c' => ?_, rfl⟩,
    rfl, rfl, by simp⟩
  by_cases hc : c' = c
  · simp [hc]
  · simp [hc, hclients]

/-- The session of the task that runs. -/
theorem Pool.Serving.exists_works (h : s.Serving w task (task.start host)) {l : List Action}
    (hrun : RequestRun host task.clientFd task.recvStr s.store allowed ⟨x, st', l⟩)
    (halive : x.parserPc ≠ .terminated) :
    ∃ s', Works host socket allowed s (l.map (Prod.mk task)) s' ∧ s'.Serving w task x ∧
      s'.store = st' ∧ s'.enqueued = s.enqueued := by
  generalize hsession : (⟨x, st', l⟩ : Session) = session at hrun
  induction hrun generalizing x st' l with
  | start =>
    cases hsession
    exact ⟨s, .refl s, h, rfl, rfl⟩
  | step mv hrun hmv hs ih =>
    cases hsession
    obtain ⟨s', hworks, ⟨halive', hmtx, hpc, hworkers, hclients, hqueue⟩, hstore, henq⟩ :=
      ih hs.alive rfl
    rw [List.map_append]
    rw [← hstore] at hs
    refine ⟨_, hworks.observed (.run halive' hpc hmv hs), ⟨?_, ?_, ?_, ?_, ?_, ?_⟩, rfl, henq⟩
    · simpa using halive
    · simpa using hmtx
    · simp
    · intro w' hw'
      simpa [hw'] using hworkers w' hw'
    · simpa using hclients
    · simpa using hqueue

theorem Pool.Serving.exists_atRest (h : s.Serving w task x) (hdone : x.handlerPc = .done) :
    ∃ s', Works host socket allowed s [] s' ∧ s'.AtRest ∧ s'.store = s.store ∧
      s'.enqueued = s.enqueued := by
  obtain ⟨halive, hmtx, hpc, hworkers, hclients, hqueue⟩ := h
  have h₀ : Works host socket allowed s [] s := .refl s
  have h₁ := h₀.internal (.finish halive hpc hdone)
  have h₂ := h₁.internal (.workerUnlock (w := w) halive (by simp))
  refine ⟨_, h₂, ⟨halive, by simp, fun w' => ?_, hclients, hqueue⟩, rfl, rfl⟩
  by_cases hw : w' = w
  · simp [hw]
  · simp [hw, hworkers]

end RedisServer.WorkerPool
