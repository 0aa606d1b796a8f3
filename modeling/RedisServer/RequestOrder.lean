import RedisServer.ParserDiscipline
import RedisServer.ServingRuns
import Mathlib.Data.List.Range

/-!
# Requests are served one at a time, in the order they were enqueued

What a server has done at any moment is a sequence of complete sessions, one for each
finished task, and at most one session that is still going on. The tasks of these
sessions and the tasks in the queue are all that were enqueued, in their order.
-/

namespace RedisServer.WorkerPool
open ByteStrings InteractionPrograms ServerState Utils RedisParser ParserDiscipline
open ResponseExchange MutexOwnership

/-- Sessions one after another, each run to its end, with the log of all their steps. -/
inductive Sessions (host : Host) (allowed : Exchange → Move → Prop) (st : Store) :
    List Task → List (Task × Action) → Store → Prop where
  | nil : Sessions host allowed st [] [] st
  | snoc {tasks log st₁ task x l st₂} (h : Sessions host allowed st tasks log st₁)
      (run : RequestRun host task.clientFd task.recvStr st₁ allowed ⟨x, st₂, l⟩)
      (hdone : x.handlerPc = .done) :
      Sessions host allowed st (tasks ++ [task]) (log ++ l.map (Prod.mk task)) st₂

/-- Requests executed one after another by the parser alone. -/
inductive OneAtATime (host : Host) (st : Store) : List Task → Store → Prop where
  | nil : OneAtATime host st [] st
  | snoc {tasks st₁ task tr st₂} (h : OneAtATime host st tasks st₁)
      (run : Handles host task.clientFd task.recvStr st₁ tr (.ok ()) st₂) :
      OneAtATime host st (tasks ++ [task]) st₂

variable {ι κ : Type} {host : Host} {allowed : Exchange → Move → Prop} {st : Store}

/-- A task runs only on a worker that holds the mutex. -/
def Pool.Running (s : Pool ι κ) (w : ι) (task : Task) (x : Exchange) : Prop :=
  s.workers w = .running task x

/-- No task runs. -/
def Pool.Idle (s : Pool ι κ) : Prop := ∀ w task x, ¬ s.Running w task x

theorem Pool.AtRest.idle {s : Pool ι κ} (h : s.AtRest) : s.Idle :=
  fun w _ _ hr => nomatch (h.workers w).symm.trans hr

structure PoolInvariant (host : Host) (allowed : Exchange → Move → Prop) (st : Store)
    (s : Pool ι κ) : Prop where
  locked : Locked s
  tickets : s.enqueued.map Task.ticket = List.range s.enqueued.length
  idle : s.Idle → s.finished ++ s.taskQueue = s.enqueued ∧
    Sessions host allowed st s.finished s.log s.store
  busy : ∀ w task x, s.Running w task x → s.finished ++ task :: s.taskQueue = s.enqueued ∧
    ∃ log l st₁, Sessions host allowed st s.finished log st₁ ∧
      RequestRun host task.clientFd task.recvStr st₁ allowed ⟨x, s.store, l⟩ ∧
      s.log = log ++ l.map (Prod.mk task)

theorem poolInvariant_start (st : Store) :
    PoolInvariant host allowed st (Pool.start st : Pool ι κ) where
  locked := locked_start st
  tickets := rfl
  idle := fun _ => ⟨rfl, .nil⟩
  busy := fun w task x hr => by simp [Pool.Running, Pool.start] at hr

theorem Locked.running_unique {s : Pool ι κ} (h : Locked s) {w w' : ι} {task task' : Task}
    {x x' : Exchange} (hw : s.Running w task x) (hw' : s.Running w' task' x') : w = w' := by
  have hheld : ∀ {w task x}, s.Running w task x → threadHolds (s.threads (.inl w)) = true := by
    intro w task x hrun
    change (s.workers w).holds = true
    rw [hrun]
    rfl
  exact Sum.inl_injective (h.unique (hheld hw) (hheld hw'))

section Frames

variable {s s' : Pool ι κ}

/-- The queue, the store and the history are the same. -/
structure Pool.SameHistory (s s' : Pool ι κ) : Prop where
  enqueued : s'.enqueued = s.enqueued
  finished : s'.finished = s.finished
  taskQueue : s'.taskQueue = s.taskQueue
  log : s'.log = s.log
  store : s'.store = s.store

/-- A step that leaves the running task, the queue and the history as they are. -/
private theorem PoolInvariant.frame (h : PoolInvariant host allowed st s) (hlocked : Locked s')
    (hsame : s.SameHistory s') (hrun : ∀ w task x, s'.Running w task x ↔ s.Running w task x) :
    PoolInvariant host allowed st s' := by
  obtain ⟨henq, hfin, hqueue, hlog, hstore⟩ := hsame
  refine ⟨hlocked, by rw [henq]; exact h.tickets, fun hidle => ?_, fun w task x hr => ?_⟩
  · rw [henq, hfin, hqueue, hlog, hstore]
    exact h.idle fun w task x hr => hidle w task x ((hrun w task x).mpr hr)
  · rw [henq, hfin, hqueue, hlog, hstore]
    exact h.busy w task x ((hrun w task x).mp hr)

/-- A step that moves one worker between program counters at which it runs no task. -/
private theorem PoolInvariant.frameWorker [DecidableEq ι] (h : PoolInvariant host allowed st s)
    (hlocked : Locked s') (hsame : s.SameHistory s') (w : ι) (pc : WorkerPc)
    (hworkers : s'.workers = Function.update s.workers w pc)
    (hold : ∀ task x, s.workers w ≠ .running task x) (hnew : ∀ task x, pc ≠ .running task x) :
    PoolInvariant host allowed st s' := by
  apply h.frame hlocked hsame
  intro w' task x
  unfold Pool.Running
  rw [hworkers]
  by_cases hw : w' = w
  · subst hw
    simp [hnew, hold]
  · simp [hw]

end Frames

/-- `response_handler` returns after it has joined its parser thread, so a session that
is done has run its parser to the end. -/
theorem parser_halted_of_done {cfd : ℤ} {input : Bytes} {session : Session}
    (h : RequestRun host cfd input st allowed session)
    (hdone : session.exchange.handlerPc = .done) :
    session.exchange.parserPc = .program ∧
      session.exchange.thread.view (parser host cfd input) = .halted := by
  revert hdone
  refine h.induct (P := fun session => session.exchange.handlerPc = .done →
    session.exchange.parserPc = .program ∧
      session.exchange.thread.view (parser host cfd input) = .halted) (by simp [Exchange.start]) ?_
  rintro session mv acts x' st' ih - hs hdone
  cases hs with
  | handler hs _ =>
    cases hs with
    | join hpc hparser hv => exact ⟨hparser, hv⟩
    | _ => cases hdone
  | parser hs =>
    have hbefore : session.exchange.handlerPc = .done := by
      cases hs with
      | msgNotify hpc =>
        cases hx : session.exchange.handlerPc <;> simp_all [HandlerPc.notified]
      | _ => exact hdone
    obtain ⟨hpc, hv⟩ := ih hbefore
    cases hs <;> simp_all

theorem handles_of_done {cfd : ℤ} {input : Bytes} {session : Session}
    (h : RequestRun host cfd input st allowed session)
    (hdone : session.exchange.handlerPc = .done) :
    Handles host cfd input st (operations session.log) (.ok ()) session.store :=
  reaches_halted_iff.mp ⟨_, h.reaches, (parser_halted_of_done h hdone).2⟩

theorem Sessions.oneAtATime {tasks : List Task} {log : List (Task × Action)} {st' : Store}
    (h : Sessions host allowed st tasks log st') : OneAtATime host st tasks st' := by
  induction h with
  | nil => exact .nil
  | snoc _ run hdone ih => exact ih.snoc (handles_of_done run hdone)

/-- One execution at a time has one outcome. -/
theorem OneAtATime.unique {tasks : List Task} {st₁ st₂ : Store} (h₁ : OneAtATime host st tasks st₁)
    (h₂ : OneAtATime host st tasks st₂) : st₁ = st₂ := by
  induction h₁ generalizing st₂ with
  | nil =>
    generalize htasks : ([] : List Task) = tasks at h₂
    cases h₂ with
    | nil => rfl
    | snoc => simp at htasks
  | @snoc tasks st₁ task tr st₁' _ run ih =>
    generalize htasks : tasks ++ [task] = all at h₂
    cases h₂ with
    | nil => simp at htasks
    | snoc h₂ run₂ =>
      obtain ⟨rfl, heq⟩ := List.append_inj' htasks rfl
      obtain rfl := List.singleton_inj.mp heq
      obtain rfl := ih h₂
      exact (run.deterministic run₂).2.2

/-- The steps of a task that comes after all tasks of an ordered log. -/
private theorem ordered_append {tasks : List Task} {log : List (Task × Action)} {task : Task}
    (hmem : ∀ e ∈ log, e.1 ∈ tasks) (hordered : log.Pairwise fun e e' => e.1.ticket ≤ e'.1.ticket)
    (hlater : ∀ t ∈ tasks, t.ticket < task.ticket) (l : List Action) :
    (log ++ l.map (Prod.mk task)).Pairwise fun e e' => e.1.ticket ≤ e'.1.ticket := by
  refine List.pairwise_append.mpr ⟨hordered, ?_, fun e he e' he' => ?_⟩
  · exact List.pairwise_map.mpr (List.pairwise_of_forall (by simp))
  · obtain ⟨a, -, rfl⟩ := List.mem_map.mp he'
    exact (hlater _ (hmem e he)).le

/-- Every step of the log belongs to a task of one of the sessions, and the steps of
different sessions do not mix. -/
theorem Sessions.log_ordered {tasks : List Task} {log : List (Task × Action)} {st' : Store}
    (h : Sessions host allowed st tasks log st') (htickets : tasks.Pairwise (·.ticket < ·.ticket)) :
    (∀ e ∈ log, e.1 ∈ tasks) ∧ log.Pairwise fun e e' => e.1.ticket ≤ e'.1.ticket := by
  induction h with
  | nil => exact ⟨nofun, .nil⟩
  | @snoc tasks log st₁ task x l st₂ _ run hdone ih =>
    obtain ⟨hbefore, -, hlast⟩ := List.pairwise_append.mp htickets
    obtain ⟨hmem, hordered⟩ := ih hbefore
    refine ⟨fun e he => ?_, ordered_append hmem hordered (fun t ht => hlast t ht task (by simp)) l⟩
    rcases List.mem_append.mp he with he | he
    · exact List.mem_append_left _ (hmem e he)
    · obtain ⟨a, -, rfl⟩ := List.mem_map.mp he
      simp

theorem PoolInvariant.log_ordered {s : Pool ι κ} (h : PoolInvariant host allowed st s) :
    s.log.Pairwise fun e e' => e.1.ticket ≤ e'.1.ticket := by
  have htickets : s.enqueued.Pairwise (·.ticket < ·.ticket) := by
    rw [← List.pairwise_map (R := (· < ·)), h.tickets]
    exact List.pairwise_lt_range
  by_cases hidle : s.Idle
  · obtain ⟨hfifo, hsessions⟩ := h.idle hidle
    rw [← hfifo] at htickets
    exact (hsessions.log_ordered (List.pairwise_append.mp htickets).1).2
  · obtain ⟨w, task, x, hr⟩ : ∃ w task x, s.Running w task x := by
      simpa [Pool.Idle] using hidle
    obtain ⟨hfifo, log, l, st₁, hsessions, hrun, hlog⟩ := h.busy w task x hr
    rw [← hfifo] at htickets
    obtain ⟨hbefore, -, hlast⟩ := List.pairwise_append.mp htickets
    obtain ⟨hmem, hordered⟩ := hsessions.log_ordered hbefore
    rw [hlog]
    exact ordered_append hmem hordered (fun t ht => hlast t ht task (by simp)) l

variable [DecidableEq ι] [DecidableEq κ] {clientFd : κ → ℤ} {s s' : Pool ι κ}
  {ev : Event κ}

theorem poolInvariant_step (h : PoolInvariant host allowed st s)
    (hs : PoolStep host clientFd allowed ev s s') : PoolInvariant host allowed st s' := by
  have hlocked : Locked s' := locked_step h.locked hs
  cases hs with
  | receive | disconnect | clientLock | clientUnlock | notifyNone =>
    exact h.frame hlocked (by constructor <;> simp) (by simp [Pool.Running])
  | push halive hpc =>
    refine ⟨hlocked, ?_, fun hidle => ?_, fun w task x hr => ?_⟩
    · simp [h.tickets, List.range_succ]
    · obtain ⟨hfifo, hsessions⟩ := h.idle hidle
      exact ⟨by simp [← hfifo], by simpa using hsessions⟩
    · obtain ⟨hfifo, hsession⟩ := h.busy w task x hr
      exact ⟨by simp [← hfifo], by simpa using hsession⟩
  | @notifyOne _ c w halive hpc hw =>
    exact h.frameWorker hlocked (by constructor <;> simp) w .relocking rfl (by simp [hw])
      (by simp)
  | @workerLock _ w halive hpc =>
    exact h.frameWorker hlocked (by constructor <;> simp) w .testing rfl (by simp [hpc])
      (by simp)
  | @wait _ w halive hpc =>
    exact h.frameWorker hlocked (by constructor <;> simp) w .waiting rfl (by simp [hpc])
      (by simp)
  | @spurious _ w halive hpc =>
    exact h.frameWorker hlocked (by constructor <;> simp) w .relocking rfl (by simp [hpc])
      (by simp)
  | @relock _ w halive hpc =>
    exact h.frameWorker hlocked (by constructor <;> simp) w .testing rfl (by simp [hpc])
      (by simp)
  | @tested _ w halive hpc =>
    exact h.frameWorker hlocked (by constructor <;> simp) w .popping rfl (by simp [hpc])
      (by simp)
  | @noTask _ w halive hpc =>
    exact h.frameWorker hlocked (by constructor <;> simp) w .unlocking rfl (by simp [hpc])
      (by simp)
  | @workerUnlock _ w halive hpc =>
    exact h.frameWorker hlocked (by constructor <;> simp) w .locking rfl (by simp [hpc])
      (by simp)
  | @pop _ w task tasks halive hpc hqueue =>
    -- the worker that pops holds the mutex, so no other task runs
    have hidle : s.Idle := by
      intro w' task' x' hr
      have hw : w = w' := Sum.inl_injective (h.locked.unique (by change (s.workers w).holds = true; rw [hpc]; rfl)
        (by change (s.workers w').holds = true; rw [hr]; rfl))
      subst hw
      exact nomatch hpc.symm.trans hr
    obtain ⟨hfifo, hsessions⟩ := h.idle hidle
    refine ⟨hlocked, by simpa using h.tickets, fun hidle' => ?_, fun w' task' x' hr => ?_⟩
    · exact absurd (by simp [Pool.Running]) (hidle' w task (task.start host))
    · by_cases hw : w' = w
      · subst hw
        obtain ⟨rfl, rfl⟩ : task = task' ∧ task.start host = x' := by simpa [Pool.Running] using hr
        exact ⟨by simp [← hfifo, hqueue], s.log, [], s.store, by simpa using hsessions,
          by simpa using .start, by simp⟩
      · exact absurd (by simpa [Pool.Running, hw] using hr) (hidle w' task' x')
  | @run _ w task x mv acts x' st' halive hpc hmv hstep =>
    obtain ⟨hfifo, log, l, st₁, hsessions, hrun, hlog⟩ := h.busy w task x hpc
    refine ⟨hlocked, by simpa using h.tickets, fun hidle => ?_, fun w' task' y hr => ?_⟩
    · exact absurd (by simp [Pool.Running]) (hidle w task x')
    · have hw : w = w' := by
        by_contra hw
        have hother : s.Running w' task' y := by simpa [Pool.Running, Ne.symm hw] using hr
        exact hw (h.locked.running_unique hpc hother)
      subst hw
      obtain ⟨rfl, rfl⟩ : task = task' ∧ x' = y := by simpa [Pool.Running] using hr
      exact ⟨by simpa using hfifo, log, l ++ acts, st₁, by simpa using hsessions,
        by simpa using hrun.step mv hmv hstep, by simp [hlog]⟩
  | @finish _ w task x halive hpc hdone =>
    obtain ⟨hfifo, log, l, st₁, hsessions, hrun, hlog⟩ := h.busy w task x hpc
    refine ⟨hlocked, by simpa using h.tickets, fun _ => ⟨by simp [← hfifo], ?_⟩,
      fun w' task' y hr => ?_⟩
    · simpa [hlog] using hsessions.snoc hrun hdone
    · by_cases hw : w' = w
      · subst hw
        simp [Pool.Running] at hr
      · have hother : s.Running w' task' y := by simpa [Pool.Running, hw] using hr
        exact absurd (h.locked.running_unique hother hpc) hw

theorem PoolRun.invariant (h : PoolRun host clientFd allowed st s) :
    PoolInvariant host allowed st s := by
  induction h with
  | start => exact poolInvariant_start st
  | step _ hs ih => exact poolInvariant_step ih hs

/-- Everything that a server at rest has enqueued is finished. -/
theorem PoolRun.finished_of_atRest (h : PoolRun host clientFd allowed st s) (hrest : s.AtRest) :
    s.finished = s.enqueued := by
  have hfifo := (h.invariant.idle hrest.idle).1
  rwa [hrest.taskQueue, List.append_nil] at hfifo

end RedisServer.WorkerPool
