import RedisServer.RequestOrder
import RedisServer.ServedRequests

/-!
# Where tasks come from and what they have done

Facts about whole runs of a server that follow from its order of service: every logged
action belongs to a session of its task, every task was received by a client handler,
and what no operation changes is the same in all sessions.
-/

namespace RedisServer.WorkerPool
open ByteStrings InteractionPrograms ServerState Utils RedisParser ResponseExchange ServedRequests

variable {ι κ : Type} {host : Host} {allowed : Exchange → Move → Prop} {st : Store}

/-- A session of `task` that starts in a state in which `I` holds. -/
def SessionOf (host : Host) (allowed : Exchange → Move → Prop) (I : Store → Prop) (task : Task)
    (log : List Action) : Prop :=
  ∃ st₁ x st₂, I st₁ ∧ RequestRun host task.clientFd task.recvStr st₁ allowed ⟨x, st₂, log⟩

section Sessions

variable {I : Store → Prop} (hI : ∀ host o st, I st → I (performOp host o st).2)
include hI

theorem requestRun_preserves {clientFd : ℤ} {input : Bytes} {session : Session}
    (h : RequestRun host clientFd input st allowed session) (hst : I st) : I session.store :=
  h.reaches.preserves (fun o st hst => hI host o st hst) hst

theorem Sessions.preserves {tasks : List Task} {log : List (Task × Action)} {st' : Store}
    (h : Sessions host allowed st tasks log st') (hst : I st) : I st' := by
  induction h with
  | nil => exact hst
  | snoc _ run _ ih => exact requestRun_preserves hI run ih

theorem Sessions.sessionOf {tasks : List Task} {log : List (Task × Action)} {st' : Store}
    (h : Sessions host allowed st tasks log st') (hst : I st) {task : Task} {a : Action}
    (ha : (task, a) ∈ log) : task ∈ tasks ∧ ∃ l, SessionOf host allowed I task l ∧ a ∈ l := by
  induction h with
  | nil => cases ha
  | @snoc tasks log st₁ task' x l st₂ hbefore run hdone ih =>
    rcases List.mem_append.mp ha with ha | ha
    · obtain ⟨htask, hsession⟩ := ih ha
      exact ⟨List.mem_append_left _ htask, hsession⟩
    · obtain ⟨a', ha', heq⟩ := List.mem_map.mp ha
      cases heq
      exact ⟨by simp, l, ⟨st₁, x, st₂, hbefore.preserves hI hst, run⟩, ha'⟩

/-- Every logged action belongs to a session of its task. -/
theorem PoolInvariant.sessionOf {s : Pool ι κ} (h : PoolInvariant host allowed st s) (hst : I st)
    {task : Task} {a : Action} (ha : (task, a) ∈ s.log) :
    task ∈ s.enqueued ∧ ∃ l, SessionOf host allowed I task l ∧ a ∈ l := by
  by_cases hidle : s.Idle
  · obtain ⟨hfifo, hsessions⟩ := h.idle hidle
    obtain ⟨htask, hsession⟩ := hsessions.sessionOf hI hst ha
    exact ⟨hfifo ▸ List.mem_append_left _ htask, hsession⟩
  · obtain ⟨w, task', x, hr⟩ : ∃ w task x, s.Running w task x := by
      simpa [Pool.Idle] using hidle
    obtain ⟨hfifo, log, l, st₁, hsessions, hrun, hlog⟩ := h.busy w task' x hr
    rw [hlog] at ha
    rcases List.mem_append.mp ha with ha | ha
    · obtain ⟨htask, hsession⟩ := hsessions.sessionOf hI hst ha
      exact ⟨hfifo ▸ List.mem_append_left _ htask, hsession⟩
    · obtain ⟨a', ha', heq⟩ := List.mem_map.mp ha
      cases heq
      exact ⟨hfifo ▸ by simp, l, ⟨st₁, x, s.store, hsessions.preserves hI hst, hrun⟩, ha'⟩

end Sessions

section Finished

variable {before after tasks : List Task} {task : Task} {log : List (Task × Action)} {st' : Store}

/-- The session of one of the tasks, after the sessions of the tasks before it. -/
theorem Sessions.exists_session (h : Sessions host allowed st tasks log st')
    (htasks : tasks = before ++ task :: after) : ∃ log₁ st₁ x st₂ l log₂,
      Sessions host allowed st before log₁ st₁ ∧
      RequestRun host task.clientFd task.recvStr st₁ allowed ⟨x, st₂, l⟩ ∧ x.handlerPc = .done ∧
      log = log₁ ++ (l.map (Prod.mk task) ++ log₂) ∧ ∀ e ∈ log₂, e.1 ∈ after := by
  induction h generalizing after with
  | nil => exact absurd htasks.symm (by simp)
  | @snoc tasks log st₁ task' x l st₂ hbefore run hdone ih =>
    rcases List.eq_nil_or_concat after with rfl | ⟨after, last, rfl⟩
    · obtain ⟨rfl, hlast⟩ := List.append_inj' htasks rfl
      cases hlast
      exact ⟨log, st₁, x, st₂, l, [], hbefore, run, hdone, by rw [List.append_nil], nofun⟩
    · rw [List.concat_eq_append, ← List.cons_append, ← List.append_assoc] at htasks
      obtain ⟨hinit, hlast⟩ := List.append_inj' htasks rfl
      cases hlast
      obtain ⟨log₁, st₁', x', st₂', l', log₂, hsessions, run', hdone', rfl, hafter⟩ := ih hinit
      refine ⟨log₁, st₁', x', st₂', l', log₂ ++ l.map (Prod.mk task'), hsessions, run', hdone', ?_, ?_⟩
      · simp only [List.append_assoc]
      · intro e he
        rw [List.concat_eq_append]
        rcases List.mem_append.mp he with he | he
        · exact List.mem_append_left _ (hafter e he)
        · obtain ⟨a, -, rfl⟩ := List.mem_map.mp he
          simp

theorem PoolInvariant.enqueued_ordered {s : Pool ι κ} (h : PoolInvariant host allowed st s) :
    s.enqueued.Pairwise (·.ticket < ·.ticket) := by
  rw [← List.pairwise_map (R := (· < ·)), h.tickets]
  exact List.pairwise_lt_range

theorem PoolInvariant.finished_prefix {s : Pool ι κ} (h : PoolInvariant host allowed st s) :
    s.finished <+: s.enqueued := by
  by_cases hidle : s.Idle
  · exact ⟨_, (h.idle hidle).1⟩
  · obtain ⟨w, task, x, hr⟩ : ∃ w task x, s.Running w task x := by simpa [Pool.Idle] using hidle
    exact ⟨_, (h.busy w task x hr).1⟩

/-- The session of a finished task, between what was done for earlier and for later tasks. -/
theorem PoolInvariant.exists_session {s : Pool ι κ} (h : PoolInvariant host allowed st s)
    (hfinished : s.finished = before ++ task :: after) : ∃ log₁ st₁ x st₂ l log₂,
      Sessions host allowed st before log₁ st₁ ∧
      RequestRun host task.clientFd task.recvStr st₁ allowed ⟨x, st₂, l⟩ ∧ x.handlerPc = .done ∧
      s.log = log₁ ++ (l.map (Prod.mk task) ++ log₂) ∧ (∀ e ∈ log₁, e.1.ticket < task.ticket) ∧
      ∀ e ∈ log₂, task.ticket < e.1.ticket := by
  -- what is logged after the sessions belongs to the task that runs
  obtain ⟨log, later, st₁, hsessions, hlog, htasks⟩ : ∃ log later st₁,
      Sessions host allowed st s.finished log st₁ ∧ s.log = log ++ later ∧
        ∀ e ∈ later, ∀ t ∈ s.finished, t.ticket < e.1.ticket := by
    by_cases hidle : s.Idle
    · exact ⟨s.log, [], s.store, (h.idle hidle).2, by rw [List.append_nil], nofun⟩
    · obtain ⟨w, task', x, hr⟩ : ∃ w task x, s.Running w task x := by simpa [Pool.Idle] using hidle
      obtain ⟨hfifo, log, l, st₁, hsessions, -, hlog⟩ := h.busy w task' x hr
      refine ⟨log, l.map (Prod.mk task'), st₁, hsessions, hlog, fun e he t ht => ?_⟩
      obtain ⟨a, -, rfl⟩ := List.mem_map.mp he
      have htickets := h.enqueued_ordered
      rw [← hfifo] at htickets
      exact (List.pairwise_append.mp htickets).2.2 t ht task' List.mem_cons_self
  have hordered := h.enqueued_ordered.sublist h.finished_prefix.sublist
  rw [hfinished] at hordered htasks
  obtain ⟨hbefore, hafter, hcross⟩ := List.pairwise_append.mp hordered
  obtain ⟨log₁, st₁', x, st₂, l, log₂, hfirst, run, hdone, rfl, hlater⟩ :=
    hsessions.exists_session hfinished
  refine ⟨log₁, st₁', x, st₂, l, log₂ ++ later, hfirst, run, hdone, ?_, ?_, ?_⟩
  · rw [hlog]
    simp only [List.append_assoc]
  · intro e he
    exact hcross e.1 ((hfirst.log_ordered hbefore).1 e he) task List.mem_cons_self
  · intro e he
    rcases List.mem_append.mp he with he | he
    · exact (List.pairwise_cons.mp hafter).1 e.1 (hlater e he)
    · exact htasks e he task (by simp)

end Finished

section Provenance

/-- Everything received and not lost on the way to the queue satisfies `Q`. -/
structure Pool.Provenance (s : Pool ι κ) (clientFd : κ → ℤ) (Q : ℤ → Bytes → Prop) : Prop where
  enqueued : ∀ task ∈ s.enqueued, Q task.clientFd task.recvStr
  pending : ∀ c recvStr, s.clients c = .locking recvStr ∨ s.clients c = .pushing recvStr →
    Q (clientFd c) recvStr

variable {clientFd : κ → ℤ} {Q Q' : ℤ → Bytes → Prop} {s s' : Pool ι κ}

theorem provenance_start (st : Store) : (Pool.start st : Pool ι κ).Provenance clientFd Q where
  enqueued := nofun
  pending := fun c recvStr h => by simp [Pool.start] at h

theorem Pool.Provenance.mono (h : s.Provenance clientFd Q) (hQ : ∀ fd b, Q fd b → Q' fd b) :
    s.Provenance clientFd Q' :=
  ⟨fun task ht => hQ _ _ (h.enqueued task ht), fun c b hc => hQ _ _ (h.pending c b hc)⟩

variable [DecidableEq ι] [DecidableEq κ] {ev : Event κ}

theorem provenance_step (h : s.Provenance clientFd Q) (hs : PoolStep host clientFd allowed ev s s')
    (hreceived : ∀ c recvStr, ev = .received c recvStr → Q (clientFd c) recvStr) :
    s'.Provenance clientFd Q := by
  obtain ⟨henq, hpend⟩ := h
  -- one client moves on, to a place where it has the same bytes in hand or none
  have hclient : ∀ c pc, (∀ b, pc = .locking b ∨ pc = .pushing b → Q (clientFd c) b) →
      ∀ c' b, Function.update s.clients c pc c' = .locking b ∨
        Function.update s.clients c pc c' = .pushing b → Q (clientFd c') b := by
    intro c pc hpc c' b hc'
    by_cases hcc : c' = c
    · subst hcc
      exact hpc b (by simpa using hc')
    · exact hpend c' b (by simpa [Function.update_of_ne hcc] using hc')
  cases hs with
  | @receive _ c recvStr halive hpc =>
    refine ⟨henq, hclient c (.locking recvStr) fun b hb => ?_⟩
    obtain rfl : recvStr = b := by simpa using hb
    exact hreceived c recvStr rfl
  | @clientLock _ c recvStr halive hpc hmtx =>
    refine ⟨henq, hclient c (.pushing recvStr) fun b hb => ?_⟩
    obtain rfl : recvStr = b := by simpa using hb
    exact hpend c recvStr (.inl hpc)
  | @push _ c recvStr halive hpc =>
    refine ⟨?_, hclient c .unlocking fun b hb => by simp at hb⟩
    simp only [Pool.push_enqueued, Pool.setClient_enqueued, List.forall_mem_append,
      List.forall_mem_singleton]
    exact ⟨henq, hpend c recvStr (.inr hpc)⟩
  | @disconnect _ c => exact ⟨henq, hclient c .disconnected fun b hb => by simp at hb⟩
  | @clientUnlock _ c => exact ⟨henq, hclient c .notifying fun b hb => by simp at hb⟩
  | @notifyOne _ c | @notifyNone _ c =>
    exact ⟨henq, hclient c .receiving fun b hb => by simp at hb⟩
  | _ => exact ⟨henq, hpend⟩

end Provenance

section Observed

variable [DecidableEq ι] [DecidableEq κ] {clientFd : κ → ℤ} {s s' : Pool ι κ}

/-- A step that is observed belongs to a session of an enqueued task. -/
theorem PoolRun.observed {I : Store → Prop} (hI : ∀ host o st, I st → I (performOp host o st).2)
    (h : PoolRun host clientFd allowed st s) (hst : I st) {task : Task} {acts : List Action}
    (hs : PoolStep host clientFd allowed (.observed task acts) s s') :
    task ∈ s.enqueued ∧ ∃ l, SessionOf host allowed I task (l ++ acts) := by
  cases hs with
  | @run _ w _ x mv _ x' st' halive hpc hmv hstep =>
    obtain ⟨hfifo, log, l, st₁, hsessions, hrun, -⟩ := h.invariant.busy w task x hpc
    exact ⟨hfifo ▸ by simp, l, st₁, x', st', hsessions.preserves hI hst, hrun.step mv hmv hstep⟩

end Observed

section Order

/-- What a server owes its clients, over the whole of its run so far. -/
structure ServedInOrder (host : Host) (st : Store) (s : Pool ι κ) : Prop where
  numbered : s.enqueued.map Task.ticket = List.range s.enqueued.length
  one_running : ∀ w w' task task' x x', s.Running w task x → s.Running w' task' x' → w = w'
  fifo_running : ∀ w task x, s.Running w task x → s.finished ++ task :: s.taskQueue = s.enqueued
  fifo_idle : s.Idle → s.finished ++ s.taskQueue = s.enqueued
  /-- Once all requests are complete the store is that of executing them one at a time. -/
  serial : s.finished = s.enqueued →
    ∀ st', OneAtATime host st s.enqueued st' ↔ st' = s.store
  /-- Nothing is done for a request after something for a request enqueued later. -/
  replies : s.log.Pairwise fun e e' => e.1.ticket ≤ e'.1.ticket

variable [DecidableEq ι] [DecidableEq κ] {clientFd : κ → ℤ} {s : Pool ι κ}

/-- Any number of clients and workers, under any schedule: at most one request is being
handled, requests finish in the order they were enqueued, and complete runs leave the
store that handling them one after another leaves. -/
theorem requests_served_in_order (h : PoolRun host clientFd allowed st s) :
    ServedInOrder host st s where
  one_running := fun _ _ _ _ _ _ hw hw' => h.invariant.locked.running_unique hw hw'
  fifo_running := fun w task x hr => (h.invariant.busy w task x hr).1
  fifo_idle := fun hidle => (h.invariant.idle hidle).1
  numbered := h.invariant.tickets
  serial := by
    intro hall st'
    have hidle : s.Idle := by
      intro w task x hr
      have hfifo := (h.invariant.busy w task x hr).1
      rw [hall] at hfifo
      simp at hfifo
    have hserial := (h.invariant.idle hidle).2.oneAtATime
    rw [hall] at hserial
    exact ⟨fun hst' => hst'.unique hserial, fun hst' => hst' ▸ hserial⟩
  replies := h.invariant.log_ordered

end Order

/-- The sockets of two clients. -/
def twoSockets (c : Bool) : ℤ := if c then 6 else 5

/-- A SET of one client, and a GET of another one behind it. -/
def writerTask : Task := ⟨0, 5, createArrayReponse [str "SET", str "k", str "v"]⟩

def readerTask : Task := ⟨1, 6, createArrayReponse [str "GET", str "k"]⟩

/-- Two clients and one worker, when the second request begins and when it is finished. -/
theorem requests_served_in_order_of_two_clients : ∃ s s' : Pool Unit Bool,
    s.finished = [writerTask] ∧ s.Running () readerTask (readerTask.start .plain) ∧
      ServedInOrder .plain (.empty []) s ∧ s'.finished = [writerTask, readerTask] ∧
      (writerTask, .write okResponse) ∈ s'.log ∧
      (readerTask, .write (createStringReponse (str "v"))) ∈ s'.log ∧
      ServedInOrder .plain (.empty []) s' := by
  obtain ⟨tr, st, hx, hm, hover, tr', st', hx', hm', hover'⟩ : ∃ tr st,
      Handles .plain (twoSockets false) writerTask.recvStr (.empty []) tr (.ok ()) st ∧
      messages tr = [okResponse] ∧ Op.communicationOver ∈ tr ∧
      ∃ tr' st', Handles .plain (twoSockets true) readerTask.recvStr st tr' (.ok ()) st' ∧
        messages tr' = [createStringReponse (str "v")] ∧ Op.communicationOver ∈ tr' :=
    ⟨_, _, Machine.eval_sound (n := 6) rfl, by decide, by decide, _, _,
      Machine.eval_sound (n := 6) rfl, by decide, by decide⟩
  obtain ⟨l, hserved, hl⟩ := exists_served_of_one hx hm hover
  obtain ⟨l', hserved', hl'⟩ := exists_served_of_one hx' hm' hover'
  -- the first request is finished
  obtain ⟨s₁, hrun₁, hrest₁, hstore₁, hfinished₁, hlog₁⟩ : ∃ s₁ : Pool Unit Bool,
      PoolRun .plain twoSockets (Undisturbed true) (.empty []) s₁ ∧ s₁.AtRest ∧
        s₁.store = st ∧ s₁.finished = [writerTask] ∧ s₁.log = l.map (Prod.mk writerTask) :=
    exists_finished_of_served .start (atRest_start _) () false hserved
  have henq₁ := (hrun₁.finished_of_atRest hrest₁).symm.trans hfinished₁
  -- the second one begins
  have hreceived : PoolRun .plain twoSockets (Undisturbed true) (.empty [])
      (s₁.setClient true (.locking readerTask.recvStr)) :=
    hrun₁.step (.receive hrest₁.alive (hrest₁.clients true))
  obtain ⟨s, hworks, hserving, -, -, henq⟩ := hrest₁.exists_serving () true readerTask.recvStr
  rw [henq₁] at hserving henq
  have hrun := hreceived.works hworks
  have hfifo := (hrun.invariant.busy () _ _ hserving.running).1
  rw [hserving.taskQueue, henq] at hfifo
  -- or it is finished as well
  rw [← hstore₁] at hserved'
  obtain ⟨s', hrun', -, -, hfinished', hlog'⟩ := exists_finished_of_served hrun₁ hrest₁ () true hserved'
  rw [henq₁, hfinished₁] at hfinished'
  rw [henq₁, hlog₁] at hlog'
  refine ⟨s, s', (List.append_inj' hfifo rfl).1, hserving.running, requests_served_in_order hrun,
    hfinished', ?_, ?_, requests_served_in_order hrun'⟩
  · rw [hlog']
    exact List.mem_append_left _ (List.mem_map_of_mem (mem_writes_iff.mp (by simp [hl])))
  · rw [hlog']
    exact List.mem_append_right _ (List.mem_map_of_mem (mem_writes_iff.mp (by simp [hl'])))

end RedisServer.WorkerPool
