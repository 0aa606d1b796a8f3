import RedisServer.MutexOwnership
import RedisServer.ResponseExchange

/-!
# Client handlers and the pool of workers

Every client handler turns what it receives into a task, and every worker takes tasks
from one queue. Both lock `mtx`, and a worker keeps it while its task runs: the lock is
released only when the iteration of its loop ends. There may be any number of either.

`enqueued`, `finished` and `log` record the history of a run and decide nothing. An
exception in a parser thread ends the process.
-/

namespace RedisServer.WorkerPool
open ByteStrings InteractionPrograms ServerState RedisParser ResponseExchange MutexOwnership

/-- One `response_handler` call with the number it has in the order of enqueueing. -/
structure Task where
  ticket : ℕ
  clientFd : ℤ
  recvStr : Bytes
  deriving DecidableEq, Repr

/-- Where a `client_handler` thread is. -/
inductive ClientPc where
  | receiving
  | locking (recvStr : Bytes)
  | pushing (recvStr : Bytes)
  | unlocking | notifying | disconnected
  deriving DecidableEq

/-- Where a `worker_thread` is. `testing` is the predicate of its wait. -/
inductive WorkerPc where
  | locking | testing | waiting | relocking | popping
  | running (task : Task) (exchange : Exchange)
  | unlocking

def ClientPc.holds : ClientPc → Bool
  | .pushing _ | .unlocking => true
  | _ => false

def WorkerPc.holds : WorkerPc → Bool
  | .testing | .popping | .running _ _ | .unlocking => true
  | _ => false

variable {ι κ : Type}

structure Pool (ι κ : Type) where
  mtx : Option (ι ⊕ κ)
  workers : ι → WorkerPc
  clients : κ → ClientPc
  taskQueue : List Task
  store : Store
  terminated : Bool
  enqueued : List Task
  finished : List Task
  log : List (Task × Action)

/-- The server before any client has sent anything. -/
def Pool.start (st : Store) : Pool ι κ where
  mtx := none
  workers := fun _ => .locking
  clients := fun _ => .receiving
  taskQueue := []
  store := st
  terminated := false
  enqueued := []
  finished := []
  log := []

namespace Pool

@[simps] def setMtx (s : Pool ι κ) (owner : Option (ι ⊕ κ)) : Pool ι κ := { s with mtx := owner }

@[simps] def setQueue (s : Pool ι κ) (tasks : List Task) : Pool ι κ :=
  { s with taskQueue := tasks }

/-- Append a task to the queue. -/
@[simps] def push (s : Pool ι κ) (task : Task) : Pool ι κ :=
  { s with taskQueue := s.taskQueue ++ [task], enqueued := s.enqueued ++ [task] }

/-- What a step of a running task does to the rest of the server. -/
@[simps] def record (s : Pool ι κ) (task : Task) (acts : List Action) (x : Exchange) (st : Store) :
    Pool ι κ :=
  { s with
    store := st
    terminated := decide (x.parserPc = .terminated)
    log := s.log ++ acts.map (Prod.mk task) }

@[simps] def finish (s : Pool ι κ) (task : Task) : Pool ι κ :=
  { s with finished := s.finished ++ [task] }

/-- The program counters of all threads that lock `mtx`. -/
def threads (s : Pool ι κ) : ι ⊕ κ → WorkerPc ⊕ ClientPc := Sum.map s.workers s.clients

section Threads

variable (s : Pool ι κ) (owner : Option (ι ⊕ κ)) (tasks : List Task) (task : Task)
  (acts : List Action) (x : Exchange) (st : Store)

@[simp] theorem threads_setMtx : (s.setMtx owner).threads = s.threads := rfl
@[simp] theorem threads_setQueue : (s.setQueue tasks).threads = s.threads := rfl
@[simp] theorem threads_push : (s.push task).threads = s.threads := rfl
@[simp] theorem threads_record : (s.record task acts x st).threads = s.threads := rfl
@[simp] theorem threads_finish : (s.finish task).threads = s.threads := rfl

end Threads

end Pool

def threadHolds : WorkerPc ⊕ ClientPc → Bool := Sum.elim WorkerPc.holds ClientPc.holds

/-- Exactly the owner of `mtx` is where it holds the mutex. -/
def Locked (s : Pool ι κ) : Prop := Guarded threadHolds s.threads s.mtx

theorem locked_start (st : Store) : Locked (Pool.start st : Pool ι κ) := by
  intro p
  cases p <;> simp [threadHolds, Pool.threads, Pool.start, WorkerPc.holds, ClientPc.holds]

theorem Locked.worker {s : Pool ι κ} (h : Locked s) {w : ι} (hw : (s.workers w).holds = true) :
    s.mtx = some (.inl w) := (h (.inl w)).mp hw

theorem Locked.client {s : Pool ι κ} (h : Locked s) {c : κ} (hc : (s.clients c).holds = true) :
    s.mtx = some (.inr c) := (h (.inr c)).mp hc

variable [DecidableEq ι] [DecidableEq κ]

namespace Pool

@[simps] def setWorker (s : Pool ι κ) (w : ι) (pc : WorkerPc) : Pool ι κ :=
  { s with workers := Function.update s.workers w pc }

@[simps] def setClient (s : Pool ι κ) (c : κ) (pc : ClientPc) : Pool ι κ :=
  { s with clients := Function.update s.clients c pc }

@[simp] theorem threads_setWorker (s : Pool ι κ) (w : ι) (pc : WorkerPc) :
    (s.setWorker w pc).threads = Function.update s.threads (.inl w) (.inl pc) := by
  funext p
  cases p with
  | inl w' => by_cases hw : w' = w <;> simp [threads, Function.update_apply, hw]
  | inr c => simp [threads]

@[simp] theorem threads_setClient (s : Pool ι κ) (c : κ) (pc : ClientPc) :
    (s.setClient c pc).threads = Function.update s.threads (.inr c) (.inr pc) := by
  funext p
  cases p with
  | inl w => simp [threads]
  | inr c' => by_cases hc : c' = c <;> simp [threads, Function.update_apply, hc]

end Pool

/-- The request handled in a task. -/
abbrev Task.parser (host : Host) (task : Task) : Machine parserSignature Store :=
  RedisParser.parser host task.clientFd task.recvStr

/-- `response_handler` at the beginning of a task. -/
def Task.start (host : Host) (task : Task) : Exchange :=
  .start (parseRESPCommand host task.clientFd task.recvStr 0)

/-- What the rest of the world sees of a step: bytes that a client handler receives, or
what the task that runs does. -/
inductive Event (κ : Type) where
  | received (c : κ) (recvStr : Bytes)
  | observed (task : Task) (acts : List Action)
  | internal

/-- One step of a client handler, a worker or the task that runs. -/
inductive PoolStep (host : Host) (clientFd : κ → ℤ) (allowed : Exchange → Move → Prop) :
    Event κ → Pool ι κ → Pool ι κ → Prop where
  | receive {s c recvStr} (halive : s.terminated = false) (hpc : s.clients c = .receiving) :
      PoolStep host clientFd allowed (.received c recvStr) s (s.setClient c (.locking recvStr))
  | disconnect {s c} (halive : s.terminated = false) (hpc : s.clients c = .receiving) :
      PoolStep host clientFd allowed .internal s (s.setClient c .disconnected)
  | clientLock {s c recvStr} (halive : s.terminated = false) (hpc : s.clients c = .locking recvStr)
      (hmtx : s.mtx = none) :
      PoolStep host clientFd allowed .internal s ((s.setClient c (.pushing recvStr)).setMtx (some (.inr c)))
  | push {s c recvStr} (halive : s.terminated = false) (hpc : s.clients c = .pushing recvStr) :
      PoolStep host clientFd allowed .internal s
        ((s.setClient c .unlocking).push ⟨s.enqueued.length, clientFd c, recvStr⟩)
  | clientUnlock {s c} (halive : s.terminated = false) (hpc : s.clients c = .unlocking) :
      PoolStep host clientFd allowed .internal s ((s.setClient c .notifying).setMtx none)
  | notifyOne {s c w} (halive : s.terminated = false) (hpc : s.clients c = .notifying)
      (hw : s.workers w = .waiting) :
      PoolStep host clientFd allowed .internal s ((s.setClient c .receiving).setWorker w .relocking)
  | notifyNone {s c} (halive : s.terminated = false) (hpc : s.clients c = .notifying)
      (hw : ∀ w, s.workers w ≠ .waiting) :
      PoolStep host clientFd allowed .internal s (s.setClient c .receiving)
  | workerLock {s w} (halive : s.terminated = false) (hpc : s.workers w = .locking)
      (hmtx : s.mtx = none) :
      PoolStep host clientFd allowed .internal s ((s.setWorker w .testing).setMtx (some (.inl w)))
  | wait {s w} (halive : s.terminated = false) (hpc : s.workers w = .testing)
      (hqueue : s.taskQueue = []) :
      PoolStep host clientFd allowed .internal s ((s.setWorker w .waiting).setMtx none)
  | spurious {s w} (halive : s.terminated = false) (hpc : s.workers w = .waiting) :
      PoolStep host clientFd allowed .internal s (s.setWorker w .relocking)
  | relock {s w} (halive : s.terminated = false) (hpc : s.workers w = .relocking)
      (hmtx : s.mtx = none) :
      PoolStep host clientFd allowed .internal s ((s.setWorker w .testing).setMtx (some (.inl w)))
  | tested {s w} (halive : s.terminated = false) (hpc : s.workers w = .testing)
      (hqueue : s.taskQueue ≠ []) : PoolStep host clientFd allowed .internal s (s.setWorker w .popping)
  | pop {s w task tasks} (halive : s.terminated = false) (hpc : s.workers w = .popping)
      (hqueue : s.taskQueue = task :: tasks) :
      PoolStep host clientFd allowed .internal s
        ((s.setWorker w (.running task (task.start host))).setQueue tasks)
  | noTask {s w} (halive : s.terminated = false) (hpc : s.workers w = .popping)
      (hqueue : s.taskQueue = []) : PoolStep host clientFd allowed .internal s (s.setWorker w .unlocking)
  | run {s w task x mv acts x' st'} (halive : s.terminated = false)
      (hpc : s.workers w = .running task x) (hmv : allowed x mv)
      (hstep : Step (task.parser host) mv x s.store acts x' st') :
      PoolStep host clientFd allowed (.observed task acts) s
        ((s.setWorker w (.running task x')).record task acts x' st')
  | finish {s w task x} (halive : s.terminated = false) (hpc : s.workers w = .running task x)
      (hdone : x.handlerPc = .done) :
      PoolStep host clientFd allowed .internal s ((s.setWorker w .unlocking).finish task)
  | workerUnlock {s w} (halive : s.terminated = false) (hpc : s.workers w = .unlocking) :
      PoolStep host clientFd allowed .internal s ((s.setWorker w .locking).setMtx none)

/-- The states of a server that starts with the store `st`. -/
inductive PoolRun (host : Host) (clientFd : κ → ℤ) (allowed : Exchange → Move → Prop) (st : Store) :
    Pool ι κ → Prop where
  | start : PoolRun host clientFd allowed st (.start st)
  | step {s s' ev} (h : PoolRun host clientFd allowed st s)
      (hs : PoolStep host clientFd allowed ev s s') : PoolRun host clientFd allowed st s'

variable {host : Host} {clientFd : κ → ℤ} {allowed : Exchange → Move → Prop} {s s' : Pool ι κ}
  {st : Store} {ev : Event κ}

theorem locked_step (h : Locked s) (hs : PoolStep host clientFd allowed ev s s') : Locked s' := by
  have hrelease : ∀ {p v}, s.mtx = some p → threadHolds v = false →
      Guarded threadHolds (Function.update s.threads p v) none := fun hmtx hv =>
    Guarded.release (hmtx ▸ h) hv
  have hacquire : ∀ {p v}, s.mtx = none → threadHolds v = true →
      Guarded threadHolds (Function.update s.threads p v) (some p) := fun hmtx hv =>
    Guarded.acquire (hmtx ▸ h) hv
  have hworker : ∀ {w pc}, pc.holds = (s.workers w).holds →
      Guarded threadHolds (Function.update s.threads (.inl w) (.inl pc)) s.mtx := fun hv =>
    Guarded.keep h hv
  have hclient : ∀ {c pc}, pc.holds = (s.clients c).holds →
      Guarded threadHolds (Function.update s.threads (.inr c) (.inr pc)) s.mtx := fun hv =>
    Guarded.keep h hv
  unfold Locked
  cases hs with
  | receive halive hpc => simpa using hclient (by rw [hpc]; rfl)
  | disconnect halive hpc => simpa using hclient (by rw [hpc]; rfl)
  | clientLock halive hpc hmtx => simpa using hacquire hmtx rfl
  | push halive hpc => simpa using hclient (by rw [hpc]; rfl)
  | clientUnlock halive hpc => simpa using hrelease (h.client (by rw [hpc]; rfl)) rfl
  | @notifyOne _ c w halive hpc hw =>
    have hfirst : Guarded threadHolds (Function.update s.threads (.inr c) (.inr .receiving)) s.mtx :=
      hclient (by rw [hpc]; rfl)
    have hheld : threadHolds (s.threads (.inl w)) = false := by
      change (s.workers w).holds = false
      rw [hw]
      rfl
    have hsame : threadHolds (.inl .relocking) =
        threadHolds (Function.update s.threads (.inr c) (.inr .receiving) (.inl w)) := by
      rw [Function.update_of_ne (by simp), hheld]
      rfl
    simpa using hfirst.keep hsame
  | notifyNone halive hpc hw => simpa using hclient (by rw [hpc]; rfl)
  | workerLock halive hpc hmtx => simpa using hacquire hmtx rfl
  | wait halive hpc hqueue => simpa using hrelease (h.worker (by rw [hpc]; rfl)) rfl
  | spurious halive hpc => simpa using hworker (by rw [hpc]; rfl)
  | relock halive hpc hmtx => simpa using hacquire hmtx rfl
  | tested halive hpc hqueue => simpa using hworker (by rw [hpc]; rfl)
  | pop halive hpc hqueue => simpa using hworker (by rw [hpc]; rfl)
  | noTask halive hpc hqueue => simpa using hworker (by rw [hpc]; rfl)
  | run halive hpc hmv hstep => simpa using hworker (by rw [hpc]; rfl)
  | finish halive hpc hdone => simpa using hworker (by rw [hpc]; rfl)
  | workerUnlock halive hpc => simpa using hrelease (h.worker (by rw [hpc]; rfl)) rfl

end RedisServer.WorkerPool
