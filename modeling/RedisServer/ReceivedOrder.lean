import RedisServer.WorkerPool

/-!
# The order in which a server receives

Every client handler turns what it receives into tasks in the order of receipt. At any moment
the tasks of a client and what its handler has in hand are all that it has received.
-/

namespace RedisServer.WorkerPool
open ByteStrings ServerState RedisParser ResponseExchange

/-- What a client handler has received and not yet enqueued. -/
def ClientPc.inHand : ClientPc → List Bytes
  | .locking recvStr | .pushing recvStr => [recvStr]
  | _ => []

/-- What a client handler receives in a step. -/
def Event.received? {κ : Type} [DecidableEq κ] (c : κ) : Event κ → List Bytes
  | .received c' recvStr => if c' = c then [recvStr] else []
  | _ => []

/-- What a step adds to the log. -/
def Event.logged {κ : Type} : Event κ → List (Task × Action)
  | .observed task acts => acts.map (Prod.mk task)
  | _ => []

variable {ι κ : Type} {host : Host} {clientFd : κ → ℤ} {allowed : Exchange → Move → Prop}
  {s s' : Pool ι κ} {c c' : κ}

def Pool.enqueuedFor (s : Pool ι κ) (fd : ℤ) : List Bytes :=
  (s.enqueued.filter fun task => task.clientFd = fd).map Task.recvStr

def Pool.receivedFrom (s : Pool ι κ) (clientFd : κ → ℤ) (c : κ) : List Bytes :=
  s.enqueuedFor (clientFd c) ++ (s.clients c).inHand

theorem Pool.enqueuedFor_push (s : Pool ι κ) (task : Task) (fd : ℤ) :
    (s.push task).enqueuedFor fd =
      s.enqueuedFor fd ++ if task.clientFd = fd then [task.recvStr] else [] := by
  unfold enqueuedFor
  rw [Pool.push_enqueued, List.filter_append, List.map_append]
  congr 1
  split
  · next h => simp [h]
  · next h => simp [h]

section Steps

variable [DecidableEq κ] {ev : Event κ}

/-- One client handler moves on with the same bytes in hand. -/
theorem receivedFrom_of_update (c' : κ) (pc : ClientPc) (henq : s'.enqueued = s.enqueued)
    (hclients : s'.clients = Function.update s.clients c' pc)
    (hpc : pc.inHand = (s.clients c').inHand) (c : κ) :
    s'.receivedFrom clientFd c
      = s.receivedFrom clientFd c ++ (Event.internal : Event κ).received? c := by
  have hhand : (s'.clients c).inHand = (s.clients c).inHand := by
    rw [hclients]
    by_cases hc : c = c'
    · subst hc
      rw [Function.update_self, hpc]
    · rw [Function.update_of_ne hc]
  refine Eq.trans ?_ (List.append_nil _).symm
  rw [Pool.receivedFrom, Pool.receivedFrom, Pool.enqueuedFor, Pool.enqueuedFor, henq, hhand]

variable [DecidableEq ι]

/-- Nothing received is lost, repeated or overtaken on the way to the queue. -/
theorem receivedFrom_step (hfd : Function.Injective clientFd)
    (hs : PoolStep host clientFd allowed ev s s') (c : κ) :
    s'.receivedFrom clientFd c = s.receivedFrom clientFd c ++ ev.received? c := by
  cases hs with
  | @receive _ c' recvStr halive hpc =>
    have henq : (s.setClient c' (.locking recvStr)).enqueuedFor (clientFd c)
      = s.enqueuedFor (clientFd c) := rfl
    unfold Pool.receivedFrom Event.received?
    rw [henq, List.append_assoc]
    congr 1
    by_cases hc : c' = c
    · subst hc
      simp [hpc, ClientPc.inHand]
    · simp [Function.update_of_ne (Ne.symm hc), hc]
  | @push _ c' recvStr halive hpc =>
    have henq : (s.setClient c' .unlocking).enqueuedFor (clientFd c)
      = s.enqueuedFor (clientFd c) := rfl
    change _ = _ ++ []
    unfold Pool.receivedFrom
    rw [Pool.enqueuedFor_push, henq, List.append_assoc, List.append_assoc]
    congr 1
    by_cases hc : c' = c
    · subst hc
      simp [hpc, ClientPc.inHand]
    · have hne : clientFd c' ≠ clientFd c := hfd.ne hc
      simp [hne, Function.update_of_ne (Ne.symm hc)]
  | @disconnect _ c' halive hpc =>
    exact receivedFrom_of_update c' .disconnected (by rfl) (by rfl) (by rw [hpc]; rfl) c
  | @clientLock _ c' recvStr halive hpc hmtx =>
    exact receivedFrom_of_update c' (.pushing recvStr) (by rfl) (by rfl) (by rw [hpc]; rfl) c
  | @clientUnlock _ c' halive hpc =>
    exact receivedFrom_of_update c' .notifying (by rfl) (by rfl) (by rw [hpc]; rfl) c
  | @notifyOne _ c' w halive hpc hw =>
    exact receivedFrom_of_update c' .receiving (by rfl) (by rfl) (by rw [hpc]; rfl) c
  | @notifyNone _ c' halive hpc hw =>
    exact receivedFrom_of_update c' .receiving (by rfl) (by rfl) (by rw [hpc]; rfl) c
  | _ => exact (List.append_nil _).symm

theorem log_step (hs : PoolStep host clientFd allowed ev s s') : s'.log = s.log ++ ev.logged := by
  cases hs with
  | run => rfl
  | _ => exact (List.append_nil _).symm

end Steps

end RedisServer.WorkerPool
