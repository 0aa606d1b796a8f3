import RedisServer.ResyncOrdering
import RedisServer.SplitRequests

/-!
# A master, a replica and the socket between them

A master and one of its replicas, each a pool of workers with its own clients. The socket
between them carries propagated buffers and the replies of the master one way, and the
handshake and the replies of the replica the other way.
-/

namespace RedisServer.ReplicationLink
open ByteStrings CxxStrings RespGrammar InteractionPrograms ServerState Utils RedisParser
open ResponseExchange ServedRequests WorkerPool SplitRequests ResyncOrdering

/-- The messages of `send_handshake`, in order. -/
def handshake (port : Int32) : List Bytes :=
  [str "*1\r\n$4\r\nPING\r\n",
    str "*3\r\n$8\r\nREPLCONF\r\n$14\r\nlistening-port\r\n$4\r\n" ++ intToString port.toInt ++
      str "\r\n",
    str "*3\r\n$8\r\nREPLCONF\r\n$4\r\ncapa\r\n$6\r\npsync2\r\n",
    str "*3\r\n$5\r\nPSYNC\r\n$1\r\n?\r\n$2\r\n-1\r\n"]

/-- Two servers, the sockets of their connections, and on either side the connection
between the two. -/
structure Deployment (κ κ' : Type) where
  hostM : Host
  hostR : Host
  socketM : κ → ℤ
  socketR : κ' → ℤ
  socketM_injective : Function.Injective socketM
  socketR_injective : Function.Injective socketR
  linkM : κ
  linkR : κ'
  /-- The port of the replica. -/
  port : Int32

inductive Origin where
  | handshake
  | reply
  deriving DecidableEq, Repr

/-- The two servers and what is on the way between them. `requests` and `delivered` record
what the master has received from its clients and from the replica, and decide nothing. -/
structure System (ι ι' κ κ' : Type) where
  master : Pool ι κ
  replica : Pool ι' κ'
  /-- What `send_handshake` has still to send. -/
  greetings : List Bytes
  toReplica : List Bytes
  toMaster : List (Origin × Bytes)
  requests : List (κ × Bytes)
  delivered : List (Origin × Bytes)

variable {ι ι' κ κ' : Type}

def System.start (d : Deployment κ κ') (stM stR : Store) : System ι ι' κ κ' where
  master := .start stM
  replica := .start stR
  greetings := handshake d.port
  toReplica := []
  toMaster := []
  requests := []
  delivered := []

section Steps

variable [DecidableEq ι] [DecidableEq ι'] [DecidableEq κ] [DecidableEq κ']

/-- One step of either server or of the socket between them. What one `send` writes arrives
as one `recv`. -/
inductive SystemStep (d : Deployment κ κ') : System ι ι' κ κ' → System ι ι' κ κ' → Prop where
  | request {s c m master} (hc : c ≠ d.linkM)
      (hs : PoolStep d.hostM d.socketM FullSends (.received c (recvStr m)) s.master master) :
      SystemStep d s { s with master := master, requests := s.requests ++ [(c, m)] }
  | replicaRequest {s c m replica} (hc : c ≠ d.linkR)
      (hs : PoolStep d.hostR d.socketR FullSends (.received c (recvStr m)) s.replica replica) :
      SystemStep d s { s with replica := replica }
  | greet {s m ms} (hgreetings : s.greetings = m :: ms) :
      SystemStep d s { s with greetings := ms, toMaster := s.toMaster ++ [(.handshake, m)] }
  | deliverToMaster {s e es master} (hchannel : s.toMaster = e :: es)
      (hs : PoolStep d.hostM d.socketM FullSends (.received d.linkM (recvStr e.2)) s.master master) :
      SystemStep d s { s with master := master, toMaster := es, delivered := s.delivered ++ [e] }
  | deliverToReplica {s m ms replica} (hchannel : s.toReplica = m :: ms)
      (hs : PoolStep d.hostR d.socketR FullSends (.received d.linkR (recvStr m)) s.replica replica) :
      SystemStep d s { s with replica := replica, toReplica := ms }
  | master {s task acts master}
      (hs : PoolStep d.hostM d.socketM FullSends (.observed task acts) s.master master) :
      SystemStep d s
        { s with
          master := master
          toReplica := s.toReplica ++ traffic (d.socketM d.linkM) task.clientFd acts }
  | replica {s task acts replica}
      (hs : PoolStep d.hostR d.socketR FullSends (.observed task acts) s.replica replica) :
      SystemStep d s
        { s with
          replica := replica
          toMaster := s.toMaster ++
            (traffic (d.socketR d.linkR) task.clientFd acts).map (Prod.mk .reply) }
  | masterInternal {s master} (hs : PoolStep d.hostM d.socketM FullSends .internal s.master master) :
      SystemStep d s { s with master := master }
  | replicaInternal {s replica}
      (hs : PoolStep d.hostR d.socketR FullSends .internal s.replica replica) :
      SystemStep d s { s with replica := replica }

/-- The states of a master that starts with the store `stM` and a replica that starts with
the store `stR`. -/
inductive SystemRun (d : Deployment κ κ') (stM stR : Store) : System ι ι' κ κ' → Prop where
  | start : SystemRun d stM stR (.start d stM stR)
  | step {s s'} (h : SystemRun d stM stR s) (hs : SystemStep d s s') : SystemRun d stM stR s'

variable {d : Deployment κ κ'} {stM stR : Store} {s s' : System ι ι' κ κ'}

theorem SystemRun.master (h : SystemRun d stM stR s) :
    PoolRun d.hostM d.socketM FullSends stM s.master := by
  induction h with
  | start => exact .start
  | step _ hs ih =>
    cases hs with
    | request hc hs => exact ih.step hs
    | deliverToMaster hchannel hs => exact ih.step hs
    | master hs => exact ih.step hs
    | masterInternal hs => exact ih.step hs
    | _ => exact ih

theorem SystemRun.replica (h : SystemRun d stM stR s) :
    PoolRun d.hostR d.socketR FullSends stR s.replica := by
  induction h with
  | start => exact .start
  | step _ hs ih =>
    cases hs with
    | replicaRequest hc hs => exact ih.step hs
    | deliverToReplica hchannel hs => exact ih.step hs
    | replica hs => exact ih.step hs
    | replicaInternal hs => exact ih.step hs
    | _ => exact ih

theorem SystemRun.masterWorks {log : List (Task × Action)} {master : Pool ι κ}
    (h : SystemRun d stM stR s) (hworks : Works d.hostM d.socketM FullSends s.master log master) :
    SystemRun d stM stR
      { s with
        master := master
        toReplica := s.toReplica ++ trafficTo (d.socketM d.linkM) log } := by
  induction hworks with
  | refl => simpa [trafficTo] using h
  | internal _ hs ih => exact ih.step (.masterInternal hs)
  | observed _ hs ih =>
    rw [trafficTo_append, trafficTo_session, ← List.append_assoc]
    exact ih.step (.master hs)

theorem SystemRun.replicaWorks {log : List (Task × Action)} {replica : Pool ι' κ'}
    (h : SystemRun d stM stR s) (hworks : Works d.hostR d.socketR FullSends s.replica log replica) :
    SystemRun d stM stR
      { s with
        replica := replica
        toMaster := s.toMaster ++ (trafficTo (d.socketR d.linkR) log).map (Prod.mk .reply) } := by
  induction hworks with
  | refl => simpa [trafficTo] using h
  | internal _ hs ih => exact ih.step (.replicaInternal hs)
  | observed _ hs ih =>
    rw [trafficTo_append, trafficTo_session, List.map_append, ← List.append_assoc]
    exact ih.step (.replica hs)

section Serving

variable {l : List Action} {st : Store}

/-- The master at rest serves a request of a client. -/
theorem SystemRun.exists_request {c : κ} {m : Bytes} (h : SystemRun d stM stR s)
    (hrest : s.master.AtRest) (w : ι) (hc : c ≠ d.linkM)
    (hserved : Served d.hostM (d.socketM c) (recvStr m) s.master.store FullSends l st) :
    ∃ master : Pool ι κ, master.AtRest ∧ master.store = st ∧ SystemRun d stM stR
      { s with
        master := master
        toReplica := s.toReplica ++ traffic (d.socketM d.linkM) (d.socketM c) l
        requests := s.requests ++ [(c, m)] } := by
  have hreceived := h.step (.request (m := m) hc (.receive hrest.alive (hrest.clients c)))
  obtain ⟨master, hworks, hrest', hstore, -⟩ := exists_works_of_served hrest w hserved
  have hrun := hreceived.masterWorks hworks
  rw [trafficTo_session] at hrun
  exact ⟨master, hrest', hstore, hrun⟩

/-- The master at rest serves what the replica has written. -/
theorem SystemRun.exists_deliverToMaster {e : Origin × Bytes} {es : List (Origin × Bytes)}
    (h : SystemRun d stM stR s) (hrest : s.master.AtRest) (w : ι) (hchannel : s.toMaster = e :: es)
    (hserved : Served d.hostM (d.socketM d.linkM) (recvStr e.2) s.master.store FullSends l st) :
    ∃ master : Pool ι κ, master.AtRest ∧ master.store = st ∧ SystemRun d stM stR
      { s with
        master := master
        toReplica := s.toReplica ++ traffic (d.socketM d.linkM) (d.socketM d.linkM) l
        toMaster := es
        delivered := s.delivered ++ [e] } := by
  have hreceived :=
    h.step (.deliverToMaster hchannel (.receive hrest.alive (hrest.clients d.linkM)))
  obtain ⟨master, hworks, hrest', hstore, -⟩ := exists_works_of_served hrest w hserved
  have hrun := hreceived.masterWorks hworks
  rw [trafficTo_session] at hrun
  exact ⟨master, hrest', hstore, hrun⟩

/-- The replica at rest serves what the master has written. -/
theorem SystemRun.exists_deliverToReplica {m : Bytes} {ms : List Bytes}
    (h : SystemRun d stM stR s) (hrest : s.replica.AtRest) (w : ι') (hchannel : s.toReplica = m :: ms)
    (hserved : Served d.hostR (d.socketR d.linkR) (recvStr m) s.replica.store FullSends l st) :
    ∃ replica : Pool ι' κ', replica.AtRest ∧ replica.store = st ∧ SystemRun d stM stR
      { s with
        replica := replica
        toReplica := ms
        toMaster := s.toMaster ++
          (traffic (d.socketR d.linkR) (d.socketR d.linkR) l).map (Prod.mk .reply) } := by
  have hreceived :=
    h.step (.deliverToReplica hchannel (.receive hrest.alive (hrest.clients d.linkR)))
  obtain ⟨replica, hworks, hrest', hstore, -⟩ := exists_works_of_served hrest w hserved
  have hrun := hreceived.replicaWorks hworks
  rw [trafficTo_session] at hrun
  exact ⟨replica, hrest', hstore, hrun⟩

end Serving

end Steps

end RedisServer.ReplicationLink
