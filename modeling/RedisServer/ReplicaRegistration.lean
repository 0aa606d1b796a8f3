import RedisServer.RequestRuns

/-!
# Registered replicas

A master keeps the number of its replicas and the list of their sockets in two fields,
which PSYNC updates together. While they agree, the propagation loop visits every
registered socket once for each PSYNC it sent, and never reads past the list.
-/

namespace RedisServer.ReplicaRegistration
open ByteStrings CxxStrings InteractionPrograms ServerState Utils RedisParser RequestChain RequestRuns

/-- A master whose replicas listen on the sockets `fds`. -/
structure Registered (info : ServerInfo) (fds : List ℤ) : Prop where
  role : info.role = str "master"
  connectedSlaves : info.connectedSlaves = fds.length
  connectedSlavesFd : info.connectedSlavesFd = fds

theorem registered_empty (fds : List ℤ) : Registered (Store.empty fds).serverInfo fds :=
  ⟨rfl, rfl, rfl⟩

/-- The server info after a PSYNC on the socket `fd`. -/
def register (fd : ℤ) (info : ServerInfo) : ServerInfo :=
  { info with
    connectedSlaves := info.connectedSlaves + 1
    connectedSlavesFd := info.connectedSlavesFd ++ [fd] }

variable {host : Host} {clientFd : ℤ} {input : Bytes} {st : Store} {info : ServerInfo} {fds : List ℤ}

theorem Registered.register (h : Registered info fds) (fd : ℤ) :
    Registered (register fd info) (fds ++ [fd]) where
  role := h.role
  connectedSlaves := by simp [ReplicaRegistration.register, h.connectedSlaves]
  connectedSlavesFd := by simp [ReplicaRegistration.register, h.connectedSlavesFd]

/-- The propagation loop visits the registered sockets in the order of registration. -/
theorem Registered.targets (h : Registered info fds) : targets host info = fds := by
  rw [RequestRuns.targets, if_pos h.role, slaveFds, h.connectedSlaves, h.connectedSlavesFd,
    Int.toNat_natCast]
  apply List.ext_getElem (by simp)
  intro i hi hi'
  simp [List.getD_eq_getElem?_getD, List.getElem?_eq_getElem hi']

theorem targets_of_slave (h : info.role = str "slave") : targets host info = [] := by
  rw [targets, h, if_neg (by decide)]

/-- PSYNC on a master registers its socket and passes the resync messages. -/
theorem exec_parsePSYNCCommand (hrole : st.serverInfo.role = str "master") :
    Exec (parser host clientFd input) (parsePSYNCCommand host clientFd) st
      [.serverInfo, .serverInfo, .updateConnectedSlaves (st.serverInfo.connectedSlaves + 1),
        .addConnectedSlave clientFd, .serverInfo,
        .enqueueMessage (fullResyncMessage st.serverInfo.masterReplid),
        .enqueueMessage (rdbMessage host), .communicationOver]
      (.ok ()) (st.setServerInfo (register clientFd st.serverInfo)) := by
  apply (exec_getInfo _).bind
  rw [if_pos hrole]
  exact .op (.op (.op (.op (.op (.op (.op (.pure _ _)))))))

/-- PSYNC on a server with another role only passes the resync messages. -/
theorem exec_parsePSYNCCommand_of_ne (hrole : st.serverInfo.role ≠ str "master") :
    Exec (parser host clientFd input) (parsePSYNCCommand host clientFd) st
      [.serverInfo, .serverInfo, .enqueueMessage (fullResyncMessage st.serverInfo.masterReplid),
        .enqueueMessage (rdbMessage host), .communicationOver] (.ok ()) st := by
  apply (exec_getInfo _).bind
  rw [if_neg hrole]
  exact .op (.op (.op (.op (.pure _ _))))

end RedisServer.ReplicaRegistration
