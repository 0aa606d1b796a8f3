import RedisServer.KeysPatterns
import RedisServer.Linearization
import RedisServer.RequestFrames

/-!
# What a server says about its replicas

INFO reports the number of replicas and the replication id, and PSYNC answers with the same id. In
every run the number is that of the requests that have reached a PSYNC, also one behind SETs in a
pipeline, and everything else stays as it was at the start.
-/

namespace RedisServer.ReplicationInfo
open ByteStrings CxxStrings InteractionPrograms ServerState Utils RedisParser ParserDiscipline
open RequestChain RequestRuns CommandRuns RequestDecoding ReplicaRegistration RequestFrames
open KeysPatterns ResponseExchange ServedRequests WorkerPool Linearization

/-- The text that INFO shows about replication. -/
def replicationInfo (info : ServerInfo) : Bytes :=
  str "role:" ++ info.role ++ str "\r" ++
  str "connected_slaves:" ++ intToString info.connectedSlaves ++ str "\r" ++
  str "master_replid:" ++ info.masterReplid ++ str "\r" ++
  str "master_repl_offset:" ++ intToString info.masterReplOffset ++ str "\r" ++
  str "second_repl_offset:" ++ intToString info.secondReplOffset ++ str "\r" ++
  str "repl_backlog_active:" ++ intToString info.replBacklogActive ++ str "\r" ++
  str "repl_backlog_size:" ++ intToString info.replBacklogSize ++ str "\r" ++
  str "repl_backlog_first_byte_offset:" ++ intToString info.replBacklogFirstByteOffset ++ str "\r" ++
  str "repl_backlog_histlen:" ++ intToString info.replBacklogHistlen ++ str "\r"

/-- The commands from `pos` on reach a PSYNC. -/
def ReachesPsync (host : Host) (input : Bytes) (pos : ℕ) : Prop :=
  ∃ last, Relation.ReflTransGen (Next host input) pos last ∧
    ∃ n p, CommandAt host input last n (str "PSYNC") p

open scoped Classical in
/-- The sockets of the tasks that reach a PSYNC, in order. -/
noncomputable def psyncFds (host : Host) (tasks : List Task) : List ℤ :=
  (tasks.filter fun task => ReachesPsync host task.recvStr 0).map Task.clientFd

/-- The server info after PSYNCs on the sockets `fds`. Only a master takes note of them. -/
def withReplicas (fds : List ℤ) (info : ServerInfo) : ServerInfo :=
  if info.role = str "master" then
    { info with
      connectedSlaves := info.connectedSlaves + fds.length
      connectedSlavesFd := info.connectedSlavesFd ++ fds }
  else info

section Infos

variable {info : ServerInfo} {fds fds' : List ℤ}

@[simp] theorem withReplicas_nil : withReplicas [] info = info := by
  unfold withReplicas
  split <;> simp

@[simp] theorem role_withReplicas : (withReplicas fds info).role = info.role := by
  unfold withReplicas
  split <;> rfl

@[simp] theorem masterReplid_withReplicas : (withReplicas fds info).masterReplid = info.masterReplid := by
  unfold withReplicas
  split <;> rfl

theorem withReplicas_append :
    withReplicas (fds ++ fds') info = withReplicas fds' (withReplicas fds info) := by
  by_cases hrole : info.role = str "master"
  · simp [withReplicas, hrole, add_assoc]
  · simp [withReplicas, hrole]

end Infos

section Requests

variable {host : Host} {clientFd : ℤ} {input b topic : Bytes} {pos next p : ℕ} {n : ℤ} {name : Bytes}
  {st st' : Store} {es : List Execution}

theorem reachesPsync_of_next (h : Next host input pos next) :
    ReachesPsync host input pos ↔ ReachesPsync host input next := by
  constructor
  · rintro ⟨last, hchain, n, p, hcmd⟩
    rcases hchain.cases_head with rfl | ⟨next', hnext', hchain⟩
    · obtain ⟨⟨_, _, _, _, _, hset, -⟩, -⟩ := h
      exact absurd (hset.unique hcmd).2.1 (by decide)
    · obtain rfl : next = next' := by
        obtain ⟨⟨_, _, _, hset⟩, -⟩ := h
        obtain ⟨⟨_, _, _, hset'⟩, -⟩ := hnext'
        exact (hset.unique hset').2.2.2
      exact ⟨last, hchain, n, p, hcmd⟩
  · rintro ⟨last, hchain, hcmd⟩
    exact ⟨last, hchain.head h, hcmd⟩

/-- A command that is not handed on is itself the PSYNC or there is none. -/
theorem reachesPsync_of_last (hcmd : CommandAt host input pos n name p)
    (hlast : ∀ next, ¬ Next host input pos next) :
    ReachesPsync host input pos ↔ name = str "PSYNC" := by
  constructor
  · rintro ⟨last, hchain, n', p', hcmd'⟩
    rcases hchain.cases_head with rfl | ⟨next', hnext', -⟩
    · exact (hcmd.unique hcmd').2.1
    · exact absurd hnext' (hlast _)
  · rintro rfl
    exact ⟨pos, .refl, n, p, hcmd⟩

/-- The commands of a buffer register its socket if they reach a PSYNC, and else change nothing. -/
theorem serverInfo_of_executes (h : Executes host clientFd input pos st es st') :
    (ReachesPsync host input pos → st'.serverInfo = withReplicas [clientFd] st.serverInfo) ∧
      (¬ ReachesPsync host input pos → st'.serverInfo = st.serverInfo) := by
  induction h with
  | @stray pos st hstar =>
    refine ⟨?_, fun _ => rfl⟩
    rintro ⟨last, hchain, n, p, hcmd⟩
    rcases hchain.cases_head with rfl | ⟨next, ⟨⟨_, _, _, _, _, hset, -⟩, -⟩, -⟩
    · exact absurd hcmd.1 hstar
    · exact absurd hset.1 hstar
  | @command pos n name p st tr st' hcmd hname hx =>
    have hlast : ∀ next, ¬ Next host input pos next := by
      rintro next ⟨⟨_, _, _, _, _, hset, -⟩, -⟩
      exact hname (hcmd.unique hset).2.1
    rw [reachesPsync_of_last hcmd hlast]
    constructor
    · rintro rfl
      unfold withReplicas
      by_cases hrole : st.serverInfo.role = str "master"
      · obtain ⟨-, -, rfl⟩ := hx.deterministic (exec_parsePSYNCCommand hrole)
        rw [if_pos hrole]
        rfl
      · obtain ⟨-, -, rfl⟩ := hx.deterministic (exec_parsePSYNCCommand_of_ne hrole)
        rw [if_neg hrole]
    · intro hpsync
      have hframed := framed_dispatch hname hx
      rcases hframed.replicas with ⟨hcount, hfds⟩ | ⟨⟨e, he, hpsync', -⟩, -⟩
      · rw [hframed.others, hcount, hfds]
      · rw [List.mem_singleton.mp he] at hpsync'
        exact absurd hpsync' hpsync
  | @lastSet pos n p k v px next st hcmd hargs hnext =>
    have hlast : ∀ next, ¬ Next host input pos next := by
      rintro next' ⟨⟨_, _, _, hset⟩, hstar⟩
      obtain ⟨-, -, -, rfl⟩ := SetAt.unique ⟨n, p, hcmd, hargs⟩ hset
      exact hnext hstar
    rw [reachesPsync_of_last hcmd hlast]
    exact ⟨fun heq => absurd heq (by decide), fun _ => rfl⟩
  | @set pos n p k v px next st es st' hcmd hargs hnext rest ih =>
    rw [reachesPsync_of_next ⟨⟨k, v, px, n, p, hcmd, hargs⟩, hnext⟩]
    exact ih

theorem handles_info (hb : CommandWith (str "INFO") topic b)
    (htopic : topic.map toUpper = str "REPLICATION") (st : Store) : ∃ tr,
    Handles host clientFd b st tr (.ok ()) st ∧
      messages tr = [createStringReponse (replicationInfo st.serverInfo)] := by
  obtain ⟨n, p, next, hcmd, hk⟩ := hb.exists_bulkAt host
  obtain ⟨reads, hreads, hbulk⟩ : Decodes (parser host clientFd b) (parseBulkString b p) st _ :=
    decodes_parseBulkString hk
  have hrun : Exec (parser host clientFd b) (parseINFOCommand b p) st
      (reads ++ (List.replicate 9 .serverInfo ++
        [.enqueueMessage (createStringReponse (replicationInfo st.serverInfo)), .communicationOver]))
      (.ok ()) st := by
    refine hbulk.bind ?_
    dsimp only
    rw [if_pos htopic]
    exact .op (.op (.op (.op (.op (.op (.op (.op (.op (exec_reply _)))))))))
  obtain ⟨reads', hreads', hx⟩ := exec_command hcmd hrun
  refine ⟨_, hx, ?_⟩
  simp only [messages_await_cons, messages_append, hreads.messages, hreads'.messages,
    List.nil_append]
  rfl

theorem handles_psync (hcmd : CommandAt host input 0 n (str "PSYNC") p) (st : Store) : ∃ tr st',
    Handles host clientFd input st tr (.ok ()) st' ∧
      messages tr = [fullResyncMessage st.serverInfo.masterReplid, rdbMessage host] := by
  by_cases hrole : st.serverInfo.role = str "master"
  · obtain ⟨reads, hreads, hx⟩ := exec_command hcmd (exec_parsePSYNCCommand hrole)
    refine ⟨_, _, hx, ?_⟩
    simp only [messages_await_cons, messages_append, hreads.messages, List.nil_append]
    rfl
  · obtain ⟨reads, hreads, hx⟩ := exec_command hcmd (exec_parsePSYNCCommand_of_ne hrole)
    refine ⟨_, _, hx, ?_⟩
    simp only [messages_await_cons, messages_append, hreads.messages, List.nil_append]
    rfl

end Requests

/-! ### Whole runs -/

section Runs

variable {ι κ : Type} {host : Host} {allowed : Exchange → Move → Prop} {timeouts : Bool}
  {st st' : Store} {tasks : List Task} {log : List (Task × Action)} {s : Pool ι κ}

theorem psyncFds_append (tasks tasks' : List Task) :
    psyncFds host (tasks ++ tasks') = psyncFds host tasks ++ psyncFds host tasks' := by
  rw [psyncFds, List.filter_append, List.map_append, psyncFds, psyncFds]

theorem Sessions.serverInfo (h : Sessions host allowed st tasks log st') :
    st'.serverInfo = withReplicas (psyncFds host tasks) st.serverInfo := by
  induction h with
  | nil => exact withReplicas_nil.symm
  | @snoc tasks log st₁ task x l st₂ _ run hdone ih =>
    obtain ⟨es, hes⟩ := exists_executes (handles_of_done run hdone)
    obtain ⟨hpsync, hother⟩ := serverInfo_of_executes hes
    rw [psyncFds_append, withReplicas_append, ← ih]
    by_cases hreaches : ReachesPsync host task.recvStr 0
    · rw [hpsync hreaches]
      simp [psyncFds, hreaches]
    · rw [hother hreaches]
      simp [psyncFds, hreaches]

variable [DecidableEq ι] [DecidableEq κ] {clientFd : κ → ℤ}

/-- In every run, whatever the requests, the server info differs from that at the start only by the
replicas of the requests that have reached a PSYNC. INFO shows it as it is after the requests
before, and every PSYNC is answered by the same replication id. -/
theorem replication_info_served (h : PoolRun host clientFd (Undisturbed timeouts) st s) :
    (s.Idle → s.store.serverInfo = withReplicas (psyncFds host s.finished) st.serverInfo) ∧
    ∀ before task after, s.finished = before ++ task :: after →
      (∀ topic, CommandWith (str "INFO") topic task.recvStr → topic.map toUpper = str "REPLICATION" →
        written s.log task = [createStringReponse <| replicationInfo <|
          withReplicas (psyncFds host before) st.serverInfo]) ∧
      (∀ n p, CommandAt host task.recvStr 0 n (str "PSYNC") p →
        written s.log task = [fullResyncMessage st.serverInfo.masterReplid, rdbMessage host]) := by
  refine ⟨fun hidle => Sessions.serverInfo (h.invariant.idle hidle).2, ?_⟩
  intro before task after hfinished
  obtain ⟨log₁, st₁, x, st₂, l, log₂, hsessions, run, hdone, hlog, hearlier, hlater⟩ :=
    h.invariant.exists_session hfinished
  have hinfo := Sessions.serverInfo hsessions
  have hwritten : written s.log task = writes l := by
    rw [hlog]
    exact written_of_session hearlier hlater
  have hleft : x.handlerPc.left = true := by rw [hdone]; rfl
  constructor
  · intro topic hb htopic
    obtain ⟨tr, hx, hm⟩ := @handles_info host task.clientFd task.recvStr topic hb htopic st₁
    rw [hwritten, (writes_of_singleton run hdone hx hm).1, hinfo]
  · intro n p hcmd
    obtain ⟨tr, w, hx, hm⟩ := @handles_psync host task.clientFd task.recvStr p n hcmd st₁
    obtain ⟨hops, -, -⟩ := operations_of_done run hdone hx
    rw [hwritten, sent_eq_passed_of_le_two run hleft (by rw [hops, hm]; exact le_rfl), hops, hm, hinfo,
      masterReplid_withReplicas]

end Runs

/-- INFO as the first request of a server. -/
def infoTask : Task := ⟨0, 5, createArrayReponse [str "info", str "replication"]⟩

/-- One client, one worker and an INFO, up to its end, on a master with two replicas. -/
theorem replication_info_served_at_info : ∃ s : Pool Unit Unit, s.AtRest ∧ s.finished = [infoTask] ∧
    written s.log infoTask = [createStringReponse (replicationInfo (Store.empty [7, 8]).serverInfo)] := by
  have hb : CommandWith (str "INFO") (str "replication") infoTask.recvStr :=
    ⟨str "info", by decide, createArrayReponse_request _, by decide, by decide, by decide⟩
  have hx : Handles .plain 5 infoTask.recvStr (.empty [7, 8])
      (.awaitCommunicationLoop :: (List.replicate 9 .serverInfo ++
        [.enqueueMessage (createStringReponse (replicationInfo (Store.empty [7, 8]).serverInfo)),
          .communicationOver])) (.ok ()) (.empty [7, 8]) := Machine.eval_sound (n := 4) rfl
  obtain ⟨l, hserved, -⟩ := exists_served_of_one hx rfl (by simp)
  have hstart : PoolRun .plain (fun _ => 5) (Undisturbed true) (.empty [7, 8]) (Pool.start (.empty [7, 8]) : Pool Unit Unit) :=
    .start
  obtain ⟨s, hrun, hrest, -, (hfinished : s.finished = [infoTask]), -⟩ :=
    exists_finished_of_served hstart (atRest_start _) () () hserved
  obtain ⟨-, hserves⟩ := replication_info_served hrun
  obtain ⟨hinfo, -⟩ := hserves [] infoTask [] hfinished
  have hwritten := hinfo (str "replication") hb (by decide)
  rw [psyncFds, List.filter_nil, List.map_nil, withReplicas_nil] at hwritten
  exact ⟨s, hrest, hfinished, hwritten⟩

end RedisServer.ReplicationInfo
