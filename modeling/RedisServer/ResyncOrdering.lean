import RedisServer.PoolHistories
import RedisServer.SingleCommands

/-!
# What a replica is sent from its PSYNC on

PSYNC registers the replica before its two replies are sent, and SETs of other clients
write to the same socket. One request is served at a time and its response handler ends
only when both replies are out, so the resync payload comes first and in one piece, and
behind it the buffer of every SET that is executed later.
-/

namespace RedisServer.ResyncOrdering
open ByteStrings CxxStrings RespGrammar InteractionPrograms ServerState Utils RedisParser
open ResponseExchange RequestRuns RequestDecoding SetPipelines ParserDiscipline ReplicaRegistration
open ServedRequests SingleCommands WorkerPool

/-- What a log shows written to the socket `fd`, one byte string for each `send`. -/
def trafficTo (fd : ℤ) (log : List (Task × Action)) : List Bytes :=
  log.flatMap fun e => traffic fd e.1.clientFd [e.2]

/-- The buffers of the SETs that a log shows executed. -/
def executedSets (log : List (Task × Action)) : List Bytes :=
  log.filterMap fun e =>
    match e.2 with
    | .op (.databaseAssign _ _) => some e.1.recvStr
    | _ => none

/-- A log from the first step for `task` on. -/
def since (task : Task) (log : List (Task × Action)) : List (Task × Action) :=
  log.dropWhile fun e => decide (e.1.ticket < task.ticket)

section Logs

variable {fd : ℤ} {task : Task} {log log' : List (Task × Action)}

@[simp] theorem trafficTo_append :
    trafficTo fd (log ++ log') = trafficTo fd log ++ trafficTo fd log' := List.flatMap_append

@[simp] theorem executedSets_append :
    executedSets (log ++ log') = executedSets log ++ executedSets log' := List.filterMap_append

theorem trafficTo_session (fd : ℤ) (task : Task) (acts : List Action) :
    trafficTo fd (acts.map (Prod.mk task)) = traffic fd task.clientFd acts := by
  induction acts with
  | nil => rfl
  | cons a acts ih =>
    calc trafficTo fd ((a :: acts).map (Prod.mk task))
        = traffic fd task.clientFd [a] ++ trafficTo fd (acts.map (Prod.mk task)) := rfl
      _ = traffic fd task.clientFd ([a] ++ acts) := by rw [ih, traffic_append]

theorem executedSets_session (task : Task) (acts : List Action) :
    executedSets (acts.map (Prod.mk task)) =
      List.replicate (assignments (operations acts)).length task.recvStr := by
  induction acts with
  | nil => rfl
  | cons a acts ih =>
    have hcons : executedSets ((a :: acts).map (Prod.mk task)) =
        executedSets ([a].map (Prod.mk task)) ++ executedSets (acts.map (Prod.mk task)) :=
      @executedSets_append [(task, a)] (acts.map (Prod.mk task))
    have hops : operations (a :: acts) = operations [a] ++ operations acts := operations_append [a] acts
    rw [hcons, ih, hops, assignments_append, List.length_append, List.replicate_add]
    congr 1
    cases a with
    | write b => rfl
    | op o => cases o <;> rfl

theorem since_eq_nil (h : ∀ e ∈ log, e.1.ticket < task.ticket) : since task log = [] := by
  rw [since, List.dropWhile_eq_nil_iff]
  simpa using h

theorem since_append (h : ∀ e ∈ log, e.1.ticket < task.ticket)
    (h' : ∀ e ∈ log', task.ticket ≤ e.1.ticket) : since task (log ++ log') = log' := by
  rw [since, List.dropWhile_append_of_pos (by simpa using h)]
  cases log' with
  | nil => rfl
  | cons e log' =>
    have he := h' e List.mem_cons_self
    exact List.dropWhile_cons_of_neg (by simpa using he)

end Logs

variable {host : Host} {clientFd fd : ℤ} {b name replid : Bytes} {st st' st'' : Store} {fds : List ℤ}
  {allowed : Exchange → Move → Prop} {x : Exchange} {acts : List Action} {timeouts : Bool}

/-- A master with the replicas `fds` and the replication id `replid`. -/
structure Master (replid : Bytes) (fds : List ℤ) (st : Store) : Prop where
  registered : Registered st.serverInfo fds
  masterReplid : st.serverInfo.masterReplid = replid

section Session

theorem master_of_psync (hb : SingleCommand host clientFd (str "PSYNC") b) (h : Master replid fds st)
    (hrun : RequestRun host clientFd b st allowed ⟨x, st', acts⟩) (hdone : x.handlerPc = .done) :
    Master replid (fds ++ [clientFd]) st' := by
  obtain ⟨_, -, -, -, hx⟩ := hb.handles_psync h.registered.role
  obtain ⟨-, -, rfl⟩ := operations_of_done hrun hdone hx
  exact ⟨h.registered.register clientFd, h.masterReplid⟩

/-- A complete session of a command leaves a master, and only PSYNC adds a replica. -/
theorem master_of_session (hb : SingleCommand host clientFd name b) (h : Master replid fds st)
    (hrun : RequestRun host clientFd b st allowed ⟨x, st', acts⟩) (hdone : x.handlerPc = .done) :
    ∃ fds', Master replid fds' st' ∧
      (fds' = fds ∨ name = str "PSYNC" ∧ fds' = fds ++ [clientFd]) := by
  obtain ⟨hreg, hid⟩ := h
  by_cases hset : name = str "SET"
  · subst hset
    obtain ⟨_, _, _, _, st₁, -, -, hx, hinfo⟩ := hb.handles_set st
    obtain ⟨-, -, rfl⟩ := operations_of_done hrun hdone hx
    exact ⟨fds, ⟨hinfo ▸ hreg, hinfo ▸ hid⟩, .inl rfl⟩
  by_cases hpsync : name = str "PSYNC"
  · subst hpsync
    exact ⟨_, master_of_psync hb ⟨hreg, hid⟩ hrun hdone, .inr ⟨rfl, rfl⟩⟩
  · obtain ⟨_, st₁, -, hx, hinfo⟩ := hb.handles_other hset hpsync st
    obtain ⟨-, -, rfl⟩ := operations_of_done hrun hdone hx
    exact ⟨fds, ⟨hinfo ▸ hreg, hinfo ▸ hid⟩, .inl rfl⟩

/-- A session of another client sends a replica that registered once the buffers of the
SETs it executes, each after the assignment. -/
theorem traffic_of_other (hb : SingleCommand host clientFd name b) (hfd : clientFd ≠ fd)
    (hreg : Registered st.serverInfo fds) (hcount : fds.count fd = 1)
    (hrun : RequestRun host clientFd b st allowed ⟨x, st', acts⟩) :
    traffic fd clientFd acts <+: List.replicate (assignments (operations acts)).length b ∧
      (x.handlerPc = .done →
        traffic fd clientFd acts = List.replicate (assignments (operations acts)).length b) := by
  rw [traffic_of_ne hfd]
  by_cases hset : name = str "SET"
  · subst hset
    obtain ⟨tr, tr', k, v, st₁, hhead, hend, hx, -⟩ := hb.handles_set st
    have hsend : sendsTo fd tr' = [b] := by
      rw [hend.sendsTo, hreg.targets, hcount, List.replicate_one]
    refine ⟨?_, fun hdone => ?_⟩
    · obtain ⟨rem, hrem⟩ := operations_prefix hrun hx
      rcases List.append_eq_append_iff.mp hrem with ⟨rest, hrest, -⟩ | ⟨sent, hops, hsent⟩
      · have hnone : sendsTo fd (operations acts) ++ sendsTo fd rest = [] := by
          rw [← sendsTo_append, ← hrest, hhead.sendsTo]
        rw [(List.append_eq_nil_iff.mp hnone).1]
        exact List.nil_prefix
      · have hassign : assignments sent ++ assignments rem = [] := by
          rw [← assignments_append, ← hsent, hend.assignments]
        rw [hops, sendsTo_append, hhead.sendsTo, List.nil_append, assignments_append,
          hhead.assignments, (List.append_eq_nil_iff.mp hassign).1]
        refine ⟨sendsTo fd rem, ?_⟩
        rw [← sendsTo_append, ← hsent, hsend]
        rfl
    · obtain ⟨hops, -, -⟩ := operations_of_done hrun hdone hx
      rw [hops, sendsTo_append, hhead.sendsTo, hsend, assignments_append, hhead.assignments,
        hend.assignments]
      rfl
  · have hsilent : ∃ tr r st₁, sendsTo fd tr = [] ∧ assignments tr = [] ∧
        Handles host clientFd b st tr r st₁ := by
      by_cases hpsync : name = str "PSYNC"
      · subst hpsync
        obtain ⟨tr, -, hsends, hassign, hx⟩ := hb.handles_psync hreg.role
        exact ⟨tr, _, _, hsends fd, hassign, hx⟩
      · obtain ⟨tr, st₁, hother, hx, -⟩ := hb.handles_other hset hpsync st
        exact ⟨tr, _, _, hother.sendsTo fd, hother.assignments, hx⟩
    obtain ⟨tr, r, st₁, hsends, hassign, hx⟩ := hsilent
    obtain ⟨rem, rfl⟩ := operations_prefix hrun hx
    rw [sendsTo_append, List.append_eq_nil_iff] at hsends
    rw [assignments_append, List.append_eq_nil_iff] at hassign
    rw [hsends.1, hassign.1]
    exact ⟨List.nil_prefix, fun _ => rfl⟩

/-- The session of a PSYNC writes its two messages, and both before it ends. -/
theorem traffic_of_psync (hb : SingleCommand host clientFd (str "PSYNC") b) (h : Master replid fds st)
    (hrun : RequestRun host clientFd b st (Undisturbed timeouts) ⟨x, st', acts⟩) :
    traffic clientFd clientFd acts <+: [fullResyncMessage replid, rdbMessage host] ∧
      assignments (operations acts) = [] ∧
      (x.handlerPc = .done →
        traffic clientFd clientFd acts = [fullResyncMessage replid, rdbMessage host]) := by
  obtain ⟨tr, hmsgs, hsends, hassign, hx⟩ := hb.handles_psync h.registered.role
  rw [h.masterReplid] at hmsgs
  obtain ⟨rem, hrem⟩ := operations_prefix hrun hx
  have hnone : sendsTo clientFd (operations acts) = [] := by
    have hall := hsends clientFd
    rw [← hrem, sendsTo_append] at hall
    exact (List.append_eq_nil_iff.mp hall).1
  have hpassed : messages (operations acts) <+: [fullResyncMessage replid, rdbMessage host] := by
    rw [← hmsgs, ← hrem, messages_append]
    exact List.prefix_append _ _
  rw [traffic_of_replies hnone]
  refine ⟨?_, ?_, fun hdone => ?_⟩
  · obtain ⟨-, haccount, -⟩ := hrun.paced
    refine List.IsPrefix.trans ?_ hpassed
    rw [← haccount.account, List.append_assoc]
    exact List.prefix_append _ _
  · rw [← hrem, assignments_append] at hassign
    exact (List.append_eq_nil_iff.mp hassign).1
  · obtain ⟨hops, -, -⟩ := operations_of_done hrun hdone hx
    rw [sent_eq_passed_of_le_two hrun (by rw [hdone]; rfl) (by rw [hops, hmsgs]; rfl), hops, hmsgs]

end Session

section Sessions

variable {tasks : List Task} {log : List (Task × Action)}

theorem Sessions.of_snoc {task : Task} (h : Sessions host allowed st (tasks ++ [task]) log st') :
    ∃ log₁ st₁ x acts, Sessions host allowed st tasks log₁ st₁ ∧
      RequestRun host task.clientFd task.recvStr st₁ allowed ⟨x, st', acts⟩ ∧ x.handlerPc = .done ∧
      log = log₁ ++ acts.map (Prod.mk task) := by
  generalize htasks : tasks ++ [task] = all at h
  cases h with
  | nil => simp at htasks
  | snoc h run hdone =>
    obtain ⟨rfl, heq⟩ := List.append_inj' htasks rfl
    obtain rfl := List.singleton_inj.mp heq
    exact ⟨_, _, _, _, h, run, hdone, rfl⟩

theorem Sessions.split {before after : List Task} {task : Task}
    (h : Sessions host allowed st (before ++ task :: after) log st') :
    ∃ log₁ st₁ x acts st₂ log₂, Sessions host allowed st before log₁ st₁ ∧
      RequestRun host task.clientFd task.recvStr st₁ allowed ⟨x, st₂, acts⟩ ∧ x.handlerPc = .done ∧
      Sessions host allowed st₂ after log₂ st' ∧
      log = log₁ ++ (acts.map (Prod.mk task) ++ log₂) := by
  induction after using List.reverseRecOn generalizing log st' with
  | nil =>
    obtain ⟨log₁, st₁, x, acts, hbefore, hrun, hdone, rfl⟩ := Sessions.of_snoc h
    exact ⟨log₁, st₁, x, acts, st', [], hbefore, hrun, hdone, .nil, by simp⟩
  | append_singleton after last ih =>
    have hassoc : before ++ task :: (after ++ [last]) = (before ++ task :: after) ++ [last] := by simp
    rw [hassoc] at h
    obtain ⟨log', st₃, y, l, hinit, hlast, hlastDone, rfl⟩ := Sessions.of_snoc h
    obtain ⟨log₁, st₁, x, acts, st₂, log₂, hbefore, hrun, hdone, hafter, rfl⟩ := ih hinit
    exact ⟨log₁, st₁, x, acts, st₂, _, hbefore, hrun, hdone, hafter.snoc hlast hlastDone, by simp⟩

/-- Sessions without a PSYNC on `fd` register it no further time. -/
theorem master_of_sessions (h : Sessions host allowed st tasks log st')
    (hcommands : ∀ task ∈ tasks, ∃ name, SingleCommand host task.clientFd name task.recvStr ∧
      (name = str "PSYNC" → task.clientFd ≠ fd))
    (hst : Master replid fds st) : ∃ fds', Master replid fds' st' ∧ fds'.count fd = fds.count fd := by
  induction h with
  | nil => exact ⟨fds, hst, rfl⟩
  | @snoc tasks log st₁ task x l st₂ _ run hdone ih =>
    obtain ⟨fds₁, hmaster, hcount⟩ := ih fun t ht => hcommands t (List.mem_append_left _ ht)
    obtain ⟨name, hb, hpsync⟩ := hcommands task (by simp)
    obtain ⟨fds₂, hmaster', rfl | ⟨hname, rfl⟩⟩ := master_of_session hb hmaster run hdone
    · exact ⟨_, hmaster', hcount⟩
    · refine ⟨_, hmaster', ?_⟩
      rw [List.count_append, List.count_singleton, if_neg (by simpa using hpsync hname), hcount,
        Nat.add_zero]

/-- Complete sessions of other clients send a replica that registered once the buffers of
the SETs they execute. -/
theorem traffic_of_others (h : Sessions host allowed st tasks log st')
    (hcommands : ∀ task ∈ tasks, task.clientFd ≠ fd ∧
      ∃ name, SingleCommand host task.clientFd name task.recvStr)
    (hst : Master replid fds st) (hcount : fds.count fd = 1) :
    trafficTo fd log = executedSets log := by
  induction h with
  | nil => rfl
  | @snoc tasks log st₁ task x l st₂ hsessions run hdone ih =>
    have hbefore := fun t ht => hcommands t (List.mem_append_left _ ht)
    obtain ⟨hfd, name, hb⟩ := hcommands task (by simp)
    have hquiet : ∀ t ∈ tasks, ∃ name, SingleCommand host t.clientFd name t.recvStr ∧
        (name = str "PSYNC" → t.clientFd ≠ fd) := by
      intro t ht
      obtain ⟨ht', name, hname⟩ := hbefore t ht
      exact ⟨name, hname, fun _ => ht'⟩
    obtain ⟨fds₁, hmaster, hcount₁⟩ := master_of_sessions hsessions hquiet hst
    rw [trafficTo_append, executedSets_append, ih hbefore, trafficTo_session, executedSets_session,
      (traffic_of_other hb hfd hmaster.registered (hcount₁.trans hcount) run).2 hdone]

end Sessions

/-- Every request is one command, and a connection that sends PSYNC sends nothing more. -/
structure SingleRequests (host : Host) (enqueued : List Task) : Prop where
  command : ∀ task ∈ enqueued, ∃ name, SingleCommand host task.clientFd name task.recvStr
  last : ∀ t ∈ enqueued, SingleCommand host t.clientFd (str "PSYNC") t.recvStr →
    ∀ t' ∈ enqueued, t'.clientFd = t.clientFd → t'.ticket ≤ t.ticket

theorem SingleRequests.mono {enqueued tasks : List Task} (h : SingleRequests host enqueued)
    (hsub : tasks ⊆ enqueued) : SingleRequests host tasks where
  command := fun t ht => h.command t (hsub ht)
  last := fun t ht hpsync t' ht' => h.last t (hsub ht) hpsync t' (hsub ht')

section SingleRequests

variable {enqueued : List Task} {task t : Task} (h : SingleRequests host enqueued)
  (htask : task ∈ enqueued) (hpsync : SingleCommand host task.clientFd (str "PSYNC") task.recvStr)
include h htask

/-- A connection that has sent PSYNC before cannot send it again. -/
theorem SingleRequests.earlier (ht : t ∈ enqueued) (hlt : t.ticket < task.ticket) :
    ∃ name, SingleCommand host t.clientFd name t.recvStr ∧
      (name = str "PSYNC" → t.clientFd ≠ task.clientFd) := by
  obtain ⟨name, hb⟩ := h.command t ht
  refine ⟨name, hb, fun hname hfd => ?_⟩
  subst hname
  have hle := h.last t ht hb task htask hfd.symm
  omega

include hpsync in
/-- What comes after a PSYNC comes from other connections. -/
theorem SingleRequests.later (ht : t ∈ enqueued) (hlt : task.ticket < t.ticket) :
    t.clientFd ≠ task.clientFd := by
  intro hfd
  have hle := h.last task htask hpsync t ht hfd
  omega

end SingleRequests

section Resync

variable {task : Task} {tasks before after : List Task} {log : List (Task × Action)}

/-- From the PSYNC of a connection to the end of complete sessions. -/
theorem resync_of_sessions
    (h : Sessions host (Undisturbed timeouts) st (before ++ task :: after) log st')
    (htickets : (before ++ task :: after).Pairwise (·.ticket < ·.ticket))
    (hreq : SingleRequests host (before ++ task :: after))
    (hpsync : SingleCommand host task.clientFd (str "PSYNC") task.recvStr)
    (hst : Master replid fds st) (hfresh : task.clientFd ∉ fds) :
    (∃ fds', Master replid fds' st' ∧ fds'.count task.clientFd = 1) ∧
    ∃ log₁ log₂, log = log₁ ++ log₂ ∧ (∀ e ∈ log₁, e.1.ticket < task.ticket) ∧
      (∀ e ∈ log₂, task.ticket ≤ e.1.ticket) ∧
      trafficTo task.clientFd log₂ =
        [fullResyncMessage replid, rdbMessage host] ++ executedSets log₂ := by
  obtain ⟨log₁, st₁, x, acts, st₂, log₂, hbefore, hrun, hdone, hafter, rfl⟩ := Sessions.split h
  obtain ⟨htbefore, htcons, hcross⟩ := List.pairwise_append.mp htickets
  obtain ⟨hlater, htafter⟩ := List.pairwise_cons.mp htcons
  have hmem : task ∈ before ++ task :: after := by simp
  have hothers : ∀ t ∈ after, t.clientFd ≠ task.clientFd ∧
      ∃ name, SingleCommand host t.clientFd name t.recvStr := by
    intro t ht
    have ht' : t ∈ before ++ task :: after := by simp [ht]
    exact ⟨hreq.later hmem hpsync ht' (hlater t ht), hreq.command t ht'⟩
  obtain ⟨fds₁, hmaster₁, hcount₁⟩ := master_of_sessions hbefore (fun t ht =>
    hreq.earlier hmem (List.mem_append_left _ ht) (hcross t ht task List.mem_cons_self)) hst
  have hmaster₂ : Master replid (fds₁ ++ [task.clientFd]) st₂ :=
    master_of_psync hpsync hmaster₁ hrun hdone
  have hcount₂ : (fds₁ ++ [task.clientFd]).count task.clientFd = 1 := by
    rw [List.count_append, hcount₁, List.count_eq_zero.mpr hfresh, List.count_singleton_self]
  obtain ⟨fds₃, hmaster₃, hcount₃⟩ := master_of_sessions hafter (fun t ht => by
    obtain ⟨hfd, name, hb⟩ := hothers t ht
    exact ⟨name, hb, fun _ => hfd⟩) hmaster₂
  refine ⟨⟨fds₃, hmaster₃, hcount₃.trans hcount₂⟩, log₁, _, rfl, fun e he => ?_, fun e he => ?_, ?_⟩
  · exact hcross _ ((hbefore.log_ordered htbefore).1 e he) task List.mem_cons_self
  · rcases List.mem_append.mp he with he | he
    · obtain ⟨a, -, rfl⟩ := List.mem_map.mp he
      exact le_rfl
    · exact (hlater _ ((hafter.log_ordered htafter).1 e he)).le
  · obtain ⟨-, hassign, htraffic⟩ := traffic_of_psync hpsync hmaster₁ hrun
    rw [trafficTo_append, trafficTo_session, htraffic hdone, executedSets_append,
      executedSets_session, hassign, traffic_of_others hafter hothers hmaster₂ hcount₂]
    rfl

/-- The same while the session of a later task goes on. -/
theorem resync_of_session {current : Task}
    (h : Sessions host (Undisturbed timeouts) st tasks log st')
    (hrun : RequestRun host current.clientFd current.recvStr st' (Undisturbed timeouts) ⟨x, st'', acts⟩)
    (htickets : (tasks ++ [current]).Pairwise (·.ticket < ·.ticket))
    (hreq : SingleRequests host (tasks ++ [current])) (ht : task ∈ tasks)
    (hpsync : SingleCommand host task.clientFd (str "PSYNC") task.recvStr)
    (hst : Master replid fds st) (hfresh : task.clientFd ∉ fds) :
    trafficTo task.clientFd (since task (log ++ acts.map (Prod.mk current))) <+:
      [fullResyncMessage replid, rdbMessage host] ++
        executedSets (since task (log ++ acts.map (Prod.mk current))) := by
  obtain ⟨htbefore, -, hcross⟩ := List.pairwise_append.mp htickets
  have hlt : task.ticket < current.ticket := hcross task ht current List.mem_cons_self
  have hfd : current.clientFd ≠ task.clientFd :=
    hreq.later (List.mem_append_left _ ht) hpsync (by simp) hlt
  obtain ⟨name, hb⟩ := hreq.command current (by simp)
  obtain ⟨before, after, rfl⟩ := List.append_of_mem ht
  obtain ⟨⟨fds', hmaster, hcount⟩, log₁, log₂, rfl, hearlier, hlater, htraffic⟩ :=
    resync_of_sessions h htbefore (hreq.mono (List.subset_append_left _ _)) hpsync hst hfresh
  have hacts : ∀ e ∈ acts.map (Prod.mk current), task.ticket ≤ e.1.ticket :=
    List.forall_mem_map.mpr fun _ _ => hlt.le
  rw [List.append_assoc, since_append hearlier (List.forall_mem_append.mpr ⟨hlater, hacts⟩),
    trafficTo_append, executedSets_append, htraffic, trafficTo_session, executedSets_session,
    ← List.append_assoc]
  exact (List.prefix_append_right_inj _).mpr
    (traffic_of_other hb hfd hmaster.registered hcount hrun).1

/-- While the session of the PSYNC goes on. -/
theorem resync_of_psync (h : Sessions host (Undisturbed timeouts) st tasks log st')
    (hrun : RequestRun host task.clientFd task.recvStr st' (Undisturbed timeouts) ⟨x, st'', acts⟩)
    (htickets : (tasks ++ [task]).Pairwise (·.ticket < ·.ticket))
    (hreq : SingleRequests host (tasks ++ [task]))
    (hpsync : SingleCommand host task.clientFd (str "PSYNC") task.recvStr)
    (hst : Master replid fds st) :
    trafficTo task.clientFd (since task (log ++ acts.map (Prod.mk task))) <+:
      [fullResyncMessage replid, rdbMessage host] ++
        executedSets (since task (log ++ acts.map (Prod.mk task))) := by
  obtain ⟨htbefore, -, hcross⟩ := List.pairwise_append.mp htickets
  have hlt : ∀ t ∈ tasks, t.ticket < task.ticket := fun t ht => hcross t ht task List.mem_cons_self
  obtain ⟨fds', hmaster, -⟩ := master_of_sessions h (fun t ht =>
    hreq.earlier (by simp) (List.mem_append_left _ ht) (hlt t ht)) hst
  obtain ⟨htold, hassign, -⟩ := traffic_of_psync hpsync hmaster hrun
  rw [since_append (fun e he => hlt _ ((h.log_ordered htbefore).1 e he))
    (List.forall_mem_map.mpr fun _ _ => le_rfl), trafficTo_session, executedSets_session, hassign]
  simpa using htold

variable {ι κ : Type} {s : Pool ι κ}

/-- Send by send, what goes to the socket from the PSYNC on. -/
theorem traffic_since_prefix (h : PoolInvariant host (Undisturbed timeouts) st s)
    (hst : Master replid fds st) (hreq : SingleRequests host s.enqueued) (ht : task ∈ s.enqueued)
    (hpsync : SingleCommand host task.clientFd (str "PSYNC") task.recvStr)
    (hfresh : task.clientFd ∉ fds) :
    trafficTo task.clientFd (since task s.log) <+:
        [fullResyncMessage replid, rdbMessage host] ++ executedSets (since task s.log) ∧
      (s.Idle → task ∈ s.finished → trafficTo task.clientFd (since task s.log) =
        [fullResyncMessage replid, rdbMessage host] ++ executedSets (since task s.log)) := by
  have htickets : s.enqueued.Pairwise (·.ticket < ·.ticket) := by
    rw [← List.pairwise_map (R := (· < ·)), h.tickets]
    exact List.pairwise_lt_range
  by_cases hidle : s.Idle
  · obtain ⟨hfifo, hsessions⟩ := h.idle hidle
    rw [← hfifo] at htickets hreq ht
    obtain ⟨htfinished, -, hcross⟩ := List.pairwise_append.mp htickets
    by_cases hfinished : task ∈ s.finished
    · have hreq' := hreq.mono (List.subset_append_left _ _)
      obtain ⟨before, after, hsplit⟩ := List.append_of_mem hfinished
      rw [hsplit] at hsessions htfinished hreq'
      obtain ⟨-, log₁, log₂, hlog, hearlier, hlater, htraffic⟩ :=
        resync_of_sessions hsessions htfinished hreq' hpsync hst hfresh
      rw [hlog, since_append hearlier hlater, htraffic]
      exact ⟨List.prefix_rfl, fun _ _ => rfl⟩
    · have hqueued : task ∈ s.taskQueue := (List.mem_append.mp ht).resolve_left hfinished
      rw [since_eq_nil fun e he => hcross _ ((hsessions.log_ordered htfinished).1 e he) task hqueued]
      exact ⟨List.nil_prefix, fun _ hf => absurd hf hfinished⟩
  · obtain ⟨w, current, x, hrun⟩ : ∃ w task x, s.Running w task x := by simpa [Pool.Idle] using hidle
    obtain ⟨hfifo, log, acts, st₁, hsessions, hsession, hlog⟩ := h.busy w current x hrun
    refine ⟨?_, fun hidle' => absurd hidle' hidle⟩
    rw [← hfifo, ← List.singleton_append, ← List.append_assoc] at htickets hreq ht
    obtain ⟨htbegun, -, hcross⟩ := List.pairwise_append.mp htickets
    have hreq' := hreq.mono (List.subset_append_left _ _)
    rw [hlog]
    rcases List.mem_append.mp ht with hbegun | hqueued
    · rcases List.mem_append.mp hbegun with hfinished | hcurrent
      · exact resync_of_session hsessions hsession htbegun hreq' hfinished hpsync hst hfresh
      · obtain rfl := List.mem_singleton.mp hcurrent
        exact resync_of_psync hsessions hsession htbegun hreq' hpsync hst
    · have hlt : ∀ t ∈ s.finished ++ [current], t.ticket < task.ticket := fun t ht =>
        hcross t ht task hqueued
      have hbefore := (hsessions.log_ordered (List.pairwise_append.mp htbegun).1).1
      have hearlier : ∀ e ∈ log ++ acts.map (Prod.mk current), e.1.ticket < task.ticket := by
        refine List.forall_mem_append.mpr ⟨fun e he => ?_, List.forall_mem_map.mpr fun _ _ => ?_⟩
        · exact hlt _ (List.mem_append_left _ (hbefore e he))
        · exact hlt current (by simp)
      rw [since_eq_nil hearlier]
      exact List.nil_prefix

variable [DecidableEq ι] [DecidableEq κ] {socket : κ → ℤ}

/-- Under any schedule, the bytes written to a replica's socket from its PSYNC on are the
beginning of the resync payload and the buffers of the SETs executed since, in the order of
their execution, and all of it whenever no request is being handled. -/
theorem resync_in_order (hst : Master replid fds st)
    (h : PoolRun host socket (Undisturbed timeouts) st s) (hreq : SingleRequests host s.enqueued)
    (ht : task ∈ s.enqueued)
    (hpsync : SingleCommand host task.clientFd (str "PSYNC") task.recvStr)
    (hfresh : task.clientFd ∉ fds) :
    (trafficTo task.clientFd (since task s.log)).flatten <+:
        fullResyncMessage replid ++ rdbMessage host ++ (executedSets (since task s.log)).flatten ∧
      (s.Idle → task ∈ s.finished → (trafficTo task.clientFd (since task s.log)).flatten =
        fullResyncMessage replid ++ rdbMessage host ++ (executedSets (since task s.log)).flatten) := by
  obtain ⟨⟨rest, hrest⟩, hall⟩ := traffic_since_prefix h.invariant hst hreq ht hpsync hfresh
  constructor
  · refine ⟨rest.flatten, ?_⟩
    rw [← List.flatten_append, hrest]
    simp
  · intro hidle hfinished
    rw [hall hidle hfinished]
    simp

end Resync

theorem singleCommand_set {c : List Bytes} {call : SetCall} (hc : Request c b)
    (hset : SetCommand c call) (hlen : b.length ≤ intMax) :
    SingleCommand host clientFd (str "SET") b where
  request := by
    cases hset with
    | plain hname | expiring hname _ => exact ⟨_, _, hc, hname.symm⟩
  length := hlen
  throws_nothing := by
    intro st tr e st' hx
    obtain ⟨_, -, hok⟩ := handles_sets host clientFd st (.single hc) (.cons hset .nil) (by simp) hlen
    cases (hx.deterministic hok).2.1

/-- A PSYNC of one client, and a SET of another one behind it. -/
def psyncTask : Task := ⟨0, 5, createArrayReponse [str "PSYNC", str "?", str "-1"]⟩

def setTask : Task := ⟨1, 6, createArrayReponse [str "SET", str "a", str "1"]⟩

/-- Two clients and one worker that has handled both. -/
theorem resync_in_order_of_set : ∃ s : Pool Unit Bool,
    s.AtRest ∧ s.finished = [psyncTask, setTask] ∧
    executedSets (since psyncTask s.log) = [setTask.recvStr] ∧
    (trafficTo psyncTask.clientFd (since psyncTask s.log)).flatten =
      fullResyncMessage [] ++ rdbMessage .plain ++ setTask.recvStr := by
  have hpsync : SingleCommand .plain psyncTask.clientFd (str "PSYNC") psyncTask.recvStr :=
    singleCommand_psync (createArrayReponse_request _) (by decide) (by decide)
  have hset : SingleCommand .plain setTask.clientFd (str "SET") setTask.recvStr :=
    singleCommand_set (createArrayReponse_request _) (.plain (by decide)) (by decide)
  obtain ⟨tr, hx, hm, hover, hassign⟩ : ∃ tr,
      Handles .plain (twoSockets false) psyncTask.recvStr (.empty []) tr (.ok ()) (.empty [5]) ∧
        messages tr = [fullResyncMessage [], rdbMessage .plain] ∧ Op.communicationOver ∈ tr ∧
        assignments tr = [] :=
    ⟨_, Machine.eval_sound (n := 4) rfl, rfl, by simp, rfl⟩
  obtain ⟨tr', st', hx', hm', hover', hassign'⟩ : ∃ tr' st',
      Handles .plain (twoSockets true) setTask.recvStr (.empty [5]) tr' (.ok ()) st' ∧
        messages tr' = [okResponse] ∧ Op.communicationOver ∈ tr' ∧ (assignments tr').length = 1 :=
    ⟨_, _, Machine.eval_sound (n := 6) rfl, by decide, by decide, by decide⟩
  obtain ⟨l, hserved, -⟩ := exists_served_of_two hx hm hover
  obtain ⟨l', hserved', -⟩ := exists_served_of_one hx' hm' hover'
  obtain ⟨hops, -⟩ := hserved.eq_of_handles hx
  obtain ⟨hops', -⟩ := hserved'.eq_of_handles hx'
  obtain ⟨s₁, hrun₁, hrest₁, hstore₁, hfinished₁, hlog₁⟩ : ∃ s₁ : Pool Unit Bool,
      PoolRun .plain twoSockets (Undisturbed true) (.empty []) s₁ ∧ s₁.AtRest ∧
        s₁.store = .empty [5] ∧ s₁.finished = [psyncTask] ∧ s₁.log = l.map (Prod.mk psyncTask) :=
    exists_finished_of_served .start (atRest_start _) () false hserved
  have henq₁ := (hrun₁.finished_of_atRest hrest₁).symm.trans hfinished₁
  rw [← hstore₁] at hserved'
  obtain ⟨s, hrun, hrest, -, hfinished, hlog⟩ :=
    exists_finished_of_served hrun₁ hrest₁ () true hserved'
  rw [henq₁, hfinished₁] at hfinished
  rw [henq₁, hlog₁] at hlog
  change s.finished = [psyncTask, setTask] at hfinished
  change s.log = _ ++ l'.map (Prod.mk setTask) at hlog
  have henq := (hrun.finished_of_atRest hrest).symm.trans hfinished
  have hsince : since psyncTask s.log = s.log := by
    rw [hlog]
    exact @since_append psyncTask [] _ nofun fun e _ => Nat.zero_le _
  have hexecuted : executedSets s.log = [setTask.recvStr] := by
    rw [hlog, executedSets_append, executedSets_session, executedSets_session, hops, hops', hassign,
      hassign']
    rfl
  have hreq : SingleRequests .plain s.enqueued := by
    rw [henq]
    constructor
    · exact List.forall_mem_cons.mpr ⟨⟨_, hpsync⟩, List.forall_mem_singleton.mpr ⟨_, hset⟩⟩
    · rintro t ht - t' ht' hfd
      simp only [List.mem_cons, List.not_mem_nil, or_false] at ht ht'
      rcases ht with rfl | rfl <;> rcases ht' with rfl | rfl <;> first | exact le_rfl | cases hfd
  have hmaster : Master [] [] (Store.empty []) := ⟨registered_empty [], rfl⟩
  obtain ⟨-, hall⟩ :=
    resync_in_order hmaster hrun hreq (by rw [henq]; exact List.mem_cons_self) hpsync (by simp)
  have htraffic := hall hrest.idle (by rw [hfinished]; exact List.mem_cons_self)
  rw [hsince, hexecuted, List.flatten_singleton] at htraffic
  exact ⟨s, hrest, hfinished, hsince.symm ▸ hexecuted, hsince.symm ▸ htraffic⟩

end RedisServer.ResyncOrdering
