import RedisServer.ReceivedOrder
import RedisServer.ReplicaConvergence
import RedisServer.ReplySeparation

/-!
# What a replica has of its master

A master and a replica with any number of clients and workers on either side. Whenever the
replica handles no request, its database shows the SETs that the master has executed since the
replica registered, up to some point: none is missing, repeated or out of order.
-/

namespace RedisServer.ReplicatedWrites
open ByteStrings CxxStrings RespGrammar InteractionPrograms ServerState Utils RedisParser
open RequestChain RequestRuns RequestDecoding SetPipelines CommandRuns OrderedOverwrites
open ReplicaRegistration RequestFrames ResponseExchange ServedRequests WorkerPool SplitRequests
open ResyncOrdering ChainContracts ReplicaConvergence ReplicationLink ReplySeparation

/-! ### Buffers -/

/-- The buffer is a single SET, which writes the entry `e` without an expiry time. -/
inductive OneSet (b : Bytes) : Bytes × DBValue → Prop where
  | mk {c call} (hc : Request c b) (hset : SetCommand c call) (hpx : call.px = none)
      (hlen : b.length ≤ intMax) : OneSet b (call.key, ⟨call.value, 0⟩)

/-- No server reads a SET at the beginning of the buffer. -/
def NoSet (b : Bytes) : Prop := ∀ host n p, ¬ CommandAt host b 0 n (str "SET") p

/-- The buffers that are SETs write these entries, in order. -/
inductive Carries : List Bytes → List (Bytes × DBValue) → Prop where
  | nil : Carries [] []
  | set {b e bs es} (hb : OneSet b e) (rest : Carries bs es) : Carries (b :: bs) (e :: es)
  | skip {b bs es} (hb : NoSet b) (rest : Carries bs es) : Carries (b :: bs) es

section Buffers

variable {host : Host} {b : Bytes} {e e' : Bytes × DBValue} {bs bs' : List Bytes}
  {es es' : List (Bytes × DBValue)}

theorem OneSet.setAt (h : OneSet b e) (host : Host) :
    SetAt host b 0 e.1 e.2.value none b.length ∧ e.2.expiryTime = 0 := by
  obtain ⟨hc, hset, hpx, hlen⟩ := h
  have hat := setAt_of_setCommand host hset hc (RequestDecoding.Request.fits hc hlen)
    (le_maxSize_of_le_intMax hlen) (standsAt_self b)
  rw [hpx, Nat.zero_add] at hat
  exact ⟨hat, rfl⟩

theorem OneSet.not_noSet (h : OneSet b e) : ¬ NoSet b := by
  obtain ⟨⟨n, p, hcmd, -⟩, -⟩ := h.setAt .plain
  exact fun hno => hno _ _ _ hcmd

theorem OneSet.unique (h : OneSet b e) (h' : OneSet b e') : e = e' := by
  obtain ⟨hat, hexpiry⟩ := h.setAt .plain
  obtain ⟨hat', hexpiry'⟩ := h'.setAt .plain
  obtain ⟨hkey, hvalue, -, -⟩ := hat.unique hat'
  obtain ⟨k, v, t⟩ := e
  obtain ⟨k', v', t'⟩ := e'
  simp_all

/-- A single SET hands over to no other command. -/
theorem OneSet.not_next (h : OneSet b e) {next : ℕ} : ¬ Next host b 0 next := by
  rintro ⟨⟨k, v, px, hat⟩, hstar⟩
  obtain ⟨-, -, -, rfl⟩ := (h.setAt host).1.unique hat
  exact byteAt_end rfl hstar

theorem NoSet.not_next (h : NoSet b) {next : ℕ} : ¬ Next host b 0 next := by
  rintro ⟨⟨k, v, px, n, p, hcmd, -⟩, -⟩
  exact h _ _ _ hcmd

theorem noSet_of_head? (h : b.head? ≠ some (byte '*')) : NoSet (recvStr b) :=
  fun _ _ _ hcmd => byteAt_recvStr_ne h hcmd.1

theorem carries_nil (h : ∀ b ∈ bs, NoSet b) : Carries bs [] := by
  induction bs with
  | nil => exact .nil
  | cons b bs ih =>
    obtain ⟨hb, hbs⟩ := List.forall_mem_cons.mp h
    exact .skip hb (ih hbs)

theorem Carries.append (h : Carries bs es) (h' : Carries bs' es') :
    Carries (bs ++ bs') (es ++ es') := by
  induction h with
  | nil => exact h'
  | set hb _ ih => exact .set hb ih
  | skip hb _ ih => exact .skip hb ih

theorem Carries.unique (h : Carries bs es) (h' : Carries bs es') : es = es' := by
  induction h generalizing es' with
  | nil =>
    cases h'
    rfl
  | set hb _ ih =>
    cases h' with
    | set hb' rest => rw [hb.unique hb', ih rest]
    | skip hb' => exact absurd hb' hb.not_noSet
  | skip hb _ ih =>
    cases h' with
    | set hb' => exact absurd hb hb'.not_noSet
    | skip _ rest => exact ih rest

/-- The first of the buffers write the first of the entries. -/
theorem Carries.prefix_of_prefix (h : Carries bs' es') (h' : Carries bs es) (hbs : bs <+: bs') :
    es <+: es' := by
  induction h' generalizing bs' es' with
  | nil => exact List.nil_prefix
  | set hb _ ih =>
    obtain ⟨rest, rfl⟩ := hbs
    cases h with
    | set hb' hrest =>
      rw [hb.unique hb']
      exact (List.prefix_cons_inj _).mpr (ih hrest ⟨rest, rfl⟩)
    | skip hb' => exact absurd hb' hb.not_noSet
  | skip hb _ ih =>
    obtain ⟨rest, rfl⟩ := hbs
    cases h with
    | set hb' => exact absurd hb hb'.not_noSet
    | skip _ hrest => exact ih hrest ⟨rest, rfl⟩

theorem Carries.mem (h : Carries bs es) (hb : b ∈ bs) : (∃ e, OneSet b e) ∨ NoSet b := by
  induction h with
  | nil => cases hb
  | set hset _ ih =>
    rcases List.mem_cons.mp hb with rfl | hb
    · exact .inl ⟨_, hset⟩
    · exact ih hb
  | skip hno _ ih =>
    rcases List.mem_cons.mp hb with rfl | hb
    · exact .inr hno
    · exact ih hb

/-- Tasks of other sockets that are no SETs may be left out. -/
theorem Carries.of_socket {fd : ℤ} {tasks : List Task} (h : Carries (tasks.map Task.recvStr) es)
    (hno : ∀ t ∈ tasks, t.clientFd ≠ fd → NoSet t.recvStr) :
    Carries ((tasks.filter fun t => t.clientFd = fd).map Task.recvStr) es := by
  induction tasks generalizing es with
  | nil => exact h
  | cons t tasks ih =>
    obtain ⟨ht, htasks⟩ := List.forall_mem_cons.mp hno
    by_cases hfd : t.clientFd = fd
    · rw [List.filter_cons_of_pos (by simpa using hfd), List.map_cons]
      cases h with
      | set hb rest => exact .set hb (ih rest htasks)
      | skip hb rest => exact .skip hb (ih rest htasks)
    · rw [List.filter_cons_of_neg (by simpa using hfd)]
      cases h with
      | set hb => exact absurd (ht hfd) hb.not_noSet
      | skip _ rest => exact ih rest htasks

end Buffers

/-! ### Logs -/

/-- The entries that a log shows assigned. -/
def assignedIn (log : List (Task × Action)) : List (Bytes × DBValue) :=
  assignments (operations (log.map Prod.snd))

def registrations (tr : List Op) : List ℤ :=
  tr.filterMap fun
    | .addConnectedSlave fd => some fd
    | _ => none

/-- The sockets that a log shows registered. -/
def registeredIn (log : List (Task × Action)) : List ℤ :=
  registrations (operations (log.map Prod.snd))

/-- A log from the registration of the socket `fd` on. -/
def sinceRegistration (fd : ℤ) (log : List (Task × Action)) : List (Task × Action) :=
  log.dropWhile fun e => e.2 ≠ .op (.addConnectedSlave fd)

section Logs

variable {fd : ℤ} {log log' : List (Task × Action)}

theorem assignedIn_append (log log' : List (Task × Action)) :
    assignedIn (log ++ log') = assignedIn log ++ assignedIn log' := by
  rw [assignedIn, List.map_append, operations_append, assignments_append, assignedIn, assignedIn]

theorem registeredIn_append (log log' : List (Task × Action)) :
    registeredIn (log ++ log') = registeredIn log ++ registeredIn log' := by
  rw [registeredIn, List.map_append, operations_append, registrations, List.filterMap_append]
  rfl

theorem map_snd_session (task : Task) (acts : List Action) :
    (acts.map (Prod.mk task)).map Prod.snd = acts := by
  rw [List.map_map]
  exact List.map_id acts

theorem assignedIn_session (task : Task) (acts : List Action) :
    assignedIn (acts.map (Prod.mk task)) = assignments (operations acts) := by
  rw [assignedIn, map_snd_session]

theorem registeredIn_session (task : Task) (acts : List Action) :
    registeredIn (acts.map (Prod.mk task)) = registrations (operations acts) := by
  rw [registeredIn, map_snd_session]

theorem mem_registeredIn :
    fd ∈ registeredIn log ↔ ∃ e ∈ log, e.2 = .op (.addConnectedSlave fd) := by
  constructor
  · intro h
    obtain ⟨o, ho, hfd⟩ := List.mem_filterMap.mp h
    obtain ⟨a, ha, hao⟩ := List.mem_filterMap.mp ho
    obtain ⟨e, he, rfl⟩ := List.mem_map.mp ha
    refine ⟨e, he, ?_⟩
    cases o <;> cases hfd
    obtain ⟨task, a⟩ := e
    cases a <;> cases hao
    rfl
  · rintro ⟨e, he, hadd⟩
    refine List.mem_filterMap.mpr ⟨.addConnectedSlave fd, List.mem_filterMap.mpr
      ⟨e.2, List.mem_map.mpr ⟨e, he, rfl⟩, ?_⟩, rfl⟩
    rw [hadd]

theorem sinceRegistration_append_of_notMem (h : fd ∉ registeredIn log) :
    sinceRegistration fd (log ++ log') = sinceRegistration fd log' := by
  rw [mem_registeredIn] at h
  push Not at h
  exact List.dropWhile_append_of_pos (by simpa using h)

theorem sinceRegistration_append_of_mem (h : fd ∈ registeredIn log) :
    sinceRegistration fd (log ++ log') = sinceRegistration fd log ++ log' := by
  obtain ⟨e, he, hadd⟩ := mem_registeredIn.mp h
  rw [sinceRegistration, List.dropWhile_append, if_neg]
  · rfl
  · rw [List.isEmpty_iff, List.dropWhile_eq_nil_iff]
    intro hall
    simpa [hadd] using hall e he

theorem sinceRegistration_eq_nil (h : fd ∉ registeredIn log) : sinceRegistration fd log = [] := by
  rw [← List.append_nil log, sinceRegistration_append_of_notMem h]
  rfl

/-- What is assigned since the registration, if nothing is assigned at all. -/
theorem assignedIn_sinceRegistration_eq_nil (h : assignedIn log = []) :
    assignedIn (sinceRegistration fd log) = [] := by
  have hsplit := assignedIn_append (log.takeWhile fun e => e.2 ≠ .op (.addConnectedSlave fd))
    (sinceRegistration fd log)
  rw [sinceRegistration, List.takeWhile_append_dropWhile, h] at hsplit
  exact (List.append_eq_nil_iff.mp hsplit.symm).2

end Logs

/-! ### Complete sessions -/

section Sessions

variable {host : Host} {clientFd fd : ℤ} {b : Bytes} {e : Bytes × DBValue} {st st' : Store}
  {fds : List ℤ} {tr : List Op} {allowed : Exchange → Move → Prop} {x : Exchange}
  {acts : List Action}

theorem connectedSlavesFd_performOp (host : Host) (o : Op) (st : Store) :
    (performOp host o st).2.serverInfo.connectedSlavesFd
      = st.serverInfo.connectedSlavesFd ++ registrations [o] := by
  cases o with
  | addConnectedSlave fd => rfl
  | databaseAt key =>
    simp only [performOp]
    split <;> exact (List.append_nil _).symm
  | _ => exact (List.append_nil _).symm

theorem connectedSlavesFd_of_reaches {t u : Thread parserSignature}
    (h : Reaches (parser host clientFd b) t st tr u st') :
    st'.serverInfo.connectedSlavesFd = st.serverInfo.connectedSlavesFd ++ registrations tr := by
  induction h with
  | refl => exact (List.append_nil _).symm
  | internal _ _ ih => exact ih
  | @performs t u w v o k tr _ _ ih =>
    have hcons : registrations (o :: tr) = registrations [o] ++ registrations tr :=
      List.filterMap_append (l := [o])
    have hstep : ((parser host clientFd b).step o w).2.serverInfo.connectedSlavesFd
      = w.serverInfo.connectedSlavesFd ++ registrations [o] := connectedSlavesFd_performOp host o w
    rw [ih, hstep, hcons, List.append_assoc]

/-- A session of a buffer that is no SET assigns nothing. -/
theorem NoSet.assignments (hno : NoSet b)
    (hrun : RequestRun host clientFd b st allowed ⟨x, st', acts⟩) (hdone : x.handlerPc = .done) :
    assignments (operations acts) = [] := by
  have hx := handles_of_done hrun hdone
  obtain ⟨es, hes⟩ := exists_executes hx
  cases hes with
  | stray hstar =>
    obtain ⟨reads, hreads, hstray⟩ := @exec_stray host clientFd b 0 _ hstar
    obtain ⟨hops, -, -⟩ := hx.deterministic hstray
    have hsplit : operations acts = [.awaitCommunicationLoop] ++ (reads ++ [.communicationOver]) := hops
    rw [hsplit, assignments_append, assignments_append, hreads.assignments]
    rfl
  | command hcmd hname => exact (otherTrace_of_exec hcmd hname hx).assignments
  | lastSet hcmd => exact absurd hcmd (hno _ _ _)
  | set hcmd => exact absurd hcmd (hno _ _ _)

/-- Only PSYNC registers its socket. -/
theorem NoSet.registered (hno : NoSet b) (hreg : Registered st.serverInfo fds)
    (hrun : RequestRun host clientFd b st allowed ⟨x, st', acts⟩) (hdone : x.handlerPc = .done) :
    ∃ fds', Registered st'.serverInfo fds' ∧
      (fds' = fds ∨ fds' = fds ++ [clientFd] ∧ ∃ n p, CommandAt host b 0 n (str "PSYNC") p) := by
  obtain ⟨es, hes⟩ := exists_executes (handles_of_done hrun hdone)
  have hframed := hes.framed
  have hrole : st'.serverInfo.role = str "master" := by
    rw [hframed.others]
    exact hreg.role
  rcases hframed.replicas with ⟨hcount, hfds⟩ | ⟨⟨e, he, hpsync, -⟩, hcount, hfds⟩
  · exact ⟨fds, ⟨hrole, hcount.trans hreg.connectedSlaves, hfds.trans hreg.connectedSlavesFd⟩, .inl rfl⟩
  · refine ⟨fds ++ [clientFd], ⟨hrole, ?_, ?_⟩, .inr ⟨rfl, ?_⟩⟩
    · rw [hcount, hreg.connectedSlaves]
      simp
    · rw [hfds, hreg.connectedSlavesFd]
    · cases hes with
      | stray => cases he
      | command hcmd =>
        rw [List.mem_singleton.mp he] at hpsync
        subst hpsync
        exact ⟨_, _, hcmd⟩
      | lastSet hcmd => exact absurd hcmd (hno _ _ _)
      | set hcmd => exact absurd hcmd (hno _ _ _)

/-- It leaves a database without expiry times as it is. -/
theorem NoSet.database (hno : NoSet b) (hpers : Persistent st.database)
    (hrun : RequestRun host clientFd b st allowed ⟨x, st', acts⟩) (hdone : x.handlerPc = .done) :
    st'.database = st.database := by
  obtain ⟨es, hes⟩ := exists_executes (handles_of_done hrun hdone)
  have hframed := hes.framed
  apply Finmap.ext_lookup
  intro k
  by_contra hk
  obtain ⟨e, he, -, hset | ⟨-, v, hv, hexpiry, -⟩⟩ := hframed.database k hk
  · cases hes with
    | stray => cases he
    | command _ hname =>
      rw [List.mem_singleton.mp he] at hset
      exact hname hset
    | lastSet hcmd => exact absurd hcmd (hno _ _ _)
    | set hcmd => exact absurd hcmd (hno _ _ _)
  · cases hes with
    | stray => cases he
    | command =>
      rw [List.mem_singleton.mp he] at hv
      exact hexpiry (hpers k v hv)
    | lastSet hcmd => exact absurd hcmd (hno _ _ _)
    | set hcmd => exact absurd hcmd (hno _ _ _)

/-- Even an incomplete session of such a buffer sends nothing. -/
theorem NoSet.sendsTo (hno : NoSet b)
    (hrun : RequestRun host clientFd b st allowed ⟨x, st', acts⟩) (fd : ℤ) :
    sendsTo fd (operations acts) = [] := by
  apply List.filterMap_eq_nil_iff.mpr
  intro o ho
  cases o with
  | send fd' m =>
    obtain ⟨-, n, p, hcmd⟩ := send_of_session hrun ho
    exact absurd hcmd (hno _ _ _)
  | _ => rfl

/-- A session of a SET assigns, and then sends its buffer to every replica. -/
theorem OneSet.session (hb : OneSet b e) (fd : ℤ)
    (hrun : RequestRun host clientFd b st allowed ⟨x, st', acts⟩) :
    (sendsTo fd (operations acts) = [] ∨ assignments (operations acts) = [e] ∧
        sendsTo fd (operations acts) <+: List.replicate ((targets host st.serverInfo).count fd) b) ∧
      (x.handlerPc = .done → assignments (operations acts) = [e] ∧
        sendsTo fd (operations acts) = List.replicate ((targets host st.serverInfo).count fd) b ∧
        st'.database = st.database.insert e.1 e.2 ∧ st'.serverInfo = st.serverInfo) := by
  obtain ⟨hat, hexpiry⟩ := hb.setAt host
  obtain ⟨tr, tr', hhead, hend, hx⟩ := @exec_lastSet host clientFd b 0 _ st _ _ _ hat (byteAt_end rfl)
  have hentry : (e.1, (⟨e.2.value, expiryTime host st none⟩ : DBValue)) = e := by
    obtain ⟨k, v, t⟩ := e
    cases hexpiry
    rfl
  have hsend : sendsTo fd tr' = List.replicate ((targets host st.serverInfo).count fd) b :=
    hend.sendsTo fd
  constructor
  · obtain ⟨rem, hrem⟩ := operations_prefix hrun hx
    rcases List.append_eq_append_iff.mp hrem with ⟨rest, hrest, -⟩ | ⟨sent, hops, hsent⟩
    · have hnone : sendsTo fd (operations acts) ++ sendsTo fd rest = [] := by
        rw [← sendsTo_append, ← hrest, hhead.sendsTo]
      exact .inl (List.append_eq_nil_iff.mp hnone).1
    · have hassign : assignments sent ++ assignments rem = [] := by
        rw [← assignments_append, ← hsent, hend.assignments]
      refine .inr ⟨?_, ?_⟩
      · rw [hops, assignments_append, hhead.assignments, (List.append_eq_nil_iff.mp hassign).1, hentry]
        rfl
      · rw [hops, sendsTo_append, hhead.sendsTo, List.nil_append]
        exact ⟨sendsTo fd rem, by rw [← sendsTo_append, ← hsent, hsend]⟩
  · intro hdone
    obtain ⟨hops, -, rfl⟩ := operations_of_done hrun hdone hx
    rw [hops, assignments_append, sendsTo_append, hhead.assignments, hend.assignments, hhead.sendsTo,
      hsend, hentry]
    refine ⟨rfl, rfl, ?_, rfl⟩
    change st.database.insert e.1 ⟨e.2.value, expiryTime host st none⟩ = _
    rw [← hentry]

theorem database_of_sessions {tasks : List Task} {log : List (Task × Action)}
    (h : Sessions host allowed st tasks log st') (hpers : Persistent st.database)
    (htasks : ∀ t ∈ tasks, (∃ e, OneSet t.recvStr e) ∨ NoSet t.recvStr) :
    Carries (tasks.map Task.recvStr) (assignedIn log) ∧
      st'.database = overwrite (assignedIn log) st.database ∧ Persistent st'.database := by
  induction h with
  | nil => exact ⟨.nil, rfl, hpers⟩
  | @snoc tasks log st₁ task x l st₂ _ run hdone ih =>
    obtain ⟨hcarries, hdb, hpers₁⟩ := ih fun t ht => htasks t (List.mem_append_left _ ht)
    rw [List.map_append, assignedIn_append, assignedIn_session]
    rcases htasks task (by simp) with ⟨e, hb⟩ | hno
    · obtain ⟨hassign, -, hdb₂, -⟩ := (hb.session 0 run).2 hdone
      rw [hassign]
      have hwritten : st₂.database = overwrite (assignedIn log ++ [e]) st.database := by
        rw [hdb₂, hdb, overwrite, overwrite, List.foldl_append]
        rfl
      refine ⟨hcarries.append (.set hb .nil), hwritten, fun k v hk => ?_⟩
      rw [hdb₂] at hk
      by_cases hkey : k = e.1
      · subst hkey
        rw [Finmap.lookup_insert] at hk
        cases hk
        exact (hb.setAt host).2
      · rw [Finmap.lookup_insert_of_ne _ hkey] at hk
        exact hpers₁ k v hk
    · have hdb₂ := hno.database hpers₁ run hdone
      rw [hno.assignments run hdone, List.append_nil]
      refine ⟨?_, hdb₂.trans hdb, hdb₂ ▸ hpers₁⟩
      have happend := hcarries.append (.skip hno .nil)
      rwa [List.append_nil] at happend

end Sessions

/-! ### The master -/

/-- The task asks for the registration of the socket `fd`. -/
def Registers (host : Host) (fd : ℤ) (task : Task) : Prop :=
  task.clientFd = fd ∧ ∃ n p, CommandAt host task.recvStr 0 n (str "PSYNC") p

/-- What a master may be asked that has its replica on the socket `fd`. -/
structure MasterTask (host : Host) (fd : ℤ) (task : Task) : Prop where
  received : recvStr task.recvStr = task.recvStr
  kind : (∃ e, OneSet task.recvStr e) ∧ task.clientFd ≠ fd ∨ NoSet task.recvStr
  harmless : task.clientFd = fd → Harmless host task.recvStr

section Master

variable {host : Host} {fd : ℤ} {task : Task} {tasks : List Task} {log : List (Task × Action)}
  {st st' : Store} {fds : List ℤ} {x : Exchange} {acts : List Action}

/-- What a session, complete or not, writes to the replica. -/
theorem MasterTask.carries (h : MasterTask host fd task) (hreg : Registered st.serverInfo fds)
    (hcount : fds.count fd ≤ 1)
    (hrun : RequestRun host task.clientFd task.recvStr st FullSends ⟨x, st', acts⟩) :
    ∃ es, es <+: assignments (operations acts) ∧
      Carries ((traffic fd task.clientFd acts).map recvStr) es ∧
      (fds.count fd = 0 → es = []) ∧
      (x.handlerPc = .done → fds.count fd = 1 → es = assignments (operations acts)) := by
  rcases h.kind with ⟨⟨e, hb⟩, hfd⟩ | hno
  · obtain ⟨hpart, hall⟩ := hb.session fd hrun
    rw [hreg.targets] at hpart hall
    rw [traffic_of_ne hfd]
    by_cases hnone : sendsTo fd (operations acts) = []
    · rw [hnone]
      refine ⟨[], List.nil_prefix, .nil, fun _ => rfl, fun hdone hone => ?_⟩
      obtain ⟨-, hsends, -⟩ := hall hdone
      rw [hnone, hone] at hsends
      cases hsends
    · obtain ⟨hassign, hsent⟩ := hpart.resolve_left hnone
      obtain hzero | hone : fds.count fd = 0 ∨ fds.count fd = 1 := by omega
      · rw [hzero, List.replicate_zero, List.prefix_nil] at hsent
        exact absurd hsent hnone
      · rw [hone, List.replicate_one] at hsent
        have hlength : 0 < (sendsTo fd (operations acts)).length := List.length_pos_iff.mpr hnone
        have hsends := hsent.eq_of_length (le_antisymm hsent.length_le hlength)
        rw [hsends, hassign, List.map_singleton, h.received]
        exact ⟨[e], List.prefix_rfl, .set hb .nil, fun hzero => by omega, fun _ _ => rfl⟩
  · refine ⟨[], List.nil_prefix, carries_nil ?_, fun _ => rfl, fun hdone _ =>
      (hno.assignments hrun hdone).symm⟩
    refine List.forall_mem_map.mpr fun m hm => noSet_of_head? ?_
    rcases mem_traffic hm with hsend | ⟨hwrite, hfd⟩
    · obtain ⟨-, n, p, hcmd⟩ := send_of_session hrun hsend
      exact absurd hcmd (hno _ _ _)
    · exact head?_ne_of_harmless (h.harmless hfd) hrun (mem_messages_of_mem_writes hrun hwrite)

/-- What a complete session does to the list of replicas. -/
theorem MasterTask.registered (h : MasterTask host fd task) (hreg : Registered st.serverInfo fds)
    (hrun : RequestRun host task.clientFd task.recvStr st FullSends ⟨x, st', acts⟩)
    (hdone : x.handlerPc = .done) :
    Registered st'.serverInfo (fds ++ registrations (operations acts)) ∧
      (fd ∈ registrations (operations acts) → registrations (operations acts) = [fd] ∧
        Registers host fd task ∧ assignments (operations acts) = []) := by
  have hfds : st'.serverInfo.connectedSlavesFd = fds ++ registrations (operations acts) := by
    have hgrown := connectedSlavesFd_of_reaches hrun.reaches
    rwa [hreg.connectedSlavesFd] at hgrown
  have hinfo : Registered st'.serverInfo fds ∨ Registered st'.serverInfo (fds ++ [task.clientFd]) ∧
      NoSet task.recvStr ∧ ∃ n p, CommandAt host task.recvStr 0 n (str "PSYNC") p := by
    rcases h.kind with ⟨⟨e, hb⟩, -⟩ | hno
    · obtain ⟨-, -, -, hinfo⟩ := (hb.session fd hrun).2 hdone
      exact .inl (hinfo ▸ hreg)
    · obtain ⟨fds', hreg', rfl | ⟨rfl, hpsync⟩⟩ := hno.registered hreg hrun hdone
      · exact .inl hreg'
      · exact .inr ⟨hreg', hno, hpsync⟩
  rcases hinfo with hreg' | ⟨hreg', hno, hpsync⟩
  · rw [hreg'.connectedSlavesFd] at hfds
    rw [List.self_eq_append_right.mp hfds, List.append_nil]
    exact ⟨hreg', fun hmem => absurd hmem List.not_mem_nil⟩
  · rw [hreg'.connectedSlavesFd] at hfds
    rw [← List.append_cancel_left hfds]
    refine ⟨hreg', fun hmem => ?_⟩
    obtain rfl := List.mem_singleton.mp hmem
    exact ⟨rfl, ⟨rfl, hpsync⟩, hno.assignments hrun hdone⟩

/-- After complete sessions: whether the replica is registered, and what has been written to it. -/
structure Propagated (host : Host) (fd : ℤ) (tasks : List Task) (log : List (Task × Action))
    (st : Store) : Prop where
  registered : ∃ fds, Registered st.serverInfo fds ∧
    (fds.count fd = 0 ∧ fd ∉ registeredIn log ∨
      fds.count fd = 1 ∧ fd ∈ registeredIn log ∧ ∃ t ∈ tasks, Registers host fd t)
  carries : Carries ((trafficTo fd log).map recvStr) (assignedIn (sinceRegistration fd log))

theorem propagated_of_sessions (h : Sessions host FullSends st tasks log st')
    (hst : Registered st.serverInfo fds) (hfresh : fd ∉ fds)
    (htasks : ∀ t ∈ tasks, MasterTask host fd t)
    (honce : tasks.Pairwise fun t t' => ¬ (Registers host fd t ∧ Registers host fd t')) :
    Propagated host fd tasks log st' := by
  induction h with
  | nil => exact ⟨⟨fds, hst, .inl ⟨List.count_eq_zero.mpr hfresh, nofun⟩⟩, .nil⟩
  | @snoc tasks log st₁ task x l st₂ _ run hdone ih =>
    obtain ⟨hbefore, -, hlast⟩ := List.pairwise_append.mp honce
    obtain ⟨⟨fds₁, hreg, hcases⟩, hcarries⟩ :=
      ih (fun t ht => htasks t (List.mem_append_left _ ht)) hbefore
    have htask := htasks task (by simp)
    obtain ⟨hreg', hadded⟩ := htask.registered hreg run hdone
    have hregistered : registeredIn (log ++ l.map (Prod.mk task))
      = registeredIn log ++ registrations (operations l) := by
      rw [registeredIn_append, registeredIn_session]
    have hcount : (fds₁ ++ registrations (operations l)).count fd
      = fds₁.count fd + (registrations (operations l)).count fd := List.count_append
    rcases hcases with ⟨hzero, hnone⟩ | ⟨hone, hsome, t, ht, hasks⟩
    · obtain ⟨es, -, htraffic, hes, -⟩ := htask.carries hreg (by omega) run
      obtain rfl := hes hzero
      have hempty : assignedIn (sinceRegistration fd log) = [] := by
        rw [sinceRegistration_eq_nil hnone]
        rfl
      have hsince : assignedIn (sinceRegistration fd (log ++ l.map (Prod.mk task))) = [] := by
        rw [sinceRegistration_append_of_notMem hnone]
        by_cases hmem : fd ∈ registrations (operations l)
        · apply assignedIn_sinceRegistration_eq_nil
          rw [assignedIn_session]
          exact (hadded hmem).2.2
        · rw [← registeredIn_session task] at hmem
          rw [sinceRegistration_eq_nil hmem]
          rfl
      refine ⟨⟨_, hreg', ?_⟩, ?_⟩
      · rw [hcount, hzero, hregistered, List.mem_append]
        by_cases hmem : fd ∈ registrations (operations l)
        · obtain ⟨hlist, hasks, -⟩ := hadded hmem
          exact .inr ⟨by simp [hlist], .inr hmem, task, by simp, hasks⟩
        · exact .inl ⟨by simpa using List.count_eq_zero.mpr hmem, by simp [hnone, hmem]⟩
      · rw [hsince, trafficTo_append, trafficTo_session, List.map_append]
        have happend := (hempty ▸ hcarries).append htraffic
        rwa [List.append_nil] at happend
    · obtain ⟨es, -, htraffic, -, hes⟩ := htask.carries hreg (by omega) run
      have hmem : fd ∉ registrations (operations l) := fun hmem =>
        hlast t ht task List.mem_cons_self ⟨hasks, (hadded hmem).2.1⟩
      refine ⟨⟨_, hreg', .inr ⟨?_, ?_, t, List.mem_append_left _ ht, hasks⟩⟩, ?_⟩
      · rw [hcount, hone, List.count_eq_zero.mpr hmem]
      · rw [hregistered]
        exact List.mem_append_left _ hsome
      · rw [sinceRegistration_append_of_mem hsome, assignedIn_append, assignedIn_session,
          trafficTo_append, trafficTo_session, List.map_append, ← hes hdone hone]
        exact hcarries.append htraffic

variable {ι κ : Type} {s : Pool ι κ}

/-- At any moment the replica has been written SETs that have been executed since it registered,
and all of them when no request is handled. -/
theorem propagated_of_invariant (h : PoolInvariant host FullSends st s)
    (hst : Registered st.serverInfo fds) (hfresh : fd ∉ fds)
    (htasks : ∀ t ∈ s.enqueued, MasterTask host fd t)
    (honce : s.enqueued.Pairwise fun t t' => ¬ (Registers host fd t ∧ Registers host fd t')) :
    ∃ es, es <+: assignedIn (sinceRegistration fd s.log) ∧
      Carries ((trafficTo fd s.log).map recvStr) es ∧
      (s.Idle → es = assignedIn (sinceRegistration fd s.log)) := by
  by_cases hidle : s.Idle
  · obtain ⟨hfifo, hsessions⟩ := h.idle hidle
    rw [← hfifo] at htasks honce
    have hcarries := (propagated_of_sessions hsessions hst hfresh
      (fun t ht => htasks t (List.mem_append_left _ ht)) (List.pairwise_append.mp honce).1).carries
    exact ⟨_, List.prefix_rfl, hcarries, fun _ => rfl⟩
  · obtain ⟨w, task, x, hr⟩ : ∃ w task x, s.Running w task x := by simpa [Pool.Idle] using hidle
    obtain ⟨hfifo, log, l, st₁, hsessions, hrun, hlog⟩ := h.busy w task x hr
    rw [← hfifo] at htasks honce
    obtain ⟨⟨fds₁, hreg, hcases⟩, hcarries⟩ := propagated_of_sessions hsessions hst hfresh
      (fun t ht => htasks t (List.mem_append_left _ ht)) (List.pairwise_append.mp honce).1
    have htask := htasks task (by simp)
    rw [hlog, trafficTo_append, trafficTo_session, List.map_append]
    rcases hcases with ⟨hzero, hnone⟩ | ⟨hone, hsome, -⟩
    · obtain ⟨es, -, htraffic, hes, -⟩ := htask.carries hreg (by omega) hrun
      obtain rfl := hes hzero
      have hempty : assignedIn (sinceRegistration fd log) = [] := by
        rw [sinceRegistration_eq_nil hnone]
        rfl
      exact ⟨_, List.nil_prefix, (hempty ▸ hcarries).append htraffic, fun hidle' => absurd hidle' hidle⟩
    · obtain ⟨es, hbegins, htraffic, -⟩ := htask.carries hreg (by omega) hrun
      rw [sinceRegistration_append_of_mem hsome, assignedIn_append, assignedIn_session]
      exact ⟨_, (List.prefix_append_right_inj _).mpr hbegins, hcarries.append htraffic,
        fun hidle' => absurd hidle' hidle⟩

end Master

/-! ### The socket between the servers -/

/-- The buffer looks like a command. -/
def looksLikeCommand (b : Bytes) : Bool := b.head? = some (byte '*')

section Link

variable {ι ι' κ κ' : Type} {d : Deployment κ κ'} {stM stR : Store} {s s' : System ι ι' κ κ'}
  {port : Int32} {host : Host} {m : Bytes} {n : ℤ} {p : ℕ}

/-- Nothing is lost, repeated or overtaken on the way between the servers, and what the replica
writes to the master looks like a command only in the handshake. -/
structure Linked (d : Deployment κ κ') (s : System ι ι' κ κ') : Prop where
  toReplica : s.replica.receivedFrom d.socketR d.linkR ++ s.toReplica.map recvStr =
    (trafficTo (d.socketM d.linkM) s.master.log).map recvStr
  toMaster : (s.master.receivedFrom d.socketM d.linkM ++
      s.toMaster.map fun e => recvStr e.2).filter looksLikeCommand ++ s.greetings.map recvStr =
    (handshake d.port).map recvStr

theorem looksLikeCommand_recvStr : looksLikeCommand (recvStr m) = looksLikeCommand m := by
  unfold looksLikeCommand
  cases m with
  | nil => rfl
  | cons b bs =>
    by_cases hb : b = 0
    · subst hb
      rfl
    · have hcons : recvStr (b :: bs) = b :: recvStr bs := by simp [recvStr, hb]
      rw [hcons]
      rfl

theorem looksLikeCommand_of_handshake (hm : m ∈ handshake port) : looksLikeCommand m = true := by
  obtain ⟨k, word, rest, -, -, rfl, -⟩ := exists_front hm
  simp [looksLikeCommand, commandFront]

/-- What holds of every buffer that clients send to the master. -/
def Requested (s : System ι ι' κ κ') : Prop :=
  ∀ r ∈ s.requests, (∃ e, OneSet (recvStr r.2) e) ∨ NoSet (recvStr r.2)

theorem Requested.harmless (h : Requested s) :
    ∀ r ∈ s.requests, HarmlessBehindSets d.hostR (recvStr r.2) := by
  intro r hr pos hchain
  obtain ⟨next, hnext, -⟩ := Relation.TransGen.head'_iff.mp hchain
  rcases h r hr with ⟨e, hb⟩ | hno
  · exact absurd hnext hb.not_next
  · exact absurd hnext hno.not_next

theorem masterTask_of_separated (h : Separated d s) (hreq : Requested s) {t : Task}
    (ht : t ∈ s.master.enqueued) : MasterTask d.hostM (d.socketM d.linkM) t := by
  rcases h.masterTasks.enqueued t ht with ⟨r, hr, hne, hfd, hb⟩ | ⟨hfd, e, he, hb⟩
  · have hother : t.clientFd ≠ d.socketM d.linkM := fun heq =>
      hne (d.socketM_injective (hfd.symm.trans heq))
    refine ⟨?_, ?_, fun heq => absurd heq hother⟩
    · rw [hb, recvStr_recvStr]
    · rw [hb]
      exact (hreq r hr).imp (fun hset => ⟨hset, hother⟩) id
  · have hfrom := h.fromReplica e (List.mem_append_left _ he)
    refine ⟨?_, .inr fun host n p hcmd => ?_, fun _ => hb ▸ hfrom.harmless⟩
    · rw [hb, recvStr_recvStr]
    · rw [hb] at hcmd
      exact absurd hcmd hfrom.not_set

/-- The buffer is read as a PSYNC. -/
def ReadsPsync (host : Host) (b : Bytes) : Prop := ∃ n p, CommandAt host b 0 n (str "PSYNC") p

theorem not_readsPsync_of_front {k : ℕ} {word rest : Bytes} (hk : k ∈ [1, 3])
    (hword : word ∈ handshakeWords) (hrest : rest.length ≤ 100) (hne : word ≠ str "PSYNC") :
    ¬ ReadsPsync host (recvStr (commandFront k word ++ rest)) := by
  rintro ⟨n, p, hcmd⟩
  obtain ⟨hzero, hfront, hfit, hupper⟩ := commandFront_bounds k hk word hword
  rw [recvStr_append hzero] at hcmd
  have hle : k ≤ intMax := by
    rcases List.mem_cons.mp hk with rfl | hk
    · decide
    · rw [List.mem_singleton.mp hk]
      decide
  have hlen : (commandFront k word ++ recvStr rest).length ≤ maxSize := by
    have hshort : (recvStr rest).length ≤ rest.length := (List.takeWhile_sublist _).length_le
    have hbig : 200 ≤ maxSize := by decide
    rw [List.length_append]
    omega
  have hfound := commandAt_of_name host (toDecimal_numeral k) hle
    (createStringReponse_bulkString word) hfit hlen ⟨[], recvStr rest, rfl, rfl⟩
  have hname := hcmd.name_eq hfound
  rw [hupper] at hname
  exact hne hname.symm

/-- Only one message of the handshake is a PSYNC. -/
theorem handshake_pairwise (host : Host) (port : Int32) : ((handshake port).map recvStr).Pairwise
    fun b b' => ¬ (ReadsPsync host b ∧ ReadsPsync host b') := by
  have hport := length_intToString_le port
  let listening : Bytes := str "$14\r\nlistening-port\r\n$4\r\n" ++ intToString port.toInt ++ str "\r\n"
  have hlength : listening.length ≤ 100 := by
    have hword : (str "$14\r\nlistening-port\r\n$4\r\n").length = 25 := by decide
    have hend : (str "\r\n").length = 2 := by decide
    simp only [listening, List.length_append]
    omega
  have hping : ¬ ReadsPsync host (recvStr (commandFront 1 (str "PING") ++ [])) :=
    not_readsPsync_of_front (by simp) (by simp [handshakeWords]) (by simp) (by decide)
  have hlisten : ¬ ReadsPsync host (recvStr (commandFront 3 (str "REPLCONF") ++ listening)) :=
    not_readsPsync_of_front (by simp) (by simp [handshakeWords]) hlength (by decide)
  have hcapa : ¬ ReadsPsync host
      (recvStr (commandFront 3 (str "REPLCONF") ++ str "$4\r\ncapa\r\n$6\r\npsync2\r\n")) :=
    not_readsPsync_of_front (by simp) (by simp [handshakeWords]) (by decide) (by decide)
  have hmessages : handshake port = [commandFront 1 (str "PING") ++ [],
      commandFront 3 (str "REPLCONF") ++ listening,
      commandFront 3 (str "REPLCONF") ++ str "$4\r\ncapa\r\n$6\r\npsync2\r\n",
      str "*3\r\n$5\r\nPSYNC\r\n$1\r\n?\r\n$2\r\n-1\r\n"] := by
    have hfront : str "*3\r\n$8\r\nREPLCONF\r\n$14\r\nlistening-port\r\n$4\r\n"
      = commandFront 3 (str "REPLCONF") ++ str "$14\r\nlistening-port\r\n$4\r\n" := by decide
    have hfirst : str "*1\r\n$4\r\nPING\r\n" = commandFront 1 (str "PING") ++ [] := by decide
    have hthird : str "*3\r\n$8\r\nREPLCONF\r\n$4\r\ncapa\r\n$6\r\npsync2\r\n"
      = commandFront 3 (str "REPLCONF") ++ str "$4\r\ncapa\r\n$6\r\npsync2\r\n" := by decide
    rw [handshake, hfirst, hthird, hfront, List.append_assoc, List.append_assoc,
      ← List.append_assoc (str _) (intToString _)]
  rw [hmessages]
  exact .cons (fun _ _ h => hping h.1) <| .cons (fun _ _ h => hlisten h.1) <|
    .cons (fun _ _ h => hcapa h.1) <| .cons (by simp) .nil

theorem ReadsPsync.looksLikeCommand {b : Bytes} (h : ReadsPsync host b) :
    looksLikeCommand b = true := by
  obtain ⟨n, p, hstar, -⟩ := h
  cases b with
  | nil => exact absurd hstar (byteAt_end rfl)
  | cons c cs =>
    rw [byteAt_of_standsAt (standsAt_self _)] at hstar
    simp [ReplicatedWrites.looksLikeCommand, hstar]

/-- The master is asked once to register the replica. -/
theorem Linked.once (h : Linked d s) : s.master.enqueued.Pairwise fun t t' =>
    ¬ (Registers d.hostM (d.socketM d.linkM) t ∧ Registers d.hostM (d.socketM d.linkM) t') := by
  have hbegun : (s.master.enqueuedFor (d.socketM d.linkM)).filter ReplicatedWrites.looksLikeCommand
      <+: (handshake d.port).map recvStr := by
    rw [← h.toMaster, Pool.receivedFrom, List.append_assoc, List.filter_append, List.append_assoc]
    exact List.prefix_append _ _
  have hpairwise := (handshake_pairwise d.hostM d.port).sublist hbegun.sublist
  rw [List.pairwise_filter, Pool.enqueuedFor, List.pairwise_map, List.pairwise_filter] at hpairwise
  refine hpairwise.imp fun {t t'} hnot => ?_
  rintro ⟨⟨hfd, hpsync⟩, ⟨hfd', hpsync'⟩⟩
  exact hnot (by simpa using hfd) (by simpa using hfd') (ReadsPsync.looksLikeCommand hpsync)
    (ReadsPsync.looksLikeCommand hpsync') ⟨hpsync, hpsync'⟩

/-- No request is handled, and the replica has handled everything that was written to it. -/
structure CaughtUp (d : Deployment κ κ') (s : System ι ι' κ κ') : Prop where
  master : s.master.Idle
  replica : s.replica.Idle
  toReplica : s.toReplica = []
  client : s.replica.clients d.linkR = .receiving
  taskQueue : s.replica.taskQueue = []

/-- The socket between the servers carries SETs that the master has executed, in order, and the
replica executes them. -/
theorem replica_log {fds : List ℤ} (hlinked : Linked d s)
    (hM : PoolInvariant d.hostM FullSends stM s.master) (hmaster : Registered stM.serverInfo fds)
    (hfresh : d.socketM d.linkM ∉ fds)
    (htasks : ∀ t ∈ s.master.enqueued, MasterTask d.hostM (d.socketM d.linkM) t)
    (hR : PoolInvariant d.hostR FullSends stR s.replica) (hpers : Persistent stR.database)
    (hreads : ∀ t ∈ s.replica.enqueued, t.clientFd ≠ d.socketR d.linkR → NoSet t.recvStr)
    (hidle : s.replica.Idle) :
    s.replica.store.database = overwrite (assignedIn s.replica.log) stR.database ∧
      assignedIn s.replica.log <+:
        assignedIn (sinceRegistration (d.socketM d.linkM) s.master.log) ∧
      (CaughtUp d s → assignedIn s.replica.log =
        assignedIn (sinceRegistration (d.socketM d.linkM) s.master.log)) := by
  obtain ⟨es, hes, hcarries, hall⟩ :=
    propagated_of_invariant hM hmaster hfresh htasks hlinked.once
  obtain ⟨hfifo, hsessions⟩ := hR.idle hidle
  have hreceived : s.replica.enqueuedFor (d.socketR d.linkR) <+:
      (trafficTo (d.socketM d.linkM) s.master.log).map recvStr := by
    rw [← hlinked.toReplica, Pool.receivedFrom, List.append_assoc]
    exact List.prefix_append _ _
  have hfinished : ∀ t ∈ s.replica.finished, t ∈ s.replica.enqueued := fun t ht =>
    hfifo ▸ List.mem_append_left _ ht
  have hkinds : ∀ t ∈ s.replica.finished, (∃ e, OneSet t.recvStr e) ∨ NoSet t.recvStr := by
    intro t ht
    by_cases hfd : t.clientFd = d.socketR d.linkR
    · refine hcarries.mem (hreceived.subset (List.mem_map.mpr ⟨t, ?_, rfl⟩))
      exact List.mem_filter.mpr ⟨hfinished t ht, by simpa using hfd⟩
    · exact .inr (hreads t (hfinished t ht) hfd)
  obtain ⟨hwritten, hdb, -⟩ := database_of_sessions hsessions hpers hkinds
  have hlink := hwritten.of_socket fun t ht => hreads t (hfinished t ht)
  have hbegun : (s.replica.finished.filter fun t => t.clientFd = d.socketR d.linkR).map Task.recvStr
      <+: s.replica.enqueuedFor (d.socketR d.linkR) := by
    rw [Pool.enqueuedFor, ← hfifo, List.filter_append, List.map_append]
    exact List.prefix_append _ _
  refine ⟨hdb, (hcarries.prefix_of_prefix hlink (hbegun.trans hreceived)).trans hes, fun hup => ?_⟩
  -- everything that was written has been enqueued and finished
  rw [hup.taskQueue, List.append_nil] at hfifo
  have hhand : (s.replica.clients d.linkR).inHand = [] := by
    rw [hup.client]
    rfl
  have hto := hlinked.toReplica
  rw [Pool.receivedFrom, hhand, hup.toReplica, List.map_nil, List.append_nil, List.append_nil,
    Pool.enqueuedFor, ← hfifo] at hto
  rw [hto] at hlink
  rw [← hall hup.master, hlink.unique hcarries]

variable [DecidableEq ι] [DecidableEq ι'] [DecidableEq κ] [DecidableEq κ']

theorem linked_step (hsep : Separated d s') (h : Linked d s) (hs : SystemStep d s s') :
    Linked d s' := by
  obtain ⟨hto, hfrom⟩ := h
  cases hs with
  | @request c m master hc hs =>
    have hreceived : master.receivedFrom d.socketM d.linkM = _ ++ if c = d.linkM then _ else _ :=
      receivedFrom_step d.socketM_injective hs d.linkM
    have hlog : master.log = s.master.log ++ [] := log_step hs
    rw [if_neg hc, List.append_nil] at hreceived
    rw [List.append_nil] at hlog
    exact ⟨by rwa [hlog], by rwa [hreceived]⟩
  | @replicaRequest c m replica hc hs =>
    have hreceived : replica.receivedFrom d.socketR d.linkR = _ ++ if c = d.linkR then _ else _ :=
      receivedFrom_step d.socketR_injective hs d.linkR
    rw [if_neg hc, List.append_nil] at hreceived
    exact ⟨by rwa [hreceived], hfrom⟩
  | @greet m ms hgreetings =>
    have hm : m ∈ handshake d.port := hsep.fromReplica (.handshake, m) (by simp)
    refine ⟨hto, ?_⟩
    rw [hgreetings, List.map_cons] at hfrom
    have hlooks : looksLikeCommand (recvStr m) = true := by
      rw [looksLikeCommand_recvStr, looksLikeCommand_of_handshake hm]
    simpa [List.filter_append, hlooks] using hfrom
  | @deliverToMaster e es master hchannel hs =>
    have hreceived : master.receivedFrom d.socketM d.linkM
        = _ ++ if d.linkM = d.linkM then [recvStr e.2] else [] :=
      receivedFrom_step d.socketM_injective hs d.linkM
    have hlog : master.log = s.master.log ++ [] := log_step hs
    rw [List.append_nil] at hlog
    rw [if_pos rfl] at hreceived
    refine ⟨by rwa [hlog], ?_⟩
    rw [hchannel] at hfrom
    simpa [hreceived] using hfrom
  | @deliverToReplica m ms replica hchannel hs =>
    have hreceived : replica.receivedFrom d.socketR d.linkR
        = _ ++ if d.linkR = d.linkR then [recvStr m] else [] :=
      receivedFrom_step d.socketR_injective hs d.linkR
    rw [if_pos rfl] at hreceived
    refine ⟨?_, hfrom⟩
    rw [hchannel] at hto
    simpa [hreceived] using hto
  | @master task acts master hs =>
    have hreceived : master.receivedFrom d.socketM d.linkM = _ ++ [] :=
      receivedFrom_step d.socketM_injective hs d.linkM
    have hlog : master.log = s.master.log ++ acts.map (Prod.mk task) := log_step hs
    rw [List.append_nil] at hreceived
    refine ⟨?_, by rwa [hreceived]⟩
    rw [hlog, trafficTo_append, trafficTo_session, List.map_append, List.map_append,
      ← List.append_assoc, hto]
  | @replica task acts replica hs =>
    have hreceived : replica.receivedFrom d.socketR d.linkR = _ ++ [] :=
      receivedFrom_step d.socketR_injective hs d.linkR
    rw [List.append_nil] at hreceived
    refine ⟨by rwa [hreceived], ?_⟩
    -- the replies do not look like commands
    have hnone : ((traffic (d.socketR d.linkR) task.clientFd acts).map recvStr).filter looksLikeCommand
        = [] := by
      rw [List.filter_eq_nil_iff]
      intro b hb
      obtain ⟨m, hm, rfl⟩ := List.mem_map.mp hb
      have hreply : m.head? ≠ some (byte '*') := hsep.fromReplica (.reply, m) (by simp [hm])
      rw [looksLikeCommand_recvStr]
      simpa [looksLikeCommand] using hreply
    simpa [List.filter_append, List.map_map, Function.comp_def, hnone] using hfrom
  | @masterInternal master hs =>
    have hreceived : master.receivedFrom d.socketM d.linkM = _ ++ [] :=
      receivedFrom_step d.socketM_injective hs d.linkM
    have hlog : master.log = s.master.log ++ [] := log_step hs
    rw [List.append_nil] at hreceived hlog
    exact ⟨by rwa [hlog], by rwa [hreceived]⟩
  | @replicaInternal replica hs =>
    have hreceived : replica.receivedFrom d.socketR d.linkR = _ ++ [] :=
      receivedFrom_step d.socketR_injective hs d.linkR
    rw [List.append_nil] at hreceived
    exact ⟨by rwa [hreceived], hfrom⟩

theorem linked_of_run (hslave : stR.serverInfo.role = str "slave") (h : SystemRun d stM stR s)
    (hreq : Requested s) : Linked d s := by
  induction h with
  | start => exact ⟨rfl, rfl⟩
  | @step s s' hrun hs ih =>
    have hreq' : Requested s := fun r hr => hreq r (requests_subset hs hr)
    exact linked_step (separated_of_run hslave (hrun.step hs) hreq.harmless) (ih hreq') hs

/-- A master and its replica, any number of clients and workers on either side, and any schedule.
Whenever the replica handles no request, its database is what it held at first with the SETs
written into it that the master has executed since the replica registered, up to some point: in
their order, each once, none left out. When the replica has caught up, these are all of them. -/
theorem replica_shows_prefix {fds : List ℤ} (hslave : stR.serverInfo.role = str "slave")
    (hmaster : Registered stM.serverInfo fds) (hfresh : d.socketM d.linkM ∉ fds)
    (hpersM : Persistent stM.database) (hpersR : Persistent stR.database)
    (h : SystemRun d stM stR s) (hreq : Requested s)
    (hreads : ∀ t ∈ s.replica.enqueued, t.clientFd ≠ d.socketR d.linkR → NoSet t.recvStr) :
    (s.master.Idle →
      s.master.store.database = overwrite (assignedIn s.master.log) stM.database) ∧
    (s.replica.Idle →
      s.replica.store.database = overwrite (assignedIn s.replica.log) stR.database ∧
      assignedIn s.replica.log <+:
        assignedIn (sinceRegistration (d.socketM d.linkM) s.master.log)) ∧
    (CaughtUp d s → assignedIn s.replica.log =
      assignedIn (sinceRegistration (d.socketM d.linkM) s.master.log)) := by
  have hsep := separated_of_run hslave h hreq.harmless
  have htasks : ∀ t ∈ s.master.enqueued, MasterTask d.hostM (d.socketM d.linkM) t :=
    fun t ht => masterTask_of_separated hsep hreq ht
  have hlog := replica_log (linked_of_run hslave h hreq) h.master.invariant hmaster hfresh htasks
    h.replica.invariant hpersR hreads
  refine ⟨fun hidle => ?_, fun hidle => ⟨(hlog hidle).1, (hlog hidle).2.1⟩,
    fun hup => (hlog hup.replica).2.2 hup⟩
  obtain ⟨hfifo, hsessions⟩ := h.master.invariant.idle hidle
  refine (database_of_sessions hsessions hpersM fun t ht => ?_).2.1
  exact (htasks t (hfifo ▸ List.mem_append_left _ ht)).kind.imp And.left id

end Link

/-- Every task comes from the socket of a client. -/
theorem exists_socket {ι κ : Type} [DecidableEq ι] [DecidableEq κ] {host : Host} {clientFd : κ → ℤ}
    {allowed : Exchange → Move → Prop} {st : Store} {s : Pool ι κ}
    (h : PoolRun host clientFd allowed st s) :
    s.Provenance clientFd fun fd _ => ∃ c, fd = clientFd c := by
  induction h with
  | start => exact provenance_start st
  | step _ hs ih => exact provenance_step ih hs fun c _ _ => ⟨c, rfl⟩

def setRequest : Bytes := createArrayReponse [str "SET", str "a", str "1"]

theorem oneSet_setRequest : OneSet (recvStr setRequest) (str "a", ⟨str "1", 0⟩) := by
  have hrecv : recvStr setRequest = setRequest := by decide
  have hset : SetCommand [str "SET", str "a", str "1"] ⟨str "a", str "1", none⟩ := .plain (by decide)
  rw [hrecv]
  exact .mk (createArrayReponse_request _) hset rfl (by decide)

/-- A SET on the master that the replica has executed. -/
theorem replica_shows_prefix_after_set : ∃ s : System Unit Unit Bool Unit,
    SystemRun pair (.empty []) slaveStore s ∧ s.replica.Idle ∧
      s.replica.store.database.lookup (str "a") = some ⟨str "1", 0⟩ ∧
      assignedIn s.replica.log <+: assignedIn (sinceRegistration 7 s.master.log) := by
  obtain ⟨tr, st, hx, hover, hsends⟩ : ∃ tr st,
      Handles .plain 5 (recvStr setRequest) (.empty [7]) tr (.ok ()) st ∧
      Op.communicationOver ∈ tr ∧ sendsTo 7 tr = [setRequest] :=
    ⟨_, _, Machine.eval_sound (n := 6) rfl, by decide, by decide⟩
  obtain ⟨trR, stR, hxR, hoverR, hlookup⟩ : ∃ tr st,
      Handles .plain 3 (recvStr setRequest) slaveStore tr (.ok ()) st ∧
      Op.communicationOver ∈ tr ∧ st.database.lookup (str "a") = some ⟨str "1", 0⟩ :=
    ⟨_, _, Machine.eval_sound (n := 6) rfl, by decide, by decide⟩
  obtain ⟨lR, hservedR⟩ := exists_served hxR hoverR
  obtain ⟨s, hrun, -, -, hrestR, hstoreR, -, -, hrequests⟩ := exists_propagated hx hover hsends hservedR
  obtain ⟨-, hreplica, -⟩ := replica_shows_prefix rfl (registered_empty []) (by simp)
    (fun k v hk => by simp [Store.empty] at hk) (fun k v hk => by simp [slaveStore, Store.empty] at hk) hrun
    (fun r hr => by
      rw [hrequests] at hr
      rw [List.mem_singleton.mp hr]
      exact .inl ⟨_, oneSet_setRequest⟩)
    (fun t ht hfd => by
      obtain ⟨c, hc⟩ := (exists_socket hrun.replica).enqueued t ht
      exact absurd hc hfd)
  exact ⟨s, hrun, hrestR.idle, hstoreR ▸ hlookup, (hreplica hrestR.idle).2⟩

end RedisServer.ReplicatedWrites
