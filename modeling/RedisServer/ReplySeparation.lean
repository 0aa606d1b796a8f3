import RedisServer.ChainContracts
import RedisServer.ReplicationLink

/-!
# Requests and replies on the replication socket

The master tells the replies of its replica from commands by the first byte alone. That is
enough as long as nothing that it propagates is answered with an array.
-/

namespace RedisServer.ReplySeparation
open ByteStrings CxxStrings RespGrammar InteractionPrograms ServerState Utils RedisParser
open RequestChain RequestDecoding ResponseExchange ServedRequests WorkerPool SplitRequests
open ChainContracts ReplicationLink

variable {ι ι' κ κ' : Type}

section Received

variable {host : Host} {m : Bytes}

/-- What does not begin with an asterisk is no command. -/
theorem byteAt_recvStr_ne (h : m.head? ≠ some (byte '*')) :
    byteAt host (recvStr m) 0 ≠ byte '*' := by
  by_cases hm : m = []
  · subst hm
    exact byteAt_end rfl
  · exact mt (byteAt_recvStr hm).mp h

end Received

section Handshake

variable {host : Host} {port : Int32} {m : Bytes} {n : ℤ} {name : Bytes} {p : ℕ}

theorem length_intToString_le (port : Int32) : (intToString port.toInt).length ≤ 11 := by
  have hlower := port.le_toInt
  have hupper := port.toInt_lt
  have hdigits : (toDecimal port.toInt.natAbs).length ≤ 10 := by
    rw [toDecimal, List.length_map, Nat.length_toDigits_le_iff (by omega) (by omega)]
    omega
  unfold intToString
  split
  · rw [List.length_cons]
    omega
  · omega

/-- The beginning of a message: an array header and a name. -/
def commandFront (k : ℕ) (word : Bytes) : Bytes :=
  byte '*' :: (toDecimal k ++ crlf ++ createStringReponse word)

def handshakeWords : List Bytes := [str "PING", str "REPLCONF", str "PSYNC"]

theorem exists_front (hm : m ∈ handshake port) : ∃ k word rest, k ∈ [1, 3] ∧
    word ∈ handshakeWords ∧ m = commandFront k word ++ rest ∧ rest.length ≤ 100 := by
  have hport := length_intToString_le port
  simp only [handshake, List.mem_cons, List.not_mem_nil, or_false] at hm
  rcases hm with rfl | rfl | rfl | rfl
  · exact ⟨1, str "PING", [], by simp, by simp [handshakeWords], by decide, by simp⟩
  · refine ⟨3, str "REPLCONF",
      str "$14\r\nlistening-port\r\n$4\r\n" ++ intToString port.toInt ++ str "\r\n", by simp,
      by simp [handshakeWords], ?_, ?_⟩
    · rw [← List.append_assoc, ← List.append_assoc]
      congr 1
    · simp only [List.length_append]
      have hlength : (str "$14\r\nlistening-port\r\n$4\r\n").length = 25 := by decide
      have hcrlf : (str "\r\n").length = 2 := by decide
      omega
  · exact ⟨3, str "REPLCONF", str "$4\r\ncapa\r\n$6\r\npsync2\r\n", by simp,
      by simp [handshakeWords], by decide, by decide⟩
  · exact ⟨3, str "PSYNC", str "$1\r\n?\r\n$2\r\n-1\r\n", by simp, by simp [handshakeWords],
      by decide, by decide⟩

theorem commandFront_bounds : ∀ k ∈ [1, 3], ∀ word ∈ handshakeWords,
    (0 : UInt8) ∉ commandFront k word ∧ (commandFront k word).length ≤ 100 ∧
      word.length + 2 ≤ intMax ∧ word.map toUpper = word := by
  decide

theorem name_of_handshake (hm : m ∈ handshake port)
    (hcmd : CommandAt host (recvStr m) 0 n name p) : name ∈ handshakeWords := by
  obtain ⟨k, word, rest, hk, hword, rfl, hrest⟩ := exists_front hm
  obtain ⟨hzero, hfront, hfit, hupper⟩ := commandFront_bounds k hk word hword
  rw [recvStr_append hzero] at hcmd
  have hle : k ≤ intMax := by
    rcases List.mem_cons.mp hk with rfl | hk
    · decide
    · rw [List.mem_singleton.mp hk]
      decide
  have hlen : (commandFront k word ++ recvStr rest).length ≤ maxSize := by
    have hshort : (recvStr rest).length ≤ rest.length := (List.takeWhile_sublist _).length_le
    have hbig : 200 ≤ maxSize := by decide
    rw [List.length_append]
    omega
  have hfound := commandAt_of_name host (toDecimal_numeral k) hle
    (createStringReponse_bulkString word) hfit hlen ⟨[], recvStr rest, rfl, rfl⟩
  obtain rfl := hcmd.name_eq hfound
  rw [hupper]
  exact hword

theorem ne_of_mem_handshakeWords : ∀ word ∈ handshakeWords,
    word ≠ str "SET" ∧ word ≠ str "KEYS" ∧ word ≠ str "CONFIG" := by
  decide

theorem harmless_of_handshake (hm : m ∈ handshake port) : Harmless host (recvStr m) :=
  harmless_of_name fun _ _ _ hcmd => ne_of_mem_handshakeWords _ (name_of_handshake hm hcmd)

end Handshake

section Separation

/-- What the replica may have written: a message of its handshake, or a reply that is not
an array. -/
def FromReplica (d : Deployment κ κ') (e : Origin × Bytes) : Prop :=
  match e.1 with
  | .handshake => e.2 ∈ handshake d.port
  | .reply => e.2.head? ≠ some (byte '*')

/-- Where the task `b` on the socket `fd` of the master comes from. -/
def Received (d : Deployment κ κ') (s : System ι ι' κ κ') (fd : ℤ) (b : Bytes) : Prop :=
  (∃ r ∈ s.requests, r.1 ≠ d.linkM ∧ fd = d.socketM r.1 ∧ b = recvStr r.2) ∨
    fd = d.socketM d.linkM ∧ ∃ e ∈ s.delivered, b = recvStr e.2

/-- Nothing that is on the way to the replica, or being handled there, is answered with an
array, and nothing that the replica replies looks like a command. -/
structure Separated (d : Deployment κ κ') (s : System ι ι' κ κ') : Prop where
  greetings : ∀ m ∈ s.greetings, m ∈ handshake d.port
  fromReplica : ∀ e ∈ s.delivered ++ s.toMaster, FromReplica d e
  toReplica : ∀ m ∈ s.toReplica, Harmless d.hostR (recvStr m)
  masterTasks : s.master.Provenance d.socketM (Received d s)
  replicaTasks : s.replica.Provenance d.socketR fun fd b =>
    fd = d.socketR d.linkR → Harmless d.hostR b

variable {d : Deployment κ κ'} {stM stR : Store} {s s' : System ι ι' κ κ'} {e : Origin × Bytes}
  {m : Bytes}

theorem separated_start : Separated d (System.start d stM stR : System ι ι' κ κ') where
  greetings := fun _ hm => hm
  fromReplica := nofun
  toReplica := nofun
  masterTasks := provenance_start stM
  replicaTasks := provenance_start stR

/-- The master answers what the replica writes, if at all, without arrays. -/
theorem FromReplica.harmless {host : Host} (h : FromReplica d e) : Harmless host (recvStr e.2) := by
  obtain ⟨o, m⟩ := e
  cases o with
  | handshake => exact harmless_of_handshake h
  | reply => exact harmless_of_stray (byteAt_recvStr_ne h)

theorem FromReplica.not_set {host : Host} {n : ℤ} {p : ℕ} (h : FromReplica d e) :
    ¬ CommandAt host (recvStr e.2) 0 n (str "SET") p := by
  intro hcmd
  obtain ⟨o, m⟩ := e
  cases o with
  | handshake => exact (ne_of_mem_handshakeWords _ (name_of_handshake h hcmd)).1 rfl
  | reply => exact byteAt_recvStr_ne h hcmd.1

section Sessions

variable {host : Host} {allowed : Exchange → Move → Prop} {I : Store → Prop} {task : Task}
  {l acts : List Action} {fd : ℤ}

theorem mem_operations_append {o : Op} (h : o ∈ operations acts) : o ∈ operations (l ++ acts) := by
  rw [operations_append]
  exact List.mem_append_right _ h

theorem head?_ne_of_writes (h : SessionOf host FullSends I task (l ++ acts))
    (hharmless : Harmless host task.recvStr) (hm : m ∈ writes acts) :
    m.head? ≠ some (byte '*') := by
  obtain ⟨st₁, x, st₂, -, hrun⟩ := h
  refine head?_ne_of_harmless hharmless hrun (mem_messages_of_mem_writes hrun ?_)
  rw [writes_append]
  exact List.mem_append_right _ hm

end Sessions

/-- What the master writes to the replica. -/
theorem harmless_of_traffic (h : Separated d s)
    (hreq : ∀ r ∈ s.requests, HarmlessBehindSets d.hostR (recvStr r.2)) {task : Task}
    {l acts : List Action} (htask : task ∈ s.master.enqueued)
    (hsession : SessionOf d.hostM FullSends (fun _ => True) task (l ++ acts))
    (hm : m ∈ traffic (d.socketM d.linkM) task.clientFd acts) : Harmless d.hostR (recvStr m) := by
  have horigin := h.masterTasks.enqueued task htask
  rcases mem_traffic hm with hsend | ⟨hwrite, hfd⟩
  · obtain ⟨st₁, x, st₂, -, hrun⟩ := hsession
    obtain ⟨rfl, n, p, hset⟩ := send_of_session hrun (mem_operations_append hsend)
    rcases horigin with ⟨r, hr, -, -, hb⟩ | ⟨-, e, he, hb⟩
    · rw [hb] at hset ⊢
      rw [recvStr_recvStr]
      exact (hreq r hr).harmless hset
    · rw [hb] at hset
      exact absurd hset (h.fromReplica e (List.mem_append_left _ he)).not_set
  · rcases horigin with ⟨r, -, hne, hfd', -⟩ | ⟨-, e, he, hb⟩
    · exact absurd (d.socketM_injective (hfd'.symm.trans hfd)) hne
    · have hharmless : Harmless d.hostM task.recvStr :=
        hb ▸ (h.fromReplica e (List.mem_append_left _ he)).harmless
      exact harmless_of_stray (byteAt_recvStr_ne (head?_ne_of_writes hsession hharmless hwrite))

/-- What the replica writes to the master. -/
theorem head?_ne_of_traffic (h : Separated d s) {task : Task} {l acts : List Action}
    (htask : task ∈ s.replica.enqueued)
    (hsession : SessionOf d.hostR FullSends (fun st => st.serverInfo.role = str "slave") task
      (l ++ acts))
    (hm : m ∈ traffic (d.socketR d.linkR) task.clientFd acts) : m.head? ≠ some (byte '*') := by
  rcases mem_traffic hm with hsend | ⟨hwrite, hfd⟩
  · obtain ⟨st₁, x, st₂, hslave, hrun⟩ := hsession
    exact absurd (mem_operations_append hsend) (not_send_of_slave hslave hrun _ _)
  · exact head?_ne_of_writes hsession (h.replicaTasks.enqueued task htask hfd) hwrite

theorem Received.mono {fd : ℤ} {b : Bytes} (hr : s.requests ⊆ s'.requests)
    (hd : s.delivered ⊆ s'.delivered) (h : Received d s fd b) : Received d s' fd b := by
  rcases h with ⟨r, hmem, horigin⟩ | ⟨hfd, e, hmem, hb⟩
  · exact .inl ⟨r, hr hmem, horigin⟩
  · exact .inr ⟨hfd, e, hd hmem, hb⟩

variable [DecidableEq ι] [DecidableEq ι'] [DecidableEq κ] [DecidableEq κ']

theorem separated_step (hslave : stR.serverInfo.role = str "slave") (hrun : SystemRun d stM stR s)
    (hreq : ∀ r ∈ s.requests, HarmlessBehindSets d.hostR (recvStr r.2)) (h : Separated d s)
    (hs : SystemStep d s s') : Separated d s' := by
  have ⟨hgreetings, hfrom, hto, hmaster, hreplica⟩ := h
  cases hs with
  | @request c m _ hc hs =>
    refine ⟨hgreetings, hfrom, hto, ?_, hreplica⟩
    refine provenance_step (hmaster.mono fun _ _ =>
      Received.mono (List.subset_append_left _ _) (List.Subset.refl _)) hs fun c' b hev => ?_
    cases hev
    exact .inl ⟨(c, m), by simp, hc, rfl, rfl⟩
  | replicaRequest hc hs =>
    refine ⟨hgreetings, hfrom, hto, hmaster, provenance_step hreplica hs fun c' b hev hfd => ?_⟩
    cases hev
    exact absurd (d.socketR_injective hfd) hc
  | greet hm =>
    rw [hm] at hgreetings
    obtain ⟨hfirst, hrest⟩ := List.forall_mem_cons.mp hgreetings
    refine ⟨hrest, ?_, hto, hmaster, hreplica⟩
    rw [← List.append_assoc]
    exact List.forall_mem_append.mpr ⟨hfrom, List.forall_mem_singleton.mpr hfirst⟩
  | @deliverToMaster e _ _ hchannel hs =>
    rw [hchannel] at hfrom
    refine ⟨hgreetings, by simpa using hfrom, hto, ?_, hreplica⟩
    refine provenance_step (hmaster.mono fun _ _ =>
      Received.mono (List.Subset.refl _) (List.subset_append_left _ _)) hs fun c' b hev => ?_
    cases hev
    exact .inr ⟨rfl, e, by simp, rfl⟩
  | deliverToReplica hchannel hs =>
    rw [hchannel] at hto
    obtain ⟨hfirst, hrest⟩ := List.forall_mem_cons.mp hto
    refine ⟨hgreetings, hfrom, hrest, hmaster, provenance_step hreplica hs fun c' b hev _ => ?_⟩
    cases hev
    exact hfirst
  | master hs =>
    obtain ⟨htask, l, hsession⟩ := hrun.master.observed (I := fun _ => True)
      (fun _ _ _ _ => trivial) trivial hs
    refine ⟨hgreetings, hfrom, List.forall_mem_append.mpr ⟨hto, fun m hm => ?_⟩,
      provenance_step hmaster hs nofun, hreplica⟩
    exact harmless_of_traffic h hreq htask hsession hm
  | replica hs =>
    obtain ⟨htask, l, hsession⟩ := hrun.replica.observed
      (I := fun st => st.serverInfo.role = str "slave")
      (fun host o st hst => (role_performOp host o st).trans hst) hslave hs
    refine ⟨hgreetings, ?_, hto, hmaster, provenance_step hreplica hs nofun⟩
    rw [← List.append_assoc]
    refine List.forall_mem_append.mpr ⟨hfrom, List.forall_mem_map.mpr fun m hm => ?_⟩
    exact head?_ne_of_traffic h htask hsession hm
  | masterInternal hs => exact ⟨hgreetings, hfrom, hto, provenance_step hmaster hs nofun, hreplica⟩
  | replicaInternal hs => exact ⟨hgreetings, hfrom, hto, hmaster, provenance_step hreplica hs nofun⟩

theorem requests_subset (hs : SystemStep d s s') : s.requests ⊆ s'.requests := by
  cases hs with
  | request => exact List.subset_append_left _ _
  | _ => exact List.Subset.refl _

theorem separated_of_run (hslave : stR.serverInfo.role = str "slave")
    (h : SystemRun d stM stR s)
    (hreq : ∀ r ∈ s.requests, HarmlessBehindSets d.hostR (recvStr r.2)) : Separated d s := by
  induction h with
  | start => exact separated_start
  | step hrun hs ih =>
    have hreq' := fun r hr => hreq r (requests_subset hs hr)
    exact separated_step hslave hrun hreq' (ih hreq') hs

end Separation

/-- A master with one client, and its replica, which has none. -/
def pair : Deployment Bool Unit where
  hostM := .plain
  hostR := .plain
  socketM := fun c => if c then 7 else 5
  socketR := fun _ => 3
  socketM_injective := by decide
  socketR_injective := fun _ _ _ => rfl
  linkM := true
  linkR := ()
  port := 6380

def slaveStore : Store :=
  (Store.empty []).setServerInfo ((ServerInfo.initial []).updateRole (str "slave"))

theorem systemRun_start : SystemRun pair (.empty []) slaveStore
    (.start pair (.empty []) slaveStore : System Unit Unit Bool Unit) := .start

section Registration

/-- Messages that a server receives and passes over. -/
abbrev PassedOver (m : Bytes) : Prop := m.head? ≠ some (byte '*')

/-- Handling the message propagates nothing and is answered with messages that the replica
passes over. -/
def AnsweredInPassing (d : Deployment κ κ') (m : Bytes) (st st' : Store) : Prop :=
  ∃ tr, Handles d.hostM (d.socketM d.linkM) (recvStr m) st tr (.ok ()) st' ∧
    Op.communicationOver ∈ tr ∧ sendsTo (d.socketM d.linkM) tr = [] ∧
    ∀ m ∈ messages tr, PassedOver m

variable [DecidableEq ι] [DecidableEq ι'] [DecidableEq κ] [DecidableEq κ'] {d : Deployment κ κ'}
  {stM stR st st' : Store} {s : System ι ι' κ κ'}

/-- The replica at rest receives such messages in turn, without a trace. -/
theorem exists_passedOver {ms rest : List Bytes} (h : SystemRun d stM stR s)
    (hrest : s.replica.AtRest) (w : ι') (hchannel : s.toReplica = ms ++ rest)
    (hms : ∀ m ∈ ms, PassedOver m) :
    ∃ replica : Pool ι' κ', replica.AtRest ∧ replica.store = s.replica.store ∧
      SystemRun d stM stR { s with replica := replica, toReplica := rest } := by
  induction ms generalizing s with
  | nil =>
    refine ⟨s.replica, hrest, rfl, ?_⟩
    rw [List.nil_append] at hchannel
    rwa [← hchannel]
  | cons m ms ih =>
    obtain ⟨hhead, hms⟩ := List.forall_mem_cons.mp hms
    have hstray : byteAt d.hostR (recvStr m) 0 ≠ byte '*' := byteAt_recvStr_ne hhead
    obtain ⟨l, hserved⟩ := exists_served_of_stray (d.socketR d.linkR) hstray s.replica.store
    obtain ⟨replica, hrest', hstore, hrun⟩ := h.exists_deliverToReplica hrest w hchannel hserved
    rw [(hserved.stray hstray).1, List.map_nil, List.append_nil] at hrun
    obtain ⟨replica', hrest'', hstore', hrun'⟩ := ih hrun hrest' rfl hms
    exact ⟨replica', hrest'', hstore'.trans hstore, hrun'⟩

theorem exists_answered {m : Bytes} {es : List (Origin × Bytes)} (h : SystemRun d stM stR s)
    (hrest : s.master.AtRest) (w : ι) (hchannel : s.toMaster = (.handshake, m) :: es)
    (hstore : s.master.store = st) (hanswered : AnsweredInPassing d m st st')
    (hms : ∀ m ∈ s.toReplica, PassedOver m) :
    ∃ (master : Pool ι κ) (ms : List Bytes), master.AtRest ∧ master.store = st' ∧
      (∀ m ∈ ms, PassedOver m) ∧ SystemRun d stM stR
        { s with
          master := master
          toReplica := ms
          toMaster := es
          delivered := s.delivered ++ [(.handshake, m)] } := by
  subst hstore
  obtain ⟨tr, hx, hover, hsends, hanswers⟩ := hanswered
  obtain ⟨l, hserved⟩ := exists_served hx hover
  obtain ⟨hops, -⟩ := hserved.eq_of_handles hx
  obtain ⟨master, hrest', hstore, hrun⟩ := h.exists_deliverToMaster hrest w hchannel hserved
  refine ⟨master, _, hrest', hstore, List.forall_mem_append.mpr ⟨hms, fun m' hm' => ?_⟩, hrun⟩
  obtain ⟨x, hsession, -⟩ := hserved
  rw [traffic_of_replies (hops ▸ hsends)] at hm'
  exact hanswers m' (hops ▸ mem_messages_of_mem_writes hsession hm')

/-- After the handshake the replica is registered, and nothing but answers to the handshake
is on the way to it. -/
theorem exists_registered : ∃ s : System Unit Unit Bool Unit,
    SystemRun pair (.empty []) slaveStore s ∧ s.master.AtRest ∧ s.master.store = .empty [7] ∧
    s.replica.AtRest ∧ s.replica.store = slaveStore ∧ s.toMaster = [] ∧ s.requests = [] ∧
    ∀ m ∈ s.toReplica, PassedOver m := by
  have hgreeted :=
    (((systemRun_start.step (.greet rfl)).step (.greet rfl)).step (.greet rfl)).step (.greet rfl)
  have hone : ∀ {m : Bytes}, PassedOver m → ∀ m' ∈ [m], PassedOver m' :=
    fun h => List.forall_mem_singleton.mpr h
  have hok : PassedOver okResponse := by decide
  have hping : AnsweredInPassing pair (str "*1\r\n$4\r\nPING\r\n") (.empty []) (.empty []) :=
    ⟨_, Machine.eval_sound (n := 4) rfl, by decide, by decide, hone (by decide)⟩
  have hport : AnsweredInPassing pair
      (str "*3\r\n$8\r\nREPLCONF\r\n$14\r\nlistening-port\r\n$4\r\n" ++
        intToString pair.port.toInt ++ str "\r\n") (.empty []) (.empty []) :=
    ⟨_, Machine.eval_sound (n := 4) rfl, by decide, by decide, hone hok⟩
  have hcapa : AnsweredInPassing pair (str "*3\r\n$8\r\nREPLCONF\r\n$4\r\ncapa\r\n$6\r\npsync2\r\n")
      (.empty []) (.empty []) :=
    ⟨_, Machine.eval_sound (n := 4) rfl, by decide, by decide, hone hok⟩
  have hpsync : AnsweredInPassing pair (str "*3\r\n$5\r\nPSYNC\r\n$1\r\n?\r\n$2\r\n-1\r\n")
      (.empty []) (.empty [7]) :=
    ⟨_, Machine.eval_sound (n := 4) rfl, by decide, by decide,
      List.forall_mem_cons.mpr ⟨by decide, hone (by decide)⟩⟩
  obtain ⟨m₁, ms₁, hrest₁, hstore₁, hms₁, hrun₁⟩ :=
    exists_answered hgreeted (atRest_start _) () rfl rfl hping nofun
  obtain ⟨m₂, ms₂, hrest₂, hstore₂, hms₂, hrun₂⟩ :=
    exists_answered hrun₁ hrest₁ () rfl hstore₁ hport hms₁
  obtain ⟨m₃, ms₃, hrest₃, hstore₃, hms₃, hrun₃⟩ :=
    exists_answered hrun₂ hrest₂ () rfl hstore₂ hcapa hms₂
  obtain ⟨m₄, ms₄, hrest₄, hstore₄, hms₄, hrun₄⟩ :=
    exists_answered hrun₃ hrest₃ () rfl hstore₃ hpsync hms₃
  exact ⟨_, hrun₄, hrest₄, hstore₄, atRest_start _, rfl, rfl, rfl, hms₄⟩

/-- A buffer of the client that the master propagates and the replica answers. -/
theorem exists_propagated {b : Bytes} {tr : List Op} {lR : List Action}
    (hx : Handles .plain 5 (recvStr b) (.empty [7]) tr (.ok ()) st)
    (hover : Op.communicationOver ∈ tr) (hsends : sendsTo 7 tr = [b])
    (hservedR : Served .plain 3 (recvStr b) slaveStore FullSends lR stR) :
    ∃ s : System Unit Unit Bool Unit, SystemRun pair (.empty []) slaveStore s ∧
      s.master.AtRest ∧ s.master.store = st ∧ s.replica.AtRest ∧ s.replica.store = stR ∧
      s.toReplica = [] ∧ s.toMaster = (traffic 3 3 lR).map (Prod.mk .reply) ∧
      s.requests = [(false, b)] := by
  obtain ⟨s, hrun, hrest, hstore, hrestR, hstoreR, hchannel, hrequests, hms⟩ := exists_registered
  -- the master executes the buffer and propagates it
  rw [← hstore] at hx
  obtain ⟨l, hserved⟩ := exists_served hx hover
  obtain ⟨hops, -⟩ := hserved.eq_of_handles hx
  obtain ⟨m₁, hrest₁, hstore₁, hrun₁⟩ := hrun.exists_request (c := false) hrest () (by decide) hserved
  have htraffic : traffic 7 5 l = [b] := by
    rw [traffic_of_ne (by decide), hops, hsends]
  -- the replica passes over the answers to its handshake and answers the buffer
  obtain ⟨r₁, hrestR₁, hstoreR₁, hrun₂⟩ := exists_passedOver hrun₁ hrestR () rfl hms
  rw [← hstoreR, ← hstoreR₁] at hservedR
  obtain ⟨r₂, hrestR₂, hstoreR₂, hrun₃⟩ := hrun₂.exists_deliverToReplica hrestR₁ () htraffic hservedR
  refine ⟨_, hrun₃, hrest₁, hstore₁, hrestR₂, hstoreR₂, rfl, ?_, ?_⟩
  · rw [hchannel]
    rfl
  · rw [hrequests]
    rfl

end Registration

section Dispatch

variable [DecidableEq ι] [DecidableEq ι'] [DecidableEq κ] [DecidableEq κ'] {d : Deployment κ κ'}
  {stM stR : Store} {s : System ι ι' κ κ'} {host : Host}

/-- In no run is a reply of the replica taken for a command, if no client sends a buffer in
which a command behind a SET is answered with an array: every buffer that the master takes
for commands comes from a client or is a message of the handshake. -/
theorem replies_not_dispatched (hslave : stR.serverInfo.role = str "slave")
    (h : SystemRun d stM stR s)
    (hreq : ∀ r ∈ s.requests, HarmlessBehindSets d.hostR (recvStr r.2)) :
    (∀ m, (Origin.reply, m) ∈ s.delivered → byteAt d.hostM (recvStr m) 0 ≠ byte '*') ∧
    ∀ task ∈ s.master.enqueued, byteAt d.hostM task.recvStr 0 = byte '*' →
      (∃ r ∈ s.requests, task.clientFd = d.socketM r.1 ∧ task.recvStr = recvStr r.2) ∨
      task.clientFd = d.socketM d.linkM ∧ ∃ m ∈ handshake d.port, task.recvStr = recvStr m := by
  have hsep := separated_of_run hslave h hreq
  have hreply : ∀ m, (Origin.reply, m) ∈ s.delivered → byteAt d.hostM (recvStr m) 0 ≠ byte '*' :=
    fun m hm => byteAt_recvStr_ne (hsep.fromReplica _ (List.mem_append_left _ hm))
  refine ⟨hreply, fun task htask hstar => ?_⟩
  rcases hsep.masterTasks.enqueued task htask with ⟨r, hr, -, hfd, hb⟩ | ⟨hfd, ⟨o, m⟩, he, hb⟩
  · exact .inl ⟨r, hr, hfd, hb⟩
  · cases o with
    | handshake =>
      exact .inr ⟨hfd, m, hsep.fromReplica _ (List.mem_append_left _ he), hb⟩
    | reply =>
      rw [hb] at hstar
      exact absurd hstar (hreply m he)

/-- Behind a SET stands one command that is no SET and is not answered with an array. -/
theorem harmlessBehindSets_of_set {c args : List Bytes} {call : SetCall} {raw e e' : Bytes}
    (hset : SetCommand c call) (hc : Request c e) (hc' : Request (raw :: args) e')
    (hname : raw.map toUpper ∉ [str "SET", str "KEYS", str "CONFIG"])
    (hlen : (e ++ e').length ≤ intMax) : HarmlessBehindSets host (e ++ e') := by
  simp only [List.mem_cons, List.not_mem_nil, or_false, not_or] at hname
  obtain ⟨hnset, hnkeys, hnconfig⟩ := hname
  have hmax := le_maxSize_of_le_intMax hlen
  rw [List.length_append] at hlen
  have hfirst := setAt_of_setCommand host hset hc (RequestDecoding.Request.fits hc (by omega)) hmax
    (standsAt_self (e ++ e')).left
  obtain ⟨-, p, hsecond, -⟩ := exists_commandAt_of_request host hc'
    (RequestDecoding.Request.fits hc' (by omega)) hmax (standsAt_self (e ++ e')).right
  rw [Nat.zero_add] at hfirst hsecond
  intro pos hchain harray
  obtain ⟨next, ⟨⟨k, v, px, hat⟩, -⟩, hrest⟩ := Relation.TransGen.head'_iff.mp hchain
  obtain ⟨-, -, -, rfl⟩ := hfirst.unique hat
  rcases hrest.cases_head with rfl | ⟨next, ⟨⟨k, v, px, n, p', hcmd, -⟩, -⟩, -⟩
  · obtain ⟨n, name, p', hcmd, hname⟩ := harray.exists_commandAt
    obtain rfl := hcmd.name_eq hsecond
    exact hname.elim hnkeys hnconfig
  · exact hnset (hsecond.name_eq hcmd)

/-- A SET and a command that is answered with a simple string, in one buffer. -/
def setAndPing : Bytes :=
  createArrayReponse [str "SET", str "a", str "1"] ++ createArrayReponse [str "PING"]

/-- The buffer is propagated as it is, and the replica's two replies are delivered to the master. -/
theorem replies_not_dispatched_after_set : ∃ s : System Unit Unit Bool Unit,
    s.requests = [(false, setAndPing)] ∧
    (Origin.reply, okResponse) ∈ s.delivered ∧ (Origin.reply, str "+PONG\r\n") ∈ s.delivered ∧
    (∀ m, (Origin.reply, m) ∈ s.delivered → byteAt pair.hostM (recvStr m) 0 ≠ byte '*') ∧
    ∀ task ∈ s.master.enqueued, byteAt pair.hostM task.recvStr 0 = byte '*' →
      (∃ r ∈ s.requests, task.clientFd = pair.socketM r.1 ∧ task.recvStr = recvStr r.2) ∨
      task.clientFd = pair.socketM pair.linkM ∧
        ∃ m ∈ handshake pair.port, task.recvStr = recvStr m := by
  obtain ⟨tr, st, hx, hover, hsends⟩ : ∃ tr st,
      Handles .plain 5 (recvStr setAndPing) (.empty [7]) tr (.ok ()) st ∧
      Op.communicationOver ∈ tr ∧ sendsTo 7 tr = [setAndPing] :=
    ⟨_, _, Machine.eval_sound (n := 6) rfl, by decide, by decide⟩
  obtain ⟨trR, stR, hxR, hoverR, hsendsR, hmsgsR⟩ : ∃ tr st,
      Handles .plain 3 (recvStr setAndPing) slaveStore tr (.ok ()) st ∧
      Op.communicationOver ∈ tr ∧ sendsTo 3 tr = [] ∧
      messages tr = [okResponse, str "+PONG\r\n"] :=
    ⟨_, _, Machine.eval_sound (n := 6) rfl, by decide, by decide, by decide⟩
  obtain ⟨lR, hservedR, hwritesR⟩ := exists_served_of_two hxR hmsgsR hoverR
  obtain ⟨hopsR, -⟩ := hservedR.eq_of_handles hxR
  obtain ⟨s, hrun, hrest, -, -, -, -, hchannel, hrequests⟩ :=
    exists_propagated hx hover hsends (hservedR.mono fun _ _ hmv => hmv.2.1)
  rw [traffic_of_replies (hopsR ▸ hsendsR), hwritesR] at hchannel
  -- the master passes over both
  have hok : byteAt Host.plain (recvStr okResponse) 0 ≠ byte '*' := by decide
  have hpong : byteAt Host.plain (recvStr (str "+PONG\r\n")) 0 ≠ byte '*' := by decide
  obtain ⟨l₁, hserved₁⟩ := exists_served_of_stray 7 hok s.master.store
  obtain ⟨m₁, hrest₁, -, hrun₁⟩ := hrun.exists_deliverToMaster hrest () hchannel hserved₁
  obtain ⟨l₂, hserved₂⟩ := exists_served_of_stray 7 hpong m₁.store
  obtain ⟨m₂, -, -, hrun₂⟩ := hrun₁.exists_deliverToMaster hrest₁ () rfl hserved₂
  have hharmless : ∀ r ∈ s.requests, HarmlessBehindSets pair.hostR (recvStr r.2) := by
    have hrecv : recvStr setAndPing = setAndPing := by decide
    rw [hrequests, List.forall_mem_singleton, hrecv]
    exact harmlessBehindSets_of_set (.plain (by decide)) (createArrayReponse_request _)
      (createArrayReponse_request _) (by decide) (by decide)
  refine ⟨_, ?_, ?_, ?_, replies_not_dispatched rfl hrun₂ hharmless⟩
  · exact hrequests
  · simp
  · simp

/-- A SET and a command that is answered with an array, in one buffer. -/
def setAndConfig : Bytes :=
  createArrayReponse [str "SET", str "a", str "1"] ++
    createArrayReponse [str "CONFIG", str "GET", str "dir"]

def configReply : Bytes := createArrayReponse [str "dir", []]

/-- The buffer is propagated as it is, and the master takes the replica's second reply for a
command, which it answers. -/
theorem reply_dispatched : ∃ s : System Unit Unit Bool Unit,
    SystemRun pair (.empty []) slaveStore s ∧ slaveStore.serverInfo.role = str "slave" ∧
    (∀ r ∈ s.requests,
      Pipeline [[str "SET", str "a", str "1"], [str "CONFIG", str "GET", str "dir"]] r.2) ∧
    ¬ (∀ m, (Origin.reply, m) ∈ s.delivered → byteAt pair.hostM (recvStr m) 0 ≠ byte '*') ∧
    ∃ task, s.master.Running () task (task.start .plain) ∧ task.clientFd = 7 ∧
      task.recvStr = configReply ∧ configReply ∉ handshake pair.port ∧
      ∃ tr, Handles .plain task.clientFd task.recvStr s.master.store tr (.ok ()) s.master.store ∧
        messages tr = [nullResponse] := by
  obtain ⟨tr, st, hx, hover, hsends⟩ : ∃ tr st,
      Handles .plain 5 (recvStr setAndConfig) (.empty [7]) tr (.ok ()) st ∧
      Op.communicationOver ∈ tr ∧ sendsTo 7 tr = [setAndConfig] :=
    ⟨_, _, Machine.eval_sound (n := 6) rfl, by decide, by decide⟩
  obtain ⟨trR, stR, hxR, hoverR, hsendsR, hmsgsR⟩ : ∃ tr st,
      Handles .plain 3 (recvStr setAndConfig) slaveStore tr (.ok ()) st ∧
      Op.communicationOver ∈ tr ∧ sendsTo 3 tr = [] ∧ messages tr = [okResponse, configReply] :=
    ⟨_, _, Machine.eval_sound (n := 6) rfl, by decide, by decide, by decide⟩
  obtain ⟨lR, hservedR, hwritesR⟩ := exists_served_of_two hxR hmsgsR hoverR
  obtain ⟨hopsR, -⟩ := hservedR.eq_of_handles hxR
  obtain ⟨s, hrun, hrest, -, -, -, -, hchannel, hrequests⟩ :=
    exists_propagated hx hover hsends (hservedR.mono fun _ _ hmv => hmv.2.1)
  rw [traffic_of_replies (hopsR ▸ hsendsR), hwritesR] at hchannel
  -- the master passes over the first reply and begins to handle the second one
  have hstray : byteAt Host.plain (recvStr okResponse) 0 ≠ byte '*' := by decide
  obtain ⟨lM, hservedM⟩ := exists_served_of_stray 7 hstray s.master.store
  obtain ⟨m₂, hrest₂, -, hrun₄⟩ := hrun.exists_deliverToMaster hrest () hchannel hservedM
  have hreceived := hrun₄.step
    (.deliverToMaster rfl (.receive hrest₂.alive (hrest₂.clients true)))
  obtain ⟨m₃, hworks, hserving, -⟩ := hrest₂.exists_serving () true (recvStr configReply)
  have hrun₅ := hreceived.masterWorks hworks
  have hrecv : recvStr configReply = configReply := by decide
  have hcommand : ∀ st, ∃ tr, Handles .plain 7 (recvStr configReply) st tr (.ok ()) st ∧
      messages tr = [nullResponse] := fun st => ⟨_, Machine.eval_sound (n := 4) rfl, rfl⟩
  refine ⟨_, hrun₅, rfl, ?_, fun hreply => ?_, _, hserving.running, rfl, hrecv, by decide,
    hcommand _⟩
  · rw [hrequests]
    rintro r hr
    obtain rfl := List.mem_singleton.mp hr
    exact .cons (createArrayReponse_request _) (.single (createArrayReponse_request _))
  · exact hreply configReply (by simp) (by decide)

end Dispatch

end RedisServer.ReplySeparation
