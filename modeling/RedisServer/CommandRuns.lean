import RedisServer.CommandEffects
import RedisServer.RequestRuns

/-!
# The runs of commands other than SET

They send nothing to replicas and assign nothing. Without expiry times in the database,
only PSYNC changes what other requests find.
-/

namespace RedisServer.CommandRuns
open ByteStrings CxxStrings InteractionPrograms ServerState Utils RedisParser ParserDiscipline
open RequestChain RequestRuns CommandEffects

/-- No entry has an expiry time. -/
def Persistent (db : Database) : Prop := ∀ k v, db.lookup k = some v → v.expiryTime = 0

/-- Operations that are not a SET's own: no assignment and no propagation. -/
def isOther : Op → Bool
  | .databaseAssign _ _ | .send _ _ => false
  | _ => true

/-- Queries, messages and the end of the exchange. -/
def isAnswer : Op → Bool
  | .enqueueMessage _ | .communicationOver => true
  | o => isQuery o

theorem isOther_of_isQuery {o : Op} (h : isQuery o = true) : isOther o = true := by
  cases o <;> first | rfl | exact nomatch h

theorem isAnswer_of_isQuery {o : Op} (h : isQuery o = true) : isAnswer o = true := by
  cases o <;> first | rfl | exact nomatch h

section SetParts

variable {P : Op → Prop} (hquery : ∀ o, isQuery o = true → P o)
include hquery

/-- What the first part of a SET can come to do. -/
theorem always_setHead (hassign : ∀ k v, P (.databaseAssign k v)) (hreply : P (.enqueueMessage okResponse))
    (input : Bytes) (pos : ℕ) (n : ℤ) : (setHead input pos n).Always P (fun _ => False) := by
  have hstring : ∀ p, (parseBulkString input p).Always P (fun _ => False) :=
    fun p => (queries_parseBulkString input p).always hquery
  exact (hstring _).bind fun _ => (hstring _).bind fun _ =>
    ((queries_parseExpiry _ _ _).always hquery).bind fun _ => ⟨hassign _ _, fun _ => ⟨hreply, fun _ => trivial⟩⟩

/-- The end of a SET calls only the propagation loop. -/
theorem always_setEnd (hover : P .communicationOver) :
    setEnd.Always P (fun f : Proc => ∃ i, f = .propagate i) := by
  refine Program.Always.bind ((queries_getInfo ServerInfo.role).always hquery) fun role => ?_
  split
  · exact ⟨⟨0, rfl⟩, hover, fun _ => trivial⟩
  · exact ⟨hover, fun _ => trivial⟩

end SetParts

theorem sendsTo_eq_nil {tr : List Op} (h : ∀ o ∈ tr, isOther o = true) (fd : ℤ) :
    sendsTo fd tr = [] := by
  apply List.filterMap_eq_nil_iff.mpr
  intro o ho
  have hother := h o ho
  cases o <;> first | rfl | exact nomatch hother

theorem assignments_eq_nil {tr : List Op} (h : ∀ o ∈ tr, isOther o = true) : assignments tr = [] := by
  apply List.filterMap_eq_nil_iff.mpr
  intro o ho
  have hother := h o ho
  cases o <;> first | rfl | exact nomatch hother

variable {host : Host} {clientFd : ℤ} {buffer input : Bytes} {pos p : ℕ} {n : ℤ} {name : Bytes}
  {st st' : Store} {tr : List Op} {r : Except Exception Unit}

/-- What another command's run does: it neither assigns nor propagates, and passes only
messages of that command. -/
structure OtherTrace (host : Host) (name : Bytes) (tr : List Op) : Prop where
  other : ∀ o ∈ tr, isOther o = true
  messages : ∀ m ∈ messages tr, MayAnswer host name m

theorem OtherTrace.sendsTo (h : OtherTrace host name tr) (fd : ℤ) : sendsTo fd tr = [] :=
  sendsTo_eq_nil h.other fd

theorem OtherTrace.assignments (h : OtherTrace host name tr) : assignments tr = [] :=
  assignments_eq_nil h.other

/-- The handler of another command always has a run. -/
theorem exists_exec_dispatch (clientFd : ℤ) (hname : name ≠ str "SET") (st : Store) : ∃ tr r st',
    OtherTrace host name tr ∧
    Exec (parser host clientFd buffer) (dispatch host clientFd input n name p) st tr r st' := by
  have h : (dispatch host clientFd input n name p).Always
      (fun o : Op => isOther o = true ∧ ∀ m, o = .enqueueMessage m → MayAnswer host name m)
      (fun _ => False) :=
    always_dispatch (fun o ho => ⟨isOther_of_isQuery ho, fun m hm => by subst hm; exact nomatch ho⟩)
      ⟨rfl, nofun⟩ hname (fun _ => ⟨fun _ => ⟨rfl, nofun⟩, fun _ => ⟨rfl, nofun⟩⟩)
      (fun _ => ⟨fun _ => ⟨rfl, nofun⟩, fun _ => ⟨rfl, nofun⟩⟩)
      (fun m hm => ⟨rfl, fun m' hm' => by cases hm'; exact hm⟩)
  obtain ⟨tr, r, st', hx⟩ := h.exists_exec (M := parser host clientFd buffer) st
  have hops := hx.always h
  refine ⟨tr, r, st', ⟨fun o ho => (hops o ho).1, fun m hm => ?_⟩, hx⟩
  obtain ⟨o, ho, hom⟩ := List.mem_filterMap.mp hm
  cases o <;> cases hom
  exact (hops _ ho).2 m rfl

/-- The run of another command where it stands. -/
theorem otherTrace_of_exec (hcmd : CommandAt host input pos n name p) (hname : name ≠ str "SET")
    (hx : Exec (parser host clientFd input) (parseRESPCommand host clientFd input pos) st tr r st') :
    OtherTrace host name tr := by
  obtain ⟨tr', r', st'', htr', hrun⟩ := exists_exec_dispatch clientFd hname st
  obtain ⟨reads, hreads, hexec⟩ := exec_command hcmd hrun
  obtain ⟨rfl, -, -⟩ := hx.deterministic hexec
  refine ⟨?_, by simpa [hreads] using htr'.messages⟩
  simp only [List.forall_mem_cons, List.forall_mem_append]
  refine ⟨rfl, fun o ho => ?_, htr'.other⟩
  obtain ⟨s, i, rfl⟩ := hreads o ho
  rfl

/-- What an answer leaves as it is. -/
theorem keeps_of_isAnswer {db : Database} {info : ServerInfo} {o : Op} {st : Store}
    (ho : isAnswer o = true) (h : st.database = db ∧ st.serverInfo = info) :
    (performOp host o st).2.database = db ∧ (performOp host o st).2.serverInfo = info := by
  cases o <;> first | exact h | exact nomatch ho

/-- GET of an entry without an expiry time drops nothing. -/
theorem parseGETCommand_keeps (hpers : Persistent st.database) : ∃ tr r st',
    Exec (parser host clientFd buffer) (parseGETCommand input p) st tr r st' ∧
      st'.database = st.database ∧ st'.serverInfo = st.serverInfo := by
  have hqueries := queries_parseBulkString input p
  obtain ⟨tr₁, r₁, st₁, h₁⟩ := hqueries.exists_exec (M := parser host clientFd buffer) st
  obtain ⟨hdb, hinfo⟩ : st₁.database = st.database ∧ st₁.serverInfo = st.serverInfo :=
    h₁.preserves (I := fun st' => st'.database = st.database ∧ st'.serverInfo = st.serverInfo)
      hqueries (fun o st' ho h => keeps_of_isAnswer (isAnswer_of_isQuery ho) h) ⟨rfl, rfl⟩
  cases r₁ with
  | error e => exact ⟨_, _, _, h₁.bind_throw, hdb, hinfo⟩
  | ok a =>
    obtain ⟨key, next⟩ := a
    have hget : ∃ tr response, Exec (parser host clientFd buffer) (databaseGet key) st₁ tr
        (.ok response) st₁ := by
      cases hlookup : st₁.database.lookup key with
      | none => exact ⟨_, _, exec_databaseGet_missing hlookup⟩
      | some v =>
        exact ⟨_, _, exec_databaseGet_persistent hlookup (hpers key v (hdb ▸ hlookup))⟩
    obtain ⟨tr₂, response, h₂⟩ := hget
    have hreply : ∃ tr, Exec (parser host clientFd buffer)
        (if response ≠ nullResponse then reply (createStringReponse response) else reply response)
        st₁ tr (.ok ()) st₁ := by
      split
      · exact ⟨_, exec_reply _⟩
      · exact ⟨_, exec_reply _⟩
    obtain ⟨tr₃, h₃⟩ := hreply
    exact ⟨_, _, _, h₁.bind (h₂.bind h₃), hdb, hinfo⟩

/-- A command other than SET, GET and PSYNC leaves the database and the server info as they
are. -/
theorem dispatch_keeps_of_answer (clientFd : ℤ) (hset : name ≠ str "SET") (hget : name ≠ str "GET")
    (hpsync : name ≠ str "PSYNC") (st : Store) : ∃ tr r st',
    Exec (parser host clientFd buffer) (dispatch host clientFd input n name p) st tr r st' ∧
      st'.database = st.database ∧ st'.serverInfo = st.serverInfo := by
  have h : (dispatch host clientFd input n name p).Always (fun o : Op => isAnswer o = true)
      (fun _ => False) :=
    always_dispatch (fun o ho => isAnswer_of_isQuery ho) rfl hset (fun hc => absurd hc hget)
      (fun hc => absurd hc hpsync) (fun _ _ => rfl)
  obtain ⟨tr, r, st', hx⟩ := h.exists_exec (M := parser host clientFd buffer) st
  exact ⟨tr, r, st', hx, hx.preserves
    (I := fun st' => st'.database = st.database ∧ st'.serverInfo = st.serverInfo) h
    (fun o st' ho hst' => keeps_of_isAnswer ho hst') ⟨rfl, rfl⟩⟩

/-- A command other than SET and PSYNC leaves a database without expiry times, and the
server info, as they are. -/
theorem dispatch_keeps (clientFd : ℤ) (hset : name ≠ str "SET") (hpsync : name ≠ str "PSYNC")
    (hpers : Persistent st.database) : ∃ tr r st',
    Exec (parser host clientFd buffer) (dispatch host clientFd input n name p) st tr r st' ∧
      st'.database = st.database ∧ st'.serverInfo = st.serverInfo := by
  by_cases hget : name = str "GET"
  · subst hget
    exact parseGETCommand_keeps hpers
  · exact dispatch_keeps_of_answer clientFd hset hget hpsync st

theorem keeps_of_exec (hcmd : CommandAt host input pos n name p) (hset : name ≠ str "SET")
    (hpsync : name ≠ str "PSYNC") (hpers : Persistent st.database)
    (hx : Exec (parser host clientFd input) (parseRESPCommand host clientFd input pos) st tr r st') :
    st'.database = st.database ∧ st'.serverInfo = st.serverInfo := by
  obtain ⟨tr', r', st'', hrun, hkeeps⟩ := dispatch_keeps clientFd hset hpsync hpers
  obtain ⟨reads, -, hexec⟩ := exec_command hcmd hrun
  obtain ⟨-, -, rfl⟩ := hx.deterministic hexec
  exact hkeeps

/-- Operations that take part in an exchange without a message or an effect. -/
def isIdle : Op → Bool
  | .awaitCommunicationLoop | .communicationOver | .readOutside _ _ => true
  | _ => false

theorem messages_eq_nil_of_idle (h : ∀ o ∈ tr, isIdle o = true) : messages tr = [] := by
  apply List.filterMap_eq_nil_iff.mpr
  intro o ho
  have hidle := h o ho
  cases o <;> first | rfl | exact nomatch hidle

theorem sendsTo_eq_nil_of_idle (h : ∀ o ∈ tr, isIdle o = true) (fd : ℤ) : sendsTo fd tr = [] := by
  apply List.filterMap_eq_nil_iff.mpr
  intro o ho
  have hidle := h o ho
  cases o <;> first | rfl | exact nomatch hidle

/-- Something else than an array has no effect at all. -/
theorem handles_stray (clientFd : ℤ) (h : byteAt host input 0 ≠ byte '*') (st : Store) :
    ∃ tr, (∀ o ∈ tr, isIdle o = true) ∧ Handles host clientFd input st tr (.ok ()) st := by
  obtain ⟨reads, hreads, hx⟩ := @exec_stray host clientFd input 0 st h
  refine ⟨_, ?_, hx⟩
  simp only [List.forall_mem_cons, List.forall_mem_append]
  refine ⟨rfl, fun o ho => ?_, rfl, nofun⟩
  obtain ⟨s, i, rfl⟩ := hreads o ho
  rfl

end RedisServer.CommandRuns
