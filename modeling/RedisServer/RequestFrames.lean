import RedisServer.CommandRuns
import RedisServer.ReplicaRegistration
import RedisServer.RequestFailures

/-!
# What a request leaves as it is

The commands that a request executes are recorded with the stores that their handlers
find. Only the keys of recorded SETs and the expired keys of recorded GETs can have
another entry afterwards, and only a recorded PSYNC on a master changes the server info.
-/

namespace RedisServer.RequestFrames
open ByteStrings CxxStrings InteractionPrograms ServerState Utils RedisParser RequestChain
open RequestRuns RequestFailures CommandRuns ReplicaRegistration

/-- An executed command: its name, the position of its arguments and the store that its
handler finds. -/
structure Execution where
  name : Bytes
  args : ℕ
  store : Store

/-- The commands that are executed from a position on, in the order in which they begin. -/
inductive Executes (host : Host) (clientFd : ℤ) (input : Bytes) :
    ℕ → Store → List Execution → Store → Prop where
  | stray {pos st} (h : byteAt host input pos ≠ byte '*') : Executes host clientFd input pos st [] st
  | command {pos n name p st tr st'} (hcmd : CommandAt host input pos n name p)
      (hname : name ≠ str "SET")
      (hx : Exec (parser host clientFd input) (dispatch host clientFd input n name p) st tr (.ok ())
        st') : Executes host clientFd input pos st [⟨name, p, st⟩] st'
  | lastSet {pos n p k v px next st} (hcmd : CommandAt host input pos n (str "SET") p)
      (hargs : SetArguments host input p n k v px next) (hnext : byteAt host input next ≠ byte '*') :
      Executes host clientFd input pos st [⟨str "SET", p, st⟩] (afterSet host k v px st)
  | set {pos n p k v px next st es st'} (hcmd : CommandAt host input pos n (str "SET") p)
      (hargs : SetArguments host input p n k v px next) (hnext : byteAt host input next = byte '*')
      (rest : Executes host clientFd input next (afterSet host k v px st) es st') :
      Executes host clientFd input pos st (⟨str "SET", p, st⟩ :: es) st'

/-- An executed command may change the entry of `k`: it is a SET of `k`, or a GET of `k`
that finds the entry expired. -/
def Execution.MayChange (host : Host) (input : Bytes) (e : Execution) (k : Bytes) : Prop :=
  (∃ next, BulkAt host input e.args k next) ∧
    (e.name = str "SET" ∨ e.name = str "GET" ∧ ∃ v, e.store.database.lookup k = some v ∧
      v.expiryTime ≠ 0 ∧ v.expiryTime ≤ host.clock e.store.ticks)

/-- What the commands `es`, executed from `st` to `st'`, leave as it is. -/
structure Framed (host : Host) (clientFd : ℤ) (input : Bytes) (es : List Execution)
    (st st' : Store) : Prop where
  database : ∀ k, st'.database.lookup k ≠ st.database.lookup k → ∃ e ∈ es, e.MayChange host input k
  others : st'.serverInfo = { st.serverInfo with
    connectedSlaves := st'.serverInfo.connectedSlaves
    connectedSlavesFd := st'.serverInfo.connectedSlavesFd }
  replicas : st'.serverInfo.connectedSlaves = st.serverInfo.connectedSlaves ∧
      st'.serverInfo.connectedSlavesFd = st.serverInfo.connectedSlavesFd ∨
    (∃ e ∈ es, e.name = str "PSYNC" ∧ e.store.serverInfo.role = str "master") ∧
      st'.serverInfo.connectedSlaves = st.serverInfo.connectedSlaves + 1 ∧
      st'.serverInfo.connectedSlavesFd = st.serverInfo.connectedSlavesFd ++ [clientFd]

variable {host : Host} {clientFd : ℤ} {input : Bytes} {pos next p : ℕ} {n : ℤ} {name k : Bytes}
  {st st' : Store} {tr : List Op} {es : List Execution}

theorem Framed.of_eq (hdb : st'.database = st.database) (hinfo : st'.serverInfo = st.serverInfo) :
    Framed host clientFd input es st st' where
  database k hk := absurd (by rw [hdb]) hk
  others := by rw [hinfo]
  replicas := .inl ⟨by rw [hinfo], by rw [hinfo]⟩

theorem exists_bulkAt_key {v : Bytes} {px : Option ℤ} (h : SetArguments host input p n k v px next) :
    ∃ next, BulkAt host input p k next := by
  cases h with
  | plain _ hk _ => exact ⟨_, hk⟩
  | expiring _ hk _ _ _ _ => exact ⟨_, hk⟩

/-- A lookup changes at most its own entry, and only if it is expired. -/
theorem databaseGet_effect {buffer response : Bytes}
    (hx : Exec (parser host clientFd buffer) (databaseGet k) st tr (.ok response) st') :
    st'.serverInfo = st.serverInfo ∧ (st'.database = st.database ∨
      st'.database = st.database.erase k ∧ ∃ v, st.database.lookup k = some v ∧
        v.expiryTime ≠ 0 ∧ v.expiryTime ≤ host.clock st.ticks) := by
  cases hfind : st.database.lookup k with
  | none =>
    obtain ⟨-, -, rfl⟩ := hx.deterministic (exec_databaseGet_missing hfind)
    exact ⟨rfl, .inl rfl⟩
  | some v =>
    by_cases hv : v.expiryTime = 0
    · obtain ⟨-, -, rfl⟩ := hx.deterministic (exec_databaseGet_persistent hfind hv)
      exact ⟨rfl, .inl rfl⟩
    · by_cases hlive : host.clock st.ticks < v.expiryTime
      · obtain ⟨-, -, rfl⟩ := hx.deterministic (exec_databaseGet_live hfind hv hlive)
        exact ⟨rfl, .inl rfl⟩
      · obtain ⟨-, -, rfl⟩ := hx.deterministic (exec_databaseGet_expired hfind hv (not_lt.mp hlive))
        exact ⟨rfl, .inr ⟨rfl, v, rfl, hv, not_lt.mp hlive⟩⟩

theorem framed_get (hx : Exec (parser host clientFd input) (parseGETCommand input p) st tr (.ok ())
    st') : Framed host clientFd input [⟨str "GET", p, st⟩] st st' := by
  by_cases hk : ∃ k next, BulkAt host input p k next
  · obtain ⟨k, next, hk⟩ := hk
    obtain ⟨reads, -, hbulk⟩ : Decodes (parser host clientFd input) (parseBulkString input p) st _ :=
      decodes_parseBulkString hk
    rcases hx.of_bind with ⟨e, he, -⟩ | ⟨a, tr₁, st₁, tr₂, -, hbulk', hx⟩
    · cases he
    obtain ⟨-, ha, rfl⟩ := hbulk'.deterministic hbulk
    cases ha
    rcases hx.of_bind with ⟨e, he, -⟩ | ⟨response, tr₃, st₂, tr₄, -, hget, hreply⟩
    · cases he
    have hst : st' = st₂ := by
      dsimp only at hreply
      split at hreply
      · exact (hreply.deterministic (exec_reply _)).2.2
      · exact (hreply.deterministic (exec_reply _)).2.2
    subst hst
    obtain ⟨hinfo, hdb | ⟨hdb, hexpired⟩⟩ := databaseGet_effect hget
    · exact .of_eq hdb hinfo
    · refine ⟨fun k' hk' => ?_, by rw [hinfo], .inl ⟨by rw [hinfo], by rw [hinfo]⟩⟩
      obtain rfl : k' = k := by
        by_contra hne
        exact hk' (by rw [hdb, Finmap.lookup_erase_ne hne])
      exact ⟨_, List.mem_singleton_self _, ⟨next, hk⟩, .inr ⟨rfl, hexpired⟩⟩
  · have hbulk : Rejects (parser host clientFd input) (parseBulkString input p) st :=
      rejects_parseBulkString hk
    obtain ⟨_, _, _, -, hthrow⟩ : Rejects (parser host clientFd input) (parseGETCommand input p) st :=
      hbulk.bind
    cases (hx.deterministic hthrow).2.1

theorem framed_psync (hx : Exec (parser host clientFd input) (parsePSYNCCommand host clientFd) st tr
    (.ok ()) st') : Framed host clientFd input [⟨str "PSYNC", p, st⟩] st st' := by
  by_cases hrole : st.serverInfo.role = str "master"
  · obtain ⟨-, -, rfl⟩ := hx.deterministic (exec_parsePSYNCCommand hrole)
    exact {
      database := fun k hk => absurd rfl hk
      others := rfl
      replicas := .inr ⟨⟨_, List.mem_singleton_self _, rfl, hrole⟩, rfl, rfl⟩ }
  · obtain ⟨-, -, rfl⟩ := hx.deterministic (exec_parsePSYNCCommand_of_ne hrole)
    exact .of_eq rfl rfl

theorem framed_dispatch (hname : name ≠ str "SET")
    (hx : Exec (parser host clientFd input) (dispatch host clientFd input n name p) st tr (.ok ())
      st') : Framed host clientFd input [⟨name, p, st⟩] st st' := by
  by_cases hget : name = str "GET"
  · subst hget
    exact framed_get hx
  by_cases hpsync : name = str "PSYNC"
  · subst hpsync
    exact framed_psync hx
  · obtain ⟨tr', r', st'', hx', hdb, hinfo⟩ :=
      @dispatch_keeps_of_answer host input input p n name clientFd hname hget hpsync st
    obtain ⟨-, -, rfl⟩ := hx.deterministic hx'
    exact .of_eq hdb hinfo

/-- A SET before other commands changes at most its own entry. -/
theorem Framed.set {v : Bytes} {px : Option ℤ} (hargs : SetArguments host input p n k v px next)
    (h : Framed host clientFd input es (afterSet host k v px st) st') :
    Framed host clientFd input (⟨str "SET", p, st⟩ :: es) st st' where
  database k' hk' := by
    by_cases hrest : st'.database.lookup k' = (afterSet host k v px st).database.lookup k'
    · obtain rfl : k' = k := by
        by_contra hne
        exact hk' (hrest.trans (Finmap.lookup_insert_of_ne _ hne))
      exact ⟨_, List.mem_cons_self, exists_bulkAt_key hargs, .inl rfl⟩
    · obtain ⟨e, he, hchange⟩ := h.database k' hrest
      exact ⟨e, List.mem_cons_of_mem _ he, hchange⟩
  others := h.others
  replicas := by
    rcases h.replicas with hsame | ⟨⟨e, he, hpsync⟩, hadded⟩
    · exact .inl hsame
    · exact .inr ⟨⟨e, List.mem_cons_of_mem _ he, hpsync⟩, hadded⟩

theorem Executes.framed (h : Executes host clientFd input pos st es st') :
    Framed host clientFd input es st st' := by
  induction h with
  | stray => exact .of_eq rfl rfl
  | command _ hname hx => exact framed_dispatch hname hx
  | lastSet _ hargs _ => exact .set hargs (.of_eq rfl rfl)
  | set _ hargs _ _ ih => exact .set hargs ih

/-- A run that returns executes commands. -/
theorem exists_executes (hx : Exec (parser host clientFd input)
    (parseRESPCommand host clientFd input pos) st tr (.ok ()) st') :
    ∃ es, Executes host clientFd input pos st es st' := by
  -- the run of the next command of a chain is shorter
  induction hlen : tr.length using Nat.strong_induction_on generalizing pos st tr st' with
  | _ m ih =>
    rcases handled_of_ok hx with hstar | ⟨n, name, p, hcmd, hargs⟩
    · obtain ⟨_, -, hstray⟩ := @exec_stray _ clientFd _ _ st hstar
      obtain ⟨-, -, rfl⟩ := hx.deterministic hstray
      exact ⟨[], .stray hstar⟩
    by_cases hname : name = str "SET"
    · subst hname
      obtain ⟨k, v, px, next, hargs⟩ := arguments_set.mp hargs
      have hset : SetAt host input pos k v px next := ⟨n, p, hcmd, hargs⟩
      by_cases hnext : byteAt host input next = byte '*'
      · obtain ⟨tr₁, htr₁, hr⟩ := @reaches_next _ clientFd _ _ _ st _ _ _ hset hnext []
        obtain ⟨rem, rfl, hrem⟩ := hx.split hr
        cases hrem with
        | frame hcallee hend =>
          cases hend with
          | last hend =>
            obtain ⟨_, _, hend'⟩ := exec_setEnd _
            obtain ⟨-, -, rfl⟩ := hend.deterministic hend'
            have hpos : 0 < tr₁.length := List.length_pos_of_ne_nil (by
              rintro rfl
              cases htr₁.assignments)
            simp only [List.length_append] at hlen
            obtain ⟨es, hes⟩ := ih _ (by omega) hcallee rfl
            exact ⟨_, .set hcmd hargs hnext hes⟩
      · obtain ⟨_, _, -, -, hlast⟩ := @exec_lastSet _ clientFd _ _ _ st _ _ _ hset hnext
        obtain ⟨-, -, rfl⟩ := hx.deterministic hlast
        exact ⟨_, .lastSet hcmd hargs hnext⟩
    · obtain ⟨tr', r', st'', -, hrun⟩ :=
        @exists_exec_dispatch host input input p n name clientFd hname st
      obtain ⟨_, -, hx'⟩ := exec_command hcmd hrun
      obtain ⟨-, rfl, rfl⟩ := hx.deterministic hx'
      exact ⟨_, .command hcmd hname hrun⟩

/-- Every request that returns has a record of the commands it executed, and every such record
names the entries and the part of the server info that can differ afterwards. -/
theorem framed_of_handles (hx : Handles host clientFd input st tr (.ok ()) st') :
    (∃ es, Executes host clientFd input 0 st es st') ∧
      ∀ es, Executes host clientFd input 0 st es st' → Framed host clientFd input es st st' :=
  ⟨exists_executes hx, fun _ h => h.framed⟩

/-- A SET and a PSYNC in one buffer. -/
theorem framed_of_handles_set_psync : ∃ es st',
    Executes .plain 5 (createArrayReponse [str "SET", str "k", str "v"] ++
      createArrayReponse [str "PSYNC", str "?", str "-1"]) 0 (.empty []) es st' ∧
    Framed .plain 5 (createArrayReponse [str "SET", str "k", str "v"] ++
      createArrayReponse [str "PSYNC", str "?", str "-1"]) es (.empty []) st' ∧
    st'.serverInfo.connectedSlavesFd = [5] := by
  obtain ⟨tr, st', hx, hfds⟩ : ∃ tr st', Handles .plain 5
      (createArrayReponse [str "SET", str "k", str "v"] ++
        createArrayReponse [str "PSYNC", str "?", str "-1"]) (.empty []) tr (.ok ()) st' ∧
      st'.serverInfo.connectedSlavesFd = [5] :=
    ⟨_, _, Machine.eval_sound (n := 4) rfl, by decide⟩
  obtain ⟨⟨es, hes⟩, hframed⟩ := framed_of_handles hx
  exact ⟨es, st', hes, hframed es hes, hfds⟩

end RedisServer.RequestFrames
