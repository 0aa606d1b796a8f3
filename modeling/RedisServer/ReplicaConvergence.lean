import RedisServer.CommandRuns
import RedisServer.ReplicaRegistration
import RedisServer.ServedRequests

/-!
# A replica ends up with its master's database

A master and one of its replicas, each serving one request at a time. What the master
propagates arrives buffer by buffer; the replies of the replica return as a stream of
bytes that the master receives in arbitrary pieces. A replayed buffer overwrites entries
in the same order as before, so replaying it any number of times is replaying it once.
-/

namespace RedisServer.ReplicaConvergence
open ByteStrings CxxStrings RespGrammar InteractionPrograms ServerState Utils RedisParser
open RequestChain RequestRuns RequestDecoding SetPipelines OrderedOverwrites
open ReplicaRegistration CommandRuns ServedRequests ResponseExchange

/-- A buffer of SETs of three elements each. -/
inductive SetBuffer (calls : List SetCall) (b : Bytes) : Prop where
  | mk {cmds} (hp : Pipeline cmds b) (hsets : SetCommands cmds calls) (hne : cmds ≠ [])
      (hpx : ∀ call ∈ calls, call.px = none) (hlen : b.length ≤ intMax)

/-- What clients send: a pipeline of SETs without expiry, or one other command, which is
not PSYNC. -/
inductive ClientBuffer (b : Bytes) : Prop where
  | sets {calls} (h : SetBuffer calls b)
  | other {name args} (hc : Request (name :: args) b) (hset : name.map toUpper ≠ str "SET")
      (hpsync : name.map toUpper ≠ str "PSYNC") (hlen : b.length ≤ intMax)

/-- A master, its replica and what is on the way between them. -/
structure Link where
  master : Store
  replica : Store
  toReplica : List Bytes
  toMaster : Bytes

section Steps

variable (hostM hostR : Host) (replicaFd masterFd : ℤ) (allowed : Exchange → Move → Prop)

/-- Either party serves a request: the master one of a client, the replica what the master
has sent it, and the master a piece of what the replica has replied. -/
inductive LinkStep : Link → Link → Prop where
  | client {s b clientFd log st'} (hb : ClientBuffer b) (hfd : clientFd ≠ replicaFd)
      (hrun : Served hostM clientFd b s.master allowed log st') :
      LinkStep s
        { s with master := st', toReplica := s.toReplica ++ traffic replicaFd clientFd log }
  | replica {s b bs log st'} (hchannel : s.toReplica = b :: bs)
      (hrun : Served hostR masterFd b s.replica allowed log st') :
      LinkStep s
        { s with
          replica := st'
          toReplica := bs
          toMaster := s.toMaster ++ (traffic masterFd masterFd log).flatten }
  | master {s piece rest log st'} (hchannel : s.toMaster = piece ++ rest) (hne : piece ≠ [])
      (hrun : Served hostM replicaFd piece s.master allowed log st') :
      LinkStep s
        { s with
          master := st'
          toMaster := rest
          toReplica := s.toReplica ++ traffic replicaFd replicaFd log }

inductive LinkRun (start : Link) : Link → Prop where
  | start : LinkRun start start
  | step {s s'} (h : LinkRun start s) (hs : LinkStep hostM hostR replicaFd masterFd allowed s s') :
      LinkRun start s'

end Steps

/-- The entries that SETs without expiry write. -/
def entries (calls : List SetCall) : List (Bytes × DBValue) :=
  calls.map fun call => (call.key, ⟨call.value, 0⟩)

/-- Replaying the buffers in order turns one database into the other. -/
inductive Replays : List Bytes → Database → Database → Prop where
  | nil {db} : Replays [] db db
  | cons {b bs calls db db'} (hb : SetBuffer calls b)
      (rest : Replays bs (overwrite (entries calls) db) db') : Replays (b :: bs) db db'

/-- The master is what the replica becomes by replaying what is on the way to it, and
nothing on the way back looks like a command. -/
structure Converging (fds : List ℤ) (s : Link) : Prop where
  registered : Registered s.master.serverInfo fds
  slave : s.replica.serverInfo.role = str "slave"
  persistent : Persistent s.replica.database
  toMaster : byte '*' ∉ s.toMaster
  toReplica : Replays s.toReplica s.replica.database s.master.database

theorem assigned_of_px {host : Host} {calls : List SetCall} (hpx : ∀ call ∈ calls, call.px = none)
    (st : Store) : assigned host calls st = entries calls := by
  induction calls generalizing st with
  | nil => rfl
  | cons call calls ih =>
    obtain ⟨hcall, hcalls⟩ := List.forall_mem_cons.mp hpx
    rw [assigned, ih hcalls, hcall]
    rfl

/-- A buffer of SETs is replayed without an exception. -/
theorem SetBuffer.handles {calls : List SetCall} {b : Bytes} (h : SetBuffer calls b) (host : Host)
    (clientFd : ℤ) (st : Store) : ∃ tr st', Handles host clientFd b st tr (.ok ()) st' ∧
      messages tr = List.replicate calls.length okResponse ∧
      (∀ fd, sendsTo fd tr =
        List.replicate (calls.length * (targets host st.serverInfo).count fd) b) ∧
      st'.database = overwrite (entries calls) st.database ∧ st'.serverInfo = st.serverInfo := by
  obtain ⟨hp, hsets, hne, hpx, hlen⟩ := h
  obtain ⟨tr, htr, hx⟩ := handles_sets host clientFd st hp hsets hne hlen
  refine ⟨tr, _, hx, by simpa using htr.messages, fun fd => by simpa using htr.sendsTo fd, ?_,
    serverInfo_afterSets calls st⟩
  rw [database_afterSets, assigned_of_px hpx]

theorem SetBuffer.calls_ne_nil {calls : List SetCall} {b : Bytes} (h : SetBuffer calls b) :
    calls.length ≠ 0 := by
  obtain ⟨-, hsets, hne, -, -⟩ := h
  rw [← hsets.length_eq]
  simpa using hne

theorem persistent_overwrite {db : Database} (h : Persistent db) (calls : List SetCall) :
    Persistent (overwrite (entries calls) db) := by
  intro k v
  refine forall_overwrite (P := fun v : DBValue => v.expiryTime = 0) h (fun e he => ?_) k v
  obtain ⟨call, -, rfl⟩ := List.mem_map.mp he
  rfl

section Replays

variable {b : Bytes} {bs : List Bytes} {calls : List SetCall} {db db' : Database}

theorem Replays.persistent (h : Replays bs db db') (hdb : Persistent db) : Persistent db' := by
  induction h with
  | nil => exact hdb
  | cons hb _ ih => exact ih (persistent_overwrite hdb _)

theorem Replays.mem (h : Replays bs db db') (hb : b ∈ bs) : ∃ calls, SetBuffer calls b := by
  induction h with
  | nil => cases hb
  | cons hb' _ ih =>
    rcases List.mem_cons.mp hb with rfl | hb
    · exact ⟨_, hb'⟩
    · exact ih hb

/-- Sending a buffer several times has the effect of executing it once. -/
theorem Replays.append_replicate (h : Replays bs db db') (hb : SetBuffer calls b) {n : ℕ}
    (hn : n ≠ 0) : Replays (bs ++ List.replicate n b) db (overwrite (entries calls) db') := by
  induction h with
  | @nil db =>
    obtain ⟨n, rfl⟩ := Nat.exists_eq_succ_of_ne_zero hn
    clear hn
    induction n generalizing db with
    | zero => exact .cons hb .nil
    | succ n ih =>
      refine .cons hb ?_
      have hagain : Replays (List.replicate (n + 1) b) (overwrite (entries calls) db) _ := ih
      rwa [overwrite_idem] at hagain
  | cons hb' _ ih => exact .cons hb' ih

end Replays

variable {hostM hostR : Host} {replicaFd masterFd : ℤ} {allowed : Exchange → Move → Prop} {fds : List ℤ} {s s' : Link}

theorem converging_step (hfds : replicaFd ∈ fds) (h : Converging fds s)
    (hs : LinkStep hostM hostR replicaFd masterFd allowed s s') : Converging fds s' := by
  obtain ⟨hreg, hslave, hpers, hquiet, hreplays⟩ := h
  cases hs with
  | @client b clientFd log st' hb hfd hrun =>
    rw [traffic_of_ne hfd]
    cases hb with
    | @sets calls hb =>
      obtain ⟨tr, w, hx, -, hsends, hdb', hinfo⟩ := hb.handles hostM clientFd s.master
      obtain ⟨hops, rfl⟩ := hrun.eq_of_handles hx
      rw [hops, hsends, hreg.targets]
      have hcount : calls.length * fds.count replicaFd ≠ 0 :=
        Nat.mul_ne_zero hb.calls_ne_nil (List.count_pos_iff.mpr hfds).ne'
      refine ⟨hinfo ▸ hreg, hslave, hpers, hquiet, ?_⟩
      rw [hdb']
      exact hreplays.append_replicate hb hcount
    | other hc hset hpsync hlen =>
      obtain ⟨body, p, hcmd, -⟩ := exists_commandAt_of_request hostM hc
        (RequestDecoding.Request.fits hc hlen) (le_maxSize_of_le_intMax hlen) (standsAt_self b)
      have hother := otherTrace_of_exec hcmd hset hrun.handles
      obtain ⟨hdb', hinfo⟩ :=
        keeps_of_exec hcmd hset hpsync (hreplays.persistent hpers) hrun.handles
      rw [hother.sendsTo, List.append_nil]
      exact ⟨hinfo ▸ hreg, hslave, hpers, hquiet, hdb' ▸ hreplays⟩
  | @replica b bs log st' hchannel hrun =>
    rw [hchannel] at hreplays
    cases hreplays with
    | @cons _ _ calls _ _ hb hrest =>
      obtain ⟨tr, w, hx, hmsgs, hsends, hdb', hinfo⟩ := hb.handles hostR masterFd s.replica
      obtain ⟨hops, rfl⟩ := hrun.eq_of_handles hx
      have hnone : sendsTo masterFd (operations log) = [] := by
        rw [hops, hsends, targets_of_slave hslave]
        rfl
      refine ⟨hreg, hinfo ▸ hslave, hdb' ▸ persistent_overwrite hpers calls, ?_, hdb' ▸ hrest⟩
      rw [traffic_of_replies hnone, List.mem_append, not_or]
      refine ⟨hquiet, fun hstar => ?_⟩
      obtain ⟨x, hsession, -⟩ := hrun
      have hwritten := written_bytes hsession (byte '*') (by simp [hstar])
      rw [hops, hmsgs, List.mem_flatten] at hwritten
      obtain ⟨m, hm, hstar⟩ := hwritten
      rw [List.eq_of_mem_replicate hm] at hstar
      exact absurd hstar (by decide)
  | @master piece rest log st' hchannel hne hrun =>
    have hpiece : byte '*' ∉ piece := fun hm => hquiet (by rw [hchannel]; exact List.mem_append_left _ hm)
    have hstray : byteAt hostM piece 0 ≠ byte '*' := by
      obtain ⟨c, cs, rfl⟩ := List.exists_cons_of_ne_nil hne
      rintro hstar
      exact hpiece (by simp [← hstar, byteAt, charAt?])
    obtain ⟨htraffic, rfl⟩ := hrun.stray hstray
    rw [htraffic, List.append_nil]
    exact ⟨hreg, hslave, hpers, fun hm => hquiet (by rw [hchannel]; exact List.mem_append_right _ hm),
      hreplays⟩

/-- A master with a registered replica, both with the same entries and nothing on the way. -/
structure Synchronized (replicaFd : ℤ) (fds : List ℤ) (s : Link) : Prop where
  registered : Registered s.master.serverInfo fds
  member : replicaFd ∈ fds
  slave : s.replica.serverInfo.role = str "slave"
  persistent : Persistent s.replica.database
  database : s.master.database = s.replica.database
  toReplica : s.toReplica = []
  toMaster : s.toMaster = []

theorem LinkRun.converging {start : Link} (hstart : Synchronized replicaFd fds start)
    (h : LinkRun hostM hostR replicaFd masterFd allowed start s) : Converging fds s := by
  induction h with
  | start =>
    exact ⟨hstart.registered, hstart.slave, hstart.persistent, by simp [hstart.toMaster],
      by rw [hstart.toReplica, hstart.database]; exact .nil⟩
  | step _ hs ih => exact converging_step hstart.member ih hs

/-- However requests and replies interleave, the replica can execute everything it is
sent, and when it has, its database is the master's. -/
theorem replica_converges {start : Link} (hstart : Synchronized replicaFd fds start)
    (h : LinkRun hostM hostR replicaFd masterFd allowed start s) :
    (s.toReplica = [] → s.replica.database = s.master.database) ∧
    ∀ b ∈ s.toReplica, ∃ tr st', Handles hostR masterFd b s.replica tr (.ok ()) st' := by
  have hconverging := LinkRun.converging hstart h
  constructor
  · intro hempty
    have hreplays := hconverging.toReplica
    rw [hempty] at hreplays
    generalize hM : s.master.database = db at hreplays
    cases hreplays
    rfl
  · intro b hb
    obtain ⟨calls, hbuffer⟩ := hconverging.toReplica.mem hb
    obtain ⟨tr, st', hx, -⟩ := hbuffer.handles hostR masterFd s.replica
    exact ⟨tr, st', hx⟩

/-- A master with one replica, both without data. -/
def emptyLink : Link where
  master := .empty [7]
  replica := (Store.empty []).setServerInfo ((ServerInfo.initial []).updateRole (str "slave"))
  toReplica := []
  toMaster := []

def setRequest : Bytes := createArrayReponse [str "SET", str "a", str "1"]

/-- A SET that the replica has executed, with its reply delivered to the master in two pieces. -/
theorem replica_converges_after_set : ∃ s : Link,
    s.toReplica = [] ∧ s.toMaster = [] ∧
    s.replica.database.lookup (str "a") = some ⟨str "1", 0⟩ ∧
    s.replica.database = s.master.database := by
  have hbuffer : SetBuffer [⟨str "a", str "1", none⟩] setRequest :=
    .mk (.single (createArrayReponse_request _)) (.cons (.plain (by decide)) .nil) (by simp)
      (by simp) (by decide)
  obtain ⟨tr, stM, hx, hover, hsends⟩ : ∃ tr st,
      Handles .plain 5 setRequest emptyLink.master tr (.ok ()) st ∧ Op.communicationOver ∈ tr ∧
        sendsTo 7 tr = [setRequest] :=
    ⟨_, _, Machine.eval_sound (n := 4) rfl, by decide, by decide⟩
  obtain ⟨trR, stR, hxR, hmR, hoverR, hsendsR, hlookup⟩ : ∃ tr st,
      Handles .plain 3 setRequest emptyLink.replica tr (.ok ()) st ∧ messages tr = [okResponse] ∧
        Op.communicationOver ∈ tr ∧ sendsTo 3 tr = [] ∧
        st.database.lookup (str "a") = some ⟨str "1", 0⟩ :=
    ⟨_, _, Machine.eval_sound (n := 4) rfl, by decide, by decide, by decide, by decide⟩
  obtain ⟨log, hserved⟩ := exists_served hx hover
  obtain ⟨logR, hservedR, hwrites⟩ := exists_served_of_one hxR hmR hoverR
  obtain ⟨hops, -⟩ := hserved.eq_of_handles hx
  obtain ⟨hopsR, -⟩ := hservedR.eq_of_handles hxR
  have hstart : Synchronized 7 [7] emptyLink :=
    ⟨registered_empty [7], by simp, rfl, by simp [Persistent, emptyLink, Store.empty], rfl, rfl, rfl⟩
  -- the master propagates the SET, and the replica executes it
  have hclient : LinkRun .plain .plain 7 3 FullSends emptyLink _ :=
    LinkRun.start.step (.client (.sets hbuffer) (by decide) hserved)
  rw [traffic_of_ne (by decide), hops, hsends] at hclient
  have hreplica := hclient.step (.replica rfl (hservedR.mono fun _ _ hmv => hmv.2.1))
  rw [traffic_of_replies (by rw [hopsR, hsendsR]), hwrites] at hreplica
  -- the master passes over the two pieces
  have hfirst : byteAt .plain (str "+O") 0 ≠ byte '*' := by decide
  have hsecond : byteAt .plain (str "K\r\n") 0 ≠ byte '*' := by decide
  obtain ⟨l₁, hserved₁⟩ := exists_served_of_stray 7 hfirst stM
  obtain ⟨l₂, hserved₂⟩ := exists_served_of_stray 7 hsecond stM
  have hchannel : emptyLink.toMaster ++ [okResponse].flatten = str "+O" ++ str "K\r\n" := by decide
  have hrun₁ := hreplica.step (.master hchannel (by decide) hserved₁)
  have hne : str "K\r\n" ≠ [] := by decide
  have hrun₂ := hrun₁.step (.master (List.append_nil _).symm hne hserved₂)
  obtain ⟨hsame, -⟩ := replica_converges hstart hrun₂
  have hquiet : [] ++ traffic 7 7 l₁ ++ traffic 7 7 l₂ = ([] : List Bytes) := by
    rw [(hserved₁.stray hfirst).1, (hserved₂.stray hsecond).1]
    rfl
  exact ⟨_, hquiet, rfl, hlookup, hsame hquiet⟩

end RedisServer.ReplicaConvergence
