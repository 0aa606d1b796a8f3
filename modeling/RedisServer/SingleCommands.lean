import RedisServer.RequestDecoding
import RedisServer.RequestFrames

/-!
# Buffers that hold one command

The run of the parser on a buffer that is exactly one command and throws nothing: a SET
assigns once before it sends anything, PSYNC registers its socket and passes two messages,
and every other command neither assigns, nor sends, nor touches the server info.
-/

namespace RedisServer.SingleCommands
open ByteStrings CxxStrings RespGrammar InteractionPrograms ServerState Utils RedisParser
open RequestChain RequestRuns RequestDecoding RequestFailures CommandRuns ReplicaRegistration
open RequestFrames

/-- The buffer is the command `name` and nothing else, and the command throws nothing. -/
structure SingleCommand (host : Host) (clientFd : ℤ) (name b : Bytes) : Prop where
  request : ∃ raw args, Request (raw :: args) b ∧ name = raw.map toUpper
  length : b.length ≤ intMax
  throws_nothing : ∀ st tr e st', ¬ Handles host clientFd b st tr (.error e) st'

/-- From `pos` to the end of the buffer stand bulk strings. -/
def AtElement (input : Bytes) (pos : ℕ) : Prop :=
  ∃ ss body, BulkStrings ss body ∧ (∀ s ∈ ss, s.length + 2 ≤ intMax) ∧ StandsAt input pos body ∧
    pos + body.length = input.length

variable {host : Host} {clientFd : ℤ} {input b name s : Bytes} {pos next p : ℕ} {n : ℤ} {st : Store}

theorem AtElement.byteAt_ne (h : AtElement input pos) : byteAt host input pos ≠ byte '*' := by
  obtain ⟨ss, body, hs, -, hat, hend⟩ := h
  cases hs with
  | nil => exact byteAt_end (by simpa using hend)
  | cons hs _ =>
    cases hs with
    | mk =>
      rw [byteAt_of_standsAt hat.left]
      decide

theorem AtElement.bulkAt (hlen : input.length ≤ maxSize) (h : AtElement input pos)
    (hs : BulkAt host input pos s next) : AtElement input next := by
  obtain ⟨ss, body, hss, hfit, hat, hend⟩ := h
  cases ss with
  | nil =>
    cases hss
    have hdollar := hs.1
    obtain rfl : pos = input.length := by simpa using hend
    rw [byteAt_length] at hdollar
    exact absurd hdollar (by decide)
  | cons s' ss =>
    obtain ⟨hs', hss'⟩ := List.forall_mem_cons.mp hfit
    obtain ⟨body', next', hbulk, hrest, hat', hend'⟩ := exists_bulkAt_of_cons host hss hs' hlen hat
    obtain ⟨-, rfl⟩ := hs.unique hbulk
    exact ⟨ss, body', hrest, hss', hat', hend'.trans hend⟩

/-- The arguments of a SET end before another element or at the end of the buffer. -/
theorem AtElement.setArguments {k v : Bytes} {px : Option ℤ} (hlen : input.length ≤ maxSize)
    (h : AtElement input p) (hargs : SetArguments host input p n k v px next) :
    AtElement input next := by
  cases hargs with
  | plain _ hk hv => exact (h.bulkAt hlen hk).bulkAt hlen hv
  | expiring _ hk hv hpx he _ => exact (((h.bulkAt hlen hk).bulkAt hlen hv).bulkAt hlen hpx).bulkAt hlen he

/-- Where the arguments of the command stand, and that they suit it. -/
theorem SingleCommand.exists_arguments (h : SingleCommand host clientFd name b) : ∃ n p,
    CommandAt host b 0 n name p ∧ AtElement b p ∧ Arguments host b name n p := by
  obtain ⟨⟨raw, args, hc, rfl⟩, hlen, hthrows⟩ := h
  have hfit := Request.fits hc hlen
  obtain ⟨body, p, hcmd, hargs, hat, hend⟩ :=
    exists_commandAt_of_request host hc hfit (le_maxSize_of_le_intMax hlen) (standsAt_self b)
  have hhandled : Handled host b 0 := by
    by_contra hnot
    obtain ⟨tr, e, st', hx⟩ :=
      (throws_iff_stops host clientFd b 0 (Store.empty [])).mpr ⟨0, .refl, hnot⟩
    exact hthrows _ _ _ _ hx
  refine ⟨_, p, hcmd, ⟨args, body, hargs, fun s hs => ?_, hat, by simpa using hend⟩,
    hcmd.handled_iff.mp hhandled⟩
  exact hfit.lengths s (List.mem_cons_of_mem _ hs)

/-- A SET assigns, and then sends its buffer to the targets. -/
theorem SingleCommand.handles_set (h : SingleCommand host clientFd (str "SET") b) (st : Store) :
    ∃ tr tr' k v st', HeadTrace tr k v ∧ EndTrace tr' b (targets host st.serverInfo) ∧
      Handles host clientFd b st (tr ++ tr') (.ok ()) st' ∧ st'.serverInfo = st.serverInfo := by
  obtain ⟨n, p, hcmd, hat, hargs⟩ := h.exists_arguments
  obtain ⟨k, v, px, next, hset⟩ := arguments_set.mp hargs
  have hend : byteAt host b next ≠ byte '*' :=
    (hat.setArguments (le_maxSize_of_le_intMax h.length) hset).byteAt_ne
  obtain ⟨tr, tr', htr, htr', hx⟩ := @exec_lastSet host clientFd b 0 next st k v px ⟨n, p, hcmd, hset⟩ hend
  exact ⟨tr, tr', k, _, _, htr, htr', hx, rfl⟩

theorem SingleCommand.handles_psync (h : SingleCommand host clientFd (str "PSYNC") b)
    (hrole : st.serverInfo.role = str "master") : ∃ tr,
    messages tr = [fullResyncMessage st.serverInfo.masterReplid, rdbMessage host] ∧
      (∀ fd, sendsTo fd tr = []) ∧ assignments tr = [] ∧
      Handles host clientFd b st tr (.ok ()) (st.setServerInfo (register clientFd st.serverInfo)) := by
  obtain ⟨n, p, hcmd, -, -⟩ := h.exists_arguments
  obtain ⟨reads, hreads, hx⟩ :=
    exec_command hcmd (@exec_parsePSYNCCommand host clientFd b st hrole)
  have hother := otherTrace_of_exec hcmd (by decide) hx
  refine ⟨_, ?_, hother.sendsTo, hother.assignments, hx⟩
  change messages (reads ++ _) = _
  rw [messages_append, hreads.messages]
  rfl

theorem SingleCommand.handles_other (h : SingleCommand host clientFd name b)
    (hset : name ≠ str "SET") (hpsync : name ≠ str "PSYNC") (st : Store) : ∃ tr st',
    OtherTrace host name tr ∧ Handles host clientFd b st tr (.ok ()) st' ∧
      st'.serverInfo = st.serverInfo := by
  obtain ⟨n, p, hcmd, -, -⟩ := h.exists_arguments
  obtain ⟨tr', r, st', -, hrun⟩ := @exists_exec_dispatch host b b p n name clientFd hset st
  obtain ⟨reads, -, hx⟩ := exec_command hcmd hrun
  cases r with
  | error e => exact absurd hx (h.throws_nothing _ _ _ _)
  | ok =>
    refine ⟨_, st', otherTrace_of_exec hcmd hset hx, hx, ?_⟩
    have hframed := framed_dispatch hset hrun
    rcases hframed.replicas with ⟨hcount, hlist⟩ | ⟨⟨e, he, hname, -⟩, -⟩
    · rw [hframed.others, hcount, hlist]
    · rw [List.mem_singleton.mp he] at hname
      exact absurd hname hpsync

theorem singleCommand_psync {raw : Bytes} {args : List Bytes} (hc : Request (raw :: args) b)
    (hname : str "PSYNC" = raw.map toUpper) (hlen : b.length ≤ intMax) :
    SingleCommand host clientFd (str "PSYNC") b where
  request := ⟨raw, args, hc, hname⟩
  length := hlen
  throws_nothing := by
    intro st tr e st' hx
    obtain ⟨body, p, hcmd, -⟩ := exists_commandAt_of_request host hc (Request.fits hc hlen)
      (le_maxSize_of_le_intMax hlen) (standsAt_self b)
    rw [← hname] at hcmd
    by_cases hrole : st.serverInfo.role = str "master"
    · obtain ⟨_, -, hok⟩ := exec_command hcmd (@exec_parsePSYNCCommand host clientFd b st hrole)
      cases (hx.deterministic hok).2.1
    · obtain ⟨_, -, hok⟩ := exec_command hcmd (@exec_parsePSYNCCommand_of_ne host clientFd b st hrole)
      cases (hx.deterministic hok).2.1

end RedisServer.SingleCommands
