import RedisServer.ChainContracts
import RedisServer.PoolHistories
import RedisServer.ReplicationIdentity
import RedisServer.ResyncOrdering
import RedisServer.UniqueDecoding

/-!
# Reading a socket

The resync payload has no line end behind it, so its message is the beginning of a bulk
string. No message begins with a carriage return, though, and whoever reads a socket can
still tell the messages apart: the bytes written determine where each message ends.
-/

namespace RedisServer.MessageFraming
open ByteStrings RespGrammar InteractionPrograms ServerState Utils RedisParser ParserDiscipline
open InformationTheory ChainContracts CommandEffects CommandRuns RequestRuns ResponseExchange ServedRequests
open ReplicationIdentity ResyncOrdering UniqueDecoding WorkerPool

/-- What a server writes to a socket. -/
inductive Message (host : Host) : Bytes → Prop where
  | line {s : Bytes} (h : (13 : UInt8) ∉ s) : Message host (byte '+' :: (s ++ crlf))
  | null : Message host nullResponse
  | string {s e : Bytes} (h : BulkString s e) : Message host e
  | array {ss : List Bytes} {e : Bytes} (h : Request ss e) : Message host e
  | rdb : Message host (rdbMessage host)

section Codes

variable {host : Host} {m : Bytes} {L : List Bytes}

theorem rdbMessage_eq (host : Host) : rdbMessage host =
    byte '$' :: (toDecimal (resyncPayload host).length ++ (crlf ++ resyncPayload host)) := by
  simp [rdbMessage, str, crlf, byte]

theorem nullResponse_eq : nullResponse = byte '$' :: byte '-' :: byte '1' :: crlf := by decide

theorem Message.exists_cons (h : Message host m) :
    ∃ c rest, m = c :: rest ∧ (c = byte '+' ∨ c = byte '$' ∨ c = byte '*') := by
  cases h with
  | line h => exact ⟨_, _, rfl, .inl rfl⟩
  | null => exact ⟨_, _, nullResponse_eq, .inr (.inl rfl)⟩
  | string h =>
    cases h with
    | mk h => exact ⟨_, _, rfl, .inr (.inl rfl)⟩
  | array h =>
    cases h with
    | mk h hs => exact ⟨_, _, rfl, .inr (.inr rfl)⟩
  | rdb => exact ⟨_, _, rdbMessage_eq host, .inr (.inl rfl)⟩

theorem Message.ne_nil (h : Message host m) : m ≠ [] := by
  obtain ⟨c, rest, rfl, -⟩ := h.exists_cons
  exact List.cons_ne_nil c rest

theorem Message.head?_ne_cr (h : Message host m) : m.head? ≠ some 13 := by
  obtain ⟨c, rest, rfl, rfl | rfl | rfl⟩ := h.exists_cons <;> simp [byte]

/-- Two lines that end at the first carriage return. -/
theorem line_unique {s s' r r' : Bytes} (h : (13 : UInt8) ∉ s) (h' : (13 : UInt8) ∉ s')
    (heq : s ++ crlf ++ r = s' ++ crlf ++ r') : s = s' := by
  rw [List.append_assoc, List.append_assoc] at heq
  exact (append_cr_inj h h' heq).1

/-- A length is not negative. -/
theorem null_ne_numeral {n : ℕ} {ds r r' : Bytes} (h : Numeral n ds) :
    nullResponse ++ r ≠ byte '$' :: (ds ++ r') := by
  intro heq
  rw [nullResponse_eq] at heq
  obtain ⟨d, ds, rfl⟩ := List.exists_cons_of_ne_nil h.nonempty
  have hd : byte '-' = d := List.head_eq_of_cons_eq (List.tail_eq_of_cons_eq heq)
  subst hd
  exact absurd (h.digits _ List.mem_cons_self) (by decide)

/-- A bulk string goes on with a line end where the resync payload is over. -/
theorem string_ne_rdb {s e r : Bytes} (h : BulkString s e) (hL : ∀ w ∈ L, Message host w) :
    e ++ r ≠ rdbMessage host ++ L.flatten := by
  intro heq
  obtain ⟨hn⟩ := h
  rw [rdbMessage_eq] at heq
  simp only [List.cons_append, List.append_assoc] at heq
  obtain ⟨hlen, -, hrest⟩ :=
    hn.append_crlf_inj (toDecimal_numeral _) (List.tail_eq_of_cons_eq heq)
  obtain ⟨-, hnext⟩ := List.append_inj hrest hlen
  have hcr : L.flatten.head? ≠ some 13 :=
    head?_flatten_ne (fun w hw => (hL w hw).ne_nil) fun w hw => (hL w hw).head?_ne_cr
  rw [← hnext] at hcr
  exact hcr rfl

/-- Servers with the same resync payload write the same messages. -/
theorem Message.of_payload {host' : Host} (h : Message host' m)
    (hpayload : resyncPayload host' = resyncPayload host) : Message host m := by
  cases h with
  | line h => exact .line h
  | null => exact .null
  | string h => exact .string h
  | array h => exact .array h
  | rdb =>
    rw [rdbMessage_eq, hpayload, ← rdbMessage_eq]
    exact .rdb

/-- The end of the first message can be found. -/
theorem firstWordDetermined_message (host : Host) : FirstWordDetermined (Message host) := by
  intro u hu v hv L L' hL hL' heq
  cases hu with
  | line h =>
    cases hv with
    | line h' => rw [line_unique h h' (List.tail_eq_of_cons_eq heq)]
    | null => cases List.head_eq_of_cons_eq heq
    | string h' => cases h' with | mk => cases List.head_eq_of_cons_eq heq
    | array h' => cases h' with | mk => cases List.head_eq_of_cons_eq heq
    | rdb => cases List.head_eq_of_cons_eq heq
  | null =>
    cases hv with
    | line h' => cases List.head_eq_of_cons_eq heq
    | null => rfl
    | string h' =>
      obtain ⟨hn⟩ := h'
      exact absurd heq (by simpa using null_ne_numeral hn)
    | array h' => cases h' with | mk => cases List.head_eq_of_cons_eq heq
    | rdb =>
      rw [rdbMessage_eq] at heq
      exact absurd heq (by simpa using null_ne_numeral (toDecimal_numeral _))
  | string h =>
    cases hv with
    | line h' => cases h with | mk => cases List.head_eq_of_cons_eq heq
    | null =>
      obtain ⟨hn⟩ := h
      exact absurd heq.symm (by simpa using null_ne_numeral hn)
    | string h' => exact (h.unique h' heq).2.1
    | array h' => cases h with | mk => cases h' with | mk => cases List.head_eq_of_cons_eq heq
    | rdb => exact absurd heq (string_ne_rdb h hL')
  | array h =>
    cases hv with
    | line h' => cases h with | mk => cases List.head_eq_of_cons_eq heq
    | null => cases h with | mk => cases List.head_eq_of_cons_eq heq
    | string h' => cases h with | mk => cases h' with | mk => cases List.head_eq_of_cons_eq heq
    | array h' => exact (h.unique h' heq).2.1
    | rdb => cases h with | mk => cases List.head_eq_of_cons_eq heq
  | rdb =>
    cases hv with
    | line h' => cases List.head_eq_of_cons_eq heq
    | null =>
      rw [rdbMessage_eq] at heq
      exact absurd heq.symm (by simpa using null_ne_numeral (toDecimal_numeral _))
    | string h' => exact absurd heq.symm (string_ne_rdb h' hL)
    | array h' => cases h' with | mk => cases List.head_eq_of_cons_eq heq
    | rdb => rfl

end Codes

/-- The id of the server is `replid`, only messages are passed, and nothing but the buffer
is sent to replicas. -/
def framing (host : Host) (input replid : Bytes) : Contract parserSignature Store where
  allows := fun (o : Op) st => st.serverInfo.masterReplid = replid ∧
    (∀ m, o = .enqueueMessage m → Message host m) ∧ ∀ fd b, o = .send fd b → b = input
  calls := fun _ st => st.serverInfo.masterReplid = replid
  returns := fun st => st.serverInfo.masterReplid = replid

section Contract

variable {host : Host} {clientFd : ℤ} {input replid m : Bytes} {st : Store} {pos p : ℕ} {n : ℤ}
  {name : Bytes}

theorem message_pong : Message host pingResponse :=
  .line (s := str "PONG") (by decide)

theorem message_ok : Message host okResponse :=
  .line (s := str "OK") (by decide)

theorem message_fullResync (h : (13 : UInt8) ∉ replid) : Message host (fullResyncMessage replid) := by
  have hline : (13 : UInt8) ∉ str "FULLRESYNC " ++ replid ++ str " 0" := by
    simp only [List.mem_append, not_or]
    exact ⟨⟨by decide, h⟩, by decide⟩
  have hm := @Message.line host _ hline
  simpa [fullResyncMessage, str, crlf, byte] using hm

theorem message_of_mayAnswer (h : MayAnswer host name m) (hpsync : name ≠ str "PSYNC") :
    Message host m := by
  unfold MayAnswer at h
  split at h
  · exact h ▸ message_pong
  split at h
  · exact h ▸ message_ok
  split at h
  · obtain ⟨ss, rfl⟩ := h
    exact .array (createArrayReponse_request ss)
  split at h
  · rcases h with rfl | ⟨ss, rfl⟩
    · exact .null
    · exact .array (createArrayReponse_request ss)
  · rcases h with rfl | ⟨s, rfl⟩
    · exact .null
    · exact .string (createStringReponse_bulkString s)

/-- Operations that pass messages only and send nothing. -/
def MessagesOnly (host : Host) (o : Op) : Prop :=
  (∀ m, o = .enqueueMessage m → Message host m) ∧ ∀ fd b, o ≠ .send fd b

theorem messagesOnly_of_isQuery (o : Op) (h : isQuery o = true) : MessagesOnly host o := by
  constructor
  · rintro m rfl
    cases h
  · rintro fd b rfl
    cases h

theorem keeps_of_messagesOnly {α : Type} {q : Parser α} {C : Proc → Prop} (h : q.Always (MessagesOnly host) C)
    (hst : st.serverInfo.masterReplid = replid) :
    q.Keeps (parser host clientFd input) (framing host input replid)
      (fun _ st => st.serverInfo.masterReplid = replid) st :=
  .of_always_calls h (fun _ _ ho hst => ⟨hst, ho.1, fun fd b hb => absurd hb (ho.2 fd b)⟩)
    (fun o st _ hst => (masterReplid_performOp host o st).trans hst) (fun _ _ _ hst => hst)
    (fun _ => Iff.rfl) hst

theorem messagesOnly_message (hm : Message host m) : MessagesOnly host (.enqueueMessage m) := by
  constructor
  · rintro m' hm'
    cases hm'
    exact hm
  · simp

theorem messagesOnly_other {o : Op} (hm : ∀ m, o ≠ .enqueueMessage m) (hs : ∀ fd b, o ≠ .send fd b) :
    MessagesOnly host o := ⟨fun m ho => absurd ho (hm m), hs⟩

/-- PSYNC answers with the id of the server. -/
theorem keeps_psync (hcr : (13 : UInt8) ∉ replid) (hst : st.serverInfo.masterReplid = replid) :
    (parsePSYNCCommand host clientFd).Keeps (parser host clientFd input) (framing host input replid)
      (fun _ st => st.serverInfo.masterReplid = replid) st := by
  have hplain : ∀ (o : Op) (st : Store), MessagesOnly host o → st.serverInfo.masterReplid = replid →
      (framing host input replid).allows o st := fun o st ho hst =>
    ⟨hst, ho.1, fun fd b hb => absurd hb (ho.2 fd b)⟩
  refine keeps_parsePSYNCCommand (fun st => hplain _ st (messagesOnly_of_isQuery _ rfl))
    (fun st m hst hm => hplain _ st (messagesOnly_message ?_) hst)
    (fun st => hplain _ st (messagesOnly_other (by simp) (by simp)))
    (fun _ => ⟨hplain _ _ (messagesOnly_other (by simp) (by simp)) hst,
      hplain _ _ (messagesOnly_other (by simp) (by simp)) hst, hst⟩) hst
  rcases hm with rfl | rfl
  · exact hst ▸ message_fullResync hcr
  · exact .rdb

theorem keeps_dispatch (hcr : (13 : UInt8) ∉ replid) (hst : st.serverInfo.masterReplid = replid) :
    (dispatch host clientFd input n name p).Keeps (parser host clientFd input)
      (framing host input replid) (fun _ st => st.serverInfo.masterReplid = replid) st := by
  have hover : MessagesOnly host .communicationOver := messagesOnly_other (by simp) (by simp)
  by_cases hset : name = str "SET"
  · subst hset
    rw [dispatch_set, parseSETCommand_eq]
    have hhead : (setHead input p n).Always (MessagesOnly host) (fun _ => False) :=
      always_setHead messagesOnly_of_isQuery (fun _ _ => messagesOnly_other (by simp) (by simp))
        (messagesOnly_message message_ok) input p n
    apply Program.Keeps.bind
    apply (keeps_of_messagesOnly hhead hst).mono
    intro next st hst
    have htail : (setTail input next).Always (MessagesOnly host) (fun _ => True) := by
      have hend : setEnd.Always (MessagesOnly host) (fun _ => True) :=
        (always_setEnd messagesOnly_of_isQuery hover).mono (fun _ ho => ho) fun _ _ => trivial
      apply ((queries_charAt input next).always messagesOnly_of_isQuery).bind
      intro c
      split
      · exact ⟨trivial, hend⟩
      · exact hend
    exact keeps_of_messagesOnly htail hst
  by_cases hpsync : name = str "PSYNC"
  · subst hpsync
    exact keeps_psync hcr hst
  · exact keeps_of_messagesOnly (always_dispatch messagesOnly_of_isQuery hover hset
      (fun _ => ⟨fun _ => messagesOnly_other (by simp) (by simp), fun _ => messagesOnly_other (by simp) (by simp)⟩)
      (absurd · hpsync) fun m hm => messagesOnly_message (message_of_mayAnswer hm hpsync)) hst

/-- Whatever the buffer is, the parser passes messages and sends the buffer. -/
theorem framing_keptBy (host : Host) (clientFd : ℤ) (input : Bytes) (hcr : (13 : UInt8) ∉ replid) :
    (framing host input replid).KeptBy (parser host clientFd input) := by
  rintro (pos | i) st hst
  · apply Program.Keeps.bind (p := perform .awaitCommunicationLoop)
    refine ⟨⟨hst, by simp, by simp⟩, ?_⟩
    apply Program.Keeps.bind
    apply (keeps_of_messagesOnly ((queries_charAt _ _).always (D := fun _ => False) messagesOnly_of_isQuery) hst).mono
    intro c st hst
    split
    · exact ⟨⟨hst, by simp, by simp⟩, hst⟩
    · apply Program.Keeps.bind
      exact (keeps_of_messagesOnly ((queries_parseCommandName _ _).always (D := fun _ => False) messagesOnly_of_isQuery) hst).mono fun _ st hst =>
        keeps_dispatch hcr hst
  · refine keeps_getInfo_bind (C := framing host input replid) ⟨hst, by simp, by simp⟩ ?_
    split
    · exact ⟨⟨hst, by simp, by simp⟩, ⟨hst, by simp, by simp⟩, hst, fun _ hst' => hst'⟩
    · exact hst

/-- What a run passes are messages, and what it sends is its buffer. -/
theorem framed_of_reaches {st' : Store} {u : Thread parserSignature} {tr : List Op}
    (hcr : (13 : UInt8) ∉ st.serverInfo.masterReplid)
    (h : Reaches (parser host clientFd input) (.start (parseRESPCommand host clientFd input 0)) st
      tr u st') :
    (∀ m ∈ messages tr, Message host m) ∧ ∀ fd b, Op.send fd b ∈ tr → b = input := by
  have hbody := framing_keptBy host clientFd input hcr
  have hallows := h.allows hbody (.start (hbody (.parseRESPCommand 0) st rfl))
  constructor
  · intro m hm
    obtain ⟨o, ho, hom⟩ := List.mem_filterMap.mp hm
    obtain ⟨st₁, -, hmsg, -⟩ := hallows o ho
    cases o <;> cases hom
    exact hmsg m rfl
  · intro fd b hb
    obtain ⟨st₁, -, -, hsend⟩ := hallows _ hb
    exact hsend fd b rfl

end Contract

section Runs

variable {ι κ : Type} {host : Host} {clientFd : κ → ℤ} {st : Store} {s : Pool ι κ} {fd : ℤ} {m : Bytes}

/-- What is written to a socket is a message, if every buffer received is a request. -/
theorem message_of_mem_trafficTo (h : PoolInvariant host FullSends st s)
    (hcr : (13 : UInt8) ∉ st.serverInfo.masterReplid)
    (hreq : ∀ task ∈ s.enqueued, ∃ ss, Request ss task.recvStr) (hm : m ∈ trafficTo fd s.log) :
    Message host m := by
  obtain ⟨⟨task, a⟩, ha, hma⟩ := List.mem_flatMap.mp hm
  obtain ⟨htask, l, ⟨st₁, x, st₂, hid, hrun⟩, hal⟩ :=
    h.sessionOf (I := fun st' => st'.serverInfo.masterReplid = st.serverInfo.masterReplid)
      (fun host o st' hst' => (masterReplid_performOp host o st').trans hst') rfl ha
  obtain ⟨hmessages, hsends⟩ := framed_of_reaches (hid ▸ hcr) hrun.reaches
  rcases mem_traffic hma with hsend | ⟨hwrite, -⟩
  · have hop : a = .op (.send fd m) := by
      cases a with
      | write b => cases hsend
      | op o => rw [List.mem_singleton.mp hsend]
    subst hop
    obtain ⟨ss, hss⟩ := hreq task htask
    rw [hsends fd m (List.mem_filterMap.mpr ⟨_, hal, rfl⟩)]
    exact .array hss
  · have hwrite : a = .write m := by
      cases a with
      | op o => cases hwrite
      | write b => rw [List.mem_singleton.mp hwrite]
    subst hwrite
    exact hmessages m (mem_messages_of_mem_writes hrun (mem_writes_iff.mpr hal))

variable [DecidableEq ι] [DecidableEq κ] {ι' κ' : Type} [DecidableEq ι'] [DecidableEq κ']
  {host' : Host} {clientFd' : κ' → ℤ} {st' : Store} {s' : Pool ι' κ'} {fd' : ℤ}
  {draws draws' : ℕ → Fin characters.length}

/-- The bytes written to a socket determine the messages: two servers with the same resync
payload, each after requests of its own under a schedule of its own, that have written the
same bytes to a socket have written the same messages to it. -/
theorem traffic_determined (h : PoolRun host clientFd FullSends st s)
    (h' : PoolRun host' clientFd' FullSends st' s')
    (hpayload : resyncPayload host' = resyncPayload host)
    (hid : st.serverInfo.masterReplid = generateMasterReplid draws)
    (hid' : st'.serverInfo.masterReplid = generateMasterReplid draws')
    (hreq : ∀ task ∈ s.enqueued, ∃ ss, Request ss task.recvStr)
    (hreq' : ∀ task ∈ s'.enqueued, ∃ ss, Request ss task.recvStr)
    (hbytes : (trafficTo fd s.log).flatten = (trafficTo fd' s'.log).flatten) :
    trafficTo fd s.log = trafficTo fd' s'.log := by
  have hnil : ¬ Message host [] := fun hm => hm.ne_nil rfl
  apply uniquelyDecodable_of_firstWordDetermined hnil (firstWordDetermined_message host) _ _ _ _ hbytes
  · intro m hm
    exact message_of_mem_trafficTo h.invariant (hid ▸ cr_notMem_generateMasterReplid) hreq hm
  · intro m hm
    have hm' := message_of_mem_trafficTo h'.invariant (hid' ▸ cr_notMem_generateMasterReplid) hreq' hm
    exact hm'.of_payload hpayload

end Runs

/-- A master without data that has drawn the same character in every round. -/
def constantId (draw : Fin characters.length) : Store :=
  ⟨∅, ServerInfo.initial (generateMasterReplid fun _ => draw), 0⟩

section Pings

variable {κ : Type} [DecidableEq κ] {host : Host} {socket : κ → ℤ} {st : Store} {s : Pool Unit κ}

/-- A server at rest answers a PING. -/
theorem exists_pinged (hrun : PoolRun host socket FullSends st s) (hrest : s.AtRest) (c : κ) :
    ∃ s' : Pool Unit κ, PoolRun host socket FullSends st s' ∧ s'.AtRest ∧
      s'.finished = s.finished ++
        [⟨s.enqueued.length, socket c, createArrayReponse [str "PING"]⟩] ∧
      trafficTo (socket c) s'.log = trafficTo (socket c) s.log ++ [pingResponse] := by
  have hx : Handles host (socket c) (createArrayReponse [str "PING"]) s.store
      [.awaitCommunicationLoop, .enqueueMessage pingResponse, .communicationOver] (.ok ()) s.store :=
    Machine.eval_sound (n := 4) rfl
  obtain ⟨l, hserved, hl⟩ := exists_served_of_one hx rfl (by simp)
  obtain ⟨hops, -⟩ := hserved.eq_of_handles hx
  obtain ⟨s', hrun', hrest', -, hfinished', hlog'⟩ :=
    exists_finished_of_served hrun hrest () c (hserved.mono fun _ _ hmv => hmv.2.1)
  refine ⟨s', hrun', hrest', hfinished', ?_⟩
  rw [hlog', trafficTo_append, trafficTo_session, traffic_of_replies (by rw [hops]; rfl), hl]

end Pings

/-- A PING as the first and as the second request of a server, there behind a SET of another
client. -/
def pingTask (ticket : ℕ) : Task := ⟨ticket, 5, createArrayReponse [str "PING"]⟩

def earlierTask : Task := ⟨0, 6, createArrayReponse [str "SET", str "k", str "v"]⟩

/-- A server whose clock stands still. -/
def stillHost : Host := { Host.plain with clock := fun _ => 1000 }

/-- The server with the id of all `A` and the server with the id of all `9`, whose clock stands
still and which has executed a SET first. -/
theorem traffic_determined_of_pings : ∃ (s : Pool Unit Unit) (s' : Pool Unit Bool),
    s.finished = [pingTask 0] ∧ s'.finished = [earlierTask, pingTask 1] ∧
      trafficTo 5 s.log = [pingResponse] ∧ trafficTo 5 s.log = trafficTo 5 s'.log := by
  have hstart : PoolRun .plain (fun _ => 5) FullSends (constantId ⟨0, by decide⟩)
      (Pool.start (constantId ⟨0, by decide⟩) : Pool Unit Unit) := .start
  obtain ⟨s, hrun, hrest, (hfinished : s.finished = [pingTask 0]),
    (hpong : trafficTo 5 s.log = [pingResponse])⟩ := exists_pinged hstart (atRest_start _) ()
  -- the SET on the second server writes nothing to the socket
  obtain ⟨tr, st, hx, hover, hsends⟩ : ∃ tr st,
      Handles stillHost (twoSockets true) earlierTask.recvStr (constantId ⟨61, by decide⟩) tr (.ok ()) st ∧
        Op.communicationOver ∈ tr ∧ sendsTo 5 tr = [] :=
    ⟨_, _, Machine.eval_sound (n := 6) rfl, by decide, by decide⟩
  obtain ⟨l, hserved⟩ := exists_served hx hover
  obtain ⟨hops, -⟩ := hserved.eq_of_handles hx
  have hstart' : PoolRun stillHost twoSockets FullSends (constantId ⟨61, by decide⟩)
      (Pool.start (constantId ⟨61, by decide⟩) : Pool Unit Bool) := .start
  obtain ⟨s₁, hrun₁, hrest₁, -, (hfinished₁ : s₁.finished = [earlierTask]), hlog₁⟩ :=
    exists_finished_of_served hstart' (atRest_start _) () true hserved
  have htraffic₁ : trafficTo 5 s₁.log = [] := by
    change s₁.log = l.map (Prod.mk earlierTask) at hlog₁
    rw [hlog₁, trafficTo_session, traffic_of_ne (by decide), hops, hsends]
  obtain ⟨s', hrun', hrest', hfinished', hpong'⟩ := exists_pinged hrun₁ hrest₁ false
  rw [← hrun₁.finished_of_atRest hrest₁, hfinished₁] at hfinished'
  change s'.finished = [earlierTask, pingTask 1] at hfinished'
  change trafficTo 5 s'.log = trafficTo 5 s₁.log ++ [pingResponse] at hpong'
  rw [htraffic₁, List.nil_append] at hpong'
  have hid : ∀ draw, (constantId draw).serverInfo.masterReplid = generateMasterReplid fun _ => draw :=
    fun _ => rfl
  have hreq : ∀ task ∈ s.enqueued, ∃ ss, Request ss task.recvStr := by
    rw [← hrun.finished_of_atRest hrest, hfinished, List.forall_mem_singleton]
    exact ⟨_, createArrayReponse_request _⟩
  have hreq' : ∀ task ∈ s'.enqueued, ∃ ss, Request ss task.recvStr := by
    rw [← hrun'.finished_of_atRest hrest', hfinished', List.forall_mem_cons, List.forall_mem_singleton]
    exact ⟨⟨_, createArrayReponse_request _⟩, _, createArrayReponse_request _⟩
  exact ⟨s, s', hfinished, hfinished', hpong,
    traffic_determined hrun hrun' rfl (hid _) (hid _) hreq hreq' (by rw [hpong, hpong'])⟩

end RedisServer.MessageFraming
