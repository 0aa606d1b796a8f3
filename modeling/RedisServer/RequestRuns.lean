import RedisServer.RequestChain

/-!
# The run of the parser along a chain of commands

A SET assigns, passes its reply and hands over to the command behind it. When that
command and all those behind it are done, it sends the whole buffer to every replica.
-/

namespace RedisServer.RequestRuns
open ByteStrings CxxStrings InteractionPrograms ServerState Utils RedisParser RequestChain

/-- The expiry time a SET stores: none, or so many milliseconds from the next reading
of the clock. -/
def expiryTime (host : Host) (st : Store) : Option ℤ → ℤ
  | none => 0
  | some ms => host.clock st.ticks + ms

def afterSet (host : Host) (k v : Bytes) (px : Option ℤ) (st : Store) : Store where
  database := st.database.insert k ⟨v, expiryTime host st px⟩
  serverInfo := st.serverInfo
  ticks := st.ticks + if px.isSome then 1 else 0

/-- The sockets of the connected slaves, as the propagation loop finds them. -/
def slaveFds (host : Host) (info : ServerInfo) : List ℤ :=
  (List.range info.connectedSlaves.toNat).map fun i =>
    info.connectedSlavesFd.getD i (host.outsideFd i)

/-- A SET up to the point where its reply has been passed. -/
def setHead (input : Bytes) (pos : ℕ) (numElements : ℤ) : Parser ℕ := do
  let (argument1, pos) ← parseBulkString input pos
  let (argument2, pos) ← parseBulkString input pos
  let (expiryTime, pos) ← parseExpiry input pos numElements
  databaseSet argument1 argument2 expiryTime
  enqueueMessage okResponse
  return pos

/-- The propagation and the end of a SET. -/
def setEnd : Parser Unit := do
  if (← getRole) = str "master" then
    invoke (.propagate 0)
  communicationOver

/-- A SET from its reply on. -/
def setTail (input : Bytes) (pos : ℕ) : Parser Unit := do
  if (← charAt input pos) = byte '*' then
    invoke (.parseRESPCommand pos)
  setEnd

theorem parseSETCommand_eq (input : Bytes) (pos : ℕ) (numElements : ℤ) :
    parseSETCommand input pos numElements = setHead input pos numElements >>= setTail input := by
  simp only [parseSETCommand, setHead, Program.bind_assoc]
  rfl

/-- The operations of a SET up to its reply, which assign `v` to `k`. -/
structure HeadTrace (tr : List Op) (k : Bytes) (v : DBValue) : Prop where
  messages : messages tr = [okResponse]
  sendsTo : ∀ fd, sendsTo fd tr = []
  assignments : assignments tr = [(k, v)]
  over_notMem : Op.communicationOver ∉ tr

theorem HeadTrace.of_reads {tr : List Op} {k : Bytes} {v : DBValue} (h : HeadTrace tr k v)
    {reads : List Op} (hreads : Reads reads) : HeadTrace (reads ++ tr) k v where
  messages := by simp [hreads, h.messages]
  sendsTo := fun fd => by simp [hreads, h.sendsTo]
  assignments := by simp [hreads, h.assignments]
  over_notMem := by simp [hreads.inert.over_notMem, h.over_notMem]

theorem HeadTrace.append_reads {tr : List Op} {k : Bytes} {v : DBValue} (h : HeadTrace tr k v)
    {reads : List Op} (hreads : Reads reads) : HeadTrace (tr ++ reads) k v where
  messages := by simp [hreads, h.messages]
  sendsTo := fun fd => by simp [hreads, h.sendsTo]
  assignments := by simp [hreads, h.assignments]
  over_notMem := by simp [hreads.inert.over_notMem, h.over_notMem]

/-- One more operation in front that neither assigns nor belongs to the exchange. -/
theorem HeadTrace.cons {tr : List Op} {k : Bytes} {v : DBValue} (h : HeadTrace tr k v) {o : Op}
    (ho : o = .awaitCommunicationLoop ∨ o = .getCurrentTimeMilli) : HeadTrace (o :: tr) k v := by
  obtain ⟨hm, hs, ha, hover⟩ := h
  rcases ho with rfl | rfl <;> exact ⟨hm, hs, ha, by simp [hover]⟩

/-- The run of `p` from `st` assigns `v` to `k`, passes its reply and returns `a`. -/
def Assigns (M : Machine parserSignature Store) {α : Type} (p : Parser α) (st : Store)
    (k : Bytes) (v : DBValue) (a : α) (st' : Store) : Prop :=
  ∃ tr, HeadTrace tr k v ∧ Exec M p st tr (.ok a) st'

theorem Decodes.bind_assigns {M : Machine parserSignature Store} {α β : Type} {p : Parser α}
    {f : α → Parser β} {a : α} {b : β} {st st' : Store} {k : Bytes} {v : DBValue}
    (h : Decodes M p st a) (hf : Assigns M (f a) st k v b st') : Assigns M (p >>= f) st k v b st' := by
  obtain ⟨tr, htr, hp⟩ := h
  obtain ⟨tr', htr', hf⟩ := hf
  exact ⟨tr ++ tr', htr'.of_reads htr, hp.bind hf⟩

variable {host : Host} {clientFd : ℤ} {input : Bytes} {pos next : ℕ} {st : Store}

theorem assigns_setHead {n : ℤ} {k v : Bytes} {px : Option ℤ}
    (h : SetArguments host input pos n k v px next) :
    Assigns (parser host clientFd input) (setHead input pos n) st k ⟨v, expiryTime host st px⟩
      next (afterSet host k v px st) := by
  have hset : ∀ (st : Store) (v : DBValue), Assigns (parser host clientFd input)
      (do databaseSet k v.value v.expiryTime; enqueueMessage okResponse; return next) st k v next
      (st.setDatabase (st.database.insert k v)) := fun st v =>
    ⟨[.databaseAssign k v, .enqueueMessage okResponse], ⟨rfl, fun _ => rfl, rfl, by simp⟩,
      .op (.op (.pure _ _))⟩
  cases h with
  | plain hn hk hv =>
    refine Decodes.bind_assigns (decodes_parseBulkString hk) <|
      Decodes.bind_assigns (decodes_parseBulkString hv) <|
      Decodes.bind_assigns (a := (0, next)) ?_ (hset st ⟨v, 0⟩)
    unfold parseExpiry
    rw [if_neg (by omega)]
    exact .pure _
  | @expiring px e ms p₁ p₂ p₃ _ hn hk hv hpx he hms =>
    refine Decodes.bind_assigns (decodes_parseBulkString hk) <|
      Decodes.bind_assigns (decodes_parseBulkString hv) ?_
    unfold parseExpiry
    dsimp only
    rw [if_pos hn, Program.bind_assoc]
    apply Decodes.bind_assigns (decodes_parseBulkString hpx)
    dsimp only
    rw [Program.bind_assoc]
    apply Decodes.bind_assigns (decodes_parseBulkString he)
    dsimp only
    rw [Program.bind_assoc, perform_bind]
    obtain ⟨tr, htr, hexec⟩ := hset st.tick ⟨v, host.clock st.ticks + ms⟩
    refine ⟨.getCurrentTimeMilli :: tr, htr.cons (.inr rfl), .op ?_⟩
    rw [hms]
    exact hexec

theorem dispatch_set (n : ℤ) (p : ℕ) :
    dispatch host clientFd input n (str "SET") p = parseSETCommand input p n := rfl

section Reaching

variable (st)

/-- A thread at a SET comes to the point where its reply has been passed. -/
theorem reaches_setTail {k v : Bytes} {px : Option ℤ} (h : SetAt host input pos k v px next)
    (ks : List (Parser Unit)) : ∃ tr, HeadTrace tr k ⟨v, expiryTime host st px⟩ ∧
    Reaches (parser host clientFd input) ⟨parseRESPCommand host clientFd input pos, ks⟩ st tr
      ⟨setTail input next, ks⟩ (afterSet host k v px st) := by
  obtain ⟨n, p, hcmd, hargs⟩ := h
  obtain ⟨tr₁, htr₁, h₁⟩ : Decodes (parser host clientFd input) (charAt input pos) st _ :=
    decodes_charAt input pos
  obtain ⟨tr₂, htr₂, h₂⟩ : Decodes (parser host clientFd input) _ st _ :=
    decodes_parseCommandName hcmd
  obtain ⟨tr₃, htr₃, h₃⟩ : Assigns (parser host clientFd input) _ st _ _ _ _ :=
    assigns_setHead hargs
  refine ⟨.awaitCommunicationLoop :: (tr₁ ++ (tr₂ ++ tr₃)),
    ((htr₃.of_reads htr₂).of_reads htr₁).cons (.inl rfl), .performs rfl ?_⟩
  apply (Reaches.of_exec h₁ _ ks).trans
  rw [if_neg (by simpa using hcmd.1)]
  apply (Reaches.of_exec h₂ _ ks).trans
  dsimp only
  rw [dispatch_set, parseSETCommand_eq]
  exact Reaches.of_exec h₃ _ ks

/-- A thread at a SET that is followed by a command comes to that command, with the end
of the SET on its stack. -/
theorem reaches_next {k v : Bytes} {px : Option ℤ} (h : SetAt host input pos k v px next)
    (hnext : byteAt host input next = byte '*') (ks : List (Parser Unit)) :
    ∃ tr, HeadTrace tr k ⟨v, expiryTime host st px⟩ ∧
    Reaches (parser host clientFd input) ⟨parseRESPCommand host clientFd input pos, ks⟩ st tr
      ⟨parseRESPCommand host clientFd input next, setEnd :: ks⟩ (afterSet host k v px st) := by
  obtain ⟨tr, htr, hr⟩ := reaches_setTail st h ks
  obtain ⟨tr₁, htr₁, h₁⟩ : Decodes (parser host clientFd input) (charAt input next)
    (afterSet host k v px st) _ := decodes_charAt input next
  refine ⟨tr ++ tr₁, htr.append_reads htr₁, hr.trans ?_⟩
  refine ((Reaches.of_exec h₁ _ ks).snoc_internal ?_)
  rw [if_pos hnext]
  rfl

theorem reaches_setEnd {k v : Bytes} {px : Option ℤ} (h : SetAt host input pos k v px next)
    (hnext : byteAt host input next ≠ byte '*') (ks : List (Parser Unit)) :
    ∃ tr, HeadTrace tr k ⟨v, expiryTime host st px⟩ ∧
    Reaches (parser host clientFd input) ⟨parseRESPCommand host clientFd input pos, ks⟩ st tr
      ⟨setEnd, ks⟩ (afterSet host k v px st) := by
  obtain ⟨tr, htr, hr⟩ := reaches_setTail st h ks
  obtain ⟨tr₁, htr₁, h₁⟩ : Decodes (parser host clientFd input) (charAt input next)
    (afterSet host k v px st) _ := decodes_charAt input next
  refine ⟨tr ++ tr₁, htr.append_reads htr₁, hr.trans ?_⟩
  have hc := Reaches.of_exec h₁ (fun c => if c = byte '*' then do
    invoke (.parseRESPCommand next); setEnd else setEnd) ks
  rwa [if_neg hnext] at hc

end Reaching

/-- The operations that send the buffer once to each of the given sockets. -/
structure PropagationTrace (tr : List Op) (input : Bytes) (fds : List ℤ) : Prop where
  messages : messages tr = []
  sendsTo : ∀ fd, sendsTo fd tr = List.replicate (fds.count fd) input
  assignments : assignments tr = []

/-- The operations that end a SET on a server with the given propagation targets. -/
structure EndTrace (tr : List Op) (input : Bytes) (fds : List ℤ) : Prop extends
    PropagationTrace tr input fds where
  over_mem : Op.communicationOver ∈ tr

theorem slaveFds_drop_eq_cons {info : ServerInfo} {i : ℕ} (h : (i : ℤ) < info.connectedSlaves) :
    (slaveFds host info).drop i =
      info.connectedSlavesFd.getD i (host.outsideFd i) :: (slaveFds host info).drop (i + 1) := by
  have hi : i < (slaveFds host info).length := by
    simp only [slaveFds, List.length_map, List.length_range]
    omega
  rw [List.drop_eq_getElem_cons hi]
  simp [slaveFds]

theorem exec_propagate (i : ℕ) : ∃ tr,
    PropagationTrace tr input ((slaveFds host st.serverInfo).drop i) ∧
    Exec (parser host clientFd input) (propagate input i) st tr (.ok ()) st := by
  -- the loop variable climbs to the number of connected slaves, which nothing here changes
  induction hr : (st.serverInfo.connectedSlaves - i).toNat generalizing i with
  | zero =>
    have hi : ¬ (i : ℤ) < st.serverInfo.connectedSlaves := by omega
    have hdrop : (slaveFds host st.serverInfo).drop i = [] := by
      rw [List.drop_eq_nil_iff]
      simp only [slaveFds, List.length_map, List.length_range]
      omega
    refine ⟨[.serverInfo], ⟨rfl, fun fd => by simp [hdrop, ServerState.sendsTo], rfl⟩, ?_⟩
    refine .bind (exec_getInfo _) ?_
    rw [if_neg hi]
    exact .pure _ _
  | succ r ih =>
    have hi : (i : ℤ) < st.serverInfo.connectedSlaves := by omega
    obtain ⟨tr, ⟨hm, hs, ha⟩, hrest⟩ := ih (i + 1) (by omega)
    refine ⟨.serverInfo :: .getConnectedSlaveFd i ::
      .send (st.serverInfo.connectedSlavesFd.getD i (host.outsideFd i)) input :: (tr ++ []),
      ⟨?_, fun fd => ?_, ?_⟩, ?_⟩
    · simpa [ServerState.messages] using hm
    · rw [slaveFds_drop_eq_cons hi, List.count_cons]
      have hsend := hs fd
      simp only [ServerState.sendsTo, List.append_nil, List.filterMap_cons] at hsend ⊢
      by_cases hfd : st.serverInfo.connectedSlavesFd.getD i (host.outsideFd i) = fd
      · simp only [hfd, if_true, hsend, beq_self_eq_true, List.replicate_succ]
      · simp only [hfd, if_false, hsend, beq_iff_eq, Nat.add_zero]
    · simpa [ServerState.assignments] using ha
    · apply (exec_getInfo _).bind
      rw [if_pos hi]
      exact .op (.op (.call hrest (.pure _ _)))

def targets (host : Host) (info : ServerInfo) : List ℤ :=
  if info.role = str "master" then slaveFds host info else []

variable (st) in
theorem exec_setEnd : ∃ tr, EndTrace tr input (targets host st.serverInfo) ∧
    Exec (parser host clientFd input) setEnd st tr (.ok ()) st := by
  by_cases hrole : st.serverInfo.role = str "master"
  · obtain ⟨tr, ⟨hm, hs, ha⟩, hprop⟩ : ∃ tr,
        PropagationTrace tr input ((slaveFds host st.serverInfo).drop 0) ∧
        Exec (parser host clientFd input) (propagate input 0) st tr (.ok ()) st :=
      exec_propagate 0
    refine ⟨.serverInfo :: (tr ++ [.communicationOver]), ⟨⟨?_, fun fd => ?_, ?_⟩, by simp⟩, ?_⟩
    · simpa [ServerState.messages] using hm
    · simpa [ServerState.sendsTo, targets, hrole] using hs fd
    · simpa [ServerState.assignments] using ha
    · apply (exec_getInfo _).bind
      rw [if_pos hrole]
      exact .call hprop (.op (.pure _ _))
  · refine ⟨[.serverInfo, .communicationOver], ⟨⟨rfl, fun fd => ?_, rfl⟩, by simp⟩, ?_⟩
    · simp [ServerState.sendsTo, targets, hrole]
    · apply (exec_getInfo _).bind
      rw [if_neg hrole]
      exact .op (.pure _ _)

/-- The run of a SET that ends its chain. -/
theorem exec_lastSet {k v : Bytes} {px : Option ℤ} (h : SetAt host input pos k v px next)
    (hnext : byteAt host input next ≠ byte '*') : ∃ tr tr',
    HeadTrace tr k ⟨v, expiryTime host st px⟩ ∧ EndTrace tr' input (targets host st.serverInfo) ∧
    Exec (parser host clientFd input) (parseRESPCommand host clientFd input pos) st (tr ++ tr')
      (.ok ()) (afterSet host k v px st) := by
  obtain ⟨tr, htr, hr⟩ := reaches_setEnd st h hnext []
  obtain ⟨tr', htr', hend⟩ := exec_setEnd (afterSet host k v px st)
  exact ⟨tr, tr', htr, htr', hr.exec hend⟩

theorem exec_set {k v : Bytes} {px : Option ℤ} (h : SetAt host input pos k v px next)
    (hnext : byteAt host input next = byte '*') {tr' : List Op} {st' : Store}
    (hrest : Exec (parser host clientFd input) (parseRESPCommand host clientFd input next)
      (afterSet host k v px st) tr' (.ok ()) st') : ∃ tr tr'',
    HeadTrace tr k ⟨v, expiryTime host st px⟩ ∧ EndTrace tr'' input (targets host st'.serverInfo) ∧
    Exec (parser host clientFd input) (parseRESPCommand host clientFd input pos) st
      (tr ++ (tr' ++ tr'')) (.ok ()) st' := by
  obtain ⟨tr, htr, hr⟩ := reaches_next st h hnext []
  obtain ⟨tr'', htr'', hend⟩ := exec_setEnd st'
  exact ⟨tr, tr'', htr, htr'', hr.exec_call hrest hend⟩

theorem exec_set_throws {k v : Bytes} {px : Option ℤ} (h : SetAt host input pos k v px next)
    (hnext : byteAt host input next = byte '*') {tr' : List Op} {e : Exception} {st' : Store}
    (hrest : Exec (parser host clientFd input) (parseRESPCommand host clientFd input next)
      (afterSet host k v px st) tr' (.error e) st') : ∃ tr,
    HeadTrace tr k ⟨v, expiryTime host st px⟩ ∧
    Exec (parser host clientFd input) (parseRESPCommand host clientFd input pos) st (tr ++ tr')
      (.error e) st' := by
  obtain ⟨tr, htr, hr⟩ := reaches_next st h hnext []
  exact ⟨tr, htr, hr.exec_callThrow hrest⟩

theorem exec_stray (h : byteAt host input pos ≠ byte '*') : ∃ tr, Reads tr ∧
    Exec (parser host clientFd input) (parseRESPCommand host clientFd input pos) st
      (.awaitCommunicationLoop :: (tr ++ [.communicationOver])) (.ok ()) st := by
  obtain ⟨tr, htr, hc⟩ : Decodes (parser host clientFd input) (charAt input pos) st _ :=
    decodes_charAt input pos
  refine ⟨tr, htr, .op (hc.bind ?_)⟩
  rw [if_pos h]
  exact .op (.pure _ _)

/-- The run of a command is the run of its handler, behind reads past the end. -/
theorem exec_command {n : ℤ} {name : Bytes} {p : ℕ} (h : CommandAt host input pos n name p)
    {tr : List Op} {r : Except Exception Unit} {st' : Store}
    (hrun : Exec (parser host clientFd input) (dispatch host clientFd input n name p) st tr r st') :
    ∃ reads, Reads reads ∧
    Exec (parser host clientFd input) (parseRESPCommand host clientFd input pos) st
      (.awaitCommunicationLoop :: (reads ++ tr)) r st' := by
  obtain ⟨tr₁, htr₁, h₁⟩ : Decodes (parser host clientFd input) (charAt input pos) st _ :=
    decodes_charAt input pos
  obtain ⟨tr₂, htr₂, h₂⟩ : Decodes (parser host clientFd input) _ st _ :=
    decodes_parseCommandName h
  refine ⟨tr₁ ++ tr₂, htr₁.append htr₂, .op ?_⟩
  rw [List.append_assoc]
  apply h₁.bind
  rw [if_neg (by simpa using h.1)]
  exact h₂.bind hrun

/-- A chain that asks for `k` replies is answered with `k` messages. -/
theorem answers_of_asks {k : ℕ} (h : Asks host input pos k) (st : Store) :
    Answers (parser host clientFd input) (parseRESPCommand host clientFd input pos) st k := by
  induction h generalizing st with
  | stray h =>
    obtain ⟨tr, htr, hexec⟩ := exec_stray h
    have hover : messages [Op.communicationOver] = [] := rfl
    exact ⟨_, _, hexec, by simp [htr, hover], by simp⟩
  | last h hname hargs =>
    obtain ⟨tr, st', hrun, hm, hover⟩ := answers_dispatch hname hargs
    obtain ⟨reads, hreads, hexec⟩ := exec_command h hrun
    exact ⟨_, _, hexec, by simp [hreads, hm], by simp [hover]⟩
  | lastSet h hnext =>
    obtain ⟨tr, tr', htr, htr', hexec⟩ := exec_lastSet h hnext
    exact ⟨_, _, hexec, by simp [htr.messages, htr'.messages], by simp [htr'.over_mem]⟩
  | set h _ ih =>
    obtain ⟨⟨k, v, px, hset⟩, hnext⟩ := h
    obtain ⟨tr', st', hrest, hm, hover⟩ := ih (afterSet host k v px st)
    obtain ⟨tr, tr'', htr, htr'', hexec⟩ := exec_set hset hnext hrest
    exact ⟨_, _, hexec, by simp [htr.messages, htr''.messages, hm], by simp [hover]⟩

end RedisServer.RequestRuns
