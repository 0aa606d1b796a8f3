import RedisServer.MessageAccounting

/-!
# Which requests can lose replies

The number of messages a request asks for is read off its chain of commands. With three
or more there is a schedule without any timeout in which the handler leaves its loop
while replies are still buffered.
-/

namespace RedisServer.ResponseExchange
open ByteStrings InteractionPrograms ServerState Utils RedisParser ParserDiscipline RequestChain
open RequestRuns RequestFailures

variable {host : Host} {clientFd : ℤ} {input : Bytes} {st : Store}

section CountingMessages

variable {pos : ℕ} {ks : List (Parser Unit)} {tr : List Op} {u : Thread parserSignature} {st' : Store}

private theorem orderlyThread_of_stack (hks : ∀ k ∈ ks, Quiet k) :
    OrderlyThread ⟨parseRESPCommand host clientFd input pos, ks⟩ :=
  ⟨orderly_parseRESPCommand _ _ _ _, hks⟩

/-- A run in which the exchange is over has passed all messages of the complete run. -/
private theorem messages_eq_of_exec (hks : ∀ k ∈ ks, Quiet k)
    (h : Reaches (parser host clientFd input) ⟨parseRESPCommand host clientFd input pos, ks⟩ st tr u
      st') (hover : Op.communicationOver ∈ tr) {full : List Op} {st'' : Store}
    (hexec : Exec (parser host clientFd input) (parseRESPCommand host clientFd input pos) st full
      (.ok ()) st'') : messages tr = messages full := by
  have hfull := Reaches.of_exec hexec .pure ks
  rw [Program.bind_pure_self] at hfull
  rcases h.compare hfull with ⟨rem, rfl, hrem⟩ | ⟨rem, rfl, hrem⟩
  · have hquiet := ((orderlyThread_of_stack hks).reaches h).2 hover
    simp [(hquiet.reaches hrem).1]
  · have hquiet : QuietThread ⟨.pure (), ks⟩ := ⟨trivial, hks⟩
    simp [(hquiet.reaches hrem).1]

/-- A run in which the exchange is over has passed the number of messages that its chain
of commands asks for. -/
theorem asks_of_over (hks : ∀ k ∈ ks, Quiet k)
    (h : Reaches (parser host clientFd input) ⟨parseRESPCommand host clientFd input pos, ks⟩ st tr u
      st') (hover : Op.communicationOver ∈ tr) : Asks host input pos (messages tr).length := by
  -- each SET that hands over leaves strictly fewer operations for the rest of the chain
  induction hlen : tr.length using Nat.strong_induction_on generalizing pos ks st tr with
  | _ m ih =>
    by_cases hhandled : Handled host input pos
    · rcases hhandled with hstar | ⟨n, name, p, hcmd, hargs⟩
      · obtain ⟨reads, hreads, hexec⟩ := @exec_stray _ clientFd _ _ st hstar
        have hm : messages [Op.communicationOver] = [] := rfl
        rw [messages_eq_of_exec hks h hover hexec]
        simpa [hreads, hm] using Asks.stray hstar
      · by_cases hname : name = str "SET"
        · subst hname
          obtain ⟨k, v, px, next, hset⟩ := arguments_set.mp hargs
          have hset : SetAt host input pos k v px next := ⟨n, p, hcmd, hset⟩
          by_cases hnext : byteAt host input next = byte '*'
          · obtain ⟨tr₁, htr₁, hr⟩ := @reaches_next _ clientFd _ _ _ st _ _ _ hset hnext ks
            rcases h.compare hr with ⟨rem, rfl, -⟩ | ⟨rem, rfl, hrem⟩
            · exact absurd (List.mem_append_left _ hover) htr₁.over_notMem
            · have hpos : 0 < tr₁.length := List.length_pos_of_ne_nil (by
                rintro rfl
                cases htr₁.assignments)
              have hend : Quiet setEnd := by
                apply (silent_getInfo _).quiet.bind
                intro role
                split
                · exact ⟨⟨0, rfl⟩, quiet_communicationOver⟩
                · exact quiet_communicationOver
              have hrest := ih rem.length (by simp at hlen; omega)
                (List.forall_mem_cons.mpr ⟨hend, hks⟩) hrem
                ((List.mem_append.mp hover).resolve_left htr₁.over_notMem) rfl
              have hcount : (messages (tr₁ ++ rem)).length = (messages rem).length + 1 := by
                simp [htr₁.messages, Nat.add_comm]
              rw [hcount]
              exact .set ⟨⟨k, v, px, hset⟩, hnext⟩ hrest
          · obtain ⟨tr₁, tr₂, htr₁, htr₂, hexec⟩ :=
              @exec_lastSet _ clientFd _ _ _ st _ _ _ hset hnext
            rw [messages_eq_of_exec hks h hover hexec]
            simpa [htr₁.messages, htr₂.messages] using Asks.lastSet hset hnext
        · obtain ⟨tr₁, st₁, hrun, hm, -⟩ :=
            @answers_dispatch _ clientFd input _ _ st _ _ hname hargs
          obtain ⟨reads, hreads, hexec⟩ := exec_command hcmd hrun
          rw [messages_eq_of_exec hks h hover hexec]
          simpa [hreads, hm] using Asks.last hcmd hname hargs
    · obtain ⟨full, e, st'', hinert, hexec⟩ :=
        @rejects_parseRESPCommand _ clientFd _ _ st hhandled
      obtain ⟨x, hx, hview⟩ := Reaches.of_exec_throw hexec .pure ks
      rw [Program.bind_pure_self] at hx
      obtain ⟨rem, rfl, -⟩ := h.split hx (.inr ⟨e, hview⟩)
      exact absurd (List.mem_append_left _ hover) hinert.over_notMem

end CountingMessages

theorem isCommunicating_iff {allowed : Exchange → Move → Prop} {s : Session}
    (h : RequestRun host clientFd input st allowed s) :
    s.exchange.isCommunicating = false ↔ Op.communicationOver ∈ operations s.log := by
  refine h.induct (P := fun s => s.exchange.isCommunicating = false ↔
    Op.communicationOver ∈ operations s.log) (by simp [Exchange.start]) ?_
  rintro s mv acts x' st' ih - hs
  cases hs with
  | handler hs _ =>
    rw [operations_append, operations_map_write, List.append_nil, ← ih]
    cases hs <;> rfl
  | parser hs =>
    rw [operations_append, operations_map_op, List.mem_append, ← ih]
    cases hs with
    | plain hpc hv ho => simp [Ne.symm ho.2.1]
    | _ => simp

section Schedule

variable {p : Parser Unit} {x : Exchange} {st₁ st₂ : Store} {log : List Action} {tr : List Op}
  {u : Thread parserSignature}

private theorem parser_undisturbed (x : Exchange) : Undisturbed false x .parser :=
  ⟨nofun, nofun, fun _ => nofun⟩

private theorem undisturbed_handler (x : Exchange) : Undisturbed false x .handler :=
  ⟨nofun, nofun, fun _ => nofun⟩

theorem push_message {m : Bytes} {k : Unit → Thread parserSignature}
    (h : RequestRun host clientFd input st (Undisturbed false) ⟨x, st₁, log⟩)
    (hpc : x.parserPc = .program)
    (hv : x.thread.view (parser host clientFd input) = .performs (Op.enqueueMessage m) k)
    (hmtx : x.responseBufMtx = none) :
    RequestRun host clientFd input st (Undisturbed false)
      ⟨{ x with
          thread := k ()
          parserPc := .sentTest
          handlerPc := x.handlerPc.notified
          responseBuf := x.responseBuf ++ [m] },
        st₁, log ++ [.op (.enqueueMessage m)]⟩ := by
  have h₁ := h.parserSilent (parser_undisturbed _) (.msgLock hpc hv hmtx)
  have h₂ := h₁.parserStep (parser_undisturbed _) (.msgPush rfl hv)
  have h₃ := h₂.parserSilent (parser_undisturbed _) (.msgUnlock rfl)
  have h₄ := h₃.parserSilent (parser_undisturbed _) (.msgNotify rfl)
  rw [← hmtx] at h₄
  exact h₄

theorem deliver_message {m : Bytes} {ms : List Bytes}
    (h : RequestRun host clientFd input st (Undisturbed false) ⟨x, st₁, log⟩)
    (hpc : x.handlerPc = .bufRelock) (hmtx : x.responseBufMtx = none)
    (hbuf : x.responseBuf = m :: ms) (hm : m ≠ [])
    (hparser : x.parserPc = .program ∨ x.parserPc = .sentTest) :
    RequestRun host clientFd input st (Undisturbed false)
      ⟨{ x with
          handlerPc := .testOver
          responseSent := true
          responseBuf := ms
          responseBufMtx := some .handler
          response := [] },
        st₁, log ++ [.write m]⟩ := by
  have halive : x.parserPc ≠ .terminated := by
    rintro hx
    simp [hx] at hparser
  have hsame : x.parserPc.notifiedSent = x.parserPc := by
    rcases hparser with hx | hx <;> rw [hx] <;> rfl
  have h₁ := h.handlerSilent (undisturbed_handler _) (.bufRelock hpc hmtx) halive
  have h₂ := h₁.handlerSilent (undisturbed_handler _) (.popBuf rfl hbuf) halive
  have h₃ := h₂.handlerSilent (undisturbed_handler _) (.testResponse rfl hm) halive
  have hfull : Undisturbed false { x with
      handlerPc := .sending 0, responseBuf := ms, responseBufMtx := some .handler, response := m }
      (.handlerSend (some m.length)) := by
    refine ⟨nofun, fun sent total hmv htotal => ?_, fun _ => nofun⟩
    cases hmv
    cases htotal
    rfl
  have h₄ := h₃.step _ hfull (.handler (.send rfl (List.length_pos_of_ne_nil hm) le_rfl) halive)
  have h₅ := h₄.handlerSilent (undisturbed_handler _) (.sendDone rfl (by simp)) halive
  have h₆ := h₅.handlerSilent (undisturbed_handler _) (.setSent rfl) halive
  have h₇ := h₆.handlerSilent (undisturbed_handler _) (.notifySent rfl) halive
  simpa [hsame] using h₇

/-- The parser runs alone while the handler is not in its way: the flags it tests are
raised, and the handler neither owns the mutex nor waits for a message that comes. -/
theorem parser_alone
    (h : RequestRun host clientFd input st (Undisturbed false) ⟨x, st₁, log⟩)
    (hr : Reaches (parser host clientFd input) x.thread st₁ tr u st₂)
    (hpc : x.parserPc = .program) (hloop : x.handlerInCommunicationLoop = true)
    (hmtx : x.responseBufMtx = none)
    (hmsg : messages tr = [] ∨ (x.responseSent = true ∧ x.handlerPc.notified = x.handlerPc)) :
    RequestRun host clientFd input st (Undisturbed false)
      ⟨{ x with
          thread := u
          responseBuf := x.responseBuf ++ messages tr
          isCommunicating := x.isCommunicating && decide (Op.communicationOver ∉ tr) },
        st₂, log ++ tr.map .op⟩ := by
  generalize ht : x.thread = t at hr
  induction hr generalizing x log with
  | refl =>
    subst ht
    simpa [messages] using h
  | internal hv _ ih =>
    subst ht
    have h₁ := h.parserSilent (parser_undisturbed x) (.internal hpc hv)
    have h₂ := ih h₁ hpc hloop hmtx hmsg rfl
    exact h₂
  | @performs t u w v o k tr hv _ ih =>
    subst ht
    by_cases hplain : Plain o
    · have h₁ := h.parserStep (parser_undisturbed x) (.plain hpc hv hplain)
      have hm : messages (o :: tr) = messages tr := by
        rw [show o :: tr = [o] ++ tr from rfl, messages_append, messages_plain hplain, List.nil_append]
      rw [hm] at hmsg
      have h₂ := ih h₁ hpc hloop hmtx hmsg rfl
      simpa [hm, Ne.symm hplain.2.1] using h₂
    · rcases not_plain_iff.mp hplain with rfl | rfl | ⟨m, rfl⟩
      · have h₁ := h.parserStep (parser_undisturbed x) (.entryPass hpc hv hloop)
        simpa using ih h₁ hpc hloop hmtx hmsg rfl
      · have h₁ := h.parserStep (parser_undisturbed x) (.communicationOver hpc hv)
        simpa [messages] using ih h₁ hpc hloop hmtx hmsg rfl
      · obtain ⟨hsent, hfree⟩ := hmsg.resolve_left (by simp [messages])
        have h₁ := push_message h hpc hv hmtx
        have h₂ := h₁.parserSilent (parser_undisturbed _) (.sentPass rfl hsent)
        have h₃ := ih h₂ rfl hloop hmtx (.inr ⟨hsent, by simp [hfree]⟩) rfl
        simpa [messages, hfree, hpc] using h₃

theorem handler_enters : RequestRun host clientFd input st (Undisturbed false)
    ⟨{ Exchange.start (parseRESPCommand host clientFd input 0) with
        handlerPc := .bufWaiting
        handlerInCommunicationLoop := true }, st, []⟩ := by
  have h₀ : RequestRun host clientFd input st (Undisturbed false)
    ⟨.start (parseRESPCommand host clientFd input 0), st, []⟩ := .start
  have h₁ := h₀.handlerSilent (undisturbed_handler _) (.testLoop rfl rfl) nofun
  have h₂ := h₁.handlerSilent (undisturbed_handler _) (.setLoop rfl) nofun
  have h₃ := h₂.handlerSilent (undisturbed_handler _) (.notifyLoop rfl) nofun
  have h₄ := h₃.handlerSilent (undisturbed_handler _) (.lockBuf rfl rfl) nofun
  exact h₄.handlerSilent (undisturbed_handler _) (.waitFor rfl) nofun

theorem handler_waits_again
    (h : RequestRun host clientFd input st (Undisturbed false) ⟨x, st₁, log⟩)
    (hpc : x.handlerPc = .testOver) (hloop : x.handlerInCommunicationLoop = true)
    (hcomm : x.isCommunicating = true) (halive : x.parserPc ≠ .terminated) :
    RequestRun host clientFd input st (Undisturbed false)
      ⟨{ x with handlerPc := .bufWaiting, responseBufMtx := none }, st₁, log⟩ := by
  have h₁ := h.handlerSilent (undisturbed_handler _) (.testOver hpc hcomm) halive
  have h₂ := h₁.handlerSilent (undisturbed_handler _) (.unlockBuf rfl) halive
  have h₃ := h₂.handlerSilent (undisturbed_handler _) (.testLoopSkip rfl hloop) halive
  have h₄ := h₃.handlerSilent (undisturbed_handler _) (.lockBuf rfl rfl) halive
  exact h₄.handlerSilent (undisturbed_handler _) (.waitFor rfl) halive

end Schedule

theorem exists_first_message {tr : List Op} {m : Bytes} {ms : List Bytes}
    (h : messages tr = m :: ms) : ∃ tr₀ tr₁, tr = tr₀ ++ .enqueueMessage m :: tr₁ ∧
      messages tr₀ = [] ∧ messages tr₁ = ms := by
  obtain ⟨tr₀, o, tr₁, rfl, hbefore, ho, hafter⟩ := List.filterMap_eq_cons_iff.mp h
  have hnil : messages tr₀ = [] := List.filterMap_eq_nil_iff.mpr hbefore
  cases o with
  | enqueueMessage m' => cases ho; exact ⟨tr₀, tr₁, rfl, hnil, hafter⟩
  | _ => cases ho

section TwoMessages

variable {u : Thread parserSignature} {tr : List Op} {st' : Store} {m₁ m₂ : Bytes} {ms : List Bytes}

/-- Without a timeout the parser can come to have pushed its second message, with the first
one sent, the flag still raised, and the handler woken. -/
theorem exists_second_push
    (hr : Reaches (parser host clientFd input) (.start (parseRESPCommand host clientFd input 0)) st tr
      u st') (hms : messages tr = m₁ :: m₂ :: ms) (hover : Op.communicationOver ∈ tr) :
    ∃ t v log tr₂, RequestRun host clientFd input st (Undisturbed false)
        ⟨⟨t, .sentTest, .bufRelock, true, true, true, [m₂], none, []⟩, v, log⟩ ∧
      Reaches (parser host clientFd input) t v tr₂ u st' ∧ messages tr₂ = ms ∧
      Op.communicationOver ∈ tr₂ ∧ m₂ ≠ [] := by
  obtain ⟨tr₀, rest, rfl, hnil₀, hrest⟩ := exists_first_message hms
  obtain ⟨tr₁, tr₂, rfl, hnil₁, hms₂⟩ := exists_first_message hrest
  -- the thread before each of the first two messages
  obtain ⟨t₀, v₀, hr₀, hr⟩ := hr.of_append
  obtain ⟨u₁, k₁, hu₁, hv₁, hr⟩ := hr.of_cons
  obtain ⟨t₁, v₁, hr₁, hr⟩ := hr.of_append
  obtain ⟨u₂, k₂, hu₂, hv₂, hr₂⟩ := hr.of_cons
  have hto₁ := hr₀.trans hu₁
  have hto₂ := hr₁.trans hu₂
  rw [List.append_nil] at hto₁ hto₂
  have hcomm : Op.communicationOver ∉ tr₀ ++ [.enqueueMessage m₁] ++ tr₁ := by
    intro hmem
    have hquiet := ((orderlyThread_start 0).reaches ((hto₁.snoc_performs hv₁).trans hto₂)).2 hmem
    exact absurd rfl (hquiet.not_message hv₂ m₂)
  simp only [List.mem_append, List.mem_singleton, not_or] at hcomm
  obtain ⟨⟨hover₀, -⟩, hover₁⟩ := hcomm
  have hover₂ : Op.communicationOver ∈ tr₂ := by simpa [hover₀, hover₁] using hover
  -- the handler waits, the first message wakes it, and it sends that message at once
  have h₁ := parser_alone handler_enters hto₁ rfl rfl rfl (.inl hnil₀)
  have h₂ : RequestRun host clientFd input st (Undisturbed false)
      ⟨⟨k₁ (), .sentTest, .bufRelock, true, true, false, [m₁], none, []⟩, v₀,
        tr₀.map .op ++ [.op (.enqueueMessage m₁)]⟩ := by
    simpa [Exchange.start, HandlerPc.notified, hnil₀, hover₀] using push_message h₁ rfl hv₁ rfl
  have hm₁ : m₁ ≠ [] := h₂.discipline.messages_ne_nil m₁ (by simp)
  have h₃ := handler_waits_again (deliver_message h₂ rfl rfl rfl hm₁ (.inr rfl)) rfl rfl rfl (by simp)
  -- the parser finds the response sent, does not reset the flag, and never waits again
  have h₄ := parser_alone (h₃.parserSilent (parser_undisturbed _) (.sentPass rfl rfl)) hto₂ rfl rfl
    rfl (.inl hnil₁)
  have h₅ : RequestRun host clientFd input st (Undisturbed false)
      ⟨⟨k₂ (), .sentTest, .bufRelock, true, true, true, [m₂], none, []⟩, v₁,
        tr₀.map .op ++ [.op (.enqueueMessage m₁)] ++ [.write m₁] ++ tr₁.map .op ++
          [.op (.enqueueMessage m₂)]⟩ := by
    simpa [HandlerPc.notified, hnil₁, hover₁] using push_message h₄ rfl hv₂ rfl
  exact ⟨_, _, _, tr₂, h₅, hr₂, hms₂, hover₂, h₅.discipline.messages_ne_nil m₂ (by simp)⟩

/-- From there the parser can run to its end before the handler sends anything more, and
the handler sends the second message and leaves. -/
theorem exists_left
    (hr : Reaches (parser host clientFd input) (.start (parseRESPCommand host clientFd input 0)) st tr
      u st') (hms : messages tr = m₁ :: m₂ :: ms) (hover : Op.communicationOver ∈ tr) :
    ∃ log, RequestRun host clientFd input st (Undisturbed false)
      ⟨⟨u, .program, .leaving, true, false, true, ms, some .handler, []⟩, st', log⟩ := by
  obtain ⟨t, v, log, tr₂, h, hr₂, hms₂, hover₂, hm₂⟩ := exists_second_push hr hms hover
  have h₁ : RequestRun host clientFd input st (Undisturbed false)
      ⟨⟨u, .program, .bufRelock, true, false, true, m₂ :: ms, none, []⟩, st', log ++ tr₂.map .op⟩ := by
    simpa [hms₂, hover₂] using parser_alone
      (h.parserSilent (parser_undisturbed _) (.sentPass rfl rfl)) hr₂ rfl rfl rfl (.inr ⟨rfl, rfl⟩)
  exact ⟨_, (deliver_message h₁ rfl rfl rfl hm₂ (.inl rfl)).handlerSilent (undisturbed_handler _)
    (.testOverBreak rfl rfl) (by simp)⟩

theorem exists_done_of_two
    (hr : Reaches (parser host clientFd input) (.start (parseRESPCommand host clientFd input 0)) st tr
      u st') (hu : u.view (parser host clientFd input) = .halted) (hms : messages tr = [m₁, m₂])
    (hover : Op.communicationOver ∈ tr) :
    ∃ x log, RequestRun host clientFd input st (Undisturbed false) ⟨x, st', log⟩ ∧
      x.handlerPc = .done := by
  obtain ⟨log, h⟩ := exists_left hr hms hover
  have h₁ := h.handlerSilent (undisturbed_handler _) (.leaving rfl) (by simp)
  exact ⟨_, _, h₁.handlerSilent (undisturbed_handler _) (.join rfl rfl hu) (by simp), rfl⟩

end TwoMessages

/-- A request that passes three messages or more has a run, free of timeouts, in which
the handler leaves with messages still buffered. -/
theorem exists_loss_of_three {u : Thread parserSignature} {tr : List Op} {st' : Store}
    (hr : Reaches (parser host clientFd input) (.start (parseRESPCommand host clientFd input 0)) st tr
      u st') (hover : Op.communicationOver ∈ tr) (hthree : 3 ≤ (messages tr).length) :
    ∃ s, RequestRun host clientFd input st (Undisturbed false) s ∧
      s.exchange.handlerPc.left = true ∧ writes s.log ≠ messages (operations s.log) := by
  obtain ⟨m₁, m₂, m₃, ms, hms⟩ : ∃ m₁ m₂ m₃ ms, messages tr = m₁ :: m₂ :: m₃ :: ms := by
    obtain ⟨m₁, more, h₁⟩ := List.exists_cons_of_length_pos (by omega : 0 < (messages tr).length)
    rw [h₁, List.length_cons] at hthree
    obtain ⟨m₂, more', rfl⟩ := List.exists_cons_of_length_pos (by omega : 0 < more.length)
    rw [List.length_cons] at hthree
    obtain ⟨m₃, ms, rfl⟩ := List.exists_cons_of_length_pos (by omega : 0 < more'.length)
    exact ⟨m₁, m₂, m₃, ms, h₁⟩
  obtain ⟨log, h⟩ := exists_left hr hms hover
  refine ⟨_, h, rfl, fun heq => ?_⟩
  have hsplit := sent_append_buffered_of_left h rfl
  rw [heq] at hsplit
  simp at hsplit

/-- Whatever the schedule, the handler has sent exactly the messages passed when it
leaves its loop, if and only if the request asks for at most two. -/
theorem sent_eq_passed_iff (host : Host) (clientFd : ℤ) (input : Bytes) (st : Store)
    (timeouts : Bool) :
    (∀ s, RequestRun host clientFd input st (Undisturbed timeouts) s →
      s.exchange.handlerPc.left = true → writes s.log = messages (operations s.log)) ↔
    ∀ n, Asks host input 0 n → n ≤ 2 := by
  constructor
  · intro hsent n hasks
    by_contra hn
    obtain ⟨tr, st', hexec, hlen, hover⟩ := answers_of_asks hasks st
    obtain ⟨u, hr, -⟩ := reaches_halted_iff.mpr hexec
    obtain ⟨s, hs, hleft, hne⟩ := exists_loss_of_three hr hover (by omega)
    exact hne (hsent s (hs.mono fun x mv h => ⟨h.1, h.2.1, fun _ => h.2.2 rfl⟩) hleft)
  · intro hasks s hs hleft
    have hover := (isCommunicating_iff hs).mp (hs.discipline.left hleft)
    exact sent_eq_passed_of_le_two hs hleft (hasks _ (asks_of_over (List.forall_mem_nil _) hs.reaches hover))

/-- Three SETs in one buffer. -/
def pipelinedSets : Bytes :=
  createArrayReponse [str "SET", str "a", str "1"] ++
  createArrayReponse [str "SET", str "b", str "2"] ++
  createArrayReponse [str "SET", str "c", str "3"]

/-- Of the three replies to a pipeline of three SETs, the client may miss one. -/
theorem pipelined_reply_lost :
    (∃ tr st', Handles .plain 5 pipelinedSets (.empty []) tr (.ok ()) st') ∧
    ∃ s, RequestRun .plain 5 pipelinedSets (.empty []) (Undisturbed false) s ∧
      s.exchange.handlerPc.left = true ∧ writes s.log ≠ messages (operations s.log) := by
  have hexec : ∃ tr st', Handles .plain 5 pipelinedSets (.empty []) tr (.ok ()) st' ∧
      messages tr = [okResponse, okResponse, okResponse] ∧ Op.communicationOver ∈ tr :=
    ⟨_, _, Machine.eval_sound (n := 4) rfl, by decide, by decide⟩
  obtain ⟨tr, st', hexec, hm, hover⟩ := hexec
  obtain ⟨u, hr, -⟩ := reaches_halted_iff.mpr hexec
  exact ⟨⟨tr, st', hexec⟩, exists_loss_of_three hr hover (by rw [hm]; decide)⟩

end RedisServer.ResponseExchange
