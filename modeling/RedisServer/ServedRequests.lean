import RedisServer.MessageLoss
import RedisServer.RequestOrder
import RedisServer.SetPipelines
import RedisServer.CommandRuns

/-!
# What a session has done, read off the parser's run

At every moment of a session its operations are the first ones of the run of the parser
alone, and what the handler has written comes from the messages among them.
-/

namespace RedisServer.ServedRequests
open ByteStrings CxxStrings InteractionPrograms ServerState Utils RedisParser ParserDiscipline
open ResponseExchange RequestChain RequestRuns CommandRuns WorkerPool

/-- What a session of the client `clientFd` writes to the socket `fd`, one byte string
for each `send`: propagated buffers, and replies if the client is `fd` itself. -/
def traffic (fd clientFd : ℤ) (acts : List Action) : List Bytes :=
  acts.filterMap fun
    | .op (.send fd' b) => if fd' = fd then some b else none
    | .op _ => none
    | .write b => if clientFd = fd then some b else none

section Traffic

variable {fd clientFd : ℤ}

@[simp] theorem traffic_nil : traffic fd clientFd [] = [] := rfl

@[simp] theorem traffic_append (acts acts' : List Action) :
    traffic fd clientFd (acts ++ acts') = traffic fd clientFd acts ++ traffic fd clientFd acts' :=
  List.filterMap_append

/-- A session of another client writes to `fd` only what it propagates. -/
theorem traffic_of_ne (h : clientFd ≠ fd) (acts : List Action) :
    traffic fd clientFd acts = sendsTo fd (operations acts) := by
  rw [sendsTo, operations, List.filterMap_filterMap]
  apply List.filterMap_congr
  intro a _
  cases a with
  | op o => cases o <;> rfl
  | write b => simp [h]

theorem mem_traffic {acts : List Action} {m : Bytes} (h : m ∈ traffic fd clientFd acts) :
    Op.send fd m ∈ operations acts ∨ m ∈ writes acts ∧ clientFd = fd := by
  obtain ⟨a, ha, hm⟩ := List.mem_filterMap.mp h
  cases a with
  | write b =>
    obtain ⟨hfd, rfl⟩ : clientFd = fd ∧ b = m := by simpa using hm
    exact .inr ⟨mem_writes_iff.mpr ha, hfd⟩
  | op o =>
    cases o with
    | send fd' b =>
      obtain ⟨rfl, rfl⟩ : fd' = fd ∧ b = m := by simpa using hm
      exact .inl (List.mem_filterMap.mpr ⟨_, ha, rfl⟩)
    | _ => cases hm

theorem traffic_of_replies {acts : List Action} (h : sendsTo fd (operations acts) = []) :
    traffic fd fd acts = writes acts := by
  apply List.filterMap_congr
  intro a ha
  cases a with
  | write b => simp
  | op o =>
    have hmem : o ∈ operations acts := List.mem_filterMap.mpr ⟨_, ha, rfl⟩
    have hnone := List.filterMap_eq_nil_iff.mp h o hmem
    cases o <;> first | rfl | exact hnone

end Traffic

variable {host : Host} {clientFd : ℤ} {input : Bytes} {st st' : Store}
  {allowed : Exchange → Move → Prop} {s : Session} {full : List Op} {r : Except Exception Unit}

/-- The operations of a session are the first ones of its parser's run. -/
theorem operations_prefix (h : RequestRun host clientFd input st allowed s)
    (hx : Handles host clientFd input st full r st') : operations s.log <+: full := by
  obtain ⟨rem, rfl, -⟩ := hx.split h.reaches
  exact List.prefix_append _ _

theorem operations_of_done (h : RequestRun host clientFd input st allowed s)
    (hdone : s.exchange.handlerPc = .done) (hx : Handles host clientFd input st full r st') :
    operations s.log = full ∧ r = .ok () ∧ s.store = st' := by
  obtain ⟨htr, hr, hst⟩ := (handles_of_done h hdone).deterministic hx
  exact ⟨htr, hr.symm, hst⟩

/-- Every byte that the handler writes, holds or finds buffered belongs to a message
that the parser has passed. Sends may be partial or fail. -/
theorem written_bytes (h : RequestRun host clientFd input st allowed s) :
    ∀ c ∈ (writes s.log).flatten ++ s.exchange.response ++ s.exchange.responseBuf.flatten,
      c ∈ (messages (operations s.log)).flatten := by
  refine h.induct (P := fun s => ∀ c ∈ (writes s.log).flatten ++ s.exchange.response ++
    s.exchange.responseBuf.flatten, c ∈ (messages (operations s.log)).flatten)
    (by simp [Exchange.start]) ?_
  rintro s mv acts x' st' ih - hs c
  have hold := ih c
  simp only [List.mem_append] at hold ⊢
  cases hs with
  | parser hs =>
    rw [writes_append, writes_map_op, List.append_nil, operations_append, operations_map_op,
      messages_append, List.flatten_append, List.mem_append]
    cases hs with
    | msgPush hpc hv =>
      rintro (hw | hb)
      · exact .inl (hold (.inl hw))
      · rw [List.flatten_append, List.mem_append] at hb
        exact hb.imp (fun hb => hold (.inr hb)) (by simp [messages])
    | _ => exact fun hc => .inl (hold hc)
  | handler hs _ =>
    rw [writes_append, writes_map_write, List.flatten_append, List.mem_append, operations_append,
      operations_map_write, List.append_nil]
    cases hs with
    | popBuf hpc hbuf =>
      rw [hbuf] at hold
      rintro ((hw | hw) | hb)
      · exact hold (.inl (.inl (hw.resolve_right List.not_mem_nil)))
      · exact hold (.inr (List.mem_append_left _ hw))
      · exact hold (.inr (List.mem_append_right _ hb))
    | send hpc hleft hn =>
      rintro ((hw | hw) | hb)
      · rcases hw with hw | hw
        · exact hold (.inl (.inl hw))
        · rw [List.flatten_singleton] at hw
          exact hold (.inl (.inr (List.mem_of_mem_drop (List.mem_of_mem_take hw))))
      · exact hold (.inl (.inr hw))
      · exact hold (.inr hb)
    | sendFailed hpc hleft | sendDone hpc hall =>
      rintro ((hw | hw) | hb)
      · exact hold (.inl (.inl (hw.resolve_right List.not_mem_nil)))
      · cases hw
      · exact hold (.inr hb)
    | _ =>
      rintro ((hw | hw) | hb)
      · exact hold (.inl (.inl (hw.resolve_right List.not_mem_nil)))
      · exact hold (.inl (.inr hw))
      · exact hold (.inr hb)

theorem writes_eq_nil (h : RequestRun host clientFd input st allowed s)
    (hm : messages (operations s.log) = []) : writes s.log = [] := by
  induction h with
  | start => rfl
  | @step s acts x' st' mv h _ hs ih =>
    rw [operations_append, messages_append, List.append_eq_nil_iff] at hm
    rw [writes_append, ih hm.1, List.nil_append]
    cases hs with
    | parser hs => exact writes_map_op _
    | handler hs _ =>
      rw [writes_map_write]
      cases hs with
      | send hpc hleft hn =>
        obtain ⟨c, hc⟩ := List.exists_mem_of_length_pos (Nat.zero_lt_of_lt hleft)
        have hwritten := written_bytes h c (by simp [hc])
        rw [hm.1] at hwritten
        cases hwritten
      | _ => rfl

/-- A request served to its end: what its session has logged, and the store it leaves. -/
def Served (host : Host) (clientFd : ℤ) (input : Bytes) (st : Store)
    (allowed : Exchange → Move → Prop) (log : List Action) (st' : Store) : Prop :=
  ∃ x, RequestRun host clientFd input st allowed ⟨x, st', log⟩ ∧ x.handlerPc = .done

theorem Served.mono {log : List Action} {allowed' : Exchange → Move → Prop}
    (h : Served host clientFd input st allowed log st') (himp : ∀ x mv, allowed x mv → allowed' x mv) :
    Served host clientFd input st allowed' log st' := by
  obtain ⟨x, hrun, hdone⟩ := h
  exact ⟨x, hrun.mono himp, hdone⟩

theorem Served.handles {log : List Action} (h : Served host clientFd input st allowed log st') :
    Handles host clientFd input st (operations log) (.ok ()) st' := by
  obtain ⟨x, hrun, hdone⟩ := h
  exact handles_of_done hrun hdone

theorem Served.eq_of_handles {log : List Action} {w : Store}
    (h : Served host clientFd input st allowed log st') (hx : Handles host clientFd input st full r w) :
    operations log = full ∧ st' = w := by
  obtain ⟨htr, -, hst⟩ := h.handles.deterministic hx
  exact ⟨htr, hst⟩

/-- Something else than an array is served without a trace. -/
theorem Served.stray {log : List Action} (h : Served host clientFd input st allowed log st')
    (hstray : byteAt host input 0 ≠ byte '*') : (∀ fd, traffic fd clientFd log = []) ∧ st' = st := by
  obtain ⟨tr, htr, hx⟩ := handles_stray clientFd hstray st
  obtain ⟨hops, rfl⟩ := h.eq_of_handles hx
  have hsends : ∀ fd, sendsTo fd (operations log) = [] := fun fd =>
    hops ▸ sendsTo_eq_nil_of_idle htr fd
  refine ⟨fun fd => ?_, rfl⟩
  by_cases hfd : clientFd = fd
  · subst hfd
    obtain ⟨x, hsession, -⟩ := h
    rw [traffic_of_replies (hsends clientFd)]
    exact writes_eq_nil hsession (hops ▸ messages_eq_nil_of_idle htr)
  · rw [traffic_of_ne hfd, hsends fd]

section Existence

variable {x : Exchange} {st₁ st₂ : Store} {log : List Action} {tr : List Op}
  {u : Thread parserSignature}

/-- The handler before its first step, and the parser between two operations. -/
structure HandlerAsleep (x : Exchange) : Prop where
  parserPc : x.parserPc = .program
  handlerPc : x.handlerPc = .testLoop
  handlerInCommunicationLoop : x.handlerInCommunicationLoop = false
  responseBufMtx : x.responseBufMtx = none
  response : x.response = []

private theorem parser_full (x : Exchange) : FullSends x .parser := nofun

private theorem parser_fullSpurious (x : Exchange) : FullSends x .parserSpurious := nofun

private theorem full_handler (x : Exchange) : FullSends x .handler := nofun

private theorem full_handlerTimeout (x : Exchange) : FullSends x .handlerTimeout := nofun

/-- Spurious wake-ups carry the parser through all its waits. -/
theorem exists_parser_run
    (h : RequestRun host clientFd input st FullSends ⟨x, st₁, log⟩)
    (hr : Reaches (parser host clientFd input) x.thread st₁ tr u st₂) (hx : HandlerAsleep x) :
    ∃ x', RequestRun host clientFd input st FullSends ⟨x', st₂, log ++ tr.map .op⟩ ∧
      x'.thread = u ∧ HandlerAsleep x' := by
  generalize ht : x.thread = t at hr
  induction hr generalizing x log with
  | refl => exact ⟨x, by simpa using h, ht, hx⟩
  | internal hv _ ih =>
    subst ht
    obtain ⟨hpc, hhandler, hloop, hmtx, hres⟩ := hx
    exact ih (h.parserSilent (parser_full _) (.internal hpc hv)) ⟨hpc, hhandler, hloop, hmtx, hres⟩ rfl
  | @performs t u w v o k tr hv _ ih =>
    subst ht
    have ⟨hpc, hhandler, hloop, hmtx, hres⟩ := hx
    by_cases hplain : Plain o
    · have h₁ := h.parserStep (parser_full _) (.plain hpc hv hplain)
      simpa using ih h₁ ⟨hpc, hhandler, hloop, hmtx, hres⟩ rfl
    rcases not_plain_iff.mp hplain with rfl | rfl | ⟨m, rfl⟩
    · have h₁ := h.parserSilent (parser_full _) (.entryTest hpc hv hloop)
      have h₂ := h₁.parserSilent (parser_full _) (.entryLock rfl)
      have h₃ := h₂.parserSilent (parser_full _) (.entryWait rfl)
      have h₄ := h₃.parserSilent (parser_fullSpurious _) (.entrySpurious rfl)
      have h₅ := h₄.parserStep (parser_full _) (.entryRelock rfl hv)
      simpa using ih h₅ ⟨rfl, hhandler, hloop, hmtx, hres⟩ rfl
    · have h₁ := h.parserStep (parser_full _) (.communicationOver hpc hv)
      simpa using ih h₁ ⟨hpc, hhandler, hloop, hmtx, hres⟩ rfl
    · have h₁ := h.parserSilent (parser_full _) (.msgLock hpc hv hmtx)
      have h₂ := h₁.parserStep (parser_full _) (.msgPush rfl hv)
      have h₃ := h₂.parserSilent (parser_full _) (.msgUnlock rfl)
      have h₄ := h₃.parserSilent (parser_full _) (.msgNotify rfl)
      have hnotified : x.handlerPc.notified = .testLoop := by rw [hhandler]; rfl
      cases hsent : x.responseSent with
      | true =>
        have h₅ := h₄.parserSilent (parser_full _) (.sentPass rfl hsent)
        simpa using ih h₅ ⟨rfl, hnotified, hloop, rfl, hres⟩ rfl
      | false =>
        have h₅ := h₄.parserSilent (parser_full _) (.sentTest rfl hsent)
        have h₆ := h₅.parserSilent (parser_full _) (.sentLock rfl)
        have h₇ := h₆.parserSilent (parser_full _) (.sentWait rfl)
        have h₈ := h₇.parserSilent (parser_fullSpurious _) (.sentSpurious rfl)
        have h₉ := h₈.parserSilent (parser_full _) (.sentRelock rfl)
        have h₁₀ := h₉.parserSilent (parser_full _) (.sentReset rfl)
        simpa using ih h₁₀ ⟨rfl, hnotified, hloop, rfl, hres⟩ rfl

/-- A handler that wakes up when the parser has halted and the exchange is over comes to
its end. -/
theorem exists_handler_run
    (h : RequestRun host clientFd input st FullSends ⟨x, st₁, log⟩) (hx : HandlerAsleep x)
    (hover : x.isCommunicating = false)
    (hv : x.thread.view (parser host clientFd input) = .halted) :
    ∃ log', Served host clientFd input st FullSends log' st₁ := by
  obtain ⟨hpc, hhandler, hloop, hmtx, hres⟩ := hx
  have halive : x.parserPc ≠ .terminated := by rw [hpc]; nofun
  have hentry : x.parserPc.notifiedEntry = .program := by rw [hpc]; rfl
  have h₁ := h.handlerSilent (full_handler _) (.testLoop hhandler hloop) halive
  have h₂ := h₁.handlerSilent (full_handler _) (.setLoop rfl) halive
  have h₃ := h₂.handlerSilent (full_handler _) (.notifyLoop rfl) halive
  have halive' : x.parserPc.notifiedEntry ≠ .terminated := by rw [hentry]; nofun
  have h₄ := h₃.handlerSilent (full_handler _) (.lockBuf rfl hmtx) halive'
  have h₅ := h₄.handlerSilent (full_handler _) (.waitFor rfl) halive'
  have h₆ := h₅.handlerSilent (full_handlerTimeout _) (.timeout rfl) halive'
  have h₇ := h₆.handlerSilent (full_handler _) (.bufRelock rfl rfl) halive'
  cases hbuf : x.responseBuf with
  | nil =>
    have h₈ := h₇.handlerSilent (full_handler _) (.popEmpty rfl hbuf) halive'
    have h₉ := h₈.handlerSilent (full_handler _) (.testEmpty rfl hres) halive'
    have h₁₀ := h₉.handlerSilent (full_handler _) (.testOverBreak rfl hover) halive'
    have h₁₁ := h₁₀.handlerSilent (full_handler _) (.leaving rfl) halive'
    exact ⟨_, _, h₁₁.handlerSilent (full_handler _) (.join rfl hentry hv) halive', rfl⟩
  | cons m ms =>
    have hm : m ≠ [] := h.discipline.messages_ne_nil m (by simp [hbuf])
    have hsent : x.parserPc.notifiedEntry.notifiedSent = .program := by rw [hentry]; rfl
    have halive'' : x.parserPc.notifiedEntry.notifiedSent ≠ .terminated := by rw [hsent]; nofun
    have h₈ := h₇.handlerSilent (full_handler _) (.popBuf rfl hbuf) halive'
    have h₉ := h₈.handlerSilent (full_handler _) (.testResponse rfl hm) halive'
    have hfull : FullSends { x with
        handlerPc := .sending 0
        handlerInCommunicationLoop := true
        parserPc := x.parserPc.notifiedEntry
        responseBufMtx := some .handler
        responseBuf := ms
        response := m } (.handlerSend (some m.length)) := fun sent total hmv htotal => by
      cases hmv
      cases htotal
      rfl
    have h₁₀ := h₉.step _ hfull
      (.handler (.send rfl (List.length_pos_of_ne_nil hm) le_rfl) halive')
    have h₁₁ := h₁₀.handlerSilent (full_handler _) (.sendDone rfl (by simp)) halive'
    have h₁₂ := h₁₁.handlerSilent (full_handler _) (.setSent rfl) halive'
    have h₁₃ := h₁₂.handlerSilent (full_handler _) (.notifySent rfl) halive'
    have h₁₄ := h₁₃.handlerSilent (full_handler _) (.testOverBreak rfl hover) halive''
    have h₁₅ := h₁₄.handlerSilent (full_handler _) (.leaving rfl) halive''
    exact ⟨_, _, h₁₅.handlerSilent (full_handler _) (.join rfl hsent hv) halive'', rfl⟩

/-- Every request whose parser throws nothing and ends the exchange can be served. -/
theorem exists_served (hx : Handles host clientFd input st full (.ok ()) st')
    (hover : Op.communicationOver ∈ full) : ∃ log, Served host clientFd input st FullSends log st' := by
  obtain ⟨u, hr, hv⟩ := reaches_halted_iff.mpr hx
  obtain ⟨x, hrun, rfl, hasleep⟩ := exists_parser_run .start hr ⟨rfl, rfl, rfl, rfl, rfl⟩
  exact exists_handler_run hrun hasleep ((isCommunicating_iff hrun).mpr (by simpa using hover)) hv

theorem exists_served_of_stray (clientFd : ℤ) (hstray : byteAt host input 0 ≠ byte '*') (st : Store) :
    ∃ log, Served host clientFd input st FullSends log st := by
  obtain ⟨reads, -, hx⟩ := @exec_stray host clientFd input 0 st hstray
  exact exists_served hx (by simp)

/-- A request with two messages can be served so that both are sent. -/
theorem exists_served_of_two {m₁ m₂ : Bytes} (hx : Handles host clientFd input st full (.ok ()) st')
    (hms : messages full = [m₁, m₂]) (hover : Op.communicationOver ∈ full) :
    ∃ log, Served host clientFd input st (Undisturbed true) log st' ∧ writes log = [m₁, m₂] := by
  obtain ⟨u, hr, hv⟩ := reaches_halted_iff.mpr hx
  obtain ⟨x, log, hrun, hdone⟩ := exists_done_of_two hr hv hms hover
  obtain ⟨hops, -, -⟩ := operations_of_done hrun hdone hx
  have hleft : x.handlerPc.left = true := by rw [hdone]; rfl
  refine ⟨log, ⟨x, hrun.mono fun _ _ hmv => ⟨hmv.1, hmv.2.1, by simp⟩, hdone⟩, ?_⟩
  rw [sent_eq_passed_of_le_two hrun hleft (by rw [hops, hms]; rfl), hops, hms]

theorem exists_served_of_one {m : Bytes} (hx : Handles host clientFd input st full (.ok ()) st')
    (hms : messages full = [m]) (hover : Op.communicationOver ∈ full) :
    ∃ log, Served host clientFd input st (Undisturbed true) log st' ∧ writes log = [m] := by
  obtain ⟨u, hr, hv⟩ := reaches_halted_iff.mpr hx
  obtain ⟨tr₀, tr₁, rfl, hnil₀, hnil₁⟩ := exists_first_message hms
  obtain ⟨t₀, v₀, hr₀, hr⟩ := hr.of_append
  obtain ⟨u₁, k₁, hu₁, hv₁, hr₁⟩ := hr.of_cons
  have hto := hr₀.trans hu₁
  rw [List.append_nil] at hto
  have hbefore : Op.communicationOver ∉ tr₀ := by
    intro hmem
    have hquiet := ((orderlyThread_start 0).reaches hto).2 hmem
    exact absurd rfl (hquiet.not_message hv₁ m)
  have hafter : Op.communicationOver ∈ tr₁ := by simpa [hbefore] using hover
  have hparser : ∀ x, Undisturbed false x .parser := fun _ => ⟨nofun, nofun, fun _ => nofun⟩
  have hhandler : ∀ x, Undisturbed true x .handler := fun _ => ⟨nofun, nofun, nofun⟩
  have htimeout : ∀ x, Undisturbed true x .handlerTimeout := fun _ => ⟨nofun, nofun, nofun⟩
  -- the handler waits, is woken by the message and sends it before the parser goes on
  have h₁ := parser_alone handler_enters hto rfl rfl rfl (.inl hnil₀)
  have h₂ : RequestRun host clientFd input st (Undisturbed false)
      ⟨⟨k₁ (), .sentTest, .bufRelock, true, true, false, [m], none, []⟩, v₀,
        tr₀.map .op ++ [.op (.enqueueMessage m)]⟩ := by
    simpa [Exchange.start, HandlerPc.notified, hnil₀, hbefore] using push_message h₁ rfl hv₁ rfl
  have hm : m ≠ [] := h₂.discipline.messages_ne_nil m (by simp)
  have h₃ := handler_waits_again (deliver_message h₂ rfl rfl rfl hm (.inr rfl)) rfl rfl rfl (by simp)
  have h₄ : RequestRun host clientFd input st (Undisturbed false)
      ⟨⟨u, .program, .bufWaiting, true, false, true, [], none, []⟩, st',
        tr₀.map .op ++ [.op (.enqueueMessage m)] ++ [.write m] ++ tr₁.map .op⟩ := by
    simpa [hnil₁, hafter] using parser_alone
      (h₃.parserSilent (hparser _) (.sentPass rfl rfl)) hr₁ rfl rfl rfl (.inl hnil₁)
  -- it finds nothing more when its wait times out
  have h₅ : RequestRun host clientFd input st (Undisturbed true) _ :=
    h₄.mono fun _ _ hmv => ⟨hmv.1, hmv.2.1, by simp⟩
  have h₆ := h₅.handlerSilent (htimeout _) (.timeout rfl) (by simp)
  have h₇ := h₆.handlerSilent (hhandler _) (.bufRelock rfl rfl) (by simp)
  have h₈ := h₇.handlerSilent (hhandler _) (.popEmpty rfl rfl) (by simp)
  have h₉ := h₈.handlerSilent (hhandler _) (.testEmpty rfl rfl) (by simp)
  have h₁₀ := h₉.handlerSilent (hhandler _) (.testOverBreak rfl rfl) (by simp)
  have h₁₁ := h₁₀.handlerSilent (hhandler _) (.leaving rfl) (by simp)
  refine ⟨_, ⟨_, h₁₁.handlerSilent (hhandler _) (.join rfl rfl hv) (by simp), rfl⟩, ?_⟩
  simp [writes]

end Existence

section AtRest

variable {ι κ : Type} [DecidableEq ι] [DecidableEq κ] {socket : κ → ℤ} {c : κ} {b : Bytes}
  {l : List Action}

/-- A server at rest can serve what a client handler has received as it is served alone. -/
theorem exists_works_of_served {s : Pool ι κ} (h : s.AtRest) (w : ι)
    (hserved : Served host (socket c) b s.store allowed l st') : ∃ s',
    Works host socket allowed (s.setClient c (.locking b))
        (l.map (Prod.mk ⟨s.enqueued.length, socket c, b⟩)) s' ∧
      s'.AtRest ∧ s'.store = st' ∧
      s'.enqueued = s.enqueued ++ [⟨s.enqueued.length, socket c, b⟩] := by
  obtain ⟨x, hrun, hdone⟩ := hserved
  have halive : x.parserPc ≠ .terminated := by
    rw [(parser_halted_of_done hrun hdone).1]
    nofun
  obtain ⟨s₁, hworks₁, hserving, hstore, -, henq₁⟩ :=
    @Pool.AtRest.exists_serving ι κ _ _ host socket allowed s h w c b
  rw [← hstore] at hrun
  obtain ⟨s₂, hworks₂, hserving, hstore, henq₂⟩ := hserving.exists_works hrun halive
  obtain ⟨s₃, hworks₃, hrest, hstore', henq₃⟩ := hserving.exists_atRest hdone
  exact ⟨s₃, by simpa using (hworks₁.trans hworks₂).trans hworks₃, hrest, hstore'.trans hstore,
    henq₃.trans (henq₂.trans henq₁)⟩

/-- A server at rest can receive and finish a request that can be served alone. -/
theorem exists_finished_of_served {s : Pool ι κ} {st₀ : Store}
    (h : PoolRun host socket allowed st₀ s) (hrest : s.AtRest) (w : ι) (c : κ)
    (hserved : Served host (socket c) b s.store allowed l st') : ∃ s' : Pool ι κ,
    PoolRun host socket allowed st₀ s' ∧ s'.AtRest ∧ s'.store = st' ∧
      s'.finished = s.finished ++ [⟨s.enqueued.length, socket c, b⟩] ∧
      s'.log = s.log ++ l.map (Prod.mk ⟨s.enqueued.length, socket c, b⟩) := by
  have hreceived : PoolRun host socket allowed st₀ (s.setClient c (.locking b)) :=
    h.step (.receive hrest.alive (hrest.clients c))
  obtain ⟨s', hworks, hrest', hstore, henq⟩ := exists_works_of_served hrest w hserved
  have hrun := hreceived.works hworks
  refine ⟨s', hrun, hrest', hstore, ?_, hworks.log_eq⟩
  rw [hrun.finished_of_atRest hrest', henq, h.finished_of_atRest hrest]

end AtRest

end RedisServer.ServedRequests
