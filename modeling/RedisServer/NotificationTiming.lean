import RedisServer.ExchangeInvariants

/-!
# When the notifications of the handler reach the parser

The parser tests a flag and then waits without a predicate, and the handler sets the
flag and then notifies without the mutex. A notification that falls between the test
and the wait wakes nobody and is not repeated. If none does, the parser is never left
waiting.
-/

namespace RedisServer.ResponseExchange
open ByteStrings InteractionPrograms ServerState RedisParser ParserDiscipline

/-- The handler has still to notify `handler_in_communication_loop_cv`. -/
def NotifyToCome (x : Exchange) : Prop :=
  (x.handlerPc = .testLoop ∧ x.handlerInCommunicationLoop = false) ∨ x.handlerPc = .setLoop ∨
    x.handlerPc = .notifyLoop

/-- A message is buffered, or popped and not yet followed by its notification. -/
def Unnotified (x : Exchange) : Prop :=
  x.responseBuf ≠ [] ∨ (x.handlerPc = .testResponse ∧ x.response ≠ []) ∨
    (∃ n, x.handlerPc = .sending n) ∨ x.handlerPc = .setSent ∨ x.handlerPc = .notifySent

/-- The handler goes on with its loop, and there is a message for it to send and notify. -/
structure MessageOwed (x : Exchange) : Prop where
  communicating : x.isCommunicating = true
  inLoop : x.handlerPc.left = false
  unnotified : Unnotified x

/-- The handler does not notify while the parser is between its test of the flag and
its wait on the same condition variable. -/
def Timely (x : Exchange) (mv : Move) : Prop :=
  mv = .handler →
    (x.handlerPc = .notifyLoop → x.parserPc ≠ .entryLock ∧ x.parserPc ≠ .entryWait) ∧
    (x.handlerPc = .notifySent → x.parserPc ≠ .sentLock ∧ x.parserPc ≠ .sentWait)

/-- Waits on the flag condition variables return only when notified. -/
def Notified (_ : Exchange) (mv : Move) : Prop := mv ≠ .parserSpurious

def ParserPc.inEntryWait : ParserPc → Bool
  | .entryLock | .entryWait | .entryWaiting => true
  | _ => false

/-- The message is pushed and `response_sent` not yet tested. -/
def ParserPc.beforeTest : ParserPc → Bool
  | .msgUnlock | .msgNotify | .sentTest => true
  | _ => false

def ParserPc.inSentWait : ParserPc → Bool
  | .sentLock | .sentWait | .sentWaiting => true
  | _ => false

attribute [local simp] ParserPc.holdsBuf ParserPc.inMessage HandlerPc.holdsBuf HandlerPc.entering
  HandlerPc.left HandlerPc.delivering ParserPc.inEntryWait ParserPc.beforeTest ParserPc.inSentWait
  NotifyToCome Unnotified

structure Timed (x : Exchange) : Prop where
  entry : x.parserPc.inEntryWait = true → NotifyToCome x
  tested : x.parserPc.beforeTest = true → x.responseSent = true ∨ Unnotified x
  raised : x.handlerPc = .notifySent → x.parserPc.beforeTest = true → x.responseSent = true
  sent : x.parserPc.inSentWait = true → Unnotified x

variable {host : Host} {clientFd : ℤ} {input : Bytes}

theorem timed_start (p : Parser Unit) : Timed (.start p) where
  entry := nofun
  tested := nofun
  raised := nofun
  sent := nofun

theorem unnotified_notified {x : Exchange} {pc : ParserPc} (h : Unnotified x) :
    Unnotified { x with parserPc := pc, handlerPc := x.handlerPc.notified } := by
  rcases h with hbuf | ⟨hpc, hres⟩ | ⟨n, hpc⟩ | hpc | hpc <;> simp_all [HandlerPc.notified]

theorem HandlerPc.notified_eq_notifySent {pc : HandlerPc} :
    pc.notified = .notifySent ↔ pc = .notifySent := by
  cases pc <;> simp [HandlerPc.notified]

theorem ParserPc.inEntryWait_notifiedEntry {pc : ParserPc} (h : pc ≠ .entryLock ∧ pc ≠ .entryWait) :
    pc.notifiedEntry.inEntryWait = false := by
  cases pc <;> first | rfl | exact absurd rfl h.1 | exact absurd rfl h.2

theorem ParserPc.beforeTest_notifiedEntry (pc : ParserPc) :
    pc.notifiedEntry.beforeTest = pc.beforeTest := by
  cases pc <;> rfl

theorem ParserPc.inSentWait_notifiedEntry (pc : ParserPc) :
    pc.notifiedEntry.inSentWait = pc.inSentWait := by
  cases pc <;> rfl

theorem ParserPc.inEntryWait_notifiedSent (pc : ParserPc) :
    pc.notifiedSent.inEntryWait = pc.inEntryWait := by
  cases pc <;> rfl

theorem ParserPc.beforeTest_notifiedSent (pc : ParserPc) :
    pc.notifiedSent.beforeTest = pc.beforeTest := by
  cases pc <;> rfl

theorem ParserPc.inSentWait_notifiedSent {pc : ParserPc} (h : pc ≠ .sentLock ∧ pc ≠ .sentWait) :
    pc.notifiedSent.inSentWait = false := by
  cases pc <;> first | rfl | exact absurd rfl h.1 | exact absurd rfl h.2

/-- The parser moves on, and what the handler has still to do is as before. -/
theorem Timed.parserMoves {x x' : Exchange} (h : Timed x) (hhandler : x'.handlerPc = x.handlerPc)
    (hloop : x'.handlerInCommunicationLoop = x.handlerInCommunicationLoop)
    (hbuf : x'.responseBuf = x.responseBuf) (hres : x'.response = x.response)
    (hentry : x'.parserPc.inEntryWait = true → x.parserPc.inEntryWait = true)
    (htest : x'.parserPc.beforeTest = true →
      x.parserPc.beforeTest = true ∧ x'.responseSent = x.responseSent)
    (hsent : x'.parserPc.inSentWait = true → x.parserPc.inSentWait = true) : Timed x' := by
  have hcome : NotifyToCome x' ↔ NotifyToCome x := by rw [NotifyToCome, NotifyToCome, hhandler, hloop]
  have howed : Unnotified x' ↔ Unnotified x := by rw [Unnotified, Unnotified, hhandler, hbuf, hres]
  refine ⟨fun hin => hcome.mpr (h.entry (hentry hin)), fun hin => ?_, fun hn hin => ?_,
    fun hin => howed.mpr (h.sent (hsent hin))⟩
  · obtain ⟨hin, heq⟩ := htest hin
    rw [heq, howed]
    exact h.tested hin
  · obtain ⟨hin, heq⟩ := htest hin
    rw [hhandler] at hn
    rw [heq]
    exact h.raised hn hin

theorem timed_parserStep {mv : Move} {x x' : Exchange} {st st' : Store} {tr : List Op}
    (hd : Discipline x) (h : Timed x)
    (hs : ParserStep (parser host clientFd input) mv x st tr x' st') : Timed x' := by
  cases hs with
  | entryTest hpc hv hflag =>
    refine ⟨fun _ => ?_, nofun, nofun, nofun⟩
    have hentering := hd.entering hflag
    cases hh : x.handlerPc <;> simp_all
  | msgPush hpc hv =>
    refine ⟨nofun, fun _ => .inr (.inl (by simp)), fun hn => ?_, nofun⟩
    -- the handler owns the mutex at its notification, so the parser cannot be pushing
    exact nomatch (hd.parser_owns (by rw [hpc]; rfl)).symm.trans (hd.handler_owns (by rw [hn]; rfl))
  | msgNotify hpc =>
    refine ⟨nofun, fun _ => (h.tested (by simp [hpc])).imp_right unnotified_notified, fun hn _ => ?_,
      nofun⟩
    exact h.raised (HandlerPc.notified_eq_notifySent.mp hn) (by simp [hpc])
  | sentTest hpc hflag =>
    refine ⟨nofun, nofun, nofun, fun _ => ?_⟩
    exact (h.tested (by simp [hpc])).resolve_left (by simp [hflag])
  | internal hpc | raise hpc | plain hpc | entryPass hpc | entryLock hpc | entryWait hpc
  | entrySpurious hpc | entryRelock hpc | msgLock hpc | msgUnlock hpc | sentPass hpc | sentLock hpc
  | sentWait hpc | sentSpurious hpc | sentRelock hpc | sentReset hpc | communicationOver hpc =>
    exact h.parserMoves rfl rfl rfl rfl (by simp [hpc]) (by simp [hpc]) (by simp [hpc])

/-- The handler moves on, and what it had to notify is notified or still to come. -/
theorem Timed.handlerMoves {x x' : Exchange} (h : Timed x) (hparser : x'.parserPc = x.parserPc)
    (hcome : NotifyToCome x → NotifyToCome x')
    (hsent : x.responseSent = true → x'.responseSent = true) (howed : Unnotified x → Unnotified x')
    (hraised : x'.handlerPc = .notifySent → x'.responseSent = true) : Timed x' := by
  refine ⟨fun hin => ?_, fun hin => ?_, fun hn _ => hraised hn, fun hin => ?_⟩
  all_goals rw [hparser] at hin
  · exact hcome (h.entry hin)
  · exact (h.tested hin).imp hsent howed
  · exact howed (h.sent hin)

theorem timed_handlerStep {mv : Move} {x x' : Exchange} {ws : List Bytes} (hd : Discipline x)
    (h : Timed x) (htime : Timely x mv)
    (hs : HandlerStep (parser host clientFd input) mv x ws x') : Timed x' := by
  cases hs with
  | notifyLoop hpc =>
    refine ⟨fun hin => ?_, fun hin => ?_, nofun, fun hin => ?_⟩
    · rw [ParserPc.inEntryWait_notifiedEntry ((htime rfl).1 hpc)] at hin
      cases hin
    · rw [ParserPc.beforeTest_notifiedEntry] at hin
      exact (h.tested hin).imp_right (by simp [hpc])
    · rw [ParserPc.inSentWait_notifiedEntry] at hin
      simpa [hpc] using h.sent hin
  | notifySent hpc =>
    refine ⟨fun hin => ?_, fun hin => ?_, nofun, fun hin => ?_⟩
    · rw [ParserPc.inEntryWait_notifiedSent] at hin
      simpa [hpc] using h.entry hin
    · rw [ParserPc.beforeTest_notifiedSent] at hin
      exact .inl (h.raised hpc hin)
    · rw [ParserPc.inSentWait_notifiedSent ((htime rfl).2 hpc)] at hin
      cases hin
  | popBuf hpc hbuf =>
    have hm := hd.messages_ne_nil _ (by rw [hbuf]; exact List.mem_cons_self)
    exact h.handlerMoves rfl (by simp [hpc]) id (fun _ => .inr (.inl ⟨rfl, hm⟩)) nofun
  | testLoopSkip hpc hflag =>
    exact h.handlerMoves rfl (by simp [hpc, hflag]) id (by simp [hpc]) nofun
  | setSent hpc => exact h.handlerMoves rfl (by simp [hpc]) (fun _ => rfl) (by simp [hpc]) fun _ => rfl
  | popEmpty hpc hbuf => exact h.handlerMoves rfl (by simp [hpc]) id (by simp [hpc, hbuf]) nofun
  | testEmpty hpc hres => exact h.handlerMoves rfl (by simp [hpc]) id (by simp [hpc, hres]) nofun
  | testLoop hpc | setLoop hpc | lockBuf hpc | waitFor hpc | timeout hpc | bufRelock hpc
  | testResponse hpc | send hpc | sendFailed hpc | sendDone hpc | testOver hpc | testOverBreak hpc
  | unlockBuf hpc | leaving hpc | join hpc =>
    exact h.handlerMoves rfl (by simp [hpc]) id (by simp [hpc]) nofun

theorem timed_step {mv : Move} {x x' : Exchange} {st st' : Store} {acts : List Action}
    (hd : Discipline x) (h : Timed x) (htime : Timely x mv)
    (hs : Step (parser host clientFd input) mv x st acts x' st') : Timed x' := by
  cases hs with
  | parser hs => exact timed_parserStep hd h hs
  | handler hs _ => exact timed_handlerStep hd h htime hs

/-- In every run without spurious wake-ups and without early notifications, a parser
that waits for the handler's loop is still to be notified, and a parser that waits for
its response has a message the handler is still to send and notify. -/
theorem waiting_parser_is_notified {st : Store} {s : Session}
    (h : RequestRun host clientFd input st (fun x mv => Notified x mv ∧ Timely x mv) s) :
    (s.exchange.parserPc = .entryWaiting → NotifyToCome s.exchange) ∧
    (s.exchange.parserPc = .sentWaiting → MessageOwed s.exchange) := by
  have hd : Discipline s.exchange := h.discipline
  have ht : Timed s.exchange := by
    have hboth := h.induct (P := fun s => Discipline s.exchange ∧ Timed s.exchange)
      ⟨discipline_start 0, timed_start _⟩
      fun _ _ _ _ _ ih hmv hs => ⟨discipline_step ih.1 hs, timed_step ih.1 ih.2 hmv.2 hs⟩
    exact hboth.2
  refine ⟨fun hpc => ht.entry (by simp [hpc]), fun hpc => ?_⟩
  have hcomm : s.exchange.isCommunicating = true := by
    by_contra hc
    have hin := (hd.quiet (by simpa using hc)).2
    simp [hpc] at hin
  refine ⟨hcomm, ?_, ht.sent (by simp [hpc])⟩
  by_contra hleft
  exact nomatch hcomm.symm.trans (hd.left (by simpa using hleft))

/-- A PING request. -/
def pingRequest : Bytes := str "*1\r\n$4\r\nPING\r\n"

theorem waiting_parser_is_notified_at_entry :
    ∃ s : Session, s.exchange.parserPc = .entryWaiting ∧ NotifyToCome s.exchange := by
  have h₀ : RequestRun .plain 5 pingRequest (.empty []) (fun x mv => Notified x mv ∧ Timely x mv) _ :=
    .start
  have h₁ := h₀.step .parser ⟨nofun, nofun⟩ (.parser (.entryTest rfl rfl rfl))
  have h₂ := h₁.step .parser ⟨nofun, nofun⟩ (.parser (.entryLock rfl))
  have h₃ := h₂.step .parser ⟨nofun, nofun⟩ (.parser (.entryWait rfl))
  exact ⟨_, rfl, (waiting_parser_is_notified h₃).1 rfl⟩

/-- For a PING that the parser handles without an exception, the notification of either
condition variable can come too early, and then the parser waits for nothing. -/
theorem early_notifications_strand_parsing :
    (∃ tr st', Handles .plain 5 pingRequest (.empty []) tr (.ok ()) st') ∧
    (∃ s, RequestRun .plain 5 pingRequest (.empty []) Notified s ∧
      s.exchange.parserPc = .entryWaiting ∧ ¬ NotifyToCome s.exchange) ∧
    (∃ s, RequestRun .plain 5 pingRequest (.empty []) Notified s ∧
      s.exchange.parserPc = .sentWaiting ∧ ¬ MessageOwed s.exchange) := by
  have h₀ : RequestRun .plain 5 pingRequest (.empty []) Notified _ := .start
  refine ⟨⟨[.awaitCommunicationLoop, .enqueueMessage (str "+PONG\r\n"), .communicationOver],
    .empty [], Machine.eval_sound (n := 1) rfl⟩, ?_, ?_⟩
  · have h₁ := h₀.step .parser nofun (.parser (.entryTest rfl rfl rfl))
    have h₂ := h₁.step .handler nofun (.handler (.testLoop rfl rfl) nofun)
    have h₃ := h₂.step .handler nofun (.handler (.setLoop rfl) nofun)
    have h₄ := h₃.step .handler nofun (.handler (.notifyLoop rfl) nofun)
    have h₅ := h₄.step .parser nofun (.parser (.entryLock rfl))
    have h₆ := h₅.step .parser nofun (.parser (.entryWait rfl))
    exact ⟨_, h₆, rfl, by simp⟩
  · have h₁ := h₀.step .handler nofun (.handler (.testLoop rfl rfl) nofun)
    have h₂ := h₁.step .handler nofun (.handler (.setLoop rfl) nofun)
    have h₃ := h₂.step .handler nofun (.handler (.notifyLoop rfl) nofun)
    have h₄ := h₃.step .handler nofun (.handler (.lockBuf rfl rfl) nofun)
    have h₅ := h₄.step .handler nofun (.handler (.waitFor rfl) nofun)
    have h₆ := h₅.step .parser nofun (.parser (.entryPass rfl rfl rfl))
    have h₇ := h₆.step .parser nofun (.parser (.msgLock rfl rfl rfl))
    have h₈ := h₇.step .parser nofun (.parser (.msgPush rfl rfl))
    have h₉ := h₈.step .parser nofun (.parser (.msgUnlock rfl))
    have h₁₀ := h₉.step .parser nofun (.parser (.msgNotify rfl))
    have h₁₁ := h₁₀.step .parser nofun (.parser (.sentTest rfl rfl))
    have h₁₂ := h₁₁.step .handler nofun (.handler (.bufRelock rfl rfl) nofun)
    have h₁₃ := h₁₂.step .handler nofun (.handler (.popBuf rfl rfl) nofun)
    have h₁₄ := h₁₃.step .handler nofun (.handler (.testResponse rfl nofun) nofun)
    have h₁₅ := h₁₄.step (.handlerSend (some 7)) nofun
      (.handler (.send rfl (by decide) (by decide)) nofun)
    have h₁₆ := h₁₅.step .handler nofun (.handler (.sendDone rfl (by decide)) nofun)
    have h₁₇ := h₁₆.step .handler nofun (.handler (.setSent rfl) nofun)
    have h₁₈ := h₁₇.step .handler nofun (.handler (.notifySent rfl) nofun)
    have h₁₉ := h₁₈.step .parser nofun (.parser (.sentLock rfl))
    have h₂₀ := h₁₉.step .parser nofun (.parser (.sentWait rfl))
    exact ⟨_, h₂₀, rfl, fun howed => by simpa using howed.unnotified⟩

end RedisServer.ResponseExchange
