import RedisServer.ParserDiscipline
import RedisServer.ResponseExchange

/-!
# What holds in every state of an exchange

Who owns `response_buf_mtx`, that the handler raises its flag in its first iteration,
that buffered messages are nonempty and that no message follows the end of the exchange.
Nothing here restricts the scheduler: spurious wake-ups, timeouts and failing sends are
all allowed.
-/

namespace RedisServer.ResponseExchange
open ByteStrings InteractionPrograms ServerState RedisParser ParserDiscipline

/-- The parser holds `response_buf_mtx`. -/
def ParserPc.holdsBuf : ParserPc → Bool
  | .msgPush | .msgUnlock => true
  | _ => false

/-- The parser is inside `enqueueMessage`. -/
def ParserPc.inMessage : ParserPc → Bool
  | .msgPush | .msgUnlock | .msgNotify | .sentTest | .sentLock | .sentWait | .sentWaiting
  | .sentRelock | .sentReset => true
  | _ => false

/-- The handler holds `response_buf_mtx`. -/
def HandlerPc.holdsBuf : HandlerPc → Bool
  | .waitFor | .popBuf | .testResponse | .sending _ | .setSent | .notifySent | .testOver
  | .unlockBuf | .leaving => true
  | _ => false

/-- The handler has not raised its flag yet. -/
def HandlerPc.entering : HandlerPc → Bool
  | .testLoop | .setLoop => true
  | _ => false

/-- The handler has left its loop. -/
def HandlerPc.left : HandlerPc → Bool
  | .leaving | .joining | .done => true
  | _ => false

/-- The handler may hold a message it has popped and not finished with. -/
def HandlerPc.delivering : HandlerPc → Bool
  | .testResponse | .sending _ => true
  | _ => false

structure Discipline (x : Exchange) : Prop where
  parser_owns : x.parserPc.holdsBuf = true → x.responseBufMtx = some .parser
  handler_owns : x.handlerPc.holdsBuf = true → x.responseBufMtx = some .handler
  entering : x.handlerInCommunicationLoop = false → x.handlerPc.entering = true
  messages_ne_nil : ∀ m ∈ x.responseBuf, m ≠ []
  delivering : x.response ≠ [] → x.handlerPc.delivering = true
  orderly : x.isCommunicating = true → OrderlyThread x.thread
  quiet : x.isCommunicating = false → QuietThread x.thread ∧ x.parserPc.inMessage = false
  left : x.handlerPc.left = true → x.isCommunicating = false

attribute [local simp] ParserPc.holdsBuf ParserPc.inMessage HandlerPc.holdsBuf HandlerPc.entering
  HandlerPc.left HandlerPc.delivering

variable {host : Host} {clientFd : ℤ} {input : Bytes}

theorem discipline_start (pos : ℕ) :
    Discipline (.start (parseRESPCommand host clientFd input pos)) where
  parser_owns := nofun
  handler_owns := nofun
  entering := fun _ => rfl
  messages_ne_nil := nofun
  delivering := fun h => absurd rfl h
  orderly := fun _ => orderlyThread_start pos
  quiet := nofun
  left := nofun

theorem HandlerPc.holdsBuf_notified (pc : HandlerPc) : pc.notified.holdsBuf = pc.holdsBuf := by
  cases pc <;> rfl

theorem HandlerPc.entering_notified (pc : HandlerPc) : pc.notified.entering = pc.entering := by
  cases pc <;> rfl

theorem HandlerPc.left_notified (pc : HandlerPc) : pc.notified.left = pc.left := by
  cases pc <;> rfl

theorem HandlerPc.delivering_notified (pc : HandlerPc) : pc.notified.delivering = pc.delivering := by
  cases pc <;> rfl

theorem ParserPc.holdsBuf_notifiedEntry (pc : ParserPc) : pc.notifiedEntry.holdsBuf = pc.holdsBuf := by
  cases pc <;> rfl

theorem ParserPc.inMessage_notifiedEntry (pc : ParserPc) :
    pc.notifiedEntry.inMessage = pc.inMessage := by
  cases pc <;> rfl

theorem ParserPc.holdsBuf_notifiedSent (pc : ParserPc) : pc.notifiedSent.holdsBuf = pc.holdsBuf := by
  cases pc <;> rfl

theorem ParserPc.inMessage_notifiedSent (pc : ParserPc) :
    pc.notifiedSent.inMessage = pc.inMessage := by
  cases pc <;> rfl

/-- The order of the parser thread survives any single operation. -/
private theorem thread_performs {x : Exchange} (h : Discipline x) {o : Op}
    {k : o.Answer → Thread parserSignature}
    (hv : x.thread.view (parser host clientFd input) = .performs o k) (ho : o ≠ .communicationOver)
    (r : o.Answer) :
    (x.isCommunicating = true → OrderlyThread (k r)) ∧
      (x.isCommunicating = false → QuietThread (k r)) :=
  ⟨fun hc => (h.orderly hc).performs hv ho r, fun hc => (h.quiet hc).1.performs hv r⟩

theorem discipline_parserStep {mv : Move} {x x' : Exchange} {st st' : Store} {tr : List Op}
    (h : Discipline x) (hs : ParserStep (parser host clientFd input) mv x st tr x' st') :
    Discipline x' := by
  have ⟨hp, hh, he, hm, hd, ho, hq, hl⟩ := h
  cases hs with
  | internal hpc hv =>
    exact ⟨hp, hh, he, hm, hd, fun hc => (ho hc).internal hv,
      fun hc => ⟨(hq hc).1.internal hv, (hq hc).2⟩, hl⟩
  | plain hpc hv hplain =>
    have ht := thread_performs h hv hplain.2.1
    exact ⟨hp, hh, he, hm, hd, (ht _).1, fun hc => ⟨(ht _).2 hc, (hq hc).2⟩, hl⟩
  | entryPass hpc hv hflag =>
    have ht := thread_performs h hv nofun
    exact ⟨hp, hh, he, hm, hd, (ht _).1, fun hc => ⟨(ht _).2 hc, (hq hc).2⟩, hl⟩
  | entryRelock hpc hv =>
    have ht := thread_performs h hv nofun
    exact ⟨nofun, hh, he, hm, hd, (ht _).1, fun hc => ⟨(ht _).2 hc, rfl⟩, hl⟩
  | msgLock hpc hv hmtx =>
    refine ⟨fun _ => rfl, fun hb => ?_, he, hm, hd, ho, fun hc => ?_, hl⟩
    · exact nomatch hmtx.symm.trans (hh hb)
    · exact absurd rfl ((hq hc).1.not_message hv _)
  | @msgPush _ _ m k hpc hv =>
    have hc : x.isCommunicating = true := by
      by_contra hc
      exact absurd rfl ((hq (by simpa using hc)).1.not_message hv m)
    have ht := thread_performs h hv nofun
    refine ⟨fun _ => hp (by rw [hpc]; rfl), hh, he, ?_, hd, (ht _).1, fun hc' => ?_, hl⟩
    · intro m' hm'
      rcases List.mem_append.mp hm' with hm' | hm'
      · exact hm m' hm'
      · rw [List.mem_singleton.mp hm']
        exact (ho hc).message_ne_nil hv rfl
    · exact nomatch hc.symm.trans hc'
  | msgUnlock hpc =>
    refine ⟨nofun, fun hb => ?_, he, hm, hd, ho, ?_, hl⟩
    · have hown := hp (by rw [hpc]; rfl)
      exact nomatch hown.symm.trans (hh hb)
    · intro hc
      have hin := (hq hc).2
      simp [hpc] at hin
  | msgNotify hpc =>
    refine ⟨nofun, fun hb => hh ?_, fun hf => ?_, hm, fun hr => ?_, ho, ?_, fun hleft => hl ?_⟩
    · rwa [HandlerPc.holdsBuf_notified] at hb
    · rw [HandlerPc.entering_notified]
      exact he hf
    · rw [HandlerPc.delivering_notified]
      exact hd hr
    · intro hc
      have hin := (hq hc).2
      simp [hpc] at hin
    · rwa [HandlerPc.left_notified] at hleft
  | communicationOver hpc hv =>
    refine ⟨hp, hh, he, hm, hd, nofun, fun _ => ⟨?_, by simp [hpc]⟩, fun _ => rfl⟩
    cases hc : x.isCommunicating with
    | true => exact (ho hc).over hv
    | false => exact (hq hc).1.performs hv _
  | raise hpc | entryTest hpc | entryLock hpc | entryWait hpc | entrySpurious hpc | sentPass hpc
  | sentReset hpc =>
    exact ⟨nofun, hh, he, hm, hd, ho, fun hc => ⟨(hq hc).1, rfl⟩, hl⟩
  | sentTest hpc | sentLock hpc | sentWait hpc | sentSpurious hpc | sentRelock hpc =>
    refine ⟨nofun, hh, he, hm, hd, ho, fun hc => ⟨(hq hc).1, ?_⟩, hl⟩
    simpa [hpc] using (hq hc).2

theorem discipline_handlerStep {mv : Move} {x x' : Exchange} {ws : List Bytes}
    (h : Discipline x) (hs : HandlerStep (parser host clientFd input) mv x ws x') :
    Discipline x' := by
  have ⟨hp, hh, he, hm, hd, ho, hq, hl⟩ := h
  cases hs with
  | notifyLoop hpc =>
    refine ⟨fun hb => hp ?_, nofun, fun hf => ?_, hm, fun hr => ?_, ho, fun hc => ⟨(hq hc).1, ?_⟩, nofun⟩
    · rwa [ParserPc.holdsBuf_notifiedEntry] at hb
    · simpa [hpc] using he hf
    · simpa [hpc] using hd hr
    · rw [ParserPc.inMessage_notifiedEntry]
      exact (hq hc).2
  | notifySent hpc =>
    refine ⟨fun hb => hp ?_, fun _ => hh (by rw [hpc]; rfl), fun hf => ?_, hm, fun hr => ?_, ho,
      fun hc => ⟨(hq hc).1, ?_⟩, nofun⟩
    · rwa [ParserPc.holdsBuf_notifiedSent] at hb
    · simpa [hpc] using he hf
    · simpa [hpc] using hd hr
    · rw [ParserPc.inMessage_notifiedSent]
      exact (hq hc).2
  | popBuf hpc hbuf =>
    refine ⟨hp, fun _ => hh (by rw [hpc]; rfl), fun hf => ?_, ?_, fun _ => rfl, ho, hq, nofun⟩
    · simpa [hpc] using he hf
    · intro m hmem
      exact hm m (by rw [hbuf]; exact List.mem_cons_of_mem _ hmem)
  | lockBuf hpc hmtx =>
    refine ⟨fun hb => ?_, fun _ => rfl, fun hf => ?_, hm, fun hr => ?_, ho, hq, nofun⟩
    · exact nomatch hmtx.symm.trans (hp hb)
    · simpa [hpc] using he hf
    · simpa [hpc] using hd hr
  | bufRelock hpc hmtx =>
    refine ⟨fun hb => ?_, fun _ => rfl, fun hf => ?_, hm, fun hr => ?_, ho, hq, nofun⟩
    · exact nomatch hmtx.symm.trans (hp hb)
    · simpa [hpc] using he hf
    · simpa [hpc] using hd hr
  | waitFor hpc =>
    refine ⟨fun hb => ?_, nofun, fun hf => ?_, hm, fun hr => ?_, ho, hq, nofun⟩
    · exact nomatch (hh (by rw [hpc]; rfl)).symm.trans (hp hb)
    · simpa [hpc] using he hf
    · simpa [hpc] using hd hr
  | unlockBuf hpc =>
    refine ⟨fun hb => ?_, nofun, fun hf => ?_, hm, fun hr => ?_, ho, hq, nofun⟩
    · exact nomatch (hh (by rw [hpc]; rfl)).symm.trans (hp hb)
    · rfl
    · simpa [hpc] using hd hr
  | leaving hpc =>
    refine ⟨fun hb => ?_, nofun, fun hf => ?_, hm, fun hr => ?_, ho, hq, fun _ => hl (by rw [hpc]; rfl)⟩
    · exact nomatch (hh (by rw [hpc]; rfl)).symm.trans (hp hb)
    · simpa [hpc] using he hf
    · simpa [hpc] using hd hr
  | testLoopSkip hpc hflag =>
    refine ⟨hp, nofun, fun hf => ?_, hm, fun hr => ?_, ho, hq, nofun⟩
    · exact nomatch hflag.symm.trans hf
    · simpa [hpc] using hd hr
  | testLoop hpc hflag =>
    refine ⟨hp, nofun, fun _ => rfl, hm, fun hr => ?_, ho, hq, nofun⟩
    simpa [hpc] using hd hr
  | setLoop hpc =>
    refine ⟨hp, nofun, nofun, hm, fun hr => ?_, ho, hq, nofun⟩
    simpa [hpc] using hd hr
  | timeout hpc =>
    refine ⟨hp, nofun, fun hf => ?_, hm, fun hr => ?_, ho, hq, nofun⟩
    · simpa [hpc] using he hf
    · simpa [hpc] using hd hr
  | popEmpty hpc | testResponse hpc | send hpc =>
    refine ⟨hp, fun _ => hh (by rw [hpc]; rfl), fun hf => ?_, hm, fun _ => rfl, ho, hq, nofun⟩
    simpa [hpc] using he hf
  | testEmpty hpc hres =>
    refine ⟨hp, fun _ => hh (by rw [hpc]; rfl), fun hf => ?_, hm, fun hr => absurd hres hr, ho, hq,
      nofun⟩
    simpa [hpc] using he hf
  | sendFailed hpc | sendDone hpc =>
    refine ⟨hp, fun _ => hh (by rw [hpc]; rfl), fun hf => ?_, hm, fun hr => absurd rfl hr, ho, hq,
      nofun⟩
    simpa [hpc] using he hf
  | setSent hpc | testOver hpc =>
    refine ⟨hp, fun _ => hh (by rw [hpc]; rfl), fun hf => ?_, hm, fun hr => ?_, ho, hq, nofun⟩
    · simpa [hpc] using he hf
    · simpa [hpc] using hd hr
  | testOverBreak hpc hflag =>
    refine ⟨hp, fun _ => hh (by rw [hpc]; rfl), fun hf => ?_, hm, fun hr => ?_, ho, hq, fun _ => hflag⟩
    · simpa [hpc] using he hf
    · simpa [hpc] using hd hr
  | join hpc =>
    refine ⟨hp, nofun, fun hf => ?_, hm, fun hr => ?_, ho, hq, fun _ => hl (by rw [hpc]; rfl)⟩
    · simpa [hpc] using he hf
    · simpa [hpc] using hd hr

theorem discipline_step {mv : Move} {x x' : Exchange} {st st' : Store} {acts : List Action}
    (h : Discipline x) (hs : Step (parser host clientFd input) mv x st acts x' st') :
    Discipline x' := by
  cases hs with
  | parser hs => exact discipline_parserStep h hs
  | handler hs _ => exact discipline_handlerStep h hs

theorem Reachable.discipline {allowed : Exchange → Move → Prop} {st : Store} {s : Session}
    (h : RequestRun host clientFd input st allowed s) : Discipline s.exchange :=
  h.induct (P := fun s => Discipline s.exchange) (discipline_start 0)
    fun _ _ _ _ _ ih _ hs => discipline_step ih hs

end RedisServer.ResponseExchange
