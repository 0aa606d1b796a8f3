import RedisServer.ShortSends

/-!
# Sends that fail

When `send` returns -1, `response_handler` drops the rest of the message and goes on as if it had
been sent. The client that cannot be reached misses the rest of that message, and nobody sees
anything else of it: every run of the server, with any schedule and any results of its sends, is a
run in which every message is sent as a whole.

A send to a connection that its peer has closed also raises `SIGPIPE`. The server does not handle
it, and the signal ends the process for all clients.
-/

namespace RedisServer.ResponseExchange
open InteractionPrograms ServerState RedisParser

variable {M : Machine parserSignature Store} {x : Exchange}

/-- The exchange can come to a call of `send`. -/
inductive Exchange.Sends (M : Machine parserSignature Store) (x : Exchange) : Prop where
  | response {totalSent} (hpc : x.handlerPc = .sending totalSent)
      (hleft : totalSent < x.response.length)
  | propagation {fd b k} (hpc : x.parserPc = .program) (hv : x.thread.view M = .performs (.send fd b) k)

theorem Exchange.Sends.whole (h : x.Sends M) : x.whole.Sends M := by
  cases h with
  | @response totalSent hpc hleft =>
    have hwhole : x.whole.handlerPc = .sending 0 := by
      simp [Exchange.whole, HandlerPc.whole, hpc, hleft]
    exact .response hwhole (Nat.zero_lt_of_lt hleft)
  | propagation hpc hv => exact .propagation hpc hv

end RedisServer.ResponseExchange

namespace RedisServer.WorkerPool
open ByteStrings InteractionPrograms ServerState Utils RedisParser ParserDiscipline ResponseExchange
open ServedRequests

/-- Of each message, in order, a beginning has come through. -/
inductive Curtailed : Bytes → List Bytes → Prop where
  | nil : Curtailed [] []
  | snoc {b ms p m} (h : Curtailed b ms) (hp : p <+: m) : Curtailed (b ++ p) (ms ++ [m])

theorem mends_fullSends (allowed : Exchange → Move → Prop) : Mends allowed FullSends Curtailed where
  other _ hsend _ sent _ hmv _ := absurd hmv (hsend sent)
  handler _ := nofun
  send hpc sent total hmv htotal := by
    rw [hpc] at htotal
    cases htotal
    cases hmv
    rfl
  nil := .nil
  whole _ h := h.snoc List.prefix_rfl
  part _ hp h := h.snoc hp

variable {ι κ : Type} [DecidableEq ι] [DecidableEq κ] {host : Host} {clientFd : κ → ℤ}
  {allowed : Exchange → Move → Prop} {st : Store} {s : Pool ι κ}

/-- The runs of the server in which a send may raise `SIGPIPE`. Then the process has ended where it
stands, as the Boolean says. -/
inductive SignalRun (host : Host) (clientFd : κ → ℤ) (allowed : Exchange → Move → Prop) (st : Store) :
    Bool → Pool ι κ → Prop where
  | alive {s : Pool ι κ} (h : PoolRun host clientFd allowed st s) :
      SignalRun host clientFd allowed st false s
  | sigpipe {s : Pool ι κ} {w task x} (h : PoolRun host clientFd allowed st s)
      (halive : s.terminated = false) (hpc : s.workers w = .running task x)
      (hsends : x.Sends (task.parser host)) : SignalRun host clientFd allowed st true s

/-- A send that returns -1 harms nobody but its client. For every run of the server, whatever its
sends return, there is one with the same clients, workers, queue and store in which every send takes
a whole message. All tasks perform the same operations in the same order, and of the messages that
the response handlers send in that run a beginning of each has reached its socket, in order and up
to the beginning of the message that the running task is sending. If a send has ended the process,
the process ends at a send of the other run as well. -/
theorem failed_sends_confined {killed : Bool} (h : SignalRun host clientFd allowed st killed s) :
    ∃ log, SignalRun host clientFd FullSends st killed (s.whole log) ∧ Mirrors Curtailed s log := by
  cases h with
  | alive h =>
    obtain ⟨log, hwhole, hmirrors⟩ := exists_mirrored (mends_fullSends allowed) h
    exact ⟨log, .alive hwhole, hmirrors⟩
  | sigpipe h halive hpc hsends =>
    obtain ⟨log, hwhole, hmirrors⟩ := exists_mirrored (mends_fullSends allowed) h
    exact ⟨log, .sigpipe hwhole halive (congrArg WorkerPc.whole hpc) hsends.whole, hmirrors⟩

/-! ### A client that cannot be reached -/

/-- No send gets anything through. -/
def Unsent (_ : Exchange) (mv : Move) : Prop := ∀ n, mv ≠ .handlerSend (some n)

theorem unsent_handler (x : Exchange) : Unsent x .handler := nofun

theorem unsent_timeout (x : Exchange) : Unsent x .handlerTimeout := nofun

theorem unsent_failed (x : Exchange) : Unsent x (.handlerSend none) := nofun

theorem unsent_of_writes_eq_nil {M : Machine parserSignature Store} {p : Parser Unit} {session : Session}
    (h : Reachable M p st allowed session) (hwrites : writes session.log = []) :
    Reachable M p st Unsent session := by
  induction h with
  | start => exact .start
  | @step session acts x' st' mv _ _ hs ih =>
    rw [writes_append, List.append_eq_nil_iff] at hwrites
    refine .step mv (ih hwrites.1) ?_ hs
    rintro n rfl
    cases hs with
    | parser hs => cases hs
    | handler hs =>
      cases hs with
      | send => cases hwrites.2

/-- The parser has come to its end and the exchange is over. -/
structure ParserEnded (M : Machine parserSignature Store) (x : Exchange) : Prop where
  parserPc : x.parserPc = .program
  view : x.thread.view M = .halted
  isCommunicating : x.isCommunicating = false

variable {fd : ℤ} {input : Bytes} {full : List Op} {st' : Store}

theorem exists_popping (hx : Handles host fd input st full (.ok ()) st')
    (hover : Op.communicationOver ∈ full) : ∃ x log,
    RequestRun host fd input st Unsent ⟨x, st', log⟩ ∧ ParserEnded (parser host fd input) x ∧
      x.handlerPc = .popBuf ∧ x.response = [] ∧ x.responseBuf = messages full := by
  obtain ⟨u, hr, hv⟩ := reaches_halted_iff.mpr hx
  obtain ⟨x, hrun, rfl, hpc, hhandler, hloop, hmtx, hres⟩ :=
    exists_parser_run .start hr ⟨rfl, rfl, rfl, rfl, rfl⟩
  have hdown : x.isCommunicating = false := (isCommunicating_iff hrun).mpr (by simpa using hover)
  have hbuf : x.responseBuf = messages full := by
    simpa [Exchange.inFlight, hhandler] using hrun.accounted.account
  have halive : x.parserPc ≠ .terminated := by simp [hpc]
  have hentry : x.parserPc.notifiedEntry = .program := by rw [hpc]; rfl
  have halive' : x.parserPc.notifiedEntry ≠ .terminated := by simp [hentry]
  have h₀ := unsent_of_writes_eq_nil hrun (by simp)
  have h₁ := h₀.handlerSilent (unsent_handler _) (.testLoop hhandler hloop) halive
  have h₂ := h₁.handlerSilent (unsent_handler _) (.setLoop rfl) halive
  have h₃ := h₂.handlerSilent (unsent_handler _) (.notifyLoop rfl) halive
  have h₄ := h₃.handlerSilent (unsent_handler _) (.lockBuf rfl hmtx) halive'
  have h₅ := h₄.handlerSilent (unsent_handler _) (.waitFor rfl) halive'
  have h₆ := h₅.handlerSilent (unsent_timeout _) (.timeout rfl) halive'
  have h₇ := h₆.handlerSilent (unsent_handler _) (.bufRelock rfl rfl) halive'
  exact ⟨_, _, h₇, ⟨hentry, hv, hdown⟩, rfl, hres, hbuf⟩

theorem exists_sending {m : Bytes} {ms : List Bytes} (hx : Handles host fd input st full (.ok ()) st')
    (hms : messages full = m :: ms) (hover : Op.communicationOver ∈ full) : ∃ x log,
    RequestRun host fd input st Unsent ⟨x, st', log⟩ ∧ ParserEnded (parser host fd input) x ∧
      x.handlerPc = .sending 0 ∧ 0 < x.response.length := by
  obtain ⟨x, log, hrun, hended, hpc, -, hbuf⟩ := exists_popping hx hover
  rw [hms] at hbuf
  have halive : x.parserPc ≠ .terminated := by simp [hended.parserPc]
  have hm : m ≠ [] := hrun.discipline.messages_ne_nil m (by simp [hbuf])
  have h₁ := hrun.handlerSilent (unsent_handler _) (.popBuf hpc hbuf) halive
  have h₂ := h₁.handlerSilent (unsent_handler _) (.testResponse rfl hm) halive
  exact ⟨_, _, h₂, ⟨hended.parserPc, hended.view, hended.isCommunicating⟩, rfl,
    List.length_pos_of_ne_nil hm⟩

/-- Every request whose parser throws nothing and ends the exchange can be served to its end while
no send gets anything through. -/
theorem exists_served_unsent (hx : Handles host fd input st full (.ok ()) st')
    (hover : Op.communicationOver ∈ full) : ∃ log, Served host fd input st Unsent log st' := by
  cases hms : messages full with
  | nil =>
    obtain ⟨x, log, hrun, ⟨hpc, hv, hdown⟩, hhandler, hres, hbuf⟩ := exists_popping hx hover
    rw [hms] at hbuf
    have halive : x.parserPc ≠ .terminated := by simp [hpc]
    have h₁ := hrun.handlerSilent (unsent_handler _) (.popEmpty hhandler hbuf) halive
    have h₂ := h₁.handlerSilent (unsent_handler _) (.testEmpty rfl hres) halive
    have h₃ := h₂.handlerSilent (unsent_handler _) (.testOverBreak rfl hdown) halive
    have h₄ := h₃.handlerSilent (unsent_handler _) (.leaving rfl) halive
    exact ⟨_, _, h₄.handlerSilent (unsent_handler _) (.join rfl hpc hv) halive, rfl⟩
  | cons m ms =>
    obtain ⟨x, log, hrun, ⟨hpc, hv, hdown⟩, hhandler, hleft⟩ := exists_sending hx hms hover
    have halive : x.parserPc ≠ .terminated := by simp [hpc]
    have hsent : x.parserPc.notifiedSent = .program := by rw [hpc]; rfl
    have halive' : x.parserPc.notifiedSent ≠ .terminated := by simp [hsent]
    have h₁ := hrun.handlerSilent (unsent_failed _) (.sendFailed hhandler hleft) halive
    have h₂ := h₁.handlerSilent (unsent_handler _) (.setSent rfl) halive
    have h₃ := h₂.handlerSilent (unsent_handler _) (.notifySent rfl) halive
    have h₄ := h₃.handlerSilent (unsent_handler _) (.testOverBreak rfl hdown) halive'
    have h₅ := h₄.handlerSilent (unsent_handler _) (.leaving rfl) halive'
    exact ⟨_, _, h₅.handlerSilent (unsent_handler _) (.join rfl hsent hv) halive', rfl⟩

theorem exists_killed {m : Bytes} {ms : List Bytes} (h : PoolRun host clientFd Unsent st s)
    (hrest : s.AtRest) (w : ι) (c : κ) (hx : Handles host (clientFd c) input s.store full (.ok ()) st')
    (hms : messages full = m :: ms) (hover : Op.communicationOver ∈ full) : ∃ s' : Pool ι κ,
    SignalRun host clientFd Unsent st true s' ∧
      s'.enqueued = s.enqueued ++ [⟨s.enqueued.length, clientFd c, input⟩] := by
  obtain ⟨x, log, hrun, hended, hpc, hleft⟩ := exists_sending hx hms hover
  have halive : x.parserPc ≠ .terminated := by simp [hended.parserPc]
  have hreceived : PoolRun host clientFd Unsent st (s.setClient c (.locking input)) :=
    h.step (.receive hrest.alive (hrest.clients c))
  obtain ⟨s₁, hworks₁, hserving, hstore, -, henq⟩ := hrest.exists_serving w c input
  rw [← hstore] at hrun
  obtain ⟨s₂, hworks₂, hserving, -, henq'⟩ := hserving.exists_works hrun halive
  have hrun₂ := (hreceived.works hworks₁).works hworks₂
  exact ⟨s₂, .sigpipe hrun₂ hserving.alive hserving.running (.response hpc hleft), henq'.trans henq⟩

/-- The reply to one PING of a client is lost, and the reply to its next one ends the process. -/
theorem failed_sends_confined_at_ping : ∃ (s s' : Pool Unit Unit) (log log' : List (Task × Action)),
    s.finished = [⟨0, 5, createArrayReponse [str "PING"]⟩] ∧
      SignalRun .plain (fun _ => 5) Unsent (.empty []) false s ∧
      SignalRun .plain (fun _ => 5) FullSends (.empty []) false (s.whole log) ∧
      Mirrors Curtailed s log ∧
      s'.enqueued = s.finished ++ [⟨1, 5, createArrayReponse [str "PING"]⟩] ∧
      SignalRun .plain (fun _ => 5) Unsent (.empty []) true s' ∧
      SignalRun .plain (fun _ => 5) FullSends (.empty []) true (s'.whole log') ∧
      Mirrors Curtailed s' log' := by
  have hx : ∀ st, Handles .plain 5 (createArrayReponse [str "PING"]) st
      [.awaitCommunicationLoop, .enqueueMessage (str "+PONG\r\n"), .communicationOver] (.ok ()) st :=
    fun _ => Machine.eval_sound (n := 4) rfl
  obtain ⟨l, hserved⟩ := exists_served_unsent (hx (.empty [])) (by simp)
  have hstart : PoolRun .plain (fun _ => 5) Unsent (.empty []) (.start (.empty []) : Pool Unit Unit) :=
    .start
  obtain ⟨s, hrun, hrest, hstore, hfinished, -⟩ :=
    exists_finished_of_served hstart (atRest_start _) () () hserved
  have henq := (hrun.finished_of_atRest hrest).symm.trans hfinished
  obtain ⟨s', hrun', henq'⟩ := exists_killed hrun hrest () () (hx s.store) rfl (by simp)
  rw [henq] at henq'
  obtain ⟨log, hwhole, hmirrors⟩ := failed_sends_confined (.alive hrun)
  obtain ⟨log', hwhole', hmirrors'⟩ := failed_sends_confined hrun'
  exact ⟨s, s', log, log', hfinished, .alive hrun, hwhole, hmirrors, hfinished ▸ henq', hrun', hwhole',
    hmirrors'⟩

end RedisServer.WorkerPool
