import RedisServer.RedisParser

/-!
# The exchange between a parser thread and its response handler

Every access to an atomic flag, every lock, push, pop, notification and wait is one
step, and a wait is three: release and block, be woken, lock again. The mutexes of the
two flag condition variables are locked by the parser alone and so are always free;
only `response_buf_mtx` has an owner.

The parser thread advances when a message is pushed and when the entry wait is over,
so that at every moment it is where the operations performed so far have brought it.
-/

namespace RedisServer.ResponseExchange
open ByteStrings InteractionPrograms ServerState RedisParser

inductive Party where
  | parser
  | handler
  deriving DecidableEq, Repr

/-- Where the parser thread is inside `parseRESPCommand`'s entry wait, `enqueueMessage`
and `wait_till_reponse_sent`; `program` is everywhere else. -/
inductive ParserPc where
  | program
  | entryLock | entryWait | entryWaiting | entryRelock
  | msgPush | msgUnlock | msgNotify
  | sentTest | sentLock | sentWait | sentWaiting | sentRelock | sentReset
  | terminated
  deriving DecidableEq, Repr

/-- Where `response_handler` is. -/
inductive HandlerPc where
  | testLoop | setLoop | notifyLoop
  | lockBuf | waitFor | bufWaiting | bufRelock | popBuf
  | testResponse | sending (totalSent : ℕ) | setSent | notifySent
  | testOver | unlockBuf
  | leaving | joining | done
  deriving DecidableEq, Repr

structure Exchange where
  thread : Thread parserSignature
  parserPc : ParserPc
  handlerPc : HandlerPc
  handlerInCommunicationLoop : Bool
  isCommunicating : Bool
  responseSent : Bool
  responseBuf : List Bytes
  responseBufMtx : Option Party
  response : Bytes

/-- `response_handler` after it has started the parser thread on `p`. -/
def Exchange.start (p : Parser Unit) : Exchange where
  thread := .start p
  parserPc := .program
  handlerPc := .testLoop
  handlerInCommunicationLoop := false
  isCommunicating := true
  responseSent := false
  responseBuf := []
  responseBufMtx := none
  response := []

/-- The choices of the scheduler and of the sockets. -/
inductive Move where
  | parser
  | parserSpurious
  | handler
  | handlerTimeout
  | handlerSend (sent : Option ℕ)
  deriving DecidableEq

/-- What other parties can observe: a parser operation or bytes written to the client. -/
inductive Action where
  | op (o : Op)
  | write (bytes : Bytes)
  deriving DecidableEq

/-- The operations the parser performs in one step, apart from the three that the
exchange itself is about. -/
def Plain (o : Op) : Prop :=
  o ≠ .awaitCommunicationLoop ∧ o ≠ .communicationOver ∧ ∀ m, o ≠ .enqueueMessage m

instance (o : Op) : Decidable (Plain o) :=
  match o with
  | .awaitCommunicationLoop => isFalse fun h => h.1 rfl
  | .communicationOver => isFalse fun h => h.2.1 rfl
  | .enqueueMessage m => isFalse fun h => h.2.2 m rfl
  | .databaseFind _ | .databaseAt _ | .databaseAssign _ _ | .databaseErase _ | .databaseKeys
  | .getCurrentTimeMilli | .serverInfo | .updateConnectedSlaves _ | .addConnectedSlave _
  | .getConnectedSlaveFd _ | .send _ _ | .readOutside _ _ =>
    isTrue ⟨nofun, nofun, nofun⟩

theorem not_plain_iff {o : Op} : ¬ Plain o ↔
    o = .awaitCommunicationLoop ∨ o = .communicationOver ∨ ∃ m, o = .enqueueMessage m := by
  simp only [Plain, not_and_or, not_ne_iff, not_forall]

/-- Waking the one thread that can wait on a condition variable. -/
def HandlerPc.notified : HandlerPc → HandlerPc
  | .bufWaiting => .bufRelock
  | pc => pc

def ParserPc.notifiedEntry : ParserPc → ParserPc
  | .entryWaiting => .entryRelock
  | pc => pc

def ParserPc.notifiedSent : ParserPc → ParserPc
  | .sentWaiting => .sentRelock
  | pc => pc

variable {M : Machine parserSignature Store}

/-- The steps of the parser thread, with the operations they complete. -/
inductive ParserStep (M : Machine parserSignature Store) :
    Move → Exchange → Store → List Op → Exchange → Store → Prop where
  | internal {x st t} (hpc : x.parserPc = .program) (hv : x.thread.view M = .internal t) :
      ParserStep M .parser x st [] { x with thread := t } st
  | raise {x st e} (hpc : x.parserPc = .program) (hv : x.thread.view M = .raises e) :
      ParserStep M .parser x st [] { x with parserPc := .terminated } st
  | plain {x st o k} (hpc : x.parserPc = .program) (hv : x.thread.view M = .performs o k)
      (ho : Plain o) :
      ParserStep M .parser x st [o] { x with thread := k (M.step o st).1 } (M.step o st).2
  | entryPass {x st k} (hpc : x.parserPc = .program)
      (hv : x.thread.view M = .performs .awaitCommunicationLoop k)
      (hflag : x.handlerInCommunicationLoop = true) :
      ParserStep M .parser x st [.awaitCommunicationLoop]
        { x with thread := k (M.step .awaitCommunicationLoop st).1 }
        (M.step .awaitCommunicationLoop st).2
  | entryTest {x st k} (hpc : x.parserPc = .program)
      (hv : x.thread.view M = .performs .awaitCommunicationLoop k)
      (hflag : x.handlerInCommunicationLoop = false) :
      ParserStep M .parser x st [] { x with parserPc := .entryLock } st
  | entryLock {x st} (hpc : x.parserPc = .entryLock) :
      ParserStep M .parser x st [] { x with parserPc := .entryWait } st
  | entryWait {x st} (hpc : x.parserPc = .entryWait) :
      ParserStep M .parser x st [] { x with parserPc := .entryWaiting } st
  | entrySpurious {x st} (hpc : x.parserPc = .entryWaiting) :
      ParserStep M .parserSpurious x st [] { x with parserPc := .entryRelock } st
  | entryRelock {x st k} (hpc : x.parserPc = .entryRelock)
      (hv : x.thread.view M = .performs .awaitCommunicationLoop k) :
      ParserStep M .parser x st [.awaitCommunicationLoop]
        { x with parserPc := .program, thread := k (M.step .awaitCommunicationLoop st).1 }
        (M.step .awaitCommunicationLoop st).2
  | msgLock {x st m k} (hpc : x.parserPc = .program)
      (hv : x.thread.view M = .performs (.enqueueMessage m) k) (hmtx : x.responseBufMtx = none) :
      ParserStep M .parser x st [] { x with parserPc := .msgPush, responseBufMtx := some .parser } st
  | msgPush {x st m k} (hpc : x.parserPc = .msgPush)
      (hv : x.thread.view M = .performs (.enqueueMessage m) k) :
      ParserStep M .parser x st [.enqueueMessage m]
        { x with
          parserPc := .msgUnlock
          responseBuf := x.responseBuf ++ [m]
          thread := k (M.step (.enqueueMessage m) st).1 }
        (M.step (.enqueueMessage m) st).2
  | msgUnlock {x st} (hpc : x.parserPc = .msgUnlock) :
      ParserStep M .parser x st [] { x with parserPc := .msgNotify, responseBufMtx := none } st
  | msgNotify {x st} (hpc : x.parserPc = .msgNotify) :
      ParserStep M .parser x st []
        { x with parserPc := .sentTest, handlerPc := x.handlerPc.notified } st
  | sentPass {x st} (hpc : x.parserPc = .sentTest) (hflag : x.responseSent = true) :
      ParserStep M .parser x st [] { x with parserPc := .program } st
  | sentTest {x st} (hpc : x.parserPc = .sentTest) (hflag : x.responseSent = false) :
      ParserStep M .parser x st [] { x with parserPc := .sentLock } st
  | sentLock {x st} (hpc : x.parserPc = .sentLock) :
      ParserStep M .parser x st [] { x with parserPc := .sentWait } st
  | sentWait {x st} (hpc : x.parserPc = .sentWait) :
      ParserStep M .parser x st [] { x with parserPc := .sentWaiting } st
  | sentSpurious {x st} (hpc : x.parserPc = .sentWaiting) :
      ParserStep M .parserSpurious x st [] { x with parserPc := .sentRelock } st
  | sentRelock {x st} (hpc : x.parserPc = .sentRelock) :
      ParserStep M .parser x st [] { x with parserPc := .sentReset } st
  | sentReset {x st} (hpc : x.parserPc = .sentReset) :
      ParserStep M .parser x st [] { x with parserPc := .program, responseSent := false } st
  | communicationOver {x st k} (hpc : x.parserPc = .program)
      (hv : x.thread.view M = .performs .communicationOver k) :
      ParserStep M .parser x st [.communicationOver]
        { x with isCommunicating := false, thread := k (M.step .communicationOver st).1 }
        (M.step .communicationOver st).2

/-- The steps of the response handler, with the bytes they write to the client. A `send`
that fails returns -1 in these steps. The signal that it raises when the client has closed
the connection would end the process there, and the exchange with it. -/
inductive HandlerStep (M : Machine parserSignature Store) :
    Move → Exchange → List Bytes → Exchange → Prop where
  | testLoopSkip {x} (hpc : x.handlerPc = .testLoop) (hflag : x.handlerInCommunicationLoop = true) :
      HandlerStep M .handler x [] { x with handlerPc := .lockBuf }
  | testLoop {x} (hpc : x.handlerPc = .testLoop) (hflag : x.handlerInCommunicationLoop = false) :
      HandlerStep M .handler x [] { x with handlerPc := .setLoop }
  | setLoop {x} (hpc : x.handlerPc = .setLoop) :
      HandlerStep M .handler x []
        { x with handlerPc := .notifyLoop, handlerInCommunicationLoop := true }
  | notifyLoop {x} (hpc : x.handlerPc = .notifyLoop) :
      HandlerStep M .handler x []
        { x with handlerPc := .lockBuf, parserPc := x.parserPc.notifiedEntry }
  | lockBuf {x} (hpc : x.handlerPc = .lockBuf) (hmtx : x.responseBufMtx = none) :
      HandlerStep M .handler x []
        { x with handlerPc := .waitFor, responseBufMtx := some .handler }
  | waitFor {x} (hpc : x.handlerPc = .waitFor) :
      HandlerStep M .handler x [] { x with handlerPc := .bufWaiting, responseBufMtx := none }
  | timeout {x} (hpc : x.handlerPc = .bufWaiting) :
      HandlerStep M .handlerTimeout x [] { x with handlerPc := .bufRelock }
  | bufRelock {x} (hpc : x.handlerPc = .bufRelock) (hmtx : x.responseBufMtx = none) :
      HandlerStep M .handler x []
        { x with handlerPc := .popBuf, responseBufMtx := some .handler }
  | popEmpty {x} (hpc : x.handlerPc = .popBuf) (hbuf : x.responseBuf = []) :
      HandlerStep M .handler x [] { x with handlerPc := .testResponse }
  | popBuf {x m ms} (hpc : x.handlerPc = .popBuf) (hbuf : x.responseBuf = m :: ms) :
      HandlerStep M .handler x [] { x with handlerPc := .testResponse, responseBuf := ms, response := m }
  | testEmpty {x} (hpc : x.handlerPc = .testResponse) (hres : x.response = []) :
      HandlerStep M .handler x [] { x with handlerPc := .testOver }
  | testResponse {x} (hpc : x.handlerPc = .testResponse) (hres : x.response ≠ []) :
      HandlerStep M .handler x [] { x with handlerPc := .sending 0 }
  | send {x totalSent n} (hpc : x.handlerPc = .sending totalSent)
      (hleft : totalSent < x.response.length) (hn : n ≤ x.response.length - totalSent) :
      HandlerStep M (.handlerSend (some n)) x [(x.response.drop totalSent).take n]
        { x with handlerPc := .sending (totalSent + n) }
  | sendFailed {x totalSent} (hpc : x.handlerPc = .sending totalSent)
      (hleft : totalSent < x.response.length) :
      HandlerStep M (.handlerSend none) x [] { x with handlerPc := .setSent, response := [] }
  | sendDone {x totalSent} (hpc : x.handlerPc = .sending totalSent)
      (hall : x.response.length ≤ totalSent) :
      HandlerStep M .handler x [] { x with handlerPc := .setSent, response := [] }
  | setSent {x} (hpc : x.handlerPc = .setSent) :
      HandlerStep M .handler x [] { x with handlerPc := .notifySent, responseSent := true }
  | notifySent {x} (hpc : x.handlerPc = .notifySent) :
      HandlerStep M .handler x []
        { x with handlerPc := .testOver, parserPc := x.parserPc.notifiedSent }
  | testOver {x} (hpc : x.handlerPc = .testOver) (hflag : x.isCommunicating = true) :
      HandlerStep M .handler x [] { x with handlerPc := .unlockBuf }
  | testOverBreak {x} (hpc : x.handlerPc = .testOver) (hflag : x.isCommunicating = false) :
      HandlerStep M .handler x [] { x with handlerPc := .leaving }
  | unlockBuf {x} (hpc : x.handlerPc = .unlockBuf) :
      HandlerStep M .handler x [] { x with handlerPc := .testLoop, responseBufMtx := none }
  | leaving {x} (hpc : x.handlerPc = .leaving) :
      HandlerStep M .handler x [] { x with handlerPc := .joining, responseBufMtx := none }
  | join {x} (hpc : x.handlerPc = .joining) (hparser : x.parserPc = .program)
      (hv : x.thread.view M = .halted) :
      HandlerStep M .handler x [] { x with handlerPc := .done }

/-- One step of the exchange. An exception that leaves the parser thread ends the
process, and the handler with it. -/
inductive Step (M : Machine parserSignature Store) :
    Move → Exchange → Store → List Action → Exchange → Store → Prop where
  | parser {mv x st tr x' st'} (h : ParserStep M mv x st tr x' st') :
      Step M mv x st (tr.map .op) x' st'
  | handler {mv x st ws x'} (h : HandlerStep M mv x ws x') (halive : x.parserPc ≠ .terminated) :
      Step M mv x st (ws.map .write) x' st

/-- The operations of a log, in order. -/
def operations (log : List Action) : List Op :=
  log.filterMap fun
    | .op o => some o
    | .write _ => none

/-- The byte strings a log shows written to the client, one for each `send`. -/
def writes (log : List Action) : List Bytes :=
  log.filterMap fun
    | .op _ => none
    | .write b => some b

@[simp] theorem operations_append (l l' : List Action) :
    operations (l ++ l') = operations l ++ operations l' := List.filterMap_append

@[simp] theorem writes_append (l l' : List Action) : writes (l ++ l') = writes l ++ writes l' :=
  List.filterMap_append

@[simp] theorem operations_map_op (tr : List Op) : operations (tr.map .op) = tr := by
  simp [operations, List.filterMap_map]

@[simp] theorem operations_map_write (ws : List Bytes) : operations (ws.map .write) = [] := by
  simp [operations, List.filterMap_map]

@[simp] theorem writes_map_op (tr : List Op) : writes (tr.map .op) = [] := by
  simp [writes, List.filterMap_map]

@[simp] theorem writes_map_write (ws : List Bytes) : writes (ws.map .write) = ws := by
  simp [writes, List.filterMap_map]

@[simp] theorem operations_nil : operations [] = [] := rfl

@[simp] theorem writes_nil : writes [] = [] := rfl

theorem mem_writes_iff {log : List Action} {b : Bytes} : b ∈ writes log ↔ .write b ∈ log := by
  rw [writes, List.mem_filterMap]
  constructor
  · rintro ⟨a, ha, heq⟩
    cases a with
    | op o => cases heq
    | write b' =>
      obtain rfl := Option.some.inj heq
      exact ha
  · exact fun hb => ⟨.write b, hb, rfl⟩

/-- An exchange together with the store and everything observed so far. -/
structure Session where
  exchange : Exchange
  store : Store
  log : List Action

/-- The sessions that a fresh exchange reaches through allowed moves. -/
inductive Reachable (M : Machine parserSignature Store) (p : Parser Unit) (st : Store)
    (allowed : Exchange → Move → Prop) : Session → Prop where
  | start : Reachable M p st allowed ⟨.start p, st, []⟩
  | step {s acts x' st'} (mv : Move) (h : Reachable M p st allowed s) (hmv : allowed s.exchange mv)
      (hs : Step M mv s.exchange s.store acts x' st') :
      Reachable M p st allowed ⟨x', st', s.log ++ acts⟩

/-- The sessions in which the request `input` of a client is handled. -/
abbrev RequestRun (host : Host) (clientFd : ℤ) (input : Bytes) (st : Store)
    (allowed : Exchange → Move → Prop) : Session → Prop :=
  Reachable (parser host clientFd input) (parseRESPCommand host clientFd input 0) st allowed

/-- A property of the exchange that holds at the start and survives every allowed step
holds in every reachable session. -/
theorem Reachable.induct {p : Parser Unit} {st : Store} {allowed : Exchange → Move → Prop}
    {P : Session → Prop} (hstart : P ⟨.start p, st, []⟩)
    (hstep : ∀ s mv acts x' st', P s → allowed s.exchange mv →
      Step M mv s.exchange s.store acts x' st' → P ⟨x', st', s.log ++ acts⟩)
    {s : Session} (h : Reachable M p st allowed s) : P s := by
  induction h with
  | start => exact hstart
  | step mv _ hmv hs ih => exact hstep _ _ _ _ _ ih hmv hs

section Steps

variable {p : Parser Unit} {st st₁ st₂ : Store} {allowed : Exchange → Move → Prop}
  {x x' : Exchange} {log : List Action}

/-- A step of the parser thread. -/
theorem Reachable.parserStep (h : Reachable M p st allowed ⟨x, st₁, log⟩) {mv : Move} {tr : List Op}
    (hmv : allowed x mv) (hs : ParserStep M mv x st₁ tr x' st₂) :
    Reachable M p st allowed ⟨x', st₂, log ++ tr.map .op⟩ := h.step mv hmv (.parser hs)

/-- A step of the parser thread that completes no operation. -/
theorem Reachable.parserSilent (h : Reachable M p st allowed ⟨x, st₁, log⟩) {mv : Move}
    (hmv : allowed x mv) (hs : ParserStep M mv x st₁ [] x' st₂) :
    Reachable M p st allowed ⟨x', st₂, log⟩ := by
  simpa using h.parserStep hmv hs

/-- A step of the handler that writes nothing to the client. -/
theorem Reachable.handlerSilent (h : Reachable M p st allowed ⟨x, st₁, log⟩) {mv : Move}
    (hmv : allowed x mv) (hs : HandlerStep M mv x [] x') (halive : x.parserPc ≠ .terminated) :
    Reachable M p st allowed ⟨x', st₁, log⟩ := by
  simpa using h.step mv hmv (.handler hs halive)

end Steps

theorem Reachable.mono {p : Parser Unit} {st : Store} {allowed allowed' : Exchange → Move → Prop}
    (himp : ∀ x mv, allowed x mv → allowed' x mv) {s : Session}
    (h : Reachable M p st allowed s) : Reachable M p st allowed' s := by
  induction h with
  | start => exact .start
  | step mv _ hmv hs ih => exact .step mv ih (himp _ _ hmv) hs

/-- After an exception nothing moves. -/
theorem Step.alive {mv : Move} {x x' : Exchange} {st st' : Store} {acts : List Action}
    (h : Step M mv x st acts x' st') : x.parserPc ≠ .terminated := by
  cases h with
  | handler _ halive => exact halive
  | parser h => cases h <;> simp [*]

/-- One step of the exchange moves its thread as the operations of the step say. -/
theorem Step.reaches {mv : Move} {x x' : Exchange} {st st' : Store} {acts : List Action}
    (h : Step M mv x st acts x' st') :
    Reaches M x.thread st (operations acts) x'.thread st' := by
  cases h with
  | handler h halive =>
    rw [operations_map_write]
    cases h <;> exact .refl _ _
  | parser h =>
    rw [operations_map_op]
    cases h with
    | internal hpc hv => exact .internal hv (.refl _ _)
    | plain hpc hv ho => exact .performs hv (.refl _ _)
    | entryPass hpc hv hflag => exact .performs hv (.refl _ _)
    | entryRelock hpc hv => exact .performs hv (.refl _ _)
    | msgPush hpc hv => exact .performs hv (.refl _ _)
    | communicationOver hpc hv => exact .performs hv (.refl _ _)
    | _ => exact .refl _ _

/-- The parser thread of an exchange is a run of its program alone, on the operations
logged so far. -/
theorem Reachable.reaches {p : Parser Unit} {st : Store} {allowed : Exchange → Move → Prop}
    {s : Session} (h : Reachable M p st allowed s) :
    Reaches M (.start p) st (operations s.log) s.exchange.thread s.store := by
  induction h with
  | start => exact .refl _ _
  | step mv _ _ hs ih => simpa using ih.trans hs.reaches

end RedisServer.ResponseExchange
