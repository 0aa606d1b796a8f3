import RedisServer.RedisParser

/-!
# The order of messages and the end of the exchange

For every buffer, well formed or not, the parser passes only nonempty messages, and
none of them after the first `communication_over`. The continuation of a recursive
call passes no message at all, which is what makes this survive the recursion of SET.
-/

namespace RedisServer.ParserDiscipline
open ByteStrings CxxStrings InteractionPrograms ServerState Utils RedisParser

/-- Operations that only look something up. -/
def isQuery : Op → Bool
  | .databaseFind _ | .databaseKeys | .getCurrentTimeMilli | .serverInfo | .readOutside _ _ => true
  | _ => false

/-- A program that only looks things up. -/
def Queries {α : Type} (p : Parser α) : Prop :=
  p.Always (fun o : Op => isQuery o = true) (fun _ => False)

/-- A program that neither passes a message nor ends the exchange nor calls. -/
def Silent {α : Type} (p : Parser α) : Prop :=
  p.Always (fun o : Op => o ≠ .communicationOver ∧ ∀ m, o ≠ .enqueueMessage m) (fun _ => False)

/-- A program that passes no message and calls only the propagation loop. -/
def Quiet {α : Type} (p : Parser α) : Prop :=
  p.Always (fun o : Op => ∀ m, o ≠ .enqueueMessage m) (fun f : Proc => ∃ i, f = .propagate i)

/-- Messages are nonempty and precede the end of the exchange; pending continuations
are quiet. -/
def Orderly {α : Type} : Parser α → Prop
  | .pure _ => True
  | .throw _ => True
  | .op o k => (∀ m, o = .enqueueMessage m → m ≠ []) ∧
      (o = .communicationOver → ∀ r, Quiet (k r)) ∧
      (o ≠ .communicationOver → ∀ r, Orderly (k r))
  | .call _ k => Quiet k

theorem Quiet.orderly {α : Type} {p : Parser α} (h : Quiet p) : Orderly p := by
  induction p with
  | pure a => trivial
  | throw e => trivial
  | op o k ih => exact ⟨fun m hm => absurd hm (h.1 m), fun _ => h.2, fun _ r => ih r (h.2 r)⟩
  | call l k ih => exact h.2

theorem Silent.bind_orderly {α β : Type} {p : Parser α} {f : α → Parser β} (h : Silent p)
    (hf : ∀ a, Orderly (f a)) : Orderly (p >>= f) := by
  induction p with
  | pure a => exact hf a
  | throw e => trivial
  | op o k ih =>
    exact ⟨fun m hm => absurd hm (h.1.2 m), fun ho => absurd ho h.1.1, fun _ r => ih r (h.2 r)⟩
  | call l k ih => exact h.1.elim

theorem Silent.bind {α β : Type} {p : Parser α} {f : α → Parser β} (h : Silent p)
    (hf : ∀ a, Silent (f a)) : Silent (p >>= f) := Program.Always.bind h hf

theorem Quiet.bind {α β : Type} {p : Parser α} {f : α → Parser β} (h : Quiet p)
    (hf : ∀ a, Quiet (f a)) : Quiet (p >>= f) := Program.Always.bind h hf

theorem Queries.bind {α β : Type} {p : Parser α} {f : α → Parser β} (h : Queries p)
    (hf : ∀ a, Queries (f a)) : Queries (p >>= f) := Program.Always.bind h hf

/-- Queries do only what every query may do. -/
theorem Queries.always {α : Type} {p : Parser α} {P : Op → Prop} {D : Proc → Prop} (h : Queries p)
    (hquery : ∀ o, isQuery o = true → P o) : p.Always P D :=
  Program.Always.mono h hquery fun _ hf => hf.elim

theorem Queries.silent {α : Type} {p : Parser α} (h : Queries p) : Silent p := by
  refine Program.Always.mono h (fun o ho => ⟨?_, fun m => ?_⟩) (fun _ hf => hf)
  · rintro rfl
    exact nomatch ho
  · rintro rfl
    exact nomatch ho

theorem Silent.quiet {α : Type} {p : Parser α} (h : Silent p) : Quiet p :=
  Program.Always.mono h (fun _ ho => ho.2) (fun _ hf => hf.elim)

theorem silent_perform {o : Op} (h₁ : o ≠ .communicationOver) (h₂ : ∀ m, o ≠ .enqueueMessage m) :
    Silent (perform o) := ⟨⟨h₁, h₂⟩, fun _ => trivial⟩

theorem queries_pure {α : Type} (a : α) : Queries (.pure a : Parser α) := trivial

theorem queries_ofExcept {α : Type} (x : Except Exception α) :
    Queries (Program.ofExcept x : Parser α) := by
  cases x <;> trivial

theorem queries_perform {o : Op} (h : isQuery o = true) : Queries (perform o) :=
  ⟨h, fun _ => trivial⟩

theorem queries_charAt (s : Bytes) (pos : ℕ) : Queries (charAt s pos) := by
  unfold charAt
  split
  · trivial
  · exact queries_perform rfl

theorem queries_parseBulkString (input : Bytes) (pos : ℕ) : Queries (parseBulkString input pos) := by
  apply (queries_charAt input pos).bind
  intro c
  split
  · trivial
  · exact (queries_ofExcept _).bind fun _ => (queries_ofExcept _).bind fun _ => queries_pure _

theorem queries_getInfo {α : Type} (field : ServerInfo → α) : Queries (getInfo field) :=
  (queries_perform rfl).bind fun _ => queries_pure _

theorem queries_parseExpiry (input : Bytes) (pos : ℕ) (numElements : ℤ) :
    Queries (parseExpiry input pos numElements) := by
  unfold parseExpiry
  split
  · exact (queries_parseBulkString _ _).bind fun _ => (queries_parseBulkString _ _).bind fun _ =>
      (queries_perform rfl).bind fun _ => (queries_ofExcept _).bind fun _ => queries_pure _
  · exact queries_pure _

theorem queries_parseCommandName (input : Bytes) (pos : ℕ) :
    Queries (parseCommandName input pos) :=
  (queries_ofExcept _).bind fun _ => (queries_parseBulkString _ _).bind fun _ => queries_pure _

theorem silent_charAt (s : Bytes) (pos : ℕ) : Silent (charAt s pos) := (queries_charAt s pos).silent

theorem silent_parseBulkString (input : Bytes) (pos : ℕ) : Silent (parseBulkString input pos) :=
  (queries_parseBulkString input pos).silent

theorem silent_getInfo {α : Type} (field : ServerInfo → α) : Silent (getInfo field) :=
  (queries_getInfo field).silent

theorem silent_databaseGet (key : Bytes) : Silent (databaseGet key) := by
  apply (silent_perform (by simp) (by simp)).bind
  intro found
  split
  · apply (silent_perform (by simp) (by simp)).bind
    intro v
    split
    · exact (queries_pure _).silent
    · apply (silent_perform (by simp) (by simp)).bind
      intro now
      split
      · exact (queries_pure _).silent
      · exact (silent_perform (by simp) (by simp)).bind fun _ => (queries_pure _).silent
  · exact (queries_pure _).silent

theorem quiet_communicationOver : Quiet communicationOver := ⟨by simp, fun _ => trivial⟩

theorem quiet_propagate (input : Bytes) (i : ℕ) : Quiet (propagate input i) := by
  apply (silent_getInfo _).quiet.bind
  intro n
  split
  · exact ⟨by simp, fun fd => ⟨by simp, fun _ => ⟨⟨_, rfl⟩, trivial⟩⟩⟩
  · trivial

/-- Pass a nonempty message and go on in order. -/
theorem orderly_enqueueMessage_bind {β : Type} {m : Bytes} {f : Unit → Parser β} (hm : m ≠ [])
    (hf : Orderly (f ())) : Orderly (enqueueMessage m >>= f) :=
  ⟨fun _ h => by cases h; exact hm, nofun, fun _ _ => hf⟩

theorem orderly_reply {m : Bytes} (hm : m ≠ []) : Orderly (reply m) :=
  orderly_enqueueMessage_bind hm quiet_communicationOver.orderly

theorem createStringReponse_ne_nil (s : Bytes) : createStringReponse s ≠ [] := by
  simp [createStringReponse, str]

theorem createArrayReponse_ne_nil (ss : List Bytes) : createArrayReponse ss ≠ [] := by
  simp [createArrayReponse, str]

theorem fullResyncMessage_ne_nil (replid : Bytes) : fullResyncMessage replid ≠ [] := by
  simp [fullResyncMessage, str]

theorem rdbMessage_ne_nil (host : Host) : rdbMessage host ≠ [] := by
  simp [rdbMessage, str]

theorem orderly_parsePSYNCCommand (host : Host) (clientFd : ℤ) :
    Orderly (parsePSYNCCommand host clientFd) := by
  have htail : Orderly (do
      enqueueMessage (fullResyncMessage (← getMasterReplid))
      enqueueMessage (rdbMessage host)
      communicationOver) :=
    (silent_getInfo _).bind_orderly fun replid =>
      orderly_enqueueMessage_bind (fullResyncMessage_ne_nil replid) <|
        orderly_enqueueMessage_bind (rdbMessage_ne_nil host) quiet_communicationOver.orderly
  apply (silent_getInfo _).bind_orderly
  intro role
  split
  · exact (silent_getInfo _).bind_orderly fun n =>
      (silent_perform (by simp) (by simp)).bind_orderly fun _ =>
        (silent_perform (by simp) (by simp)).bind_orderly fun _ => htail
  · exact htail

theorem orderly_parseSETCommand (input : Bytes) (pos : ℕ) (numElements : ℤ) :
    Orderly (parseSETCommand input pos numElements) := by
  have hend : Quiet (do
      if (← getRole) = str "master" then invoke (.propagate 0)
      communicationOver) := by
    apply (silent_getInfo _).quiet.bind
    intro role
    split
    · exact ⟨⟨0, rfl⟩, quiet_communicationOver⟩
    · exact quiet_communicationOver
  refine (silent_parseBulkString _ _).bind_orderly fun _ =>
    (silent_parseBulkString _ _).bind_orderly fun _ =>
    (queries_parseExpiry _ _ _).silent.bind_orderly fun _ =>
    (silent_perform (by simp) (by simp)).bind_orderly fun _ =>
    orderly_enqueueMessage_bind (by decide) <|
    (silent_charAt _ _).bind_orderly fun c => ?_
  split
  · exact hend
  · exact hend.orderly

theorem orderly_parseINFOCommand (input : Bytes) (pos : ℕ) :
    Orderly (parseINFOCommand input pos) := by
  refine (silent_parseBulkString _ _).bind_orderly fun ⟨command, _⟩ => ?_
  dsimp only
  split
  · exact (silent_getInfo _).bind_orderly fun _ => (silent_getInfo _).bind_orderly fun _ =>
      (silent_getInfo _).bind_orderly fun _ => (silent_getInfo _).bind_orderly fun _ =>
      (silent_getInfo _).bind_orderly fun _ => (silent_getInfo _).bind_orderly fun _ =>
      (silent_getInfo _).bind_orderly fun _ => (silent_getInfo _).bind_orderly fun _ =>
      (silent_getInfo _).bind_orderly fun _ => orderly_reply (createStringReponse_ne_nil _)
  · exact orderly_reply (createStringReponse_ne_nil _)

theorem orderly_parseKEYSCommand (host : Host) (input : Bytes) (pos : ℕ) :
    Orderly (parseKEYSCommand host input pos) := by
  refine (silent_parseBulkString _ _).bind_orderly fun ⟨toMatch, _⟩ =>
    (silent_charAt _ _).bind_orderly fun last => ?_
  split
  · trivial
  · exact (silent_perform (by simp) (by simp)).bind_orderly fun _ =>
      orderly_reply (createArrayReponse_ne_nil _)

theorem orderly_parseCONFIGGETCommand (host : Host) (input : Bytes) (pos : ℕ) :
    Orderly (parseCONFIGGETCommand host input pos) := by
  refine (silent_parseBulkString _ _).bind_orderly fun ⟨command, pos⟩ => ?_
  dsimp only
  split
  · refine (silent_parseBulkString _ _).bind_orderly fun ⟨configVariable, _⟩ => ?_
    dsimp only
    split
    · exact orderly_reply (createArrayReponse_ne_nil _)
    · split
      · exact orderly_reply (createArrayReponse_ne_nil _)
      · exact orderly_reply (by decide)
  · exact orderly_reply (by decide)

theorem orderly_parseGETCommand (input : Bytes) (pos : ℕ) :
    Orderly (parseGETCommand input pos) := by
  refine (silent_parseBulkString _ _).bind_orderly fun _ =>
    (silent_databaseGet _).bind_orderly fun response => ?_
  split
  · exact orderly_reply (createStringReponse_ne_nil _)
  · next h => exact orderly_reply (by rw [not_not.mp h]; decide)

theorem orderly_parseECHOCommand (input : Bytes) (pos : ℕ) :
    Orderly (parseECHOCommand input pos) :=
  (silent_parseBulkString _ _).bind_orderly fun _ => orderly_reply (createStringReponse_ne_nil _)

theorem orderly_dispatch (host : Host) (clientFd : ℤ) (input : Bytes) (numElements : ℤ)
    (command : Bytes) (pos : ℕ) : Orderly (dispatch host clientFd input numElements command pos) := by
  unfold dispatch
  repeat' split
  · exact orderly_parseECHOCommand _ _
  · exact orderly_reply (by decide)
  · exact orderly_parseSETCommand _ _ _
  · exact orderly_parseGETCommand _ _
  · exact orderly_parseCONFIGGETCommand _ _ _
  · exact orderly_parseKEYSCommand _ _ _
  · exact orderly_parseINFOCommand _ _
  · exact orderly_reply (by decide)
  · exact orderly_parsePSYNCCommand _ _
  · exact orderly_reply (by decide)

theorem orderly_parseRESPCommand (host : Host) (clientFd : ℤ) (input : Bytes) (pos : ℕ) :
    Orderly (parseRESPCommand host clientFd input pos) := by
  refine (silent_perform (by simp) (by simp)).bind_orderly fun _ =>
    (silent_charAt _ _).bind_orderly fun c => ?_
  split
  · exact quiet_communicationOver.orderly
  · exact (queries_parseCommandName _ _).silent.bind_orderly fun _ => orderly_dispatch _ _ _ _ _ _

variable {host : Host} {clientFd : ℤ} {input : Bytes}

theorem orderly_body (f : Proc) : Orderly ((parser host clientFd input).body f) := by
  cases f with
  | parseRESPCommand pos => exact orderly_parseRESPCommand _ _ _ _
  | propagate i => exact (quiet_propagate input i).orderly

/-- A thread in order: only what runs now may still pass messages. -/
def OrderlyThread (t : Thread parserSignature) : Prop :=
  Orderly t.current ∧ ∀ k ∈ t.stack, Quiet k

/-- A thread that passes no further message. -/
def QuietThread (t : Thread parserSignature) : Prop :=
  Quiet t.current ∧ ∀ k ∈ t.stack, Quiet k

theorem orderlyThread_start (pos : ℕ) :
    OrderlyThread (.start (parseRESPCommand host clientFd input pos)) :=
  ⟨orderly_parseRESPCommand _ _ _ _, nofun⟩

theorem OrderlyThread.internal {t t' : Thread parserSignature} (h : OrderlyThread t)
    (hv : t.view (parser host clientFd input) = .internal t') : OrderlyThread t' := by
  rcases Thread.view_eq_internal.mp hv with ⟨k, ks, rfl, rfl⟩ | ⟨f, k, ks, rfl, rfl⟩
  · exact ⟨(h.2 k List.mem_cons_self).orderly, fun k' hk' => h.2 k' (List.mem_cons_of_mem _ hk')⟩
  · exact ⟨orderly_body f, List.forall_mem_cons.mpr ⟨h.1, h.2⟩⟩

theorem QuietThread.internal {t t' : Thread parserSignature} (h : QuietThread t)
    (hv : t.view (parser host clientFd input) = .internal t') : QuietThread t' := by
  rcases Thread.view_eq_internal.mp hv with ⟨k, ks, rfl, rfl⟩ | ⟨f, k, ks, rfl, rfl⟩
  · exact ⟨h.2 k List.mem_cons_self, fun k' hk' => h.2 k' (List.mem_cons_of_mem _ hk')⟩
  · obtain ⟨i, rfl⟩ := h.1.1
    exact ⟨quiet_propagate input i, List.forall_mem_cons.mpr ⟨h.1.2, h.2⟩⟩

section Performs

variable {t : Thread parserSignature} {o : Op} {k : o.Answer → Thread parserSignature}

theorem OrderlyThread.message_ne_nil (h : OrderlyThread t)
    (hv : t.view (parser host clientFd input) = .performs o k) {m : Bytes}
    (ho : o = .enqueueMessage m) : m ≠ [] := by
  obtain ⟨k', ks, rfl, rfl⟩ := Thread.view_eq_performs.mp hv
  exact h.1.1 m ho

theorem OrderlyThread.performs (h : OrderlyThread t)
    (hv : t.view (parser host clientFd input) = .performs o k) (ho : o ≠ .communicationOver)
    (r : o.Answer) : OrderlyThread (k r) := by
  obtain ⟨k', ks, rfl, rfl⟩ := Thread.view_eq_performs.mp hv
  exact ⟨h.1.2.2 ho r, h.2⟩

theorem QuietThread.not_message (h : QuietThread t)
    (hv : t.view (parser host clientFd input) = .performs o k) (m : Bytes) :
    o ≠ .enqueueMessage m := by
  obtain ⟨k', ks, rfl, rfl⟩ := Thread.view_eq_performs.mp hv
  exact h.1.1 m

theorem QuietThread.performs (h : QuietThread t)
    (hv : t.view (parser host clientFd input) = .performs o k) (r : o.Answer) :
    QuietThread (k r) := by
  obtain ⟨k', ks, rfl, rfl⟩ := Thread.view_eq_performs.mp hv
  exact ⟨h.1.2 r, h.2⟩

end Performs

/-- Ending the exchange makes a thread quiet. -/
theorem OrderlyThread.over {t : Thread parserSignature} {k : Unit → Thread parserSignature}
    (h : OrderlyThread t)
    (hv : t.view (parser host clientFd input) = .performs Op.communicationOver k) :
    QuietThread (k ()) := by
  obtain ⟨k', ks, rfl, rfl⟩ := Thread.view_eq_performs.mp hv
  exact ⟨h.1.2.1 rfl (), h.2⟩

/-- A quiet thread passes no message however far it runs. -/
theorem QuietThread.reaches {t u : Thread parserSignature} {st st' : Store} {tr : List Op}
    (ht : QuietThread t) (h : Reaches (parser host clientFd input) t st tr u st') :
    messages tr = [] ∧ QuietThread u := by
  induction h with
  | refl => exact ⟨rfl, ht⟩
  | internal hv _ ih => exact ih (ht.internal hv)
  | @performs t u w v o k tr hv _ ih =>
    obtain ⟨hm, hu⟩ := ih (ht.performs hv _)
    refine ⟨?_, hu⟩
    have ho := ht.not_message hv
    cases o with
    | enqueueMessage m => exact absurd rfl (ho m)
    | _ => exact hm

/-- A thread in order stays in order, and is quiet once the exchange is over. -/
theorem OrderlyThread.reaches {t u : Thread parserSignature} {st st' : Store} {tr : List Op}
    (ht : OrderlyThread t) (h : Reaches (parser host clientFd input) t st tr u st') :
    (Op.communicationOver ∉ tr → OrderlyThread u) ∧ (Op.communicationOver ∈ tr → QuietThread u) := by
  induction h with
  | refl => exact ⟨fun _ => ht, nofun⟩
  | internal hv _ ih => exact ih (ht.internal hv)
  | @performs t u w v o k tr hv rest ih =>
    by_cases ho : o = .communicationOver
    · subst ho
      exact ⟨fun hover => absurd List.mem_cons_self hover, fun _ => ((ht.over hv).reaches rest).2⟩
    · obtain ⟨hu, hq⟩ := ih (ht.performs hv ho _)
      refine ⟨fun hover => hu fun hm => hover (List.mem_cons_of_mem _ hm), fun hover => ?_⟩
      exact hq ((List.mem_cons.mp hover).resolve_left (Ne.symm ho))

end RedisServer.ParserDiscipline
