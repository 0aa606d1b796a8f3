import RedisServer.SplitRequests

/-!
# The replies of one request in order

The handler takes no message after the end of an exchange and never acknowledges an empty
one. So the parser has to pass its messages first and to end the exchange afterwards.
-/

namespace RedisServer.ReplyDiscipline
open ByteStrings CxxStrings InteractionPrograms ServerState Utils RedisParser RequestChain
open ParserDiscipline RequestRuns RequestDecoding CommandRuns SplitRequests

/-- Operations of the exchange with the handler. -/
def isExchange : Op → Bool
  | .enqueueMessage _ | .communicationOver => true
  | _ => false

/-- Every run of `p` that returns has ended the exchange. -/
def Concludes (M : Machine parserSignature Store) {α : Type} (p : Parser α) : Prop :=
  ∀ st tr a st', Exec M p st tr (.ok a) st' → Op.communicationOver ∈ tr

section Concludes

variable {M : Machine parserSignature Store} {α β : Type}

theorem Concludes.throw (e : Exception) : Concludes M (.throw e : Parser α) := by
  intro st tr a st' hx
  cases hx

theorem Concludes.bind {f : α → Parser β} (p : Parser α) (hf : ∀ a, Concludes M (f a)) :
    Concludes M (p >>= f) := by
  intro st tr b st' hx
  rcases hx.of_bind with ⟨e, he, -⟩ | ⟨a, tr₁, st₁, tr₂, rfl, -, hfx⟩
  · cases he
  · exact List.mem_append_right _ (hf a _ _ _ _ hfx)

theorem concludes_communicationOver : Concludes M communicationOver := by
  intro st tr a st' hx
  obtain ⟨tr', rfl, -⟩ := Exec.op_iff.mp hx
  exact List.mem_cons_self

theorem concludes_reply (m : Bytes) : Concludes M (reply m) :=
  .bind _ fun _ => concludes_communicationOver

theorem concludes_setTail (input : Bytes) (pos : ℕ) : Concludes M (setTail input pos) := by
  have hend : Concludes M setEnd := by
    refine .bind _ fun role => ?_
    split
    · exact .bind _ fun _ => concludes_communicationOver
    · exact concludes_communicationOver
  refine .bind _ fun c => ?_
  split
  · exact .bind _ fun _ => hend
  · exact hend

theorem concludes_parseINFOCommand (input : Bytes) (pos : ℕ) :
    Concludes M (parseINFOCommand input pos) := by
  refine .bind _ fun ⟨command, _⟩ => ?_
  dsimp only
  split
  · exact .bind _ fun _ => .bind _ fun _ => .bind _ fun _ => .bind _ fun _ => .bind _ fun _ =>
      .bind _ fun _ => .bind _ fun _ => .bind _ fun _ => .bind _ fun _ => concludes_reply _
  · exact concludes_reply _

theorem concludes_parseKEYSCommand (host : Host) (input : Bytes) (pos : ℕ) :
    Concludes M (parseKEYSCommand host input pos) := by
  refine .bind _ fun ⟨toMatch, _⟩ => .bind _ fun last => ?_
  split
  · exact .throw _
  · exact .bind _ fun _ => concludes_reply _

theorem concludes_parseCONFIGGETCommand (host : Host) (input : Bytes) (pos : ℕ) :
    Concludes M (parseCONFIGGETCommand host input pos) := by
  refine .bind _ fun ⟨command, pos⟩ => ?_
  dsimp only
  split
  · refine .bind _ fun ⟨configVariable, _⟩ => ?_
    dsimp only
    split
    · exact concludes_reply _
    split
    · exact concludes_reply _
    · exact concludes_reply _
  · exact concludes_reply _

theorem concludes_parseGETCommand (input : Bytes) (pos : ℕ) :
    Concludes M (parseGETCommand input pos) := by
  refine .bind _ fun _ => .bind _ fun response => ?_
  split
  · exact concludes_reply _
  · exact concludes_reply _

theorem concludes_parsePSYNCCommand (host : Host) (clientFd : ℤ) :
    Concludes M (parsePSYNCCommand host clientFd) := by
  have htail : Concludes M (do
      enqueueMessage (fullResyncMessage (← getMasterReplid))
      enqueueMessage (rdbMessage host)
      communicationOver) :=
    .bind _ fun _ => .bind _ fun _ => .bind _ fun _ => concludes_communicationOver
  refine .bind _ fun role => ?_
  split
  · exact .bind _ fun _ => .bind _ fun _ => .bind _ fun _ => htail
  · exact htail

theorem concludes_dispatch (host : Host) (clientFd : ℤ) (input : Bytes) (numElements : ℤ)
    (command : Bytes) (pos : ℕ) :
    Concludes M (dispatch host clientFd input numElements command pos) := by
  unfold dispatch
  repeat' split
  · exact .bind _ fun _ => concludes_reply _
  · exact concludes_reply _
  · rw [parseSETCommand_eq]
    exact .bind _ fun next => concludes_setTail input next
  · exact concludes_parseGETCommand _ _
  · exact concludes_parseCONFIGGETCommand _ _ _
  · exact concludes_parseKEYSCommand _ _ _
  · exact concludes_parseINFOCommand _ _
  · exact concludes_reply _
  · exact concludes_parsePSYNCCommand _ _
  · exact concludes_reply _

theorem concludes_parseRESPCommand (host : Host) (clientFd : ℤ) (input : Bytes) (pos : ℕ) :
    Concludes M (parseRESPCommand host clientFd input pos) := by
  refine .bind _ fun _ => .bind _ fun c => ?_
  split
  · exact concludes_communicationOver
  · exact .bind _ fun _ => concludes_dispatch _ _ _ _ _ _

end Concludes

/-- What is left of the exchange in a run without messages. -/
theorem exchange_of_messages_eq_nil {tr : List Op} (h : messages tr = []) :
    tr.filter isExchange = List.replicate (tr.count .communicationOver) .communicationOver := by
  induction tr with
  | nil => rfl
  | cons o tr ih =>
    cases o with
    | enqueueMessage m => cases h
    | communicationOver =>
      rw [List.filter_cons_of_pos rfl, List.count_cons_self, List.replicate_succ, ih h]
    | _ => exact ih h

variable {host : Host} {clientFd : ℤ} {input : Bytes} {st st' : Store} {tr : List Op}

/-- A thread in order passes nonempty messages, and all of them before the exchange ends. -/
theorem exchange_of_reaches {t u : Thread parserSignature} (ht : OrderlyThread t)
    (h : Reaches (parser host clientFd input) t st tr u st') : (∀ m ∈ messages tr, m ≠ []) ∧
    tr.filter isExchange = (messages tr).map Op.enqueueMessage ++
      List.replicate (tr.count .communicationOver) .communicationOver := by
  induction h with
  | refl => exact ⟨nofun, rfl⟩
  | internal hv _ ih => exact ih (ht.internal hv)
  | @performs t u w v o k tr hv rest ih =>
    by_cases ho : o = .communicationOver
    · subst ho
      have hnil : messages tr = [] := ((ht.over hv).reaches rest).1
      have hcons : messages (.communicationOver :: tr) = [] := hnil
      rw [hcons]
      exact ⟨nofun, exchange_of_messages_eq_nil hcons⟩
    · obtain ⟨hne, heq⟩ := ih (ht.performs hv ho _)
      cases o with
      | enqueueMessage m =>
        refine ⟨List.forall_mem_cons.mpr ⟨ht.message_ne_nil hv rfl, hne⟩, ?_⟩
        exact congrArg (List.cons (Op.enqueueMessage m)) heq
      | communicationOver => exact absurd rfl ho
      | _ => exact ⟨hne, heq⟩

theorem byteAt_zero_iff : byteAt host input 0 = byte '*' ↔ input.head? = some (byte '*') := by
  cases input with
  | nil =>
    rw [show byteAt host [] 0 = 0 from byteAt_length []]
    decide
  | cons b bs => rw [byteAt_of_standsAt (standsAt_self _), List.head?_cons, Option.some_inj]

/-- A request that is parsed to its end has its messages first and then ends the exchange at
least once. It has messages exactly when it begins like an array. -/
theorem messages_before_over (hx : Handles host clientFd input st tr (.ok ()) st') :
    (∃ n, 0 < n ∧ tr.filter isExchange =
      (messages tr).map Op.enqueueMessage ++ List.replicate n .communicationOver) ∧
    (∀ m ∈ messages tr, m ≠ []) ∧ (messages tr = [] ↔ input.head? ≠ some (byte '*')) := by
  have hover : Op.communicationOver ∈ tr := concludes_parseRESPCommand _ _ _ _ _ _ _ _ hx
  obtain ⟨u, hr, -⟩ := reaches_halted_iff.mpr hx
  obtain ⟨hne, heq⟩ := exchange_of_reaches (orderlyThread_start 0) hr
  have hfirst : byteAt host input 0 = byte '*' ↔ _ := byteAt_zero_iff
  refine ⟨⟨_, List.count_pos_iff.mpr hover, heq⟩, hne, ?_⟩
  rw [ne_eq, ← hfirst]
  constructor
  · exact fun hnil hstar => messages_ne_nil hx hstar hnil
  · intro hstray
    obtain ⟨tr', hidle, hx'⟩ := handles_stray clientFd hstray st
    rw [(hx.deterministic hx').1]
    exact messages_eq_nil_of_idle hidle

/-- A SET and a PING behind it on a server with one replica. -/
theorem messages_before_over_of_set :
    ∃ tr st', Handles .plain 5 (createArrayReponse [str "SET", str "k", str "v"] ++
        createArrayReponse [str "PING"]) (.empty [3]) tr (.ok ()) st' ∧
      (∃ n, 0 < n ∧ tr.filter isExchange =
        (messages tr).map Op.enqueueMessage ++ List.replicate n .communicationOver) ∧
      (∀ m ∈ messages tr, m ≠ []) ∧ (messages tr = [] ↔
        (createArrayReponse [str "SET", str "k", str "v"] ++
          createArrayReponse [str "PING"]).head? ≠ some (byte '*')) := by
  have hx : Handles .plain 5 (createArrayReponse [str "SET", str "k", str "v"] ++
      createArrayReponse [str "PING"]) (.empty [3]) _ (.ok ()) _ :=
    Machine.eval_sound (n := 4) rfl
  exact ⟨_, _, hx, messages_before_over hx⟩

end RedisServer.ReplyDiscipline
