import RedisServer.ParserDiscipline

/-!
# What commands other than SET can do

No command but SET calls anything, assigns an entry or sends to a replica. One walk
over the handlers serves every statement about the operations they can come to perform
and the messages they can pass.
-/

namespace RedisServer.CommandEffects
open ByteStrings CxxStrings InteractionPrograms ServerState Utils RedisParser ParserDiscipline

/-- The messages a command other than SET may pass. -/
def MayAnswer (host : Host) (command m : Bytes) : Prop :=
  if command = str "PING" then m = pingResponse
  else if command = str "REPLCONF" then m = okResponse
  else if command = str "PSYNC" then (∃ replid, m = fullResyncMessage replid) ∨ m = rdbMessage host
  else if command = str "KEYS" then ∃ ss, m = createArrayReponse ss
  else if command = str "CONFIG" then m = nullResponse ∨ ∃ ss, m = createArrayReponse ss
  else m = nullResponse ∨ ∃ s, m = createStringReponse s

section Dispatch

variable {P : Op → Prop} (hquery : ∀ o, isQuery o = true → P o) (hover : P .communicationOver)
include hquery

private theorem always_databaseGet (hat : ∀ k, P (.databaseAt k)) (herase : ∀ k, P (.databaseErase k))
    (key : Bytes) : (databaseGet key).Always P (fun _ => False) := by
  have hperform : ∀ {o : Op}, P o → (perform o).Always P (fun _ => False) :=
    fun ho => ⟨ho, fun _ => trivial⟩
  have hpure : ∀ r : Bytes, (Program.pure r : Parser Bytes).Always P (fun _ => False) :=
    fun _ => trivial
  apply (hperform (hquery _ rfl)).bind
  intro found
  split
  · apply (hperform (hat key)).bind
    intro v
    split
    · exact hpure _
    · apply (hperform (hquery _ rfl)).bind
      intro now
      split
      · exact hpure _
      · exact (hperform (herase key)).bind fun _ => hpure _
  · exact hpure _

private theorem always_parseBulkString (input : Bytes) (pos : ℕ) :
    (parseBulkString input pos).Always P (fun _ => False) :=
  (queries_parseBulkString input pos).always hquery

private theorem always_getInfo {α : Type} (field : ServerInfo → α) :
    (getInfo field).Always P (fun _ => False) := (queries_getInfo field).always hquery

include hover

omit hquery in
private theorem always_reply {m : Bytes} (hm : P (.enqueueMessage m)) :
    (reply m).Always P (fun _ => False) := ⟨hm, fun _ => ⟨hover, fun _ => trivial⟩⟩

section Handlers

variable {host : Host} {clientFd : ℤ} {input : Bytes} {pos : ℕ}

private theorem always_parseECHOCommand
    (hstring : ∀ s, P (.enqueueMessage (createStringReponse s))) :
    (parseECHOCommand input pos).Always P (fun _ => False) :=
  (always_parseBulkString hquery input pos).bind fun _ => always_reply hover (hstring _)

private theorem always_parseGETCommand (hat : ∀ k, P (.databaseAt k))
    (herase : ∀ k, P (.databaseErase k)) (hnull : P (.enqueueMessage nullResponse))
    (hstring : ∀ s, P (.enqueueMessage (createStringReponse s))) :
    (parseGETCommand input pos).Always P (fun _ => False) := by
  refine (always_parseBulkString hquery input pos).bind fun _ =>
    (always_databaseGet hquery hat herase _).bind fun response => ?_
  split
  · exact always_reply hover (hstring _)
  · next hresponse =>
    rw [not_not.mp hresponse]
    exact always_reply hover hnull

private theorem always_parseCONFIGGETCommand (hnull : P (.enqueueMessage nullResponse))
    (harray : ∀ ss, P (.enqueueMessage (createArrayReponse ss))) :
    (parseCONFIGGETCommand host input pos).Always P (fun _ => False) := by
  refine (always_parseBulkString hquery input pos).bind fun ⟨s, next⟩ => ?_
  dsimp only
  split
  · refine (always_parseBulkString hquery input next).bind fun ⟨v, _⟩ => ?_
    dsimp only
    split
    · exact always_reply hover (harray _)
    split
    · exact always_reply hover (harray _)
    · exact always_reply hover hnull
  · exact always_reply hover hnull

private theorem always_parseKEYSCommand
    (harray : ∀ ss, P (.enqueueMessage (createArrayReponse ss))) :
    (parseKEYSCommand host input pos).Always P (fun _ => False) := by
  refine (always_parseBulkString hquery input pos).bind fun ⟨s, _⟩ =>
    ((queries_charAt s _).always hquery).bind fun last => ?_
  split
  · trivial
  · exact ((queries_perform rfl).always hquery).bind fun _ => always_reply hover (harray _)

private theorem always_parseINFOCommand
    (hstring : ∀ s, P (.enqueueMessage (createStringReponse s))) :
    (parseINFOCommand input pos).Always P (fun _ => False) := by
  have hinfo : ∀ {α : Type} (field : ServerInfo → α), (getInfo field).Always P (fun _ => False) :=
    always_getInfo hquery
  refine (always_parseBulkString hquery input pos).bind fun ⟨s, _⟩ => ?_
  dsimp only
  split
  · exact (hinfo _).bind fun _ => (hinfo _).bind fun _ => (hinfo _).bind fun _ =>
      (hinfo _).bind fun _ => (hinfo _).bind fun _ => (hinfo _).bind fun _ =>
      (hinfo _).bind fun _ => (hinfo _).bind fun _ => (hinfo _).bind fun _ =>
      always_reply hover (hstring _)
  · exact always_reply hover (hstring _)

private theorem always_parsePSYNCCommand (hupdate : ∀ n, P (.updateConnectedSlaves n))
    (hadd : ∀ fd, P (.addConnectedSlave fd))
    (hresync : ∀ replid, P (.enqueueMessage (fullResyncMessage replid)))
    (hrdb : P (.enqueueMessage (rdbMessage host))) :
    (parsePSYNCCommand host clientFd).Always P (fun _ => False) := by
  have htail : (do
      enqueueMessage (fullResyncMessage (← getMasterReplid))
      enqueueMessage (rdbMessage host)
      communicationOver : Parser Unit).Always P (fun _ => False) :=
    (always_getInfo hquery _).bind fun replid =>
      ⟨hresync replid, fun _ => ⟨hrdb, fun _ => ⟨hover, fun _ => trivial⟩⟩⟩
  apply (always_getInfo hquery _).bind
  intro role
  split
  · exact (always_getInfo hquery _).bind fun n =>
      ⟨hupdate _, fun _ => ⟨hadd _, fun _ => htail⟩⟩
  · exact htail

end Handlers

/-- What holds of queries, of the end of the exchange and of the messages of a command
holds of everything the command can come to do. GET also reads its entry or drops it,
and PSYNC registers the replica. -/
theorem always_dispatch {host : Host} {clientFd : ℤ} {input : Bytes} {numElements : ℤ}
    {command : Bytes} {pos : ℕ} (hset : command ≠ str "SET")
    (hget : command = str "GET" → (∀ k, P (.databaseAt k)) ∧ ∀ k, P (.databaseErase k))
    (hpsync : command = str "PSYNC" →
      (∀ n, P (.updateConnectedSlaves n)) ∧ ∀ fd, P (.addConnectedSlave fd))
    (hmsg : ∀ m, MayAnswer host command m → P (.enqueueMessage m)) :
    (dispatch host clientFd input numElements command pos).Always P (fun _ => False) := by
  unfold dispatch
  split
  · next hc =>
    subst hc
    exact always_parseECHOCommand hquery hover fun s => hmsg _ (.inr ⟨s, rfl⟩)
  split
  · next hc =>
    subst hc
    exact always_reply hover (hmsg _ rfl)
  split
  · next hc =>
    subst hc
    obtain ⟨hat, herase⟩ := hget rfl
    exact always_parseGETCommand hquery hover hat herase (hmsg _ (.inl rfl)) fun s =>
      hmsg _ (.inr ⟨s, rfl⟩)
  split
  · next hc =>
    subst hc
    exact always_parseCONFIGGETCommand hquery hover (hmsg _ (.inl rfl)) fun ss =>
      hmsg _ (.inr ⟨ss, rfl⟩)
  split
  · next hc =>
    subst hc
    exact always_parseKEYSCommand hquery hover fun ss => hmsg _ ⟨ss, rfl⟩
  split
  · next hc =>
    subst hc
    exact always_parseINFOCommand hquery hover fun s => hmsg _ (.inr ⟨s, rfl⟩)
  split
  · next hc =>
    subst hc
    exact always_reply hover (hmsg _ rfl)
  split
  · next hc =>
    subst hc
    obtain ⟨hupdate, hadd⟩ := hpsync rfl
    exact always_parsePSYNCCommand hquery hover hupdate hadd
      (fun replid => hmsg _ (.inl ⟨replid, rfl⟩)) (hmsg _ (.inr rfl))
  · next hping _ hconfig hkeys _ hreplconf hpsync' =>
    apply always_reply hover
    apply hmsg
    rw [MayAnswer, if_neg hping, if_neg hreplconf, if_neg hpsync', if_neg hkeys, if_neg hconfig]
    exact .inl rfl

end Dispatch

end RedisServer.CommandEffects
