import RedisServer.CommandEffects
import RedisServer.ProgramContracts
import RedisServer.ReplicaRegistration
import RedisServer.RequestRuns
import RedisServer.ResponseExchange

/-!
# What the parser of a buffer may pass and propagate

A contract for the commands of a chain: which messages they may pass, whether they may
propagate their buffer, and where the next command may begin. Only KEYS and CONFIG GET
answer with an array; the first byte of every other message is not an asterisk.
-/

namespace RedisServer.ChainContracts
open ByteStrings CxxStrings InteractionPrograms ServerState Utils RedisParser ParserDiscipline
open RequestChain RequestRuns ReplicaRegistration CommandEffects ResponseExchange

/-- The command at `pos` is answered with an array: KEYS with a pattern that the library
accepts, or CONFIG GET of a variable that the server knows. -/
def AnswersArray (host : Host) (input : Bytes) (pos : ℕ) : Prop :=
  (∃ n p, CommandAt host input pos n (str "KEYS") p ∧ Arguments host input (str "KEYS") n p) ∨
  ∃ n p s next v next', CommandAt host input pos n (str "CONFIG") p ∧ BulkAt host input p s next ∧
    s.map toUpper = str "GET" ∧ BulkAt host input next v next' ∧ (v = str "dir" ∨ v = str "dbfile")

/-- What the parser of a buffer may do. -/
structure Scope where
  /-- The store before and after every operation. -/
  holds : Store → Prop
  /-- The messages that may be passed. -/
  passes : Bytes → Prop
  /-- The buffer may be sent to replicas. -/
  propagates : Prop
  /-- The positions at which a command may begin. -/
  begins : ℕ → Prop

/-- The scope of the buffer `input` as a contract. Nothing but the buffer may be sent. -/
def Scope.contract (sc : Scope) (input : Bytes) : Contract parserSignature Store where
  allows := fun (o : Op) st => sc.holds st ∧ (∀ m, o = .enqueueMessage m → sc.passes m) ∧
    ∀ fd b, o = .send fd b → b = input ∧ sc.propagates
  calls := fun (f : Proc) st => sc.holds st ∧
    (∀ pos, f = .parseRESPCommand pos → sc.begins pos) ∧ ∀ i, f = .propagate i → sc.propagates
  returns := sc.holds

/-- The scope leaves room for what the commands of the buffer do. -/
structure Scope.Covers (sc : Scope) (host : Host) (input : Bytes) : Prop where
  preserved : ∀ o st, sc.holds st → sc.holds (performOp host o st).2
  plain : ∀ m, m.head? ≠ some (byte '*') → sc.passes m
  array : ∀ pos ss, sc.begins pos → AnswersArray host input pos → sc.passes (createArrayReponse ss)
  next : ∀ pos next, sc.begins pos → Next host input pos next → sc.begins next
  propagates : ∀ pos n p st, sc.begins pos → CommandAt host input pos n (str "SET") p →
    sc.holds st → st.serverInfo.role = str "master" → sc.propagates

/-- Apart from KEYS and CONFIG no command answers with an array. -/
theorem head?_ne_of_mayAnswer {host : Host} {command m : Bytes} (h : MayAnswer host command m)
    (hkeys : command ≠ str "KEYS") (hconfig : command ≠ str "CONFIG") :
    m.head? ≠ some (byte '*') := by
  unfold MayAnswer at h
  rw [if_neg hkeys, if_neg hconfig] at h
  split at h
  · subst h
    decide
  split at h
  · subst h
    decide
  split at h
  · rcases h with ⟨replid, rfl⟩ | rfl
    · simp [fullResyncMessage, str, byte]
    · simp [rdbMessage, str, byte]
  · rcases h with rfl | ⟨s, rfl⟩
    · decide
    · simp [createStringReponse, str, byte]

variable {sc : Scope} {host : Host} {clientFd : ℤ} {input : Bytes} {pos p next : ℕ} {n : ℤ}
  {st : Store} {α β : Type} {Q : β → Store → Prop}

section AnyContract

variable {C : Contract parserSignature Store} {I : Store → Prop}

/-- A getter answers from the server info and leaves it. -/
theorem keeps_getInfo_bind {field : ServerInfo → α} {f : α → Parser β}
    (hallowed : C.allows .serverInfo st)
    (hf : (f (field st.serverInfo)).Keeps (parser host clientFd input) C Q st) :
    (getInfo field >>= f).Keeps (parser host clientFd input) C Q st := ⟨hallowed, hf⟩

/-- PSYNC, if it may register its client and pass its two messages. -/
theorem keeps_parsePSYNCCommand (hinfo : ∀ st, I st → C.allows .serverInfo st)
    (hpasses : ∀ st m, I st → m = fullResyncMessage st.serverInfo.masterReplid ∨ m = rdbMessage host →
      C.allows (.enqueueMessage m) st)
    (hover : ∀ st, I st → C.allows .communicationOver st)
    (hregister : st.serverInfo.role = str "master" →
      C.allows (.updateConnectedSlaves (st.serverInfo.connectedSlaves + 1)) st ∧
        C.allows (.addConnectedSlave clientFd)
          (performOp host (.updateConnectedSlaves (st.serverInfo.connectedSlaves + 1)) st).2 ∧
        I (st.setServerInfo (register clientFd st.serverInfo)))
    (hst : I st) :
    (parsePSYNCCommand host clientFd).Keeps (parser host clientFd input) C (fun _ => I) st := by
  have htail : ∀ st : Store, I st → (do
      enqueueMessage (fullResyncMessage (← getMasterReplid))
      enqueueMessage (rdbMessage host)
      communicationOver : Parser Unit).Keeps (parser host clientFd input) C (fun _ => I) st :=
    fun st h => ⟨hinfo st h, hpasses st _ h (.inl rfl), hpasses st _ h (.inr rfl), hover st h, h⟩
  apply keeps_getInfo_bind (hinfo st hst)
  split
  · next hrole =>
    obtain ⟨hcount, hadd, hregistered⟩ := hregister hrole
    exact ⟨hinfo st hst, hcount, hadd, htail _ hregistered⟩
  · exact htail st hst

end AnyContract

section Rules

/-- What follows an operation that neither passes a message nor sends. -/
theorem keeps_op {o : Op} {k : o.Answer → Parser β} (hst : sc.holds st)
    (hm : ∀ m, o ≠ .enqueueMessage m) (hs : ∀ fd b, o ≠ .send fd b)
    (hk : (k (performOp host o st).1).Keeps (parser host clientFd input) (sc.contract input) Q
      (performOp host o st).2) :
    Program.Keeps (parser host clientFd input) (sc.contract input)
      (Program.op (S := parserSignature) o k) Q st :=
  ⟨⟨hst, fun m ho => absurd ho (hm m), fun fd b ho => absurd ho (hs fd b)⟩, hk⟩

theorem keeps_charAt_bind {s : Bytes} {f : UInt8 → Parser β} (hst : sc.holds st)
    (hf : (f (byteAt host s pos)).Keeps (parser host clientFd input) (sc.contract input) Q st) :
    (charAt s pos >>= f).Keeps (parser host clientFd input) (sc.contract input) Q st := by
  unfold byteAt at hf
  unfold charAt
  split
  · next hb =>
    rw [hb] at hf
    exact hf
  · next hb =>
    rw [hb] at hf
    exact keeps_op hst (by simp) (by simp) hf

theorem keeps_ofExcept_bind {x : Except Exception α} {f : α → Parser β} (hst : sc.holds st)
    (hf : ∀ a, x = .ok a →
      (f a).Keeps (parser host clientFd input) (sc.contract input) Q st) :
    (Program.ofExcept x >>= f).Keeps (parser host clientFd input) (sc.contract input) Q st := by
  cases x with
  | ok a => exact hf a rfl
  | error e => exact hst

theorem keeps_parseBulkString_bind {f : Bytes × ℕ → Parser β} (hst : sc.holds st)
    (hf : ∀ s next, BulkAt host input pos s next →
      (f (s, next)).Keeps (parser host clientFd input) (sc.contract input) Q st) :
    (parseBulkString input pos >>= f).Keeps (parser host clientFd input) (sc.contract input) Q st := by
  rw [parseBulkString, Program.bind_assoc]
  apply keeps_charAt_bind hst
  split
  · exact hst
  · next hdollar =>
    rw [not_not] at hdollar
    rw [Program.bind_assoc]
    apply keeps_ofExcept_bind hst
    intro length hlength
    rw [Program.bind_assoc]
    apply keeps_ofExcept_bind hst
    intro s hs
    obtain ⟨hin, rfl⟩ := substr_eq_ok.mp hs
    exact hf _ _ ⟨hdollar, length, _, ⟨rfl, substr_stoi_eq_ok.mp hlength⟩, hin, rfl, rfl⟩

theorem keeps_parseCommandName_bind {f : ℤ × Bytes × ℕ → Parser β} (hst : sc.holds st)
    (hstar : byteAt host input pos = byte '*')
    (hf : ∀ n name p, CommandAt host input pos n name p →
      (f (n, name, p)).Keeps (parser host clientFd input) (sc.contract input) Q st) :
    (parseCommandName input pos >>= f).Keeps (parser host clientFd input) (sc.contract input) Q st := by
  rw [parseCommandName, Program.bind_assoc]
  apply keeps_ofExcept_bind hst
  intro n hn
  rw [Program.bind_assoc]
  apply keeps_parseBulkString_bind hst
  intro raw p hraw
  exact hf _ _ _ ⟨hstar, _, raw, ⟨rfl, substr_stoi_eq_ok.mp hn⟩, hraw, rfl⟩

theorem keeps_reply {m : Bytes} (hst : sc.holds st) (hm : sc.passes m) :
    (reply m).Keeps (parser host clientFd input) (sc.contract input) (fun _ => sc.holds) st :=
  ⟨⟨hst, fun _ ho => by cases ho; exact hm, by simp⟩, keeps_op hst (by simp) (by simp) hst⟩

end Rules

section Commands

variable (hsc : sc.Covers host input)
include hsc

theorem keeps_parseKEYSCommand (hst : sc.holds st) (hpos : sc.begins pos)
    (hcmd : CommandAt host input pos n (str "KEYS") p) :
    (parseKEYSCommand host input p).Keeps (parser host clientFd input) (sc.contract input)
      (fun _ => sc.holds) st := by
  refine keeps_parseBulkString_bind hst fun s next hs => keeps_charAt_bind hst ?_
  split
  · exact hst
  · next pattern hregex =>
    apply keeps_op hst (by simp) (by simp)
    refine keeps_reply hst (hsc.array pos _ hpos (.inl ⟨n, p, hcmd, ?_⟩))
    exact arguments_keys.mpr ⟨s, ⟨next, hs⟩, by rw [hregex]; rfl⟩

theorem keeps_parseCONFIGGETCommand (hst : sc.holds st) (hpos : sc.begins pos)
    (hcmd : CommandAt host input pos n (str "CONFIG") p) :
    (parseCONFIGGETCommand host input p).Keeps (parser host clientFd input) (sc.contract input)
      (fun _ => sc.holds) st := by
  have hnull : sc.passes nullResponse := hsc.plain _ (by decide)
  apply keeps_parseBulkString_bind hst
  intro s next hs
  dsimp only
  split
  · next hget =>
    apply keeps_parseBulkString_bind hst
    intro v next' hv
    have harray : v = str "dir" ∨ v = str "dbfile" → ∀ ss, sc.passes (createArrayReponse ss) :=
      fun hvar ss => hsc.array pos ss hpos (.inr ⟨n, p, s, next, v, next', hcmd, hs, hget, hv, hvar⟩)
    dsimp only
    split
    · next hdir => exact keeps_reply hst (harray (.inl hdir) _)
    split
    · next hdbfile => exact keeps_reply hst (harray (.inr hdbfile) _)
    · exact keeps_reply hst hnull
  · exact keeps_reply hst hnull

/-- Commands other than SET. -/
theorem keeps_dispatch_other {name : Bytes} (hst : sc.holds st) (hpos : sc.begins pos)
    (hcmd : CommandAt host input pos n name p) (hset : name ≠ str "SET") :
    (dispatch host clientFd input n name p).Keeps (parser host clientFd input) (sc.contract input)
      (fun _ => sc.holds) st := by
  by_cases hkeys : name = str "KEYS"
  · subst hkeys
    exact keeps_parseKEYSCommand hsc hst hpos hcmd
  by_cases hconfig : name = str "CONFIG"
  · subst hconfig
    exact keeps_parseCONFIGGETCommand hsc hst hpos hcmd
  have halways : (dispatch host clientFd input n name p).Always
      (fun o : Op => (∀ m, o = .enqueueMessage m → sc.passes m) ∧ ∀ fd b, o ≠ .send fd b)
      (fun _ => False) := by
    refine always_dispatch (fun o ho => ?_) ⟨by simp, by simp⟩ hset
      (fun _ => ⟨fun _ => ⟨by simp, by simp⟩, fun _ => ⟨by simp, by simp⟩⟩)
      (fun _ => ⟨fun _ => ⟨by simp, by simp⟩, fun _ => ⟨by simp, by simp⟩⟩) (fun m hm => ⟨?_, by simp⟩)
    · constructor
      · rintro m rfl
        cases ho
      · rintro fd b rfl
        cases ho
    · rintro m' hm'
      cases hm'
      exact hsc.plain m (head?_ne_of_mayAnswer hm hkeys hconfig)
  exact .of_always halways (fun o st ho hst => ⟨hst, ho.1, fun fd b hb => absurd hb (ho.2 fd b)⟩)
    (fun o st _ hst => hsc.preserved o st hst) (fun st hst => hst) hst

/-- The end of a SET that begins at `pos`. -/
theorem keeps_setEnd (hst : sc.holds st) (hpos : sc.begins pos)
    (hcmd : CommandAt host input pos n (str "SET") p) :
    setEnd.Keeps (parser host clientFd input) (sc.contract input) (fun _ => sc.holds) st := by
  refine keeps_getInfo_bind (C := sc.contract input) ⟨hst, by simp, by simp⟩ ?_
  split
  · next hrole =>
    exact ⟨⟨hst, by simp, fun _ _ => hsc.propagates pos n p st hpos hcmd hst hrole⟩,
      fun st' hst' => keeps_op hst' (by simp) (by simp) hst'⟩
  · exact keeps_op hst (by simp) (by simp) hst

theorem keeps_setTail {k v : Bytes} {px : Option ℤ} (hst : sc.holds st) (hpos : sc.begins pos)
    (hcmd : CommandAt host input pos n (str "SET") p)
    (hargs : SetArguments host input p n k v px next) :
    (setTail input next).Keeps (parser host clientFd input) (sc.contract input)
      (fun _ => sc.holds) st := by
  apply keeps_charAt_bind hst
  split
  · next hnext =>
    refine ⟨⟨hst, fun q hq => ?_, by simp⟩, fun st' hst' => keeps_setEnd hsc hst' hpos hcmd⟩
    cases hq
    exact hsc.next pos next hpos ⟨⟨k, v, px, n, p, hcmd, hargs⟩, hnext⟩
  · exact keeps_setEnd hsc hst hpos hcmd

theorem keeps_parseSETCommand (hst : sc.holds st) (hpos : sc.begins pos)
    (hcmd : CommandAt host input pos n (str "SET") p) :
    (parseSETCommand input p n).Keeps (parser host clientFd input) (sc.contract input)
      (fun _ => sc.holds) st := by
  -- what every SET does once its arguments are read
  have hassign : ∀ {k v : Bytes} {px : Option ℤ} {next : ℕ} {st : Store} (e : ℤ), sc.holds st →
      SetArguments host input p n k v px next →
      Program.Keeps (parser host clientFd input) (sc.contract input)
        (do databaseSet k v e; enqueueMessage okResponse; setTail input next)
        (fun _ => sc.holds) st := by
    intro k v px next st e hst hargs
    have hst' : sc.holds (performOp host (.databaseAssign k ⟨v, e⟩) st).2 := hsc.preserved _ _ hst
    refine keeps_op hst (by simp) (by simp) ⟨⟨hst', fun m hm => ?_, by simp⟩, ?_⟩
    · cases hm
      exact hsc.plain _ (by decide)
    · exact keeps_setTail hsc hst' hpos hcmd hargs
  rw [parseSETCommand_eq, setHead, Program.bind_assoc]
  apply keeps_parseBulkString_bind hst
  intro k p₁ hk
  dsimp only
  rw [Program.bind_assoc]
  apply keeps_parseBulkString_bind hst
  intro v p₂ hv
  dsimp only
  rw [parseExpiry]
  split
  · next hn =>
    rw [Program.bind_assoc, Program.bind_assoc]
    apply keeps_parseBulkString_bind hst
    intro px p₃ hpx
    dsimp only
    rw [Program.bind_assoc]
    apply keeps_parseBulkString_bind hst
    intro e p₄ he
    dsimp only
    rw [Program.bind_assoc, perform_bind]
    apply keeps_op hst (by simp) (by simp)
    rw [Program.bind_assoc]
    apply keeps_ofExcept_bind (hsc.preserved _ _ hst)
    intro ms hms
    exact hassign _ (hsc.preserved _ _ hst) (.expiring hn hk hv hpx he hms)
  · next hn => exact hassign 0 hst (.plain (not_lt.mp hn) hk hv)

omit hsc in
theorem keeps_propagate (hst : sc.holds st) (h : sc.propagates) (i : ℕ) :
    (propagate input i).Keeps (parser host clientFd input) (sc.contract input)
      (fun _ => sc.holds) st := by
  refine keeps_getInfo_bind (C := sc.contract input) ⟨hst, by simp, by simp⟩ ?_
  split
  · apply keeps_op hst (by simp) (by simp)
    refine ⟨⟨hst, by simp, fun fd b ho => ?_⟩, ⟨hst, by simp, fun _ _ => h⟩, ?_⟩
    · cases ho
      exact ⟨rfl, h⟩
    · exact fun st' hst' => hst'
  · exact hst

theorem keeps_parseRESPCommand (hst : sc.holds st) (hpos : sc.begins pos) :
    (parseRESPCommand host clientFd input pos).Keeps (parser host clientFd input) (sc.contract input)
      (fun _ => sc.holds) st := by
  refine keeps_op hst (by simp) (by simp) (keeps_charAt_bind hst ?_)
  split
  · exact keeps_op hst (by simp) (by simp) hst
  · next hstar =>
    apply keeps_parseCommandName_bind hst (not_not.mp hstar)
    intro n name p hcmd
    dsimp only
    by_cases hset : name = str "SET"
    · subst hset
      rw [dispatch_set]
      exact keeps_parseSETCommand hsc hst hpos hcmd
    · exact keeps_dispatch_other hsc hst hpos hcmd hset

/-- The parser keeps the contract of every scope that covers its buffer. -/
theorem Scope.Covers.keptBy : (sc.contract input).KeptBy (parser host clientFd input) := by
  rintro (pos | i) st ⟨hst, hbegins, hpropagates⟩
  · exact keeps_parseRESPCommand hsc hst (hbegins pos rfl)
  · exact keeps_propagate hst (hpropagates i rfl) i

end Commands

/-- No command of the buffer, read from its beginning on, answers with an array. -/
def Harmless (host : Host) (input : Bytes) : Prop :=
  ∀ pos, Relation.ReflTransGen (Next host input) 0 pos → ¬ AnswersArray host input pos

/-- No command that a SET of the buffer hands over to answers with an array. -/
def HarmlessBehindSets (host : Host) (input : Bytes) : Prop :=
  ∀ pos, Relation.TransGen (Next host input) 0 pos → ¬ AnswersArray host input pos

section Harmless

theorem AnswersArray.exists_commandAt (h : AnswersArray host input pos) : ∃ n name p,
    CommandAt host input pos n name p ∧ (name = str "KEYS" ∨ name = str "CONFIG") := by
  rcases h with ⟨n, p, hcmd, -⟩ | ⟨n, p, s, next, v, next', hcmd, -⟩
  · exact ⟨n, _, p, hcmd, .inl rfl⟩
  · exact ⟨n, _, p, hcmd, .inr rfl⟩

/-- A buffer whose first command is none of three. -/
theorem harmless_of_name (h : ∀ n name p, CommandAt host input 0 n name p →
    name ≠ str "SET" ∧ name ≠ str "KEYS" ∧ name ≠ str "CONFIG") : Harmless host input := by
  intro pos hchain harray
  rcases hchain.cases_head with rfl | ⟨next, ⟨⟨k, v, px, n, p, hcmd, -⟩, -⟩, -⟩
  · obtain ⟨n, name, p, hcmd, hname⟩ := harray.exists_commandAt
    obtain ⟨-, hkeys, hconfig⟩ := h n name p hcmd
    exact hname.elim hkeys hconfig
  · exact (h n _ p hcmd).1 rfl

theorem harmless_of_stray (h : byteAt host input 0 ≠ byte '*') : Harmless host input :=
  harmless_of_name fun _ _ _ hcmd => absurd hcmd.1 h

/-- A buffer that another host takes for a SET. -/
theorem HarmlessBehindSets.harmless {host' : Host} (h : HarmlessBehindSets host input)
    (hset : CommandAt host' input 0 n (str "SET") p) : Harmless host input := by
  intro pos hchain harray
  rcases Relation.reflTransGen_iff_eq_or_transGen.mp hchain with rfl | hchain
  · obtain ⟨n', name, p', hcmd, hname⟩ := harray.exists_commandAt
    rw [← hset.name_eq hcmd] at hname
    exact absurd hname (by decide)
  · exact h pos hchain harray

end Harmless

section Sessions

variable {allowed : Exchange → Move → Prop} {s : Session}

/-- The operations of a session stay in every scope that covers its buffer. -/
theorem Scope.Covers.allows (hsc : sc.Covers host input) (hst : sc.holds st) (hpos : sc.begins 0)
    (h : RequestRun host clientFd input st allowed s) :
    ∀ o ∈ operations s.log, ∃ st', (sc.contract input).allows o st' :=
  h.reaches.allows hsc.keptBy (.start (keeps_parseRESPCommand hsc hst hpos))

/-- The first byte of a message is not an asterisk. -/
theorem head?_ne_of_harmless (hharmless : Harmless host input)
    (h : RequestRun host clientFd input st allowed s) {m : Bytes}
    (hm : m ∈ messages (operations s.log)) : m.head? ≠ some (byte '*') := by
  let sc : Scope := ⟨fun _ => True, fun m => m.head? ≠ some (byte '*'), True,
    fun pos => Relation.ReflTransGen (Next host input) 0 pos⟩
  have hsc : sc.Covers host input := by
    refine ⟨fun _ _ _ => trivial, fun _ hm => hm, fun pos ss hpos harray => ?_,
      fun pos next hpos hnext => hpos.tail hnext, fun _ _ _ _ _ _ _ _ => trivial⟩
    exact absurd harray (hharmless pos hpos)
  obtain ⟨o, ho, hmo⟩ := List.mem_filterMap.mp hm
  obtain ⟨st', -, hpasses, -⟩ := hsc.allows trivial .refl h o ho
  cases o with
  | enqueueMessage m' =>
    cases hmo
    exact hpasses m rfl
  | _ => cases hmo

/-- A session sends nothing but its buffer, and only if the buffer begins with a SET. -/
theorem send_of_session (h : RequestRun host clientFd input st allowed s) {fd : ℤ} {b : Bytes}
    (ho : Op.send fd b ∈ operations s.log) :
    b = input ∧ ∃ n p, CommandAt host input 0 n (str "SET") p := by
  let sc : Scope := ⟨fun _ => True, fun _ => True, ∃ n p, CommandAt host input 0 n (str "SET") p,
    fun pos => pos = 0 ∨ ∃ n p, CommandAt host input 0 n (str "SET") p⟩
  have hsc : sc.Covers host input := by
    refine ⟨fun _ _ _ => trivial, fun _ _ => trivial, fun _ _ _ _ => trivial, ?_, ?_⟩
    · rintro pos next hpos ⟨⟨k, v, px, n, p, hcmd, -⟩, -⟩
      refine .inr (hpos.elim ?_ id)
      rintro rfl
      exact ⟨n, p, hcmd⟩
    · rintro pos n p st hpos hcmd - -
      refine hpos.elim ?_ id
      rintro rfl
      exact ⟨n, p, hcmd⟩
  obtain ⟨st', -, -, hsend⟩ := hsc.allows trivial (.inl rfl) h _ ho
  exact hsend fd b rfl

/-- The role of the server. -/
theorem role_performOp (host : Host) (o : Op) (st : Store) :
    (performOp host o st).2.serverInfo.role = st.serverInfo.role := by
  cases o with
  | databaseAt key =>
    simp only [performOp]
    split <;> rfl
  | _ => rfl

/-- A slave propagates nothing. -/
theorem not_send_of_slave (hrole : st.serverInfo.role = str "slave")
    (h : RequestRun host clientFd input st allowed s) (fd : ℤ) (b : Bytes) :
    Op.send fd b ∉ operations s.log := by
  let sc : Scope := ⟨fun st => st.serverInfo.role = str "slave", fun _ => True, False, fun _ => True⟩
  have hsc : sc.Covers host input := by
    refine ⟨fun o st hst => (role_performOp host o st).trans hst, fun _ _ => trivial,
      fun _ _ _ _ => trivial, fun _ _ _ _ => trivial, ?_⟩
    rintro pos n p st - - hslave hmaster
    exact absurd (hslave.symm.trans hmaster) (by decide)
  intro ho
  obtain ⟨st', -, -, hsend⟩ := hsc.allows hrole trivial h _ ho
  exact (hsend fd b rfl).2

end Sessions

end RedisServer.ChainContracts
