import RedisServer.RedisParser

/-!
# Which buffers the parser accepts

The conditions under which each decoding step succeeds, as relations on the buffer and
a position. A buffer's commands form a chain: a SET that is followed by `*` hands over
to the command at that place, and every other command ends the chain.
-/

namespace RedisServer.RequestChain
open ByteStrings CxxStrings InteractionPrograms ServerState Utils RedisParser

section Grammar

variable (host : Host) (input : Bytes)

/-- The byte that `s[pos]` finds. -/
def byteAt (s : Bytes) (pos : ℕ) : UInt8 := (charAt? s pos).getD (host.outside s pos)

/-- From `pos` to the next line end stands an integer that `stoi` accepts. -/
def IntField (pos : ℕ) (n : ℤ) (lineEnd : ℕ) : Prop :=
  lineEnd = find input crlf pos ∧ pos ≤ input.length ∧
    stoi ((input.drop pos).take (sizeT (lineEnd - pos))) = .ok n

/-- At `pos` stand a dollar sign, a length and a payload that begins inside the buffer. -/
def BulkAt (pos : ℕ) (s : Bytes) (next : ℕ) : Prop :=
  byteAt host input pos = byte '$' ∧ ∃ length lineEnd,
    IntField input (sizeT (pos + 1)) length lineEnd ∧ sizeT (lineEnd + 2) ≤ input.length ∧
    s = (input.drop (sizeT (lineEnd + 2))).take (sizeT length) ∧
    next = sizeT (sizeT (lineEnd + 2) + toInt (length + 2))

/-- At `pos` stands an array header of `n` elements, and the first element is the
command `name` up to case. -/
def CommandAt (pos : ℕ) (n : ℤ) (name : Bytes) (next : ℕ) : Prop :=
  byteAt host input pos = byte '*' ∧ ∃ lineEnd raw,
    IntField input (sizeT (pos + 1)) n lineEnd ∧
    BulkAt host input (sizeT (lineEnd + 2)) raw next ∧ name = raw.map toUpper

/-- The arguments of a SET: a key, a value and, if there are more than three elements,
a word and a number of milliseconds. -/
inductive SetArguments (pos : ℕ) (n : ℤ) : Bytes → Bytes → Option ℤ → ℕ → Prop where
  | plain {k v p₁ next} (hn : n ≤ 3) (hk : BulkAt host input pos k p₁)
      (hv : BulkAt host input p₁ v next) : SetArguments pos n k v none next
  | expiring {k v px e ms p₁ p₂ p₃ next} (hn : 3 < n) (hk : BulkAt host input pos k p₁)
      (hv : BulkAt host input p₁ v p₂) (hpx : BulkAt host input p₂ px p₃)
      (he : BulkAt host input p₃ e next) (hms : stoi e = .ok ms) :
      SetArguments pos n k v (some ms) next

/-- The arguments at `pos` suit the command `name`, as far as the parser reads them. -/
def Arguments (name : Bytes) (n : ℤ) (pos : ℕ) : Prop :=
  if name = str "ECHO" ∨ name = str "GET" ∨ name = str "INFO" then
    ∃ s next, BulkAt host input pos s next
  else if name = str "SET" then ∃ k v px next, SetArguments host input pos n k v px next
  else if name = str "CONFIG" then
    ∃ s next, BulkAt host input pos s next ∧
      (s.map toUpper = str "GET" → ∃ s' next', BulkAt host input next s' next')
  else if name = str "KEYS" then
    ∃ s, (∃ next, BulkAt host input pos s next) ∧
      (host.regex (keysRegex s (byteAt host s (sizeT (toInt s.length - 1))))).isSome = true
  else True

/-- At `pos` stands a SET that assigns `v` to `k`, and `next` is the position after it. -/
def SetAt (pos : ℕ) (k v : Bytes) (px : Option ℤ) (next : ℕ) : Prop :=
  ∃ n p, CommandAt host input pos n (str "SET") p ∧ SetArguments host input p n k v px next

/-- A SET at `pos` hands over to a command at `next`. -/
def Next (pos next : ℕ) : Prop :=
  (∃ k v px, SetAt host input pos k v px next) ∧ byteAt host input next = byte '*'

/-- At `pos` stands something else than an array, or a command with suitable arguments. -/
def Handled (pos : ℕ) : Prop :=
  byteAt host input pos ≠ byte '*' ∨
    ∃ n name p, CommandAt host input pos n name p ∧ Arguments host input name n p

/-- The chain from `pos` ends, and asks for `k` replies: none for something else than an
array, two for PSYNC and one for every other command. -/
inductive Asks : ℕ → ℕ → Prop where
  | stray {pos} (h : byteAt host input pos ≠ byte '*') : Asks pos 0
  | last {pos n name p} (h : CommandAt host input pos n name p) (hname : name ≠ str "SET")
      (hargs : Arguments host input name n p) : Asks pos (if name = str "PSYNC" then 2 else 1)
  | lastSet {pos k v px next} (h : SetAt host input pos k v px next)
      (hnext : byteAt host input next ≠ byte '*') : Asks pos 1
  | set {pos next k} (h : Next host input pos next) (rest : Asks next k) : Asks pos (k + 1)

end Grammar

/-! The arguments that suit each command. -/

section Arguments

variable {host : Host} {input name : Bytes} {n : ℤ} {pos : ℕ}

theorem arguments_bulk (hname : name = str "ECHO" ∨ name = str "GET" ∨ name = str "INFO") :
    Arguments host input name n pos ↔ ∃ s next, BulkAt host input pos s next := by
  rw [Arguments, if_pos hname]

theorem arguments_set : Arguments host input (str "SET") n pos ↔
    ∃ k v px next, SetArguments host input pos n k v px next := by
  rw [Arguments, if_neg (by decide), if_pos rfl]

theorem arguments_config : Arguments host input (str "CONFIG") n pos ↔
    ∃ s next, BulkAt host input pos s next ∧
      (s.map toUpper = str "GET" → ∃ s' next', BulkAt host input next s' next') := by
  rw [Arguments, if_neg (by decide), if_neg (by decide), if_pos rfl]

theorem arguments_keys : Arguments host input (str "KEYS") n pos ↔
    ∃ s, (∃ next, BulkAt host input pos s next) ∧
      (host.regex (keysRegex s (byteAt host s (sizeT (toInt s.length - 1))))).isSome = true := by
  rw [Arguments, if_neg (by decide), if_neg (by decide), if_neg (by decide), if_pos rfl]

end Arguments

section Unique

variable {host : Host} {input : Bytes} {pos next next' : ℕ} {n n' : ℤ} {s s' k k' v v' : Bytes}
  {px px' : Option ℤ}

theorem IntField.unique {lineEnd lineEnd' : ℕ} (h : IntField input pos n lineEnd)
    (h' : IntField input pos n' lineEnd') : n = n' ∧ lineEnd = lineEnd' := by
  obtain ⟨rfl, -, hint⟩ := h
  obtain ⟨rfl, -, hint'⟩ := h'
  exact ⟨Except.ok.inj (hint.symm.trans hint'), rfl⟩

theorem BulkAt.unique (h : BulkAt host input pos s next) (h' : BulkAt host input pos s' next') :
    s = s' ∧ next = next' := by
  obtain ⟨-, length, lineEnd, hfield, -, rfl, rfl⟩ := h
  obtain ⟨-, length', lineEnd', hfield', -, rfl, rfl⟩ := h'
  obtain ⟨rfl, rfl⟩ := hfield.unique hfield'
  exact ⟨rfl, rfl⟩

theorem CommandAt.unique (h : CommandAt host input pos n s next)
    (h' : CommandAt host input pos n' s' next') : n = n' ∧ s = s' ∧ next = next' := by
  obtain ⟨-, lineEnd, raw, hfield, hraw, rfl⟩ := h
  obtain ⟨-, lineEnd', raw', hfield', hraw', rfl⟩ := h'
  obtain ⟨rfl, rfl⟩ := hfield.unique hfield'
  obtain ⟨rfl, rfl⟩ := hraw.unique hraw'
  exact ⟨rfl, rfl, rfl⟩

theorem CommandAt.handled_iff (h : CommandAt host input pos n s next) :
    Handled host input pos ↔ Arguments host input s n next := by
  constructor
  · rintro (hstar | ⟨n', s', next', h', hargs⟩)
    · exact absurd h.1 hstar
    · obtain ⟨rfl, rfl, rfl⟩ := h.unique h'
      exact hargs
  · exact fun hargs => .inr ⟨n, s, next, h, hargs⟩

/-- The name of a command does not depend on what memory holds past the end. -/
theorem CommandAt.name_eq {host' : Host} (h : CommandAt host input pos n s next)
    (h' : CommandAt host' input pos n' s' next') : s = s' := by
  obtain ⟨-, lineEnd, raw, hfield, ⟨-, length, payload, hlength, -, rfl, -⟩, rfl⟩ := h
  obtain ⟨-, lineEnd', raw', hfield', ⟨-, length', payload', hlength', -, rfl, -⟩, rfl⟩ := h'
  obtain ⟨-, rfl⟩ := hfield.unique hfield'
  obtain ⟨rfl, rfl⟩ := hlength.unique hlength'
  rfl

theorem SetArguments.unique (h : SetArguments host input pos n k v px next)
    (h' : SetArguments host input pos n k' v' px' next') :
    k = k' ∧ v = v' ∧ px = px' ∧ next = next' := by
  cases h with
  | plain hn hk hv =>
    cases h' with
    | plain _ hk' hv' =>
      obtain ⟨rfl, rfl⟩ := hk.unique hk'
      obtain ⟨rfl, rfl⟩ := hv.unique hv'
      exact ⟨rfl, rfl, rfl, rfl⟩
    | expiring hn' => exact absurd hn' (by omega)
  | expiring hn hk hv hpx he hms =>
    cases h' with
    | plain hn' => exact absurd hn (by omega)
    | expiring _ hk' hv' hpx' he' hms' =>
      obtain ⟨rfl, rfl⟩ := hk.unique hk'
      obtain ⟨rfl, rfl⟩ := hv.unique hv'
      obtain ⟨rfl, rfl⟩ := hpx.unique hpx'
      obtain ⟨rfl, rfl⟩ := he.unique he'
      exact ⟨rfl, rfl, congrArg some (Except.ok.inj (hms.symm.trans hms')), rfl⟩

theorem SetAt.unique (h : SetAt host input pos k v px next)
    (h' : SetAt host input pos k' v' px' next') : k = k' ∧ v = v' ∧ px = px' ∧ next = next' := by
  obtain ⟨n, p, hcmd, hargs⟩ := h
  obtain ⟨n', p', hcmd', hargs'⟩ := h'
  obtain ⟨rfl, -, rfl⟩ := hcmd.unique hcmd'
  exact hargs.unique hargs'

end Unique

/-- A list of reads past the end of a string. -/
def Reads (tr : List Op) : Prop := ∀ o ∈ tr, ∃ s i, o = .readOutside s i

theorem Reads.nil : Reads [] := nofun

theorem Reads.append {tr tr' : List Op} (h : Reads tr) (h' : Reads tr') : Reads (tr ++ tr') := by
  intro o ho
  exact (List.mem_append.mp ho).elim (h o) (h' o)

/-- Reads past the end pass no message, propagate nothing and assign nothing. -/
theorem Reads.filterMap_eq_nil {β : Type} {f : Op → Option β} {tr : List Op} (h : Reads tr)
    (hf : ∀ s i, f (.readOutside s i) = none) : tr.filterMap f = [] := by
  rw [List.filterMap_eq_nil_iff]
  intro o ho
  obtain ⟨s, i, rfl⟩ := h o ho
  exact hf s i

@[simp] theorem Reads.messages {tr : List Op} (h : Reads tr) : messages tr = [] :=
  h.filterMap_eq_nil fun _ _ => rfl

@[simp] theorem Reads.sendsTo {tr : List Op} (h : Reads tr) (fd : ℤ) : sendsTo fd tr = [] :=
  h.filterMap_eq_nil fun _ _ => rfl

@[simp] theorem Reads.assignments {tr : List Op} (h : Reads tr) : assignments tr = [] :=
  h.filterMap_eq_nil fun _ _ => rfl

/-- Operations that wait, read the clock or read past the end of a string. -/
def isInert : Op → Bool
  | .awaitCommunicationLoop | .getCurrentTimeMilli | .readOutside _ _ => true
  | _ => false

def Inert (tr : List Op) : Prop := ∀ o ∈ tr, isInert o = true

theorem Reads.inert {tr : List Op} (h : Reads tr) : Inert tr := by
  intro o ho
  obtain ⟨s, i, rfl⟩ := h o ho
  rfl

theorem Inert.append {tr tr' : List Op} (h : Inert tr) (h' : Inert tr') : Inert (tr ++ tr') :=
  List.forall_mem_append.mpr ⟨h, h'⟩

theorem Inert.messages {tr : List Op} (h : Inert tr) : messages tr = [] := by
  apply List.filterMap_eq_nil_iff.mpr
  intro o ho
  cases o with
  | enqueueMessage m => cases h _ ho
  | _ => rfl

theorem Inert.over_notMem {tr : List Op} (h : Inert tr) : Op.communicationOver ∉ tr :=
  fun ho => nomatch h _ ho

theorem Inert.database_eq {host : Host} {clientFd : ℤ} {buffer : Bytes} {α : Type} {p : Parser α}
    {st st' : Store} {tr : List Op} {r : Except Exception α} (h : Inert tr)
    (hx : Exec (parser host clientFd buffer) p st tr r st') : st'.database = st.database := by
  refine hx.preserves_of_trace (I := fun st' => st'.database = st.database) (fun o ho st₁ hst => ?_) rfl
  have hinert := h o ho
  cases o <;> first | exact hst | cases hinert

/-- The run of `p` from `st` returns `a` after nothing but reads past the end. -/
def Decodes (M : Machine parserSignature Store) {α : Type} (p : Parser α) (st : Store) (a : α) :
    Prop :=
  ∃ tr, Reads tr ∧ Exec M p st tr (.ok a) st

/-- The run of `p` from `st` throws before it passes a message or ends the exchange. -/
def Rejects (M : Machine parserSignature Store) {α : Type} (p : Parser α) (st : Store) : Prop :=
  ∃ tr e st', Inert tr ∧ Exec M p st tr (.error e) st'

section Composition

variable {M : Machine parserSignature Store} {α β : Type} {p : Parser α} {f : α → Parser β}
  {st : Store} {a : α} {b : β}

theorem Decodes.pure (a : α) : Decodes M (.pure a) st a := ⟨[], .nil, .pure a st⟩

theorem Decodes.ofExcept {x : Except Exception α} (h : x = .ok a) :
    Decodes M (Program.ofExcept x : Parser α) st a := by
  subst h
  exact .pure a

theorem Decodes.bind (h : Decodes M p st a) (hf : Decodes M (f a) st b) :
    Decodes M (p >>= f) st b := by
  obtain ⟨tr, htr, hp⟩ := h
  obtain ⟨tr', htr', hf⟩ := hf
  exact ⟨tr ++ tr', htr.append htr', hp.bind hf⟩

theorem Rejects.throw (e : Exception) : Rejects M (.throw e : Parser α) st :=
  ⟨[], e, st, nofun, Exec.throw (M := M) e st⟩

theorem Rejects.ofExcept {x : Except Exception α} (h : ∀ a, x ≠ .ok a) :
    Rejects M (Program.ofExcept x : Parser α) st := by
  cases x with
  | ok a => exact absurd rfl (h a)
  | error e => exact .throw e

theorem Rejects.bind (h : Rejects M p st) : Rejects M (p >>= f) st := by
  obtain ⟨tr, e, st', htr, hp⟩ := h
  exact ⟨tr, e, st', htr, hp.bind_throw⟩

theorem Decodes.bind_rejects (h : Decodes M p st a) (hf : Rejects M (f a) st) :
    Rejects M (p >>= f) st := by
  obtain ⟨tr, htr, hp⟩ := h
  obtain ⟨tr', e, st', htr', hf⟩ := hf
  exact ⟨tr ++ tr', e, st', htr.inert.append htr', hp.bind hf⟩

/-- An operation before a rejection. -/
theorem Rejects.op {o : Op} {k : o.Answer → Parser β} (ho : isInert o = true)
    (h : Rejects M (k (M.step o st).1) (M.step o st).2) :
    Rejects M (Program.op (S := parserSignature) o k) st := by
  obtain ⟨tr, e, st', htr, hk⟩ := h
  exact ⟨o :: tr, e, st', List.forall_mem_cons.mpr ⟨ho, htr⟩, .op hk⟩

end Composition

section Decoding

variable {host : Host} {clientFd : ℤ} {buffer input : Bytes} {pos : ℕ} {st : Store}

theorem decodes_charAt (s : Bytes) (pos : ℕ) :
    Decodes (parser host clientFd buffer) (charAt s pos) st (byteAt host s pos) := by
  unfold charAt byteAt
  split
  · next hb => rw [hb]; exact .pure _
  · next hb =>
    rw [hb]
    exact ⟨[.readOutside s pos], by intro o ho; exact ⟨s, pos, List.mem_singleton.mp ho⟩,
      .op (.pure _ _)⟩

theorem substr_stoi_eq_ok {n : ℤ} {lineEnd : ℕ} :
    ((substr input pos (sizeT (lineEnd - pos))).bind stoi = .ok n) ↔
      pos ≤ input.length ∧ stoi ((input.drop pos).take (sizeT (lineEnd - pos))) = .ok n := by
  unfold substr
  split
  · next h => simp [Except.bind, h]
  · next h => simp [Except.bind, h]

theorem substr_eq_ok {s : Bytes} {n : ℕ} :
    substr input pos n = .ok s ↔ pos ≤ input.length ∧ s = (input.drop pos).take n := by
  unfold substr
  split
  · next h => simp [h, eq_comm]
  · next h => simp [h]

theorem decodes_parseBulkString {s : Bytes} {next : ℕ} (h : BulkAt host input pos s next) :
    Decodes (parser host clientFd buffer) (parseBulkString input pos) st (s, next) := by
  obtain ⟨hdollar, length, lineEnd, ⟨rfl, hint⟩, hin, rfl, rfl⟩ := h
  apply (decodes_charAt input pos).bind
  rw [if_neg (by simpa using hdollar)]
  exact (Decodes.ofExcept (substr_stoi_eq_ok.mpr hint)).bind <|
    (Decodes.ofExcept (substr_eq_ok.mpr ⟨hin, rfl⟩)).bind (.pure _)

/-- Inside the string a subscript looks nothing up. -/
theorem charAt_eq_pure (host : Host) {s : Bytes} {pos : ℕ} (h : pos ≤ s.length) :
    charAt s pos = .pure (byteAt host s pos) := by
  unfold charAt byteAt
  split
  · next hb => rw [hb]; rfl
  · next hb => exact absurd (charAt?_eq_none_iff.mp hb) (by omega)

/-- Past the end it finds whatever memory holds there. -/
theorem charAt_eq_readOutside {s : Bytes} {pos : ℕ} (h : s.length < pos) :
    charAt s pos = perform (.readOutside s pos) := by
  rw [charAt, charAt?_eq_none_iff.mpr h]

/-- Inside the buffer a bulk string is decoded without looking anything up. -/
theorem parseBulkString_eq_pure {s : Bytes} {next : ℕ} (h : BulkAt host input pos s next)
    (hpos : pos ≤ input.length) : parseBulkString input pos = .pure (s, next) := by
  obtain ⟨hdollar, length, lineEnd, ⟨rfl, hint⟩, hin, rfl, rfl⟩ := h
  simp only [parseBulkString, charAt_eq_pure host hpos, Program.pure_bind, hdollar, ne_eq,
    not_true_eq_false, if_false, substr_stoi_eq_ok.mpr hint, substr_eq_ok.mpr ⟨hin, rfl⟩]
  rfl

theorem parseCommandName_eq_pure {n : ℤ} {name : Bytes} {next : ℕ}
    (h : CommandAt host input pos n name next)
    (hpos : sizeT (find input crlf (sizeT (pos + 1)) + 2) ≤ input.length) :
    parseCommandName input pos = .pure (n, name, next) := by
  obtain ⟨-, lineEnd, raw, ⟨rfl, hint⟩, hraw, rfl⟩ := h
  simp only [parseCommandName, substr_stoi_eq_ok.mpr hint, parseBulkString_eq_pure hraw hpos]
  rfl

theorem rejects_parseBulkString (h : ¬ ∃ s next, BulkAt host input pos s next) :
    Rejects (parser host clientFd buffer) (parseBulkString input pos) st := by
  apply (decodes_charAt input pos).bind_rejects
  split
  · exact .throw _
  · next hdollar =>
    rw [not_not] at hdollar
    by_cases hlen : ∃ n, IntField input (sizeT (pos + 1)) n (find input crlf (sizeT (pos + 1)))
    · obtain ⟨n, hn⟩ := hlen
      refine (Decodes.ofExcept (substr_stoi_eq_ok.mpr hn.2)).bind_rejects (Rejects.bind ?_)
      refine .ofExcept fun s hs => h ⟨s, _, hdollar, n, _, hn, (substr_eq_ok.mp hs).1, (substr_eq_ok.mp hs).2, rfl⟩
    · exact Rejects.bind (.ofExcept fun n hn => hlen ⟨n, rfl, substr_stoi_eq_ok.mp hn⟩)

theorem decodes_parseCommandName {n : ℤ} {name : Bytes} {next : ℕ}
    (h : CommandAt host input pos n name next) :
    Decodes (parser host clientFd buffer) (parseCommandName input pos) st (n, name, next) := by
  obtain ⟨-, lineEnd, raw, ⟨rfl, hint⟩, hraw, rfl⟩ := h
  exact (Decodes.ofExcept (substr_stoi_eq_ok.mpr hint)).bind <|
    (decodes_parseBulkString hraw).bind (.pure _)

theorem rejects_parseCommandName (hstar : byteAt host input pos = byte '*')
    (h : ¬ ∃ n name next, CommandAt host input pos n name next) :
    Rejects (parser host clientFd buffer) (parseCommandName input pos) st := by
  by_cases hlen : ∃ n, IntField input (sizeT (pos + 1)) n (find input crlf (sizeT (pos + 1)))
  · obtain ⟨n, hn⟩ := hlen
    refine (Decodes.ofExcept (substr_stoi_eq_ok.mpr hn.2)).bind_rejects (Rejects.bind ?_)
    refine rejects_parseBulkString fun ⟨raw, next, hraw⟩ => h ⟨n, _, next, hstar, _, raw, hn, hraw, rfl⟩
  · exact Rejects.bind (.ofExcept fun n hn => hlen ⟨n, rfl, substr_stoi_eq_ok.mp hn⟩)

/-- The run of `p` from `st` passes `k` messages and ends the exchange. -/
def Answers (M : Machine parserSignature Store) (p : Parser Unit) (st : Store) (k : ℕ) : Prop :=
  ∃ tr st', Exec M p st tr (.ok ()) st' ∧ (messages tr).length = k ∧ Op.communicationOver ∈ tr

theorem Answers.of_exec {M : Machine parserSignature Store} {α : Type} {p : Parser α}
    {f : α → Parser Unit} {st' : Store} {tr : List Op} {a : α} {k : ℕ}
    (h : Exec M p st tr (.ok a) st') (hm : messages tr = []) (hf : Answers M (f a) st' k) :
    Answers M (p >>= f) st k := by
  obtain ⟨tr', st'', hf, hk, hover⟩ := hf
  exact ⟨tr ++ tr', st'', h.bind hf, by simpa [hm] using hk, List.mem_append_right _ hover⟩

theorem Decodes.bind_answers {M : Machine parserSignature Store} {α : Type} {p : Parser α}
    {f : α → Parser Unit} {a : α} {k : ℕ} (h : Decodes M p st a) (hf : Answers M (f a) st k) :
    Answers M (p >>= f) st k := by
  obtain ⟨tr, htr, hp⟩ := h
  exact .of_exec hp htr.messages hf

theorem exec_getInfo {α : Type} (field : ServerInfo → α) :
    Exec (parser host clientFd buffer) (getInfo field) st [.serverInfo]
      (.ok (field st.serverInfo)) st := .op (.pure _ _)

theorem exec_reply (m : Bytes) : Exec (parser host clientFd buffer) (reply m) st
    [.enqueueMessage m, .communicationOver] (.ok ()) st := .op (.op (.pure _ _))

theorem answers_reply (m : Bytes) : Answers (parser host clientFd buffer) (reply m) st 1 :=
  ⟨_, _, exec_reply m, rfl, by simp⟩

theorem answers_parseECHOCommand {s : Bytes} {next : ℕ} (h : BulkAt host input pos s next) :
    Answers (parser host clientFd buffer) (parseECHOCommand input pos) st 1 :=
  (decodes_parseBulkString h).bind_answers (answers_reply _)

theorem exec_perform {o : Op} {r : o.Answer} {st' : Store} (h : performOp host o st = (r, st')) :
    Exec (parser host clientFd buffer) (perform o) st [o] (.ok r) st' := by
  have hstep : (parser host clientFd buffer).step o st = (r, st') := h
  refine .op ?_
  rw [hstep]
  exact .pure r st'

theorem exec_databaseFind {key : Bytes} {found : Bool}
    (h : (st.database.lookup key).isSome = found) :
    Exec (parser host clientFd buffer) (perform (.databaseFind key)) st [.databaseFind key]
      (.ok found) st :=
  exec_perform (by simp [performOp, h])

theorem exec_databaseAt {key : Bytes} {v : DBValue} (h : st.database.lookup key = some v) :
    Exec (parser host clientFd buffer) (perform (.databaseAt key)) st [.databaseAt key]
      (.ok v) st :=
  exec_perform (by simp [performOp, h])

theorem exec_getCurrentTimeMilli : Exec (parser host clientFd buffer)
    (perform .getCurrentTimeMilli) st [.getCurrentTimeMilli] (.ok (host.clock st.ticks)) st.tick :=
  exec_perform rfl

/-- GET of a key without an entry. -/
theorem exec_databaseGet_missing {key : Bytes} (h : st.database.lookup key = none) :
    Exec (parser host clientFd buffer) (databaseGet key) st [.databaseFind key]
      (.ok nullResponse) st :=
  have hfind : (st.database.lookup key).isSome = false := by simp [h]
  (exec_databaseFind hfind).bind (.pure _ _)

/-- GET of an entry without an expiry time. -/
theorem exec_databaseGet_persistent {key : Bytes} {v : DBValue}
    (h : st.database.lookup key = some v) (hv : v.expiryTime = 0) :
    Exec (parser host clientFd buffer) (databaseGet key) st [.databaseFind key, .databaseAt key]
      (.ok v.value) st := by
  have hfind : (st.database.lookup key).isSome = true := by simp [h]
  refine (exec_databaseFind hfind).bind <| (exec_databaseAt h).bind ?_
  rw [if_pos hv]
  exact .pure _ _

/-- GET of an entry whose expiry time is still to come. -/
theorem exec_databaseGet_live {key : Bytes} {v : DBValue} (h : st.database.lookup key = some v)
    (hv : v.expiryTime ≠ 0) (hlive : host.clock st.ticks < v.expiryTime) :
    Exec (parser host clientFd buffer) (databaseGet key) st
      [.databaseFind key, .databaseAt key, .getCurrentTimeMilli] (.ok v.value) st.tick := by
  have hfind : (st.database.lookup key).isSome = true := by simp [h]
  refine (exec_databaseFind hfind).bind <| (exec_databaseAt h).bind ?_
  rw [if_neg hv]
  apply exec_getCurrentTimeMilli.bind
  rw [if_pos hlive]
  exact .pure _ _

/-- GET of an entry whose expiry time has come. -/
theorem exec_databaseGet_expired {key : Bytes} {v : DBValue} (h : st.database.lookup key = some v)
    (hv : v.expiryTime ≠ 0) (hexp : v.expiryTime ≤ host.clock st.ticks) :
    Exec (parser host clientFd buffer) (databaseGet key) st
      [.databaseFind key, .databaseAt key, .getCurrentTimeMilli, .databaseErase key]
      (.ok nullResponse) (st.tick.setDatabase (st.database.erase key)) := by
  have hfind : (st.database.lookup key).isSome = true := by simp [h]
  refine (exec_databaseFind hfind).bind <| (exec_databaseAt h).bind ?_
  rw [if_neg hv]
  apply exec_getCurrentTimeMilli.bind
  rw [if_neg (not_lt.mpr hexp)]
  exact (exec_perform (r := ()) rfl).bind (.pure _ _)

theorem answers_databaseGet_bind {f : Bytes → Parser Unit} {k : ℕ} (key : Bytes)
    (hf : ∀ r st', Answers (parser host clientFd buffer) (f r) st' k) :
    Answers (parser host clientFd buffer) (databaseGet key >>= f) st k := by
  cases hfind : st.database.lookup key with
  | none => exact .of_exec (exec_databaseGet_missing hfind) rfl (hf _ _)
  | some v =>
    by_cases hv : v.expiryTime = 0
    · exact .of_exec (exec_databaseGet_persistent hfind hv) rfl (hf _ _)
    · rcases lt_or_ge (host.clock st.ticks) v.expiryTime with hlive | hexp
      · exact .of_exec (exec_databaseGet_live hfind hv hlive) rfl (hf _ _)
      · exact .of_exec (exec_databaseGet_expired hfind hv hexp) rfl (hf _ _)

theorem answers_parseGETCommand {s : Bytes} {next : ℕ} (h : BulkAt host input pos s next) :
    Answers (parser host clientFd buffer) (parseGETCommand input pos) st 1 := by
  refine (decodes_parseBulkString h).bind_answers (answers_databaseGet_bind s fun r st' => ?_)
  split
  · exact answers_reply _
  · exact answers_reply _

theorem answers_parseINFOCommand {s : Bytes} {next : ℕ} (h : BulkAt host input pos s next) :
    Answers (parser host clientFd buffer) (parseINFOCommand input pos) st 1 := by
  apply (decodes_parseBulkString h).bind_answers
  dsimp only
  split
  · refine .of_exec (exec_getInfo _) rfl <| .of_exec (exec_getInfo _) rfl <|
      .of_exec (exec_getInfo _) rfl <| .of_exec (exec_getInfo _) rfl <|
      .of_exec (exec_getInfo _) rfl <| .of_exec (exec_getInfo _) rfl <|
      .of_exec (exec_getInfo _) rfl <| .of_exec (exec_getInfo _) rfl <|
      .of_exec (exec_getInfo _) rfl (answers_reply _)
  · exact answers_reply _

theorem answers_parseKEYSCommand {s : Bytes} {next : ℕ} (h : BulkAt host input pos s next)
    (hregex : (host.regex (keysRegex s (byteAt host s (sizeT (toInt s.length - 1))))).isSome = true) :
    Answers (parser host clientFd buffer) (parseKEYSCommand host input pos) st 1 := by
  refine (decodes_parseBulkString h).bind_answers <| (decodes_charAt s _).bind_answers ?_
  obtain ⟨pattern, hpattern⟩ := Option.isSome_iff_exists.mp hregex
  rw [hpattern]
  exact .of_exec (exec_perform rfl) rfl (answers_reply _)

theorem answers_parseCONFIGGETCommand {s : Bytes} {next : ℕ} (h : BulkAt host input pos s next)
    (hget : s.map toUpper = str "GET" → ∃ s' next', BulkAt host input next s' next') :
    Answers (parser host clientFd buffer) (parseCONFIGGETCommand host input pos) st 1 := by
  apply (decodes_parseBulkString h).bind_answers
  dsimp only
  split
  · next hcmd =>
    obtain ⟨s', next', h'⟩ := hget hcmd
    apply (decodes_parseBulkString h').bind_answers
    dsimp only
    repeat' split
    all_goals exact answers_reply _
  · exact answers_reply _

theorem answers_parsePSYNCCommand :
    Answers (parser host clientFd buffer) (parsePSYNCCommand host clientFd) st 2 := by
  have htail : ∀ st', Answers (parser host clientFd buffer) (do
      enqueueMessage (fullResyncMessage (← getMasterReplid))
      enqueueMessage (rdbMessage host)
      communicationOver) st' 2 := fun st' =>
    .of_exec (exec_getInfo _) rfl ⟨_, _, .op (.op (.op (.pure _ _))), rfl, by simp⟩
  refine .of_exec (exec_getInfo _) rfl ?_
  split
  · exact .of_exec (exec_getInfo _) rfl <| .of_exec (exec_perform rfl) rfl <|
      .of_exec (exec_perform rfl) rfl (htail _)
  · exact htail _

/-- A command other than SET with suitable arguments is answered. -/
theorem answers_dispatch {name : Bytes} {n : ℤ} (hname : name ≠ str "SET")
    (hargs : Arguments host input name n pos) :
    Answers (parser host clientFd buffer) (dispatch host clientFd input n name pos) st
      (if name = str "PSYNC" then 2 else 1) := by
  unfold dispatch
  split
  · next hn =>
    subst hn
    obtain ⟨s, next, h⟩ := (arguments_bulk (.inl rfl)).mp hargs
    exact answers_parseECHOCommand h
  split
  · next hn => subst hn; exact answers_reply _
  split
  · next hn =>
    subst hn
    obtain ⟨s, next, h⟩ := (arguments_bulk (.inr (.inl rfl))).mp hargs
    exact answers_parseGETCommand h
  split
  · next hn =>
    subst hn
    obtain ⟨s, next, h, hget⟩ := arguments_config.mp hargs
    exact answers_parseCONFIGGETCommand h hget
  split
  · next hn =>
    subst hn
    obtain ⟨s, ⟨next, h⟩, hregex⟩ := arguments_keys.mp hargs
    exact answers_parseKEYSCommand h hregex
  split
  · next hn =>
    subst hn
    obtain ⟨s, next, h⟩ := (arguments_bulk (.inr (.inr rfl))).mp hargs
    exact answers_parseINFOCommand h
  split
  · next hn => subst hn; exact answers_reply _
  split
  · exact answers_parsePSYNCCommand
  · exact answers_reply _

end Decoding

end RedisServer.RequestChain
