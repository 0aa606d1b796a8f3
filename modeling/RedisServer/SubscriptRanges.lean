import RedisServer.CursorBounds
import RedisServer.RequestDecoding
import RedisServer.RequestFailures

/-!
# Which subscripts are in range

A position inside a command that is read is inside the buffer, because reading an integer
there would have thrown otherwise. Two subscripts have no such guard: the one behind a SET
and the one at the last character of the pattern of KEYS.
-/

namespace RedisServer.SubscriptRanges
open ByteStrings CxxStrings RespGrammar InteractionPrograms ServerState Utils RedisParser
open RequestChain RequestRuns RequestDecoding RequestFailures CursorBounds

/-- No run of the parser on the buffer, complete or not, subscripts out of range. -/
def InRange (host : Host) (clientFd : ℤ) (input : Bytes) : Prop :=
  ∀ st tr t st', Reaches (parser host clientFd input)
    (.start (parseRESPCommand host clientFd input 0)) st tr t st' → ∀ s i, Op.readOutside s i ∉ tr

/-- The commands of the chain are complete where their subscripts need it. -/
structure EndsInside (host : Host) (input : Bytes) : Prop where
  /-- The last string of every SET ends, with its line end, inside the buffer. -/
  sets : ∀ pos length lineEnd, Relation.ReflTransGen (Next host input) 0 pos →
    LastLine host input pos length lineEnd → bulkEnd length lineEnd ≤ input.length
  /-- The pattern of KEYS is not empty, and its length is a positive `int`. -/
  keys : ∀ pos n p s next, Relation.ReflTransGen (Next host input) 0 pos →
    CommandAt host input pos n (str "KEYS") p → BulkAt host input p s next → 0 < toInt s.length

theorem EndsInside.chain_le {host : Host} {input : Bytes} (h : EndsInside host input) {q : ℕ}
    (hchain : Relation.ReflTransGen (Next host input) 0 q) : q ≤ input.length := by
  cases hchain with
  | refl => exact Nat.zero_le _
  | tail hchain hnext =>
    obtain ⟨⟨k, v, px, hset⟩, -⟩ := hnext
    obtain ⟨length, lineEnd, hline, rfl⟩ := exists_lastLine_of_setAt hset
    exact h.sets _ length lineEnd hchain hline

/-- A program without subscripts out of range that calls the parser only along the chain. -/
def Inside (host : Host) (input : Bytes) {α : Type} (p : Parser α) : Prop :=
  p.Always (fun o : Op => ∀ s i, o ≠ .readOutside s i)
    (fun f : Proc => ∀ q, f = .parseRESPCommand q → Relation.ReflTransGen (Next host input) 0 q)

variable {host : Host} {clientFd : ℤ} {input : Bytes} {pos next : ℕ} {st : Store} {n : ℤ}
  {name : Bytes}

section Inside

variable {α β : Type}

theorem Inside.bind {p : Parser α} {f : α → Parser β} (h : Inside host input p)
    (hf : ∀ a, Inside host input (f a)) : Inside host input (p >>= f) := Program.Always.bind h hf

theorem inside_perform {o : Op} (h : ∀ s i, o ≠ .readOutside s i) : Inside host input (perform o) :=
  ⟨h, fun _ => trivial⟩

theorem inside_pure (a : α) : Inside host input (.pure a : Parser α) := trivial

theorem inside_reply (m : Bytes) : Inside host input (reply m) :=
  ⟨nofun, fun _ => ⟨nofun, fun _ => trivial⟩⟩

theorem inside_getInfo (field : ServerInfo → α) : Inside host input (getInfo field) :=
  (inside_perform (by simp)).bind fun _ => inside_pure _

theorem inside_databaseGet (key : Bytes) : Inside host input (databaseGet key) := by
  apply (inside_perform (by simp)).bind
  intro found
  split
  · apply (inside_perform (by simp)).bind
    intro v
    split
    · exact inside_pure _
    · apply (inside_perform (by simp)).bind
      intro now
      split
      · exact inside_pure _
      · exact (inside_perform (by simp)).bind fun _ => inside_pure _
  · exact inside_pure _

theorem inside_propagate (i : ℕ) : Inside host input (propagate input i) := by
  apply (inside_getInfo _).bind
  intro n
  split
  · exact ⟨nofun, fun _ => ⟨nofun, fun _ => ⟨nofun, trivial⟩⟩⟩
  · exact inside_pure _

theorem inside_setEnd : Inside host input setEnd := by
  apply (inside_getInfo _).bind
  intro role
  split
  · exact ⟨nofun, nofun, fun _ => trivial⟩
  · exact ⟨nofun, fun _ => trivial⟩

theorem inside_parsePSYNCCommand : Inside host input (parsePSYNCCommand host clientFd) := by
  have htail : Inside host input (do
      enqueueMessage (fullResyncMessage (← getMasterReplid))
      enqueueMessage (rdbMessage host)
      communicationOver) :=
    (inside_getInfo _).bind fun _ => ⟨nofun, fun _ => ⟨nofun, fun _ => ⟨nofun, fun _ => trivial⟩⟩⟩
  apply (inside_getInfo _).bind
  intro role
  split
  · exact (inside_getInfo _).bind fun n => ⟨nofun, fun _ => ⟨nofun, fun _ => htail⟩⟩
  · exact htail

/-- What follows a string that is decoded inside the buffer. -/
theorem inside_parseBulkString_bind {f : Bytes × ℕ → Parser β} {s : Bytes}
    (h : BulkAt host input pos s next) (hpos : pos ≤ input.length) (hf : Inside host input (f (s, next))) :
    Inside host input (parseBulkString input pos >>= f) := by
  rw [parseBulkString_eq_pure h hpos]
  exact hf

end Inside

/-- The last character of a pattern whose length is a positive `int` exists. -/
theorem lastIndex_le {s : Bytes} (h : 0 < toInt s.length) :
    sizeT (toInt s.length - 1) ≤ s.length := by
  have hbound : toInt s.length ≤ s.length := by
    simp only [toInt, Int.bmod_def]
    omega
  simp only [sizeT]
  omega

/-- An index computed from a length that is not a positive `int` is out of range. -/
theorem length_lt_lastIndex {s : Bytes} (h : toInt s.length ≤ 0) (hlen : s.length ≤ maxSize) :
    s.length < sizeT (toInt s.length - 1) := by
  have hbound : -2 ^ 31 ≤ toInt s.length := by
    simp only [toInt, Int.bmod_def]
    omega
  simp only [maxSize] at hlen
  simp only [sizeT]
  omega

section Body

variable {p : ℕ}

/-- A string that is decoded at a position of the chain stands inside the buffer. -/
private theorem bulk_le (hstar : byteAt host input 0 = byte '*') {s : Bytes} (hp : p < 2 ^ 64)
    (h : BulkAt host input p s next) : p ≤ input.length := by
  have hlt := BulkAt.succ_lt_length hstar hp h
  omega

private theorem inside_parseECHOCommand (hstar : byteAt host input 0 = byte '*') (hp : p < 2 ^ 64)
    {s : Bytes} (h : BulkAt host input p s next) :
    Inside host input (parseECHOCommand input p) :=
  inside_parseBulkString_bind h (bulk_le hstar hp h) (inside_reply _)

private theorem inside_parseGETCommand (hstar : byteAt host input 0 = byte '*') (hp : p < 2 ^ 64)
    {s : Bytes} (h : BulkAt host input p s next) : Inside host input (parseGETCommand input p) := by
  apply inside_parseBulkString_bind h (bulk_le hstar hp h)
  apply (inside_databaseGet s).bind
  intro response
  split
  · exact inside_reply _
  · exact inside_reply _

private theorem inside_parseCONFIGGETCommand (hstar : byteAt host input 0 = byte '*')
    (hp : p < 2 ^ 64) {s : Bytes} (h : BulkAt host input p s next)
    (hget : s.map toUpper = str "GET" → ∃ s' next', BulkAt host input next s' next') :
    Inside host input (parseCONFIGGETCommand host input p) := by
  apply inside_parseBulkString_bind h (bulk_le hstar hp h)
  dsimp only
  split
  · next hs =>
    obtain ⟨s', next', h'⟩ := hget hs
    apply inside_parseBulkString_bind h' (bulk_le hstar (BulkAt.next_lt h) h')
    dsimp only
    split
    · exact inside_reply _
    split
    · exact inside_reply _
    · exact inside_reply _
  · exact inside_reply _

private theorem inside_parseKEYSCommand (hstar : byteAt host input 0 = byte '*') (hp : p < 2 ^ 64)
    {s : Bytes} (h : BulkAt host input p s next) (hlast : 0 < toInt s.length) :
    Inside host input (parseKEYSCommand host input p) := by
  apply inside_parseBulkString_bind h (bulk_le hstar hp h)
  dsimp only
  rw [charAt_eq_pure host (lastIndex_le hlast), Program.pure_bind]
  split
  · trivial
  · exact (inside_perform (by simp)).bind fun _ => inside_reply _

private theorem inside_parseINFOCommand (hstar : byteAt host input 0 = byte '*') (hp : p < 2 ^ 64)
    {s : Bytes} (h : BulkAt host input p s next) : Inside host input (parseINFOCommand input p) := by
  apply inside_parseBulkString_bind h (bulk_le hstar hp h)
  dsimp only
  split
  · exact (inside_getInfo _).bind fun _ => (inside_getInfo _).bind fun _ =>
      (inside_getInfo _).bind fun _ => (inside_getInfo _).bind fun _ =>
      (inside_getInfo _).bind fun _ => (inside_getInfo _).bind fun _ =>
      (inside_getInfo _).bind fun _ => (inside_getInfo _).bind fun _ =>
      (inside_getInfo _).bind fun _ => inside_reply _
  · exact inside_reply _

/-- What a SET does before it looks at the byte behind it. -/
private theorem inside_setHead_bind (hstar : byteAt host input 0 = byte '*') (hp : p < 2 ^ 64)
    {k v : Bytes} {px : Option ℤ} {f : ℕ → Parser Unit}
    (hargs : SetArguments host input p n k v px next) (hf : Inside host input (f next)) :
    Inside host input (setHead input p n >>= f) := by
  rw [setHead, Program.bind_assoc]
  cases hargs with
  | plain hn hk hv =>
    apply inside_parseBulkString_bind hk (bulk_le hstar hp hk)
    dsimp only
    rw [Program.bind_assoc]
    apply inside_parseBulkString_bind hv (bulk_le hstar (BulkAt.next_lt hk) hv)
    rw [parseExpiry, if_neg (by omega)]
    exact ⟨by simp, fun _ => ⟨by simp, fun _ => hf⟩⟩
  | @expiring px e ms p₁ p₂ p₃ _ hn hk hv hpx he hms =>
    apply inside_parseBulkString_bind hk (bulk_le hstar hp hk)
    dsimp only
    rw [Program.bind_assoc]
    apply inside_parseBulkString_bind hv (bulk_le hstar (BulkAt.next_lt hk) hv)
    dsimp only
    rw [parseExpiry, if_pos hn, Program.bind_assoc, Program.bind_assoc]
    apply inside_parseBulkString_bind hpx (bulk_le hstar (BulkAt.next_lt hv) hpx)
    dsimp only
    rw [Program.bind_assoc]
    apply inside_parseBulkString_bind he (bulk_le hstar (BulkAt.next_lt hpx) he)
    rw [hms]
    exact ⟨by simp, fun _ => ⟨by simp, fun _ => ⟨by simp, fun _ => hf⟩⟩⟩

private theorem inside_parseSETCommand (hends : EndsInside host input)
    (hchain : Relation.ReflTransGen (Next host input) 0 pos)
    (hcmd : CommandAt host input pos n (str "SET") p) {k v : Bytes} {px : Option ℤ}
    (hargs : SetArguments host input p n k v px next) :
    Inside host input (parseSETCommand input p n) := by
  have hSET : SetAt host input pos k v px next := ⟨n, p, hcmd, hargs⟩
  have hnext : next ≤ input.length := by
    obtain ⟨length, lineEnd, hline, rfl⟩ := exists_lastLine_of_setAt hSET
    exact hends.sets pos length lineEnd hchain hline
  rw [parseSETCommand_eq]
  apply inside_setHead_bind (chain_star hchain hcmd) (CommandAt.next_lt hcmd) hargs
  rw [setTail, charAt_eq_pure host hnext, Program.pure_bind]
  split
  · next hbyte =>
    refine ⟨fun q hq => ?_, inside_setEnd⟩
    cases hq
    exact hchain.tail ⟨⟨k, v, px, hSET⟩, hbyte⟩
  · exact inside_setEnd

theorem inside_dispatch (hends : EndsInside host input)
    (hchain : Relation.ReflTransGen (Next host input) 0 pos)
    (hcmd : CommandAt host input pos n name p) (hargs : Arguments host input name n p) :
    Inside host input (dispatch host clientFd input n name p) := by
  have hstar := chain_star hchain hcmd
  have hp := CommandAt.next_lt hcmd
  unfold dispatch
  split
  · next hn =>
    subst hn
    obtain ⟨s, next, h⟩ := (arguments_bulk (.inl rfl)).mp hargs
    exact inside_parseECHOCommand hstar hp h
  split
  · exact inside_reply _
  split
  · next hn =>
    subst hn
    obtain ⟨k, v, px, next, h⟩ := arguments_set.mp hargs
    exact inside_parseSETCommand hends hchain hcmd h
  split
  · next hn =>
    subst hn
    obtain ⟨s, next, h⟩ := (arguments_bulk (.inr (.inl rfl))).mp hargs
    exact inside_parseGETCommand hstar hp h
  split
  · next hn =>
    subst hn
    obtain ⟨s, next, h, hget⟩ := arguments_config.mp hargs
    exact inside_parseCONFIGGETCommand hstar hp h hget
  split
  · next hn =>
    subst hn
    obtain ⟨s, ⟨next, h⟩, -⟩ := arguments_keys.mp hargs
    exact inside_parseKEYSCommand hstar hp h (hends.keys pos n p s next hchain hcmd h)
  split
  · next hn =>
    subst hn
    obtain ⟨s, next, h⟩ := (arguments_bulk (.inr (.inr rfl))).mp hargs
    exact inside_parseINFOCommand hstar hp h
  split
  · exact inside_reply _
  split
  · exact inside_parsePSYNCCommand
  · exact inside_reply _

/-- The bodies of the procedures that a chain of handled commands calls. -/
theorem inside_body (hends : EndsInside host input)
    (hhandled : ∀ q, Relation.ReflTransGen (Next host input) 0 q → Handled host input q) (f : Proc)
    (hf : ∀ q, f = .parseRESPCommand q → Relation.ReflTransGen (Next host input) 0 q) :
    Inside host input ((parser host clientFd input).body f) := by
  cases f with
  | propagate i => exact inside_propagate i
  | parseRESPCommand q =>
    have hchain := hf q rfl
    refine ⟨nofun, fun _ => ?_⟩
    rw [charAt_eq_pure host (hends.chain_le hchain), Program.pure_bind]
    rcases hhandled q hchain with hstar | ⟨n, name, p, hcmd, hargs⟩
    · rw [if_pos hstar]
      exact ⟨nofun, fun _ => trivial⟩
    · rw [if_neg (by simpa using hcmd.1), parseCommandName_eq_pure hcmd (CommandAt.name_le hchain hcmd)]
      exact inside_dispatch hends hchain hcmd hargs

end Body

/-- The parser comes to every command of a chain. -/
theorem reaches_chain {p : ℕ} (hchain : Relation.ReflTransGen (Next host input) pos p) (st : Store)
    (ks : List (Parser Unit)) : ∃ tr ks' st', Reaches (parser host clientFd input)
      ⟨parseRESPCommand host clientFd input pos, ks⟩ st tr
      ⟨parseRESPCommand host clientFd input p, ks'⟩ st' := by
  induction hchain using Relation.ReflTransGen.head_induction_on generalizing st ks with
  | refl => exact ⟨[], ks, st, .refl _ _⟩
  | head hnext _ ih =>
    obtain ⟨⟨k, v, px, hset⟩, hnext⟩ := hnext
    obtain ⟨tr, -, hr⟩ := @reaches_next _ clientFd _ _ _ st _ _ _ hset hnext ks
    obtain ⟨tr', ks', st', hr'⟩ := ih (afterSet host k v px st) (setEnd :: ks)
    exact ⟨tr ++ tr', ks', st', hr.trans hr'⟩

/-- The parser comes to the subscript at the end of the pattern of KEYS. -/
theorem reaches_lastChar {p : ℕ} {s : Bytes} (hcmd : CommandAt host input pos n (str "KEYS") p)
    (h : BulkAt host input p s next) (st : Store) (ks : List (Parser Unit)) : ∃ tr f,
    Reaches (parser host clientFd input) ⟨parseRESPCommand host clientFd input pos, ks⟩ st tr
      ⟨charAt s (sizeT (toInt s.length - 1)) >>= f, ks⟩ st := by
  obtain ⟨tr₁, -, h₁⟩ : Decodes (parser host clientFd input) (charAt input pos) st _ :=
    decodes_charAt input pos
  obtain ⟨tr₂, -, h₂⟩ : Decodes (parser host clientFd input) _ st _ :=
    decodes_parseCommandName hcmd
  obtain ⟨tr₃, -, h₃⟩ : Decodes (parser host clientFd input) _ st _ := decodes_parseBulkString h
  have hname : Reaches (parser host clientFd input)
      ⟨parseRESPCommand host clientFd input pos, ks⟩ st (.awaitCommunicationLoop :: (tr₁ ++ tr₂))
      ⟨parseKEYSCommand host input p, ks⟩ st := by
    refine .performs rfl ((Reaches.of_exec h₁ _ ks).trans ?_)
    rw [if_neg (by simpa using hcmd.1)]
    exact Reaches.of_exec h₂ _ ks
  obtain ⟨f, hf⟩ : ∃ f : Bytes × ℕ → UInt8 → Parser Unit, parseKEYSCommand host input p =
      parseBulkString input p >>= fun x => charAt x.1 (sizeT (toInt x.1.length - 1)) >>= f x :=
    ⟨_, rfl⟩
  rw [hf] at hname
  exact ⟨_, _, hname.trans (Reaches.of_exec h₃ _ ks)⟩

/-- A subscript that the parser comes to is in range. -/
theorem InRange.le_length (h : InRange host clientFd input) {s : Bytes} {i : ℕ} {tr : List Op}
    {f : UInt8 → Parser Unit} {ks : List (Parser Unit)} {st' : Store}
    (hr : Reaches (parser host clientFd input) (.start (parseRESPCommand host clientFd input 0)) st
      tr ⟨charAt s i >>= f, ks⟩ st') : i ≤ s.length := by
  by_contra hi
  rw [charAt_eq_readOutside (by omega)] at hr
  exact h _ _ _ _ (hr.snoc_performs rfl) s i (by simp)

theorem InRange.endsInside (h : InRange host clientFd input) (hlen : input.length ≤ maxSize) :
    EndsInside host input := by
  refine ⟨fun pos length lineEnd hchain hline => ?_, fun pos n p s next hchain hcmd hs => ?_⟩
  · obtain ⟨k, v, px, hset⟩ := exists_setAt_of_lastLine hline
    obtain ⟨tr, ks, st, hr⟩ := @reaches_chain host clientFd _ _ _ hchain (.empty []) []
    obtain ⟨tr', -, hr'⟩ := @reaches_setTail host clientFd _ _ _ st _ _ _ hset ks
    exact h.le_length (hr.trans hr')
  · obtain ⟨tr, ks, st, hr⟩ := @reaches_chain host clientFd _ _ _ hchain (.empty []) []
    obtain ⟨tr', f, hr'⟩ := @reaches_lastChar host clientFd _ _ _ _ _ _ hcmd hs st ks
    have hle := h.le_length (hr.trans hr')
    by_contra hlast
    have hlt := length_lt_lastIndex (not_lt.mp hlast) ((BulkAt.length_le hs).trans hlen)
    omega

theorem EndsInside.inRange (hends : EndsInside host input)
    (hhandled : ∀ q, Relation.ReflTransGen (Next host input) 0 q → Handled host input q) :
    InRange host clientFd input := by
  intro st tr t st' hr s i hmem
  have hbody := @inside_body host clientFd input hends hhandled
  have hfirst := hbody (.parseRESPCommand 0) fun q hq => by cases hq; exact .refl
  exact hr.always hbody hfirst nofun _ hmem s i rfl

/-- On a buffer without exceptions every subscript is in range exactly when every SET on
the chain ends inside the buffer and KEYS, if the chain leads there, has a pattern. -/
theorem inRange_iff (hnever : ∀ st tr e st', ¬ Handles host clientFd input st tr (.error e) st')
    (hlen : input.length ≤ maxSize) : InRange host clientFd input ↔ EndsInside host input := by
  refine ⟨fun h => h.endsInside hlen, fun h => h.inRange fun q hchain => ?_⟩
  by_contra hq
  obtain ⟨tr, e, st', hx⟩ := @throws_of_chain host clientFd _ _ _ hchain hq (.empty [])
  exact hnever _ tr e st' hx

section SingleSet

/-- The chain of a buffer with one SET and no asterisk behind it. -/
private theorem chain_eq_zero {k v q : Bytes} {px : Option ℤ} {p : ℕ}
    (hset : SetAt host q 0 k v px next) (hbyte : byteAt host q next ≠ byte '*')
    (hchain : Relation.ReflTransGen (Next host q) 0 p) : p = 0 := by
  rcases hchain.cases_head with rfl | ⟨_, ⟨⟨k', v', px', hset'⟩, hbyte'⟩, -⟩
  · rfl
  · obtain ⟨-, -, -, rfl⟩ := hset.unique hset'
    exact absurd hbyte' hbyte

private theorem handled_setAt {k v : Bytes} {px : Option ℤ} (hset : SetAt host input pos k v px next) :
    Handled host input pos := by
  obtain ⟨n, p, hcmd, hargs⟩ := hset
  exact .inr ⟨n, _, p, hcmd, arguments_set.mpr ⟨k, v, px, next, hargs⟩⟩

private theorem never_of_setAt {k v : Bytes} {px : Option ℤ} (hset : SetAt host input 0 k v px next)
    (hbyte : byteAt host input next ≠ byte '*') (st : Store) (tr : List Op) (e : Exception)
    (st' : Store) : ¬ Handles host clientFd input st tr (.error e) st' := by
  apply not_throws_of_handled tr
  intro p hchain
  rw [chain_eq_zero hset hbyte hchain]
  exact handled_setAt hset

def completeSet : Bytes := createArrayReponse [str "SET", str "k", str "v"]

theorem inRange_iff_of_complete : InRange .plain 5 completeSet := by
  have hcall : SetCommand [str "SET", str "k", str "v"] ⟨str "k", str "v", none⟩ :=
    .plain (by decide)
  have hset : SetAt .plain completeSet 0 (str "k") (str "v") none (0 + completeSet.length) :=
    setAt_of_setCommand .plain hcall (createArrayReponse_request _) ⟨by decide, by decide⟩
      (by decide) ⟨[], [], rfl, rfl⟩
  have hbyte : byteAt .plain completeSet (0 + completeSet.length) ≠ byte '*' := by decide
  refine (inRange_iff (never_of_setAt hset hbyte) (by decide)).mpr ⟨?_, ?_⟩
  · intro pos length lineEnd hchain hline
    rw [chain_eq_zero hset hbyte hchain] at hline
    obtain ⟨k, v, px, hset'⟩ := exists_setAt_of_lastLine hline
    obtain ⟨-, -, -, hend⟩ := hset.unique hset'
    rw [← hend, zero_add]
  · intro pos n p s next hchain hcmd _
    rw [chain_eq_zero hset hbyte hchain] at hcmd
    obtain ⟨_, _, hcmd', -⟩ := hset
    obtain ⟨-, hname, -⟩ := hcmd.unique hcmd'
    cases hname

/-- The value of this SET was cut after two of five bytes. -/
def cutValue : Bytes := str "*3\r\n$3\r\nSET\r\n$1\r\nk\r\n$5\r\nab"

/-- A SET that was cut inside its value throws nothing and looks up a byte behind the
buffer. -/
theorem cut_value_reads_outside :
    ¬ ∀ (host : Host) (clientFd : ℤ) (input : Bytes), input.length ≤ maxSize →
      (∀ st tr e st', ¬ Handles host clientFd input st tr (.error e) st') →
      InRange host clientFd input := by
  intro h
  have hname : BulkAt .plain cutValue 4 (str "SET") 13 :=
    ⟨by decide, 3, 6, ⟨by decide, by decide, by decide⟩, by decide, by decide, by decide⟩
  have hkey : BulkAt .plain cutValue 13 (str "k") 20 :=
    ⟨by decide, 1, 15, ⟨by decide, by decide, by decide⟩, by decide, by decide, by decide⟩
  have hvalue : BulkAt .plain cutValue 20 (str "ab") 31 :=
    ⟨by decide, 5, 22, ⟨by decide, by decide, by decide⟩, by decide, by decide, by decide⟩
  have hset : SetAt .plain cutValue 0 (str "k") (str "ab") none 31 :=
    ⟨3, 13, ⟨by decide, 2, _, ⟨by decide, by decide, by decide⟩, hname, by decide⟩,
      .plain (by decide) hkey hvalue⟩
  have hin := h .plain 5 cutValue (by decide) (never_of_setAt hset (by decide))
  obtain ⟨tr, -, hr⟩ := @reaches_setTail .plain 5 _ _ _ (.empty []) _ _ _ hset []
  exact absurd (hin.le_length hr) (by decide)

end SingleSet

end RedisServer.SubscriptRanges
