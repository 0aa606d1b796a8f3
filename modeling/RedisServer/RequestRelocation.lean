import RedisServer.ArrayRoundTrip
import RedisServer.CommandRuns
import RedisServer.ReceivedRequests

/-!
# Commands act the same wherever they stand

The handler of a command other than SET reads its arguments and does not look at the
buffer again. So it is the same program wherever the arguments stand, and its run in the
middle of a buffer is its run on the command alone.
-/

namespace RedisServer.RequestRelocation
open ByteStrings CxxStrings RespGrammar InteractionPrograms ServerState Utils RedisParser
open RequestChain RequestDecoding ReceivedRequests ArrayRoundTrip CommandEffects CommandRuns

/-- From `pos` on the elements `ss` are decoded one after another. -/
inductive Elements (input : Bytes) : ℕ → List Bytes → Prop where
  | nil {pos} : Elements input pos []
  | cons {pos next s ss} (h : parseBulkString input pos = .pure (s, next))
      (rest : Elements input next ss) : Elements input pos (s :: ss)

theorem Elements.of_received {input body : Bytes} {ss : List Bytes} {pos : ℕ}
    (h : Received input pos body) (hs : BulkStrings ss body) (hfit : ∀ s ∈ ss, s.length + 2 ≤ intMax)
    (hlen : input.length ≤ maxSize) : Elements input pos (seen ss) := by
  induction hs generalizing pos with
  | nil => exact .nil
  | @cons s e ss es hs _ ih =>
    obtain ⟨hfit, hfits⟩ := List.forall_mem_cons.mp hfit
    have hpos := h.standsAt.length_le
    have hread := parseBulkString_eq_pure (@Received.bulkAt .plain _ _ _ _ h.left hs hfit hlen).1 (by omega)
    rw [seen]
    split
    · exact .cons hread .nil
    · next hzero =>
      rw [recvStr_eq_self hzero] at hread
      exact .cons hread (ih (h.right (mt (zero_mem_bulkString_iff hs).mp hzero)) hfits)

/-- The arguments that the handler of the command reads are there. -/
structure Supplied (name : Bytes) (args : List Bytes) : Prop where
  one : name = str "ECHO" ∨ name = str "GET" ∨ name = str "CONFIG" ∨ name = str "KEYS" ∨
    name = str "INFO" → 1 ≤ args.length
  two : name = str "CONFIG" → args.headI.map toUpper = str "GET" → 2 ≤ args.length

section Dispatch

variable {host : Host} {clientFd : ℤ} {input input' : Bytes} {n n' : ℤ} {name : Bytes}
  {args : List Bytes} {p p' : ℕ}

theorem Elements.exists_of_pos (h : Elements input p args) (hlen : 1 ≤ args.length) :
    ∃ next, parseBulkString input p = .pure (args.headI, next) ∧ Elements input next args.tail := by
  cases h with
  | nil => simp at hlen
  | cons h rest => exact ⟨_, h, rest⟩

/-- Handlers of commands other than SET depend on the arguments alone. -/
theorem dispatch_relocate (h : Elements input p args) (h' : Elements input' p' args)
    (hsup : Supplied name args) (hset : name ≠ str "SET") :
    dispatch host clientFd input n name p = dispatch host clientFd input' n' name p' := by
  have hfirst : 1 ≤ args.length → ∃ next next', parseBulkString input p = .pure (args.headI, next) ∧
      parseBulkString input' p' = .pure (args.headI, next') ∧
      Elements input next args.tail ∧ Elements input' next' args.tail := fun hlen => by
    obtain ⟨next, hp, hrest⟩ := h.exists_of_pos hlen
    obtain ⟨next', hp', hrest'⟩ := h'.exists_of_pos hlen
    exact ⟨next, next', hp, hp', hrest, hrest'⟩
  by_cases hecho : name = str "ECHO"
  · subst hecho
    obtain ⟨_, _, hp, hp', -⟩ := hfirst (hsup.one (.inl rfl))
    have h₁ : parseECHOCommand input p = parseECHOCommand input' p' := by
      simp only [parseECHOCommand, hp, hp', Program.pure_bind]
    exact h₁
  by_cases hget : name = str "GET"
  · subst hget
    obtain ⟨_, _, hp, hp', -⟩ := hfirst (hsup.one (.inr (.inl rfl)))
    have h₁ : parseGETCommand input p = parseGETCommand input' p' := by
      simp only [parseGETCommand, hp, hp', Program.pure_bind]
    exact h₁
  by_cases hconfig : name = str "CONFIG"
  · subst hconfig
    obtain ⟨next, next', hp, hp', hrest, hrest'⟩ := hfirst (hsup.one (.inr (.inr (.inl rfl))))
    have h₁ : parseCONFIGGETCommand host input p = parseCONFIGGETCommand host input' p' := by
      by_cases hcall : args.headI.map toUpper = str "GET"
      · have htwo := hsup.two rfl hcall
        obtain ⟨_, hp₂, -⟩ := hrest.exists_of_pos (by simp; omega)
        obtain ⟨_, hp₂', -⟩ := hrest'.exists_of_pos (by simp; omega)
        simp only [parseCONFIGGETCommand, hp, hp', hp₂, hp₂', Program.pure_bind]
      · simp only [parseCONFIGGETCommand, hp, hp', hcall, Program.pure_bind, if_false]
    exact h₁
  by_cases hkeys : name = str "KEYS"
  · subst hkeys
    obtain ⟨_, _, hp, hp', -⟩ := hfirst (hsup.one (.inr (.inr (.inr (.inl rfl)))))
    have h₁ : parseKEYSCommand host input p = parseKEYSCommand host input' p' := by
      rw [parseKEYSCommand, parseKEYSCommand, hp, hp', Program.pure_bind, Program.pure_bind]
    exact h₁
  by_cases hinfo : name = str "INFO"
  · subst hinfo
    obtain ⟨_, _, hp, hp', -⟩ := hfirst (hsup.one (.inr (.inr (.inr (.inr rfl)))))
    have h₁ : parseINFOCommand input p = parseINFOCommand input' p' := by
      simp only [parseINFOCommand, hp, hp', Program.pure_bind]
    exact h₁
  simp only [dispatch, hecho, hset, hget, hconfig, hkeys, hinfo, if_false]

/-- Where a received request stands, the parser runs its handler on the arguments that are seen. -/
theorem parseRESPCommand_of_received (host : Host) (clientFd : ℤ) {e : Bytes} {pos : ℕ}
    (h : Received input pos e) (hr : Request (name :: args) e) (hfit : Fits (name :: args))
    (hname : (0 : UInt8) ∉ name) (hlen : input.length ≤ maxSize) : ∃ p, Elements input p (seen args) ∧
      parseRESPCommand host clientFd input pos = .op Op.awaitCommunicationLoop fun _ =>
        dispatch host clientFd input (args.length + 1) (name.map toUpper) p := by
  obtain ⟨hds, hs⟩ := hr
  rename_i ds _
  cases hs with
  | @cons _ e₁ _ body hbulk hargs =>
    have hcut : Received input pos ((byte '*' :: (ds ++ crlf)) ++ (e₁ ++ body)) := by simpa using h
    have hheader : (0 : UInt8) ∉ byte '*' :: (ds ++ crlf) := by
      have hdigits := Numeral.zero_notMem hds
      have hcrlf : (0 : UInt8) ∉ crlf := by decide
      have hstar : (0 : UInt8) ≠ byte '*' := by decide
      simp [hdigits, hcrlf, hstar]
    have he₁ := mt (zero_mem_bulkString_iff hbulk).mp hname
    have hat := hcut.left.whole hheader
    have hrest := hcut.right hheader
    have hnext : pos + (byte '*' :: (ds ++ crlf)).length = pos + 1 + ds.length + 2 := by
      simp [crlf]
      omega
    have hstar : charAt input pos = .pure (byte '*') := charAt_of_standsAt hat
    have hcount := parseArrayHeader_of_numeral hds hfit.count hlen hat
    have hread := parseBulkString_of_bulkString hbulk (hfit.lengths name List.mem_cons_self) hlen
      (hrest.left.whole he₁)
    rw [hnext] at hread hrest
    refine ⟨_, Elements.of_received (hrest.right he₁) hargs
      (fun s hs => hfit.lengths s (List.mem_cons_of_mem _ hs)) hlen, ?_⟩
    simp only [parseRESPCommand, hstar, parseCommandName_eq, hcount, hread, Program.pure_bind,
      Program.pure_eq, ne_eq, not_true_eq_false, if_false, List.length_cons, Nat.cast_add, Nat.cast_one]
    rfl

/-- The run of a received request other than SET is the same wherever it stands. -/
theorem exec_relocate {e : Bytes} {pos pos' : ℕ} {st st' : Store} {tr : List Op}
    {r : Except Exception Unit} (h : Received input pos e) (h' : Received input' pos' e)
    (hr : Request (name :: args) e) (hfit : Fits (name :: args)) (hname : (0 : UInt8) ∉ name)
    (hset : name.map toUpper ≠ str "SET") (hsup : Supplied (name.map toUpper) (seen args))
    (hlen : input.length ≤ maxSize) (hlen' : input'.length ≤ maxSize)
    (hx : Exec (parser host clientFd input') (parseRESPCommand host clientFd input' pos') st tr r st') :
    Exec (parser host clientFd input) (parseRESPCommand host clientFd input pos) st tr r st' := by
  obtain ⟨p, hargs, heq⟩ := parseRESPCommand_of_received host clientFd h hr hfit hname hlen
  obtain ⟨p', hargs', heq'⟩ := parseRESPCommand_of_received host clientFd h' hr hfit hname hlen'
  rw [heq'] at hx
  rw [heq, dispatch_relocate hargs hargs' hsup hset]
  have halways : (dispatch host clientFd input' (args.length + 1) (name.map toUpper) p').Always
      (fun _ => True) (fun _ => False) :=
    always_dispatch (fun _ _ => trivial) trivial hset (fun _ => ⟨fun _ => trivial, fun _ => trivial⟩)
      (fun _ => ⟨fun _ => trivial, fun _ => trivial⟩) (fun _ _ => trivial)
  have hstep : (parser host clientFd input').step = (parser host clientFd input).step := rfl
  exact hx.of_step_eq ⟨trivial, fun _ => halways⟩ hstep

end Dispatch

end RedisServer.RequestRelocation
