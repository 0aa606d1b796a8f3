import RedisServer.CommandRuns
import RedisServer.CursorBounds
import RedisServer.RequestFailures

/-!
# Whether handling a buffer comes to an end

A SET calls the parser again at the position its cursor ends at. That position is computed
from an announced length, which may be negative, and from a line end, which may be missing,
so the call need not start behind the SET that makes it.
-/

namespace RedisServer.ChainProgress
open ByteStrings CxxStrings RespGrammar InteractionPrograms ServerState Utils RedisParser
open ParserDiscipline RequestChain RequestRuns RequestDecoding RequestFailures CommandEffects
open CommandRuns CursorBounds

/-- Some run of the parser at `pos` comes to a call of its own to the parser at `next`. -/
def Calls (host : Host) (clientFd : ℤ) (input : Bytes) (pos next : ℕ) : Prop :=
  ∃ st st', ComesTo (parser host clientFd input) (parseRESPCommand host clientFd input pos) st
    (.parseRESPCommand next) st'

/-- The parser is called at a position by `depth` calls that are nested in one another. -/
inductive Nested (host : Host) (clientFd : ℤ) (input : Bytes) : ℕ → ℕ → Prop where
  | start : Nested host clientFd input 0 0
  | call {depth pos next} (h : Nested host clientFd input depth pos)
      (hcall : Calls host clientFd input pos next) : Nested host clientFd input (depth + 1) next

/-- Nested calls start at growing positions, and so handling the buffer ends within bounds. -/
structure Bounded (host : Host) (clientFd : ℤ) (input : Bytes) : Prop where
  increasing : ∀ depth pos next, Nested host clientFd input depth pos →
    Calls host clientFd input pos next → pos < next
  depth : ∀ depth pos, Nested host clientFd input depth pos → depth ≤ input.length
  ends : ∀ st, ∃ tr r st', Handles host clientFd input st tr r st' ∧
    (messages tr).length ≤ input.length

/-- Every SET of the chain that hands over to a command announces, as the length of its last
string, enough to end behind its own beginning. -/
def StepsForward (host : Host) (input : Bytes) : Prop :=
  ∀ pos length lineEnd, Relation.ReflTransGen (Next host input) 0 pos →
    LastLine host input pos length lineEnd → byteAt host input (bulkEnd length lineEnd) = byte '*' →
    pos < bulkEnd length lineEnd

variable {host : Host} {clientFd : ℤ} {input : Bytes} {pos next : ℕ} {st st' : Store}

section Calls

private theorem callless_setHead (input : Bytes) (pos : ℕ) (n : ℤ) :
    (setHead input pos n).Always (fun _ => True) (fun _ => False) :=
  always_setHead (fun _ _ => trivial) (fun _ _ => trivial) trivial input pos n

/-- In a sequence whose first part is decoded, a call is made by what follows. -/
private theorem comesTo_of_decodes {α : Type} {p : Parser α} {f : α → Parser Unit} {a : α} {g : Proc}
    (hq : Queries p) (h : Decodes (parser host clientFd input) p st a) :
    ComesTo (parser host clientFd input) (p >>= f) st g st' ↔
      ComesTo (parser host clientFd input) (f a) st g st' := by
  obtain ⟨tr, -, hp⟩ := h
  rw [ComesTo.bind_iff hq]
  constructor
  · rintro ⟨tr', a', st₁, hp', hf⟩
    obtain ⟨-, ha, rfl⟩ := hp'.deterministic hp
    cases ha
    exact hf
  · exact fun hf => ⟨tr, a, st, hp, hf⟩

/-- What follows the message of a SET calls no parser. -/
private theorem not_comesTo_setEnd :
    ¬ ComesTo (parser host clientFd input) setEnd st (.parseRESPCommand next) st' := by
  intro hx
  obtain ⟨i, hi⟩ := hx.always (always_setEnd (fun _ _ => trivial) trivial)
  cases hi

/-- A SET calls the parser where its cursor ends, if a command begins there. -/
private theorem eq_of_comesTo_setTail {last : ℕ} (hx : ComesTo (parser host clientFd input)
    (setTail input last) st (.parseRESPCommand next) st') :
    last = next ∧ byteAt host input last = byte '*' := by
  rw [setTail, comesTo_of_decodes (queries_charAt input last) (decodes_charAt input last)] at hx
  split at hx
  · next hbyte =>
    cases hx with
    | call => exact ⟨rfl, hbyte⟩
    | after _ rest => exact absurd rest not_comesTo_setEnd
  · exact absurd hx not_comesTo_setEnd

private theorem next_of_comesTo_set {n : ℤ} {p : ℕ} (hcmd : CommandAt host input pos n (str "SET") p)
    (hx : ComesTo (parser host clientFd input) (parseSETCommand input p n) st
      (.parseRESPCommand next) st') : Next host input pos next := by
  rw [parseSETCommand_eq, ComesTo.bind_iff (callless_setHead input p n)] at hx
  obtain ⟨tr, last, st₁, hhead, hx⟩ := hx
  obtain ⟨rfl, hbyte⟩ := eq_of_comesTo_setTail hx
  by_cases hargs : ∃ k v px next, SetArguments host input p n k v px next
  · obtain ⟨k, v, px, next', hargs⟩ := hargs
    obtain ⟨tr', -, hhead'⟩ : Assigns (parser host clientFd input) _ _ _ _ _ _ :=
      assigns_setHead hargs
    cases (hhead.deterministic hhead').2.1
    exact ⟨⟨k, v, px, n, p, hcmd, hargs⟩, hbyte⟩
  · obtain ⟨tr', e, st₂, -, hthrow⟩ := @rejects_setHead host clientFd input p _ n hargs
    cases (hhead.deterministic hthrow).2.1

private theorem next_of_comesTo_dispatch {n : ℤ} {name : Bytes} {p : ℕ}
    (hcmd : CommandAt host input pos n name p) (hx : ComesTo (parser host clientFd input)
      (dispatch host clientFd input n name p) st (.parseRESPCommand next) st') :
    Next host input pos next := by
  by_cases hname : name = str "SET"
  · subst hname
    rw [dispatch_set] at hx
    exact next_of_comesTo_set hcmd hx
  · have halways : (dispatch host clientFd input n name p).Always (fun _ => True)
        (fun _ => False) :=
      always_dispatch (fun _ _ => trivial) trivial hname
        (fun _ => ⟨fun _ => trivial, fun _ => trivial⟩)
        (fun _ => ⟨fun _ => trivial, fun _ => trivial⟩) (fun _ _ => trivial)
    exact (hx.always halways).elim

theorem next_of_calls (h : Calls host clientFd input pos next) : Next host input pos next := by
  obtain ⟨st, st', hx⟩ := h
  cases hx with
  | op hx =>
    have hx : ComesTo (parser host clientFd input) (charAt input pos >>= fun c =>
        if c ≠ byte '*' then communicationOver else parseCommandName input pos >>= fun x =>
          dispatch host clientFd input x.1 x.2.1 x.2.2) st _ st' := hx
    rw [comesTo_of_decodes (queries_charAt input pos) (decodes_charAt input pos)] at hx
    split at hx
    · cases hx with
      | op hx => cases hx
    · next hstar =>
      rw [not_not] at hstar
      by_cases hcmd : ∃ n name p, CommandAt host input pos n name p
      · obtain ⟨n, name, p, hcmd⟩ := hcmd
        rw [comesTo_of_decodes (queries_parseCommandName input pos)
          (decodes_parseCommandName hcmd)] at hx
        exact next_of_comesTo_dispatch hcmd hx
      · obtain ⟨tr, e, st₂, -, hthrow⟩ :=
          @rejects_parseCommandName host clientFd input input pos st hstar hcmd
        rw [ComesTo.bind_iff (queries_parseCommandName input pos)] at hx
        obtain ⟨tr', a, st₁, hname, -⟩ := hx
        cases (hname.deterministic hthrow).2.1

theorem calls_of_next (h : Next host input pos next) : Calls host clientFd input pos next := by
  obtain ⟨⟨k, v, px, n, p, hcmd, hargs⟩, hbyte⟩ := h
  obtain ⟨tr, -, hhead⟩ : Assigns (parser host clientFd input) _ (Store.empty []) _ _ _ _ :=
    assigns_setHead hargs
  refine ⟨.empty [], afterSet host k v px (.empty []), .op ?_⟩
  apply (comesTo_of_decodes (queries_charAt input pos) (decodes_charAt input pos)).mpr
  rw [if_neg (by simpa using hcmd.1)]
  refine (comesTo_of_decodes (queries_parseCommandName input pos)
    (decodes_parseCommandName hcmd)).mpr ?_
  dsimp only
  rw [dispatch_set, parseSETCommand_eq]
  refine (ComesTo.bind_iff (callless_setHead input p n)).mpr ⟨tr, next, _, hhead, ?_⟩
  apply (comesTo_of_decodes (queries_charAt input next) (decodes_charAt input next)).mpr
  rw [if_pos hbyte]
  exact .call _ _ _

/-- The parser calls itself exactly along the chain of SETs. -/
theorem calls_iff : Calls host clientFd input pos next ↔ Next host input pos next :=
  ⟨next_of_calls, calls_of_next⟩

theorem nested_of_chain (h : Relation.ReflTransGen (Next host input) 0 pos) :
    ∃ depth, Nested host clientFd input depth pos := by
  induction h with
  | refl => exact ⟨0, .start⟩
  | tail _ hnext ih =>
    obtain ⟨depth, hdepth⟩ := ih
    exact ⟨depth + 1, .call hdepth (calls_iff.mpr hnext)⟩

theorem chain_of_nested {depth : ℕ} (h : Nested host clientFd input depth pos) :
    Relation.ReflTransGen (Next host input) 0 pos := by
  induction h with
  | start => exact .refl
  | call _ hcall ih => exact ih.tail (calls_iff.mp hcall)

end Calls

section Ends

theorem StepsForward.lt (h : StepsForward host input)
    (hchain : Relation.ReflTransGen (Next host input) 0 pos) (hnext : Next host input pos next) :
    pos < next := by
  obtain ⟨⟨k, v, px, hset⟩, hbyte⟩ := hnext
  obtain ⟨length, lineEnd, hline, rfl⟩ := exists_lastLine_of_setAt hset
  exact h pos length lineEnd hchain hline hbyte

/-- From every position of a chain that steps forward the parser has a run, with no more
messages than bytes behind the position. -/
theorem StepsForward.exists_exec (h : StepsForward host input) (clientFd : ℤ)
    (hchain : Relation.ReflTransGen (Next host input) 0 pos) (st : Store) : ∃ tr r st',
    Exec (parser host clientFd input) (parseRESPCommand host clientFd input pos) st tr r st' ∧
      (messages tr).length ≤ input.length - pos := by
  -- the positions of the chain grow and stay below the length of the buffer
  induction hrest : input.length - pos using Nat.strong_induction_on generalizing pos st with
  | _ rest ih =>
    by_cases hhandled : Handled host input pos
    · rcases hhandled with hstar | ⟨n, name, p, hcmd, hargs⟩
      · obtain ⟨tr, htr, hx⟩ := @exec_stray host clientFd input pos st hstar
        have hover : messages [Op.communicationOver] = [] := rfl
        exact ⟨_, _, _, hx, by simp [htr, hover]⟩
      · have hlt := chain_succ_lt hchain hcmd
        by_cases hname : name = str "SET"
        · subst hname
          obtain ⟨k, v, px, next, hset⟩ := arguments_set.mp hargs
          have hset : SetAt host input pos k v px next := ⟨n, p, hcmd, hset⟩
          by_cases hbyte : byteAt host input next = byte '*'
          · have hnext : Next host input pos next := ⟨⟨k, v, px, hset⟩, hbyte⟩
            have hstep := h.lt hchain hnext
            obtain ⟨tr, r, st', hx, hm⟩ :=
              ih (input.length - next) (by omega) (hchain.tail hnext) (afterSet host k v px st) rfl
            cases r with
            | ok =>
              obtain ⟨tr₁, tr₂, h₁, h₂, hx⟩ := exec_set hset hbyte hx
              exact ⟨_, _, _, hx, by simp [h₁.messages, h₂.messages]; omega⟩
            | error =>
              obtain ⟨tr₁, h₁, hx⟩ := exec_set_throws hset hbyte hx
              exact ⟨_, _, _, hx, by simp [h₁.messages]; omega⟩
          · obtain ⟨tr₁, tr₂, h₁, h₂, hx⟩ := @exec_lastSet host clientFd _ _ _ st _ _ _ hset hbyte
            exact ⟨_, _, _, hx, by simp [h₁.messages, h₂.messages]; omega⟩
        · obtain ⟨tr, st', hrun, hm, -⟩ :=
            @answers_dispatch host clientFd input input p st name n hname hargs
          obtain ⟨reads, hreads, hx⟩ := exec_command hcmd hrun
          refine ⟨_, _, _, hx, ?_⟩
          simp only [messages_await_cons, messages_append, hreads.messages, List.nil_append, hm]
          split <;> omega
    · obtain ⟨tr, e, st', hinert, hx⟩ := @rejects_parseRESPCommand host clientFd input pos st hhandled
      exact ⟨_, _, _, hx, by simp [hinert.messages]⟩

theorem StepsForward.depth_le (h : StepsForward host input) {depth : ℕ}
    (hnested : Nested host clientFd input depth pos) : depth ≤ pos ∧ depth ≤ input.length := by
  induction hnested with
  | start => simp
  | @call depth pos next hnested hcall ih =>
    have hchain := chain_of_nested hnested
    have hnext := calls_iff.mp hcall
    have hlt := h.lt hchain hnext
    obtain ⟨⟨k, v, px, n, p, hcmd, -⟩, -⟩ := hnext
    have hin := chain_succ_lt hchain hcmd
    omega

/-- Handling ends with its calls at growing positions if and only if the announced lengths
lead forward. -/
theorem bounded_iff (host : Host) (clientFd : ℤ) (input : Bytes) :
    Bounded host clientFd input ↔ StepsForward host input := by
  constructor
  · intro h pos length lineEnd hchain hline hbyte
    obtain ⟨k, v, px, hset⟩ := exists_setAt_of_lastLine hline
    obtain ⟨depth, hdepth⟩ := nested_of_chain hchain
    exact h.increasing depth pos _ hdepth (calls_iff.mpr ⟨⟨k, v, px, hset⟩, hbyte⟩)
  · intro h
    exact {
      increasing := fun _ _ _ hnested hcall => h.lt (chain_of_nested hnested) (calls_iff.mp hcall)
      depth := fun _ _ hnested => (h.depth_le hnested).2
      ends := fun st => h.exists_exec clientFd .refl st }

end Ends

section Loop

theorem no_exec_of_loop (h : Next host input pos pos) (st : Store) (tr : List Op)
    (r : Except Exception Unit) (st' : Store) : ¬ Exec (parser host clientFd input)
      (parseRESPCommand host clientFd input pos) st tr r st' := by
  obtain ⟨⟨k, v, px, hset⟩, hbyte⟩ := h
  intro hx
  -- a run contains the run of the call, which is shorter
  induction hlen : tr.length using Nat.strong_induction_on generalizing st tr r st' with
  | _ m ih =>
    obtain ⟨tr₁, htr₁, hr⟩ := @reaches_next host clientFd _ _ _ st _ _ _ hset hbyte []
    have hpos : 0 < tr₁.length := List.length_pos_of_ne_nil (by
      rintro rfl
      cases htr₁.assignments)
    obtain ⟨rem, rfl, hrem⟩ := hx.split hr
    rw [List.length_append] at hlen
    cases hrem with
    | frame hcallee _ =>
      rw [List.length_append] at hlen
      exact ih _ (by omega) _ _ _ _ hcallee rfl
    | frameThrow hcallee => exact ih _ (by omega) _ _ _ _ hcallee rfl

/-- A SET followed by one that was cut behind the digits of its last length. -/
def cutRequest : Bytes :=
  createArrayReponse [str "SET", str "a", str "1"] ++ str "*3\r\n$3\r\nSET\r\n$1\r\nb\r\n$24"

/-- The cut length is added to a missing line end and leads back to the beginning of its own
request, so handling the buffer never ends. -/
theorem cut_request_calls_itself :
    Nested .plain 5 cutRequest 1 27 ∧ Calls .plain 5 cutRequest 27 27 ∧
      ∀ st tr r st', ¬ Handles .plain 5 cutRequest st tr r st' := by
  have hfirst : Next .plain cutRequest 0 27 := by
    refine ⟨⟨str "a", str "1", none, ?_⟩, by decide⟩
    exact setAt_of_setCommand .plain (.plain (by decide)) (createArrayReponse_request _)
      ⟨by decide, by decide⟩ (by decide) ⟨[], _, rfl, rfl⟩
  have hname : BulkAt .plain cutRequest 31 (str "SET") 40 :=
    ⟨by decide, 3, 33, ⟨by decide, by decide, by decide⟩, by decide, by decide, by decide⟩
  have hkey : BulkAt .plain cutRequest 40 (str "b") 47 :=
    ⟨by decide, 1, 42, ⟨by decide, by decide, by decide⟩, by decide, by decide, by decide⟩
  have hvalue : BulkAt .plain cutRequest 47 ((cutRequest.drop 1).take 24) 27 :=
    ⟨by decide, 24, npos, ⟨by decide, by decide, by decide⟩, by decide, rfl, by decide⟩
  have hloop : Next .plain cutRequest 27 27 :=
    ⟨⟨_, _, none, 3, 40, ⟨by decide, 29, _, ⟨by decide, by decide, by decide⟩, hname, by decide⟩,
      .plain (by decide) hkey hvalue⟩, by decide⟩
  refine ⟨.call .start (calls_iff.mpr hfirst), calls_iff.mpr hloop, fun st tr r st' hx => ?_⟩
  obtain ⟨⟨k, v, px, hset⟩, hbyte⟩ := hfirst
  obtain ⟨tr₁, -, hr⟩ := @reaches_next .plain 5 _ _ _ st _ _ _ hset hbyte []
  obtain ⟨rem, rfl, hrem⟩ := hx.split hr
  cases hrem with
  | frame hcallee _ => exact no_exec_of_loop hloop _ _ _ _ hcallee
  | frameThrow hcallee => exact no_exec_of_loop hloop _ _ _ _ hcallee

end Loop

end RedisServer.ChainProgress
