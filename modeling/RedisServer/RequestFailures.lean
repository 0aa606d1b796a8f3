import RedisServer.RequestRuns
import Mathlib.Logic.Relation

/-!
# When an exception leaves the parser

The handlers call throwing helpers on bytes of the request. Each of them throws exactly
when the request does not have the form that its arguments need, and an exception in a
later command of a pipeline leaves the commands before it as well.
-/

namespace RedisServer.RequestFailures
open ByteStrings CxxStrings InteractionPrograms ServerState Utils RedisParser RequestChain
open RequestRuns

variable {host : Host} {clientFd : ℤ} {input : Bytes} {pos : ℕ} {st : Store}

theorem rejects_parseExpiry {n : ℤ} (hn : 3 < n)
    (h : ¬ ∃ px e ms p₁ next, BulkAt host input pos px p₁ ∧ BulkAt host input p₁ e next ∧
      stoi e = .ok ms) :
    Rejects (parser host clientFd input) (parseExpiry input pos n) st := by
  unfold parseExpiry
  rw [if_pos hn]
  by_cases hpx : ∃ px p₁, BulkAt host input pos px p₁
  · obtain ⟨px, p₁, hpx⟩ := hpx
    apply (decodes_parseBulkString hpx).bind_rejects
    by_cases he : ∃ e next, BulkAt host input p₁ e next
    · obtain ⟨e, next, he⟩ := he
      apply (decodes_parseBulkString he).bind_rejects
      dsimp only
      rw [perform_bind]
      refine Rejects.op rfl (Rejects.bind ?_)
      exact .ofExcept fun ms hms => h ⟨px, e, ms, p₁, next, hpx, he, hms⟩
    · exact (rejects_parseBulkString he).bind
  · exact (rejects_parseBulkString hpx).bind

theorem rejects_setHead {n : ℤ} (h : ¬ ∃ k v px next, SetArguments host input pos n k v px next) :
    Rejects (parser host clientFd input) (setHead input pos n) st := by
  by_cases hk : ∃ k p₁, BulkAt host input pos k p₁
  · obtain ⟨k, p₁, hk⟩ := hk
    apply (decodes_parseBulkString hk).bind_rejects
    by_cases hv : ∃ v p₂, BulkAt host input p₁ v p₂
    · obtain ⟨v, p₂, hv⟩ := hv
      refine (decodes_parseBulkString hv).bind_rejects (Rejects.bind ?_)
      have hn : 3 < n := by
        by_contra hn
        exact h ⟨k, v, none, p₂, .plain (by omega) hk hv⟩
      apply rejects_parseExpiry hn
      rintro ⟨px, e, ms, p₃, next, hpx, he, hms⟩
      exact h ⟨k, v, some ms, next, .expiring hn hk hv hpx he hms⟩
    · exact (rejects_parseBulkString hv).bind
  · exact (rejects_parseBulkString hk).bind

theorem rejects_parseKEYSCommand
    (h : ¬ ∃ s, (∃ next, BulkAt host input pos s next) ∧
      (host.regex (keysRegex s (byteAt host s (sizeT (toInt s.length - 1))))).isSome = true) :
    Rejects (parser host clientFd input) (parseKEYSCommand host input pos) st := by
  by_cases hs : ∃ s next, BulkAt host input pos s next
  · obtain ⟨s, next, hs⟩ := hs
    refine (decodes_parseBulkString hs).bind_rejects <| (decodes_charAt s _).bind_rejects ?_
    have hnone : host.regex (keysRegex s (byteAt host s (sizeT (toInt s.length - 1)))) = none := by
      rw [← Option.not_isSome_iff_eq_none]
      exact fun hsome => h ⟨s, ⟨next, hs⟩, hsome⟩
    rw [hnone]
    exact .throw _
  · exact (rejects_parseBulkString hs).bind

theorem rejects_parseCONFIGGETCommand
    (h : ¬ ∃ s next, BulkAt host input pos s next ∧
      (s.map toUpper = str "GET" → ∃ s' next', BulkAt host input next s' next')) :
    Rejects (parser host clientFd input) (parseCONFIGGETCommand host input pos) st := by
  by_cases hs : ∃ s next, BulkAt host input pos s next
  · obtain ⟨s, next, hs⟩ := hs
    apply (decodes_parseBulkString hs).bind_rejects
    dsimp only
    by_cases hget : s.map toUpper = str "GET"
    · rw [if_pos hget]
      exact (rejects_parseBulkString fun hs' => h ⟨s, next, hs, fun _ => hs'⟩).bind
    · exact absurd ⟨s, next, hs, fun hget' => absurd hget' hget⟩ h
  · exact (rejects_parseBulkString hs).bind

/-- Arguments that do not suit the command make its handler throw. -/
theorem rejects_dispatch {name : Bytes} {n : ℤ} (hargs : ¬ Arguments host input name n pos) :
    Rejects (parser host clientFd input) (dispatch host clientFd input n name pos) st := by
  unfold dispatch
  split
  · next hn =>
    subst hn
    exact (rejects_parseBulkString (mt (arguments_bulk (.inl rfl)).mpr hargs)).bind
  split
  · next hn => subst hn; simp +decide [Arguments] at hargs
  split
  · next hn =>
    subst hn
    rw [parseSETCommand_eq]
    exact (rejects_setHead (mt arguments_set.mpr hargs)).bind
  split
  · next hn =>
    subst hn
    exact (rejects_parseBulkString (mt (arguments_bulk (.inr (.inl rfl))).mpr hargs)).bind
  split
  · next hn =>
    subst hn
    exact rejects_parseCONFIGGETCommand (mt arguments_config.mpr hargs)
  split
  · next hn =>
    subst hn
    exact rejects_parseKEYSCommand (mt arguments_keys.mpr hargs)
  split
  · next hn =>
    subst hn
    exact (rejects_parseBulkString (mt (arguments_bulk (.inr (.inr rfl))).mpr hargs)).bind
  split
  · next hn => subst hn; simp +decide [Arguments] at hargs
  split
  · next hn => subst hn; simp +decide [Arguments] at hargs
  · exact absurd trivial (by simp_all [Arguments])

/-- A request that is not handled at `pos` makes the parser throw there. -/
theorem rejects_parseRESPCommand (h : ¬ Handled host input pos) :
    Rejects (parser host clientFd input) (parseRESPCommand host clientFd input pos) st := by
  have hstar : byteAt host input pos = byte '*' := by
    by_contra hstar
    exact h (.inl hstar)
  refine Rejects.op rfl <| (decodes_charAt input pos).bind_rejects ?_
  rw [if_neg (by simpa using hstar)]
  by_cases hcmd : ∃ n name p, CommandAt host input pos n name p
  · obtain ⟨n, name, p, hcmd⟩ := hcmd
    apply (decodes_parseCommandName hcmd).bind_rejects
    exact rejects_dispatch fun hargs => h (.inr ⟨n, name, p, hcmd, hargs⟩)
  · exact (rejects_parseCommandName hstar hcmd).bind

/-- Where the parser returns, the request is handled. -/
theorem handled_of_ok {st' : Store} {tr : List Op} (hx : Exec (parser host clientFd input)
    (parseRESPCommand host clientFd input pos) st tr (.ok ()) st') : Handled host input pos := by
  by_contra hpos
  obtain ⟨_, _, _, -, hthrow⟩ := @rejects_parseRESPCommand host clientFd input pos st hpos
  cases (hx.deterministic hthrow).2.1

/-- An exception in a later command of the chain leaves the parser. -/
theorem throws_of_chain {p : ℕ} (hchain : Relation.ReflTransGen (Next host input) pos p)
    (h : ¬ Handled host input p) (st : Store) : ∃ tr e st',
    Exec (parser host clientFd input) (parseRESPCommand host clientFd input pos) st tr (.error e)
      st' := by
  induction hchain using Relation.ReflTransGen.head_induction_on generalizing st with
  | refl =>
    obtain ⟨tr, e, st', -, hexec⟩ := @rejects_parseRESPCommand _ clientFd _ _ st h
    exact ⟨tr, e, st', hexec⟩
  | head hnext _ ih =>
    obtain ⟨⟨k, v, px, hset⟩, hnext⟩ := hnext
    obtain ⟨tr, -, hr⟩ := reaches_next st hset hnext []
    obtain ⟨tr', e, st', hexec⟩ := ih (afterSet host k v px st)
    exact ⟨_, e, st', hr.exec_callThrow hexec⟩

/-- If the whole chain is handled, the parser does not throw. -/
theorem not_throws_of_handled (tr : List Op) {e : Exception} {st' : Store}
    (h : ∀ p, Relation.ReflTransGen (Next host input) pos p → Handled host input p) :
    ¬ Exec (parser host clientFd input) (parseRESPCommand host clientFd input pos) st tr (.error e)
      st' := by
  intro hexec
  -- an exception from behind the first command comes after strictly fewer operations
  induction hlen : tr.length using Nat.strong_induction_on generalizing pos st tr with
  | _ m ih =>
    rcases h pos .refl with hstar | ⟨n, name, p, hcmd, hargs⟩
    · obtain ⟨tr', -, hok⟩ := @exec_stray _ clientFd _ _ st hstar
      cases (hexec.deterministic hok).2.1
    · by_cases hname : name = str "SET"
      · subst hname
        obtain ⟨k, v, px, next, hset⟩ := arguments_set.mp hargs
        have hset : SetAt host input pos k v px next := ⟨n, p, hcmd, hset⟩
        by_cases hnext : byteAt host input next = byte '*'
        · obtain ⟨tr₁, htr₁, hr⟩ := @reaches_next _ clientFd _ _ _ st _ _ _ hset hnext []
          obtain ⟨rem, rfl, hrem⟩ := hexec.split hr
          cases hrem with
          | frame _ hend =>
            cases hend with
            | last hend =>
              obtain ⟨_, _, hok⟩ := exec_setEnd _
              cases (hend.deterministic hok).2.1
          | frameThrow hcallee =>
            have hpos : 0 < tr₁.length := List.length_pos_of_ne_nil (by
              rintro rfl
              cases htr₁.assignments)
            have hstep : Next host input pos next := ⟨⟨k, v, px, hset⟩, hnext⟩
            exact ih rem.length (by simp at hlen; omega) rem
              (fun p hp => h p (.head hstep hp)) hcallee rfl
        · obtain ⟨_, _, -, -, hok⟩ := @exec_lastSet _ clientFd _ _ _ st _ _ _ hset hnext
          cases (hexec.deterministic hok).2.1
      · obtain ⟨_, _, hrun, -⟩ :=
          @answers_dispatch _ clientFd input _ _ st _ _ hname hargs
        obtain ⟨_, _, hok⟩ := exec_command hcmd hrun
        cases (hexec.deterministic hok).2.1

/-- From `pos` on, the chain of SETs comes to a command whose arguments do not suit it. -/
def Stops (host : Host) (input : Bytes) (pos : ℕ) : Prop :=
  ∃ p, Relation.ReflTransGen (Next host input) pos p ∧ ¬ Handled host input p

theorem throws_iff_stops (host : Host) (clientFd : ℤ) (input : Bytes) (pos : ℕ) (st : Store) :
    (∃ tr e st', Exec (parser host clientFd input) (parseRESPCommand host clientFd input pos) st tr
      (.error e) st') ↔ Stops host input pos := by
  constructor
  · rintro ⟨tr, e, st', hexec⟩
    by_contra hstops
    exact not_throws_of_handled tr (fun p hchain => by_contra fun hp => hstops ⟨p, hchain, hp⟩) hexec
  · rintro ⟨p, hchain, hp⟩
    exact throws_of_chain hchain hp st

theorem ok_iff_not_stops {st' : Store} {tr : List Op} {r : Except Exception Unit}
    (hx : Exec (parser host clientFd input) (parseRESPCommand host clientFd input pos) st tr r st') :
    r = .ok () ↔ ¬ Stops host input pos := by
  cases r with
  | ok =>
    refine iff_of_true rfl fun hstops => ?_
    obtain ⟨tr', e, st'', hthrows⟩ := (throws_iff_stops host clientFd input pos st).mpr hstops
    cases (hx.deterministic hthrows).2.1
  | error e =>
    exact iff_of_false nofun (not_not.mpr ((throws_iff_stops host clientFd input pos st).mp ⟨_, _, _, hx⟩))

/-- No exception leaves the parser of received bytes exactly when every command that the chain of
SETs leads to is well formed as far as its handler reads it. -/
theorem never_throws_iff (host : Host) (clientFd : ℤ) (received : Bytes) (st : Store) :
    (¬ ∃ tr e st', Handles host clientFd (recvStr received) st tr (.error e) st') ↔
      ∀ p, Relation.ReflTransGen (Next host (recvStr received)) 0 p →
        Handled host (recvStr received) p := by
  rw [show (∃ tr e st', Handles host clientFd (recvStr received) st tr (.error e) st') ↔ _ from
    throws_iff_stops host clientFd (recvStr received) 0 st, Stops]
  push Not
  rfl

/-- An array header without a number is enough to end the process. -/
theorem empty_header_throws :
    ¬ ∀ (host : Host) (clientFd : ℤ) (received : Bytes) (st : Store), received ≠ [] →
      ¬ ∃ tr e st', Handles host clientFd (recvStr received) st tr (.error e) st' := by
  intro h
  refine h .plain 5 (str "*\r\n") (.empty []) (by decide)
    ⟨[.awaitCommunicationLoop], .invalidArgument, .empty [], Machine.eval_sound (n := 1) rfl⟩

end RedisServer.RequestFailures
