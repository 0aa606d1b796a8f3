import RedisServer.ReplicaRegistration
import RedisServer.SetPipelines

/-!
# What SETs send to the replicas

Every level of the recursion of SET sends the complete buffer, so a buffer of `k` SETs
reaches each replica `k` times, which is `k` squared SETs.
-/

namespace RedisServer.SetPropagation
open ByteStrings CxxStrings RespGrammar InteractionPrograms ServerState Utils RedisParser
open RequestChain RequestRuns RequestDecoding SetPipelines ReplicaRegistration

variable {host : Host} {clientFd : ℤ} {input : Bytes} {cmds : List (List Bytes)}
  {calls : List SetCall} {st : Store} {fds : List ℤ}

theorem pipeline_sent (hp : Pipeline cmds input) {tr : List Op}
    (htrace : PipelineTrace host input calls st fds [] tr) (hnodup : fds.Nodup) {fd : ℤ}
    (hfd : fd ∈ fds) :
    Pipeline (List.replicate calls.length cmds).flatten (sendsTo fd tr).flatten := by
  rw [htrace.sendsTo, List.count_eq_one_of_mem hnodup hfd]
  simpa using hp.replicate calls.length

/-- Each replica is sent every SET exactly once and in order if and only if the buffer
holds one SET or there is no replica. -/
theorem propagated_once_iff (host : Host) (clientFd : ℤ) (hp : Pipeline cmds input)
    (hsets : SetCommands cmds calls) (hne : cmds ≠ []) (hlen : input.length ≤ intMax)
    (hreg : Registered st.serverInfo fds) (hnodup : fds.Nodup) :
    ∃ tr, Handles host clientFd input st tr (.ok ()) (afterSets host calls st) ∧
      assignments tr = assigned host calls st ∧
      ((∀ fd ∈ fds, Pipeline cmds (sendsTo fd tr).flatten) ↔ cmds.length = 1 ∨ fds = []) := by
  obtain ⟨tr, htrace, hexec⟩ := handles_sets host clientFd st hp hsets hne hlen
  rw [hreg.targets] at htrace
  refine ⟨tr, hexec, by simpa using htrace.assignments, ?_⟩
  have hcount : calls.length = cmds.length := hsets.length_eq.symm
  constructor
  · intro honce
    by_contra! hcases
    obtain ⟨hk, hfds⟩ := hcases
    obtain ⟨fd, hfd⟩ := List.exists_mem_of_ne_nil fds hfds
    have hsent := (honce fd hfd).unique (pipeline_sent hp htrace hnodup hfd)
    have hlength : cmds.length = cmds.length * cmds.length := by
      simpa [hcount] using congrArg List.length hsent
    have hpos : 0 < cmds.length := List.length_pos_of_ne_nil hne
    exact hk (Nat.eq_of_mul_eq_mul_left hpos (by omega))
  · rintro (hk | rfl)
    · intro fd hfd
      simpa [hcount, hk] using pipeline_sent hp htrace hnodup hfd
    · simp

theorem propagated_once_iff_single :
    ∃ tr, Handles .plain 5 (createArrayReponse [str "SET", str "a", str "1"]) (.empty [7]) tr
        (.ok ()) (afterSets .plain [⟨str "a", str "1", none⟩] (.empty [7])) ∧
      assignments tr = assigned .plain [⟨str "a", str "1", none⟩] (.empty [7]) ∧
      ((∀ fd ∈ [7], Pipeline [[str "SET", str "a", str "1"]] (sendsTo fd tr).flatten) ↔
        [[str "SET", str "a", str "1"]].length = 1 ∨ ([7] : List ℤ) = []) :=
  propagated_once_iff .plain 5 (.single (createArrayReponse_request _))
    (.cons (.plain (by decide)) .nil) (by simp) (by decide) (registered_empty [7]) (by simp)

/-- Two SETs in one buffer. -/
def twoSets : Bytes :=
  createArrayReponse [str "SET", str "a", str "1"] ++ createArrayReponse [str "SET", str "b", str "2"]

theorem twoSets_pipeline :
    Pipeline [[str "SET", str "a", str "1"], [str "SET", str "b", str "2"]] twoSets :=
  .cons (createArrayReponse_request _) (.single (createArrayReponse_request _))

/-- A replica is sent two SETs as four. -/
theorem two_sets_sent_twice :
    Pipeline [[str "SET", str "a", str "1"], [str "SET", str "b", str "2"]] twoSets ∧
    Registered (Store.empty [7]).serverInfo [7] ∧
    ∃ tr st', Handles .plain 5 twoSets (.empty [7]) tr (.ok ()) st' ∧
      sendsTo 7 tr = [twoSets, twoSets] ∧
      ¬ Pipeline [[str "SET", str "a", str "1"], [str "SET", str "b", str "2"]]
        (sendsTo 7 tr).flatten := by
  obtain ⟨tr, htrace, hexec⟩ := handles_sets .plain 5 (.empty [7]) twoSets_pipeline
    (.cons (.plain (k := str "a") (v := str "1") (by decide))
      (.cons (.plain (k := str "b") (v := str "2") (by decide)) .nil)) (by simp) (by decide)
  rw [(registered_empty [7]).targets] at htrace
  refine ⟨twoSets_pipeline, registered_empty [7], tr, _, hexec, by simpa using htrace.sendsTo 7, ?_⟩
  intro honce
  have hsent := honce.unique (pipeline_sent twoSets_pipeline htrace (by simp) List.mem_cons_self)
  exact absurd (congrArg List.length hsent) (by simp)

end RedisServer.SetPropagation
