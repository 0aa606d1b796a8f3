import Mathlib.Data.Int.ConditionallyCompleteOrder
import RedisServer.ExpiringMaps
import RedisServer.RequestChain

/-!
# GET and the history of SETs

GET erases an entry whose time has come. The database is the history of SETs without
entries that have expired, and every GET answers as the history does.
-/

namespace RedisServer.LazyExpiry
open ByteStrings InteractionPrograms ServerState Utils RedisParser RequestChain ExpiringMaps

inductive Call where
  | set (key value : Bytes) (expiryTime : ℤ)
  | get (key : Bytes)
  deriving DecidableEq

def atTime (host : Host) (t : ℤ) : Host := { host with clock := fun _ => t }

/-- Calls one after another, each with a reading of the clock, and the results of the
GETs among them. -/
inductive Runs (host : Host) (clientFd : ℤ) (input : Bytes) :
    Store → List (ℤ × Call) → List Bytes → Store → Prop where
  | nil (st : Store) : Runs host clientFd input st [] [] st
  | set {st st₁ st' t k v e tr calls results}
      (h : Exec (parser (atTime host t) clientFd input) (databaseSet k v e) st tr (.ok ()) st₁)
      (rest : Runs host clientFd input st₁ calls results st') :
      Runs host clientFd input st ((t, .set k v e) :: calls) results st'
  | get {st st₁ st' t k r tr calls results}
      (h : Exec (parser (atTime host t) clientFd input) (databaseGet k) st tr (.ok r) st₁)
      (rest : Runs host clientFd input st₁ calls results st') :
      Runs host clientFd input st ((t, .get k) :: calls) (r :: results) st'

/-- The entry of the last SET of `k` in a history, the latest call first. -/
def lastSet : List (ℤ × Call) → Bytes → Option DBValue
  | [], _ => none
  | (_, .set k' v e) :: past, k => if k = k' then some ⟨v, e⟩ else lastSet past k
  | (_, .get _) :: past, k => lastSet past k

/-- What a history answers to a GET at time `t`. -/
def answer (past : List (ℤ × Call)) (k : Bytes) (t : ℤ) : Bytes :=
  match lastSet past k with
  | some v => if v.expiryTime = 0 ∨ t < v.expiryTime then v.value else nullResponse
  | none => nullResponse

/-- The answers to the GETs among `calls`, which follow the history `past`. -/
def answers (past : List (ℤ × Call)) : List (ℤ × Call) → List Bytes
  | [] => []
  | (t, .set k v e) :: calls => answers ((t, .set k v e) :: past) calls
  | (t, .get k) :: calls => answer past k t :: answers ((t, .get k) :: past) calls

def isSet : ℤ × Call → Bool
  | (_, .set _ _ _) => true
  | (_, .get _) => false

/-- An entry lives for ever or until its expiry time. -/
def entryLifetime : Lifetime DBValue ℤ where
  alive v t := v.expiryTime = 0 ∨ t < v.expiryTime
  dead_mono := by
    intro v t t' hdead ht
    omega

/-- The database is the history without entries that have expired by `now`. -/
def Refines (st : Store) (past : List (ℤ × Call)) (now : ℤ) : Prop :=
  Pruned entryLifetime (fun k => st.database.lookup k) (lastSet past) now

variable {host : Host} {clientFd : ℤ} {input : Bytes} {st st' : Store} {past calls : List (ℤ × Call)}
  {now t : ℤ} {k : Bytes}

theorem lookup_insert (db : Database) (k : Bytes) (v : DBValue) :
    (fun k' => (db.insert k v).lookup k') = Function.update (fun k' => db.lookup k') k (some v) := by
  funext k'
  by_cases hk : k' = k
  · subst hk
    simp
  · simp [hk, Finmap.lookup_insert_of_ne]

theorem lookup_erase (db : Database) (k : Bytes) :
    (fun k' => (db.erase k).lookup k') = Function.update (fun k' => db.lookup k') k none := by
  funext k'
  by_cases hk : k' = k
  · subst hk
    simp
  · simp [hk, Finmap.lookup_erase_ne]

theorem lastSet_set (past : List (ℤ × Call)) (t : ℤ) (k v : Bytes) (e : ℤ) :
    lastSet ((t, .set k v e) :: past) = Function.update (lastSet past) k (some ⟨v, e⟩) := by
  funext k'
  by_cases hk : k' = k <;> simp [lastSet, hk]

theorem refines_set (h : Refines st past now) (ht : now ≤ t) (v : Bytes) (e : ℤ) {tr r}
    (hx : Exec (parser (atTime host t) clientFd input) (databaseSet k v e) st tr r st') :
    Refines st' ((t, .set k v e) :: past) t := by
  have hset : Exec (parser (atTime host t) clientFd input) (databaseSet k v e) st
    [.databaseAssign k ⟨v, e⟩] (.ok ()) (st.setDatabase (st.database.insert k ⟨v, e⟩)) :=
    exec_perform rfl
  obtain ⟨-, -, rfl⟩ := hx.deterministic hset
  unfold Refines
  rw [Store.database_setDatabase, lookup_insert, lastSet_set]
  exact (h.later ht).write k ⟨v, e⟩

/-- GET answers as the history does and keeps the database in step with it. -/
theorem get_refines (h : Refines st past now) (ht : now ≤ t) : ∃ tr st',
    Exec (parser (atTime host t) clientFd input) (databaseGet k) st tr (.ok (answer past k t)) st' ∧
      Refines st' ((t, .get k) :: past) t := by
  have hlater : Refines st ((t, .get k) :: past) t := h.later ht
  have hvisible : ∀ v, Visible entryLifetime (fun k => st.database.lookup k) k t v ↔
      Visible entryLifetime (lastSet past) k t v := fun v => h.visible_iff ht
  cases hfind : st.database.lookup k with
  | none =>
    have hanswer : answer past k t = nullResponse := by
      unfold answer
      cases hlast : lastSet past k with
      | none => rfl
      | some v =>
        exact if_neg fun halive => nomatch hfind.symm.trans ((hvisible v).mpr ⟨hlast, halive⟩).1
    exact ⟨_, _, hanswer ▸ exec_databaseGet_missing hfind, hlater⟩
  | some v =>
    by_cases halive : v.expiryTime = 0 ∨ t < v.expiryTime
    · have hlast : lastSet past k = some v := ((hvisible v).mp ⟨hfind, halive⟩).1
      have hanswer : answer past k t = v.value := by simp [answer, hlast, halive]
      rw [hanswer]
      by_cases hv : v.expiryTime = 0
      · exact ⟨_, _, exec_databaseGet_persistent hfind hv, hlater⟩
      · exact ⟨_, _, exec_databaseGet_live hfind hv (halive.resolve_left hv), hlater⟩
    · have hlast : lastSet past k = some v := by
        rcases h k with heq | ⟨hnone, -⟩
        · exact heq ▸ hfind
        · exact nomatch hnone.symm.trans hfind
      have hanswer : answer past k t = nullResponse := by simp [answer, hlast, halive]
      rw [hanswer]
      rw [not_or, not_lt] at halive
      refine ⟨_, _, exec_databaseGet_expired hfind halive.1 halive.2, ?_⟩
      unfold Refines
      rw [Store.database_setDatabase, lookup_erase]
      exact hlater.drop hfind (by simpa [entryLifetime] using halive)

/-- Calls with non-decreasing clock readings, on a database in step with a history. -/
theorem runs_iff (h : Refines st past now) (hnow : ∀ c ∈ calls, now ≤ c.1)
    (hclock : (calls.map Prod.fst).Pairwise (· ≤ ·)) (results : List Bytes) :
    (∃ st', Runs host clientFd input st calls results st') ↔ results = answers past calls := by
  induction calls generalizing st past now results with
  | nil =>
    constructor
    · rintro ⟨st', hruns⟩
      cases hruns
      rfl
    · rintro rfl
      exact ⟨st, .nil st⟩
  | cons c calls ih =>
    obtain ⟨t, call⟩ := c
    obtain ⟨hlater, hsorted⟩ := List.pairwise_cons.mp hclock
    have ht : now ≤ t := hnow _ List.mem_cons_self
    have hrest : ∀ c ∈ calls, t ≤ c.1 := fun c hc => hlater _ (List.mem_map_of_mem hc)
    cases call with
    | set k v e =>
      constructor
      · rintro ⟨st', hruns⟩
        cases hruns with
        | set hx rest => exact (ih (refines_set h ht v e hx) hrest hsorted results).mp ⟨st', rest⟩
      · intro hresults
        have hx : Exec (parser (atTime host t) clientFd input) (databaseSet k v e) st _ (.ok ()) _ :=
          exec_perform rfl
        obtain ⟨st', rest⟩ := (ih (refines_set h ht v e hx) hrest hsorted results).mpr hresults
        exact ⟨st', .set hx rest⟩
    | get k =>
      obtain ⟨tr, st₁, hget, hrefines⟩ :=
        @get_refines host clientFd input st past now t k h ht
      constructor
      · rintro ⟨st', hruns⟩
        cases hruns with
        | get hx rest =>
          obtain ⟨-, hr, rfl⟩ := hx.deterministic hget
          cases hr
          rw [answers, (ih hrefines hrest hsorted _).mp ⟨st', rest⟩]
      · rintro rfl
        obtain ⟨st', rest⟩ := (ih hrefines hrest hsorted _).mpr rfl
        exact ⟨st', .get hget rest⟩

theorem lastSet_filter_isSet (past : List (ℤ × Call)) (k : Bytes) :
    lastSet (past.filter isSet) k = lastSet past k := by
  induction past with
  | nil => rfl
  | cons c past ih =>
    obtain ⟨t, call⟩ := c
    cases call with
    | set k' v e =>
      rw [List.filter_cons_of_pos rfl, lastSet, ih, lastSet]
    | get k' =>
      rw [List.filter_cons_of_neg (by simp [isSet]), ih, lastSet]

/-- From an empty database, the GETs among calls with non-decreasing clock readings
return exactly what the SETs before them say, and other GETs make no difference. -/
theorem gets_answer_history (host : Host) (clientFd : ℤ) (input : Bytes)
    (calls : List (ℤ × Call)) (hclock : (calls.map Prod.fst).Pairwise (· ≤ ·)) :
    (∀ results, (∃ st', Runs host clientFd input (.empty []) calls results st') ↔
      results = answers [] calls) ∧
    (∀ past past' : List (ℤ × Call), past.filter isSet = past'.filter isSet →
      ∀ k t, answer past k t = answer past' k t) := by
  refine ⟨fun results => ?_, fun past past' hsets k t => ?_⟩
  · cases calls with
    | nil =>
      have hstart : Refines (.empty []) [] 0 := .refl _ _
      exact runs_iff hstart (List.forall_mem_nil _) hclock results
    | cons c calls =>
      have hstart : Refines (.empty []) [] c.1 := .refl _ _
      refine runs_iff hstart (List.forall_mem_cons.mpr ⟨le_rfl, fun c' hc' => ?_⟩) hclock results
      exact (List.pairwise_cons.mp hclock).1 _ (List.mem_map_of_mem hc')
  · unfold answer
    rw [← lastSet_filter_isSet past, hsets, lastSet_filter_isSet]

/-- A key that is set with an expiry time, read before and at that time, and set anew. -/
theorem gets_answer_history_on_renewal :
    (∃ st', Runs .plain 5 [] (.empty [])
      [(1, .set (str "k") (str "v") 3), (2, .get (str "k")), (3, .get (str "k")),
        (3, .set (str "k") (str "w") 0), (9, .get (str "k"))]
      [str "v", nullResponse, str "w"] st') :=
  ((gets_answer_history .plain 5 [] _ (by decide)).1 _).mpr (by decide)

end RedisServer.LazyExpiry
