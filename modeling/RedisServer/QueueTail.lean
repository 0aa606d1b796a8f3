import RedisServer.QueueChain
import Mathlib.Logic.Relation

/-!
# The tail of the queue

Head may overtake tail and delete the node that tail points to, and an `enqueue` may leave tail
behind when its last exchange fails for no reason. Without these two steps tail is never deleted,
and between calls it is the last node.
-/

namespace RedisServer.NonBlockingQueue
open QueueHistories

variable {ι α : Type}

def Linked (s : Queue ι α) (a b : ℕ) : Prop := (s.nodes a).next = some b

/-- The last node of the chain that begins at head. -/
def LastNode (s : Queue ι α) (a : ℕ) : Prop :=
  Relation.ReflTransGen (Linked s) s.head a ∧ (s.nodes a).next = none

/-- No call is in progress. -/
def Quiescent (s : Queue ι α) : Prop := ∀ i, s.threads i = .idle

/-- Tail is not behind head, and as long as it lags, the thread that has linked the last node is
about to move it on. -/
structure Tidy (s : Queue ι α) : Prop where
  reachable : Relation.ReflTransGen (Linked s) s.head s.tail
  helped : ∀ a, (s.nodes s.tail).next = some a → ∃ i newNode, s.threads i = .finishTail newNode s.tail
  unused : ∀ a, s.allocated ≤ a → (s.nodes a).next = none

variable {s s' : Queue ι α} {t : History ι α} {p : Placement} {i : ι} {a : ℕ}

/-! ### Steps that keep the tail tidy -/

theorem tidy_start (stub : α) : Tidy (Queue.start stub : Queue ι α) where
  reachable := .refl
  helped a h := by cases h
  unused _ _ := rfl

theorem Tidy.setNode {node : Node α} (h : Tidy s) (hnext : node.next = (s.nodes a).next) :
    Tidy (s.setNode a node) where
  reachable := by
    have hlinks : Linked s ≤ Linked (s.setNode a node) := fun b _ hbc =>
      (nodes_setNode Node.next hnext b).trans hbc
    exact Relation.ReflTransGen.mono hlinks _ _ h.reachable
  helped b hb := h.helped b ((nodes_setNode Node.next hnext s.tail).symm.trans hb)
  unused b hb := (nodes_setNode Node.next hnext b).trans (h.unused b hb)

theorem Tidy.newNode (h : Tidy s) (htail : s.tail < s.allocated) (value : α) :
    Tidy (s.newNode value) where
  reachable := by
    have hlinks : Linked s ≤ Linked (s.newNode value) := by
      intro a b hab
      have hne : a ≠ s.allocated := by
        rintro rfl
        rw [Linked, h.unused _ le_rfl] at hab
        cases hab
      rw [Linked, Queue.newNode_nodes, Function.update_of_ne hne]
      exact hab
    exact Relation.ReflTransGen.mono hlinks _ _ h.reachable
  helped a ha := by
    rw [Queue.newNode_tail, Queue.newNode_nodes, Function.update_of_ne htail.ne] at ha
    exact h.helped a ha
  unused a ha := by
    have hne : a ≠ s.allocated := (Nat.lt_of_succ_le ha).ne'
    rw [Queue.newNode_nodes, Function.update_of_ne hne]
    exact h.unused a (Nat.le_of_succ_le ha)

/-- Behind the node that tail moves on to there is none. -/
theorem Layout.next_eq_none (h : Layout s t p) (hnext : (s.nodes s.tail).next = some a) :
    (s.nodes a).next = none := by
  rw [h.next _ a (h.getElem?_of_follows h.tail hnext)]
  exact List.getElem?_eq_none h.lag

theorem Tidy.setTail (h : Tidy s) (hl : Layout s t p) (hnext : (s.nodes s.tail).next = some a) :
    Tidy (s.setTail a) where
  reachable := h.reachable.tail hnext
  helped b hb := by
    have hnone := hl.next_eq_none hnext
    rw [Queue.setTail_nodes, Queue.setTail_tail, hnone] at hb
    cases hb
  unused := h.unused

theorem Tidy.setHead (h : Tidy s) (hne : s.tail ≠ s.head) (hnext : (s.nodes s.head).next = some a) :
    Tidy (s.setHead a) where
  reachable := by
    rcases h.reachable.cases_head with heq | ⟨b, hb, htail⟩
    · exact absurd heq.symm hne
    · obtain rfl : a = b := Option.some.inj (hnext.symm.trans hb)
      exact htail
  helped := h.helped
  unused := h.unused

/-! ### Careful runs -/

variable [DecidableEq ι] {c : Choice α} {e : Option (Event α)}

/-- A call of `dequeue` by the thread `i` returns false if no other thread steps. -/
def DequeueFails (s : Queue ι α) (i : ι) : Prop :=
  ∃ s', run s [(i, .call .dequeue), (i, .step), (i, .step), (i, .step)]
    = some (s', [(i, .inspected true), (i, .returned none)])

structure TailValid (s : Queue ι α) : Prop where
  alive : (s.nodes s.tail).deleted = false
  last : Quiescent s → LastNode s s.tail
  empty : Quiescent s → ∀ i, s.empty = true ↔ DequeueFails s i

/-- Head does not leave the node that tail points to, and the last exchange of an `enqueue` does
not fail for no reason. -/
def careful (s : Queue ι α) (i : ι) (c : Choice α) : Bool :=
  match s.threads i, c with
  | .advanceHead currentHead _, .step => !(s.head = currentHead && s.tail = currentHead)
  | .finishTail _ currentTail, .spurious => s.tail ≠ currentTail
  | _, _ => true

/-- All the steps are careful. -/
def carefulRun (s : Queue ι α) : List (ι × Choice α) → Bool
  | [] => true
  | (i, c) :: choices => careful s i c && (step s i c).all fun x => carefulRun x.1 choices

theorem Tidy.setThread (h : Tidy s) (hpc : ∀ newNode, s.threads i ≠ .finishTail newNode s.tail)
    (pc : Pc α) : Tidy (s.setThread i pc) where
  reachable := h.reachable
  helped a ha := by
    obtain ⟨j, newNode, hj⟩ := h.helped a ha
    have hne : j ≠ i := by
      rintro rfl
      exact hpc newNode hj
    exact ⟨j, newNode, (Queue.threads_setThread_of_ne s pc hne).trans hj⟩
  unused := h.unused

/-- The thread that links a node is the one that is about to move tail on. -/
theorem Tidy.link {node : Node α} {newNode : ℕ} (h : Tidy s) (htail : s.tail < s.allocated)
    (hnext : (s.nodes s.tail).next = none) :
    Tidy ((s.setNode s.tail node).setThread i (.finishTail newNode s.tail)) where
  reachable := by
    have hlinks : Linked s ≤ Linked (s.setNode s.tail node) := by
      intro a b hab
      have hne : a ≠ s.tail := by
        rintro rfl
        rw [Linked, hnext] at hab
        cases hab
      rw [Linked, nodes_setNode_of_ne s node hne]
      exact hab
    exact Relation.ReflTransGen.mono hlinks _ _ h.reachable
  helped _ _ := ⟨i, newNode, Queue.threads_setThread_self ..⟩
  unused a ha := (nodes_setNode_of_ne s node (htail.trans_le ha).ne').symm ▸ h.unused a ha

/-- A careful step keeps the tail tidy. -/
theorem Tidy.moves (h : Tidy s) (hl : Layout s t p) (hc : careful s i c = true) (hm : Moves i s c s' e) :
    Tidy s' := by
  have hk := hl.knows i
  have htail := hl.allocated _ (List.mem_of_getElem? hl.tail)
  have hother {pc : Pc α} (hpc : s.threads i = pc) (hfinish : ∀ a b, pc ≠ .finishTail a b) :
      ∀ newNode, s.threads i ≠ .finishTail newNode s.tail := by
    intro newNode
    rw [hpc]
    exact hfinish newNode s.tail
  cases hm with
  | enqueue value hpc =>
    exact (h.newNode htail value).setThread (hother hpc (by simp)) _
  | dequeue hpc => exact h.setThread (hother hpc (by simp)) _
  | loadTail hpc => exact h.setThread (hother hpc (by simp)) _
  | tailIsLast hpc => exact h.setThread (hother hpc (by simp)) _
  | tailLags hpc => exact h.setThread (hother hpc (by simp)) _
  | @link value newNode currentTail hpc hnext =>
    rw [hpc] at hk
    obtain ⟨hlength, rfl⟩ := hl.last_of_next hl.tail hk.2 hnext
    exact h.link htail hnext
  | linkFails hpc => exact h.setThread (hother hpc (by simp)) _
  | advanceTail hpc =>
    rw [hpc] at hk
    exact (h.setTail hl hk.2.next).setThread (by
      intro newNode
      rw [Queue.setTail_threads, hpc]
      simp) _
  | advanceTailFails hpc => exact h.setThread (hother hpc (by simp)) _
  | @finishTail newNode hpc =>
    rw [hpc] at hk
    apply (h.setTail hl hk.next).setThread
    intro newNode' heq
    rw [Queue.setTail_threads, Queue.setTail_tail, hpc] at heq
    -- the node that tail moves on to has no successor, the one that it leaves has one
    obtain ⟨-, heq⟩ := Pc.finishTail.inj heq
    have hnone := hl.next_eq_none hk.next
    rw [← heq, hk.next] at hnone
    cases hnone
  | @finishTailFails _ newNode currentTail hpc hfails =>
    have hne : s.tail ≠ currentTail := by
      rcases hfails with rfl | hne
      · simpa [careful, hpc] using hc
      · exact hne
    apply h.setThread
    intro newNode' heq
    rw [hpc] at heq
    cases heq
    exact hne rfl
  | loadHead hpc => exact h.setThread (hother hpc (by simp)) _
  | queueIsEmpty hpc => exact h.setThread (hother hpc (by simp)) _
  | headHasNext hpc => exact h.setThread (hother hpc (by simp)) _
  | advanceHead hpc =>
    have hne : s.tail ≠ s.head := by simpa [careful, hpc] using hc
    rw [hpc] at hk
    exact (h.setHead hne hk.next).setThread (hother hpc (by simp)) _
  | advanceHeadFails hpc => exact h.setThread (hother hpc (by simp)) _
  | @moveData currentHead next leftover hpc =>
    have hnode : Tidy (s.setNode next { s.nodes next with data := leftover }) := h.setNode rfl
    exact hnode.setThread (hother hpc (by simp)) _
  | @deleteHead currentHead result hpc =>
    have hnode : Tidy (s.setNode currentHead { s.nodes currentHead with deleted := true }) :=
      h.setNode rfl
    exact hnode.setThread (hother hpc (by simp)) _
  | returnFalse hpc => exact h.setThread (hother hpc (by simp)) _

theorem Tidy.run (h : Tidy s) (hl : Layout s t p) {choices : List (ι × Choice α)} {u : History ι α}
    (hcareful : carefulRun s choices = true) (hrun : run s choices = some (s', u)) :
    Tidy s' ∧ ∃ p', Layout s' (t ++ u) p' := by
  induction choices generalizing s t p u with
  | nil =>
    cases hrun
    rw [List.append_nil]
    exact ⟨h, p, hl⟩
  | cons x choices ih =>
    obtain ⟨m, e, v, hstep, hrest, rfl⟩ := run_cons hrun
    rw [carefulRun, hstep, Bool.and_eq_true] at hcareful
    obtain ⟨hc, hcareful⟩ := hcareful
    have hm := moves_of_step hstep
    obtain ⟨p', hlayout⟩ := hl.moves hm
    rw [← List.append_assoc]
    exact ih (h.moves hl hc hm) hlayout hcareful hrest

/-! ### What a tidy tail is good for -/

omit [DecidableEq ι] in
theorem Layout.exists_place (h : Layout s t p) (ha : Relation.ReflTransGen (Linked s) s.head a) :
    ∃ n, p.head ≤ n ∧ p.chain[n]? = some a := by
  induction ha with
  | refl => exact ⟨p.head, le_rfl, h.head⟩
  | tail _ hnext ih =>
    obtain ⟨n, hn, hplace⟩ := ih
    exact ⟨n + 1, hn.trans (Nat.le_succ n), h.getElem?_of_follows hplace hnext⟩

omit [DecidableEq ι] in
/-- What head has not left is not deleted. -/
theorem Layout.alive (h : Layout s t p) (ha : Relation.ReflTransGen (Linked s) s.head a) :
    (s.nodes a).deleted = false := by
  obtain ⟨n, hn, hplace⟩ := h.exists_place ha
  by_contra hdeleted
  rw [Bool.not_eq_false] at hdeleted
  obtain ⟨m, hm, hplace'⟩ := exists_lt_of_mem_take (h.deleted a hdeleted)
  have heq := h.index_eq hplace hplace'
  omega

theorem dequeueFails_iff (hidle : s.threads i = .idle) :
    DequeueFails s i ↔ (s.nodes s.head).next = none := by
  rw [DequeueFails]
  cases hnext : (s.nodes s.head).next with
  | none => simp [run, step, hidle, hnext]
  | some a => simp [run, step, hidle, hnext]

omit [DecidableEq ι] in
theorem Tidy.next_eq_none (h : Tidy s) (hquiet : Quiescent s) : (s.nodes s.tail).next = none := by
  cases hnext : (s.nodes s.tail).next with
  | none => rfl
  | some a =>
    obtain ⟨i, newNode, hi⟩ := h.helped a hnext
    cases (hquiet i).symm.trans hi

omit [DecidableEq ι] in
theorem Tidy.empty_iff (h : Tidy s) (hquiet : Quiescent s) :
    s.empty = true ↔ (s.nodes s.head).next = none := by
  rw [Queue.empty, decide_eq_true_iff]
  constructor
  · intro heq
    rw [heq]
    exact h.next_eq_none hquiet
  · intro hnone
    rcases h.reachable.cases_head with heq | ⟨a, ha, -⟩
    · exact heq
    · rw [Linked, hnone] at ha
      cases ha

theorem Tidy.tailValid (h : Tidy s) (hl : Layout s t p) : TailValid s where
  alive := hl.alive h.reachable
  last hquiet := ⟨h.reachable, h.next_eq_none hquiet⟩
  empty hquiet i := (h.empty_iff hquiet).trans (dequeueFails_iff (hquiet i)).symm

/-- In every careful run tail stays valid. -/
theorem tail_valid_of_careful (stub : α) (choices : List (ι × Choice α)) (s : Queue ι α)
    (t : History ι α) (hrun : run (.start stub) choices = some (s, t))
    (hcareful : carefulRun (.start stub : Queue ι α) choices = true) : TailValid s := by
  obtain ⟨h, p, hl⟩ := (tidy_start stub).run (layout_start stub) hcareful hrun
  exact h.tailValid hl

/-- A call of each kind, one after the other. -/
def twoCalls : List (Bool × Choice ℕ) :=
  [(true, .call (.enqueue 7)), (true, .step), (true, .step), (true, .step), (true, .step),
    (false, .call .dequeue), (false, .step), (false, .step), (false, .step), (false, .move 0),
    (false, .step)]

theorem tail_valid_of_two_calls : ∃ (s : Queue Bool ℕ) (t : History Bool ℕ),
    run (.start 0) twoCalls = some (s, t) ∧ TailValid s :=
  ⟨_, _, rfl, tail_valid_of_careful 0 twoCalls _ _ rfl (by decide)⟩

/-- A value is linked by one thread, and the other one takes it and deletes the node that tail
still points to. -/
theorem overtaken_tail_deleted : ¬ ∀ (choices : List (Bool × Choice ℕ)) (s : Queue Bool ℕ)
    (t : History Bool ℕ), run (.start 0) choices = some (s, t) → TailValid s := by
  intro hall
  have hvalid := hall [(true, .call (.enqueue 7)), (true, .step), (true, .step), (true, .step),
    (false, .call .dequeue), (false, .step), (false, .step), (false, .step), (false, .move 0),
    (false, .step)] _ _ rfl
  exact absurd hvalid.alive (by decide)

/-! ### The two other steps -/

/-- After head has left the node that tail points to, the same thread can delete it. -/
theorem exists_deleted_of_overtaken (leftover : α) (hpc : s.threads i = .advanceHead s.head a)
    (htail : s.tail = s.head) : ∃ s' t,
      run s [(i, .step), (i, .move leftover), (i, .step)] = some (s', t) ∧ ¬ TailValid s' := by
  obtain ⟨s₁, hs₁⟩ : ∃ m, m = (s.setHead a).setThread i (.moveData s.head a) := ⟨_, rfl⟩
  have hpc₁ : s₁.threads i = .moveData s.head a := by rw [hs₁, Queue.threads_setThread_self]
  have hstep₁ : step s i .step = some (s₁, some (.claimed (s.nodes a).data)) := by
    rw [hs₁]
    simp [step, hpc]
  obtain ⟨s₂, hs₂⟩ : ∃ m, m = (s₁.setNode a { s₁.nodes a with data := leftover }).setThread i
      (.deleteHead s.head (s₁.nodes a).data) := ⟨_, rfl⟩
  have hpc₂ : s₂.threads i = .deleteHead s.head (s₁.nodes a).data := by
    rw [hs₂, Queue.threads_setThread_self]
  have hstep₂ : step s₁ i (.move leftover) = some (s₂, none) := by
    rw [hs₂]
    simp [step, hpc₁]
  have hstep₃ : step s₂ i .step = some ((s₂.setNode s.head { s₂.nodes s.head with deleted := true })
      |>.setThread i .idle, some (.returned (some (s₁.nodes a).data))) := by simp [step, hpc₂]
  have htail₂ : s₂.tail = s.head := by
    rw [hs₂, hs₁]
    exact htail
  refine ⟨_, _, run_of_step hstep₁ (run_of_step hstep₂ (run_of_step hstep₃ rfl)), fun hvalid => ?_⟩
  have halive := hvalid.alive
  rw [Queue.setThread_nodes, Queue.setThread_tail, Queue.setNode_nodes, Queue.setNode_tail, htail₂,
    Function.update_self] at halive
  cases halive

/-- A thread whose last exchange fails for no reason leaves tail behind. -/
theorem not_tailValid_of_stranded {newNode : ℕ} (hl : Layout s t p)
    (hpc : s.threads i = .finishTail newNode s.tail) (hothers : ∀ j ≠ i, s.threads j = .idle) :
    ∃ s', step s i .spurious = some (s', none) ∧ ¬ TailValid s' := by
  have hk := hl.knows i
  rw [hpc] at hk
  refine ⟨s.setThread i .idle, by simp [step, hpc], fun hvalid => ?_⟩
  have hquiet : Quiescent (s.setThread i .idle) := by
    intro j
    by_cases hj : j = i
    · rw [hj, Queue.threads_setThread_self]
    · rw [Queue.threads_setThread_of_ne s .idle hj, hothers j hj]
  have hlast : (s.nodes s.tail).next = none := (hvalid.last hquiet).2
  rw [hk.next] at hlast
  cases hlast

end RedisServer.NonBlockingQueue
