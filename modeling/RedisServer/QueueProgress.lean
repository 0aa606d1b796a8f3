import RedisServer.AmortizedRuns
import RedisServer.QueueTail

/-!
# The queue makes progress

An exchange fails for no reason, or because another thread has changed what it compares with.
A thread whose exchange has failed begins again, and what that costs is charged to the call that
made the change: a call links one node or moves head once, and each of these can make every other
thread begin again.
-/

namespace RedisServer.NonBlockingQueue
open QueueHistories AmortizedRuns

variable {ι α : Type}

/-- What a call still has to pay to each thread. -/
def Pc.charge : Pc α → ℕ
  | .loadTail _ _ | .loadTailNext _ _ _ | .linkNode _ _ _ | .advanceTail _ _ _ _ => 6
  | .loadHead | .loadHeadNext _ | .advanceHead _ _ => 3
  | _ => 0

namespace Queue

/-- The steps that tail costs a thread if it is behind. -/
def lag (s : Queue ι α) : ℕ := if (s.nodes s.tail).next = none then 0 else 3

/-- The steps until a call returns if no other thread steps. -/
def work (s : Queue ι α) : Pc α → ℕ
  | .idle => 0
  | .loadTail _ _ => 4 + s.lag
  | .loadTailNext _ _ currentTail =>
    if (s.nodes currentTail).next = none then 3 else if currentTail = s.tail then 6 else 6 + s.lag
  | .linkNode _ _ currentTail => if (s.nodes currentTail).next = none then 2 else 5 + s.lag
  | .advanceTail _ _ currentTail _ => if currentTail = s.tail then 5 else 5 + s.lag
  | .finishTail _ _ => 1
  | .loadHead => 5
  | .loadHeadNext currentHead => if currentHead = s.head then 4 else 7
  | .advanceHead currentHead _ => if currentHead = s.head then 3 else 6
  | .moveData _ _ => 2
  | .deleteHead _ _ | .returnFalse => 1

/-- What the calls in progress have still to pay. -/
def rank [Fintype ι] (s : Queue ι α) : ℕ :=
  ∑ i, ((s.threads i).charge * Fintype.card ι + s.work (s.threads i))

end Queue

variable {s s' m : Queue ι α} {t : History ι α} {p : Placement} {i : ι} {pc pc' : Pc α} {a b k : ℕ}

theorem lag_le (s : Queue ι α) : s.lag ≤ 3 := by
  unfold Queue.lag
  split <;> omega

/-! ### What the steps of others cost -/

/-- Nobody looks at a node that has not been used before. -/
theorem work_newNode (h : Layout s t p) (hk : Knows s t p i pc) (value : α) :
    (s.newNode value).work pc = s.work pc := by
  have hold {a : ℕ} (ha : a ∈ p.chain) : ((s.newNode value).nodes a).next = (s.nodes a).next := by
    rw [Queue.newNode_nodes, Function.update_of_ne (h.allocated a ha).ne]
  have hlag : (s.newNode value).lag = s.lag := by
    rw [Queue.lag, Queue.lag, Queue.newNode_tail, hold (List.mem_of_getElem? h.tail)]
  cases pc with
  | loadTailNext value newNode currentTail =>
    simp only [Queue.work, hlag, Queue.newNode_tail, hold (List.mem_of_mem_take hk.2)]
  | linkNode value newNode currentTail =>
    simp only [Queue.work, hlag, hold (List.mem_of_mem_take hk.2)]
  | _ => simp only [Queue.work, hlag, Queue.newNode_tail, Queue.newNode_head]

theorem work_setNode {node : Node α} (hnext : node.next = (s.nodes a).next) (pc : Pc α) :
    (s.setNode a node).work pc = s.work pc := by
  have hlag : (s.setNode a node).lag = s.lag := by
    rw [Queue.lag, Queue.lag, Queue.setNode_tail, nodes_setNode Node.next hnext]
  cases pc
  all_goals
    simp only [Queue.work, hlag, Queue.setNode_head, Queue.setNode_tail,
      nodes_setNode Node.next hnext]

theorem work_link_le (s : Queue ι α) (a : ℕ) (node : Node α) (pc : Pc α) :
    (s.setNode a node).work pc ≤ s.work pc + 6 := by
  have hlag := lag_le (s.setNode a node)
  cases pc
  all_goals
    simp only [Queue.work, Queue.setNode_head, Queue.setNode_tail]
    try split_ifs
  all_goals omega

/-- Tail moves on to the last node. -/
theorem work_setTail_le (hlag : (s.setTail a).lag = 0) (pc : Pc α) :
    (s.setTail a).work pc ≤ s.work pc := by
  cases pc
  all_goals
    simp only [Queue.work, Queue.setTail_nodes, Queue.setTail_head, Queue.setTail_tail, hlag]
    try split_ifs
  all_goals omega

theorem work_setHead_le (s : Queue ι α) (a : ℕ) (pc : Pc α) :
    (s.setHead a).work pc ≤ s.work pc + 3 := by
  have hlag : (s.setHead a).lag = s.lag := rfl
  cases pc
  all_goals
    simp only [Queue.work, Queue.setHead_nodes, Queue.setHead_head, Queue.setHead_tail, hlag]
    try split_ifs
  all_goals omega

/-! ### What a step costs -/

variable [DecidableEq ι] {c : Choice α} {e : Option (Event α)}

@[simp] theorem work_setThread (s : Queue ι α) (i : ι) (pc : Pc α) :
    (s.setThread i pc).work = s.work := by
  funext pc'
  cases pc' <;> rfl

/-- One thread steps, and to the others this is no worse than `k` of their own steps. -/
theorem rank_setThread_le [Fintype ι] (hpc : s.threads i = pc) (hthreads : m.threads = s.threads)
    (hothers : ∀ j ≠ i, m.work (s.threads j) ≤ s.work (s.threads j) + k)
    (hi : pc'.charge * Fintype.card ι + m.work pc' + a
      ≤ pc.charge * Fintype.card ι + s.work pc + b) :
    (m.setThread i pc').rank + a ≤ s.rank + b + Fintype.card ι * k := by
  subst hpc
  apply sum_add_le (i := i)
  · rw [Queue.threads_setThread_self, work_setThread]
    exact hi
  · intro j hj
    rw [Queue.threads_setThread_of_ne m pc' hj, work_setThread, hthreads, Nat.add_assoc]
    exact Nat.add_le_add_left (hothers j hj) _

/-- One thread steps, and the others have not more to do than before. -/
theorem rank_setThread_of_le [Fintype ι] (hpc : s.threads i = pc) (hthreads : m.threads = s.threads)
    (hothers : ∀ j ≠ i, m.work (s.threads j) ≤ s.work (s.threads j))
    (hi : pc'.charge * Fintype.card ι + m.work pc' + a
      ≤ pc.charge * Fintype.card ι + s.work pc + b) :
    (m.setThread i pc').rank + a ≤ s.rank + b :=
  rank_setThread_le (k := 0) hpc hthreads hothers hi

/-- A thread steps on, and nothing changes for the others. -/
theorem rank_setThread_self_le [Fintype ι] (hpc : s.threads i = pc)
    (hi : pc'.charge * Fintype.card ι + s.work pc' + a ≤ pc.charge * Fintype.card ι + s.work pc + b) :
    (s.setThread i pc').rank + a ≤ s.rank + b :=
  rank_setThread_of_le hpc rfl (fun _ _ => le_rfl) hi

/-- An exchange that finds what it compares with fails only for no reason. -/
theorem linked_of_step {value : α} {newNode currentTail : ℕ} (hstep : step s i c = some (s', e))
    (hpc : s.threads i = .linkNode value newNode currentTail) (hc : c ≠ .spurious)
    (hnext : (s.nodes currentTail).next = none) : s'.threads i = .finishTail newNode currentTail := by
  cases c with
  | step =>
    simp only [step, hpc, hnext, if_pos, Option.some.injEq, Prod.mk.injEq] at hstep
    rw [← hstep.1, Queue.threads_setThread_self]
  | spurious => exact absurd rfl hc
  | call | move => simp [step, hpc] at hstep

theorem tail_of_step {value : α} {newNode currentTail next : ℕ} (hstep : step s i c = some (s', e))
    (hpc : s.threads i = .advanceTail value newNode currentTail next) (hc : c ≠ .spurious)
    (htail : currentTail = s.tail) : s'.tail = next := by
  subst htail
  cases c with
  | step =>
    simp only [step, hpc, if_pos, Option.some.injEq, Prod.mk.injEq] at hstep
    rw [← hstep.1, Queue.setThread_tail, Queue.setTail_tail]
  | spurious => exact absurd rfl hc
  | call | move => simp [step, hpc] at hstep

theorem claimed_of_step {currentHead next : ℕ} (hstep : step s i c = some (s', e))
    (hpc : s.threads i = .advanceHead currentHead next) (hc : c ≠ .spurious)
    (hhead : currentHead = s.head) : s'.threads i = .moveData currentHead next := by
  subst hhead
  cases c with
  | step =>
    simp only [step, hpc, if_pos, Option.some.injEq, Prod.mk.injEq] at hstep
    rw [← hstep.1, Queue.threads_setThread_self]
  | spurious => exact absurd rfl hc
  | call | move => simp [step, hpc] at hstep

/-- What a new call brings with it, and a failure for no reason. -/
def Choice.credit (threads : ℕ) : Choice α → ℕ
  | .call (.enqueue _) => 6 * threads + 8
  | .call .dequeue => 3 * threads + 6
  | .spurious => 6
  | .step | .move _ => 0

/-- An exchange fails for no reason, or because the others have moved on. -/
theorem rank_fails_le [Fintype ι] (hpc : s.threads i = pc) (hcharge : pc'.charge = pc.charge)
    (hretry : s.work pc' ≤ s.work pc + 5) (hmoved : c ≠ .spurious → s.work pc' < s.work pc) :
    (s.setThread i pc').rank + 1 ≤ s.rank + c.credit (Fintype.card ι) := by
  apply rank_setThread_self_le hpc
  rw [hcharge]
  by_cases hc : c = .spurious
  · subst hc
    rw [Choice.credit]
    omega
  · have hlt := hmoved hc
    omega

omit [DecidableEq ι] in
theorem lag_setTail (h : Layout s t p) (hnext : (s.nodes s.tail).next = some a) :
    (s.setTail a).lag = 0 := if_pos (h.next_eq_none hnext)

/-- Every step is paid for. -/
theorem Layout.rank_step [Fintype ι] (h : Layout s t p) (hstep : step s i c = some (s', e)) :
    s'.rank + 1 ≤ s.rank + c.credit (Fintype.card ι) := by
  have hk := h.knows i
  have hlag := lag_le s
  cases moves_of_step hstep with
  | enqueue value hpc =>
    apply rank_setThread_of_le hpc (m := s.newNode value) rfl
    · exact fun j _ => (work_newNode h (h.knows j) value).le
    · have hlag' := lag_le (s.newNode value)
      simp only [Pc.charge, Queue.work, Choice.credit]
      omega
  | dequeue hpc =>
    apply rank_setThread_self_le hpc
    simp only [Pc.charge, Queue.work, Choice.credit]
    omega
  | loadTail hpc =>
    apply rank_setThread_self_le hpc
    simp only [Pc.charge, Queue.work, Choice.credit, Queue.lag]
    split <;> simp
  | tailIsLast hpc hnext =>
    apply rank_setThread_self_le hpc
    simp [Pc.charge, Queue.work, hnext]
  | tailLags hpc hnext =>
    apply rank_setThread_self_le hpc
    simp only [Pc.charge, Queue.work, hnext, reduceCtorEq, if_false]
    split <;> omega
  | @link value newNode currentTail hpc hnext =>
    -- the charge is what the others may lose
    have hpaid : (Pc.charge (.finishTail newNode currentTail : Pc α)) * Fintype.card ι
        + (s.setNode currentTail { s.nodes currentTail with next := some newNode }).work
          (.finishTail newNode currentTail) + (6 * Fintype.card ι + 1)
        ≤ (Pc.charge (.linkNode value newNode currentTail)) * Fintype.card ι
          + s.work (.linkNode value newNode currentTail) + 0 := by
      simp only [Pc.charge, Queue.work, if_pos hnext]
      omega
    have hcost := rank_setThread_le hpc
      (m := s.setNode currentTail { s.nodes currentTail with next := some newNode }) rfl
      (fun j _ => work_link_le s currentTail _ _) hpaid
    rw [Choice.credit]
    omega
  | @linkFails _ value newNode currentTail hpc =>
    apply rank_fails_le hpc (by rfl)
    · simp only [Queue.work]
      split <;> omega
    · intro hc
      have hnext : (s.nodes currentTail).next ≠ none := by
        intro hnext
        have hlinked := linked_of_step hstep hpc hc hnext
        rw [Queue.threads_setThread_self] at hlinked
        cases hlinked
      simp only [Queue.work, if_neg hnext]
      omega
  | @advanceTail value newNode next hpc =>
    rw [hpc] at hk
    have hlag' := lag_setTail h hk.2.next
    apply rank_setThread_of_le hpc (m := s.setTail next) rfl
    · exact fun j _ => work_setTail_le hlag' _
    · simp only [Pc.charge, Queue.work, if_pos, hlag']
      omega
  | @advanceTailFails _ value newNode currentTail next hpc =>
    rw [hpc] at hk
    apply rank_fails_le hpc (by rfl)
    · simp only [Queue.work]
      split <;> omega
    · intro hc
      have hbehind : currentTail ≠ s.tail := by
        intro heq
        have hmoved := tail_of_step hstep hpc hc heq
        rw [Queue.setThread_tail] at hmoved
        have hnext := hk.2.next
        rw [heq] at hnext
        have hnone := h.next_eq_none hnext
        rw [← hmoved, hnext] at hnone
        cases hnone
      simp only [Queue.work, if_neg hbehind]
      omega
  | @finishTail newNode hpc =>
    rw [hpc] at hk
    have hlag' := lag_setTail h hk.next
    apply rank_setThread_of_le hpc (m := s.setTail newNode) rfl
    · exact fun j _ => work_setTail_le hlag' _
    · simp only [Pc.charge, Queue.work]
      omega
  | finishTailFails hpc hfails =>
    apply rank_setThread_self_le hpc
    simp only [Pc.charge, Queue.work]
    omega
  | loadHead hpc =>
    apply rank_setThread_self_le hpc
    simp only [Pc.charge, Queue.work, if_pos]
    omega
  | queueIsEmpty hpc hnext =>
    apply rank_setThread_self_le hpc
    simp only [Pc.charge, Queue.work]
    split <;> omega
  | headHasNext hpc hnext =>
    apply rank_setThread_self_le hpc
    simp only [Pc.charge, Queue.work]
    split <;> omega
  | @advanceHead next hpc =>
    have hpaid : (Pc.charge (.moveData s.head next : Pc α)) * Fintype.card ι
        + (s.setHead next).work (.moveData s.head next) + (3 * Fintype.card ι + 1)
        ≤ (Pc.charge (.advanceHead s.head next : Pc α)) * Fintype.card ι
          + s.work (.advanceHead s.head next) + 0 := by
      simp only [Pc.charge, Queue.work, if_pos]
      omega
    have hcost := rank_setThread_le hpc (m := s.setHead next) rfl
      (fun j _ => work_setHead_le s next _) hpaid
    rw [Choice.credit]
    omega
  | @advanceHeadFails _ currentHead next hpc =>
    apply rank_fails_le hpc (by rfl)
    · simp only [Queue.work]
      split <;> omega
    · intro hc
      have hbehind : currentHead ≠ s.head := by
        intro heq
        have hclaimed := claimed_of_step hstep hpc hc heq
        rw [Queue.threads_setThread_self] at hclaimed
        cases hclaimed
      simp only [Queue.work, if_neg hbehind]
      omega
  | @moveData currentHead next leftover hpc =>
    apply rank_setThread_of_le hpc (m := s.setNode next { s.nodes next with data := leftover }) rfl
    · exact fun j _ => (work_setNode (by rfl) _).le
    · simp only [Pc.charge, Queue.work]
      omega
  | @deleteHead currentHead result hpc =>
    apply rank_setThread_of_le hpc
      (m := s.setNode currentHead { s.nodes currentHead with deleted := true }) rfl
    · exact fun j _ => (work_setNode (by rfl) _).le
    · simp only [Pc.charge, Queue.work]
      omega
  | returnFalse hpc =>
    apply rank_setThread_self_le hpc
    simp only [Pc.charge, Queue.work]
    omega

/-! ### Runs -/

omit [DecidableEq ι] in
theorem rank_start [Fintype ι] (stub : α) : (Queue.start stub : Queue ι α).rank = 0 := by
  simp [Queue.rank, Queue.start, Pc.charge, Queue.work]

theorem path_of_run {choices : List (ι × Choice α)} (h : run s choices = some (s', t)) :
    Path (fun x s s' => ∃ e, step s x.1 x.2 = some (s', e)) s choices s' := by
  induction choices generalizing s t with
  | nil =>
    cases h
    exact .nil _
  | cons x choices ih =>
    obtain ⟨m, e, u, hstep, hrest, rfl⟩ := run_cons h
    exact .cons ⟨e, hstep⟩ (ih hrest)

theorem priced_step [Fintype ι] : Priced (fun x s s' => ∃ e, step s x.1 x.2 = some (s', e))
    (fun s : Queue ι α => ∃ t p, Layout s t p) Queue.rank (fun _ => 1)
    (fun x : ι × Choice α => x.2.credit (Fintype.card ι)) where
  keeps x s s' := by
    rintro ⟨t, p, h⟩ ⟨e, hstep⟩
    obtain ⟨p', h'⟩ := h.moves (moves_of_step hstep)
    exact ⟨_, p', h'⟩
  pays x s s' := by
    rintro ⟨t, p, h⟩ ⟨e, hstep⟩
    exact h.rank_step hstep

/-- A call in progress can go on without a failure. -/
theorem exists_step_of_busy (hbusy : s.threads i ≠ .idle) :
    ∃ c s' e, step s i c = some (s', e) ∧ ∀ threads, c.credit threads = 0 := by
  cases hpc : s.threads i with
  | idle => exact absurd hpc hbusy
  | moveData currentHead next =>
    refine ⟨.move (s.nodes next).data, ?_⟩
    simp [step, hpc, Choice.credit]
  | loadTailNext value newNode currentTail =>
    refine ⟨.step, ?_⟩
    cases hnext : (s.nodes currentTail).next <;> simp [step, hpc, hnext, Choice.credit]
  | loadHeadNext currentHead =>
    refine ⟨.step, ?_⟩
    cases hnext : (s.nodes currentHead).next <;> simp [step, hpc, hnext, Choice.credit]
  | _ =>
    refine ⟨.step, ?_⟩
    simp only [step, hpc, Choice.credit]
    try split_ifs
    all_goals simp

/-- The queue is lock-free. All calls of all threads together take no more steps than the calls
that were begun and the exchanges that failed for no reason pay for, at a price that is linear in
the number of threads, and a call in progress can always go on. -/
theorem steps_paid [Fintype ι] (stub : α) (choices : List (ι × Choice α)) (s : Queue ι α)
    (t : History ι α) (hrun : run (.start stub) choices = some (s, t)) :
    choices.length ≤ (choices.map fun x => x.2.credit (Fintype.card ι)).sum ∧
      ∀ i, s.threads i ≠ .idle →
        ∃ c s' e, step s i c = some (s', e) ∧ ∀ threads, c.credit threads = 0 := by
  refine ⟨?_, fun i hbusy => exists_step_of_busy hbusy⟩
  have hbound := priced_step.bound ⟨[], ⟨[0], 0, 0⟩, layout_start stub⟩ (path_of_run hrun)
  rw [rank_start, List.map_const', List.sum_replicate_nat, Nat.mul_one] at hbound
  omega

theorem steps_paid_of_two_calls : twoCalls.length ≤
    (twoCalls.map fun x => x.2.credit (Fintype.card Bool)).sum :=
  (steps_paid 0 twoCalls _ _ rfl).1

end RedisServer.NonBlockingQueue
