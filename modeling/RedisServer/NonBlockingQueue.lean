import RedisServer.QueueHistories
import Mathlib.Logic.Function.Basic
import Mathlib.Tactic.Common

/-!
# The non-blocking queue

Any number of threads call `enqueue` and `dequeue`. Every atomic load and every weak exchange is
one step, and an exchange may fail although it finds what it compares with. A deleted node keeps
its fields, and no address is used twice. What is left of a value that was moved out of a node is
arbitrary.
-/

namespace RedisServer.NonBlockingQueue
open QueueHistories

structure Node (α : Type) where
  data : α
  next : Option ℕ
  deleted : Bool

/-- Where a thread is, with the locals that it still reads. From `loadTail` to `finishTail` it is
in a call of `enqueue`, from `loadHead` on in one of `dequeue`. -/
inductive Pc (α : Type) where
  | idle
  | loadTail (value : α) (newNode : ℕ)
  | loadTailNext (value : α) (newNode currentTail : ℕ)
  | linkNode (value : α) (newNode currentTail : ℕ)
  | advanceTail (value : α) (newNode currentTail next : ℕ)
  | finishTail (newNode currentTail : ℕ)
  | loadHead
  | loadHeadNext (currentHead : ℕ)
  | advanceHead (currentHead next : ℕ)
  | moveData (currentHead next : ℕ)
  | deleteHead (currentHead : ℕ) (result : α)
  | returnFalse
  deriving DecidableEq

structure Queue (ι α : Type) where
  head : ℕ
  tail : ℕ
  nodes : ℕ → Node α
  /-- The addresses below this one have been used. -/
  allocated : ℕ
  threads : ι → Pc α

variable {ι α : Type}

/-- The constructor. -/
def Queue.start (stub : α) : Queue ι α where
  head := 0
  tail := 0
  nodes := fun _ => ⟨stub, none, false⟩
  allocated := 1
  threads := fun _ => .idle

namespace Queue

def empty (s : Queue ι α) : Bool := s.head = s.tail

@[simps] def setHead (s : Queue ι α) (a : ℕ) : Queue ι α := { s with head := a }

@[simps] def setTail (s : Queue ι α) (a : ℕ) : Queue ι α := { s with tail := a }

@[simps] def setNode (s : Queue ι α) (a : ℕ) (node : Node α) : Queue ι α :=
  { s with nodes := Function.update s.nodes a node }

/-- `new Node(value)`. -/
@[simps] def newNode (s : Queue ι α) (value : α) : Queue ι α :=
  { s with
    nodes := Function.update s.nodes s.allocated ⟨value, none, false⟩
    allocated := s.allocated + 1 }

@[simps] def setThread [DecidableEq ι] (s : Queue ι α) (i : ι) (pc : Pc α) : Queue ι α :=
  { s with threads := Function.update s.threads i pc }

end Queue

inductive Call (α : Type) where
  | enqueue (value : α)
  | dequeue
  deriving DecidableEq

/-- What the scheduler chooses for a thread: a new call, its next step, a weak exchange that fails
for no reason, or the step that moves data out of a node and leaves something else there. -/
inductive Choice (α : Type) where
  | call (c : Call α)
  | step
  | spurious
  | move (leftover : α)
  deriving DecidableEq

variable [DecidableEq ι]

/-- One step of the thread `i`, and what others learn of it. -/
def step (s : Queue ι α) (i : ι) (c : Choice α) : Option (Queue ι α × Option (Event α)) :=
  match s.threads i, c with
  | .idle, .call (.enqueue value) =>
    some ((s.newNode value).setThread i (.loadTail value s.allocated), none)
  | .idle, .call .dequeue => some (s.setThread i .loadHead, none)
  | .loadTail value newNode, .step =>
    some (s.setThread i (.loadTailNext value newNode s.tail), none)
  | .loadTailNext value newNode currentTail, .step =>
    match (s.nodes currentTail).next with
    | none => some (s.setThread i (.linkNode value newNode currentTail), none)
    | some next => some (s.setThread i (.advanceTail value newNode currentTail next), none)
  | .linkNode value newNode currentTail, .step =>
    if (s.nodes currentTail).next = none then
      some ((s.setNode currentTail { s.nodes currentTail with next := some newNode }).setThread i
        (.finishTail newNode currentTail), some (.linked value))
    else some (s.setThread i (.loadTail value newNode), none)
  | .linkNode value newNode _, .spurious => some (s.setThread i (.loadTail value newNode), none)
  | .advanceTail value newNode currentTail next, .step =>
    if s.tail = currentTail then
      some ((s.setTail next).setThread i (.loadTail value newNode), none)
    else some (s.setThread i (.loadTail value newNode), none)
  | .advanceTail value newNode _ _, .spurious =>
    some (s.setThread i (.loadTail value newNode), none)
  | .finishTail newNode currentTail, .step =>
    if s.tail = currentTail then some ((s.setTail newNode).setThread i .idle, none)
    else some (s.setThread i .idle, none)
  | .finishTail _ _, .spurious => some (s.setThread i .idle, none)
  | .loadHead, .step => some (s.setThread i (.loadHeadNext s.head), none)
  | .loadHeadNext currentHead, .step =>
    match (s.nodes currentHead).next with
    | none => some (s.setThread i .returnFalse, some (.inspected true))
    | some next => some (s.setThread i (.advanceHead currentHead next), some (.inspected false))
  | .advanceHead currentHead next, .step =>
    if s.head = currentHead then
      some ((s.setHead next).setThread i (.moveData currentHead next),
        some (.claimed (s.nodes next).data))
    else some (s.setThread i .loadHead, none)
  | .advanceHead _ _, .spurious => some (s.setThread i .loadHead, none)
  | .moveData currentHead next, .move leftover =>
    some ((s.setNode next { s.nodes next with data := leftover }).setThread i
      (.deleteHead currentHead (s.nodes next).data), none)
  | .deleteHead currentHead result, .step =>
    some ((s.setNode currentHead { s.nodes currentHead with deleted := true }).setThread i .idle,
      some (.returned (some result)))
  | .returnFalse, .step => some (s.setThread i .idle, some (.returned none))
  | _, _ => none

/-- The steps that the scheduler chooses, one after another, and their history. -/
def run (s : Queue ι α) : List (ι × Choice α) → Option (Queue ι α × History ι α)
  | [] => some (s, [])
  | (i, c) :: choices => do
    let (s, e) ← step s i c
    let (s, t) ← run s choices
    some (s, e.toList.map (Prod.mk i) ++ t)

/-- Every way in which a thread can step. -/
inductive Moves (i : ι) : Queue ι α → Choice α → Queue ι α → Option (Event α) → Prop
  | enqueue {s : Queue ι α} (value : α) (hpc : s.threads i = .idle) :
      Moves i s (.call (.enqueue value))
        ((s.newNode value).setThread i (.loadTail value s.allocated)) none
  | dequeue {s : Queue ι α} (hpc : s.threads i = .idle) :
      Moves i s (.call .dequeue) (s.setThread i .loadHead) none
  | loadTail {s : Queue ι α} {value newNode} (hpc : s.threads i = .loadTail value newNode) :
      Moves i s .step (s.setThread i (.loadTailNext value newNode s.tail)) none
  | tailIsLast {s : Queue ι α} {value newNode currentTail}
      (hpc : s.threads i = .loadTailNext value newNode currentTail)
      (hnext : (s.nodes currentTail).next = none) :
      Moves i s .step (s.setThread i (.linkNode value newNode currentTail)) none
  | tailLags {s : Queue ι α} {value newNode currentTail next}
      (hpc : s.threads i = .loadTailNext value newNode currentTail)
      (hnext : (s.nodes currentTail).next = some next) :
      Moves i s .step (s.setThread i (.advanceTail value newNode currentTail next)) none
  | link {s : Queue ι α} {value newNode currentTail}
      (hpc : s.threads i = .linkNode value newNode currentTail)
      (hnext : (s.nodes currentTail).next = none) :
      Moves i s .step ((s.setNode currentTail
        { s.nodes currentTail with next := some newNode }).setThread i
          (.finishTail newNode currentTail)) (some (.linked value))
  | linkFails {s : Queue ι α} {c value newNode currentTail}
      (hpc : s.threads i = .linkNode value newNode currentTail) :
      Moves i s c (s.setThread i (.loadTail value newNode)) none
  | advanceTail {s : Queue ι α} {value newNode next}
      (hpc : s.threads i = .advanceTail value newNode s.tail next) :
      Moves i s .step ((s.setTail next).setThread i (.loadTail value newNode)) none
  | advanceTailFails {s : Queue ι α} {c value newNode currentTail next}
      (hpc : s.threads i = .advanceTail value newNode currentTail next) :
      Moves i s c (s.setThread i (.loadTail value newNode)) none
  | finishTail {s : Queue ι α} {newNode} (hpc : s.threads i = .finishTail newNode s.tail) :
      Moves i s .step ((s.setTail newNode).setThread i .idle) none
  | finishTailFails {s : Queue ι α} {c newNode currentTail}
      (hpc : s.threads i = .finishTail newNode currentTail)
      (hfails : c = .spurious ∨ s.tail ≠ currentTail) :
      Moves i s c (s.setThread i .idle) none
  | loadHead {s : Queue ι α} (hpc : s.threads i = .loadHead) :
      Moves i s .step (s.setThread i (.loadHeadNext s.head)) none
  | queueIsEmpty {s : Queue ι α} {currentHead} (hpc : s.threads i = .loadHeadNext currentHead)
      (hnext : (s.nodes currentHead).next = none) :
      Moves i s .step (s.setThread i .returnFalse) (some (.inspected true))
  | headHasNext {s : Queue ι α} {currentHead next} (hpc : s.threads i = .loadHeadNext currentHead)
      (hnext : (s.nodes currentHead).next = some next) :
      Moves i s .step (s.setThread i (.advanceHead currentHead next)) (some (.inspected false))
  | advanceHead {s : Queue ι α} {next} (hpc : s.threads i = .advanceHead s.head next) :
      Moves i s .step ((s.setHead next).setThread i (.moveData s.head next))
        (some (.claimed (s.nodes next).data))
  | advanceHeadFails {s : Queue ι α} {c currentHead next}
      (hpc : s.threads i = .advanceHead currentHead next) :
      Moves i s c (s.setThread i .loadHead) none
  | moveData {s : Queue ι α} {currentHead next} (leftover : α)
      (hpc : s.threads i = .moveData currentHead next) :
      Moves i s (.move leftover) ((s.setNode next { s.nodes next with data := leftover }).setThread i
        (.deleteHead currentHead (s.nodes next).data)) none
  | deleteHead {s : Queue ι α} {currentHead result}
      (hpc : s.threads i = .deleteHead currentHead result) :
      Moves i s .step ((s.setNode currentHead
        { s.nodes currentHead with deleted := true }).setThread i .idle)
          (some (.returned (some result)))
  | returnFalse {s : Queue ι α} (hpc : s.threads i = .returnFalse) :
      Moves i s .step (s.setThread i .idle) (some (.returned none))

variable {s s' : Queue ι α} {i : ι} {c : Choice α} {e : Option (Event α)}

theorem moves_of_step (h : step s i c = some (s', e)) : Moves i s c s' e := by
  unfold step at h
  split at h
  · cases h
    exact .enqueue _ ‹_›
  · cases h
    exact .dequeue ‹_›
  · cases h
    exact .loadTail ‹_›
  · split at h
    · cases h
      exact .tailIsLast ‹_› ‹_›
    · cases h
      exact .tailLags ‹_› ‹_›
  · split at h
    · cases h
      exact .link ‹_› ‹_›
    · cases h
      exact .linkFails ‹_›
  · cases h
    exact .linkFails ‹_›
  · split at h
    · cases h
      subst ‹s.tail = _›
      exact .advanceTail ‹_›
    · cases h
      exact .advanceTailFails ‹_›
  · cases h
    exact .advanceTailFails ‹_›
  · split at h
    · cases h
      subst ‹s.tail = _›
      exact .finishTail ‹_›
    · cases h
      exact .finishTailFails ‹_› (.inr ‹_›)
  · cases h
    exact .finishTailFails ‹_› (.inl rfl)
  · cases h
    exact .loadHead ‹_›
  · split at h
    · cases h
      exact .queueIsEmpty ‹_› ‹_›
    · cases h
      exact .headHasNext ‹_› ‹_›
  · split at h
    · cases h
      subst ‹s.head = _›
      exact .advanceHead ‹_›
    · cases h
      exact .advanceHeadFails ‹_›
  · cases h
    exact .advanceHeadFails ‹_›
  · cases h
    exact .moveData _ ‹_›
  · cases h
    exact .deleteHead ‹_›
  · cases h
    exact .returnFalse ‹_›
  · cases h

theorem run_of_step {m : Queue ι α} {choices : List (ι × Choice α)} {u : History ι α}
    (hstep : step s i c = some (m, e)) (hrun : run m choices = some (s', u)) :
    run s ((i, c) :: choices) = some (s', e.toList.map (Prod.mk i) ++ u) := by
  simp only [run, hstep, hrun, Option.bind_eq_bind, Option.bind_some]

theorem run_cons {choices : List (ι × Choice α)} {t : History ι α}
    (h : run s ((i, c) :: choices) = some (s', t)) : ∃ m e u, step s i c = some (m, e) ∧
      run m choices = some (s', u) ∧ t = e.toList.map (Prod.mk i) ++ u := by
  rw [run] at h
  obtain ⟨⟨m, e⟩, hstep, h⟩ := Option.bind_eq_some_iff.mp h
  obtain ⟨⟨m', u⟩, hrun, h⟩ := Option.bind_eq_some_iff.mp h
  cases h
  exact ⟨m, e, u, hstep, hrun, rfl⟩

end RedisServer.NonBlockingQueue
