import RedisServer.QueueTail
import Mathlib.Data.List.Perm.Subperm

/-!
# The memory of the queue

A node is private to the call that has allocated it until it is linked, and private to the call
that has moved head over it until it is deleted. Every node of a run is in exactly one of these
hands, on the chain behind head, or deleted, and the destructor deletes what the calls have left.
-/

namespace RedisServer.NonBlockingQueue
open QueueHistories

variable {ι α : Type}

/-- The destructor. It takes the first node from head and deletes it until head is null, and it
is not done if there are more than `fuel` nodes. The second result lists what it deletes. -/
def destroy : ℕ → (ℕ → Node α) → Option ℕ → Option ((ℕ → Node α) × List ℕ)
  | _, nodes, none => some (nodes, [])
  | 0, _, some _ => none
  | fuel + 1, nodes, some node => do
    let next := (nodes node).next
    let (nodes, deleted) ← destroy fuel
      (Function.update nodes node { nodes node with deleted := true }) next
    some (nodes, node :: deleted)

/-- The node that a thread has allocated and not linked yet. -/
def Pc.allocates : Pc α → Option ℕ
  | .loadTail _ newNode => some newNode
  | .loadTailNext _ newNode _ => some newNode
  | .linkNode _ newNode _ => some newNode
  | .advanceTail _ newNode _ _ => some newNode
  | _ => none

/-- The node that a thread is going to delete. -/
def Pc.retires : Pc α → Option ℕ
  | .moveData currentHead _ => some currentHead
  | .deleteHead currentHead _ => some currentHead
  | _ => none

/-- The chain that begins at head leads to the node. -/
def Stored (s : Queue ι α) (a : ℕ) : Prop := Relation.ReflTransGen (Linked s) s.head a

/-- Every node is somewhere, and nobody deletes a node of which somebody else disposes. -/
structure Accounted (s : Queue ι α) : Prop where
  place : ∀ a < s.allocated, (s.nodes a).deleted = true ∨ Stored s a ∨
    (∃ i, (s.threads i).allocates = some a) ∨ ∃ i, (s.threads i).retires = some a
  alive : ∀ i a, (s.threads i).retires = some a → (s.nodes a).deleted = false
  sole : ∀ i j a, (s.threads i).retires = some a → (s.threads j).retires = some a → i = j

theorem accounted_start (stub : α) : Accounted (Queue.start stub : Queue ι α) where
  place a h := by
    obtain rfl : a = 0 := Nat.lt_one_iff.mp h
    exact .inr (.inl .refl)
  alive _ _ h := by cases h
  sole _ _ _ h := by cases h

variable {s s' : Queue ι α} {t : History ι α} {p : Placement} {i j : ι} {pc pc' : Pc α} {a b : ℕ}

theorem Layout.stored_of_place (h : Layout s t p) {n : ℕ} (ha : p.chain[p.head + n]? = some a) :
    Stored s a := by
  induction n generalizing a with
  | zero =>
    obtain rfl : s.head = a := Option.some.inj (h.head.symm.trans ha)
    exact .refl
  | succ n ih =>
    have hlt : p.head + n < p.chain.length := by
      have hlt := lt_length_of_getElem? ha
      omega
    have hb : p.chain[p.head + n]? = some p.chain[p.head + n] := List.getElem?_eq_getElem hlt
    refine (ih hb).tail ?_
    rw [Linked, h.next _ _ hb]
    exact ha

/-- What is stored is the chain from head on. -/
theorem Layout.stored_iff (h : Layout s t p) : Stored s a ↔ a ∈ p.chain.drop p.head := by
  constructor
  · intro ha
    obtain ⟨n, hn, hplace⟩ := h.exists_place ha
    apply List.mem_of_getElem? (i := n - p.head)
    rw [List.getElem?_drop, Nat.add_sub_cancel' hn]
    exact hplace
  · intro ha
    obtain ⟨n, hn⟩ := List.mem_iff_getElem?.mp ha
    rw [List.getElem?_drop] at hn
    exact h.stored_of_place hn

theorem Layout.stored_last (h : Layout s t p) (hlength : p.chain.length = p.tail + 1) :
    Stored s s.tail := by
  have hhead := lt_length_of_getElem? h.head
  apply h.stored_of_place (n := p.tail - p.head)
  rw [Nat.add_sub_cancel' (by omega)]
  exact h.tail

/-- Head has left the node that a thread is going to delete. -/
theorem Layout.mem_of_retires (h : Layout s t p) (ha : (s.threads i).retires = some a) :
    a ∈ p.chain.take p.head := by
  have hk := h.knows i
  rcases hpc : s.threads i with _ | _ | _ | _ | _ | _ | _ | _ | _ | _ | _ | _
  all_goals
    rw [hpc] at ha hk
    cases ha
  · exact hk.1
  · exact hk.1

theorem Layout.retires_ne_head (h : Layout s t p) : (s.threads i).retires ≠ some s.head := by
  intro ha
  obtain ⟨n, hn, hplace⟩ := exists_lt_of_mem_take (h.mem_of_retires ha)
  have heq := h.index_eq hplace h.head
  omega

/-! ### The chain under the steps -/

theorem stored_setNode {node : Node α} (hnext : node.next = (s.nodes a).next) (hb : Stored s b) :
    Stored (s.setNode a node) b := by
  have hlinks : Linked s ≤ Linked (s.setNode a node) := fun b _ hbc =>
    (nodes_setNode Node.next hnext b).trans hbc
  exact Relation.ReflTransGen.mono hlinks _ _ hb

theorem Layout.stored_newNode (h : Layout s t p) (value : α) (hb : Stored s b) :
    Stored (s.newNode value) b :=
  (h.newNode value).stored_iff.mpr (h.stored_iff.mp hb)

/-- The links before the last node stay. -/
theorem stored_link {node : Node α} (hlast : (s.nodes a).next = none) (hb : Stored s b) :
    Stored (s.setNode a node) b := by
  have hlinks : Linked s ≤ Linked (s.setNode a node) := by
    intro b c hbc
    have hne : b ≠ a := by
      rintro rfl
      rw [Linked, hlast] at hbc
      cases hbc
    rw [Linked, nodes_setNode_of_ne s node hne]
    exact hbc
  exact Relation.ReflTransGen.mono hlinks _ _ hb

/-! ### Steps -/

/-- The node is in the hands of another thread than `i`. -/
def HeldByOther (s : Queue ι α) (i : ι) (a : ℕ) : Prop :=
  ∃ j ≠ i, (s.threads j).allocates = some a ∨ (s.threads j).retires = some a

theorem Accounted.place_of_thread (h : Accounted s) (hpc : s.threads i = pc) (ha : a < s.allocated) :
    (s.nodes a).deleted = true ∨ Stored s a ∨ pc.allocates = some a ∨ pc.retires = some a ∨
      HeldByOther s i a := by
  subst hpc
  rcases h.place a ha with hdeleted | hstored | ⟨j, hj⟩ | ⟨j, hj⟩
  · exact .inl hdeleted
  · exact .inr (.inl hstored)
  · by_cases hji : j = i
    · exact .inr (.inr (.inl (hji ▸ hj)))
    · exact .inr (.inr (.inr (.inr ⟨j, hji, .inl hj⟩)))
  · by_cases hji : j = i
    · exact .inr (.inr (.inr (.inl (hji ▸ hj))))
    · exact .inr (.inr (.inr (.inr ⟨j, hji, .inr hj⟩)))

variable [DecidableEq ι] {c : Choice α} {e : Option (Event α)} {m : Queue ι α}

/-- A thread steps on after it has changed the queue to `m`. -/
theorem Accounted.setThread (h : Accounted s) (hthreads : m.threads = s.threads)
    (hplace : ∀ a < m.allocated, (m.nodes a).deleted = true ∨ Stored m a ∨ pc'.allocates = some a ∨
      pc'.retires = some a ∨ HeldByOther s i a)
    (halive : ∀ a, pc'.retires = some a → (m.nodes a).deleted = false)
    (hothers : ∀ j ≠ i, ∀ a, (s.threads j).retires = some a →
      (m.nodes a).deleted = false ∧ pc'.retires ≠ some a) : Accounted (m.setThread i pc') where
  place a ha := by
    have hself : (m.setThread i pc').threads i = pc' := Queue.threads_setThread_self ..
    rcases hplace a ha with hdeleted | hstored | hnew | hold | ⟨j, hji, hj⟩
    · exact .inl hdeleted
    · exact .inr (.inl hstored)
    · exact .inr (.inr (.inl ⟨i, by rwa [hself]⟩))
    · exact .inr (.inr (.inr ⟨i, by rwa [hself]⟩))
    · have hother : (m.setThread i pc').threads j = s.threads j := by
        rw [Queue.threads_setThread_of_ne m pc' hji, hthreads]
      rcases hj with hj | hj
      · exact .inr (.inr (.inl ⟨j, by rwa [hother]⟩))
      · exact .inr (.inr (.inr ⟨j, by rwa [hother]⟩))
  alive j a ha := by
    by_cases hji : j = i
    · subst hji
      rw [Queue.threads_setThread_self] at ha
      exact halive a ha
    · rw [Queue.threads_setThread_of_ne m pc' hji, hthreads] at ha
      exact (hothers j hji a ha).1
  sole j k a hj hk := by
    by_cases hji : j = i
    · subst hji
      by_cases hkj : k = j
      · exact hkj.symm
      · rw [Queue.threads_setThread_self] at hj
        rw [Queue.threads_setThread_of_ne m pc' hkj, hthreads] at hk
        exact absurd hj (hothers k hkj a hk).2
    · rw [Queue.threads_setThread_of_ne m pc' hji, hthreads] at hj
      by_cases hki : k = i
      · subst hki
        rw [Queue.threads_setThread_self] at hk
        exact absurd hk (hothers j hji a hj).2
      · rw [Queue.threads_setThread_of_ne m pc' hki, hthreads] at hk
        exact h.sole j k a hj hk

/-- A thread steps on with the nodes that it has, and the others' nodes and the chain are the
same. -/
theorem Accounted.keep (h : Accounted s) (hpc : s.threads i = pc) (hthreads : m.threads = s.threads)
    (hallocated : m.allocated = s.allocated)
    (hdeleted : ∀ a, (m.nodes a).deleted = (s.nodes a).deleted)
    (hstored : ∀ a, Stored s a → Stored m a) (hallocates : pc'.allocates = pc.allocates)
    (hretires : pc'.retires = pc.retires) : Accounted (m.setThread i pc') := by
  apply h.setThread hthreads
  · intro a ha
    rw [hallocated] at ha
    rw [hdeleted, hallocates, hretires]
    rcases h.place_of_thread hpc ha with hdel | hst | hrest
    · exact .inl hdel
    · exact .inr (.inl (hstored a hst))
    · exact .inr (.inr hrest)
  · intro a ha
    rw [hdeleted]
    exact h.alive i a (by rw [hpc, ← hretires, ha])
  · intro j hji a hj
    rw [hdeleted]
    refine ⟨h.alive j a hj, fun hi => hji ?_⟩
    exact h.sole j i a hj (by rw [hpc, ← hretires, hi])

/-- A thread steps on with the nodes that it has, and nothing else changes. -/
theorem Accounted.stay (h : Accounted s) (hpc : s.threads i = pc)
    (hallocates : pc'.allocates = pc.allocates) (hretires : pc'.retires = pc.retires) :
    Accounted (s.setThread i pc') :=
  h.keep hpc rfl rfl (fun _ => rfl) (fun _ ha => ha) hallocates hretires

theorem Accounted.moves (h : Accounted s) (hl : Layout s t p) (hm : Moves i s c s' e) :
    Accounted s' := by
  have hk := hl.knows i
  cases hm with
  | enqueue value hpc =>
    apply h.setThread (m := s.newNode value) rfl
    · intro a ha
      rcases Nat.lt_succ_iff_lt_or_eq.mp ha with ha | rfl
      · have hold : ((s.newNode value).nodes a).deleted = (s.nodes a).deleted := by
          rw [Queue.newNode_nodes, Function.update_of_ne ha.ne]
        rw [hold]
        rcases h.place_of_thread hpc ha with hdel | hst | hnew | hretired | hother
        · exact .inl hdel
        · exact .inr (.inl (hl.stored_newNode value hst))
        · cases hnew
        · cases hretired
        · exact .inr (.inr (.inr (.inr hother)))
      · exact .inr (.inr (.inl rfl))
    · intro a ha
      cases ha
    · intro j hji a hj
      have hlt := hl.allocated a (List.mem_of_mem_take (hl.mem_of_retires hj))
      rw [Queue.newNode_nodes, Function.update_of_ne hlt.ne]
      exact ⟨h.alive j a hj, by simp [Pc.retires]⟩
  | dequeue hpc => exact h.stay hpc rfl rfl
  | loadTail hpc => exact h.stay hpc rfl rfl
  | tailIsLast hpc => exact h.stay hpc rfl rfl
  | tailLags hpc => exact h.stay hpc rfl rfl
  | linkFails hpc => exact h.stay hpc rfl rfl
  | advanceTailFails hpc => exact h.stay hpc rfl rfl
  | finishTailFails hpc => exact h.stay hpc rfl rfl
  | loadHead hpc => exact h.stay hpc rfl rfl
  | queueIsEmpty hpc => exact h.stay hpc rfl rfl
  | headHasNext hpc => exact h.stay hpc rfl rfl
  | advanceHeadFails hpc => exact h.stay hpc rfl rfl
  | returnFalse hpc => exact h.stay hpc rfl rfl
  | @advanceTail value newNode next hpc =>
    exact h.keep (m := s.setTail next) hpc rfl rfl (fun _ => rfl) (fun _ ha => ha) rfl rfl
  | @finishTail newNode hpc =>
    exact h.keep (m := s.setTail newNode) hpc rfl rfl (fun _ => rfl) (fun _ ha => ha) rfl rfl
  | @moveData currentHead next leftover hpc =>
    apply h.keep (m := s.setNode next { s.nodes next with data := leftover }) hpc rfl rfl
    · exact nodes_setNode Node.deleted (by rfl)
    · exact fun _ ha => stored_setNode (by rfl) ha
    · rfl
    · rfl
  | @link value newNode currentTail hpc hnext =>
    rw [hpc] at hk
    obtain ⟨hlength, rfl⟩ := hl.last_of_next hl.tail hk.2 hnext
    apply h.setThread (m := s.setNode s.tail { s.nodes s.tail with next := some newNode }) rfl
    · intro a ha
      rw [nodes_setNode Node.deleted (by rfl)]
      rcases h.place_of_thread hpc ha with hdel | hst | hnew | hretired | hother
      · exact .inl hdel
      · exact .inr (.inl (stored_link hnext hst))
      · -- the new node is the last one now
        obtain rfl : newNode = a := Option.some.inj hnew
        have hlast : Stored s s.tail := hl.stored_last hlength
        have hlink : Linked (s.setNode s.tail { s.nodes s.tail with next := some newNode }) s.tail
            newNode := by
          rw [Linked, Queue.setNode_nodes, Function.update_self]
        exact .inr (.inl ((stored_link hnext hlast).tail hlink))
      · cases hretired
      · exact .inr (.inr (.inr (.inr hother)))
    · intro a ha
      cases ha
    · intro j hji a hj
      rw [nodes_setNode Node.deleted (by rfl)]
      exact ⟨h.alive j a hj, by simp [Pc.retires]⟩
  | @advanceHead next hpc =>
    rw [hpc] at hk
    apply h.setThread (m := s.setHead next) rfl
    · intro a ha
      rcases h.place_of_thread hpc ha with hdel | hst | hnew | hretired | hother
      · exact .inl hdel
      · -- what is left of the chain, or its first node
        rcases hst.cases_head with rfl | ⟨b, hb, hrest⟩
        · exact .inr (.inr (.inr (.inl rfl)))
        · obtain rfl : next = b := Option.some.inj (hk.next.symm.trans hb)
          exact .inr (.inl hrest)
      · cases hnew
      · cases hretired
      · exact .inr (.inr (.inr (.inr hother)))
    · intro a ha
      obtain rfl : s.head = a := Option.some.inj ha
      exact hl.alive .refl
    · intro j hji a hj
      refine ⟨h.alive j a hj, fun ha => ?_⟩
      obtain rfl : s.head = a := Option.some.inj ha
      exact hl.retires_ne_head hj
  | @deleteHead currentHead result hpc =>
    apply h.setThread (m := s.setNode currentHead { s.nodes currentHead with deleted := true }) rfl
    · intro a ha
      by_cases hne : a = currentHead
      · subst hne
        exact .inl (by rw [Queue.setNode_nodes, Function.update_self])
      rw [nodes_setNode_of_ne s _ hne]
      rcases h.place_of_thread hpc ha with hdel | hst | hnew | hretired | hother
      · exact .inl hdel
      · exact .inr (.inl (stored_setNode (by rfl) hst))
      · cases hnew
      · exact absurd (Option.some.inj hretired).symm hne
      · exact .inr (.inr (.inr (.inr hother)))
    · intro a ha
      cases ha
    · intro j hji a hj
      have hne : a ≠ currentHead := by
        rintro rfl
        exact hji (h.sole j i a hj (by rw [hpc, Pc.retires]))
      rw [nodes_setNode_of_ne s _ hne]
      exact ⟨h.alive j a hj, by simp [Pc.retires]⟩

theorem Accounted.run (h : Accounted s) (hl : Layout s t p) {choices : List (ι × Choice α)}
    {u : History ι α} (hrun : run s choices = some (s', u)) : Accounted s' ∧ ∃ p', Layout s' (t ++ u) p' := by
  induction choices generalizing s t p u with
  | nil =>
    cases hrun
    rw [List.append_nil]
    exact ⟨h, p, hl⟩
  | cons x choices ih =>
    obtain ⟨m, e, v, hstep, hrest, rfl⟩ := run_cons hrun
    have hm := moves_of_step hstep
    obtain ⟨p', hlayout⟩ := hl.moves hm
    rw [← List.append_assoc]
    exact ih (h.moves hl hm) hlayout hrest

/-! ### The destructor -/

/-- The destructor deletes a chain from its first node to its last. -/
theorem destroy_eq {nodes : ℕ → Node α} {xs : List ℕ} {fuel : ℕ} (hnodup : xs.Nodup)
    (hnext : ∀ (j : ℕ) a, xs[j]? = some a → (nodes a).next = xs[j + 1]?) (hfuel : xs.length ≤ fuel) :
    ∃ nodes', destroy fuel nodes xs.head? = some (nodes', xs) ∧
      ∀ a, (nodes' a).deleted = true ↔ (nodes a).deleted = true ∨ a ∈ xs := by
  induction xs generalizing nodes fuel with
  | nil => exact ⟨nodes, by cases fuel <;> rfl, by simp⟩
  | cons x xs ih =>
    obtain ⟨hx, hnodup⟩ := List.nodup_cons.mp hnodup
    cases fuel with
    | zero => simp at hfuel
    | succ fuel =>
      -- the rest of the chain does not change when the first node is deleted
      have hrest : ∀ (j : ℕ) a, xs[j]? = some a →
          (Function.update nodes x { nodes x with deleted := true } a).next = xs[j + 1]? := by
        intro j a ha
        have hne : a ≠ x := fun heq => hx (heq ▸ List.mem_of_getElem? ha)
        rw [Function.update_of_ne hne]
        exact hnext (j + 1) a ha
      obtain ⟨nodes', hdestroy, hdeleted⟩ := ih hnodup hrest (Nat.le_of_succ_le_succ hfuel)
      have hsecond : xs.head? = (nodes x).next := by
        rw [hnext 0 x rfl, List.getElem?_cons_succ, List.head?_eq_getElem?]
      rw [hsecond] at hdestroy
      refine ⟨nodes', ?_, fun a => ?_⟩
      · simp only [List.head?_cons, destroy, hdestroy, Option.bind_eq_bind, Option.bind_some]
      · rw [hdeleted]
        by_cases ha : a = x
        · simp [ha]
        · simp [ha]

/-- What the memory of a queue owes its users. -/
structure MemorySafe (s : Queue ι α) : Prop where
  /-- A node that a call is going to delete has not been deleted. -/
  alive : ∀ i a, (s.threads i).retires = some a → (s.nodes a).deleted = false
  /-- No two calls are going to delete the same node. -/
  sole : ∀ i j a, (s.threads i).retires = some a → (s.threads j).retires = some a → i = j
  /-- Between calls the destructor terminates. It deletes what has not been deleted, each node
  once, and leaves nothing. -/
  destroyed : Quiescent s → ∃ nodes deleted,
    destroy s.allocated s.nodes (some s.head) = some (nodes, deleted) ∧ deleted.Nodup ∧
      (∀ a ∈ deleted, (s.nodes a).deleted = false) ∧
      ∀ a, (nodes a).deleted = true ↔ a < s.allocated

omit [DecidableEq ι] in
theorem Layout.length_le (h : Layout s t p) : p.chain.length ≤ s.allocated := by
  have hsub : p.chain ⊆ List.range s.allocated := fun a ha => List.mem_range.mpr (h.allocated a ha)
  simpa using (h.nodup.subperm hsub).length_le

omit [DecidableEq ι] in
theorem Accounted.place_of_quiescent (h : Accounted s) (hquiet : Quiescent s) (ha : a < s.allocated) :
    (s.nodes a).deleted = true ∨ Stored s a := by
  rcases h.place a ha with hdeleted | hstored | ⟨i, hi⟩ | ⟨i, hi⟩
  · exact .inl hdeleted
  · exact .inr hstored
  · rw [hquiet i] at hi
    cases hi
  · rw [hquiet i] at hi
    cases hi

omit [DecidableEq ι] in
theorem Accounted.memorySafe (h : Accounted s) (hl : Layout s t p) : MemorySafe s where
  alive := h.alive
  sole := h.sole
  destroyed hquiet := by
    have hnext : ∀ (j : ℕ) a, (p.chain.drop p.head)[j]? = some a →
        (s.nodes a).next = (p.chain.drop p.head)[j + 1]? := by
      intro j a ha
      rw [List.getElem?_drop] at ha ⊢
      exact hl.next _ a ha
    have hfuel : (p.chain.drop p.head).length ≤ s.allocated := by
      rw [List.length_drop]
      exact (Nat.sub_le _ _).trans hl.length_le
    have hhead : (p.chain.drop p.head).head? = some s.head := by
      rw [List.head?_drop, hl.head]
    obtain ⟨nodes, hdestroy, hdeleted⟩ :=
      destroy_eq (hl.nodup.sublist (List.drop_sublist _ _)) hnext hfuel
    rw [hhead] at hdestroy
    refine ⟨nodes, _, hdestroy, hl.nodup.sublist (List.drop_sublist _ _), fun a ha => ?_, fun a => ?_⟩
    · exact hl.alive (hl.stored_iff.mpr ha)
    · rw [hdeleted]
      constructor
      · rintro (ha | ha)
        · exact hl.allocated a (List.mem_of_mem_take (hl.deleted a ha))
        · exact hl.allocated a (List.mem_of_mem_drop ha)
      · intro ha
        exact (h.place_of_quiescent hquiet ha).imp_right hl.stored_iff.mp

/-- No call and no destructor deletes a node twice, and none is lost: in every run of any number
of threads each node is deleted by one call of `dequeue` or by the destructor. -/
theorem nodes_deleted_once (stub : α) (choices : List (ι × Choice α)) (s : Queue ι α)
    (t : History ι α) (hrun : run (.start stub) choices = some (s, t)) : MemorySafe s := by
  obtain ⟨h, p, hl⟩ := (accounted_start stub).run (layout_start stub) hrun
  exact h.memorySafe hl

theorem nodes_deleted_once_of_two_calls : ∃ (s : Queue Bool ℕ) (t : History Bool ℕ),
    run (.start 0) twoCalls = some (s, t) ∧ MemorySafe s :=
  ⟨_, _, rfl, nodes_deleted_once 0 twoCalls _ _ rfl⟩

end RedisServer.NonBlockingQueue
