import RedisServer.NonBlockingQueue
import Mathlib.Data.List.Nodup

/-!
# The chain of nodes

All nodes that were ever linked form one chain. Head and tail are on it, each of them may be ahead
of the other, and what stands behind head is what the abstract queue holds. Threads hold pointers
that may be old, but a link that was seen once stays, and each thread has its new node, or the node
it has taken, for itself.
-/

namespace RedisServer.NonBlockingQueue
open QueueHistories

/-- The nodes that were ever linked, and where head and tail are among them. -/
structure Placement where
  chain : List ℕ
  head : ℕ
  tail : ℕ

/-- The node that no other thread writes to: one that is not linked yet, or one whose data are
still to be moved out. -/
def Pc.owns {α : Type} : Pc α → Option ℕ
  | .loadTail _ newNode => some newNode
  | .loadTailNext _ newNode _ => some newNode
  | .linkNode _ newNode _ => some newNode
  | .advanceTail _ newNode _ _ => some newNode
  | .moveData _ next => some next
  | _ => none

variable {ι α : Type}

/-- What the abstract queue holds. -/
def content (s : Queue ι α) (p : Placement) : List α :=
  (p.chain.drop (p.head + 1)).map fun a => (s.nodes a).data

/-- A node that is not linked yet. -/
structure Fresh (s : Queue ι α) (p : Placement) (value : α) (a : ℕ) : Prop where
  node : s.nodes a = ⟨value, none, false⟩
  lt : a < s.allocated
  notMem : a ∉ p.chain

/-- The link from `a` to `b`. -/
structure Follows (s : Queue ι α) (p : Placement) (a b : ℕ) : Prop where
  mem : a ∈ p.chain
  next : (s.nodes a).next = some b

/-- What a thread can rely on, whatever the others do. -/
def Knows (s : Queue ι α) (t : History ι α) (p : Placement) (i : ι) : Pc α → Prop
  | .idle => True
  | .loadTail value newNode => Fresh s p value newNode
  | .loadTailNext value newNode currentTail =>
    Fresh s p value newNode ∧ currentTail ∈ p.chain.take (p.tail + 1)
  | .linkNode value newNode currentTail =>
    Fresh s p value newNode ∧ currentTail ∈ p.chain.take (p.tail + 1)
  | .advanceTail value newNode currentTail next =>
    Fresh s p value newNode ∧ Follows s p currentTail next
  | .finishTail newNode currentTail => Follows s p currentTail newNode
  | .loadHead => True
  | .loadHeadNext currentHead => currentHead ∈ p.chain.take (p.head + 1)
  | .advanceHead currentHead next => Follows s p currentHead next
  | .moveData currentHead next => currentHead ∈ p.chain.take p.head ∧
      next ∈ p.chain.take (p.head + 1) ∧ Last t i (.claimed (s.nodes next).data)
  | .deleteHead currentHead result =>
    currentHead ∈ p.chain.take p.head ∧ Last t i (.claimed result)
  | .returnFalse => Last t i (.inspected true)

/-- What holds after the history `t`. -/
structure Layout (s : Queue ι α) (t : History ι α) (p : Placement) : Prop where
  nodup : p.chain.Nodup
  allocated : ∀ a ∈ p.chain, a < s.allocated
  head : p.chain[p.head]? = some s.head
  tail : p.chain[p.tail]? = some s.tail
  lag : p.chain.length ≤ p.tail + 2
  next : ∀ (j : ℕ) a, p.chain[j]? = some a → (s.nodes a).next = p.chain[j + 1]?
  deleted : ∀ a, (s.nodes a).deleted = true → a ∈ p.chain.take p.head
  served : Served [] t (content s p)
  justified : Justified t
  knows : ∀ i, Knows s t p i (s.threads i)
  owners : ∀ i j a, (s.threads i).owns = some a → (s.threads j).owns = some a → i = j

theorem layout_start (stub : α) : Layout (Queue.start stub : Queue ι α) [] ⟨[0], 0, 0⟩ where
  nodup := List.nodup_singleton 0
  allocated := by simp [Queue.start]
  head := rfl
  tail := rfl
  lag := by simp
  next j a h := by
    cases j with
    | zero => rfl
    | succ j => simp at h
  deleted := by simp [Queue.start]
  served := .nil []
  justified := justified_nil
  knows _ := trivial
  owners i j a h := by simp [Queue.start, Pc.owns] at h

variable {s s' : Queue ι α} {t t' : History ι α} {p p' : Placement} {i j : ι} {pc : Pc α} {a b : ℕ}
  {value : α}

/-! ### What a thread knows survives the steps of the others -/

theorem mem_take_of_isPrefix {xs ys : List ℕ} {m n : ℕ} (h : a ∈ xs.take m) (hxs : xs <+: ys)
    (hmn : m ≤ n) : a ∈ ys.take n :=
  List.take_subset_take_left ys hmn ((hxs.take m).mem h)

theorem Knows.mono (hk : Knows s t p j pc) (hchain : p.chain <+: p'.chain)
    (hhead : p.head ≤ p'.head) (htail : p.tail ≤ p'.tail) (hallocated : s.allocated ≤ s'.allocated)
    (hnext : ∀ a ∈ p.chain, ∀ b, (s.nodes a).next = some b → (s'.nodes a).next = some b)
    (hfresh : ∀ a, pc.owns = some a → a ∉ p.chain → s'.nodes a = s.nodes a ∧ a ∉ p'.chain)
    (hdata : ∀ a, pc.owns = some a → (s'.nodes a).data = (s.nodes a).data)
    (hlast : ∀ e, Last t j e → Last t' j e) : Knows s' t' p' j pc := by
  have hfollows {a b : ℕ} (h : Follows s p a b) : Follows s' p' a b :=
    ⟨hchain.mem h.mem, hnext a h.mem b h.next⟩
  have hnew {value : α} {a : ℕ} (howns : pc.owns = some a) (h : Fresh s p value a) :
      Fresh s' p' value a := by
    obtain ⟨hnode, hmem⟩ := hfresh a howns h.notMem
    exact ⟨hnode.trans h.node, h.lt.trans_le hallocated, hmem⟩
  cases pc with
  | idle => trivial
  | loadTail => exact hnew rfl hk
  | loadTailNext => exact ⟨hnew rfl hk.1, mem_take_of_isPrefix hk.2 hchain (Nat.succ_le_succ htail)⟩
  | linkNode => exact ⟨hnew rfl hk.1, mem_take_of_isPrefix hk.2 hchain (Nat.succ_le_succ htail)⟩
  | advanceTail => exact ⟨hnew rfl hk.1, hfollows hk.2⟩
  | finishTail => exact hfollows hk
  | loadHead => trivial
  | loadHeadNext => exact mem_take_of_isPrefix hk hchain (Nat.succ_le_succ hhead)
  | advanceHead => exact hfollows hk
  | moveData currentHead next =>
    obtain ⟨hcurrent, hmem, hclaimed⟩ := hk
    refine ⟨mem_take_of_isPrefix hcurrent hchain hhead,
      mem_take_of_isPrefix hmem hchain (Nat.succ_le_succ hhead), ?_⟩
    rw [hdata next rfl]
    exact hlast _ hclaimed
  | deleteHead => exact ⟨mem_take_of_isPrefix hk.1 hchain hhead, hlast _ hk.2⟩
  | returnFalse => exact hlast _ hk

/-! ### Steps of a thread on its own -/

section Threads

variable [DecidableEq ι]

@[simp] theorem Queue.setThread_setThread (s : Queue ι α) (i : ι) (pc pc' : Pc α) :
    (s.setThread i pc).setThread i pc' = s.setThread i pc' := by
  simp [Queue.setThread]

@[simp] theorem Queue.threads_setThread_self (s : Queue ι α) (i : ι) (pc : Pc α) :
    (s.setThread i pc).threads i = pc := Function.update_self ..

theorem Queue.threads_setThread_of_ne (s : Queue ι α) (pc : Pc α) (h : j ≠ i) :
    (s.setThread i pc).threads j = s.threads j := Function.update_of_ne h ..

theorem Knows.setThread (h : Knows s t p j pc) (i : ι) (pc' : Pc α) :
    Knows (s.setThread i pc') t p j pc :=
  h.mono List.prefix_rfl le_rfl le_rfl le_rfl (fun _ _ _ hb => hb) (fun _ _ ha => ⟨rfl, ha⟩)
    (fun _ _ => rfl) (fun _ he => he)

/-- A thread that does nothing steps on, with a node that it has found for itself. -/
theorem Layout.resume_of_idle (h : Layout s t p) (hidle : s.threads i = .idle) (hk : Knows s t p i pc)
    (howns : ∀ a, pc.owns = some a → ∀ j, (s.threads j).owns ≠ some a) :
    Layout (s.setThread i pc) t p :=
  { h with
    knows := by
      intro j
      by_cases hj : j = i
      · subst hj
        rw [Queue.threads_setThread_self]
        exact hk.setThread j pc
      · rw [Queue.threads_setThread_of_ne s pc hj]
        exact (h.knows j).setThread i pc
    owners := by
      intro j k a hja hka
      by_cases hj : j = i
      · subst hj
        by_cases hk : k = j
        · exact hk.symm
        · rw [Queue.threads_setThread_self] at hja
          rw [Queue.threads_setThread_of_ne s pc hk] at hka
          exact absurd hka (howns a hja k)
      · rw [Queue.threads_setThread_of_ne s pc hj] at hja
        by_cases hk : k = i
        · subst hk
          rw [Queue.threads_setThread_self] at hka
          exact absurd hja (howns a hka j)
        · rw [Queue.threads_setThread_of_ne s pc hk] at hka
          exact h.owners j k a hja hka }

/-- A thread forgets what it was about to do. -/
theorem Layout.forget (h : Layout s t p) (i : ι) : Layout (s.setThread i .idle) t p :=
  { h with
    knows := by
      intro j
      by_cases hj : j = i
      · subst hj
        rw [Queue.threads_setThread_self]
        trivial
      · rw [Queue.threads_setThread_of_ne s .idle hj]
        exact (h.knows j).setThread i .idle
    owners := by
      intro j k a hja hka
      have howns {j : ι} (hja : ((s.setThread i .idle).threads j).owns = some a) :
          (s.threads j).owns = some a := by
        by_cases hj : j = i
        · subst hj
          rw [Queue.threads_setThread_self] at hja
          cases hja
        · rwa [Queue.threads_setThread_of_ne s .idle hj] at hja
      exact h.owners j k a (howns hja) (howns hka) }

/-- No other thread has the node for itself. -/
theorem Layout.not_owns (h : Layout s t p) (howns : (s.threads i).owns = some a) (j : ι) :
    ((s.setThread i .idle).threads j).owns ≠ some a := by
  intro hja
  by_cases hj : j = i
  · subst hj
    rw [Queue.threads_setThread_self] at hja
    cases hja
  · rw [Queue.threads_setThread_of_ne s .idle hj] at hja
    exact hj (h.owners j i a hja howns)

/-- A thread that has forgotten what it was about to do steps on. -/
theorem Layout.resume (h : Layout (s.setThread i .idle) t p) (hk : Knows s t p i pc)
    (howns : ∀ a, pc.owns = some a → ∀ j, ((s.setThread i .idle).threads j).owns ≠ some a) :
    Layout (s.setThread i pc) t p := by
  have hresumed := h.resume_of_idle (Queue.threads_setThread_self ..) (hk.setThread i .idle) howns
  rwa [Queue.setThread_setThread] at hresumed

/-- A thread steps on with what it had for itself. -/
theorem Layout.setThread {pc' : Pc α} (h : Layout s t p) (hpc : s.threads i = pc)
    (hk : Knows s t p i pc') (howns : ∀ a, pc'.owns = some a → pc.owns = some a) :
    Layout (s.setThread i pc') t p := by
  apply (h.forget i).resume hk
  intro a ha
  apply h.not_owns
  rw [hpc, howns a ha]

end Threads

/-! ### Places on the chain -/

theorem exists_lt_of_mem_take {xs : List ℕ} {n : ℕ} (h : a ∈ xs.take n) :
    ∃ j < n, xs[j]? = some a := by
  obtain ⟨j, hj⟩ := List.mem_iff_getElem?.mp h
  rw [List.getElem?_take] at hj
  split at hj
  · exact ⟨j, ‹_›, hj⟩
  · cases hj

theorem mem_take_of_getElem? {xs : List ℕ} {m n : ℕ} (h : xs[m]? = some a) (hm : m < n) :
    a ∈ xs.take n := by
  apply List.mem_of_getElem? (i := m)
  rw [List.getElem?_take, if_pos hm, h]

theorem lt_length_of_getElem? {xs : List ℕ} {n : ℕ} (h : xs[n]? = some a) : n < xs.length :=
  (List.getElem?_eq_some_iff.mp h).1

/-- A node without a successor is the last one. -/
theorem Layout.last_of_next {n : ℕ} (h : Layout s t p) (hn : p.chain[n]? = some b)
    (hmem : a ∈ p.chain.take (n + 1)) (hnext : (s.nodes a).next = none) :
    p.chain.length = n + 1 ∧ a = b := by
  obtain ⟨j, hj, ha⟩ := exists_lt_of_mem_take hmem
  have hlast := h.next j a ha
  rw [hnext] at hlast
  have hlength := List.getElem?_eq_none_iff.mp hlast.symm
  have hlt := lt_length_of_getElem? hn
  obtain rfl : j = n := by omega
  exact ⟨by omega, Option.some.inj (ha.symm.trans hn)⟩

/-- The successor of a node is the next one on the chain. -/
theorem Layout.getElem?_of_follows {n : ℕ} (h : Layout s t p) (hn : p.chain[n]? = some a)
    (hnext : (s.nodes a).next = some b) : p.chain[n + 1]? = some b := by
  rw [← h.next n a hn, hnext]

theorem Layout.index_eq {m n : ℕ} (h : Layout s t p) (hm : p.chain[m]? = some a)
    (hn : p.chain[n]? = some a) : m = n :=
  (List.getElem?_inj (lt_length_of_getElem? hm) h.nodup).mp (hm.trans hn.symm)

/-! ### Steps that change the queue

The thread that makes the step has forgotten what it was about to do. -/

theorem Layout.knows_of_idle (h : Layout s t p) (hidle : s.threads i = .idle)
    (hthreads : s'.threads = s.threads)
    (hknows : ∀ j ≠ i, Knows s t p j (s.threads j) → Knows s' t' p' j (s.threads j)) (j : ι) :
    Knows s' t' p' j (s'.threads j) := by
  rw [hthreads]
  by_cases hj : j = i
  · subst hj
    rw [hidle]
    trivial
  · exact hknows j hj (h.knows j)

theorem last_append_other {e e' : Event α} (hj : j ≠ i) (h : Last t j e) :
    Last (t ++ [(i, e')]) j e :=
  h.append fun x hx => by
    rw [List.mem_singleton.mp hx]
    exact hj.symm

/-- The thread finds something out, or it returns. -/
theorem Layout.record {e : Event α} (h : Layout s t p) (hidle : s.threads i = .idle)
    (hserves : Serves (content s p) e (content s p))
    (hcause : ∀ result, e = .returned result → Last t i (Event.cause result)) :
    Layout s (t ++ [(i, e)]) p :=
  { h with
    served := h.served.snoc i hserves
    justified := h.justified.append hcause
    knows := by
      apply h.knows_of_idle hidle rfl
      intro j hj hk
      exact hk.mono List.prefix_rfl le_rfl le_rfl le_rfl (fun _ _ _ hb => hb) (fun _ _ ha => ⟨rfl, ha⟩)
        (fun _ _ => rfl) (fun _ he => last_append_other hj he) }

/-- A node that a thread has for itself is not linked yet, or head has reached it. -/
theorem Layout.fresh_or_reached (h : Layout s t p) (howns : (s.threads j).owns = some a) :
    (∃ value, Fresh s p value a) ∨ a ∈ p.chain.take (p.head + 1) := by
  have hk := h.knows j
  rcases hpc : s.threads j with _ | _ | _ | _ | _ | _ | _ | _ | _ | _ | _ | _
  all_goals
    rw [hpc] at howns hk
    cases howns
  · exact .inl ⟨_, hk⟩
  · exact .inl ⟨_, hk.1⟩
  · exact .inl ⟨_, hk.1⟩
  · exact .inl ⟨_, hk.1⟩
  · exact .inr hk.2.1

theorem Layout.owned_lt (h : Layout s t p) (howns : (s.threads j).owns = some a) :
    a < s.allocated := by
  rcases h.fresh_or_reached howns with ⟨value, hfresh⟩ | hmem
  · exact hfresh.lt
  · exact h.allocated a (List.mem_of_mem_take hmem)

/-- The node behind head belongs to no thread. -/
theorem Layout.next_not_owned (h : Layout s t p) (ha : p.chain[p.head + 1]? = some a) :
    (s.threads j).owns ≠ some a := by
  intro howns
  rcases h.fresh_or_reached howns with ⟨value, hfresh⟩ | hmem
  · exact hfresh.notMem (List.mem_of_getElem? ha)
  · obtain ⟨n, hn, han⟩ := exists_lt_of_mem_take hmem
    have heq := h.index_eq ha han
    omega

/-- A node that was never used before. -/
theorem Layout.newNode (h : Layout s t p) (value : α) : Layout (s.newNode value) t p := by
  have hold {a : ℕ} (ha : a < s.allocated) : (s.newNode value).nodes a = s.nodes a :=
    Function.update_of_ne ha.ne ..
  have hcontent : content (s.newNode value) p = content s p := by
    apply List.map_congr_left
    intro a ha
    rw [hold (h.allocated a (List.mem_of_mem_drop ha))]
  exact
    { h with
      allocated := fun a ha => (h.allocated a ha).trans (Nat.lt_succ_self _)
      next := by
        intro j a ha
        rw [hold (h.allocated a (List.mem_of_getElem? ha))]
        exact h.next j a ha
      deleted := by
        intro a ha
        by_cases hlt : a = s.allocated
        · subst hlt
          rw [Queue.newNode_nodes, Function.update_self] at ha
          cases ha
        · rw [Queue.newNode_nodes, Function.update_of_ne hlt] at ha
          exact h.deleted a ha
      served := by
        rw [hcontent]
        exact h.served
      knows := by
        intro j
        apply (h.knows j).mono List.prefix_rfl le_rfl le_rfl (Nat.le_succ _)
        · intro a ha b hb
          rwa [hold (h.allocated a ha)]
        · intro a howns hmem
          exact ⟨hold (h.owned_lt howns), hmem⟩
        · intro a howns
          rw [hold (h.owned_lt howns)]
        · exact fun _ he => he }

/-- Tail moves on to the next node. -/
theorem Layout.setTail (h : Layout s t p) (hnext : (s.nodes s.tail).next = some a) :
    Layout (s.setTail a) t ⟨p.chain, p.head, p.tail + 1⟩ :=
  { h with
    tail := h.getElem?_of_follows h.tail hnext
    lag := h.lag.trans (Nat.le_succ _)
    knows := by
      intro j
      exact (h.knows j).mono List.prefix_rfl le_rfl (Nat.le_succ _) le_rfl (fun _ _ _ hb => hb)
        (fun _ _ ha => ⟨rfl, ha⟩) (fun _ _ => rfl) (fun _ he => he) }

/-- Head moves on to the next node, whose value is the first one of the abstract queue. -/
theorem Layout.setHead (h : Layout s t p) (hidle : s.threads i = .idle)
    (hnext : (s.nodes s.head).next = some a) :
    Layout (s.setHead a) (t ++ [(i, .claimed (s.nodes a).data)]) ⟨p.chain, p.head + 1, p.tail⟩ := by
  have ha := h.getElem?_of_follows h.head hnext
  obtain ⟨hlt, heq⟩ := List.getElem?_eq_some_iff.mp ha
  have hcontent : content s p = (s.nodes a).data :: content (s.setHead a) ⟨p.chain, p.head + 1, p.tail⟩ := by
    rw [content, List.drop_eq_getElem_cons hlt, heq]
    rfl
  exact
    { h with
      head := ha
      deleted := fun b hb => mem_take_of_isPrefix (h.deleted b hb) List.prefix_rfl (Nat.le_succ _)
      served := by
        have hserved := h.served
        rw [hcontent] at hserved
        exact hserved.snoc i (.claimed _ _)
      justified := h.justified.append (by simp)
      knows := by
        have hthreads : (s.setHead a).threads = s.threads := rfl
        apply h.knows_of_idle hidle hthreads
        intro j hj hk
        exact hk.mono List.prefix_rfl (Nat.le_succ _) le_rfl le_rfl (fun _ _ _ hb => hb)
          (fun _ _ ha => ⟨rfl, ha⟩) (fun _ _ => rfl) (fun _ he => last_append_other hj he) }

theorem nodes_setNode_of_ne (s : Queue ι α) (node : Node α) (h : b ≠ a) :
    (s.setNode a node).nodes b = s.nodes b := Function.update_of_ne h ..

/-- A field of the nodes that is written as it was. -/
theorem nodes_setNode {β : Type} {node : Node α} (f : Node α → β) (h : f node = f (s.nodes a))
    (b : ℕ) : f ((s.setNode a node).nodes b) = f (s.nodes b) := by
  by_cases hb : b = a
  · rw [hb, Queue.setNode_nodes, Function.update_self, h]
  · rw [nodes_setNode_of_ne s node hb]

/-- A node that head has reached may change, as long as its link stays, and its data if a thread is
about to move them. -/
theorem Layout.setNode {node : Node α} (h : Layout s t p) (hmem : a ∈ p.chain.take (p.head + 1))
    (hnext : node.next = (s.nodes a).next) (hdeleted : node.deleted = true → a ∈ p.chain.take p.head)
    (hdata : ∀ j, (s.threads j).owns = some a → node.data = (s.nodes a).data) :
    Layout (s.setNode a node) t p := by
  have hself : (s.setNode a node).nodes a = node := Function.update_self ..
  have hcontent : content (s.setNode a node) p = content s p := by
    apply List.map_congr_left
    intro b hb
    have hne : b ≠ a := by
      rintro rfl
      exact List.disjoint_take_drop h.nodup le_rfl hmem hb
    rw [nodes_setNode_of_ne s node hne]
  have hallocated : s.allocated ≤ (s.setNode a node).allocated := le_rfl
  exact
    { h with
      next := by
        intro j b hb
        rw [nodes_setNode Node.next hnext]
        exact h.next j b hb
      deleted := by
        intro b hb
        by_cases hba : b = a
        · rw [hba, hself] at hb
          rw [hba]
          exact hdeleted hb
        · rw [nodes_setNode_of_ne s node hba] at hb
          exact h.deleted b hb
      served := by
        rw [hcontent]
        exact h.served
      knows := by
        intro j
        apply (h.knows j).mono List.prefix_rfl le_rfl le_rfl hallocated
        · intro b _ c hc
          rwa [nodes_setNode Node.next hnext]
        · intro b _ hb
          refine ⟨nodes_setNode_of_ne s node ?_, hb⟩
          rintro rfl
          exact hb (List.mem_of_mem_take hmem)
        · intro b howns
          by_cases hb : b = a
          · rw [hb] at howns ⊢
            rw [hself]
            exact hdata j howns
          · rw [nodes_setNode_of_ne s node hb]
        · exact fun _ he => he }

theorem content_link {node : Node α} (hfresh : Fresh s p value b) (hhead : p.head < p.chain.length)
    (hdata : node.data = (s.nodes s.tail).data) :
    content (s.setNode s.tail node) ⟨p.chain ++ [b], p.head, p.tail⟩ = content s p ++ [value] := by
  have hmap : content (s.setNode s.tail node) ⟨p.chain ++ [b], p.head, p.tail⟩
      = ((p.chain ++ [b]).drop (p.head + 1)).map fun c => (s.nodes c).data :=
    List.map_congr_left fun c _ => nodes_setNode Node.data hdata c
  rw [hmap, List.drop_append_of_le_length hhead, List.map_append, List.map_singleton, hfresh.node]
  rfl

/-- The links of the longer chain. -/
theorem Layout.next_link {node : Node α} (h : Layout s t p) (hfresh : Fresh s p value b)
    (hlength : p.chain.length = p.tail + 1) (hnext : node.next = some b) (j : ℕ)
    (ha : (p.chain ++ [b])[j]? = some a) :
    ((s.setNode s.tail node).nodes a).next = (p.chain ++ [b])[j + 1]? := by
  rcases Nat.lt_or_ge j p.chain.length with hj | hj
  · rw [List.getElem?_append_left hj] at ha
    by_cases hat : a = s.tail
    · -- the link to the new node
      subst hat
      rw [Queue.setNode_nodes, Function.update_self, hnext, h.index_eq ha h.tail, ← hlength,
        List.getElem?_concat_length]
    · have hjt : j ≠ p.tail := by
        rintro rfl
        exact hat (Option.some.inj (ha.symm.trans h.tail))
      rw [nodes_setNode_of_ne s node hat, h.next j a ha, List.getElem?_append_left (by omega)]
  · have hlt := lt_length_of_getElem? ha
    rw [List.length_append, List.length_singleton] at hlt
    obtain rfl : j = p.chain.length := by omega
    rw [List.getElem?_concat_length] at ha
    obtain rfl := Option.some.inj ha
    have hne : b ≠ s.tail := fun hb => hfresh.notMem (hb ▸ List.mem_of_getElem? h.tail)
    rw [nodes_setNode_of_ne s node hne, hfresh.node, List.getElem?_eq_none]
    simp

/-- What another thread knows when the new node is linked. -/
theorem Knows.link {node : Node α} (hk : Knows s t p j pc) (hj : j ≠ i) (htail : s.tail ∈ p.chain)
    (hlast : (s.nodes s.tail).next = none) (hdata : node.data = (s.nodes s.tail).data)
    (howns : pc.owns ≠ some b) :
    Knows (s.setNode s.tail node) (t ++ [(i, .linked value)]) ⟨p.chain ++ [b], p.head, p.tail⟩ j
      pc := by
  have hallocated : s.allocated ≤ (s.setNode s.tail node).allocated := le_rfl
  refine hk.mono (List.prefix_append p.chain [b]) le_rfl le_rfl hallocated ?_ ?_ ?_ ?_
  · intro c _ d hd
    have hct : c ≠ s.tail := by
      rintro rfl
      rw [hlast] at hd
      cases hd
    rwa [nodes_setNode_of_ne s node hct]
  · intro c hc hcmem
    refine ⟨nodes_setNode_of_ne s node (fun hct => hcmem (hct ▸ htail)), ?_⟩
    intro hlinked
    rcases List.mem_append.mp hlinked with hlinked | hlinked
    · exact hcmem hlinked
    · rw [List.mem_singleton.mp hlinked] at hc
      exact howns hc
  · exact fun c _ => nodes_setNode Node.data hdata c
  · exact fun _ he => last_append_other hj he

/-- The new node becomes the last one. -/
theorem Layout.link {node : Node α} (h : Layout s t p) (hidle : s.threads i = .idle)
    (hfresh : Fresh s p value b) (howns : ∀ j, (s.threads j).owns ≠ some b)
    (htail : (s.nodes s.tail).next = none) (hlength : p.chain.length = p.tail + 1)
    (hnext : node.next = some b) (hdata : node.data = (s.nodes s.tail).data)
    (hdeleted : node.deleted = (s.nodes s.tail).deleted) :
    Layout (s.setNode s.tail node) (t ++ [(i, .linked value)])
      ⟨p.chain ++ [b], p.head, p.tail⟩ where
  nodup := by
    rw [← List.concat_eq_append]
    exact h.nodup.concat hfresh.notMem
  allocated c hc := by
    rcases List.mem_append.mp hc with hc | hc
    · exact h.allocated c hc
    · rw [List.mem_singleton.mp hc]
      exact hfresh.lt
  head := by
    rw [List.getElem?_append_left (lt_length_of_getElem? h.head)]
    exact h.head
  tail := by
    rw [List.getElem?_append_left (lt_length_of_getElem? h.tail)]
    exact h.tail
  lag := by rw [List.length_append, List.length_singleton, hlength]
  next j _ hc := h.next_link hfresh hlength hnext j hc
  deleted c hc := by
    rw [nodes_setNode Node.deleted hdeleted] at hc
    exact mem_take_of_isPrefix (h.deleted c hc) (List.prefix_append ..) le_rfl
  served := by
    rw [content_link hfresh (lt_length_of_getElem? h.head) hdata]
    exact h.served.snoc i (.linked _ value)
  justified := h.justified.append (by simp)
  knows := by
    have hthreads : (s.setNode s.tail node).threads = s.threads := rfl
    apply h.knows_of_idle hidle hthreads
    intro j hj hk
    exact hk.link hj (List.mem_of_getElem? h.tail) htail hdata (howns j)
  owners := h.owners

/-! ### Steps and runs -/

section Runs

variable [DecidableEq ι] {c : Choice α} {e : Option (Event α)}

omit [DecidableEq ι] in
theorem Layout.silent (h : Layout s' t p') :
    ∃ p', Layout s' (t ++ (none : Option (Event α)).toList.map (Prod.mk i)) p' := by
  refine ⟨p', ?_⟩
  rwa [Option.toList_none, List.map_nil, List.append_nil]

/-- A step takes the layout of one moment to that of the next. -/
theorem Layout.moves (h : Layout s t p) (hm : Moves i s c s' e) :
    ∃ p', Layout s' (t ++ e.toList.map (Prod.mk i)) p' := by
  have hk := h.knows i
  have hforget := h.forget i
  have hidle : (s.setThread i .idle).threads i = .idle := Queue.threads_setThread_self ..
  have hsame {pc : Pc α} : ∀ a, pc.owns = some a → pc.owns = some a := fun _ ha => ha
  have hnothing {pc pc' : Pc α} (hpc : pc.owns = none) : ∀ a, pc.owns = some a → pc'.owns = some a := by
    rw [hpc]
    rintro _ ⟨⟩
  have hend : Knows s t p i .idle := trivial
  have hloop : Knows s t p i .loadHead := trivial
  cases hm with
  | enqueue value hpc =>
    have hnew : Layout ((s.newNode value).setThread i .idle) t p := hforget.newNode value
    have hfresh : Fresh (s.newNode value) p value s.allocated :=
      ⟨Function.update_self .., Nat.lt_succ_self _, fun hmem => (h.allocated _ hmem).false⟩
    apply Layout.silent
    apply hnew.resume
    · exact hfresh
    · rintro _ ⟨⟩ j howns
      exact (hforget.owned_lt howns).false
  | dequeue hpc => exact (h.setThread hpc hloop (hnothing rfl)).silent
  | @loadTail value newNode hpc =>
    rw [hpc] at hk
    have hloaded : Knows s t p i (.loadTailNext value newNode s.tail) :=
      ⟨hk, mem_take_of_getElem? h.tail (Nat.lt_succ_self _)⟩
    exact (h.setThread hpc hloaded hsame).silent
  | @tailIsLast value newNode currentTail hpc hnext =>
    rw [hpc] at hk
    have hloaded : Knows s t p i (.linkNode value newNode currentTail) := hk
    exact (h.setThread hpc hloaded hsame).silent
  | @tailLags value newNode currentTail next hpc hnext =>
    rw [hpc] at hk
    have hloaded : Knows s t p i (.advanceTail value newNode currentTail next) :=
      ⟨hk.1, List.mem_of_mem_take hk.2, hnext⟩
    exact (h.setThread hpc hloaded hsame).silent
  | @link value newNode currentTail hpc hnext =>
    rw [hpc] at hk
    obtain ⟨hfresh, hmem⟩ := hk
    obtain ⟨hlength, rfl⟩ := h.last_of_next h.tail hmem hnext
    have howns : (s.threads i).owns = some newNode := by rw [hpc, Pc.owns]
    have hlinked : Layout ((s.setNode s.tail { s.nodes s.tail with next := some newNode }).setThread i
        .idle) (t ++ [(i, .linked value)]) ⟨p.chain ++ [newNode], p.head, p.tail⟩ :=
      hforget.link hidle ⟨hfresh.node, hfresh.lt, hfresh.notMem⟩ (h.not_owns howns) hnext hlength rfl
        rfl rfl
    refine ⟨_, hlinked.resume ?_ ?_⟩
    · exact ⟨List.mem_append_left _ (List.mem_of_mem_take hmem), by
        rw [Queue.setNode_nodes, Function.update_self]⟩
    · rintro _ ⟨⟩
  | @linkFails _ value newNode currentTail hpc =>
    rw [hpc] at hk
    have hfresh : Knows s t p i (.loadTail value newNode) := hk.1
    exact (h.setThread hpc hfresh hsame).silent
  | @advanceTail value newNode next hpc =>
    rw [hpc] at hk
    obtain ⟨hfresh, hfollows⟩ := hk
    have hmoved : Layout ((s.setTail next).setThread i .idle) t ⟨p.chain, p.head, p.tail + 1⟩ :=
      hforget.setTail hfollows.next
    have howns : (s.threads i).owns = some newNode := by rw [hpc, Pc.owns]
    apply Layout.silent
    apply hmoved.resume
    · exact ⟨hfresh.node, hfresh.lt, hfresh.notMem⟩
    · rintro _ ⟨⟩
      exact h.not_owns howns
  | @advanceTailFails _ value newNode _ _ hpc =>
    rw [hpc] at hk
    have hfresh : Knows s t p i (.loadTail value newNode) := hk.1
    exact (h.setThread hpc hfresh hsame).silent
  | @finishTail newNode hpc =>
    rw [hpc] at hk
    have hmoved : Layout ((s.setTail newNode).setThread i .idle) t ⟨p.chain, p.head, p.tail + 1⟩ :=
      hforget.setTail hk.next
    exact hmoved.silent
  | finishTailFails hpc => exact (h.setThread hpc hend (hnothing rfl)).silent
  | loadHead hpc =>
    have hloaded : Knows s t p i (.loadHeadNext s.head) :=
      mem_take_of_getElem? h.head (Nat.lt_succ_self _)
    exact (h.setThread hpc hloaded (hnothing rfl)).silent
  | queueIsEmpty hpc hnext =>
    rw [hpc] at hk
    obtain ⟨hlength, -⟩ := h.last_of_next h.head hk hnext
    have hcontent : content (s.setThread i .idle) p = [] := by
      rw [content, List.drop_eq_nil_of_le hlength.le, List.map_nil]
    have hserves : Serves (content (s.setThread i .idle) p) (.inspected true)
        (content (s.setThread i .idle) p) := by
      rw [hcontent]
      exact .empty
    refine ⟨p, (hforget.record hidle hserves (by simp)).resume ?_ ?_⟩
    · exact last_append_self t i _
    · rintro _ ⟨⟩
  | @headHasNext currentHead next hpc hnext =>
    rw [hpc] at hk
    refine ⟨p, (hforget.record hidle (.inspected _) (by simp)).resume ?_ ?_⟩
    · exact ⟨List.mem_of_mem_take hk, hnext⟩
    · rintro _ ⟨⟩
  | @advanceHead next hpc =>
    rw [hpc] at hk
    have hmoved : Layout ((s.setHead next).setThread i .idle)
        (t ++ [(i, .claimed (s.nodes next).data)]) ⟨p.chain, p.head + 1, p.tail⟩ :=
      hforget.setHead hidle hk.next
    have hplace := h.getElem?_of_follows h.head hk.next
    refine ⟨_, hmoved.resume ?_ ?_⟩
    · exact ⟨mem_take_of_getElem? h.head (Nat.lt_succ_self _),
        mem_take_of_getElem? hplace (Nat.lt_succ_self _), last_append_self t i _⟩
    · rintro _ ⟨⟩ j
      exact hforget.next_not_owned hplace
  | advanceHeadFails hpc => exact (h.setThread hpc hloop (hnothing rfl)).silent
  | @moveData currentHead next leftover hpc =>
    have howns : (s.threads i).owns = some next := by rw [hpc, Pc.owns]
    rw [hpc] at hk
    obtain ⟨hcurrent, hmem, hclaimed⟩ := hk
    have hmoved : Layout ((s.setNode next { s.nodes next with data := leftover }).setThread i .idle)
        t p :=
      hforget.setNode hmem rfl (h.deleted next) fun j hj => absurd hj (h.not_owns howns j)
    apply Layout.silent
    apply hmoved.resume
    · exact ⟨hcurrent, hclaimed⟩
    · rintro _ ⟨⟩
  | @deleteHead currentHead result hpc =>
    rw [hpc] at hk
    obtain ⟨hcurrent, hclaimed⟩ := hk
    have hreturned := hforget.record hidle (.returned _ (some result)) (by
      rintro _ ⟨⟩
      exact hclaimed)
    exact ⟨p, hreturned.setNode (mem_take_of_isPrefix hcurrent List.prefix_rfl (Nat.le_succ _)) rfl
      (fun _ => hcurrent) fun _ _ => rfl⟩
  | returnFalse hpc =>
    rw [hpc] at hk
    refine ⟨p, hforget.record hidle (.returned _ none) ?_⟩
    rintro _ ⟨⟩
    exact hk

theorem Layout.run (h : Layout s t p) {choices : List (ι × Choice α)} {u : History ι α}
    (hrun : run s choices = some (s', u)) : ∃ p', Layout s' (t ++ u) p' := by
  induction choices generalizing s t p u with
  | nil =>
    cases hrun
    rw [List.append_nil]
    exact ⟨p, h⟩
  | cons x choices ih =>
    obtain ⟨m, e, v, hstep, hrest, rfl⟩ := run_cons hrun
    obtain ⟨p', hm⟩ := h.moves (moves_of_step hstep)
    rw [← List.append_assoc]
    exact ih hm hrest

/-- Every run of any number of threads is first in, first out. -/
theorem queue_firstInFirstOut (stub : α) (choices : List (ι × Choice α)) (s : Queue ι α)
    (t : History ι α) (hrun : run (.start stub) choices = some (s, t)) : FirstInFirstOut t := by
  obtain ⟨p, h⟩ := (layout_start stub).run hrun
  rw [List.nil_append] at h
  exact h.served.firstInFirstOut h.justified

/-- One thread enqueues a value that the other one takes before the call of the first is over. -/
theorem queue_firstInFirstOut_of_overlap : FirstInFirstOut [(true, .linked 7),
    (false, .inspected false), (false, .claimed 7), (false, .returned (some 7))] :=
  queue_firstInFirstOut 0 [(true, .call (.enqueue 7)), (true, .step), (true, .step), (true, .step),
    (false, .call .dequeue), (false, .step), (false, .step), (false, .step), (false, .move 0),
    (false, .step)] _ _ rfl

end Runs

end RedisServer.NonBlockingQueue
