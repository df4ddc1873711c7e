import PyrallelConsumer.VirtualQueues

/-!
# PyrallelConsumer.QueueIndex

The index over the virtual queues and what it says about them. A key that has been picked and not
yet put back is `off`: it is in no order, and what the index says of its head may be stale.

* `Indexed` — the runnable keys are exactly the keys of the non-empty queues, and a blocking offset
  leads to a queue whose head has that offset.
* `indexed_refresh`, `indexed_settleQueue`, `indexed_enqueueBatch`, `indexed_revoke` — the operations
  of the topology keep the index.
* `pickBlocking_spec`, `pickNext_spec` — which key is picked, and where the others stand afterwards.
-/

set_option linter.unusedSectionVars false

namespace PyrallelConsumer

namespace WorkQueueTopology

variable {κ π : Type} [DecidableEq κ] {P off : QueueKey κ → Prop} {q q' : WorkQueueTopology κ π}

def headOf (q : WorkQueueTopology κ π) (k : QueueKey κ) : Option (WorkItem κ π) :=
  (q.queueOf k.1 k.2).head?

theorem SameQueues.headOf (h : SameQueues q q') : q'.headOf = q.headOf := by
  funext k
  simp only [WorkQueueTopology.headOf, h.queueOf]

/-- The index agrees with the queues, except at the keys that are `off`; the keys of non-empty queues
satisfy `P`. -/
structure Indexed (P off : QueueKey κ → Prop) (q : WorkQueueTopology κ π) : Prop where
  nodup : q.runnableQueueKeys.Nodup
  active : ∀ k, k ∈ q.activeRunnableQueueKeys ↔ k ∈ q.runnableQueueKeys
  runnable : ∀ k, k ∈ q.runnableQueueKeys ↔ ¬ off k ∧ q.headOf k ≠ none
  head : ∀ k o, q.headOffsets.get? k = some o → off k ∨ (q.headOf k).map (·.offset) = some o
  byOffset : ∀ tp o k, q.headQueueKeysByOffset.get? (tp, o) = some k →
    k.1 = tp ∧ q.headOffsets.get? k = some o
  routed : ∀ k, q.headOf k ≠ none → P k

/-- No key is off. -/
abbrev Indexed.All (P : QueueKey κ → Prop) (q : WorkQueueTopology κ π) : Prop :=
  Indexed P (fun _ => False) q

theorem indexed_new (P : QueueKey κ → Prop) : Indexed.All P (.new : WorkQueueTopology κ π) where
  nodup := List.nodup_nil
  active := fun _ => Iff.rfl
  runnable := fun k => ⟨fun h => (by cases h), fun h => absurd rfl h.2⟩
  head := by intro k o h; cases h
  byOffset := by intro tp o k h; cases h
  routed := by intro k h; exact absurd rfl h

namespace Indexed

/-- The same index over queues with the same heads where the index counts. -/
theorem change (h : Indexed P off q) (hr : q'.runnableQueueKeys = q.runnableQueueKeys)
    (ha : q'.activeRunnableQueueKeys = q.activeRunnableQueueKeys)
    (ho : q'.headOffsets = q.headOffsets)
    (hb : q'.headQueueKeysByOffset = q.headQueueKeysByOffset)
    (hhead : ∀ k, ¬ off k → q'.headOf k = q.headOf k)
    (hP : ∀ k, off k → q'.headOf k ≠ none → P k) : Indexed P off q' where
  nodup := by rw [hr]; exact h.nodup
  active := by rw [hr, ha]; exact h.active
  runnable := by
    intro k
    rw [hr, h.runnable]
    refine and_congr_right fun hk => ?_
    rw [hhead k hk]
  head := by
    intro k o hk
    rw [ho] at hk
    by_cases hoff : off k
    · exact .inl hoff
    · rw [hhead k hoff]; exact h.head k o hk
  byOffset := by rw [ho, hb]; exact h.byOffset
  routed := by
    intro k hk
    by_cases hoff : off k
    · exact hP k hoff hk
    · rw [hhead k hoff] at hk; exact h.routed k hk

/-- A key with an empty queue can be counted as off. -/
theorem except (h : Indexed.All P q) {k : QueueKey κ} (hk : q.headOf k = none) :
    Indexed P (· = k) q where
  nodup := h.nodup
  active := h.active
  runnable := by
    intro j
    rw [h.runnable]
    refine ⟨fun hj => ⟨?_, hj.2⟩, fun hj => ⟨not_false, hj.2⟩⟩
    rintro rfl
    exact hj.2 hk
  head := fun j o hj => .inr ((h.head j o hj).resolve_left not_false)
  byOffset := h.byOffset
  routed := h.routed

/-- Keys that are off have nothing to index when their queues are empty and no offset is filed. -/
theorem restore (h : Indexed P off q)
    (hoff : ∀ k, off k → q.headOf k = none ∧ q.headOffsets.get? k = none) : Indexed.All P q where
  nodup := h.nodup
  active := h.active
  runnable := by
    intro k
    rw [h.runnable]
    exact ⟨fun hk => ⟨not_false, hk.2⟩, fun hk => ⟨fun ho => hk.2 (hoff k ho).1, hk.2⟩⟩
  head := by
    intro k o hk
    rcases h.head k o hk with ho | ho
    · rw [(hoff k ho).2] at hk; cases hk
    · exact .inr ho
  byOffset := h.byOffset
  routed := h.routed

end Indexed

/-! ## Deactivation and refresh -/

theorem indexed_deactivate (h : Indexed P off q) (k : QueueKey κ) :
    Indexed P (fun j => off j ∨ j = k) (q.deactivateQueueKey k) where
  nodup := h.nodup.filter _
  active := by
    intro j
    simp only [deactivateQueueKey, mem_discardKey, h.active]
  runnable := by
    intro j
    have hh : (q.deactivateQueueKey k).headOf j = q.headOf j :=
      congrFun (sameQueues_deactivate q k).headOf j
    rw [hh, not_or]
    simp only [deactivateQueueKey, mem_discardKey, h.runnable]
    exact ⟨fun hj => ⟨⟨hj.1.1, hj.2⟩, hj.1.2⟩, fun hj => ⟨⟨hj.1.1, hj.2⟩, hj.1.2⟩⟩
  head := by
    intro j o hj
    have hh : (q.deactivateQueueKey k).headOf j = q.headOf j :=
      congrFun (sameQueues_deactivate q k).headOf j
    simp only [deactivateQueueKey, Dict.get?_erase] at hj
    split at hj
    · cases hj
    · rw [hh]; exact (h.head j o hj).imp_left .inl
  byOffset := by
    intro tp o j hj
    -- the entry that names `k` is the one under its filed offset
    have hne : q.headQueueKeysByOffset.get? (tp, o) = some j ∧ j ≠ k := by
      simp only [deactivateQueueKey] at hj
      cases hk : q.headOffsets.get? k with
      | none =>
        rw [hk] at hj
        refine ⟨hj, ?_⟩
        rintro rfl
        rw [(h.byOffset tp o j hj).2] at hk
        cases hk
      | some o' =>
        rw [hk] at hj
        simp only [Dict.get?_erase] at hj
        split at hj
        · cases hj
        · rename_i hne
          refine ⟨hj, ?_⟩
          rintro rfl
          obtain ⟨htp, ho⟩ := h.byOffset tp o j hj
          rw [hk] at ho
          cases ho
          exact hne (by rw [htp])
    obtain ⟨htp, ho⟩ := h.byOffset tp o j hne.1
    refine ⟨htp, ?_⟩
    simp only [deactivateQueueKey, Dict.get?_erase, if_neg (Ne.symm hne.2)]
    exact ho
  routed := by
    rw [(sameQueues_deactivate q k).headOf]; exact h.routed

theorem headOffsets_deactivate (q : WorkQueueTopology κ π) (k j : QueueKey κ) :
    (q.deactivateQueueKey k).headOffsets.get? j = if k = j then none else q.headOffsets.get? j := by
  simp only [deactivateQueueKey, Dict.get?_erase]

/-- A refreshed queue goes to the end of the order. -/
theorem runnable_refresh (q : WorkQueueTopology κ π) (k : QueueKey κ) (x : WorkItem κ π)
    (l : List (WorkItem κ π)) :
    (q.refreshQueueHead k (x :: l)).runnableQueueKeys = discardKey q.runnableQueueKeys k ++ [k] := by
  simp [refreshQueueHead, deactivateQueueKey, activateQueueKey, appendKey]

theorem indexed_refresh (h : Indexed P off q) {k : QueueKey κ} (hoff : ∀ j, off j → j = k) :
    Indexed.All P (q.refreshQueueHead k (q.queueOf k.1 k.2)) := by
  have hd := indexed_deactivate h k
  have hnone : (q.deactivateQueueKey k).headOffsets.get? k = none := by
    rw [headOffsets_deactivate, if_pos rfl]
  have hheads : (q.deactivateQueueKey k).headOf = q.headOf := (sameQueues_deactivate q k).headOf
  cases hq : q.queueOf k.1 k.2 with
  | nil =>
    show Indexed.All P (q.deactivateQueueKey k)
    refine Indexed.restore hd fun j hj => ?_
    have hj : j = k := hj.elim (hoff j) id
    subst hj
    exact ⟨by rw [hheads, headOf, hq]; rfl, hnone⟩
  | cons x l =>
    have hk : k ∉ (q.deactivateQueueKey k).activeRunnableQueueKeys := by simp [deactivateQueueKey]
    have hr : k ∉ (q.deactivateQueueKey k).runnableQueueKeys := by simp [deactivateQueueKey]
    have heads : (q.refreshQueueHead k (x :: l)).headOf = q.headOf :=
      (sameQueues_refresh q k (x :: l)).headOf
    have hx : q.headOf k = some x := by rw [headOf, hq]; rfl
    have heq : q.refreshQueueHead k (x :: l) =
        { q.deactivateQueueKey k with
          headOffsets := (q.deactivateQueueKey k).headOffsets.set k x.offset
          headQueueKeysByOffset := (q.deactivateQueueKey k).headQueueKeysByOffset.set (k.1, x.offset) k
          runnableQueueKeys := (q.deactivateQueueKey k).runnableQueueKeys ++ [k]
          activeRunnableQueueKeys := appendKey (q.deactivateQueueKey k).activeRunnableQueueKeys k } := by
      simp only [refreshQueueHead, activateQueueKey, if_neg hk, appendKey, if_neg hr]
    refine ⟨?_, ?_, ?_, ?_, ?_, ?_⟩
    · rw [heq]
      exact hd.nodup.append (List.nodup_singleton k) (by simpa [List.disjoint_singleton] using hr)
    · intro j
      rw [heq]
      simp only [mem_appendKey, List.mem_append, List.mem_singleton, hd.active]
    · intro j
      rw [heads, heq]
      simp only [List.mem_append, List.mem_singleton, hd.runnable, hheads]
      constructor
      · rintro (hj | rfl)
        · exact ⟨not_false, hj.2⟩
        · exact ⟨not_false, by rw [hx]; simp⟩
      · rintro ⟨-, hj⟩
        by_cases hjk : j = k
        · exact .inr hjk
        · exact .inl ⟨fun ho => hjk (ho.elim (hoff j) id), hj⟩
    · intro j o hj
      rw [heq] at hj
      simp only [Dict.get?_set] at hj
      rw [heads]
      split at hj
      · rename_i hjk
        cases hj
        subst hjk
        exact .inr (by rw [hx]; rfl)
      · rename_i hjk
        rcases hd.head j o hj with ho | ho
        · exact absurd (ho.elim (hoff j) id) (Ne.symm hjk)
        · exact .inr (by rw [← hheads]; exact ho)
    · intro tp o j hj
      rw [heq] at hj ⊢
      simp only [Dict.get?_set] at hj ⊢
      split at hj
      · rename_i he
        cases hj
        cases he
        exact ⟨rfl, by rw [if_pos rfl]⟩
      · obtain ⟨htp, ho⟩ := hd.byOffset tp o j hj
        refine ⟨htp, ?_⟩
        rw [if_neg]
        · exact ho
        · rintro rfl
          rw [hnone] at ho
          cases ho
    · rw [heads]; exact h.routed

/-! ## Enqueue and dequeue -/

theorem headOf_putQueue {k : QueueKey κ} (ha : q.assigned k.1) (l : List (WorkItem κ π))
    (j : QueueKey κ) : (q.putQueue k.1 k.2 l).headOf j = if k = j then l.head? else q.headOf j := by
  rw [headOf, queueOf_putQueue ha]
  by_cases hj : k = j
  · subst hj; simp
  · rw [if_neg hj, if_neg]
    · rfl
    · rintro ⟨h1, h2⟩; exact hj (Prod.ext h1 h2)

theorem index_putQueue (q : WorkQueueTopology κ π) (tp : TopicPartition) (key : κ)
    (l : List (WorkItem κ π)) :
    (q.putQueue tp key l).runnableQueueKeys = q.runnableQueueKeys ∧
    (q.putQueue tp key l).activeRunnableQueueKeys = q.activeRunnableQueueKeys ∧
    (q.putQueue tp key l).headOffsets = q.headOffsets ∧
    (q.putQueue tp key l).headQueueKeysByOffset = q.headQueueKeysByOffset := by
  unfold putQueue
  split
  · exact ⟨rfl, rfl, rfl, rfl⟩
  · exact ⟨rfl, rfl, rfl, rfl⟩

theorem indexed_putQueue {k : QueueKey κ} (h : Indexed P off q) (ha : q.assigned k.1)
    {l : List (WorkItem κ π)} (hk : off k ∨ l.head? = q.headOf k) (hP : l ≠ [] → P k) :
    Indexed P off (q.putQueue k.1 k.2 l) := by
  obtain ⟨hr, hac, ho, hb⟩ := index_putQueue q k.1 k.2 l
  refine h.change hr hac ho hb (fun j hj => ?_) fun j hj hne => ?_
  · rw [headOf_putQueue ha]
    split
    · rename_i heq; subst heq; exact hk.resolve_left hj
    · rfl
  · rw [headOf_putQueue ha] at hne
    split at hne
    · rename_i heq
      subst heq
      refine hP ?_
      rintro rfl
      exact hne rfl
    · exact h.routed j hne

/-- Dropping an empty queue takes its key out of the index. -/
theorem indexed_cleanupEmptyQueue (h : Indexed P off q) {k : QueueKey κ} (hoff : ∀ j, off j → j = k)
    (hk : off k → q.getQueue k.1 k.2 = some []) : Indexed.All P (q.cleanupEmptyQueue k.1 k.2) := by
  have hheads : (q.cleanupEmptyQueue k.1 k.2).headOf = q.headOf := by
    funext j; rw [headOf, queueOf_cleanupEmptyQueue, headOf]
  have hsame : ¬ off k → Indexed.All P q := fun hn =>
    h.restore fun j hj => absurd (hoff j hj ▸ hj) hn
  unfold cleanupEmptyQueue at hheads ⊢
  split
  · rename_i hq
    refine hsame fun ho => ?_
    have := hk ho
    rw [getQueue, hq] at this
    cases this
  · rename_i queues hq
    rw [hq] at hheads
    split
    · rename_i hkey
      simp only [hkey] at hheads
      have hd := indexed_deactivate h k
      have hnil : q.headOf k = none := by
        rw [headOf, queueOf, getQueue, hq, Option.bind_some, hkey]; rfl
      have hdropped : Indexed P (fun j => off j ∨ j = k)
          { q.deactivateQueueKey k with
            virtualPartitionQueues := q.virtualPartitionQueues.set k.1 (queues.erase k.2) } := by
        refine hd.change rfl rfl rfl rfl (fun j _ => ?_) fun j _ hne => ?_
        · rw [hheads, (sameQueues_deactivate q k).headOf]
        · rw [hheads] at hne; exact h.routed j hne
      refine hdropped.restore fun j hj => ?_
      have hj : j = k := hj.elim (hoff j) id
      subst hj
      rw [hheads]
      exact ⟨hnil, by rw [headOffsets_deactivate, if_pos rfl]⟩
    · rename_i hne
      refine hsame fun ho => ?_
      have := hk ho
      rw [getQueue, hq, Option.bind_some] at this
      exact hne this

theorem getQueue_putQueue {tp : TopicPartition} (ha : q.assigned tp) (key : κ)
    (l : List (WorkItem κ π)) : (q.putQueue tp key l).getQueue tp key = some l := by
  obtain ⟨queues, hq⟩ := Option.isSome_iff_exists.mp ha
  rw [getQueue, get?_putQueue, if_pos rfl, hq]
  simp

theorem indexed_settleQueue {k : QueueKey κ} (h : Indexed P (· = k) q) (ha : q.assigned k.1)
    {l : List (WorkItem κ π)} (hP : P k) : Indexed.All P (q.settleQueue k.1 k.2 l) := by
  have hput : Indexed P (· = k) (q.putQueue k.1 k.2 l) := indexed_putQueue h ha (.inl rfl) fun _ => hP
  have hl : (q.putQueue k.1 k.2 l).queueOf k.1 k.2 = l := by rw [queueOf_putQueue ha]; simp
  unfold settleQueue
  dsimp only
  split
  · rename_i hnil
    subst hnil
    exact indexed_cleanupEmptyQueue hput (fun j hj => hj) fun _ => getQueue_putQueue ha k.2 []
  · have := indexed_refresh hput fun j hj => hj
    rwa [hl] at this

/-- A served queue leaves the order or goes to its end. -/
theorem runnable_settleQueue {k : QueueKey κ} (h : Indexed P (· = k) q) (l : List (WorkItem κ π)) :
    (q.settleQueue k.1 k.2 l).runnableQueueKeys = q.runnableQueueKeys ∨
      (q.settleQueue k.1 k.2 l).runnableQueueKeys = q.runnableQueueKeys ++ [k] := by
  have hk : k ∉ q.runnableQueueKeys := fun hm => ((h.runnable k).mp hm).1 rfl
  have hdiscard : discardKey q.runnableQueueKeys k = q.runnableQueueKeys :=
    List.filter_eq_self.mpr fun j hj => decide_eq_true fun heq : j = k => hk (heq ▸ hj)
  have hput := (index_putQueue q k.1 k.2 l).1
  unfold settleQueue
  cases l with
  | nil =>
    left
    dsimp only
    rw [if_pos rfl]
    unfold cleanupEmptyQueue
    split
    · exact hput
    · split
      · simp only [deactivateQueueKey, hput, hdiscard]
      · exact hput
  | cons x l =>
    right
    dsimp only
    rw [if_neg (by simp), runnable_refresh, hput, hdiscard]

theorem indexed_enqueueBatch {k : QueueKey κ} (h : Indexed.All P q) (ha : q.assigned k.1)
    (l : List (WorkItem κ π)) (hP : P k) : Indexed.All P (q.enqueueBatch k.1 k.2 l) := by
  have hqueue : (q.getQueue k.1 k.2).getD [] = q.queueOf k.1 k.2 := rfl
  unfold enqueueBatch
  dsimp only
  rw [hqueue]
  split
  · rename_i hcond
    have hput := indexed_putQueue (l := q.queueOf k.1 k.2 ++ l)
      (h.except (k := k) (by rw [headOf, hcond.1]; rfl)) ha (.inl rfl) fun _ => hP
    have hl : (q.putQueue k.1 k.2 (q.queueOf k.1 k.2 ++ l)).queueOf k.1 k.2 = l := by
      rw [queueOf_putQueue ha, hcond.1]; simp
    have := indexed_refresh hput fun j hj => hj
    rwa [hl] at this
  · rename_i hcond
    refine indexed_putQueue h ha (.inr ?_) fun _ => hP
    rw [headOf]
    cases hq : q.queueOf k.1 k.2 with
    | nil =>
      have hl : l = [] := by
        by_contra hl
        exact hcond ⟨hq, hl⟩
      rw [hl]
      rfl
    | cons x rest => rfl

/-! ## Assignment and revocation -/

theorem indexed_assign {tp : TopicPartition} (h : Indexed.All P q) (hn : ¬ q.assigned tp) :
    Indexed.All P (q.assign tp) := by
  refine h.change rfl rfl rfl rfl (fun k _ => ?_) fun _ ho => ho.elim
  rw [headOf, queueOf_assign]
  split
  · rename_i htp
    subst htp
    by_contra hne
    have hqueue : q.queueOf k.1 k.2 ≠ [] := fun hnil => hne (by rw [headOf, hnil])
    exact hn (assigned_of_queueOf_ne_nil hqueue)
  · rfl

theorem indexed_deactivateAll (tp : TopicPartition) (keys : List κ) :
    ∀ {q : WorkQueueTopology κ π} {off : QueueKey κ → Prop}, Indexed P off q →
      (∀ j, off j → q.headOffsets.get? j = none) →
      let q' := keys.foldl (fun q key => q.deactivateQueueKey (tp, key)) q
      Indexed P (fun j => off j ∨ (j.1 = tp ∧ j.2 ∈ keys)) q' ∧
        (∀ j, off j ∨ (j.1 = tp ∧ j.2 ∈ keys) → q'.headOffsets.get? j = none) ∧
        SameQueues q q' := by
  induction keys with
  | nil =>
    intro q off h hoff
    simp only [List.foldl_nil, List.not_mem_nil, and_false, or_false]
    exact ⟨h, hoff, rfl⟩
  | cons key keys ih =>
    intro q off h hoff
    have hiff : ∀ j : QueueKey κ, ((off j ∨ j = (tp, key)) ∨ (j.1 = tp ∧ j.2 ∈ keys)) ↔
        (off j ∨ (j.1 = tp ∧ j.2 ∈ key :: keys)) := by
      intro j
      rw [Prod.ext_iff, List.mem_cons]
      tauto
    obtain ⟨h1, h2, h3⟩ := ih (indexed_deactivate h (tp, key)) (by
      intro j hj
      rw [headOffsets_deactivate]
      split
      · rfl
      · rename_i hne; exact hoff j (hj.resolve_right fun heq => hne heq.symm))
    simp only [hiff] at h1 h2
    exact ⟨h1, h2, (sameQueues_deactivate q _).trans h3⟩

theorem indexed_revoke (h : Indexed.All P q) (tp : TopicPartition) :
    Indexed.All P (q.revoke tp).2 := by
  obtain ⟨h1, h2, h3⟩ := indexed_deactivateAll tp
    ((q.virtualPartitionQueues.get? tp).getD .empty).keys h fun _ ho => ho.elim
  have hnone : ∀ j : QueueKey κ, j.1 = tp → (q.revoke tp).2.headOf j = none := by
    intro j hj
    rw [headOf, queueOf_revoke, if_pos hj.symm]
    rfl
  have hrevoked : Indexed P (fun j => False ∨ (j.1 = tp ∧
      j.2 ∈ ((q.virtualPartitionQueues.get? tp).getD .empty).keys)) (q.revoke tp).2 := by
    refine h1.change rfl rfl rfl rfl (fun j hj => ?_) fun j hj hne => ?_
    · rw [h3.headOf]
      by_cases htp : j.1 = tp
      · -- a key of the partition without a queue
        rw [hnone j htp, headOf, queueOf, getQueue]
        cases hq : q.virtualPartitionQueues.get? tp with
        | none => rw [htp, hq]; rfl
        | some queues =>
          rw [htp, hq, Option.bind_some]
          rw [hq, Option.getD_some, not_or, not_and] at hj
          have hkey : queues.get? j.2 = none := by
            by_contra hk
            exact hj.2 htp (queues.mem_keys_iff.mpr (Option.isSome_iff_ne_none.mpr hk))
          rw [hkey]
          rfl
      · rw [headOf, queueOf_revoke, if_neg (Ne.symm htp)]; rfl
    · rw [hnone j (hj.resolve_left not_false).1] at hne; exact absurd rfl hne
  exact hrevoked.restore fun j hj => ⟨hnone j (hj.resolve_left not_false).1, h2 j hj⟩

/-! ## Picking -/

/-- Taking one key out of the order leaves it off. -/
theorem indexed_taken (h : Indexed.All P q) {k : QueueKey κ} {r a : List (QueueKey κ)}
    (hn : r.Nodup) (hr : ∀ j, j ∈ r ↔ j ∈ q.runnableQueueKeys ∧ j ≠ k)
    (ha : ∀ j, j ∈ a ↔ j ∈ q.activeRunnableQueueKeys ∧ j ≠ k) :
    Indexed P (· = k) { q with runnableQueueKeys := r, activeRunnableQueueKeys := a } where
  nodup := hn
  active := by intro j; simp only [hr, ha, h.active]
  runnable := by
    intro j
    rw [hr, h.runnable]
    exact ⟨fun hj => ⟨hj.2, hj.1.2⟩, fun hj => ⟨⟨not_false, hj.2⟩, hj.1⟩⟩
  head := fun j o hj => .inr ((h.head j o hj).resolve_left not_false)
  byOffset := h.byOffset
  routed := h.routed

theorem indexed_rotate (h : Indexed.All P q) {r : List (QueueKey κ)}
    (hr : r.Perm q.runnableQueueKeys) : Indexed.All P { q with runnableQueueKeys := r } where
  nodup := hr.nodup_iff.mpr h.nodup
  active := by intro j; rw [h.active]; exact hr.mem_iff.symm
  runnable := by intro j; exact hr.mem_iff.trans (h.runnable j)
  head := h.head
  byOffset := h.byOffset
  routed := h.routed

/-- The blocking key is that of a queue whose head is at the blocking offset of its partition. -/
theorem pickBlocking_spec {e : QueueKey κ → Bool} {b : Dict TopicPartition (Option OffsetRange)}
    {k : QueueKey κ} (h : Indexed.All P q) (hpick : q.pickBlockingQueueKey e b = (some k, q')) :
    (∃ gap, b.get? k.1 = some (some gap) ∧ (q.headOf k).map (·.offset) = some gap.start) ∧
      e k = true ∧ k ∈ q.runnableQueueKeys ∧ Indexed P (· = k) q' ∧
      q'.runnableQueueKeys = discardKey q.runnableQueueKeys k := by
  have helig := pickBlocking_eligible hpick
  unfold pickBlockingQueueKey at hpick
  split at hpick
  · cases hpick
  · rename_i k' o hbest
    cases hpick
    have hbest := bestBlocking_induction
      (I := fun d => d.1 ∈ q.runnableQueueKeys ∧
        ∃ gap, b.get? d.1.1 = some (some gap) ∧ (q.headOf d.1).map (·.offset) = some gap.start)
      e q b.entries (fun tp gap j hm hj hactive _ => by
        obtain ⟨htp, ho⟩ := h.byOffset tp gap.start j hj
        refine ⟨(h.active j).mp hactive, gap, ?_, (h.head j _ ho).resolve_left not_false⟩
        rw [htp]
        exact b.mem_entries_iff.mp hm) none (by simp) _ hbest
    refine ⟨hbest.2, helig, hbest.1, ?_, rfl⟩
    exact indexed_taken h (h.nodup.filter _) (fun j => mem_discardKey) fun j => mem_discardKey

theorem pickBlocking_none {e : QueueKey κ → Bool} {b : Dict TopicPartition (Option OffsetRange)}
    (hpick : q.pickBlockingQueueKey e b = (none, q')) : q' = q := by
  unfold pickBlockingQueueKey at hpick
  split at hpick
  · cases hpick; rfl
  · cases hpick

/-- What picking relies on. -/
structure Pickable (q : WorkQueueTopology κ π) : Prop where
  nodup : q.runnableQueueKeys.Nodup
  active : ∀ k, k ∈ q.activeRunnableQueueKeys ↔ k ∈ q.runnableQueueKeys
  full : ∀ k, k ∈ q.runnableQueueKeys → q.headOf k ≠ none

theorem Indexed.pickable (h : Indexed P off q) : Pickable q :=
  ⟨h.nodup, h.active, fun k hk => ((h.runnable k).mp hk).2⟩

theorem Pickable.rotate (h : Pickable q) {r : List (QueueKey κ)} (hr : r.Perm q.runnableQueueKeys) :
    Pickable { q with runnableQueueKeys := r } :=
  ⟨hr.nodup_iff.mpr h.nodup, fun k => (h.active k).trans hr.mem_iff.symm, fun k hk => h.full k (hr.mem_iff.mp hk)⟩

/-- The round-robin pick takes the first eligible key; the keys before it go to the end. -/
theorem pickNext_spec (e : QueueKey κ → Bool) (n : Nat) :
    ∀ q : WorkQueueTopology κ π, Pickable q → n ≤ q.runnableQueueKeys.length →
      (∃ r, r.Perm q.runnableQueueKeys ∧ pickNext e n q = (none, { q with runnableQueueKeys := r }) ∧
        ∀ j ∈ q.runnableQueueKeys.take n, e j = false) ∨
      (∃ pre k post, q.runnableQueueKeys = pre ++ k :: post ∧ (∀ j ∈ pre, e j = false) ∧
        e k = true ∧ pickNext e n q = (some k,
          { q with
            runnableQueueKeys := post ++ pre
            activeRunnableQueueKeys := discardKey q.activeRunnableQueueKeys k })) := by
  induction n with
  | zero => intro q _ _; exact .inl ⟨_, .refl _, rfl, by simp⟩
  | succ n ih =>
    intro q h hn
    cases hq : q.runnableQueueKeys with
    | nil => rw [hq] at hn; simp at hn
    | cons k rest =>
      have hk : k ∈ q.runnableQueueKeys := by rw [hq]; simp
      have hactive : k ∈ q.activeRunnableQueueKeys := (h.active k).mpr hk
      have hne : (({ q with runnableQueueKeys := rest } :
          WorkQueueTopology κ π).getQueue k.1 k.2).getD [] ≠ [] := by
        intro hnil
        refine h.full k hk ?_
        rw [headOf, show q.queueOf k.1 k.2 = [] from hnil]
        rfl
      have hrest : k ∉ rest := by
        have := h.nodup
        rw [hq] at this
        exact (List.nodup_cons.mp this).1
      have hstep : pickNext e (n + 1) q = if e k then
          (some k,
            { q with
              runnableQueueKeys := rest
              activeRunnableQueueKeys := discardKey q.activeRunnableQueueKeys k })
          else pickNext e n { q with runnableQueueKeys := rest ++ [k] } := by
        rw [pickNext.eq_2, hq]
        dsimp only
        rw [if_neg (not_not.mpr hactive), if_neg hne]
        cases he : e k with
        | true => rfl
        | false => simp [appendKey, if_neg hrest]
      cases he : e k with
      | true =>
        right
        refine ⟨[], k, rest, rfl, by simp, he, ?_⟩
        rw [hstep, he, if_pos rfl, List.append_nil]
      | false =>
        -- the key is rotated to the end and the search goes on
        rw [he, if_neg (by simp)] at hstep
        have hperm : (rest ++ [k]).Perm q.runnableQueueKeys := by
          rw [hq]; exact List.perm_append_singleton k rest
        rw [hq, List.length_cons] at hn
        rcases ih { q with runnableQueueKeys := rest ++ [k] } (h.rotate hperm)
          (by simp only [List.length_append, List.length_singleton]; omega) with
          ⟨r, hr, hpick, hall⟩ | ⟨pre, j, post, hsplit, hpre, hj, hpick⟩
        · left
          refine ⟨r, ?_, hstep.trans hpick, ?_⟩
          · rw [← hq]; exact hr.trans hperm
          · intro i hi
            rw [List.take_succ_cons] at hi
            rcases List.mem_cons.mp hi with rfl | hi
            · exact he
            · refine hall i ?_
              dsimp only
              rw [List.take_append_of_le_length (by omega)]
              exact hi
        · right
          dsimp only at hsplit
          -- the picked key is not the last one, which is not eligible
          obtain ⟨post', rfl⟩ : ∃ post', post = post' ++ [k] := by
            rcases List.eq_nil_or_concat post with rfl | ⟨post', y, rfl⟩
            · have := List.append_inj_right' hsplit rfl
              cases this
              rw [he] at hj
              cases hj
            · rw [List.concat_eq_append, ← List.cons_append, ← List.append_assoc] at hsplit
              have := List.append_inj_right' hsplit rfl
              cases this
              exact ⟨post', by simp⟩
          refine ⟨k :: pre, j, post', ?_, ?_, hj, ?_⟩
          · rw [← List.cons_append, ← List.append_assoc] at hsplit
            rw [List.append_cancel_right hsplit]
            rfl
          · intro i hi
            rcases List.mem_cons.mp hi with rfl | hi
            · exact he
            · exact hpre i hi
          · rw [hstep, hpick]
            simp

end WorkQueueTopology

end PyrallelConsumer
