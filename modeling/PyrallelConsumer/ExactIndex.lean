import PyrallelConsumer.QueueIndex

/-!
# PyrallelConsumer.ExactIndex

The four indexes of the queue topology, exactly. A key is `off` while it is in none of them: when it was
picked and not yet put back, or deferred to the end of a scheduling call.

`K tp o key` says that offset `o` of the partition comes under `key`. Where this determines the key, no
two queues have heads at one offset, and the index by offset is the inverse of the head offsets.

* `ExactIndex`, `Kept` — the indexes, and no empty queue in the map.
* `exact_deactivate`, `exact_fileHead` — a key leaves the indexes and comes back.
* `exact_refresh`, `exact_settleQueue` — what follows a pick puts the key back.
* `exact_enqueueBatch`, `exact_assign`, `exact_revoke` — the operations between picks.
-/

set_option linter.unusedSectionVars false

namespace PyrallelConsumer

namespace WorkQueueTopology

variable {κ π : Type} [DecidableEq κ] {K : TopicPartition → Int → κ → Prop} {off off' : QueueKey κ → Prop}
variable {q q' : WorkQueueTopology κ π} {k : QueueKey κ}

/-- One offset of a partition always carries the same key. -/
def OneKey (K : TopicPartition → Int → κ → Prop) : Prop :=
  ∀ tp o key key', K tp o key → K tp o key' → key = key'

/-- The indexes agree with the queues at the keys that are not `off`, and have nothing of the others. -/
structure ExactIndex (K : TopicPartition → Int → κ → Prop) (off : QueueKey κ → Prop) (q : WorkQueueTopology κ π) :
    Prop where
  nodup : q.runnableQueueKeys.Nodup
  active : ∀ k, k ∈ q.activeRunnableQueueKeys ↔ k ∈ q.runnableQueueKeys
  runnable : ∀ k, k ∈ q.runnableQueueKeys ↔ ¬ off k ∧ q.headOf k ≠ none
  head : ∀ k o, q.headOffsets.get? k = some o ↔ ¬ off k ∧ (q.headOf k).map (·.offset) = some o
  byOffset : OneKey K → ∀ tp o k, q.headQueueKeysByOffset.get? (tp, o) = some k ↔
    k.1 = tp ∧ q.headOffsets.get? k = some o
  keyed : ∀ k : QueueKey κ, ∀ x ∈ q.queueOf k.1 k.2, K k.1 x.offset k.2

/-- No key is off. -/
abbrev ExactIndex.All (K : TopicPartition → Int → κ → Prop) (q : WorkQueueTopology κ π) : Prop :=
  ExactIndex K (fun _ => False) q

/-- Every queue in the map has items. -/
def Kept (q : WorkQueueTopology κ π) : Prop := ∀ tp key, q.getQueue tp key ≠ some []

theorem exact_new (K : TopicPartition → Int → κ → Prop) : ExactIndex.All K (.new : WorkQueueTopology κ π) where
  nodup := List.nodup_nil
  active := fun _ => Iff.rfl
  runnable := fun k => ⟨fun h => (by cases h), fun h => absurd rfl h.2⟩
  head := fun k o => ⟨fun h => (by cases h), fun h => by cases h.2⟩
  byOffset := fun _ tp o k => ⟨fun h => (by cases h), fun h => by cases h.2⟩
  keyed := fun k x hx => by cases hx

namespace ExactIndex

/-- The same indexes over queues that differ only where the indexes have nothing. -/
theorem change (h : ExactIndex K off q) (hr : q'.runnableQueueKeys = q.runnableQueueKeys)
    (ha : q'.activeRunnableQueueKeys = q.activeRunnableQueueKeys) (ho : q'.headOffsets = q.headOffsets)
    (hb : q'.headQueueKeysByOffset = q.headQueueKeysByOffset)
    (hhead : ∀ j, ¬ off j → q'.headOf j = q.headOf j)
    (hkeyed : ∀ j : QueueKey κ, ∀ x ∈ q'.queueOf j.1 j.2, K j.1 x.offset j.2) : ExactIndex K off q' where
  nodup := by rw [hr]; exact h.nodup
  active := by rw [hr, ha]; exact h.active
  runnable := by
    intro j
    rw [hr, h.runnable]
    exact and_congr_right fun hj => by rw [hhead j hj]
  head := by
    intro j o
    rw [ho, h.head]
    exact and_congr_right fun hj => by rw [hhead j hj]
  byOffset := by rw [ho, hb]; exact h.byOffset
  keyed := hkeyed

/-- Which keys without items are off does not matter. -/
theorem restore (h : ExactIndex K off q) (hsub : ∀ j, off' j → off j)
    (hnone : ∀ j, off j → ¬ off' j → q.headOf j = none) : ExactIndex K off' q := by
  have hiff : ∀ j, q.headOf j ≠ none → (¬ off j ↔ ¬ off' j) := by
    refine fun j hj => ⟨fun hoff ho => hoff (hsub j ho), fun hoff ho => hj (hnone j ho hoff)⟩
  refine ⟨h.nodup, h.active, fun j => ?_, fun j o => ?_, h.byOffset, h.keyed⟩
  · rw [h.runnable]
    exact ⟨fun hj => ⟨(hiff j hj.2).mp hj.1, hj.2⟩, fun hj => ⟨(hiff j hj.2).mpr hj.1, hj.2⟩⟩
  · rw [h.head]
    have hsome : (q.headOf j).map (·.offset) = some o → q.headOf j ≠ none := by
      intro hj hnil
      rw [hnil] at hj
      cases hj
    exact ⟨fun hj => ⟨(hiff j (hsome hj.2)).mp hj.1, hj.2⟩, fun hj => ⟨(hiff j (hsome hj.2)).mpr hj.1, hj.2⟩⟩

end ExactIndex

/-! ## Out of the indexes and back -/

/-- The topology with another order and another active set. -/
abbrev withOrder (q : WorkQueueTopology κ π) (r a : List (QueueKey κ)) : WorkQueueTopology κ π :=
  { q with runnableQueueKeys := r, activeRunnableQueueKeys := a }

/-- A key leaves all indexes, whether or not it was taken out of the order before. -/
theorem exact_deactivate_taken (h : ExactIndex K off q) {r a : List (QueueKey κ)} (hn : r.Nodup)
    (hr : ∀ j, j ≠ k → (j ∈ r ↔ j ∈ q.runnableQueueKeys))
    (ha : ∀ j, j ≠ k → (j ∈ a ↔ j ∈ q.activeRunnableQueueKeys)) :
    ExactIndex K (fun j => off j ∨ j = k)
      ((q.withOrder r a).deactivateQueueKey k) where
  nodup := hn.filter _
  active := by
    intro j
    simp only [deactivateQueueKey, mem_discardKey]
    exact and_congr_left fun hj => by rw [ha j hj, hr j hj, h.active]
  runnable := by
    intro j
    simp only [deactivateQueueKey, mem_discardKey, not_or]
    constructor
    · rintro ⟨hj, hne⟩
      rw [hr j hne, h.runnable] at hj
      exact ⟨⟨hj.1, hne⟩, hj.2⟩
    · rintro ⟨⟨hoff, hne⟩, hj⟩
      refine ⟨?_, hne⟩
      rw [hr j hne, h.runnable]
      exact ⟨hoff, hj⟩
  head := by
    intro j o
    simp only [deactivateQueueKey, Dict.get?_erase, not_or]
    split
    · rename_i hkj
      exact ⟨fun hj => (by cases hj), fun hj => absurd hkj.symm hj.1.2⟩
    · rename_i hkj
      rw [h.head]
      exact ⟨fun hj => ⟨⟨hj.1, Ne.symm hkj⟩, hj.2⟩, fun hj => ⟨hj.1.1, hj.2⟩⟩
  byOffset := by
    intro hK tp o j
    have hback := h.byOffset hK tp o j
    -- the entry that is erased is that of `k`
    have herase : ∀ o', q.headOffsets.get? k = some o' →
        ((k.1, o') = (tp, o) ↔ q.headQueueKeysByOffset.get? (tp, o) = some k) := by
      intro o' ho'
      rw [h.byOffset hK]
      refine ⟨fun he => ?_, fun he => ?_⟩
      · cases he
        exact ⟨rfl, ho'⟩
      · rw [he.2] at ho'
        cases ho'
        rw [he.1]
    simp only [deactivateQueueKey, Dict.get?_erase]
    by_cases hkj : k = j
    · subst hkj
      rw [if_pos rfl]
      refine ⟨fun hj => ?_, fun hj => by cases hj.2⟩
      cases ho' : q.headOffsets.get? k with
      | none =>
        rw [ho'] at hj
        rw [(hback.mp hj).2] at ho'
        cases ho'
      | some o' =>
        rw [ho'] at hj
        simp only [Dict.get?_erase] at hj
        split at hj
        · cases hj
        · rename_i hne
          exact absurd ((herase o' ho').mpr hj) hne
    · rw [if_neg hkj, ← hback]
      cases ho' : q.headOffsets.get? k with
      | none => exact Iff.rfl
      | some o' =>
        simp only [Dict.get?_erase]
        split
        · rename_i he
          rw [(herase o' ho').mp he]
          exact ⟨fun hj => (by cases hj), fun hj => absurd (Option.some.inj hj) hkj⟩
        · exact Iff.rfl
  keyed := h.keyed

theorem exact_deactivate (h : ExactIndex K off q) (k : QueueKey κ) :
    ExactIndex K (fun j => off j ∨ j = k) (q.deactivateQueueKey k) :=
  exact_deactivate_taken h h.nodup (fun _ _ => Iff.rfl) fun _ _ => Iff.rfl

/-- The end of `refresh_queue_head`. -/
def fileHead (q : WorkQueueTopology κ π) (k : QueueKey κ) (o : Int) : WorkQueueTopology κ π :=
  { q with
    headOffsets := q.headOffsets.set k o
    headQueueKeysByOffset := q.headQueueKeysByOffset.set (k.1, o) k }.activateQueueKey k

theorem refreshQueueHead_cons (q : WorkQueueTopology κ π) (k : QueueKey κ) (x : WorkItem κ π)
    (l : List (WorkItem κ π)) :
    q.refreshQueueHead k (x :: l) = (q.deactivateQueueKey k).fileHead k x.offset := rfl

theorem mem_queueOf_of_headOf {x : WorkItem κ π} (h : q.headOf k = some x) : x ∈ q.queueOf k.1 k.2 :=
  List.mem_of_mem_head? h

/-- A key that is off comes back with the head of its queue. -/
theorem exact_fileHead (h : ExactIndex K off q) (hoff : off k) {x : WorkItem κ π} (hx : q.headOf k = some x) :
    ExactIndex K (fun j => off j ∧ j ≠ k) (q.fileHead k x.offset) := by
  have hr : k ∉ q.runnableQueueKeys := fun hk => ((h.runnable k).mp hk).1 hoff
  have ha : k ∉ q.activeRunnableQueueKeys := fun hk => hr ((h.active k).mp hk)
  have hnone : q.headOffsets.get? k = none := by
    cases ho : q.headOffsets.get? k with
    | none => rfl
    | some o => exact absurd hoff ((h.head k o).mp ho).1
  have heq : q.fileHead k x.offset =
      { q with
        headOffsets := q.headOffsets.set k x.offset
        headQueueKeysByOffset := q.headQueueKeysByOffset.set (k.1, x.offset) k
        runnableQueueKeys := q.runnableQueueKeys ++ [k]
        activeRunnableQueueKeys := appendKey q.activeRunnableQueueKeys k } := by
    simp only [fileHead, activateQueueKey, if_neg ha, appendKey, if_neg hr]
  have hheads : (q.fileHead k x.offset).headOf = q.headOf := by rw [heq]; rfl
  have hback : ∀ j, ¬ (off j ∧ j ≠ k) ↔ j = k ∨ ¬ off j := by
    intro j
    rw [not_and_or, not_not, or_comm]
  refine ⟨?_, ?_, ?_, ?_, ?_, ?_⟩
  · rw [heq]
    exact h.nodup.append (List.nodup_singleton k) (by simpa [List.disjoint_singleton] using hr)
  · intro j
    rw [heq]
    simp only [mem_appendKey, List.mem_append, List.mem_singleton, h.active]
  · intro j
    rw [hheads, heq, hback]
    simp only [List.mem_append, List.mem_singleton, h.runnable]
    constructor
    · rintro (hj | rfl)
      · exact ⟨.inr hj.1, hj.2⟩
      · exact ⟨.inl rfl, by rw [hx]; simp⟩
    · rintro ⟨rfl | hj, hne⟩
      · exact .inr rfl
      · exact .inl ⟨hj, hne⟩
  · intro j o
    rw [hheads, heq, hback]
    simp only [Dict.get?_set]
    split
    · rename_i hkj
      subst hkj
      rw [hx]
      exact ⟨fun ho => ⟨.inl rfl, ho⟩, fun ho => ho.2⟩
    · rename_i hkj
      rw [h.head]
      exact ⟨fun hj => ⟨.inr hj.1, hj.2⟩, fun hj => ⟨hj.1.resolve_left (Ne.symm hkj), hj.2⟩⟩
  · intro hK tp o j
    rw [heq]
    simp only [Dict.get?_set]
    have hback := h.byOffset hK tp o j
    by_cases he : (k.1, x.offset) = (tp, o)
    · rw [if_pos he]
      cases he
      refine ⟨fun hj => ?_, fun hj => ?_⟩
      · cases hj
        exact ⟨rfl, by rw [if_pos rfl]⟩
      · by_cases hkj : k = j
        · rw [hkj]
        · -- two queues of one partition with heads at one offset
          rw [if_neg hkj, h.head] at hj
          obtain ⟨htp, -, hj⟩ := hj
          obtain ⟨y, hy, hyx⟩ := Option.map_eq_some_iff.mp hj
          have h1 := h.keyed k x (mem_queueOf_of_headOf hx)
          have h2 := h.keyed j y (mem_queueOf_of_headOf hy)
          rw [htp, hyx] at h2
          exact absurd (Prod.ext htp.symm (hK _ _ _ _ h1 h2)) hkj
    · rw [if_neg he, hback]
      refine and_congr_right fun htp => ?_
      by_cases hkj : k = j
      · subst hkj
        rw [if_pos rfl, hnone]
        refine ⟨fun ho => (by cases ho), fun ho => ?_⟩
        cases ho
        exact absurd (by rw [htp]) he
      · rw [if_neg hkj]
  · rw [heq]
    exact h.keyed

/-! ## Refresh and dequeue -/

theorem exact_putQueue (h : ExactIndex K off q) (hoff : off k) (ha : q.assigned k.1) {l : List (WorkItem κ π)}
    (hl : ∀ x ∈ l, K k.1 x.offset k.2) : ExactIndex K off (q.putQueue k.1 k.2 l) := by
  obtain ⟨hr, hac, ho, hb⟩ := index_putQueue q k.1 k.2 l
  refine h.change hr hac ho hb (fun j hj => ?_) fun j x hx => ?_
  · rw [headOf_putQueue ha, if_neg]
    rintro rfl
    exact hj hoff
  · rw [queueOf_putQueue ha] at hx
    split at hx
    · rename_i he
      obtain ⟨h1, h2⟩ := he
      rw [← h1, ← h2]
      exact hl x hx
    · exact h.keyed j x hx

theorem deactivate_putQueue (q : WorkQueueTopology κ π) (tp : TopicPartition) (key : κ) (l : List (WorkItem κ π))
    (k : QueueKey κ) :
    (q.putQueue tp key l).deactivateQueueKey k = (q.deactivateQueueKey k).putQueue tp key l := by
  have hsame : (q.deactivateQueueKey k).virtualPartitionQueues = q.virtualPartitionQueues := rfl
  unfold putQueue
  rw [hsame]
  cases q.virtualPartitionQueues.get? tp with
  | none => rfl
  | some queues => rfl

section Taken

variable {r a : List (QueueKey κ)} (h : ExactIndex K off q) (hn : r.Nodup)
  (hr : ∀ j, j ≠ k → (j ∈ r ↔ j ∈ q.runnableQueueKeys))
  (ha : ∀ j, j ≠ k → (j ∈ a ↔ j ∈ q.activeRunnableQueueKeys))

include h hn hr ha

/-- Whatever a key was taken out of, a refresh puts it back. -/
theorem exact_refresh :
    ExactIndex K (fun j => off j ∧ j ≠ k)
      ((q.withOrder r a).refreshQueueHead k (q.queueOf k.1 k.2)) := by
  have hd := exact_deactivate_taken h hn hr ha
  cases hq : q.queueOf k.1 k.2 with
  | nil =>
    refine hd.restore (fun j hj => .inl hj.1) fun j hj hnot => ?_
    have hjk : j = k := by
      rcases hj with hj | hj
      · by_contra hne
        exact hnot ⟨hj, hne⟩
      · exact hj
    subst hjk
    show (q.queueOf j.1 j.2).head? = none
    rw [hq]
    rfl
  | cons x l =>
    rw [refreshQueueHead_cons]
    have hx : ((q.withOrder r a).deactivateQueueKey k).headOf k = some x := by
      show (q.queueOf k.1 k.2).head? = some x
      rw [hq]
      rfl
    refine (exact_fileHead hd (.inr rfl) hx).restore (fun j hj => ⟨.inl hj.1, hj.2⟩) fun j hj hnot => ?_
    exact absurd ⟨hj.1.resolve_right hj.2, hj.2⟩ hnot

/-- Both dequeue functions put the key back, or drop it with its queue. -/
theorem exact_settleQueue (has : q.assigned k.1) {l : List (WorkItem κ π)} (hl : ∀ x ∈ l, K k.1 x.offset k.2) :
    ExactIndex K (fun j => off j ∧ j ≠ k)
      ((q.withOrder r a).settleQueue k.1 k.2 l) := by
  have hput := exact_putQueue (exact_deactivate_taken h hn hr ha) (.inr rfl) has hl
  rw [← deactivate_putQueue] at hput
  have hqueue := queueOf_putQueue (q := q.withOrder r a) has k.2 l
  unfold settleQueue
  cases l with
  | cons x l =>
    dsimp only
    rw [if_neg (List.cons_ne_nil _ _), refreshQueueHead_cons]
    have hx : (((q.withOrder r a).putQueue k.1 k.2 (x :: l)).deactivateQueueKey k).headOf k = some x := by
      rw [(sameQueues_deactivate _ k).headOf, headOf, hqueue, if_pos ⟨rfl, rfl⟩]
      rfl
    refine (exact_fileHead hput (.inr rfl) hx).restore (fun j hj => ⟨.inl hj.1, hj.2⟩) fun j hj hnot => ?_
    exact absurd ⟨hj.1.resolve_right hj.2, hj.2⟩ hnot
  | nil =>
    dsimp only
    rw [if_pos rfl]
    -- the queue that was emptied is there, and is dropped
    have hsome := getQueue_putQueue (q := q.withOrder r a) has k.2 []
    have hqueues := queueOf_cleanupEmptyQueue
      ((q.withOrder r a).putQueue k.1 k.2 []) k.1 k.2
    generalize (q.withOrder r a).putQueue k.1 k.2 [] = p at hput hqueue hsome hqueues ⊢
    obtain ⟨queues, hp, hkey⟩ := Option.bind_eq_some_iff.mp hsome
    have hclean : p.cleanupEmptyQueue k.1 k.2 =
        { p.deactivateQueueKey k with
          virtualPartitionQueues := p.virtualPartitionQueues.set k.1 (queues.erase k.2) } := by
      unfold cleanupEmptyQueue
      simp only [hp, hkey]
    have hchange : ExactIndex K (fun j => off j ∨ j = k) (p.cleanupEmptyQueue k.1 k.2) := by
      refine hput.change (by rw [hclean]) (by rw [hclean]) (by rw [hclean]) (by rw [hclean]) (fun j _ => ?_) fun j x hx => ?_
      · rw [headOf, hqueues]
        rfl
      · rw [hqueues] at hx
        exact hput.keyed j x hx
    refine hchange.restore (fun j hj => .inl hj.1) fun j hj hnot => ?_
    have hjk : j = k := by
      rcases hj with hj | hj
      · by_contra hne
        exact hnot ⟨hj, hne⟩
      · exact hj
    subst hjk
    rw [headOf, hqueues, hqueue, if_pos ⟨rfl, rfl⟩]
    rfl

end Taken

theorem ExactIndex.all_of_and_ne (h : ExactIndex K (fun j => False ∧ j ≠ k) q) : ExactIndex.All K q :=
  h.restore (fun _ ho => ho.elim) fun _ ho _ => ho.1.elim

/-! ## The operations between picks -/

theorem exact_enqueueBatch (h : ExactIndex.All K q) (ha : q.assigned k.1) {l : List (WorkItem κ π)}
    (hl : ∀ x ∈ l, K k.1 x.offset k.2) : ExactIndex.All K (q.enqueueBatch k.1 k.2 l) := by
  have hqueue : (q.getQueue k.1 k.2).getD [] = q.queueOf k.1 k.2 := rfl
  unfold enqueueBatch
  dsimp only
  rw [hqueue]
  split
  · rename_i hcond
    obtain ⟨x, l, rfl⟩ := List.exists_cons_of_ne_nil hcond.2
    have := exact_settleQueue (k := k) h h.nodup (fun _ _ => Iff.rfl) (fun _ _ => Iff.rfl) ha hl
    rw [hcond.1, List.nil_append]
    unfold settleQueue at this
    dsimp only at this
    rw [if_neg (List.cons_ne_nil _ _)] at this
    exact this.all_of_and_ne
  · rename_i hcond
    obtain ⟨hr, hac, ho, hb⟩ := index_putQueue q k.1 k.2 (q.queueOf k.1 k.2 ++ l)
    refine h.change hr hac ho hb (fun j _ => ?_) fun j x hx => ?_
    · rw [headOf_putQueue ha]
      split
      · rename_i hkj
        subst hkj
        rw [headOf]
        cases hq : q.queueOf k.1 k.2 with
        | nil =>
          have hnil : l = [] := by
            by_contra hne
            exact hcond ⟨hq, hne⟩
          rw [hnil]
          rfl
        | cons x rest => rfl
      · rfl
    · rw [queueOf_putQueue ha] at hx
      split at hx
      · rename_i he
        obtain ⟨h1, h2⟩ := he
        rw [← h1, ← h2]
        rcases List.mem_append.mp hx with hx | hx
        · exact h.keyed k x hx
        · exact hl x hx
      · exact h.keyed j x hx

theorem exact_cleanupEmptyQueue (h : ExactIndex.All K q) (tp : TopicPartition) (key : κ) :
    ExactIndex.All K (q.cleanupEmptyQueue tp key) := by
  have hqueues := queueOf_cleanupEmptyQueue q tp key
  unfold cleanupEmptyQueue at hqueues ⊢
  split
  · exact h
  · rename_i queues hq
    rw [hq] at hqueues
    split
    · rename_i hkey
      simp only [hkey] at hqueues
      have hchange : ExactIndex K (fun j => False ∨ j = (tp, key))
          { q.deactivateQueueKey (tp, key) with
            virtualPartitionQueues := q.virtualPartitionQueues.set tp (queues.erase key) } := by
        refine (exact_deactivate h (tp, key)).change rfl rfl rfl rfl (fun j _ => ?_) fun j x hx => ?_
        · rw [headOf, hqueues]
          rfl
        · rw [hqueues] at hx
          exact h.keyed j x hx
      refine hchange.restore (fun _ ho => ho.elim) fun j hj _ => ?_
      rw [hj.resolve_left not_false, headOf, hqueues, queueOf, getQueue, hq, Option.bind_some, hkey]
      rfl
    · exact h

theorem exact_assign {tp : TopicPartition} (h : ExactIndex.All K q) (hn : ¬ q.assigned tp) :
    ExactIndex.All K (q.assign tp) := by
  have hqueues : (q.assign tp).queueOf = q.queueOf := by
    funext tp' key
    rw [queueOf_assign]
    split
    · rename_i htp
      subst htp
      by_contra hne
      exact hn (assigned_of_queueOf_ne_nil (Ne.symm hne))
    · rfl
  refine h.change rfl rfl rfl rfl (fun j _ => ?_) fun j x hx => ?_
  · rw [headOf, hqueues]
    rfl
  · rw [hqueues] at hx
    exact h.keyed j x hx

theorem exact_deactivateAll (tp : TopicPartition) (keys : List κ) :
    ∀ {q : WorkQueueTopology κ π} {off : QueueKey κ → Prop}, ExactIndex K off q →
      ExactIndex K (fun j => off j ∨ (j.1 = tp ∧ j.2 ∈ keys))
        (keys.foldl (fun q key => q.deactivateQueueKey (tp, key)) q) := by
  induction keys with
  | nil =>
    intro q off h
    refine h.restore (fun j hj => hj.resolve_right fun ho => by cases ho.2) fun j hj hnot => ?_
    exact absurd (.inl hj) hnot
  | cons key keys ih =>
    intro q off h
    have hiff : ∀ j : QueueKey κ, ((off j ∨ j = (tp, key)) ∨ (j.1 = tp ∧ j.2 ∈ keys)) ↔
        (off j ∨ (j.1 = tp ∧ j.2 ∈ key :: keys)) := by
      intro j
      rw [Prod.ext_iff, List.mem_cons]
      tauto
    have := ih (exact_deactivate h (tp, key))
    simp only [hiff] at this
    exact this

/-- A key of the partition without a queue in the map has no items. -/
theorem queueOf_of_not_mem_keys {tp : TopicPartition} {key : κ}
    (h : key ∉ ((q.virtualPartitionQueues.get? tp).getD .empty).keys) : q.queueOf tp key = [] := by
  rw [queueOf, getQueue]
  cases hq : q.virtualPartitionQueues.get? tp with
  | none => rfl
  | some queues =>
    rw [hq, Option.getD_some] at h
    have hkey : queues.get? key = none := by
      by_contra hk
      exact h (queues.mem_keys_iff.mpr (Option.isSome_iff_ne_none.mpr hk))
    rw [Option.bind_some, hkey]
    rfl

theorem exact_revoke (h : ExactIndex.All K q) (tp : TopicPartition) : ExactIndex.All K (q.revoke tp).2 := by
  have hd := exact_deactivateAll tp ((q.virtualPartitionQueues.get? tp).getD .empty).keys h
  have hsame := (sameQueues_deactivateAll tp ((q.virtualPartitionQueues.get? tp).getD .empty).keys q).headOf
  have hnone : ∀ j : QueueKey κ, j.1 = tp → (q.revoke tp).2.headOf j = none := by
    intro j hj
    rw [headOf, queueOf_revoke, if_pos hj.symm]
    rfl
  have hchange : ExactIndex K (fun j => False ∨ (j.1 = tp ∧
      j.2 ∈ ((q.virtualPartitionQueues.get? tp).getD .empty).keys)) (q.revoke tp).2 := by
    refine hd.change rfl rfl rfl rfl (fun j hj => ?_) fun j x hx => ?_
    · rw [hsame]
      by_cases htp : j.1 = tp
      · rw [hnone j htp, headOf, queueOf_of_not_mem_keys]
        · rfl
        · rw [htp]
          exact fun hm => hj (.inr ⟨htp, hm⟩)
      · rw [headOf, queueOf_revoke, if_neg (Ne.symm htp)]
        rfl
    · rw [queueOf_revoke] at hx
      split at hx
      · cases hx
      · exact h.keyed j x hx
  exact hchange.restore (fun _ ho => ho.elim) fun j hj _ => hnone j (hj.resolve_left not_false).1

/-! ## No empty queue is kept -/

theorem getQueue_put {tp : TopicPartition} (ha : q.assigned tp) (key : κ) (l : List (WorkItem κ π))
    (tp' : TopicPartition) (key' : κ) :
    (q.putQueue tp key l).getQueue tp' key' = if tp = tp' ∧ key = key' then some l else q.getQueue tp' key' := by
  obtain ⟨queues, hq⟩ := Option.isSome_iff_exists.mp ha
  rw [getQueue, get?_putQueue, hq]
  by_cases htp : tp = tp'
  · subst htp
    rw [if_pos rfl, Option.map_some, Option.bind_some, Dict.get?_set, getQueue, hq, Option.bind_some]
    simp
  · rw [if_neg htp, if_neg fun h => htp h.1]
    rfl

theorem kept_new : Kept (.new : WorkQueueTopology κ π) := fun _ _ h => by cases h

theorem kept_of_same (h : Kept q) (hs : SameQueues q q') : Kept q' := by
  intro tp key hq
  unfold SameQueues at hs
  rw [getQueue, hs] at hq
  exact h tp key hq

theorem kept_putQueue (h : Kept q) {tp : TopicPartition} (ha : q.assigned tp) (key : κ)
    {l : List (WorkItem κ π)} (hl : l ≠ []) : Kept (q.putQueue tp key l) := by
  intro tp' key' hq
  rw [getQueue_put ha] at hq
  split at hq
  · exact hl (Option.some.inj hq)
  · exact h tp' key' hq

theorem kept_enqueueBatch (h : Kept q) {tp : TopicPartition} (ha : q.assigned tp) (key : κ)
    {l : List (WorkItem κ π)} (hl : l ≠ []) : Kept (q.enqueueBatch tp key l) := by
  have hne : q.queueOf tp key ++ l ≠ [] := fun hnil => hl (List.append_eq_nil_iff.mp hnil).2
  exact kept_of_same (kept_putQueue h ha key hne) (sameQueues_enqueueBatch q tp key l)

theorem kept_settleQueue (h : Kept q) {tp : TopicPartition} (ha : q.assigned tp) (key : κ)
    (l : List (WorkItem κ π)) : Kept (q.settleQueue tp key l) := by
  unfold settleQueue
  cases l with
  | cons x l =>
    dsimp only
    rw [if_neg (List.cons_ne_nil _ _)]
    exact kept_of_same (kept_putQueue h ha key (List.cons_ne_nil _ _)) (sameQueues_refresh _ _ _)
  | nil =>
    dsimp only
    rw [if_pos rfl]
    have hput := getQueue_put ha key ([] : List (WorkItem κ π))
    generalize q.putQueue tp key [] = p at hput
    intro tp' key' hq
    rcases get?_cleanupEmptyQueue p tp key with ⟨queues, hp, hkey, heq⟩ | hs
    · rw [getQueue, heq, Dict.get?_set] at hq
      have hother := hput tp' key'
      split at hq
      · rename_i htp
        subst htp
        rw [Option.bind_some, Dict.get?_erase] at hq
        split at hq
        · cases hq
        · rename_i hne
          rw [getQueue, hp, Option.bind_some, hq, if_neg fun he => hne he.2] at hother
          exact h _ _ hother.symm
      · rename_i hne
        rw [if_neg fun he => hne he.1] at hother
        exact h _ _ (hother.symm.trans hq)
    · -- the emptied queue is there to be dropped
      have hsome := hput tp key
      rw [if_pos ⟨rfl, rfl⟩] at hsome
      obtain ⟨queues, hp, hkey⟩ := Option.bind_eq_some_iff.mp hsome
      unfold SameQueues cleanupEmptyQueue at hs
      simp only [hp, hkey] at hs
      have := congrArg (fun d : Dict TopicPartition (Dict κ (List (WorkItem κ π))) => (d.get? tp).bind (·.get? key)) hs
      simp [hp, hkey, Dict.get?_erase] at this

theorem kept_assign (h : Kept q) (tp : TopicPartition) : Kept (q.assign tp) := by
  intro tp' key hq
  rw [getQueue, assign, Dict.get?_set] at hq
  split at hq
  · cases hq
  · exact h tp' key hq

theorem kept_revoke (h : Kept q) (tp : TopicPartition) : Kept (q.revoke tp).2 := by
  intro tp' key hq
  rw [getQueue, virtualPartitionQueues_revoke, Dict.get?_erase] at hq
  split at hq
  · cases hq
  · exact h tp' key hq

/-- There is nothing to clean up. -/
theorem cleanupEmptyQueue_of_kept (h : Kept q) (tp : TopicPartition) (key : κ) : q.cleanupEmptyQueue tp key = q := by
  unfold cleanupEmptyQueue
  split
  · rfl
  · rename_i queues hq
    split
    · rename_i hkey
      exact absurd (by rw [getQueue, hq, Option.bind_some, hkey]) (h tp key)
    · rfl

end WorkQueueTopology

end PyrallelConsumer
