import PyrallelConsumer.BatchSubmit
import PyrallelConsumer.Dispatch
import PyrallelConsumer.QueueBatches

/-!
# PyrallelConsumer.GroupedDispatch

`dispatch_messages` of `control_plane/broker_dispatch_support.py` under key and partition ordering: it
collects the messages by queue and submits the groups at the end. The queues come out as if every message
had been submitted on its own.

* `Raised`, `submitMessageBatch_of_assigned` — what a submission does to the last fetched offsets.
* `sameDispatch_groupAll` — groups and single messages come to the same queues.
* `grouped_dispatch_eq_one_by_one` — both ways of dispatching, up to the ids of the work items.
-/

set_option linter.unusedSectionVars false

namespace PyrallelConsumer

variable {κ π : Type} [DecidableEq κ]

namespace WorkManager

/-- The queues with `f` applied to their items, and the number of queued messages. -/
def queued (f : WorkItem κ π → WorkItem κ π) (s : WorkManager κ π) : WorkQueueTopology κ π × Nat :=
  (s.queueTopology.mapItems f, s.totalQueuedMessages)

section

variable {f : WorkItem κ π → WorkItem κ π} {item : QueueKey κ → QueuedMessage κ π → WorkItem κ π}

theorem map_createItems (hitem : ∀ k s m, f (submitOne k.1 k.2 s m).1 = item k m) (k : QueueKey κ)
    (messages : List (QueuedMessage κ π)) :
    ∀ s : WorkManager κ π, (createItems k.1 k.2 s messages).1.map f = messages.map (item k) := by
  induction messages with
  | nil => intro s; rfl
  | cons m messages ih =>
    intro s
    simp only [createItems, List.map_cons, ih, hitem k s m]

theorem queued_submitGroup (hf : ∀ x, (f x).offset = x.offset)
    (hitem : ∀ k s m, f (submitOne k.1 k.2 s m).1 = item k m) (s : WorkManager κ π) (k : QueueKey κ)
    (messages : List (QueuedMessage κ π)) :
    (s.submitGroup k messages).queued f = enqueueMessages item (s.queued f) k messages := by
  unfold queued enqueueMessages
  rw [queueTopology_submitGroup, totalQueuedMessages_submitGroup, WorkQueueTopology.enqueueBatch_mapItems hf,
    map_createItems hitem]

theorem queued_submitAll (hf : ∀ x, (f x).offset = x.offset)
    (hitem : ∀ k s m, f (submitOne k.1 k.2 s m).1 = item k m) (groups : List (Group κ π)) :
    ∀ s : WorkManager κ π,
      (s.submitAll groups).queued f = groups.foldl (fun q g => enqueueMessages item q g.1 g.2) (s.queued f) := by
  induction groups with
  | nil => intro s; rfl
  | cons g groups ih =>
    intro s
    refine (ih (s.submitGroup g.1 g.2)).trans ?_
    rw [queued_submitGroup hf hitem]
    rfl

end

/-! ## Last fetched offsets -/

/-- The offset raised to the greatest of the list. -/
def raised (v : Int) (offsets : List Int) : Int := offsets.foldl max v

theorem raised_le_iff {b : Int} (offsets : List Int) : ∀ {v : Int}, raised v offsets ≤ b ↔ v ≤ b ∧ ∀ o ∈ offsets, o ≤ b := by
  induction offsets with
  | nil => intro v; simp [raised]
  | cons o offsets ih =>
    intro v
    refine (ih (v := max v o)).trans ?_
    rw [max_le_iff, List.forall_mem_cons, and_assoc]

theorem raised_eq_of_le_iff {v : Int} {l l' : List Int} (h : ∀ b, (∀ o ∈ l, o ≤ b) ↔ ∀ o ∈ l', o ≤ b) :
    raised v l = raised v l' := by
  have hle : ∀ b, raised v l ≤ b ↔ raised v l' ≤ b := fun b => by
    rw [raised_le_iff, raised_le_iff, h b]
  exact le_antisymm ((hle _).mpr (le_refl _)) ((hle _).mp (le_refl _))

/-- The offsets of the list whose partition has the tracker. -/
def offsetsFor (s : WorkManager κ π) (r : TrackerRef) (l : List (TopicPartition × Int)) : List Int :=
  (l.filter fun e => s.offsetTrackers.get? e.1 = some r).map Prod.snd

/-- The list of offsets was fetched: every tracker has its last fetched offset raised to its own. -/
structure Raised (s : WorkManager κ π) (l : List (TopicPartition × Int)) (s' : WorkManager κ π) : Prop where
  trackers : s'.offsetTrackers = s.offsetTrackers
  lastFetched : ∀ r, (s'.trackerAt r).map (·.lastFetchedOffset) =
    (s.trackerAt r).map fun t => raised t.lastFetchedOffset (s.offsetsFor r l)

theorem Raised.of_heap {s s' : WorkManager κ π} (hheap : s'.heap = s.heap)
    (htrackers : s'.offsetTrackers = s.offsetTrackers) : Raised s [] s' :=
  ⟨htrackers, fun r => by simp only [trackerAt, hheap]; rfl⟩

theorem Raised.trans {s s' s'' : WorkManager κ π} {l l' : List (TopicPartition × Int)} (h : Raised s l s')
    (h' : Raised s' l' s'') : Raised s (l ++ l') s'' := by
  refine ⟨h'.trackers.trans h.trackers, fun r => ?_⟩
  have hfirst := h.lastFetched r
  have hsecond := h'.lastFetched r
  have hoffsets : s'.offsetsFor r l' = s.offsetsFor r l' := by simp only [offsetsFor, h.trackers]
  have happend : s.offsetsFor r (l ++ l') = s.offsetsFor r l ++ s.offsetsFor r l' := by
    simp only [offsetsFor, List.filter_append, List.map_append]
  rw [hsecond, hoffsets, happend]
  cases ht : s.trackerAt r with
  | none =>
    have hnone : s'.trackerAt r = none := by simpa [ht] using hfirst
    simp [hnone]
  | some t =>
    rw [ht] at hfirst
    obtain ⟨t', ht', hlast⟩ := Option.map_eq_some_iff.mp hfirst
    simp only [ht', Option.map_some, hlast, raised, List.foldl_append]

theorem lastFetchedOffset_update (t : OffsetTracker) (o : Int) :
    (t.updateLastFetchedOffset o).lastFetchedOffset = max t.lastFetchedOffset o := by
  unfold OffsetTracker.updateLastFetchedOffset
  split
  · rename_i h
    exact (max_eq_right (le_of_lt h)).symm
  · rename_i h
    exact (max_eq_left (not_lt.mp h)).symm

theorem raised_updateLastFetched (s : WorkManager κ π) (e : TopicPartition × Int) :
    Raised s [e] (s.updateLastFetched e) := by
  unfold updateLastFetched
  cases href : s.offsetTrackers.get? e.1 with
  | none =>
    refine ⟨rfl, fun r => ?_⟩
    have hnone : s.offsetsFor r [e] = [] := by simp [offsetsFor, href]
    rw [hnone]
    rfl
  | some r' =>
    refine ⟨rfl, fun r => ?_⟩
    rw [trackerAt_modifyTracker]
    by_cases hr : r' = r
    · subst hr
      have hone : s.offsetsFor r' [e] = [e.2] := by simp [offsetsFor, href]
      rw [if_pos rfl, hone, Option.map_map]
      congr 1
      funext t
      exact lastFetchedOffset_update t e.2
    · have hnone : s.offsetsFor r [e] = [] := by simp [offsetsFor, href, hr]
      rw [if_neg hr, hnone]
      rfl

theorem raised_updateAll (l : List (TopicPartition × Int)) :
    ∀ s : WorkManager κ π, Raised s l (l.foldl updateLastFetched s) := by
  induction l with
  | nil => intro s; exact .of_heap rfl rfl
  | cons e l ih => intro s; exact (raised_updateLastFetched s e).trans (ih _)

theorem heap_createItems (tp : TopicPartition) (key : κ) (messages : List (QueuedMessage κ π)) :
    ∀ s : WorkManager κ π, (createItems tp key s messages).2.heap = s.heap ∧
      (createItems tp key s messages).2.offsetTrackers = s.offsetTrackers := by
  induction messages with
  | nil => intro s; exact ⟨rfl, rfl⟩
  | cons m messages ih => intro s; exact ih (submitOne tp key s m).2

theorem heap_submitAll (groups : List (Group κ π)) :
    ∀ s : WorkManager κ π, (s.submitAll groups).heap = s.heap ∧
      (s.submitAll groups).offsetTrackers = s.offsetTrackers := by
  induction groups with
  | nil => intro s; exact ⟨rfl, rfl⟩
  | cons g groups ih =>
    intro s
    obtain ⟨hheap, htrackers⟩ := ih (s.submitGroup g.1 g.2)
    obtain ⟨hheap', htrackers'⟩ := heap_createItems g.1.1 g.1.2 g.2 s
    exact ⟨hheap.trans hheap', htrackers.trans htrackers'⟩

/-! ## Greatest offsets -/

/-- The partition and offset of every message of the groups. -/
def groupOffsets (groups : List (Group κ π)) : List (TopicPartition × Int) :=
  groups.flatMap fun g => g.2.map fun m => (g.1.1, m.offset)

def raiseAll (d : Dict TopicPartition Int) (l : List (TopicPartition × Int)) : Dict TopicPartition Int :=
  l.foldl (fun d e => raiseMax d e.1 e.2) d

theorem raiseMax_le_iff (d : Dict TopicPartition Int) (tp tp' : TopicPartition) (o b : Int) :
    (∀ v, (raiseMax d tp o).get? tp' = some v → v ≤ b) ↔
      (∀ v, d.get? tp' = some v → v ≤ b) ∧ (tp = tp' → o ≤ b) := by
  unfold raiseMax
  by_cases htp : tp = tp'
  · subst htp
    cases hget : d.get? tp with
    | none => simp
    | some m =>
      dsimp only
      split
      · simp
        omega
      · simp [hget]
        omega
  · cases hget : d.get? tp with
    | none => simp [Dict.get?_set, htp]
    | some m =>
      dsimp only
      split
      · simp [Dict.get?_set, htp]
      · simp [htp]

theorem raiseAll_le_iff (l : List (TopicPartition × Int)) (tp : TopicPartition) (b : Int) :
    ∀ d : Dict TopicPartition Int, (∀ v, (raiseAll d l).get? tp = some v → v ≤ b) ↔
      (∀ v, d.get? tp = some v → v ≤ b) ∧ ∀ e ∈ l, e.1 = tp → e.2 ≤ b := by
  induction l with
  | nil => intro d; simp [raiseAll]
  | cons e l ih =>
    intro d
    refine (ih (raiseMax d e.1 e.2)).trans ?_
    rw [raiseMax_le_iff, List.forall_mem_cons, and_assoc]

/-- The greatest offsets of the partitions raise the trackers as all the offsets do. -/
theorem raised_offsetsFor_raiseAll (s : WorkManager κ π) (r : TrackerRef) (v : Int) (l : List (TopicPartition × Int)) :
    raised v (s.offsetsFor r (raiseAll .empty l).entries) = raised v (s.offsetsFor r l) := by
  refine raised_eq_of_le_iff fun b => ?_
  have hmem : ∀ m : List (TopicPartition × Int), (∀ o ∈ s.offsetsFor r m, o ≤ b) ↔
      ∀ e ∈ m, s.offsetTrackers.get? e.1 = some r → e.2 ≤ b := by
    intro m
    simp only [offsetsFor, List.mem_map, List.mem_filter, decide_eq_true_eq]
    constructor
    · intro h e he hr
      exact h e.2 ⟨e, ⟨he, hr⟩, rfl⟩
    · rintro h o ⟨e, ⟨he, hr⟩, rfl⟩
      exact h e he hr
  rw [hmem, hmem]
  constructor
  · intro h e he hr
    refine ((raiseAll_le_iff l e.1 b .empty).mp fun v hv => ?_).2 e he rfl
    exact h (e.1, v) ((Dict.mem_entries_iff _).mpr hv) hr
  · intro h e he hr
    refine (raiseAll_le_iff l e.1 b .empty).mpr ⟨fun v hv => (by cases hv), fun e' he' htp => ?_⟩ e.2
      ((Dict.mem_entries_iff _).mp he)
    exact h e' he' (by rw [htp]; exact hr)

/-! ## Submitting in groups and one by one -/

theorem Raised.congr {s s' : WorkManager κ π} {l l' : List (TopicPartition × Int)} (h : Raised s l s')
    (heq : ∀ r v, raised v (s.offsetsFor r l) = raised v (s.offsetsFor r l')) : Raised s l' s' := by
  refine ⟨h.trackers, fun r => ?_⟩
  rw [h.lastFetched r]
  congr 1
  funext t
  exact heq r _

theorem queues_updateAll (l : List (TopicPartition × Int)) :
    ∀ s : WorkManager κ π, (l.foldl updateLastFetched s).queueTopology = s.queueTopology ∧
      (l.foldl updateLastFetched s).totalQueuedMessages = s.totalQueuedMessages := by
  induction l with
  | nil => intro s; exact ⟨rfl, rfl⟩
  | cons e l ih =>
    intro s
    obtain ⟨hqueues, htotal⟩ := ih (s.updateLastFetched e)
    have hone : (s.updateLastFetched e).queueTopology = s.queueTopology ∧
        (s.updateLastFetched e).totalQueuedMessages = s.totalQueuedMessages := by
      unfold updateLastFetched
      split <;> exact ⟨rfl, rfl⟩
    exact ⟨hqueues.trans hone.1, htotal.trans hone.2⟩

theorem maxOffsets_eq (groups : List (Group κ π)) :
    ∀ d : Dict TopicPartition Int,
      groups.foldl (fun d g => g.2.foldl (fun d m => raiseMax d g.1.1 m.offset) d) d =
        raiseAll d (groupOffsets groups) := by
  induction groups with
  | nil => intro d; rfl
  | cons g groups ih =>
    intro d
    rw [List.foldl_cons, ih]
    show _ = raiseAll d (g.2.map (fun m => (g.1.1, m.offset)) ++ groupOffsets groups)
    unfold raiseAll
    rw [List.foldl_append, List.foldl_map]

/-- Groups of assigned partitions are all queued, and their offsets count as fetched. -/
theorem submitMessageBatch_of_assigned {s : WorkManager κ π} {groups : List (Group κ π)}
    (h : ∀ g ∈ groups, s.queueTopology.assigned g.1.1) :
    (s.submitMessageBatch groups).2 = .ok () ∧
      ((s.submitMessageBatch groups).1.queueTopology = (s.submitAll groups).queueTopology ∧
        (s.submitMessageBatch groups).1.totalQueuedMessages = (s.submitAll groups).totalQueuedMessages) ∧
      Raised s (groupOffsets groups) (s.submitMessageBatch groups).1 := by
  unfold submitMessageBatch
  rw [submitGroups_of_assigned groups .empty h, maxOffsets_eq]
  have hheap := heap_submitAll groups s
  have hupdate := (Raised.of_heap hheap.1 hheap.2).trans
    (raised_updateAll (raiseAll .empty (groupOffsets groups)).entries (s.submitAll groups))
  have hraised := hupdate.congr fun r v => s.raised_offsetsFor_raiseAll r v (groupOffsets groups)
  have hqueues := queues_updateAll (raiseAll .empty (groupOffsets groups)).entries (s.submitAll groups)
  dsimp only
  split
  · rename_i hempty
    rw [hempty] at hraised
    exact ⟨rfl, ⟨rfl, rfl⟩, hraised⟩
  · exact ⟨rfl, hqueues, ⟨hraised.trackers, hraised.lastFetched⟩⟩

theorem queued_submitMessageBatch {s : WorkManager κ π} {groups : List (Group κ π)}
    (h : ∀ g ∈ groups, s.queueTopology.assigned g.1.1) (f : WorkItem κ π → WorkItem κ π) :
    (s.submitMessageBatch groups).1.queued f = (s.submitAll groups).queued f := by
  obtain ⟨-, ⟨hqueues, htotal⟩, -⟩ := submitMessageBatch_of_assigned h
  unfold queued
  rw [hqueues, htotal]

/-- Every message with its queue, submitted by a call of its own. -/
def submitEach (s : WorkManager κ π) (l : List (QueueKey κ × QueuedMessage κ π)) : WorkManager κ π :=
  l.foldl (fun s e => (s.submitMessageBatch [(e.1, [e.2])]).1) s

theorem assigned_submitMessageBatch {s : WorkManager κ π} {groups : List (Group κ π)}
    (h : ∀ g ∈ groups, s.queueTopology.assigned g.1.1) :
    (s.submitMessageBatch groups).1.queueTopology.assigned = s.queueTopology.assigned := by
  have hall : ∀ (groups : List (Group κ π)) (s : WorkManager κ π),
      (s.submitAll groups).queueTopology.assigned = s.queueTopology.assigned := by
    intro groups
    induction groups with
    | nil => intro s; rfl
    | cons g groups ih => intro s; exact (ih (s.submitGroup g.1 g.2)).trans (assigned_submitGroup s g.1 g.2)
  rw [(submitMessageBatch_of_assigned h).2.1.1, hall]

theorem submitEach_of_assigned {f : WorkItem κ π → WorkItem κ π}
    {item : QueueKey κ → QueuedMessage κ π → WorkItem κ π} (hf : ∀ x, (f x).offset = x.offset)
    (hitem : ∀ k s m, f (submitOne k.1 k.2 s m).1 = item k m) (l : List (QueueKey κ × QueuedMessage κ π)) :
    ∀ {s : WorkManager κ π}, (∀ e ∈ l, s.queueTopology.assigned e.1.1) →
      (s.submitEach l).queued f = l.foldl (fun q e => enqueueMessages item q e.1 [e.2]) (s.queued f) ∧
        Raised s (l.map fun e => (e.1.1, e.2.offset)) (s.submitEach l) := by
  induction l with
  | nil => intro s _; exact ⟨rfl, .of_heap rfl rfl⟩
  | cons e l ih =>
    intro s h
    have hone : ∀ g ∈ [(e.1, [e.2])], s.queueTopology.assigned g.1.1 := by
      intro g hg
      rw [List.mem_singleton.mp hg]
      exact h e List.mem_cons_self
    have hraised := (submitMessageBatch_of_assigned hone).2.2
    have hrest : ∀ e' ∈ l, (s.submitMessageBatch [(e.1, [e.2])]).1.queueTopology.assigned e'.1.1 := by
      intro e' he'
      rw [assigned_submitMessageBatch hone]
      exact h e' (List.mem_cons_of_mem _ he')
    obtain ⟨hqueued', hraised'⟩ := ih hrest
    refine ⟨hqueued'.trans ?_, hraised.trans hraised'⟩
    rw [queued_submitMessageBatch hone, queued_submitAll hf hitem]
    rfl

/-- The groups of the messages do to the queues what the messages do one by one. -/
theorem queued_groupAll {f : WorkItem κ π → WorkItem κ π} {item : QueueKey κ → QueuedMessage κ π → WorkItem κ π}
    (hf : ∀ x, (f x).offset = x.offset) (hitem : ∀ k s m, f (submitOne k.1 k.2 s m).1 = item k m)
    {s : WorkManager κ π} {l : List (QueueKey κ × QueuedMessage κ π)}
    (h : ∀ e ∈ l, s.queueTopology.assigned e.1.1) :
    (s.submitAll (groupAll l).entries).queued f =
      l.foldl (fun q e => enqueueMessages item q e.1 [e.2]) (s.queued f) := by
  rw [queued_submitAll hf hitem]
  refine (batchable_enqueue item (fun tp => s.queueTopology.assigned tp)).foldl_groupAll ?_ l h
  intro tp htp
  show ((s.queueTopology.mapItems f).assigned tp)
  rw [WorkQueueTopology.assigned_mapItems]
  exact htp

theorem raised_groupAll {s : WorkManager κ π} (l : List (QueueKey κ × QueuedMessage κ π)) (r : TrackerRef) (v : Int) :
    raised v (s.offsetsFor r (groupOffsets (groupAll l).entries)) =
      raised v (s.offsetsFor r (l.map fun e => (e.1.1, e.2.offset))) := by
  have hmem : ∀ e, e ∈ groupOffsets (groupAll l).entries ↔ e ∈ l.map fun e => (e.1.1, e.2.offset) := by
    intro e
    simp only [groupOffsets, List.mem_flatMap, List.mem_map]
    constructor
    · rintro ⟨g, hg, m, hm, rfl⟩
      exact ⟨(g.1, m), exists_groupAll_iff.mp ⟨g, hg, rfl, hm⟩, rfl⟩
    · rintro ⟨⟨k, m⟩, he, rfl⟩
      obtain ⟨g, hg, hk, hm⟩ := exists_groupAll_iff.mpr he
      exact ⟨g, hg, m, hm, by rw [hk]⟩
  refine raised_eq_of_le_iff fun b => ?_
  simp only [offsetsFor, List.mem_map (f := Prod.snd), List.mem_filter, hmem]

/-! ## The outcome -/

/-- A work item without its id. -/
def eraseId (x : WorkItem κ π) : WorkItem κ π := { x with id := .blank }

/-- A work item without its id and its poison key. -/
def ignorePoison (x : WorkItem κ π) : WorkItem κ π := { x with id := .blank, poisonKey := none }

/-- What the work item of a message holds besides its id. -/
def content (k : QueueKey κ) (m : QueuedMessage κ π) : WorkItem κ π :=
  { id := .blank
    tp := k.1
    offset := m.offset
    epoch := m.epoch
    key := k.2
    payload := m.payload
    poisonKey := some (m.poisonKey.getD k.2) }

/-- The three-field form of a message. -/
def withoutPoison (m : QueuedMessage κ π) : QueuedMessage κ π := { m with poisonKey := none }

/-- Every message submitted by `submit_message`. -/
def submitMessages (s : WorkManager κ π) (l : List (QueueKey κ × QueuedMessage κ π)) : WorkManager κ π :=
  l.foldl (fun s e => (s.submitMessage e.1.1 e.2.offset e.2.epoch e.1.2 e.2.payload).1) s

theorem submitMessages_eq (s : WorkManager κ π) (l : List (QueueKey κ × QueuedMessage κ π)) :
    s.submitMessages l = s.submitEach (l.map fun e => (e.1, withoutPoison e.2)) := by
  unfold submitEach
  rw [List.foldl_map]
  rfl

/-- The same queues when `f` is applied to their items, with the same index, and the same counts. -/
structure SameDispatch (f : WorkItem κ π → WorkItem κ π) (s s' : WorkManager κ π) : Prop where
  queues : s.queueTopology.mapItems f = s'.queueTopology.mapItems f
  total : s.totalQueuedMessages = s'.totalQueuedMessages
  lastFetched : ∀ tp, (s.trackerOf tp).map (·.lastFetchedOffset) = (s'.trackerOf tp).map (·.lastFetchedOffset)

/-- Groups and single messages come to the same, when `own` changes nothing that `f` keeps. -/
theorem sameDispatch_groupAll {f : WorkItem κ π → WorkItem κ π}
    {item : QueueKey κ → QueuedMessage κ π → WorkItem κ π} (hf : ∀ x, (f x).offset = x.offset)
    (hitem : ∀ k s m, f (submitOne k.1 k.2 s m).1 = item k m) {own : QueuedMessage κ π → QueuedMessage κ π}
    (hoffset : ∀ m, (own m).offset = m.offset) {s : WorkManager κ π} {l : List (QueueKey κ × QueuedMessage κ π)}
    (hown : ∀ e ∈ l, item e.1 (own e.2) = item e.1 e.2) (h : ∀ e ∈ l, s.queueTopology.assigned e.1.1) :
    SameDispatch f (s.submitMessageBatch (groupAll l).entries).1 (s.submitEach (l.map fun e => (e.1, own e.2))) := by
  have hgroups : ∀ g ∈ (groupAll l).entries, s.queueTopology.assigned g.1.1 := by
    intro g hg
    obtain ⟨-, e, he, hk⟩ := mem_groupAll l g hg
    exact hk ▸ h e he
  have heach : ∀ e ∈ l.map fun e => (e.1, own e.2), s.queueTopology.assigned e.1.1 := by
    intro e he
    obtain ⟨e', he', rfl⟩ := List.mem_map.mp he
    exact h e' he'
  obtain ⟨hqueued, hraised⟩ := submitEach_of_assigned hf hitem _ heach
  have hsame : (s.submitMessageBatch (groupAll l).entries).1.queued f =
      (s.submitEach (l.map fun e => (e.1, own e.2))).queued f := by
    rw [queued_submitMessageBatch hgroups, queued_groupAll hf hitem h, hqueued, List.foldl_map]
    refine List.foldl_ext _ _ _ fun q e he => ?_
    simp only [enqueueMessages, List.map_cons, List.map_nil, hown e he, List.length_cons, List.length_nil]
  have hgrouped := (submitMessageBatch_of_assigned hgroups).2.2
  refine ⟨congrArg Prod.fst hsame, congrArg Prod.snd hsame, fun tp => ?_⟩
  unfold trackerOf
  rw [hgrouped.trackers, hraised.trackers]
  cases s.offsetTrackers.get? tp with
  | none => rfl
  | some r =>
    have hoffsets : (l.map fun e => (e.1, own e.2)).map (fun e => (e.1.1, e.2.offset)) =
        l.map fun e => (e.1.1, e.2.offset) := by
      simp only [List.map_map, Function.comp_def, hoffset]
    show ((s.submitMessageBatch (groupAll l).entries).1.trackerAt r).map _ = (trackerAt _ r).map _
    rw [hgrouped.lastFetched r, hraised.lastFetched r, hoffsets]
    congr 1
    funext t
    exact raised_groupAll l r _

theorem queueOf_enqueueEach {item : QueueKey κ → QueuedMessage κ π → WorkItem κ π} (k : QueueKey κ)
    (l : List (QueueKey κ × QueuedMessage κ π)) :
    ∀ {q : WorkQueueTopology κ π × Nat}, (∀ e ∈ l, q.1.assigned e.1.1) →
      (l.foldl (fun q e => enqueueMessages item q e.1 [e.2]) q).1.queueOf k.1 k.2 =
        q.1.queueOf k.1 k.2 ++ (l.filter fun e => e.1 = k).map fun e => item e.1 e.2 := by
  induction l with
  | nil => intro q _; simp
  | cons e l ih =>
    intro q h
    have hrest : ∀ e' ∈ l, (enqueueMessages item q e.1 [e.2]).1.assigned e'.1.1 := by
      intro e' he'
      show (q.1.enqueueBatch e.1.1 e.1.2 _).assigned e'.1.1
      rw [WorkQueueTopology.assigned_enqueueBatch]
      exact h e' (List.mem_cons_of_mem _ he')
    have hone : (enqueueMessages item q e.1 [e.2]).1.queueOf k.1 k.2 =
        if e.1 = k then q.1.queueOf k.1 k.2 ++ [item e.1 e.2] else q.1.queueOf k.1 k.2 := by
      refine (WorkQueueTopology.queueOf_enqueueBatch (h e List.mem_cons_self) _ _ _ _).trans ?_
      by_cases hk : e.1 = k
      · subst hk
        simp
      · rw [if_neg hk, if_neg fun heq => hk (Prod.ext heq.1 heq.2)]
    rw [List.foldl_cons, ih hrest, hone]
    by_cases hk : e.1 = k
    · simp [hk]
    · simp [hk]

/-- Submitting only appends to the queues. -/
theorem queueOf_submitAll_prefix (groups : List (Group κ π)) (k : QueueKey κ) :
    ∀ {s : WorkManager κ π}, (∀ g ∈ groups, s.queueTopology.assigned g.1.1) →
      s.queueTopology.queueOf k.1 k.2 <+: (s.submitAll groups).queueTopology.queueOf k.1 k.2 := by
  induction groups with
  | nil => intro s _; exact List.prefix_refl _
  | cons g groups ih =>
    intro s h
    have hrest : ∀ g' ∈ groups, (s.submitGroup g.1 g.2).queueTopology.assigned g'.1.1 := by
      intro g' hg'
      rw [assigned_submitGroup]
      exact h g' (List.mem_cons_of_mem _ hg')
    refine List.IsPrefix.trans ?_ (ih hrest)
    rw [queueTopology_submitGroup, WorkQueueTopology.queueOf_enqueueBatch (h g List.mem_cons_self)]
    split
    · rename_i hk
      rw [hk.1, hk.2]
      exact List.prefix_append _ _
    · exact List.prefix_refl _

end WorkManager

/-! ## Dispatch -/

namespace DispatchSupport

variable (mode : OrderingMode) (offsetTrackers : Dict TopicPartition TrackerRef)

/-- The queue and the record of a message that is neither malformed nor untracked nor completed. -/
def submission (wm : WorkManager (SubmitKey κ) π) (m : Message κ π) :
    Option (QueueKey (SubmitKey κ) × QueuedMessage (SubmitKey κ) π) :=
  match m.target with
  | none => none
  | some (tp, offset) =>
    match (offsetTrackers.get? tp).bind wm.trackerAt with
    | none => none
    | some tracker =>
      if tracker.isCompletedUncommitted offset then none
      else some ((tp, submitKey mode tp m.key), ⟨offset, tracker.epoch, m.value, some (.message m.key)⟩)

/-- The submissions of the eligible messages, in the order of the list. -/
def submissions (wm : WorkManager (SubmitKey κ) π) (messages : List (Message κ π)) :
    List (QueueKey (SubmitKey κ) × QueuedMessage (SubmitKey κ) π) :=
  messages.filterMap (submission mode offsetTrackers wm)

variable {mode offsetTrackers}

/-- With grouping the loop leaves the work manager and collects the eligible messages. -/
theorem dispatchLoop_grouped (hmode : mode ≠ .unordered) (ms : List (Message κ π)) :
    ∀ l : Loop κ π, ∃ skipped, dispatchLoop mode offsetTrackers l ms =
      (⟨l.wm, (submissions mode offsetTrackers l.wm ms).foldl addToGroup l.grouped, skipped⟩, .ok ()) := by
  induction ms with
  | nil => intro l; exact ⟨l.skipped, rfl⟩
  | cons m ms ih =>
    intro l
    have hone : ∃ skipped, dispatchOne mode offsetTrackers l m =
        (⟨l.wm, (submission mode offsetTrackers l.wm m).toList.foldl addToGroup l.grouped, skipped⟩, .ok ()) := by
      unfold dispatchOne submission
      cases m.target with
      | none => exact ⟨l.skipped, rfl⟩
      | some target =>
        obtain ⟨tp, offset⟩ := target
        dsimp only
        cases (offsetTrackers.get? tp).bind l.wm.trackerAt with
        | none => exact ⟨l.skipped, rfl⟩
        | some tracker =>
          dsimp only
          by_cases hskip : tracker.isCompletedUncommitted offset = true
          · rw [if_pos hskip, if_pos hskip]
            exact ⟨_, rfl⟩
          · rw [if_neg hskip, if_neg hskip]
            cases mode with
            | unordered => exact absurd rfl hmode
            | keyHash => exact ⟨l.skipped, rfl⟩
            | partition => exact ⟨l.skipped, rfl⟩
    obtain ⟨skipped, hone⟩ := hone
    obtain ⟨skipped', hrest⟩ :=
      ih ⟨l.wm, (submission mode offsetTrackers l.wm m).toList.foldl addToGroup l.grouped, skipped⟩
    refine ⟨skipped', ?_⟩
    simp only [dispatchLoop, hone]
    rw [hrest]
    have hsubs : submissions mode offsetTrackers l.wm (m :: ms) =
        (submission mode offsetTrackers l.wm m).toList ++ submissions mode offsetTrackers l.wm ms := by
      unfold submissions
      cases hm : submission mode offsetTrackers l.wm m with
      | none => simp [hm]
      | some e => simp [hm]
    rw [hsubs, List.foldl_append]

theorem dispatchMessages_grouped (hmode : mode ≠ .unordered) (wm : WorkManager (SubmitKey κ) π)
    (messages : List (Message κ π)) :
    (dispatchMessages mode offsetTrackers wm messages).1 =
        (wm.submitMessageBatch (groupAll (submissions mode offsetTrackers wm messages)).entries).1 ∧
      (dispatchMessages mode offsetTrackers wm messages).2.2 =
        (wm.submitMessageBatch (groupAll (submissions mode offsetTrackers wm messages)).entries).2 := by
  obtain ⟨skipped, hloop⟩ := @dispatchLoop_grouped κ π _ mode offsetTrackers hmode messages ⟨wm, .empty, []⟩
  have hgroups : (submissions mode offsetTrackers wm messages).foldl addToGroup .empty =
      groupAll (submissions mode offsetTrackers wm messages) := rfl
  unfold dispatchMessages
  rw [hloop]
  dsimp only
  rw [hgroups]
  split
  · rename_i hempty
    rw [hempty]
    exact ⟨rfl, rfl⟩
  · exact ⟨rfl, rfl⟩

theorem mem_submissions {wm : WorkManager (SubmitKey κ) π} {messages : List (Message κ π)}
    {e : QueueKey (SubmitKey κ) × QueuedMessage (SubmitKey κ) π} (h : e ∈ submissions mode offsetTrackers wm messages) :
    (∃ m ∈ messages, ∃ o, m.target = some (e.1.1, o)) ∧ offsetTrackers.contains e.1.1 = true ∧
      (mode = .keyHash → e.2.poisonKey = some e.1.2) := by
  obtain ⟨m, hm, hsome⟩ := List.mem_filterMap.mp h
  unfold submission at hsome
  split at hsome
  · cases hsome
  · rename_i tp offset htarget
    split at hsome
    · cases hsome
    · rename_i tracker htracker
      obtain ⟨r, hr, -⟩ := Option.bind_eq_some_iff.mp htracker
      split at hsome
      · cases hsome
      · cases hsome
        refine ⟨⟨m, hm, offset, htarget⟩, Option.isSome_iff_exists.mpr ⟨r, hr⟩, fun hmode => ?_⟩
        rw [hmode]
        rfl

open WorkManager in
/-- Dispatching in groups comes to what submitting the eligible messages one by one comes to, in the list's
order: the same queues and index up to the ids, the same total and the same last fetched offsets. Every
eligible message is queued once, and nothing else is. Calls of `submit_message` differ in the poison keys
alone, and under key ordering not at all. -/
theorem grouped_dispatch_eq_one_by_one (hmode : mode ≠ .unordered) {wm : WorkManager (SubmitKey κ) π}
    {messages : List (Message κ π)}
    (hassigned : ∀ m ∈ messages, ∀ tp o, m.target = some (tp, o) → offsetTrackers.contains tp = true →
      wm.queueTopology.assigned tp) :
    (dispatchMessages mode offsetTrackers wm messages).2.2 = .ok () ∧
      SameDispatch eraseId (dispatchMessages mode offsetTrackers wm messages).1
        (wm.submitEach (submissions mode offsetTrackers wm messages)) ∧
      SameDispatch ignorePoison (dispatchMessages mode offsetTrackers wm messages).1
        (wm.submitMessages (submissions mode offsetTrackers wm messages)) ∧
      (mode = .keyHash → SameDispatch eraseId (dispatchMessages mode offsetTrackers wm messages).1
        (wm.submitMessages (submissions mode offsetTrackers wm messages))) ∧
      ∀ k : QueueKey (SubmitKey κ), ∃ new,
        (dispatchMessages mode offsetTrackers wm messages).1.queueTopology.queueOf k.1 k.2 =
            wm.queueTopology.queueOf k.1 k.2 ++ new ∧
          new.map eraseId =
            ((submissions mode offsetTrackers wm messages).filter fun e => e.1 = k).map fun e => content e.1 e.2 := by
  obtain ⟨hbatch, hresult⟩ := @dispatchMessages_grouped κ π _ mode offsetTrackers hmode wm messages
  have hmem := fun e => @mem_submissions κ π _ mode offsetTrackers wm messages e
  generalize submissions mode offsetTrackers wm messages = l at hbatch hresult hmem ⊢
  have hl : ∀ e ∈ l, wm.queueTopology.assigned e.1.1 := by
    intro e he
    obtain ⟨⟨m, hm, o, htarget⟩, htracked, -⟩ := hmem e he
    exact hassigned m hm _ o htarget htracked
  have hgroups : ∀ g ∈ (groupAll l).entries, wm.queueTopology.assigned g.1.1 := by
    intro g hg
    obtain ⟨-, e, he, hk⟩ := mem_groupAll l g hg
    exact hk ▸ hl e he
  obtain ⟨hok, ⟨hqueues, -⟩, -⟩ := submitMessageBatch_of_assigned hgroups
  rw [hbatch, hresult, submitMessages_eq]
  refine ⟨hok, ?_, ?_, fun hkey => ?_, fun k => ?_⟩
  · have hsame := @sameDispatch_groupAll (SubmitKey κ) π _ eraseId content (fun _ => rfl) (fun _ _ _ => rfl) id
      (fun _ => rfl) wm l (fun _ _ => rfl) hl
    simpa using hsame
  · exact @sameDispatch_groupAll (SubmitKey κ) π _ ignorePoison (fun k m => ignorePoison (content k m))
      (fun _ => rfl) (fun _ _ _ => rfl) withoutPoison (fun _ => rfl) wm l (fun _ _ => rfl) hl
  · refine @sameDispatch_groupAll (SubmitKey κ) π _ eraseId content (fun _ => rfl) (fun _ _ _ => rfl) withoutPoison
      (fun _ => rfl) wm l (fun e he => ?_) hl
    simp only [content, withoutPoison, (hmem e he).2.2 hkey, Option.getD_none, Option.getD_some]
  · obtain ⟨new, hnew⟩ := queueOf_submitAll_prefix (groupAll l).entries k hgroups
    refine ⟨new, by rw [hqueues, hnew], ?_⟩
    have hqueued := congrArg (fun q : WorkQueueTopology (SubmitKey κ) π × Nat => q.1.queueOf k.1 k.2)
      (@queued_groupAll (SubmitKey κ) π _ eraseId content (fun _ => rfl) (fun _ _ _ => rfl) wm l hl)
    have hstart : ∀ e ∈ l, (wm.queued eraseId).1.assigned e.1.1 := by
      intro e he
      show (wm.queueTopology.mapItems eraseId).assigned e.1.1
      rw [WorkQueueTopology.assigned_mapItems]
      exact hl e he
    rw [queueOf_enqueueEach k l hstart] at hqueued
    simp only [queued, WorkQueueTopology.queueOf_mapItems, ← hnew, List.map_append] at hqueued
    exact List.append_cancel_left hqueued

section Examples

/-- Two partitions are tracked and partition 1 of `orders` is not. -/
def twoTracked : WorkManager (SubmitKey Nat) Unit :=
  (WorkManager.new none).onAssign { orderingMode := .keyHash, routeBatchSize_pos := Nat.one_pos }
    [(⟨"orders", 0⟩, .offset 0), (⟨"orders", 2⟩, .offset 5)]

/-- Keys 1 and 2 mixed, with an error and a message of an untracked partition between them. -/
def mixedMessages : List (Message Nat Unit) :=
  [{ topic := some "orders", partition := some 0, offset := some 0, key := 1, value := () },
   { topic := some "orders", partition := some 2, offset := some 5, key := 1, value := () },
   { error := true, topic := none, partition := none, offset := none, key := 0, value := () },
   { topic := some "orders", partition := some 0, offset := some 1, key := 2, value := () },
   { topic := some "orders", partition := some 1, offset := some 0, key := 1, value := () },
   { topic := some "orders", partition := some 0, offset := some 2, key := 1, value := () }]

theorem grouped_dispatch_of_mixed :
    let trackers := (Dict.empty.set ⟨"orders", 0⟩ 0).set ⟨"orders", 2⟩ 1
    let wm := (dispatchMessages .keyHash trackers twoTracked mixedMessages).1
    WorkManager.SameDispatch WorkManager.eraseId wm
        (twoTracked.submitEach (submissions .keyHash trackers twoTracked mixedMessages)) ∧
      (wm.queueTopology.queueOf ⟨"orders", 0⟩ (.message 1)).map (·.offset) = [0, 2] := by
  intro trackers wm
  refine ⟨(grouped_dispatch_eq_one_by_one (by decide) ?_).2.1, by decide⟩
  intro m hm tp o htarget htracked
  have hkeys : tp ∈ trackers.keys := (Dict.mem_keys_iff trackers).mpr htracked
  have htp : tp = ⟨"orders", 0⟩ ∨ tp = ⟨"orders", 2⟩ := by
    simpa [trackers, Dict.keys, Dict.set, Dict.empty, setEntry] using hkeys
  rcases htp with rfl | rfl <;> decide

end Examples

end DispatchSupport

end PyrallelConsumer
