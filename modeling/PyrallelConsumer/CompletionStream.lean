import PyrallelConsumer.CompletionPolls
import PyrallelConsumer.Lib.FirstSights
import Mathlib.Order.Lattice

/-!
# PyrallelConsumer.CompletionStream

The completion buffer over a whole stream: items become visible in the queue one by one, and
`drain_queue`, `prefetch_queue_item` and the engine's poll come in any order between them.

* `Follows` — what the buffer remembers of the events so far. `follows_sift` — what it lets through.
* `Surfaced` — every event that was let through was returned or is prefetched, in order.
* `surfaces_each_once` — this holds along every run.
-/

namespace PyrallelConsumer

variable {κ π : Type} {n : Nat}

/-! ## The memory of the buffer -/

namespace CompletionBuffer

/-- The remembered identities are the latest of those that the events have shown. -/
structure Follows (n : Nat) (b : CompletionBuffer) (l : List CompletionEvent) : Prop where
  order : b.seenIdentityOrder = (l.map (·.identity)).eraseDups.rtake n
  seen : ∀ work, work ∈ b.seenIdentities ↔ work ∈ b.seenIdentityOrder

theorem evict_eq_rtake (order : List LogicalWorkIdentity) :
    ∀ seen, order.Nodup → (∀ work, work ∈ seen ↔ work ∈ order) →
      (evict n seen order).2 = order.rtake n ∧
        ∀ work, work ∈ (evict n seen order).1 ↔ work ∈ order.rtake n := by
  induction order with
  | nil => intro seen _ hseen; exact ⟨by simp [evict], fun work => by simpa [evict] using hseen work⟩
  | cons a order ih =>
    intro seen hnodup hseen
    obtain ⟨ha, hnodup⟩ := List.nodup_cons.mp hnodup
    simp only [evict]
    split
    · rename_i hlong
      have hlatest : (a :: order).rtake n = order.rtake n := by
        unfold List.rtake
        rw [List.length_cons] at hlong ⊢
        rw [show order.length + 1 - n = (order.length - n) + 1 by omega, List.drop_succ_cons]
      rw [hlatest]
      refine ih _ hnodup fun work => ?_
      rw [List.mem_filter, hseen work, List.mem_cons]
      constructor
      · rintro ⟨rfl | h, hne⟩
        · simp at hne
        · exact h
      · intro h
        refine ⟨.inr h, decide_eq_true ?_⟩
        rintro rfl
        exact ha h
    · rename_i hshort
      have hlatest : (a :: order).rtake n = a :: order := by
        unfold List.rtake
        rw [Nat.sub_eq_zero_of_le (Nat.le_of_not_lt hshort), List.drop_zero]
      rw [hlatest]
      exact ⟨rfl, hseen⟩

/-- An identified event within the window is a duplicate when its identity was shown before. -/
theorem follows_isDuplicateEvent {b : CompletionBuffer} {l : List CompletionEvent} {e : CompletionEvent}
    (h : b.Follows n l) (hid : e.isSyntheticFailure = false) (hw : WithinWindow (·.identity) n (l ++ [e])) :
    (e.identity ∈ l.map (·.identity) ∧ b.isDuplicateEvent n e = (true, b) ∧ b.Follows n (l ++ [e])) ∨
      (e.identity ∉ l.map (·.identity) ∧ ∃ b', b.isDuplicateEvent n e = (false, b') ∧ b'.Follows n (l ++ [e])) := by
  have hdups := eraseDups_concat (l.map (·.identity)) e.identity
  have hmap : (l ++ [e]).map (·.identity) = l.map (·.identity) ++ [e.identity] := by simp
  unfold isDuplicateEvent
  rw [if_neg (by simp [hid])]
  by_cases hold : e.identity ∈ l.map (·.identity)
  · left
    have hseen : e.identity ∈ b.seenIdentities := by
      rw [h.seen, h.order]
      exact hw.last hold
    rw [if_pos hseen]
    refine ⟨hold, rfl, ?_, h.seen⟩
    rw [h.order, hmap, hdups, if_pos hold]
  · right
    have hseen : e.identity ∉ b.seenIdentities := by
      rw [h.seen, h.order]
      intro hmem
      exact hold (List.mem_eraseDups.mp (List.mem_of_mem_drop hmem))
    rw [if_neg hold] at hdups
    rw [if_neg hseen]
    have hnodup : (b.seenIdentityOrder ++ [e.identity]).Nodup := by
      have hall := nodup_eraseDups (l.map (·.identity) ++ [e.identity])
      rw [hdups] at hall
      rw [h.order]
      exact hall.sublist ((List.drop_sublist _ _).append (List.Sublist.refl _))
    obtain ⟨horder, hmem⟩ := evict_eq_rtake (n := n) (b.seenIdentityOrder ++ [e.identity])
      (e.identity :: b.seenIdentities) hnodup fun work => by
        rw [List.mem_cons, h.seen, List.mem_append, List.mem_singleton, or_comm]
    refine ⟨hold, _, rfl, ?_, ?_⟩
    · dsimp only
      rw [horder, h.order, rtake_rtake_concat, hmap, hdups]
    · intro work
      dsimp only
      rw [hmem, horder]

/-- What is let through are the first sights, as long as repetitions come within the window. -/
theorem follows_sift (es : List CompletionEvent) : ∀ {b : CompletionBuffer} {l : List CompletionEvent},
    b.Follows n l → (∀ e ∈ es, e.isSyntheticFailure = false) → WithinWindow (·.identity) n (l ++ es) →
      firstSights (·.identity) (l ++ es) = firstSights (·.identity) l ++ (b.sift n es).1 ∧
        (b.sift n es).2.Follows n (l ++ es) := by
  induction es with
  | nil => intro b l h _ _; simpa [sift] using h
  | cons e es ih =>
    intro b l h hid hw
    have hfirst := firstSights_concat (·.identity) l e
    rw [show l ++ e :: es = (l ++ [e]) ++ es by simp] at hw ⊢
    have hid' : ∀ x ∈ es, x.isSyntheticFailure = false := fun x hx => hid x (List.mem_cons_of_mem _ hx)
    rcases follows_isDuplicateEvent h (hid e List.mem_cons_self) hw.of_append with
      ⟨hold, hdup, hfollows⟩ | ⟨hnew, b', hdup, hfollows⟩
    · obtain ⟨hsift, hafter⟩ := ih hfollows hid' hw
      rw [if_pos hold] at hfirst
      simp only [sift, hdup]
      exact ⟨by rw [hsift, hfirst], hafter⟩
    · obtain ⟨hsift, hafter⟩ := ih hfollows hid' hw
      rw [if_neg hnew] at hfirst
      simp only [sift, hdup]
      refine ⟨?_, hafter⟩
      rw [hsift, hfirst, List.append_assoc, List.singleton_append]

end CompletionBuffer

/-- The events that were let through are those returned so far and then the prefetched ones. -/
structure Surfaced (n : Nat) (returned : List CompletionEvent) (b : CompletionBuffer)
    (l : List CompletionEvent) : Prop where
  follows : b.Follows n l
  shown : returned ++ b.prefetchedEvents = firstSights (·.identity) l

section Events

variable {base l : List CompletionEvent} {i : Intake κ π}

theorem surfaced_prefetchAll (es : List CompletionEvent) (h : Surfaced n base i.buffer l)
    (hid : ∀ e ∈ es, e.isSyntheticFailure = false) (hw : WithinWindow (·.identity) n (l ++ es)) :
    Surfaced n base (es.foldl (Intake.prefetchEvent n) i).buffer (l ++ es) := by
  obtain ⟨hsift, hfollows⟩ := CompletionBuffer.follows_sift es h.follows hid hw
  rw [Intake.buffer_prefetchAll]
  refine ⟨⟨hfollows.order, hfollows.seen⟩, ?_⟩
  rw [hsift, ← h.shown, List.append_assoc]

/-- A poll starts with an empty deque or with no room, so the deque keeps its place in the order. -/
theorem surfaced_pollAll {limit : Nat} (es : List CompletionEvent) (h : Surfaced n base i.buffer l)
    (hnone : i.completed = []) (hroom : 0 < limit → i.buffer.prefetchedEvents = [])
    (hid : ∀ e ∈ es, e.isSyntheticFailure = false) (hw : WithinWindow (·.identity) n (l ++ es)) :
    Surfaced n (base ++ (es.foldl (Intake.pollEvent n limit) i).completed)
        (es.foldl (Intake.pollEvent n limit) i).buffer (l ++ es) ∧
      (es.foldl (Intake.pollEvent n limit) i).completed.length ≤ limit := by
  obtain ⟨hsift, hfollows⟩ := CompletionBuffer.follows_sift es h.follows hid hw
  obtain ⟨hcompleted, hbuffer⟩ := Intake.pollAll_eq n limit es i
  rw [hcompleted, hbuffer, hnone]
  refine ⟨⟨⟨hfollows.order, hfollows.seen⟩, ?_⟩, by simp⟩
  rw [hsift, ← h.shown]
  cases limit with
  | zero => simp
  | succ limit =>
    rw [hroom (Nat.succ_pos limit)]
    simp

end Events

/-! ## The transition system -/

/-- The buffer with its queue, the calls of `decrement_in_flight`, and what has happened so far. -/
structure CompletionStream (κ π : Type) where
  buffer : CompletionBuffer
  registry : InFlightRegistry κ π
  queue : List (CompletionMessage κ)
  decrements : Nat
  /-- Every item that has become visible. -/
  arrived : List (CompletionMessage κ)
  /-- The batch limit and the list of every poll. -/
  polls : List (Int × List CompletionEvent)

inductive BufferAction (κ : Type) where
  | arrive (item : CompletionMessage κ)
  | drainQueue
  | prefetchQueueItem
  | poll (batchLimit : Int)

/-- What the stream promises: items decode to identified events, and repetitions come within the window. -/
structure Identified (fits : CompletionMessage κ → Bool) (n : Nat) (l : List (CompletionMessage κ)) : Prop where
  decodable : ∀ m ∈ l, fits m = true
  identified : ∀ e ∈ l.flatMap (·.events), e.isSyntheticFailure = false
  window : WithinWindow (·.identity) n (l.flatMap (·.events))

namespace CompletionStream

variable (maxSeen : Nat) (fits : CompletionMessage κ → Bool)

/-- The concatenation of the returned lists. -/
def returned (s : CompletionStream κ π) : List CompletionEvent := s.polls.flatMap (·.2)

def arrive (s : CompletionStream κ π) (m : CompletionMessage κ) : CompletionStream κ π :=
  { s with queue := s.queue ++ [m], arrived := s.arrived ++ [m] }

/-- `drain_queue`; an item that becomes visible while it runs is one that was visible before it. -/
def drainQueue (s : CompletionStream κ π) : CompletionStream κ π :=
  match Intake.drainQueue maxSeen fits 0 s.queue ⟨s.buffer, s.registry, []⟩ with
  | (_, queue, i) => { s with buffer := i.buffer, registry := i.registry, queue := queue }

/-- `prefetch_queue_item` for the oldest item, as `wait_for_completion` calls it. -/
def prefetchQueueItem (s : CompletionStream κ π) : CompletionStream κ π :=
  match s.queue with
  | [] => s
  | m :: queue =>
    if fits m then
      match Intake.prefetchQueueItem maxSeen ⟨s.buffer, s.registry, []⟩ m with
      | (_, i) => { s with buffer := i.buffer, registry := i.registry, queue := queue }
    else { s with queue := queue }

/-- `poll_prefetched` and `poll_available`; a poll that raises returns nothing. -/
def poll (s : CompletionStream κ π) (batchLimit : Int) : CompletionStream κ π :=
  match Surfacing.poll maxSeen fits batchLimit s.queue ⟨⟨s.buffer, s.registry, []⟩, s.decrements⟩ with
  | (ok, queue, i) =>
    { s with
      buffer := i.buffer
      registry := i.registry
      queue := queue
      decrements := i.decrements
      polls := if ok then s.polls ++ [(batchLimit, i.completed)] else s.polls }

end CompletionStream

open CompletionStream in
/-- The buffer on a stream. `fits` says which items can be decoded. -/
def bufferMachine (κ π : Type) (maxSeenIdentities : Nat) (fits : CompletionMessage κ → Bool) :
    Machine (CompletionStream κ π) (BufferAction κ) where
  init s := s.buffer = {} ∧ s.queue = [] ∧ s.decrements = 0 ∧ s.arrived = [] ∧ s.polls = []
  enabled s a :=
    match a with
    | .arrive m => Identified fits (max 1 maxSeenIdentities) (s.arrived ++ [m])
    | _ => True
  next s a :=
    match a with
    | .arrive m => s.arrive m
    | .drainQueue => s.drainQueue (max 1 maxSeenIdentities) fits
    | .prefetchQueueItem => s.prefetchQueueItem (max 1 maxSeenIdentities) fits
    | .poll batchLimit => s.poll (max 1 maxSeenIdentities) fits batchLimit

/-! ## Runs -/

/-- What has left the queue, has surfaced once, in order. -/
structure OnceInOrder (fits : CompletionMessage κ → Bool) (n : Nat) (s : CompletionStream κ π) : Prop where
  stream : Identified fits n s.arrived
  surfaced : ∃ consumed, s.arrived = consumed ++ s.queue ∧
    Surfaced n s.returned s.buffer (consumed.flatMap (·.events))
  bounded : ∀ p ∈ s.polls, (p.2.length : Int) ≤ max p.1 0
  counted : s.decrements = s.returned.length

namespace OnceInOrder

variable {fits : CompletionMessage κ → Bool} {s : CompletionStream κ π}

theorem arrive (h : OnceInOrder fits n s) {m : CompletionMessage κ} (hm : Identified fits n (s.arrived ++ [m])) :
    OnceInOrder fits n (s.arrive m) := by
  obtain ⟨consumed, harrived, hsurfaced⟩ := h.surfaced
  refine ⟨hm, ⟨consumed, ?_, hsurfaced⟩, h.bounded, h.counted⟩
  simp [CompletionStream.arrive, harrived]

/-- Taking in the events of some of the oldest items keeps what the stream promises. -/
theorem taken (consumed items rest : List (CompletionMessage κ))
    (h : Identified fits n (consumed ++ (items ++ rest))) :
    (∀ e ∈ items.flatMap (·.events), e.isSyntheticFailure = false) ∧
      WithinWindow (·.identity) n (consumed.flatMap (·.events) ++ items.flatMap (·.events)) := by
  have hid := h.identified
  have hwindow := h.window
  rw [List.flatMap_append, List.flatMap_append] at hid hwindow
  rw [← List.append_assoc] at hwindow
  refine ⟨fun e he => hid e ?_, hwindow.of_append⟩
  simp only [List.mem_append]
  exact .inr (.inl he)

theorem drainQueue (h : OnceInOrder fits n s) : OnceInOrder fits n (s.drainQueue n fits) := by
  obtain ⟨consumed, harrived, hsurfaced⟩ := h.surfaced
  have hstream := h.stream
  rw [harrived] at hstream
  obtain ⟨k, heq⟩ := Intake.drainQueue_eq (π := π) n s.queue 0 ⟨s.buffer, s.registry, []⟩
    fun m hm => hstream.decodable m (List.mem_append_right _ hm)
  obtain ⟨hid, hw⟩ := taken consumed s.queue [] (by rwa [List.append_nil])
  have hall := surfaced_prefetchAll (i := (⟨s.buffer, s.registry, []⟩ : Intake κ π)) _ hsurfaced hid hw
  unfold CompletionStream.drainQueue
  rw [heq]
  refine ⟨h.stream, ⟨s.arrived, by simp, ?_⟩, h.bounded, h.counted⟩
  rw [harrived, List.flatMap_append]
  exact hall

theorem prefetchQueueItem (h : OnceInOrder fits n s) : OnceInOrder fits n (s.prefetchQueueItem n fits) := by
  obtain ⟨consumed, harrived, hsurfaced⟩ := h.surfaced
  have hstream := h.stream
  unfold CompletionStream.prefetchQueueItem
  split
  · exact h
  · rename_i m queue hqueue
    rw [harrived, hqueue] at hstream
    rw [if_pos (hstream.decodable m (by simp))]
    obtain ⟨hid, hw⟩ := taken consumed [m] queue hstream
    have hall := surfaced_prefetchAll (i := (⟨s.buffer, s.registry, []⟩ : Intake κ π)) _ hsurfaced hid hw
    refine ⟨h.stream, ⟨consumed ++ [m], ?_, ?_⟩, h.bounded, h.counted⟩
    · simp [harrived, hqueue]
    · change Surfaced n s.returned (Intake.prefetchQueueItem n ⟨s.buffer, s.registry, []⟩ m).2.buffer _
      rw [Intake.prefetchQueueItem_snd, List.flatMap_append]
      simpa using hall

theorem poll (h : OnceInOrder fits n s) (batchLimit : Int) : OnceInOrder fits n (s.poll n fits batchLimit) := by
  obtain ⟨consumed, harrived, hsurfaced⟩ := h.surfaced
  have hstream := h.stream
  rw [harrived] at hstream
  obtain ⟨ok, queue, i, hintake, hpoll⟩ := Surfacing.poll_eq n fits batchLimit s.queue
    ⟨⟨s.buffer, s.registry, []⟩, s.decrements⟩
  dsimp only at hintake hpoll
  have hshown := hsurfaced.shown
  rw [← List.take_append_drop batchLimit.toNat s.buffer.prefetchedEvents, ← List.append_assoc] at hshown
  have hlen : (s.buffer.prefetchedEvents.take batchLimit.toNat).length ≤ batchLimit.toNat := by simp
  have hempty : (s.buffer.prefetchedEvents.take batchLimit.toNat).length < batchLimit.toNat →
      s.buffer.prefetchedEvents.drop batchLimit.toNat = [] := by
    intro hroom
    rw [List.length_take] at hroom
    exact List.drop_eq_nil_of_le (by omega)
  generalize s.buffer.prefetchedEvents.take batchLimit.toNat = popped at hintake hpoll hshown hlen hempty
  obtain ⟨items, rest, hqueue, heq⟩ := Intake.pollAvailable_eq n (batchLimit.toNat - popped.length) s.queue
    ⟨{ s.buffer with prefetchedEvents := s.buffer.prefetchedEvents.drop batchLimit.toNat }, s.registry, []⟩
    fun m hm => hstream.decodable m (List.mem_append_right _ hm)
  rw [hintake] at heq
  simp only [Prod.mk.injEq] at heq
  obtain ⟨rfl, rfl, hi⟩ := heq
  rw [hqueue] at hstream
  obtain ⟨hid, hw⟩ := taken consumed items queue hstream
  have hstart : Surfaced n (s.returned ++ popped)
      { s.buffer with prefetchedEvents := s.buffer.prefetchedEvents.drop batchLimit.toNat }
      (consumed.flatMap (·.events)) := ⟨⟨hsurfaced.follows.order, hsurfaced.follows.seen⟩, hshown⟩
  obtain ⟨hall, hbound⟩ := surfaced_pollAll (π := π) (i := ⟨_, s.registry, []⟩) (items.flatMap (·.events))
    hstart rfl (fun hroom => hempty (Nat.lt_of_sub_pos hroom)) hid hw
  rw [← hi] at hall hbound
  unfold CompletionStream.poll
  rw [hpoll]
  refine ⟨h.stream, ⟨consumed ++ items, ?_, ?_⟩, fun p hp => ?_, ?_⟩
  · rw [harrived, hqueue, List.append_assoc]
  · simpa [CompletionStream.returned] using hall
  · rcases List.mem_append.mp hp with hp | hp
    · exact h.bounded p hp
    · rw [List.mem_singleton.mp hp]
      dsimp only
      rw [List.length_append]
      omega
  · simp [CompletionStream.returned, h.counted]

end OnceInOrder

section Runs

variable {maxSeenIdentities : Nat} {fits : CompletionMessage κ → Bool} {s : CompletionStream κ π}

theorem onceInOrder_init (h : (bufferMachine κ π maxSeenIdentities fits).init s) :
    OnceInOrder fits (max 1 maxSeenIdentities) s := by
  obtain ⟨hbuffer, hqueue, hdecrements, harrived, hpolls⟩ := h
  have hreturned : s.returned = [] := by simp [CompletionStream.returned, hpolls]
  refine ⟨?_, ⟨[], ?_, ?_⟩, ?_, ?_⟩
  · rw [harrived]
    exact ⟨by simp, by simp, fun i hi => absurd hi (Nat.not_lt_zero i)⟩
  · rw [harrived, hqueue]; rfl
  · rw [hreturned, hbuffer]
    exact ⟨⟨by simp, fun work => Iff.rfl⟩, rfl⟩
  · rw [hpolls]; simp
  · rw [hdecrements, hreturned]; rfl

theorem onceInOrder_next {a : BufferAction κ} (h : OnceInOrder fits (max 1 maxSeenIdentities) s)
    (ha : (bufferMachine κ π maxSeenIdentities fits).enabled s a) :
    OnceInOrder fits (max 1 maxSeenIdentities) ((bufferMachine κ π maxSeenIdentities fits).next s a) := by
  cases a with
  | arrive m => exact h.arrive ha
  | drainQueue => exact h.drainQueue
  | prefetchQueueItem => exact h.prefetchQueueItem
  | poll batchLimit => exact h.poll batchLimit

/-- What has left the queue is what the polls returned and then what is prefetched, every identity once and
in the order of the queue. A poll keeps its limit, and each event that it returns is counted once. -/
theorem surfaces_each_once (h : (bufferMachine κ π maxSeenIdentities fits).Reachable s) :
    ∃ consumed, s.arrived = consumed ++ s.queue ∧
      s.returned ++ s.buffer.prefetchedEvents = firstSights (·.identity) (consumed.flatMap (·.events)) ∧
      (∀ p ∈ s.polls, (p.2.length : Int) ≤ max p.1 0) ∧
      s.decrements = s.returned.length := by
  have hinv := Machine.invariant (I := OnceInOrder fits (max 1 maxSeenIdentities)) _
    (fun s hs => onceInOrder_init hs) (fun s a hs ha _ => onceInOrder_next hs ha) h
  obtain ⟨consumed, harrived, hsurfaced⟩ := hinv.surfaced
  exact ⟨consumed, harrived, hsurfaced.shown, hinv.bounded, hinv.counted⟩

end Runs

/-- The success of an item at an offset. -/
def successAt (offset : Int) : CompletionEvent := ⟨.uuid 0, ⟨"t", 0⟩, offset, 1, .success, none, 1⟩

/-- A batch of three is polled two at a time, and an event comes again before the rest is polled. -/
def repeatedBatch : List (BufferAction Nat) :=
  [.arrive (.batch 0 (routeItem 0 0).routeIdentity [successAt 0, successAt 1, successAt 2]), .poll 2,
    .arrive (.item (successAt 1) true), .prefetchQueueItem, .arrive (.item (successAt 3) true), .drainQueue,
    .arrive (.item (successAt 4) true), .poll 2]

def newStream : CompletionStream Nat Unit := ⟨{}, .empty, [], 0, [], []⟩

theorem allowed_repeatedBatch : (bufferMachine Nat Unit 4 fun _ => true).Allowed (fun _ _ => True)
    newStream repeatedBatch := by
  refine ⟨⟨?_, ?_, ?_⟩, trivial, trivial, trivial, ⟨?_, ?_, ?_⟩, trivial, trivial, trivial,
    ⟨?_, ?_, ?_⟩, trivial, trivial, trivial, ⟨?_, ?_, ?_⟩, trivial, trivial, trivial, trivial⟩ <;> decide

theorem surfaces_repeatedBatch :
    let s := (bufferMachine Nat Unit 4 fun _ => true).run newStream repeatedBatch
    (∃ consumed, s.arrived = consumed ++ s.queue ∧
      s.returned ++ s.buffer.prefetchedEvents = firstSights (·.identity) (consumed.flatMap (·.events)) ∧
      (∀ p ∈ s.polls, (p.2.length : Int) ≤ max p.1 0) ∧
      s.decrements = s.returned.length) ∧
    s.polls = [(2, [successAt 0, successAt 1]), (2, [successAt 2, successAt 3])] ∧ s.queue.length = 1 :=
  ⟨surfaces_each_once ((bufferMachine Nat Unit 4 fun _ => true).reachableBy_run repeatedBatch
    (.start ⟨rfl, rfl, rfl, rfl, rfl⟩) allowed_repeatedBatch), by decide⟩

end PyrallelConsumer
