import PyrallelConsumer.ProcessEngine

/-!
# PyrallelConsumer.CompletionPolls

The loops of `ProcessCompletionBuffer` as they are written, with the calls of `decrement_in_flight`
counted one by one and with limits that may be negative. The process engine takes the same steps.

* `sift` — which events are let through. `buffer_prefetchAll`, `buffer_pollAll` — where they go.
* `pollPrefetched_eq`, `pollAvailable_eq` — the two halves of a poll against what the engine does.
* `drainCompletions_eq`, `poll_eq` — the engine's steps are a whole drain and a whole poll.
-/

namespace PyrallelConsumer

variable {κ π : Type} (maxSeen : Nat)

/-! ## Suppression -/

namespace CompletionBuffer

/-- The events that `is_duplicate_event` lets through, with the memory after them. -/
def sift : CompletionBuffer → List CompletionEvent → List CompletionEvent × CompletionBuffer
  | b, [] => ([], b)
  | b, e :: l =>
    match b.isDuplicateEvent maxSeen e with
    | (true, b) => b.sift l
    | (false, b) => (e :: (b.sift l).1, (b.sift l).2)

/-- The deque plays no part in what is a duplicate. -/
theorem isDuplicateEvent_withPrefetched (b : CompletionBuffer) (p : List CompletionEvent) (e : CompletionEvent) :
    { b with prefetchedEvents := p }.isDuplicateEvent maxSeen e =
      ((b.isDuplicateEvent maxSeen e).1, { (b.isDuplicateEvent maxSeen e).2 with prefetchedEvents := p }) := by
  unfold isDuplicateEvent
  split
  · rfl
  · split
    · rfl
    · rfl

theorem prefetchedEvents_isDuplicateEvent (b : CompletionBuffer) (e : CompletionEvent) :
    (b.isDuplicateEvent maxSeen e).2.prefetchedEvents = b.prefetchedEvents := by
  rcases Intake.isDuplicateEvent_cases maxSeen b e with ⟨h, -⟩ | ⟨b', h, hp, -⟩
  · rw [h]
  · rw [h]
    exact hp

theorem sift_withPrefetched (l : List CompletionEvent) : ∀ (b : CompletionBuffer) (p : List CompletionEvent),
    { b with prefetchedEvents := p }.sift maxSeen l =
      ((b.sift maxSeen l).1, { (b.sift maxSeen l).2 with prefetchedEvents := p }) := by
  induction l with
  | nil => intro b p; rfl
  | cons e l ih =>
    intro b p
    simp only [sift, isDuplicateEvent_withPrefetched]
    generalize b.isDuplicateEvent maxSeen e = r
    obtain ⟨duplicate, b'⟩ := r
    cases duplicate with
    | true => exact ih b' p
    | false =>
      dsimp only
      rw [ih b' p]

theorem sift_append (l l' : List CompletionEvent) : ∀ b : CompletionBuffer,
    b.sift maxSeen (l ++ l') = ((b.sift maxSeen l).1 ++ ((b.sift maxSeen l).2.sift maxSeen l').1,
      ((b.sift maxSeen l).2.sift maxSeen l').2) := by
  induction l with
  | nil => intro b; rfl
  | cons e l ih =>
    intro b
    simp only [List.cons_append, sift]
    generalize b.isDuplicateEvent maxSeen e = r
    obtain ⟨duplicate, b'⟩ := r
    cases duplicate with
    | true => exact ih b'
    | false => simp only [ih b', List.cons_append]

end CompletionBuffer

namespace Intake

/-- Prefetching appends to the deque what is let through. -/
theorem buffer_prefetchAll (l : List CompletionEvent) : ∀ i : Intake κ π,
    (l.foldl (prefetchEvent maxSeen) i).buffer =
      { (i.buffer.sift maxSeen l).2 with
        prefetchedEvents := i.buffer.prefetchedEvents ++ (i.buffer.sift maxSeen l).1 } := by
  induction l with
  | nil => intro i; simp [CompletionBuffer.sift]
  | cons e l ih =>
    intro i
    have hpre := CompletionBuffer.prefetchedEvents_isDuplicateEvent maxSeen i.buffer e
    rw [List.foldl_cons, ih]
    simp only [prefetchEvent, CompletionBuffer.sift]
    generalize i.buffer.isDuplicateEvent maxSeen e = r at hpre
    obtain ⟨duplicate, b⟩ := r
    cases duplicate with
    | true => simp only [← hpre]
    | false =>
      simp only [prefetch, CompletionBuffer.sift_withPrefetched]
      simp [← hpre]

/-- A poll surfaces what there is room for of what is let through, and the rest goes to the deque. -/
theorem pollAll_eq (limit : Nat) (l : List CompletionEvent) : ∀ i : Intake κ π,
    (l.foldl (pollEvent maxSeen limit) i).completed =
        i.completed ++ (i.buffer.sift maxSeen l).1.take (limit - i.completed.length) ∧
      (l.foldl (pollEvent maxSeen limit) i).buffer =
        { (i.buffer.sift maxSeen l).2 with
          prefetchedEvents := i.buffer.prefetchedEvents ++
            (i.buffer.sift maxSeen l).1.drop (limit - i.completed.length) } := by
  induction l with
  | nil => intro i; simp [CompletionBuffer.sift]
  | cons e l ih =>
    intro i
    have hpre := CompletionBuffer.prefetchedEvents_isDuplicateEvent maxSeen i.buffer e
    rw [List.foldl_cons, (ih _).1, (ih _).2]
    simp only [pollEvent, CompletionBuffer.sift]
    generalize i.buffer.isDuplicateEvent maxSeen e = r at hpre
    obtain ⟨duplicate, b⟩ := r
    cases duplicate with
    | true => simp only [← hpre, and_self]
    | false =>
      dsimp only
      split
      · rename_i hfull
        have hnone : limit - i.completed.length = 0 := Nat.sub_eq_zero_of_le hfull
        simp only [prefetch, CompletionBuffer.sift_withPrefetched, hnone]
        simp [← hpre]
      · rename_i hroom
        have hsome : limit - i.completed.length = limit - (i.completed.length + 1) + 1 := by omega
        simp only [List.length_append, List.length_singleton]
        rw [hsome]
        simp [← hpre]

end Intake

/-! ## Draining -/

namespace Intake

/-- `prefetch_queue_item`; the first component says that an event was kept. -/
def prefetchQueueItem (i : Intake κ π) (m : CompletionMessage κ) : Bool × Intake κ π :=
  m.events.foldl (fun r e => (!(r.2.buffer.isDuplicateEvent maxSeen e).1 || r.1, r.2.prefetchEvent maxSeen e))
    (false, i)

/-- The loop of `drain_queue`. The first component is the number that it returns, or nothing when decoding
raised; the second one is what is left of the queue. -/
def drainQueue (fits : CompletionMessage κ → Bool) (prefetched : Nat) :
    List (CompletionMessage κ) → Intake κ π → Option Nat × List (CompletionMessage κ) × Intake κ π
  | [], i => (some prefetched, [], i)
  | m :: q, i =>
    if fits m then
      match i.prefetchQueueItem maxSeen m with
      | (true, i) => drainQueue fits (prefetched + 1) q i
      | (false, i) => drainQueue fits prefetched q i
    else (none, q, i)

theorem prefetchQueueItem_snd (i : Intake κ π) (m : CompletionMessage κ) :
    (i.prefetchQueueItem maxSeen m).2 = m.events.foldl (prefetchEvent maxSeen) i := by
  unfold prefetchQueueItem
  generalize false = accepted
  generalize m.events = l
  induction l generalizing i accepted with
  | nil => rfl
  | cons e l ih => exact ih _ _

theorem drainQueue_nil (fits : CompletionMessage κ → Bool) (n : Nat) (i : Intake κ π) :
    drainQueue maxSeen fits n [] i = (some n, [], i) := rfl

/-- A message that can be decoded is taken in. -/
theorem drainQueue_cons {fits : CompletionMessage κ → Bool} {m : CompletionMessage κ} (hm : fits m = true)
    (n : Nat) (q : List (CompletionMessage κ)) (i : Intake κ π) :
    ∃ n', drainQueue maxSeen fits n (m :: q) i =
      drainQueue maxSeen fits n' q (m.events.foldl (prefetchEvent maxSeen) i) := by
  have hsnd := prefetchQueueItem_snd maxSeen i m
  simp only [drainQueue, hm, if_true]
  generalize i.prefetchQueueItem maxSeen m = r at hsnd ⊢
  obtain ⟨accepted, i'⟩ := r
  cases accepted with
  | true => exact ⟨n + 1, by rw [← hsnd]⟩
  | false => exact ⟨n, by rw [← hsnd]⟩

theorem drainQueue_raised {fits : CompletionMessage κ → Bool} {m : CompletionMessage κ} (hm : fits m = false)
    (n : Nat) (q : List (CompletionMessage κ)) (i : Intake κ π) :
    drainQueue maxSeen fits n (m :: q) i = (none, q, i) := by
  simp [drainQueue, hm]

/-- While everything decodes, a drain takes in every event. -/
theorem drainQueue_eq {fits : CompletionMessage κ → Bool} (q : List (CompletionMessage κ)) :
    ∀ (n : Nat) (i : Intake κ π), (∀ m ∈ q, fits m = true) →
      ∃ n', drainQueue maxSeen fits n q i =
        (some n', [], (q.flatMap (·.events)).foldl (prefetchEvent maxSeen) i) := by
  induction q with
  | nil => intro n i _; exact ⟨n, rfl⟩
  | cons m q ih =>
    intro n i hfits
    obtain ⟨n', hcons⟩ := drainQueue_cons maxSeen (hfits m List.mem_cons_self) n q i
    obtain ⟨n'', heq⟩ := ih n' (m.events.foldl (prefetchEvent maxSeen) i)
      fun m' hm' => hfits m' (List.mem_cons_of_mem _ hm')
    exact ⟨n'', by rw [hcons, heq, List.flatMap_cons, List.foldl_append]⟩

end Intake

/-! ## Polling -/

/-- What a poll works on, with the calls of `decrement_in_flight` so far. -/
structure Surfacing (κ π : Type) extends Intake κ π where
  decrements : Nat

namespace Surfacing

/-- The loop of `poll_prefetched`. The list is the deque, which the body pops. -/
def pollPrefetched (limit : Int) : List CompletionEvent → Surfacing κ π → Surfacing κ π
  | [], s => s
  | e :: rest, s =>
    if (s.completed.length : Int) < limit then
      pollPrefetched limit rest
        { s with
          buffer := { s.buffer with prefetchedEvents := rest }
          completed := s.completed ++ [e]
          decrements := s.decrements + 1 }
    else s

/-- The inner loop body of `poll_available`. -/
def pollEvent (limit : Int) (s : Surfacing κ π) (e : CompletionEvent) : Surfacing κ π :=
  match s.buffer.isDuplicateEvent maxSeen e with
  | (true, buffer) => { s with buffer := buffer }
  | (false, buffer) =>
    if (s.completed.length : Int) ≥ limit then
      { s with
        buffer := { buffer with prefetchedEvents := buffer.prefetchedEvents ++ [e] }
        registry := s.registry.discardCompletion e }
    else
      { s with
        buffer := buffer
        registry := s.registry.discardCompletion e
        completed := s.completed ++ [e]
        decrements := s.decrements + 1 }

/-- The loop of `poll_available`; the first component is false when decoding raised. -/
def pollAvailable (fits : CompletionMessage κ → Bool) (limit : Int) :
    List (CompletionMessage κ) → Surfacing κ π → Bool × List (CompletionMessage κ) × Surfacing κ π
  | [], s => (true, [], s)
  | m :: q, s =>
    if (s.completed.length : Int) < limit then
      if fits m then pollAvailable fits limit q (m.events.foldl (pollEvent maxSeen limit) s)
      else (false, q, s)
    else (true, m :: q, s)

/-- `poll_completed_events`, after its scan and its drain. -/
def poll (fits : CompletionMessage κ → Bool) (batchLimit : Int) (q : List (CompletionMessage κ))
    (s : Surfacing κ π) : Bool × List (CompletionMessage κ) × Surfacing κ π :=
  let s := pollPrefetched batchLimit s.buffer.prefetchedEvents { s with completed := [] }
  let (ok, q, s') := pollAvailable maxSeen fits (batchLimit - s.completed.length) q { s with completed := [] }
  (ok, q, { s' with completed := s.completed ++ s'.completed })

/-- The deque gives up to as many events as there is room for. -/
theorem pollPrefetched_eq (limit : Int) (l : List CompletionEvent) :
    ∀ s : Surfacing κ π, s.buffer.prefetchedEvents = l →
      pollPrefetched limit l s =
        { s with
          buffer := { s.buffer with prefetchedEvents := l.drop (limit - s.completed.length).toNat }
          completed := s.completed ++ l.take (limit - s.completed.length).toNat
          decrements := s.decrements + (l.take (limit - s.completed.length).toNat).length } := by
  induction l with
  | nil =>
    intro s hl
    simp only [pollPrefetched, List.drop_nil, List.take_nil, List.append_nil, List.length_nil, Nat.add_zero]
    rw [← hl]
  | cons e l ih =>
    intro s hl
    simp only [pollPrefetched]
    split
    · rename_i hroom
      have hnat : (limit - s.completed.length).toNat =
          (limit - ((s.completed ++ [e]).length : Int)).toNat + 1 := by
        rw [List.length_append, List.length_singleton]
        omega
      rw [ih _ rfl, hnat]
      simp only [List.drop_succ_cons, List.take_succ_cons, List.length_cons, List.append_assoc,
        List.singleton_append]
      congr 1
      omega
    · rename_i hfull
      have hnat : (limit - s.completed.length).toNat = 0 := by omega
      simp [hnat, ← hl]

/-! ### Against the engine's poll -/

theorem pollEvent_toIntake (limit : Int) (s : Surfacing κ π) (e : CompletionEvent) :
    (s.pollEvent maxSeen limit e).toIntake = s.toIntake.pollEvent maxSeen limit.toNat e := by
  unfold pollEvent Intake.pollEvent
  generalize s.buffer.isDuplicateEvent maxSeen e = r
  obtain ⟨duplicate, buffer⟩ := r
  cases duplicate with
  | true => rfl
  | false =>
    have hlimit : (s.completed.length : Int) ≥ limit ↔ s.completed.length ≥ limit.toNat := by omega
    simp only [hlimit]
    split
    · rfl
    · rfl

/-- Every event that is surfaced comes with one call of `decrement_in_flight`. -/
theorem decrements_pollEvent {limit : Int} {s : Surfacing κ π} {d : Nat} (e : CompletionEvent)
    (h : s.decrements = d + s.completed.length) :
    (s.pollEvent maxSeen limit e).decrements = d + (s.pollEvent maxSeen limit e).completed.length := by
  unfold pollEvent
  split
  · exact h
  · split
    · exact h
    · simp only [List.length_append, List.length_singleton, h]
      omega

theorem pollEvents_toIntake (limit : Int) (l : List CompletionEvent) :
    ∀ s : Surfacing κ π, (l.foldl (pollEvent maxSeen limit) s).toIntake =
      l.foldl (Intake.pollEvent maxSeen limit.toNat) s.toIntake := by
  induction l with
  | nil => intro s; rfl
  | cons e l ih =>
    intro s
    rw [List.foldl_cons, List.foldl_cons, ih, pollEvent_toIntake]

theorem decrements_pollEvents {limit : Int} {d : Nat} (l : List CompletionEvent) :
    ∀ s : Surfacing κ π, s.decrements = d + s.completed.length →
      (l.foldl (pollEvent maxSeen limit) s).decrements =
        d + (l.foldl (pollEvent maxSeen limit) s).completed.length := by
  induction l with
  | nil => intro s h; exact h
  | cons e l ih => intro s h; exact ih _ (decrements_pollEvent maxSeen e h)

theorem pollAvailable_eq (fits : CompletionMessage κ → Bool) (limit : Int) {d : Nat}
    (q : List (CompletionMessage κ)) :
    ∀ s : Surfacing κ π, s.decrements = d + s.completed.length →
      ∃ i, Intake.pollAvailable maxSeen fits limit.toNat q s.toIntake =
          ((pollAvailable maxSeen fits limit q s).1, (pollAvailable maxSeen fits limit q s).2.1, i) ∧
        (pollAvailable maxSeen fits limit q s).2.2 = ⟨i, d + i.completed.length⟩ := by
  induction q with
  | nil =>
    intro s h
    exact ⟨s.toIntake, rfl, by rw [← h]; rfl⟩
  | cons m q ih =>
    intro s h
    have hlimit : ¬s.completed.length ≥ limit.toNat ↔ (s.completed.length : Int) < limit := by omega
    simp only [pollAvailable, Intake.pollAvailable]
    by_cases hroom : (s.completed.length : Int) < limit
    · rw [if_pos hroom, if_neg (hlimit.mpr hroom)]
      cases hm : fits m with
      | true =>
        have hih := ih (m.events.foldl (pollEvent maxSeen limit) s) (decrements_pollEvents maxSeen m.events s h)
        rw [pollEvents_toIntake] at hih
        simpa using hih
      | false => exact ⟨s.toIntake, rfl, by rw [← h]; rfl⟩
    · rw [if_neg hroom, if_pos (not_not.mp fun hn => hroom (hlimit.mp hn))]
      exact ⟨s.toIntake, rfl, by rw [← h]⟩

/-- A poll in the engine's terms: what it pops, what it takes in, and one decrement for each event. -/
theorem poll_eq (fits : CompletionMessage κ → Bool) (batchLimit : Int) (q : List (CompletionMessage κ))
    (s : Surfacing κ π) :
    ∃ ok q' i, Intake.pollAvailable maxSeen fits
        (batchLimit.toNat - (s.buffer.prefetchedEvents.take batchLimit.toNat).length) q
        ⟨{ s.buffer with prefetchedEvents := s.buffer.prefetchedEvents.drop batchLimit.toNat }, s.registry, []⟩ =
          (ok, q', i) ∧
      poll maxSeen fits batchLimit q s = (ok, q',
        { i with
          completed := s.buffer.prefetchedEvents.take batchLimit.toNat ++ i.completed
          decrements := s.decrements +
            (s.buffer.prefetchedEvents.take batchLimit.toNat ++ i.completed).length }) := by
  obtain ⟨taken, htaken⟩ : ∃ l, s.buffer.prefetchedEvents.take batchLimit.toNat = l := ⟨_, rfl⟩
  have hpop := pollPrefetched_eq batchLimit s.buffer.prefetchedEvents { s with completed := [] } rfl
  simp only [List.length_nil, Int.ofNat_zero, Int.sub_zero, List.nil_append] at hpop
  have hle : taken.length ≤ batchLimit.toNat := by
    rw [← htaken, List.length_take]
    omega
  have hlimit : (batchLimit - (taken.length : Int)).toNat = batchLimit.toNat - taken.length := by omega
  have hcount : s.decrements + taken.length = s.decrements + taken.length + ([] : List CompletionEvent).length := rfl
  obtain ⟨i, hintake, hpoll⟩ := pollAvailable_eq maxSeen fits (batchLimit - (taken.length : Int)) q
    ⟨⟨{ s.buffer with prefetchedEvents := s.buffer.prefetchedEvents.drop batchLimit.toNat }, s.registry, []⟩,
      s.decrements + taken.length⟩ hcount
  rw [htaken] at hpop ⊢
  rw [hlimit] at hintake
  refine ⟨_, _, i, hintake, ?_⟩
  simp only [poll, hpop, hpoll, List.length_append, Nat.add_assoc]

end Surfacing

/-! ## The engine's steps -/

namespace ProcessEngine

variable (c : ProcessConfig κ π)

/-- Draining message by message, as the engine's steps do, is the loop of `drain_queue`. -/
theorem drainCompletions_eq (s : ProcessEngine κ π) (n : Nat) :
    ∃ k, (fun s => drainCompletion c s)^[k] s =
      { s with
        buffer := (Intake.drainQueue c.maxSeenIdentities c.decodes n s.completionQueue
          ⟨s.buffer, s.registry, []⟩).2.2.buffer
        registry := (Intake.drainQueue c.maxSeenIdentities c.decodes n s.completionQueue
          ⟨s.buffer, s.registry, []⟩).2.2.registry
        completionQueue := (Intake.drainQueue c.maxSeenIdentities c.decodes n s.completionQueue
          ⟨s.buffer, s.registry, []⟩).2.1 } := by
  obtain ⟨q, hq⟩ : ∃ q, s.completionQueue = q := ⟨_, rfl⟩
  induction q generalizing s n with
  | nil =>
    refine ⟨0, ?_⟩
    simp only [hq, Intake.drainQueue_nil, Function.iterate_zero, id]
    rw [← hq]
  | cons m q ih =>
    cases hm : c.decodes m with
    | false =>
      refine ⟨1, ?_⟩
      simp [hq, Intake.drainQueue_raised _ hm, drainCompletion, hm]
    | true =>
      obtain ⟨n', hcons⟩ := Intake.drainQueue_cons (π := π) c.maxSeenIdentities hm n q ⟨s.buffer, s.registry, []⟩
      obtain ⟨i, hi⟩ : ∃ i, m.events.foldl (Intake.prefetchEvent c.maxSeenIdentities)
        ⟨s.buffer, s.registry, []⟩ = i := ⟨_, rfl⟩
      have hnone : i.completed = [] := by
        rw [← hi, Intake.completed_prefetchAll]
      have hstep : drainCompletion c s =
          { s with buffer := i.buffer, registry := i.registry, completionQueue := q } := by
        simp only [drainCompletion, hq, hm, if_true, hi]
      obtain ⟨k, hk⟩ := ih (drainCompletion c s) n' (by rw [hstep])
      refine ⟨k + 1, ?_⟩
      rw [Function.iterate_succ, Function.comp, hk]
      have heta : (⟨i.buffer, i.registry, []⟩ : Intake κ π) = i := by rw [← hnone]
      simp only [hstep, hq, hcons, hi, heta]

/-- The engine's poll is the poll of the buffer, with a limit that is not negative. -/
theorem poll_eq (s : ProcessEngine κ π) (limit d : Nat) :
    ∃ ok q i, Surfacing.poll c.maxSeenIdentities c.decodes (limit : Int) s.completionQueue
        ⟨⟨s.buffer, s.registry, []⟩, d⟩ = (ok, q, i) ∧
      s.poll c limit = { s with
        buffer := i.buffer
        registry := i.registry
        completionQueue := q
        inFlightCount := s.inFlightCount - ((i.decrements - d : Nat) : Int)
        returned := if ok then s.returned ++ i.completed else s.returned } := by
  obtain ⟨ok, q, i, hintake, hpoll⟩ := Surfacing.poll_eq c.maxSeenIdentities c.decodes (limit : Int)
    s.completionQueue ⟨⟨s.buffer, s.registry, []⟩, d⟩
  refine ⟨ok, q, _, hpoll, ?_⟩
  simp only [Int.toNat_natCast] at hintake
  simp only [poll, hintake, Int.toNat_natCast, Nat.add_sub_cancel_left]

end ProcessEngine

end PyrallelConsumer
