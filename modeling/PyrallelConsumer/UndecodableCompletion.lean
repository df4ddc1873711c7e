import PyrallelConsumer.CompletionStream

/-!
# PyrallelConsumer.UndecodableCompletion

A whole call of `poll_completed_events`, with its drain, when an item of the queue cannot be decoded.
While it drains, what it has taken in is in the deque. While it polls, what it has taken is in a local list
and counted already, and the exception drops the list.

* `pollCompletedEvents_of_drainRaises`, `pollCompletedEvents_of_drained` — what a call does.
* `returnedLater_of_mem` — what is prefetched is returned by a later call.
* `neighbours_kept_iff` — when a call that raises keeps what it has taken out.
-/

namespace PyrallelConsumer

variable {κ π : Type} (maxSeen : Nat) (fits : CompletionMessage κ → Bool)

/-! ## The call -/

/-- When a call finds the engine shut down. -/
inductive ShutdownSeen where
  | never
  | beforeDrain
  | afterDrain
deriving DecidableEq, Repr

/-- What a call is given, and the items that become visible after its drain; the failures that its liveness
scan emits are among these. -/
structure PollInput (κ : Type) where
  batchLimit : Int
  late : List (CompletionMessage κ) := []
  shutdown : ShutdownSeen := .never

namespace CompletionStream

def becomeVisible (s : CompletionStream κ π) (items : List (CompletionMessage κ)) : CompletionStream κ π :=
  items.foldl arrive s

/-- The drain of a call raises. -/
def drainRaises (s : CompletionStream κ π) : Bool :=
  (Intake.drainQueue maxSeen fits 0 s.queue ⟨s.buffer, s.registry, []⟩).1.isNone

/-- What `poll_prefetched` and `poll_available` return together, or nothing when decoding raises. -/
def pollReturns (s : CompletionStream κ π) (batchLimit : Int) : Option (List CompletionEvent) :=
  match Surfacing.poll maxSeen fits batchLimit s.queue ⟨⟨s.buffer, s.registry, []⟩, s.decrements⟩ with
  | (ok, _, i) => if ok then some i.completed else none

/-- A call that returns after `poll_prefetched`. -/
def popPrefetched (s : CompletionStream κ π) (batchLimit : Int) :
    Option (List CompletionEvent) × CompletionStream κ π :=
  let i := Surfacing.pollPrefetched batchLimit s.buffer.prefetchedEvents ⟨⟨s.buffer, s.registry, []⟩, s.decrements⟩
  (some i.completed,
    { s with
      buffer := i.buffer
      registry := i.registry
      decrements := i.decrements
      polls := s.polls ++ [(batchLimit, i.completed)] })

/-- `poll_completed_events`; the first component is what it returns, or nothing when it raises. -/
def pollCompletedEvents (s : CompletionStream κ π) (c : PollInput κ) :
    Option (List CompletionEvent) × CompletionStream κ π :=
  let drained := (s.drainQueue maxSeen fits).becomeVisible c.late
  match c.shutdown with
  | .beforeDrain => (s.becomeVisible c.late).popPrefetched c.batchLimit
  | .afterDrain => if s.drainRaises maxSeen fits then (none, drained) else drained.popPrefetched c.batchLimit
  | .never =>
    if s.drainRaises maxSeen fits then (none, drained)
    else (drained.pollReturns maxSeen fits c.batchLimit, drained.poll maxSeen fits c.batchLimit)

end CompletionStream

/-! ## What is promised -/

/-- One of the calls returns the event. -/
inductive ReturnedLater (e : CompletionEvent) : (Nat → PollInput κ) → CompletionStream κ π → Prop where
  | now {calls : Nat → PollInput κ} {s : CompletionStream κ π} {l : List CompletionEvent}
      (h : (s.pollCompletedEvents maxSeen fits (calls 0)).1 = some l) (he : e ∈ l) : ReturnedLater e calls s
  | later {calls : Nat → PollInput κ} {s : CompletionStream κ π}
      (h : ReturnedLater e (fun k => calls (k + 1)) (s.pollCompletedEvents maxSeen fits (calls 0)).2) :
      ReturnedLater e calls s

/-- Later calls that have room for an event, with items arriving that can be decoded. -/
def Roomy (calls : Nat → PollInput κ) : Prop :=
  ∀ k, 0 < (calls k).batchLimit ∧ (∀ m ∈ (calls k).late, fits m = true) ∧ (calls k).shutdown = .never

namespace CompletionStream

/-- The items that a call takes out of the queue and can decode. -/
def decodedBy (s : CompletionStream κ π) (c : PollInput κ) : List (CompletionMessage κ) :=
  ((s.queue ++ c.late).take ((s.queue ++ c.late).length -
    (s.pollCompletedEvents maxSeen fits c).2.queue.length)).filter fits

/-- The events that a call takes out of the deque or out of the queue, without the duplicates. A drain that
raises comes before anything is popped. -/
def takenOut (s : CompletionStream κ π) (c : PollInput κ) : List CompletionEvent :=
  (if s.drainRaises maxSeen fits then [] else s.buffer.prefetchedEvents.take c.batchLimit.toNat) ++
    (s.buffer.sift maxSeen ((s.decodedBy maxSeen fits c).flatMap (·.events))).1

/-- If the call raises, what it has taken out is returned by later calls, and nothing is counted as returned. -/
def KeepsNeighbours (s : CompletionStream κ π) (c : PollInput κ) : Prop :=
  (s.pollCompletedEvents maxSeen fits c).1 = none →
    (∀ e ∈ s.takenOut maxSeen fits c, ∀ calls, Roomy fits calls →
      ReturnedLater maxSeen fits e calls (s.pollCompletedEvents maxSeen fits c).2) ∧
    (s.pollCompletedEvents maxSeen fits c).2.decrements = s.decrements

/-- The events that a call has prefetched or taken in when it has come past these items. -/
def inHand (s : CompletionStream κ π) (items : List (CompletionMessage κ)) : List CompletionEvent :=
  s.buffer.prefetchedEvents ++ (s.buffer.sift maxSeen ((s.queue ++ items).flatMap (·.events))).1

/-- The drain meets only items that decode, and the first one that does not comes after it, when the call
has some events in hand and room for more. -/
def LosesNeighbours (s : CompletionStream κ π) (c : PollInput κ) : Prop :=
  c.shutdown = .never ∧ ∃ items bad rest, c.late = items ++ bad :: rest ∧
    (∀ m ∈ s.queue ++ items, fits m = true) ∧ fits bad = false ∧
    0 < (s.inHand maxSeen items).length ∧ ((s.inHand maxSeen items).length : Int) < c.batchLimit

end CompletionStream

/-! ## Loops that raise -/

/-- A list decodes, or it has a first item that does not. -/
theorem first_undecodable (q : List (CompletionMessage κ)) :
    (∀ m ∈ q, fits m = true) ∨
      ∃ items bad rest, q = items ++ bad :: rest ∧ (∀ m ∈ items, fits m = true) ∧ fits bad = false := by
  induction q with
  | nil => exact .inl (by simp)
  | cons m q ih =>
    cases hm : fits m with
    | false => exact .inr ⟨[], m, q, rfl, by simp, hm⟩
    | true =>
      rcases ih with hall | ⟨items, bad, rest, rfl, hitems, hbad⟩
      · exact .inl (List.forall_mem_cons.mpr ⟨hm, hall⟩)
      · exact .inr ⟨m :: items, bad, rest, rfl, List.forall_mem_cons.mpr ⟨hm, hitems⟩, hbad⟩

namespace Intake

variable {fits}

theorem drainQueue_undecodable {bad : CompletionMessage κ} (hbad : fits bad = false)
    (rest items : List (CompletionMessage κ)) :
    ∀ (n : Nat) (i : Intake κ π), (∀ m ∈ items, fits m = true) →
      drainQueue maxSeen fits n (items ++ bad :: rest) i =
        (none, rest, (items.flatMap (·.events)).foldl (prefetchEvent maxSeen) i) := by
  induction items with
  | nil => intro n i _; exact drainQueue_raised maxSeen hbad n rest i
  | cons m items ih =>
    intro n i hfits
    obtain ⟨hm, hfits⟩ := List.forall_mem_cons.mp hfits
    obtain ⟨n', hcons⟩ := drainQueue_cons maxSeen hm n (items ++ bad :: rest) i
    rw [List.cons_append, hcons, ih n' _ hfits, List.flatMap_cons, List.foldl_append]

/-- A poll that has room left after every item before the undecodable one comes to it. -/
theorem pollAvailable_undecodable (limit : Nat) {bad : CompletionMessage κ} (hbad : fits bad = false)
    (rest items : List (CompletionMessage κ)) :
    ∀ i : Intake κ π, (∀ m ∈ items, fits m = true) →
      i.completed.length + (i.buffer.sift maxSeen (items.flatMap (·.events))).1.length < limit →
      pollAvailable maxSeen fits limit (items ++ bad :: rest) i =
        (false, rest, (items.flatMap (·.events)).foldl (pollEvent maxSeen limit) i) := by
  induction items with
  | nil =>
    intro i _ hroom
    have hlt : ¬i.completed.length ≥ limit := by
      simp only [List.flatMap_nil, CompletionBuffer.sift, List.length_nil] at hroom
      omega
    simp only [List.nil_append, pollAvailable, if_neg hlt, hbad]
    rfl
  | cons m items ih =>
    intro i hfits hroom
    obtain ⟨hm, hfits⟩ := List.forall_mem_cons.mp hfits
    rw [List.flatMap_cons, CompletionBuffer.sift_append, List.length_append] at hroom
    obtain ⟨hcompleted, hbuffer⟩ := pollAll_eq maxSeen limit m.events i
    have hlt : ¬i.completed.length ≥ limit := by omega
    simp only [List.cons_append, pollAvailable, if_neg hlt, hm, if_true]
    rw [ih _ hfits, List.flatMap_cons, List.foldl_append]
    rw [hcompleted, hbuffer, CompletionBuffer.sift_withPrefetched maxSeen _ (i.buffer.sift maxSeen m.events).2,
      List.length_append, List.length_take]
    dsimp only
    omega

/-- What a poll that raises has come to. -/
theorem pollAvailable_false {limit : Nat} {q' : List (CompletionMessage κ)} {i' : Intake κ π}
    (q : List (CompletionMessage κ)) :
    ∀ i : Intake κ π, pollAvailable maxSeen fits limit q i = (false, q', i') →
      ∃ items bad, q = items ++ bad :: q' ∧ (∀ m ∈ items, fits m = true) ∧ fits bad = false ∧
        i' = (items.flatMap (·.events)).foldl (pollEvent maxSeen limit) i ∧ i'.completed.length < limit := by
  induction q with
  | nil => intro i h; simp [pollAvailable] at h
  | cons m q ih =>
    intro i h
    simp only [pollAvailable] at h
    split at h
    · simp at h
    · rename_i hroom
      cases hm : fits m with
      | true =>
        rw [hm, if_pos rfl] at h
        obtain ⟨items, bad, rfl, hitems, hbad, hi, hlt⟩ := ih _ h
        refine ⟨m :: items, bad, rfl, List.forall_mem_cons.mpr ⟨hm, hitems⟩, hbad, ?_, hlt⟩
        rw [hi, List.flatMap_cons, List.foldl_append]
      | false =>
        simp only [hm, Bool.false_eq_true, if_false, Prod.mk.injEq, true_and] at h
        obtain ⟨rfl, rfl⟩ := h
        exact ⟨[], m, rfl, by simp, hm, rfl, Nat.lt_of_not_le hroom⟩

end Intake

/-! ## The two halves of a call -/

namespace CompletionStream

section Halves

variable (s : CompletionStream κ π)

theorem becomeVisible_eq (items : List (CompletionMessage κ)) : ∀ s : CompletionStream κ π,
    s.becomeVisible items = { s with queue := s.queue ++ items, arrived := s.arrived ++ items } := by
  induction items with
  | nil => intro s; simp [becomeVisible]
  | cons m items ih =>
    intro s
    have hrest := ih (s.arrive m)
    simp only [becomeVisible, List.foldl_cons] at hrest ⊢
    rw [hrest]
    simp [arrive]

/-- The drain takes in everything, or it raises with everything before the undecodable item in the deque. -/
theorem drainQueue_cases :
    (∀ m ∈ s.queue, fits m = true) ∧ s.drainRaises maxSeen fits = false ∧ (s.drainQueue maxSeen fits).queue = [] ∧
        (s.drainQueue maxSeen fits).buffer =
          { (s.buffer.sift maxSeen (s.queue.flatMap (·.events))).2 with
            prefetchedEvents := s.buffer.prefetchedEvents ++
              (s.buffer.sift maxSeen (s.queue.flatMap (·.events))).1 } ∨
      ∃ items bad rest, s.queue = items ++ bad :: rest ∧ (∀ m ∈ items, fits m = true) ∧ fits bad = false ∧
        s.drainRaises maxSeen fits = true ∧ (s.drainQueue maxSeen fits).queue = rest ∧
        (s.drainQueue maxSeen fits).buffer =
          { (s.buffer.sift maxSeen (items.flatMap (·.events))).2 with
            prefetchedEvents := s.buffer.prefetchedEvents ++
              (s.buffer.sift maxSeen (items.flatMap (·.events))).1 } := by
  unfold drainRaises drainQueue
  rcases first_undecodable fits s.queue with hall | ⟨items, bad, rest, hq, hitems, hbad⟩
  · obtain ⟨n, heq⟩ := Intake.drainQueue_eq (π := π) maxSeen s.queue 0 ⟨s.buffer, s.registry, []⟩ hall
    rw [heq]
    exact .inl ⟨hall, rfl, rfl, Intake.buffer_prefetchAll maxSeen _ _⟩
  · have heq := Intake.drainQueue_undecodable (π := π) maxSeen hbad rest items 0
      ⟨s.buffer, s.registry, []⟩ hitems
    rw [hq, heq]
    exact .inr ⟨items, bad, rest, rfl, hitems, hbad, rfl, rfl, Intake.buffer_prefetchAll maxSeen _ _⟩

/-- A poll pops, then takes in; every event in its list is counted. -/
theorem poll_spec (batchLimit : Int) :
    ∃ ok q i, Intake.pollAvailable maxSeen fits
        (batchLimit.toNat - (s.buffer.prefetchedEvents.take batchLimit.toNat).length) s.queue
        ⟨{ s.buffer with prefetchedEvents := s.buffer.prefetchedEvents.drop batchLimit.toNat }, s.registry, []⟩ =
          (ok, q, i) ∧
      s.pollReturns maxSeen fits batchLimit =
        (if ok then some (s.buffer.prefetchedEvents.take batchLimit.toNat ++ i.completed) else none) ∧
      (s.poll maxSeen fits batchLimit).buffer = i.buffer ∧ (s.poll maxSeen fits batchLimit).queue = q ∧
      (s.poll maxSeen fits batchLimit).decrements = s.decrements +
        (s.buffer.prefetchedEvents.take batchLimit.toNat ++ i.completed).length := by
  obtain ⟨ok, q, i, hintake, hpoll⟩ := Surfacing.poll_eq maxSeen fits batchLimit s.queue
    ⟨⟨s.buffer, s.registry, []⟩, s.decrements⟩
  refine ⟨ok, q, i, hintake, ?_, ?_, ?_, ?_⟩
  · rw [pollReturns, hpoll]
  · rw [poll, hpoll]
  · rw [poll, hpoll]
  · rw [poll, hpoll]

end Halves

variable {maxSeen fits} (s : CompletionStream κ π)

/-- A call whose drain raises has popped nothing and counted nothing. -/
theorem pollCompletedEvents_of_drainRaises {c : PollInput κ} (hraises : s.drainRaises maxSeen fits = true)
    (hdrains : c.shutdown ≠ .beforeDrain) :
    ∃ items bad rest, s.queue = items ++ bad :: rest ∧ (∀ m ∈ items, fits m = true) ∧ fits bad = false ∧
      (s.pollCompletedEvents maxSeen fits c).1 = none ∧
      (s.pollCompletedEvents maxSeen fits c).2.queue = rest ++ c.late ∧
      (s.pollCompletedEvents maxSeen fits c).2.buffer.prefetchedEvents =
        s.buffer.prefetchedEvents ++ (s.buffer.sift maxSeen (items.flatMap (·.events))).1 ∧
      (s.pollCompletedEvents maxSeen fits c).2.decrements = s.decrements := by
  have hcall : s.pollCompletedEvents maxSeen fits c = (none, (s.drainQueue maxSeen fits).becomeVisible c.late) := by
    unfold pollCompletedEvents
    rw [hraises]
    cases hc : c.shutdown with
    | beforeDrain => exact absurd hc hdrains
    | afterDrain => rfl
    | never => rfl
  rw [hcall, becomeVisible_eq]
  rcases drainQueue_cases maxSeen fits s with
    ⟨-, hfalse, -, -⟩ | ⟨items, bad, rest, hq, hitems, hbad, -, hqueue, hbuffer⟩
  · rw [hraises] at hfalse
    cases hfalse
  · refine ⟨items, bad, rest, hq, hitems, hbad, rfl, ?_, ?_, rfl⟩
    · dsimp only
      rw [hqueue]
    · dsimp only
      rw [hbuffer]

/-- A call that comes through its drain pops from the deque, and takes in what has become visible since. -/
theorem pollCompletedEvents_of_drained {c : PollInput κ} (hraises : s.drainRaises maxSeen fits = false)
    (hnever : c.shutdown = .never) :
    ∃ deque memory, (∀ m ∈ s.queue, fits m = true) ∧
      deque = s.buffer.prefetchedEvents ++ (s.buffer.sift maxSeen (s.queue.flatMap (·.events))).1 ∧
      memory = (s.buffer.sift maxSeen (s.queue.flatMap (·.events))).2 ∧
      ∃ registry ok q i, Intake.pollAvailable maxSeen fits
          (c.batchLimit.toNat - (deque.take c.batchLimit.toNat).length) c.late
          (⟨{ memory with prefetchedEvents := deque.drop c.batchLimit.toNat }, registry, []⟩ : Intake κ π) =
            (ok, q, i) ∧
        (s.pollCompletedEvents maxSeen fits c).1 =
          (if ok then some (deque.take c.batchLimit.toNat ++ i.completed) else none) ∧
        (s.pollCompletedEvents maxSeen fits c).2.queue = q ∧
        (s.pollCompletedEvents maxSeen fits c).2.buffer = i.buffer ∧
        (s.pollCompletedEvents maxSeen fits c).2.decrements =
          s.decrements + (deque.take c.batchLimit.toNat ++ i.completed).length := by
  obtain ⟨d, hd⟩ : ∃ d, (s.drainQueue maxSeen fits).becomeVisible c.late = d := ⟨_, rfl⟩
  have hdqueue : d.queue = (s.drainQueue maxSeen fits).queue ++ c.late := by rw [← hd, becomeVisible_eq]
  have hdbuffer : d.buffer = (s.drainQueue maxSeen fits).buffer := by rw [← hd, becomeVisible_eq]
  have hddecrements : d.decrements = s.decrements := by
    rw [← hd, becomeVisible_eq]
    rfl
  unfold pollCompletedEvents
  rw [hnever, hd, hraises]
  rcases drainQueue_cases maxSeen fits s with
    ⟨hall, -, hqueue, hbuffer⟩ | ⟨_, _, _, -, -, -, htrue, -, -⟩
  · obtain ⟨ok, q, i, hintake, hreturns, hbuffer', hqueue', hdecrements⟩ :=
      poll_spec maxSeen fits d c.batchLimit
    have hdeque : d.buffer.prefetchedEvents =
        s.buffer.prefetchedEvents ++ (s.buffer.sift maxSeen (s.queue.flatMap (·.events))).1 := by
      rw [hdbuffer, hbuffer]
    have hmemory : ∀ l, { d.buffer with prefetchedEvents := l } =
        { (s.buffer.sift maxSeen (s.queue.flatMap (·.events))).2 with prefetchedEvents := l } := by
      intro l
      rw [hdbuffer, hbuffer]
    rw [hdqueue, hqueue, List.nil_append, hmemory, hdeque] at hintake
    rw [hdeque] at hreturns hdecrements
    rw [hddecrements] at hdecrements
    exact ⟨_, _, hall, rfl, rfl, _, ok, q, i, hintake, hreturns, hqueue', hbuffer', hdecrements⟩
  · rw [hraises] at htrue
    cases htrue

/-- Such a call is a run of the buffer's machine. -/
theorem pollCompletedEvents_run {maxSeenIdentities : Nat} {c : PollInput κ}
    (hraises : s.drainRaises (max 1 maxSeenIdentities) fits = false) (hnever : c.shutdown = .never) :
    (s.pollCompletedEvents (max 1 maxSeenIdentities) fits c).2 = (bufferMachine κ π maxSeenIdentities fits).run s
      (.drainQueue :: c.late.map .arrive ++ [.poll c.batchLimit]) := by
  unfold pollCompletedEvents
  rw [hnever, hraises]
  simp [Machine.run, List.foldl_append, List.foldl_map, becomeVisible, bufferMachine]

/-! ## Later calls -/

theorem countP_undecodable_eq_zero {q : List (CompletionMessage κ)} (h : ∀ m ∈ q, fits m = true) :
    q.countP (fun m => !fits m) = 0 := by
  rw [List.countP_eq_zero]
  intro m hm
  simp [h m hm]

/-- A call that meets only items that decode returns the front of the deque, and puts more behind the rest. -/
theorem returned_of_decodable {c : PollInput κ} (hraises : s.drainRaises maxSeen fits = false)
    (hnever : c.shutdown = .never) (hlate : ∀ m ∈ c.late, fits m = true) :
    ∃ drained taken more, (s.pollCompletedEvents maxSeen fits c).1 =
        some ((s.buffer.prefetchedEvents ++ drained).take c.batchLimit.toNat ++ taken) ∧
      (s.pollCompletedEvents maxSeen fits c).2.buffer.prefetchedEvents =
        (s.buffer.prefetchedEvents ++ drained).drop c.batchLimit.toNat ++ more ∧
      ∀ m ∈ (s.pollCompletedEvents maxSeen fits c).2.queue, fits m = true := by
  obtain ⟨deque, memory, -, hdeque, -, registry, ok, q, i, hintake, hreturns, hqueue, hbuffer, -⟩ :=
    pollCompletedEvents_of_drained s hraises hnever
  obtain ⟨items, rest, hsplit, heq⟩ := Intake.pollAvailable_eq maxSeen
    (c.batchLimit.toNat - (deque.take c.batchLimit.toNat).length) c.late
    (⟨{ memory with prefetchedEvents := deque.drop c.batchLimit.toNat }, registry, []⟩ : Intake κ π) hlate
  have hresult := hintake.symm.trans heq
  simp only [Prod.mk.injEq] at hresult
  obtain ⟨rfl, rfl, hi⟩ := hresult
  have hpolled := (Intake.pollAll_eq maxSeen (c.batchLimit.toNat - (deque.take c.batchLimit.toNat).length)
    (items.flatMap (·.events))
    (⟨{ memory with prefetchedEvents := deque.drop c.batchLimit.toNat }, registry, []⟩ : Intake κ π)).2
  have hafter := congrArg (·.prefetchedEvents) hbuffer
  rw [hi, hpolled] at hafter
  rw [hdeque] at hreturns
  dsimp only at hafter
  refine ⟨_, _, _, hreturns, hafter.trans (by rw [hdeque]), ?_⟩
  rw [hqueue]
  exact fun m hm => hlate m (hsplit ▸ List.mem_append_right _ hm)

variable (maxSeen) in
/-- A call that has room returns a prefetched event, or brings it nearer. -/
theorem roomy_call {c : PollInput κ} {e : CompletionEvent} {pre post : List CompletionEvent}
    (hlimit : 0 < c.batchLimit) (hlate : ∀ m ∈ c.late, fits m = true) (hnever : c.shutdown = .never)
    (hdeque : s.buffer.prefetchedEvents = pre ++ e :: post) :
    (∃ l, (s.pollCompletedEvents maxSeen fits c).1 = some l ∧ e ∈ l) ∨
      ∃ pre' post', (s.pollCompletedEvents maxSeen fits c).2.buffer.prefetchedEvents = pre' ++ e :: post' ∧
        (s.pollCompletedEvents maxSeen fits c).2.queue.countP (fun m => !fits m) + pre'.length <
          s.queue.countP (fun m => !fits m) + pre.length := by
  cases hraises : s.drainRaises maxSeen fits with
  | true =>
    obtain ⟨items, bad, rest, hq, hitems, hbad, -, hqueue, hbuffer, -⟩ :=
      pollCompletedEvents_of_drainRaises s hraises (c := c) (by simp [hnever])
    refine .inr ⟨pre, post ++ (s.buffer.sift maxSeen (items.flatMap (·.events))).1, ?_, ?_⟩
    · rw [hbuffer, hdeque, List.append_assoc, List.cons_append]
    · rw [hqueue, hq, List.countP_append, List.countP_append, List.countP_cons,
        countP_undecodable_eq_zero hlate, hbad]
      simp only [Bool.not_false, if_true]
      omega
  | false =>
    obtain ⟨drained, taken, more, hreturns, hbuffer, hqueue⟩ := returned_of_decodable s hraises hnever hlate
    rw [hdeque, List.append_assoc, List.cons_append] at hreturns hbuffer
    by_cases hnear : pre.length < c.batchLimit.toNat
    · refine .inl ⟨_, hreturns, List.mem_append_left _ ?_⟩
      rw [List.take_append,
        show c.batchLimit.toNat - pre.length = c.batchLimit.toNat - pre.length - 1 + 1 by omega, List.take_succ_cons]
      simp
    · right
      rw [hbuffer, List.drop_append_of_le_length (Nat.le_of_not_lt hnear), List.append_assoc, List.cons_append,
        countP_undecodable_eq_zero hqueue]
      refine ⟨_, _, rfl, ?_⟩
      rw [List.length_drop]
      omega

/-- What is prefetched is returned by one of the later calls. -/
theorem returnedLater_of_mem {e : CompletionEvent} (h : e ∈ s.buffer.prefetchedEvents)
    {calls : Nat → PollInput κ} (hcalls : Roomy fits calls) : ReturnedLater maxSeen fits e calls s := by
  obtain ⟨pre, post, hdeque⟩ := List.append_of_mem h
  clear h
  -- every call has fewer undecodable items before it, or fewer events before this one
  generalize hn : s.queue.countP (fun m => !fits m) + pre.length = n
  induction n using Nat.strong_induction_on generalizing s pre post calls with
  | _ n ih =>
    obtain ⟨hlimit, hlate, hnever⟩ := hcalls 0
    rcases roomy_call maxSeen s hlimit hlate hnever hdeque with
      ⟨l, hl, he⟩ | ⟨pre', post', hdeque', hless⟩
    · exact .now hl he
    · exact .later (ih _ (hn ▸ hless) _ (fun k => hcalls (k + 1)) pre' post' hdeque' rfl)

/-! ## A call that raises -/

theorem decodedBy_eq {c : PollInput κ} {items left : List (CompletionMessage κ)} {bad : CompletionMessage κ}
    (hq : s.queue ++ c.late = items ++ bad :: left) (hitems : ∀ m ∈ items, fits m = true) (hbad : fits bad = false)
    (hleft : (s.pollCompletedEvents maxSeen fits c).2.queue = left) : s.decodedBy maxSeen fits c = items := by
  have hlen : (items ++ bad :: left).length - left.length = (items ++ [bad]).length := by
    simp only [List.length_append, List.length_cons, List.length_nil]
    omega
  have hsplit : items ++ bad :: left = (items ++ [bad]) ++ left := by simp
  unfold decodedBy
  rw [hq, hleft, hlen, hsplit, List.take_left, List.filter_append, List.filter_eq_self.mpr hitems]
  simp [hbad]

/-- After its drain, a call raises when it has room left at the first item that cannot be decoded. By then all
that it has in hand is counted. -/
theorem raised_of_room {c : PollInput κ} {items rest : List (CompletionMessage κ)} {bad : CompletionMessage κ}
    (hraises : s.drainRaises maxSeen fits = false) (hnever : c.shutdown = .never)
    (hlate : c.late = items ++ bad :: rest) (hitems : ∀ m ∈ items, fits m = true) (hbad : fits bad = false)
    (hroom : ((s.inHand maxSeen items).length : Int) < c.batchLimit) :
    (s.pollCompletedEvents maxSeen fits c).1 = none ∧ (s.pollCompletedEvents maxSeen fits c).2.queue = rest ∧
      (s.pollCompletedEvents maxSeen fits c).2.decrements = s.decrements + (s.inHand maxSeen items).length := by
  obtain ⟨deque, memory, -, hdeque, hmemory, registry, ok, q, i, hintake, hreturns, hqueue, -, hdecrements⟩ :=
    pollCompletedEvents_of_drained s hraises hnever
  have hhand : s.inHand maxSeen items = deque ++ (memory.sift maxSeen (items.flatMap (·.events))).1 := by
    rw [inHand, List.flatMap_append, CompletionBuffer.sift_append, ← hmemory, ← List.append_assoc, ← hdeque]
  rw [hhand, List.length_append] at hroom
  have htake : deque.take c.batchLimit.toNat = deque := List.take_of_length_le (by omega)
  have hsift := CompletionBuffer.sift_withPrefetched maxSeen (items.flatMap (·.events)) memory
    (deque.drop c.batchLimit.toNat)
  obtain ⟨start, hstart⟩ : ∃ start : Intake κ π, start =
    ⟨{ memory with prefetchedEvents := deque.drop c.batchLimit.toNat }, registry, []⟩ := ⟨_, rfl⟩
  have hnone : start.completed = [] := by rw [hstart]
  have hnew : (start.buffer.sift maxSeen (items.flatMap (·.events))).1 =
      (memory.sift maxSeen (items.flatMap (·.events))).1 := by rw [hstart, hsift]
  have heq := Intake.pollAvailable_undecodable maxSeen (c.batchLimit.toNat - deque.length) hbad rest items start
    hitems (by rw [hnew, hnone, List.length_nil]; omega)
  have hcompleted := (Intake.pollAll_eq maxSeen (c.batchLimit.toNat - deque.length) (items.flatMap (·.events))
    start).1
  rw [hnew, hnone, List.nil_append, List.length_nil, Nat.sub_zero, List.take_of_length_le (by omega)] at hcompleted
  rw [hlate, htake, ← hstart, heq] at hintake
  simp only [Prod.mk.injEq] at hintake
  obtain ⟨rfl, rfl, rfl⟩ := hintake
  refine ⟨hreturns, hqueue, ?_⟩
  rw [hdecrements, htake, hcompleted, hhand]

theorem room_of_raised {c : PollInput κ} (hraises : s.drainRaises maxSeen fits = false)
    (hnever : c.shutdown = .never) (hraised : (s.pollCompletedEvents maxSeen fits c).1 = none) :
    (∀ m ∈ s.queue, fits m = true) ∧ ∃ items bad rest, c.late = items ++ bad :: rest ∧
      (∀ m ∈ items, fits m = true) ∧ fits bad = false ∧
      ((s.inHand maxSeen items).length : Int) < c.batchLimit := by
  obtain ⟨deque, memory, hall, hdeque, hmemory, registry, ok, q, i, hintake, hreturns, -⟩ :=
    pollCompletedEvents_of_drained s hraises hnever
  have hok : ok = false := by
    cases ok with
    | false => rfl
    | true =>
      rw [hraised] at hreturns
      cases hreturns
  rw [hok] at hintake
  obtain ⟨items, bad, hlate, hitems, hbad, hi, hroom⟩ := Intake.pollAvailable_false maxSeen _ _ hintake
  refine ⟨hall, items, bad, q, hlate, hitems, hbad, ?_⟩
  have hhand : s.inHand maxSeen items = deque ++ (memory.sift maxSeen (items.flatMap (·.events))).1 := by
    rw [inHand, List.flatMap_append, CompletionBuffer.sift_append, ← hmemory, ← List.append_assoc, ← hdeque]
  have hcompleted := (Intake.pollAll_eq maxSeen
    (c.batchLimit.toNat - (deque.take c.batchLimit.toNat).length) (items.flatMap (·.events))
    (⟨{ memory with prefetchedEvents := deque.drop c.batchLimit.toNat }, registry, []⟩ : Intake κ π)).1
  rw [← hi, CompletionBuffer.sift_withPrefetched] at hcompleted
  rw [hcompleted] at hroom
  simp only [List.nil_append, List.length_nil, Nat.sub_zero, List.length_take] at hroom
  rw [hhand, List.length_append]
  omega

theorem never_of_raised {c : PollInput κ} (hraises : s.drainRaises maxSeen fits = false)
    (hraised : (s.pollCompletedEvents maxSeen fits c).1 = none) : c.shutdown = .never := by
  unfold pollCompletedEvents at hraised
  rw [hraises] at hraised
  cases hc : c.shutdown with
  | never => rfl
  | beforeDrain =>
    rw [hc] at hraised
    simp [popPrefetched] at hraised
  | afterDrain =>
    rw [hc] at hraised
    simp [popPrefetched] at hraised

theorem drains_of_raised {c : PollInput κ} (hraised : (s.pollCompletedEvents maxSeen fits c).1 = none) :
    c.shutdown ≠ .beforeDrain := by
  intro hc
  unfold pollCompletedEvents at hraised
  rw [hc] at hraised
  simp [popPrefetched] at hraised

/-- A call that raises keeps what it has taken out, and counts none of it, unless it comes to an undecodable item
after its drain with some events in hand. -/
theorem neighbours_kept_iff (maxSeen : Nat) (fits : CompletionMessage κ → Bool) (s : CompletionStream κ π)
    (c : PollInput κ) :
    s.KeepsNeighbours maxSeen fits c ↔ ¬s.LosesNeighbours maxSeen fits c := by
  constructor
  · rintro hkeeps ⟨hnever, items, bad, rest, hlate, hfits, hbad, hsome, hroom⟩
    cases hraises : s.drainRaises maxSeen fits with
    | true =>
      obtain ⟨_, bad', _, hq, -, hbad', -⟩ :=
        pollCompletedEvents_of_drainRaises s hraises (c := c) (by simp [hnever])
      have htrue := hfits bad' (by simp [hq])
      rw [hbad'] at htrue
      cases htrue
    | false =>
      -- what is in hand is counted, though nothing is returned
      obtain ⟨hraised, -, hcounted⟩ := raised_of_room s hraises hnever hlate
        (fun m hm => hfits m (List.mem_append_right _ hm)) hbad hroom
      have hkept := (hkeeps hraised).2
      omega
  · intro hnot hraised
    cases hraises : s.drainRaises maxSeen fits with
    | true =>
      obtain ⟨items, bad, rest, hq, hitems, hbad, -, hqueue, hbuffer, hdecrements⟩ :=
        pollCompletedEvents_of_drainRaises s hraises (drains_of_raised s hraised)
      refine ⟨fun e he calls hcalls => returnedLater_of_mem _ ?_ hcalls, hdecrements⟩
      have hdecoded := decodedBy_eq s (by rw [hq]; simp) hitems hbad hqueue
      rw [takenOut, hraises, if_pos rfl, List.nil_append, hdecoded] at he
      rw [hbuffer]
      exact List.mem_append_right _ he
    | false =>
      have hnever := never_of_raised s hraises hraised
      obtain ⟨hall, items, bad, rest, hlate, hitems, hbad, hroom⟩ := room_of_raised s hraises hnever hraised
      obtain ⟨-, hqueue, hdecrements⟩ := raised_of_room s hraises hnever hlate hitems hbad hroom
      have hfits : ∀ m ∈ s.queue ++ items, fits m = true := by
        intro m hm
        exact (List.mem_append.mp hm).elim (hall m) (hitems m)
      have hempty : s.inHand maxSeen items = [] := by
        by_contra hne
        exact hnot ⟨hnever, items, bad, rest, hlate, hfits, hbad, List.length_pos_of_ne_nil hne, hroom⟩
      refine ⟨fun e he => ?_, by rw [hdecrements, hempty]; rfl⟩
      have hdecoded := decodedBy_eq s (by rw [hlate, List.append_assoc]) hfits hbad hqueue
      obtain ⟨hprefetched, hsift⟩ := List.append_eq_nil_iff.mp hempty
      rw [takenOut, hdecoded, hprefetched, hsift] at he
      simp at he

/-! ## A lost completion -/

variable (maxSeen fits) in
/-- With nothing queued, prefetched or arriving, a call returns nothing. -/
theorem pollCompletedEvents_of_empty {c : PollInput κ} (hqueue : s.queue = [])
    (hdeque : s.buffer.prefetchedEvents = []) (hlate : c.late = []) :
    (s.pollCompletedEvents maxSeen fits c).1 = some [] ∧ (s.pollCompletedEvents maxSeen fits c).2.queue = [] ∧
      (s.pollCompletedEvents maxSeen fits c).2.buffer.prefetchedEvents = [] := by
  unfold pollCompletedEvents
  cases c.shutdown <;>
    simp [becomeVisible, hlate, popPrefetched, drainRaises, drainQueue, hqueue, hdeque, Intake.drainQueue,
      pollReturns, poll, Surfacing.poll, Surfacing.pollPrefetched, Surfacing.pollAvailable]

theorem not_returnedLater_of_empty {e : CompletionEvent} {calls : Nat → PollInput κ}
    (hqueue : s.queue = []) (hdeque : s.buffer.prefetchedEvents = []) (hlate : ∀ k, (calls k).late = []) :
    ¬ReturnedLater maxSeen fits e calls s := by
  intro h
  induction h with
  | @now calls s l h he =>
    obtain ⟨hnone, -, -⟩ := pollCompletedEvents_of_empty maxSeen fits s hqueue hdeque (hlate 0)
    rw [hnone] at h
    cases h
    cases he
  | @later calls s h ih =>
    obtain ⟨-, hqueue', hdeque'⟩ :=
      pollCompletedEvents_of_empty maxSeen fits s hqueue hdeque (hlate 0)
    exact ih hqueue' hdeque' fun k => hlate (k + 1)

/-- Everything decodes but the completion at offset 6. -/
def allButSix (m : CompletionMessage Nat) : Bool := m.events.all fun e => e.offset != 6

/-- Two items become visible after the drain, the second of them undecodable. -/
def lateSix : PollInput Nat := { batchLimit := 10, late := [.item (successAt 5) true, .item (successAt 6) true] }

/-- The completion at offset 5 is counted as returned, and no later call returns it. -/
theorem late_undecodable_loses_neighbour :
    ¬newStream.KeepsNeighbours 100000 allButSix lateSix ∧
      newStream.takenOut 100000 allButSix lateSix = [successAt 5] ∧
      (newStream.pollCompletedEvents 100000 allButSix lateSix).1 = none ∧
      (newStream.pollCompletedEvents 100000 allButSix lateSix).2.decrements = 1 ∧
      ∀ calls : Nat → PollInput Nat, (∀ k, (calls k).late = []) →
        ¬ReturnedLater 100000 allButSix (successAt 5) calls
          (newStream.pollCompletedEvents 100000 allButSix lateSix).2 := by
  have hraised : (newStream.pollCompletedEvents 100000 allButSix lateSix).1 = none := by decide
  have hcounted : (newStream.pollCompletedEvents 100000 allButSix lateSix).2.decrements = 1 := by decide
  refine ⟨fun hkeeps => ?_, by decide, hraised, hcounted, fun calls hlate => ?_⟩
  · have hkept := (hkeeps hraised).2
    rw [hcounted] at hkept
    cases hkept
  · exact not_returnedLater_of_empty _ (by decide) (by decide) hlate

end CompletionStream

end PyrallelConsumer
