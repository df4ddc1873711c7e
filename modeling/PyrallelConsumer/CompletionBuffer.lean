import PyrallelConsumer.ProcessRegistry

/-!
# PyrallelConsumer.CompletionBuffer

The parent's side of the completion queue, `execution_plane/process_completion_buffer.py`: messages are
decoded to events, repeated events are suppressed, and the others leave the in-flight registry and wait
to be polled. The suppression remembers a bounded number of identities.

* `taken_prefetchEvent`, `taken_pollEvent` — an event is a repetition, or it is kept.
* `Intake.Shows` — what has been kept. `shows_takeAll`, `registers_takeAll` — a whole message.
-/

set_option linter.unusedSectionVars false

namespace PyrallelConsumer

/-- A message of the completion queue: one event, with the time when a worker put it, or the results of a
route batch. -/
inductive CompletionMessage (κ : Type) where
  | item (event : CompletionEvent) (timed : Bool)
  | batch (batchId : Nat) (route : RouteIdentity κ) (results : List CompletionEvent)
deriving DecidableEq, Repr

def CompletionMessage.events {κ : Type} : CompletionMessage κ → List CompletionEvent
  | item event _ => [event]
  | batch _ _ results => results

/-- The identities that occur in a list of messages, with repetitions. -/
def completionIdentities {κ : Type} (l : List (CompletionMessage κ)) : List LogicalWorkIdentity :=
  l.flatMap fun m => m.events.map (·.identity)

structure CompletionBuffer where
  prefetchedEvents : List CompletionEvent := []
  seenIdentities : List LogicalWorkIdentity := []
  seenIdentityOrder : List LogicalWorkIdentity := []
deriving DecidableEq, Repr

/-- `is_synthetic_failure_event`. -/
def CompletionEvent.isSyntheticFailure (e : CompletionEvent) : Bool :=
  e.status = .failure && e.id = .blank && e.tp.topic = "" && decide (e.offset < 0) && e.epoch = 0

namespace CompletionBuffer

variable (maxSeen : Nat)

/-- Forget the oldest identities while more than the limit are remembered. -/
def evict (seen : List LogicalWorkIdentity) :
    List LogicalWorkIdentity → List LogicalWorkIdentity × List LogicalWorkIdentity
  | [] => (seen, [])
  | work :: order =>
    if (work :: order).length > maxSeen then evict (seen.filter (· ≠ work)) order
    else (seen, work :: order)

/-- `is_duplicate_event`. -/
def isDuplicateEvent (b : CompletionBuffer) (e : CompletionEvent) : Bool × CompletionBuffer :=
  if e.isSyntheticFailure then (false, b)
  else if e.identity ∈ b.seenIdentities then (true, b)
  else
    let (seen, order) :=
      evict maxSeen (e.identity :: b.seenIdentities) (b.seenIdentityOrder ++ [e.identity])
    (false, { b with seenIdentities := seen, seenIdentityOrder := order })

theorem mem_evict {order : List LogicalWorkIdentity} {work : LogicalWorkIdentity} :
    ∀ {seen : List LogicalWorkIdentity}, work ∈ (evict maxSeen seen order).1 → work ∈ seen := by
  induction order with
  | nil => intro seen h; exact h
  | cons a order ih =>
    intro seen h
    simp only [evict] at h
    split at h
    · exact (List.mem_filter.mp (ih h)).1
    · exact h

end CompletionBuffer

/-- What taking events in works on: the buffer, the registry and the events of the current poll. -/
structure Intake (κ π : Type) where
  buffer : CompletionBuffer
  registry : InFlightRegistry κ π
  completed : List CompletionEvent

namespace Intake

variable {κ π : Type} (maxSeen : Nat)

/-- Keep an event for a later poll. -/
def prefetch (i : Intake κ π) (e : CompletionEvent) : Intake κ π :=
  { i with
    buffer := { i.buffer with prefetchedEvents := i.buffer.prefetchedEvents ++ [e] }
    registry := i.registry.discardCompletion e }

/-- `prefetch_event`. -/
def prefetchEvent (i : Intake κ π) (e : CompletionEvent) : Intake κ π :=
  match i.buffer.isDuplicateEvent maxSeen e with
  | (true, buffer) => { i with buffer := buffer }
  | (false, buffer) => { i with buffer := buffer }.prefetch e

/-- The loop body of `poll_available`. -/
def pollEvent (limit : Nat) (i : Intake κ π) (e : CompletionEvent) : Intake κ π :=
  match i.buffer.isDuplicateEvent maxSeen e with
  | (true, buffer) => { i with buffer := buffer }
  | (false, buffer) =>
    if i.completed.length ≥ limit then { i with buffer := buffer }.prefetch e
    else
      { buffer := buffer
        registry := i.registry.discardCompletion e
        completed := i.completed ++ [e] }

/-- `poll_available` over the visible messages. `fits` says which messages can be decoded; the first
component is false when decoding raised. The second one is what is left of the queue. -/
def pollAvailable (fits : CompletionMessage κ → Bool) (limit : Nat) :
    List (CompletionMessage κ) → Intake κ π → Bool × List (CompletionMessage κ) × Intake κ π
  | [], i => (true, [], i)
  | m :: q, i =>
    if i.completed.length ≥ limit then (true, m :: q, i)
    else if fits m then pollAvailable fits limit q (m.events.foldl (pollEvent maxSeen limit) i)
    else (false, q, i)

/-! ## What is kept -/

/-- The event is a repetition, or it is kept and leaves the registry. -/
inductive Taken (i : Intake κ π) (e : CompletionEvent) : Intake κ π → Prop where
  | duplicate (hseen : e.identity ∈ i.buffer.seenIdentities) : Taken i e i
  | kept (i' : Intake κ π) (hregistry : i'.registry = i.registry.discardCompletion e)
      (hseen : ∀ work ∈ i'.buffer.seenIdentities, work = e.identity ∨ work ∈ i.buffer.seenIdentities)
      (hkept : (i'.buffer.prefetchedEvents = i.buffer.prefetchedEvents ++ [e] ∧ i'.completed = i.completed) ∨
        (i'.buffer.prefetchedEvents = i.buffer.prefetchedEvents ∧ i'.completed = i.completed ++ [e])) :
      Taken i e i'

theorem isDuplicateEvent_cases (b : CompletionBuffer) (e : CompletionEvent) :
    (b.isDuplicateEvent maxSeen e = (true, b) ∧ e.identity ∈ b.seenIdentities) ∨
      ∃ b', b.isDuplicateEvent maxSeen e = (false, b') ∧ b'.prefetchedEvents = b.prefetchedEvents ∧
        ∀ work ∈ b'.seenIdentities, work = e.identity ∨ work ∈ b.seenIdentities := by
  unfold CompletionBuffer.isDuplicateEvent
  split
  · exact .inr ⟨b, rfl, rfl, fun work h => .inr h⟩
  · split
    · rename_i h
      exact .inl ⟨rfl, h⟩
    · refine .inr ⟨_, rfl, rfl, fun work h => ?_⟩
      exact List.mem_cons.mp (CompletionBuffer.mem_evict maxSeen h)

theorem taken_prefetchEvent (i : Intake κ π) (e : CompletionEvent) : Taken i e (i.prefetchEvent maxSeen e) := by
  unfold prefetchEvent
  rcases isDuplicateEvent_cases maxSeen i.buffer e with ⟨hdup, hseen⟩ | ⟨b', hdup, hpre, hseen⟩
  · rw [hdup]
    exact .duplicate hseen
  · rw [hdup]
    exact .kept _ rfl hseen (.inl ⟨by simp [prefetch, hpre], rfl⟩)

theorem taken_pollEvent (limit : Nat) (i : Intake κ π) (e : CompletionEvent) :
    Taken i e (i.pollEvent maxSeen limit e) := by
  unfold pollEvent
  rcases isDuplicateEvent_cases maxSeen i.buffer e with ⟨hdup, hseen⟩ | ⟨b', hdup, hpre, hseen⟩
  · rw [hdup]
    exact .duplicate hseen
  · rw [hdup]
    dsimp only
    split
    · exact .kept _ rfl hseen (.inl ⟨by simp [prefetch, hpre], rfl⟩)
    · exact .kept _ rfl hseen (.inr ⟨hpre, rfl⟩)

/-- The identity has an event that waits or was polled just now. -/
def Shows (i : Intake κ π) (work : LogicalWorkIdentity) : Prop :=
  ∃ e ∈ i.buffer.prefetchedEvents ++ i.completed, e.identity = work

/-- Remembered identities are among `R`, those that were polled before, or are shown. -/
def Remembers (i : Intake κ π) (R : List LogicalWorkIdentity) : Prop :=
  ∀ work ∈ i.buffer.seenIdentities, work ∈ R ∨ i.Shows work

section Taken

variable {i i' : Intake κ π} {e : CompletionEvent} {work : LogicalWorkIdentity}
  {R : List LogicalWorkIdentity}

theorem Taken.mem_events (h : Taken i e i') {x : CompletionEvent} :
    x ∈ i'.buffer.prefetchedEvents ++ i'.completed →
      x ∈ i.buffer.prefetchedEvents ++ i.completed ∨ x = e := by
  cases h with
  | duplicate => exact .inl
  | kept _ _ _ hkept =>
    rcases hkept with ⟨hp, hc⟩ | ⟨hp, hc⟩
    · rw [hp, hc]; simp only [List.mem_append, List.mem_singleton]; tauto
    · rw [hp, hc]; simp only [List.mem_append, List.mem_singleton]; tauto

theorem Taken.shows (h : Taken i e i') (hs : i.Shows work) : i'.Shows work := by
  obtain ⟨x, hx, hwork⟩ := hs
  refine ⟨x, ?_, hwork⟩
  cases h with
  | duplicate => exact hx
  | kept _ _ _ hkept =>
    rcases hkept with ⟨hp, hc⟩ | ⟨hp, hc⟩
    · rw [hp, hc]; simp only [List.mem_append] at hx ⊢; tauto
    · rw [hp, hc]; simp only [List.mem_append] at hx ⊢; tauto

theorem Taken.shows_self (h : Taken i e i') (hr : i.Remembers R) : e.identity ∈ R ∨ i'.Shows e.identity := by
  cases h with
  | duplicate hseen => exact hr _ hseen
  | kept _ _ _ hkept =>
    refine .inr ⟨e, ?_, rfl⟩
    rcases hkept with ⟨hp, hc⟩ | ⟨hp, hc⟩
    · rw [hp]; simp
    · rw [hc]; simp

theorem Taken.remembers (h : Taken i e i') (hr : i.Remembers R) : i'.Remembers R := by
  intro work hwork
  have hself := h.shows_self hr
  cases h with
  | duplicate => exact hr work hwork
  | kept _ hregistry hseen hkept =>
    rcases hseen work hwork with rfl | hold
    · exact hself
    · exact (hr work hold).imp id (Taken.shows (.kept _ hregistry hseen hkept))

theorem Taken.registers (h : Taken i e i') (hreg : i.registry.Registers work) (hne : work ≠ e.identity) :
    i'.registry.Registers work := by
  cases h with
  | duplicate => exact hreg
  | kept _ hregistry =>
    rw [hregistry]
    exact InFlightRegistry.registers_discardCompletion hreg hne

theorem Taken.keyed (h : Taken i e i') (hk : i.registry.Keyed) : i'.registry.Keyed := by
  cases h with
  | duplicate => exact hk
  | kept _ hregistry =>
    rw [hregistry]
    exact InFlightRegistry.keyed_filter hk _

end Taken

/-! ## Several events -/

section TakeAll

variable {f : Intake κ π → CompletionEvent → Intake κ π} (hf : ∀ i e, Taken i e (f i e))
  {R : List LogicalWorkIdentity} {work : LogicalWorkIdentity}

include hf

theorem mem_events_takeAll {x : CompletionEvent} (l : List CompletionEvent) :
    ∀ {i : Intake κ π}, x ∈ (l.foldl f i).buffer.prefetchedEvents ++ (l.foldl f i).completed →
      x ∈ i.buffer.prefetchedEvents ++ i.completed ∨ x ∈ l := by
  induction l with
  | nil => intro i h; exact .inl h
  | cons e l ih =>
    intro i h
    rcases ih h with h | h
    · rcases (hf i e).mem_events h with h | rfl
      · exact .inl h
      · exact .inr List.mem_cons_self
    · exact .inr (List.mem_cons_of_mem _ h)

theorem shows_takeAll_of_shows (l : List CompletionEvent) :
    ∀ {i : Intake κ π}, i.Shows work → (l.foldl f i).Shows work := by
  induction l with
  | nil => intro i h; exact h
  | cons e l ih => intro i h; exact ih ((hf i e).shows h)

theorem remembers_takeAll (l : List CompletionEvent) :
    ∀ {i : Intake κ π}, i.Remembers R → (l.foldl f i).Remembers R := by
  induction l with
  | nil => intro i h; exact h
  | cons e l ih => intro i h; exact ih ((hf i e).remembers h)

theorem keyed_takeAll (l : List CompletionEvent) :
    ∀ {i : Intake κ π}, i.registry.Keyed → (l.foldl f i).registry.Keyed := by
  induction l with
  | nil => intro i h; exact h
  | cons e l ih => intro i h; exact ih ((hf i e).keyed h)

/-- After a message, each of its identities was polled before or is shown. -/
theorem shows_takeAll (l : List CompletionEvent) :
    ∀ {i : Intake κ π}, i.Remembers R → ∀ e ∈ l, e.identity ∈ R ∨ (l.foldl f i).Shows e.identity := by
  induction l with
  | nil => intro i _ e he; cases he
  | cons a l ih =>
    intro i hr e he
    rcases List.mem_cons.mp he with rfl | he
    · exact ((hf i e).shows_self hr).imp id (shows_takeAll_of_shows hf l)
    · exact ih ((hf i a).remembers hr) e he

theorem registers_takeAll (l : List CompletionEvent) :
    ∀ {i : Intake κ π}, i.registry.Registers work → (∀ e ∈ l, work ≠ e.identity) →
      (l.foldl f i).registry.Registers work := by
  induction l with
  | nil => intro i h _; exact h
  | cons e l ih =>
    intro i h hne
    exact ih ((hf i e).registers h (hne e List.mem_cons_self)) fun x hx => hne x (List.mem_cons_of_mem _ hx)

end TakeAll

theorem completed_prefetchAll (l : List CompletionEvent) :
    ∀ i : Intake κ π, (l.foldl (prefetchEvent maxSeen) i).completed = i.completed := by
  induction l with
  | nil => intro i; rfl
  | cons e l ih =>
    intro i
    rw [List.foldl_cons, ih]
    unfold prefetchEvent
    split <;> rfl

/-- While everything decodes, a poll takes in the events of some of the oldest messages. -/
theorem pollAvailable_eq {fits : CompletionMessage κ → Bool} (limit : Nat) (q : List (CompletionMessage κ)) :
    ∀ i : Intake κ π, (∀ m ∈ q, fits m = true) →
      ∃ taken rest, q = taken ++ rest ∧ pollAvailable maxSeen fits limit q i =
        (true, rest, (taken.flatMap (·.events)).foldl (pollEvent maxSeen limit) i) := by
  induction q with
  | nil => intro i _; exact ⟨[], [], rfl, rfl⟩
  | cons m q ih =>
    intro i hfits
    simp only [pollAvailable]
    split
    · exact ⟨[], m :: q, rfl, rfl⟩
    · rw [if_pos (hfits m List.mem_cons_self)]
      obtain ⟨taken, rest, rfl, heq⟩ := ih (m.events.foldl (pollEvent maxSeen limit) i)
        fun m' hm' => hfits m' (List.mem_cons_of_mem _ hm')
      refine ⟨m :: taken, rest, rfl, ?_⟩
      rw [heq, List.flatMap_cons, List.foldl_append]

end Intake

end PyrallelConsumer
