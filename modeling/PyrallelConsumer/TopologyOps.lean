import PyrallelConsumer.WorkExclusion

/-!
# PyrallelConsumer.TopologyOps

The operations of the work manager as seen by its queue topology. Outside `schedule` they reach it through
four of its operations only, and the poison circuit through maps.

* `TopologyOps` — what these keep. `topology_next` — a step of a run keeps it then.
-/

set_option linter.unusedSectionVars false

namespace PyrallelConsumer

open WorkQueueTopology WorkManager

variable {κ π : Type} [DecidableEq κ]

/-- What the operations of the topology keep of it and of the circuit `p`. `ok` holds of the groups that
are submitted. -/
structure TopologyOps (ok : QueueKey κ → List (QueuedMessage κ π) → Prop)
    (J : Option (PoisonMessageCircuitBreaker κ) → WorkQueueTopology κ π → Prop) : Prop where
  circuit : ∀ {p q} f, J p q → J (p.map f) q
  assign : ∀ {p q tp}, J p q → ¬ q.assigned tp → J p (q.assign tp)
  revoke : ∀ {p q} tp, J p q → J p (q.revoke tp).2
  cleanup : ∀ {p q} tp key, J p q → J p (q.cleanupEmptyQueue tp key)
  enqueue : ∀ {p q} {k : QueueKey κ} {messages : List (QueuedMessage κ π)} {items : List (WorkItem κ π)}, J p q →
    q.assigned k.1 → ok k messages → items.map (·.offset) = messages.map (·.offset) →
      J p (q.enqueueBatch k.1 k.2 items)

namespace WorkManager

section Runs

/-- `J` of the circuit and the topology of a state. -/
abbrev Has (J : Option (PoisonMessageCircuitBreaker κ) → WorkQueueTopology κ π → Prop) (s : WorkManager κ π) : Prop :=
  J s.poisonMessageCircuit s.queueTopology

variable {ok : QueueKey κ → List (QueuedMessage κ π) → Prop}
  {J : Option (PoisonMessageCircuitBreaker κ) → WorkQueueTopology κ π → Prop}
  (hops : TopologyOps ok J) {c : WorkManagerConfig}

include hops

theorem topology_releaseInFlightItem {s : WorkManager κ π} (h : Has J s) (id : WorkId)
    (reschedule : Bool) : Has J (releaseInFlightItem c s id reschedule).2 := by
  unfold releaseInFlightItem
  split
  · exact h
  · rename_i item _
    dsimp only
    split
    · obtain ⟨_, _, _, _, heq⟩ := releaseOrderingLock_eq c _ item
      rw [heq]
      exact hops.cleanup _ _ h
    · exact hops.cleanup _ _ h

theorem topology_recordCompletion {s : WorkManager κ π} (h : Has J s) (env : Env κ π) (e : CompletionEvent)
    (item : WorkItem κ π) : Has J (s.recordCompletion env e item) := by
  unfold recordCompletion
  split
  · exact h
  · rename_i circuit hc
    have hsome := hops.circuit (fun circuit => circuit.recordCompletion (env.clock s.clockReads) e item) h
    rw [hc] at hsome
    exact hsome

theorem topology_processCompletionEvent {s : WorkManager κ π} (h : Has J s) (env : Env κ π)
    (e : CompletionEvent) : Has J (s.processCompletionEvent c env e).2 := by
  unfold processCompletionEvent
  dsimp only
  split
  · exact h
  · rename_i r _
    split
    · split
      · split
        · exact topology_releaseInFlightItem hops (s := s.record (.processed e)) h e.id true
        · exact h
      · exact h
    · have hmark : Has J (if e.tp ∈ (s.record (.processed e)).sharedOffsetTrackers then s.record (.processed e)
          else ((s.record (.processed e)).modifyTracker r
            (·.markComplete e.offset)).invalidateBlockingCache) := by
        split
        · exact h
        · exact h
      split
      · exact hmark
      · rename_i item _
        exact topology_releaseInFlightItem hops (topology_recordCompletion hops hmark env e item) e.id false

theorem topology_processAll (env : Env κ π) (events : List CompletionEvent) :
    ∀ {s : WorkManager κ π}, Has J s → Has J (s.processAll c env events).2 := by
  induction events with
  | nil => intro s h; exact h
  | cons e events ih => intro s h; exact ih (topology_processCompletionEvent hops h env e)

theorem topology_pollLoop {env : Env κ π} (henv : env.AcceptsPrefix)
    (hschedule : ∀ s : WorkManager κ π, Has J s → QueueInv s.view →
      Has J (s.schedule c env)) (after : Bool) (fuel : Nat) :
    ∀ (s : WorkManager κ π) (completed : List CompletionEvent), Has J s → WorkInv c s.view →
      Has J (pollLoop c env after fuel s completed).2 := by
  have hstep : ∀ v v' : WorkView κ π, WorkInv c v → WorkStep c (fun _ _ => True) v v' →
      WorkInv c v' := fun _ _ hv hs => hv.step hs
  induction fuel with
  | zero => intro s completed h _; exact h
  | succ fuel ih =>
    intro s completed h hw
    have hr1 := topology_processAll hops (c := c) env s.completionQueue
      (s := { s with completionQueue := [] }) h
    have hw1 := (processAll_steps hstep (Reports.all c _) (fun _ hv => hv.filed) env
      s.completionQueue _ (setCompletionQueue_step hstep hw []) fun _ _ => trivial).1
    simp only [pollLoop]
    split
    · exact hr1
    · have hr2 := hschedule _ hr1 hw1.queues
      split
      · exact hr2
      · exact ih _ _ hr2 (schedule_steps hstep henv hw1)

theorem topology_onAssign (l : List (TopicPartition × TrackerOrOffset)) :
    ∀ s : WorkManager κ π, Has J s → (l.map Prod.fst).Nodup →
      (∀ e ∈ l, ¬ s.queueTopology.assigned e.1) → Has J (l.foldl (assignOne c) s) := by
  induction l with
  | nil => intro s h _ _; exact h
  | cons e l ih =>
    intro s h hn hfree
    obtain ⟨he, hn⟩ := List.nodup_cons.mp hn
    have hcircuit : (assignOne c s e).poisonMessageCircuit = s.poisonMessageCircuit := by
      unfold assignOne
      cases e.2 <;> rfl
    have htopology : (assignOne c s e).queueTopology = s.queueTopology.assign e.1 := by
      unfold assignOne
      cases e.2 <;> rfl
    refine ih _ ?_ hn fun e' he' => ?_
    · rw [Has, hcircuit, htopology]
      exact hops.assign h (hfree e List.mem_cons_self)
    · rw [htopology, assigned_assign, not_or]
      refine ⟨fun heq => he ?_, hfree e' (List.mem_cons_of_mem _ he')⟩
      rw [heq]
      exact List.mem_map_of_mem he'

theorem topology_onRevoke {s : WorkManager κ π} (h : Has J s) (tps : List TopicPartition) :
    Has J (s.onRevoke c tps) := by
  have hrevoke : ∀ (l : List TopicPartition) (t : WorkManager κ π), Has J t →
      Has J (l.foldl revokeOne t) := by
    intro l
    induction l with
    | nil => intro t ht; exact ht
    | cons tp l ih => intro t ht; exact ih _ (hops.revoke tp (hops.circuit (·.clearPartition tp) ht))
  refine onRevoke_induction c (hrevoke tps s h) (fun t id ht => ?_) (fun _ ht => ht) (fun _ ht => ht)
  exact topology_releaseInFlightItem hops ht id false

omit hops in
theorem circuit_createItems (tp : TopicPartition) (key : κ) (messages : List (QueuedMessage κ π)) :
    ∀ s : WorkManager κ π,
      (createItems tp key s messages).2.poisonMessageCircuit = s.poisonMessageCircuit := by
  induction messages with
  | nil => intro s; rfl
  | cons m messages ih => intro s; exact ih (submitOne tp key s m).2

omit hops in
theorem offsets_createItems (k : QueueKey κ) (messages : List (QueuedMessage κ π)) :
    ∀ s : WorkManager κ π,
      (createItems k.1 k.2 s messages).1.map (·.offset) = messages.map (·.offset) := by
  induction messages with
  | nil => intro s; rfl
  | cons m messages ih =>
    intro s
    simp only [createItems, List.map_cons, ih]
    rfl

theorem topology_submitGroups (groups : List (QueueKey κ × List (QueuedMessage κ π))) :
    ∀ (s : WorkManager κ π) (d : Dict TopicPartition Int), Has J s → (∀ g ∈ groups, ok g.1 g.2) →
      Has J (s.submitGroups d groups).1 := by
  induction groups with
  | nil => intro s d h _; exact h
  | cons g groups ih =>
    intro s d h hok
    obtain ⟨k, messages⟩ := g
    simp only [submitGroups]
    split
    · rename_i hk
      refine ih _ _ ?_ fun g hg => hok g (List.mem_cons_of_mem _ hg)
      have hc := (createItems_spec k messages s).queueTopology
      show J (createItems k.1 k.2 s messages).2.poisonMessageCircuit
        ((createItems k.1 k.2 s messages).2.queueTopology.enqueueBatch k.1 k.2 _)
      rw [circuit_createItems, hc]
      exact hops.enqueue h hk (hok (k, messages) List.mem_cons_self) (offsets_createItems k messages s)
    · exact h

theorem topology_submitMessageBatch {groups : List (QueueKey κ × List (QueuedMessage κ π))}
    {s : WorkManager κ π} (h : Has J s) (hok : ∀ g ∈ groups, ok g.1 g.2) :
    Has J (s.submitMessageBatch groups).1 := by
  have hupdate : ∀ (l : List (TopicPartition × Int)) (t : WorkManager κ π), Has J t →
      Has J (l.foldl updateLastFetched t) := by
    intro l
    induction l with
    | nil => intro t ht; exact ht
    | cons e l ih =>
      intro t ht
      refine ih _ ?_
      unfold updateLastFetched
      split
      · exact ht
      · exact ht
  have hall := topology_submitGroups hops groups s .empty h hok
  unfold submitMessageBatch
  split
  · rename_i s₁ e heq
    rw [heq] at hall
    exact hall
  · rename_i s₁ d heq
    rw [heq] at hall
    split
    · exact hall
    · exact hupdate d.entries s₁ hall

theorem topology_forceFail {s : WorkManager κ π} (h : Has J s) (tp : TopicPartition) (offset epoch : Int)
    (error : String) (attempt : Int) : Has J (s.forceFail tp offset epoch error attempt).2 := by
  unfold forceFail
  dsimp only
  split
  · exact h
  · split
    · exact h
    · exact h

/-- A step of a run whose submitted groups are `ok` keeps `J`, when its scheduling calls do. -/
theorem topology_next {s : WorkManager κ π} {a : WorkAction κ π} (hw : WorkInv c s.view) (h : Has J s)
    (he : (workMachine κ π c).enabled s a) (hok : ∀ groups, a = .submit groups → ∀ g ∈ groups, ok g.1 g.2)
    (hschedule : ∀ env : Env κ π, (a = .schedule env ∨ ∃ events after, a = .poll env events after) →
      ∀ t : WorkManager κ π, Has J t → QueueInv t.view → Has J (t.schedule c env)) :
    Has J ((workMachine κ π c).next s a) := by
  cases a with
  | newTracker t => exact h
  | mutateTracker r t => exact h
  | assign l =>
    refine topology_onAssign hops l s h he.1 fun e hel hassigned => ?_
    have hsome := (hw.queues.tracked e.1).mpr hassigned
    simp only [view, epochOf, he.2 e hel] at hsome
    cases hsome
  | revoke tps => exact topology_onRevoke hops h tps
  | submit groups => exact topology_submitMessageBatch hops h (hok groups rfl)
  | schedule env => exact hschedule env (.inl rfl) s h hw.queues
  | poll env events after =>
    refine topology_pollLoop hops he (hschedule env (.inr ⟨events, after, rfl⟩)) after _ _ _ h ?_
    exact setCompletionQueue_step (fun _ _ hv (hs : WorkStep c (fun _ _ => True) _ _) => hv.step hs) hw _
  | forceFail tp offset epoch error attempt => exact topology_forceFail hops h tp offset epoch error attempt

end Runs

end WorkManager

end PyrallelConsumer
