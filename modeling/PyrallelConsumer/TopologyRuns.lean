import PyrallelConsumer.ScheduleIterations

/-!
# PyrallelConsumer.TopologyRuns

The queue topology in runs of the work manager, with a poison circuit and any answers of the engine.

* `topology_reachable` — what the operations of the topology and a scheduling call keep
  holds in every run.
* `order_reachable` — the runnable keys and the head offsets are exact in every run.
* `topology_invariant` — where one offset of a partition always carries the same key and no empty group
  is submitted, all four indexes are exact and no empty queue is kept.
-/

set_option linter.unusedSectionVars false

namespace PyrallelConsumer

open WorkQueueTopology WorkManager

variable {κ π : Type} [DecidableEq κ]

/-- A `for` loop over a set takes every member once. -/
def Env.IteratesSets (env : Env κ π) : Prop := ∀ l, (env.setOrder l).Perm l

/-- A step whose submitted groups are `ok` and whose sets are iterated in some order. -/
def TopologyStep (ok : QueueKey κ → List (QueuedMessage κ π) → Prop) (_s : WorkManager κ π)
    (a : WorkAction κ π) : Prop :=
  match a with
  | .submit groups => ∀ g ∈ groups, ok g.1 g.2
  | .schedule env => env.IteratesSets
  | .poll env _ _ => env.IteratesSets
  | _ => True

/-- What the operations of the topology and a scheduling call keep holds in every run. -/
theorem topology_reachable {ok : QueueKey κ → List (QueuedMessage κ π) → Prop}
    {J : WorkQueueTopology κ π → Prop} (hops : TopologyOps ok fun _ => J) (hnew : J .new) {c : WorkManagerConfig}
    (hschedule : ∀ (env : Env κ π) (s : WorkManager κ π), env.IteratesSets → J s.queueTopology → Routed s →
      J (s.schedule c env).queueTopology) {s : WorkManager κ π}
    (h : (workMachine κ π c).ReachableBy (TopologyStep ok) s) : WorkInv c s.view ∧ J s.queueTopology := by
  refine (workMachine κ π c).invariant (I := fun s => WorkInv c s.view ∧ J s.queueTopology) ?_ ?_ h
  · rintro s ⟨circuit, rfl⟩
    exact ⟨workInv_new c circuit, hnew⟩
  · rintro s a ⟨hw, hj⟩ he hstep
    refine ⟨next_induction (fun _ _ hv hs => hv.step hs) (Reports.all c _)
      (fun _ hv => hv.filed) (fun _ hv => hv.queues.tracked) hw he
      fun _ _ _ _ _ _ => trivial, ?_⟩
    refine topology_next hops hw hj he (fun groups ha => ?_) fun env ha t ht hq => ?_
    · subst ha
      exact hstep
    · have hsets : env.IteratesSets := by
        rcases ha with rfl | ⟨events, after, rfl⟩
        · exact hstep
        · exact hstep
      exact hschedule env t hsets ht (routed_of_queueInv hq)

/-! ## The indexes -/

section Indexes

variable {K : TopicPartition → Int → κ → Prop} {c : WorkManagerConfig} {s : WorkManager κ π}

/-- The messages of a group come under its key. -/
def KeyedGroup (K : TopicPartition → Int → κ → Prop) (k : QueueKey κ) (messages : List (QueuedMessage κ π)) : Prop :=
  ∀ m ∈ messages, K k.1 m.offset k.2

theorem keyed_items {k : QueueKey κ} {messages : List (QueuedMessage κ π)} {items : List (WorkItem κ π)}
    (hk : KeyedGroup K k messages) (hitems : items.map (·.offset) = messages.map (·.offset)) :
    ∀ x ∈ items, K k.1 x.offset k.2 := by
  intro x hx
  have hmem : x.offset ∈ messages.map (·.offset) := hitems ▸ List.mem_map_of_mem hx
  obtain ⟨m, hm, heq⟩ := List.mem_map.mp hmem
  rw [← heq]
  exact hk m hm

theorem exact_schedule {env : Env κ π} (henv : env.IteratesSets) (h : ExactIndex.All K s.queueTopology)
    (hroute : Routed s) : ExactIndex.All K (s.schedule c env).queueTopology := by
  obtain ⟨s₁, d₁, s', d', -, hloop, hstop, heq⟩ := schedule_ends (c := c) env h hroute
  have hlast := looping_step (c := c) env (s.cachedBlockingOffsets c).1 hloop
  rw [hstop] at hlast
  rw [heq]
  refine (exact_reactivateAll (env.setOrder d') hlast.exact).restore (fun _ hj => hj.elim) fun j hj _ => ?_
  exact absurd ((henv d').mem_iff.mpr hj.1) hj.2

/-- An offset may come under any key. -/
def AnyKey (_tp : TopicPartition) (_o : Int) (_key : κ) : Prop := True

theorem order_ops :
    TopologyOps (fun _ _ => True) (fun _ => (ExactIndex.All AnyKey : WorkQueueTopology κ π → Prop)) where
  circuit := fun _ h => h
  assign := exact_assign
  revoke := fun tp h => exact_revoke h tp
  cleanup := fun tp key h => exact_cleanupEmptyQueue h tp key
  enqueue := fun h ha _ _ => exact_enqueueBatch h ha fun _ _ => trivial

/-- The order and the head offsets are exact in every run. -/
theorem order_reachable (h : (workMachine κ π c).ReachableBy (TopologyStep fun _ _ => True) s) :
    WorkInv c s.view ∧ ExactIndex.All AnyKey s.queueTopology :=
  topology_reachable order_ops (exact_new AnyKey) (fun _ _ henv hj hroute => exact_schedule henv hj hroute) h

theorem kept_step (env : Env κ π) (b : Dict TopicPartition (Option OffsetRange)) {d : List (QueueKey κ)}
    (hloop : Looping K s d) (h : Kept s.queueTopology) : Kept (s.scheduleStep c env b d).2.1.queueTopology := by
  rcases scheduleStep_served (c := c) hloop.pickable hloop.routed env b d with
    ⟨-, heq⟩ | ⟨r, heq, -⟩ | ⟨k, r, a, x, l, -, hq, hs⟩
  · rw [heq]
    exact h
  · rw [heq]
    exact kept_of_same h rfl
  · exact kept_served h hq hs

theorem kept_schedule (env : Env κ π) (hexact : ExactIndex.All K s.queueTopology) (hroute : Routed s)
    (h : Kept s.queueTopology) : Kept (s.schedule c env).queueTopology := by
  obtain ⟨s₁, d₁, s', d', hsteps, hloop, hstop, heq⟩ := schedule_ends (c := c) env hexact hroute
  obtain ⟨heap, cache, counter, hcached⟩ := cachedBlockingOffsets_eq c s
  have h₀ := looping_entry (c := c) hexact hroute
  have hkept : Kept s₁.queueTopology := by
    clear hloop hstop heq
    induction hsteps with
    | refl =>
      rw [hcached]
      exact h
    | tail hsteps hstep ih =>
      have := kept_step (c := c) env (s.cachedBlockingOffsets c).1 (looping_steps hsteps h₀) ih
      rw [hstep] at this
      exact this
  have hlast := kept_step (c := c) env (s.cachedBlockingOffsets c).1 hloop hkept
  rw [hstop] at hlast
  obtain ⟨q, hq, hsame⟩ := reactivateAll_eq (env.setOrder d') s'
  rw [heq, hq]
  exact kept_of_same hlast hsame

/-- The messages of a group come under its key, and there are some. -/
def FullGroup (K : TopicPartition → Int → κ → Prop) (k : QueueKey κ) (messages : List (QueuedMessage κ π)) : Prop :=
  messages ≠ [] ∧ KeyedGroup K k messages

theorem kept_ops (K : TopicPartition → Int → κ → Prop) :
    TopologyOps (FullGroup K) (fun _ (q : WorkQueueTopology κ π) => ExactIndex.All K q ∧ Kept q) where
  circuit := fun _ h => h
  assign := fun h hn => ⟨exact_assign h.1 hn, kept_assign h.2 _⟩
  revoke := fun tp h => ⟨exact_revoke h.1 tp, kept_revoke h.2 tp⟩
  cleanup := fun tp key h => by
    rw [cleanupEmptyQueue_of_kept h.2]
    exact h
  enqueue := fun h ha hg hitems => by
    refine ⟨exact_enqueueBatch h.1 ha (keyed_items hg.2 hitems), kept_enqueueBatch h.2 ha _ ?_⟩
    rintro rfl
    exact hg.1 (List.map_eq_nil_iff.mp hitems.symm)

/-- The four indexes, read against the map of the queues. -/
structure TopologyInvariant (q : WorkQueueTopology κ π) : Prop where
  nodup : q.runnableQueueKeys.Nodup
  active : ∀ k, k ∈ q.activeRunnableQueueKeys ↔ k ∈ q.runnableQueueKeys
  runnable : ∀ k, k ∈ q.runnableQueueKeys ↔ ∃ x l, q.getQueue k.1 k.2 = some (x :: l)
  headOffsets : ∀ k o, q.headOffsets.get? k = some o ↔ ∃ x l, q.getQueue k.1 k.2 = some (x :: l) ∧ x.offset = o
  inverse : ∀ tp o k, q.headQueueKeysByOffset.get? (tp, o) = some k ↔ k.1 = tp ∧ q.headOffsets.get? k = some o
  kept : ∀ tp key, q.getQueue tp key ≠ some []

theorem headOf_eq_some_iff {q : WorkQueueTopology κ π} {k : QueueKey κ} {x : WorkItem κ π} :
    q.headOf k = some x ↔ ∃ l, q.getQueue k.1 k.2 = some (x :: l) := by
  constructor
  · intro hx
    have hmem := mem_queueOf_of_headOf hx
    have hgot := getQueue_of_queueOf_ne_nil (List.ne_nil_of_mem hmem)
    rw [headOf] at hx
    cases hq : q.queueOf k.1 k.2 with
    | nil => rw [hq] at hx; cases hx
    | cons y l =>
      rw [hq] at hx hgot
      cases hx
      exact ⟨l, hgot⟩
  · rintro ⟨l, hgot⟩
    rw [headOf, queueOf_eq_of_getQueue hgot]
    rfl

theorem invariant_of_exact {q : WorkQueueTopology κ π} (hK : OneKey K) (h : ExactIndex.All K q) (hkept : Kept q) :
    TopologyInvariant q where
  nodup := h.nodup
  active := h.active
  runnable := by
    intro k
    rw [h.runnable, and_iff_right not_false, ← Option.isSome_iff_ne_none, Option.isSome_iff_exists]
    exact exists_congr fun x => headOf_eq_some_iff
  headOffsets := by
    intro k o
    rw [h.head, and_iff_right not_false, Option.map_eq_some_iff]
    refine exists_congr fun x => ?_
    rw [headOf_eq_some_iff]
    exact exists_and_right.symm
  inverse := h.byOffset hK
  kept := hkept

/-- **In every run of non-empty groups in which an offset of a partition always carries the key `keyOf`
gives it, the indexes of the queue topology are exact and no empty queue is kept.** -/
theorem topology_invariant (keyOf : TopicPartition → Int → κ)
    (h : (workMachine κ π c).ReachableBy (TopologyStep (FullGroup fun tp o key => keyOf tp o = key)) s) :
    TopologyInvariant s.queueTopology := by
  obtain ⟨-, hexact, hkept⟩ := topology_reachable (kept_ops _) ⟨exact_new _, kept_new⟩
    (fun env t henv hj hroute => ⟨exact_schedule henv hj.1 hroute, kept_schedule env hj.1 hroute hj.2⟩) h
  exact invariant_of_exact (fun _ _ _ _ h1 h2 => h1.symm.trans h2) hexact hkept

end Indexes

section Examples

def batchesOfTwo : WorkManagerConfig := { routeBatchSize := 2, routeBatchSize_pos := Nat.le_succ 1 }

def firstFailureOpens : PoisonMessageCircuitBreaker Nat :=
  { enabled := true, failureThreshold := 1, cooldown := 10, forcedFailureAttempt := 1, states := .empty }

/-- Poison key 8 fails once. Then a batch of two is cut short before an item with that poison key. -/
def cutBatch : List (WorkAction Nat Unit) :=
  [.assign [(⟨"t", 0⟩, .offset 4)],
   .submit [((⟨"t", 0⟩, 2), [⟨4, 0, (), some 8⟩])],
   .schedule (acceptingEnv Nat Unit),
   .poll (acceptingEnv Nat Unit)
     [{ id := .uuid 0, tp := ⟨"t", 0⟩, offset := 4, epoch := 0, status := .failure, error := none, attempt := 1 }]
     false,
   .submit [((⟨"t", 0⟩, 1), [⟨5, 0, (), some 7⟩, ⟨6, 0, (), some 8⟩])],
   .schedule (acceptingEnv Nat Unit)]

def cutBatchState : WorkManager Nat Unit :=
  (workMachine Nat Unit batchesOfTwo).run (.new (some firstFailureOpens)) cutBatch

theorem iteratesSets_acceptingEnv : (acceptingEnv Nat Unit).IteratesSets := fun l => .refl l

theorem topology_invariant_cutBatch :
    cutBatchState.queueTopology.runnableQueueKeys = [(⟨"t", 0⟩, 1)] ∧
      TopologyInvariant cutBatchState.queueTopology := by
  refine ⟨by decide, topology_invariant (c := batchesOfTwo) (fun _ o => if o = 4 then 2 else 1) ?_⟩
  refine (workMachine Nat Unit batchesOfTwo).reachableBy_run _ (.start ⟨_, rfl⟩) ?_
  refine ⟨⟨by decide, by decide⟩, trivial, trivial, ?_, acceptsPrefix_acceptingEnv, iteratesSets_acceptingEnv,
    acceptsPrefix_acceptingEnv, iteratesSets_acceptingEnv, trivial, ?_, acceptsPrefix_acceptingEnv,
    iteratesSets_acceptingEnv, trivial⟩
  · intro g hg
    cases List.mem_singleton.mp hg
    refine ⟨List.cons_ne_nil _ _, fun m hm => ?_⟩
    cases List.mem_singleton.mp hm
    rfl
  · intro g hg
    cases List.mem_singleton.mp hg
    refine ⟨List.cons_ne_nil _ _, fun m hm => ?_⟩
    rcases List.mem_cons.mp hm with rfl | hm
    · rfl
    · cases List.mem_singleton.mp hm
      rfl

end Examples

end PyrallelConsumer
