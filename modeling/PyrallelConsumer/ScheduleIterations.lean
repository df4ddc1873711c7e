import PyrallelConsumer.ExactIndex
import PyrallelConsumer.IndexRuns

/-!
# PyrallelConsumer.ScheduleIterations

The iterations of the scheduling loop, with a poison circuit. An iteration that gets as far as the engine
waits there with an `Offer`.

* `offer` — the engine call of an iteration; `scheduleStep_offer` — the iteration goes on from there.
* `Served`, `scheduleStep_served` — what an iteration leaves of the queue it picked and of its indexes.
* `LoopSteps` — the iterations of a call that go round again.
-/

set_option linter.unusedSectionVars false

namespace PyrallelConsumer

open WorkQueueTopology

variable {κ π : Type} [DecidableEq κ]

/-- The key `k` was taken out of the order, which became `r`, and out of the active set, which became
`a`. -/
structure Taken (q : WorkQueueTopology κ π) (k : QueueKey κ) (r a : List (QueueKey κ)) : Prop where
  runnable : k ∈ q.runnableQueueKeys
  gone : k ∉ r
  inactive : k ∉ a
  nodup : r.Nodup
  order : ∀ j, j ≠ k → (j ∈ r ↔ j ∈ q.runnableQueueKeys)
  active : ∀ j, j ≠ k → (j ∈ a ↔ j ∈ q.activeRunnableQueueKeys)

/-- An iteration before its engine call. -/
structure Offer (κ π : Type) where
  key : QueueKey κ
  head : WorkItem κ π
  rest : List (WorkItem κ π)
  lease : List (WorkItem κ π)
  truncated : Bool
  state : WorkManager κ π

namespace WorkManager

section Offers

variable (c : WorkManagerConfig) (env : Env κ π)

/-- The engine call of `serveQueue`. -/
def leaseOffer (s : WorkManager κ π) (k : QueueKey κ) (head : WorkItem κ π) (rest : List (WorkItem κ π)) :
    Option (Offer κ π) :=
  let items := (head :: rest).take (s.resolveRouteBatchLimit c)
  if items = [] then none
  else
    match s.forceFailQueuedItem env head k with
    | (true, _) => none
    | (false, s) =>
      match s.truncateBatchBeforeForceFail env items with
      | ([], _) => none
      | (x :: lease, s) => some ⟨k, head, rest, x :: lease, (x :: lease).length < items.length, s⟩

/-- The engine call of an iteration, if it makes one. -/
def offer (b : Dict TopicPartition (Option OffsetRange)) (s : WorkManager κ π) : Option (Offer κ π) :=
  if (s.currentInFlightCount : Int) ≥ c.maxInFlightMessages then none
  else if s.rebalancing then none
  else
    match s.pickQueueKey c b with
    | (none, _) => none
    | (some k, s) =>
      match s.queueTopology.getQueue k.1 k.2 with
      | none | some [] => none
      | some (head :: rest) => s.leaseOffer c env k head rest

end Offers

variable {c : WorkManagerConfig} {env : Env κ π} {b : Dict TopicPartition (Option OffsetRange)}

theorem serveQueue_offer {s : WorkManager κ π} {k : QueueKey κ} {head : WorkItem κ π}
    {rest : List (WorkItem κ π)} {o : Offer κ π} (h : s.leaseOffer c env k head rest = some o)
    (d : List (QueueKey κ)) :
    s.serveQueue c env d k head rest =
      o.state.submitLease c env d o.key (o.head :: o.rest) o.head o.lease o.truncated := by
  obtain ⟨forced, s₁, hforce⟩ : ∃ forced s₁, s.forceFailQueuedItem env head k = (forced, s₁) := ⟨_, _, rfl⟩
  obtain ⟨lease, s₂, htrunc⟩ : ∃ lease s₂, s₁.truncateBatchBeforeForceFail env
      ((head :: rest).take (s.resolveRouteBatchLimit c)) = (lease, s₂) := ⟨_, _, rfl⟩
  unfold leaseOffer at h
  unfold serveQueue
  dsimp only at h ⊢
  by_cases hne : (head :: rest).take (s.resolveRouteBatchLimit c) = []
  · rw [if_pos hne] at h
    cases h
  · rw [if_neg hne, hforce] at h ⊢
    cases forced with
    | true => cases h
    | false =>
      dsimp only at h ⊢
      rw [htrunc] at h ⊢
      cases lease with
      | nil => cases h
      | cons x lease =>
        cases h
        rfl

/-- From its engine call an iteration goes on as `submitLease`. -/
theorem scheduleStep_offer {s : WorkManager κ π} {o : Offer κ π} (h : s.offer c env b = some o)
    (d : List (QueueKey κ)) :
    s.scheduleStep c env b d =
      o.state.submitLease c env d o.key (o.head :: o.rest) o.head o.lease o.truncated := by
  obtain ⟨picked, s₁, hpick⟩ : ∃ picked s₁, s.pickQueueKey c b = (picked, s₁) := ⟨_, _, rfl⟩
  unfold offer at h
  unfold scheduleStep
  by_cases hfull : (s.currentInFlightCount : Int) ≥ c.maxInFlightMessages
  · rw [if_pos hfull] at h
    cases h
  by_cases hreb : s.rebalancing = true
  · rw [if_neg hfull, if_pos hreb] at h
    cases h
  rw [if_neg hfull, if_neg hreb, hpick] at h ⊢
  cases picked with
  | none => cases h
  | some k =>
    dsimp only at h ⊢
    cases hq : s₁.queueTopology.getQueue k.1 k.2 with
    | none =>
      rw [hq] at h
      cases h
    | some queue =>
      rw [hq] at h
      cases queue with
      | nil => cases h
      | cons head rest => exact serveQueue_offer h d

/-! ## Picking -/

theorem pickBlocking_taken {e : QueueKey κ → Bool} {q q' : WorkQueueTopology κ π} {k : QueueKey κ}
    (h : Pickable q) (hpick : q.pickBlockingQueueKey e b = (some k, q')) :
    ∃ r a, q' = q.withOrder r a ∧ Taken q k r a := by
  have hactive := pickBlocking_active hpick
  unfold pickBlockingQueueKey at hpick
  split at hpick
  · cases hpick
  · cases hpick
    refine ⟨_, _, rfl, (h.active k).mp hactive, fun hm => (mem_discardKey.mp hm).2 rfl,
      fun hm => (mem_discardKey.mp hm).2 rfl, h.nodup.filter _, ?_, ?_⟩
    · exact fun j hj => mem_discardKey.trans (and_iff_left hj)
    · exact fun j hj => mem_discardKey.trans (and_iff_left hj)

/-- No key that may run is left, or one is taken out. -/
theorem pickQueueKey_taken {s : WorkManager κ π} (h : Pickable s.queueTopology)
    (b : Dict TopicPartition (Option OffsetRange)) :
    (∃ r, r.Perm s.queueTopology.runnableQueueKeys ∧
      s.pickQueueKey c b =
        (none, { s with queueTopology := { s.queueTopology with runnableQueueKeys := r } }) ∧
      ∀ j ∈ s.queueTopology.runnableQueueKeys, s.isQueueEligible c j = false) ∨
    (∃ k r a, s.pickQueueKey c b = (some k, { s with queueTopology := s.queueTopology.withOrder r a }) ∧
      Taken s.queueTopology k r a) := by
  unfold pickQueueKey
  split
  · rename_i k q' hpick
    obtain ⟨r, a, rfl, htaken⟩ := pickBlocking_taken h hpick
    exact .inr ⟨k, r, a, rfl, htaken⟩
  · rename_i q' hpick
    have hq' := pickBlocking_none hpick
    subst hq'
    unfold pickNextRunnableQueueKey
    rcases pickNext_spec (s.isQueueEligible c) _ s.queueTopology h (le_refl _) with
      ⟨r, hperm, hpick, hall⟩ | ⟨pre, k, post, hq, hpre, he, hpick⟩
    · left
      refine ⟨r, hperm, by rw [hpick], fun j hj => hall j ?_⟩
      rw [List.take_length]
      exact hj
    · right
      rw [hpick]
      have hnodup := h.nodup
      rw [hq] at hnodup
      obtain ⟨hk, hsplit⟩ := List.nodup_cons.mp (List.nodup_middle.mp hnodup)
      refine ⟨k, _, _, rfl, by rw [hq]; simp, ?_, fun hm => (mem_discardKey.mp hm).2 rfl,
        List.perm_append_comm.nodup_iff.mp hsplit, ?_, ?_⟩
      · rw [List.mem_append, or_comm, ← List.mem_append]
        exact hk
      · intro j hj
        rw [hq]
        simp only [List.mem_append, List.mem_cons, hj, false_or]
        exact or_comm
      · exact fun j hj => mem_discardKey.trans (and_iff_left hj)

/-! ## The poison circuit -/

theorem shouldForceFail_eq (env : Env κ π) (s : WorkManager κ π) (x : WorkItem κ π) :
    ∃ circuit n, (s.shouldForceFail env x).2 =
      { s with poisonMessageCircuit := circuit, clockReads := n } := by
  unfold shouldForceFail
  split
  · exact ⟨_, _, rfl⟩
  · exact ⟨_, _, rfl⟩

theorem shouldForceFail_again {s s' : WorkManager κ π} {x : WorkItem κ π}
    (h : s.shouldForceFail env x = (false, s')) : (s'.shouldForceFail env x).1 = false := by
  unfold shouldForceFail at h
  split at h
  · rename_i hc
    cases h
    rw [shouldForceFail, hc]
  · rename_i circuit hc
    rw [Prod.mk.injEq] at h
    obtain ⟨hfail, rfl⟩ := h
    exact PoisonMessageCircuitBreaker.shouldForceFail_again hfail _

theorem queueTopology_truncate (env : Env κ π) (items : List (WorkItem κ π)) :
    ∀ s : WorkManager κ π, (s.truncateBatchBeforeForceFail env items).2.queueTopology = s.queueTopology := by
  induction items with
  | nil => intro s; rfl
  | cons x items ih =>
    intro s
    obtain ⟨_, _, heq⟩ := shouldForceFail_eq env s x
    simp only [truncateBatchBeforeForceFail]
    split
    · rename_i s' h
      rw [h] at heq
      rw [show s' = _ from heq]
    · rename_i s' h
      rw [h] at heq
      rw [ih s', show s' = _ from heq]

/-- A batch is cut short before an item that the circuit forces to fail, at its last reading. -/
theorem truncate_cut (items : List (WorkItem κ π)) :
    ∀ {s s' : WorkManager κ π} {lease : List (WorkItem κ π)},
      s.truncateBatchBeforeForceFail env items = (lease, s') → lease.length < items.length →
        ∃ (y : WorkItem κ π) (t : WorkManager κ π),
          items[lease.length]? = some y ∧ t.shouldForceFail env y = (true, s') := by
  induction items with
  | nil => intro s s' lease _ hlt; cases hlt
  | cons x items ih =>
    intro s s' lease h hlt
    simp only [truncateBatchBeforeForceFail] at h
    split at h
    · rename_i s₁ hx
      cases h
      exact ⟨x, s, rfl, hx⟩
    · rename_i s₁ hx
      cases h
      obtain ⟨y, t, hy, ht⟩ := ih (s := s₁) rfl (by simpa using hlt)
      exact ⟨y, t, by simpa using hy, ht⟩

/-- The head of a queue may run, or is taken off with its failure queued. -/
theorem forceFailQueuedItem_spec (env : Env κ π) {s : WorkManager κ π} {k : QueueKey κ} {head : WorkItem κ π}
    {rest : List (WorkItem κ π)} (hq : s.queueTopology.getQueue k.1 k.2 = some (head :: rest)) :
    (∃ s', s.shouldForceFail env head = (false, s') ∧ s.forceFailQueuedItem env head k = (false, s')) ∨
    (∃ s', s.forceFailQueuedItem env head k = (true, s') ∧
      s'.queueTopology = s.queueTopology.settleQueue k.1 k.2 rest) := by
  obtain ⟨circuit, n, heq⟩ := shouldForceFail_eq env s head
  rcases hfail : s.shouldForceFail env head with ⟨fail, s'⟩
  rw [hfail] at heq
  have heq : s' = { s with poisonMessageCircuit := circuit, clockReads := n } := heq
  have hdeq : s'.queueTopology.dequeueSubmittedItem k.1 k.2 =
      (some head, s.queueTopology.settleQueue k.1 k.2 rest) := by
    rw [heq, dequeueSubmittedItem, hq]
  unfold forceFailQueuedItem
  rw [hfail]
  dsimp only
  cases fail with
  | false =>
    left
    refine ⟨s', rfl, ?_⟩
    split
    · rfl
    · rfl
  | true =>
    right
    split
    · -- without a circuit nothing is forced to fail
      rename_i hnone
      unfold shouldForceFail at hfail
      split at hfail
      · cases hfail
      · rw [Prod.mk.injEq] at hfail
        rw [← hfail.2] at hnone
        cases hnone
    · rw [hdeq]
      exact ⟨_, rfl, rfl⟩

theorem exists_take_cons {n : Nat} (hn : 0 < n) (x : WorkItem κ π) (l : List (WorkItem κ π)) :
    ∃ l', (x :: l).take n = x :: l' := by
  obtain ⟨m, rfl⟩ := Nat.exists_eq_add_one.mpr hn
  exact ⟨l.take m, rfl⟩

/-- Everything an offer says. -/
structure Offered (env : Env κ π) (s : WorkManager κ π) (k : QueueKey κ) (x : WorkItem κ π)
    (l : List (WorkItem κ π)) (o : Offer κ π) : Prop where
  key : o.key = k
  head : o.head = x
  rest : o.rest = l
  lease : 0 < o.lease.length
  topology : o.state.queueTopology = s.queueTopology
  cut : o.truncated = true →
    ∃ (y : WorkItem κ π) (t : WorkManager κ π), (x :: l)[o.lease.length]? = some y ∧
      t.shouldForceFail env y = (true, o.state)

/-- A queue that is served loses its head to the poison circuit, or is offered to the engine. -/
theorem leaseOffer_spec (env : Env κ π) {s : WorkManager κ π} {k : QueueKey κ} {head : WorkItem κ π}
    {rest : List (WorkItem κ π)} (hq : s.queueTopology.getQueue k.1 k.2 = some (head :: rest))
    (hlimit : 0 < s.resolveRouteBatchLimit c) :
    (∃ s', (∀ d, s.serveQueue c env d k head rest = (.again, s', d)) ∧
      s'.queueTopology = s.queueTopology.settleQueue k.1 k.2 rest ∧ s.leaseOffer c env k head rest = none) ∨
    (∃ o, s.leaseOffer c env k head rest = some o ∧ Offered env s k head rest o) := by
  obtain ⟨items, hitems⟩ := exists_take_cons hlimit head rest
  unfold serveQueue leaseOffer
  dsimp only
  rw [hitems, if_neg (List.cons_ne_nil _ _)]
  rcases forceFailQueuedItem_spec env hq with ⟨s₁, hfail, hforce⟩ | ⟨s₁, hforce, htop⟩
  · right
    rw [hforce]
    dsimp only
    obtain ⟨_, _, heq⟩ := shouldForceFail_eq env s head
    rw [hfail] at heq
    have htop : s₁.queueTopology = s.queueTopology := by rw [show s₁ = _ from heq]
    have hagain := shouldForceFail_again hfail
    have htrunc := queueTopology_truncate env (head :: items) s₁
    -- the second reading lets the head run
    rcases hsecond : s₁.shouldForceFail env head with ⟨fail, s₂⟩
    rw [hsecond] at hagain
    cases hagain
    have hbatch : s₁.truncateBatchBeforeForceFail env (head :: items) =
        (head :: (s₂.truncateBatchBeforeForceFail env items).1, (s₂.truncateBatchBeforeForceFail env items).2) := by
      simp only [truncateBatchBeforeForceFail, hsecond]
    rw [hbatch] at htrunc ⊢
    refine ⟨_, rfl, rfl, rfl, rfl, Nat.succ_pos _, htrunc.trans htop, fun ht => ?_⟩
    obtain ⟨y, t, hy, hty⟩ := truncate_cut (head :: items) hbatch (of_decide_eq_true ht)
    refine ⟨y, t, ?_, hty⟩
    rw [← hitems, List.getElem?_take] at hy
    split at hy
    · exact hy
    · cases hy
  · left
    refine ⟨s₁, fun d => ?_, htop, by rw [hforce]⟩
    rw [if_neg (List.cons_ne_nil _ _), hforce]

/-! ## What an iteration leaves -/

/-- The engine call of the iteration raises. -/
def EngineError (c : WorkManagerConfig) (env : Env κ π) (b : Dict TopicPartition (Option OffsetRange))
    (s : WorkManager κ π) : Prop :=
  ∃ o, s.offer c env b = some o ∧ env.submit o.state.engineCalls o.lease ≠ .accepted

/-- The iteration hands over a batch of queue `k` that was cut short before `y`, because the circuit
forces `y` to fail. -/
def CutShort (c : WorkManagerConfig) (env : Env κ π) (b : Dict TopicPartition (Option OffsetRange))
    (s : WorkManager κ π) (k : QueueKey κ) (y : WorkItem κ π) : Prop :=
  ∃ o, s.offer c env b = some o ∧ o.key = k ∧ env.submit o.state.engineCalls o.lease = .accepted ∧
    (o.head :: o.rest)[o.lease.length]? = some y ∧ ∃ t : WorkManager κ π, t.shouldForceFail env y = (true, o.state)

/-- What serving `queue` under `k` leaves of the topology `q` it was taken from. -/
inductive Served (error : Prop) (cut : WorkItem κ π → Prop) (q : WorkQueueTopology κ π) (d : List (QueueKey κ))
    (k : QueueKey κ) (queue : List (WorkItem κ π)) : Next → WorkQueueTopology κ π → List (QueueKey κ) → Prop where
  | taken (n : Nat) (hn : 0 < n) :
      Served error cut q d k queue .again (q.settleQueue k.1 k.2 (queue.drop n)) d
  | deferred (n : Nat) (hn : 0 < n) (y : WorkItem κ π) (hy : queue[n]? = some y) (hcut : cut y) :
      Served error cut q d k queue .again ((q.settleQueue k.1 k.2 (queue.drop n)).deactivateQueueKey k)
        (appendKey d k)
  | partly (n : Nat) (hn : 0 < n) (herror : error) :
      Served error cut q d k queue .stop (q.settleQueue k.1 k.2 (queue.drop n)) d
  | refused (herror : error) : Served error cut q d k queue .stop (q.refreshQueueHead k queue) d

theorem acceptItems_topology {s : WorkManager κ π} {k : QueueKey κ} {x : WorkItem κ π} {l : List (WorkItem κ π)}
    (hq : s.queueTopology.getQueue k.1 k.2 = some (x :: l)) {n : Nat} (hn : 0 < n) :
    (acceptItems c s k n).1 = (x :: l).take n ∧
      (acceptItems c s k n).2.queueTopology = s.queueTopology.settleQueue k.1 k.2 ((x :: l).drop n) := by
  have hd : s.queueTopology.dequeueSubmittedItems k.1 k.2 n =
      ((x :: l).take n, s.queueTopology.settleQueue k.1 k.2 ((x :: l).drop n)) := by
    rw [dequeueSubmittedItems, if_neg (Nat.pos_iff_ne_zero.mp hn), hq]
  unfold acceptItems
  rw [hd]
  exact ⟨rfl, (recordSubmittedItems_spec c ((x :: l).take n) _).queueTopology⟩

theorem submitLease_served {s : WorkManager κ π} {k : QueueKey κ} {x : WorkItem κ π} {l : List (WorkItem κ π)}
    (hq : s.queueTopology.getQueue k.1 k.2 = some (x :: l)) (hroute : (x.tp, x.key) = k) {o : Offer κ π}
    (ho : Offered env s k x l o) (d : List (QueueKey κ)) :
    let r := o.state.submitLease c env d o.key (o.head :: o.rest) o.head o.lease o.truncated
    Served (env.submit o.state.engineCalls o.lease ≠ .accepted)
      (fun y => env.submit o.state.engineCalls o.lease = .accepted ∧ (x :: l)[o.lease.length]? = some y ∧
        ∃ t : WorkManager κ π, t.shouldForceFail env y = (true, o.state))
      s.queueTopology d k (x :: l) r.1 r.2.1.queueTopology r.2.2 := by
  have hq' : o.state.queueTopology.getQueue k.1 k.2 = some (x :: l) := by rw [ho.topology, hq]
  rw [ho.key, ho.head, ho.rest, ← ho.topology]
  dsimp only
  unfold submitLease
  dsimp only
  split
  · rename_i hacc
    obtain ⟨hitems, htop⟩ := acceptItems_topology (c := c)
      (s := { o.state with engineCalls := o.state.engineCalls + 1 }.record (.handed o.lease)) hq' ho.lease
    rw [hitems, if_neg]
    · split
      · rename_i ht
        obtain ⟨y, t, hy, hty⟩ := ho.cut ht
        unfold deactivate
        rw [htop]
        exact .deferred _ ho.lease y hy ⟨hacc, hy, t, hty⟩
      · rw [htop]
        exact .taken _ ho.lease
    · obtain ⟨n, hn⟩ := Nat.exists_eq_add_one.mpr ho.lease
      rw [hn]
      exact List.cons_ne_nil _ _
  · rename_i n herr
    have hne : env.submit o.state.engineCalls o.lease ≠ .accepted := by rw [herr]; exact fun h => by cases h
    split
    · rename_i hn
      obtain ⟨-, htop⟩ := acceptItems_topology (c := c)
        (s := { o.state with engineCalls := o.state.engineCalls + 1 }.record (.handed (o.lease.take n))) hq' hn
      rw [htop]
      exact .partly n hn hne
    · rw [hroute]
      exact .refused hne
  · rename_i herr
    have hne : env.submit o.state.engineCalls o.lease ≠ .accepted := by rw [herr]; exact fun h => by cases h
    rw [hroute]
    exact .refused hne

/-- The items of a queue are those of its partition and key. -/
def Routed (s : WorkManager κ π) : Prop :=
  ∀ k : QueueKey κ, ∀ x ∈ s.queueTopology.queueOf k.1 k.2, (x.tp, x.key) = k

theorem routed_of_queueInv {s : WorkManager κ π} (h : QueueInv s.view) : Routed s := by
  intro k x hx
  obtain ⟨htp, hkey⟩ := h.route (show x ∈ s.view.queueOf k.1 k.2 from hx)
  exact Prod.ext htp hkey

/-- **One iteration.** It stops at a guard, finds no queue that may run, or takes a queue out and serves
it. -/
theorem scheduleStep_served {s : WorkManager κ π} (h : Pickable s.queueTopology) (hroute : Routed s)
    (env : Env κ π) (b : Dict TopicPartition (Option OffsetRange)) (d : List (QueueKey κ)) :
    (((s.currentInFlightCount : Int) ≥ c.maxInFlightMessages ∨ s.rebalancing = true) ∧
      s.scheduleStep c env b d = (.stop, s, d)) ∨
    (∃ r, s.scheduleStep c env b d =
        (.stop, { s with queueTopology := { s.queueTopology with runnableQueueKeys := r } }, d) ∧
      r.Perm s.queueTopology.runnableQueueKeys ∧
      ∀ j ∈ s.queueTopology.runnableQueueKeys, s.isQueueEligible c j = false) ∨
    (∃ k r a x l, Taken s.queueTopology k r a ∧ s.queueTopology.queueOf k.1 k.2 = x :: l ∧
      Served (EngineError c env b s) (CutShort c env b s k) (s.queueTopology.withOrder r a) d k (x :: l)
        (s.scheduleStep c env b d).1 (s.scheduleStep c env b d).2.1.queueTopology
        (s.scheduleStep c env b d).2.2) := by
  by_cases hfull : (s.currentInFlightCount : Int) ≥ c.maxInFlightMessages
  · left
    exact ⟨.inl hfull, by rw [scheduleStep, if_pos hfull]⟩
  by_cases hreb : s.rebalancing = true
  · left
    exact ⟨.inr hreb, by rw [scheduleStep, if_neg hfull, if_pos hreb]⟩
  right
  rcases pickQueueKey_taken (c := c) h b with ⟨r, hperm, hpick, hall⟩ | ⟨k, r, a, hpick, htaken⟩
  · left
    exact ⟨r, by rw [scheduleStep, if_neg hfull, if_neg hreb, hpick], hperm, hall⟩
  · right
    have hne : s.queueTopology.queueOf k.1 k.2 ≠ [] := by
      intro hnil
      refine h.full k htaken.runnable ?_
      rw [headOf, hnil]
      rfl
    obtain ⟨x, l, hxl⟩ := List.exists_cons_of_ne_nil hne
    have hq : s.queueTopology.getQueue k.1 k.2 = some (x :: l) := hxl ▸ getQueue_of_queueOf_ne_nil hne
    refine ⟨k, r, a, x, l, htaken, hxl, ?_⟩
    have hgot : (s.queueTopology.withOrder r a).getQueue k.1 k.2 = some (x :: l) := hq
    have hstep : s.scheduleStep c env b d =
        serveQueue c env { s with queueTopology := s.queueTopology.withOrder r a } d k x l := by
      rw [scheduleStep, if_neg hfull, if_neg hreb, hpick]
      simp only [hgot]
    have hoffer : s.offer c env b =
        leaseOffer c env { s with queueTopology := s.queueTopology.withOrder r a } k x l := by
      rw [offer, if_neg hfull, if_neg hreb, hpick]
      simp only [hgot]
    rcases leaseOffer_spec (c := c) env
      (s := { s with queueTopology := s.queueTopology.withOrder r a }) hgot (resolveRouteBatchLimit_pos hfull) with
      ⟨s', hserve, htop, -⟩ | ⟨o, hlease, ho⟩
    · rw [hstep, hserve d]
      show Served _ _ _ _ _ _ _ s'.queueTopology _
      rw [htop]
      exact .taken 1 Nat.one_pos
    · rw [hlease] at hoffer
      rw [scheduleStep_offer hoffer d]
      have hx := hroute k x (by rw [hxl]; exact List.mem_cons_self)
      have hserved := submitLease_served (c := c)
        (s := { s with queueTopology := s.queueTopology.withOrder r a }) hgot hx ho d
      dsimp only at hserved
      generalize o.state.submitLease c env d o.key (o.head :: o.rest) o.head o.lease o.truncated = result at hserved ⊢
      generalize result.1 = next, result.2.1.queueTopology = q', result.2.2 = d' at hserved ⊢
      cases hserved with
      | taken n hn => exact .taken n hn
      | deferred n hn y hy hcut =>
        refine .deferred n hn y hy ⟨o, hoffer, ho.key, hcut.1, ?_, hcut.2.2⟩
        rw [ho.head, ho.rest]
        exact hcut.2.1
      | partly n hn herror => exact .partly n hn ⟨o, hoffer, herror⟩
      | refused herror => exact .refused ⟨o, hoffer, herror⟩

section Leaves

variable {K : TopicPartition → Int → κ → Prop} {error : Prop} {cut : WorkItem κ π → Prop}
  {q q' : WorkQueueTopology κ π} {d d' : List (QueueKey κ)} {k : QueueKey κ} {r a : List (QueueKey κ)}
  {x : WorkItem κ π} {l : List (WorkItem κ π)} {next : Next}

/-- The indexes stay exact, with the deferred keys out. -/
theorem exact_served (h : ExactIndex K (· ∈ d) q) (ht : Taken q k r a) (hq : q.queueOf k.1 k.2 = x :: l)
    (hs : Served error cut (q.withOrder r a) d k (x :: l) next q' d') : ExactIndex K (· ∈ d') q' := by
  have hassigned : q.assigned k.1 := assigned_of_queueOf_ne_nil (by rw [hq]; exact List.cons_ne_nil _ _)
  have hkd : k ∉ d := ((h.runnable k).mp ht.runnable).1
  have hback : ∀ {p : WorkQueueTopology κ π}, ExactIndex K (fun j => j ∈ d ∧ j ≠ k) p → ExactIndex K (· ∈ d) p := by
    refine fun hp => hp.restore (fun j hj => ⟨hj, fun hjk => hkd (hjk ▸ hj)⟩) fun j hj hnot => ?_
    exact absurd hj.1 hnot
  have hsettle : ∀ n, ExactIndex K (fun j => j ∈ d ∧ j ≠ k)
      ((q.withOrder r a).settleQueue k.1 k.2 ((x :: l).drop n)) := by
    refine fun n => exact_settleQueue h ht.nodup ht.order ht.active hassigned fun y hy => ?_
    exact h.keyed k y (hq ▸ List.mem_of_mem_drop hy)
  cases hs with
  | taken n hn => exact hback (hsettle n)
  | partly n hn _ => exact hback (hsettle n)
  | deferred n hn y hy hcut =>
    refine (exact_deactivate (hback (hsettle n)) k).restore (fun j hj => mem_appendKey.mp hj) fun j hj hnot => ?_
    exact absurd (mem_appendKey.mpr hj) hnot
  | refused _ =>
    have := exact_refresh h ht.nodup ht.order ht.active
    rw [hq] at this
    exact hback this

theorem kept_served (h : Kept q) (hq : q.queueOf k.1 k.2 = x :: l)
    (hs : Served error cut (q.withOrder r a) d k (x :: l) next q' d') : Kept q' := by
  have hassigned : q.assigned k.1 := assigned_of_queueOf_ne_nil (by rw [hq]; exact List.cons_ne_nil _ _)
  have hsettle : ∀ n, Kept ((q.withOrder r a).settleQueue k.1 k.2 ((x :: l).drop n)) :=
    fun n => kept_settleQueue (q := q.withOrder r a) h hassigned k.2 _
  cases hs with
  | taken n hn => exact hsettle n
  | partly n hn _ => exact hsettle n
  | deferred n hn y hy hcut => exact kept_of_same (hsettle n) (sameQueues_deactivate _ k)
  | refused _ => exact kept_of_same (q := q) h (sameQueues_refresh (q.withOrder r a) k (x :: l))

/-- Serving a queue takes items off its front and leaves the other queues alone. -/
theorem queueOf_served (hq : q.queueOf k.1 k.2 = x :: l)
    (hs : Served error cut (q.withOrder r a) d k (x :: l) next q' d') :
    ∃ n, ∀ tp key, q'.queueOf tp key = if k.1 = tp ∧ k.2 = key then (x :: l).drop n else q.queueOf tp key := by
  have hassigned : q.assigned k.1 := assigned_of_queueOf_ne_nil (by rw [hq]; exact List.cons_ne_nil _ _)
  have hsettle := fun n => queueOf_settleQueue (q := q.withOrder r a) hassigned k.2 ((x :: l).drop n)
  cases hs with
  | taken n hn => exact ⟨n, hsettle n⟩
  | partly n hn _ => exact ⟨n, hsettle n⟩
  | deferred n hn y hy hcut => exact ⟨n, hsettle n⟩
  | refused _ =>
    refine ⟨0, fun tp key => ?_⟩
    rw [(sameQueues_refresh (q.withOrder r a) k (x :: l)).queueOf]
    split
    · rename_i he
      obtain ⟨rfl, rfl⟩ := he
      exact hq
    · rfl

/-- Each iteration that goes round again takes an item off a queue. -/
theorem totalSize_served (hq : q.queueOf k.1 k.2 = x :: l)
    (hs : Served error cut (q.withOrder r a) d k (x :: l) .again q' d') : q'.totalSize < q.totalSize := by
  have hassigned : q.assigned k.1 := assigned_of_queueOf_ne_nil (by rw [hq]; exact List.cons_ne_nil _ _)
  have hsettle : ∀ n, 0 < n → ((q.withOrder r a).settleQueue k.1 k.2 ((x :: l).drop n)).totalSize < q.totalSize := by
    intro n hn
    have hsize := totalSize_settleQueue (q := q.withOrder r a) hassigned k.2 ((x :: l).drop n)
    rw [show (q.withOrder r a).queueOf k.1 k.2 = x :: l from hq, List.length_drop, List.length_cons] at hsize
    have htotal : (q.withOrder r a).totalSize = q.totalSize := rfl
    omega
  cases hs with
  | taken n hn => exact hsettle n hn
  | deferred n hn y hy hcut => exact hsettle n hn

/-- A served queue ends the call with an engine error only. -/
theorem error_of_served (hs : Served error cut q d k (x :: l) .stop q' d') : error := by
  cases hs with
  | partly n hn herror => exact herror
  | refused herror => exact herror

end Leaves

/-! ## The iterations of a call -/

/-- Iterations that go round again, with the keys deferred so far. -/
inductive LoopSteps (c : WorkManagerConfig) (env : Env κ π) (b : Dict TopicPartition (Option OffsetRange))
    (s₀ : WorkManager κ π) (d₀ : List (QueueKey κ)) : WorkManager κ π → List (QueueKey κ) → Prop where
  | refl : LoopSteps c env b s₀ d₀ s₀ d₀
  | tail {s s' : WorkManager κ π} {d d' : List (QueueKey κ)} : LoopSteps c env b s₀ d₀ s d →
      s.scheduleStep c env b d = (.again, s', d') → LoopSteps c env b s₀ d₀ s' d'

theorem LoopSteps.head {c : WorkManagerConfig} {env : Env κ π} {b : Dict TopicPartition (Option OffsetRange)}
    {s₀ s₁ s : WorkManager κ π} {d₀ d₁ d : List (QueueKey κ)}
    (hstep : s₀.scheduleStep c env b d₀ = (.again, s₁, d₁)) (h : LoopSteps c env b s₁ d₁ s d) :
    LoopSteps c env b s₀ d₀ s d := by
  induction h with
  | refl => exact .tail .refl hstep
  | tail _ hnext ih => exact .tail ih hnext

/-- What an iteration keeps. -/
structure Looping (K : TopicPartition → Int → κ → Prop) (s : WorkManager κ π) (d : List (QueueKey κ)) : Prop where
  exact : ExactIndex K (· ∈ d) s.queueTopology
  routed : Routed s

variable {K : TopicPartition → Int → κ → Prop}

theorem Looping.pickable {s : WorkManager κ π} {d : List (QueueKey κ)} (h : Looping K s d) :
    Pickable s.queueTopology :=
  ⟨h.exact.nodup, h.exact.active, fun k hk => ((h.exact.runnable k).mp hk).2⟩

theorem looping_step (env : Env κ π) (b : Dict TopicPartition (Option OffsetRange)) {s : WorkManager κ π}
    {d : List (QueueKey κ)} (h : Looping K s d) :
    Looping K (s.scheduleStep c env b d).2.1 (s.scheduleStep c env b d).2.2 := by
  rcases scheduleStep_served (c := c) h.pickable h.routed env b d with
    ⟨-, heq⟩ | ⟨r, heq, hperm, -⟩ | ⟨k, r, a, x, l, ht, hq, hs⟩
  · rw [heq]
    exact h
  · rw [heq]
    refine ⟨⟨hperm.nodup_iff.mpr h.exact.nodup, fun j => ?_, fun j => ?_, h.exact.head, h.exact.byOffset,
      h.exact.keyed⟩, h.routed⟩
    · exact (h.exact.active j).trans hperm.mem_iff.symm
    · exact hperm.mem_iff.trans (h.exact.runnable j)
  · refine ⟨exact_served h.exact ht hq hs, fun j y hy => ?_⟩
    obtain ⟨n, hn⟩ := queueOf_served hq hs
    rw [hn] at hy
    split at hy
    · rename_i he
      have hj : j = k := Prod.ext he.1.symm he.2.symm
      subst hj
      exact h.routed j y (hq ▸ List.mem_of_mem_drop hy)
    · exact h.routed j y hy

theorem looping_steps {s₀ s : WorkManager κ π} {d₀ d : List (QueueKey κ)} (h : LoopSteps c env b s₀ d₀ s d)
    (h₀ : Looping K s₀ d₀) : Looping K s d := by
  induction h with
  | refl => exact h₀
  | tail _ hstep ih =>
    have := looping_step (c := c) env b ih
    rw [hstep] at this
    exact this

/-- **The loop ends.** The number of queued items bounds its iterations. -/
theorem scheduleLoop_ends (env : Env κ π) (b : Dict TopicPartition (Option OffsetRange)) (fuel : Nat) :
    ∀ {s : WorkManager κ π} {d : List (QueueKey κ)}, Looping K s d → s.queueTopology.totalSize < fuel →
      ∃ s₁ d₁ s' d', LoopSteps c env b s d s₁ d₁ ∧ s₁.scheduleStep c env b d₁ = (.stop, s', d') ∧
        s.scheduleLoop c env b fuel d = (s', d') := by
  induction fuel with
  | zero => intro s d _ hlt; cases hlt
  | succ fuel ih =>
    intro s d h hlt
    simp only [scheduleLoop]
    rcases hstep : s.scheduleStep c env b d with ⟨next, s₁, d₁⟩
    cases next with
    | stop => exact ⟨s, d, s₁, d₁, .refl, hstep, rfl⟩
    | again =>
      have hnext := looping_step (c := c) env b h
      have hless : s₁.queueTopology.totalSize < s.queueTopology.totalSize := by
        rcases scheduleStep_served (c := c) h.pickable h.routed env b d with
          ⟨-, heq⟩ | ⟨r, heq, -⟩ | ⟨k, r, a, x, l, ht, hq, hs⟩
        · rw [heq] at hstep; cases hstep
        · rw [heq] at hstep; cases hstep
        · rw [hstep] at hs
          exact totalSize_served hq hs
      rw [hstep] at hnext
      obtain ⟨s₂, d₂, s', d', hsteps, hstop, hloop⟩ := ih hnext (Nat.lt_of_lt_of_le hless (Nat.le_of_lt_succ hlt))
      exact ⟨s₂, d₂, s', d', hsteps.head hstep, hstop, hloop⟩

/-! ## The end of a call -/

theorem exact_reactivate {s : WorkManager κ π} {off : QueueKey κ → Prop} (h : ExactIndex K off s.queueTopology)
    (k : QueueKey κ) : ExactIndex K (fun j => off j ∧ j ≠ k) (s.reactivate k).queueTopology := by
  have hnone : s.queueTopology.queueOf k.1 k.2 = [] →
      ExactIndex K (fun j => off j ∧ j ≠ k) s.queueTopology := by
    refine fun hnil => h.restore (fun _ hj => hj.1) fun j hj hnot => ?_
    have hjk : j = k := by
      by_contra hne
      exact hnot ⟨hj, hne⟩
    rw [headOf, hjk, hnil]
    rfl
  unfold reactivate
  split
  · rename_i hq
    exact hnone (by rw [queueOf, hq]; rfl)
  · rename_i hq
    exact hnone (queueOf_eq_of_getQueue hq)
  · rename_i x l hq
    have := exact_refresh (k := k) h h.nodup (fun _ _ => Iff.rfl) fun _ _ => Iff.rfl
    rw [queueOf_eq_of_getQueue hq] at this
    exact this

theorem exact_reactivateAll (ks : List (QueueKey κ)) :
    ∀ {s : WorkManager κ π} {off : QueueKey κ → Prop}, ExactIndex K off s.queueTopology →
      ExactIndex K (fun j => off j ∧ j ∉ ks) (ks.foldl reactivate s).queueTopology := by
  induction ks with
  | nil =>
    intro s off h
    exact h.restore (fun _ hj => hj.1) fun j hj hnot => absurd ⟨hj, List.not_mem_nil⟩ hnot
  | cons k ks ih =>
    intro s off h
    refine (ih (exact_reactivate h k)).restore (fun j hj => ?_) fun j hj hnot => ?_
    · rw [List.mem_cons, not_or] at hj
      exact ⟨⟨hj.1, hj.2.1⟩, hj.2.2⟩
    · rw [List.mem_cons, not_or] at hnot
      exact absurd ⟨hj.1.1, hj.1.2, hj.2⟩ hnot

theorem sameQueues_reactivate (s : WorkManager κ π) (k : QueueKey κ) :
    SameQueues s.queueTopology (s.reactivate k).queueTopology := by
  unfold reactivate
  split
  · rfl
  · rfl
  · exact sameQueues_refresh _ _ _

theorem reactivateAll_eq (ks : List (QueueKey κ)) :
    ∀ s : WorkManager κ π, ∃ q, ks.foldl reactivate s = { s with queueTopology := q } ∧
      SameQueues s.queueTopology q := by
  induction ks with
  | nil => intro s; exact ⟨_, rfl, rfl⟩
  | cons k ks ih =>
    intro s
    obtain ⟨q, heq, hsame⟩ := ih (s.reactivate k)
    refine ⟨q, ?_, (sameQueues_reactivate s k).trans hsame⟩
    rw [List.foldl_cons, heq]
    unfold reactivate
    split
    · rfl
    · rfl
    · rfl

/-- A call starts with no key deferred. -/
theorem looping_entry {s : WorkManager κ π} (h : ExactIndex.All K s.queueTopology) (hroute : Routed s) :
    Looping K (s.cachedBlockingOffsets c).2 [] := by
  obtain ⟨heap, cache, counter, heq⟩ := cachedBlockingOffsets_eq c s
  rw [heq]
  exact ⟨h.restore (fun _ hj => by cases hj) fun _ hj _ => hj.elim, hroute⟩

/-- **A call ends**, with an iteration that stops, and with the deferred keys put back. -/
theorem schedule_ends (env : Env κ π) {s : WorkManager κ π} (h : ExactIndex.All K s.queueTopology) (hroute : Routed s) :
    ∃ s₁ d₁ s' d', LoopSteps c env (s.cachedBlockingOffsets c).1 (s.cachedBlockingOffsets c).2 [] s₁ d₁ ∧
      Looping K s₁ d₁ ∧ s₁.scheduleStep c env (s.cachedBlockingOffsets c).1 d₁ = (.stop, s', d') ∧
        s.schedule c env = (env.setOrder d').foldl reactivate s' := by
  have h₀ := looping_entry (c := c) h hroute
  obtain ⟨s₁, d₁, s', d', hsteps, hstop, hloop⟩ :=
    scheduleLoop_ends (c := c) env (s.cachedBlockingOffsets c).1
      (s.cachedBlockingOffsets c).2.scheduleFuel h₀ (by
        show _ < (s.cachedBlockingOffsets c).2.queueTopology.totalSize + _ + 1
        omega)
  refine ⟨s₁, d₁, s', d', hsteps, looping_steps hsteps h₀, hstop, ?_⟩
  unfold schedule
  dsimp only
  rw [hloop]

end WorkManager

end PyrallelConsumer
