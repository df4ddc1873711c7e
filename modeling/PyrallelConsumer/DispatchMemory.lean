import PyrallelConsumer.DeadLetterOnce
import PyrallelConsumer.PollerWork
import PyrallelConsumer.WorkMemory

/-!
# PyrallelConsumer.DispatchMemory

The poller forgets no message that it has dispatched. Under the current assignment of its partition every
dispatched item is queued, outstanding, covered by the tracker of its partition, or a failure that waits to
be published.

* `Covered` — the tracker of the partition covers the offset.
* `resolved_drain` — what a drain takes from the outstanding items it resolves.
* `dispatched_never_forgotten` — every run.
-/

set_option linter.unusedSectionVars false

namespace PyrallelConsumer

open WorkLog CompletionSupport

variable {κ π : Type} [DecidableEq κ]

/-- The tracker that is installed for the partition covers the offset. -/
def TrackerView.Covered (v : TrackerView κ π) (tp : TopicPartition) (o : Int) : Prop :=
  ∃ r core, v.installed.get? tp = some r ∧ v.cores[r]? = some core ∧ core.Covers o

/-- Every tracker is of the first epoch. -/
def TrackerView.FirstEpoch (v : TrackerView κ π) : Prop :=
  ∀ (r : TrackerRef) core, v.cores[r]? = some core → core.epoch = 1

/-- No tracker ever leaves its first epoch. -/
theorem TrackerRun.firstEpoch {d : DlqConfig} {V : TopicPartition → Int → Prop} {E : CompletionEvent → Prop}
    {v v' : TrackerView κ π} (hrun : TrackerRun d V E v v') (h : v.FirstEpoch) : v'.FirstEpoch := by
  refine TrackerRun.invariant (I := TrackerView.FirstEpoch) hrun h fun u w _ hu hstep => ?_
  have hmodify : ∀ (f : OffsetTracker.Core → OffsetTracker.Core), (∀ core : OffsetTracker.Core, core.Grows (f core)) →
      ∀ (i r : TrackerRef) core, (u.cores.modify i f)[r]? = some core → core.epoch = 1 := by
    intro f hf i r core hr
    rcases getElem?_modify_cases hr with hr | ⟨rfl, core', hcore', rfl⟩
    · exact hu r core hr
    · exact (hf core').epoch.trans (hu _ core' hcore')
  cases hstep with
  | installed core hwf hepoch hE =>
    intro r core' hr
    rcases List.mem_append.mp (List.mem_of_getElem? hr) with hmem | hmem
    · obtain ⟨i, hi⟩ := List.getElem?_of_mem hmem
      exact hu i core' hi
    · exact List.mem_singleton.mp hmem ▸ hepoch
  | marked r e changed core hcur hE hgate hchanged => exact hmodify _ (grows_markComplete e.offset) r
  | advanced tp r core o hr hcore ho => exact hmodify _ (grows_commitThrough o) r
  | _ => exact hu

namespace Poller

variable {c : PollerConfig} {s s' : Poller κ π}

/-- The offset is covered, or its failure waits to be published. -/
def Resolved (s : Poller κ π) (tp : TopicPartition) (o : Int) : Prop :=
  s.trackers.Covered tp o ∨ s.pendingDlqEvents.contains (tp, o) = true

/-- The ledger of failures stores each under its offset, all of the first epoch. -/
structure LedgerInv (s : Poller κ π) : Prop where
  keyed : Keyed s.pendingDlqEvents
  epoch : ∀ k e, s.pendingDlqEvents.get? k = some e → e.epoch = 1

theorem covered_of_grows (h : s.trackers.Covered tp o) (hgrows : s.trackers.Grows s'.trackers)
    (hmap : s'.offsetTrackers.get? tp = s.offsetTrackers.get? tp) : s'.trackers.Covered tp o := by
  obtain ⟨r, core, hr, hcore, hcov⟩ := h
  obtain ⟨core', hcore', hg⟩ := hgrows.cores r core hcore
  exact ⟨r, core', hmap.trans hr, hcore', hg.covers o hcov⟩

/-! ## Processing -/

section Processing

variable {offsetTrackers : Dict TopicPartition TrackerRef} {wm : WorkManager (SubmitKey κ) π}
  {pending : Dict (TopicPartition × Int) CompletionEvent} {log : List (PollerEntry κ π)}
  {completedEvents : List CompletionEvent} {result : Bool × Processing κ π}

/-- What is known of the partition of an event whose fate is to be read. -/
structure Tracks (offsetTrackers : Dict TopicPartition TrackerRef) (p : Processing κ π) (tp : TopicPartition) : Prop where
  tracker : ∃ r t, offsetTrackers.get? tp = some r ∧ p.wm.trackerAt r = some t
  epoch : ∀ r t, p.wm.trackerAt r = some t → t.epoch = 1

/-- The offset is covered, or waits, after the call. -/
def ResolvedIn (offsetTrackers : Dict TopicPartition TrackerRef) (p : Processing κ π) (k : TopicPartition × Int) : Prop :=
  (∃ r t, offsetTrackers.get? k.1 = some r ∧ p.wm.trackerAt r = some t ∧ t.core.Covers k.2) ∨
    p.pendingDlqEvents.contains k = true

/-- An event of the first epoch resolves its offset, unless it is a duplicate. -/
theorem resolvedIn_of_fate {x : Sourced} {p : Processing κ π} (h : Fate offsetTrackers pending p x)
    (htracks : Tracks offsetTrackers p x.event.tp) (hepoch : x.event.epoch = 1) :
    ResolvedIn offsetTrackers p (pendingKey x.event) ∨
      (x.fromPendingLedger = false ∧ pending.contains (pendingKey x.event) = true) := by
  cases h with
  | marked r t hr ht h => exact .inl (.inl ⟨r, t, hr, ht, h.symm⟩)
  | retained h =>
    refine .inl (.inr ?_)
    unfold Dict.contains
    rw [h]
    rfl
  | untracked h =>
    obtain ⟨r, t, hr, ht⟩ := htracks.tracker
    rw [hr] at h
    exact absurd (ht.symm.trans h) (by simp)
  | stale r t hr ht h => exact absurd (hepoch.trans (htracks.epoch r t ht).symm) h
  | duplicate hfresh h =>
    rcases h with h | h
    · exact .inr ⟨hfresh, h⟩
    · exact .inl (.inr h)

/-- **A call resolves** the offsets of its events and of the failures that waited before it. -/
theorem resolvedIn_of_conserved (h : Conserved offsetTrackers wm pending log completedEvents result)
    (hkeyed : Keyed pending) (hledger : ∀ k e, pending.get? k = some e → e.epoch = 1) {k : TopicPartition × Int}
    (htracks : Tracks offsetTrackers result.2 k.1) :
    (pending.contains k = true → ResolvedIn offsetTrackers result.2 k) ∧
      ∀ e ∈ completedEvents, pendingKey e = k → e.epoch = 1 → ResolvedIn offsetTrackers result.2 k := by
  have hwaiting : pending.contains k = true → ResolvedIn offsetTrackers result.2 k := by
    intro hk
    obtain ⟨e, he⟩ := Option.isSome_iff_exists.mp hk
    have hke : k = pendingKey e := hkeyed k e he
    have hmem : (⟨e, true⟩ : Sourced) ∈ eventsToProcess pending completedEvents :=
      List.mem_append_left _ (List.mem_map.mpr ⟨e, pending.mem_values_iff.mpr ⟨k, he⟩, rfl⟩)
    subst hke
    rcases resolvedIn_of_fate (h.disposed _ hmem) htracks (hledger _ e he) with hres | ⟨hfresh, -⟩
    · exact hres
    · cases hfresh
  refine ⟨hwaiting, ?_⟩
  rintro e he rfl hepoch
  have hmem : (⟨e, false⟩ : Sourced) ∈ eventsToProcess pending completedEvents :=
    List.mem_append_right _ (List.mem_map_of_mem he)
  rcases resolvedIn_of_fate (h.disposed _ hmem) htracks hepoch with hres | ⟨-, hk⟩
  · exact hres
  · exact hwaiting hk

end Processing

/-! ## A drain -/

theorem trackerAt_firstEpoch {wm : WorkManager (SubmitKey κ) π} (h : s.trackers.FirstEpoch)
    (hcores : wm.heap.map (·.core) = s.trackers.cores) {r : TrackerRef} {t : OffsetTracker}
    (ht : wm.trackerAt r = some t) : t.epoch = 1 := by
  have hcore := cores_eq_of_trackerAt ht
  rw [hcores] at hcore
  exact h r t.core hcore

/-- The calls of `force_fail` report enqueued items, and lose none. -/
theorem traced_forceTimedOut (hepochs : s.trackers.FirstEpoch) (l : List (TopicPartition × Int × String)) :
    ∀ {wm : WorkManager (SubmitKey κ) π}, wm.heap.map (·.core) = s.trackers.cores → wm.Traced →
      WorkInv c.workManager wm.view →
      (s.forceTimedOut c wm l).2.Traced ∧ WorkInv c.workManager (s.forceTimedOut c wm l).2.view ∧
      enqueuedItems (s.forceTimedOut c wm l).2.log = enqueuedItems wm.log ∧
      wm.view.Keeps (s.forceTimedOut c wm l).2.view := by
  induction l with
  | nil => intro wm _ ht hw; exact ⟨ht, hw, rfl, fun _ hx => hx⟩
  | cons e l ih =>
    intro wm hcores ht hw
    obtain ⟨tp, offset, error⟩ := e
    simp only [forceTimedOut]
    split
    · exact ih hcores ht hw
    · rename_i t htracker
      obtain ⟨r, -, hr⟩ := Option.bind_eq_some_iff.mp htracker
      have hepoch : t.epoch = 1 := trackerAt_firstEpoch hepochs hcores hr
      have hframe := WorkManager.trackerFrame_forceFail wm tp offset t.epoch error c.dlq.maxRetries
      have hview : ∃ q, (wm.forceFail tp offset t.epoch error c.dlq.maxRetries).2.view =
          { wm.view with completionQueue := q } := wm.forceFail_view tp offset t.epoch error c.dlq.maxRetries
      obtain ⟨q, hq⟩ := hview
      have htraced : (wm.forceFail tp offset t.epoch error c.dlq.maxRetries).2.Traced := by
        rw [hepoch]
        exact ht.forceFail hw.items tp offset error c.dlq.maxRetries
      have hwork : WorkInv c.workManager (wm.forceFail tp offset t.epoch error c.dlq.maxRetries).2.view :=
        WorkManager.workInv_next (a := .forceFail tp offset t.epoch error c.dlq.maxRetries) hw trivial
      obtain ⟨h1, h2, h3, h4⟩ := ih (hframe.heap.trans hcores) htraced hwork
      have hlog : (wm.forceFail tp offset t.epoch error c.dlq.maxRetries).2.log = wm.log := congrArg WorkView.log hq
      refine ⟨h1, h2, h3.trans (by rw [hlog]), fun x hx => ?_⟩
      have hmissing := h4 x hx
      rw [hq] at hmissing
      exact ⟨hmissing.enqueued, hmissing.queue, hmissing.outstanding⟩

/-- **The events of a drain.** They report enqueued items, and whatever goes missing is reported. -/
theorem drainedEvents_memory (hepochs : s.trackers.FirstEpoch) (hshared : s.wm.AllShared) (ht : s.wm.Traced)
    (hw : WorkInv c.workManager s.wm.view) {i : DrainInput κ π} (hlaw : i.env.AcceptsPrefix)
    (hreports : ∀ e ∈ i.engineEvents ++ i.lateEvents, s.wm.Reported e) :
    (s.drainedEvents c i).2.Traced ∧ WorkInv c.workManager (s.drainedEvents c i).2.view ∧
      enqueuedItems (s.drainedEvents c i).2.log = enqueuedItems s.wm.log ∧
      (∀ e ∈ (s.drainedEvents c i).1, s.wm.Reported e) ∧
      ∀ x, (s.drainedEvents c i).2.view.Missing x →
        s.wm.view.Missing x ∨ ∃ e ∈ (s.drainedEvents c i).1, e.id = x.id := by
  obtain ⟨ht1, hw1, hreported1⟩ := WorkManager.traced_poll ht hw hlaw
    (fun e he => hreports e (List.mem_append_left _ he)) true
  have hmissing1 := fun x => @WorkManager.missing_poll _ π _ c.workManager i.env s.wm hw hlaw i.engineEvents true x
  have hlog1 := (@WorkManager.books_pollCompletedEvents _ π _ c.workManager i.env s.wm i.engineEvents true).1.enqueuedItems_eq
  have hframe1 := @WorkManager.trackerFrame_pollCompletedEvents _ π _ c.workManager i.env s.wm hshared i.engineEvents true
  obtain ⟨ht2, hw2, hlog2, hkeeps2⟩ := traced_forceTimedOut (c := c) hepochs i.timedOut
    hframe1.heap ht1 hw1
  have hlog12 := hlog2.trans hlog1
  unfold drainedEvents
  dsimp only
  split
  · have hlate : ∀ e ∈ i.lateEvents, (s.forceTimedOut c
        (s.wm.pollCompletedEvents c.workManager i.env i.engineEvents true).2 i.timedOut).2.Reported e :=
      fun e he => (hreports e (List.mem_append_right _ he)).mono fun x hx => hlog12.symm ▸ hx
    obtain ⟨ht3, hw3, hreported3⟩ := WorkManager.traced_poll ht2 hw2 hlaw hlate true
    have hlog3 := (@WorkManager.books_pollCompletedEvents _ π _ c.workManager i.env (s.forceTimedOut c
      (s.wm.pollCompletedEvents c.workManager i.env i.engineEvents true).2 i.timedOut).2 i.lateEvents true).1.enqueuedItems_eq
    refine ⟨ht3, hw3, hlog3.trans hlog12, fun e he => ?_, fun x hx => ?_⟩
    · rcases List.mem_append.mp he with he | he
      · exact hreported1 e he
      · exact (hreported3 e he).mono fun x hx => hlog12 ▸ hx
    · rcases WorkManager.missing_poll hw2 hlaw i.lateEvents true hx with hx | ⟨e, he, hid⟩
      · exact (hmissing1 x (hkeeps2 x hx)).imp_right fun ⟨e, he, hid⟩ => ⟨e, List.mem_append_left _ he, hid⟩
      · exact .inr ⟨e, List.mem_append_right _ he, hid⟩
  · exact ⟨ht2, hw2, hlog12, hreported1, fun x hx => hmissing1 x (hkeeps2 x hx)⟩

/-- The state of the invariant: what is stored about items and failures, and what is missing is resolved. -/
structure MemoryInv (s : Poller κ π) : Prop where
  traced : s.wm.Traced
  epochs : s.trackers.FirstEpoch
  ledger : s.LedgerInv
  resolved : ∀ x, s.wm.view.Missing x → s.Resolved x.tp x.offset

/-- What waits after a call waited before it or is one of its events. -/
theorem pending_processCompleted {ok : CompletionEvent → Prop} (h : ∀ k e, s.pendingDlqEvents.get? k = some e → ok e)
    (publish : Nat → PublishOutcome) {events : List CompletionEvent} (hevents : ∀ e ∈ events, ok e) :
    ∀ k e, (s.processCompleted c publish events).2.pendingDlqEvents.get? k = some e → ok e := by
  let P : Processing κ π → Prop := fun q => ∀ k e, q.pendingDlqEvents.get? k = some e → ok e
  have hend : P (processCompletedEvents c.dlq s.offsetTrackers publish s.wm s.pendingDlqEvents s.log events).2 := by
    refine processEvents_turns (fun pre x post q ok' q' hsplit hrun hq hstep k e he => ?_) h
    have hx : ok x.event := by
      have hmem : x ∈ eventsToProcess s.pendingDlqEvents events := by rw [hsplit]; simp
      rcases List.mem_append.mp hmem with hmem | hmem
      · obtain ⟨e', he', rfl⟩ := List.mem_map.mp hmem
        obtain ⟨k', hk'⟩ := s.pendingDlqEvents.mem_values_iff.mp he'
        exact h k' e' hk'
      · obtain ⟨e', he', rfl⟩ := List.mem_map.mp hmem
        exact hevents e' he'
    have herase : (q.pendingDlqEvents.erase (pendingKey x.event)).get? k = some e → ok e := by
      intro hk
      rw [Dict.get?_erase] at hk
      split at hk
      · cases hk
      · exact hq k e hk
    cases hstep with
    | ignored _ => exact hq k e he
    | untracked _ _ => exact hq k e ((dropped_drop q x).pending k e he)
    | stale _ _ _ _ _ _ => exact hq k e ((dropped_drop q x).pending k e he)
    | raised _ _ _ _ _ _ => exact hq k e he
    | failed _ _ _ _ _ _ =>
      change (Dict.set _ _ _).get? k = some e at he
      rw [Dict.get?_set] at he
      split at he
      · cases he
        exact hx
      · exact hq k e he
    | delivered _ _ _ _ _ _ => exact herase he
    | completed _ _ _ _ _ => exact herase he
  exact hend

theorem ledgerInv_processCompleted (h : s.LedgerInv) (publish : Nat → PublishOutcome)
    {events : List CompletionEvent} (hevents : ∀ e ∈ events, e.epoch = 1) :
    (s.processCompleted c publish events).2.LedgerInv := by
  refine ⟨?_, pending_processCompleted h.epoch publish hevents⟩
  have hend : Keyed (processCompletedEvents c.dlq s.offsetTrackers publish s.wm s.pendingDlqEvents s.log events).2.pendingDlqEvents :=
    processEvents_turns (P := fun q : Processing κ π => Keyed q.pendingDlqEvents)
      (fun _ _ _ _ _ _ _ _ hq hstep => keyed_eventStep hq hstep) h.keyed
  exact hend

/-- What is known before a call about the partitions with current items. -/
def Assigns (s : Poller κ π) : Prop :=
  ∀ x : WorkItem (SubmitKey κ) π, x ∈ enqueuedOf x.tp x.key s.wm.log → ∃ r, s.offsetTrackers.get? x.tp = some r

/-- **Processing** resolves what was missing before it or is reported by its events. -/
theorem resolved_processCompleted (hsafe : s.trackers.Safe c.dlq) (h : s.LedgerInv) (hepochs : s.trackers.FirstEpoch)
    {publish : Nat → PublishOutcome} (hpub : ∀ n, publish n ≠ .raised) (events : List CompletionEvent) :
    (s.processCompleted c publish events).1 = true ∧
    ∀ tp o, (∃ r, s.offsetTrackers.get? tp = some r) →
      (s.Resolved tp o ∨ ∃ e ∈ events, e.tp = tp ∧ e.offset = o ∧ e.epoch = 1) →
      (s.processCompleted c publish events).2.Resolved tp o := by
  obtain ⟨p, hp⟩ := @processEvents_returns κ π _ c.dlq s.offsetTrackers publish hpub
    (entering s.wm s.pendingDlqEvents s.log) (eventsToProcess s.pendingDlqEvents events)
  have hrun : processCompletedEvents c.dlq s.offsetTrackers publish s.wm s.pendingDlqEvents s.log events = (true, p) := hp
  have hby : processCompletedEventsBy c.dlq s.offsetTrackers (fun n _ => publish n) s.wm s.pendingDlqEvents s.log
      events = (true, p) := (processEventsBy_const _ _).trans hp
  have hconserved := conserved_of_returned (separate_offsetTrackers hsafe) h.keyed (congrArg Prod.fst hby)
  rw [hby] at hconserved
  have hgrown : TrackerRun c.dlq (fun _ _ => False) (fun _ => True) s.trackers
      (s.processCompleted c publish events).2.trackers := trackerRun_processCompleted c s publish events fun _ _ => trivial
  refine ⟨by unfold processCompleted; rw [hrun], fun tp o htracked hcase => ?_⟩
  obtain ⟨r, hr⟩ := htracked
  obtain ⟨core, hcore, -⟩ := hsafe.owner tp r hr
  obtain ⟨core', hcore', -⟩ := hgrown.grows.cores r core hcore
  have hresult : (s.processCompleted c publish events).2.wm = p.wm ∧
      (s.processCompleted c publish events).2.pendingDlqEvents = p.pendingDlqEvents := by
    unfold processCompleted
    rw [hrun]
    exact ⟨rfl, rfl⟩
  have htracks : Tracks s.offsetTrackers p tp := by
    refine ⟨?_, fun r t ht => ?_⟩
    · rw [show (s.processCompleted c publish events).2.trackers.cores = p.wm.heap.map (·.core) by
        rw [← hresult.1]; rfl, List.getElem?_map] at hcore'
      obtain ⟨t, ht, -⟩ := Option.map_eq_some_iff.mp hcore'
      exact ⟨r, t, hr, ht⟩
    · refine trackerAt_firstEpoch (hgrown.firstEpoch hepochs) ?_ ht
      rw [← hresult.1]
      rfl
  obtain ⟨hwaiting, hreported⟩ := resolvedIn_of_conserved hconserved h.keyed h.epoch (k := (tp, o)) htracks
  have hresolved : ResolvedIn s.offsetTrackers p (tp, o) → (s.processCompleted c publish events).2.Resolved tp o := by
    rintro (⟨r, t, hr, ht, hcov⟩ | hk)
    · refine .inl ⟨r, t.core, hr, ?_, hcov⟩
      have ht' : (s.processCompleted c publish events).2.wm.trackerAt r = some t := hresult.1.symm ▸ ht
      exact cores_eq_of_trackerAt ht'
    · exact .inr (hresult.2.symm ▸ hk)
  rcases hcase with (hcov | hk) | ⟨e, he, rfl, rfl, hepoch⟩
  · exact .inl (covered_of_grows hcov hgrown.grows rfl)
  · exact hresolved (hwaiting hk)
  · exact hresolved (hreported e he rfl hepoch)

theorem Resolved.of_same (h : s.Resolved tp o) (htrackers : s'.trackers = s.trackers)
    (hpending : s'.pendingDlqEvents = s.pendingDlqEvents) : s'.Resolved tp o := by
  unfold Resolved at h ⊢
  rw [htrackers, hpending]
  exact h

theorem workInv_steps {q : WorkManager (SubmitKey κ) π → WorkAction (SubmitKey κ) π → Prop}
    {wm wm' : WorkManager (SubmitKey κ) π} (h : WorkSteps c q wm wm') (hw : WorkInv c.workManager wm.view) :
    WorkInv c.workManager wm'.view :=
  Machine.Steps.invariant (I := fun wm => WorkInv c.workManager wm.view) h hw
    fun _ _ hi he _ => WorkManager.workInv_next hi he

/-- **A drain.** What it takes from the outstanding items it resolves. -/
theorem memory_drain (h : s.MemoryInv) (hsafety : SafetyInv c.dlq s) (hw : WorkInv c.workManager s.wm.view)
    {i : DrainInput κ π} (hlaw : i.env.AcceptsPrefix) (hassigns : (s.drain c i).Assigns)
    (hreports : ∀ e ∈ i.engineEvents ++ i.lateEvents, s.wm.Reported e) (hpub : ∀ n, i.publish n ≠ .raised) :
    (s.drain c i).MemoryInv := by
  obtain ⟨htraced, hwork, hlog, hreported, hmissing⟩ :=
    drainedEvents_memory h.epochs hsafety.shared h.traced hw hlaw hreports
  have htrackers : (s.polled c i).trackers = s.trackers := trackers_polled c s hsafety.shared i
  have hepochs : (s.polled c i).trackers.FirstEpoch := htrackers ▸ h.epochs
  have hevents : ∀ e ∈ (s.drainedEvents c i).1, e.epoch = 1 := by
    intro e he
    obtain ⟨x, hx, hecho⟩ := hreported e he
    exact hecho.epoch.trans (h.traced.epoch x hx)
  by_cases hnone : (s.drainedEvents c i).1 = [] ∧ s.pendingDlqEvents.entries = []
  · have heq : s.drain c i = s.polled c i := by
      unfold drain
      exact if_pos hnone
    rw [heq]
    refine ⟨htraced, hepochs, ⟨h.ledger.keyed, h.ledger.epoch⟩, fun x hx => ?_⟩
    rcases hmissing x hx with hx | ⟨e, he, -⟩
    · exact (h.resolved x hx).of_same htrackers rfl
    · rw [hnone.1] at he
      cases he
  · obtain ⟨hreturned, hresolved⟩ := resolved_processCompleted (c := c) (s := s.polled c i) (htrackers ▸ hsafety.safe)
      ⟨h.ledger.keyed, h.ledger.epoch⟩ hepochs hpub (s.drainedEvents c i).1
    obtain ⟨s2, hs2⟩ : ∃ s2, s2 = ((s.polled c i).processCompleted c i.publish (s.drainedEvents c i).1).2 := ⟨_, rfl⟩
    have heq : s.drain c i = { s2 with wm := s2.wm.schedule c.workManager i.env } := by
      rw [hs2]
      unfold drain
      refine (if_neg hnone).trans ?_
      generalize (s.polled c i).processCompleted c i.publish (s.drainedEvents c i).1 = result at hreturned
      obtain ⟨ok, p⟩ := result
      cases hreturned
      rfl
    have hsteps := workSteps_processCompleted (c := c) allowsMutation_mutates (s.polled c i) i.publish (s.drainedEvents c i).1
    have hwork2 : WorkInv c.workManager s2.wm.view := hs2 ▸ workInv_steps hsteps hwork
    obtain ⟨heap, hheap⟩ := hsteps.heap_only
    rw [← hs2] at hheap hresolved
    have hshared : s2.wm.AllShared := hs2 ▸ allShared_processCompleted c (s.polled c i)
      ((trackerFrame_drainedEvents c s hsafety.shared i).allShared hsafety.shared) _ _
    have hwork3 : WorkInv c.workManager (s2.wm.schedule c.workManager i.env).view :=
      WorkManager.workInv_next (a := .schedule i.env) hwork2 hlaw
    have htraced2 : s2.wm.Traced := by
      rw [hheap]
      exact htraced.of_shrunk rfl (fun _ _ hk => hk) fun _ he => he
    have hframe : (s.drain c i).trackers = s2.trackers := by
      rw [heq]
      exact trackers_of_frame (WorkManager.trackerFrame_schedule s2.wm hshared) rfl rfl
    have hepochs2 : s2.trackers.FirstEpoch := by
      rw [hs2]
      exact TrackerRun.firstEpoch (trackerRun_processCompleted (V := fun _ _ => False) (E := fun _ => True) c _ _ _
        fun _ _ => trivial) hepochs
    have hledger2 : s2.LedgerInv := hs2 ▸ ledgerInv_processCompleted (s := s.polled c i) ⟨h.ledger.keyed, h.ledger.epoch⟩ i.publish hevents
    refine ⟨?_, hframe ▸ hepochs2, ?_, fun x hx => ?_⟩
    · rw [heq]
      exact htraced2.books (@WorkManager.books_schedule _ π _ c.workManager i.env [] s2.wm) hwork3.items
    · rw [heq]
      exact ⟨hledger2.keyed, hledger2.epoch⟩
    · obtain ⟨r, hr⟩ := hassigns x hx.enqueued
      have hkept : s2.wm.view.Missing x := by
        rw [heq] at hx
        exact WorkManager.keeps_next (a := .schedule i.env) hwork2 hlaw (by simp) x hx
      have hpolled : (s.polled c i).wm.view.Missing x := by
        rw [hheap] at hkept
        exact ⟨hkept.enqueued, hkept.queue, hkept.outstanding⟩
      have hmap : (s.drain c i).offsetTrackers = (s.polled c i).offsetTrackers := by
        rw [heq, hs2]
        rfl
      refine Resolved.of_same (s := s2) ?_ hframe (by rw [heq])
      refine hresolved x.tp x.offset ⟨r, hmap ▸ hr⟩ ?_
      rcases hmissing x hpolled with hx | ⟨e, he, hid⟩
      · exact .inl ((h.resolved x hx).of_same htrackers rfl)
      · obtain ⟨y, hy, hecho⟩ := hreported e he
        have hxy : y = x := by
          refine eq_of_id_eq hwork.items.distinct ?_ (mem_enqueuedOf _ hpolled.enqueued).2 (hecho.id.symm.trans hid)
          exact hlog.symm ▸ hy
        subst hxy
        exact .inr ⟨e, he, hecho.tp, hecho.offset, hevents e he⟩

/-! ## The other actions -/

theorem addGrouped_epoch {grouped : DispatchSupport.GroupedMessages κ π} {k : QueueKey (SubmitKey κ)}
    {m : QueuedMessage (SubmitKey κ) π} (h : ∀ g ∈ grouped.entries, ∀ m ∈ g.2, m.epoch = 1) (hm : m.epoch = 1) :
    ∀ g ∈ (DispatchSupport.addGrouped grouped k m).entries, ∀ m ∈ g.2, m.epoch = 1 := by
  intro g hg m' hm'
  have hget : (DispatchSupport.addGrouped grouped k m).get? g.1 = some g.2 := (Dict.mem_entries_iff _).mp hg
  unfold DispatchSupport.addGrouped at hget
  rw [Dict.get?_set] at hget
  split at hget
  · rw [← Option.some.inj hget] at hm'
    rcases List.mem_append.mp hm' with hm' | hm'
    · cases hold : grouped.get? k with
      | none =>
        rw [hold] at hm'
        cases hm'
      | some old =>
        rw [hold] at hm'
        exact h (k, old) ((Dict.mem_entries_iff _).mpr hold) m' hm'
    · exact List.mem_singleton.mp hm' ▸ hm
  · exact h g ((Dict.mem_entries_iff _).mpr hget) m' hm'

/-- The messages of the groups carry the first epoch, that of the trackers. -/
theorem traced_dispatch (ht : s.wm.Traced) (hepochs : s.trackers.FirstEpoch) (messages : List (Message κ π)) :
    (s.dispatch c messages).wm.Traced := by
  let P : DispatchSupport.Loop κ π → Prop := fun l =>
    l.wm.Traced ∧ l.wm.heap.map (·.core) = s.trackers.cores ∧ ∀ g ∈ l.grouped.entries, ∀ m ∈ g.2, m.epoch = 1
  have hone : ∀ (l : DispatchSupport.Loop κ π) (m : Message κ π), P l →
      P (DispatchSupport.dispatchOne c.workManager.orderingMode s.offsetTrackers l m).1 := by
    rintro l m hl
    obtain ⟨htraced, hcores, hgroups⟩ := hl
    unfold DispatchSupport.dispatchOne
    split
    · exact ⟨htraced, hcores, hgroups⟩
    · rename_i tp offset _
      split
      · exact ⟨htraced, hcores, hgroups⟩
      · rename_i tracker htracker
        obtain ⟨r, -, hr⟩ := Option.bind_eq_some_iff.mp htracker
        have hepoch : tracker.epoch = 1 := trackerAt_firstEpoch hepochs hcores hr
        split
        · exact ⟨htraced, hcores, hgroups⟩
        · split
          · have hframe := WorkManager.trackerFrame_submitMessageBatch l.wm
              [((tp, DispatchSupport.submitKey c.workManager.orderingMode tp m.key), [⟨offset, tracker.epoch, m.value, none⟩])]
            exact ⟨htraced.submitMessageBatch _ (by simpa using hepoch), hframe.heap.trans hcores, hgroups⟩
          · exact ⟨htraced, hcores, addGrouped_epoch hgroups hepoch⟩
  have hloop : ∀ (ms : List (Message κ π)) (l : DispatchSupport.Loop κ π), P l →
      P (DispatchSupport.dispatchLoop c.workManager.orderingMode s.offsetTrackers l ms).1 := by
    intro ms
    induction ms with
    | nil => intro l hl; exact hl
    | cons m ms ih =>
      intro l hl
      have h := hone l m hl
      simp only [DispatchSupport.dispatchLoop]
      split
      · rename_i l1 err heq; rw [heq] at h; exact h
      · rename_i l1 heq; rw [heq] at h; exact ih l1 h
  have h := hloop messages ⟨s.wm, .empty, []⟩ ⟨ht, rfl, fun g hg => by cases hg⟩
  show (DispatchSupport.dispatchMessages c.workManager.orderingMode s.offsetTrackers s.wm messages).1.Traced
  unfold DispatchSupport.dispatchMessages
  split
  · rename_i l e heq; rw [heq] at h; exact h.1
  · rename_i l heq
    rw [heq] at h
    split
    · exact h.1
    · exact h.1.submitMessageBatch _ h.2.2

theorem get?_update_of_not_mem {d : Dict TopicPartition TrackerRef} {tp : TopicPartition}
    (l : List (TopicPartition × TrackerRef)) (h : tp ∉ l.map Prod.fst) : (d.update l).get? tp = d.get? tp := by
  induction l generalizing d with
  | nil => rfl
  | cons e l ih =>
    rw [List.map_cons, List.mem_cons, not_or] at h
    refine (ih h.2).trans ?_
    rw [Dict.get?_set, if_neg (Ne.symm h.1)]

/-- Only rebalances change which trackers are installed. -/
theorem offsetTrackers_next (a : PollerAction κ π) (hassign : ∀ committed partitions, a ≠ .assign committed partitions)
    (hcleanup : a ≠ .cleanupRevoke) : ((pollerMachine κ π c).next s a).offsetTrackers = s.offsetTrackers := by
  cases a with
  | assign committed partitions => exact absurd rfl (hassign committed partitions)
  | cleanupRevoke => exact absurd rfl hcleanup
  | prepareRevoke tps =>
    obtain ⟨heap, offsets, heq, -⟩ := prepareRevokeSync_eq (c := c) (s := s) tps
    show (s.prepareRevokeSync c tps).offsetTrackers = s.offsetTrackers
    rw [heq]
    rfl
  | revokeCommit =>
    show s.revokeCommit.offsetTrackers = s.offsetTrackers
    unfold revokeCommit
    split <;> rfl
  | drain i =>
    show (s.drain c i).offsetTrackers = s.offsetTrackers
    rcases drain_cases c s i with heq | heq | ⟨s', hs', heq⟩
    · rw [heq]; rfl
    · rw [heq]; rfl
    · rw [heq, hs']; rfl
  | route =>
    show (s.route c).offsetTrackers = s.offsetTrackers
    unfold route
    split
    · split
      · dsimp only
        split
        · rfl
        · split <;> rfl
      · rfl
    · rfl
  | capture =>
    show (s.capture c).offsetTrackers = s.offsetTrackers
    unfold capture
    split
    · dsimp only
      split <;> rfl
    · rfl
  | directCommit outcome =>
    show (s.directCommit outcome).offsetTrackers = s.offsetTrackers
    unfold directCommit
    split <;> rfl
  | directSettle =>
    show s.directSettle.offsetTrackers = s.offsetTrackers
    unfold directSettle
    split
    · rename_i commits tracked hd
      exact (settles_commitTrackers tracked s).offsetTrackers
    · rfl
  | workerPrepare =>
    show (s.workerPrepare c).offsetTrackers = s.offsetTrackers
    unfold workerPrepare
    split <;> rfl
  | workerCheck =>
    show s.workerCheck.offsetTrackers = s.offsetTrackers
    unfold workerCheck
    split
    · split <;> rfl
    · rfl
  | workerCommit outcome =>
    show (s.workerCommit outcome).offsetTrackers = s.offsetTrackers
    unfold workerCommit
    split <;> rfl
  | workerResume =>
    show s.workerResume.offsetTrackers = s.offsetTrackers
    unfold workerResume
    split
    · dsimp only
      split <;> rfl
    all_goals rfl
  | workerSettle =>
    show s.workerSettle.offsetTrackers = s.offsetTrackers
    unfold workerSettle
    split
    · rename_i settlements hw
      exact (settles_settleAll settlements (s, [])).offsetTrackers
    · rfl
  | workerRetain =>
    show s.workerRetain.offsetTrackers = s.offsetTrackers
    unfold workerRetain
    split <;> rfl
  | _ => rfl

/-- What is resolved stays so, except by a drain, while the partition is held and not being revoked. -/
theorem resolved_next (h : s.Resolved tp o) (hsafety : SafetyInv c.dlq s)
    (hrevoke : ∀ pc, s.revoke = some pc → tp ∉ pc.revokedTps) {r : TrackerRef} (hr : s.offsetTrackers.get? tp = some r)
    {a : PollerAction κ π} (hfresh : FreshAssign s a) (hdrain : ∀ i, a ≠ .drain i) :
    ((pollerMachine κ π c).next s a).Resolved tp o := by
  have hgrows := TrackerRun.grows (trackerRun_next c s hsafety.shared hsafety.holds a)
  have hkept : ((pollerMachine κ π c).next s a).offsetTrackers.get? tp = s.offsetTrackers.get? tp ∧
      ((pollerMachine κ π c).next s a).pendingDlqEvents.get? (tp, o) = s.pendingDlqEvents.get? (tp, o) := by
    by_cases hcleanup : a = .cleanupRevoke
    · subst hcleanup
      show s.cleanupRevokeSync.offsetTrackers.get? tp = _ ∧ s.cleanupRevokeSync.pendingDlqEvents.get? (tp, o) = _
      unfold cleanupRevokeSync
      split
      · exact ⟨rfl, rfl⟩
      · rename_i pc hpc
        have htp := hrevoke pc hpc
        refine ⟨by rw [Dict.get?_eraseAll, if_neg htp], ?_⟩
        rw [Dict.get?_filter]
        cases s.pendingDlqEvents.get? (tp, o) with
        | none => rfl
        | some e => simp [htp]
    · rw [pendingDlqEvents_next a hdrain hcleanup]
      refine ⟨?_, rfl⟩
      cases a with
      | assign committed partitions =>
        obtain ⟨d, hd, -, hfrom⟩ := RebalanceSupport.buildAssignments_ok committed c.strategy c.maxRevokeGraceMs partitions
        show (s.assign c committed partitions).offsetTrackers.get? tp = _
        unfold assign
        rw [hd]
        refine get?_update_of_not_mem _ fun hmem => ?_
        rw [map_fst_allocTrackers] at hmem
        obtain ⟨⟨tp', t⟩, hentry, rfl⟩ := List.mem_map.mp hmem
        obtain ⟨p, hp, hptp, -⟩ := hfrom tp' t ((Dict.mem_entries_iff d).mp hentry)
        have hnone := hfresh p hp
        rw [hptp, hr] at hnone
        cases hnone
      | _ => rw [offsetTrackers_next _ (by simp) hcleanup]
  rcases h with hcov | hk
  · exact .inl (covered_of_grows hcov hgrows hkept.1)
  · refine .inr ?_
    unfold Dict.contains at hk ⊢
    rw [hkept.2]
    exact hk

theorem traced_next (h : s.MemoryInv) (hw : WorkInv c.workManager s.wm.view) {a : PollerAction κ π}
    (hlaw : a.Lawful) (hdrain : ∀ i, a ≠ .drain i) : ((pollerMachine κ π c).next s a).wm.Traced := by
  have hheap : ∀ {wm : WorkManager (SubmitKey κ) π}, WorkSteps c Mutates s.wm wm → wm.Traced := by
    intro wm hsteps
    obtain ⟨heap, rfl⟩ := hsteps.heap_only
    exact h.traced.of_shrunk rfl (fun _ _ hk => hk) fun _ he => he
  have hquiet : ∀ {s' : Poller κ π}, Quiet s s' → s'.wm.Traced := fun hq => hq.wm ▸ h.traced
  have halloc : ∀ (l : List (TopicPartition × OffsetTracker)) (wm : WorkManager (SubmitKey κ) π), wm.Traced →
      (allocTrackers wm l).2.Traced := by
    intro l
    induction l with
    | nil => intro wm hwm; exact hwm
    | cons e l ih => intro wm hwm; exact ih _ (hwm.of_shrunk rfl (fun _ _ hk => hk) fun _ he => he)
  cases a with
  | consumeBegin => exact h.traced
  | consumeEnd => exact h.traced
  | assign committed partitions =>
    show (s.assign c committed partitions).wm.Traced
    unfold assign
    split
    · exact h.traced
    · exact (halloc _ s.wm h.traced).onAssign _
  | prepareRevoke tps =>
    obtain ⟨heap, offsets, heq, -⟩ := prepareRevokeSync_eq (c := c) (s := s) tps
    show (s.prepareRevokeSync c tps).wm.Traced
    rw [heq]
    exact (h.traced.onRevoke (c := c.workManager) hw.filed tps).of_shrunk rfl (fun _ _ hk => hk) fun _ he => he
  | revokeCommit =>
    show s.revokeCommit.wm.Traced
    unfold revokeCommit
    split <;> exact h.traced
  | cleanupRevoke =>
    show s.cleanupRevokeSync.wm.Traced
    unfold cleanupRevokeSync
    split <;> exact h.traced
  | dispatch messages => exact traced_dispatch h.traced h.epochs messages
  | schedule env =>
    have hwork := WorkManager.workInv_next (a := .schedule env) hw hlaw
    exact h.traced.books (@WorkManager.books_schedule _ π _ c.workManager env [] s.wm) hwork.items
  | drain i => exact absurd rfl (hdrain i)
  | scan force => exact h.traced
  | route => exact hquiet (quiet_route c s)
  | capture => exact hquiet (quiet_capture c s)
  | directCommit outcome =>
    show (s.directCommit outcome).wm.Traced
    unfold directCommit
    split <;> exact h.traced
  | directSettle => exact hheap (workSteps_directSettle allowsMutation_mutates s)
  | workerStart => exact h.traced
  | workerPrepare => exact hquiet (quiet_workerPrepare c s)
  | workerCheck => exact hquiet (quiet_workerCheck s)
  | workerCommit outcome =>
    show (s.workerCommit outcome).wm.Traced
    unfold workerCommit
    split <;> exact h.traced
  | workerResume => exact hquiet (quiet_workerResume s)
  | workerSettle => exact hheap (workSteps_workerSettle allowsMutation_mutates s)
  | workerRetain => exact hquiet (quiet_workerRetain s)

end Poller

/-! ## Every run -/

/-- What is asked of a step: rebalances assign partitions that are not held, the engine reports items that
were dispatched, and no publication raises. -/
def TruthfulStep (s : Poller κ π) (a : PollerAction κ π) : Prop :=
  FreshAssign s a ∧
    match a with
    | .drain i => (∀ e ∈ i.engineEvents ++ i.lateEvents, s.wm.Reported e) ∧ ∀ n, i.publish n ≠ .raised
    | _ => True

section Runs

variable {c : PollerConfig} {s : Poller κ π}

theorem work_reachable_of_fresh {p : Poller κ π → PollerAction κ π → Prop} (hp : ∀ s a, p s a → FreshAssign s a)
    (h : (pollerMachine κ π c).ReachableBy p s) : (workMachine (SubmitKey κ) π c.workManager).Reachable s.wm := by
  refine work_reachable restrictsPolls_true (h.mono fun s a ha => ⟨hp s a ha, ?_⟩)
  cases a <;> trivial

/-- A partition with current items has a tracker. -/
theorem assigns_reachable {p : Poller κ π → PollerAction κ π → Prop} (hp : ∀ s a, p s a → FreshAssign s a)
    (h : (pollerMachine κ π c).ReachableBy p s) {x : WorkItem (SubmitKey κ) π}
    (hx : x ∈ enqueuedOf x.tp x.key s.wm.log) : ∃ r, s.wm.offsetTrackers.get? x.tp = some r := by
  have hwork := work_reachable_of_fresh hp h
  have hassigned : s.wm.view.assigned x.tp := by
    by_contra hn
    have hnone : enqueuedOf x.tp x.key s.wm.log = [] := WorkManager.unassigned_reachable hwork x.tp x.key hn
    rw [hnone] at hx
    cases hx
  have htracked : (s.wm.epochOf x.tp).isSome := ((workInv_reachable hwork).queues.tracked x.tp).mpr hassigned
  unfold WorkManager.epochOf at htracked
  rw [Option.isSome_map] at htracked
  exact Option.isSome_iff_exists.mp htracked

/-- No action but a drain loses an item. -/
theorem keeps_next {p : Poller κ π → PollerAction κ π → Prop} (hp : ∀ s a, p s a → FreshAssign s a)
    (hr : (pollerMachine κ π c).ReachableBy p s) {a : PollerAction κ π} (hlaw : a.Lawful) (hfresh : FreshAssign s a)
    (hdrain : ∀ i, a ≠ .drain i) : s.wm.view.Keeps ((pollerMachine κ π c).next s a).wm.view := by
  let noPoll : WorkManager (SubmitKey κ) π → WorkAction (SubmitKey κ) π → Prop :=
    fun _ b => ∀ env events after, b ≠ .poll env events after
  have hpolls : PollsMeet c noPoll s a := by
    cases a with
    | drain i => exact absurd rfl (hdrain i)
    | _ => trivial
  have hsteps : WorkSteps c noPoll s.wm ((pollerMachine κ π c).next s a).wm := by
    refine Poller.workSteps_next (fun _ _ hb => hb) hlaw hpolls ?_
    rintro committed partitions rfl q hq
    by_contra hsome
    obtain ⟨r, hr'⟩ := Option.ne_none_iff_exists'.mp hsome
    have hheld := (agree_reachable hr).trackers _ r hr'
    exact absurd (hheld.symm.trans (hfresh q hq)) (by simp)
  have hboth := Machine.Steps.invariant (I := fun wm => WorkInv c.workManager wm.view ∧ s.wm.view.Keeps wm.view)
    hsteps ⟨workInv_reachable (work_reachable_of_fresh hp hr), fun _ hx => hx⟩
    fun wm b hi he hb => ⟨WorkManager.workInv_next hi.1 he, hi.2.trans (WorkManager.keeps_next hi.1 he hb)⟩
  exact hboth.2

theorem memory_reachable (h : (pollerMachine κ π c).ReachableBy TruthfulStep s) : s.MemoryInv := by
  have hfresh : ∀ (s : Poller κ π) a, TruthfulStep s a → FreshAssign s a := fun _ _ ha => ha.1
  induction h with
  | start hi =>
    obtain ⟨circuit, rfl⟩ := hi
    refine ⟨⟨fun x hx => ?_, fun k id hk => ?_, fun e he => ?_⟩, fun r core hr => ?_, ⟨fun k e hk => ?_, fun k e hk => ?_⟩,
      fun x hx => ?_⟩
    · cases hx
    · cases hk
    · cases he
    · cases hr
    · cases hk
    · cases hk
    · cases hx.enqueued
  | @next s a hr he hp ih =>
    have hnext : (pollerMachine κ π c).ReachableBy TruthfulStep ((pollerMachine κ π c).next s a) := .next hr he hp
    have hsafety := safetyInv_reachable hr
    have hwork := workInv_reachable (work_reachable_of_fresh hfresh hr)
    have hagree := agree_reachable hnext
    by_cases hdrain : ∃ i, a = .drain i
    · obtain ⟨i, rfl⟩ := hdrain
      refine Poller.memory_drain ih hsafety hwork he.2 (fun x hx => ?_) hp.2.1 hp.2.2
      obtain ⟨r, hr'⟩ := assigns_reachable hfresh hnext hx
      exact ⟨r, hagree.trackers x.tp r hr'⟩
    · have hdrain : ∀ i, a ≠ .drain i := fun i hi => hdrain ⟨i, hi⟩
      refine ⟨Poller.traced_next ih hwork he.2 hdrain, ?_, ?_, fun x hx => ?_⟩
      · exact (Poller.trackerRun_next c s hsafety.shared hsafety.holds a).firstEpoch ih.epochs
      · exact ⟨fun k e hk => ih.ledger.keyed k e (Poller.ledger_next a hdrain hk),
          fun k e hk => ih.ledger.epoch k e (Poller.ledger_next a hdrain hk)⟩
      · have hx := keeps_next hfresh hr he.2 hp.1 hdrain x hx
        obtain ⟨r, hr'⟩ := assigns_reachable hfresh hr hx.enqueued
        have hheld := agree_reachable hr
        refine Poller.resolved_next (ih.resolved x hx) hsafety (fun pc hpc htp => ?_) (hheld.trackers x.tp r hr') hp.1 hdrain
        exact absurd ((hheld.revoking pc hpc x.tp htp).symm.trans hr') (by simp)

/-- **No dispatched message is forgotten.** In every run whose steps are truthful, whatever its assignments,
commits and failed publications, every item dispatched under the current assignment of its partition is in
its virtual queue, or off it with no event processed for it, or its offset is covered by the tracker of the
partition, or its failure waits to be published again. -/
theorem dispatched_never_forgotten (h : (pollerMachine κ π c).ReachableBy TruthfulStep s) (tp : TopicPartition)
    (key : SubmitKey κ) {x : WorkItem (SubmitKey κ) π} (hx : x ∈ enqueuedOf tp key s.wm.log) :
    x ∈ s.wm.queueTopology.queueOf tp key ∨ x ∈ outstanding s.wm.log ∨
      (∃ r t, s.tracker? tp = some (r, t) ∧ t.core.Covers x.offset) ∨
      s.pendingDlqEvents.contains (tp, x.offset) = true := by
  obtain ⟨⟨rfl, rfl⟩, -⟩ := mem_enqueuedOf _ hx
  by_cases hqueue : x ∈ s.wm.queueTopology.queueOf x.tp x.key
  · exact .inl hqueue
  by_cases hout : x ∈ outstanding s.wm.log
  · exact .inr (.inl hout)
  rcases (memory_reachable h).resolved x ⟨hx, hqueue, hout⟩ with ⟨r, core, hr, hcore, hcov⟩ | hk
  · rw [show s.trackers.cores = s.wm.heap.map (·.core) from rfl, List.getElem?_map] at hcore
    obtain ⟨t, ht, rfl⟩ := Option.map_eq_some_iff.mp hcore
    exact .inr (.inr (.inl ⟨r, t, Poller.tracker?_eq_some.mpr ⟨hr, ht⟩, hcov⟩))
  · exact .inr (.inr (.inr hk))

end Runs

/-! ## A failure that waits

The second of three messages fails, and its dead letter is not accepted. -/

def secondFails : Poller.DrainInput Nat Unit :=
  { env := acceptingEnv _ _
    engineEvents := [sampleSuccess 0 5, { sampleSuccess 1 6 with status := .failure }]
    timedOut := []
    lateEvents := []
    publish := fun _ => .failed }

theorem dispatched_never_forgotten_failed :
    let M := pollerMachine Nat Unit (sampleConfig false)
    let s := M.next (M.run (.new none) (sampleAssign 5 ++ sampleDispatch [5, 6, 7])) (.drain secondFails)
    let x : WorkItem (SubmitKey Nat) Unit := { firstItem 6 with id := .uuid 1 }
    x ∉ outstanding s.wm.log ∧ s.pendingDlqEvents.contains (⟨"t", 0⟩, 6) = true ∧
      (x ∈ s.wm.queueTopology.queueOf ⟨"t", 0⟩ (.message 7) ∨ x ∈ outstanding s.wm.log ∨
        (∃ r t, s.tracker? ⟨"t", 0⟩ = some (r, t) ∧ t.core.Covers 6) ∨
        s.pendingDlqEvents.contains (⟨"t", 0⟩, 6) = true) := by
  intro M s x
  have hrun : M.ReachableBy TruthfulStep (M.run (.new none) (sampleAssign 5 ++ sampleDispatch [5, 6, 7])) := by
    have hassign : ∀ p ∈ [(⟨"t", 0, -1001, none⟩ : KafkaTopicPartition)],
        (M.next (.new none) .consumeBegin).offsetTrackers.get? p.toDto = none := by decide
    refine M.reachableBy_run _ (.start ⟨none, rfl⟩) ?_
    exact ⟨⟨by decide, trivial⟩, ⟨trivial, trivial⟩, ⟨by decide, trivial⟩, ⟨hassign, trivial⟩,
      ⟨by decide, trivial⟩, ⟨trivial, trivial⟩, ⟨by decide, trivial⟩, ⟨trivial, trivial⟩,
      ⟨by decide, acceptsPrefix_acceptingEnv⟩, ⟨trivial, trivial⟩, trivial⟩
  have hreports : ∀ e ∈ secondFails.engineEvents ++ secondFails.lateEvents,
      (M.run (.new none) (sampleAssign 5 ++ sampleDispatch [5, 6, 7])).wm.Reported e := by
    intro e he
    have hevents : e = sampleSuccess 0 5 ∨ e = { sampleSuccess 1 6 with status := .failure } := by
      simpa [secondFails] using he
    rcases hevents with rfl | rfl
    · exact ⟨firstItem 5, by decide, rfl, rfl, rfl, rfl⟩
    · exact ⟨x, by decide, rfl, rfl, rfl, rfl⟩
  have hreached : M.ReachableBy TruthfulStep s :=
    .next hrun ⟨by decide, acceptsPrefix_acceptingEnv⟩ ⟨trivial, hreports, by simp [secondFails]⟩
  exact ⟨by decide, by decide, dispatched_never_forgotten hreached _ _ (by decide)⟩

end PyrallelConsumer
