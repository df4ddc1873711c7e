import PyrallelConsumer.CoordinatorLeases

/-!
# PyrallelConsumer.CoordinatorOrder

Which candidate of a partition the commit coordinator keeps. Every operation replaces a pending
candidate by a newer one only, but for one: a batch that failed with `KafkaException` is put back over
whatever is pending by then.

* `RetryClear` — no retry finds a pending candidate of a partition it puts back.
* `newer_candidates_kept` — in runs of such steps no accepted candidate is lost, and a step is one of
  them exactly when it replaces no pending candidate by an older one.
-/

namespace PyrallelConsumer

open CommitCoordinator

/-! ## Taking a batch -/

theorem takeBatch_get? {s : CommitCoordinator} (hs : s.Keyed) {tp : TopicPartition}
    {c : CommitCandidate} (h : s.pending.get? tp = some c) :
    s.takeBatch.2.inFlight.get? tp = some c := by
  have htp := hs.pending tp c h
  have hopen : s.takeBatch.2.inFlight.get? tp ≠ none := by
    rw [takeBatch_eq_update]
    rcases Dict.get?_update (s.takeBatch.1.map fun c => (c.tp, c)) .empty tp with
      ⟨v, -, hv⟩ | ⟨hnot, -⟩
    · rw [hv]; exact Option.some_ne_none v
    · refine absurd ?_ hnot
      rw [List.map_map]
      exact List.mem_map.mpr ⟨c, mem_takeBatch.mpr ⟨tp, h⟩, htp⟩
  obtain ⟨d, hd⟩ := Option.ne_none_iff_exists'.mp hopen
  obtain ⟨hmem, hdtp⟩ := takeBatch_inFlight hd
  obtain ⟨tp', htp'⟩ := mem_takeBatch.mp hmem
  have heq : tp' = tp := (hs.pending tp' d htp').symm.trans hdtp
  rw [heq, h] at htp'
  rw [hd, htp']

/-! ## What is kept -/

/-- The candidate is pending or in flight. -/
def CommitCoordinator.Carries (s : CommitCoordinator) (c : CommitCandidate) : Prop :=
  s.pending.get? c.tp = some c ∨ s.inFlight.get? c.tp = some c

/-- Every coalesced candidate gave way to a newer one of its partition. -/
def CoalescedIntoNewer (log : List CoordinatorEvent) : Prop :=
  ∀ newer c older, log = newer ++ .coalesced c :: older →
    ∃ newer' d, newer = newer' ++ [.accepted d] ∧ d.tp = c.tp ∧ c.safeOffset < d.safeOffset

/-- Nothing accepted is lost. -/
structure NothingLost (s : CommitCoordinator) (w : CoordinatorPc) (log : List CoordinatorEvent) :
    Prop where
  kept : ∀ c ∈ acceptedIn log, s.Carries c ∨ c ∈ droppedIn log ∨ c ∈ settledIn log
  settled : w.isSettling = true → ∀ tp c, s.inFlight.get? tp = some c → c ∈ settledIn log
  coalesced : CoalescedIntoNewer log

theorem coalescedIntoNewer_append {log : List CoordinatorEvent} (h : CoalescedIntoNewer log)
    (l : List CoordinatorEvent) (hl : ∀ c, .coalesced c ∉ l) : CoalescedIntoNewer (l ++ log) := by
  induction l with
  | nil => exact h
  | cons e l ih =>
    have ih := ih fun c hc => hl c (List.mem_cons_of_mem _ hc)
    intro newer c older heq
    cases newer with
    | nil =>
      rw [List.nil_append, List.cons_append, List.cons.injEq] at heq
      exact absurd (heq.1 ▸ List.mem_cons_self) (hl c)
    | cons e' newer =>
      rw [List.cons_append, List.cons_append, List.cons.injEq] at heq
      obtain ⟨newer', d, rfl, hd⟩ := ih newer c older heq.2
      exact ⟨e' :: newer', d, rfl, hd⟩

namespace NothingLost

variable {config : CommitCoordinatorConfig} {s s' : CommitCoordinator} {w w' : CoordinatorPc}
  {log : List CoordinatorEvent}

/-- The step accepts nothing, and what the outbox lost is in the log. -/
theorem step (h : NothingLost s w log) {l : List CoordinatorEvent} (hacc : acceptedIn l = [])
    (hl : ∀ c, .coalesced c ∉ l)
    (hkept : ∀ c, s.Carries c → s'.Carries c ∨ c ∈ droppedIn (l ++ log) ∨ c ∈ settledIn (l ++ log))
    (hsettled : w'.isSettling = true → ∀ tp c, s'.inFlight.get? tp = some c →
      c ∈ settledIn (l ++ log)) : NothingLost s' w' (l ++ log) := by
  refine ⟨fun c hc => ?_, hsettled, coalescedIntoNewer_append h.coalesced l hl⟩
  rw [acceptedIn_append, hacc, List.nil_append] at hc
  rcases h.kept c hc with hc | hc | hc
  · exact hkept c hc
  · rw [droppedIn_append]; exact .inr (.inl (List.mem_append_right _ hc))
  · rw [settledIn_append]; exact .inr (.inr (List.mem_append_right _ hc))

theorem not_coalesced_cancelled (l : List CommitCandidate) (c : CommitCandidate) :
    CoordinatorEvent.coalesced c ∉ l.map .cancelled := by
  intro h
  obtain ⟨d, -, hd⟩ := List.mem_map.mp h
  cases hd

theorem accept (h : NothingLost s w log) (hk : s.Keyed) {c : CommitCandidate}
    (hadm : Admitted config s c) :
    NothingLost ((s.cancelPending c.tp).accept c) w (s.acceptEvents c ++ log) := by
  have haccepts := accepts_accept s c
  obtain ⟨hacc, hset, hdrop⟩ := CommitLeases.acceptEvents_cases s c
  refine ⟨fun d hd => ?_, fun hw tp d hd => ?_, ?_⟩
  · rw [acceptedIn_append, hacc, List.singleton_append, List.mem_cons] at hd
    rw [droppedIn_append, settledIn_append, hset, List.nil_append, List.mem_append, hdrop]
    unfold CommitCoordinator.Carries
    rw [haccepts.pending, haccepts.frame.inFlight, Dict.get?_set]
    rcases hd with rfl | hd
    · exact .inl (.inl (if_pos rfl))
    · rcases h.kept d hd with (hd | hd) | hd | hd
      · by_cases htp : c.tp = d.tp
        · rw [htp]; exact .inr (.inl (.inl hd))
        · rw [if_neg htp]; exact .inl (.inl hd)
      · exact .inl (.inr hd)
      · exact .inr (.inl (.inr hd))
      · exact .inr (.inr hd)
  · rw [haccepts.frame.inFlight] at hd
    rw [settledIn_append, hset, List.nil_append]
    exact h.settled hw tp d hd
  · unfold acceptEvents
    cases hcur : s.pending.get? c.tp with
    | none =>
      exact coalescedIntoNewer_append h.coalesced [_] fun d hd => by
        rw [List.mem_singleton] at hd; cases hd
    | some current =>
      -- the accepted candidate stands right before the one that gave way
      intro newer d older heq
      match newer with
      | [] => cases heq
      | [e] =>
        simp only [List.cons_append, List.nil_append, List.cons.injEq] at heq
        obtain ⟨rfl, hcd, -⟩ := heq
        cases hcd
        exact ⟨[], _, rfl, (hk.pending _ _ hcur).symm, hadm.newer _ hcur⟩
      | e :: e' :: newer =>
        simp only [List.cons_append, List.nil_append, List.cons.injEq] at heq
        obtain ⟨newer', d', rfl, hd'⟩ := h.coalesced newer d older heq.2.2
        exact ⟨e :: e' :: newer', d', rfl, hd'⟩

theorem enqueueCall (h : NothingLost s w log) (hk : s.Keyed) (cs : List CommitCandidate) :
    NothingLost (s.enqueueCall config cs).coordinator w ((s.enqueueCall config cs).events ++ log) := by
  refine (enqueueCall_induction (P := fun s events => s.Keyed ∧ NothingLost s w (events ++ log))
    ?_ ?_ ⟨hk, h⟩ cs).2
  · exact fun s n events h => ⟨⟨h.1.pending, h.1.inFlight⟩, h.2.kept, h.2.settled, h.2.coalesced⟩
  · intro s c events h hadm
    rw [List.append_assoc]
    exact ⟨keyed_accept h.1 (accepts_accept s c), h.2.accept h.1 hadm⟩

theorem stopAcceptingPartitions (h : NothingLost s w log) (hk : s.Keyed) (tps : List TopicPartition) :
    NothingLost (s.stopAcceptingPartitions tps) w
      ((s.pending.values.filter (·.tp ∈ tps)).map .cancelled ++ log) := by
  obtain ⟨hp, hf, -, -⟩ := stopAcceptingPartitions_spec tps s
  obtain ⟨hacc, hdrop, hset⟩ := cancelled_events (s.pending.values.filter (·.tp ∈ tps))
  refine h.step hacc (not_coalesced_cancelled _) (fun c hc => ?_) (fun hw tp c hc => ?_)
  · rcases hc with hc | hc
    · by_cases htp : c.tp ∈ tps
      · refine .inr (.inl ?_)
        rw [droppedIn_append, hdrop]
        exact List.mem_append_left _ ((CommitLeases.mem_pendingOf hk).mpr ⟨htp, hc⟩)
      · exact .inl (.inl ((hp c.tp).trans ((if_neg htp).trans hc)))
    · exact .inl (.inr (hf ▸ hc))
  · rw [settledIn_append, hset, List.nil_append]
    exact h.settled hw tp c (hf ▸ hc)

theorem cancelLeases (h : NothingLost s w log) (tps : List TopicPartition) :
    NothingLost (s.cancelLeases tps) w
      (((s.pending.values ++ s.inFlight.values).filter (·.tp ∈ tps)).map .cancelled ++ log) := by
  obtain ⟨hp, hf, -, -⟩ := cancelLeases_spec tps s
  obtain ⟨hacc, hdrop, hset⟩ :=
    cancelled_events ((s.pending.values ++ s.inFlight.values).filter (·.tp ∈ tps))
  refine h.step hacc (not_coalesced_cancelled _) (fun c hc => ?_) (fun hw tp c hc => ?_)
  · by_cases htp : c.tp ∈ tps
    · refine .inr (.inl ?_)
      rw [droppedIn_append, hdrop]
      refine List.mem_append_left _ (List.mem_filter.mpr ⟨List.mem_append.mpr ?_, decide_eq_true htp⟩)
      exact hc.imp (fun hc => (Dict.mem_values_iff _).mpr ⟨c.tp, hc⟩)
        (fun hc => (Dict.mem_values_iff _).mpr ⟨c.tp, hc⟩)
    · exact .inl (hc.imp (fun hc => (hp c.tp).trans ((if_neg htp).trans hc))
        (fun hc => (hf c.tp).trans ((if_neg htp).trans hc)))
  · rw [settledIn_append, hset, List.nil_append]
    exact h.settled hw tp c (inFlight_of_cancelLeases hc).2

theorem takeBatch (h : NothingLost s .idle log) (hl : CommitLeases s .idle log) :
    NothingLost s.takeBatch.2 (.committing s.takeBatch.1) log := by
  refine h.step (l := []) rfl (fun _ => List.not_mem_nil) (fun c hc => ?_) (fun hw => by cases hw)
  rcases hc with hc | hc
  · exact .inl (.inr (takeBatch_get? hl.keyed hc))
  · exact absurd (hl.inFlight _ c hc).1 List.not_mem_nil

theorem clearInFlight (h : NothingLost s w log)
    (hf : ∀ tp c, s.inFlight.get? tp = some c → c ∈ settledIn log) :
    NothingLost s.clearInFlight .idle log := by
  refine h.step (l := []) rfl (fun _ => List.not_mem_nil) (fun c hc => ?_) (fun hw => by cases hw)
  rcases hc with hc | hc
  · exact .inl (.inl hc)
  · exact .inr (.inr (hf _ c hc))

theorem abortBatch (h : NothingLost s w log) (hl : CommitLeases s w log) :
    NothingLost (s.abortBatch w.batch) .idle (w.batch.map .cancelled ++ log) := by
  obtain ⟨hacc, hdrop, -⟩ := cancelled_events w.batch
  have hp := (abortBatch_fields s w.batch).1
  refine h.step hacc (not_coalesced_cancelled _) (fun c hc => ?_) (fun hw => by cases hw)
  rcases hc with hc | hc
  · exact .inl (.inl (hp ▸ hc))
  · refine .inr (.inl ?_)
    rw [droppedIn_append, hdrop]
    exact List.mem_append_left _ (hl.inFlight _ c hc).1

/-- Where no newer candidate waits for its partition, a retried batch loses nothing. -/
theorem retryBatch (h : NothingLost s w log) (hl : CommitLeases s w log)
    (hclear : ∀ c ∈ w.batch, CommitCandidate.activeIn s c = true → s.pending.get? c.tp = none) :
    NothingLost (s.retryBatch w.batch) .idle log := by
  obtain ⟨hset, hkeep⟩ := retryBatch_get? hl.batchNodup
  refine h.step (l := []) rfl (fun _ => List.not_mem_nil) (fun c hc => ?_) (fun hw => by cases hw)
  rcases hc with hc | hc
  · refine .inl (.inl ((hkeep c.tp fun b hb hactive heq => ?_).trans hc))
    have hnone := hclear b hb hactive
    rw [heq, hc] at hnone
    cases hnone
  · have hmem := (hl.inFlight _ c hc).1
    exact .inl (.inl (hset c hmem ((hl.activeIn_iff hmem).mpr hc)))

theorem recordSettled {batch : List CommitCandidate} (h : NothingLost s (.committing batch) log)
    (hl : CommitLeases s (.committing batch) log) :
    NothingLost (s.recordSettled (s.activeOf batch)) (.settling batch (s.activeOf batch))
      ((s.activeOf batch).reverse.map .settled ++ .committed batch :: log) := by
  obtain ⟨hacc, -, hset⟩ := settled_events (s.activeOf batch).reverse
  have hlog : (s.activeOf batch).reverse.map .settled ++ .committed batch :: log =
      ((s.activeOf batch).reverse.map .settled ++ [.committed batch]) ++ log := by simp
  rw [hlog]
  refine h.step ?_ (fun c hc => ?_) (fun c hc => .inl hc) (fun _ tp c hc => ?_)
  · rw [acceptedIn_append, hacc]; rfl
  · rcases List.mem_append.mp hc with hc | hc
    · obtain ⟨d, -, hd⟩ := List.mem_map.mp hc; cases hd
    · rw [List.mem_singleton] at hc; cases hc
  · have hmem := (hl.inFlight tp c hc).1
    have htp := hl.keyed.inFlight tp c hc
    have hactive : c ∈ s.activeOf batch :=
      List.mem_filter.mpr ⟨hmem, (hl.activeIn_iff hmem).mpr (htp ▸ hc)⟩
    rw [settledIn_append, settledIn_append, hset]
    exact List.mem_append_left _ (List.mem_append_left _ (List.mem_reverse.mpr hactive))

end NothingLost

/-! ## Runs -/

namespace CoordinatorRun

variable {config : CommitCoordinatorConfig} {r : CoordinatorRun}

/-- A batch that failed with `KafkaException` is not put back over a pending candidate: none is there
for a partition whose lease in the batch is still active. -/
def RetryClear (r : CoordinatorRun) (a : CoordinatorAction) : Prop :=
  match a, r.worker with
  | .callback _, .failing batch _ .kafkaException =>
    ∀ c ∈ batch, CommitCandidate.activeIn r.coordinator c = true →
      r.coordinator.pending.get? c.tp = none
  | _, _ => True

theorem nothingLost_endBatch (h : NothingLost r.coordinator r.worker r.log)
    (hl : CommitLeases r.coordinator r.worker r.log) {batch : List CommitCandidate}
    (hb : r.worker.batch = batch) (reason : CommitFailureReason)
    (hclear : reason = .kafkaException → ∀ c ∈ batch,
      CommitCandidate.activeIn r.coordinator c = true → r.coordinator.pending.get? c.tp = none) :
    NothingLost (r.endBatch batch reason).coordinator (r.endBatch batch reason).worker
      (r.endBatch batch reason).log := by
  subst hb
  unfold endBatch
  split
  · rename_i hreason; exact h.retryBatch hl (hclear hreason)
  · exact h.abortBatch hl

theorem nothingLost_failBatch {batch : List CommitCandidate}
    (h : NothingLost r.coordinator r.worker r.log) (hl : CommitLeases r.coordinator r.worker r.log)
    (hw : r.worker = .committing batch) (reason : CommitFailureReason) :
    NothingLost (r.failBatch batch reason).coordinator (r.failBatch batch reason).worker
      (r.failBatch batch reason).log := by
  unfold failBatch
  dsimp only
  split
  · rename_i hnil
    refine nothingLost_endBatch h hl (by rw [hw]; rfl) reason fun _ c hc hactive => ?_
    have hmem : c ∈ r.coordinator.activeOf batch := List.mem_filter.mpr ⟨hc, hactive⟩
    rw [hnil] at hmem
    cases hmem
  · exact ⟨h.kept, fun hs => (by cases hs), h.coalesced⟩

theorem nothingLost_commitSync (h : NothingLost r.coordinator r.worker r.log)
    (hl : CommitLeases r.coordinator r.worker r.log) (outcome : CommitSyncOutcome) :
    NothingLost (r.commitSync outcome).coordinator (r.commitSync outcome).worker
      (r.commitSync outcome).log := by
  unfold commitSync
  split
  · rename_i batch hw
    cases outcome with
    | returned =>
      have hset := NothingLost.recordSettled (hw ▸ h) (hw ▸ hl)
      dsimp only [settleBatch]
      split
      · rename_i hnil
        rw [hnil] at hset ⊢
        exact hset.clearInFlight (hset.settled rfl)
      · exact hset
    | kafkaException => exact nothingLost_failBatch h hl hw _
    | commitBatchAborted => exact nothingLost_failBatch h hl hw _
    | exception =>
      refine nothingLost_failBatch (r := { r with coordinator := r.coordinator.crash })
        ⟨h.kept, h.settled, h.coalesced⟩ (hl.frame rfl rfl rfl rfl) hw _
  · exact h

/-- The coordinator when the callback has ended. -/
def afterCallback (r : CoordinatorRun) (raised : Bool) : CommitCoordinator :=
  if raised then r.coordinator.crash else r.coordinator

theorem callback_eq (raised : Bool) :
    r.callback raised = match r.worker with
      | .settling _ _ => { r with coordinator := (r.afterCallback raised).clearInFlight, worker := .idle }
      | .failing batch _ reason =>
        { r with coordinator := r.afterCallback raised }.endBatch batch reason
      | _ => { r with coordinator := r.afterCallback raised } := by
  cases raised <;> rfl

theorem afterCallback_same (raised : Bool) :
    (r.afterCallback raised).pending = r.coordinator.pending ∧
      ∀ c, CommitCandidate.activeIn (r.afterCallback raised) c = CommitCandidate.activeIn r.coordinator c := by
  cases raised <;> exact ⟨rfl, fun _ => rfl⟩

theorem nothingLost_callback (h : NothingLost r.coordinator r.worker r.log)
    (hl : CommitLeases r.coordinator r.worker r.log) {raised : Bool} (hclear : RetryClear r (.callback raised)) :
    NothingLost (r.callback raised).coordinator (r.callback raised).worker (r.callback raised).log := by
  unfold RetryClear at hclear
  obtain ⟨hp, hact⟩ := @afterCallback_same r raised
  -- a callback that raises only clears flags
  have hafter : NothingLost (r.afterCallback raised) r.worker r.log ∧
      CommitLeases (r.afterCallback raised) r.worker r.log := by
    cases raised with
    | true => exact ⟨⟨h.kept, h.settled, h.coalesced⟩, hl.frame rfl rfl rfl rfl⟩
    | false => exact ⟨h, hl⟩
  obtain ⟨h, hl⟩ := hafter
  rw [callback_eq]
  split
  · rename_i batch settlements hs
    exact h.clearInFlight (h.settled (by rw [hs]; rfl))
  · rename_i batch settlements reason hs
    refine nothingLost_endBatch (r := { r with coordinator := r.afterCallback raised }) h hl
      (show r.worker.batch = batch by rw [hs]; rfl) reason fun hreason c hc hactive => ?_
    rw [hs, hreason] at hclear
    rw [hp]
    exact hclear c hc ((hact c).symm.trans hactive)
  · exact h

theorem nothingLost_step (h : NothingLost r.coordinator r.worker r.log)
    (hl : CommitLeases r.coordinator r.worker r.log) {a : CoordinatorAction} (hready : r.ready a = true)
    (hclear : RetryClear r a) :
    NothingLost (r.step config a).coordinator (r.step config a).worker (r.step config a).log := by
  cases a with
  | enqueue candidates => exact h.enqueueCall hl.keyed candidates
  | stopAccepting => exact ⟨h.kept, h.settled, h.coalesced⟩
  | stopAcceptingPartitions tps => exact h.stopAcceptingPartitions hl.keyed tps
  | startAcceptingPartitions tps => exact ⟨h.kept, h.settled, h.coalesced⟩
  | cancelLeases tps => exact h.cancelLeases tps
  | takeBatch =>
    simp only [ready, Bool.and_eq_true, decide_eq_true_eq] at hready
    have hw := hready.1.1
    rw [hw] at h hl
    exact h.takeBatch hl
  | commitSync outcome => exact nothingLost_commitSync h hl outcome
  | callback raised => exact nothingLost_callback h hl hclear

theorem nothingLost_reachable (h : (coordinatorMachine config).ReachableBy RetryClear r) :
    CommitLeases r.coordinator r.worker r.log ∧ NothingLost r.coordinator r.worker r.log := by
  refine (coordinatorMachine config).invariant
    (I := fun r => CommitLeases r.coordinator r.worker r.log ∧ NothingLost r.coordinator r.worker r.log)
    (fun r hr => ?_) (fun r a hI he hc => ⟨?_, nothingLost_step hI.2 hI.1 he hc⟩) h
  · rw [show r = {} from hr]
    refine ⟨commitLeases_start, fun _ hc => (by cases hc), fun hs => (by cases hs), ?_⟩
    exact fun newer c older heq => by cases newer <;> cases heq
  · exact invariant_step (I := fun r => CommitLeases r.coordinator r.worker r.log)
      (fun _ _ hI hstep => commitLeases_step hI hstep) hI.1 he

/-! ## The order of the pending candidates -/

/-- No pending candidate is replaced by an older one. -/
def KeepsNewer (s s' : CommitCoordinator) : Prop :=
  ∀ tp p p', s.pending.get? tp = some p → s'.pending.get? tp = some p' → p.safeOffset ≤ p'.safeOffset

theorem keepsNewer_of_pending {s s' : CommitCoordinator}
    (h : ∀ tp c, s'.pending.get? tp = some c → s.pending.get? tp = some c) : KeepsNewer s s' := by
  intro tp p p' hp hp'
  rw [h tp p' hp'] at hp
  cases hp
  exact Int.le_refl _

theorem keepsNewer_enqueueCall (s : CommitCoordinator) (cs : List CommitCandidate) :
    KeepsNewer s (s.enqueueCall config cs).coordinator := by
  have hgrows : ∀ tp p, s.pending.get? tp = some p →
      ∃ p', (s.enqueueCall config cs).coordinator.pending.get? tp = some p' ∧
        p.safeOffset ≤ p'.safeOffset := by
    refine enqueueCall_induction (P := fun t _ => ∀ tp p, s.pending.get? tp = some p →
      ∃ p', t.pending.get? tp = some p' ∧ p.safeOffset ≤ p'.safeOffset) ?_ ?_ ?_ cs
    · exact fun _ _ _ h => h
    · intro t c _ h hadm tp p hp
      obtain ⟨p', hp', hle⟩ := h tp p hp
      rw [(accepts_accept t c).pending, Dict.get?_set]
      split
      · rename_i heq
        subst heq
        exact ⟨_, rfl, Int.le_trans hle (Int.le_of_lt (hadm.newer p' hp'))⟩
      · exact ⟨p', hp', hle⟩
    · exact fun tp p hp => ⟨p, hp, Int.le_refl _⟩
  intro tp p p' hp hp'
  obtain ⟨q, hq, hle⟩ := hgrows tp p hp
  rw [hp'] at hq
  cases hq
  exact hle

/-- The end of `commit_sync` leaves the pending candidates alone: a batch that is retried at once has
no active lease. -/
theorem pending_commitSync (hl : CommitLeases r.coordinator r.worker r.log) (outcome : CommitSyncOutcome)
    (tp : TopicPartition) :
    (r.commitSync outcome).coordinator.pending.get? tp = r.coordinator.pending.get? tp := by
  have hfail : ∀ (s : CommitCoordinator) (batch : List CommitCandidate) (reason : CommitFailureReason),
      (batch.map (·.tp)).Nodup →
      ({ r with coordinator := s }.failBatch batch reason).coordinator.pending.get? tp =
        s.pending.get? tp := by
    intro s batch reason hn
    unfold failBatch
    dsimp only
    split
    · rename_i hnil
      unfold endBatch
      split
      · refine (retryBatch_get? hn).2 tp fun c hc hactive => ?_
        have hmem : c ∈ s.activeOf batch := List.mem_filter.mpr ⟨hc, hactive⟩
        rw [hnil] at hmem
        cases hmem
      · exact congrArg (·.get? tp) (abortBatch_fields s batch).1
    · rfl
  unfold commitSync
  split
  · rename_i batch hw
    have hn : (batch.map (·.tp)).Nodup := by
      have hn := hl.batchNodup
      rw [hw] at hn
      exact hn
    cases outcome with
    | returned => dsimp only [settleBatch]; split <;> rfl
    | kafkaException => exact hfail r.coordinator batch _ hn
    | commitBatchAborted => exact hfail r.coordinator batch _ hn
    | exception => exact hfail r.coordinator.crash batch _ hn
  · rfl

/-- The retry of a batch: it keeps the newer candidates exactly when it finds none. -/
theorem keepsNewer_retryBatch {batch settlements : List CommitCandidate} {s : CommitCoordinator}
    (hl : CommitLeases r.coordinator r.worker r.log)
    (hw : r.worker = .failing batch settlements .kafkaException)
    (hp : s.pending = r.coordinator.pending)
    (hact : ∀ c, CommitCandidate.activeIn s c = CommitCandidate.activeIn r.coordinator c) :
    KeepsNewer r.coordinator (s.retryBatch batch) ↔
      ∀ c ∈ batch, CommitCandidate.activeIn r.coordinator c = true →
        r.coordinator.pending.get? c.tp = none := by
  have hbatch : r.worker.batch = batch := by rw [hw]; rfl
  have hn := hl.batchNodup
  rw [hbatch] at hn
  obtain ⟨hset, hkeep⟩ := @retryBatch_get? s batch hn
  constructor
  · intro hkeeps c hc hca
    refine Option.eq_none_iff_forall_ne_some.mpr fun p hpend => ?_
    have hle := hkeeps c.tp p c hpend (hset c hc ((hact c).trans hca))
    -- the candidate in flight is the older one
    have hflight := (hl.activeIn_iff (hbatch ▸ hc)).mp hca
    have hlt := hl.order c.tp p c hpend hflight
    omega
  · intro hclear tp p p' hpend hp'
    have hsame := hkeep tp fun c hc hca heq => by
      have hnone := hclear c hc ((hact c).symm.trans hca)
      rw [heq, hpend] at hnone
      cases hnone
    rw [hsame, hp, hpend] at hp'
    cases hp'
    exact Int.le_refl _

theorem keepsNewer_callback (hl : CommitLeases r.coordinator r.worker r.log) (raised : Bool) :
    KeepsNewer r.coordinator (r.callback raised).coordinator ↔ RetryClear r (.callback raised) := by
  obtain ⟨hp, hact⟩ := @afterCallback_same r raised
  have hsame : KeepsNewer r.coordinator (r.afterCallback raised) :=
    keepsNewer_of_pending fun _ _ h => hp ▸ h
  rw [callback_eq]
  unfold RetryClear
  cases hw : r.worker with
  | idle => exact ⟨fun _ => trivial, fun _ => hsame⟩
  | committing batch => exact ⟨fun _ => trivial, fun _ => hsame⟩
  | settling batch settlements => exact ⟨fun _ => trivial, fun _ => hsame⟩
  | failing batch settlements reason =>
    have hother : reason ≠ .kafkaException → KeepsNewer r.coordinator
        ({ r with coordinator := r.afterCallback raised }.endBatch batch reason).coordinator := by
      intro hreason
      refine keepsNewer_of_pending fun tp c h => ?_
      unfold endBatch at h
      rw [if_neg hreason] at h
      rw [← hp, ← (abortBatch_fields (r.afterCallback raised) batch).1]
      exact h
    cases reason with
    | kafkaException => exact keepsNewer_retryBatch hl hw hp hact
    | queueFull => exact ⟨fun _ => trivial, fun _ => hother (fun h => by cases h)⟩
    | workerCrash => exact ⟨fun _ => trivial, fun _ => hother (fun h => by cases h)⟩
    | staleLease => exact ⟨fun _ => trivial, fun _ => hother (fun h => by cases h)⟩

/-- A step replaces no pending candidate by an older one exactly when it is no retry over a newer
candidate. -/
theorem keepsNewer_iff (hl : CommitLeases r.coordinator r.worker r.log) (a : CoordinatorAction) :
    KeepsNewer r.coordinator (r.step config a).coordinator ↔ RetryClear r a := by
  cases a with
  | enqueue candidates => exact ⟨fun _ => trivial, fun _ => keepsNewer_enqueueCall _ candidates⟩
  | stopAccepting => exact ⟨fun _ => trivial, fun _ => keepsNewer_of_pending fun _ _ h => h⟩
  | stopAcceptingPartitions tps =>
    exact ⟨fun _ => trivial,
      fun _ => keepsNewer_of_pending fun _ _ h => (pending_of_stopAcceptingPartitions h).2⟩
  | startAcceptingPartitions tps => exact ⟨fun _ => trivial, fun _ => keepsNewer_of_pending fun _ _ h => h⟩
  | cancelLeases tps =>
    exact ⟨fun _ => trivial, fun _ => keepsNewer_of_pending fun _ _ h => (pending_of_cancelLeases h).2⟩
  | takeBatch => exact ⟨fun _ => trivial, fun _ => keepsNewer_of_pending fun _ _ h => by cases h⟩
  | commitSync outcome =>
    refine ⟨fun _ => trivial, fun _ => keepsNewer_of_pending fun tp c h => ?_⟩
    exact (pending_commitSync hl outcome tp).symm.trans h
  | callback raised => exact keepsNewer_callback hl raised

/-- **Newer candidates.** In every run whose retries find no pending candidate of a partition they put
back, every accepted candidate is pending or in flight, was settled, was coalesced into a newer one or
was cancelled; and the next step replaces no pending candidate by an older one exactly when it is such
a step too. -/
theorem newer_candidates_kept (config : CommitCoordinatorConfig) (r : CoordinatorRun)
    (h : (coordinatorMachine config).ReachableBy RetryClear r) :
    (∀ c ∈ acceptedIn r.log,
      r.coordinator.Carries c ∨ c ∈ droppedIn r.log ∨ c ∈ settledIn r.log) ∧
    CoalescedIntoNewer r.log ∧
    ∀ a, r.ready a = true →
      (KeepsNewer r.coordinator (r.step config a).coordinator ↔ RetryClear r a) := by
  obtain ⟨hl, hacc⟩ := nothingLost_reachable h
  exact ⟨hacc.kept, hacc.coalesced, fun a _ => keepsNewer_iff hl a⟩

section Examples

/-- A batch fails, is retried, and its candidate gives way to a newer one. -/
def retriedThenNewer : List CoordinatorAction :=
  [.enqueue [sampleCandidate 0 5], .takeBatch, .commitSync .kafkaException, .callback false,
    .enqueue [sampleCandidate 0 7]]

theorem newer_candidates_kept_retriedThenNewer :
    let r := (coordinatorMachine outboxOfTwo).run {} retriedThenNewer
    (acceptedIn r.log).map (·.safeOffset) = [7, 5] ∧
    (∀ c ∈ acceptedIn r.log, r.coordinator.Carries c ∨ c ∈ droppedIn r.log ∨ c ∈ settledIn r.log) ∧
    CoalescedIntoNewer r.log ∧ KeepsNewer r.coordinator (r.step outboxOfTwo .takeBatch).coordinator := by
  intro r
  have hreach : (coordinatorMachine outboxOfTwo).ReachableBy RetryClear r :=
    (coordinatorMachine outboxOfTwo).reachableBy_run retriedThenNewer (.start rfl)
      ⟨rfl, trivial, rfl, trivial, rfl, trivial, rfl, fun _ _ _ => rfl, rfl, trivial, trivial⟩
  obtain ⟨hkept, hcoalesced, hsteps⟩ := newer_candidates_kept outboxOfTwo r hreach
  exact ⟨by decide, hkept, hcoalesced, (hsteps .takeBatch (by decide)).mpr trivial⟩

/-- A newer candidate is enqueued while the batch that fails is in flight. -/
def newerThenRetried : List CoordinatorAction :=
  [.enqueue [sampleCandidate 0 5], .takeBatch, .enqueue [sampleCandidate 0 7],
    .commitSync .kafkaException]

/-- The retry puts offset 5 over the pending offset 7, whose lease is then nowhere. -/
theorem retry_overwrites_newer :
    let r := (coordinatorMachine outboxOfTwo).run {} newerThenRetried
    let r' := r.step outboxOfTwo (.callback false)
    let newer : CommitCandidate := { sampleCandidate 0 7 with leaseId := 2 }
    (coordinatorMachine outboxOfTwo).Reachable r ∧ r.ready (.callback false) = true ∧
    ¬ KeepsNewer r.coordinator r'.coordinator ∧
    newer ∈ acceptedIn r'.log ∧ ¬ r'.coordinator.Carries newer ∧ newer ∉ droppedIn r'.log ∧
    newer ∉ settledIn r'.log := by
  intro r r' newer
  have hreach : (coordinatorMachine outboxOfTwo).Reachable r :=
    (coordinatorMachine outboxOfTwo).reachableBy_run newerThenRetried (.start rfl)
      ⟨rfl, trivial, rfl, trivial, rfl, trivial, rfl, trivial, trivial⟩
  refine ⟨hreach, by decide, fun hkeeps => ?_, by decide, ?_, by decide, by decide⟩
  · have hle := hkeeps ⟨"topic", 0⟩ newer { sampleCandidate 0 5 with leaseId := 1 } (by decide) (by decide)
    exact absurd hle (by decide)
  · unfold CommitCoordinator.Carries
    decide

end Examples

end CoordinatorRun

end PyrallelConsumer
