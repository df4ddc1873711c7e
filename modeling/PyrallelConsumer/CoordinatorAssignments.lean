import PyrallelConsumer.CoordinatorCapacity
import PyrallelConsumer.CoordinatorSettlement

/-!
# PyrallelConsumer.CoordinatorAssignments

What the coordinator remembers of a partition across its assignments. `stop_accepting_partitions` and
`start_accepting_partitions` leave the last settled offset and the candidate in flight alone, and
`enqueue` compares the candidates of the next assignment with them. The leases tell the assignments
apart: a candidate of the new one has a lease above the counter at the assignment.

* `enqueueLoop_covers` — what a candidate finds in the outbox when a call is not refused.
* `newOrWithin_run` — all that is above the new tracker's last committed offset comes from the new
  assignment.
* `new_assignment_taken_up_iff` — when exactly every candidate of the new assignment is taken up.
-/

namespace PyrallelConsumer

namespace CommitCoordinator

variable {config : CommitCoordinatorConfig} {s s' : CommitCoordinator} {c : CommitCandidate}

/-! ## What a candidate finds -/

/-- The partition has a candidate at least as high, or its last settled offset is. -/
def Covered (s : CommitCoordinator) (c : CommitCandidate) : Prop :=
  c.safeOffset ≤ (s.latestSettledOffsets.get? c.tp).getD (-1) ∨
    (∃ p, s.pending.get? c.tp = some p ∧ c.safeOffset ≤ p.safeOffset) ∨
    ∃ f, s.inFlight.get? c.tp = some f ∧ c.safeOffset ≤ f.safeOffset

theorem enqueueOne_covers (h : s.enqueueOne config c = some s') (hstop : c.tp ∉ s.stoppedPartitions) :
    Covered s' c := by
  have haccepted : ∀ t : CommitCoordinator, t.pending = s.pending.set c.tp
      { c with leaseId := s.leaseCounter + 1 } → Covered t c := by
    intro t ht
    refine .inr (.inl ⟨{ c with leaseId := s.leaseCounter + 1 }, ?_, Int.le_refl _⟩)
    rw [ht, Dict.get?_set_self]
  unfold enqueueOne at h
  dsimp only at h
  rw [if_neg hstop] at h
  split at h
  · rename_i hset; cases h; exact .inl hset
  · split at h
    · rename_i current hcur
      split at h
      · rename_i hle; cases h; exact .inr (.inl ⟨current, hcur, hle⟩)
      · cases h; exact haccepted _ rfl
    · split at h
      · rename_i f hf
        split at h
        · rename_i hle; cases h; exact .inr (.inr ⟨f, hf, hle⟩)
        · split at h
          · cases h
          · cases h; exact haccepted _ rfl
      · split at h
        · cases h
        · cases h; exact haccepted _ rfl

theorem covered_enqueueOne {d : CommitCandidate} (h : s.enqueueOne config d = some s')
    (hc : Covered s c) : Covered s' c := by
  have hframe := enqueueOne_frame h
  rcases hc with hset | ⟨p, hp, hle⟩ | ⟨f, hf, hle⟩
  · exact .inl (hframe.settled ▸ hset)
  · rcases enqueueOne_cases h with rfl | ha
    · exact .inr (.inl ⟨p, hp, hle⟩)
    · rw [Covered, ha.pending, Dict.get?_set]
      split
      · rename_i heq
        rw [← heq] at hp
        exact .inr (.inl ⟨_, rfl, Int.le_trans hle (Int.le_of_lt (ha.newer p hp))⟩)
      · exact .inr (.inl ⟨p, hp, hle⟩)
  · exact .inr (.inr ⟨f, hframe.inFlight ▸ hf, hle⟩)

/-- After a call that is not refused every candidate of the list is covered. -/
theorem enqueueLoop_covers (cs : List CommitCandidate) :
    ∀ {s s' : CommitCoordinator}, s.enqueueLoop config cs = some s' →
      (Covered s c → Covered s' c) ∧
      (c ∈ cs → c.tp ∉ s.stoppedPartitions → Covered s' c) := by
  induction cs with
  | nil =>
    intro s s' h
    cases h
    exact ⟨fun hc => hc, fun hc => by cases hc⟩
  | cons d cs ih =>
    intro s s' h
    obtain ⟨t, hone, hrest⟩ := Option.bind_eq_some_iff.mp h
    obtain ⟨hkeep, hmem⟩ := ih hrest
    refine ⟨fun hc => hkeep (covered_enqueueOne hone hc), fun hc hstop => ?_⟩
    rcases List.mem_cons.mp hc with rfl | hc
    · exact hkeep (enqueueOne_covers hone hstop)
    · refine hmem hc ?_
      rcases enqueueOne_cases hone with rfl | ha
      · exact hstop
      · rw [ha.stopped]; exact hstop

/-- A candidate that something at least as high covers is skipped; one in flight covers it only while
the partition has no pending candidate. -/
theorem enqueueOne_skips
    (h : c.safeOffset ≤ (s.latestSettledOffsets.get? c.tp).getD (-1) ∨
      (∃ p, s.pending.get? c.tp = some p ∧ c.safeOffset ≤ p.safeOffset) ∨
      (s.pending.get? c.tp = none ∧ ∃ f, s.inFlight.get? c.tp = some f ∧ c.safeOffset ≤ f.safeOffset)) :
    s.enqueueOne config c = some s := by
  unfold enqueueOne
  dsimp only
  split
  · rfl
  · rcases h with hset | ⟨p, hp, hle⟩ | ⟨hp, f, hf, hle⟩
    · exact if_pos hset
    · split
      · rfl
      · rw [hp]; exact if_pos hle
    · split
      · rfl
      · rw [hp, hf]; exact if_pos hle

end CommitCoordinator

open CommitCoordinator

/-! ## What an assignment leaves -/

/-- All that the coordinator remembers of the partition is at most `last`. -/
structure LeftWithin (s : CommitCoordinator) (tp : TopicPartition) (last : Int) : Prop where
  settled : (s.latestSettledOffsets.get? tp).getD (-1) ≤ last
  pending : ∀ p, s.pending.get? tp = some p → p.safeOffset ≤ last
  inFlight : ∀ f, s.inFlight.get? tp = some f → f.safeOffset ≤ last

/-- All that the coordinator remembers of the partition is at most `last` or has a lease above `base`. -/
structure NewOrWithin (base : Nat) (last : Int) (tp : TopicPartition) (r : CoordinatorRun) : Prop where
  counter : base ≤ r.coordinator.leaseCounter
  settled : (r.coordinator.latestSettledOffsets.get? tp).getD (-1) ≤ last ∨
    ∃ d ∈ settledIn r.log, d.tp = tp ∧ base < d.leaseId ∧
      r.coordinator.latestSettledOffsets.get? tp = some d.safeOffset
  pending : ∀ p, r.coordinator.pending.get? tp = some p → p.safeOffset ≤ last ∨ base < p.leaseId
  inFlight : ∀ f, r.coordinator.inFlight.get? tp = some f → f.safeOffset ≤ last ∨ base < f.leaseId

namespace NewOrWithin

variable {base : Nat} {last : Int} {tp : TopicPartition} {r r' : CoordinatorRun}

/-- Nothing is settled, and the candidates of the partition were there before. -/
theorem drop (h : NewOrWithin base last tp r) (hcounter : base ≤ r'.coordinator.leaseCounter)
    (hlatest : r'.coordinator.latestSettledOffsets = r.coordinator.latestSettledOffsets)
    (hlog : ∃ l, r'.log = l ++ r.log)
    (hp : ∀ p, r'.coordinator.pending.get? tp = some p → r.coordinator.pending.get? tp = some p)
    (hf : ∀ f, r'.coordinator.inFlight.get? tp = some f → r.coordinator.inFlight.get? tp = some f) :
    NewOrWithin base last tp r' := by
  obtain ⟨l, hl⟩ := hlog
  refine ⟨hcounter, ?_, fun p hc => h.pending p (hp p hc), fun f hc => h.inFlight f (hf f hc)⟩
  rw [hlatest, hl, settledIn_append]
  refine h.settled.imp_right fun ⟨d, hd, hrest⟩ => ⟨d, List.mem_append_right _ hd, hrest⟩

theorem enqueue {config : CommitCoordinatorConfig} (h : NewOrWithin base last tp r)
    (cs : List CommitCandidate) : NewOrWithin base last tp (r.enqueue config cs) := by
  refine enqueueCall_induction (P := fun s events =>
    NewOrWithin base last tp { r with coordinator := s, log := events ++ r.log }) ?_ ?_ h cs
  · exact fun s n events h => ⟨h.counter, h.settled, h.pending, h.inFlight⟩
  · intro s c events h hadm
    have haccepts := accepts_accept s c
    have hcounter : base ≤ s.leaseCounter := h.counter
    refine ⟨?_, ?_, fun p hp => ?_, fun f hf => ?_⟩
    · show base ≤ ((s.cancelPending c.tp).accept c).leaseCounter
      rw [haccepts.leaseCounter]
      omega
    · show (Dict.get? ((s.cancelPending c.tp).accept c).latestSettledOffsets tp).getD (-1) ≤ last ∨ _
      rw [haccepts.frame.settled]
      refine h.settled.imp_right fun ⟨d, hd, hrest⟩ => ⟨d, ?_, hrest⟩
      show d ∈ settledIn (s.acceptEvents c ++ events ++ r.log)
      rw [List.append_assoc, settledIn_append]
      exact List.mem_append_right _ hd
    · change Dict.get? ((s.cancelPending c.tp).accept c).pending tp = some p at hp
      rw [haccepts.pending, Dict.get?_set] at hp
      split at hp
      · cases hp; exact .inr (Nat.lt_succ_of_le hcounter)
      · exact h.pending p hp
    · change Dict.get? ((s.cancelPending c.tp).accept c).inFlight tp = some f at hf
      rw [haccepts.frame.inFlight] at hf
      exact h.inFlight f hf

theorem settle {batch : List CommitCandidate} (h : NewOrWithin base last tp r)
    (hl : CommitLeases r.coordinator r.worker r.log) (hw : r.worker = .committing batch) :
    NewOrWithin base last tp
      { coordinator := r.coordinator.recordSettled (r.coordinator.activeOf batch)
        worker := .settling batch (r.coordinator.activeOf batch)
        log := (r.coordinator.activeOf batch).reverse.map .settled ++ .committed batch :: r.log } := by
  have hlog : settledIn ((r.coordinator.activeOf batch).reverse.map .settled ++ .committed batch :: r.log) =
      (r.coordinator.activeOf batch).reverse ++ settledIn r.log := by
    rw [settledIn_append, (settled_events _).2.2]; rfl
  refine ⟨h.counter, ?_, h.pending, h.inFlight⟩
  dsimp only [recordSettled]
  rw [hlog, ← List.foldl_map (f := fun c : CommitCandidate => (c.tp, c.safeOffset))
    (g := fun (d : Dict TopicPartition Int) e => d.set e.1 e.2)]
  rcases Dict.get?_update ((r.coordinator.activeOf batch).map fun c => (c.tp, c.safeOffset))
    r.coordinator.latestSettledOffsets tp with ⟨v, hm, hv⟩ | ⟨-, hv⟩
  · -- the partition's candidate in flight is settled
    obtain ⟨c, hc, heq⟩ := List.mem_map.mp hm
    obtain ⟨rfl, rfl⟩ := Prod.mk.inj heq
    obtain ⟨hmem, hactive⟩ := List.mem_filter.mp hc
    have hf := (hl.activeIn_iff (by rw [hw]; exact hmem)).mp hactive
    rw [show List.foldl _ _ _ = Dict.update _ _ from rfl, hv]
    rcases h.inFlight c hf with hle | hnew
    · exact .inl hle
    · exact .inr ⟨c, List.mem_append_left _ (List.mem_reverse.mpr hc), rfl, hnew, rfl⟩
  · rw [show List.foldl _ _ _ = Dict.update _ _ from rfl, hv]
    refine h.settled.imp_right fun ⟨d, hd, hrest⟩ => ⟨d, List.mem_append_right _ hd, hrest⟩

theorem step {config : CommitCoordinatorConfig} (h : NewOrWithin base last tp r)
    (hl : CommitLeases r.coordinator r.worker r.log) (hstep : CoordinatorStep config r r') :
    NewOrWithin base last tp r' := by
  cases hstep with
  | enqueue candidates => exact h.enqueue candidates
  | flags stopped accepting healthy => exact ⟨h.counter, h.settled, h.pending, h.inFlight⟩
  | stop tps =>
    obtain ⟨-, hf, -, hcounter⟩ := stopAcceptingPartitions_spec tps r.coordinator
    exact h.drop (h.counter.trans_eq hcounter.symm) (latest_stopAcceptingPartitions _ tps)
      ⟨_, rfl⟩ (fun p hp => (pending_of_stopAcceptingPartitions hp).2) (fun f hc => hf ▸ hc)
  | cancel tps =>
    obtain ⟨-, -, -, hcounter⟩ := cancelLeases_spec tps r.coordinator
    exact h.drop (h.counter.trans_eq hcounter.symm) (latest_cancelLeases _ tps) ⟨_, rfl⟩
      (fun p hp => (pending_of_cancelLeases hp).2) (fun f hc => (inFlight_of_cancelLeases hc).2)
  | take hw =>
    refine ⟨h.counter, h.settled, fun p hp => (by cases hp), fun f hf => ?_⟩
    obtain ⟨hmem, htp⟩ := takeBatch_inFlight hf
    obtain ⟨tp', htp'⟩ := mem_takeBatch.mp hmem
    rw [← hl.keyed.pending tp' f htp', htp] at htp'
    exact h.pending f htp'
  | settle batch hw => exact h.settle hl hw
  | wait batch settlements reason hw => exact ⟨h.counter, h.settled, h.pending, h.inFlight⟩
  | clear _ => exact h.drop h.counter rfl ⟨[], rfl⟩ (fun _ hp => hp) (fun _ hf => by cases hf)
  | retry hw =>
    obtain ⟨hfl, -, hcounter⟩ := retryBatch_fields r.coordinator r.worker.batch
    have hlatest := (CommitLeases.retryBatch_frame r.coordinator r.worker.batch).1
    refine ⟨h.counter.trans_eq hcounter.symm, ?_, fun p hp => ?_, fun f hf => ?_⟩
    · dsimp only
      rw [hlatest]
      exact h.settled
    · rcases retryBatch_pending hl.batchNodup hp with hp | ⟨hmem, htp, hactive⟩
      · exact h.pending p hp
      · rw [← htp] at h
        exact h.inFlight p ((hl.activeIn_iff hmem).mp hactive)
    · dsimp only at hf
      rw [hfl] at hf
      cases hf
  | abort =>
    obtain ⟨hp, hf, -, hcounter⟩ := abortBatch_fields r.coordinator r.worker.batch
    refine h.drop (h.counter.trans_eq hcounter.symm) (latest_abortBatch _ _) ⟨_, rfl⟩
      (fun p hc => hp ▸ hc) (fun f hc => ?_)
    dsimp only at hc
    rw [hf] at hc
    cases hc

end NewOrWithin

/-! ## Runs of the new assignment -/

/-- The step ends the assignment of the partition. -/
def CoordinatorAction.Stops (tp : TopicPartition) : CoordinatorAction → Prop
  | .stopAcceptingPartitions tps => tp ∈ tps
  | _ => False

/-- After a call with `c`, a candidate of the new assignment at least as high is pending, in flight or
settled: whatever `c` gave way to is not of an earlier assignment. -/
def TakenUp (base : Nat) (s : CommitCoordinator) (log : List CoordinatorEvent) (c : CommitCandidate) :
    Prop :=
  (∃ p, s.pending.get? c.tp = some p ∧ base < p.leaseId ∧ c.safeOffset ≤ p.safeOffset) ∨
  (∃ f, s.inFlight.get? c.tp = some f ∧ base < f.leaseId ∧ c.safeOffset ≤ f.safeOffset) ∨
  ∃ d ∈ settledIn log, d.tp = c.tp ∧ base < d.leaseId ∧ c.safeOffset ≤ d.safeOffset

namespace CoordinatorRun

variable {config : CommitCoordinatorConfig} {r : CoordinatorRun} {tp : TopicPartition}

theorem stopped_endBatch (batch : List CommitCandidate) (reason : CommitFailureReason) :
    (r.endBatch batch reason).coordinator.stoppedPartitions = r.coordinator.stoppedPartitions := by
  unfold endBatch
  split
  · exact (retryBatch_fields _ _).2.1
  · exact (abortBatch_fields _ _).2.2.1

theorem stopped_failBatch (batch : List CommitCandidate) (reason : CommitFailureReason) :
    (r.failBatch batch reason).coordinator.stoppedPartitions = r.coordinator.stoppedPartitions := by
  unfold failBatch
  dsimp only
  split
  · exact stopped_endBatch batch reason
  · rfl

theorem stopped_commitSync (outcome : CommitSyncOutcome) :
    (r.commitSync outcome).coordinator.stoppedPartitions = r.coordinator.stoppedPartitions := by
  unfold commitSync
  split
  · cases outcome with
    | returned =>
      dsimp only [settleBatch]
      split
      · rfl
      · rfl
    | kafkaException => exact stopped_failBatch _ _
    | commitBatchAborted => exact stopped_failBatch _ _
    | exception => exact stopped_failBatch _ _
  · rfl

theorem stopped_callback (raised : Bool) :
    (r.callback raised).coordinator.stoppedPartitions = r.coordinator.stoppedPartitions := by
  have hraised : (if raised then { r with coordinator := r.coordinator.crash } else r
      ).coordinator.stoppedPartitions = r.coordinator.stoppedPartitions := by
    split
    · rfl
    · rfl
  unfold callback
  dsimp only
  split
  · exact hraised
  · exact (stopped_endBatch _ _).trans hraised
  · exact hraised

theorem not_stopped_step {a : CoordinatorAction} (h : tp ∉ r.coordinator.stoppedPartitions)
    (ha : ¬ a.Stops tp) : tp ∉ (r.step config a).coordinator.stoppedPartitions := by
  cases a with
  | enqueue candidates =>
    have heq : (r.coordinator.enqueueCall config candidates).coordinator =
        (r.coordinator.enqueue config candidates).2 :=
      congrArg Prod.snd (enqueueCall_eq config r.coordinator candidates)
    show tp ∉ (r.coordinator.enqueueCall config candidates).coordinator.stoppedPartitions
    rw [heq, (enqueue_spec config r.coordinator candidates).stopped]
    exact h
  | stopAccepting => exact h
  | stopAcceptingPartitions tps =>
    show tp ∉ (r.coordinator.stopAcceptingPartitions tps).stoppedPartitions
    rw [(stopAcceptingPartitions_spec tps r.coordinator).2.2.1]
    exact not_or.mpr ⟨h, ha⟩
  | startAcceptingPartitions tps =>
    show tp ∉ tps.foldl discardKey r.coordinator.stoppedPartitions
    rw [mem_discardAll]
    exact fun hmem => h hmem.1
  | cancelLeases tps =>
    show tp ∉ (r.coordinator.cancelLeases tps).stoppedPartitions
    rw [(cancelLeases_spec tps r.coordinator).2.2.1]
    exact h
  | takeBatch => exact h
  | commitSync outcome => exact (stopped_commitSync (r := r) outcome) ▸ h
  | callback raised => exact (stopped_callback (r := r) raised) ▸ h

/-- A run of the new assignment keeps what it starts with. -/
theorem newOrWithin_run {base : Nat} {last : Int} (as : List CoordinatorAction) :
    ∀ {r : CoordinatorRun}, (coordinatorMachine config).Reachable r → NewOrWithin base last tp r →
      tp ∉ r.coordinator.stoppedPartitions →
      (coordinatorMachine config).Allowed (fun _ a => ¬ a.Stops tp) r as →
      NewOrWithin base last tp ((coordinatorMachine config).run r as) ∧
      tp ∉ ((coordinatorMachine config).run r as).coordinator.stoppedPartitions := by
  induction as with
  | nil => intro r _ h hstop _; exact ⟨h, hstop⟩
  | cons a as ih =>
    intro r hr h hstop hall
    obtain ⟨hready, ha, hall⟩ := hall
    have hstep : NewOrWithin base last tp (r.step config a) := (invariant_step
      (I := fun r => CommitLeases r.coordinator r.worker r.log ∧ NewOrWithin base last tp r)
      (fun _ _ hI hstep => ⟨commitLeases_step hI.1 hstep, hI.2.step hI.1 hstep⟩)
      ⟨commitLeases_reachable hr, h⟩ hready).2
    exact ih (.next hr hready trivial) hstep (not_stopped_step hstop ha) hall

/-- Everything the coordinator holds at an assignment has a lease up to its counter. -/
theorem not_takenUp_of_reachable (hr : (coordinatorMachine config).Reachable r) (c : CommitCandidate) :
    ¬ TakenUp r.coordinator.leaseCounter r.coordinator r.log c := by
  have hl := commitLeases_reachable hr
  rintro (⟨p, hp, hbase, -⟩ | ⟨f, hf, hbase, -⟩ | ⟨d, hd, -, hbase, -⟩)
  · exact absurd (hl.counter p (hl.pending _ p hp).1) (Nat.not_le.mpr hbase)
  · exact absurd (hl.counter f (hl.batch f (hl.inFlight _ f hf).1)) (Nat.not_le.mpr hbase)
  · exact absurd (hl.counter d (hl.settled d hd)) (Nat.not_le.mpr hbase)

/-- A call with one candidate that the loop skips returns `True` and changes nothing. -/
theorem enqueueCall_skips {s : CommitCoordinator} (ha : s.accepting = true) (hh : s.healthy = true)
    {c : CommitCandidate} (h : s.enqueueOne config c = some s) :
    (s.enqueueCall config [c]).returned = true ∧ (s.enqueueCall config [c]).coordinator = s := by
  have heq := enqueueCall_eq config s [c]
  have hloop : s.enqueueLoop config [c] = some s := by rw [enqueueLoop, h]; rfl
  unfold CommitCoordinator.enqueue at heq
  rw [if_neg (by simp [ha, hh]), hloop] at heq
  exact ⟨(Prod.mk.inj heq).1, (Prod.mk.inj heq).2⟩

theorem takenUp_of_newOrWithin {base : Nat} {last : Int} (h : NewOrWithin base last tp r)
    (hstop : tp ∉ r.coordinator.stoppedPartitions) {cs : List CommitCandidate}
    (hret : (r.coordinator.enqueueCall config cs).returned = true) {c : CommitCandidate} (hc : c ∈ cs)
    (htp : c.tp = tp) (hlast : last < c.safeOffset) :
    TakenUp base (r.enqueue config cs).coordinator (r.enqueue config cs).log c := by
  subst htp
  have hafter := @NewOrWithin.enqueue _ _ _ _ config h cs
  have heq := enqueueCall_eq config r.coordinator cs
  have hcovered : Covered (r.enqueue config cs).coordinator c := by
    show Covered (r.coordinator.enqueueCall config cs).coordinator c
    unfold CommitCoordinator.enqueue at heq
    split at heq
    · rw [(Prod.mk.inj heq).1] at hret; cases hret
    · split at heq
      · rw [(Prod.mk.inj heq).1] at hret; cases hret
      · rename_i s' hloop
        rw [(Prod.mk.inj heq).2]
        exact (enqueueLoop_covers cs hloop).2 hc hstop
  rcases hcovered with hset | ⟨p, hp, hle⟩ | ⟨f, hf, hle⟩
  · rcases hafter.settled with hold | ⟨d, hd, hdtp, hnew, hlatest⟩
    · omega
    · rw [hlatest] at hset
      exact .inr (.inr ⟨d, hd, hdtp, hnew, hset⟩)
  · rcases hafter.pending p hp with hold | hnew
    · omega
    · exact .inl ⟨p, hp, hnew, hle⟩
  · rcases hafter.inFlight f hf with hold | hnew
    · omega
    · exact .inr (.inl ⟨f, hf, hnew, hle⟩)

/-- **Memory across assignments.** A run of the coordinator has reached a state in which the partition
is assigned (again), with `last` as the last committed offset of its new tracker. In every run that goes
on from there under this assignment, every candidate above `last` in a call that is not refused is taken
up by the new assignment, if and only if what the coordinator remembered of the partition at the
assignment is at most `last`. -/
theorem new_assignment_taken_up_iff (hr : (coordinatorMachine config).Reachable r)
    (ha : r.coordinator.accepting = true) (hh : r.coordinator.healthy = true)
    {tps : List TopicPartition} (htp : tp ∈ tps) (last : Int) :
    (∀ (as : List CoordinatorAction) (cs : List CommitCandidate) (c : CommitCandidate),
      (coordinatorMachine config).Allowed (fun _ a => ¬ a.Stops tp)
        (r.step config (.startAcceptingPartitions tps)) as →
      let now := (coordinatorMachine config).run (r.step config (.startAcceptingPartitions tps)) as
      (now.coordinator.enqueueCall config cs).returned = true →
      c ∈ cs → c.tp = tp → last < c.safeOffset →
      TakenUp r.coordinator.leaseCounter (now.enqueue config cs).coordinator
        (now.enqueue config cs).log c) ↔
    LeftWithin r.coordinator tp last := by
  have hl := commitLeases_reachable hr
  have hready : (coordinatorMachine config).enabled r (.startAcceptingPartitions tps) := rfl
  have hstart : (coordinatorMachine config).Reachable (r.step config (.startAcceptingPartitions tps)) :=
    .next hr hready trivial
  constructor
  · intro h
    -- a candidate that the outbox covers at the assignment itself
    have hskip : ∀ safeOffset, last < safeOffset →
        (safeOffset ≤ (r.coordinator.latestSettledOffsets.get? tp).getD (-1) ∨
          (∃ p, r.coordinator.pending.get? tp = some p ∧ safeOffset ≤ p.safeOffset) ∨
          (r.coordinator.pending.get? tp = none ∧
            ∃ f, r.coordinator.inFlight.get? tp = some f ∧ safeOffset ≤ f.safeOffset)) → False := by
      intro safeOffset hlast hcover
      obtain ⟨hret, heq⟩ := @enqueueCall_skips config
        (r.step config (.startAcceptingPartitions tps)).coordinator ha hh ⟨tp, safeOffset, 1, 0⟩
        (enqueueOne_skips hcover)
      have htaken := h [] [⟨tp, safeOffset, 1, 0⟩] ⟨tp, safeOffset, 1, 0⟩ trivial hret
        List.mem_cons_self rfl hlast
      have hready : (coordinatorMachine config).enabled (r.step config (.startAcceptingPartitions tps))
        (.enqueue [⟨tp, safeOffset, 1, 0⟩]) := rfl
      have hcounter : ((coordinatorMachine config).next (r.step config (.startAcceptingPartitions tps))
          (.enqueue [⟨tp, safeOffset, 1, 0⟩])).coordinator.leaseCounter = r.coordinator.leaseCounter :=
        (congrArg CommitCoordinator.leaseCounter heq).trans rfl
      refine not_takenUp_of_reachable (.next hstart hready trivial) ⟨tp, safeOffset, 1, 0⟩ ?_
      rw [hcounter]
      exact htaken
    refine ⟨Int.not_lt.mp fun hlt => hskip _ hlt (.inl (Int.le_refl _)),
      fun p hp => Int.not_lt.mp fun hlt => hskip _ hlt (.inr (.inl ⟨p, hp, Int.le_refl _⟩)),
      fun f hf => Int.not_lt.mp fun hlt => ?_⟩
    cases hp : r.coordinator.pending.get? tp with
    | none => exact hskip _ hlt (.inr (.inr ⟨hp, f, hf, Int.le_refl _⟩))
    | some p => exact hskip _ (Int.lt_trans hlt (hl.order tp p f hp hf)) (.inr (.inl ⟨p, hp, Int.le_refl _⟩))
  · intro h as cs c hall now hret hc hctp hlast
    have hstop : tp ∉ (r.step config (.startAcceptingPartitions tps)).coordinator.stoppedPartitions := by
      show tp ∉ tps.foldl discardKey r.coordinator.stoppedPartitions
      rw [mem_discardAll]
      exact fun hmem => hmem.2 htp
    have hnew : NewOrWithin r.coordinator.leaseCounter last tp
        (r.step config (.startAcceptingPartitions tps)) :=
      ⟨Nat.le_refl _, .inl h.settled, fun p hp => .inl (h.pending p hp), fun f hf => .inl (h.inFlight f hf)⟩
    obtain ⟨hnow, hstopped⟩ := newOrWithin_run as hstart hnew hstop hall
    exact takenUp_of_newOrWithin hnow hstopped hret hc hctp hlast

section Examples

/-- Offset 10 of the partition is settled, and the partition is revoked. -/
def settledThenRevoked : List CoordinatorAction :=
  [.enqueue [sampleCandidate 0 10], .takeBatch, .commitSync .returned, .callback false,
    .stopAcceptingPartitions [⟨"topic", 0⟩]]

/-- The coordinator after a revoke of the partition. -/
def afterRevoke : CoordinatorRun := (coordinatorMachine outboxOfTwo).run {} settledThenRevoked

theorem reachable_afterRevoke : (coordinatorMachine outboxOfTwo).Reachable afterRevoke :=
  (coordinatorMachine outboxOfTwo).reachableBy_run settledThenRevoked (.start rfl)
    ⟨rfl, trivial, (by decide : _ = true), trivial, (by decide : _ = true), trivial,
      (by decide : _ = true), trivial, rfl, trivial, trivial⟩

/-- The partition is assigned again at the position that the earlier assignment committed. -/
theorem new_assignment_taken_up_forward :
    LeftWithin afterRevoke.coordinator ⟨"topic", 0⟩ 10 ∧
    TakenUp 1 ((afterRevoke.step outboxOfTwo (.startAcceptingPartitions [⟨"topic", 0⟩])).enqueue
        outboxOfTwo [sampleCandidate 0 12]).coordinator
      ((afterRevoke.step outboxOfTwo (.startAcceptingPartitions [⟨"topic", 0⟩])).enqueue
        outboxOfTwo [sampleCandidate 0 12]).log (sampleCandidate 0 12) := by
  have hleft : LeftWithin afterRevoke.coordinator ⟨"topic", 0⟩ 10 :=
    ⟨by decide, fun p hp => (by cases hp), fun f hf => (by cases hf)⟩
  refine ⟨hleft, ?_⟩
  exact (new_assignment_taken_up_iff reachable_afterRevoke (by decide) (by decide)
    (List.mem_singleton.mpr rfl) 10).mpr hleft [] [sampleCandidate 0 12] (sampleCandidate 0 12) trivial
    (by decide) List.mem_cons_self rfl (by decide)

/-- The partition is assigned again with committed position 4, below the offset settled before. A
candidate at 5 is accepted by `enqueue`, and no candidate is pending or in flight. -/
theorem candidate_vanishes_below_settled :
    (coordinatorMachine outboxOfTwo).Reachable afterRevoke ∧
    let now := (afterRevoke.step outboxOfTwo (.startAcceptingPartitions [⟨"topic", 0⟩])).coordinator
    let result := now.enqueueCall outboxOfTwo [sampleCandidate 0 5]
    now.accepting = true ∧ now.healthy = true ∧ now.openPartitions.card < outboxOfTwo.queueMaxPartitions ∧
    3 < (sampleCandidate 0 5).safeOffset ∧ result.returned = true ∧
    result.coordinator.pending.get? ⟨"topic", 0⟩ = none ∧
    result.coordinator.inFlight.get? ⟨"topic", 0⟩ = none :=
  ⟨reachable_afterRevoke, by decide⟩

end Examples

end CoordinatorRun

end PyrallelConsumer
