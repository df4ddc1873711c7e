import PyrallelConsumer.Dto
import PyrallelConsumer.Lib.Counted

/-!
# PyrallelConsumer.CommitCoordinator

`CommitCoordinator` of `control_plane/commit_coordinator.py`: commit candidates are coalesced by
partition into an outbox and committed in batches by a background worker. Each candidate has a lease,
which settles only while it is active. Counters that feed metrics are left out.

The operations are the sections between awaits; how they interleave is up to the poller's runs.

* `enqueueOne_cases` — a candidate is skipped, refused for lack of room, or becomes its partition's
  pending candidate with a fresh lease, and then it is newer than what it replaces.
* `enqueue_pending` — what `enqueue` does to the outbox.
-/

set_option linter.unusedSectionVars false

namespace PyrallelConsumer

structure CommitCandidate where
  tp : TopicPartition
  safeOffset : Int
  assignmentEpoch : Int
  leaseId : Nat
deriving DecidableEq, Repr

def CommitCandidate.leaseKey (c : CommitCandidate) : TopicPartition × Int × Nat :=
  (c.tp, c.assignmentEpoch, c.leaseId)

structure CommitCoordinatorConfig where
  queueMaxPartitions : Nat
deriving DecidableEq, Repr

structure CommitCoordinator where
  pending : Dict TopicPartition CommitCandidate := .empty
  inFlight : Dict TopicPartition CommitCandidate := .empty
  cancelledLeases : List (TopicPartition × Int × Nat) := []
  stoppedPartitions : List TopicPartition := []
  latestSettledOffsets : Dict TopicPartition Int := .empty
  leaseCounter : Nat := 0
  accepting : Bool := true
  healthy : Bool := true
  coalescedCount : Nat := 0
deriving DecidableEq, Repr

namespace CommitCoordinator

def pruneCancelledLeases (s : CommitCoordinator) : CommitCoordinator :=
  { s with cancelledLeases := s.cancelledLeases.filter fun k =>
      k ∈ (s.pending.values ++ s.inFlight.values).map (·.leaseKey) }

def cancel (s : CommitCoordinator) (c : CommitCandidate) : CommitCoordinator :=
  { s with cancelledLeases := appendKey s.cancelledLeases c.leaseKey }

/-- The number of outbox entries with a new one for `tp`. -/
def projectedSize (s : CommitCoordinator) (tp : TopicPartition) : Nat :=
  s.pending.size + s.inFlight.size + if s.inFlight.contains tp then 0 else 1

/-- The body of the loop of `enqueue`; `none` is `queue_full`. -/
def enqueueOne (config : CommitCoordinatorConfig) (s : CommitCoordinator) (candidate : CommitCandidate) :
    Option CommitCoordinator :=
  let tp := candidate.tp
  if tp ∈ s.stoppedPartitions then some s
  else if candidate.safeOffset ≤ (s.latestSettledOffsets.get? tp).getD (-1) then some s
  else
    let accept (s : CommitCoordinator) : CommitCoordinator :=
      { s with
        leaseCounter := s.leaseCounter + 1
        pending := s.pending.set tp { candidate with leaseId := s.leaseCounter + 1 }
        }.pruneCancelledLeases
    match s.pending.get? tp with
    | some current =>
      if candidate.safeOffset ≤ current.safeOffset then some s
      else some (accept { s.cancel current with coalescedCount := s.coalescedCount + 1 })
    | none =>
      match s.inFlight.get? tp with
      | some inFlight =>
        if candidate.safeOffset ≤ inFlight.safeOffset then some s
        else if s.projectedSize tp > config.queueMaxPartitions then none
        else some (accept s)
      | none => if s.projectedSize tp > config.queueMaxPartitions then none else some (accept s)

def enqueueLoop (config : CommitCoordinatorConfig) (s : CommitCoordinator) :
    List CommitCandidate → Option CommitCoordinator
  | [] => some s
  | c :: cs => (s.enqueueOne config c).bind fun s => s.enqueueLoop config cs

/-- `enqueue`; a `queue_full` rolls everything back. -/
def enqueue (config : CommitCoordinatorConfig) (s : CommitCoordinator)
    (candidates : List CommitCandidate) : Bool × CommitCoordinator :=
  if !s.accepting || !s.healthy then (false, s)
  else
    match s.enqueueLoop config candidates with
    | none => (false, s)
    | some s => (true, s)

def stopPartition (s : CommitCoordinator) (tp : TopicPartition) : CommitCoordinator :=
  let s := { s with stoppedPartitions := appendKey s.stoppedPartitions tp }
  match s.pending.get? tp with
  | none => s
  | some c => { s with pending := s.pending.erase tp }.cancel c

def stopAcceptingPartitions (s : CommitCoordinator) (tps : List TopicPartition) : CommitCoordinator :=
  (tps.foldl stopPartition s).pruneCancelledLeases

def startAcceptingPartitions (s : CommitCoordinator) (tps : List TopicPartition) : CommitCoordinator :=
  { s with stoppedPartitions := tps.foldl discardKey s.stoppedPartitions }

/-- The body of `cancel_leases` for one partition. -/
def cancelPartition (s : CommitCoordinator) (tp : TopicPartition) : CommitCoordinator :=
  let s :=
    match s.pending.get? tp with
    | none => s
    | some c => { s with pending := s.pending.erase tp }.cancel c
  match s.inFlight.get? tp with
  | none => s
  | some c => { s with inFlight := s.inFlight.erase tp }.cancel c

def cancelLeases (s : CommitCoordinator) (tps : List TopicPartition) : CommitCoordinator :=
  (tps.foldl cancelPartition s).pruneCancelledLeases

def keepGreater (remaining : Dict TopicPartition CommitCandidate) (c : CommitCandidate) :
    Dict TopicPartition CommitCandidate :=
  match remaining.get? c.tp with
  | none => remaining.set c.tp c
  | some current => if c.safeOffset > current.safeOffset then remaining.set c.tp c else remaining

/-- `remaining_candidates` for the partitions `tps`. -/
def remainingCandidates (s : CommitCoordinator) (tps : List TopicPartition) :
    Dict TopicPartition CommitCandidate :=
  ((s.inFlight.values ++ s.pending.values).foldl keepGreater .empty).filter fun tp _ => tp ∈ tps

def isActiveLease (s : CommitCoordinator) (tp : TopicPartition) (assignmentEpoch : Int)
    (leaseId : Nat) : Bool :=
  if (tp, assignmentEpoch, leaseId) ∈ s.cancelledLeases then false
  else
    [s.pending.get? tp, s.inFlight.get? tp].any fun c =>
      match c with
      | none => false
      | some c => c.assignmentEpoch = assignmentEpoch && c.leaseId = leaseId

def CommitCandidate.activeIn (s : CommitCoordinator) (c : CommitCandidate) : Bool :=
  s.isActiveLease c.tp c.assignmentEpoch c.leaseId

/-! ## The worker -/

/-- The head of the loop of `_run_worker`. -/
def takeBatch (s : CommitCoordinator) : List CommitCandidate × CommitCoordinator :=
  let batch := s.pending.values
  (batch, { s with
    pending := .empty
    inFlight := batch.foldl (fun d c => d.set c.tp c) .empty })

def clearInFlight (s : CommitCoordinator) : CommitCoordinator :=
  { s with inFlight := .empty }.pruneCancelledLeases

/-- The candidates of a batch whose lease is active. -/
def activeOf (s : CommitCoordinator) (batch : List CommitCandidate) : List CommitCandidate :=
  batch.filter (CommitCandidate.activeIn s)

def recordSettled (s : CommitCoordinator) (settlements : List CommitCandidate) : CommitCoordinator :=
  { s with latestSettledOffsets :=
      settlements.foldl (fun d c => d.set c.tp c.safeOffset) s.latestSettledOffsets }

/-- The end of the `KafkaException` branch: active candidates become pending again. -/
def retryBatch (s : CommitCoordinator) (batch : List CommitCandidate) : CommitCoordinator :=
  let s := batch.foldl
    (fun s c => if CommitCandidate.activeIn s c then { s with pending := s.pending.set c.tp c } else s) s
  s.clearInFlight

/-- The end of the `CommitBatchAborted` branch. -/
def abortBatch (s : CommitCoordinator) (batch : List CommitCandidate) : CommitCoordinator :=
  (batch.foldl cancel s).clearInFlight

/-- The branch of any other exception. -/
def crash (s : CommitCoordinator) : CommitCoordinator := { s with healthy := false, accepting := false }

/-! ## What the operations do to the outbox -/

@[simp] theorem pruneCancelledLeases_pending (s : CommitCoordinator) :
    s.pruneCancelledLeases.pending = s.pending := rfl
@[simp] theorem pruneCancelledLeases_inFlight (s : CommitCoordinator) :
    s.pruneCancelledLeases.inFlight = s.inFlight := rfl
@[simp] theorem pruneCancelledLeases_stopped (s : CommitCoordinator) :
    s.pruneCancelledLeases.stoppedPartitions = s.stoppedPartitions := rfl
@[simp] theorem pruneCancelledLeases_leaseCounter (s : CommitCoordinator) :
    s.pruneCancelledLeases.leaseCounter = s.leaseCounter := rfl

/-- The candidate became its partition's pending one. -/
structure Accepted (s : CommitCoordinator) (c : CommitCandidate) (s' : CommitCoordinator) : Prop where
  notStopped : c.tp ∉ s.stoppedPartitions
  newer : ∀ current, s.pending.get? c.tp = some current → current.safeOffset < c.safeOffset
  newerInFlight : s.pending.get? c.tp = none →
    ∀ f, s.inFlight.get? c.tp = some f → f.safeOffset < c.safeOffset
  pending : s'.pending = s.pending.set c.tp { c with leaseId := s.leaseCounter + 1 }
  inFlight : s'.inFlight = s.inFlight
  stopped : s'.stoppedPartitions = s.stoppedPartitions
  leaseCounter : s'.leaseCounter = s.leaseCounter + 1

theorem enqueueOne_cases {config : CommitCoordinatorConfig} {s s' : CommitCoordinator}
    {c : CommitCandidate} (h : s.enqueueOne config c = some s') : s' = s ∨ Accepted s c s' := by
  unfold enqueueOne at h
  dsimp only at h
  split at h
  · cases h; exact .inl rfl
  · rename_i hstop
    split at h
    · cases h; exact .inl rfl
    · split at h
      · rename_i current hcur
        split at h
        · cases h; exact .inl rfl
        · rename_i hnewer
          cases h
          refine .inr ⟨hstop, fun cur hc => ?_, fun hn => ?_, rfl, rfl, rfl, rfl⟩
          · rw [hcur] at hc; cases hc; omega
          · rw [hcur] at hn; cases hn
      · rename_i hnone
        split at h
        · rename_i f hf
          split at h
          · cases h; exact .inl rfl
          · rename_i hnewer
            split at h
            · cases h
            · cases h
              refine .inr ⟨hstop, fun cur hc => ?_, fun _ g hg => ?_, rfl, rfl, rfl, rfl⟩
              · rw [hnone] at hc; cases hc
              · rw [hf] at hg; cases hg; omega
        · rename_i hf
          split at h
          · cases h
          · cases h
            refine .inr ⟨hstop, fun cur hc => ?_, fun _ g hg => ?_, rfl, rfl, rfl, rfl⟩
            · rw [hnone] at hc; cases hc
            · rw [hf] at hg; cases hg

/-- What `enqueue` does: in-flight candidates stay, and a changed pending candidate is one of the
list, of a partition that is not stopped, with a fresh lease. -/
structure Enqueued (s : CommitCoordinator) (cs : List CommitCandidate) (s' : CommitCoordinator) : Prop where
  inFlight : s'.inFlight = s.inFlight
  stopped : s'.stoppedPartitions = s.stoppedPartitions
  leaseCounter : s.leaseCounter ≤ s'.leaseCounter
  pending : ∀ tp, s'.pending.get? tp = s.pending.get? tp ∨
    ∃ c ∈ cs, c.tp = tp ∧ tp ∉ s.stoppedPartitions ∧ ∃ n, s.leaseCounter < n ∧ n ≤ s'.leaseCounter ∧
      s'.pending.get? tp = some { c with leaseId := n }

theorem enqueueLoop_spec {config : CommitCoordinatorConfig} (cs : List CommitCandidate) :
    ∀ {s s' : CommitCoordinator}, s.enqueueLoop config cs = some s' → Enqueued s cs s' := by
  induction cs with
  | nil => intro s s' h; cases h; exact ⟨rfl, rfl, Nat.le_refl _, fun _ => .inl rfl⟩
  | cons c cs ih =>
    intro s s' h
    obtain ⟨s1, h1, h2⟩ := Option.bind_eq_some_iff.mp h
    have hrest := ih h2
    rcases enqueueOne_cases h1 with rfl | ha
    · refine ⟨hrest.inFlight, hrest.stopped, hrest.leaseCounter, fun tp => ?_⟩
      exact (hrest.pending tp).imp_right fun ⟨d, hd, hrest⟩ => ⟨d, List.mem_cons_of_mem _ hd, hrest⟩
    · have hcounter := ha.leaseCounter
      have hle := hrest.leaseCounter
      refine ⟨hrest.inFlight.trans ha.inFlight, hrest.stopped.trans ha.stopped, by omega, fun tp => ?_⟩
      rcases hrest.pending tp with heq | ⟨d, hd, htp, hstop, n, hn, hn', heq⟩
      · rw [heq, ha.pending, Dict.get?_set]
        by_cases hc : c.tp = tp
        · refine .inr ⟨c, List.mem_cons_self, hc, hc ▸ ha.notStopped, s.leaseCounter + 1, by omega,
            by omega, ?_⟩
          rw [if_pos hc]
        · rw [if_neg hc]; exact .inl rfl
      · refine .inr ⟨d, List.mem_cons_of_mem _ hd, htp, ha.stopped ▸ hstop, n, by omega, hn', heq⟩

theorem enqueue_spec (config : CommitCoordinatorConfig) (s : CommitCoordinator)
    (cs : List CommitCandidate) : Enqueued s cs (s.enqueue config cs).2 := by
  unfold enqueue
  split
  · exact ⟨rfl, rfl, Nat.le_refl _, fun _ => .inl rfl⟩
  · split
    · exact ⟨rfl, rfl, Nat.le_refl _, fun _ => .inl rfl⟩
    · rename_i s' h; exact enqueueLoop_spec cs h

theorem stopAcceptingPartitions_spec (tps : List TopicPartition) :
    ∀ s : CommitCoordinator,
      (∀ tp, (s.stopAcceptingPartitions tps).pending.get? tp =
        if tp ∈ tps then none else s.pending.get? tp) ∧
      (s.stopAcceptingPartitions tps).inFlight = s.inFlight ∧
      (∀ tp, tp ∈ (s.stopAcceptingPartitions tps).stoppedPartitions ↔
        tp ∈ s.stoppedPartitions ∨ tp ∈ tps) ∧
      (s.stopAcceptingPartitions tps).leaseCounter = s.leaseCounter := by
  have hone : ∀ (s : CommitCoordinator) (tp : TopicPartition),
      (∀ tp', (s.stopPartition tp).pending.get? tp' =
        if tp = tp' then none else s.pending.get? tp') ∧
      (s.stopPartition tp).inFlight = s.inFlight ∧
      (∀ tp', tp' ∈ (s.stopPartition tp).stoppedPartitions ↔ tp' ∈ s.stoppedPartitions ∨ tp' = tp) ∧
      (s.stopPartition tp).leaseCounter = s.leaseCounter := by
    intro s tp
    unfold stopPartition
    dsimp only
    split
    · rename_i hnone
      refine ⟨fun tp' => ?_, rfl, fun tp' => mem_appendKey, rfl⟩
      split
      · rename_i heq; rw [← heq]; exact hnone
      · rfl
    · exact ⟨fun tp' => Dict.get?_erase _ _ _, rfl, fun tp' => mem_appendKey, rfl⟩
  show ∀ s : CommitCoordinator, _
  induction tps with
  | nil => intro s; exact ⟨fun tp => by simp; rfl, rfl, fun tp => by simp; rfl, rfl⟩
  | cons a tps ih =>
    intro s
    obtain ⟨h1, h2, h3, h4⟩ := hone s a
    obtain ⟨g1, g2, g3, g4⟩ := ih (s.stopPartition a)
    refine ⟨fun tp => ?_, g2.trans h2, fun tp => ?_, g4.trans h4⟩
    · refine (g1 tp).trans ?_
      rw [h1]
      by_cases htp : tp = a
      · simp [htp]
      · simp [htp, Ne.symm htp]
    · refine (g3 tp).trans ?_
      rw [h3, List.mem_cons, or_assoc]

theorem cancelLeases_spec (tps : List TopicPartition) :
    ∀ s : CommitCoordinator,
      (∀ tp, (s.cancelLeases tps).pending.get? tp = if tp ∈ tps then none else s.pending.get? tp) ∧
      (∀ tp, (s.cancelLeases tps).inFlight.get? tp = if tp ∈ tps then none else s.inFlight.get? tp) ∧
      (s.cancelLeases tps).stoppedPartitions = s.stoppedPartitions ∧
      (s.cancelLeases tps).leaseCounter = s.leaseCounter := by
  have hpop : ∀ (d : Dict TopicPartition CommitCandidate) (tp tp' : TopicPartition), d.get? tp = none →
      d.get? tp' = if tp = tp' then none else d.get? tp' := by
    intro d tp tp' hnone
    split
    · rename_i heq; rw [← heq]; exact hnone
    · rfl
  have hone : ∀ (s : CommitCoordinator) (tp : TopicPartition),
      (∀ tp', (s.cancelPartition tp).pending.get? tp' =
        if tp = tp' then none else s.pending.get? tp') ∧
      (∀ tp', (s.cancelPartition tp).inFlight.get? tp' =
        if tp = tp' then none else s.inFlight.get? tp') ∧
      (s.cancelPartition tp).stoppedPartitions = s.stoppedPartitions ∧
      (s.cancelPartition tp).leaseCounter = s.leaseCounter := by
    intro s tp
    unfold cancelPartition
    dsimp only
    cases hp : s.pending.get? tp with
    | none =>
      dsimp only
      cases hf : s.inFlight.get? tp with
      | none => exact ⟨fun _ => hpop _ _ _ hp, fun _ => hpop _ _ _ hf, rfl, rfl⟩
      | some f => exact ⟨fun _ => hpop _ _ _ hp, fun _ => Dict.get?_erase _ _ _, rfl, rfl⟩
    | some p =>
      dsimp only [cancel]
      cases hf : s.inFlight.get? tp with
      | none => exact ⟨fun _ => Dict.get?_erase _ _ _, fun _ => hpop _ _ _ hf, rfl, rfl⟩
      | some f => exact ⟨fun _ => Dict.get?_erase _ _ _, fun _ => Dict.get?_erase _ _ _, rfl, rfl⟩
  show ∀ s : CommitCoordinator, _
  induction tps with
  | nil => intro s; exact ⟨fun tp => by simp; rfl, fun tp => by simp; rfl, rfl, rfl⟩
  | cons a tps ih =>
    intro s
    obtain ⟨h1, h2, h3, h4⟩ := hone s a
    obtain ⟨g1, g2, g3, g4⟩ := ih (s.cancelPartition a)
    refine ⟨fun tp => (g1 tp).trans ?_, fun tp => (g2 tp).trans ?_, g3.trans h3, g4.trans h4⟩
    · rw [h1]
      by_cases htp : tp = a
      · simp [htp]
      · simp [htp, Ne.symm htp]
    · rw [h2]
      by_cases htp : tp = a
      · simp [htp]
      · simp [htp, Ne.symm htp]

theorem mem_takeBatch {s : CommitCoordinator} {c : CommitCandidate} :
    c ∈ s.takeBatch.1 ↔ ∃ tp, s.pending.get? tp = some c := Dict.mem_values_iff _

theorem takeBatch_eq_update (s : CommitCoordinator) :
    s.takeBatch.2.inFlight = (Dict.empty : Dict TopicPartition CommitCandidate).update
      (s.takeBatch.1.map fun c => (c.tp, c)) := by
  unfold Dict.update
  rw [List.foldl_map]
  rfl

theorem takeBatch_inFlight {s : CommitCoordinator} {tp : TopicPartition} {c : CommitCandidate}
    (h : s.takeBatch.2.inFlight.get? tp = some c) : c ∈ s.takeBatch.1 ∧ c.tp = tp := by
  rw [takeBatch_eq_update] at h
  rcases Dict.get?_update (s.takeBatch.1.map fun c => (c.tp, c)) .empty tp with
    ⟨v, hm, hv⟩ | ⟨-, hv⟩
  · rw [hv] at h
    cases h
    obtain ⟨d, hd, hdc⟩ := List.mem_map.mp hm
    cases hdc
    exact ⟨hd, rfl⟩
  · rw [hv] at h
    cases h

/-- An active lease is that of the pending or the in-flight candidate of its partition. -/
theorem exists_of_activeIn {s : CommitCoordinator} {c : CommitCandidate}
    (h : CommitCandidate.activeIn s c = true) :
    ∃ d, (s.pending.get? c.tp = some d ∨ s.inFlight.get? c.tp = some d) ∧
      d.assignmentEpoch = c.assignmentEpoch ∧ d.leaseId = c.leaseId := by
  unfold CommitCandidate.activeIn isActiveLease at h
  split at h
  · cases h
  · rw [List.any_eq_true] at h
    obtain ⟨o, ho, hmatch⟩ := h
    cases o with
    | none => cases hmatch
    | some d =>
      simp only [Bool.and_eq_true, decide_eq_true_eq] at hmatch
      refine ⟨d, ?_, hmatch⟩
      rcases List.mem_cons.mp ho with ho | ho
      · exact .inl ho.symm
      · exact .inr (List.mem_singleton.mp ho).symm

/-- A retried batch adds only its own candidates to the outbox. -/
theorem mem_of_retryBatch_pending {s : CommitCoordinator} {batch : List CommitCandidate}
    {tp : TopicPartition} {c : CommitCandidate} (h : (s.retryBatch batch).pending.get? tp = some c) :
    s.pending.get? tp = some c ∨ c ∈ batch := by
  have hfold : ∀ (l : List CommitCandidate) (t : CommitCoordinator),
      (l.foldl (fun s c => if CommitCandidate.activeIn s c then
        { s with pending := s.pending.set c.tp c } else s) t).pending.get? tp = some c →
      t.pending.get? tp = some c ∨ c ∈ l := by
    intro l
    induction l with
    | nil => intro t h; exact .inl h
    | cons d l ih =>
      intro t h
      rcases ih _ h with h | hc
      · dsimp only at h
        split at h
        · rw [Dict.get?_set] at h
          split at h
          · cases h; exact .inr List.mem_cons_self
          · exact .inl h
        · exact .inl h
      · exact .inr (List.mem_cons_of_mem _ hc)
  exact hfold batch s h

/-- A retried batch puts its active candidates over what is pending. -/
theorem retryBatch_get? {s : CommitCoordinator} {batch : List CommitCandidate}
    (hn : (batch.map (·.tp)).Nodup) :
    (∀ c ∈ batch, CommitCandidate.activeIn s c = true →
      (s.retryBatch batch).pending.get? c.tp = some c) ∧
    ∀ tp, (∀ c ∈ batch, CommitCandidate.activeIn s c = true → c.tp ≠ tp) →
      (s.retryBatch batch).pending.get? tp = s.pending.get? tp := by
  -- entries of other partitions do not decide whether a lease is active
  have hfold : ∀ (l : List CommitCandidate) (t : CommitCoordinator), (l.map (·.tp)).Nodup →
      (∀ d ∈ l, CommitCandidate.activeIn t d = CommitCandidate.activeIn s d) →
      let t' := l.foldl (fun s c => if CommitCandidate.activeIn s c then
        { s with pending := s.pending.set c.tp c } else s) t
      (∀ c ∈ l, CommitCandidate.activeIn s c = true → t'.pending.get? c.tp = some c) ∧
      ∀ tp, (∀ c ∈ l, CommitCandidate.activeIn s c = true → c.tp ≠ tp) →
        t'.pending.get? tp = t.pending.get? tp := by
    intro l
    induction l with
    | nil => intro t _ _; exact ⟨fun _ hc => (by cases hc), fun _ _ => rfl⟩
    | cons d l ih =>
      intro t hn hact
      obtain ⟨hd, hn⟩ := List.nodup_cons.mp hn
      have hne : ∀ d' ∈ l, d.tp ≠ d'.tp := fun d' hd' heq => hd (List.mem_map.mpr ⟨d', hd', heq.symm⟩)
      dsimp only
      rw [List.foldl_cons]
      split
      · rename_i hactive
        have hothers : ∀ d' ∈ l, CommitCandidate.activeIn { t with pending := t.pending.set d.tp d } d' =
            CommitCandidate.activeIn s d' := by
          intro d' hd'
          rw [← hact d' (List.mem_cons_of_mem _ hd')]
          simp only [CommitCandidate.activeIn, isActiveLease, Dict.get?_set, if_neg (hne d' hd')]
        obtain ⟨hset, hkeep⟩ := ih _ hn hothers
        refine ⟨fun c hc hca => ?_, fun tp htp => ?_⟩
        · rcases List.mem_cons.mp hc with rfl | hc
          · exact (hkeep c.tp fun d' hd' _ => (hne d' hd').symm).trans (Dict.get?_set_self _ _ _)
          · exact hset c hc hca
        · refine (hkeep tp fun c hc => htp c (List.mem_cons_of_mem _ hc)).trans ?_
          have hdtp := htp d List.mem_cons_self (hact d List.mem_cons_self ▸ hactive)
          show (t.pending.set d.tp d).get? tp = t.pending.get? tp
          rw [Dict.get?_set, if_neg hdtp]
      · rename_i hinactive
        obtain ⟨hset, hkeep⟩ := ih t hn (fun d' hd' => hact d' (List.mem_cons_of_mem _ hd'))
        refine ⟨fun c hc hca => ?_, fun tp htp => hkeep tp fun c hc => htp c (List.mem_cons_of_mem _ hc)⟩
        rcases List.mem_cons.mp hc with rfl | hc
        · rw [hact c List.mem_cons_self] at hinactive
          exact absurd hca hinactive
        · exact hset c hc hca
  exact hfold batch s hn (fun _ _ => rfl)

/-- A retried batch adds only its active candidates to the outbox. -/
theorem retryBatch_pending {s : CommitCoordinator} {batch : List CommitCandidate}
    (hn : (batch.map (·.tp)).Nodup) {tp : TopicPartition} {c : CommitCandidate}
    (h : (s.retryBatch batch).pending.get? tp = some c) :
    s.pending.get? tp = some c ∨
      (c ∈ batch ∧ c.tp = tp ∧ CommitCandidate.activeIn s c = true) := by
  obtain ⟨hset, hkeep⟩ := retryBatch_get? hn
  by_cases hback : ∃ d ∈ batch, CommitCandidate.activeIn s d = true ∧ d.tp = tp
  · obtain ⟨d, hd, hactive, rfl⟩ := hback
    rw [hset d hd hactive] at h
    cases h
    exact .inr ⟨hd, rfl, hactive⟩
  · refine .inl ?_
    rw [← hkeep tp fun d hd hactive heq => hback ⟨d, hd, hactive, heq⟩]
    exact h

theorem retryBatch_fields (s : CommitCoordinator) (batch : List CommitCandidate) :
    (s.retryBatch batch).inFlight = .empty ∧
    (s.retryBatch batch).stoppedPartitions = s.stoppedPartitions ∧
    (s.retryBatch batch).leaseCounter = s.leaseCounter := by
  have hfold : ∀ (l : List CommitCandidate) (t : CommitCoordinator),
      (l.foldl (fun s c => if CommitCandidate.activeIn s c then
        { s with pending := s.pending.set c.tp c } else s) t).stoppedPartitions =
          t.stoppedPartitions ∧
      (l.foldl (fun s c => if CommitCandidate.activeIn s c then
        { s with pending := s.pending.set c.tp c } else s) t).leaseCounter = t.leaseCounter := by
    intro l
    induction l with
    | nil => intro t; exact ⟨rfl, rfl⟩
    | cons d l ih =>
      intro t
      rw [List.foldl_cons]
      split
      · exact ih _
      · exact ih t
  exact ⟨rfl, hfold batch s⟩

theorem abortBatch_fields (s : CommitCoordinator) (batch : List CommitCandidate) :
    (s.abortBatch batch).pending = s.pending ∧
    (s.abortBatch batch).inFlight = .empty ∧
    (s.abortBatch batch).stoppedPartitions = s.stoppedPartitions ∧
    (s.abortBatch batch).leaseCounter = s.leaseCounter := by
  have hfold : ∀ (l : List CommitCandidate) (t : CommitCoordinator),
      (l.foldl cancel t).pending = t.pending ∧
      (l.foldl cancel t).stoppedPartitions = t.stoppedPartitions ∧
      (l.foldl cancel t).leaseCounter = t.leaseCounter := by
    intro l
    induction l with
    | nil => intro t; exact ⟨rfl, rfl, rfl⟩
    | cons d l ih => intro t; exact ih (t.cancel d)
  obtain ⟨h1, h2, h3⟩ := hfold batch s
  exact ⟨h1, rfl, h2, h3⟩

theorem remainingCandidates_spec {s : CommitCoordinator} {tps : List TopicPartition}
    {tp : TopicPartition} {c : CommitCandidate} (h : (s.remainingCandidates tps).get? tp = some c) :
    c.tp = tp ∧ ∃ tp', s.pending.get? tp' = some c ∨ s.inFlight.get? tp' = some c := by
  have hfold : ∀ (l : List CommitCandidate) (d : Dict TopicPartition CommitCandidate),
      (l.foldl keepGreater d).get? tp = some c → d.get? tp = some c ∨ (c ∈ l ∧ c.tp = tp) := by
    intro l
    induction l with
    | nil => intro d h; exact .inl h
    | cons a l ih =>
      intro d h
      rcases ih _ h with h | ⟨hc, htp⟩
      · have hset : (d.set a.tp a).get? tp = some c → d.get? tp = some c ∨ (c ∈ a :: l ∧ c.tp = tp) := by
          intro h
          rw [Dict.get?_set] at h
          split at h
          · rename_i heq; cases h; exact .inr ⟨List.mem_cons_self, heq⟩
          · exact .inl h
        unfold keepGreater at h
        split at h
        · exact hset h
        · split at h
          · exact hset h
          · exact .inl h
      · exact .inr ⟨List.mem_cons_of_mem _ hc, htp⟩
  unfold remainingCandidates at h
  rw [Dict.get?_filter, Option.filter_eq_some_iff] at h
  rcases hfold _ _ h.1 with hnil | ⟨hmem, htp⟩
  · cases hnil
  · refine ⟨htp, ?_⟩
    rcases List.mem_append.mp hmem with hm | hm
    · obtain ⟨tp', h'⟩ := (Dict.mem_values_iff _).mp hm; exact ⟨tp', .inr h'⟩
    · obtain ⟨tp', h'⟩ := (Dict.mem_values_iff _).mp hm; exact ⟨tp', .inl h'⟩

end CommitCoordinator

end PyrallelConsumer
