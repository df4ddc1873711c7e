import PyrallelConsumer.CoordinatorRuns

/-!
# PyrallelConsumer.CoordinatorLeases

What holds of the leases along every run of the coordinator. No cancelled lease is ever in the outbox
between two sections, so a lease is active exactly while its candidate is pending or in flight.

* `CommitLeases` — the invariant of the outbox, the batch of the worker and the log.
* `activeIn_iff` — a candidate of the batch has an active lease exactly while it is in flight.
* `commitLeases_reachable` — the invariant holds along every run.
-/

namespace PyrallelConsumer

/-! ## The log -/

namespace CoordinatorEvent

def accepted? : CoordinatorEvent → Option CommitCandidate
  | .accepted c => some c
  | _ => none

/-- The candidate was coalesced or cancelled. -/
def dropped? : CoordinatorEvent → Option CommitCandidate
  | .coalesced c => some c
  | .cancelled c => some c
  | _ => none

def settled? : CoordinatorEvent → Option CommitCandidate
  | .settled c => some c
  | _ => none

end CoordinatorEvent

def acceptedIn (log : List CoordinatorEvent) : List CommitCandidate := log.filterMap (·.accepted?)

def droppedIn (log : List CoordinatorEvent) : List CommitCandidate := log.filterMap (·.dropped?)

def settledIn (log : List CoordinatorEvent) : List CommitCandidate := log.filterMap (·.settled?)

/-- The values stored in `latest_settled_offsets` for a partition, newest first. -/
def storedIn (log : List CoordinatorEvent) (tp : TopicPartition) : List Int :=
  ((settledIn log).filter (·.tp = tp)).map (·.safeOffset)

theorem acceptedIn_append (l l' : List CoordinatorEvent) :
    acceptedIn (l ++ l') = acceptedIn l ++ acceptedIn l' := List.filterMap_append

theorem droppedIn_append (l l' : List CoordinatorEvent) :
    droppedIn (l ++ l') = droppedIn l ++ droppedIn l' := List.filterMap_append

theorem settledIn_append (l l' : List CoordinatorEvent) :
    settledIn (l ++ l') = settledIn l ++ settledIn l' := List.filterMap_append

theorem cancelled_events (l : List CommitCandidate) :
    acceptedIn (l.map .cancelled) = [] ∧ droppedIn (l.map .cancelled) = l ∧
      settledIn (l.map .cancelled) = [] := by
  induction l with
  | nil => exact ⟨rfl, rfl, rfl⟩
  | cons c l ih => exact ⟨ih.1, congrArg (c :: ·) ih.2.1, ih.2.2⟩

theorem settled_events (l : List CommitCandidate) :
    acceptedIn (l.map .settled) = [] ∧ droppedIn (l.map .settled) = [] ∧
      settledIn (l.map .settled) = l := by
  induction l with
  | nil => exact ⟨rfl, rfl, rfl⟩
  | cons c l ih => exact ⟨ih.1, ih.2.1, congrArg (c :: ·) ih.2.2⟩

/-! ## The invariant -/

open CommitCoordinator

/-- The leases of a run: who holds them, and what the log says of them. -/
structure CommitLeases (s : CommitCoordinator) (w : CoordinatorPc) (log : List CoordinatorEvent) : Prop where
  keyed : s.Keyed
  noneCancelled : s.cancelledLeases = []
  leases : ((acceptedIn log).map (·.leaseId)).Nodup
  counter : ∀ c ∈ acceptedIn log, c.leaseId ≤ s.leaseCounter
  dropped : ∀ c ∈ droppedIn log, c ∈ acceptedIn log
  settled : ∀ c ∈ settledIn log, c ∈ acceptedIn log
  pending : ∀ tp c, s.pending.get? tp = some c →
    c ∈ acceptedIn log ∧ c ∉ droppedIn log ∧ c ∉ settledIn log ∧ c ∉ w.batch
  inFlight : ∀ tp c, s.inFlight.get? tp = some c →
    c ∈ w.batch ∧ c ∉ droppedIn log ∧ (w.isSettling = false → c ∉ settledIn log)
  batch : ∀ c ∈ w.batch, c ∈ acceptedIn log
  batchNodup : (w.batch.map (·.tp)).Nodup
  order : ∀ tp p f, s.pending.get? tp = some p → s.inFlight.get? tp = some f →
    f.safeOffset < p.safeOffset

namespace CommitLeases

variable {s : CommitCoordinator} {w : CoordinatorPc} {log : List CoordinatorEvent}

/-- A lease names one accepted candidate. -/
theorem unique (h : CommitLeases s w log) {c d : CommitCandidate} (hc : c ∈ acceptedIn log)
    (hd : d ∈ acceptedIn log) (heq : c.leaseId = d.leaseId) : c = d :=
  List.inj_on_of_nodup_map h.leases hc hd heq

/-- A candidate of the batch has an active lease exactly while it is in flight. -/
theorem activeIn_iff (h : CommitLeases s w log) {c : CommitCandidate} (hc : c ∈ w.batch) :
    CommitCandidate.activeIn s c = true ↔ s.inFlight.get? c.tp = some c := by
  constructor
  · intro hactive
    obtain ⟨d, hd, -, hlease⟩ := exists_of_activeIn hactive
    rcases hd with hd | hd
    · obtain ⟨hacc, -, -, hnot⟩ := h.pending c.tp d hd
      exact absurd (h.unique hacc (h.batch c hc) hlease ▸ hc) hnot
    · rw [hd, h.unique (h.batch d (h.inFlight c.tp d hd).1) (h.batch c hc) hlease]
  · intro hf
    unfold CommitCandidate.activeIn isActiveLease
    rw [h.noneCancelled, if_neg List.not_mem_nil, hf]
    simp

end CommitLeases

/-! ## Cancelled leases are pruned at once -/

theorem pruneCancelledLeases_nil {s : CommitCoordinator}
    (h : ∀ k ∈ s.cancelledLeases, ∀ tp c, s.pending.get? tp = some c ∨ s.inFlight.get? tp = some c →
      c.leaseKey ≠ k) : s.pruneCancelledLeases.cancelledLeases = [] := by
  refine List.filter_eq_nil_iff.mpr fun k hk hmem => ?_
  obtain ⟨c, hc, heq⟩ := List.mem_map.mp (of_decide_eq_true hmem)
  rcases List.mem_append.mp hc with hc | hc
  · obtain ⟨tp, htp⟩ := (Dict.mem_values_iff _).mp hc
    exact h k hk tp c (.inl htp) heq
  · obtain ⟨tp, htp⟩ := (Dict.mem_values_iff _).mp hc
    exact h k hk tp c (.inr htp) heq

theorem stopPartitions_cancelled (tps : List TopicPartition) :
    ∀ (s : CommitCoordinator) (k : TopicPartition × Int × Nat),
      k ∈ (tps.foldl stopPartition s).cancelledLeases → k ∈ s.cancelledLeases ∨
        ∃ tp ∈ tps, ∃ c, s.pending.get? tp = some c ∧ k = c.leaseKey := by
  induction tps with
  | nil => intro s k h; exact .inl h
  | cons tp tps ih =>
    intro s k h
    have hone : (s.stopPartition tp).cancelledLeases = s.cancelledLeases ∨
        ∃ c, s.pending.get? tp = some c ∧
          (s.stopPartition tp).cancelledLeases = appendKey s.cancelledLeases c.leaseKey := by
      unfold stopPartition
      dsimp only
      cases hp : s.pending.get? tp with
      | none => exact .inl rfl
      | some c => exact .inr ⟨c, rfl, rfl⟩
    have hpend : ∀ tp' c, (s.stopPartition tp).pending.get? tp' = some c →
        s.pending.get? tp' = some c := by
      intro tp' c h
      unfold stopPartition at h
      dsimp only at h
      split at h
      · exact h
      · change (s.pending.erase tp).get? tp' = some c at h
        rw [Dict.get?_erase] at h
        split at h
        · cases h
        · exact h
    rcases ih _ k h with h | ⟨tp', htp', c, hc, heq⟩
    · rcases hone with hone | ⟨c, hc, hone⟩
      · rw [hone] at h; exact .inl h
      · rw [hone, mem_appendKey] at h
        exact h.imp_right fun heq => ⟨tp, List.mem_cons_self, c, hc, heq⟩
    · exact .inr ⟨tp', List.mem_cons_of_mem _ htp', c, hpend tp' c hc, heq⟩

theorem cancelPartition_cases (s : CommitCoordinator) (tp : TopicPartition) :
    ∀ k ∈ (s.cancelPartition tp).cancelledLeases, k ∈ s.cancelledLeases ∨
      ∃ c, (s.pending.get? tp = some c ∨ s.inFlight.get? tp = some c) ∧ k = c.leaseKey := by
  intro k hk
  unfold cancelPartition at hk
  dsimp only at hk
  cases hp : s.pending.get? tp with
  | none =>
    rw [hp] at hk
    dsimp only at hk
    cases hf : s.inFlight.get? tp with
    | none => rw [hf] at hk; exact .inl hk
    | some f =>
      rw [hf] at hk
      exact (mem_appendKey.mp hk).imp_right fun heq => ⟨f, .inr rfl, heq⟩
  | some p =>
    rw [hp] at hk
    dsimp only [cancel] at hk
    cases hf : s.inFlight.get? tp with
    | none =>
      rw [hf] at hk
      exact (mem_appendKey.mp hk).imp_right fun heq => ⟨p, .inl rfl, heq⟩
    | some f =>
      rw [hf] at hk
      rcases mem_appendKey.mp hk with hk | heq
      · exact (mem_appendKey.mp hk).imp_right fun heq => ⟨p, .inl rfl, heq⟩
      · exact .inr ⟨f, .inr rfl, heq⟩

theorem cancelPartitions_cancelled (tps : List TopicPartition) :
    ∀ (s : CommitCoordinator) (k : TopicPartition × Int × Nat), s.Keyed →
      k ∈ (tps.foldl cancelPartition s).cancelledLeases → k ∈ s.cancelledLeases ∨ k.1 ∈ tps := by
  induction tps with
  | nil => intro s k _ h; exact .inl h
  | cons tp tps ih =>
    intro s k hs h
    -- cancelling one partition and pruning keeps the same candidates
    have hkeyed : (s.cancelPartition tp).Keyed :=
      ⟨(within_cancelLeases hs [tp]).keyed.pending, (within_cancelLeases hs [tp]).keyed.inFlight⟩
    rcases ih _ k hkeyed h with h | h
    · rcases cancelPartition_cases s tp k h with h | ⟨c, hc, heq⟩
      · exact .inl h
      · have htp : k.1 = tp := by
          rw [heq]
          rcases hc with hc | hc
          · exact hs.pending tp c hc
          · exact hs.inFlight tp c hc
        exact .inr (htp ▸ List.mem_cons_self)
    · exact .inr (List.mem_cons_of_mem _ h)

theorem cancelAll_cancelled (l : List CommitCandidate) :
    ∀ (s : CommitCoordinator) (k : TopicPartition × Int × Nat),
      k ∈ (l.foldl cancel s).cancelledLeases → k ∈ s.cancelledLeases ∨ ∃ c ∈ l, k = c.leaseKey := by
  induction l with
  | nil => intro s k h; exact .inl h
  | cons c l ih =>
    intro s k h
    rcases ih _ k h with h | ⟨d, hd, heq⟩
    · exact (mem_appendKey.mp h).imp_right fun heq => ⟨c, List.mem_cons_self, heq⟩
    · exact .inr ⟨d, List.mem_cons_of_mem _ hd, heq⟩

/-! ## One step -/

namespace CommitLeases

variable {config : CommitCoordinatorConfig} {s s' : CommitCoordinator} {w w' : CoordinatorPc}
  {log : List CoordinatorEvent}

/-- The step only takes candidates out of the outbox, those of `l` by cancelling them. -/
theorem drop (h : CommitLeases s w log) {l : List CommitCandidate} (hnone : s'.cancelledLeases = [])
    (hcounter : s'.leaseCounter = s.leaseCounter) (hl : ∀ c ∈ l, c ∈ acceptedIn log)
    (hw : w' = w ∨ w'.batch = [])
    (hp : ∀ tp c, s'.pending.get? tp = some c → s.pending.get? tp = some c ∧ c ∉ l)
    (hf : ∀ tp c, s'.inFlight.get? tp = some c → w' = w ∧ s.inFlight.get? tp = some c ∧ c ∉ l) :
    CommitLeases s' w' (l.map .cancelled ++ log) := by
  obtain ⟨hacc, hdrop, hset⟩ := cancelled_events l
  have hacc' : acceptedIn (l.map .cancelled ++ log) = acceptedIn log := by
    rw [acceptedIn_append, hacc, List.nil_append]
  have hset' : settledIn (l.map .cancelled ++ log) = settledIn log := by
    rw [settledIn_append, hset, List.nil_append]
  have hdrop' : droppedIn (l.map .cancelled ++ log) = l ++ droppedIn log := by
    rw [droppedIn_append, hdrop]
  have hbatch : ∀ c ∈ w'.batch, c ∈ w.batch := by
    intro c hc
    rcases hw with rfl | hw
    · exact hc
    · rw [hw] at hc; cases hc
  refine ⟨⟨?_, ?_⟩, hnone, ?_, ?_, ?_, ?_, ?_, ?_, ?_, ?_, ?_⟩
  · exact fun tp c hc => h.keyed.pending tp c (hp tp c hc).1
  · exact fun tp c hc => h.keyed.inFlight tp c (hf tp c hc).2.1
  · rw [hacc']; exact h.leases
  · rw [hacc', hcounter]; exact h.counter
  · rw [hacc', hdrop']
    intro c hc
    rcases List.mem_append.mp hc with hc | hc
    · exact hl c hc
    · exact h.dropped c hc
  · rw [hacc', hset']; exact h.settled
  · intro tp c hc
    obtain ⟨hc, hnot⟩ := hp tp c hc
    obtain ⟨h1, h2, h3, h4⟩ := h.pending tp c hc
    rw [hacc', hset', hdrop', List.mem_append]
    exact ⟨h1, not_or.mpr ⟨hnot, h2⟩, h3, fun hb => h4 (hbatch c hb)⟩
  · intro tp c hc
    obtain ⟨rfl, hc, hnot⟩ := hf tp c hc
    obtain ⟨h1, h2, h3⟩ := h.inFlight tp c hc
    rw [hset', hdrop', List.mem_append]
    exact ⟨h1, not_or.mpr ⟨hnot, h2⟩, h3⟩
  · rw [hacc']; exact fun c hc => h.batch c (hbatch c hc)
  · rcases hw with rfl | hw
    · exact h.batchNodup
    · rw [hw]; exact List.nodup_nil
  · exact fun tp p f hpp hff => h.order tp p f (hp tp p hpp).1 (hf tp f hff).2.1

/-- The step leaves the leases alone. -/
theorem frame (h : CommitLeases s w log) (hnone : s'.cancelledLeases = s.cancelledLeases)
    (hcounter : s'.leaseCounter = s.leaseCounter) (hp : s'.pending = s.pending)
    (hf : s'.inFlight = s.inFlight) : CommitLeases s' w log :=
  h.drop (l := []) (hnone.trans h.noneCancelled) hcounter (fun _ hc => by cases hc) (.inl rfl)
    (fun _ _ hc => ⟨hp ▸ hc, List.not_mem_nil⟩) (fun _ _ hc => ⟨rfl, hf ▸ hc, List.not_mem_nil⟩)

theorem clearInFlight (h : CommitLeases s w log) : CommitLeases s.clearInFlight .idle log := by
  refine h.drop (l := []) ?_ rfl (fun _ hc => by cases hc) (.inr rfl)
    (fun _ _ hc => ⟨hc, List.not_mem_nil⟩) (fun _ _ hc => by cases hc)
  refine pruneCancelledLeases_nil fun k hk => ?_
  rw [show ({ s with inFlight := Dict.empty } : CommitCoordinator).cancelledLeases = [] from
    h.noneCancelled] at hk
  cases hk

/-- The candidates that `stop_accepting_partitions` takes out. -/
theorem mem_pendingOf {tps : List TopicPartition} {c : CommitCandidate} (hs : s.Keyed) :
    c ∈ s.pending.values.filter (·.tp ∈ tps) ↔ c.tp ∈ tps ∧ s.pending.get? c.tp = some c := by
  rw [List.mem_filter, Dict.mem_values_iff, decide_eq_true_eq, and_comm, and_congr_right_iff]
  intro _
  constructor
  · rintro ⟨tp, htp⟩; rw [hs.pending tp c htp]; exact htp
  · exact fun h => ⟨c.tp, h⟩

theorem stopAcceptingPartitions (h : CommitLeases s w log) (tps : List TopicPartition) :
    CommitLeases (s.stopAcceptingPartitions tps) w
      ((s.pending.values.filter (·.tp ∈ tps)).map .cancelled ++ log) := by
  obtain ⟨-, hfl, -, hcount⟩ := stopAcceptingPartitions_spec tps s
  have hfree : ∀ tp c, s.inFlight.get? tp = some c → ∀ d, s.pending.get? d.tp = some d →
      c.leaseId ≠ d.leaseId := by
    -- a lease in flight is in the batch, and no pending one is
    intro tp c hc d hd heq
    obtain ⟨hacc, -, -, hnot⟩ := h.pending _ d hd
    have hmem := (h.inFlight tp c hc).1
    exact hnot (h.unique (h.batch c hmem) hacc heq ▸ hmem)
  refine h.drop ?_ hcount (fun c hc => ?_) (.inl rfl) (fun tp c hc => ?_) (fun tp c hc => ?_)
  · refine pruneCancelledLeases_nil fun k hk tp c hc hkey => ?_
    rcases stopPartitions_cancelled tps s k hk with hk | ⟨tp', htp', d, hd, heq⟩
    · rw [h.noneCancelled] at hk; cases hk
    · have hkey : c.leaseKey = d.leaseKey := hkey.trans heq
      have hctp : c.tp = d.tp := congrArg Prod.fst hkey
      have hlease : c.leaseId = d.leaseId := congrArg (·.2.2) hkey
      have hdtp := h.keyed.pending tp' d hd
      rcases hc with hc | hc
      · obtain ⟨hnot, hc⟩ := pending_of_stopAcceptingPartitions hc
        rw [← h.keyed.pending tp c hc, hctp, hdtp] at hnot
        exact hnot htp'
      · change (s.stopAcceptingPartitions tps).inFlight.get? tp = some c at hc
        rw [hfl] at hc
        exact hfree tp c hc d (by rw [hdtp]; exact hd) hlease
  · exact (h.pending _ c ((mem_pendingOf h.keyed).mp hc).2).1
  · obtain ⟨hnot, hc⟩ := pending_of_stopAcceptingPartitions hc
    refine ⟨hc, fun hmem => hnot ?_⟩
    rw [← h.keyed.pending tp c hc]
    exact ((mem_pendingOf h.keyed).mp hmem).1
  · rw [hfl] at hc
    refine ⟨rfl, hc, fun hmem => ?_⟩
    exact hfree tp c hc c ((mem_pendingOf h.keyed).mp hmem).2 rfl

theorem cancelLeases (h : CommitLeases s w log) (tps : List TopicPartition) :
    CommitLeases (s.cancelLeases tps) w
      (((s.pending.values ++ s.inFlight.values).filter (·.tp ∈ tps)).map .cancelled ++ log) := by
  have hcount := (cancelLeases_spec tps s).2.2.2
  have hleft : ∀ tp c, (s.cancelLeases tps).pending.get? tp = some c →
      c.tp ∉ tps ∧ s.pending.get? tp = some c := by
    intro tp c hc
    obtain ⟨hnot, hc⟩ := pending_of_cancelLeases hc
    rw [h.keyed.pending tp c hc]
    exact ⟨hnot, hc⟩
  have hleft' : ∀ tp c, (s.cancelLeases tps).inFlight.get? tp = some c →
      c.tp ∉ tps ∧ s.inFlight.get? tp = some c := by
    intro tp c hc
    obtain ⟨hnot, hc⟩ := inFlight_of_cancelLeases hc
    rw [h.keyed.inFlight tp c hc]
    exact ⟨hnot, hc⟩
  have hout : ∀ c, c ∈ (s.pending.values ++ s.inFlight.values).filter (·.tp ∈ tps) → c.tp ∈ tps :=
    fun c hc => of_decide_eq_true (List.mem_filter.mp hc).2
  refine h.drop ?_ hcount (fun c hc => ?_) (.inl rfl) (fun tp c hc => ?_) (fun tp c hc => ?_)
  · refine pruneCancelledLeases_nil fun k hk tp c hc hkey => ?_
    rcases cancelPartitions_cancelled tps s k h.keyed hk with hk | hk
    · rw [h.noneCancelled] at hk; cases hk
    · have htp : c.tp = k.1 := congrArg Prod.fst hkey
      rw [← htp] at hk
      rcases hc with hc | hc
      · exact (hleft tp c hc).1 hk
      · exact (hleft' tp c hc).1 hk
  · rcases List.mem_append.mp (List.mem_filter.mp hc).1 with hc | hc
    · obtain ⟨tp, htp⟩ := (Dict.mem_values_iff _).mp hc
      exact (h.pending tp c htp).1
    · obtain ⟨tp, htp⟩ := (Dict.mem_values_iff _).mp hc
      exact h.batch c (h.inFlight tp c htp).1
  · exact ⟨(hleft tp c hc).2, fun hmem => (hleft tp c hc).1 (hout c hmem)⟩
  · exact ⟨rfl, (hleft' tp c hc).2, fun hmem => (hleft' tp c hc).1 (hout c hmem)⟩

theorem abortBatch (h : CommitLeases s w log) :
    CommitLeases (s.abortBatch w.batch) .idle (w.batch.map .cancelled ++ log) := by
  obtain ⟨hpend, hfl, -, hcount⟩ := abortBatch_fields s w.batch
  refine h.drop ?_ hcount h.batch (.inr rfl) (fun tp c hc => ?_) (fun tp c hc => ?_)
  · refine pruneCancelledLeases_nil fun k hk tp c hc hkey => ?_
    rcases hc with hc | hc
    · rcases cancelAll_cancelled w.batch s k hk with hk | ⟨d, hd, heq⟩
      · rw [h.noneCancelled] at hk; cases hk
      · change (s.abortBatch w.batch).pending.get? tp = some c at hc
        rw [hpend] at hc
        obtain ⟨hacc, -, -, hnot⟩ := h.pending tp c hc
        have hlease : c.leaseId = d.leaseId := congrArg (·.2.2) (hkey.trans heq)
        exact hnot (h.unique hacc (h.batch d hd) hlease ▸ hd)
    · cases hc
  · rw [hpend] at hc; exact ⟨hc, (h.pending tp c hc).2.2.2⟩
  · rw [hfl] at hc; cases hc

/-- The worker takes a batch: what was pending is in flight. -/
theorem takeBatch (h : CommitLeases s .idle log) : CommitLeases s.takeBatch.2 (.committing s.takeBatch.1) log := by
  have hmem : ∀ c ∈ s.takeBatch.1, ∃ tp, s.pending.get? tp = some c := fun c hc => mem_takeBatch.mp hc
  refine ⟨(within_takeBatch h.keyed).keyed, h.noneCancelled, h.leases, h.counter, h.dropped, h.settled,
    fun tp c hc => (by cases hc), fun tp c hc => ?_, fun c hc => ?_, ?_, fun tp p f hp => by cases hp⟩
  · obtain ⟨hbatch, -⟩ := takeBatch_inFlight hc
    obtain ⟨tp', htp'⟩ := hmem c hbatch
    exact ⟨hbatch, (h.pending tp' c htp').2.1, fun _ => (h.pending tp' c htp').2.2.1⟩
  · obtain ⟨tp, htp⟩ := hmem c hc
    exact (h.pending tp c htp).1
  · have hkeys : s.takeBatch.1.map (·.tp) = s.pending.keys := by
      show s.pending.values.map (·.tp) = s.pending.keys
      rw [Dict.values, Dict.keys, List.map_map]
      refine List.map_congr_left fun e he => ?_
      exact h.keyed.pending e.1 e.2 ((Dict.mem_entries_iff _).mp he)
    exact hkeys ▸ s.pending.nodup

theorem retryBatch_frame (s : CommitCoordinator) (batch : List CommitCandidate) :
    (s.retryBatch batch).latestSettledOffsets = s.latestSettledOffsets ∧
      ∀ k ∈ (s.retryBatch batch).cancelledLeases, k ∈ s.cancelledLeases := by
  have hfold : ∀ (l : List CommitCandidate) (t : CommitCoordinator),
      (l.foldl (fun s c => if CommitCandidate.activeIn s c then
        { s with pending := s.pending.set c.tp c } else s) t).latestSettledOffsets =
          t.latestSettledOffsets ∧
      (l.foldl (fun s c => if CommitCandidate.activeIn s c then
        { s with pending := s.pending.set c.tp c } else s) t).cancelledLeases = t.cancelledLeases := by
    intro l
    induction l with
    | nil => intro t; exact ⟨rfl, rfl⟩
    | cons d l ih =>
      intro t
      rw [List.foldl_cons]
      split
      · exact ih _
      · exact ih t
  refine ⟨(hfold batch s).1, fun k hk => ?_⟩
  have hk := (List.mem_filter.mp hk).1
  change k ∈ (batch.foldl (fun s c => if CommitCandidate.activeIn s c then
    { s with pending := s.pending.set c.tp c } else s) s).cancelledLeases at hk
  rw [(hfold batch s).2] at hk
  exact hk

/-- A failed batch is retried: what was in flight is pending again. -/
theorem retryBatch (h : CommitLeases s w log) (hw : w.isSettling = false) :
    CommitLeases (s.retryBatch w.batch) .idle log := by
  obtain ⟨hfl, -, hcount⟩ := retryBatch_fields s w.batch
  refine ⟨(within_retryBatch h.keyed w.batch).keyed, ?_, h.leases, ?_, h.dropped, h.settled, ?_, ?_,
    fun c hc => (by cases hc), List.nodup_nil, ?_⟩
  · refine List.eq_nil_iff_forall_not_mem.mpr fun k hk => ?_
    have hk := (retryBatch_frame s w.batch).2 k hk
    rw [h.noneCancelled] at hk; cases hk
  · rw [hcount]; exact h.counter
  · intro tp c hc
    rcases retryBatch_pending h.batchNodup hc with hc | ⟨hmem, -, hactive⟩
    · obtain ⟨h1, h2, h3, -⟩ := h.pending tp c hc
      exact ⟨h1, h2, h3, List.not_mem_nil⟩
    · obtain ⟨-, h2, h3⟩ := h.inFlight _ c ((h.activeIn_iff hmem).mp hactive)
      exact ⟨h.batch c hmem, h2, h3 hw, List.not_mem_nil⟩
  · intro tp c hc; rw [hfl] at hc; cases hc
  · intro tp p f _ hf; rw [hfl] at hf; cases hf

/-- The log says who was accepted and who gave way. -/
theorem acceptEvents_cases (s : CommitCoordinator) (c : CommitCandidate) :
    acceptedIn (s.acceptEvents c) = [{ c with leaseId := s.leaseCounter + 1 }] ∧
    settledIn (s.acceptEvents c) = [] ∧
    ∀ d, d ∈ droppedIn (s.acceptEvents c) ↔ s.pending.get? c.tp = some d := by
  unfold acceptEvents
  cases hp : s.pending.get? c.tp with
  | none => exact ⟨rfl, rfl, fun d => by simp [droppedIn, CoordinatorEvent.dropped?]⟩
  | some current =>
    exact ⟨rfl, rfl, fun d => by simp [droppedIn, CoordinatorEvent.dropped?, eq_comm]⟩

theorem accept (h : CommitLeases s w log) {c : CommitCandidate} (hadm : Admitted config s c) :
    CommitLeases ((s.cancelPending c.tp).accept c) w (s.acceptEvents c ++ log) := by
  have haccepts := accepts_accept s c
  obtain ⟨hacc, hset, hdrop⟩ := acceptEvents_cases s c
  have hfresh : ∀ d ∈ acceptedIn log, d ≠ { c with leaseId := s.leaseCounter + 1 } := by
    intro d hd heq
    have hle := h.counter d hd
    rw [heq] at hle
    exact absurd hle (by simp)
  have hpend : ∀ tp d, ((s.cancelPending c.tp).accept c).pending.get? tp = some d →
      (c.tp = tp ∧ d = { c with leaseId := s.leaseCounter + 1 }) ∨
        (c.tp ≠ tp ∧ s.pending.get? tp = some d) := by
    intro tp d hd
    rw [haccepts.pending, Dict.get?_set] at hd
    split at hd
    · rename_i heq; cases hd; exact .inl ⟨heq, rfl⟩
    · rename_i hne; exact .inr ⟨hne, hd⟩
  have hdropped : ∀ d, d ∈ droppedIn (s.acceptEvents c ++ log) ↔
      s.pending.get? c.tp = some d ∨ d ∈ droppedIn log := by
    intro d
    rw [droppedIn_append, List.mem_append, hdrop]
  have hsettled : settledIn (s.acceptEvents c ++ log) = settledIn log := by
    rw [settledIn_append, hset, List.nil_append]
  have haccepted : acceptedIn (s.acceptEvents c ++ log) =
      { c with leaseId := s.leaseCounter + 1 } :: acceptedIn log := by
    rw [acceptedIn_append, hacc, List.singleton_append]
  refine ⟨keyed_accept h.keyed haccepts, ?_, ?_, ?_, ?_, ?_, ?_, ?_, ?_, h.batchNodup, ?_⟩
  · -- the lease that gave way is no one's any more
    refine pruneCancelledLeases_nil fun k hk tp d hd hkey => ?_
    rcases cancelPending_cases s c.tp with ⟨-, heq⟩ | ⟨current, hcur, heq⟩
    · have hk : k ∈ s.cancelledLeases := by rw [heq] at hk; exact hk
      rw [h.noneCancelled] at hk; cases hk
    · have hk : k ∈ (s.cancel current).cancelledLeases := by rw [heq] at hk; exact hk
      rcases mem_appendKey.mp hk with hk | hk
      · rw [h.noneCancelled] at hk; cases hk
      · have hkey : d.leaseKey = current.leaseKey := hkey.trans hk
        have hlease : d.leaseId = current.leaseId := congrArg (·.2.2) hkey
        obtain ⟨hcacc, -, -, hcnot⟩ := h.pending _ current hcur
        rcases hd with hd | hd
        · rcases hpend tp d hd with ⟨-, rfl⟩ | ⟨hne, hd⟩
          · have hle := h.counter current hcacc
            dsimp only at hlease
            omega
          · have hdtp := h.keyed.pending tp d hd
            have hctp := h.keyed.pending _ current hcur
            have htp : d.tp = current.tp := congrArg Prod.fst hkey
            exact hne (by rw [← hctp, ← htp, hdtp])
        · change ((s.cancelPending c.tp).accept c).inFlight.get? tp = some d at hd
          rw [haccepts.frame.inFlight] at hd
          have hmem := (h.inFlight tp d hd).1
          exact hcnot (h.unique (h.batch d hmem) hcacc hlease ▸ hmem)
  · rw [haccepted, List.map_cons, List.nodup_cons]
    refine ⟨fun hmem => ?_, h.leases⟩
    obtain ⟨d, hd, heq⟩ := List.mem_map.mp hmem
    have hle := h.counter d hd
    dsimp only at heq
    omega
  · rw [haccepted, haccepts.leaseCounter]
    intro d hd
    rcases List.mem_cons.mp hd with rfl | hd
    · exact Nat.le_refl _
    · exact Nat.le_succ_of_le (h.counter d hd)
  · rw [haccepted]
    intro d hd
    rcases (hdropped d).mp hd with hd | hd
    · exact List.mem_cons_of_mem _ (h.pending _ d hd).1
    · exact List.mem_cons_of_mem _ (h.dropped d hd)
  · rw [haccepted, hsettled]
    exact fun d hd => List.mem_cons_of_mem _ (h.settled d hd)
  · intro tp d hd
    rw [haccepted, hsettled, hdropped]
    rcases hpend tp d hd with ⟨-, rfl⟩ | ⟨hne, hd⟩
    · refine ⟨List.mem_cons_self, not_or.mpr ⟨fun hcur => ?_, fun hmem => ?_⟩, fun hmem => ?_,
        fun hmem => ?_⟩
      · exact hfresh _ (h.pending _ _ hcur).1 rfl
      · exact hfresh _ (h.dropped _ hmem) rfl
      · exact hfresh _ (h.settled _ hmem) rfl
      · exact hfresh _ (h.batch _ hmem) rfl
    · obtain ⟨h1, h2, h3, h4⟩ := h.pending tp d hd
      refine ⟨List.mem_cons_of_mem _ h1, not_or.mpr ⟨fun hcur => hne ?_, h2⟩, h3, h4⟩
      rw [← h.keyed.pending _ d hcur, h.keyed.pending tp d hd]
  · intro tp f hf
    rw [haccepts.frame.inFlight] at hf
    obtain ⟨h1, h2, h3⟩ := h.inFlight tp f hf
    rw [hsettled, hdropped]
    exact ⟨h1, not_or.mpr ⟨fun hcur => (h.pending _ f hcur).2.2.2 h1, h2⟩, h3⟩
  · rw [haccepted]
    exact fun d hd => List.mem_cons_of_mem _ (h.batch d hd)
  · intro tp p f hp hf
    rw [haccepts.frame.inFlight] at hf
    rcases hpend tp p hp with ⟨rfl, rfl⟩ | ⟨-, hp⟩
    · cases hcur : s.pending.get? c.tp with
      | none => exact hadm.newerInFlight hcur f hf
      | some current => exact (h.order _ current f hcur hf).trans (hadm.newer current hcur)
    · exact h.order tp p f hp hf

theorem enqueueCall (h : CommitLeases s w log) (cs : List CommitCandidate) :
    CommitLeases (s.enqueueCall config cs).coordinator w ((s.enqueueCall config cs).events ++ log) := by
  refine enqueueCall_induction (P := fun s events => CommitLeases s w (events ++ log)) ?_ ?_ h cs
  · exact fun s n events h => h.frame rfl rfl rfl rfl
  · intro s c events h hadm
    rw [List.append_assoc]
    exact h.accept hadm

/-- `commit_sync` returned: the batch is settled as far as its leases are active. -/
theorem recordSettled {batch : List CommitCandidate} (h : CommitLeases s (.committing batch) log)
    (settlements : List CommitCandidate) (hsub : ∀ c ∈ settlements, c ∈ batch) :
    CommitLeases (s.recordSettled settlements) (.settling batch settlements)
      (settlements.reverse.map .settled ++ .committed batch :: log) := by
  obtain ⟨hacc, hdrop, hset⟩ := settled_events settlements.reverse
  have hacc' : acceptedIn (settlements.reverse.map .settled ++ .committed batch :: log) =
      acceptedIn log := by rw [acceptedIn_append, hacc]; rfl
  have hdrop' : droppedIn (settlements.reverse.map .settled ++ .committed batch :: log) =
      droppedIn log := by rw [droppedIn_append, hdrop]; rfl
  have hset' : settledIn (settlements.reverse.map .settled ++ .committed batch :: log) =
      settlements.reverse ++ settledIn log := by rw [settledIn_append, hset]; rfl
  refine ⟨⟨h.keyed.pending, h.keyed.inFlight⟩, h.noneCancelled, ?_, ?_, ?_, ?_, ?_, ?_, ?_,
    h.batchNodup, h.order⟩
  · rw [hacc']; exact h.leases
  · rw [hacc']; exact h.counter
  · rw [hacc', hdrop']; exact h.dropped
  · rw [hacc', hset']
    intro c hc
    rcases List.mem_append.mp hc with hc | hc
    · exact h.batch c (hsub c (List.mem_reverse.mp hc))
    · exact h.settled c hc
  · intro tp c hc
    obtain ⟨h1, h2, h3, h4⟩ := h.pending tp c hc
    rw [hacc', hdrop', hset', List.mem_append]
    exact ⟨h1, h2, not_or.mpr ⟨fun hmem => h4 (hsub c (List.mem_reverse.mp hmem)), h3⟩, h4⟩
  · intro tp c hc
    obtain ⟨h1, h2, -⟩ := h.inFlight tp c hc
    rw [hdrop']
    exact ⟨h1, h2, fun hw => by cases hw⟩
  · rw [hacc']; exact h.batch

end CommitLeases

/-! ## Every run -/

theorem commitLeases_step {config : CommitCoordinatorConfig} {r r' : CoordinatorRun}
    (h : CommitLeases r.coordinator r.worker r.log) (hstep : CoordinatorStep config r r') :
    CommitLeases r'.coordinator r'.worker r'.log := by
  cases hstep with
  | enqueue candidates => exact h.enqueueCall candidates
  | flags stopped accepting healthy => exact h.frame rfl rfl rfl rfl
  | stop tps => exact h.stopAcceptingPartitions tps
  | cancel tps => exact h.cancelLeases tps
  | take hw => rw [hw] at h; exact h.takeBatch
  | settle batch hw =>
    rw [hw] at h
    exact h.recordSettled _ fun c hc => (List.mem_filter.mp hc).1
  | wait batch settlements reason hw =>
    rw [hw] at h
    exact ⟨h.keyed, h.noneCancelled, h.leases, h.counter, h.dropped, h.settled, h.pending, h.inFlight,
      h.batch, h.batchNodup, h.order⟩
  | clear _ => exact h.clearInFlight
  | retry hw => exact h.retryBatch hw
  | abort => exact h.abortBatch

theorem commitLeases_start : CommitLeases {} .idle [] := by
  refine ⟨⟨?_, ?_⟩, rfl, List.nodup_nil, ?_, ?_, ?_, ?_, ?_, ?_, List.nodup_nil, ?_⟩
  · exact fun _ _ hc => by cases hc
  · exact fun _ _ hc => by cases hc
  · exact fun _ hc => by cases hc
  · exact fun _ hc => by cases hc
  · exact fun _ hc => by cases hc
  · exact fun _ _ hc => by cases hc
  · exact fun _ _ hc => by cases hc
  · exact fun _ hc => by cases hc
  · exact fun _ _ _ hc => by cases hc

/-- The leases are in order along every run. -/
theorem commitLeases_reachable {config : CommitCoordinatorConfig} {r : CoordinatorRun}
    (h : (coordinatorMachine config).Reachable r) : CommitLeases r.coordinator r.worker r.log :=
  CoordinatorRun.invariant_of_steps (I := fun r => CommitLeases r.coordinator r.worker r.log)
    commitLeases_start (fun _ _ hI hstep => commitLeases_step hI hstep) h

end PyrallelConsumer
