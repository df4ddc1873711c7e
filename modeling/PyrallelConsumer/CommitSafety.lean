import PyrallelConsumer.PollerTrackers

/-!
# PyrallelConsumer.CommitSafety

No position reaches the broker before everything below it is handled. An offset is handled once
`process_completed_events` has marked it, past the dead-letter gate, or when the starting state of an
assignment covers it.

* `safe_step`, `holds_next` — what a tracker holds as done is handled, and so is everything up to an
  offset in circulation.
* `handled_before_commit` — the whole run: direct commits, coordinator commits and revoke commits.
-/

set_option linter.unusedSectionVars false

namespace PyrallelConsumer

variable {κ π : Type} [DecidableEq κ]

/-- The offset was marked from a success, or from a failure that passed the dead-letter gate: it needed
no publication, or that publication was confirmed before. -/
def Completed (c : DlqConfig) (log : List (PollerEntry κ π)) (tp : TopicPartition) (o : Int) : Prop :=
  ∃ newer r e changed older, log = newer ++ .marked r e changed :: older ∧ e.tp = tp ∧ e.offset = o ∧
    (e.status = .success ∨
      (e.status = .failure ∧ (c.needsPublish e = false ∨ .published r e .delivered ∈ older)))

/-- The offset was covered by the starting state of an assignment. -/
def Restored (log : List (PollerEntry κ π)) (tp : TopicPartition) (o : Int) : Prop :=
  ∃ r core, .installed r core ∈ log ∧ core.topicPartition = tp ∧ core.Covers o

def Handled (c : DlqConfig) (log : List (PollerEntry κ π)) (tp : TopicPartition) (o : Int) : Prop :=
  Completed c log tp o ∨ Restored log tp o

def HandledUpTo (c : DlqConfig) (log : List (PollerEntry κ π)) (tp : TopicPartition) (o : Int) : Prop :=
  ∀ x ≤ o, Handled c log tp x

section Handled

variable {c : DlqConfig} {log log' : List (PollerEntry κ π)} {tp : TopicPartition} {o : Int}

theorem handled_of_suffix (h : log <:+ log') (ho : Handled c log tp o) : Handled c log' tp o := by
  obtain ⟨l, rfl⟩ := h
  rcases ho with ⟨newer, r, e, changed, older, rfl, hrest⟩ | ⟨r, core, hmem, hrest⟩
  · exact .inl ⟨l ++ newer, r, e, changed, older, by simp, hrest⟩
  · exact .inr ⟨r, core, List.mem_append_right _ hmem, hrest⟩

theorem handledUpTo_of_suffix (h : log <:+ log') (ho : HandledUpTo c log tp o) :
    HandledUpTo c log' tp o := fun x hx => handled_of_suffix h (ho x hx)

end Handled

/-! ## Trackers -/

/-- What trackers cover and what is committed is handled. -/
structure TrackerView.Safe (c : DlqConfig) (v : TrackerView κ π) : Prop where
  owner : ∀ tp r, v.installed.get? tp = some r → ∃ core, v.cores[r]? = some core ∧ core.topicPartition = tp
  handled : ∀ (r : TrackerRef) core o, v.cores[r]? = some core → core.Covers o →
    Handled c v.log core.topicPartition o
  committed : ∀ newer path r position older, v.log = newer ++ .committed path r position :: older →
    HandledUpTo c older position.toDto (position.offset - 1)

namespace TrackerView.Safe

variable {c : DlqConfig} {v : TrackerView κ π}

/-- An entry that is not a commit keeps the history safe. -/
theorem committed_cons (h : v.Safe c) {entry : PollerEntry κ π}
    (hentry : ∀ path r position, entry ≠ .committed path r position) :
    ∀ newer path r position older, entry :: v.log = newer ++ .committed path r position :: older →
      HandledUpTo c older position.toDto (position.offset - 1) := by
  intro newer path r position older heq
  cases newer with
  | nil => exact absurd (List.cons.inj heq).1 (hentry path r position)
  | cons _ newer => exact h.committed newer path r position older (List.cons.inj heq).2

theorem handledUpTo (h : v.Safe c) {tp : TopicPartition} {o : Int} (ho : v.CoveredUpTo tp o) :
    HandledUpTo c v.log tp o := by
  obtain ⟨r, core, hr, hcore, hcov⟩ := ho
  obtain ⟨core', hcore', htp⟩ := h.owner tp r hr
  rw [hcore] at hcore'
  cases hcore'
  intro x hx
  exact htp ▸ h.handled r core x hcore (hcov x hx)

/-- A new entry and grown trackers keep everything else. -/
theorem handled_cons (h : v.Safe c) (entry : PollerEntry κ π) :
    ∀ (r : TrackerRef) core o, v.cores[r]? = some core → core.Covers o →
      Handled c (entry :: v.log) core.topicPartition o :=
  fun r core o hr ho => handled_of_suffix (List.suffix_cons _ _) (h.handled r core o hr ho)

/-- **One change.** -/
theorem step (h : v.Safe c) {V : TopicPartition → Int → Prop} {E : CompletionEvent → Prop}
    (hV : ∀ tp o, V tp o → HandledUpTo c v.log tp o) {v' : TrackerView κ π}
    (hstep : TrackerStep c V E v v') : v'.Safe c := by
  have howner : ∀ f : OffsetTracker.Core → OffsetTracker.Core, (∀ core : OffsetTracker.Core, core.Grows (f core)) →
      ∀ (i : TrackerRef) tp r, v.installed.get? tp = some r →
        ∃ core, (v.cores.modify i f)[r]? = some core ∧ core.topicPartition = tp := by
    intro f hf i tp r hr
    obtain ⟨core, hcore, htp⟩ := h.owner tp r hr
    obtain ⟨core', hcore', hg⟩ := grows_modify hf i r core hcore
    exact ⟨core', hcore', hg.topicPartition.trans htp⟩
  cases hstep with
  | installed core hwf hepoch hE =>
    refine ⟨fun tp r hr => ?_, fun r core' o hr ho => ?_, h.committed_cons (by simp)⟩
    · rw [Dict.get?_set] at hr
      split at hr
      · rename_i htp
        cases hr
        exact ⟨core, by simp, htp⟩
      · obtain ⟨core', hcore', htp⟩ := h.owner tp r hr
        refine ⟨core', ?_, htp⟩
        rw [List.getElem?_append_left (List.getElem?_eq_some_iff.mp hcore').choose]
        exact hcore'
    · rcases List.mem_append.mp (List.mem_of_getElem? hr) with hmem | hmem
      · obtain ⟨i, hi⟩ := List.mem_iff_getElem?.mp hmem
        exact h.handled_cons _ i core' o hi ho
      · cases List.mem_singleton.mp hmem
        exact .inr ⟨v.cores.length, core, List.mem_cons_self, rfl, ho⟩
  | forgot tps hE =>
    refine ⟨fun tp r hr => h.owner tp r ?_, h.handled, h.committed⟩
    rw [Dict.get?_eraseAll] at hr
    split at hr
    · cases hr
    · exact hr
  | submitted r x hr hE => exact ⟨h.owner, h.handled_cons _, h.committed_cons (by simp)⟩
  | published r e outcome core hcur hneeds hE =>
    exact ⟨h.owner, h.handled_cons _, h.committed_cons (by simp)⟩
  | pended r e core hcur hneeds hE => exact ⟨h.owner, h.handled_cons _, h.committed_cons (by simp)⟩
  | marked r e changed core hcur hE hgate hchanged =>
    refine ⟨howner _ (grows_markComplete e.offset) r, fun i core' o hi ho => ?_,
      h.committed_cons (by simp)⟩
    rcases getElem?_modify_cases hi with hold | ⟨rfl, core0, hcore0, rfl⟩
    · exact h.handled_cons _ i core' o hold ho
    · rcases OffsetTracker.Core.covers_markComplete.mp ho with ho | rfl
      · exact h.handled_cons _ i core0 o hcore0 ho
      · -- the marked offset: its event got past the gate
        obtain ⟨core1, hcore1, htp⟩ := h.owner _ _ hcur.installed
        rw [hcore0] at hcore1
        cases hcore1
        refine .inl ⟨[], i, e, changed, v.log, rfl, htp.symm, rfl, ?_⟩
        cases hstatus : e.status with
        | success => exact .inl rfl
        | failure => exact .inr ⟨rfl, hgate⟩
  | advanced tp r core o hr hcore ho =>
    refine ⟨howner _ (grows_commitThrough o) r, fun i core' x hi hx => ?_, h.committed⟩
    rcases getElem?_modify_cases hi with hold | ⟨rfl, core0, hcore0, rfl⟩
    · exact h.handled i core' x hold hx
    · rw [hcore] at hcore0
      cases hcore0
      rw [OffsetTracker.Core.commitThrough_topicPartition]
      rcases OffsetTracker.Core.covers_commitThrough.mp hx with hx | hx
      · exact h.handled i core x hcore hx
      · rcases ho with ho | ho
        · obtain ⟨core1, hcore1, htp⟩ := h.owner tp i hr
          rw [hcore] at hcore1
          cases hcore1
          exact htp ▸ hV tp o ho x hx
        · exact h.handled i core x hcore (ho x hx)
  | committed path r position hpos =>
    refine ⟨h.owner, h.handled_cons _, fun newer path' r' position' older heq => ?_⟩
    cases newer with
    | nil =>
      cases heq
      exact hV _ _ hpos
    | cons _ newer => exact h.committed newer path' r' position' older (List.cons.inj heq).2

end TrackerView.Safe

/-! ## Offsets in circulation -/

section Holds

variable {V W : TopicPartition → Int → Prop}

theorem DirectPc.Holds.mono {pc : DirectPc} (h : pc.Holds V) (hVW : ∀ tp o, V tp o → W tp o) :
    pc.Holds W :=
  ⟨fun e he => hVW _ _ (h.commits e he),
   fun e he => ⟨hVW _ _ (h.tracked e he).1, hVW _ _ (h.tracked e he).2⟩⟩

theorem CommitCoordinator.Holds.mono {k : CommitCoordinator} (h : k.Holds V)
    (hVW : ∀ tp o, V tp o → W tp o) : k.Holds W :=
  ⟨fun tp b hb => hVW _ _ (h.pending tp b hb), fun tp b hb => hVW _ _ (h.inFlight tp b hb)⟩

theorem WorkerPc.Holds.mono {pc : WorkerPc} (h : pc.Holds V) (hVW : ∀ tp o, V tp o → W tp o) :
    pc.Holds W :=
  ⟨fun b hb => hVW _ _ (h.candidates b hb), fun e he => hVW _ _ (h.tracked e he)⟩

theorem Poller.Holds.mono {s : Poller κ π} (h : s.Holds V) (hVW : ∀ tp o, V tp o → W tp o) :
    s.Holds W :=
  ⟨h.direct.mono hVW, h.coordinator.mono hVW, h.worker.mono hVW,
   fun pc hpc e he => hVW _ _ (h.revoke pc hpc e he)⟩

theorem directPc_holds_idle : DirectPc.idle.Holds V := ⟨by simp [DirectPc.commits], by simp [DirectPc.tracked]⟩

theorem workerPc_holds_idle : WorkerPc.idle.Holds V :=
  ⟨by simp [WorkerPc.candidates], by simp [WorkerPc.tracked]⟩

/-- Only the candidates and positions matter. -/
theorem WorkerPc.Holds.of_batch {pc : WorkerPc} {batch : List CommitCandidate}
    (h : ∀ b ∈ batch, V b.tp b.safeOffset) (hpc : ∀ b ∈ pc.candidates, b ∈ batch)
    (htracked : pc.tracked = []) : pc.Holds V :=
  ⟨fun b hb => h b (hpc b hb), by simp [htracked]⟩

namespace CommitCoordinator.Holds

variable {k : CommitCoordinator}

theorem of_fields {k' : CommitCoordinator} (h : k.Holds V) (hp : k'.pending = k.pending)
    (hf : k'.inFlight = k.inFlight) : k'.Holds V :=
  ⟨fun tp b hb => h.pending tp b (hp ▸ hb), fun tp b hb => h.inFlight tp b (hf ▸ hb)⟩

theorem enqueue (h : k.Holds V) (config : CommitCoordinatorConfig) {cs : List CommitCandidate}
    (hcs : ∀ b ∈ cs, V b.tp b.safeOffset) : (k.enqueue config cs).2.Holds V := by
  have hspec := enqueue_spec config k cs
  refine ⟨fun tp b hb => ?_, fun tp b hb => h.inFlight tp b (hspec.inFlight ▸ hb)⟩
  rcases hspec.pending tp with heq | ⟨b', hb', -, -, n, -, -, heq⟩
  · exact h.pending tp b (heq ▸ hb)
  · rw [heq] at hb
    cases hb
    exact hcs b' hb'

theorem cancelLeases (h : k.Holds V) (tps : List TopicPartition) : (k.cancelLeases tps).Holds V := by
  obtain ⟨hp, hf, -, -⟩ := cancelLeases_spec tps k
  refine ⟨fun tp b hb => h.pending tp b ?_, fun tp b hb => h.inFlight tp b ?_⟩
  · rw [hp] at hb
    split at hb
    · cases hb
    · exact hb
  · rw [hf] at hb
    split at hb
    · cases hb
    · exact hb

theorem stopAcceptingPartitions (h : k.Holds V) (tps : List TopicPartition) :
    (k.stopAcceptingPartitions tps).Holds V := by
  obtain ⟨hp, hf, -, -⟩ := stopAcceptingPartitions_spec tps k
  refine ⟨fun tp b hb => h.pending tp b ?_, fun tp b hb => h.inFlight tp b (hf ▸ hb)⟩
  rw [hp] at hb
  split at hb
  · cases hb
  · exact hb

theorem takeBatch (h : k.Holds V) :
    (∀ b ∈ k.takeBatch.1, V b.tp b.safeOffset) ∧ k.takeBatch.2.Holds V := by
  have hbatch : ∀ b ∈ k.takeBatch.1, V b.tp b.safeOffset := by
    intro b hb
    obtain ⟨tp, htp⟩ := mem_takeBatch.mp hb
    exact h.pending tp b htp
  refine ⟨hbatch, fun tp b hb => ?_, fun tp b hb => hbatch b (takeBatch_inFlight hb).1⟩
  cases hb

theorem clearInFlight (h : k.Holds V) : k.clearInFlight.Holds V :=
  ⟨h.pending, fun _ _ hb => by cases hb⟩

theorem abortBatch (h : k.Holds V) (batch : List CommitCandidate) : (k.abortBatch batch).Holds V := by
  obtain ⟨hp, hf, -, -⟩ := abortBatch_fields k batch
  refine ⟨fun tp b hb => h.pending tp b (hp ▸ hb), fun tp b hb => ?_⟩
  rw [hf] at hb
  cases hb

theorem retryBatch (h : k.Holds V) {batch : List CommitCandidate}
    (hbatch : ∀ b ∈ batch, V b.tp b.safeOffset) : (k.retryBatch batch).Holds V := by
  refine ⟨fun tp b hb => ?_, fun tp b hb => ?_⟩
  · rcases mem_of_retryBatch_pending hb with hb | hb
    · exact h.pending tp b hb
    · exact hbatch b hb
  · rw [(retryBatch_fields k batch).1] at hb
    cases hb

end CommitCoordinator.Holds

namespace Poller

variable {s : Poller κ π}

/-- What only changes work, trackers and history keeps the offsets in circulation. -/
theorem Holds.of_same {s' : Poller κ π} (h : s.Holds V) (hd : s'.direct = s.direct)
    (hk : s'.coordinator = s.coordinator) (hw : s'.worker = s.worker) (hr : s'.revoke = s.revoke) :
    s'.Holds V :=
  ⟨hd ▸ h.direct, hk ▸ h.coordinator, hw ▸ h.worker, hr ▸ h.revoke⟩

theorem Holds.settles {s' : Poller κ π} (h : s.Holds V) (hs : Settles s s') : s'.Holds V :=
  h.of_same hs.direct hs.coordinator hs.worker hs.revoke

variable (c : PollerConfig)

theorem mem_buildCandidates {commits : List (TopicPartition × Int)} {b : CommitCandidate}
    (hb : b ∈ s.buildCandidates commits) : (b.tp, b.safeOffset) ∈ commits := by
  obtain ⟨e, he, hsome⟩ := List.mem_filterMap.mp hb
  obtain ⟨t, -, rfl⟩ := Option.map_eq_some_iff.mp hsome
  exact he

theorem holds_route (h : s.Holds V) : (s.route c).Holds V := by
  unfold route
  split
  · rename_i commits hd
    have hcommits : ∀ e ∈ commits, V e.1 e.2 := by
      have := h.direct.commits
      rw [hd] at this
      exact this
    have hfallback : (DirectPc.fallback commits).Holds V := ⟨hcommits, by simp [DirectPc.tracked]⟩
    split
    · dsimp only
      split
      · exact ⟨directPc_holds_idle, h.coordinator, h.worker, h.revoke⟩
      · have hcand : ∀ b ∈ s.buildCandidates commits, V b.tp b.safeOffset :=
          fun b hb => hcommits _ (mem_buildCandidates hb)
        have hk := h.coordinator.enqueue c.coordinator hcand
        split
        · rename_i k heq
          rw [heq] at hk
          exact ⟨directPc_holds_idle, hk, h.worker, h.revoke⟩
        · rename_i k heq
          rw [heq] at hk
          exact ⟨hfallback, hk.cancelLeases _, h.worker, h.revoke⟩
    · exact ⟨hfallback, h.coordinator, h.worker, h.revoke⟩
  · exact h

theorem holds_capture (h : s.Holds V) : (s.capture c).Holds V := by
  unfold capture
  split
  · rename_i commits hd
    have hcommits : ∀ e ∈ commits, V e.1 e.2 := by
      have := h.direct.commits
      rw [hd] at this
      exact this
    dsimp only
    split
    · exact ⟨directPc_holds_idle, h.coordinator, h.worker, h.revoke⟩
    · refine ⟨⟨hcommits, fun e he => ?_⟩, h.coordinator, h.worker, h.revoke⟩
      obtain ⟨x, hx, hsome⟩ := List.mem_filterMap.mp he
      obtain ⟨t, -, rfl⟩ := Option.map_eq_some_iff.mp hsome
      refine ⟨hcommits x hx, ?_⟩
      show V x.1 (x.2 + 1 - 1)
      rw [Int.add_sub_cancel]
      exact hcommits x hx
  · exact h

theorem holds_directCommit (h : s.Holds V) (outcome : CommitOutcome) :
    (s.directCommit outcome).Holds V := by
  unfold directCommit
  split
  · rename_i commits tracked attempt hd
    have hdirect := h.direct
    rw [hd] at hdirect
    refine ⟨?_, h.coordinator, h.worker, h.revoke⟩
    cases outcome with
    | ok => exact ⟨hdirect.commits, hdirect.tracked⟩
    | kafkaException =>
      dsimp only
      split
      · exact ⟨hdirect.commits, hdirect.tracked⟩
      · exact directPc_holds_idle
    | crash => exact directPc_holds_idle
  · exact h

theorem holds_directSettle (h : s.Holds V) : s.directSettle.Holds V := by
  unfold directSettle
  split
  · rename_i commits tracked _
    have hs := h.settles (settles_commitTrackers tracked s)
    exact ⟨directPc_holds_idle, hs.coordinator, hs.worker, hs.revoke⟩
  · exact h

theorem holds_workerStart (h : s.Holds V) : s.workerStart.Holds V := by
  obtain ⟨hbatch, hk⟩ := h.coordinator.takeBatch
  exact ⟨h.direct, hk, .of_batch hbatch (fun b hb => hb) rfl, h.revoke⟩

theorem holds_workerPrepare (h : s.Holds V) : (s.workerPrepare c).Holds V := by
  unfold workerPrepare
  split
  · rename_i batch hw
    have hbatch : ∀ b ∈ batch, V b.tp b.safeOffset := by
      have := h.worker.candidates
      rw [hw] at this
      exact this
    dsimp only
    refine ⟨h.direct, ?_, ?_, h.revoke⟩
    · unfold cancelStale
      dsimp only
      split
      · exact h.coordinator
      · exact h.coordinator.cancelLeases _
    · dsimp only
      split
      · exact .of_batch hbatch (fun b hb => hb) rfl
      · refine ⟨hbatch, fun e he => ?_⟩
        obtain ⟨b, hb, hsome⟩ := List.mem_filterMap.mp he
        obtain ⟨t, -, rfl⟩ := Option.map_eq_some_iff.mp hsome
        show V b.tp (b.safeOffset + 1 - 1)
        rw [Int.add_sub_cancel]
        exact hbatch b (List.mem_filter.mp hb).1
  · exact h

theorem holds_workerCheck (h : s.Holds V) : s.workerCheck.Holds V := by
  unfold workerCheck
  split
  · rename_i batch tracked hw
    have hworker := h.worker
    rw [hw] at hworker
    split
    · exact ⟨h.direct, h.coordinator, ⟨hworker.candidates, hworker.tracked⟩, h.revoke⟩
    · exact ⟨h.direct, h.coordinator, .of_batch hworker.candidates (fun b hb => hb) rfl, h.revoke⟩
  · exact h

theorem holds_workerCommit (h : s.Holds V) (outcome : CommitOutcome) :
    (s.workerCommit outcome).Holds V := by
  unfold workerCommit
  split
  · rename_i batch tracked hw
    have hworker := h.worker
    rw [hw] at hworker
    exact ⟨h.direct, h.coordinator, .of_batch hworker.candidates (fun b hb => hb) rfl, h.revoke⟩
  · exact h

theorem holds_workerResume (h : s.Holds V) : s.workerResume.Holds V := by
  have hactive : ∀ (k : CommitCoordinator) (batch : List CommitCandidate),
      ∀ b ∈ k.activeOf batch, b ∈ batch := fun k batch b hb => (List.mem_filter.mp hb).1
  have hbatch : ∀ batch outcome, s.worker = .returned batch outcome → ∀ b ∈ batch, V b.tp b.safeOffset := by
    intro batch outcome hw
    have := h.worker.candidates
    rw [hw] at this
    exact this
  have hretain : ∀ (k : CommitCoordinator) batch outcome retry, s.worker = .returned batch outcome →
      (WorkerPc.retaining batch (k.activeOf batch) retry).Holds V := by
    intro k batch outcome retry hw
    refine .of_batch (hbatch batch outcome hw) (fun b hb => ?_) rfl
    exact (List.mem_append.mp hb).elim id (hactive k batch b)
  unfold workerResume
  split
  · rename_i batch hw
    dsimp only
    split
    · exact ⟨h.direct, h.coordinator.clearInFlight, workerPc_holds_idle, h.revoke⟩
    · exact ⟨h.direct, h.coordinator.of_fields rfl rfl,
        .of_batch (hbatch _ _ hw) (hactive s.coordinator batch) rfl, h.revoke⟩
  · rename_i batch tps hw
    exact ⟨h.direct, h.coordinator.cancelLeases tps, hretain _ _ _ _ hw, h.revoke⟩
  · rename_i batch hw
    exact ⟨h.direct, h.coordinator, hretain _ _ _ _ hw, h.revoke⟩
  · rename_i batch hw
    exact ⟨h.direct, h.coordinator.of_fields rfl rfl, hretain _ _ _ _ hw, h.revoke⟩
  · exact h

theorem holds_workerSettle (h : s.Holds V) : s.workerSettle.Holds V := by
  unfold workerSettle
  split
  · rename_i settlements _
    have hs := h.settles (settles_settleAll settlements (s, []))
    exact ⟨hs.direct, hs.coordinator.clearInFlight, workerPc_holds_idle, hs.revoke⟩
  · exact h

theorem holds_workerRetain (h : s.Holds V) : s.workerRetain.Holds V := by
  unfold workerRetain
  split
  · rename_i batch settlements retry hw
    have hbatch : ∀ b ∈ batch, V b.tp b.safeOffset := by
      have := h.worker.candidates
      rw [hw] at this
      exact fun b hb => this b (List.mem_append_left _ hb)
    refine ⟨h.direct, ?_, workerPc_holds_idle, h.revoke⟩
    dsimp only
    split
    · exact h.coordinator.retryBatch hbatch
    · exact h.coordinator.abortBatch batch
  · exact h

/-! ### Revocation -/

theorem coveredUpTo_of_grows {v v' : TrackerView κ π} (hg : v.Grows v')
    (hinstalled : v'.installed = v.installed) {tp : TopicPartition} {o : Int}
    (h : v.CoveredUpTo tp o) : v'.CoveredUpTo tp o := by
  obtain ⟨r, core, hr, hcore, hcov⟩ := h
  obtain ⟨core', hcore', hg'⟩ := hg.cores r core hcore
  exact ⟨r, core', hinstalled ▸ hr, hcore', fun x hx => hg'.covers x (hcov x hx)⟩

/-- The offset of a revoked partition is that of a candidate or covered by the advanced tracker. -/
theorem revokeSafeOffset_cases {candidates : Dict TopicPartition CommitCandidate} {tp : TopicPartition}
    {t : OffsetTracker} :
    revokeSafeOffset candidates tp t = t.lastCommittedOffset ∨
      ∃ b, candidates.get? tp = some b ∧ b.assignmentEpoch = t.epoch ∧
        t.lastCommittedOffset ≤ b.safeOffset ∧ revokeSafeOffset candidates tp t = b.safeOffset := by
  unfold revokeSafeOffset
  split
  · rename_i b hb
    split
    · rename_i hepoch
      rcases max_cases t.lastCommittedOffset b.safeOffset with ⟨hm, -⟩ | ⟨hm, hlt⟩
      · exact .inl hm
      · exact .inr ⟨b, hb, hepoch, le_of_lt hlt, hm⟩
    · exact .inl rfl
  · exact .inl rfl

/-- Where the offset of a prepared revoke commit comes from. -/
def Accounted (V : TopicPartition → Int → Prop) (s : Poller κ π)
    (e : TrackerRef × KafkaTopicPartition) : Prop :=
  V e.2.toDto (e.2.offset - 1) ∨ s.trackers.CoveredUpTo e.2.toDto (e.2.offset - 1)

theorem accounted_prepareRevokeOne {candidates : Dict TopicPartition CommitCandidate}
    (hV : ∀ tp b, candidates.get? tp = some b → V tp b.safeOffset)
    {a : Poller κ π × List (TrackerRef × KafkaTopicPartition)} (ha : ∀ e ∈ a.2, Accounted V a.1 e)
    (tp : TopicPartition) :
    ∀ e ∈ (prepareRevokeOne c candidates a tp).2,
      Accounted V (prepareRevokeOne c candidates a tp).1 e := by
  have hg := (trackerRun_prepareRevokeOne (V := V) (E := fun _ => True) c candidates a tp).grows
  rcases prepareRevokeOne_cases c candidates a tp with ⟨-, heq⟩ | ⟨r, t, htracker, heq, hoffsets⟩
  · rw [heq]; exact ha
  · have hold : ∀ e ∈ a.2, Accounted V (prepareRevokeOne c candidates a tp).1 e := fun e he =>
      (ha e he).imp_right (coveredUpTo_of_grows hg (by rw [heq]; rfl))
    rcases hoffsets with hoffsets | hoffsets
    · rw [hoffsets]; exact hold
    · rw [hoffsets]
      intro e he
      rcases List.mem_append.mp he with he | he
      · exact hold e he
      · cases List.mem_singleton.mp he
        show V tp (_ + 1 - 1) ∨ TrackerView.CoveredUpTo _ tp (_ + 1 - 1)
        rw [Int.add_sub_cancel]
        rcases revokeSafeOffset_cases
          (t := t.advanceHighWaterMark) with hlast | ⟨b, hb, -, -, hb'⟩
        · obtain ⟨hr, ht⟩ := tracker?_eq_some.mp htracker
          have hat : (a.1.wm.modifyTracker r (·.advanceHighWaterMark)).trackerAt r =
              some t.advanceHighWaterMark := by
            have ht' : a.1.wm.heap[r]? = some t := ht
            simp [WorkManager.modifyTracker, WorkManager.trackerAt, ht']
          rw [hlast, heq]
          exact .inr ⟨r, t.advanceHighWaterMark.core, hr, cores_eq_of_trackerAt hat,
            t.advanceHighWaterMark.core.coversUpTo_lastCommittedOffset⟩
        · rw [hb']; exact .inl (hV tp b hb)

theorem holds_prepareRevokeSync (h : s.Holds V) (tps : List TopicPartition)
    (hcov : ∀ tp o, (s.prepareRevokeSync c tps).trackers.CoveredUpTo tp o → V tp o) :
    (s.prepareRevokeSync c tps).Holds V := by
  have hfold : ∀ (candidates : Dict TopicPartition CommitCandidate),
      (∀ tp b, candidates.get? tp = some b → V tp b.safeOffset) → ∀ (l : List TopicPartition)
      (a : Poller κ π × List (TrackerRef × KafkaTopicPartition)), (∀ e ∈ a.2, Accounted V a.1 e) →
      (∀ e ∈ (l.foldl (prepareRevokeOne c candidates) a).2,
        Accounted V (l.foldl (prepareRevokeOne c candidates) a).1 e) ∧
      (l.foldl (prepareRevokeOne c candidates) a).1.direct = a.1.direct ∧
      (l.foldl (prepareRevokeOne c candidates) a).1.coordinator = a.1.coordinator ∧
      (l.foldl (prepareRevokeOne c candidates) a).1.worker = a.1.worker := by
    intro candidates hV l
    induction l with
    | nil => intro a ha; exact ⟨ha, rfl, rfl, rfl⟩
    | cons tp l ih =>
      intro a ha
      obtain ⟨h1, h2, h3, h4⟩ := ih _ (accounted_prepareRevokeOne c hV ha tp)
      have hsame : (prepareRevokeOne c candidates a tp).1.direct = a.1.direct ∧
          (prepareRevokeOne c candidates a tp).1.coordinator = a.1.coordinator ∧
          (prepareRevokeOne c candidates a tp).1.worker = a.1.worker := by
        rcases prepareRevokeOne_cases c candidates a tp with ⟨-, heq⟩ | ⟨r, t, -, heq, -⟩
        · rw [heq]; exact ⟨rfl, rfl, rfl⟩
        · rw [heq]; exact ⟨rfl, rfl, rfl⟩
      exact ⟨h1, h2.trans hsame.1, h3.trans hsame.2.1, h4.trans hsame.2.2⟩
  have hcand : ∀ tp b, (if c.coordinatorEnabled then s.coordinator.remainingCandidates tps
      else .empty).get? tp = some b → V tp b.safeOffset := by
    intro tp b hb
    split at hb
    · obtain ⟨htp, tp', hin | hin⟩ := CommitCoordinator.remainingCandidates_spec hb
      · exact htp ▸ h.coordinator.pending tp' b hin
      · exact htp ▸ h.coordinator.inFlight tp' b hin
    · cases hb
  obtain ⟨h1, h2, h3, h4⟩ := hfold _ hcand tps (s.stopRevoked c tps, []) (fun e he => by cases he)
  refine ⟨?_, ?_, ?_, fun pc hpc e he => ?_⟩
  · exact h2 ▸ h.direct
  · have hk : (s.stopRevoked c tps).coordinator.Holds V := by
      unfold stopRevoked
      dsimp only
      split
      · exact h.coordinator.stopAcceptingPartitions tps
      · exact h.coordinator
    exact h3 ▸ hk
  · exact h4 ▸ h.worker
  · cases hpc
    rcases h1 e he with hv | hv
    · exact hv
    · exact hcov _ _ hv

/-- **Offsets in circulation.** They were in circulation already, or the installed tracker covers
everything up to them. -/
theorem holds_next (h : s.Holds V) (a : PollerAction κ π)
    (hcov : ∀ tp o, ((pollerMachine κ π c).next s a).trackers.CoveredUpTo tp o → V tp o) :
    ((pollerMachine κ π c).next s a).Holds V := by
  cases a with
  | consumeBegin => exact h.of_same rfl rfl rfl rfl
  | consumeEnd => exact h.of_same rfl rfl rfl rfl
  | assign committed partitions =>
    show (s.assign c committed partitions).Holds V
    unfold assign
    split
    · exact h
    · refine ⟨h.direct, ?_, h.worker, h.revoke⟩
      unfold assignSync
      dsimp only
      split
      · exact h.coordinator.of_fields rfl rfl
      · exact h.coordinator
  | prepareRevoke tps => exact holds_prepareRevokeSync c h tps hcov
  | revokeCommit =>
    show s.revokeCommit.Holds V
    unfold revokeCommit
    split
    · rename_i tps r position rest hrevoke
      refine ⟨h.direct, h.coordinator, h.worker, fun pc hpc e he => ?_⟩
      cases hpc
      exact h.revoke _ hrevoke e (List.mem_cons_of_mem _ he)
    · exact h
  | cleanupRevoke =>
    show s.cleanupRevokeSync.Holds V
    unfold cleanupRevokeSync
    split
    · exact h
    · exact ⟨h.direct, h.coordinator, h.worker, fun pc hpc => by cases hpc⟩
  | dispatch messages => exact h.of_same rfl rfl rfl rfl
  | schedule env => exact h.of_same rfl rfl rfl rfl
  | drain i =>
    show (s.drain c i).Holds V
    rcases drain_cases c s i with heq | heq | ⟨s', hs', heq⟩
    · rw [heq]; exact h.of_same rfl rfl rfl rfl
    · rw [heq]; exact h.of_same rfl rfl rfl rfl
    · rw [heq, hs']; exact h.of_same rfl rfl rfl rfl
  | scan force =>
    refine ⟨?_, h.coordinator, h.worker, h.revoke⟩
    show (DirectPc.Holds V (if _ then _ else _))
    split
    · exact directPc_holds_idle
    · refine ⟨fun e he => hcov _ _ ?_, by simp [DirectPc.tracked]⟩
      obtain ⟨r, t, hr, ht, ho, -⟩ :=
        DispatchSupport.mem_buildCommitCandidates.mp (mem_commitsToMake he)
      refine ⟨r, t.core, hr, cores_eq_of_trackerAt ht, ?_⟩
      rw [ho]
      exact t.coversUpTo_getCommittableHighWaterMark _
  | route => exact holds_route c h
  | capture => exact holds_capture c h
  | directCommit outcome => exact holds_directCommit h outcome
  | directSettle => exact holds_directSettle h
  | workerStart => exact holds_workerStart h
  | workerPrepare => exact holds_workerPrepare c h
  | workerCheck => exact holds_workerCheck h
  | workerCommit outcome => exact holds_workerCommit h outcome
  | workerResume => exact holds_workerResume h
  | workerSettle => exact holds_workerSettle h
  | workerRetain => exact holds_workerRetain h

end Poller

end Holds

/-! ## Whole runs -/

structure SafetyInv (c : DlqConfig) (s : Poller κ π) : Prop where
  shared : s.wm.AllShared
  safe : s.trackers.Safe c
  holds : s.Holds (HandledUpTo c s.log)

theorem safetyInv_next {c : PollerConfig} {s : Poller κ π} (h : SafetyInv c.dlq s)
    (a : PollerAction κ π) : SafetyInv c.dlq ((pollerMachine κ π c).next s a) := by
  have hrun := Poller.trackerRun_next c s h.shared h.holds a
  have hsafe : ((pollerMachine κ π c).next s a).trackers.Safe c.dlq := by
    refine TrackerRun.invariant (I := TrackerView.Safe c.dlq) hrun h.safe fun u w hg hu hstep => ?_
    exact hu.step (fun tp o ho => handledUpTo_of_suffix hg.log ho) hstep
  refine ⟨Poller.allShared_next c s h.shared a, hsafe, ?_⟩
  refine Poller.holds_next c (h.holds.mono fun tp o ho => ?_) a fun tp o ho => hsafe.handledUpTo ho
  exact handledUpTo_of_suffix hrun.grows.log ho

theorem safetyInv_reachable {c : PollerConfig} {s : Poller κ π} {p : Poller κ π → PollerAction κ π → Prop}
    (h : (pollerMachine κ π c).ReachableBy p s) : SafetyInv c.dlq s := by
  refine (pollerMachine κ π c).invariant (I := SafetyInv c.dlq) ?_ (fun s a hs _ _ => safetyInv_next hs a) h
  rintro s ⟨circuit, rfl⟩
  have hsafe : (Poller.new circuit : Poller κ π).trackers.Safe c.dlq := by
    refine ⟨fun tp r hr => ?_, fun r core o hr => ?_, fun newer path r position older heq => ?_⟩
    · cases hr
    · cases hr
    · cases newer <;> cases heq
  have hk : (Poller.new circuit : Poller κ π).coordinator.Holds (HandledUpTo c.dlq ([] : List (PollerEntry κ π))) :=
    ⟨fun tp b hb => (by cases hb), fun tp b hb => (by cases hb)⟩
  exact ⟨fun tp htp => (by cases htp), hsafe, directPc_holds_idle, hk, workerPc_holds_idle,
    fun pc hpc => (by cases hpc)⟩

/-- **Commit safety.** In every run, when a position is handed to `consumer.commit`, every offset below
it was handled before: marked from a success or past the dead-letter gate, or covered by the starting
state of an assignment. -/
theorem handled_before_commit {c : PollerConfig} {s : Poller κ π}
    (h : (pollerMachine κ π c).Reachable s) {newer older : List (PollerEntry κ π)} {path : CommitPath}
    {r : TrackerRef} {position : KafkaTopicPartition}
    (hlog : s.log = newer ++ .committed path r position :: older) {o : Int} (ho : o < position.offset) :
    Handled c.dlq older position.toDto o :=
  (safetyInv_reachable h).safe.committed newer path r position older hlog o (by omega)

/-- One message is processed and committed directly. -/
def commitOne : List (PollerAction Nat Unit) :=
  sampleAssign 5 ++ sampleDispatch [5] ++
    [sampleDrain [sampleSuccess 0 5], .scan true, .route, .capture, .directCommit .ok]

theorem handled_before_commit_commitOne :
    let c := sampleConfig false
    let s := (pollerMachine Nat Unit c).run (.new none) commitOne
    ∃ position older, s.log = .committed .direct 0 position :: older ∧ position.offset = 6 ∧
      Handled c.dlq older ⟨"t", 0⟩ 5 := by
  intro c s
  have hreach : (pollerMachine Nat Unit c).Reachable s := by
    refine reachable_of_readyRun (by decide) ?_
    simp [commitOne, sampleAssign, sampleDispatch, sampleDrain, PollerAction.Lawful,
      acceptsPrefix_acceptingEnv]
  have hlog : s.log = [] ++ .committed .direct 0 ⟨"t", 0, 6, some []⟩ :: s.log.tail := by decide
  exact ⟨_, _, hlog, rfl, handled_before_commit hreach hlog (by decide)⟩

end PyrallelConsumer
