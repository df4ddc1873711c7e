import PyrallelConsumer.CommitLive

/-!
# PyrallelConsumer.CommitPaths

The direct path and the coordinator's worker keep the invariant of `CommitLive`, as long as their steps
meet `Orderly`. The rebalance is in `CommitOrder`.

* `Orderly` — no rebalance overlaps a commit of its partitions.
* `LogPart.withCommits`, `TrackerView.Live.withCommits` — what a batch of commits leaves in order.
* `orderInv_directCommit`, `orderInv_workerCommit` — the two calls that commit.
-/

set_option linter.unusedSectionVars false

namespace PyrallelConsumer

variable {κ π : Type} [DecidableEq κ]

/-- No rebalance overlaps a commit of its partitions: a revoke is prepared for distinct partitions of
which none is in a direct commit or in flight in the coordinator, no direct commit begins for a
partition that is being revoked or has an offset in flight at or below its contiguous mark, and a
partition is assigned only while it has no tracker. -/
def Orderly (s : Poller κ π) (a : PollerAction κ π) : Prop :=
  match a with
  | .assign _ partitions => ∀ p ∈ partitions, s.offsetTrackers.get? p.toDto = none
  | .prepareRevoke tps => tps.Nodup ∧ ∀ tp ∈ tps,
      tp ∉ s.direct.commits.map Prod.fst ∧ s.coordinator.inFlight.get? tp = none
  | .scan force => ∀ e ∈ s.commitsToMake force, ¬ Revoking s.revoke e.1 ∧
      ∀ r t, s.tracker? e.1 = some (r, t) → ∀ m, s.wm.getMinInFlightOffset e.1 = some m →
        t.getCommittableHighWaterMark none < m
  | _ => True

/-! ## What the steps keep -/

section Keeps

variable {c : PollerConfig} {s s' : Poller κ π}

theorem keeps_of_run {E : CompletionEvent → Prop}
    (h : TrackerRun c.dlq (fun _ _ => False) E s.trackers s'.trackers)
    (hi : s'.offsetTrackers = s.offsetTrackers) : s.trackers.Keeps s'.trackers := by
  obtain ⟨hcommits, hordered⟩ := commits_of_run h
  refine ⟨h.grows, hcommits, hordered, fun tp r hr => ?_, fun tp r hr => .inl ?_⟩
  · show s'.offsetTrackers.get? tp = some r
    rw [hi]; exact hr
  · show s.offsetTrackers.get? tp = some r
    rw [← hi]; exact hr

theorem keeps_of_trackers (h : s'.trackers = s.trackers) : s.trackers.Keeps s'.trackers := by
  rw [h]
  exact .refl _

theorem keeps_of_settles (hg : s.trackers.Grows s'.trackers) (h : Poller.Settles s s') :
    s.trackers.Keeps s'.trackers := by
  have hlog : s'.trackers.log = s.trackers.log := h.log
  have hinst : s'.trackers.installed = s.trackers.installed := h.offsetTrackers
  refine ⟨hg, fun path r position hmem => hlog ▸ hmem, fun ho => ?_, fun tp r hr => ?_, fun tp r hr => .inl ?_⟩
  · rw [hlog]; exact ho
  · rw [hinst]; exact hr
  · rw [← hinst]; exact hr

theorem offsetTrackers_drain (s : Poller κ π) (i : Poller.DrainInput κ π) :
    (s.drain c i).offsetTrackers = s.offsetTrackers ∧ (s.drain c i).coordinator = s.coordinator ∧
    (s.drain c i).direct = s.direct ∧ (s.drain c i).worker = s.worker ∧
    (s.drain c i).revoke = s.revoke ∧ (s.drain c i).guard = s.guard := by
  rcases Poller.drain_cases c s i with heq | heq | ⟨s', hs', heq⟩
  · rw [heq]; exact ⟨rfl, rfl, rfl, rfl, rfl, rfl⟩
  · rw [heq]; exact ⟨rfl, rfl, rfl, rfl, rfl, rfl⟩
  · rw [heq, hs']; exact ⟨rfl, rfl, rfl, rfl, rfl, rfl⟩

/-- New trackers are new objects, one for each partition of the assignment. -/
theorem mem_allocTrackers (l : List (TopicPartition × OffsetTracker)) :
    ∀ (wm : WorkManager (SubmitKey κ) π), ∀ e ∈ (Poller.allocTrackers wm l).1,
      (∃ t, (e.1, t) ∈ l) ∧ wm.heap.length ≤ e.2 := by
  induction l with
  | nil => intro wm e he; cases he
  | cons a l ih =>
    intro wm e he
    rcases List.mem_cons.mp he with rfl | he
    · exact ⟨⟨a.2, List.mem_cons_self⟩, Nat.le_refl _⟩
    · obtain ⟨⟨t, ht⟩, hle⟩ := ih _ e he
      refine ⟨⟨t, List.mem_cons_of_mem _ ht⟩, Nat.le_trans ?_ hle⟩
      simp

theorem keeps_assign (committed : Option (List KafkaTopicPartition))
    (partitions : List KafkaTopicPartition)
    (h : ∀ p ∈ partitions, s.offsetTrackers.get? p.toDto = none) :
    s.trackers.Keeps (s.assign c committed partitions).trackers := by
  have hrun := Poller.trackerRun_assign (V := fun _ _ => False) (E := fun _ => False) c
    (fun _ he => he) s committed partitions
  obtain ⟨hcommits, hordered⟩ := commits_of_run hrun
  obtain ⟨d, hd, -, hfrom⟩ := RebalanceSupport.buildAssignments_ok committed c.strategy
    c.maxRevokeGraceMs partitions
  have hinst : (s.assign c committed partitions).offsetTrackers =
      s.offsetTrackers.update (Poller.allocTrackers s.wm d.entries).1 := by
    unfold Poller.assign
    rw [hd]
    rfl
  have hnew : ∀ e ∈ (Poller.allocTrackers s.wm d.entries).1,
      s.offsetTrackers.get? e.1 = none ∧ s.wm.heap.length ≤ e.2 := by
    intro e he
    obtain ⟨⟨t, ht⟩, hle⟩ := mem_allocTrackers d.entries s.wm e he
    obtain ⟨p, hp, hpt, -⟩ := hfrom e.1 t ((Dict.mem_entries_iff d).mp ht)
    exact ⟨hpt ▸ h p hp, hle⟩
  refine ⟨hrun.grows, hcommits, hordered, fun tp r hr => ?_, fun tp r hr => ?_⟩
  · show (s.assign c committed partitions).offsetTrackers.get? tp = some r
    rw [hinst]
    rcases Dict.get?_update (Poller.allocTrackers s.wm d.entries).1 s.offsetTrackers tp with
      ⟨r', hmem, -⟩ | ⟨-, heq⟩
    · have hnone : s.offsetTrackers.get? tp = none := (hnew _ hmem).1
      have hr' : s.offsetTrackers.get? tp = some r := hr
      rw [hnone] at hr'
      cases hr'
    · rw [heq]; exact hr
  · have hr' : (s.assign c committed partitions).offsetTrackers.get? tp = some r := hr
    rw [hinst] at hr'
    rcases Dict.get?_update (Poller.allocTrackers s.wm d.entries).1 s.offsetTrackers tp with
      ⟨r', hmem, heq⟩ | ⟨-, heq⟩
    · rw [heq] at hr'
      cases hr'
      refine .inr ?_
      have := (hnew _ hmem).2
      simpa [Poller.trackers] using this
    · exact .inl (heq ▸ hr')

end Keeps

/-! ## Commits -/

section Commits

variable {v : TrackerView κ π}

/-- The history with one more batch of commits. -/
def TrackerView.withCommits (v : TrackerView κ π) (path : CommitPath)
    (l : List (TrackerRef × KafkaTopicPartition)) : TrackerView κ π :=
  ⟨v.cores, v.installed, Poller.committedEntries path l ++ v.log⟩

theorem mem_withCommits {path path' : CommitPath} {l : List (TrackerRef × KafkaTopicPartition)}
    {r : TrackerRef} {position : KafkaTopicPartition}
    (h : .committed path' r position ∈ (v.withCommits path l).log) :
    (path' = path ∧ (r, position) ∈ l) ∨ .committed path' r position ∈ v.log := by
  rcases List.mem_append.mp h with hnew | hold
  · obtain ⟨e, he, heq⟩ := List.mem_map.mp hnew
    cases heq
    exact .inl ⟨rfl, he⟩
  · exact .inr hold

theorem ordered_withCommits (path : CommitPath) (l : List (TrackerRef × KafkaTopicPartition))
    (hn : (l.map Prod.fst).Nodup) (hb : ∀ e ∈ l, CommitBound v.log e.1 e.2.offset)
    (h : Ordered v.log) : Ordered (v.withCommits path l).log := by
  induction l with
  | nil => exact h
  | cons e l ih =>
    obtain ⟨he, hn⟩ := List.nodup_cons.mp hn
    refine ⟨fun path' position hmem => ?_, ih hn fun e' he' => hb e' (List.mem_cons_of_mem _ he')⟩
    rcases mem_withCommits (v := v) hmem with ⟨-, hnew⟩ | hold
    · exact absurd (List.mem_map.mpr ⟨_, hnew, rfl⟩) he
    · exact hb e List.mem_cons_self path' position hold

theorem TrackerView.Live.withCommits {tp : TopicPartition} {r : TrackerRef} {o : Int}
    (h : v.Live tp r o) {path : CommitPath} (hpath : path ≠ .revoke)
    {l : List (TrackerRef × KafkaTopicPartition)}
    (hl : ∀ e ∈ l, e.1 = r → e.2.offset ≤ o + 1) : (v.withCommits path l).Live tp r o := by
  refine ⟨h.installed, h.covered, fun path' position hmem => ?_⟩
  rcases mem_withCommits hmem with ⟨rfl, hnew⟩ | hold
  · exact ⟨hl _ hnew rfl, hpath⟩
  · exact h.bound path' position hold

/-- Positions for trackers that cover them, in order with what was committed before. -/
theorem LogPart.withCommits {revoke : Option RevokePc} (h : LogPart v revoke) {path : CommitPath}
    (hpath : path ≠ .revoke) {l : List (TrackerRef × KafkaTopicPartition)} (hn : (l.map Prod.fst).Nodup)
    (hl : ∀ e ∈ l, ∃ tp, v.Live tp e.1 (e.2.offset - 1)) : LogPart (v.withCommits path l) revoke := by
  refine ⟨ordered_withCommits path l hn (fun e he => ?_) h.ordered, fun path' r position hmem => ?_,
    fun tp r hr hno position hmem => ?_⟩
  · obtain ⟨tp, hlive⟩ := hl e he
    have := hlive.bound
    rwa [Int.sub_add_cancel] at this
  · rcases mem_withCommits hmem with ⟨-, hnew⟩ | hold
    · obtain ⟨tp, hlive⟩ := hl _ hnew
      exact hlive.covered
    · exact h.bounded path' r position hold
  · rcases mem_withCommits hmem with ⟨hp, -⟩ | hold
    · exact hpath hp.symm
    · exact h.unrevoked tp r hr hno position hold

end Commits

/-! ## The direct path -/

section Actions

variable {c : PollerConfig} {s : Poller κ π}

/-- A tracker is installed for its own partition only. -/
theorem installed_inj (hsafe : s.trackers.Safe c.dlq) {tp tp' : TopicPartition} {r : TrackerRef}
    (h : s.trackers.installed.get? tp = some r) (h' : s.trackers.installed.get? tp' = some r) :
    tp = tp' := by
  obtain ⟨core, hcore, htp⟩ := hsafe.owner tp r h
  obtain ⟨core', hcore', htp'⟩ := hsafe.owner tp' r h'
  rw [hcore] at hcore'
  cases hcore'
  exact htp.symm.trans htp'

/-- A live offset is at most the contiguous mark of its tracker. -/
theorem le_mark_of_live (hcover : s.trackers.CoverInv) {tp : TopicPartition} {r : TrackerRef} {o : Int}
    (h : s.trackers.Live tp r o) {core : OffsetTracker.Core} (hcore : s.trackers.cores[r]? = some core) :
    o ≤ core.mark := by
  obtain ⟨core', hcore', hcov⟩ := h.covered
  rw [hcore] at hcore'
  cases hcore'
  exact (OffsetTracker.Core.le_mark_iff (hcover.wellFormed r core hcore) o).mpr hcov

theorem directPart_idle {v : TrackerView κ π} {k : CommitCoordinator} : DirectPart v k .idle :=
  ⟨fun e he => (by cases he), fun e he => (by cases he), List.nodup_nil, fun h => h.elim,
    fun e he => (by cases he), List.nodup_nil⟩

/-- Giving up the direct path constrains nothing. -/
theorem OrderInv.idle (h : OrderInv c s) (dirty : List TopicPartition) :
    OrderInv c { s with direct := .idle, dirtyCommitPartitions := dirty } :=
  ⟨h.disabled, h.log, h.outbox, directPart_idle,
   ⟨h.worker.nodup, h.worker.flight, h.worker.leases, h.worker.tracked, h.worker.trackedNodup,
    fun e he => ⟨(h.worker.guarded e he).1, (h.worker.guarded e he).2.1, fun x hx => (by cases hx)⟩⟩,
   ⟨h.revoke.outbox, fun tp htp e he => (by cases he), h.revoke.offsets, h.revoke.nodup⟩, h.guard⟩

theorem nodup_commitsToMake (s : Poller κ π) (force : Bool) :
    ((s.commitsToMake force).map Prod.fst).Nodup := by
  have hall : ((DispatchSupport.buildCommitCandidates s.offsetTrackers s.wm).map Prod.fst).Nodup := by
    refine List.Nodup.sublist ?_ s.offsetTrackers.nodup
    unfold DispatchSupport.buildCommitCandidates
    generalize s.offsetTrackers.entries = l
    induction l with
    | nil => exact List.Sublist.slnil
    | cons e l ih =>
      rw [List.filterMap_cons]
      split
      · exact ih.cons _
      · rename_i x hx
        have hfst : x.1 = e.1 := by
          dsimp only at hx
          split at hx
          · cases hx
          · split at hx
            · cases hx; rfl
            · cases hx
        rw [List.map_cons, List.map_cons, hfst]
        exact ih.cons_cons _
  unfold Poller.commitsToMake
  dsimp only
  split
  · exact hall
  · exact hall.sublist (List.filter_sublist.map _)

/-- An unclamped candidate is the contiguous mark of its tracker. -/
theorem mark_of_mem_commitsToMake {force : Bool} (ho : Orderly s (.scan force))
    {e : TopicPartition × Int} (he : e ∈ s.commitsToMake force) :
    ∃ r t, s.offsetTrackers.get? e.1 = some r ∧ s.wm.trackerAt r = some t ∧ e.2 = t.core.mark ∧
      ¬ Revoking s.revoke e.1 := by
  obtain ⟨r, t, hr, ht, heq, -⟩ :=
    DispatchSupport.mem_buildCommitCandidates.mp (Poller.mem_commitsToMake he)
  obtain ⟨hno, hclamp⟩ := ho e he
  refine ⟨r, t, hr, ht, ?_, hno⟩
  rw [heq]
  cases hm : s.wm.getMinInFlightOffset e.1 with
  | none => rfl
  | some m =>
    have hlt := hclamp r t (Poller.tracker?_eq_some.mpr ⟨hr, ht⟩) m hm
    have hlt' : t.core.mark < m := hlt
    show (if m ≤ t.core.mark then m - 1 else t.core.mark) = t.core.mark
    rw [if_neg (not_le.mpr hlt')]

theorem orderInv_scan (h : OrderInv c s) (hcover : s.trackers.CoverInv) {force : Bool}
    (ho : Orderly s (.scan force)) : OrderInv c (s.scan force) := by
  unfold Poller.scan
  split
  · exact h.idle s.dirtyCommitPartitions
  · have hlive : ∀ e ∈ s.commitsToMake force, ∃ r core, s.trackers.cores[r]? = some core ∧
        s.trackers.installed.get? e.1 = some r ∧ e.2 = core.mark ∧ s.trackers.Live e.1 r e.2 := by
      intro e he
      obtain ⟨r, t, hr, ht, hmark, hno⟩ := mark_of_mem_commitsToMake ho he
      have hcore := Poller.cores_eq_of_trackerAt ht
      refine ⟨r, t.core, hcore, hr, hmark, hr, ⟨t.core, hcore, hmark ▸ t.core.coversUpTo_mark⟩,
        fun path position hmem => ⟨?_, ?_⟩⟩
      · obtain ⟨core, hcore', hcov⟩ := h.log.bounded path r position hmem
        have heq : core = t.core := Option.some.inj (hcore'.symm.trans hcore)
        rw [heq] at hcov
        have hle := (OffsetTracker.Core.le_mark_iff (hcover.wellFormed r t.core hcore) _).mpr hcov
        omega
      · rintro rfl
        exact h.log.unrevoked e.1 r hr hno position hmem
    -- whatever is live for the partition was covered before the scan
    have hnewest : ∀ e ∈ s.commitsToMake force, ∀ r' o, s.trackers.Live e.1 r' o → o ≤ e.2 := by
      intro e he r' o hl
      obtain ⟨r, core, hcore, hr, hmark, -⟩ := hlive e he
      have heq : r' = r := Option.some.inj (hl.installed.symm.trans hr)
      rw [hmark]
      exact le_mark_of_live hcover (heq ▸ hl) hcore
    refine ⟨h.disabled, h.log, h.outbox, ⟨fun e he => ?_, fun e he b hb => ?_, nodup_commitsToMake s force,
      fun hlate => hlate.elim, fun e he => (by cases he), List.nodup_nil⟩,
      ⟨h.worker.nodup, h.worker.flight, h.worker.leases, h.worker.tracked, h.worker.trackedNodup,
       fun e he => ?_⟩, ⟨h.revoke.outbox, fun tp htp e he heq => ?_, h.revoke.offsets, h.revoke.nodup⟩,
      h.guard⟩
    · obtain ⟨r, core, -, -, -, hl⟩ := hlive e he
      exact ⟨r, hl⟩
    · obtain ⟨-, r, hl⟩ := h.outbox.live e.1 b hb
      exact hnewest e he r b.safeOffset hl
    · obtain ⟨hl, hp, -⟩ := h.worker.guarded e he
      exact ⟨hl, hp, fun x hx heq => hnewest x hx e.r _ (heq ▸ hl)⟩
    · exact (mark_of_mem_commitsToMake ho he).choose_spec.choose_spec.2.2.2 (heq ▸ htp)

/-- A refused batch changes nothing. -/
theorem enqueue_false {config : CommitCoordinatorConfig} {k k' : CommitCoordinator}
    {cs : List CommitCandidate} (h : k.enqueue config cs = (false, k')) : k' = k := by
  unfold CommitCoordinator.enqueue at h
  split at h
  · exact (Prod.ext_iff.mp h).2.symm
  · split at h
    · exact (Prod.ext_iff.mp h).2.symm
    · cases (Prod.ext_iff.mp h).1

/-- The candidates of a scan become pending, each as the newest offset of its partition. -/
theorem orderInv_enqueue (h : OrderInv c s) (henabled : c.coordinatorEnabled = true)
    {commits : List (TopicPartition × Int)} (hd : s.direct = .scanned commits) {k : CommitCoordinator}
    (hspec : CommitCoordinator.Enqueued s.coordinator (s.buildCandidates commits) k) :
    OrderInv c { s with coordinator := k, direct := .idle } := by
  have hcommits : s.direct.commits = commits := by rw [hd]; rfl
  -- a pending candidate is an old one or comes from the scan, under a fresh lease
  have hpending : ∀ tp p, k.pending.get? tp = some p → s.coordinator.pending.get? tp = some p ∨
      ((tp, p.safeOffset) ∈ s.direct.commits ∧ p.tp = tp ∧ s.coordinator.leaseCounter < p.leaseId ∧
        p.leaseId ≤ k.leaseCounter) := by
    intro tp p hp
    rcases hspec.pending tp with heq | ⟨b, hb, hbtp, -, n, hn, hn', heq⟩
    · exact .inl (heq ▸ hp)
    · rw [heq] at hp
      cases hp
      refine .inr ⟨?_, hbtp, hn, hn'⟩
      have hmem := Poller.mem_buildCandidates hb
      rw [hcommits]
      exact hbtp ▸ hmem
  have hinflight : ∀ tp b, k.inFlight.get? tp = some b → s.coordinator.inFlight.get? tp = some b :=
    fun tp b hb => hspec.inFlight ▸ hb
  have hold : ∀ tp b, k.Outbox tp b → b.leaseId ≤ s.coordinator.leaseCounter →
      s.coordinator.Outbox tp b := by
    rintro tp b (hb | hb) hle
    · rcases hpending tp b hb with hb | ⟨-, -, hlt, -⟩
      · exact .inl hb
      · exact absurd hle (Nat.not_le.mpr hlt)
    · exact .inr (hinflight tp b hb)
  refine ⟨fun hc => ?_, h.log, ⟨fun tp b hb => ?_, fun tp b p hb hp => ?_, fun tp b hb => ?_⟩,
    directPart_idle, ⟨h.worker.nodup, fun hne tp b hb => h.worker.flight hne tp b (hinflight tp b hb),
      fun b hb => ⟨?_, fun b' hb' hid => ?_⟩, fun e he => ?_, h.worker.trackedNodup, fun e he => ?_⟩,
    ⟨fun tp htp b hb => ?_, fun tp htp e he => (by cases he), h.revoke.offsets, h.revoke.nodup⟩, h.guard⟩
  · rw [henabled] at hc; cases hc
  · rcases hb with hb | hb
    · rcases hpending tp b hb with hb | ⟨hmem, htp, -, -⟩
      · exact h.outbox.live tp b (.inl hb)
      · exact ⟨htp, h.direct.live _ hmem⟩
    · exact h.outbox.live tp b (.inr (hinflight tp b hb))
  · rcases hpending tp p hp with hp | ⟨hmem, -, -, -⟩
    · exact h.outbox.newer tp b p (hinflight tp b hb) hp
    · exact h.direct.newest _ hmem b (.inr (hinflight tp b hb))
  · have hmono : s.coordinator.leaseCounter ≤ k.leaseCounter := hspec.leaseCounter
    rcases hb with hb | hb
    · rcases hpending tp b hb with hb | ⟨-, -, -, hle⟩
      · exact Nat.le_trans (h.outbox.leases tp b (.inl hb)) hmono
      · exact hle
    · exact Nat.le_trans (h.outbox.leases tp b (.inr (hinflight tp b hb))) hmono
  · exact Nat.le_trans (h.worker.leases b hb).1 hspec.leaseCounter
  · obtain ⟨hle, huniq⟩ := h.worker.leases b hb
    exact huniq b' (hold b.tp b' hb' (hid ▸ hle)) hid
  · obtain ⟨hmem, hpos, hinst⟩ := h.worker.tracked e he
    exact ⟨hmem, hpos, fun hb => hinst (hold _ _ hb (h.worker.leases _ hmem).1)⟩
  · obtain ⟨hl, hp, hx⟩ := h.worker.guarded e he
    refine ⟨hl, fun p hp' => ?_, fun x hx => (by cases hx)⟩
    rcases hpending _ p hp' with hp' | ⟨hmem, -, -, -⟩
    · exact hp p hp'
    · exact hx _ hmem rfl
  · rcases hb with hb | hb
    · rcases hpending tp b hb with hb | ⟨hmem, -, -, -⟩
      · exact h.revoke.outbox tp htp b (.inl hb)
      · exact h.revoke.direct tp htp _ hmem rfl
    · exact h.revoke.outbox tp htp b (.inr (hinflight tp b hb))

/-- The synchronous fallback, once the coordinator holds nothing for its partitions. -/
theorem orderInv_fallback (h : OrderInv c s) {commits : List (TopicPartition × Int)}
    (hd : s.direct = .scanned commits) (hnone : ∀ e ∈ commits, ∀ b, ¬ s.coordinator.Outbox e.1 b) :
    OrderInv c { s with direct := .fallback commits } := by
  have hdirect := h.direct
  have hworker := h.worker
  have hrevoke := h.revoke
  rw [hd] at hdirect hworker hrevoke
  exact ⟨h.disabled, h.log, h.outbox, ⟨hdirect.live, hdirect.newest, hdirect.nodup, fun _ => hnone,
    fun e he => (by cases he), List.nodup_nil⟩,
    ⟨hworker.nodup, hworker.flight, hworker.leases, hworker.tracked, hworker.trackedNodup, hworker.guarded⟩,
    ⟨hrevoke.outbox, hrevoke.direct, hrevoke.offsets, hrevoke.nodup⟩, h.guard⟩

theorem orderInv_route (h : OrderInv c s) (hsafe : s.trackers.Safe c.dlq) : OrderInv c (s.route c) := by
  unfold Poller.route
  split
  · rename_i commits hd
    split
    · rename_i henabled
      dsimp only
      split
      · exact h.idle s.dirtyCommitPartitions
      · split
        · rename_i k heq
          have hspec := CommitCoordinator.enqueue_spec c.coordinator s.coordinator (s.buildCandidates commits)
          rw [heq] at hspec
          exact orderInv_enqueue h henabled hd hspec
        · rename_i k heq
          rw [enqueue_false heq]
          let s1 : Poller κ π :=
            { s with coordinator := s.coordinator.cancelLeases ((s.buildCandidates commits).map (·.tp)) }
          have h1 : OrderInv c s1 := h.frame (.refl _)
            (CommitCoordinator.shrinks_cancelLeases _ _) rfl rfl rfl rfl
          refine orderInv_fallback (s := s1) h1 hd fun e he => ?_
          -- every partition of the scan has a tracker, so all of them were cancelled
          obtain ⟨r, hl⟩ := h.direct.live e (by rw [hd]; exact he)
          obtain ⟨t, ht, -, -⟩ := tracker_of_installed hsafe hl.installed
          refine CommitCoordinator.not_outbox_cancelLeases (List.mem_map.mpr
            ⟨⟨e.1, e.2, t.epoch, 0⟩, List.mem_filterMap.mpr ⟨e, he, ?_⟩, rfl⟩)
          simp only [Poller.tracker?_eq_some.mpr ⟨hl.installed, ht⟩, Option.map_some]
    · rename_i hdisabled
      exact orderInv_fallback h hd fun e he =>
        h.disabled (Bool.eq_false_of_not_eq_true hdisabled) e.1
  · exact h

theorem orderInv_capture (h : OrderInv c s) : OrderInv c (s.capture c) := by
  unfold Poller.capture
  split
  · rename_i commits hd
    dsimp only
    split
    · exact h.idle _
    · have hdirect := h.direct
      have hworker := h.worker
      have hrevoke := h.revoke
      rw [hd] at hdirect hworker hrevoke
      refine ⟨h.disabled, h.log, h.outbox, ⟨hdirect.live, hdirect.newest, hdirect.nodup,
        fun _ => hdirect.exclusive trivial, fun e he => ?_, ?_⟩,
        ⟨hworker.nodup, hworker.flight, hworker.leases, hworker.tracked, hworker.trackedNodup,
         hworker.guarded⟩, ⟨hrevoke.outbox, hrevoke.direct, hrevoke.offsets, hrevoke.nodup⟩, h.guard⟩
      · obtain ⟨x, hx, hsome⟩ := List.mem_filterMap.mp he
        obtain ⟨⟨r, t⟩, htracker, rfl⟩ := Option.map_eq_some_iff.mp hsome
        exact ⟨hx, (Poller.tracker?_eq_some.mp htracker).1, rfl⟩
      · refine List.Nodup.sublist ?_ hdirect.nodup
        clear * -
        simp only [DirectPc.tracked, DirectPc.commits]
        induction commits with
        | nil => exact List.Sublist.slnil
        | cons e l ih =>
          rw [List.filterMap_cons]
          split
          · exact ih.cons _
          · rename_i x hx
            obtain ⟨⟨r, t⟩, -, rfl⟩ := Option.map_eq_some_iff.mp hx
            rw [List.map_cons, List.map_cons]
            exact ih.cons_cons _
  · exact h

/-- Two pairs of a list of distinct keys agree when their keys do. -/
theorem eq_of_nodup_fst {α β : Type} {l : List (α × β)} (hn : (l.map Prod.fst).Nodup) {a b : α × β}
    (ha : a ∈ l) (hb : b ∈ l) (h : a.1 = b.1) : a = b :=
  List.inj_on_of_nodup_map hn ha hb h

theorem no_revoke_of_guard (h : OrderInv c s) (hg : s.guard ≠ .consume) : s.revoke = none := by
  by_contra hne
  exact hg (h.guard.revoke hne)

theorem not_guarded_of_guard (h : OrderInv c s) (hg : s.guard ≠ .worker) : s.worker.isGuarding = false := by
  by_contra hne
  exact hg (h.guard.worker (Bool.eq_true_of_not_eq_false hne))

theorem orderInv_directCommit (h : OrderInv c s) (hsafe : s.trackers.Safe c.dlq)
    (hg : s.guard = .free) (outcome : CommitOutcome) : OrderInv c (s.directCommit outcome) := by
  unfold Poller.directCommit
  split
  · rename_i commits tracked attempt hd
    have hdirect := h.direct
    rw [hd] at hdirect
    have hguarded := WorkerPc.guardedTracked_eq_nil (not_guarded_of_guard h (by rw [hg]; decide))
    have hrevoke := no_revoke_of_guard h (by rw [hg]; decide)
    let l := tracked.map fun e => (e.r, e.position)
    -- a commit of the tracker of a live offset is of its partition
    have hpartition : ∀ x ∈ l, ∀ tp o, s.trackers.Live tp x.1 o → ∃ e ∈ tracked, x.2 = e.position ∧
        e.tp = tp := by
      intro x hx tp o hl
      obtain ⟨e, he, rfl⟩ := List.mem_map.mp hx
      exact ⟨e, he, rfl, installed_inj hsafe (hdirect.captured e he).2.1 hl.installed⟩
    have hcommit : ∀ e ∈ tracked, s.trackers.Live e.tp e.r e.safeOffset := by
      intro e he
      obtain ⟨hmem, hr, -⟩ := hdirect.captured e he
      obtain ⟨r, hl⟩ := hdirect.live _ hmem
      have heq : r = e.r := Option.some.inj (hl.installed.symm.trans hr)
      exact heq ▸ hl
    have hlog : LogPart (s.trackers.withCommits .direct l) s.revoke := by
      refine h.log.withCommits (by decide) ?_ fun x hx => ?_
      · -- distinct partitions have distinct trackers
        have hn : (tracked.map (·.tp)).Nodup := hdirect.trackedNodup
        rw [List.map_map]
        refine List.Nodup.map_on (fun e he e' he' heq => ?_) (List.Nodup.of_map _ hn)
        refine List.inj_on_of_nodup_map hn he he' ?_
        have hr' := (hdirect.captured e' he').2.1
        have heq' : e.r = e'.r := heq
        exact installed_inj hsafe (hdirect.captured e he).2.1 (heq' ▸ hr')
      · obtain ⟨e, he, rfl⟩ := List.mem_map.mp hx
        refine ⟨e.tp, ?_⟩
        show s.trackers.Live e.tp e.r (e.position.offset - 1)
        rw [(hdirect.captured e he).2.2, Int.add_sub_cancel]
        exact hcommit e he
    -- offsets of other partitions are not touched, and those of the same one are the committed ones
    have hkeep : ∀ tp r o, s.trackers.Live tp r o → (∀ e ∈ tracked, e.tp = tp → e.safeOffset ≤ o) →
        (s.trackers.withCommits .direct l).Live tp r o := by
      intro tp r o hl hle
      refine hl.withCommits (by decide) fun x hx heq => ?_
      obtain ⟨e, he, hpos, htp⟩ := hpartition x hx tp o (heq ▸ hl)
      rw [hpos, (hdirect.captured e he).2.2]
      have := hle e he htp
      omega
    have houtbox : OutboxPart (s.trackers.withCommits .direct l) s.coordinator := by
      refine ⟨fun tp b hb => ?_, h.outbox.newer, h.outbox.leases⟩
      obtain ⟨htp, r, hl⟩ := h.outbox.live tp b hb
      refine ⟨htp, r, hkeep tp r _ hl fun e he heq => ?_⟩
      exact absurd (heq ▸ hb) (hdirect.exclusive trivial _ (hdirect.captured e he).1 b)
    have hlive : ∀ e ∈ commits, ∃ r, (s.trackers.withCommits .direct l).Live e.1 r e.2 := by
      intro e he
      obtain ⟨r, hl⟩ := hdirect.live e he
      refine ⟨r, hkeep e.1 r e.2 hl fun e' he' heq => ?_⟩
      have := eq_of_nodup_fst hdirect.nodup (hdirect.captured e' he').1 he heq
      exact le_of_eq (congrArg Prod.snd this)
    have hdirect' : ∀ d : DirectPc, d.commits = commits → d.tracked = tracked →
        DirectPart (s.trackers.withCommits .direct l) s.coordinator d := by
      intro d hc ht
      refine ⟨hc ▸ hlive, hc ▸ hdirect.newest, hc ▸ hdirect.nodup, fun _ => hc ▸ hdirect.exclusive trivial,
        fun e he => ?_, ht ▸ hdirect.trackedNodup⟩
      rw [hc]
      exact hdirect.captured e (ht ▸ he)
    have hrest : ∀ d : DirectPc, DirectPart (s.trackers.withCommits .direct l) s.coordinator d →
        OrderInv c { s with
          log := Poller.committedEntries .direct (tracked.map fun e => (e.r, e.position)) ++ s.log
          direct := d } := by
      intro d hd'
      refine ⟨h.disabled, hlog, houtbox, hd', ⟨h.worker.nodup, h.worker.flight, h.worker.leases,
        h.worker.tracked, h.worker.trackedNodup, fun e he => ?_⟩, ?_, h.guard⟩
      · have he' : e ∈ s.worker.guardedTracked := he
        rw [hguarded] at he'
        cases he'
      · show RevokePart _ _ _ s.revoke
        rw [hrevoke]
        exact ⟨fun tp ⟨pc, hpc, _⟩ => (by cases hpc), fun tp ⟨pc, hpc, _⟩ => (by cases hpc),
          fun pc hpc => (by cases hpc), fun pc hpc => (by cases hpc)⟩
    cases outcome with
    | ok => exact hrest _ (hdirect' _ rfl rfl)
    | kafkaException =>
      dsimp only
      split
      · exact hrest _ (hdirect' _ rfl rfl)
      · exact hrest _ directPart_idle
    | crash => exact hrest _ directPart_idle
  · exact h

theorem orderInv_directSettle (h : OrderInv c s) : OrderInv c s.directSettle := by
  unfold Poller.directSettle
  split
  · rename_i commits tracked hd
    have hgrows := (Poller.trackerRun_commitTrackers (V := fun _ _ => True) (E := fun _ => True) c
      tracked s fun _ _ => trivial).grows
    have hs := Poller.settles_commitTrackers tracked s
    have hframe := h.frame (keeps_of_settles hgrows hs) (hs.coordinator ▸ .refl _) hs.direct hs.worker
      hs.revoke hs.guard
    exact hframe.idle _
  · exact h

/-! ## The worker -/

theorem workerPart_empty {v : TrackerView κ π} {k : CommitCoordinator} {d : DirectPc} {w : WorkerPc}
    (hb : w.batch = []) (ht : w.tracked = []) (hg : w.guardedTracked = []) : WorkerPart v k d w := by
  refine ⟨?_, fun hne => absurd hb hne, fun b hmem => ?_, fun e hmem => ?_, ?_, fun e hmem => ?_⟩
  · rw [hb]; exact List.nodup_nil
  · rw [hb] at hmem; cases hmem
  · rw [ht] at hmem; cases hmem
  · rw [ht]; exact List.nodup_nil
  · rw [hg] at hmem; cases hmem

/-- The worker's round goes on without tracked offsets. -/
theorem WorkerPart.untracked {v : TrackerView κ π} {k : CommitCoordinator} {d : DirectPc}
    {w w' : WorkerPc} (h : WorkerPart v k d w) (hb : w'.batch = w.batch) (ht : w'.tracked = [])
    (hg : w'.guardedTracked = []) : WorkerPart v k d w' := by
  refine ⟨hb ▸ h.nodup, fun hne => ?_, fun b hmem => ?_, fun e hmem => ?_, ?_, fun e hmem => ?_⟩
  · rw [hb] at hne ⊢; exact h.flight hne
  · rw [hb] at hmem; exact h.leases b hmem
  · rw [ht] at hmem; cases hmem
  · rw [ht]; exact List.nodup_nil
  · rw [hg] at hmem; cases hmem

/-- The worker moves on: the coordinator may lose candidates, and the guard is not the worker's. -/
theorem OrderInv.worker_step (h : OrderInv c s) {k : CommitCoordinator} {w : WorkerPc}
    {dirty : List TopicPartition} (hs : s.coordinator.Shrinks k)
    (hw : WorkerPart s.trackers k s.direct w) (hg : w.isGuarding = false) :
    OrderInv c { s with coordinator := k, worker := w, dirtyCommitPartitions := dirty } := by
  have hout : ∀ tp b, k.Outbox tp b → s.coordinator.Outbox tp b := fun _ _ => hs.outbox
  exact ⟨fun hc tp b hb => h.disabled hc tp b (hout tp b hb), h.log, h.outbox.frame (.refl _) hs,
    h.direct.frame (.refl _) hout, hw, h.revoke.frame (.refl _) hout,
    ⟨fun htrue => (by rw [hg] at htrue; cases htrue), h.guard.revoke⟩⟩

theorem orderInv_workerStart (h : OrderInv c s) : OrderInv c s.workerStart := by
  -- what is in flight afterwards was pending before
  have hflight : ∀ tp b, s.coordinator.takeBatch.2.inFlight.get? tp = some b →
      b ∈ s.coordinator.takeBatch.1 ∧ s.coordinator.pending.get? tp = some b := by
    intro tp b hb
    obtain ⟨hmem, htp⟩ := CommitCoordinator.takeBatch_inFlight hb
    obtain ⟨tp', hp⟩ := CommitCoordinator.mem_takeBatch.mp hmem
    have htp' := (h.outbox.live tp' b (.inl hp)).1
    rw [← htp, htp']
    exact ⟨hmem, hp⟩
  have hout : ∀ tp b, s.coordinator.takeBatch.2.Outbox tp b → s.coordinator.Outbox tp b := by
    rintro tp b (hb | hb)
    · cases hb
    · exact .inl (hflight tp b hb).2
  have hnodup : (s.coordinator.takeBatch.1.map (·.tp)).Nodup := by
    have hkeys : s.coordinator.takeBatch.1.map (·.tp) = s.coordinator.pending.entries.map Prod.fst := by
      show (s.coordinator.pending.entries.map Prod.snd).map (·.tp) = _
      rw [List.map_map]
      refine List.map_congr_left fun e he => ?_
      exact (h.outbox.live e.1 e.2 (.inl ((Dict.mem_entries_iff _).mp he))).1
    rw [hkeys]
    exact s.coordinator.pending.nodup
  refine ⟨fun hc tp b hb => h.disabled hc tp b (hout tp b hb), h.log,
    ⟨fun tp b hb => h.outbox.live tp b (hout tp b hb), fun tp b p _ hp => (by cases hp),
     fun tp b hb => h.outbox.leases tp b (hout tp b hb)⟩, h.direct.frame (.refl _) hout,
    ⟨hnodup, fun _ tp b hb => (hflight tp b hb).1, fun b hb => ⟨?_, fun b' hb' _ => ?_⟩,
     fun e he => (by cases he), List.nodup_nil, fun e he => (by cases he)⟩,
    h.revoke.frame (.refl _) hout, ⟨fun htrue => (by cases htrue), h.guard.revoke⟩⟩
  · obtain ⟨tp, hp⟩ := CommitCoordinator.mem_takeBatch.mp hb
    exact h.outbox.leases tp b (.inl hp)
  · have hb'' : b' ∈ s.coordinator.takeBatch.1 ∧ s.coordinator.pending.get? b.tp = some b' := by
      rcases hb' with hb' | hb'
      · cases hb'
      · exact hflight b.tp b' hb'
    exact List.inj_on_of_nodup_map hnodup hb''.1 hb (h.outbox.live b.tp b' (.inl hb''.2)).1

theorem sublist_trackBatch (s : Poller κ π) (batch : List CommitCandidate) :
    ((s.trackBatch c batch).map (·.candidate.tp)).Sublist (batch.map (·.tp)) := by
  refine List.Sublist.trans ?_ ((List.filter_sublist (p := fun b => !s.stale b)).map _)
  unfold Poller.trackBatch
  generalize batch.filter (fun b => !s.stale b) = l
  induction l with
  | nil => exact List.Sublist.slnil
  | cons b l ih =>
    rw [List.filterMap_cons]
    split
    · exact ih.cons _
    · rename_i x hx
      obtain ⟨⟨r, t⟩, -, rfl⟩ := Option.map_eq_some_iff.mp hx
      rw [List.map_cons, List.map_cons]
      exact ih.cons_cons _

theorem orderInv_workerPrepare (h : OrderInv c s) : OrderInv c (s.workerPrepare c) := by
  unfold Poller.workerPrepare
  split
  · rename_i batch hw
    dsimp only
    have hs : s.coordinator.Shrinks (s.cancelStale batch) := by
      unfold Poller.cancelStale
      dsimp only
      split
      · exact .refl _
      · exact CommitCoordinator.shrinks_cancelLeases _ _
    have hworker := h.worker.frame (.refl _) hs
    rw [hw] at hworker
    refine h.worker_step hs ?_ ?_
    · split
      · exact hworker.untracked rfl rfl rfl
      · refine ⟨hworker.nodup, hworker.flight, hworker.leases, fun e he => ?_, ?_,
          fun e he => (by cases he)⟩
        · obtain ⟨b, hb, hsome⟩ := List.mem_filterMap.mp he
          obtain ⟨⟨r, t⟩, htracker, rfl⟩ := Option.map_eq_some_iff.mp hsome
          exact ⟨(List.mem_filter.mp hb).1, rfl, fun _ => (Poller.tracker?_eq_some.mp htracker).1⟩
        · exact (sublist_trackBatch s batch).nodup hworker.nodup
    · split <;> rfl
  · exact h

/-- An active lease is that of a candidate that is still in the outbox. -/
theorem outbox_of_active (h : OrderInv c s) {b : CommitCandidate} (hb : b ∈ s.worker.batch)
    (hact : CommitCoordinator.CommitCandidate.activeIn s.coordinator b = true) :
    s.coordinator.Outbox b.tp b := by
  obtain ⟨b', hb', -, hid⟩ := CommitCoordinator.exists_of_activeIn hact
  have hout : s.coordinator.Outbox b.tp b' := hb'
  exact (h.worker.leases b hb).2 b' hout hid ▸ hout

theorem orderInv_workerCheck (h : OrderInv c s) (hg : s.guard = .free) : OrderInv c s.workerCheck := by
  unfold Poller.workerCheck
  split
  · rename_i batch tracked hw
    have hworker := h.worker
    rw [hw] at hworker
    split
    · rename_i hactive
      have hrevoke := no_revoke_of_guard h (by rw [hg]; decide)
      refine ⟨h.disabled, h.log, h.outbox, h.direct, ⟨hworker.nodup, hworker.flight, hworker.leases,
        hworker.tracked, hworker.trackedNodup, fun e he => ?_⟩, h.revoke,
        ⟨fun _ => rfl, fun hne => absurd hrevoke hne⟩⟩
      obtain ⟨hmem, -, hinst⟩ := hworker.tracked e he
      have hout : s.coordinator.Outbox e.candidate.tp e.candidate := by
        refine outbox_of_active h (by rw [hw]; exact hmem) ?_
        exact List.all_eq_true.mp hactive e he
      obtain ⟨-, r, hl⟩ := h.outbox.live _ _ hout
      have heq : r = e.r := Option.some.inj (hl.installed.symm.trans (hinst hout))
      refine ⟨heq ▸ hl, fun p hp => ?_, fun x hx heq => h.direct.newest x hx _ (heq ▸ hout)⟩
      rcases hout with hpend | hfly
      · rw [hpend] at hp
        cases hp
        exact le_refl _
      · exact h.outbox.newer _ _ p hfly hp
    · exact h.worker_step (.refl _) (hworker.untracked rfl rfl rfl) rfl
  · exact h

theorem orderInv_workerCommit (h : OrderInv c s) (hsafe : s.trackers.Safe c.dlq)
    (outcome : CommitOutcome) : OrderInv c (s.workerCommit outcome) := by
  unfold Poller.workerCommit
  split
  · rename_i batch tracked hw
    have hworker := h.worker
    rw [hw] at hworker
    let l := tracked.map fun e => (e.r, e.position)
    have hrevoke : s.revoke = none := by
      refine no_revoke_of_guard h ?_
      rw [h.guard.worker (by rw [hw]; rfl)]
      decide
    have hlog : LogPart (s.trackers.withCommits .coordinator l) s.revoke := by
      refine h.log.withCommits (by decide) ?_ fun x hx => ?_
      · have hn : (tracked.map (·.candidate.tp)).Nodup := hworker.trackedNodup
        rw [List.map_map]
        refine List.Nodup.map_on (fun e he e' he' heq => ?_) (List.Nodup.of_map _ hn)
        refine List.inj_on_of_nodup_map hn he he' ?_
        have hr' := (hworker.guarded e' he').1.installed
        have heq' : e.r = e'.r := heq
        exact installed_inj hsafe (hworker.guarded e he).1.installed (heq' ▸ hr')
      · obtain ⟨e, he, rfl⟩ := List.mem_map.mp hx
        refine ⟨e.candidate.tp, ?_⟩
        show s.trackers.Live e.candidate.tp e.r (e.position.offset - 1)
        rw [(hworker.tracked e he).2.1, Int.add_sub_cancel]
        exact (hworker.guarded e he).1
    have hkeep : ∀ tp r o, s.trackers.Live tp r o →
        (∀ e ∈ tracked, e.candidate.tp = tp → e.candidate.safeOffset ≤ o) →
        (s.trackers.withCommits .coordinator l).Live tp r o := by
      intro tp r o hl hle
      refine hl.withCommits (by decide) fun x hx heq => ?_
      obtain ⟨e, he, rfl⟩ := List.mem_map.mp hx
      have htp : e.candidate.tp = tp :=
        installed_inj hsafe (hworker.guarded e he).1.installed ((show e.r = r from heq) ▸ hl.installed)
      have hpos : e.position.offset = e.candidate.safeOffset + 1 := (hworker.tracked e he).2.1
      have := hle e he htp
      show e.position.offset ≤ o + 1
      omega
    refine ⟨h.disabled, hlog, ⟨fun tp b hb => ?_, h.outbox.newer, h.outbox.leases⟩,
      ⟨fun e he => ?_, h.direct.newest, h.direct.nodup, h.direct.exclusive, h.direct.captured,
       h.direct.trackedNodup⟩,
      ⟨hworker.nodup, hworker.flight, hworker.leases, fun e he => (by cases he), List.nodup_nil,
       fun e he => (by cases he)⟩,
      ⟨h.revoke.outbox, h.revoke.direct, fun pc hpc => ?_, h.revoke.nodup⟩,
      ⟨fun htrue => (by cases htrue), fun hne => absurd hrevoke hne⟩⟩
    · obtain ⟨htp, r, hl⟩ := h.outbox.live tp b hb
      refine ⟨htp, r, hkeep tp r _ hl fun e he heq => ?_⟩
      rcases hb with hb | hb
      · exact (hworker.guarded e he).2.1 b (heq ▸ hb)
      · -- what is in flight belongs to the batch, which has one candidate for a partition
        have hmem := (hworker.tracked e he).1
        have hb' := hworker.flight (List.ne_nil_of_mem hmem) tp b hb
        have := List.inj_on_of_nodup_map hworker.nodup hmem hb' (heq.trans htp.symm)
        exact le_of_eq (congrArg _ this)
    · obtain ⟨r, hl⟩ := h.direct.live e he
      exact ⟨r, hkeep e.1 r e.2 hl fun e' he' heq => (hworker.guarded e' he').2.2 e he heq.symm⟩
    · have hpc' : s.revoke = some pc := hpc
      rw [hrevoke] at hpc'
      cases hpc'
  · exact h

theorem orderInv_workerResume (h : OrderInv c s) : OrderInv c s.workerResume := by
  have hretain : ∀ (k : CommitCoordinator) batch outcome retry, s.worker = .returned batch outcome →
      s.coordinator.Shrinks k → OrderInv c { s with
        coordinator := k, worker := .retaining batch (k.activeOf batch) retry } := by
    intro k batch outcome retry hw hs
    have hworker := h.worker.frame (.refl _) hs
    rw [hw] at hworker
    exact h.worker_step hs (hworker.untracked rfl rfl rfl) rfl
  unfold Poller.workerResume
  split
  · dsimp only
    split
    · exact h.worker_step (CommitCoordinator.shrinks_clearInFlight _)
        (workerPart_empty rfl rfl rfl) rfl
    · exact h.worker_step ⟨fun _ _ hb => hb, fun _ _ hb => hb, Nat.le_refl _⟩
        (workerPart_empty rfl rfl rfl) rfl
  · rename_i batch tps hw
    exact hretain _ batch _ false hw (CommitCoordinator.shrinks_cancelLeases _ tps)
  · rename_i batch hw
    exact hretain _ batch _ true hw (.refl _)
  · rename_i batch hw
    exact hretain _ batch _ false hw ⟨fun _ _ hb => hb, fun _ _ hb => hb, Nat.le_refl _⟩
  · exact h

theorem orderInv_workerSettle (h : OrderInv c s) : OrderInv c s.workerSettle := by
  unfold Poller.workerSettle
  split
  · rename_i settlements hw
    have hgrows := (Poller.trackerRun_settleAll (V := fun _ _ => True) (E := fun _ => True) c
      settlements (s, []) fun _ _ => trivial).grows
    have hs := Poller.settles_settleAll settlements (s, [])
    have hframe := h.frame (keeps_of_settles hgrows hs) (hs.coordinator ▸ .refl _) hs.direct hs.worker
      hs.revoke hs.guard
    exact hframe.worker_step (CommitCoordinator.shrinks_clearInFlight _) (workerPart_empty rfl rfl rfl) rfl
  · exact h

theorem orderInv_workerRetain (h : OrderInv c s) : OrderInv c s.workerRetain := by
  unfold Poller.workerRetain
  split
  · rename_i batch settlements retry hw
    cases retry with
    | false =>
      exact h.worker_step (CommitCoordinator.shrinks_abortBatch _ batch) (workerPart_empty rfl rfl rfl) rfl
    | true =>
      have hworker := h.worker
      rw [hw] at hworker
      obtain ⟨hflight, -, hcounter⟩ := CommitCoordinator.retryBatch_fields s.coordinator batch
      -- a candidate that is retried is one that was still in the outbox
      have hout : ∀ tp b, (s.coordinator.retryBatch batch).Outbox tp b → s.coordinator.Outbox tp b := by
        rintro tp b (hb | hb)
        · rcases CommitCoordinator.retryBatch_pending hworker.nodup hb with hb | ⟨hmem, htp, hact⟩
          · exact .inl hb
          · exact htp ▸ outbox_of_active h (by rw [hw]; exact hmem) hact
        · rw [hflight] at hb
          cases hb
      refine ⟨fun hc tp b hb => h.disabled hc tp b (hout tp b hb), h.log,
        ⟨fun tp b hb => h.outbox.live tp b (hout tp b hb), fun tp b p hb => ?_, fun tp b hb => ?_⟩,
        h.direct.frame (.refl _) hout, workerPart_empty rfl rfl rfl, h.revoke.frame (.refl _) hout,
        ⟨fun htrue => (by cases htrue), h.guard.revoke⟩⟩
      · have hb' : (s.coordinator.retryBatch batch).inFlight.get? tp = some b := hb
        rw [hflight] at hb'
        cases hb'
      · show b.leaseId ≤ (s.coordinator.retryBatch batch).leaseCounter
        rw [hcounter]
        exact h.outbox.leases tp b (hout tp b hb)
  · exact h

end Actions

end PyrallelConsumer
