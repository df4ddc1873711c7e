import PyrallelConsumer.CommitPaths

/-!
# PyrallelConsumer.CommitOrder

Do the positions of one assignment reach the broker in order, and none after its revoke commit? Each
path captures its offsets before it waits for the operation guard, and only the coordinator's path
checks a lease again once it has the guard. A rebalance that completes in between is not noticed.

* `orderInv_next` — a step that meets `Orderly` keeps the invariant of `CommitLive`.
* `commits_ordered` — every run of such steps commits in order.
* `direct_commit_after_revoke` — a direct commit that waits for the guard during a rebalance.
-/

set_option linter.unusedSectionVars false

namespace PyrallelConsumer

variable {κ π : Type} [DecidableEq κ]

section Actions

variable {c : PollerConfig} {s : Poller κ π}

/-! ## Rebalance -/

theorem orderInv_consumeBegin (h : OrderInv c s) (hg : s.guard = .free) :
    OrderInv c { s with guard := .consume } := by
  have hguarded := not_guarded_of_guard h (by rw [hg]; decide)
  exact ⟨h.disabled, h.log, h.outbox, h.direct, h.worker, h.revoke,
    ⟨fun htrue => (by rw [hguarded] at htrue; cases htrue), fun _ => rfl⟩⟩

theorem orderInv_consumeEnd (h : OrderInv c s) (hg : s.guard = .consume) (hr : s.revoke = none) :
    OrderInv c { s with guard := .free } := by
  have hguarded := not_guarded_of_guard h (by rw [hg]; decide)
  exact ⟨h.disabled, h.log, h.outbox, h.direct, h.worker, h.revoke,
    ⟨fun htrue => (by rw [hguarded] at htrue; cases htrue), fun hne => absurd hr hne⟩⟩

theorem orderInv_assign (h : OrderInv c s) (committed : Option (List KafkaTopicPartition))
    (partitions : List KafkaTopicPartition)
    (hfree : ∀ p ∈ partitions, s.offsetTrackers.get? p.toDto = none) :
    OrderInv c (s.assign c committed partitions) := by
  have hk := keeps_assign (c := c) committed partitions hfree
  obtain ⟨d, hd, -⟩ := RebalanceSupport.buildAssignments_ok committed c.strategy c.maxRevokeGraceMs partitions
  refine h.frame hk ?_ ?_ ?_ ?_ ?_
  · unfold Poller.assign
    rw [hd]
    simp only [Poller.assignSync]
    split
    · exact ⟨fun _ _ hb => hb, fun _ _ hb => hb, Nat.le_refl _⟩
    · exact .refl _
  all_goals
    unfold Poller.assign
    rw [hd]
    rfl

theorem orderInv_revokeCommit (h : OrderInv c s) (hsafe : s.trackers.Safe c.dlq) :
    OrderInv c s.revokeCommit := by
  unfold Poller.revokeCommit
  split
  · rename_i tps r position rest hrevoke
    obtain ⟨⟨tp, htp, hr⟩, hcov, hbound⟩ := h.revoke.offsets _ hrevoke (r, position) List.mem_cons_self
    have hnodup := h.revoke.nodup _ hrevoke
    obtain ⟨hnotin, hrest⟩ := List.nodup_cons.mp hnodup
    have hrevoking : Revoking s.revoke tp := ⟨_, hrevoke, htp⟩
    have hsame : ∀ tp', Revoking (some ⟨tps, rest⟩) tp' → Revoking s.revoke tp' := by
      rintro tp' ⟨pc, hpc, hmem⟩
      cases hpc
      exact ⟨_, hrevoke, hmem⟩
    -- nothing else is live for the tracker of a revoked partition
    have hkeep : ∀ tp' r' o, s.trackers.Live tp' r' o → tp' ≠ tp →
        (s.trackers.withCommits .revoke [(r, position)]).Live tp' r' o := by
      intro tp' r' o hl hne
      refine ⟨hl.installed, hl.covered, fun path p hmem => ?_⟩
      rcases mem_withCommits hmem with ⟨-, hnew⟩ | hold
      · cases List.mem_singleton.mp hnew
        exact absurd (installed_inj hsafe hl.installed hr) hne
      · exact hl.bound path p hold
    have hguarded := WorkerPc.guardedTracked_eq_nil (not_guarded_of_guard h (by
      rw [h.guard.revoke (by rw [hrevoke]; simp)]; decide))
    refine ⟨h.disabled, ⟨?_, fun path r' p hmem => ?_, fun tp' r' hr' hno p hmem => ?_⟩,
      ⟨fun tp' b hb => ?_, h.outbox.newer, h.outbox.leases⟩,
      ⟨fun e he => ?_, h.direct.newest, h.direct.nodup, h.direct.exclusive, h.direct.captured,
       h.direct.trackedNodup⟩,
      ⟨h.worker.nodup, h.worker.flight, h.worker.leases, h.worker.tracked, h.worker.trackedNodup,
       fun e he => ?_⟩,
      ⟨fun tp' htp' => h.revoke.outbox tp' (hsame tp' htp'), fun tp' htp' => h.revoke.direct tp' (hsame tp' htp'),
       fun pc hpc e he => ?_, fun pc hpc => ?_⟩,
      ⟨h.guard.worker, fun _ => h.guard.revoke (by rw [hrevoke]; simp)⟩⟩
    · exact ordered_withCommits (v := s.trackers) .revoke [(r, position)] (by simp)
        (fun e he => by cases List.mem_singleton.mp he; exact hbound) h.log.ordered
    · rcases mem_withCommits (v := s.trackers) (l := [(r, position)]) hmem with ⟨-, hnew⟩ | hold
      · cases List.mem_singleton.mp hnew
        exact hcov
      · exact h.log.bounded path r' p hold
    · have hno' : ¬ Revoking s.revoke tp' := by
        rintro ⟨pc, hpc, hmem'⟩
        rw [hrevoke] at hpc
        cases hpc
        exact hno ⟨_, rfl, hmem'⟩
      rcases mem_withCommits (v := s.trackers) (l := [(r, position)]) hmem with ⟨-, hnew⟩ | hold
      · cases List.mem_singleton.mp hnew
        exact hno' (installed_inj hsafe hr' hr ▸ hrevoking)
      · exact h.log.unrevoked tp' r' hr' hno' p hold
    · obtain ⟨hbtp, r', hl⟩ := h.outbox.live tp' b hb
      refine ⟨hbtp, r', hkeep tp' r' _ hl ?_⟩
      rintro rfl
      exact h.revoke.outbox tp' hrevoking b hb
    · obtain ⟨r', hl⟩ := h.direct.live e he
      exact ⟨r', hkeep e.1 r' e.2 hl (h.revoke.direct tp hrevoking e he)⟩
    · have he' : e ∈ s.worker.guardedTracked := he
      rw [hguarded] at he'
      cases he'
    · cases hpc
      obtain ⟨hinst, hcov', hbound'⟩ := h.revoke.offsets _ hrevoke e (List.mem_cons_of_mem _ he)
      refine ⟨hinst, hcov', fun path p hmem => ?_⟩
      rcases mem_withCommits (v := s.trackers) (l := [(r, position)]) hmem with ⟨-, hnew⟩ | hold
      · have heq : e.1 = r := congrArg Prod.fst (List.mem_singleton.mp hnew)
        exact absurd (List.mem_map.mpr ⟨e, he, heq⟩) hnotin
      · exact hbound' path p hold
    · cases hpc
      exact hrest
  · exact h

theorem orderInv_cleanupRevoke (h : OrderInv c s) : OrderInv c s.cleanupRevokeSync := by
  unfold Poller.cleanupRevokeSync
  split
  · exact h
  · rename_i pc hrevoke
    have hget : ∀ tp, (pc.revokedTps.foldl Dict.erase s.offsetTrackers).get? tp =
        if tp ∈ pc.revokedTps then none else s.offsetTrackers.get? tp :=
      fun tp => Dict.get?_eraseAll pc.revokedTps s.offsetTrackers tp
    have hinst : ∀ tp r, ¬ Revoking s.revoke tp → s.offsetTrackers.get? tp = some r →
        (pc.revokedTps.foldl Dict.erase s.offsetTrackers).get? tp = some r := by
      intro tp r hno hr
      rw [hget, if_neg fun hmem => hno ⟨pc, hrevoke, hmem⟩]
      exact hr
    have hkeep : ∀ tp r o, ¬ Revoking s.revoke tp → s.trackers.Live tp r o →
        (⟨s.trackers.cores, pc.revokedTps.foldl Dict.erase s.offsetTrackers, s.log⟩ :
          TrackerView κ π).Live tp r o :=
      fun tp r o hno hl => ⟨hinst tp r hno hl.installed, hl.covered, hl.bound⟩
    have houtbox : ∀ tp b, s.coordinator.Outbox tp b → ¬ Revoking s.revoke tp :=
      fun tp b hb hrev => h.revoke.outbox tp hrev b hb
    have hdirect : ∀ e ∈ s.direct.commits, ¬ Revoking s.revoke e.1 :=
      fun e he hrev => h.revoke.direct e.1 hrev e he rfl
    have hguarded := WorkerPc.guardedTracked_eq_nil (not_guarded_of_guard h (by
      rw [h.guard.revoke (by rw [hrevoke]; simp)]; decide))
    refine ⟨h.disabled, ⟨h.log.ordered, h.log.bounded, fun tp r hr _ => ?_⟩,
      ⟨fun tp b hb => ?_, h.outbox.newer, h.outbox.leases⟩,
      ⟨fun e he => ?_, h.direct.newest, h.direct.nodup, h.direct.exclusive, fun e he => ?_,
       h.direct.trackedNodup⟩,
      ⟨h.worker.nodup, h.worker.flight, h.worker.leases, fun e he => ?_, h.worker.trackedNodup,
       fun e he => ?_⟩,
      ⟨fun tp ⟨pc', hpc', _⟩ => (by cases hpc'), fun tp ⟨pc', hpc', _⟩ => (by cases hpc'),
       fun pc' hpc' => (by cases hpc'), fun pc' hpc' => (by cases hpc')⟩,
      ⟨h.guard.worker, fun hne => absurd rfl hne⟩⟩
    · have hr' : (pc.revokedTps.foldl Dict.erase s.offsetTrackers).get? tp = some r := hr
      rw [hget] at hr'
      split at hr'
      · cases hr'
      · rename_i hnot
        refine h.log.unrevoked tp r hr' ?_
        rintro ⟨pc', hpc', hmem⟩
        rw [hrevoke] at hpc'
        cases hpc'
        exact hnot hmem
    · obtain ⟨htp, r, hl⟩ := h.outbox.live tp b hb
      exact ⟨htp, r, hkeep tp r _ (houtbox tp b hb) hl⟩
    · obtain ⟨r, hl⟩ := h.direct.live e he
      exact ⟨r, hkeep e.1 r e.2 (hdirect e he) hl⟩
    · obtain ⟨hmem, hr, hpos⟩ := h.direct.captured e he
      exact ⟨hmem, hinst e.tp e.r (hdirect _ hmem) hr, hpos⟩
    · obtain ⟨hmem, hpos, hr⟩ := h.worker.tracked e he
      exact ⟨hmem, hpos, fun hb => hinst _ _ (houtbox _ _ hb) (hr hb)⟩
    · have he' : e ∈ s.worker.guardedTracked := he
      rw [hguarded] at he'
      cases he'

/-- The loop of `prepare_revoke_sync` after the partitions `done`. -/
structure Prepared (s : Poller κ π) (done : List TopicPartition)
    (a : Poller κ π × List (TrackerRef × KafkaTopicPartition)) : Prop where
  settles : Poller.Settles s a.1
  grows : s.trackers.Grows a.1.trackers
  wellFormed : ∀ (r : TrackerRef) core, a.1.trackers.cores[r]? = some core → core.WellFormed
  offsets : ∀ e ∈ a.2, (∃ tp ∈ done, s.offsetTrackers.get? tp = some e.1) ∧
    (∃ core, a.1.trackers.cores[e.1]? = some core ∧ core.CoversUpTo (e.2.offset - 1)) ∧
    CommitBound s.log e.1 e.2.offset
  nodup : (a.2.map Prod.fst).Nodup

/-- The offset of a revoked partition is covered by its advanced tracker and beyond every position that
was committed before. -/
theorem revokeOffset_spec (h : OrderInv c s) {candidates : Dict TopicPartition CommitCandidate}
    (hcand : ∀ tp b, candidates.get? tp = some b → ∃ r, s.trackers.Live tp r b.safeOffset)
    {done : List TopicPartition} {a : Poller κ π × List (TrackerRef × KafkaTopicPartition)}
    (ha : Prepared s done a) {tp : TopicPartition} {r : TrackerRef} {t : OffsetTracker}
    (hr : s.offsetTrackers.get? tp = some r) (ht : a.1.trackers.cores[r]? = some t.core) :
    t.advanceHighWaterMark.core.CoversUpTo (Poller.revokeSafeOffset candidates tp t.advanceHighWaterMark) ∧
    ∀ path position, .committed path r position ∈ s.log →
      position.offset ≤ Poller.revokeSafeOffset candidates tp t.advanceHighWaterMark + 1 := by
  have hadv : t.core.Grows t.advanceHighWaterMark.core := by
    rw [OffsetTracker.core_advanceHighWaterMark]
    exact grows_commitThrough _ _
  have hlast : t.core.mark ≤ t.advanceHighWaterMark.lastCommittedOffset := by
    show _ ≤ t.advanceHighWaterMark.core.lastCommittedOffset
    rw [OffsetTracker.core_advanceHighWaterMark, OffsetTracker.Core.commitThrough_lastCommittedOffset]
    exact le_max_right _ _
  -- what is covered in the state before is covered by the tracker in the loop
  have hcovers : ∀ core o, s.trackers.cores[r]? = some core → core.CoversUpTo o → t.core.CoversUpTo o := by
    intro core o hcore hcov x hx
    obtain ⟨core', hcore', hg⟩ := ha.grows.cores r core hcore
    rw [ht] at hcore'
    cases hcore'
    exact hg.covers x (hcov x hx)
  have hle : t.advanceHighWaterMark.lastCommittedOffset ≤
      Poller.revokeSafeOffset candidates tp t.advanceHighWaterMark := by
    rcases Poller.revokeSafeOffset_cases
      (t := t.advanceHighWaterMark) with heq | ⟨b, -, -, hb, heq⟩
    · exact le_of_eq heq.symm
    · rw [heq]; exact hb
  refine ⟨?_, fun path position hmem => ?_⟩
  · rcases Poller.revokeSafeOffset_cases
      (t := t.advanceHighWaterMark) with heq | ⟨b, hb, -, -, heq⟩
    · rw [heq]
      exact t.advanceHighWaterMark.core.coversUpTo_lastCommittedOffset
    · obtain ⟨r', hl⟩ := hcand tp b hb
      have hrr : r' = r := Option.some.inj (hl.installed.symm.trans hr)
      obtain ⟨core, hcore, hcov⟩ := hl.covered
      rw [heq]
      exact fun x hx => hadv.covers x (hcovers core _ (hrr ▸ hcore) hcov x hx)
  · obtain ⟨core, hcore, hcov⟩ := h.log.bounded path r position hmem
    have hmark := (OffsetTracker.Core.le_mark_iff (ha.wellFormed r t.core ht) _).mpr
      (hcovers core _ hcore hcov)
    omega

theorem prepared_step (h : OrderInv c s) (hsafe : s.trackers.Safe c.dlq) (hrevoke : s.revoke = none)
    {candidates : Dict TopicPartition CommitCandidate}
    (hcand : ∀ tp b, candidates.get? tp = some b → ∃ r, s.trackers.Live tp r b.safeOffset)
    {done : List TopicPartition} {a : Poller κ π × List (TrackerRef × KafkaTopicPartition)}
    (ha : Prepared s done a) {tp : TopicPartition} (htp : tp ∉ done) :
    Prepared s (done ++ [tp]) (Poller.prepareRevokeOne c candidates a tp) := by
  have hdone : ∀ e ∈ a.2, ∃ tp' ∈ done ++ [tp], s.offsetTrackers.get? tp' = some e.1 := by
    intro e he
    obtain ⟨⟨tp', hmem, hr⟩, -⟩ := ha.offsets e he
    exact ⟨tp', List.mem_append_left _ hmem, hr⟩
  have hgrow := (Poller.trackerRun_prepareRevokeOne (V := fun _ _ => False) (E := fun _ => False) c
    candidates a tp).grows
  rcases Poller.prepareRevokeOne_cases c candidates a tp with ⟨-, heq⟩ | ⟨r, t, htracker, heq, hoffsets⟩
  · rw [heq]
    exact ⟨ha.settles, ha.grows, ha.wellFormed,
      fun e he => ⟨hdone e he, (ha.offsets e he).2⟩, ha.nodup⟩
  · obtain ⟨hr, ht⟩ := Poller.tracker?_eq_some.mp htracker
    rw [ha.settles.offsetTrackers] at hr
    have hcore := Poller.cores_eq_of_trackerAt ht
    have hsettles : Poller.Settles s (Poller.prepareRevokeOne c candidates a tp).1 := by
      rw [heq]
      exact ha.settles.trans ⟨rfl, rfl, rfl, rfl, rfl, rfl, rfl⟩
    have hcores : (Poller.prepareRevokeOne c candidates a tp).1.trackers.cores =
        a.1.trackers.cores.modify r (fun core => core.commitThrough core.mark) := by
      rw [heq]
      exact map_core_modify _ _ fun t => t.core_advanceHighWaterMark
    have hadvanced : (Poller.prepareRevokeOne c candidates a tp).1.trackers.cores[r]? =
        some t.advanceHighWaterMark.core := by
      have hcore' : a.1.trackers.cores[r]? = some t.core := hcore
      rw [hcores, List.getElem?_modify, hcore', OffsetTracker.core_advanceHighWaterMark]
      simp
    have hwf : ∀ (i : TrackerRef) core,
        (Poller.prepareRevokeOne c candidates a tp).1.trackers.cores[i]? = some core → core.WellFormed := by
      intro i core hi
      rw [hcores] at hi
      rcases getElem?_modify_cases hi with hold | ⟨rfl, core0, hcore0, rfl⟩
      · exact ha.wellFormed i core hold
      · exact (ha.wellFormed i core0 hcore0).commitThrough _
    have hold : ∀ e ∈ a.2, (∃ tp' ∈ done ++ [tp], s.offsetTrackers.get? tp' = some e.1) ∧
        (∃ core, (Poller.prepareRevokeOne c candidates a tp).1.trackers.cores[e.1]? = some core ∧
          core.CoversUpTo (e.2.offset - 1)) ∧ CommitBound s.log e.1 e.2.offset := by
      intro e he
      obtain ⟨-, ⟨core, hcore, hcov⟩, hbound⟩ := ha.offsets e he
      obtain ⟨core', hcore', hg⟩ := hgrow.cores e.1 core hcore
      exact ⟨hdone e he, ⟨core', hcore', fun x hx => hg.covers x (hcov x hx)⟩, hbound⟩
    rcases hoffsets with hoffsets | hoffsets
    · exact ⟨hsettles, ha.grows.trans hgrow, hwf, fun e he => hold e (hoffsets ▸ he), hoffsets ▸ ha.nodup⟩
    · obtain ⟨hcov, hbound⟩ := revokeOffset_spec h hcand ha hr hcore
      refine ⟨hsettles, ha.grows.trans hgrow, hwf, fun e he => ?_, ?_⟩
      · rw [hoffsets] at he
        rcases List.mem_append.mp he with he | he
        · exact hold e he
        · cases List.mem_singleton.mp he
          refine ⟨⟨tp, by simp, hr⟩, ⟨_, hadvanced, ?_⟩, fun path position hmem => ⟨hbound path position hmem, ?_⟩⟩
          · show OffsetTracker.Core.CoversUpTo _ (_ + 1 - 1)
            rw [Int.add_sub_cancel]
            exact hcov
          · rintro rfl
            refine h.log.unrevoked tp r hr ?_ position hmem
            rintro ⟨pc, hpc, -⟩
            rw [hrevoke] at hpc
            cases hpc
      · -- the tracker of a partition that comes up once is new in the list
        rw [hoffsets, List.map_append]
        refine List.nodup_append.mpr ⟨ha.nodup, by simp, fun r1 hr1 r2 hr2 heq => ?_⟩
        obtain ⟨e, he, rfl⟩ := List.mem_map.mp hr1
        obtain ⟨⟨tp', hmem, hr'⟩, -⟩ := ha.offsets e he
        have hr2' : r2 = r := by simpa using hr2
        have hee : e.1 = r := heq.trans hr2'
        exact htp (installed_inj hsafe (hee ▸ hr' : s.trackers.installed.get? tp' = some r) hr ▸ hmem)

theorem prepared_foldl (h : OrderInv c s) (hsafe : s.trackers.Safe c.dlq) (hrevoke : s.revoke = none)
    {candidates : Dict TopicPartition CommitCandidate}
    (hcand : ∀ tp b, candidates.get? tp = some b → ∃ r, s.trackers.Live tp r b.safeOffset)
    (l : List TopicPartition) :
    ∀ (done : List TopicPartition) (a : Poller κ π × List (TrackerRef × KafkaTopicPartition)),
      Prepared s done a → (done ++ l).Nodup →
      Prepared s (done ++ l) (l.foldl (Poller.prepareRevokeOne c candidates) a) := by
  induction l with
  | nil => intro done a ha _; rw [List.append_nil]; exact ha
  | cons tp l ih =>
    intro done a ha hn
    have htp : tp ∉ done := by
      intro hmem
      exact (List.nodup_append.mp hn).2.2 tp hmem tp List.mem_cons_self rfl
    have hstep := prepared_step h hsafe hrevoke hcand ha htp
    have hassoc : done ++ tp :: l = (done ++ [tp]) ++ l := by simp
    rw [hassoc] at hn ⊢
    exact ih (done ++ [tp]) _ hstep hn

theorem orderInv_prepareRevoke (h : OrderInv c s) (hsafe : s.trackers.Safe c.dlq)
    (hcover : s.trackers.CoverInv) {tps : List TopicPartition} (ho : Orderly s (.prepareRevoke tps))
    (hg : s.guard = .consume) (hrevoke : s.revoke = none) : OrderInv c (s.prepareRevokeSync c tps) := by
  obtain ⟨hnodup, hfree⟩ := ho
  have htrackers := Poller.trackers_stopRevoked c s tps
  have hshrinks : s.coordinator.Shrinks (s.stopRevoked c tps).coordinator := by
    unfold Poller.stopRevoked
    dsimp only
    split
    · exact CommitCoordinator.shrinks_stopAcceptingPartitions _ tps
    · exact .refl _
  have h1 : OrderInv c (s.stopRevoked c tps) :=
    h.frame (keeps_of_trackers htrackers) hshrinks rfl rfl rfl rfl
  have hsafe1 : (s.stopRevoked c tps).trackers.Safe c.dlq := htrackers ▸ hsafe
  have hcand : ∀ tp b, (if c.coordinatorEnabled then s.coordinator.remainingCandidates tps
      else .empty).get? tp = some b → ∃ r, (s.stopRevoked c tps).trackers.Live tp r b.safeOffset := by
    intro tp b hb
    split at hb
    · obtain ⟨htp, tp', hout⟩ := CommitCoordinator.remainingCandidates_spec hb
      obtain ⟨htp', r, hl⟩ := h.outbox.live tp' b hout
      rw [← htp, htp', htrackers]
      exact ⟨r, hl⟩
    · cases hb
  have hstart : Prepared (s.stopRevoked c tps) [] (s.stopRevoked c tps, []) :=
    ⟨.refl _, .refl _, fun r core hr => hcover.wellFormed r core (htrackers ▸ hr), fun e he => (by cases he),
     List.nodup_nil⟩
  have hprep := prepared_foldl h1 hsafe1 hrevoke hcand tps [] _ hstart hnodup
  have hrun := Poller.trackerRun_prepareRevokeSync (V := fun _ _ => False) (E := fun _ => False) c s tps
  obtain ⟨hcommits, hordered⟩ := commits_of_run hrun
  have hsettles := hprep.settles
  have hkeeps : s.trackers.Keeps (s.prepareRevokeSync c tps).trackers := by
    refine keeps_of_run hrun ?_
    exact hsettles.offsetTrackers
  -- stopping leaves nothing of the revoked partitions in the outbox
  have hstopped : ∀ tp ∈ tps, ∀ b, ¬ (s.stopRevoked c tps).coordinator.Outbox tp b := by
    rintro tp hmem b (hb | hb)
    · by_cases henabled : c.coordinatorEnabled = true
      · obtain ⟨hp, -⟩ := CommitCoordinator.stopAcceptingPartitions_spec tps s.coordinator
        simp only [Poller.stopRevoked, henabled, if_true] at hb
        rw [hp, if_pos hmem] at hb
        cases hb
      · exact h1.disabled (Bool.eq_false_of_not_eq_true henabled) tp b (.inl hb)
    · have hnone := (hfree tp hmem).2
      rw [hshrinks.inFlight tp b hb] at hnone
      cases hnone
  have hcoord : (s.prepareRevokeSync c tps).coordinator = (s.stopRevoked c tps).coordinator :=
    hsettles.coordinator
  have hdirect : (s.prepareRevokeSync c tps).direct = s.direct := hsettles.direct
  have hworker : (s.prepareRevokeSync c tps).worker = s.worker := hsettles.worker
  have hguard : (s.prepareRevokeSync c tps).guard = s.guard := hsettles.guard
  have hlog : (s.prepareRevokeSync c tps).log = s.log := hsettles.log
  have hshrinks' : s.coordinator.Shrinks (s.prepareRevokeSync c tps).coordinator := hcoord ▸ hshrinks
  have hout : ∀ tp b, (s.prepareRevokeSync c tps).coordinator.Outbox tp b → s.coordinator.Outbox tp b :=
    fun _ _ => hshrinks'.outbox
  have hframe := h.log.frame hkeeps
  refine ⟨fun hc tp b hb => h.disabled hc tp b (hout tp b hb), ⟨hframe.ordered, hframe.bounded,
    fun tp r hr _ => hframe.unrevoked tp r hr ?_⟩, h.outbox.frame hkeeps hshrinks',
    hdirect ▸ h.direct.frame hkeeps hout, ?_, ⟨?_, ?_, ?_, ?_⟩, ⟨?_, fun _ => hguard.trans hg⟩⟩
  · rintro ⟨pc, hpc, -⟩
    rw [hrevoke] at hpc
    cases hpc
  · rw [hdirect, hworker]
    exact h.worker.frame hkeeps hshrinks'
  · rintro tp ⟨pc, hpc, hmem⟩ b hb
    cases hpc
    exact hstopped tp hmem b (hcoord ▸ hb)
  · rintro tp ⟨pc, hpc, hmem⟩ e he heq
    cases hpc
    rw [hdirect] at he
    exact (hfree tp hmem).1 (List.mem_map.mpr ⟨e, he, heq⟩)
  · intro pc hpc e he
    cases hpc
    obtain ⟨⟨tp, hmem, hr⟩, hcov, hbound⟩ := hprep.offsets e he
    refine ⟨⟨tp, hmem, hkeeps.kept tp e.1 hr⟩, hcov, ?_⟩
    show CommitBound (s.prepareRevokeSync c tps).log e.1 e.2.offset
    rw [hlog]
    exact hbound
  · intro pc hpc
    cases hpc
    exact hprep.nodup
  · rw [hworker, hguard]
    exact h.guard.worker

end Actions

/-! ## Whole runs -/

theorem orderInv_next {c : PollerConfig} {s : Poller κ π} (hsafety : SafetyInv c.dlq s)
    (hcover : s.trackers.CoverInv) (h : OrderInv c s) {a : PollerAction κ π}
    (he : (pollerMachine κ π c).enabled s a) (ho : Orderly s a) :
    OrderInv c ((pollerMachine κ π c).next s a) := by
  have hsafe := hsafety.safe
  obtain ⟨hready, -⟩ := he
  cases a with
  | consumeBegin => exact orderInv_consumeBegin h (of_decide_eq_true hready)
  | consumeEnd =>
    obtain ⟨hg, hr⟩ := Bool.and_eq_true_iff.mp hready
    exact orderInv_consumeEnd h (of_decide_eq_true hg) (of_decide_eq_true hr)
  | assign committed partitions => exact orderInv_assign h committed partitions ho
  | prepareRevoke tps =>
    obtain ⟨hg, hr⟩ := Bool.and_eq_true_iff.mp hready
    exact orderInv_prepareRevoke h hsafe hcover ho (of_decide_eq_true hg) (of_decide_eq_true hr)
  | revokeCommit => exact orderInv_revokeCommit h hsafe
  | cleanupRevoke => exact orderInv_cleanupRevoke h
  | dispatch messages =>
    have hrun := Poller.trackerRun_dispatch (V := fun _ _ => False) (E := fun _ => False) c
      (fun _ he => he) s messages
    exact h.frame (keeps_of_run hrun rfl) (.refl _) rfl rfl rfl rfl
  | schedule env =>
    have hframe : ({ s with wm := s.wm.schedule c.workManager env } : Poller κ π).trackers = s.trackers :=
      Poller.trackers_of_frame (WorkManager.trackerFrame_schedule s.wm hsafety.shared) rfl rfl
    exact h.frame (keeps_of_trackers hframe) (.refl _) rfl rfl rfl rfl
  | drain i =>
    have hrun := Poller.trackerRun_drain (V := fun _ _ => False) (E := fun _ => True) c s hsafety.shared i
      fun _ _ => trivial
    obtain ⟨h1, h2, h3, h4, h5, h6⟩ := offsetTrackers_drain (c := c) s i
    show OrderInv c (s.drain c i)
    exact h.frame (keeps_of_run hrun h1) (h2 ▸ .refl _) h3 h4 h5 h6
  | scan force => exact orderInv_scan h hcover ho
  | route => exact orderInv_route h hsafe
  | capture => exact orderInv_capture h
  | directCommit outcome =>
    obtain ⟨hg, -⟩ := Bool.and_eq_true_iff.mp hready
    exact orderInv_directCommit h hsafe (of_decide_eq_true hg) outcome
  | directSettle => exact orderInv_directSettle h
  | workerStart => exact orderInv_workerStart h
  | workerPrepare => exact orderInv_workerPrepare h
  | workerCheck =>
    obtain ⟨hg, -⟩ := Bool.and_eq_true_iff.mp hready
    exact orderInv_workerCheck h (of_decide_eq_true hg)
  | workerCommit outcome => exact orderInv_workerCommit h hsafe outcome
  | workerResume => exact orderInv_workerResume h
  | workerSettle => exact orderInv_workerSettle h
  | workerRetain => exact orderInv_workerRetain h

theorem orderInv_init (c : PollerConfig)
    (circuit : Option (PoisonMessageCircuitBreaker (SubmitKey κ))) :
    OrderInv c (Poller.new circuit : Poller κ π) := by
  have hempty : ∀ tp b, ¬ (Poller.new circuit : Poller κ π).coordinator.Outbox tp b := by
    rintro tp b (hb | hb) <;> cases hb
  refine ⟨fun _ => hempty, ⟨trivial, fun path r position hmem => ?_, fun tp r hr => ?_⟩,
    ⟨fun tp b hb => absurd hb (hempty tp b), fun tp b p hb => ?_, fun tp b hb => absurd hb (hempty tp b)⟩,
    directPart_idle, workerPart_empty rfl rfl rfl,
    ⟨fun tp htp => ?_, fun tp htp => ?_, fun pc hpc => ?_, fun pc hpc => ?_⟩,
    ⟨fun htrue => ?_, fun hne => absurd rfl hne⟩⟩
  · cases hmem
  · cases hr
  · cases hb
  · obtain ⟨pc, hpc, -⟩ := htp; cases hpc
  · obtain ⟨pc, hpc, -⟩ := htp; cases hpc
  · cases hpc
  · cases hpc
  · cases htrue

theorem orderInv_reachable {c : PollerConfig} {s : Poller κ π}
    (h : (pollerMachine κ π c).ReachableBy Orderly s) : OrderInv c s := by
  induction h with
  | start hinit =>
    obtain ⟨circuit, rfl⟩ := hinit
    exact orderInv_init c circuit
  | next hreach he ho ih =>
    exact orderInv_next (safetyInv_reachable hreach) (coverInv_reachable hreach) ih he ho

/-- **Commits in order.** In every run whose rebalances do not overlap commits of their partitions, the
positions that reach the broker for one assignment never go down, and none follows the revoke commit
of the assignment. -/
theorem commits_ordered {c : PollerConfig} {s : Poller κ π}
    (h : (pollerMachine κ π c).ReachableBy Orderly s) {newer older : List (PollerEntry κ π)}
    {path : CommitPath} {r : TrackerRef} {position : KafkaTopicPartition}
    (hlog : s.log = newer ++ .committed path r position :: older) {path' : CommitPath}
    {position' : KafkaTopicPartition} (hmem : .committed path' r position' ∈ older) :
    position'.offset ≤ position.offset ∧ path' ≠ .revoke := by
  have hordered : Ordered s.log := (orderInv_reachable h).log.ordered
  rw [hlog] at hordered
  exact ordered_split newer hordered path' position' hmem

/-! ## A direct commit that waits for the guard -/

/-- The action neither assigns, revokes nor scans. -/
def PollerAction.plain : PollerAction κ π → Bool
  | .assign _ _ => false
  | .prepareRevoke _ => false
  | .scan _ => false
  | _ => true

theorem orderly_of_plain {s : Poller κ π} {a : PollerAction κ π} (h : a.plain = true) : Orderly s a := by
  cases a <;> trivial

theorem reachable_plain {c : PollerConfig} {s : Poller κ π}
    (hs : (pollerMachine κ π c).ReachableBy Orderly s) (l : List (PollerAction κ π))
    (hready : s.readyRun c l = true) (hplain : l.all PollerAction.plain = true) (hlaw : ∀ a ∈ l, a.Lawful) :
    (pollerMachine κ π c).ReachableBy Orderly ((pollerMachine κ π c).run s l) := by
  refine (pollerMachine κ π c).reachableBy_run l hs (allowed_of_readyRun l hready hlaw ?_)
  intro newer a older heq
  exact orderly_of_plain (List.all_eq_true.mp hplain a (by rw [heq]; simp))

section Examples

abbrev sampleMachine : Machine (Poller Nat Unit) (PollerAction Nat Unit) :=
  pollerMachine Nat Unit (sampleConfig false)

/-- The partition is owned. -/
def owned : Poller Nat Unit :=
  sampleMachine.next (sampleMachine.next (.new none) .consumeBegin)
    (.assign (some [⟨"t", 0, 5, none⟩]) [⟨"t", 0, -1001, none⟩])

/-- One message is processed. -/
def completed : Poller Nat Unit :=
  sampleMachine.run owned
    (.consumeEnd :: sampleDispatch [5] ++ [sampleDrain [sampleSuccess 0 5]])

/-- The message is committed, and the next `consume` has begun. -/
def committed : Poller Nat Unit :=
  sampleMachine.run (sampleMachine.next completed (.scan true))
    [.route, .capture, .directCommit .ok, .directSettle, .consumeBegin]

/-- The partition is revoked. -/
def revoked : Poller Nat Unit :=
  sampleMachine.next (sampleMachine.next committed (.prepareRevoke [⟨"t", 0⟩])) .revokeCommit

theorem orderly_owned : sampleMachine.ReachableBy Orderly owned := by
  refine .next (.next (.start ⟨none, rfl⟩) ⟨by decide, trivial⟩ trivial) ⟨by decide, trivial⟩ ?_
  show ∀ p ∈ _, _ = none
  decide

theorem orderly_completed : sampleMachine.ReachableBy Orderly completed := by
  refine reachable_plain orderly_owned _ (by decide) (by decide) ?_
  simp [sampleDispatch, sampleDrain, PollerAction.Lawful, acceptsPrefix_acceptingEnv]

theorem orderly_scanned : sampleMachine.ReachableBy Orderly (sampleMachine.next completed (.scan true)) := by
  refine .next orderly_completed ⟨by decide, trivial⟩ ?_
  have hrevoke : completed.revoke = none := by decide
  have hidle : completed.wm.getMinInFlightOffset ⟨"t", 0⟩ = none := by decide
  have hcommits : completed.commitsToMake true = [(⟨"t", 0⟩, 5)] := by decide
  intro e he
  rw [hcommits] at he
  cases List.mem_singleton.mp he
  refine ⟨?_, fun r t _ m hm => ?_⟩
  · rintro ⟨pc, hpc, -⟩
    exact absurd (hrevoke.symm.trans hpc) (by simp)
  · exact absurd (hidle.symm.trans hm) (by simp)

theorem orderly_committed : sampleMachine.ReachableBy Orderly committed :=
  reachable_plain orderly_scanned _ (by decide) (by decide) (by simp [PollerAction.Lawful])

theorem orderly_revoked : sampleMachine.ReachableBy Orderly revoked := by
  refine .next (.next orderly_committed ⟨by decide, trivial⟩ ?_) ⟨by decide, trivial⟩ trivial
  show _ ∧ ∀ tp ∈ _, _ ∧ _
  decide

theorem commits_ordered_revoked :
    ∃ position position' older, revoked.log = .committed .revoke 0 position :: older ∧
      .committed .direct 0 position' ∈ older ∧ position'.offset ≤ position.offset := by
  have hlog : revoked.log = [] ++ .committed .revoke 0 ⟨"t", 0, 6, some []⟩ :: revoked.log.tail := by decide
  have hmem : .committed .direct 0 ⟨"t", 0, 6, some []⟩ ∈ revoked.log.tail := by decide
  exact ⟨_, _, _, hlog, hmem, (commits_ordered orderly_revoked hlog hmem).1⟩

/-- The partition is revoked while the captured commit waits for the guard. -/
def revokeWhileCaptured : List (PollerAction Nat Unit) :=
  sampleAssign 5 ++ sampleDispatch [5] ++
    [sampleDrain [sampleSuccess 0 5], .scan true, .route, .capture, .consumeBegin,
     .prepareRevoke [⟨"t", 0⟩], .revokeCommit, .cleanupRevoke, .consumeEnd, .directCommit .ok]

/-- **The late commit.** A direct commit of an assignment reaches the broker after its revoke commit. -/
theorem direct_commit_after_revoke :
    ∃ s : Poller Nat Unit, (pollerMachine Nat Unit (sampleConfig false)).Reachable s ∧
      ∃ position position' older, s.log = .committed .direct 0 position :: older ∧
        .committed .revoke 0 position' ∈ older := by
  let s := (pollerMachine Nat Unit (sampleConfig false)).run (.new none) revokeWhileCaptured
  refine ⟨s, reachable_of_readyRun (by decide) ?_, ⟨"t", 0, 6, some []⟩, ⟨"t", 0, 6, some []⟩, s.log.tail,
    by decide, by decide⟩
  simp [revokeWhileCaptured, sampleAssign, sampleDispatch, sampleDrain, PollerAction.Lawful,
    acceptsPrefix_acceptingEnv]

end Examples

end PyrallelConsumer
