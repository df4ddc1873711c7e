import PyrallelConsumer.CommitProgress

/-!
# PyrallelConsumer.CommitLive

The offsets that can still reach the broker, and what keeps them in order. An offset is live for the
tracker installed for its partition when the tracker covers everything up to it, no position beyond it
was committed for that tracker, and the tracker's revoke commit has not happened. The paths hold live
offsets only, later ones in later places: in flight, pending, direct.

* `Ordered` — the positions of one assignment never go down, and the revoke commit is its last one.
* `OrderInv.frame` — the invariant survives whatever neither commits nor forgets a tracker.
-/

set_option linter.unusedSectionVars false

namespace PyrallelConsumer

variable {κ π : Type} [DecidableEq κ]

/-! ## Histories of commits -/

/-- No position of tracker `r` is beyond the limit, and none was committed by a revoke. -/
def CommitBound (log : List (PollerEntry κ π)) (r : TrackerRef) (limit : Int) : Prop :=
  ∀ path position, .committed path r position ∈ log → position.offset ≤ limit ∧ path ≠ .revoke

def Ordered : List (PollerEntry κ π) → Prop
  | [] => True
  | .committed _ r position :: log => CommitBound log r position.offset ∧ Ordered log
  | .installed _ _ :: log => Ordered log
  | .submitted _ _ :: log => Ordered log
  | .published _ _ _ :: log => Ordered log
  | .pended _ _ :: log => Ordered log
  | .marked _ _ _ :: log => Ordered log

theorem ordered_split (newer : List (PollerEntry κ π)) {path : CommitPath} {r : TrackerRef}
    {position : KafkaTopicPartition} {older : List (PollerEntry κ π)}
    (h : Ordered (newer ++ .committed path r position :: older)) :
    CommitBound older r position.offset := by
  induction newer with
  | nil => exact h.1
  | cons entry newer ih =>
    cases entry with
    | committed => exact ih h.2
    | installed => exact ih h
    | submitted => exact ih h
    | published => exact ih h
    | pended => exact ih h
    | marked => exact ih h

/-- The trackers grow and the history gets no commit: installed trackers stay, and new ones are new
objects. -/
structure TrackerView.Keeps (v v' : TrackerView κ π) : Prop where
  grows : v.Grows v'
  commits : ∀ path r position, .committed path r position ∈ v'.log → .committed path r position ∈ v.log
  ordered : Ordered v.log → Ordered v'.log
  kept : ∀ tp r, v.installed.get? tp = some r → v'.installed.get? tp = some r
  fresh : ∀ tp r, v'.installed.get? tp = some r → v.installed.get? tp = some r ∨ v.cores.length ≤ r

theorem TrackerView.Keeps.refl (v : TrackerView κ π) : v.Keeps v :=
  ⟨.refl v, fun _ _ _ h => h, id, fun _ _ h => h, fun _ _ h => .inl h⟩

/-- A sequence of changes that commits nothing. -/
theorem commits_of_run {c : DlqConfig} {E : CompletionEvent → Prop} {v v' : TrackerView κ π}
    (h : TrackerRun c (fun _ _ => False) E v v') :
    (∀ path r position, .committed path r position ∈ v'.log → .committed path r position ∈ v.log) ∧
    (Ordered v.log → Ordered v'.log) := by
  refine TrackerRun.invariant
    (I := fun u => (∀ path r position, .committed path r position ∈ u.log →
      .committed path r position ∈ v.log) ∧ (Ordered v.log → Ordered u.log))
    h ⟨fun _ _ _ h => h, id⟩ fun u w _ hu hstep => ?_
  have hcons : ∀ entry : PollerEntry κ π, (∀ path r position, entry ≠ .committed path r position) →
      ∀ path r position, .committed path r position ∈ entry :: u.log →
        .committed path r position ∈ v.log := by
    intro entry hne path r position hmem
    rcases List.mem_cons.mp hmem with heq | hold
    · exact absurd heq.symm (hne path r position)
    · exact hu.1 path r position hold
  cases hstep with
  | installed core hwf hepoch hE => exact ⟨hcons _ (by simp), hu.2⟩
  | forgot tps hE => exact hu
  | submitted r x hr hE => exact ⟨hcons _ (by simp), hu.2⟩
  | published r e outcome core hcur hneeds hE => exact ⟨hcons _ (by simp), hu.2⟩
  | pended r e core hcur hneeds hE => exact ⟨hcons _ (by simp), hu.2⟩
  | marked r e changed core hcur hE hgate hchanged => exact ⟨hcons _ (by simp), hu.2⟩
  | advanced tp r core o hr hcore ho => exact hu
  | committed path r position hV => exact hV.elim

/-! ## Live offsets -/

structure TrackerView.Live (v : TrackerView κ π) (tp : TopicPartition) (r : TrackerRef) (o : Int) :
    Prop where
  installed : v.installed.get? tp = some r
  covered : ∃ core, v.cores[r]? = some core ∧ core.CoversUpTo o
  bound : CommitBound v.log r (o + 1)

theorem TrackerView.Live.keeps {v v' : TrackerView κ π} {tp : TopicPartition} {r : TrackerRef} {o : Int}
    (h : v.Live tp r o) (hk : v.Keeps v') : v'.Live tp r o := by
  obtain ⟨core, hcore, hcov⟩ := h.covered
  obtain ⟨core', hcore', hg⟩ := hk.grows.cores r core hcore
  exact ⟨hk.kept tp r h.installed, ⟨core', hcore', fun x hx => hg.covers x (hcov x hx)⟩,
    fun path position hmem => h.bound path position (hk.commits path r position hmem)⟩

namespace CommitCoordinator

/-- The candidate is pending or in flight. -/
def Outbox (k : CommitCoordinator) (tp : TopicPartition) (b : CommitCandidate) : Prop :=
  k.pending.get? tp = some b ∨ k.inFlight.get? tp = some b

/-- Candidates may have gone, and lease ids are used up. -/
structure Shrinks (k k' : CommitCoordinator) : Prop where
  pending : ∀ tp b, k'.pending.get? tp = some b → k.pending.get? tp = some b
  inFlight : ∀ tp b, k'.inFlight.get? tp = some b → k.inFlight.get? tp = some b
  leaseCounter : k.leaseCounter ≤ k'.leaseCounter

theorem Shrinks.refl (k : CommitCoordinator) : k.Shrinks k := ⟨fun _ _ h => h, fun _ _ h => h, Nat.le_refl _⟩

theorem Shrinks.outbox {k k' : CommitCoordinator} (h : k.Shrinks k') {tp : TopicPartition}
    {b : CommitCandidate} (hb : k'.Outbox tp b) : k.Outbox tp b :=
  hb.imp (h.pending tp b) (h.inFlight tp b)

theorem shrinks_of_erased {k k' : CommitCoordinator} {tps : List TopicPartition}
    (hp : ∀ tp, k'.pending.get? tp = if tp ∈ tps then none else k.pending.get? tp)
    (hf : ∀ tp b, k'.inFlight.get? tp = some b → k.inFlight.get? tp = some b)
    (hc : k'.leaseCounter = k.leaseCounter) : k.Shrinks k' := by
  refine ⟨fun tp b hb => ?_, hf, Nat.le_of_eq hc.symm⟩
  rw [hp] at hb
  split at hb
  · cases hb
  · exact hb

theorem shrinks_cancelLeases (k : CommitCoordinator) (tps : List TopicPartition) :
    k.Shrinks (k.cancelLeases tps) := by
  obtain ⟨hp, hf, -, hc⟩ := cancelLeases_spec tps k
  refine shrinks_of_erased hp (fun tp b hb => ?_) hc
  rw [hf] at hb
  split at hb
  · cases hb
  · exact hb

theorem not_outbox_cancelLeases {k : CommitCoordinator} {tps : List TopicPartition} {tp : TopicPartition}
    (h : tp ∈ tps) (b : CommitCandidate) : ¬ (k.cancelLeases tps).Outbox tp b := by
  obtain ⟨hp, hf, -, -⟩ := cancelLeases_spec tps k
  rintro (hb | hb)
  · rw [hp, if_pos h] at hb; cases hb
  · rw [hf, if_pos h] at hb; cases hb

theorem shrinks_stopAcceptingPartitions (k : CommitCoordinator) (tps : List TopicPartition) :
    k.Shrinks (k.stopAcceptingPartitions tps) := by
  obtain ⟨hp, hf, -, hc⟩ := stopAcceptingPartitions_spec tps k
  exact shrinks_of_erased hp (fun tp b hb => hf ▸ hb) hc

theorem shrinks_clearInFlight (k : CommitCoordinator) : k.Shrinks k.clearInFlight :=
  ⟨fun _ _ h => h, fun _ _ h => (by cases h), Nat.le_refl _⟩

theorem shrinks_abortBatch (k : CommitCoordinator) (batch : List CommitCandidate) :
    k.Shrinks (k.abortBatch batch) := by
  obtain ⟨hp, hf, -, hc⟩ := abortBatch_fields k batch
  refine ⟨fun tp b hb => hp ▸ hb, fun tp b hb => ?_, Nat.le_of_eq hc.symm⟩
  rw [hf] at hb
  cases hb

end CommitCoordinator

/-! ## The parts of the invariant -/

/-- The partition is being revoked. -/
def Revoking (revoke : Option RevokePc) (tp : TopicPartition) : Prop :=
  ∃ pc, revoke = some pc ∧ tp ∈ pc.revokedTps

structure LogPart (v : TrackerView κ π) (revoke : Option RevokePc) : Prop where
  ordered : Ordered v.log
  bounded : ∀ path r position, .committed path r position ∈ v.log →
    ∃ core, v.cores[r]? = some core ∧ core.CoversUpTo (position.offset - 1)
  unrevoked : ∀ tp r, v.installed.get? tp = some r → ¬ Revoking revoke tp →
    ∀ position, .committed .revoke r position ∉ v.log

structure OutboxPart (v : TrackerView κ π) (k : CommitCoordinator) : Prop where
  live : ∀ tp b, k.Outbox tp b → b.tp = tp ∧ ∃ r, v.Live tp r b.safeOffset
  newer : ∀ tp b p, k.inFlight.get? tp = some b → k.pending.get? tp = some p → b.safeOffset ≤ p.safeOffset
  leases : ∀ tp b, k.Outbox tp b → b.leaseId ≤ k.leaseCounter

/-- The synchronous part of the direct path, for which the coordinator was given up. -/
def DirectPc.Late : DirectPc → Prop
  | .idle => False
  | .scanned _ => False
  | .fallback _ => True
  | .captured _ _ _ => True
  | .acked _ _ => True

structure DirectPart (v : TrackerView κ π) (k : CommitCoordinator) (d : DirectPc) : Prop where
  live : ∀ e ∈ d.commits, ∃ r, v.Live e.1 r e.2
  newest : ∀ e ∈ d.commits, ∀ b, k.Outbox e.1 b → b.safeOffset ≤ e.2
  nodup : (d.commits.map Prod.fst).Nodup
  exclusive : d.Late → ∀ e ∈ d.commits, ∀ b, ¬ k.Outbox e.1 b
  captured : ∀ e ∈ d.tracked, (e.tp, e.safeOffset) ∈ d.commits ∧ v.installed.get? e.tp = some e.r ∧
    e.position.offset = e.safeOffset + 1
  trackedNodup : (d.tracked.map (·.tp)).Nodup

/-- The batch that the worker has not settled yet. -/
def WorkerPc.batch : WorkerPc → List CommitCandidate
  | .idle => []
  | .started batch => batch
  | .prepared batch _ => batch
  | .guarded batch _ => batch
  | .returned batch _ => batch
  | .settling _ => []
  | .retaining batch _ _ => batch

/-- What the worker commits while it holds the guard. -/
def WorkerPc.guardedTracked : WorkerPc → List Tracked
  | .guarded _ tracked => tracked
  | _ => []

structure WorkerPart (v : TrackerView κ π) (k : CommitCoordinator) (d : DirectPc) (w : WorkerPc) :
    Prop where
  nodup : (w.batch.map (·.tp)).Nodup
  flight : w.batch ≠ [] → ∀ tp b, k.inFlight.get? tp = some b → b ∈ w.batch
  leases : ∀ b ∈ w.batch, b.leaseId ≤ k.leaseCounter ∧
    ∀ b', k.Outbox b.tp b' → b'.leaseId = b.leaseId → b' = b
  tracked : ∀ e ∈ w.tracked, e.candidate ∈ w.batch ∧ e.position.offset = e.candidate.safeOffset + 1 ∧
    (k.Outbox e.candidate.tp e.candidate → v.installed.get? e.candidate.tp = some e.r)
  trackedNodup : (w.tracked.map (·.candidate.tp)).Nodup
  guarded : ∀ e ∈ w.guardedTracked, v.Live e.candidate.tp e.r e.candidate.safeOffset ∧
    (∀ p, k.pending.get? e.candidate.tp = some p → e.candidate.safeOffset ≤ p.safeOffset) ∧
    ∀ x ∈ d.commits, x.1 = e.candidate.tp → e.candidate.safeOffset ≤ x.2

structure RevokePart (v : TrackerView κ π) (k : CommitCoordinator) (d : DirectPc)
    (revoke : Option RevokePc) : Prop where
  outbox : ∀ tp, Revoking revoke tp → ∀ b, ¬ k.Outbox tp b
  direct : ∀ tp, Revoking revoke tp → ∀ e ∈ d.commits, e.1 ≠ tp
  offsets : ∀ pc, revoke = some pc → ∀ e ∈ pc.offsetsToCommit,
    (∃ tp ∈ pc.revokedTps, v.installed.get? tp = some e.1) ∧
    (∃ core, v.cores[e.1]? = some core ∧ core.CoversUpTo (e.2.offset - 1)) ∧
    CommitBound v.log e.1 e.2.offset
  nodup : ∀ pc, revoke = some pc → (pc.offsetsToCommit.map Prod.fst).Nodup

def WorkerPc.isGuarding : WorkerPc → Bool
  | .guarded _ _ => true
  | _ => false

theorem WorkerPc.guardedTracked_eq_nil {w : WorkerPc} (h : w.isGuarding = false) :
    w.guardedTracked = [] := by
  cases w <;> first | rfl | cases h

/-- Who holds the operation guard. -/
structure GuardPart (guard : Guard) (w : WorkerPc) (revoke : Option RevokePc) : Prop where
  worker : w.isGuarding = true → guard = .worker
  revoke : revoke ≠ none → guard = .consume

structure OrderInv (c : PollerConfig) (s : Poller κ π) : Prop where
  disabled : c.coordinatorEnabled = false → ∀ tp b, ¬ s.coordinator.Outbox tp b
  log : LogPart s.trackers s.revoke
  outbox : OutboxPart s.trackers s.coordinator
  direct : DirectPart s.trackers s.coordinator s.direct
  worker : WorkerPart s.trackers s.coordinator s.direct s.worker
  revoke : RevokePart s.trackers s.coordinator s.direct s.revoke
  guard : GuardPart s.guard s.worker s.revoke

/-! ## Frames -/

section Frames

variable {v v' : TrackerView κ π} {k k' : CommitCoordinator} {d : DirectPc} {w : WorkerPc}
  {revoke : Option RevokePc}

theorem LogPart.frame (h : LogPart v revoke) (hk : v.Keeps v') : LogPart v' revoke := by
  refine ⟨hk.ordered h.ordered, fun path r position hmem => ?_, fun tp r hr hno position hmem => ?_⟩
  · obtain ⟨core, hcore, hcov⟩ := h.bounded path r position (hk.commits path r position hmem)
    obtain ⟨core', hcore', hg⟩ := hk.grows.cores r core hcore
    exact ⟨core', hcore', fun x hx => hg.covers x (hcov x hx)⟩
  · have hold := hk.commits _ _ _ hmem
    rcases hk.fresh tp r hr with hinst | hfresh
    · exact h.unrevoked tp r hinst hno position hold
    · -- a new tracker object has no history
      obtain ⟨core, hcore, -⟩ := h.bounded _ _ _ hold
      exact absurd (List.getElem?_eq_some_iff.mp hcore).choose (Nat.not_lt.mpr hfresh)

theorem OutboxPart.frame (h : OutboxPart v k) (hk : v.Keeps v') (hs : k.Shrinks k') :
    OutboxPart v' k' := by
  refine ⟨fun tp b hb => ?_, fun tp b p hb hp => h.newer tp b p (hs.inFlight tp b hb) (hs.pending tp p hp),
    fun tp b hb => Nat.le_trans (h.leases tp b (hs.outbox hb)) hs.leaseCounter⟩
  obtain ⟨htp, r, hlive⟩ := h.live tp b (hs.outbox hb)
  exact ⟨htp, r, hlive.keeps hk⟩

theorem DirectPart.frame (h : DirectPart v k d) (hk : v.Keeps v')
    (hs : ∀ tp b, k'.Outbox tp b → k.Outbox tp b) : DirectPart v' k' d := by
  refine ⟨fun e he => ?_, fun e he b hb => h.newest e he b (hs _ _ hb), h.nodup,
    fun hlate e he b hb => h.exclusive hlate e he b (hs _ _ hb), fun e he => ?_, h.trackedNodup⟩
  · obtain ⟨r, hlive⟩ := h.live e he
    exact ⟨r, hlive.keeps hk⟩
  · obtain ⟨hmem, hr, hpos⟩ := h.captured e he
    exact ⟨hmem, hk.kept e.tp e.r hr, hpos⟩

theorem WorkerPart.frame (h : WorkerPart v k d w) (hk : v.Keeps v') (hs : k.Shrinks k') :
    WorkerPart v' k' d w := by
  refine ⟨h.nodup, fun hne tp b hb => h.flight hne tp b (hs.inFlight tp b hb), fun b hb => ?_,
    fun e he => ?_, h.trackedNodup, fun e he => ?_⟩
  · obtain ⟨hle, huniq⟩ := h.leases b hb
    exact ⟨Nat.le_trans hle hs.leaseCounter, fun b' hb' => huniq b' (hs.outbox hb')⟩
  · obtain ⟨hmem, hpos, hinst⟩ := h.tracked e he
    exact ⟨hmem, hpos, fun hb => hk.kept _ _ (hinst (hs.outbox hb))⟩
  · obtain ⟨hlive, hp, hd⟩ := h.guarded e he
    exact ⟨hlive.keeps hk, fun p hp' => hp p (hs.pending _ p hp'), hd⟩

theorem RevokePart.frame (h : RevokePart v k d revoke) (hk : v.Keeps v')
    (hs : ∀ tp b, k'.Outbox tp b → k.Outbox tp b) : RevokePart v' k' d revoke := by
  refine ⟨fun tp htp b hb => h.outbox tp htp b (hs tp b hb), h.direct, fun pc hpc e he => ?_, h.nodup⟩
  obtain ⟨⟨tp, htp, hr⟩, ⟨core, hcore, hcov⟩, hbound⟩ := h.offsets pc hpc e he
  obtain ⟨core', hcore', hg⟩ := hk.grows.cores _ core hcore
  exact ⟨⟨tp, htp, hk.kept tp e.1 hr⟩, ⟨core', hcore', fun x hx => hg.covers x (hcov x hx)⟩,
    fun path position hmem => hbound path position (hk.commits path e.1 position hmem)⟩

end Frames

/-- **Frame.** Nothing is committed, no installed tracker is forgotten, no candidate is added and the
paths stay where they are. -/
theorem OrderInv.frame {c : PollerConfig} {s s' : Poller κ π} (h : OrderInv c s)
    (hk : s.trackers.Keeps s'.trackers) (hs : s.coordinator.Shrinks s'.coordinator)
    (hd : s'.direct = s.direct) (hw : s'.worker = s.worker) (hr : s'.revoke = s.revoke)
    (hg : s'.guard = s.guard) : OrderInv c s' := by
  have hout : ∀ tp b, s'.coordinator.Outbox tp b → s.coordinator.Outbox tp b := fun _ _ => hs.outbox
  refine ⟨fun hc tp b hb => h.disabled hc tp b (hout tp b hb), ?_, h.outbox.frame hk hs, ?_, ?_, ?_, ?_⟩
  · rw [hr]; exact h.log.frame hk
  · rw [hd]; exact h.direct.frame hk hout
  · rw [hd, hw]; exact h.worker.frame hk hs
  · rw [hd, hr]; exact h.revoke.frame hk hout
  · rw [hg, hw, hr]; exact h.guard

end PyrallelConsumer
