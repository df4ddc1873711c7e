import PyrallelConsumer.CommitSafety

/-!
# PyrallelConsumer.CommitProgress

When everything that was dispatched for a partition has succeeded and nothing is in flight, how far can
the partition be committed? The high-water-mark walk takes unit steps from the offset that the
assignment started at, so it stops at the first offset that Kafka never delivered.

* `coverInv_step` — a tracker covers what it started with and every offset marked on it.
* `progress_iff_dense` — the last dispatched offset becomes committable exactly when the dispatched and
  restored offsets leave no hole from the assignment's position on.
* `progress_fails_above_logStart` — a partition without committed offset whose log starts above zero is
  never committed.
-/

set_option linter.unusedSectionVars false

namespace PyrallelConsumer

variable {κ π : Type} [DecidableEq κ]

/-! ## What a tracker covers -/

structure TrackerView.CoverInv (v : TrackerView κ π) : Prop where
  wellFormed : ∀ (r : TrackerRef) core, v.cores[r]? = some core → core.WellFormed
  born : ∀ (r : TrackerRef) core, v.cores[r]? = some core →
    ∃ core0, .installed r core0 ∈ v.log ∧ core0.topicPartition = core.topicPartition
  installed : ∀ r core0, .installed r core0 ∈ v.log →
    ∃ core, v.cores[r]? = some core ∧ core0.Grows core
  marked : ∀ r e changed, .marked r e changed ∈ v.log →
    ∃ core, v.cores[r]? = some core ∧ core.topicPartition = e.tp ∧ core.Covers e.offset

namespace TrackerView.CoverInv

variable {c : DlqConfig} {v : TrackerView κ π}

/-- The clauses about the history survive any growth of the trackers. -/
theorem of_grows (h : v.CoverInv) {v' : TrackerView κ π} (hg : v.Grows v')
    (hwf : ∀ (r : TrackerRef) core, v'.cores[r]? = some core → core.WellFormed)
    (hborn : ∀ (r : TrackerRef) core, v'.cores[r]? = some core →
      (∃ core1, v.cores[r]? = some core1 ∧ core1.topicPartition = core.topicPartition) ∨
        .installed r core ∈ v'.log)
    (hinstalled : ∀ r core0, .installed r core0 ∈ v'.log → .installed r core0 ∈ v.log ∨
      v'.cores[r]? = some core0)
    (hmarked : ∀ r e changed, .marked r e changed ∈ v'.log → .marked r e changed ∈ v.log ∨
      ∃ core, v'.cores[r]? = some core ∧ core.topicPartition = e.tp ∧ core.Covers e.offset) :
    v'.CoverInv := by
  refine ⟨hwf, fun r core hr => ?_, fun r core0 hmem => ?_, fun r e changed hmem => ?_⟩
  · rcases hborn r core hr with ⟨core1, h1, htp⟩ | hnew
    · obtain ⟨core0, hmem, htp0⟩ := h.born r core1 h1
      exact ⟨core0, hg.log.subset hmem, htp0.trans htp⟩
    · exact ⟨core, hnew, rfl⟩
  · rcases hinstalled r core0 hmem with hold | hnew
    · obtain ⟨core, hcore, hgrow⟩ := h.installed r core0 hold
      obtain ⟨core', hcore', hgrow'⟩ := hg.cores r core hcore
      exact ⟨core', hcore', hgrow.trans hgrow'⟩
    · exact ⟨core0, hnew, .refl core0⟩
  · rcases hmarked r e changed hmem with hold | hnew
    · obtain ⟨core, hcore, htp, hcov⟩ := h.marked r e changed hold
      obtain ⟨core', hcore', hgrow⟩ := hg.cores r core hcore
      exact ⟨core', hcore', hgrow.topicPartition.trans htp, hgrow.covers _ hcov⟩
    · exact hnew

/-- A change of the history that neither installs nor marks. -/
theorem cons (h : v.CoverInv) (entry : PollerEntry κ π) (installed : Dict TopicPartition TrackerRef)
    (hi : ∀ r core, entry ≠ .installed r core) (hm : ∀ r e b, entry ≠ .marked r e b) :
    TrackerView.CoverInv ⟨v.cores, installed, entry :: v.log⟩ := by
  refine h.of_grows ⟨fun _ core hr => ⟨core, hr, .refl core⟩, List.suffix_cons _ _⟩ h.wellFormed
    (fun r core hr => .inl ⟨core, hr, rfl⟩) (fun r core0 hmem => ?_) (fun r e b hmem => ?_)
  · rcases List.mem_cons.mp hmem with heq | hold
    · exact absurd heq.symm (hi r core0)
    · exact .inl hold
  · rcases List.mem_cons.mp hmem with heq | hold
    · exact absurd heq.symm (hm r e b)
    · exact .inl hold

/-- **One change.** -/
theorem step (h : v.CoverInv) (howner : ∀ tp r, v.installed.get? tp = some r →
      ∃ core, v.cores[r]? = some core ∧ core.topicPartition = tp)
    {V : TopicPartition → Int → Prop} {E : CompletionEvent → Prop} {v' : TrackerView κ π}
    (hstep : TrackerStep c V E v v') : v'.CoverInv := by
  have hg := hstep.grows
  cases hstep with
  | installed core hwf hepoch hE =>
    have hcases : ∀ (r : TrackerRef) core', (v.cores ++ [core])[r]? = some core' →
        v.cores[r]? = some core' ∨ (r = v.cores.length ∧ core' = core) := by
      intro r core' hr
      rcases Nat.lt_or_ge r v.cores.length with hlt | hge
      · rw [List.getElem?_append_left hlt] at hr
        exact .inl hr
      · rw [List.getElem?_append_right hge] at hr
        have hzero : r - v.cores.length = 0 := by
          by_contra hne
          obtain ⟨n, hn⟩ := Nat.exists_eq_succ_of_ne_zero hne
          rw [hn] at hr
          cases hr
        rw [hzero] at hr
        cases hr
        exact .inr ⟨Nat.le_antisymm (Nat.sub_eq_zero_iff_le.mp hzero) hge, rfl⟩
    refine h.of_grows hg (fun r core' hr => ?_) (fun r core' hr => ?_) (fun r core0 hmem => ?_)
      (fun r e b hmem => .inl ?_)
    · rcases hcases r core' hr with hold | ⟨-, rfl⟩
      · exact h.wellFormed r core' hold
      · exact hwf
    · rcases hcases r core' hr with hold | ⟨rfl, rfl⟩
      · exact .inl ⟨core', hold, rfl⟩
      · exact .inr List.mem_cons_self
    · rcases List.mem_cons.mp hmem with heq | hold
      · cases heq
        exact .inr (by simp)
      · exact .inl hold
    · rcases List.mem_cons.mp hmem with heq | hold
      · cases heq
      · exact hold
  | forgot tps hE => exact ⟨h.wellFormed, h.born, h.installed, h.marked⟩
  | submitted r x hr hE => exact h.cons _ _ (by simp) (by simp)
  | published r e outcome core hcur hneeds hE => exact h.cons _ _ (by simp) (by simp)
  | pended r e core hcur hneeds hE => exact h.cons _ _ (by simp) (by simp)
  | marked r e changed core hcur hE hgate hchanged =>
    refine h.of_grows hg (fun i core' hi => ?_) (fun i core' hi => .inl ?_)
      (fun i core0 hmem => .inl ?_) (fun i e' b hmem => ?_)
    · rcases getElem?_modify_cases hi with hold | ⟨rfl, core1, hcore1, rfl⟩
      · exact h.wellFormed i core' hold
      · exact (h.wellFormed i core1 hcore1).markComplete e.offset
    · rcases getElem?_modify_cases hi with hold | ⟨rfl, core1, hcore1, rfl⟩
      · exact ⟨core', hold, rfl⟩
      · exact ⟨core1, hcore1, rfl⟩
    · rcases List.mem_cons.mp hmem with heq | hold
      · cases heq
      · exact hold
    · rcases List.mem_cons.mp hmem with heq | hold
      · cases heq
        obtain ⟨core1, hcore1, htp⟩ := howner _ _ hcur.installed
        refine .inr ⟨core1.markComplete e.offset, ?_, htp,
          OffsetTracker.Core.covers_markComplete.mpr (.inr rfl)⟩
        rw [List.getElem?_modify, hcore1]
        simp
      · exact .inl hold
  | advanced tp r core o hr hcore ho =>
    refine h.of_grows hg (fun i core' hi => ?_) (fun i core' hi => .inl ?_)
      (fun i core0 hmem => .inl hmem) (fun i e b hmem => .inl hmem)
    · rcases getElem?_modify_cases hi with hold | ⟨rfl, core1, hcore1, rfl⟩
      · exact h.wellFormed i core' hold
      · exact (h.wellFormed i core1 hcore1).commitThrough o
    · rcases getElem?_modify_cases hi with hold | ⟨rfl, core1, hcore1, rfl⟩
      · exact ⟨core', hold, rfl⟩
      · exact ⟨core1, hcore1, (core1.commitThrough_topicPartition o).symm⟩
  | committed path r position hV => exact h.cons _ _ (by simp) (by simp)

end TrackerView.CoverInv

theorem coverInv_reachable {c : PollerConfig} {s : Poller κ π} {p : Poller κ π → PollerAction κ π → Prop}
    (h : (pollerMachine κ π c).ReachableBy p s) : s.trackers.CoverInv := by
  have hboth : SafetyInv c.dlq s ∧ s.trackers.CoverInv := by
    refine (pollerMachine κ π c).invariant
      (I := fun s => SafetyInv c.dlq s ∧ s.trackers.CoverInv) ?_ ?_ h
    · intro s hs
      refine ⟨safetyInv_reachable (.start (c := p) hs), ?_⟩
      obtain ⟨circuit, rfl⟩ := hs
      exact ⟨fun r core hr => (by cases hr), fun r core hr => (by cases hr),
        fun r core0 hmem => (by cases hmem), fun r e b hmem => (by cases hmem)⟩
    · rintro s a ⟨hsafe, hcover⟩ - -
      refine ⟨safetyInv_next hsafe a, ?_⟩
      have hrun := Poller.trackerRun_next c s hsafe.shared hsafe.holds a
      have hinv := TrackerRun.invariant (I := fun v => v.Safe c.dlq ∧ v.CoverInv) hrun
        ⟨hsafe.safe, hcover⟩ fun u w hgrow hu hstep =>
          ⟨hu.1.step (fun tp o ho => handledUpTo_of_suffix hgrow.log ho) hstep, hu.2.step hu.1.owner hstep⟩
      exact hinv.2
  exact hboth.2

/-! ## Progress -/

/-- The offset was dispatched under the assignment of tracker `r`. -/
def DispatchedUnder (log : List (PollerEntry κ π)) (r : TrackerRef) (o : Int) : Prop :=
  ∃ x, .submitted r x ∈ log ∧ x.offset = o

/-- Every offset from the assignment's position up to `last` was dispatched or restored. -/
def Dense (log : List (PollerEntry κ π)) (r : TrackerRef) (start : OffsetTracker.Core) (last : Int) :
    Prop :=
  ∀ o, start.lastCommittedOffset < o → o ≤ last → DispatchedUnder log r o ∨ o ∈ start.completedOffsets

/-- All that was dispatched under the assignment has a processed success, and nothing is in flight. -/
structure Poller.Quiesced (s : Poller κ π) (tp : TopicPartition) (r : TrackerRef) (last : Int) : Prop where
  installed : s.offsetTrackers.get? tp = some r
  last : IsGreatest {o | DispatchedUnder s.log r o} last
  succeeded : ∀ o, DispatchedUnder s.log r o →
    ∃ e changed, .marked r e changed ∈ s.log ∧ e.offset = o ∧ e.status = .success
  idle : s.wm.getMinInFlightOffset tp = none

/-- The offset is committed, or the next commit includes it. -/
def Poller.Yields (s : Poller κ π) (tp : TopicPartition) (last : Int) : Prop :=
  (∃ r t, s.tracker? tp = some (r, t) ∧ last ≤ t.lastCommittedOffset) ∨
    ∃ o, (tp, o) ∈ DispatchSupport.buildCommitCandidates s.offsetTrackers s.wm ∧ last ≤ o

/-- The partition was assigned once, and completions are of dispatched offsets only. -/
structure Poller.OnlyAssignment (s : Poller κ π) (tp : TopicPartition) (r : TrackerRef)
    (start : OffsetTracker.Core) : Prop where
  once : ∀ r' core, .installed r' core ∈ s.log → core.topicPartition = tp → r' = r ∧ core = start
  dispatched : ∀ e changed, .marked r e changed ∈ s.log → DispatchedUnder s.log r e.offset

section Progress

variable {c : PollerConfig} {s : Poller κ π} {tp : TopicPartition} {r : TrackerRef}
  {start : OffsetTracker.Core} {last : Int}

/-- What a dense partition covers. -/
theorem coversUpTo_of_dense (hcover : s.trackers.CoverInv) (hstart : .installed r start ∈ s.log)
    (hq : s.Quiesced tp r last) (hdense : Dense s.log r start last) {core : OffsetTracker.Core}
    (hcore : s.trackers.cores[r]? = some core) : core.CoversUpTo last := by
  obtain ⟨core1, hcore1, hgrow⟩ := hcover.installed r start hstart
  rw [hcore] at hcore1
  cases hcore1
  intro o ho
  by_cases hle : o ≤ start.lastCommittedOffset
  · exact hgrow.covers o (.inl hle)
  · rcases hdense o (not_le.mp hle) ho with hdisp | hmem
    · obtain ⟨e, changed, hmark, heq, -⟩ := hq.succeeded o hdisp
      obtain ⟨core2, hcore2, -, hcov⟩ := hcover.marked r e changed hmark
      rw [hcore] at hcore2
      cases hcore2
      exact heq ▸ hcov
    · exact hgrow.covers o (.inr hmem)

/-- What the only assignment of a partition covers was there at its start or was dispatched. -/
theorem dispatched_or_restored (hsafe : s.trackers.Safe c.dlq) (hcover : s.trackers.CoverInv)
    (honly : s.OnlyAssignment tp r start) {core : OffsetTracker.Core}
    (hcore : s.trackers.cores[r]? = some core) (htp : core.topicPartition = tp) {o : Int}
    (ho : core.Covers o) : DispatchedUnder s.log r o ∨ start.Covers o := by
  rcases hsafe.handled r core o hcore ho with
    ⟨newer, r', e, changed, older, hlog, hetp, rfl, -⟩ | ⟨r', core', hmem, htp', hcov⟩
  · have hmark : .marked r' e changed ∈ s.log := by
      have : s.log = newer ++ .marked r' e changed :: older := hlog
      rw [this]; simp
    obtain ⟨core', hcore', htp', -⟩ := hcover.marked r' e changed hmark
    obtain ⟨core0, hmem0, htp0⟩ := hcover.born r' core' hcore'
    obtain ⟨rfl, -⟩ := honly.once r' core0 hmem0 (by rw [htp0, htp', hetp, htp])
    exact .inl (honly.dispatched e changed hmark)
  · obtain ⟨-, rfl⟩ := honly.once r' core' hmem (htp'.trans htp)
    exact .inr hcov

theorem tracker_of_installed (hsafe : s.trackers.Safe c.dlq) (h : s.offsetTrackers.get? tp = some r) :
    ∃ t, s.wm.trackerAt r = some t ∧ s.trackers.cores[r]? = some t.core ∧ t.core.topicPartition = tp := by
  obtain ⟨core, hcore, htp⟩ := hsafe.owner tp r h
  have hcore' : (s.wm.heap.map (·.core))[r]? = some core := hcore
  rw [List.getElem?_map] at hcore'
  obtain ⟨t, ht, rfl⟩ := Option.map_eq_some_iff.mp hcore'
  exact ⟨t, ht, hcore, htp⟩

/-- **Progress is density.** With everything succeeded and nothing in flight, a partition without holes
yields its last dispatched offset. In the only assignment of a partition nothing else does, and what
is committed beyond the last dispatched offset was restored. -/
theorem progress_iff_dense (h : (pollerMachine κ π c).Reachable s) (hstart : .installed r start ∈ s.log)
    (hq : s.Quiesced tp r last) :
    (Dense s.log r start last → s.Yields tp last) ∧
    (s.OnlyAssignment tp r start →
      (s.Yields tp last → Dense s.log r start last) ∧
      ∀ o, (tp, o) ∈ DispatchSupport.buildCommitCandidates s.offsetTrackers s.wm →
        ∀ x, last < x → x ≤ o → start.Covers x) := by
  have hsafe := (safetyInv_reachable h).safe
  have hcover := coverInv_reachable h
  obtain ⟨t, ht, hcore, htp⟩ := tracker_of_installed hsafe hq.installed
  have hmark := OffsetTracker.Core.le_mark_iff (hcover.wellFormed r t.core hcore)
  -- the candidate of the partition, if there is one
  have hcandidate : ∀ o, (tp, o) ∈ DispatchSupport.buildCommitCandidates s.offsetTrackers s.wm ↔
      o = t.core.mark ∧ t.lastCommittedOffset < o := by
    intro o
    rw [DispatchSupport.mem_buildCommitCandidates]
    constructor
    · rintro ⟨r', t', hr', ht', ho, hlt⟩
      rw [hq.installed] at hr'
      cases hr'
      rw [ht] at ht'
      cases ht'
      rw [hq.idle] at ho
      exact ⟨ho, hlt⟩
    · rintro ⟨ho, hlt⟩
      exact ⟨r, t, hq.installed, ht, by rw [hq.idle]; exact ho, hlt⟩
  refine ⟨fun hdense => ?_, fun honly => ⟨fun hyields o hlt hle => ?_, fun o ho x hlt hle => ?_⟩⟩
  · have hle := (hmark last).mpr (coversUpTo_of_dense hcover hstart hq hdense hcore)
    by_cases hlt : t.lastCommittedOffset < t.core.mark
    · exact .inr ⟨t.core.mark, (hcandidate _).mpr ⟨rfl, hlt⟩, hle⟩
    · exact .inl ⟨r, t, Poller.tracker?_eq_some.mpr ⟨hq.installed, ht⟩, by omega⟩
  · have hcov : t.core.Covers o := by
      rcases hyields with ⟨r', t', htracker, hlast⟩ | ⟨o', ho', hlast⟩
      · obtain ⟨hr', ht'⟩ := Poller.tracker?_eq_some.mp htracker
        rw [hq.installed] at hr'
        cases hr'
        rw [ht] at ht'
        cases ht'
        exact .inl (le_trans hle hlast)
      · obtain ⟨rfl, -⟩ := (hcandidate o').mp ho'
        exact t.core.coversUpTo_mark o (le_trans hle hlast)
    rcases dispatched_or_restored hsafe hcover honly hcore htp hcov with hdisp | hle' | hmem
    · exact .inl hdisp
    · omega
    · exact .inr hmem
  · obtain ⟨rfl, -⟩ := (hcandidate o).mp ho
    rcases dispatched_or_restored hsafe hcover honly hcore htp (t.core.coversUpTo_mark x hle) with
      hdisp | hcov
    · exact absurd (hq.last.2 hdisp) (not_le.mpr hlt)
    · exact hcov

end Progress

/-! ## One message -/

section Examples

/-- One message of a partition, taken over at a position or without one, is processed. -/
def processOne (position offset : Int) : List (PollerAction Nat Unit) :=
  sampleAssign position ++ sampleDispatch [offset] ++ [sampleDrain [sampleSuccess 0 offset]]

theorem reachable_processOne {position offset : Int}
    (h : (Poller.new none).readyRun (sampleConfig false) (processOne position offset) = true) :
    (pollerMachine Nat Unit (sampleConfig false)).Reachable
      ((pollerMachine Nat Unit (sampleConfig false)).run (.new none) (processOne position offset)) := by
  refine reachable_of_readyRun h ?_
  simp [processOne, sampleAssign, sampleDispatch, sampleDrain, PollerAction.Lawful,
    acceptsPrefix_acceptingEnv]

/-- The history after one message. -/
def oneLog (start : OffsetTracker.Core) (offset : Int) : List (PollerEntry Nat Unit) :=
  [.marked 0 (sampleSuccess 0 offset) true, .submitted 0 (firstItem offset), .installed 0 start]

theorem quiesced_of_oneLog {s : Poller Nat Unit} {start : OffsetTracker.Core} {offset : Int}
    (hlog : s.log = oneLog start offset) (hr : s.offsetTrackers.get? ⟨"t", 0⟩ = some 0)
    (hidle : s.wm.getMinInFlightOffset ⟨"t", 0⟩ = none) :
    s.Quiesced ⟨"t", 0⟩ 0 offset ∧ (∀ o, DispatchedUnder s.log 0 o ↔ o = offset) := by
  have hdisp : ∀ o, DispatchedUnder s.log 0 o ↔ o = offset := by
    intro o
    simp [DispatchedUnder, hlog, oneLog, firstItem, eq_comm]
  refine ⟨⟨hr, ⟨(hdisp offset).mpr rfl, fun o ho => le_of_eq ((hdisp o).mp ho)⟩, fun o ho => ?_, hidle⟩,
    hdisp⟩
  rw [hlog, (hdisp o).mp ho]
  exact ⟨sampleSuccess 0 offset, true, List.mem_cons_self, rfl, rfl⟩

theorem progress_iff_dense_atPosition :
    let s := (pollerMachine Nat Unit (sampleConfig false)).run (.new none) (processOne 5 5)
    s.Yields ⟨"t", 0⟩ 5 := by
  intro s
  let start : OffsetTracker.Core := ⟨⟨"t", 0⟩, 4, .empty, 1⟩
  have hlog : s.log = oneLog start 5 := by decide
  obtain ⟨hq, hdisp⟩ := quiesced_of_oneLog hlog (by decide) (by decide)
  have hstart : .installed 0 start ∈ s.log := by rw [hlog]; simp [oneLog]
  refine (progress_iff_dense (reachable_processOne (by decide)) hstart hq).1 fun o h1 h2 => .inl ?_
  have h1' : 4 < o := h1
  exact (hdisp o).mpr (by omega)

/-- **A log that starts above zero.** The group has no committed offset and the first available
offset is 100: the message is processed, nothing is in flight, and nothing is ever committable. -/
theorem progress_fails_above_logStart :
    ∃ s start, (pollerMachine Nat Unit (sampleConfig false)).Reachable s ∧
      .installed 0 start ∈ s.log ∧ s.Quiesced ⟨"t", 0⟩ 0 100 ∧ s.OnlyAssignment ⟨"t", 0⟩ 0 start ∧
      ¬ s.Yields ⟨"t", 0⟩ 100 := by
  let s := (pollerMachine Nat Unit (sampleConfig false)).run (.new none) (processOne (-1001) 100)
  let start : OffsetTracker.Core := ⟨⟨"t", 0⟩, -1, .empty, 1⟩
  have hlog : s.log = oneLog start 100 := by decide
  obtain ⟨hq, hdisp⟩ := quiesced_of_oneLog hlog (by decide) (by decide)
  refine ⟨s, start, reachable_processOne (by decide), by rw [hlog]; simp [oneLog], hq, ⟨?_, ?_⟩, ?_⟩
  · intro r' core hmem _
    simpa [hlog, oneLog] using hmem
  · intro e changed hmem
    refine (hdisp _).mpr ?_
    obtain ⟨heq, -⟩ : e = sampleSuccess 0 100 ∧ changed = true := by simpa [hlog, oneLog] using hmem
    rw [heq]
    rfl
  · rintro (⟨r, t, htracker, hle⟩ | ⟨o, ho, -⟩)
    · have hlast : (s.tracker? ⟨"t", 0⟩).map (·.2.lastCommittedOffset) = some (-1) := by decide
      have hlast' : t.lastCommittedOffset = -1 := by simpa [htracker] using hlast
      omega
    · have hnone : DispatchSupport.buildCommitCandidates s.offsetTrackers s.wm = [] := by decide
      rw [hnone] at ho
      cases ho

end Examples

end PyrallelConsumer
