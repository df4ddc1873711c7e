import PyrallelConsumer.CommitSafety

/-!
# PyrallelConsumer.Fencing

Completions that outlive the assignment their work item was submitted under. The zombie check compares
epochs, but every assignment builds a new tracker whose epoch is one, so a late completion passes it as
soon as the partition is assigned again.

* `fenced_of_reachable` — as long as no processed event meets the tracker of another assignment, no
  event ever has an effect under an assignment that is not its own.
* `late_completion_crosses` — revoke, assign again, and the late completion marks the new tracker.
-/

set_option linter.unusedSectionVars false

namespace PyrallelConsumer

variable {κ π : Type} [DecidableEq κ]

/-- The entry is an effect of event `e` under the assignment of tracker `r`: a publication, a place in
the pending ledger, or a mark that changes the tracker. -/
inductive PollerEntry.Effect (r : TrackerRef) (e : CompletionEvent) : PollerEntry κ π → Prop where
  | published (outcome : PublishOutcome) : Effect r e (.published r e outcome)
  | pended : Effect r e (.pended r e)
  | marked : Effect r e (.marked r e true)

/-- Every effect of an event of a work item is under the assignment that the item was submitted under. -/
def Fenced (log : List (PollerEntry κ π)) : Prop :=
  ∀ newer entry older, log = newer ++ entry :: older → ∀ r e, entry.Effect r e →
    ∀ r' x, .submitted r' x ∈ older → x.id = e.id → r = r'

/-- An event meets the tracker of its own assignment, or one that it can do nothing to: its epoch
differs, or it needs no publication and its offset is covered. -/
def MeetsOwnTracker (c : PollerConfig) (s : Poller κ π) (a : PollerAction κ π) : Prop :=
  ∀ e, s.Processed c a e → ∀ r' x, .submitted r' x ∈ s.log → x.id = e.id →
    ∀ r t, s.tracker? e.tp = some (r, t) →
      r = r' ∨ e.epoch ≠ t.epoch ∨ (c.dlq.needsPublish e = false ∧ t.core.Covers e.offset)

theorem Fenced.cons {log : List (PollerEntry κ π)} (h : Fenced log) {entry : PollerEntry κ π}
    (hentry : ∀ r e, entry.Effect r e → ∀ r' x, .submitted r' x ∈ log → x.id = e.id → r = r') :
    Fenced (entry :: log) := by
  intro newer entry' older heq r e heff r' x hmem hid
  cases newer with
  | nil =>
    obtain ⟨rfl, rfl⟩ := List.cons.inj heq
    exact hentry r e heff r' x hmem hid
  | cons _ newer => exact h newer entry' older (List.cons.inj heq).2 r e heff r' x hmem hid

/-- While events are processed, nothing is installed, forgotten or submitted. -/
def Undisturbed (v : TrackerView κ π) (E : CompletionEvent → Prop) (u : TrackerView κ π) : Prop :=
  (∃ e, E e) → u.installed = v.installed ∧ ∀ r x, .submitted r x ∈ u.log → .submitted r x ∈ v.log

theorem undisturbed_step {c : DlqConfig} {V : TopicPartition → Int → Prop} {E : CompletionEvent → Prop}
    {v u w : TrackerView κ π} (h : Undisturbed v E u) (hstep : TrackerStep c V E u w) :
    Undisturbed v E w := by
  intro hE
  have hcons : ∀ entry : PollerEntry κ π, (∀ r x, entry ≠ .submitted r x) →
      ∀ r x, .submitted r x ∈ entry :: u.log → .submitted r x ∈ v.log := by
    intro entry hne r x hmem
    rcases List.mem_cons.mp hmem with heq | hold
    · exact absurd heq.symm (hne r x)
    · exact (h hE).2 r x hold
  cases hstep with
  | installed core hwf hepoch hno => exact absurd hE.choose_spec (hno _)
  | forgot tps hno => exact absurd hE.choose_spec (hno _)
  | submitted r x hr hno => exact absurd hE.choose_spec (hno _)
  | published r e outcome core hcur hneeds he => exact ⟨(h hE).1, hcons _ (by simp)⟩
  | pended r e core hcur hneeds he => exact ⟨(h hE).1, hcons _ (by simp)⟩
  | marked r e changed core hcur he hgate hchanged => exact ⟨(h hE).1, hcons _ (by simp)⟩
  | advanced tp r core o hr hcore ho => exact h hE
  | committed path r position hV => exact ⟨(h hE).1, hcons _ (by simp)⟩

/-- An event that is current in the middle of a drain was current at its start. -/
theorem owner_of_current {c : PollerConfig} {s : Poller κ π} (hsafe : s.trackers.Safe c.dlq)
    {a : PollerAction κ π} (hmeets : MeetsOwnTracker c s a) {u : TrackerView κ π}
    (hgrow : s.trackers.Grows u) (hund : Undisturbed s.trackers (s.Processed c a) u)
    {r : TrackerRef} {e : CompletionEvent} {core : OffsetTracker.Core} (hcur : u.Current e r core)
    (he : s.Processed c a e) {r' : TrackerRef} {x : WorkItem (SubmitKey κ) π}
    (hmem : .submitted r' x ∈ u.log) (hid : x.id = e.id) :
    r = r' ∨ (c.dlq.needsPublish e = false ∧ core.Covers e.offset) := by
  obtain ⟨hinstalled, hsubmitted⟩ := hund ⟨e, he⟩
  have hr : s.offsetTrackers.get? e.tp = some r := by
    have := hcur.installed
    rw [hinstalled] at this
    exact this
  obtain ⟨core0, hcore0, -⟩ := hsafe.owner e.tp r hr
  have hcore0' : (s.wm.heap.map (·.core))[r]? = some core0 := hcore0
  rw [List.getElem?_map] at hcore0'
  obtain ⟨t, ht, rfl⟩ := Option.map_eq_some_iff.mp hcore0'
  obtain ⟨core1, hcore1, hg⟩ := hgrow.cores r t.core hcore0
  have heq : core1 = core := Option.some.inj (hcore1.symm.trans hcur.found)
  subst heq
  rcases hmeets e he r' x (hsubmitted r' x hmem) hid r t
    (Poller.tracker?_eq_some.mpr ⟨hr, ht⟩) with hown | hepoch | ⟨hpass, hcov⟩
  · exact .inl hown
  · exact absurd (hcur.epoch.trans hg.epoch) hepoch
  · exact .inr ⟨hpass, hg.covers _ hcov⟩

theorem fenced_step {c : PollerConfig} {s : Poller κ π} (hsafe : s.trackers.Safe c.dlq)
    {a : PollerAction κ π} (hmeets : MeetsOwnTracker c s a) {V : TopicPartition → Int → Prop}
    {u w : TrackerView κ π} (hgrow : s.trackers.Grows u)
    (hund : Undisturbed s.trackers (s.Processed c a) u) (h : Fenced u.log)
    (hstep : TrackerStep c.dlq V (s.Processed c a) u w) : Fenced w.log := by
  cases hstep with
  | installed core hwf hepoch hno => exact h.cons fun r e heff => by cases heff
  | forgot tps hno => exact h
  | submitted r x hr hno => exact h.cons fun r e heff => by cases heff
  | published r e outcome core hcur hneeds he =>
    refine h.cons fun r1 e1 heff r' x hmem hid => ?_
    cases heff
    rcases owner_of_current hsafe hmeets hgrow hund hcur he hmem hid with hown | ⟨hpass, -⟩
    · exact hown
    · rw [hneeds] at hpass; cases hpass
  | pended r e core hcur hneeds he =>
    refine h.cons fun r1 e1 heff r' x hmem hid => ?_
    cases heff
    rcases owner_of_current hsafe hmeets hgrow hund hcur he hmem hid with hown | ⟨hpass, -⟩
    · exact hown
    · rw [hneeds] at hpass; cases hpass
  | marked r e changed core hcur he hgate hchanged =>
    refine h.cons fun r1 e1 heff r' x hmem hid => ?_
    cases heff
    rcases owner_of_current hsafe hmeets hgrow hund hcur he hmem hid with hown | ⟨-, hcov⟩
    · exact hown
    · exact absurd hcov (hchanged rfl)
  | advanced tp r core o hr hcore ho => exact h
  | committed path r position hV => exact h.cons fun r e heff => by cases heff

/-- **Fencing.** In every run in which processed events meet their own trackers or none they can
change, no event has an effect under an assignment other than that of its work item. -/
theorem fenced_of_reachable {c : PollerConfig} {s : Poller κ π}
    (h : (pollerMachine κ π c).ReachableBy (MeetsOwnTracker c) s) : Fenced s.log := by
  have hboth : SafetyInv c.dlq s ∧ Fenced s.log := by
    refine (pollerMachine κ π c).invariant (I := fun s => SafetyInv c.dlq s ∧ Fenced s.log) ?_ ?_ h
    · intro s hs
      refine ⟨safetyInv_reachable (.start (c := fun _ _ => True) hs), ?_⟩
      obtain ⟨circuit, rfl⟩ := hs
      intro newer entry older heq
      cases newer <;> cases heq
    · rintro s a ⟨hsafe, hfenced⟩ - hmeets
      refine ⟨safetyInv_next hsafe a, ?_⟩
      have hrun := Poller.trackerRun_next c s hsafe.shared hsafe.holds a
      have hinv := TrackerRun.invariant
        (I := fun u => Fenced u.log ∧ Undisturbed s.trackers (s.Processed c a) u) hrun
        ⟨hfenced, fun _ => ⟨rfl, fun _ _ hmem => hmem⟩⟩ fun u w hgrow hu hstep =>
          ⟨fenced_step hsafe.safe hmeets hgrow hu.2 hu.1 hstep, undisturbed_step hu.2 hstep⟩
      exact hinv.1
  exact hboth.2

/-! ## A late completion -/

/-- One message, handed to the engine. -/
def handOne : List (PollerAction Nat Unit) := sampleAssign 5 ++ sampleDispatch [5]

theorem fenced_of_reachable_handOne :
    let M := pollerMachine Nat Unit (sampleConfig false)
    let s := M.next (M.run (.new none) handOne) (sampleDrain [sampleSuccess 0 5])
    Fenced s.log ∧ .marked 0 (sampleSuccess 0 5) true ∈ s.log := by
  intro M s
  have hhanded : M.ReachableBy (MeetsOwnTracker (sampleConfig false)) (M.run (.new none) handOne) := by
    refine M.reachableBy_run handOne (.start ⟨none, rfl⟩) (allowed_of_readyRun handOne (by decide) ?_ ?_)
    · simp [handOne, sampleAssign, sampleDispatch, PollerAction.Lawful, acceptsPrefix_acceptingEnv]
    · intro newer a older heq e he
      have hmem : a ∈ handOne := by rw [heq]; simp
      simp only [handOne, sampleAssign, sampleDispatch, List.cons_append, List.nil_append, List.mem_cons,
        List.not_mem_nil, or_false] at hmem
      rcases hmem with rfl | rfl | rfl | rfl | rfl <;> cases he
  have hlog : (M.run (.new none) handOne).log =
      [.submitted 0 (firstItem 5), .installed 0 ⟨⟨"t", 0⟩, 4, .empty, 1⟩] := by decide
  have htrackers : (M.run (.new none) handOne).offsetTrackers = Dict.empty.set ⟨"t", 0⟩ 0 := by decide
  refine ⟨fenced_of_reachable (.next hhanded ⟨rfl, acceptsPrefix_acceptingEnv⟩ ?_), by decide⟩
  intro e _ r' x hmem _ r t htracker
  obtain ⟨hr', -⟩ : r' = 0 ∧ x = firstItem 5 := by simpa [hlog] using hmem
  obtain ⟨hr, -⟩ := Poller.tracker?_eq_some.mp htracker
  rw [htrackers, Dict.get?_set] at hr
  split at hr
  · cases hr; exact .inl hr'.symm
  · cases hr

/-- The partition is revoked and assigned again before its message completes. -/
def lateCompletion : List (PollerAction Nat Unit) :=
  handOne ++
    [.consumeBegin, .prepareRevoke [⟨"t", 0⟩], .revokeCommit, .cleanupRevoke,
     .assign (some [⟨"t", 0, 5, none⟩]) [⟨"t", 0, -1001, none⟩], .consumeEnd,
     sampleDrain [sampleSuccess 0 5]]

/-- **The collision.** The completion of an item that was submitted under the first assignment changes
the tracker of the second one. -/
theorem late_completion_crosses :
    ∃ s : Poller Nat Unit, (pollerMachine Nat Unit (sampleConfig false)).Reachable s ∧
      ∃ older, s.log = .marked 1 (sampleSuccess 0 5) true :: older ∧
        .submitted 0 (firstItem 5) ∈ older ∧ (firstItem 5).id = (sampleSuccess 0 5).id ∧
        ¬ Fenced s.log := by
  let s := (pollerMachine Nat Unit (sampleConfig false)).run (.new none) lateCompletion
  have hlog : s.log = .marked 1 (sampleSuccess 0 5) true :: s.log.tail := by decide
  have hmem : .submitted 0 (firstItem 5) ∈ s.log.tail := by decide
  refine ⟨s, reachable_of_readyRun (by decide) ?_, s.log.tail, hlog, hmem, rfl, fun hfenced => ?_⟩
  · simp [lateCompletion, handOne, sampleAssign, sampleDispatch, sampleDrain, PollerAction.Lawful,
      acceptsPrefix_acceptingEnv]
  · have heq := hfenced [] _ _ hlog 1 _ .marked 0 _ hmem rfl
    cases heq

end PyrallelConsumer
