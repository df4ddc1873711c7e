import PyrallelConsumer.SnapshotSafety
import PyrallelConsumer.Lib.Family

/-!
# PyrallelConsumer.ConsumerGroup

The pollers of one consumer group side by side. They meet at the broker only: a lookup of an assignment
answers a position that the group started with, one that some member has handed to `consumer.commit`, or
nothing. Which of these it answers is left open, so that failed, lost and late commits are all included,
and so is a partition that two members hold at once.

* `accounted_installed` — along every run a tracker starts with what the group has accounted for.
* `group_at_least_once` — no committed position and no tracker passes over an offset that nobody handled.
-/

set_option linter.unusedSectionVars false

namespace PyrallelConsumer

/-- The position says that the offset is done: it lies below, or the metadata names it. -/
def KafkaTopicPartition.Passes (q : KafkaTopicPartition) (o : Int) : Prop :=
  o < q.offset ∨ o ∈ MetadataEncoder.decodeMetadata (q.metadata.getD [])

/-- No position is stored: `OFFSET_INVALID` and no metadata. -/
def KafkaTopicPartition.Blank (q : KafkaTopicPartition) : Prop := q.offset < 0 ∧ q.metadata.getD [] = []

instance (q : KafkaTopicPartition) : Decidable q.Blank := inferInstanceAs (Decidable (_ ∧ _))

variable {ι κ π : Type} [DecidableEq ι] [DecidableEq κ]

/-- The broker may have stored the position. -/
def Stored (base : List KafkaTopicPartition) (s : ι → Poller κ π) (q : KafkaTopicPartition) : Prop :=
  q ∈ base ∨ ∃ i path r, PollerEntry.committed path r q ∈ (s i).log

/-- What `committed` of an assignment may answer. The callback itself brings no positions. -/
def Answers (base : List KafkaTopicPartition) (s : ι → Poller κ π) (_ : ι) : PollerAction κ π → Prop
  | .assign committed partitions =>
    (∀ q ∈ committed.getD [], Stored base s q ∨ q.Blank) ∧ ∀ q ∈ partitions, q.Blank
  | _ => True

/-- The members of a group with the positions that it starts with. -/
def groupMachine (base : List KafkaTopicPartition) (c : ι → PollerConfig) :
    Machine (ι → Poller κ π) (ι × PollerAction κ π) :=
  Machine.family (fun i => pollerMachine κ π (c i)) (Answers base)

/-- Some member completed the offset, or the group started past it. -/
def AccountedFor (base : List KafkaTopicPartition) (c : ι → PollerConfig) (s : ι → Poller κ π)
    (tp : TopicPartition) (o : Int) : Prop :=
  (∃ i, Completed (c i).dlq (s i).log tp o) ∨ o < 0 ∨ ∃ q ∈ base, q.toDto = tp ∧ q.Passes o

section

variable {base : List KafkaTopicPartition} {c : ι → PollerConfig} {s s' : ι → Poller κ π}

theorem completed_of_suffix {d : DlqConfig} {log log' : List (PollerEntry κ π)} {tp : TopicPartition} {o : Int}
    (h : log <:+ log') (ho : Completed d log tp o) : Completed d log' tp o := by
  obtain ⟨l, rfl⟩ := h
  obtain ⟨newer, r, e, changed, older, rfl, hrest⟩ := ho
  exact ⟨l ++ newer, r, e, changed, older, by simp, hrest⟩

theorem AccountedFor.of_suffix (h : ∀ i, (s i).log <:+ (s' i).log) {tp : TopicPartition} {o : Int}
    (ho : AccountedFor base c s tp o) : AccountedFor base c s' tp o := by
  rcases ho with ⟨i, hi⟩ | ho
  · exact .inl ⟨i, completed_of_suffix (h i) hi⟩
  · exact .inr ho

/-! ## What an assignment is told -/

theorem mem_of_get?_committedOffsets {committed : Option (List KafkaTopicPartition)} {tp : TopicPartition}
    {q : KafkaTopicPartition} (h : (RebalanceSupport.committedOffsets committed).get? tp = some q) :
    q ∈ committed.getD [] ∧ q.toDto = tp := by
  have hfold : ∀ (l : List KafkaTopicPartition) (d : Dict TopicPartition KafkaTopicPartition),
      (l.foldl (fun d p => d.set p.toDto p) d).get? tp = some q →
      d.get? tp = some q ∨ (q ∈ l ∧ q.toDto = tp) := by
    intro l
    induction l with
    | nil => intro d h; exact .inl h
    | cons p l ih =>
      intro d h
      rcases ih _ h with hd | ⟨hmem, htp⟩
      · rw [Dict.get?_set] at hd
        split at hd
        · rename_i hp
          cases hd
          exact .inr ⟨List.mem_cons_self, hp⟩
        · exact .inl hd
      · exact .inr ⟨List.mem_cons_of_mem _ hmem, htp⟩
  rcases hfold _ _ h with hempty | hmem
  · cases hempty
  · exact hmem

/-- The offsets that a new tracker covers are negative, or the answer for its partition passes them. -/
theorem covers_of_builtFor {d : PollerConfig} {committed : Option (List KafkaTopicPartition)}
    {partitions : List KafkaTopicPartition} (hblank : ∀ q ∈ partitions, q.Blank) {core : OffsetTracker.Core}
    (h : BuiltFor d committed partitions core) {o : Int} (ho : core.Covers o) :
    o < 0 ∨ ∃ q ∈ committed.getD [], q.toDto = core.topicPartition ∧ q.Passes o := by
  obtain ⟨p, hp, t, hinstalled, rfl⟩ := h
  obtain ⟨hoffset, hmetadata⟩ := hblank p hp
  have hassigned : RebalanceSupport.assignmentOffset p = -1 := by
    unfold RebalanceSupport.assignmentOffset; rw [if_neg (by omega)]
  have htp : t.core.topicPartition = p.toDto := hinstalled.topicPartition
  rw [htp]
  rcases ho with hle | hmem
  · replace hle : o ≤ t.lastCommittedOffset := hle
    rw [hinstalled.lastCommittedOffset] at hle
    unfold RebalanceSupport.lastCommitted at hle
    split at hle
    · rename_i q hq
      split at hle
      · obtain ⟨hq, hqtp⟩ := mem_of_get?_committedOffsets hq
        exact .inr ⟨q, hq, hqtp, .inl (by omega)⟩
      · exact .inl (by omega)
    · exact .inl (by omega)
  · replace hmem : o ∈ t.completedOffsets := hmem
    rw [hinstalled.completedOffsets] at hmem
    unfold RebalanceSupport.decodeAssignmentCompletedOffsets at hmem
    split at hmem
    · exact absurd hmem (SortedSet.not_mem_empty o)
    · split at hmem
      · exact absurd hmem (SortedSet.not_mem_empty o)
      · rename_i m hm
        have hnamed := (SortedSet.mem_filter.mp hmem).1
        unfold RebalanceSupport.rawMetadata at hm
        split at hm
        · rename_i m' hm'
          cases hm
          obtain ⟨hbind, -⟩ := Option.filter_eq_some_iff.mp hm'
          obtain ⟨q, hq, hqm⟩ := Option.bind_eq_some_iff.mp hbind
          obtain ⟨hq, hqtp⟩ := mem_of_get?_committedOffsets hq
          exact .inr ⟨q, hq, hqtp, .inr (by rw [hqm]; exact hnamed)⟩
        · obtain ⟨hpm, hne⟩ := Option.filter_eq_some_iff.mp hm
          rw [hpm] at hmetadata
          exact absurd hmetadata (by simpa using hne)

/-! ## Whole runs -/

/-- Every tracker started with what was accounted for. -/
def StartsAccounted (base : List KafkaTopicPartition) (c : ι → PollerConfig) (s : ι → Poller κ π) : Prop :=
  ∀ i r core o, PollerEntry.installed r core ∈ (s i).log → core.Covers o →
    AccountedFor base c s core.topicPartition o

theorem StartsAccounted.handled (h : StartsAccounted base c s) {i : ι} {tp : TopicPartition} {o : Int}
    (ho : Handled (c i).dlq (s i).log tp o) : AccountedFor base c s tp o := by
  rcases ho with hcompleted | ⟨r, core, hmem, rfl, hcovers⟩
  · exact .inl ⟨i, hcompleted⟩
  · exact h i r core o hmem hcovers

/-- A stored position passes over accounted offsets. -/
theorem StartsAccounted.stored (h : StartsAccounted base c s) (hs : ∀ i, (pollerMachine κ π (c i)).Reachable (s i))
    {q : KafkaTopicPartition} (hq : Stored base s q) {o : Int} (ho : q.Passes o) :
    AccountedFor base c s q.toDto o := by
  rcases hq with hbase | ⟨i, path, r, hmem⟩
  · exact .inr (.inr ⟨q, hbase, rfl, ho⟩)
  · refine h.handled (i := i) ?_
    rcases ho with hlt | hnamed
    · obtain ⟨newer, older, hlog⟩ := List.append_of_mem hmem
      have hup := (safetyInv_reachable (hs i)).safe.committed newer path r q older hlog
      exact handled_of_suffix ⟨newer ++ [.committed path r q], by rw [hlog]; simp⟩ (hup o (by omega))
    · exact (snapshotInv_reachable (hs i)).committed path r q hmem o hnamed

/-- **A tracker starts with what is accounted for.** -/
theorem accounted_installed (h : (groupMachine base c).Reachable s) : StartsAccounted base c s := by
  refine Machine.family_invariant (I := StartsAccounted base c) (fun s hinit => ?_) ?_ h
  · intro i r core o hmem
    obtain ⟨circuit, hcircuit⟩ := hinit i
    rw [hcircuit] at hmem
    cases hmem
  · intro s i a hI hreach _ hallowed
    have hinv := safetyInv_reachable (hreach i)
    obtain ⟨entries, hentries, hadds⟩ := Poller.log_next (c := c i) hinv.shared a
    have hgrows : ∀ j, (s j).log <:+ (Function.update s i ((pollerMachine κ π (c i)).next (s i) a) j).log := by
      refine Machine.forall_update (P := fun j (x : Poller κ π) => (s j).log <:+ x.log) (fun j => List.suffix_refl _) ?_
      exact ⟨entries, hentries.symm⟩
    intro j r core o hmem hcovers
    refine AccountedFor.of_suffix hgrows ?_
    by_cases hji : j = i
    · subst hji
      rw [Function.update_self, hentries] at hmem
      rcases List.mem_append.mp hmem with hnew | hold
      · -- the tracker of this assignment
        obtain ⟨committed, partitions, rfl, hbuilt⟩ := hadds _ hnew
        rcases covers_of_builtFor hallowed.2 hbuilt hcovers with hneg | ⟨q, hq, htp, hpasses⟩
        · exact .inr (.inl hneg)
        · rw [← htp]
          rcases hallowed.1 q hq with hstored | ⟨hoffset, hmetadata⟩
          · exact hI.stored hreach hstored hpasses
          · rcases hpasses with hlt | hnamed
            · exact .inr (.inl (by omega))
            · rw [hmetadata] at hnamed
              exact absurd hnamed (SortedSet.not_mem_empty o)
      · exact hI j r core o hold hcovers
    · rw [Function.update_of_ne hji] at hmem
      exact hI j r core o hmem hcovers

/-- **At least once, for the group.** Whatever the lookups answer among the positions that members have
handed to the broker, and whoever holds a partition when: an offset that a committed position or an
installed tracker passes over was completed by some member, lies below zero, or was passed over when the
group started. -/
theorem group_at_least_once (h : (groupMachine base c).Reachable s) (i : ι) :
    (∀ path r q o, PollerEntry.committed path r q ∈ (s i).log → q.Passes o →
      AccountedFor base c s q.toDto o) ∧
    ∀ tp r t o, (s i).tracker? tp = some (r, t) → t.core.Covers o → AccountedFor base c s tp o := by
  have haccounts := accounted_installed h
  have hreach := Machine.member_reachable h
  refine ⟨fun path r q o hmem ho => haccounts.stored hreach (.inr ⟨i, path, r, hmem⟩) ho, fun tp r t o ht ho => ?_⟩
  obtain ⟨hr, ht⟩ := Poller.tracker?_eq_some.mp ht
  have hsafe := (safetyInv_reachable (hreach i)).safe
  have hcore := Poller.cores_eq_of_trackerAt ht
  obtain ⟨core, hcore', htp⟩ := hsafe.owner tp r hr
  have heq : core = t.core := Option.some.inj (hcore'.symm.trans hcore)
  refine haccounts.handled (i := i) ?_
  rw [← htp, heq]
  exact hsafe.handled r t.core o hcore ho

end

/-! ## A handover

One member starts at 5, completes 5 and 7 and commits; another takes the partition over. -/

def handoverConfig : PollerConfig := { sampleConfig false with strategy := .metadataSnapshot }

/-- The position that the first member starts from. -/
def handoverBase : List KafkaTopicPartition := [⟨"t", 0, 5, none⟩]

def firstMember : List (PollerAction Nat Unit) :=
  sampleAssign 5 ++ sampleDispatch [5, 6, 7] ++
    [sampleDrain [sampleSuccess 0 5, sampleSuccess 2 7], .scan true, .route, .capture, .directCommit .ok]

/-- The second member reads what the first one has committed. -/
def takeover : PollerAction Nat Unit :=
  .assign (some [⟨"t", 0, 6, some ['R', '7']⟩]) [⟨"t", 0, -1001, none⟩]

theorem group_at_least_once_handover :
    let c := fun _ : Bool => handoverConfig
    let M := groupMachine (π := Unit) handoverBase c
    let s := Function.update (fun _ : Bool => Poller.new none) false
      ((pollerMachine Nat Unit handoverConfig).run (.new none) firstMember)
    let s' := M.next (M.next s (true, .consumeBegin)) (true, takeover)
    ((s' true).tracker? ⟨"t", 0⟩).map (·.2.completedOffsets.elems) = some [7] ∧
      AccountedFor handoverBase c s' ⟨"t", 0⟩ 7 := by
  intro c M s s'
  have h0 : M.Reachable fun _ => Poller.new none := .start fun _ => ⟨none, rfl⟩
  have h1 : M.Reachable s := by
    refine Machine.reachable_member_run firstMember (fun s a ha => ?_) h0 ?_
    · simp [firstMember, sampleAssign, sampleDispatch, sampleDrain] at ha
      rcases ha with rfl | rfl | rfl | rfl | rfl | rfl | rfl | rfl | rfl | rfl
      all_goals simp [Answers, Stored, handoverBase, KafkaTopicPartition.Blank]
    · refine allowed_of_readyRun firstMember (by decide) ?_ fun _ _ _ _ => trivial
      simp [firstMember, sampleAssign, sampleDispatch, sampleDrain, PollerAction.Lawful,
        acceptsPrefix_acceptingEnv]
  have h2 : M.Reachable (M.next s (true, .consumeBegin)) :=
    .next h1 ⟨⟨by decide, by trivial⟩, by trivial⟩ trivial
  have hanswers : Answers handoverBase (M.next s (true, .consumeBegin)) true takeover := by
    refine ⟨fun q hq => .inl (.inr ⟨false, .direct, 0, ?_⟩), by decide⟩
    cases List.mem_singleton.mp hq
    decide
  have h3 : M.Reachable s' := .next h2 ⟨⟨by decide, by trivial⟩, hanswers⟩ trivial
  have htracker : ((s' true).tracker? ⟨"t", 0⟩).map (·.2.completedOffsets.elems) = some [7] := by decide
  refine ⟨htracker, ?_⟩
  obtain ⟨⟨r, t⟩, ht, helems⟩ := Option.map_eq_some_iff.mp htracker
  refine (group_at_least_once h3 true).2 _ r t 7 ht (.inr ?_)
  show 7 ∈ t.completedOffsets.elems
  rw [helems]
  exact List.mem_singleton_self 7

end PyrallelConsumer
