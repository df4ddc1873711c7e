import Mathlib.Data.Finset.Card
import PyrallelConsumer.CoordinatorRuns

/-!
# PyrallelConsumer.CoordinatorCapacity

When `enqueue` finds no room. The projected size adds the numbers of pending and of in-flight
candidates, so a partition that has both is counted twice.

* `enqueueOne_opens` — one candidate either opens an entry of the outbox or leaves its keys alone.
* `openPartitions_enqueueCall` — the partitions a call opens are those of `newcomers`.
* `returned_false_iff` — when exactly a call is refused.
* `rejects_only_over_capacity_iff` — when exactly a refusal means that the outbox is full.
-/

namespace PyrallelConsumer

namespace CommitCoordinator

/-! ## What a list of candidates would open -/

/-- The candidate passes the checks of `enqueue` and its partition has no pending one. -/
def opens (s : CommitCoordinator) (c : CommitCandidate) : Bool :=
  c.tp ∉ s.stoppedPartitions && (s.latestSettledOffsets.get? c.tp).getD (-1) < c.safeOffset &&
    (s.pending.get? c.tp).isNone && !notNewer c (s.inFlight.get? c.tp)

/-- The partitions that get a pending candidate from the list, in order. -/
def newcomers (s : CommitCoordinator) (cs : List CommitCandidate) : List TopicPartition :=
  ((cs.filter s.opens).map (·.tp)).eraseDups

/-- The partitions pending or in flight once the whole list is accepted. -/
def openAfter (s : CommitCoordinator) (cs : List CommitCandidate) : Finset TopicPartition :=
  s.openPartitions ∪ (s.newcomers cs).toFinset

/-- The partitions both pending and in flight when the last newcomer has its turn. -/
def openTwice (s : CommitCoordinator) (cs : List CommitCandidate) : Finset TopicPartition :=
  (s.pending.keys.toFinset ∪ (s.newcomers cs).dropLast.toFinset) ∩ s.inFlight.keys.toFinset

/-- The partitions that are counted twice leave room for the newcomers, or there is no room anyway. -/
def CountsFit (config : CommitCoordinatorConfig) (s : CommitCoordinator) (cs : List CommitCandidate) :
    Prop :=
  s.newcomers cs = [] ∨ config.queueMaxPartitions < (s.openAfter cs).card ∨
    (s.openAfter cs).card + (s.openTwice cs).card ≤ config.queueMaxPartitions

instance (config : CommitCoordinatorConfig) (s : CommitCoordinator) (cs : List CommitCandidate) :
    Decidable (CountsFit config s cs) := by unfold CountsFit; infer_instance

/-- Accepting a candidate for a partition without a pending one. -/
structure OpensEntry (s : CommitCoordinator) (c : CommitCandidate) (s' : CommitCoordinator) : Prop where
  frame : SameFrame s' s
  pending : ∀ tp, (s'.pending.get? tp).isSome ↔ c.tp = tp ∨ (s.pending.get? tp).isSome

/-- The outbox has entries for the same partitions. -/
structure SameEntries (s s' : CommitCoordinator) : Prop where
  frame : SameFrame s' s
  pending : ∀ tp, (s'.pending.get? tp).isSome ↔ (s.pending.get? tp).isSome

theorem SameEntries.refl (s : CommitCoordinator) : SameEntries s s :=
  ⟨⟨rfl, rfl, rfl, rfl, rfl⟩, fun _ => Iff.rfl⟩

/-- One candidate opens an entry, if there is room, or it changes no key of the outbox. -/
theorem enqueueOne_opens (config : CommitCoordinatorConfig) (s : CommitCoordinator)
    (c : CommitCandidate) :
    (s.opens c = false ∧ ∃ s', s.enqueueOne config c = some s' ∧ SameEntries s s') ∨
    (s.opens c = true ∧ s.pending.get? c.tp = none ∧
      ((config.queueMaxPartitions < s.projectedSize c.tp ∧ s.enqueueOne config c = none) ∨
       (s.projectedSize c.tp ≤ config.queueMaxPartitions ∧
        ∃ s', s.enqueueOne config c = some s' ∧ OpensEntry s c s'))) := by
  unfold opens enqueueOne
  dsimp only
  by_cases hstop : c.tp ∈ s.stoppedPartitions
  · rw [if_pos hstop]
    exact .inl ⟨by simp [hstop], s, rfl, .refl s⟩
  rw [if_neg hstop]
  by_cases hset : c.safeOffset ≤ (s.latestSettledOffsets.get? c.tp).getD (-1)
  · rw [if_pos hset]
    exact .inl ⟨by simp [Int.not_lt.mpr hset], s, rfl, .refl s⟩
  rw [if_neg hset]
  cases hcur : s.pending.get? c.tp with
  | some current =>
    refine .inl ⟨by simp, ?_⟩
    dsimp only
    split
    · exact ⟨s, rfl, .refl s⟩
    · refine ⟨_, rfl, ⟨rfl, rfl, rfl, rfl, rfl⟩, fun tp => ?_⟩
      show ((s.pending.set c.tp _).get? tp).isSome ↔ _
      rw [Dict.get?_set]
      split
      · rename_i heq; rw [← heq, hcur]; simp
      · rfl
  | none =>
    have hroom : ∀ t : CommitCoordinator, SameFrame t s →
        t.pending = s.pending.set c.tp { c with leaseId := s.leaseCounter + 1 } →
        (config.queueMaxPartitions < s.projectedSize c.tp ∧
          (if s.projectedSize c.tp > config.queueMaxPartitions then none else some t) = none) ∨
        (s.projectedSize c.tp ≤ config.queueMaxPartitions ∧ ∃ s',
          (if s.projectedSize c.tp > config.queueMaxPartitions then none else some t) = some s' ∧
          OpensEntry s c s') := by
      intro t hframe hpending
      by_cases hfull : s.projectedSize c.tp > config.queueMaxPartitions
      · exact .inl ⟨hfull, if_pos hfull⟩
      · refine .inr ⟨Nat.not_lt.mp hfull, t, if_neg hfull, hframe, fun tp => ?_⟩
        rw [hpending, Dict.get?_set]
        split
        · rename_i heq; simp [heq]
        · rename_i hne; simp [hne]
    cases hf : s.inFlight.get? c.tp with
    | none =>
      refine .inr ⟨?_, rfl, hroom _ ⟨rfl, rfl, rfl, rfl, rfl⟩ rfl⟩
      simp [hstop, Int.not_le.mp hset, notNewer]
    | some f =>
      dsimp only
      by_cases hnew : c.safeOffset ≤ f.safeOffset
      · rw [if_pos hnew]
        refine .inl ⟨?_, s, rfl, .refl s⟩
        simp [notNewer, hnew]
      · rw [if_neg hnew]
        refine .inr ⟨?_, rfl, hroom _ ⟨rfl, rfl, rfl, rfl, rfl⟩ rfl⟩
        simp [hstop, Int.not_le.mp hset, notNewer, Int.not_le.mp hnew]

theorem enqueueOne_frame {config : CommitCoordinatorConfig} {s s' : CommitCoordinator}
    {c : CommitCandidate} (h : s.enqueueOne config c = some s') : SameFrame s' s := by
  rcases enqueueOne_opens config s c with
    ⟨-, t, ht, hsame⟩ | ⟨-, -, ⟨-, hnone⟩ | ⟨-, t, ht, hopened⟩⟩
  · rw [h] at ht; cases ht; exact hsame.frame
  · rw [h] at hnone; cases hnone
  · rw [h] at ht; cases ht; exact hopened.frame

/-! ## The lists of newcomers along the loop -/

theorem mem_keys {d : Dict TopicPartition CommitCandidate} {tp : TopicPartition} :
    tp ∈ d.keys.toFinset ↔ (d.get? tp).isSome := by
  rw [List.mem_toFinset, Dict.mem_keys_iff]

theorem pendingKeys_sameEntries {s t : CommitCoordinator} (h : SameEntries s t) :
    t.pending.keys.toFinset = s.pending.keys.toFinset := by
  ext tp
  rw [mem_keys, mem_keys, h.pending]

theorem pendingKeys_opensEntry {s t : CommitCoordinator} {c : CommitCandidate} (h : OpensEntry s c t) :
    t.pending.keys.toFinset = insert c.tp s.pending.keys.toFinset := by
  ext tp
  rw [Finset.mem_insert, mem_keys, mem_keys, h.pending, eq_comm]

theorem opens_sameEntries {s t : CommitCoordinator} (h : SameEntries s t) (d : CommitCandidate) :
    t.opens d = s.opens d := by
  have hnone : (t.pending.get? d.tp).isNone = (s.pending.get? d.tp).isNone := by
    rw [← Option.not_isSome, ← Option.not_isSome, Bool.eq_iff_iff.mpr (h.pending d.tp)]
  unfold opens
  rw [hnone, h.frame.stopped, h.frame.settled, h.frame.inFlight]

theorem opens_opensEntry {s t : CommitCoordinator} {c : CommitCandidate} (h : OpensEntry s c t)
    (d : CommitCandidate) : t.opens d = (s.opens d && d.tp ≠ c.tp) := by
  have hnone : (t.pending.get? d.tp).isNone = ((s.pending.get? d.tp).isNone && d.tp ≠ c.tp) := by
    rw [Bool.eq_iff_iff, Bool.and_eq_true, decide_eq_true_eq, ← Option.not_isSome,
      ← Option.not_isSome, Bool.not_eq_true', Bool.not_eq_true', ← Bool.not_eq_true,
      ← Bool.not_eq_true, h.pending, not_or, eq_comm, and_comm]
  unfold opens
  rw [hnone, h.frame.stopped, h.frame.settled, h.frame.inFlight]
  ac_rfl

theorem newcomers_cons_of_not_opens {s t : CommitCoordinator} {c : CommitCandidate}
    {cs : List CommitCandidate} (hc : s.opens c = false) (h : SameEntries s t) :
    s.newcomers (c :: cs) = t.newcomers cs := by
  unfold newcomers
  rw [List.filter_cons_of_neg (by rw [hc]; exact Bool.false_ne_true), funext (opens_sameEntries h)]

theorem newcomers_cons_of_opens {s t : CommitCoordinator} {c : CommitCandidate}
    (hc : s.opens c = true) (h : OpensEntry s c t) (cs : List CommitCandidate) :
    s.newcomers (c :: cs) = c.tp :: t.newcomers cs := by
  unfold newcomers
  rw [List.filter_cons_of_pos hc, List.map_cons, List.eraseDups_cons, List.filter_map,
    List.filter_filter]
  have hopens : ∀ d, t.opens d = (s.opens d && !(d.tp == c.tp)) := by
    intro d
    rw [opens_opensEntry h d, beq_eq_decide, decide_not]
  rw [funext hopens]
  congr 4
  funext d
  exact Bool.and_comm _ _

theorem newcomers_of_opens_full {s : CommitCoordinator} {c : CommitCandidate} (hc : s.opens c = true)
    (cs : List CommitCandidate) : ∃ l, s.newcomers (c :: cs) = c.tp :: l := by
  unfold newcomers
  rw [List.filter_cons_of_pos hc, List.map_cons, List.eraseDups_cons]
  exact ⟨_, rfl⟩

theorem openPartitions_sameEntries {s t : CommitCoordinator} (h : SameEntries s t) :
    t.openPartitions = s.openPartitions := by
  unfold openPartitions
  rw [pendingKeys_sameEntries h, h.frame.inFlight]

theorem openPartitions_opensEntry {s t : CommitCoordinator} {c : CommitCandidate}
    (h : OpensEntry s c t) : t.openPartitions = insert c.tp s.openPartitions := by
  unfold openPartitions
  rw [pendingKeys_opensEntry h, h.frame.inFlight, Finset.insert_union]

theorem openAfter_cons_of_not_opens {s t : CommitCoordinator} {c : CommitCandidate}
    {cs : List CommitCandidate} (hc : s.opens c = false) (h : SameEntries s t) :
    s.openAfter (c :: cs) = t.openAfter cs := by
  unfold openAfter
  rw [newcomers_cons_of_not_opens hc h, openPartitions_sameEntries h]

theorem openAfter_cons_of_opens {s t : CommitCoordinator} {c : CommitCandidate}
    {cs : List CommitCandidate} (hc : s.opens c = true) (h : OpensEntry s c t) :
    s.openAfter (c :: cs) = t.openAfter cs := by
  unfold openAfter
  rw [newcomers_cons_of_opens hc h, openPartitions_opensEntry h, List.toFinset_cons,
    Finset.insert_union, Finset.union_insert]

/-- A call that is not refused opens the partitions of its newcomers and no other. -/
theorem openPartitions_enqueueLoop {config : CommitCoordinatorConfig} (cs : List CommitCandidate) :
    ∀ {s t : CommitCoordinator}, s.enqueueLoop config cs = some t →
      t.openPartitions = s.openAfter cs := by
  induction cs with
  | nil =>
    intro s t h
    cases h
    exact (Finset.union_empty _).symm
  | cons c cs ih =>
    intro s t h
    obtain ⟨u, hone, hrest⟩ := Option.bind_eq_some_iff.mp h
    rw [ih hrest]
    rcases enqueueOne_opens config s c with
      ⟨hc, v, hv, hsame⟩ | ⟨hc, -, ⟨-, hv⟩ | ⟨-, v, hv, hopened⟩⟩
    · rw [hone] at hv; cases hv
      exact (openAfter_cons_of_not_opens hc hsame).symm
    · rw [hone] at hv; cases hv
    · rw [hone] at hv; cases hv
      exact (openAfter_cons_of_opens hc hopened).symm

theorem openPartitions_enqueueCall {config : CommitCoordinatorConfig} {s : CommitCoordinator}
    {cs : List CommitCandidate} (h : (s.enqueueCall config cs).returned = true) :
    (s.enqueueCall config cs).coordinator.openPartitions = s.openAfter cs := by
  have heq := enqueueCall_eq config s cs
  unfold enqueue at heq
  split at heq
  · rw [(Prod.mk.inj heq).1] at h; cases h
  · split at heq
    · rw [(Prod.mk.inj heq).1] at h; cases h
    · rename_i t hloop
      rw [(Prod.mk.inj heq).2]
      exact openPartitions_enqueueLoop cs hloop

/-! ## When the projected size is too large -/

/-- The projected size counts a partition twice that is both pending and in flight. -/
theorem projectedSize_eq {s : CommitCoordinator} {tp : TopicPartition} (h : s.pending.get? tp = none) :
    s.projectedSize tp = (insert tp s.openPartitions).card +
      (s.pending.keys.toFinset ∩ s.inFlight.keys.toFinset).card := by
  have hsize : ∀ d : Dict TopicPartition CommitCandidate, d.size = d.keys.toFinset.card := by
    intro d
    rw [Dict.keys, List.toFinset_card_of_nodup d.nodup, List.length_map]
    rfl
  have hboth := Finset.card_union_add_card_inter s.pending.keys.toFinset s.inFlight.keys.toFinset
  have hpending : tp ∉ s.pending.keys.toFinset := by rw [mem_keys, h]; exact Bool.false_ne_true
  unfold projectedSize openPartitions
  rw [hsize, hsize, ← hboth]
  by_cases hf : (s.inFlight.get? tp).isSome
  · rw [Finset.insert_eq_of_mem (Finset.mem_union_right _ (mem_keys.mpr hf)),
      if_pos (show s.inFlight.contains tp = true from hf)]
    rfl
  · have hnot : tp ∉ s.pending.keys.toFinset ∪ s.inFlight.keys.toFinset := by
      rw [Finset.mem_union, not_or]
      exact ⟨hpending, mt mem_keys.mp hf⟩
    rw [Finset.card_insert_of_notMem hnot, if_neg (show ¬ s.inFlight.contains tp = true from hf)]
    omega

/-- The loop finds no room if and only if the last newcomer does not. -/
theorem enqueueLoop_eq_none_iff (config : CommitCoordinatorConfig) (cs : List CommitCandidate) :
    ∀ s : CommitCoordinator, s.enqueueLoop config cs = none ↔
      s.newcomers cs ≠ [] ∧
        config.queueMaxPartitions < (s.openAfter cs).card + (s.openTwice cs).card := by
  induction cs with
  | nil =>
    intro s
    constructor
    · intro h; cases h
    · intro h; exact absurd rfl h.1
  | cons c cs ih =>
    intro s
    rw [enqueueLoop]
    rcases enqueueOne_opens config s c with
      ⟨hc, t, hone, hsame⟩ | ⟨hc, hnone, ⟨hfull, hone⟩ | ⟨hroom, t, hone, hopened⟩⟩
    · have htwice : s.openTwice (c :: cs) = t.openTwice cs := by
        unfold openTwice
        rw [newcomers_cons_of_not_opens hc hsame, pendingKeys_sameEntries hsame, hsame.frame.inFlight]
      rw [hone, newcomers_cons_of_not_opens hc hsame, openAfter_cons_of_not_opens hc hsame, htwice]
      exact ih t
    · -- what is counted only grows with the newcomers that follow
      obtain ⟨l, hl⟩ := newcomers_of_opens_full hc cs
      rw [hone, hl]
      refine iff_of_true rfl ⟨List.cons_ne_nil _ _, hfull.trans_le ?_⟩
      rw [projectedSize_eq hnone]
      refine Nat.add_le_add (Finset.card_le_card ?_) (Finset.card_le_card ?_)
      · unfold openAfter
        rw [hl, List.toFinset_cons, Finset.union_insert]
        exact Finset.insert_subset_insert _ Finset.subset_union_left
      · exact Finset.inter_subset_inter Finset.subset_union_left (Finset.Subset.refl _)
    · have hnew := newcomers_cons_of_opens hc hopened cs
      rw [hone, hnew, openAfter_cons_of_opens hc hopened]
      refine (ih t).trans ?_
      cases hrest : t.newcomers cs with
      | nil =>
        -- the last newcomer had its room
        refine iff_of_false (fun h => h.1 rfl) (fun h => ?_)
        have htwice : s.openTwice (c :: cs) = s.pending.keys.toFinset ∩ s.inFlight.keys.toFinset := by
          unfold openTwice
          rw [hnew, hrest]
          exact congrArg (· ∩ _) (Finset.union_empty _)
        have hafter : t.openAfter cs = insert c.tp s.openPartitions := by
          unfold openAfter
          rw [hrest, openPartitions_opensEntry hopened]
          exact Finset.union_empty _
        rw [htwice, hafter, ← projectedSize_eq hnone] at h
        omega
      | cons tp l =>
        have htwice : s.openTwice (c :: cs) = t.openTwice cs := by
          unfold openTwice
          rw [hnew, hrest, List.dropLast_cons_of_ne_nil (List.cons_ne_nil _ _), List.toFinset_cons,
            pendingKeys_opensEntry hopened, hopened.frame.inFlight, Finset.insert_union,
            Finset.union_insert]
        rw [htwice]
        exact and_congr_left fun _ => iff_of_true (List.cons_ne_nil _ _) (List.cons_ne_nil _ _)

theorem returned_false_iff {config : CommitCoordinatorConfig} {s : CommitCoordinator}
    (ha : s.accepting = true) (hh : s.healthy = true) (cs : List CommitCandidate) :
    (s.enqueueCall config cs).returned = false ↔
      s.newcomers cs ≠ [] ∧
        config.queueMaxPartitions < (s.openAfter cs).card + (s.openTwice cs).card := by
  rw [← enqueueLoop_eq_none_iff config cs s]
  have heq := (Prod.ext_iff.mp (enqueueCall_eq config s cs)).1
  unfold enqueue at heq
  rw [if_neg (by simp [ha, hh])] at heq
  change (s.enqueueCall config cs).returned = _ at heq
  rw [heq]
  cases hloop : s.enqueueLoop config cs with
  | none => exact iff_of_true rfl rfl
  | some t => exact iff_of_false Bool.noConfusion (fun h => by cases h)

/-- **When a refusal means a full outbox.** In every state that is accepting and healthy, reachable or
not, and for every list of candidates: `enqueue` refuses the list only when it would take the partitions
pending or in flight over `queue_max_partitions` if and only if the partitions that are counted twice
leave room. With room for all assigned partitions, their candidates are accepted under the same
condition. -/
theorem rejects_only_over_capacity_iff {config : CommitCoordinatorConfig} {s : CommitCoordinator}
    (ha : s.accepting = true) (hh : s.healthy = true) (cs : List CommitCandidate) :
    (((s.enqueueCall config cs).returned = false →
        config.queueMaxPartitions < (s.openAfter cs).card) ↔ CountsFit config s cs) ∧
    ∀ assigned : Finset TopicPartition, assigned.card ≤ config.queueMaxPartitions →
      s.openPartitions ⊆ assigned → (∀ c ∈ cs, c.tp ∈ assigned) →
      ((s.enqueueCall config cs).returned = true ↔ CountsFit config s cs) := by
  have hiff := @returned_false_iff config s ha hh cs
  refine ⟨?_, fun assigned hcard hopen hcs => ?_⟩
  · rw [hiff]
    unfold CountsFit
    constructor
    · intro h
      by_cases hnil : s.newcomers cs = []
      · exact .inl hnil
      · by_cases hover : config.queueMaxPartitions < (s.openAfter cs).card + (s.openTwice cs).card
        · exact .inr (.inl (h ⟨hnil, hover⟩))
        · exact .inr (.inr (Nat.not_lt.mp hover))
    · rintro (hnil | hover | hfit) ⟨hne, hgt⟩
      · exact absurd hnil hne
      · exact hover
      · omega
  · -- everything open afterwards is assigned
    have hsub : s.openAfter cs ⊆ assigned := by
      refine Finset.union_subset hopen (fun tp htp => ?_)
      rw [List.mem_toFinset, newcomers, List.mem_eraseDups, List.mem_map] at htp
      obtain ⟨c, hc, rfl⟩ := htp
      exact hcs c (List.mem_filter.mp hc).1
    have hle := (Finset.card_le_card hsub).trans hcard
    rw [← Bool.not_eq_false, hiff, not_and_or, not_not, Nat.not_lt]
    unfold CountsFit
    constructor
    · rintro (hnil | hfit)
      · exact .inl hnil
      · exact .inr (.inr hfit)
    · rintro (hnil | hover | hfit)
      · exact .inl hnil
      · omega
      · exact .inr hfit

end CommitCoordinator

namespace CoordinatorRun

open CommitCoordinator

section Examples

/-- Both partitions are in flight. -/
def twoInFlight : CoordinatorRun := (coordinatorMachine outboxOfTwo).run {}
  [.enqueue [sampleCandidate 0 5, sampleCandidate 1 3], .takeBatch]

theorem reachable_twoInFlight : (coordinatorMachine outboxOfTwo).Reachable twoInFlight :=
  (coordinatorMachine outboxOfTwo).reachableBy_run _ (.start rfl)
    ⟨rfl, trivial, (by decide : _ = true), trivial, trivial⟩

theorem accepts_newer_of_one_in_flight :
    CountsFit outboxOfTwo twoInFlight.coordinator [sampleCandidate 0 7] ∧
    (twoInFlight.coordinator.enqueueCall outboxOfTwo [sampleCandidate 0 7]).returned = true := by
  have hfit : CountsFit outboxOfTwo twoInFlight.coordinator [sampleCandidate 0 7] := by decide
  have hiff := (@rejects_only_over_capacity_iff outboxOfTwo twoInFlight.coordinator (by decide)
    (by decide) [sampleCandidate 0 7]).2 twoInFlight.coordinator.openPartitions (by decide)
    (Finset.Subset.refl _) (by decide)
  exact ⟨hfit, hiff.mpr hfit⟩

/-- Newer candidates for both partitions in flight are refused by an outbox that has room for two
partitions. -/
theorem rejects_newer_of_two_in_flight :
    (coordinatorMachine outboxOfTwo).Reachable twoInFlight ∧
    twoInFlight.coordinator.accepting = true ∧ twoInFlight.coordinator.healthy = true ∧
    (twoInFlight.coordinator.enqueueCall outboxOfTwo
      [sampleCandidate 0 7, sampleCandidate 1 4]).returned = false ∧
    twoInFlight.coordinator.openAfter [sampleCandidate 0 7, sampleCandidate 1 4] =
      {⟨"topic", 0⟩, ⟨"topic", 1⟩} ∧
    (twoInFlight.coordinator.openAfter [sampleCandidate 0 7, sampleCandidate 1 4]).card ≤
      outboxOfTwo.queueMaxPartitions :=
  ⟨reachable_twoInFlight, by decide, by decide, by decide, by decide, by decide⟩

end Examples

end CoordinatorRun

end PyrallelConsumer
