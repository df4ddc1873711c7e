import PyrallelConsumer.ProcessRegistry
import PyrallelConsumer.Lib.Insertions

/-!
# PyrallelConsumer.RegistryFencing

Late registry events. The key of an entry has neither the id nor the epoch of its item, so an event of an
earlier attempt at the same offset comes to the entry of a later one. Timeouts and `done` events must
have the identity of the entry; a start may have another one, with a larger epoch.

* `apply_timeout_of_ne`, `apply_done_of_ne`, `apply_start_of_ne` — an event that comes to another entry.
* `registry_fenced` — the three together, and what it means for a sequence of events.
-/

set_option linter.unusedSectionVars false

namespace PyrallelConsumer

variable {κ π : Type}

/-- The key that an event names and the identity that it speaks of. -/
def RegistryEvent.about : RegistryEvent κ π → Option (InFlightRegistryKey × LogicalWorkIdentity)
  | .start key payload => some (key, payload.identity)
  | .timeout key payload _ _ => some (key, payload.identity)
  | .done key work => some (key, work)
  | .notStarted _ _ => none

namespace InFlightRegistry

variable {reg : InFlightRegistry κ π} {key : InFlightRegistryKey} {e : RegistryEntry κ π}

theorem apply_timeout_of_ne {payload : WorkItem κ π} (he : reg.get? key = some e)
    (hne : entryIdentity key e ≠ payload.identity) (attempt : Int) (error : PyStr) :
    apply reg (.timeout key payload attempt error) = reg := by
  simp only [apply, he]
  rw [if_neg hne]

theorem apply_done_of_ne {work : LogicalWorkIdentity} (he : reg.get? key = some e)
    (hne : entryIdentity key e ≠ work) : apply reg (.done key work) = reg := by
  simp only [apply, he]
  rw [if_neg hne]

theorem supersedes_iff {incoming existing : LogicalWorkIdentity} :
    supersedes incoming existing = true ↔
      incoming.topic = existing.topic ∧ incoming.partition = existing.partition ∧
        incoming.offset = existing.offset ∧ existing.epoch < incoming.epoch := by
  simp only [supersedes, Bool.and_eq_true, decide_eq_true_eq, gt_iff_lt, and_assoc]

/-- A start of another identity replaces the entry if it supersedes it, and does nothing otherwise. -/
theorem apply_start_of_ne {payload : WorkItem κ π} (he : reg.get? key = some e)
    (hne : entryIdentity key e ≠ payload.identity) :
    apply reg (.start key payload) =
      if supersedes payload.identity (entryIdentity key e) then reg.set key { payload := payload } else reg := by
  have href : refuses reg key payload = !supersedes payload.identity (entryIdentity key e) := by
    simp only [refuses, he]
    rw [decide_eq_true hne, Bool.true_and]
  simp only [apply, href]
  cases supersedes payload.identity (entryIdentity key e) <;> rfl

/-- The event is of a smaller epoch than the entry that its key holds. -/
def Stale (reg : InFlightRegistry κ π) (event : RegistryEvent κ π) : Prop :=
  ∃ key work e, event.about = some (key, work) ∧ reg.get? key = some e ∧
    work.epoch < (entryIdentity key e).epoch

/-- A stale event changes nothing, whatever its kind. -/
theorem apply_of_stale {event : RegistryEvent κ π} (h : Stale reg event) : apply reg event = reg := by
  obtain ⟨key, work, e, habout, he, hlt⟩ := h
  have hne : entryIdentity key e ≠ work := by
    intro heq
    rw [heq] at hlt
    omega
  cases event with
  | start key' payload =>
    cases habout
    have hsup : supersedes payload.identity (entryIdentity key e) = false := by
      rw [Bool.eq_false_iff, Ne, supersedes_iff]
      rintro ⟨-, -, -, hgt⟩
      omega
    rw [apply_start_of_ne he hne, hsup]
    rfl
  | timeout key' payload attempt error =>
    cases habout
    exact apply_timeout_of_ne he hne attempt error
  | done key' work' =>
    cases habout
    exact apply_done_of_ne he hne
  | notStarted => cases habout

end InFlightRegistry

open InFlightRegistry

/-- **Fencing by identity.** A timeout or a `done` event for another identity than that of the entry changes
nothing, a start replaces the entry of another identity only with a larger epoch at the same offset, and
stale events put in anywhere leave the last registry as it is. -/
theorem registry_fenced (reg : InFlightRegistry κ π) :
    (∀ key e (payload : WorkItem κ π) attempt error, reg.get? key = some e →
      entryIdentity key e ≠ payload.identity → apply reg (.timeout key payload attempt error) = reg) ∧
    (∀ key e work, reg.get? key = some e → entryIdentity key e ≠ work → apply reg (.done key work) = reg) ∧
    (∀ key e (payload : WorkItem κ π), reg.get? key = some e → entryIdentity key e ≠ payload.identity →
      (apply reg (.start key payload)).get? key ≠ some e →
        payload.tp.topic = key.topic ∧ payload.tp.partition = key.partition ∧ payload.offset = key.offset ∧
          e.payload.epoch < payload.epoch) ∧
    ∀ events events', Interspersed apply Stale reg events events' →
      events'.foldl apply reg = events.foldl apply reg := by
  refine ⟨fun key e payload attempt error he hne => apply_timeout_of_ne he hne attempt error,
    fun key e work he hne => apply_done_of_ne he hne, ?_, ?_⟩
  · intro key e payload he hne hreplaced
    rw [apply_start_of_ne he hne] at hreplaced
    split at hreplaced
    · rename_i hsup
      exact supersedes_iff.mp hsup
    · exact absurd he hreplaced
  · intro events events' h
    exact foldl_interspersed (fun _ _ => apply_of_stale) h

section Examples

/-- The item of one offset of a partition, under an epoch. -/
def itemOfEpoch (epoch : Nat) : WorkItem Unit Unit := ⟨.uuid epoch, ⟨"t", 0⟩, 5, epoch, (), (), 0, none⟩

/-- The worker reported the start of the second epoch. -/
def secondEpochStarted : InFlightRegistry Unit Unit :=
  Dict.empty.set ⟨0, "t", 0, 5⟩ { payload := itemOfEpoch 2 }

/-- Events of the first epoch come after the start of the second one, and then a start of the third. -/
theorem registry_fenced_late_events :
    let key : InFlightRegistryKey := ⟨0, "t", 0, 5⟩
    apply secondEpochStarted (.timeout key (itemOfEpoch 1) 1 (.text "slow")) = secondEpochStarted ∧
      apply secondEpochStarted (.done key (itemOfEpoch 1).identity) = secondEpochStarted ∧
      (itemOfEpoch 3).tp.topic = key.topic ∧
      [RegistryEvent.start key (itemOfEpoch 1), .done key (itemOfEpoch 2).identity].foldl apply secondEpochStarted =
        [RegistryEvent.done key (itemOfEpoch 2).identity].foldl apply secondEpochStarted := by
  intro key
  obtain ⟨htimeout, hdone, hstart, hruns⟩ := registry_fenced secondEpochStarted
  have hentry : secondEpochStarted.get? key = some { payload := itemOfEpoch 2 } := by decide
  have hstale : Stale secondEpochStarted (.start key (itemOfEpoch 1)) :=
    ⟨key, (itemOfEpoch 1).identity, { payload := itemOfEpoch 2 }, rfl, hentry, by decide⟩
  refine ⟨htimeout key _ (itemOfEpoch 1) 1 (.text "slow") hentry (by decide),
    hdone key _ (itemOfEpoch 1).identity hentry (by decide), ?_, ?_⟩
  · exact (hstart key _ (itemOfEpoch 3) hentry (by decide) (by decide)).1
  · exact hruns _ _ (.insert hstale (interspersed_refl _ _))

end Examples

end PyrallelConsumer
