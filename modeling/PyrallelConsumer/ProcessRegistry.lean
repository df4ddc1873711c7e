import PyrallelConsumer.ProcessTransport

/-!
# PyrallelConsumer.ProcessRegistry

The in-flight registry of `execution_plane/process_registry_support.py`: what the parent believes the
workers to be executing, kept up to date by the registry events of the workers and by completions.
Events that only carry timings change nothing here and are left out.

* `registers_start`, `registers_timeout`, `registers_done` — what an event can take off the registry.
* `registers_recover` — recovery turns every entry of a worker into a failure or a payload.
-/

set_option linter.unusedSectionVars false

namespace PyrallelConsumer

/-- The fields `timeout_error` and `attempt` of an entry that is marked `timed_out`. -/
structure TimeoutMark where
  error : PyStr
  attempt : Int
deriving DecidableEq, Repr

structure RegistryEntry (κ π : Type) where
  payload : WorkItem κ π
  timedOut : Option TimeoutMark := none
deriving DecidableEq, Repr

/-- A `done` event carries the identity of its item only. -/
inductive RegistryEvent (κ π : Type) where
  | start (key : InFlightRegistryKey) (payload : WorkItem κ π)
  | timeout (key : InFlightRegistryKey) (payload : WorkItem κ π) (attempt : Int) (error : PyStr)
  | done (key : InFlightRegistryKey) (work : LogicalWorkIdentity)
  | notStarted (batchId : Nat) (payloads : List (WorkItem κ π))
deriving DecidableEq, Repr

abbrev InFlightRegistry (κ π : Type) := Dict InFlightRegistryKey (RegistryEntry κ π)

/-- The event of `_emit_worker_recovery_failure`. -/
def WorkItem.recoveryFailure {κ π : Type} (x : WorkItem κ π) (error : PyStr) (attempt : Int) :
    CompletionEvent :=
  { id := x.id
    tp := x.tp
    offset := x.offset
    epoch := x.epoch
    status := .failure
    error := some error
    attempt := attempt }

@[simp] theorem identity_recoveryFailure {κ π : Type} (x : WorkItem κ π) (error : PyStr) (attempt : Int) :
    (x.recoveryFailure error attempt).identity = x.identity := rfl

/-- What a recovery hands on: terminal failures and payloads to be dispatched again. -/
structure Recovery (κ π : Type) where
  failures : List CompletionEvent
  payloads : List (WorkItem κ π)

namespace Recovery

variable {κ π : Type}

def append (r r' : Recovery κ π) : Recovery κ π := ⟨r.failures ++ r'.failures, r.payloads ++ r'.payloads⟩

/-- A payload of a dead worker within its retry budget is dispatched again. -/
def ofPayload (maxRetries : Int) (x : WorkItem κ π) : Recovery κ π :=
  if x.requeueAttempts ≥ maxRetries then
    ⟨[x.recoveryFailure (.text "worker_died_max_retries") x.requeueAttempts], []⟩
  else ⟨[], [{ x with requeueAttempts := x.requeueAttempts + 1 }]⟩

/-- An entry that timed out fails with the attempt of its timeout. -/
def ofEntry (maxRetries : Int) (e : RegistryEntry κ π) : Recovery κ π :=
  match e.timedOut with
  | some mark => ⟨[e.payload.recoveryFailure mark.error mark.attempt], []⟩
  | none => ofPayload maxRetries e.payload

def collect {α : Type} (f : α → Recovery κ π) (l : List α) : Recovery κ π :=
  l.foldr (fun a r => (f a).append r) ⟨[], []⟩

/-- The identity is in a failure or in a payload. -/
def Covers (r : Recovery κ π) (work : LogicalWorkIdentity) : Prop :=
  (∃ e ∈ r.failures, e.identity = work) ∨ ∃ x ∈ r.payloads, x.identity = work

theorem covers_append_left {r r' : Recovery κ π} {work : LogicalWorkIdentity} (h : r.Covers work) :
    (r.append r').Covers work := by
  rcases h with ⟨e, he, hwork⟩ | ⟨x, hx, hwork⟩
  · exact .inl ⟨e, List.mem_append_left _ he, hwork⟩
  · exact .inr ⟨x, List.mem_append_left _ hx, hwork⟩

theorem covers_append_right {r r' : Recovery κ π} {work : LogicalWorkIdentity} (h : r'.Covers work) :
    (r.append r').Covers work := by
  rcases h with ⟨e, he, hwork⟩ | ⟨x, hx, hwork⟩
  · exact .inl ⟨e, List.mem_append_right _ he, hwork⟩
  · exact .inr ⟨x, List.mem_append_right _ hx, hwork⟩

theorem covers_ofPayload (maxRetries : Int) (x : WorkItem κ π) : (ofPayload maxRetries x).Covers x.identity := by
  unfold ofPayload
  split
  · exact .inl ⟨_, List.mem_singleton_self _, identity_recoveryFailure x _ _⟩
  · exact .inr ⟨_, List.mem_singleton_self _, rfl⟩

theorem covers_ofEntry (maxRetries : Int) (e : RegistryEntry κ π) :
    (ofEntry maxRetries e).Covers e.payload.identity := by
  unfold ofEntry
  split
  · exact .inl ⟨_, List.mem_singleton_self _, identity_recoveryFailure e.payload _ _⟩
  · exact covers_ofPayload maxRetries e.payload

theorem covers_collect {α : Type} {f : α → Recovery κ π} {l : List α} {a : α} {work : LogicalWorkIdentity}
    (ha : a ∈ l) (h : (f a).Covers work) : (collect f l).Covers work := by
  induction l with
  | nil => cases ha
  | cons b l ih =>
    rcases List.mem_cons.mp ha with rfl | ha
    · exact covers_append_left h
    · exact covers_append_right (ih ha)

theorem mem_failures_collect {α : Type} {f : α → Recovery κ π} {l : List α} {e : CompletionEvent}
    (he : e ∈ (collect f l).failures) : ∃ a ∈ l, e ∈ (f a).failures := by
  induction l with
  | nil => cases he
  | cons b l ih =>
    rcases List.mem_append.mp he with he | he
    · exact ⟨b, List.mem_cons_self, he⟩
    · obtain ⟨a, ha, he⟩ := ih he
      exact ⟨a, List.mem_cons_of_mem _ ha, he⟩

end Recovery

namespace InFlightRegistry

variable {κ π : Type}

/-- `logical_work_identity_from_registry_entry`. -/
def entryIdentity (key : InFlightRegistryKey) (e : RegistryEntry κ π) : LogicalWorkIdentity :=
  ⟨key.topic, key.partition, key.offset, e.payload.id, e.payload.epoch⟩

/-- `_start_event_supersedes_registry_entry`. -/
def supersedes (incoming existing : LogicalWorkIdentity) : Bool :=
  incoming.topic = existing.topic && incoming.partition = existing.partition &&
    incoming.offset = existing.offset && decide (incoming.epoch > existing.epoch)

/-- A start is refused when another identity holds its key and is not superseded. -/
def refuses (reg : InFlightRegistry κ π) (key : InFlightRegistryKey) (payload : WorkItem κ π) : Bool :=
  match reg.get? key with
  | none => false
  | some e => entryIdentity key e ≠ payload.identity && !supersedes payload.identity (entryIdentity key e)

/-- `apply_registry_event`. -/
def apply (reg : InFlightRegistry κ π) : RegistryEvent κ π → InFlightRegistry κ π
  | .start key payload => if refuses reg key payload then reg else reg.set key { payload := payload }
  | .timeout key payload attempt error =>
    match reg.get? key with
    | none => reg
    | some e =>
      if entryIdentity key e = payload.identity then reg.set key ⟨e.payload, some ⟨error, attempt⟩⟩
      else reg
  | .done key work =>
    match reg.get? key with
    | none => reg
    | some e => if entryIdentity key e = work then reg.erase key else reg
  | .notStarted _ _ => reg

/-- `discard_completion_from_registry`. -/
def discardCompletion (reg : InFlightRegistry κ π) (e : CompletionEvent) : InFlightRegistry κ π :=
  reg.filter fun key entry => entryIdentity key entry ≠ e.identity

/-- The entries of a worker, oldest first. -/
def entriesOf (reg : InFlightRegistry κ π) (w : Nat) : List (RegistryEntry κ π) :=
  (reg.entries.filter fun e => e.1.workerIndex = w).map Prod.snd

/-- `recover_dead_worker_items`. -/
def recoverDeadWorkerItems (maxRetries : Int) (reg : InFlightRegistry κ π) (w : Nat) :
    Recovery κ π × InFlightRegistry κ π :=
  (.collect (.ofEntry maxRetries) (entriesOf reg w), reg.filter fun key _ => key.workerIndex ≠ w)

/-! ## What is registered -/

/-- The identity has an entry. -/
def Registers (reg : InFlightRegistry κ π) (work : LogicalWorkIdentity) : Prop :=
  ∃ key e, reg.get? key = some e ∧ entryIdentity key e = work

/-- Every entry is under the key of its payload. -/
def Keyed (reg : InFlightRegistry κ π) : Prop :=
  ∀ key e, reg.get? key = some e → key = e.payload.registryKey key.workerIndex

variable {reg : InFlightRegistry κ π} {work : LogicalWorkIdentity}

theorem entryIdentity_of_keyed (hk : Keyed reg) {key : InFlightRegistryKey} {e : RegistryEntry κ π}
    (h : reg.get? key = some e) : entryIdentity key e = e.payload.identity := by
  rw [hk key e h]
  rfl

/-- Assigning to a key keeps the identities, if the key had the same one or none. -/
theorem registers_set {key : InFlightRegistryKey} {e : RegistryEntry κ π} (h : Registers reg work)
    (hkey : ∀ e', reg.get? key = some e' → entryIdentity key e' = entryIdentity key e) :
    Registers (reg.set key e) work := by
  obtain ⟨key', e', hget, rfl⟩ := h
  by_cases hk : key = key'
  · subst hk
    exact ⟨key, e, by simp, (hkey e' hget).symm⟩
  · exact ⟨key', e', by simp [Dict.get?_set, hk, hget], rfl⟩

theorem keyed_set {key : InFlightRegistryKey} {e : RegistryEntry κ π} (hreg : Keyed reg)
    (hkey : key = e.payload.registryKey key.workerIndex) : Keyed (reg.set key e) := by
  intro key' e' h
  rw [Dict.get?_set] at h
  split at h
  · rename_i hk
    cases h
    exact hk ▸ hkey
  · exact hreg key' e' h

theorem keyed_filter (hreg : Keyed reg) (p : InFlightRegistryKey → RegistryEntry κ π → Bool) :
    Keyed (reg.filter p) := by
  intro key e h
  rw [Dict.get?_filter] at h
  exact hreg key e (Option.filter_eq_some_iff.mp h).1

theorem keyed_erase (hreg : Keyed reg) (key : InFlightRegistryKey) : Keyed (reg.erase key) := by
  intro key' e h
  rw [Dict.get?_erase] at h
  split at h
  · cases h
  · exact hreg key' e h

/-- No other identity holds the key of the start. -/
def Unclaimed (reg : InFlightRegistry κ π) (key : InFlightRegistryKey) (payload : WorkItem κ π) : Prop :=
  ∀ e, reg.get? key = some e → entryIdentity key e = payload.identity

theorem apply_start_of_unclaimed {key : InFlightRegistryKey} {payload : WorkItem κ π}
    (h : Unclaimed reg key payload) : apply reg (.start key payload) = reg.set key { payload := payload } := by
  have hr : refuses reg key payload = false := by
    unfold refuses
    split
    · rfl
    · rename_i e he
      simp [h e he]
  simp [apply, hr]

theorem registers_start {w : Nat} {payload : WorkItem κ π} (h : Registers reg work)
    (hfree : Unclaimed reg (payload.registryKey w) payload) :
    Registers (apply reg (.start (payload.registryKey w) payload)) work := by
  rw [apply_start_of_unclaimed hfree]
  exact registers_set h fun e' he' => hfree e' he'

theorem registers_start_self {w : Nat} {payload : WorkItem κ π}
    (hfree : Unclaimed reg (payload.registryKey w) payload) :
    Registers (apply reg (.start (payload.registryKey w) payload)) payload.identity := by
  rw [apply_start_of_unclaimed hfree]
  exact ⟨payload.registryKey w, { payload := payload }, by simp, rfl⟩

theorem registers_timeout {key : InFlightRegistryKey} {payload : WorkItem κ π} {attempt : Int}
    {error : PyStr} (h : Registers reg work) :
    Registers (apply reg (.timeout key payload attempt error)) work := by
  simp only [apply]
  split
  · exact h
  · rename_i e he
    split
    · refine registers_set h fun e' he' => ?_
      rw [he] at he'
      cases he'
      rfl
    · exact h

/-- A `done` takes at most its own identity off the registry. -/
theorem registers_done {key : InFlightRegistryKey} {work' : LogicalWorkIdentity} (h : Registers reg work)
    (hne : work ≠ work') : Registers (apply reg (.done key work')) work := by
  simp only [apply]
  split
  · exact h
  · rename_i e he
    split
    · rename_i hmatch
      obtain ⟨key', e', hget, rfl⟩ := h
      have hk : key ≠ key' := by
        rintro rfl
        rw [he] at hget
        cases hget
        exact hne hmatch
      exact ⟨key', e', by simp [Dict.get?_erase, hk, hget], rfl⟩
    · exact h

theorem registers_discardCompletion {e : CompletionEvent} (h : Registers reg work) (hne : work ≠ e.identity) :
    Registers (discardCompletion reg e) work := by
  obtain ⟨key, entry, hget, rfl⟩ := h
  refine ⟨key, entry, ?_, rfl⟩
  unfold discardCompletion
  rw [Dict.get?_filter, hget]
  simp [Option.filter, hne]

/-- Recovery turns every entry of the worker into a failure or a payload. -/
theorem registers_recover {maxRetries : Int} {w : Nat} (hk : Keyed reg) (h : Registers reg work) :
    Registers (recoverDeadWorkerItems maxRetries reg w).2 work ∨
      (recoverDeadWorkerItems maxRetries reg w).1.Covers work := by
  obtain ⟨key, e, hget, rfl⟩ := h
  by_cases hw : key.workerIndex = w
  · right
    have hmem : e ∈ entriesOf reg w :=
      List.mem_map.mpr ⟨(key, e), List.mem_filter.mpr ⟨(Dict.mem_entries_iff _).mpr hget, by simpa using hw⟩, rfl⟩
    rw [entryIdentity_of_keyed hk hget]
    exact Recovery.covers_collect hmem (Recovery.covers_ofEntry maxRetries e)
  · left
    refine ⟨key, e, ?_, rfl⟩
    unfold recoverDeadWorkerItems
    rw [Dict.get?_filter, hget]
    simp [Option.filter, hw]

/-- The event names the key of its payload. -/
def EventKeyed : RegistryEvent κ π → Prop
  | .start key payload => key = payload.registryKey key.workerIndex
  | _ => True

theorem keyed_apply (hreg : Keyed reg) {event : RegistryEvent κ π} (hev : EventKeyed event) :
    Keyed (apply reg event) := by
  cases event with
  | start key payload =>
    simp only [apply]
    split
    · exact hreg
    · exact keyed_set hreg hev
  | timeout key payload attempt error =>
    simp only [apply]
    split
    · exact hreg
    · rename_i e he
      split
      · exact keyed_set hreg (hreg key e he)
      · exact hreg
  | done key work =>
    simp only [apply]
    split
    · exact hreg
    · split
      · exact keyed_erase hreg key
      · exact hreg
  | notStarted => exact hreg

end InFlightRegistry

end PyrallelConsumer
