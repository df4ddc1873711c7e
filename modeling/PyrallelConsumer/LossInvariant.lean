import PyrallelConsumer.WorkerOutbox

/-!
# PyrallelConsumer.LossInvariant

Where an accepted item is. It is kept by the pending dispatches, the registry or a list of payloads to be
dispatched again; otherwise a live worker owes its completion: it has delivered more `done` events than
completions of it.

* `LossInv` — the invariant.
* `lossInv_frame` — steps of the parent. `lossInv_reports`, `lossInv_die` — steps of a worker.
* `lossInv_flushCompletion`, `lossInv_flushRegistry` — deliveries.
-/

set_option linter.unusedSectionVars false

namespace PyrallelConsumer

variable {κ π : Type}

/-- The worker has delivered a `done` event of the item without its completion. -/
def Worker.Owes (p : Worker κ π) (work : LogicalWorkIdentity) : Prop :=
  (doneIdentities p.registryEvents).count work < (completionIdentities p.completions).count work

theorem Worker.Reports.owes {p p' : Worker κ π} (h : p.Reports p') {work : LogicalWorkIdentity}
    (ho : p.Owes work) : p'.Owes work := by
  obtain ⟨-, -, -, messages, events, hc, hr, hcount, -⟩ := h
  unfold Owes at ho ⊢
  rw [hc, hr, completionIdentities_append, doneIdentities_append, List.count_append, List.count_append]
  have := hcount work
  omega

namespace ProcessEngine

/-- A completion of the item was returned, is prefetched or is in the completion queue. -/
def Surfaced (s : ProcessEngine κ π) (work : LogicalWorkIdentity) : Prop :=
  work ∈ s.returned.map (·.identity) ∨ (∃ e ∈ s.buffer.prefetchedEvents, e.identity = work) ∨
    work ∈ completionIdentities s.completionQueue

/-- The item is in a list of payloads that the parent will dispatch again. -/
def Requeues (s : ProcessEngine κ π) (work : LogicalWorkIdentity) : Prop :=
  (∃ scan ∈ s.scans, ∃ x ∈ scan.pc.payloads, x.identity = work) ∨
    ∃ tail ∈ s.tails, ∃ x ∈ tail, x.identity = work

def Owed (s : ProcessEngine κ π) (work : LogicalWorkIdentity) : Prop :=
  ∃ (pid : Nat) (p : Worker κ π), s.processes[pid]? = some p ∧ p.alive = true ∧ p.Owes work

/-- The parent holds the item. -/
def Holds (s : ProcessEngine κ π) (work : LogicalWorkIdentity) : Prop :=
  s.transport.Pends work ∨ s.registry.Registers work ∨ s.Requeues work

structure LossInv (s : ProcessEngine κ π) : Prop where
  kept : ∀ work ∈ s.accepted, s.Surfaced work ∨ s.Holds work ∨ s.Owed work
  done : ∀ work ∈ doneIdentities s.registryQueue, s.Surfaced work ∨ s.Owed work
  balanced : ∀ (pid : Nat) p, s.processes[pid]? = some p → ∀ work, s.Surfaced work ∨
    (doneIdentities p.registryEvents).count work ≤ (completionIdentities p.completions).count work
  deferred : ∀ (pid : Nat) p, s.processes[pid]? = some p → p.Deferred
  outKeyed : ∀ (pid : Nat) p, s.processes[pid]? = some p → ∀ event ∈ p.registryEvents,
    InFlightRegistry.EventKeyed event
  queueKeyed : ∀ event ∈ s.registryQueue, InFlightRegistry.EventKeyed event
  keyed : s.registry.Keyed
  seen : ∀ work ∈ s.buffer.seenIdentities, work ∈ s.returned.map (·.identity) ∨
    ∃ e ∈ s.buffer.prefetchedEvents, e.identity = work

/-! ## Steps of the parent -/

/-- The outboxes of two lists of processes agree, up to new processes with nothing in them. -/
structure KeepsOutboxes (l l' : List (Worker κ π)) : Prop where
  old : ∀ (pid : Nat) p, l[pid]? = some p → ∃ p', l'[pid]? = some p' ∧ p'.alive = p.alive ∧
    p'.completions = p.completions ∧ p'.registryEvents = p.registryEvents ∧ p'.task = p.task
  new : ∀ (pid : Nat) p', l'[pid]? = some p' → (∃ p, l[pid]? = some p ∧ p'.completions = p.completions ∧
      p'.registryEvents = p.registryEvents ∧ p'.task = p.task) ∨
    (p'.completions = [] ∧ p'.registryEvents = [] ∧ p'.task = none)

theorem KeepsOutboxes.refl (l : List (Worker κ π)) : KeepsOutboxes l l :=
  ⟨fun _ p h => ⟨p, h, rfl, rfl, rfl, rfl⟩, fun _ p h => .inl ⟨p, h, rfl, rfl, rfl⟩⟩

theorem keepsOutboxes_send (s : ProcessEngine κ π) (w : Nat) (m : PipeMessage κ π) :
    KeepsOutboxes s.processes (s.send w m) := by
  unfold send
  split
  · exact .refl _
  · rename_i pid _
    refine ⟨fun i p h => ?_, fun i p' h => .inl ?_⟩
    · rw [List.getElem?_modify, h]
      split
      · exact ⟨_, rfl, rfl, rfl, rfl, rfl⟩
      · exact ⟨p, rfl, rfl, rfl, rfl, rfl⟩
    · rw [List.getElem?_modify] at h
      obtain ⟨p, hp, rfl⟩ := Option.map_eq_some_iff.mp h
      refine ⟨p, hp, ?_, ?_, ?_⟩ <;> split <;> rfl

theorem keepsOutboxes_append (l : List (Worker κ π)) {w : Worker κ π} (hc : w.completions = [])
    (hr : w.registryEvents = []) (ht : w.task = none) : KeepsOutboxes l (l ++ [w]) := by
  refine ⟨fun i p h => ?_, fun i p' h => ?_⟩
  · have hi := (List.getElem?_eq_some_iff.mp h).1
    exact ⟨p, (List.getElem?_append_left hi).trans h, rfl, rfl, rfl, rfl⟩
  · rw [List.getElem?_append] at h
    split at h
    · exact .inl ⟨p', h, rfl, rfl, rfl⟩
    · have hw := List.mem_singleton.mp (List.mem_of_getElem? h)
      exact .inr ⟨hw ▸ hc, hw ▸ hr, hw ▸ ht⟩

variable {s s' : ProcessEngine κ π}

theorem owed_keeps (h : KeepsOutboxes s.processes s'.processes) {work : LogicalWorkIdentity}
    (ho : s.Owed work) : s'.Owed work := by
  obtain ⟨pid, p, hp, halive, howes⟩ := ho
  obtain ⟨p', hp', ha, hc, hr, -⟩ := h.old pid p hp
  refine ⟨pid, p', hp', ha.trans halive, ?_⟩
  unfold Worker.Owes
  rw [hc, hr]
  exact howes

/-- **A step of the parent.** It delivers nothing, keeps what has surfaced, and every accepted item that
it held is still held, has surfaced or is owed. -/
theorem lossInv_frame (h : LossInv s) (hout : KeepsOutboxes s.processes s'.processes)
    (hqueue : ∀ event ∈ s'.registryQueue, event ∈ s.registryQueue)
    (hsurfaced : ∀ work, s.Surfaced work → s'.Surfaced work)
    (hkept : ∀ work ∈ s.accepted, s.Holds work → s'.Surfaced work ∨ s'.Holds work ∨ s'.Owed work)
    (haccepted : ∀ work ∈ s'.accepted, work ∈ s.accepted ∨ s'.Holds work)
    (hkeyed : s'.registry.Keyed)
    (hseen : ∀ work ∈ s'.buffer.seenIdentities, work ∈ s'.returned.map (·.identity) ∨
      ∃ e ∈ s'.buffer.prefetchedEvents, e.identity = work) : LossInv s' where
  kept := by
    intro work hwork
    rcases haccepted work hwork with hold | hnew
    · rcases h.kept work hold with hs | hh | ho
      · exact .inl (hsurfaced work hs)
      · exact hkept work hold hh
      · exact .inr (.inr (owed_keeps hout ho))
    · exact .inr (.inl hnew)
  done := by
    intro work hwork
    obtain ⟨event, hevent, heq⟩ := List.mem_filterMap.mp hwork
    exact (h.done work (List.mem_filterMap.mpr ⟨event, hqueue event hevent, heq⟩)).imp (hsurfaced work)
      (owed_keeps hout)
  balanced := by
    intro pid p' hp' work
    rcases hout.new pid p' hp' with ⟨p, hp, hc, hr, -⟩ | ⟨-, hr, -⟩
    · rw [hc, hr]
      exact (h.balanced pid p hp work).imp (hsurfaced work) id
    · rw [hr]
      exact .inr (Nat.zero_le _)
  deferred := by
    intro pid p' hp' task htask
    rcases hout.new pid p' hp' with ⟨p, hp, -, -, ht⟩ | ⟨-, -, ht⟩
    · exact h.deferred pid p hp task (ht ▸ htask)
    · rw [ht] at htask
      cases htask
  outKeyed := by
    intro pid p' hp' event hevent
    rcases hout.new pid p' hp' with ⟨p, hp, -, hr, -⟩ | ⟨-, hr, -⟩
    · exact h.outKeyed pid p hp event (hr ▸ hevent)
    · rw [hr] at hevent
      cases hevent
  queueKeyed := fun event hevent => h.queueKeyed event (hqueue event hevent)
  keyed := hkeyed
  seen := hseen

/-! ## Steps of a worker -/

theorem getElem?_modifyProcess {pid i : Nat} {f : Worker κ π → Worker κ π} {p' : Worker κ π}
    (h : (s.modifyProcess pid f).processes[i]? = some p') :
    (i ≠ pid ∧ s.processes[i]? = some p') ∨ ∃ p, i = pid ∧ s.processes[pid]? = some p ∧ p' = f p := by
  unfold modifyProcess at h
  rw [List.getElem?_modify] at h
  by_cases hi : pid = i
  · subst hi
    obtain ⟨p, hp, rfl⟩ := Option.map_eq_some_iff.mp h
    exact .inr ⟨p, rfl, hp, by simp⟩
  · simp only [if_neg hi] at h
    obtain ⟨p, hp, rfl⟩ := Option.map_eq_some_iff.mp h
    exact .inl ⟨Ne.symm hi, hp⟩

/-- What one process owes is unchanged by a step of another one. -/
theorem owed_modifyProcess {pid : Nat} {f : Worker κ π → Worker κ π} {work : LogicalWorkIdentity}
    (ho : s.Owed work)
    (hf : ∀ p, s.processes[pid]? = some p → p.alive = true → p.Owes work →
      (f p).alive = true ∧ (f p).Owes work) : (s.modifyProcess pid f).Owed work := by
  obtain ⟨i, p, hp, halive, howes⟩ := ho
  by_cases hi : pid = i
  · subst hi
    obtain ⟨ha, ho⟩ := hf p hp halive howes
    exact ⟨pid, f p, by simp [modifyProcess, hp], ha, ho⟩
  · exact ⟨i, p, by simp [modifyProcess, hi, hp], halive, howes⟩

/-- **A step of a worker**, which puts at least as many completions as `done` events of each item. -/
theorem lossInv_reports (h : LossInv s) {pid : Nat} {f : Worker κ π → Worker κ π}
    (hf : ∀ p, s.processes[pid]? = some p → p.Reports (f p)) : LossInv (s.modifyProcess pid f) where
  kept := by
    intro work hwork
    rcases h.kept work hwork with hs | hh | ho
    · exact .inl hs
    · exact .inr (.inl hh)
    · exact .inr (.inr (owed_modifyProcess ho fun p hp halive howes =>
        ⟨(hf p hp).alive.trans halive, (hf p hp).owes howes⟩))
  done := by
    intro work hwork
    exact (h.done work hwork).imp id fun ho => owed_modifyProcess ho fun p hp halive howes =>
      ⟨(hf p hp).alive.trans halive, (hf p hp).owes howes⟩
  balanced := by
    intro i p' hp' work
    rcases getElem?_modifyProcess hp' with ⟨-, hp⟩ | ⟨p, rfl, hp, rfl⟩
    · exact h.balanced i p' hp work
    · obtain ⟨-, -, -, messages, events, hc, hr, hcount, -⟩ := hf p hp
      refine (h.balanced i p hp work).imp id fun hb => ?_
      rw [hc, hr, completionIdentities_append, doneIdentities_append, List.count_append, List.count_append]
      have := hcount work
      omega
  deferred := by
    intro i p' hp'
    rcases getElem?_modifyProcess hp' with ⟨-, hp⟩ | ⟨p, rfl, hp, rfl⟩
    · exact h.deferred i p' hp
    · exact (hf p hp).deferred
  outKeyed := by
    intro i p' hp' event hevent
    rcases getElem?_modifyProcess hp' with ⟨-, hp⟩ | ⟨p, rfl, hp, rfl⟩
    · exact h.outKeyed i p' hp event hevent
    · obtain ⟨-, -, -, messages, events, -, hr, -, hkeyed⟩ := hf p hp
      rw [hr] at hevent
      rcases List.mem_append.mp hevent with hevent | hevent
      · exact h.outKeyed i p hp event hevent
      · exact hkeyed event hevent
  queueKeyed := h.queueKeyed
  keyed := h.keyed
  seen := h.seen

/-- A process dies that owes nothing. -/
theorem lossInv_die (h : LossInv s) {pid : Nat}
    (hdie : ∀ p, s.processes[pid]? = some p → ∀ work, ¬ p.Owes work) :
    LossInv (s.modifyProcess pid (·.die)) where
  kept := by
    intro work hwork
    exact (h.kept work hwork).imp id (Or.imp id fun ho =>
      owed_modifyProcess ho fun p hp _ howes => absurd howes (hdie p hp work))
  done := by
    intro work hwork
    exact (h.done work hwork).imp id fun ho =>
      owed_modifyProcess ho fun p hp _ howes => absurd howes (hdie p hp work)
  balanced := by
    intro i p' hp' work
    rcases getElem?_modifyProcess hp' with ⟨-, hp⟩ | ⟨p, rfl, hp, rfl⟩
    · exact h.balanced i p' hp work
    · exact .inr (Nat.zero_le _)
  deferred := by
    intro i p' hp'
    rcases getElem?_modifyProcess hp' with ⟨-, hp⟩ | ⟨p, rfl, hp, rfl⟩
    · exact h.deferred i p' hp
    · intro task htask
      cases htask
  outKeyed := by
    intro i p' hp' event hevent
    rcases getElem?_modifyProcess hp' with ⟨-, hp⟩ | ⟨p, rfl, hp, rfl⟩
    · exact h.outKeyed i p' hp event hevent
    · cases hevent
  queueKeyed := h.queueKeyed
  keyed := h.keyed
  seen := h.seen

/-! ## Deliveries -/

theorem lossInv_flushCompletion (h : LossInv s) (pid : Nat) : LossInv (s.flushCompletion pid) := by
  unfold flushCompletion
  split
  · rename_i p hp
    split
    · rename_i m rest hm
      let s' : ProcessEngine κ π :=
        { s.modifyProcess pid fun p => { p with completions := rest } with
          completionQueue := s.completionQueue ++ [m] }
      have hmem : ∀ work, s.Surfaced work → s'.Surfaced work := fun work hs =>
        hs.imp id (Or.imp id fun hq => by
          rw [completionIdentities_append]
          exact List.mem_append_left _ hq)
      -- an item of the message has surfaced, and the counts of the others are as before
      have hcount : ∀ work, s'.Surfaced work ∨
          (completionIdentities rest).count work = (completionIdentities p.completions).count work := by
        intro work
        by_cases hw : work ∈ m.events.map (·.identity)
        · refine .inl (.inr (.inr ?_))
          rw [completionIdentities_append]
          exact List.mem_append_right _ (by simpa [completionIdentities] using hw)
        · refine .inr ?_
          rw [hm]
          simp [completionIdentities, List.count_append, List.count_eq_zero_of_not_mem hw]
      have howed : ∀ work, s.Owed work → s'.Surfaced work ∨ s'.Owed work := by
        intro work ho
        rcases hcount work with hs | heq
        · exact .inl hs
        · refine .inr (owed_modifyProcess ho fun q hq halive howes => ⟨halive, ?_⟩)
          rw [hp] at hq
          cases hq
          unfold Worker.Owes at howes ⊢
          rw [heq]
          exact howes
      show LossInv s'
      refine ⟨fun work hwork => ?_, fun work hwork => ?_, fun i p' hp' work => ?_, fun i p' hp' => ?_,
        fun i p' hp' => ?_, h.queueKeyed, h.keyed, h.seen⟩
      · rcases h.kept work hwork with hs | hh | ho
        · exact .inl (hmem work hs)
        · exact .inr (.inl hh)
        · exact (howed work ho).imp id .inr
      · exact (h.done work hwork).elim (fun hs => .inl (hmem work hs)) (howed work)
      · rcases getElem?_modifyProcess hp' with ⟨-, hq⟩ | ⟨q, rfl, hq, rfl⟩
        · exact (h.balanced i p' hq work).imp (hmem work) id
        · rw [hp] at hq
          cases hq
          rcases hcount work with hs | heq
          · exact .inl hs
          · refine (h.balanced i p hp work).imp (hmem work) fun hb => ?_
            show _ ≤ (completionIdentities rest).count work
            rw [heq]
            exact hb
      · rcases getElem?_modifyProcess hp' with ⟨-, hq⟩ | ⟨q, rfl, hq, rfl⟩
        · exact h.deferred i p' hq
        · exact h.deferred i q hq
      · rcases getElem?_modifyProcess hp' with ⟨-, hq⟩ | ⟨q, rfl, hq, rfl⟩
        · exact h.outKeyed i p' hq
        · exact h.outKeyed i q hq
    · exact h
  · exact h

theorem lossInv_flushRegistry (h : LossInv s) {pid : Nat}
    (halive : ∀ p, s.processes[pid]? = some p → p.alive = true) : LossInv (s.flushRegistry pid) := by
  unfold flushRegistry
  split
  · rename_i p hp
    split
    · rename_i event rest hevents
      let s' : ProcessEngine κ π :=
        { s.modifyProcess pid fun p => { p with registryEvents := rest } with
          registryQueue := s.registryQueue ++ [event] }
      have hsub : ∀ work, (doneIdentities rest).count work ≤ (doneIdentities p.registryEvents).count work := by
        intro work
        rw [hevents, show doneIdentities (event :: rest) = doneIdentities [event] ++ doneIdentities rest from
          doneIdentities_append [event] rest, List.count_append]
        omega
      have howed : ∀ work, s.Owed work → s'.Owed work := by
        intro work ho
        refine owed_modifyProcess ho fun q hq ha howes => ⟨ha, ?_⟩
        rw [hp] at hq
        cases hq
        exact Nat.lt_of_le_of_lt (hsub work) howes
      show LossInv s'
      refine ⟨fun work hwork => ?_, fun work hwork => ?_, fun i p' hp' work => ?_, fun i p' hp' => ?_,
        fun i p' hp' e he => ?_, fun e he => ?_, h.keyed, h.seen⟩
      · exact (h.kept work hwork).imp id (Or.imp id (howed work))
      · rw [show doneIdentities s'.registryQueue = doneIdentities s.registryQueue ++ doneIdentities [event] from
          doneIdentities_append _ _] at hwork
        rcases List.mem_append.mp hwork with hwork | hwork
        · exact (h.done work hwork).imp id (howed work)
        · -- the delivered event makes the worker owe the completion that was put before it
          refine (h.balanced pid p hp work).imp id fun hb => ?_
          refine ⟨pid, { p with registryEvents := rest }, ?_, halive p hp, ?_⟩
          · simp [s', modifyProcess, hp]
          · have hpos := List.count_pos_iff.mpr hwork
            rw [hevents, show doneIdentities (event :: rest) = doneIdentities [event] ++ doneIdentities rest from
              doneIdentities_append [event] rest, List.count_append] at hb
            show (doneIdentities rest).count work < (completionIdentities p.completions).count work
            omega
      · rcases getElem?_modifyProcess hp' with ⟨-, hq⟩ | ⟨q, rfl, hq, rfl⟩
        · exact h.balanced i p' hq work
        · rw [hp] at hq
          cases hq
          exact (h.balanced i p hp work).imp id fun hb => Nat.le_trans (hsub work) hb
      · rcases getElem?_modifyProcess hp' with ⟨-, hq⟩ | ⟨q, rfl, hq, rfl⟩
        · exact h.deferred i p' hq
        · exact h.deferred i q hq
      · rcases getElem?_modifyProcess hp' with ⟨-, hq⟩ | ⟨q, rfl, hq, rfl⟩
        · exact h.outKeyed i p' hq e he
        · rw [hp] at hq
          cases hq
          exact h.outKeyed i p hp e (hevents ▸ List.mem_cons_of_mem _ he)
      · rcases List.mem_append.mp he with he | he
        · exact h.queueKeyed e he
        · rw [List.mem_singleton.mp he]
          exact h.outKeyed pid p hp event (hevents ▸ List.mem_cons_self)
    · exact h
  · exact h

end ProcessEngine

end PyrallelConsumer
