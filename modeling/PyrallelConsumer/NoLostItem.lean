import PyrallelConsumer.LossInvariant

/-!
# PyrallelConsumer.NoLostItem

An item that the process engine has accepted stays somewhere until its completion is returned, in every
run that keeps out of three defects:

* a worker dies with a `done` event delivered and the completion of the same item still in its feeder
  buffer, so that the registry forgets the item and nothing else knows of it;
* a start event finds its registry key held by another identity, so that one of the two has no entry;
* a completion cannot be packed, or is above the limit that the parent decodes under.

* `accepted_represented` — whole runs.
-/

set_option linter.unusedSectionVars false

namespace PyrallelConsumer

/-- The worker has the item in its pipe or executes it. -/
def Worker.Carries {κ π : Type} (p : Worker κ π) (work : LogicalWorkIdentity) : Prop :=
  (∃ m ∈ p.pipe, ∃ x ∈ m.items, x.identity = work) ∨
    ∃ task x, p.task = some task ∧ task.current = some x ∧ x.identity = work

namespace ProcessEngine

variable {κ π : Type} {c : ProcessConfig κ π} {s s' : ProcessEngine κ π} {work : LogicalWorkIdentity}

/-! ## What has surfaced, what is held -/

theorem surfaced_emit (events : List CompletionEvent) (h : s.Surfaced work) : (s.emit c events).Surfaced work :=
  h.imp id (Or.imp id fun hq => by
    rw [emit, completionIdentities_append]
    exact List.mem_append_left _ hq)

/-- An emitted event that can be packed has surfaced. -/
theorem surfaced_emitted {events : List CompletionEvent} {e : CompletionEvent}
    (hq : s'.completionQueue = (s.emit c events).completionQueue) (he : e ∈ events)
    (hp : c.encodes (.item e false) = true) (hwork : e.identity = work) : s'.Surfaced work := by
  refine .inr (.inr ?_)
  rw [hq, emit, completionIdentities_append]
  refine List.mem_append_right _ (mem_completionIdentities.mpr ⟨.item e false, ?_, e, ?_, hwork⟩)
  · exact List.mem_map.mpr ⟨e, List.mem_filter.mpr ⟨he, hp⟩, rfl⟩
  · exact List.mem_singleton_self e

/-- What the scans and tails hold, except for one entry that is replaced. -/
theorem requeues_setScan {j : Nat} {scan scan' : Scan κ π} (hj : s.scans[j]? = some scan)
    (h : s.Requeues work) (hset : s'.scans = s.scans.set j scan') (htails : s'.tails = s.tails)
    (hscan : ∀ x ∈ scan.pc.payloads, x.identity = work → ∃ y ∈ scan'.pc.payloads, y.identity = work) :
    s'.Requeues work := by
  rcases h with ⟨scan₁, hmem, x, hx, hwork⟩ | h
  · left
    obtain ⟨i, hi⟩ := List.mem_iff_getElem?.mp hmem
    by_cases hij : j = i
    · subst hij
      rw [hj] at hi
      cases hi
      obtain ⟨y, hy, hyw⟩ := hscan x hx hwork
      have hlt := (List.getElem?_eq_some_iff.mp hj).1
      exact ⟨scan', List.mem_of_getElem? (by rw [hset, List.getElem?_set_self hlt]), y, hy, hyw⟩
    · exact ⟨scan₁, List.mem_of_getElem? (by rw [hset, List.getElem?_set_ne hij]; exact hi), x, hx, hwork⟩
  · right
    rw [htails]
    exact h

theorem requeues_setTail {j : Nat} {tail tail' : List (WorkItem κ π)} (hj : s.tails[j]? = some tail)
    (h : s.Requeues work) (hset : s'.tails = s.tails.set j tail') (hscans : s'.scans = s.scans)
    (htail : ∀ x ∈ tail, x.identity = work → ∃ y ∈ tail', y.identity = work) : s'.Requeues work := by
  rcases h with h | ⟨tail₁, hmem, x, hx, hwork⟩
  · left
    rw [hscans]
    exact h
  · right
    obtain ⟨i, hi⟩ := List.mem_iff_getElem?.mp hmem
    by_cases hij : j = i
    · subst hij
      rw [hj] at hi
      cases hi
      obtain ⟨y, hy, hyw⟩ := htail x hx hwork
      have hlt := (List.getElem?_eq_some_iff.mp hj).1
      exact ⟨tail', List.mem_of_getElem? (by rw [hset, List.getElem?_set_self hlt]), y, hy, hyw⟩
    · exact ⟨tail₁, List.mem_of_getElem? (by rw [hset, List.getElem?_set_ne hij]; exact hi), x, hx, hwork⟩

/-! ## Dispatches -/

theorem lossInv_submit (h : LossInv s) {x : WorkItem κ π} (hfresh : x.identity ∉ s.accepted)
    (sent : SendOutcome) : LossInv (s.submit c x sent) := by
  unfold submit
  rcases dispatchPayload_cases (c := c) s x sent with ⟨-, heq⟩ | ⟨-, heq⟩
  · rw [heq]
    refine lossInv_frame h (keepsOutboxes_send s _ _) (fun _ he => he) (fun _ hs => hs) ?_ ?_ h.keyed h.seen
    · intro work _ hh
      exact .inr (.inl (hh.imp WorkerPipesTransport.pends_storeItem id))
    · intro work hwork
      rcases List.mem_append.mp hwork with hwork | hwork
      · exact .inl hwork
      · rw [List.mem_singleton.mp hwork]
        exact .inr (.inl (WorkerPipesTransport.pends_storeItem_self _ x))
  · rw [heq]
    refine lossInv_frame h (.refl _) (fun _ he => he) (fun _ hs => hs) ?_ (fun _ hwork => .inl hwork) h.keyed
      h.seen
    intro work hwork hh
    refine .inr (.inl (hh.imp (fun hp => WorkerPipesTransport.pends_forgetItem hp ?_) id))
    rintro rfl
    exact hfresh hwork

theorem lossInv_submitBatch (h : LossInv s) {batchId : Nat} {items : List (WorkItem κ π)}
    (hnew : ∀ w, s.transport.pendingDispatch.get? (.routeBatch w batchId) = none) (sent : SendOutcome) :
    LossInv (s.submitBatch c batchId items sent) := by
  unfold submitBatch
  split
  · exact h
  · rename_i x rest
    unfold dispatchRouteBatch
    dsimp only
    split
    · rename_i s' heq
      split at heq
      · cases heq
        refine lossInv_frame h (keepsOutboxes_send s _ _) (fun _ he => he) (fun _ hs => hs) ?_ ?_ h.keyed h.seen
        · intro work _ hh
          exact .inr (.inl (hh.imp (WorkerPipesTransport.pends_storeBatch · (hnew _)) id))
        · intro work hwork
          rcases List.mem_append.mp hwork with hwork | hwork
          · exact .inl hwork
          · obtain ⟨y, hy, rfl⟩ := List.mem_map.mp hwork
            exact .inr (.inl (WorkerPipesTransport.pends_storeBatch_self hy))
      · cases heq
    · rename_i s' heq
      split at heq
      · cases heq
      · cases heq
        refine lossInv_frame h (.refl _) (fun _ he => he) (fun _ hs => hs) ?_ (fun _ hwork => .inl hwork)
          h.keyed h.seen
        intro work _ hh
        exact .inr (.inl (hh.imp (WorkerPipesTransport.pends_forgetBatch · (hnew _)) id))

/-! ## Registry events -/

theorem lossInv_drainRegistry (h : LossInv s)
    (hfree : ∀ key payload queue, s.registryQueue = .start key payload :: queue →
      s.registry.Unclaimed key payload) : LossInv (s.drainRegistry c) := by
  unfold drainRegistry
  split
  · exact h
  · rename_i event queue hqueue
    have hmem : ∀ e ∈ queue, e ∈ s.registryQueue := fun e he => hqueue ▸ List.mem_cons_of_mem _ he
    have hev : InFlightRegistry.EventKeyed event := h.queueKeyed event (hqueue ▸ List.mem_cons_self)
    have hkeyed := InFlightRegistry.keyed_apply h.keyed hev
    cases event with
    | start key payload =>
      have hun := hfree key payload queue hqueue
      rw [show key = payload.registryKey key.workerIndex from hev] at hun
      refine lossInv_frame h (.refl _) hmem (fun _ hs => hs) ?_ (fun _ hwork => .inl hwork) hkeyed h.seen
      intro work _ hh
      refine .inr (.inl ?_)
      show _ ∨ (s.registry.apply (.start key payload)).Registers work ∨ _
      rw [show key = payload.registryKey key.workerIndex from hev]
      by_cases hwork : work = payload.identity
      · rw [hwork]
        exact .inr (.inl (InFlightRegistry.registers_start_self hun))
      · exact hh.imp (WorkerPipesTransport.pends_handleStart · hwork)
          (Or.imp (InFlightRegistry.registers_start · hun) id)
    | timeout key payload attempt error =>
      refine lossInv_frame h (.refl _) hmem (fun _ hs => hs) ?_ (fun _ hwork => .inl hwork) hkeyed h.seen
      intro work _ hh
      exact .inr (.inl (hh.imp id (Or.imp InFlightRegistry.registers_timeout id)))
    | done key work' =>
      refine lossInv_frame h (.refl _) hmem (fun _ hs => hs) ?_ (fun _ hwork => .inl hwork) hkeyed h.seen
      intro work _ hh
      by_cases hwork : work = work'
      · -- the registry may forget the item: its completion has surfaced, or a live worker owes it
        rw [hwork]
        have hin : work' ∈ doneIdentities s.registryQueue := by
          rw [hqueue]
          simp [doneIdentities]
        exact (h.done work' hin).imp id .inr
      · exact .inr (.inl (hh.imp id (Or.imp (InFlightRegistry.registers_done · hwork) id)))
    | notStarted batchId payloads =>
      simp only [applyRegistryEvent]
      have hpends : ∀ work, s.transport.Pends work → _ := fun work hp =>
        @WorkerPipesTransport.pends_handleNotStarted _ _ _ work batchId payloads hp
      rcases hn : s.transport.handleNotStarted batchId payloads with ⟨ok, t⟩
      simp only [hn] at hpends
      cases ok with
      | true =>
        refine lossInv_frame h (.refl _) hmem (fun _ hs => hs) ?_ (fun _ hwork => .inl hwork) h.keyed h.seen
        intro work _ hh
        refine .inr (.inl ?_)
        rcases hh with hp | hr | hq
        · rcases hpends work hp with hp | ⟨-, hx⟩
          · exact .inl hp
          · exact .inr (.inr (.inr ⟨payloads, by simp, hx⟩))
        · exact .inr (.inl hr)
        · refine .inr (.inr (hq.imp id ?_))
          rintro ⟨tail, htail, hx⟩
          exact ⟨tail, List.mem_append_left _ htail, hx⟩
      | false =>
        refine lossInv_frame h (.refl _) hmem (fun _ hs => hs) ?_ (fun _ hwork => .inl hwork) h.keyed h.seen
        intro work _ hh
        refine .inr (.inl (hh.imp (fun hp => ?_) id))
        exact (hpends work hp).resolve_right (by simp)

/-! ## Completions -/

theorem lossInv_drainCompletion (h : LossInv s)
    (hdecodes : ∀ m queue, s.completionQueue = m :: queue → c.decodes m = true) :
    LossInv (s.drainCompletion c) := by
  unfold drainCompletion
  split
  · exact h
  · rename_i m queue hqueue
    rw [if_pos (hdecodes m queue hqueue)]
    have htaken := Intake.taken_prefetchEvent (κ := κ) (π := π) c.maxSeenIdentities
    let i : Intake κ π := ⟨s.buffer, s.registry, []⟩
    let i' := m.events.foldl (Intake.prefetchEvent c.maxSeenIdentities) i
    let R := s.returned.map (·.identity)
    have hnone : i'.completed = [] := Intake.completed_prefetchAll c.maxSeenIdentities m.events i
    have hrem : i.Remembers R := fun work hwork =>
      (h.seen work hwork).imp id fun hx => by simpa [Intake.Shows, i] using hx
    have hshows : ∀ work, i'.Shows work → ∃ e ∈ i'.buffer.prefetchedEvents, e.identity = work := by
      intro work hx
      simpa [Intake.Shows, hnone] using hx
    have hevents : ∀ e ∈ m.events, e.identity ∈ R ∨ i'.Shows e.identity :=
      Intake.shows_takeAll htaken m.events hrem
    refine lossInv_frame h (.refl _) (fun _ he => he) ?_ ?_ (fun _ hwork => .inl hwork)
      (Intake.keyed_takeAll htaken m.events h.keyed) ?_
    · intro work hs
      rcases hs with hr | ⟨e, he, hwork⟩ | hq
      · exact .inl hr
      · refine .inr (.inl (hshows work (Intake.shows_takeAll_of_shows htaken m.events ?_)))
        exact ⟨e, List.mem_append_left _ he, hwork⟩
      · rw [hqueue] at hq
        obtain ⟨m', hm', e, he, rfl⟩ := mem_completionIdentities.mp hq
        rcases List.mem_cons.mp hm' with rfl | hm'
        · exact (hevents e he).imp id fun hx => .inl (hshows _ hx)
        · exact .inr (.inr (mem_completionIdentities.mpr ⟨m', hm', e, he, rfl⟩))
    · intro work _ hh
      by_cases hwork : ∃ e ∈ m.events, e.identity = work
      · obtain ⟨e, he, rfl⟩ := hwork
        exact .inl ((hevents e he).imp id fun hx => .inl (hshows _ hx))
      · refine .inr (.inl (hh.imp id (Or.imp (fun hr => ?_) id)))
        exact Intake.registers_takeAll htaken m.events hr fun e he heq => hwork ⟨e, he, heq.symm⟩
    · intro work hwork
      exact (Intake.remembers_takeAll htaken m.events hrem work hwork).imp id (hshows work)

theorem lossInv_poll (h : LossInv s) (limit : Nat)
    (hdecodes : ∀ m ∈ s.completionQueue, c.decodes m = true) : LossInv (s.poll c limit) := by
  unfold poll
  dsimp only
  let taken := s.buffer.prefetchedEvents.take limit
  let i : Intake κ π :=
    ⟨{ s.buffer with prefetchedEvents := s.buffer.prefetchedEvents.drop limit }, s.registry, []⟩
  obtain ⟨messages, rest, hqueue, heq⟩ := Intake.pollAvailable_eq c.maxSeenIdentities
    (limit - taken.length) s.completionQueue i hdecodes
  rw [heq]
  let events := messages.flatMap (·.events)
  let i' := events.foldl (Intake.pollEvent c.maxSeenIdentities (limit - taken.length)) i
  have htaken := Intake.taken_pollEvent (κ := κ) (π := π) c.maxSeenIdentities (limit - taken.length)
  -- what was returned before, and what this poll takes from the prefetched events
  let R := (s.returned ++ taken).map (·.identity)
  have hsplit : ∀ work, (∃ e ∈ s.buffer.prefetchedEvents, e.identity = work) → work ∈ R ∨ i.Shows work := by
    rintro work ⟨e, he, rfl⟩
    rw [← List.take_append_drop limit s.buffer.prefetchedEvents] at he
    rcases List.mem_append.mp he with he | he
    · exact .inl (List.mem_map.mpr ⟨e, List.mem_append_right _ he, rfl⟩)
    · exact .inr ⟨e, List.mem_append_left _ he, rfl⟩
  have hreturned : ∀ work, work ∈ s.returned.map (·.identity) → work ∈ R := by
    intro work hr
    obtain ⟨e, he, rfl⟩ := List.mem_map.mp hr
    exact List.mem_map.mpr ⟨e, List.mem_append_left _ he, rfl⟩
  have hrem : i.Remembers R := by
    intro work hwork
    rcases h.seen work hwork with hr | hx
    · exact .inl (hreturned work hr)
    · exact hsplit work hx
  have hevents : ∀ e ∈ events, e.identity ∈ R ∨ i'.Shows e.identity :=
    Intake.shows_takeAll htaken events hrem
  -- everything among these is returned or prefetched after the poll
  have hout : ∀ work, work ∈ R ∨ i'.Shows work →
      work ∈ (s.returned ++ (taken ++ i'.completed)).map (·.identity) ∨
        ∃ e ∈ i'.buffer.prefetchedEvents, e.identity = work := by
    rintro work (hr | ⟨e, he, rfl⟩)
    · refine .inl ?_
      rw [← List.append_assoc, List.map_append]
      exact List.mem_append_left _ hr
    · rcases List.mem_append.mp he with he | he
      · exact .inr ⟨e, he, rfl⟩
      · exact .inl (List.mem_map.mpr ⟨e, by simp [he], rfl⟩)
  refine lossInv_frame h (.refl _) (fun _ he => he) ?_ ?_ (fun _ hwork => .inl hwork)
    (Intake.keyed_takeAll htaken events h.keyed) ?_
  · intro work hs
    rcases hs with hr | hx | hq
    · exact (hout work (.inl (hreturned work hr))).imp id .inl
    · exact (hout work ((hsplit work hx).imp id (Intake.shows_takeAll_of_shows htaken events))).imp id .inl
    · rw [hqueue, completionIdentities_append] at hq
      rcases List.mem_append.mp hq with hq | hq
      · obtain ⟨m, hm, e, he, rfl⟩ := mem_completionIdentities.mp hq
        exact (hout _ (hevents e (List.mem_flatMap.mpr ⟨m, hm, he⟩))).imp id .inl
      · exact .inr (.inr hq)
  · intro work _ hh
    by_cases hwork : ∃ e ∈ events, e.identity = work
    · obtain ⟨e, he, rfl⟩ := hwork
      exact .inl ((hout _ (hevents e he)).imp id .inl)
    · refine .inr (.inl (hh.imp id (Or.imp (fun hr => ?_) id)))
      exact Intake.registers_takeAll htaken events hr fun e he heq => hwork ⟨e, he, heq.symm⟩
  · intro work hwork
    exact hout work (Intake.remembers_takeAll htaken events hrem work hwork)

/-! ## Supervision -/

theorem lossInv_beginScan (h : LossInv s) : LossInv s.beginScan := by
  refine lossInv_frame h (.refl _) (fun _ he => he) (fun _ hs => hs) ?_ (fun _ hwork => .inl hwork) h.keyed h.seen
  intro work _ hh
  refine .inr (.inl (hh.imp id (Or.imp id (Or.imp ?_ id))))
  rintro ⟨scan, hscan, hx⟩
  exact ⟨scan, List.mem_append_left _ hscan, hx⟩

/-- The recovery of a worker covers everything that it takes from the registry and the transport. -/
theorem covers_recover (hk : s.registry.Keyed) (index : Nat) :
    (s.registry.Registers work → (s.registry.recoverDeadWorkerItems c.maxRetries index).2.Registers work ∨
      (s.recover c index).Covers work) ∧
    (s.transport.Pends work → (s.transport.recoverPendingDispatches c.queueSize index).2.Pends work ∨
      (s.recover c index).Covers work) := by
  constructor
  · intro hr
    exact (InFlightRegistry.registers_recover hk hr).imp id Recovery.covers_append_left
  · intro hp
    refine (WorkerPipesTransport.pends_recover hp).imp id ?_
    rintro ⟨x, hx, rfl⟩
    exact Recovery.covers_append_right (Recovery.covers_collect hx (Recovery.covers_ofPayload c.maxRetries x))

theorem lossInv_collect (h : LossInv s) {j : Nat}
    (hidle : ∀ scan, s.scans[j]? = some scan → scan.pc.payloads = [])
    (hpacks : ∀ index rest pc, s.scans[j]? = some ⟨index :: rest, pc⟩ →
      ∀ e ∈ (s.recover c index).failures, c.encodes (.item e false) = true) : LossInv (s.collect c j) := by
  unfold collect
  split
  · rename_i index rest pc hj
    refine lossInv_frame h (.refl _) (fun _ he => he) (fun _ hs => surfaced_emit _ hs) ?_
      (fun _ hwork => .inl hwork) (InFlightRegistry.keyed_filter h.keyed _) h.seen
    intro work _ hh
    obtain ⟨hregistry, htransport⟩ := @covers_recover κ π c s work h.keyed index
    let s' : ProcessEngine κ π :=
      { s.emit c (s.recover c index).failures with
        registry := (s.registry.recoverDeadWorkerItems c.maxRetries index).2
        transport := (s.transport.recoverPendingDispatches c.queueSize index).2
        scans := s.scans.set j ⟨rest, .collected index (s.recover c index).payloads⟩ }
    have hlt := (List.getElem?_eq_some_iff.mp hj).1
    -- a failure goes to the completion queue and a payload waits in the scan
    have hcover : (s.recover c index).Covers work → s'.Surfaced work ∨ s'.Holds work := by
      rintro (⟨e, he, rfl⟩ | hx)
      · exact .inl (surfaced_emitted rfl he (hpacks index rest pc hj e he) rfl)
      · refine .inr (.inr (.inr (.inl ⟨⟨rest, .collected index (s.recover c index).payloads⟩, ?_, hx⟩)))
        exact List.mem_of_getElem? (List.getElem?_set_self hlt)
    show s'.Surfaced work ∨ s'.Holds work ∨ s'.Owed work
    rcases hh with hp | hr | hq
    · rcases htransport hp with hp | hc
      · exact .inr (.inl (.inl hp))
      · exact (hcover hc).imp id .inl
    · rcases hregistry hr with hr | hc
      · exact .inr (.inl (.inr (.inl hr)))
      · exact (hcover hc).imp id .inl
    · refine .inr (.inl (.inr (.inr (requeues_setScan hj hq rfl rfl fun x hx _ => ?_))))
      rw [hidle _ hj] at hx
      cases hx
  · exact h

/-- Every payload of the scan has surfaced after a failed restart. -/
theorem lossInv_restartFailed (h : LossInv s) {j index : Nat} {rest : List Nat} {payloads : List (WorkItem κ π)}
    {error : PyStr} {processes : List (Worker κ π)} {senders : List Nat}
    (hj : s.scans[j]? = some ⟨rest, .collected index payloads⟩)
    (hout : KeepsOutboxes s.processes processes)
    (hpacks : ∀ x ∈ payloads,
      c.encodes (.item (x.recoveryFailure (.text "worker_restart_failed: " ++ error) c.maxRetries) false) = true) :
    LossInv { s.restartFailed c payloads error with
      processes := processes, senders := senders, scans := s.scans.set j ⟨rest, .idle⟩ } := by
  refine lossInv_frame h hout (fun _ he => he) (fun _ hs => surfaced_emit _ hs) ?_
    (fun _ hwork => .inl hwork) h.keyed h.seen
  intro work _ hh
  by_cases hwork : ∃ x ∈ payloads, x.identity = work
  · obtain ⟨x, hx, rfl⟩ := hwork
    exact .inl (surfaced_emitted rfl (List.mem_map.mpr ⟨x, hx, rfl⟩) (hpacks x hx) rfl)
  · refine .inr (.inl (hh.imp id (Or.imp id fun hq => ?_)))
    exact requeues_setScan hj hq rfl rfl fun x hx hxw => absurd ⟨x, hx, hxw⟩ hwork

theorem lossInv_restart (h : LossInv s) {j : Nat} {outcome : RestartOutcome}
    (hpacks : ∀ rest index payloads error, s.scans[j]? = some ⟨rest, .collected index payloads⟩ →
      outcome = .pipeFailed error ∨ outcome = .processFailed error → ∀ x ∈ payloads,
        c.encodes (.item (x.recoveryFailure (.text "worker_restart_failed: " ++ error) c.maxRetries) false)
          = true) : LossInv (s.restart c j outcome) := by
  unfold restart
  split
  · rename_i rest index payloads hj
    cases outcome with
    | started =>
      refine lossInv_frame h (keepsOutboxes_append _ rfl rfl rfl) (fun _ he => he) (fun _ hs => hs) ?_
        (fun _ hwork => .inl hwork) h.keyed h.seen
      intro work _ hh
      refine .inr (.inl (hh.imp id (Or.imp id fun hq => ?_)))
      exact requeues_setScan hj hq rfl rfl fun x hx hxw => ⟨x, hx, hxw⟩
    | pipeFailed error =>
      exact lossInv_restartFailed h hj (.refl _) (hpacks rest index payloads error hj (.inl rfl))
    | processFailed error =>
      exact lossInv_restartFailed h hj (keepsOutboxes_append _ rfl rfl rfl)
        (hpacks rest index payloads error hj (.inr rfl))
  · exact h

theorem lossInv_publish (h : LossInv s) {j : Nat} {sent : SendOutcome}
    (hpacks : ∀ rest index x payloads, s.scans[j]? = some ⟨rest, .publishing index (x :: payloads)⟩ →
      s.canSend c (c.workerIndex x.routeIdentity) (.workItems [x]) sent = false →
        c.encodes (.item (x.recoveryFailure (.text "worker_requeue_failed: " ++ sent.errorText) c.maxRetries)
          false) = true) : LossInv (s.publish c j sent) := by
  unfold publish
  split
  · rename_i rest index x payloads hj
    rcases dispatchPayload_cases (c := c) s x sent with ⟨-, heq⟩ | ⟨hfail, heq⟩
    · rw [heq]
      dsimp only
      refine lossInv_frame h (keepsOutboxes_send s _ _) (fun _ he => he) (fun _ hs => hs) ?_
        (fun _ hwork => .inl hwork) h.keyed h.seen
      intro work _ hh
      refine .inr (.inl ?_)
      by_cases hwork : work = x.identity
      · rw [hwork]
        exact .inl (WorkerPipesTransport.pends_storeItem_self _ x)
      · refine hh.imp WorkerPipesTransport.pends_storeItem (Or.imp id fun hq => ?_)
        refine requeues_setScan hj hq rfl rfl fun y hy hyw => ?_
        rcases List.mem_cons.mp hy with rfl | hy
        · exact absurd hyw.symm hwork
        · exact ⟨y, hy, hyw⟩
    · rw [heq]
      dsimp only
      refine lossInv_frame h (.refl _) (fun _ he => he) (fun _ hs => surfaced_emit _ hs) ?_
        (fun _ hwork => .inl hwork) h.keyed h.seen
      intro work _ hh
      by_cases hwork : work = x.identity
      · rw [hwork]
        exact .inl (surfaced_emitted rfl (List.mem_singleton_self _) (hpacks rest index x payloads hj hfail) rfl)
      · refine .inr (.inl (hh.imp (WorkerPipesTransport.pends_forgetItem · hwork) (Or.imp id fun hq => ?_)))
        refine requeues_setScan hj hq rfl rfl fun y hy hyw => ?_
        rcases List.mem_cons.mp hy with rfl | hy
        · exact absurd hyw.symm hwork
        · exact ⟨y, hy, hyw⟩
  · exact h

theorem lossInv_requeueTail (h : LossInv s) {j : Nat} {sent : SendOutcome}
    (hpacks : ∀ x rest, s.tails[j]? = some (x :: rest) →
      s.canSend c (c.workerIndex x.routeIdentity) (.workItems [x]) sent = false → ∀ y ∈ x :: rest,
        c.encodes (.item (y.recoveryFailure (.text "not_started_requeue_failed: " ++ sent.errorText) c.maxRetries)
          false) = true) : LossInv (s.requeueTail c j sent) := by
  unfold requeueTail
  split
  · rename_i x rest hj
    rcases dispatchPayload_cases (c := c) s x sent with ⟨-, heq⟩ | ⟨hfail, heq⟩
    · rw [heq]
      dsimp only
      refine lossInv_frame h (keepsOutboxes_send s _ _) (fun _ he => he) (fun _ hs => hs) ?_
        (fun _ hwork => .inl hwork) h.keyed h.seen
      intro work _ hh
      refine .inr (.inl ?_)
      by_cases hwork : work = x.identity
      · rw [hwork]
        exact .inl (WorkerPipesTransport.pends_storeItem_self _ x)
      · refine hh.imp WorkerPipesTransport.pends_storeItem (Or.imp id fun hq => ?_)
        refine requeues_setTail hj hq rfl rfl fun y hy hyw => ?_
        rcases List.mem_cons.mp hy with rfl | hy
        · exact absurd hyw.symm hwork
        · exact ⟨y, hy, hyw⟩
    · rw [heq]
      dsimp only
      refine lossInv_frame h (.refl _) (fun _ he => he) (fun _ hs => surfaced_emit _ hs) ?_
        (fun _ hwork => .inl hwork) h.keyed h.seen
      intro work _ hh
      by_cases hwork : ∃ y ∈ x :: rest, y.identity = work
      · obtain ⟨y, hy, rfl⟩ := hwork
        exact .inl (surfaced_emitted rfl (List.mem_map.mpr ⟨y, hy, rfl⟩) (hpacks x rest hj hfail y hy) rfl)
      · have hne : work ≠ x.identity := fun heq => hwork ⟨x, List.mem_cons_self, heq.symm⟩
        refine .inr (.inl (hh.imp (WorkerPipesTransport.pends_forgetItem · hne) (Or.imp id fun hq => ?_)))
        exact requeues_setTail hj hq rfl rfl fun y hy hyw => absurd ⟨y, hy, hyw⟩ hwork
  · exact h

/-! ## Whole runs -/

/-- A step that keeps out of the three defects. -/
def Sound (c : ProcessConfig κ π) (s : ProcessEngine κ π) : EngineAction κ π → Prop
  | .die pid => ∀ p, s.processes[pid]? = some p → ∀ work, ¬ p.Owes work
  | .drainRegistry => ∀ key payload queue, s.registryQueue = .start key payload :: queue →
      s.registry.Unclaimed key payload
  | .finishItem pid _ => ∀ p, s.processes[pid]? = some p → p.FlushPacks c
  | .endTask pid => ∀ p, s.processes[pid]? = some p → p.FlushPacks c
  | .drainCompletion => ∀ m queue, s.completionQueue = m :: queue → c.decodes m = true
  | .poll _ => ∀ m ∈ s.completionQueue, c.decodes m = true
  | .collect j => ∀ index rest pc, s.scans[j]? = some ⟨index :: rest, pc⟩ →
      ∀ e ∈ (s.recover c index).failures, c.encodes (.item e false) = true
  | .restart j outcome => ∀ rest index payloads error, s.scans[j]? = some ⟨rest, .collected index payloads⟩ →
      outcome = .pipeFailed error ∨ outcome = .processFailed error → ∀ x ∈ payloads,
        c.encodes (.item (x.recoveryFailure (.text "worker_restart_failed: " ++ error) c.maxRetries) false) = true
  | .publish j sent => ∀ rest index x payloads, s.scans[j]? = some ⟨rest, .publishing index (x :: payloads)⟩ →
      s.canSend c (c.workerIndex x.routeIdentity) (.workItems [x]) sent = false →
        c.encodes (.item (x.recoveryFailure (.text "worker_requeue_failed: " ++ sent.errorText) c.maxRetries)
          false) = true
  | .requeueTail j sent => ∀ x rest, s.tails[j]? = some (x :: rest) →
      s.canSend c (c.workerIndex x.routeIdentity) (.workItems [x]) sent = false → ∀ y ∈ x :: rest,
        c.encodes (.item (y.recoveryFailure (.text "not_started_requeue_failed: " ++ sent.errorText) c.maxRetries)
          false) = true
  | _ => True

theorem lossInv_new : LossInv (new c : ProcessEngine κ π) := by
  have hnew : ∀ (pid : Nat) p, (new c : ProcessEngine κ π).processes[pid]? = some p → p = Worker.new p.index := by
    intro pid p hp
    obtain ⟨i, -, rfl⟩ := List.mem_map.mp (List.mem_of_getElem? hp)
    rfl
  refine ⟨fun _ h => (by cases h), fun _ h => (by cases h), fun pid p hp work => ?_, fun pid p hp task ht => ?_,
    fun pid p hp event he => ?_, fun _ h => (by cases h), fun _ _ h => (by cases h), fun _ h => (by cases h)⟩
  · rw [hnew pid p hp]
    exact .inr (Nat.zero_le _)
  · rw [hnew pid p hp] at ht
    cases ht
  · rw [hnew pid p hp] at he
    cases he

theorem payloads_of_ready_collect [DecidableEq κ] {j : Nat} {scan : Scan κ π}
    (h : s.ready (.collect j) = true) (hj : s.scans[j]? = some scan) : scan.pc.payloads = [] := by
  simp only [ready, hj] at h
  split at h
  · rename_i heq
    cases heq
    rfl
  · rename_i heq
    cases heq
    rfl
  · cases h

theorem processIs_alive {pid : Nat} {f : Worker κ π → Bool} {p : Worker κ π}
    (h : s.processIs pid (fun w => w.alive && f w) = true) (hp : s.processes[pid]? = some p) :
    p.alive = true := by
  simp only [processIs, hp, Bool.and_eq_true] at h
  exact h.1

/-- **One step.** -/
theorem lossInv_step [DecidableEq κ] {a : EngineAction κ π} (h : LossInv s)
    (he : (engineMachine κ π c).enabled s a) (hs : s.Sound c a) :
    LossInv ((engineMachine κ π c).next s a) := by
  obtain ⟨hready, hfresh⟩ := he
  cases a with
  | submit x sent => exact lossInv_submit h hfresh sent
  | submitBatch batchId items sent => exact lossInv_submitBatch h hfresh.2 sent
  | receive pid => exact lossInv_reports h fun p hp => Worker.reports_receive (h.deferred pid p hp)
  | beginItem pid => exact lossInv_reports h fun p hp => Worker.reports_beginItem (h.deferred pid p hp)
  | finishItem pid outcome =>
    exact lossInv_reports h fun p hp => Worker.reports_finishItem (h.deferred pid p hp) (hs p hp) outcome
  | endTask pid => exact lossInv_reports h fun p hp => Worker.reports_endTask (h.deferred pid p hp) (hs p hp)
  | flushCompletion pid => exact lossInv_flushCompletion h pid
  | flushRegistry pid => exact lossInv_flushRegistry h fun p hp => processIs_alive hready hp
  | die pid => exact lossInv_die h hs
  | drainRegistry => exact lossInv_drainRegistry h hs
  | drainCompletion => exact lossInv_drainCompletion h hs
  | poll limit => exact lossInv_poll h limit hs
  | beginScan => exact lossInv_beginScan h
  | collect j => exact lossInv_collect h (fun scan hj => payloads_of_ready_collect hready hj) hs
  | restart j outcome => exact lossInv_restart h hs
  | publish j sent => exact lossInv_publish h hs
  | requeueTail j sent => exact lossInv_requeueTail h hs

/-- The item is pending, registered, with a live worker, in an undelivered completion message, in a list
of payloads to be dispatched again or among the prefetched events. -/
def Represented (s : ProcessEngine κ π) (work : LogicalWorkIdentity) : Prop :=
  s.transport.Pends work ∨ s.registry.Registers work ∨
    (∃ (pid : Nat) (p : Worker κ π), s.processes[pid]? = some p ∧ p.alive = true ∧
      (p.Carries work ∨ work ∈ completionIdentities p.completions)) ∨
    work ∈ completionIdentities s.completionQueue ∨ s.Requeues work ∨
    ∃ e ∈ s.buffer.prefetchedEvents, e.identity = work

theorem LossInv.represented (h : LossInv s) (ha : work ∈ s.accepted)
    (hr : work ∉ s.returned.map (·.identity)) : s.Represented work := by
  rcases h.kept work ha with (hret | hpre | hq) | (hp | hreg | hreq) | ⟨pid, p, hp, halive, howes⟩
  · exact absurd hret hr
  · exact .inr (.inr (.inr (.inr (.inr hpre))))
  · exact .inr (.inr (.inr (.inl hq)))
  · exact .inl hp
  · exact .inr (.inl hreg)
  · exact .inr (.inr (.inr (.inr (.inl hreq))))
  · refine .inr (.inr (.inl ⟨pid, p, hp, halive, .inr (List.count_pos_iff.mp ?_)⟩))
    exact Nat.lt_of_le_of_lt (Nat.zero_le _) howes

end ProcessEngine

section Examples

abbrev oneWorker : Machine (ProcessEngine Nat Unit) (EngineAction Nat Unit) := engineMachine Nat Unit (engineConfig 3)

/-- An accepted item in the pipe of its worker. -/
def submitted : ProcessEngine Nat Unit := oneWorker.next (.new (engineConfig 3)) (.submit (routeItem 0 5) .sent)

/-- The worker executes the item, delivers both registry events and dies before its completion leaves. -/
def dieBeforeCompletion : List (EngineAction Nat Unit) :=
  [.submit (routeItem 0 5) .sent, .receive 0, .beginItem 0, .finishItem 0 (fun _ => .success),
   .flushRegistry 0, .flushRegistry 0, .die 0, .drainRegistry, .drainRegistry]

def lost : ProcessEngine Nat Unit := oneWorker.run (.new (engineConfig 3)) dieBeforeCompletion

theorem not_represented_lost : ¬ lost.Represented (routeItem 0 5).identity := by
  have htransport : lost.transport.pendingDispatch.entries = [] := by decide
  have hregistry : lost.registry.entries = [] := by decide
  have halive : lost.processes.all (fun p => !p.alive) = true := by decide
  have hqueue : lost.completionQueue = [] := by decide
  have hscans : lost.scans = [] := by decide
  have htails : lost.tails = [] := by decide
  have hbuffer : lost.buffer.prefetchedEvents = [] := by decide
  rintro (⟨k, d, hget, -⟩ | ⟨key, e, hget, -⟩ | ⟨pid, p, hp, ha, -⟩ | hq | (⟨scan, hscan, -⟩ | ⟨tail, htail, -⟩) |
    ⟨e, he, -⟩)
  · rw [← Dict.mem_entries_iff, htransport] at hget
    cases hget
  · rw [← Dict.mem_entries_iff, hregistry] at hget
    cases hget
  · have := List.all_eq_true.mp halive p (List.mem_of_getElem? hp)
    simp [ha] at this
  · rw [hqueue] at hq
    cases hq
  · rw [hscans] at hscan
    cases hscan
  · rw [htails] at htail
    cases htail
  · rw [hbuffer] at he
    cases he

end Examples

end PyrallelConsumer
