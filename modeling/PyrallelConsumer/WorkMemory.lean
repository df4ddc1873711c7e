import PyrallelConsumer.WorkBooks
import PyrallelConsumer.WorkTrackers

/-!
# PyrallelConsumer.WorkMemory

Where the items of the current assignments are: in their virtual queue, or taken off it with no event for
them processed since. And whom the events report: every event that waits, whoever made it, reports an item
that was enqueued.

* `Missing` — an item of the current assignment of its partition that is at neither place.
* `keeps_next` — no operation but a poll loses an item; `missing_poll` — a poll loses those it reports.
* `Traced` — the index of ids and the waiting events, traced back to enqueued items.
-/

set_option linter.unusedSectionVars false

namespace PyrallelConsumer

open WorkLog

variable {κ π : Type} [DecidableEq κ]

/-! ## Missing items -/

/-- The items taken off their queue, by a lease or by the poison circuit, that are not revoked and for
which no event has been processed. -/
def WorkLog.outstanding : List (Entry κ π) → List (WorkItem κ π)
  | [] => []
  | .handed lease :: l => lease ++ outstanding l
  | .poisoned x :: l => x :: outstanding l
  | .processed e :: l => (outstanding l).filter fun x => x.id ≠ e.id
  | .revoked tps :: l => (outstanding l).filter fun x => x.tp ∉ tps
  | _ :: l => outstanding l

/-- The item belongs to the current assignment of its partition, and is neither queued nor outstanding. -/
structure WorkView.Missing (v : WorkView κ π) (x : WorkItem κ π) : Prop where
  enqueued : x ∈ enqueuedOf x.tp x.key v.log
  queue : x ∉ v.queueOf x.tp x.key
  outstanding : x ∉ outstanding v.log

/-- Nothing goes missing. -/
def WorkView.Keeps (v v' : WorkView κ π) : Prop := ∀ x, v'.Missing x → v.Missing x

/-- What goes missing is reported by an event that is processed on the way. -/
def WorkView.KeepsUnreported (v v' : WorkView κ π) : Prop :=
  ∃ l, v'.log = l ++ v.log ∧ ∀ x, v'.Missing x → v.Missing x ∨ ∃ e, .processed e ∈ l ∧ e.id = x.id

namespace WorkView

variable {c : WorkManagerConfig} {ok : WorkView κ π → CompletionEvent → Prop} {v v' v'' : WorkView κ π}

theorem Keeps.trans (h : v.Keeps v') (h' : v'.Keeps v'') : v.Keeps v'' := fun x hx => h x (h' x hx)

theorem KeepsUnreported.trans (h : v.KeepsUnreported v') (h' : v'.KeepsUnreported v'') : v.KeepsUnreported v'' := by
  obtain ⟨l, hl, hmissing⟩ := h
  obtain ⟨l', hl', hmissing'⟩ := h'
  refine ⟨l' ++ l, by rw [hl', hl, List.append_assoc], fun x hx => ?_⟩
  rcases hmissing' x hx with hx | ⟨e, he, hid⟩
  · exact (hmissing x hx).imp_right fun ⟨e, he, hid⟩ => ⟨e, List.mem_append_right _ he, hid⟩
  · exact .inr ⟨e, List.mem_append_left _ he, hid⟩

theorem outstanding_enqueueAll (items : List (WorkItem κ π)) (l : List (Entry κ π)) :
    outstanding (enqueueAll items l) = outstanding l :=
  enqueueAll_congr (fun _ _ => rfl) items l

/-- The queues are the same, and no item stops being outstanding. -/
theorem keeps_of_same (hlog : ∀ x : WorkItem κ π, x ∈ enqueuedOf x.tp x.key v'.log → x ∈ enqueuedOf x.tp x.key v.log)
    (hqueue : v'.queueOf = v.queueOf) (hout : ∀ x ∈ outstanding v.log, x ∈ outstanding v'.log) : v.Keeps v' :=
  fun x hx => ⟨hlog x hx.enqueued, hqueue ▸ hx.queue, fun hmem => hx.outstanding (hout x hmem)⟩

theorem keeps_assign {tp : TopicPartition} (h : AssignedPartition v tp v') : v.Keeps v' := by
  refine keeps_of_same (fun x hx => ?_) h.queueOf fun x hx => by rw [h.log]; exact hx
  rw [h.log] at hx
  simp only [enqueuedOf] at hx
  split at hx
  · cases hx
  · exact hx

theorem keeps_revoke {tps : List TopicPartition} (h : RevokedPartitions c v tps v') : v.Keeps v' := by
  intro x hx
  have hmem := hx.enqueued
  rw [h.log] at hmem
  simp only [enqueuedOf] at hmem
  split at hmem
  · cases hmem
  · rename_i htp
    refine ⟨hmem, fun hq => hx.queue ?_, fun hout => hx.outstanding ?_⟩
    · rw [h.queueOf, if_neg htp]
      exact hq
    · rw [h.log]
      exact List.mem_filter.mpr ⟨hout, by simpa using htp⟩

theorem withQueue_self (v : WorkView κ π) {k : QueueKey κ} {l : List (WorkItem κ π)} {tp : TopicPartition} {key : κ}
    (h : k.1 = tp ∧ k.2 = key) : v.withQueue k l tp key = l := if_pos h

theorem withQueue_other (v : WorkView κ π) {k : QueueKey κ} {l : List (WorkItem κ π)} {tp : TopicPartition} {key : κ}
    (h : ¬(k.1 = tp ∧ k.2 = key)) : v.withQueue k l tp key = v.queueOf tp key := if_neg h

theorem keeps_enqueue {k : QueueKey κ} {items : List (WorkItem κ π)} (h : EnqueuedItems v k items v') :
    v.Keeps v' := by
  intro x hx
  have hmem := hx.enqueued
  have hqueue := hx.queue
  rw [h.queueOf] at hqueue
  rw [h.log, enqueuedOf_enqueueAll] at hmem
  rcases List.mem_append.mp hmem with hmem | hnew
  · refine ⟨hmem, fun hq => hqueue ?_, fun hout => hx.outstanding ?_⟩
    · by_cases hroute : k.1 = x.tp ∧ k.2 = x.key
      · rw [withQueue_self v hroute, hroute.1, hroute.2]
        exact List.mem_append_left _ hq
      · rw [withQueue_other v hroute]
        exact hq
    · rw [h.log, outstanding_enqueueAll]
      exact hout
  · have hnew := (List.mem_filter.mp hnew).1
    obtain ⟨htp, hkey⟩ := h.route x hnew
    rw [withQueue_self v ⟨htp.symm, hkey.symm⟩] at hqueue
    exact absurd (List.mem_append_right _ hnew) hqueue

/-- Items move from the front of a queue to those that are outstanding. -/
theorem keeps_take {k : QueueKey κ} {rest : List (WorkItem κ π)} (taken : List (WorkItem κ π)) (hqueue : v.queueOf k.1 k.2 = taken ++ rest)
    (hrest : v'.queueOf = v.withQueue k rest)
    (hlog : ∀ x : WorkItem κ π, x ∈ enqueuedOf x.tp x.key v'.log → x ∈ enqueuedOf x.tp x.key v.log)
    (hout : outstanding v'.log = taken ++ outstanding v.log) : v.Keeps v' := by
  intro x hx
  have hleft := hx.queue
  have hnot := hx.outstanding
  rw [hrest] at hleft
  rw [hout] at hnot
  refine ⟨hlog x hx.enqueued, fun hq => ?_, fun h => hnot (List.mem_append_right _ h)⟩
  by_cases hroute : k.1 = x.tp ∧ k.2 = x.key
  · rw [← hroute.1, ← hroute.2, hqueue] at hq
    rw [withQueue_self v hroute] at hleft
    exact (List.mem_append.mp hq).elim (fun h => hnot (List.mem_append_left _ h)) hleft
  · rw [withQueue_other v hroute] at hleft
    exact hleft hq

theorem keeps_poison {k : QueueKey κ} {x : WorkItem κ π} (h : PoisonedHead v k x v') : v.Keeps v' := by
  obtain ⟨rest, hqueue, hrest⟩ := h.queue
  refine keeps_take [x] hqueue hrest (fun y hy => ?_) (by rw [h.log]; rfl)
  rw [h.log] at hy
  exact hy

theorem keeps_hand {k : QueueKey κ} {lease : List (WorkItem κ π)} (h : HandedOver c v k lease v') : v.Keeps v' := by
  refine keeps_take lease ?_ h.queueOf (fun y hy => ?_) (by rw [h.log]; rfl)
  · obtain ⟨rest, hrest⟩ := h.isPrefix
    rw [← hrest, List.drop_left]
  · rw [h.log] at hy
    exact hy

theorem keepsUnreported_of_keeps {l : List (Entry κ π)} (hl : v'.log = l ++ v.log) (h : v.Keeps v') :
    v.KeepsUnreported v' := ⟨l, hl, fun x hx => .inl (h x hx)⟩

/-- Only the item with the id of the event can go missing. -/
theorem keepsUnreported_process {e : CompletionEvent} (hlog : v'.log = .processed e :: v.log)
    (hqueue : v'.queueOf = v.queueOf) : v.KeepsUnreported v' := by
  refine ⟨[.processed e], hlog, fun x hx => ?_⟩
  by_cases hid : x.id = e.id
  · exact .inr ⟨e, List.mem_singleton_self _, hid.symm⟩
  · have hmem := hx.enqueued
    have hout := hx.outstanding
    rw [hlog] at hmem hout
    refine .inl ⟨hmem, hqueue ▸ hx.queue, fun h => hout ?_⟩
    exact List.mem_filter.mpr ⟨h, by simpa using hid⟩

theorem enqueueAll_eq (items : List (WorkItem κ π)) : ∀ l : List (Entry κ π), ∃ l', enqueueAll items l = l' ++ l := by
  induction items with
  | nil => intro l; exact ⟨[], rfl⟩
  | cons x items ih =>
    intro l
    obtain ⟨l', hl'⟩ := ih (.enqueued x :: l)
    exact ⟨l' ++ [.enqueued x], by rw [List.append_assoc]; exact hl'⟩

/-- A step that processes no event keeps every item. -/
theorem keeps_step (hs : WorkStep c (fun _ _ => False) v v') : v.Keeps v' := by
  cases hs with
  | quiet h => exact keeps_of_same (fun x hx => h.log ▸ hx) h.queueOf fun x hx => h.log.symm ▸ hx
  | assign tp hfree h => exact keeps_assign h
  | revoke tps h => exact keeps_revoke h
  | enqueue k items h => exact keeps_enqueue h
  | poison k x h => exact keeps_poison h
  | hand k lease h => exact keeps_hand h
  | complete e x hok h => exact hok.elim
  | ignore e hok h hkept => exact hok.elim

theorem keepsUnreported_step (hs : WorkStep c ok v v') : v.KeepsUnreported v' := by
  cases hs with
  | quiet h => exact keepsUnreported_of_keeps (l := []) h.log (keeps_step (c := c) (.quiet h))
  | assign tp hfree h => exact keepsUnreported_of_keeps (l := [_]) h.log (keeps_assign h)
  | revoke tps h => exact keepsUnreported_of_keeps (l := [_]) h.log (keeps_revoke h)
  | enqueue k items h =>
    obtain ⟨l, hl⟩ := enqueueAll_eq items v.log
    exact keepsUnreported_of_keeps (h.log.trans hl) (keeps_enqueue h)
  | poison k x h => exact keepsUnreported_of_keeps (l := [_]) h.log (keeps_poison h)
  | hand k lease h => exact keepsUnreported_of_keeps (l := [_]) h.log (keeps_hand h)
  | complete e x hok h => exact keepsUnreported_process h.log h.queueOf
  | ignore e hok h hkept => exact keepsUnreported_process h.log h.queueOf

/-- Partitions without queues have no current assignment. -/
def Unassigned (v : WorkView κ π) : Prop := ∀ tp key, ¬ v.assigned tp → enqueuedOf tp key v.log = []

theorem unassigned_step (h : v.Unassigned) (hs : WorkStep c ok v v') : v'.Unassigned := by
  intro tp key hn
  cases hs with
  | quiet hq =>
    rw [hq.log]
    exact h tp key (hq.assigned ▸ hn)
  | assign tp' hfree ha =>
    have hne : tp ≠ tp' ∧ ¬ v.assigned tp := not_or.mp fun hor => hn ((ha.assigned tp).mpr hor)
    rw [ha.log]
    simp only [enqueuedOf, if_neg (Ne.symm hne.1)]
    exact h tp key hne.2
  | revoke tps hr =>
    rw [hr.log]
    simp only [enqueuedOf]
    split
    · rfl
    · rename_i htp
      exact h tp key fun hassigned => hn ((hr.assigned tp).mpr ⟨htp, hassigned⟩)
  | enqueue k items he =>
    rw [he.assigned] at hn
    rw [he.log, enqueuedOf_enqueueAll, h tp key hn, filter_route tp key he.route, if_neg ?_]
    · rfl
    · rintro ⟨rfl, -⟩
      exact hn he.assigned_key
  | poison k x hp =>
    rw [hp.log]
    exact h tp key (hp.assigned ▸ hn)
  | hand k lease hh =>
    rw [hh.log]
    exact h tp key (hh.assigned ▸ hn)
  | complete e x hok hc =>
    rw [hc.log]
    exact h tp key (hc.assigned ▸ hn)
  | ignore e hok hi hkept =>
    rw [hi.log]
    exact h tp key (hi.assigned ▸ hn)

end WorkView

namespace WorkManager

variable {c : WorkManagerConfig} {env : Env κ π}

/-! ## The operations -/

theorem workInv_next {s : WorkManager κ π} {a : WorkAction κ π} (h : WorkInv c s.view)
    (he : (workMachine κ π c).enabled s a) : WorkInv c ((workMachine κ π c).next s a).view :=
  next_induction (fun _ _ hv hs => hv.step hs) (Reports.all c _) (fun _ hv => hv.filed)
    (fun _ hv => hv.queues.tracked) h he fun _ _ _ _ _ _ => trivial

/-- **No operation but a poll loses an item.** -/
theorem keeps_next {s : WorkManager κ π} {a : WorkAction κ π} (h : WorkInv c s.view)
    (he : (workMachine κ π c).enabled s a) (ha : ∀ env events after, a ≠ .poll env events after) :
    s.view.Keeps ((workMachine κ π c).next s a).view := by
  have hboth := next_induction_of_ne_poll (P := fun v => WorkInv c v ∧ s.view.Keeps v)
    (fun v v' hv (hs : WorkStep c (fun _ _ => False) v v') => ⟨hv.1.step hs, hv.2.trans (WorkView.keeps_step hs)⟩) (fun v hv => hv.1.filed)
    (fun v hv => hv.1.queues.tracked) ⟨h, fun _ hx => hx⟩ he ha
  exact hboth.2

/-- **A poll** loses only items that an event of its result reports. -/
theorem missing_poll {s : WorkManager κ π} (h : WorkInv c s.view) (henv : env.AcceptsPrefix)
    (engineEvents : List CompletionEvent) (after : Bool) {x : WorkItem κ π}
    (hx : (s.pollCompletedEvents c env engineEvents after).2.view.Missing x) :
    s.view.Missing x ∨ ∃ e ∈ (s.pollCompletedEvents c env engineEvents after).1, e.id = x.id := by
  have hboth := next_induction (a := .poll env engineEvents after) (P := fun v => WorkInv c v ∧ s.view.KeepsUnreported v)
    (fun v v' hv (hs : WorkStep c (fun _ _ => True) v v') => ⟨hv.1.step hs, hv.2.trans (WorkView.keepsUnreported_step hs)⟩) (Reports.all c _)
    (fun v hv => hv.1.filed) (fun v hv => hv.1.queues.tracked)
    ⟨h, ⟨[], rfl, fun _ hx => .inl hx⟩⟩ henv fun _ _ _ _ _ _ => trivial
  obtain ⟨l, hl, hmissing⟩ := hboth.2
  obtain ⟨l', hl', hentries⟩ := (@books_pollCompletedEvents κ π _ c env s engineEvents after).1.log
  obtain rfl : l = l' := List.append_cancel_right (hl.symm.trans hl')
  refine (hmissing x hx).imp_right fun ⟨e, he, hid⟩ => ⟨e, ?_, hid⟩
  cases hentries _ he with
  | processed e hmem => exact hmem

theorem unassigned_reachable {s : WorkManager κ π} (h : (workMachine κ π c).Reachable s) : s.view.Unassigned := by
  have hboth : WorkInv c s.view ∧ s.view.Unassigned := by
    refine (workMachine κ π c).invariant (I := fun s => WorkInv c s.view ∧ s.view.Unassigned) ?_ ?_ h
    · rintro s ⟨circuit, rfl⟩
      exact ⟨workInv_new c circuit, fun _ _ _ => rfl⟩
    · intro s a hi he _
      exact next_induction (P := fun v => WorkInv c v ∧ v.Unassigned)
        (fun _ _ hv hs => ⟨hv.1.step hs, WorkView.unassigned_step hv.2 hs⟩) (Reports.all c _)
        (fun _ hv => hv.1.filed) (fun _ hv => hv.1.queues.tracked) hi he fun _ _ _ _ _ _ => trivial
  exact hboth.2

/-! ## Events and their items -/

/-- The event reports an item that was enqueued. -/
def Reported (s : WorkManager κ π) (e : CompletionEvent) : Prop := ∃ x ∈ enqueuedItems s.log, e.Echoes x

/-- What the work manager stores about items goes back to items that were enqueued, of epoch one. -/
structure Traced (s : WorkManager κ π) : Prop where
  epoch : ∀ x ∈ enqueuedItems s.log, x.epoch = 1
  index : ∀ k id, s.workItemIdsByTpOffset.get? k = some id →
    ∃ x ∈ enqueuedItems s.log, x.id = id ∧ (x.tp, x.offset) = k
  waiting : ∀ e ∈ s.completionQueue, s.Reported e

theorem Reported.mono {s s' : WorkManager κ π} {e : CompletionEvent} (h : s.Reported e)
    (hsub : ∀ x ∈ enqueuedItems s.log, x ∈ enqueuedItems s'.log) : s'.Reported e := by
  obtain ⟨x, hx, hecho⟩ := h
  exact ⟨x, hsub x hx, hecho⟩

theorem mem_consumedItems_of_poisoned {x : WorkItem κ π} {l : List (Entry κ π)} (h : .poisoned x ∈ l) :
    x ∈ consumedItems l := by
  induction l with
  | nil => cases h
  | cons entry l ih =>
    rcases List.mem_cons.mp h with rfl | hl
    · simp [consumedItems]
    · cases entry with
      | handed lease => exact List.mem_append_left _ (ih hl)
      | poisoned y => exact List.mem_append_left _ (ih hl)
      | _ => exact ih hl

namespace Traced

/-- Only the log grows, by entries that enqueue nothing, and the index and the queue of events shrink. -/
theorem of_shrunk {s s' : WorkManager κ π} (h : s.Traced) (hlog : enqueuedItems s'.log = enqueuedItems s.log)
    (hindex : ∀ k id, s'.workItemIdsByTpOffset.get? k = some id → s.workItemIdsByTpOffset.get? k = some id)
    (hqueue : ∀ e ∈ s'.completionQueue, e ∈ s.completionQueue) : s'.Traced := by
  refine ⟨fun x hx => h.epoch x (hlog ▸ hx), fun k id hk => ?_, fun e he => ?_⟩
  · obtain ⟨x, hx, hxk⟩ := h.index k id (hindex k id hk)
    exact ⟨x, hlog.symm ▸ hx, hxk⟩
  · exact (h.waiting e (hqueue e he)).mono fun x hx => hlog.symm ▸ hx

theorem books {events : List CompletionEvent} {s s' : WorkManager κ π} (h : s.Traced) (hb : Books events s s')
    (hi : ItemInv s'.view) : s'.Traced := by
  have hlog := hb.enqueuedItems_eq
  refine ⟨fun x hx => h.epoch x (hlog ▸ hx), fun k id hk => ?_, fun e he => ?_⟩
  · obtain ⟨x, hx, hxk⟩ := h.index k id (hb.index k id hk)
    exact ⟨x, hlog.symm ▸ hx, hxk⟩
  · rcases hb.waiting e he with he | ⟨x, hx, hecho, -⟩
    · exact (h.waiting e he).mono fun x hx => hlog.symm ▸ hx
    · exact ⟨x, hi.consumed x (mem_consumedItems_of_poisoned hx), hecho⟩

theorem onAssign {s : WorkManager κ π} (h : s.Traced) (l : List (TopicPartition × TrackerOrOffset)) :
    (s.onAssign c l).Traced := by
  have hfold : ∀ (l : List (TopicPartition × TrackerOrOffset)) (s : WorkManager κ π), s.Traced →
      (l.foldl (assignOne c) s).Traced := by
    intro l
    induction l with
    | nil => intro s hs; exact hs
    | cons a l ih =>
      intro s hs
      refine ih _ ?_
      unfold assignOne
      dsimp only
      split <;> exact hs.of_shrunk rfl (fun _ _ hk => hk) fun _ he => he
  exact (hfold l s h).of_shrunk rfl (fun _ _ hk => hk) fun _ he => he

theorem onRevoke {s : WorkManager κ π} (h : s.Traced) (hf : s.view.Filed) (tps : List TopicPartition) :
    (s.onRevoke c tps).Traced := by
  have hspec := onRevoke_spec c s tps hf
  have hindex : ∀ k id, (s.onRevoke c tps).workItemIdsByTpOffset.get? k = some id →
      s.workItemIdsByTpOffset.get? k = some id := by
    refine onRevoke_induction c (P := fun t => ∀ k id, t.workItemIdsByTpOffset.get? k = some id →
      s.workItemIdsByTpOffset.get? k = some id) ?_ (fun t id ht k id' hk => ?_) (fun t ht => ht) fun t ht => ht
    · have hfold : ∀ (l : List TopicPartition) (t : WorkManager κ π),
          (l.foldl revokeOne t).workItemIdsByTpOffset = t.workItemIdsByTpOffset := by
        intro l
        induction l with
        | nil => intro t; rfl
        | cons tp l ih => intro t; exact ih _
      intro k id hk
      exact hfold tps s ▸ hk
    · exact ht k id' ((@books_releaseInFlightItem κ π _ c [] t id false).index k id' hk)
  have hqueue : (s.onRevoke c tps).completionQueue = s.completionQueue := hspec.completionQueue
  have hlog : (s.onRevoke c tps).log = .revoked tps :: s.log := hspec.log
  exact h.of_shrunk (by rw [hlog]; rfl) hindex fun e he => hqueue ▸ he

theorem createItems {s : WorkManager κ π} (h : s.Traced) (tp : TopicPartition) (key : κ)
    (ms : List (QueuedMessage κ π)) (hms : ∀ m ∈ ms, m.epoch = 1) :
    (WorkManager.createItems tp key s ms).2.Traced := by
  induction ms generalizing s with
  | nil => exact h
  | cons m ms ih =>
    refine ih ?_ fun m' hm' => hms m' (List.mem_cons_of_mem _ hm')
    refine ⟨fun x hx => ?_, fun k id hk => ?_, fun e he => (h.waiting e he).mono fun x hx => List.mem_append_left _ hx⟩
    · rcases List.mem_append.mp hx with hx | hx
      · exact h.epoch x hx
      · cases List.mem_singleton.mp hx
        exact hms m List.mem_cons_self
    · replace hk : (s.workItemIdsByTpOffset.set (tp, m.offset) (.uuid s.nextUuid)).get? k = some id := hk
      rw [Dict.get?_set] at hk
      split at hk
      · rename_i hkey
        cases hk
        exact ⟨_, List.mem_append_right _ (List.mem_singleton_self _), rfl, hkey⟩
      · obtain ⟨x, hx, hxk⟩ := h.index k id hk
        exact ⟨x, List.mem_append_left _ hx, hxk⟩

theorem submitGroups {s : WorkManager κ π} (h : s.Traced) (d : Dict TopicPartition Int)
    (groups : List (QueueKey κ × List (QueuedMessage κ π))) (hgroups : ∀ g ∈ groups, ∀ m ∈ g.2, m.epoch = 1) :
    (s.submitGroups d groups).1.Traced := by
  induction groups generalizing s d with
  | nil => exact h
  | cons g groups ih =>
    obtain ⟨k, messages⟩ := g
    simp only [WorkManager.submitGroups]
    split
    · refine ih ?_ _ fun g hg => hgroups g (List.mem_cons_of_mem _ hg)
      exact (h.createItems k.1 k.2 messages (hgroups (k, messages) List.mem_cons_self)).of_shrunk rfl
        (fun _ _ hk => hk) fun _ he => he
    · exact h

theorem submitMessageBatch {s : WorkManager κ π} (h : s.Traced)
    (groups : List (QueueKey κ × List (QueuedMessage κ π))) (hgroups : ∀ g ∈ groups, ∀ m ∈ g.2, m.epoch = 1) :
    (s.submitMessageBatch groups).1.Traced := by
  have hgrouped := h.submitGroups .empty groups hgroups
  have hfold : ∀ (l : List (TopicPartition × Int)) (s : WorkManager κ π), s.Traced →
      (l.foldl updateLastFetched s).Traced := by
    intro l
    induction l with
    | nil => intro s hs; exact hs
    | cons e l ih =>
      intro s hs
      refine ih _ ?_
      unfold updateLastFetched
      split
      · exact hs
      · exact hs.of_shrunk rfl (fun _ _ hk => hk) fun _ he => he
  unfold WorkManager.submitMessageBatch
  split
  · rename_i s1 e heq; rw [heq] at hgrouped; exact hgrouped
  · rename_i s1 d heq
    rw [heq] at hgrouped
    split
    · exact hgrouped
    · exact (hfold _ s1 hgrouped).of_shrunk rfl (fun _ _ hk => hk) fun _ he => he

/-- A forced failure reports the item that the index names, or one of the ledger. -/
theorem forceFail {s : WorkManager κ π} (h : s.Traced) (hi : ItemInv s.view) (tp : TopicPartition) (offset : Int)
    (error : String) (attempt : Int) : (s.forceFail tp offset 1 error attempt).2.Traced := by
  have hput : ∀ (d : Dict (TopicPartition × Int) WorkId) (id : WorkId),
      (∀ k id', d.get? k = some id' → ∃ x ∈ enqueuedItems s.log, x.id = id' ∧ (x.tp, x.offset) = k) →
      (∃ x ∈ enqueuedItems s.log, x.id = id ∧ (x.tp, x.offset) = (tp, offset)) →
      ({ s with
        workItemIdsByTpOffset := d
        completionQueue := s.completionQueue ++
          [{ id := id, tp := tp, offset := offset, epoch := 1, status := .failure, error := some (.text error),
             attempt := attempt }] } : WorkManager κ π).Traced := by
    rintro d id hd ⟨x, hx, hid, hk⟩
    obtain ⟨htp, hoffset⟩ := Prod.mk.inj hk
    refine ⟨h.epoch, hd, fun e he => ?_⟩
    rcases List.mem_append.mp he with he | he
    · exact h.waiting e he
    · cases List.mem_singleton.mp he
      exact ⟨x, hx, hid.symm, htp.symm, hoffset.symm, (h.epoch x hx).symm⟩
  unfold WorkManager.forceFail
  dsimp only
  split
  · rename_i id hid
    exact hput _ id h.index (h.index _ id hid)
  · split
    · rename_i id x hfind
      have hmem := List.mem_of_find?_eq_some hfind
      have hmatch := List.find?_some hfind
      simp only [decide_eq_true_eq] at hmatch
      obtain ⟨hxid, hx⟩ := hi.filed id x ((Dict.mem_entries_iff _).mp hmem)
      have hthis : ∃ x ∈ enqueuedItems s.log, x.id = id ∧ (x.tp, x.offset) = (tp, offset) :=
        ⟨x, hx, hxid, Prod.ext hmatch.1 hmatch.2⟩
      refine hput _ id (fun k id' hk => ?_) hthis
      rw [Dict.get?_set] at hk
      split at hk
      · rename_i hkey
        cases hk
        exact hkey ▸ hthis
      · exact h.index k id' hk
    · exact h

end Traced

/-- **A poll** returns events that report enqueued items, when the engine's events do. -/
theorem traced_poll {s : WorkManager κ π} (h : s.Traced) (hi : WorkInv c s.view) (henv : env.AcceptsPrefix)
    {engineEvents : List CompletionEvent} (hreports : ∀ e ∈ engineEvents, s.Reported e) (after : Bool) :
    (s.pollCompletedEvents c env engineEvents after).2.Traced ∧
      WorkInv c (s.pollCompletedEvents c env engineEvents after).2.view ∧
      ∀ e ∈ (s.pollCompletedEvents c env engineEvents after).1, s.Reported e := by
  obtain ⟨hbooks, horigin⟩ := @books_pollCompletedEvents κ π _ c env s engineEvents after
  have hinv : WorkInv c (s.pollCompletedEvents c env engineEvents after).2.view :=
    workInv_next (a := .poll env engineEvents after) hi henv
  have hqueued : ({ s with completionQueue := s.completionQueue ++ engineEvents } : WorkManager κ π).Traced :=
    ⟨h.epoch, h.index, fun e he => (List.mem_append.mp he).elim (h.waiting e) (hreports e)⟩
  refine ⟨hqueued.books hbooks hinv.items, hinv, fun e he => ?_⟩
  rcases horigin e he with he | ⟨x, hx, hecho, -⟩
  · exact (List.mem_append.mp he).elim (h.waiting e) (hreports e)
  · have hmem := hinv.items.consumed x (mem_consumedItems_of_poisoned hx)
    have hlog := hbooks.enqueuedItems_eq
    exact ⟨x, hlog ▸ hmem, hecho⟩

end WorkManager

end PyrallelConsumer
