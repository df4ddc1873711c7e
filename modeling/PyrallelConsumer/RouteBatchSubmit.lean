import PyrallelConsumer.ProcessEngine

/-!
# PyrallelConsumer.RouteBatchSubmit

`submit_batch` for the items of one route against one `submit` after the other. A route batch is one
message with one size check, so a batch can be refused although each of its items is small enough.

* `decodedAt_send` — what a worker decodes after a send.
* `submitBatch_agrees_iff` — when a route batch is accepted like its items.
-/

namespace PyrallelConsumer

variable {κ π : Type}

/-- The items that a process will decode from its pipe. -/
def decodedAt (c : ProcessConfig κ π) (processes : List (Worker κ π)) (pid : Nat) : List (WorkItem κ π) :=
  match processes[pid]? with
  | none => []
  | some p => (p.pipe.filter c.packs).flatMap (·.items)

namespace ProcessEngine

variable (c : ProcessConfig κ π) (s : ProcessEngine κ π)

/-- One `submit` after the other. -/
def submitEach (items : List (WorkItem κ π)) : ProcessEngine κ π := items.foldl (fun s x => s.submit c x .sent) s

/-- `submit` of the item would accept it. -/
def acceptsAlone (x : WorkItem κ π) : Bool := (s.dispatchPayload c x .sent).1

/-- A list of items that are accepted one by one is accepted as a route batch, and the workers decode the
same items in the same order. -/
def BatchAgrees (batchId : Nat) (items : List (WorkItem κ π)) : Prop :=
  (∀ x ∈ items, s.acceptsAlone c x = true) →
    (s.submitBatch c batchId items .sent).accepted = s.accepted ++ items.map (·.identity) ∧
    ∀ pid, decodedAt c (s.submitBatch c batchId items .sent).processes pid =
      decodedAt c (s.submitEach c items).processes pid

variable {c s}

/-- The pipe of a worker leads to an existing process. -/
def leadsTo (s : ProcessEngine κ π) (w pid : Nat) : Bool :=
  decide (s.senders[w]? = some pid) && decide (pid < s.processes.length)

theorem length_send (w : Nat) (m : PipeMessage κ π) : (s.send w m).length = s.processes.length := by
  unfold send
  split
  · rfl
  · exact List.length_modify ..

/-- **A send.** The process behind the pipe decodes the items of the message after all others. -/
theorem decodedAt_send {m : PipeMessage κ π} (hm : c.packs m = true) (w pid : Nat) :
    decodedAt c (s.send w m) pid = decodedAt c s.processes pid ++ if s.leadsTo w pid then m.items else [] := by
  unfold send decodedAt leadsTo
  cases hw : s.senders[w]? with
  | none => simp
  | some sender =>
    simp only [List.getElem?_modify, Option.some.injEq]
    cases hp : s.processes[pid]? with
    | none =>
      have : ¬pid < s.processes.length := by
        rw [List.getElem?_eq_none_iff] at hp
        omega
      simp [this]
    | some p =>
      have hlt := (List.getElem?_eq_some_iff.mp hp).1
      by_cases heq : sender = pid
      · simp [heq, hlt, hm]
      · simp [heq]

theorem acceptsAlone_iff (x : WorkItem κ π) :
    s.acceptsAlone c x = true ↔
      c.packs (.workItems [x]) = true ∧ c.workerIndex x.routeIdentity < s.senders.length := by
  unfold acceptsAlone
  have hcan : s.canSend c (c.workerIndex x.routeIdentity) (.workItems [x]) .sent = true ↔
      c.packs (.workItems [x]) = true ∧ c.workerIndex x.routeIdentity < s.senders.length := by
    simp [canSend]
  rcases dispatchPayload_cases s x .sent with ⟨h, heq⟩ | ⟨h, heq⟩
  · rw [heq, ← hcan, h]
  · rw [heq, ← hcan, h]

/-- An accepted `submit`. -/
theorem submit_of_accepts {x : WorkItem κ π} (h : s.acceptsAlone c x = true) :
    (s.submit c x .sent).accepted = s.accepted ++ [x.identity] ∧
      (s.submit c x .sent).senders = s.senders ∧
      (s.submit c x .sent).processes = s.send (c.workerIndex x.routeIdentity) (.workItems [x]) := by
  unfold acceptsAlone at h
  unfold submit
  rcases dispatchPayload_cases s x .sent with ⟨-, heq⟩ | ⟨-, heq⟩
  · rw [heq]
    exact ⟨rfl, rfl, rfl⟩
  · rw [heq] at h
    cases h

/-- What the workers decode after one `submit` for each item of a route. -/
theorem decodedAt_submitEach (route : RouteIdentity κ) (items : List (WorkItem κ π)) :
    ∀ s : ProcessEngine κ π, (∀ x ∈ items, x.routeIdentity = route) → (∀ x ∈ items, s.acceptsAlone c x = true) →
      ∀ pid, decodedAt c (s.submitEach c items).processes pid =
        decodedAt c s.processes pid ++ if s.leadsTo (c.workerIndex route) pid then items else [] := by
  induction items with
  | nil => intro s _ _ pid; simp [submitEach]
  | cons x items ih =>
    intro s hroute haccepts pid
    have hx := haccepts x List.mem_cons_self
    obtain ⟨-, hsenders, hprocesses⟩ := submit_of_accepts hx
    have hnext := ih (s.submit c x .sent) (fun y hy => hroute y (List.mem_cons_of_mem x hy))
      (fun y hy => by
        have := haccepts y (List.mem_cons_of_mem x hy)
        rw [acceptsAlone_iff] at this ⊢
        rwa [hsenders]) pid
    have hleads : (s.submit c x .sent).leadsTo (c.workerIndex route) pid = s.leadsTo (c.workerIndex route) pid := by
      unfold leadsTo
      rw [hsenders, hprocesses, length_send]
    show decodedAt c ((s.submit c x .sent).submitEach c items).processes pid = _
    rw [hnext, hprocesses, decodedAt_send ((acceptsAlone_iff x).mp hx).1, hroute x List.mem_cons_self]
    simp only [hleads]
    split <;> simp [PipeMessage.items]

/-- An accepted route batch. -/
theorem submitBatch_of_packs {x : WorkItem κ π} {rest : List (WorkItem κ π)} {batchId : Nat}
    (hpacks : c.packs (.routeBatch batchId x.routeIdentity (x :: rest)) = true)
    (hworker : c.workerIndex x.routeIdentity < s.senders.length) :
    (s.submitBatch c batchId (x :: rest) .sent).accepted = s.accepted ++ (x :: rest).map (·.identity) ∧
      (s.submitBatch c batchId (x :: rest) .sent).processes =
        s.send (c.workerIndex x.routeIdentity) (.routeBatch batchId x.routeIdentity (x :: rest)) := by
  have hcan : s.canSend c (c.workerIndex x.routeIdentity) (.routeBatch batchId x.routeIdentity (x :: rest)) .sent =
      true := by
    simp [canSend, hpacks, hworker]
  have hdispatch : s.dispatchRouteBatch c batchId x.routeIdentity (x :: rest) .sent = (true, { s with
      transport := s.transport.storeBatch (c.workerIndex x.routeIdentity) batchId (x :: rest)
      processes := s.send (c.workerIndex x.routeIdentity) (.routeBatch batchId x.routeIdentity (x :: rest)) }) :=
    if_pos hcan
  unfold submitBatch
  dsimp only
  rw [hdispatch]
  exact ⟨rfl, rfl⟩

/-- A refused route batch. -/
theorem submitBatch_of_not_packs {x : WorkItem κ π} {rest : List (WorkItem κ π)} {batchId : Nat}
    (hpacks : c.packs (.routeBatch batchId x.routeIdentity (x :: rest)) = false) :
    (s.submitBatch c batchId (x :: rest) .sent).accepted = s.accepted := by
  have hcan : s.canSend c (c.workerIndex x.routeIdentity) (.routeBatch batchId x.routeIdentity (x :: rest)) .sent =
      false := by
    simp [canSend, hpacks]
  have hdispatch : s.dispatchRouteBatch c batchId x.routeIdentity (x :: rest) .sent = (false, { s with
      transport := s.transport.forgetBatch c.queueSize (c.workerIndex x.routeIdentity) batchId (x :: rest) }) :=
    if_neg (Bool.eq_false_iff.mp hcan)
  unfold submitBatch
  dsimp only
  rw [hdispatch]

/-- **Route batches and single items.** When the worker can be reached, a list of one route agrees exactly
when one of its items is refused alone or the message of the whole batch is small enough. -/
theorem submitBatch_agrees_iff (c : ProcessConfig κ π) (s : ProcessEngine κ π) (batchId : Nat)
    (route : RouteIdentity κ) (items : List (WorkItem κ π)) (hne : items ≠ [])
    (hroute : ∀ x ∈ items, x.routeIdentity = route) (hworker : c.workerIndex route < s.senders.length) :
    s.BatchAgrees c batchId items ↔
      ((∀ x ∈ items, c.packs (.workItems [x]) = true) → c.packs (.routeBatch batchId route items) = true) := by
  have halone : (∀ x ∈ items, s.acceptsAlone c x = true) ↔ ∀ x ∈ items, c.packs (.workItems [x]) = true := by
    constructor
    · intro h x hx
      exact ((acceptsAlone_iff x).mp (h x hx)).1
    · intro h x hx
      exact (acceptsAlone_iff x).mpr ⟨h x hx, by rw [hroute x hx]; exact hworker⟩
  unfold BatchAgrees
  rw [← halone]
  refine forall_congr' fun haccepts => ?_
  obtain ⟨x, rest, rfl⟩ := List.exists_cons_of_ne_nil hne
  obtain rfl := hroute x List.mem_cons_self
  cases hpacks : c.packs (.routeBatch batchId x.routeIdentity (x :: rest)) with
  | false =>
    refine ⟨fun ⟨haccepted, _⟩ => ?_, fun h => (by cases h)⟩
    rw [submitBatch_of_not_packs hpacks] at haccepted
    have := congrArg List.length haccepted
    simp at this
  | true =>
    obtain ⟨haccepted, hprocesses⟩ := submitBatch_of_packs hpacks hworker
    refine ⟨fun _ => rfl, fun _ => ⟨haccepted, fun pid => ?_⟩⟩
    rw [decodedAt_submitEach x.routeIdentity _ s hroute haccepts, hprocesses]
    exact decodedAt_send hpacks _ pid

section Examples

theorem submitBatch_agrees_iff_pair :
    (new (engineConfig 3)).BatchAgrees (engineConfig 3) 0 [routeItem 0 5, routeItem 1 6] :=
  (submitBatch_agrees_iff (engineConfig 3) (new (engineConfig 3)) 0 (routeItem 0 5).routeIdentity
    [routeItem 0 5, routeItem 1 6] (by decide) (by decide) (by decide)).mpr fun _ => by decide

/-- A limit that each item keeps on its own. -/
def narrowConfig : ProcessConfig Nat Unit := { engineConfig 3 with msgpackMaxBytes := 300 }

/-- **The refused batch**: two items that are accepted one by one are too large together. -/
theorem submitBatch_refuses_pair :
    ¬(new narrowConfig).BatchAgrees narrowConfig 0 [routeItem 0 5, routeItem 1 6] := by
  intro h
  have := (h (by decide)).1
  exact absurd this (by decide)

end Examples

end ProcessEngine

end PyrallelConsumer
