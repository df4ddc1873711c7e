import PyrallelConsumer.PoisonMessage
import PyrallelConsumer.Lib.Machine
import Mathlib.Algebra.Order.Ring.Int

/-!
# PyrallelConsumer.CircuitReads

The readings of the poison circuit in `control_plane/poison_message.py`: `get_open_circuit_count` drops the
circuits that have expired, with their failure counts, and `would_force_fail` drops nothing. Two circuits get
the same calls, and one of them is read in between.

* `get?_recordCompletion`, `get?_shouldForceFail` — the operations, one key at a time.
* `Agree` — what the readings leave of a key.
* `circuit_reads_same_iff` — when the two circuits answer alike.
-/

namespace PyrallelConsumer

namespace CircuitState

def isOpen (st : CircuitState) (now : Time) : Bool :=
  match st.openUntil with
  | some u => now < u
  | none => false

def isExpired (st : CircuitState) (now : Time) : Bool :=
  match st.openUntil with
  | some u => !(decide (now < u))
  | none => false

end CircuitState

namespace PoisonMessageCircuitBreaker

variable {κ π : Type} [DecidableEq κ]

/-- `would_force_fail`. -/
def wouldForceFail (c : PoisonMessageCircuitBreaker κ) (now : Time) (item : WorkItem κ π) : Bool :=
  if !c.enabled then false
  else
    match c.states.get? (circuitKey item) with
    | none => false
    | some st => st.isOpen now

/-- `get_open_circuit_count`; expired circuits are dropped. -/
def getOpenCircuitCount (c : PoisonMessageCircuitBreaker κ) (now : Time) :
    Nat × PoisonMessageCircuitBreaker κ :=
  if !c.enabled then (0, c)
  else
    ((c.states.values.filter (·.isOpen now)).length,
      { c with states := c.states.filter fun _ st => !st.isExpired now })

/-! ## One key -/

/-- `record_completion` on the state of its key. -/
def afterCompletion (c : PoisonMessageCircuitBreaker κ) (now : Time) (event : CompletionEvent)
    (st : Option CircuitState) : Option CircuitState :=
  if !c.enabled then st
  else
    match event.status with
    | .success => none
    | .failure =>
      if event.attempt < c.forcedFailureAttempt then st
      else
        let count := (st.getD {}).failureCount + 1
        some ⟨count, if (count : Int) ≥ c.failureThreshold then some (now + c.cooldown) else (st.getD {}).openUntil⟩

theorem get?_recordCompletion (c : PoisonMessageCircuitBreaker κ) (now : Time) (event : CompletionEvent)
    (item : WorkItem κ π) (k : TopicPartition × κ) :
    (c.recordCompletion now event item).states.get? k =
      if circuitKey item = k then c.afterCompletion now event (c.states.get? k) else c.states.get? k := by
  unfold recordCompletion afterCompletion
  cases c.enabled with
  | false => simp
  | true =>
    cases event.status with
    | success =>
      by_cases hk : circuitKey item = k
      · simp [hk, Dict.get?_erase]
      · simp [hk, Dict.get?_erase]
    | failure =>
      by_cases hattempt : event.attempt < c.forcedFailureAttempt
      · simp [hattempt]
      · by_cases hk : circuitKey item = k
        · subst hk
          simp [hattempt]
        · simp [hattempt, hk, Dict.get?_set]

/-- What `should_force_fail` answers for the state of its key. -/
def answer (st : Option CircuitState) (now : Time) : Bool := st.any (·.isOpen now)

/-- What `should_force_fail` leaves of the state of its key. -/
def afterAsk (st : Option CircuitState) (now : Time) : Option CircuitState := st.filter fun st => !st.isExpired now

theorem shouldForceFail_fst (c : PoisonMessageCircuitBreaker κ) (now : Time) (item : WorkItem κ π) :
    (c.shouldForceFail now item).1 = (c.enabled && answer (c.states.get? (circuitKey item)) now) := by
  unfold shouldForceFail answer
  cases c.enabled with
  | false => rfl
  | true =>
    cases c.states.get? (circuitKey item) with
    | none => rfl
    | some st =>
      obtain ⟨n, u⟩ := st
      cases u with
      | none => rfl
      | some u =>
        by_cases hlt : now < u <;> simp [CircuitState.isOpen, hlt]

theorem get?_shouldForceFail (c : PoisonMessageCircuitBreaker κ) (now : Time) (item : WorkItem κ π)
    (k : TopicPartition × κ) :
    (c.shouldForceFail now item).2.states.get? k =
      if c.enabled = true ∧ circuitKey item = k then afterAsk (c.states.get? k) now else c.states.get? k := by
  unfold shouldForceFail afterAsk
  cases c.enabled with
  | false => simp
  | true =>
    by_cases hk : circuitKey item = k
    · subst hk
      cases hst : c.states.get? (circuitKey item) with
      | none => simp [hst]
      | some st =>
        obtain ⟨n, u⟩ := st
        cases u with
        | none => simp [hst, CircuitState.isExpired, Option.filter_some]
        | some u =>
          by_cases hlt : now < u
          · simp [hst, CircuitState.isExpired, hlt, Option.filter_some]
          · simp [CircuitState.isExpired, hlt, Dict.get?_erase, Option.filter_some]
    · simp only [hk, and_false, if_false, Bool.not_true]
      cases (c.states.get? (circuitKey item)).bind (·.openUntil) with
      | none => rfl
      | some u =>
        by_cases hlt : now < u
        · simp [hlt]
        · simp [hlt, Dict.get?_erase, hk]

theorem get?_getOpenCircuitCount (c : PoisonMessageCircuitBreaker κ) (now : Time) (k : TopicPartition × κ) :
    (c.getOpenCircuitCount now).2.states.get? k =
      if c.enabled = true then afterAsk (c.states.get? k) now else c.states.get? k := by
  unfold getOpenCircuitCount
  cases c.enabled with
  | false => rfl
  | true => exact Dict.get?_filter _ _ _

theorem get?_clearPartition (c : PoisonMessageCircuitBreaker κ) (tp : TopicPartition) (k : TopicPartition × κ) :
    (c.clearPartition tp).states.get? k = if k.1 = tp then none else c.states.get? k := by
  unfold clearPartition
  rw [Dict.get?_filter]
  by_cases hk : k.1 = tp
  · cases c.states.get? k <;> simp [hk]
  · cases c.states.get? k <;> simp [hk]

/-- The configuration of a circuit. -/
def config (c : PoisonMessageCircuitBreaker κ) : Bool × Int × Time × Int :=
  (c.enabled, c.failureThreshold, c.cooldown, c.forcedFailureAttempt)

theorem config_recordCompletion (c : PoisonMessageCircuitBreaker κ) (now : Time) (event : CompletionEvent)
    (item : WorkItem κ π) : (c.recordCompletion now event item).config = c.config := by
  unfold recordCompletion
  split
  · rfl
  · split
    · rfl
    · split <;> rfl

theorem config_shouldForceFail (c : PoisonMessageCircuitBreaker κ) (now : Time) (item : WorkItem κ π) :
    (c.shouldForceFail now item).2.config = c.config := by
  unfold shouldForceFail
  split
  · rfl
  · split
    · rfl
    · split <;> rfl

omit [DecidableEq κ] in
theorem config_getOpenCircuitCount (c : PoisonMessageCircuitBreaker κ) (now : Time) :
    (c.getOpenCircuitCount now).2.config = c.config := by
  unfold getOpenCircuitCount
  split <;> rfl

end PoisonMessageCircuitBreaker

/-! ## Two circuits -/

inductive CircuitCall (κ π : Type) where
  | recordCompletion (event : CompletionEvent) (item : WorkItem κ π)
  | shouldForceFail (item : WorkItem κ π)
  | clearPartition (tp : TopicPartition)
  | getOpenCircuitCount
  | wouldForceFail (item : WorkItem κ π)

/-- Two circuits under the same calls; `read` alone gets the readings. `answers` are those of the
`should_force_fail` calls, the newest first, and `now` is the last reading of the clock. -/
structure CircuitPair (κ : Type) where
  plain : PoisonMessageCircuitBreaker κ
  read : PoisonMessageCircuitBreaker κ
  now : Time
  answers : List (Bool × Bool)

namespace CircuitPair

open PoisonMessageCircuitBreaker

variable {κ π : Type} [DecidableEq κ]

def step (s : CircuitPair κ) (now : Time) : CircuitCall κ π → CircuitPair κ
  | .recordCompletion event item =>
    { s with
      plain := s.plain.recordCompletion now event item
      read := s.read.recordCompletion now event item
      now := now }
  | .shouldForceFail item =>
    { plain := (s.plain.shouldForceFail now item).2
      read := (s.read.shouldForceFail now item).2
      now := now
      answers := ((s.plain.shouldForceFail now item).1, (s.read.shouldForceFail now item).1) :: s.answers }
  | .clearPartition tp => { s with plain := s.plain.clearPartition tp, read := s.read.clearPartition tp, now := now }
  | .getOpenCircuitCount => { s with read := (s.read.getOpenCircuitCount now).2, now := now }
  | .wouldForceFail _ => { s with now := now }

/-- The circuits have answered alike, and they would from now on whatever item is asked for. -/
structure Same (π : Type) (s : CircuitPair κ) : Prop where
  answered : ∀ e ∈ s.answers, e.1 = e.2
  would : ∀ (item : WorkItem κ π) (now : Time), s.now ≤ now →
    (s.plain.shouldForceFail now item).1 = (s.read.shouldForceFail now item).1

/-- The call is no terminal failure of a key whose expired circuit a reading has dropped, unless every
failure opens the circuit or no circuit stays open. -/
def Harmless (s : CircuitPair κ) (a : Time × CircuitCall κ π) : Prop :=
  match a.2 with
  | .recordCompletion event item =>
    s.plain.enabled = true → event.status = .failure → s.plain.forcedFailureAttempt ≤ event.attempt →
      s.plain.states.get? (circuitKey item) ≠ none → s.read.states.get? (circuitKey item) = none →
      s.plain.failureThreshold = 1 ∨ s.plain.cooldown = 0
  | _ => True

instance (s : CircuitPair κ) (a : Time × CircuitCall κ π) : Decidable (s.Harmless a) :=
  match a with
  | (_, .recordCompletion event item) =>
    inferInstanceAs (Decidable (s.plain.enabled = true → event.status = .failure →
      s.plain.forcedFailureAttempt ≤ event.attempt → s.plain.states.get? (circuitKey item) ≠ none →
        s.read.states.get? (circuitKey item) = none → s.plain.failureThreshold = 1 ∨ s.plain.cooldown = 0))
  | (_, .shouldForceFail _) | (_, .clearPartition _) | (_, .getOpenCircuitCount) | (_, .wouldForceFail _) =>
    inferInstanceAs (Decidable True)

/-! ## What the readings leave of a key -/

/-- The states of a key in the two circuits: both have it, or the readings have dropped it once expired. -/
inductive Agree (threshold : Int) (now : Time) : Option CircuitState → Option CircuitState → Prop where
  | absent : Agree threshold now none none
  | both {n m : Nat} {u : Option Time} : (n = m ∨ threshold ≤ n ∧ threshold ≤ m) →
      (u ≠ none → threshold ≤ n) → Agree threshold now (some ⟨n, u⟩) (some ⟨m, u⟩)
  | dropped {n : Nat} {u : Time} : threshold ≤ n → u ≤ now → Agree threshold now (some ⟨n, some u⟩) none

variable {threshold : Int} {now now' : Time} {p r : Option CircuitState}

theorem Agree.mono (h : Agree threshold now p r) (hle : now ≤ now') : Agree threshold now' p r := by
  cases h with
  | absent => exact .absent
  | both hcount hopen => exact .both hcount hopen
  | dropped hcount hexpired => exact .dropped hcount (le_trans hexpired hle)

theorem Agree.answer_eq (h : Agree threshold now p r) (hle : now ≤ now') : answer p now' = answer r now' := by
  cases h with
  | absent => rfl
  | both _ _ => rfl
  | dropped _ hexpired =>
    have hnot : ¬now' < _ := not_lt.mpr (le_trans hexpired hle)
    simp [answer, CircuitState.isOpen, hnot]

theorem Agree.afterAsk (h : Agree threshold now p r) (hle : now ≤ now') :
    Agree threshold now' (afterAsk p now') (afterAsk r now') := by
  cases h with
  | absent => exact .absent
  | @both n m u hcount hopen =>
    cases u with
    | none => exact .both hcount hopen
    | some u =>
      by_cases hlt : now' < u
      · simp only [PoisonMessageCircuitBreaker.afterAsk, Option.filter_some, CircuitState.isExpired, hlt,
          decide_true, Bool.not_true, Bool.not_false, if_true]
        exact .both hcount hopen
      · simp only [PoisonMessageCircuitBreaker.afterAsk, Option.filter_some, CircuitState.isExpired, hlt,
          decide_false, Bool.not_false, Bool.not_true, Bool.false_eq_true, if_false]
        exact .absent
  | dropped _ hexpired =>
    have hnot : ¬now' < _ := not_lt.mpr (le_trans hexpired hle)
    simp only [PoisonMessageCircuitBreaker.afterAsk, Option.filter_some, CircuitState.isExpired, hnot, decide_false,
      Bool.not_false, Bool.not_true, Bool.false_eq_true, if_false]
    exact .absent

/-- A count of the open circuits drops the key if it has expired. -/
theorem Agree.afterCount (h : Agree threshold now p r) (hle : now ≤ now') :
    Agree threshold now' p (PoisonMessageCircuitBreaker.afterAsk r now') := by
  cases h with
  | absent => exact .absent
  | @both n m u hcount hopen =>
    cases u with
    | none => exact .both hcount hopen
    | some u =>
      by_cases hlt : now' < u
      · simp only [PoisonMessageCircuitBreaker.afterAsk, Option.filter_some, CircuitState.isExpired, hlt,
          decide_true, Bool.not_true, Bool.not_false, if_true]
        exact .both hcount hopen
      · simp only [PoisonMessageCircuitBreaker.afterAsk, Option.filter_some, CircuitState.isExpired, hlt,
          decide_false, Bool.not_false, Bool.not_true, Bool.false_eq_true, if_false]
        exact .dropped (hopen (by simp)) (not_lt.mp hlt)
  | dropped hcount hexpired => exact .dropped hcount (le_trans hexpired hle)

/-- A terminal failure of a key that both circuits have, or neither. -/
theorem Agree.failure (h : Agree threshold now p r) (hboth : r = none → p = none) (cooldown : Time) :
    Agree threshold now'
      (some ⟨(p.getD {}).failureCount + 1,
        if (((p.getD {}).failureCount + 1 : Nat) : Int) ≥ threshold then some (now' + cooldown)
        else (p.getD {}).openUntil⟩)
      (some ⟨(r.getD {}).failureCount + 1,
        if (((r.getD {}).failureCount + 1 : Nat) : Int) ≥ threshold then some (now' + cooldown)
        else (r.getD {}).openUntil⟩) := by
  cases h with
  | absent =>
    refine .both (.inl rfl) fun hopen => ?_
    by_contra hlt
    exact hopen (by rw [if_neg hlt]; rfl)
  | @both n m u hcount hopen =>
    simp only [Option.getD_some]
    have hsame : (if ((m + 1 : Nat) : Int) ≥ threshold then some (now' + cooldown) else u) =
        if ((n + 1 : Nat) : Int) ≥ threshold then some (now' + cooldown) else u := by
      rcases hcount with rfl | ⟨hn, hm⟩
      · rfl
      · rw [if_pos (by omega), if_pos (by omega)]
    rw [hsame]
    refine .both (by omega) fun hsome => ?_
    by_contra hlt
    have hu : u ≠ none := by
      intro hnone
      exact hsome (by rw [if_neg hlt, hnone])
    have := hopen hu
    omega
  | dropped _ _ => cases hboth rfl

/-! ## Runs -/

/-- What the readings leave behind after harmless calls. Without a cooldown nothing stays open. -/
structure ReadInv (c : PoisonMessageCircuitBreaker κ) (s : CircuitPair κ) : Prop where
  plainConfig : s.plain.config = c.config
  readConfig : s.read.config = c.config
  answered : ∀ e ∈ s.answers, e.1 = e.2
  agree : 0 < c.cooldown → ∀ k, Agree c.failureThreshold s.now (s.plain.states.get? k) (s.read.states.get? k)
  closed : c.cooldown = 0 → ∀ k now, s.now ≤ now →
    answer (s.plain.states.get? k) now = false ∧ answer (s.read.states.get? k) now = false

theorem ReadInv.same {c : PoisonMessageCircuitBreaker κ} (hcooldown : 0 ≤ c.cooldown) {s : CircuitPair κ}
    (h : ReadInv c s) : s.Same π := by
  refine ⟨h.answered, fun item now hnow => ?_⟩
  have henabled : s.plain.enabled = s.read.enabled :=
    congrArg Prod.fst (h.plainConfig.trans h.readConfig.symm)
  rw [shouldForceFail_fst, shouldForceFail_fst, henabled]
  congr 1
  by_cases hpos : 0 < c.cooldown
  · exact (h.agree hpos _).answer_eq hnow
  · obtain ⟨hp, hr⟩ := h.closed (le_antisymm (not_lt.mp hpos) hcooldown) (circuitKey item) now hnow
    rw [hp, hr]

theorem answer_afterAsk_of_closed {st : Option CircuitState} {now t : Time} (h : answer st now = false) :
    answer (afterAsk st t) now = false := by
  cases st with
  | none => rfl
  | some st =>
    unfold afterAsk
    rw [Option.filter_some]
    split
    · exact h
    · rfl

omit [DecidableEq κ] in
/-- Without a cooldown a failure opens no circuit. -/
theorem answer_afterCompletion_of_closed {c : PoisonMessageCircuitBreaker κ} (hcooldown : c.cooldown = 0)
    {st : Option CircuitState} {t now : Time} (hnow : t ≤ now) (event : CompletionEvent)
    (h : answer st now = false) : answer (c.afterCompletion t event st) now = false := by
  unfold afterCompletion
  split
  · exact h
  · split
    · rfl
    · split
      · exact h
      · have hnot : ¬now < t + c.cooldown := by
          rw [hcooldown, add_zero]
          exact not_lt.mpr hnow
        have hold : CircuitState.isOpen ⟨0, (st.getD {}).openUntil⟩ now = false := by
          cases st with
          | none => rfl
          | some st => exact h
        simp only [answer, Option.any_some, CircuitState.isOpen] at hold ⊢
        split
        · rename_i u hu
          split at hu
          · cases hu
            simpa using hnot
          · rw [hu] at hold
            exact hold
        · rfl

variable {c : PoisonMessageCircuitBreaker κ} {s : CircuitPair κ}

omit [DecidableEq κ] in
theorem afterCompletion_congr {c c' : PoisonMessageCircuitBreaker κ} (h : c.config = c'.config) (t : Time)
    (event : CompletionEvent) (st : Option CircuitState) : c.afterCompletion t event st = c'.afterCompletion t event st := by
  simp only [config, Prod.mk.injEq] at h
  obtain ⟨henabled, hthreshold, hcooldown, hattempt⟩ := h
  unfold afterCompletion
  rw [henabled, hthreshold, hcooldown, hattempt]

omit [DecidableEq κ] in
/-- A completion keeps what the readings leave, unless it is a failure of a dropped key. -/
theorem agree_afterCompletion {now now' : Time} (hle : now ≤ now') {p r : Option CircuitState}
    (h : Agree c.failureThreshold now p r) (event : CompletionEvent)
    (hsafe : c.enabled = true → event.status = .failure → c.forcedFailureAttempt ≤ event.attempt →
      r = none → p = none ∨ c.failureThreshold = 1) :
    Agree c.failureThreshold now' (c.afterCompletion now' event p) (c.afterCompletion now' event r) := by
  unfold afterCompletion
  cases henabled : c.enabled with
  | false => simpa using h.mono hle
  | true =>
    cases hstatus : event.status with
    | success => simpa using Agree.absent
    | failure =>
      by_cases hattempt : event.attempt < c.forcedFailureAttempt
      · simpa [hattempt] using h.mono hle
      · simp only [Bool.not_true, Bool.false_eq_true, if_false, if_neg hattempt]
        have hsafe := hsafe henabled hstatus (not_lt.mp hattempt)
        by_cases hdropped : r = none ∧ p ≠ none
        · obtain ⟨hr, hp⟩ := hdropped
          have hone := (hsafe hr).resolve_left hp
          subst hr
          cases h with
          | absent => exact absurd rfl hp
          | @dropped n u hcount hexpired =>
            -- every failure opens the circuit, whatever was counted before
            simp only [Option.getD_some, Option.getD_none, hone]
            rw [if_pos (by omega), if_pos (by omega)]
            exact .both (.inr ⟨by omega, by omega⟩) fun _ => by omega
        · refine h.failure (fun hr => ?_) c.cooldown
          by_contra hp
          exact hdropped ⟨hr, hp⟩

omit [DecidableEq κ] in
theorem config_eq_iff {c c' : PoisonMessageCircuitBreaker κ} :
    c.config = c'.config ↔ c.enabled = c'.enabled ∧ c.failureThreshold = c'.failureThreshold ∧
      c.cooldown = c'.cooldown ∧ c.forcedFailureAttempt = c'.forcedFailureAttempt := by
  simp only [config, Prod.mk.injEq]

theorem ReadInv.recordCompletion (h : ReadInv c s) {now : Time} (hle : s.now ≤ now) {event : CompletionEvent}
    {item : WorkItem κ π} (hsafe : s.Harmless (now, .recordCompletion event item)) :
    ReadInv c (s.step now (.recordCompletion event item)) := by
  obtain ⟨henabled, hthreshold, hcool, hattempt⟩ := config_eq_iff.mp h.plainConfig
  refine ⟨(config_recordCompletion _ _ _ _).trans h.plainConfig, (config_recordCompletion _ _ _ _).trans h.readConfig,
    h.answered, fun hpos k => ?_, fun hzero k t ht => ?_⟩
  · show Agree _ now ((s.plain.recordCompletion now event item).states.get? k)
      ((s.read.recordCompletion now event item).states.get? k)
    rw [get?_recordCompletion, get?_recordCompletion]
    split
    · rename_i hk
      subst hk
      rw [afterCompletion_congr h.plainConfig, afterCompletion_congr h.readConfig]
      refine agree_afterCompletion hle (h.agree hpos _) event fun hen hstatus hatt hdropped => ?_
      by_cases hplain : s.plain.states.get? (circuitKey item) = none
      · exact .inl hplain
      · right
        have hor := hsafe (henabled.trans hen) hstatus (hattempt ▸ hatt) hplain hdropped
        rcases hor with hone | hzero
        · exact hthreshold ▸ hone
        · rw [hcool] at hzero
          exact absurd hzero (ne_of_gt hpos)
    · exact (h.agree hpos k).mono hle
  · show answer ((s.plain.recordCompletion now event item).states.get? k) t = false ∧
      answer ((s.read.recordCompletion now event item).states.get? k) t = false
    obtain ⟨hp, hr⟩ := h.closed hzero k t (le_trans hle ht)
    rw [get?_recordCompletion, get?_recordCompletion]
    split
    · rw [afterCompletion_congr h.plainConfig, afterCompletion_congr h.readConfig]
      exact ⟨answer_afterCompletion_of_closed hzero ht event hp, answer_afterCompletion_of_closed hzero ht event hr⟩
    · exact ⟨hp, hr⟩

theorem ReadInv.shouldForceFail (hcooldown : 0 ≤ c.cooldown) (h : ReadInv c s) {now : Time} (hle : s.now ≤ now)
    (item : WorkItem κ π) : ReadInv c (s.step now (.shouldForceFail item)) := by
  have hsame := (h.same (π := π) hcooldown).would item now hle
  have henabled : s.plain.enabled = s.read.enabled :=
    congrArg Prod.fst (h.plainConfig.trans h.readConfig.symm)
  refine ⟨(config_shouldForceFail _ _ _).trans h.plainConfig, (config_shouldForceFail _ _ _).trans h.readConfig,
    List.forall_mem_cons.mpr ⟨hsame, h.answered⟩, fun hpos k => ?_, fun hzero k t ht => ?_⟩
  · show Agree _ now ((s.plain.shouldForceFail now item).2.states.get? k)
      ((s.read.shouldForceFail now item).2.states.get? k)
    rw [get?_shouldForceFail, get?_shouldForceFail, henabled]
    split
    · exact (h.agree hpos k).afterAsk hle
    · exact (h.agree hpos k).mono hle
  · show answer ((s.plain.shouldForceFail now item).2.states.get? k) t = false ∧
      answer ((s.read.shouldForceFail now item).2.states.get? k) t = false
    obtain ⟨hp, hr⟩ := h.closed hzero k t (le_trans hle ht)
    rw [get?_shouldForceFail, get?_shouldForceFail, henabled]
    split
    · exact ⟨answer_afterAsk_of_closed hp, answer_afterAsk_of_closed hr⟩
    · exact ⟨hp, hr⟩

theorem ReadInv.clearPartition (h : ReadInv c s) {now : Time} (hle : s.now ≤ now) (tp : TopicPartition) :
    ReadInv c (s.step now (.clearPartition tp : CircuitCall κ π)) := by
  refine ⟨h.plainConfig, h.readConfig, h.answered, fun hpos k => ?_, fun hzero k t ht => ?_⟩
  · show Agree _ now ((s.plain.clearPartition tp).states.get? k) ((s.read.clearPartition tp).states.get? k)
    rw [get?_clearPartition, get?_clearPartition]
    split
    · exact .absent
    · exact (h.agree hpos k).mono hle
  · show answer ((s.plain.clearPartition tp).states.get? k) t = false ∧
      answer ((s.read.clearPartition tp).states.get? k) t = false
    rw [get?_clearPartition, get?_clearPartition]
    split
    · exact ⟨rfl, rfl⟩
    · exact h.closed hzero k t (le_trans hle ht)

theorem ReadInv.getOpenCircuitCount (h : ReadInv c s) {now : Time} (hle : s.now ≤ now) :
    ReadInv c (s.step now (.getOpenCircuitCount : CircuitCall κ π)) := by
  refine ⟨h.plainConfig, (config_getOpenCircuitCount _ _).trans h.readConfig, h.answered, fun hpos k => ?_,
    fun hzero k t ht => ?_⟩
  · show Agree _ now (s.plain.states.get? k) ((s.read.getOpenCircuitCount now).2.states.get? k)
    rw [get?_getOpenCircuitCount]
    split
    · exact (h.agree hpos k).afterCount hle
    · exact (h.agree hpos k).mono hle
  · show answer (s.plain.states.get? k) t = false ∧
      answer ((s.read.getOpenCircuitCount now).2.states.get? k) t = false
    obtain ⟨hp, hr⟩ := h.closed hzero k t (le_trans hle ht)
    rw [get?_getOpenCircuitCount]
    split
    · exact ⟨hp, answer_afterAsk_of_closed hr⟩
    · exact ⟨hp, hr⟩

theorem inv_step (hcooldown : 0 ≤ c.cooldown) (h : ReadInv c s) {a : Time × CircuitCall κ π} (hle : s.now ≤ a.1)
    (hsafe : s.Harmless a) : ReadInv c (s.step a.1 a.2) := by
  obtain ⟨now, call⟩ := a
  cases call with
  | recordCompletion event item => exact h.recordCompletion hle hsafe
  | shouldForceFail item => exact h.shouldForceFail hcooldown hle item
  | clearPartition tp => exact h.clearPartition hle tp
  | getOpenCircuitCount => exact h.getOpenCircuitCount hle
  | wouldForceFail item =>
    exact ⟨h.plainConfig, h.readConfig, h.answered, fun hpos k => (h.agree hpos k).mono hle,
      fun hzero k t ht => h.closed hzero k t (le_trans hle ht)⟩

/-- A failure of a dropped key opens the circuit that was not read alone. -/
theorem not_same_of_not_harmless (hthreshold : 1 ≤ c.failureThreshold) (hcooldown : 0 ≤ c.cooldown)
    (h : ReadInv c s) {a : Time × CircuitCall κ π} (hsafe : ¬s.Harmless a) : ¬(s.step a.1 a.2).Same π := by
  obtain ⟨now, call⟩ := a
  cases call with
  | recordCompletion event item =>
    simp only [Harmless, Classical.not_imp, not_or] at hsafe
    obtain ⟨henabled, hstatus, hattempt, hplain, hread, hone, hzero⟩ := hsafe
    obtain ⟨henabled', hthreshold', hcool', hattempt'⟩ := config_eq_iff.mp h.plainConfig
    rw [hthreshold'] at hone
    rw [hcool'] at hzero
    have hpos : 0 < c.cooldown := lt_of_le_of_ne hcooldown (Ne.symm hzero)
    have hagree := h.agree hpos (circuitKey item)
    rw [hread] at hagree
    have hqualifies : ¬event.attempt < c.forcedFailureAttempt := not_lt.mpr (hattempt' ▸ hattempt)
    intro hsame
    have hwould := hsame.would item now (le_refl now)
    have hen : c.enabled = true := henabled'.symm.trans henabled
    have hread' : s.read.enabled = true :=
      (congrArg Prod.fst h.readConfig : s.read.enabled = c.enabled).trans hen
    have hopens : (s.plain.recordCompletion now event item).enabled = true :=
      (congrArg Prod.fst (config_recordCompletion s.plain now event item)).trans henabled
    have hopens' : (s.read.recordCompletion now event item).enabled = true :=
      (congrArg Prod.fst (config_recordCompletion s.read now event item)).trans hread'
    have hwould : answer ((s.plain.recordCompletion now event item).states.get? (circuitKey item)) now =
        answer ((s.read.recordCompletion now event item).states.get? (circuitKey item)) now := by
      have hfst := hwould
      simp only [step, shouldForceFail_fst, hopens, hopens', Bool.true_and] at hfst
      exact hfst
    rw [get?_recordCompletion, get?_recordCompletion, if_pos rfl, if_pos rfl,
      afterCompletion_congr h.plainConfig, afterCompletion_congr h.readConfig, hread] at hwould
    generalize s.plain.states.get? (circuitKey item) = p at hagree hplain hwould
    cases hagree with
    | absent => exact hplain rfl
    | @dropped n u hcount hexpired =>
      have hopen : c.failureThreshold ≤ (n : Int) + 1 := by omega
      have hshut : ¬c.failureThreshold ≤ 1 := by omega
      simp [afterCompletion, hen, hstatus, hqualifies, answer, CircuitState.isOpen, hopen, hshut] at hwould
      exact absurd hwould (not_le.mpr hpos)
  | shouldForceFail item => exact absurd trivial hsafe
  | clearPartition tp => exact absurd trivial hsafe
  | getOpenCircuitCount => exact absurd trivial hsafe
  | wouldForceFail item => exact absurd trivial hsafe

end CircuitPair

open CircuitPair PoisonMessageCircuitBreaker

/-- Two circuits alike, under calls with a clock that never goes back. -/
def circuitMachine {κ : Type} [DecidableEq κ] (π : Type) (c : PoisonMessageCircuitBreaker κ) :
    Machine (CircuitPair κ) (Time × CircuitCall κ π) where
  init s := ∃ now, s = { plain := c, read := c, now := now, answers := [] }
  enabled s a := s.now ≤ a.1
  next s a := s.step a.1 a.2

instance {κ π : Type} [DecidableEq κ] (c : PoisonMessageCircuitBreaker κ) (s : CircuitPair κ)
    (a : Time × CircuitCall κ π) : Decidable ((circuitMachine π c).enabled s a) :=
  inferInstanceAs (Decidable (s.now ≤ a.1))

theorem readInv_reachable {κ π : Type} [DecidableEq κ] {enabled : Bool} {threshold cooldown attempt : Int}
    {c : PoisonMessageCircuitBreaker κ} (hnew : new enabled threshold cooldown attempt = .ok c) {s : CircuitPair κ}
    (h : (circuitMachine π c).ReachableBy Harmless s) :
    1 ≤ c.failureThreshold ∧ 0 ≤ c.cooldown ∧ ReadInv c s := by
  obtain ⟨hthreshold, hcooldown, hstates⟩ :
      1 ≤ c.failureThreshold ∧ 0 ≤ c.cooldown ∧ ∀ k, c.states.get? k = none := by
    unfold new at hnew
    split at hnew
    · cases hnew
    · split at hnew
      · cases hnew
      · cases hnew
        exact ⟨not_lt.mp ‹_›, not_lt.mp ‹_›, fun k => rfl⟩
  refine ⟨hthreshold, hcooldown, (circuitMachine π c).invariant (I := ReadInv c) ?_ ?_ h⟩
  · rintro s ⟨now, rfl⟩
    refine ⟨rfl, rfl, fun e he => (by cases he), fun _ k => ?_, fun _ k t _ => ?_⟩
    · show Agree _ _ (c.states.get? k) (c.states.get? k)
      rw [hstates k]
      exact .absent
    · show answer (c.states.get? k) t = false ∧ answer (c.states.get? k) t = false
      rw [hstates k]
      exact ⟨rfl, rfl⟩
  · exact fun s a hs hle hsafe => inv_step hcooldown hs hle hsafe

/-- After harmless calls the circuit that is read answers like the other one, and a further call keeps it so
exactly when it is harmless. -/
theorem circuit_reads_same_iff {κ π : Type} [DecidableEq κ] {enabled : Bool} {threshold cooldown attempt : Int}
    {c : PoisonMessageCircuitBreaker κ} (hnew : new enabled threshold cooldown attempt = .ok c) {s : CircuitPair κ}
    (h : (circuitMachine π c).ReachableBy Harmless s) :
    s.Same π ∧ ∀ a, (circuitMachine π c).enabled s a →
      (((circuitMachine π c).next s a).Same π ↔ s.Harmless a) := by
  obtain ⟨hthreshold, hcooldown, hinv⟩ := readInv_reachable hnew h
  refine ⟨hinv.same hcooldown, fun a hle => ⟨fun hsame => ?_, fun hsafe => ?_⟩⟩
  · by_contra hsafe
    exact not_same_of_not_harmless hthreshold hcooldown hinv hsafe hsame
  · exact (inv_step hcooldown hinv hle hsafe).same hcooldown

section Examples

/-- Opens for ten at the second failure. -/
def twoFailures : PoisonMessageCircuitBreaker Nat :=
  { enabled := true, failureThreshold := 2, cooldown := 10, forcedFailureAttempt := 1, states := .empty }

def poisonItem : WorkItem Nat Unit :=
  { id := .uuid 0, tp := ⟨"orders", 0⟩, offset := 0, epoch := 0, key := 7, payload := (), poisonKey := some 7 }

def poisonFailure : CompletionEvent :=
  { id := .uuid 0, tp := ⟨"orders", 0⟩, offset := 0, epoch := 0, status := .failure, error := none, attempt := 1 }

/-- The circuit expires at 11 and is counted at 12. -/
def countedOnceExpired : List (Time × CircuitCall Nat Unit) :=
  [(0, .recordCompletion poisonFailure poisonItem), (1, .recordCompletion poisonFailure poisonItem),
    (12, .getOpenCircuitCount)]

def countedPair : CircuitPair Nat :=
  (circuitMachine Unit twoFailures).run { plain := twoFailures, read := twoFailures, now := 0, answers := [] }
    countedOnceExpired

/-- The next failure opens the other circuit, and not the one that was counted. -/
theorem counted_circuit_answers_otherwise :
    ((circuitMachine Unit twoFailures).run countedPair
      [(13, .recordCompletion poisonFailure poisonItem), (14, .shouldForceFail poisonItem)]).answers =
        [(true, false)] := by decide

/-- Asked first, the circuits answer alike, and the failure is harmless. -/
theorem counted_circuit_harmless_once_asked :
    ((circuitMachine Unit twoFailures).next
      ((circuitMachine Unit twoFailures).run countedPair [(12, .shouldForceFail poisonItem)])
      (13, .recordCompletion poisonFailure poisonItem)).Same Unit := by
  refine ((@circuit_reads_same_iff Nat Unit _ true 2 10 1 twoFailures rfl _ ?_).2 _ (by decide)).mpr ?_
  · refine (circuitMachine Unit twoFailures).reachableBy_run _ ?_ ⟨by decide, by decide, trivial⟩
    exact (circuitMachine Unit twoFailures).reachableBy_run _ (.start ⟨0, rfl⟩)
      ⟨by decide, by decide, by decide, by decide, by decide, by decide, trivial⟩
  · intro _ _ _ hplain
    exact absurd (by decide) hplain

end Examples

end PyrallelConsumer
