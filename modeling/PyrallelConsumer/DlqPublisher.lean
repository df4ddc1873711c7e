import PyrallelConsumer.Completion

/-!
# PyrallelConsumer.DlqPublisher

`publish_to_dlq` of `control_plane/broker_dlq_publisher.py`. The topic names are checked and the headers
are encoded before the retry loop, outside of its `try`. A round of the loop hands the record to
`producer.produce` and waits in `producer.flush`, which returns how many messages are still undelivered.

* `publishLoop_spec` — where the loop stops.
* `publishToDlq_honest_iff` — when the answer of `publish_to_dlq` is the truth about the delivery.
-/

namespace PyrallelConsumer

/-- The characters that a topic name may have. -/
def topicChar (c : Char) : Bool :=
  ('A' ≤ c && c ≤ 'Z') || ('a' ≤ c && c ≤ 'z') || ('0' ≤ c && c ≤ '9') || c = '.' || c = '_' || c = '-'

/-- `validate_topic_name` does not raise. The `$` of its pattern also matches before a final newline. -/
def validateTopicName (name : String) : Bool :=
  let body := if name.toList.getLast? = some '\n' then name.toList.dropLast else name.toList
  !body.isEmpty && body.all topicChar

namespace PyStr

/-- `str.encode("utf-8")`, as the text that the bytes stand for. -/
def encodeUtf8 : PyStr → Option String
  | text s => some s
  | broken _ _ _ => none

theorem isSome_encodeUtf8 (s : PyStr) : s.encodeUtf8.isSome = s.encodable := by
  cases s <;> rfl

end PyStr

inductive DlqPayloadMode where
  | full
  | metadataOnly
deriving DecidableEq, Repr

/-- What `publish_to_dlq` reads of the configuration. The backoff only delays the next round. -/
structure DlqPublisherConfig where
  consumeTopic : String
  dlqTopicSuffix : String
  payloadMode : DlqPayloadMode
  maxRetries : Int
deriving DecidableEq, Repr

/-- The arguments of `publish_to_dlq`; `β` is the type of raw keys and values. -/
structure DlqRequest (β : Type) where
  tp : TopicPartition
  offset : Int
  epoch : Int
  key : Option β
  value : Option β
  error : PyStr
  attempt : Int
deriving DecidableEq, Repr

/-- What is handed to `producer.produce`. -/
structure DlqRecord (β : Type) where
  topic : String
  key : Option β
  value : Option β
  headers : List (String × String)
deriving DecidableEq, Repr

/-- How `produce` and `flush` end in one round. -/
inductive ProducerRound where
  | produceRaised
  | flushRaised
  | flushed (undelivered : Nat)
deriving DecidableEq, Repr

def ProducerRound.raises : ProducerRound → Bool
  | flushed _ => false
  | _ => true

variable {β : Type}

def DlqRequest.headers (q : DlqRequest β) : Option (List (String × String)) :=
  q.error.encodeUtf8.map fun reason =>
    [("x-error-reason", reason), ("x-retry-attempt", toString q.attempt), ("source-topic", q.tp.topic),
      ("partition", toString q.tp.partition), ("offset", toString q.offset), ("epoch", toString q.epoch)]

namespace DlqPublisherConfig

variable (c : DlqPublisherConfig)

/-- The record of a request; there is none when building it raises. -/
def record (q : DlqRequest β) : Option (DlqRecord β) :=
  if validateTopicName c.consumeTopic && validateTopicName c.dlqTopicSuffix then
    q.headers.map fun headers =>
      { topic := c.consumeTopic ++ c.dlqTopicSuffix
        key := if c.payloadMode = .full then q.key else none
        value := if c.payloadMode = .full then q.value else none
        headers := headers }
  else none

/-- The topic names are valid and the error text can be encoded. -/
def accepts (q : DlqRequest β) : Bool :=
  validateTopicName c.consumeTopic && validateTopicName c.dlqTopicSuffix && q.error.encodable

theorem isSome_record (q : DlqRequest β) : (c.record q).isSome = c.accepts q := by
  unfold record accepts DlqRequest.headers
  rw [← PyStr.isSome_encodeUtf8]
  split
  · rename_i h
    simp only [Option.isSome_map, h, Bool.true_and]
  · rename_i h
    rw [Bool.eq_false_of_not_eq_true h]
    rfl

end DlqPublisherConfig

/-- `for retry_attempt in range(max_retries)`, with the number of rounds left; the second component counts
the rounds that were made. -/
def publishLoop (round : Nat → ProducerRound) : Nat → Nat → Bool × Nat
  | 0, made => (false, made)
  | n + 1, made =>
    match round made with
    | .flushed _ => (true, made + 1)
    | _ => publishLoop round n (made + 1)

/-- `publish_to_dlq`, with the records that it handed to `producer.produce`. -/
def publishToDlq (c : DlqPublisherConfig) (q : DlqRequest β) (round : Nat → ProducerRound) :
    PublishOutcome × List (DlqRecord β) :=
  match c.record q with
  | none => (.raised, [])
  | some record =>
    match publishLoop round c.maxRetries.toNat 0 with
    | (true, made) => (.delivered, List.replicate made record)
    | (false, made) => (.failed, List.replicate made record)

/-- How the loop stops after `k` rounds that raised. -/
inductive PublishStops (round : Nat → ProducerRound) (n made k : Nat) (r : Bool × Nat) : Prop where
  | exhausted (hk : k = n) (hr : r = (false, made + n))
  | returned (hk : k < n) (undelivered : Nat) (hround : round (made + k) = .flushed undelivered)
      (hr : r = (true, made + k + 1))

/-- **The retry loop.** It ends with the first round that does not raise. -/
theorem publishLoop_spec (round : Nat → ProducerRound) (n : Nat) :
    ∀ made, ∃ k, (∀ i < k, (round (made + i)).raises = true) ∧
      PublishStops round n made k (publishLoop round n made) := by
  induction n with
  | zero => intro made; exact ⟨0, fun i hi => by omega, .exhausted rfl rfl⟩
  | succ n ih =>
    intro made
    simp only [publishLoop]
    split
    · rename_i undelivered hround
      exact ⟨0, fun i hi => by omega, .returned (Nat.succ_pos n) undelivered hround rfl⟩
    · rename_i hraised
      obtain ⟨k, hbefore, hstop⟩ := ih (made + 1)
      refine ⟨k + 1, fun i hi => ?_, ?_⟩
      · cases i with
        | zero =>
          cases hround : round made with
          | produceRaised => rfl
          | flushRaised => rfl
          | flushed undelivered => exact absurd hround (hraised undelivered)
        | succ i =>
          rw [show made + (i + 1) = made + 1 + i by omega]
          exact hbefore i (by omega)
      · cases hstop with
        | exhausted hk hr => exact .exhausted (by omega) (by rw [hr]; congr 1; omega)
        | returned hk undelivered hround hr =>
          refine .returned (by omega) undelivered ?_ ?_
          · rw [show made + (k + 1) = made + 1 + k by omega]
            exact hround
          · rw [hr]
            congr 1
            omega

/-! ## Delivery -/

/-- Some round that was made left no message undelivered. -/
def Flushed (round : Nat → ProducerRound) (made : Nat) : Prop := ∃ t < made, round t = .flushed 0

/-- `True` is returned only for a delivered record, and `False` after `max_retries` rounds otherwise. -/
structure Honest (c : DlqPublisherConfig) (round : Nat → ProducerRound)
    (result : PublishOutcome × List (DlqRecord β)) : Prop where
  delivered : result.1 = .delivered → Flushed round result.2.length
  failed : ¬Flushed round result.2.length → result.1 = .failed ∧ result.2.length = c.maxRetries.toNat

/-- The first round that does not raise leaves no message undelivered. -/
def FlushesWhole (c : DlqPublisherConfig) (round : Nat → ProducerRound) : Prop :=
  ∀ t : Nat, (t : Int) < c.maxRetries → (∀ i < t, (round i).raises = true) →
    ∀ undelivered, round t = .flushed undelivered → undelivered = 0

/-- **The answer about the delivery.** A request whose headers cannot be built is answered with an
exception, and `flush` is taken for a delivery whatever it returns. -/
theorem publishToDlq_honest_iff (c : DlqPublisherConfig) (q : DlqRequest β) (round : Nat → ProducerRound) :
    Honest c round (publishToDlq c q round) ↔ c.accepts q = true ∧ FlushesWhole c round := by
  rw [← c.isSome_record]
  unfold publishToDlq
  cases hrecord : c.record q with
  | none =>
    constructor
    · intro h
      have := (h.failed (by rintro ⟨t, ht, -⟩; cases ht)).1
      cases this
    · rintro ⟨h, -⟩
      cases h
  | some record =>
    obtain ⟨k, hbefore, hstop⟩ := publishLoop_spec round c.maxRetries.toNat 0
    simp only [Nat.zero_add] at hbefore
    cases hstop with
    | exhausted hk hr =>
      -- every round raised, and none of them is what the condition speaks of
      rw [hr]
      refine ⟨fun _ => ⟨rfl, fun t ht _ undelivered hround => ?_⟩, fun _ => ⟨fun h => (by cases h), fun _ => ?_⟩⟩
      · have := hbefore t (by omega)
        rw [hround] at this
        cases this
      · exact ⟨rfl, by simp⟩
    | returned hk undelivered hround hr =>
      rw [hr]
      simp only [Nat.zero_add] at hround
      constructor
      · intro h
        refine ⟨rfl, fun t ht hraised u hu => ?_⟩
        have htk : t = k := by
          rcases Nat.lt_trichotomy t k with hlt | heq | hgt
          · have := hbefore t hlt
            rw [hu] at this
            cases this
          · exact heq
          · have := hraised k hgt
            rw [hround] at this
            cases this
        obtain ⟨t', ht', hround'⟩ := h.delivered rfl
        simp only [List.length_replicate] at ht'
        rcases Nat.lt_or_ge t' k with hlt | hge
        · have := hbefore t' hlt
          rw [hround'] at this
          cases this
        · have : t' = t := by omega
          rw [this, hu] at hround'
          cases hround'
          rfl
      · rintro ⟨-, hwhole⟩
        have hzero : undelivered = 0 := hwhole k (by omega) hbefore undelivered hround
        have hflushed : Flushed round (List.replicate (0 + k + 1) record).length :=
          ⟨k, by simp, by rw [hround, hzero]⟩
        exact ⟨fun _ => hflushed, fun h => absurd hflushed h⟩

section Examples

def samplePublisher : DlqPublisherConfig := ⟨"t", ".dlq", .full, 3⟩

def sampleRequest : DlqRequest Unit := ⟨⟨"t", 0⟩, 5, 1, none, none, .text "boom", 3⟩

/-- **The wrong answer**: `flush` gives up with the message undelivered, and `True` is returned. -/
theorem publishToDlq_dishonest_timeout :
    ¬Honest samplePublisher (fun _ => .flushed 1) (publishToDlq samplePublisher sampleRequest fun _ => .flushed 1) := by
  intro h
  obtain ⟨t, -, hround⟩ := h.delivered (by decide)
  cases hround

end Examples

end PyrallelConsumer
