import Mathlib.Data.List.Basic
import PyrallelConsumer.Lib.PyStr

/-!
# PyrallelConsumer.Dto

The records that pass between the control plane and the execution plane. A message key or
payload can be any Python value: `κ` is the type of keys (virtual-queue keys and poison keys) and
`π` the type of payloads. Instants are integers of some fixed unit; nothing here depends on it.
-/

namespace PyrallelConsumer

abbrev Time := Int

structure TopicPartition where
  topic : String
  partition : Int
deriving DecidableEq, Repr

/-- The `repr` of the dataclass; the characters of a topic name need no escape. -/
def TopicPartition.text (tp : TopicPartition) : String :=
  "TopicPartition(topic='" ++ tp.topic ++ "', partition=" ++ toString tp.partition ++ ")"

inductive CompletionStatus where
  | success
  | failure
deriving DecidableEq, Repr

inductive OrderingMode where
  | keyHash
  | partition
  | unordered
deriving DecidableEq, Repr

/-- A work item id: a `uuid4` string, drawn fresh for every item (the `n`-th one drawn), or the
empty string of a synthetic event. -/
inductive WorkId where
  | blank
  | uuid (n : Nat)
deriving DecidableEq, Repr

structure CompletionEvent where
  id : WorkId
  tp : TopicPartition
  offset : Int
  epoch : Int
  status : CompletionStatus
  error : Option PyStr
  attempt : Int
deriving DecidableEq, Repr

/-- A work item. `poisonKey` is `none` for `WORK_ITEM_POISON_KEY_UNSET`. -/
structure WorkItem (κ π : Type) where
  id : WorkId
  tp : TopicPartition
  offset : Int
  epoch : Int
  key : κ
  payload : π
  requeueAttempts : Int := 0
  poisonKey : Option κ := none
deriving DecidableEq, Repr

structure OffsetRange where
  start : Int
  stop : Int
deriving DecidableEq, Repr

/-- A `str` value, as its sequence of code points. -/
abbrev Str := List Char

/-- `confluent_kafka.TopicPartition`; `metadata` is `none` where the attribute is not a `str`. -/
structure KafkaTopicPartition where
  topic : String
  partition : Int
  offset : Int
  metadata : Option Str := none
deriving DecidableEq, Repr

def KafkaTopicPartition.toDto (p : KafkaTopicPartition) : TopicPartition := ⟨p.topic, p.partition⟩

end PyrallelConsumer
