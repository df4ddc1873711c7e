import PyrallelConsumer.CompletionBuffer
import PyrallelConsumer.Lib.MsgPack

/-!
# PyrallelConsumer.ProcessCodec

The packed sizes of what `execution_plane/process_codec.py` sends between parent and workers, and the
limit that `_validate_packed_payload` and `_decode_msgpack_payload` check. Ids are `uuid4` texts, of 36
characters for work items and of 32 hexadecimal digits for batches; an instant is a `float`.
-/

namespace PyrallelConsumer

open MsgPack

/-- The configuration of the process engine. How large keys and payloads are when packed, and the hash
that routes are spread by, depends on code outside. -/
structure ProcessConfig (κ π : Type) where
  processCount : Nat
  queueSize : Nat
  maxRetries : Int
  msgpackMaxBytes : Nat
  maxSeenIdentities : Nat := 100000
  digest : RouteIdentity κ → Nat
  keySize : κ → PackedSize
  payloadSize : π → PackedSize

def WorkId.packedSize : WorkId → PackedSize
  | .blank => strSizeOf 0
  | .uuid _ => strSizeOf 36

namespace ProcessConfig

variable {κ π : Type} (c : ProcessConfig κ π)

def workerIndex (route : RouteIdentity κ) : Nat := stableWorkerIndexForRoute c.digest route c.processCount

/-- `work_item_to_dict`. -/
def workItemSize (x : WorkItem κ π) : PackedSize :=
  mapSize ([("id", x.id.packedSize), ("topic", strSize (.text x.tp.topic)), ("partition", intSize x.tp.partition),
    ("offset", intSize x.offset), ("epoch", intSize x.epoch), ("key", c.keySize x.key),
    ("payload", c.payloadSize x.payload), ("requeue_attempts", intSize x.requeueAttempts)] ++
    match x.poisonKey with
    | none => []
    | some k => [("poison_key", c.keySize k)])

def routeSize (route : RouteIdentity κ) : PackedSize :=
  arraySize [strSize (.text route.topic), intSize route.partition, c.keySize route.key]

/-- `serialize_worker_pipe_payload`. -/
def pipeMessageSize : PipeMessage κ π → PackedSize
  | .workItems items =>
    mapSize [("kind", strSize (.text "work_items")), ("items", arraySize (items.map c.workItemSize)),
      ("timing", mapSize [("flush_enqueued_at", floatSize)])]
  | .routeBatch _ route items =>
    mapSize [("kind", strSize (.text "route_batch")),
      ("batch", mapSize [("batch_id", strSizeOf 32), ("route_identity", c.routeSize route),
        ("worker_index", intSize (c.workerIndex route)), ("items", arraySize (items.map c.workItemSize))]),
      ("timing", mapSize [("flush_enqueued_at", floatSize)])]

def withinLimit : PackedSize → Bool
  | none => false
  | some n => n ≤ c.msgpackMaxBytes

/-- `_validate_packed_payload` accepts the message; the worker decodes it under the same limit. -/
def packs (m : PipeMessage κ π) : Bool := c.withinLimit (c.pipeMessageSize m)

end ProcessConfig

/-- The entries of `completion_event_to_dict`. -/
def CompletionEvent.fields (e : CompletionEvent) : List (String × PackedSize) :=
  [("id", e.id.packedSize), ("topic", strSize (.text e.tp.topic)), ("partition", intSize e.tp.partition),
    ("offset", intSize e.offset), ("epoch", intSize e.epoch), ("status", strSizeOf 7),
    ("error", match e.error with | none => nilSize | some text => strSize text), ("attempt", intSize e.attempt)]

/-- `msgpack.packb` accepts the event. -/
def CompletionEvent.packable (e : CompletionEvent) : Bool := (mapSize e.fields).isSome

namespace ProcessConfig

variable {κ π : Type} (c : ProcessConfig κ π)

/-- The packed message: a single event, or `serialize_batch_completion_payload`. -/
def completionSize : CompletionMessage κ → PackedSize
  | .item e timed =>
    mapSize (e.fields ++ if timed then [("completion_enqueued_at", floatSize)] else [])
  | .batch _ route results =>
    mapSize [("kind", strSize (.text "batch_completion")),
      ("completion", mapSize [("batch_id", strSizeOf 32), ("route_identity", c.routeSize route),
        ("results", arraySize (results.map fun e => mapSize e.fields))]),
      ("timing", mapSize [("completion_enqueued_at", floatSize)])]

/-- `msgpack.packb` accepts the message. -/
def encodes (m : CompletionMessage κ) : Bool := (c.completionSize m).isSome

/-- `_decode_completion_queue_item_events` accepts the packed message. -/
def decodes (m : CompletionMessage κ) : Bool := c.withinLimit (c.completionSize m)

theorem encodes_of_decodes {m : CompletionMessage κ} (h : c.decodes m = true) : c.encodes m = true := by
  unfold decodes withinLimit at h
  unfold encodes
  cases hs : c.completionSize m with
  | none => rw [hs] at h; cases h
  | some n => rfl

end ProcessConfig

end PyrallelConsumer
