import PyrallelConsumer.Dto
import PyrallelConsumer.Lib.MsgPackFormat

/-!
# PyrallelConsumer.WireCodec

The bytes between the parent and its workers: `execution_plane/process_codec.py`, and
`_decode_completion_queue_item_events` of `process_engine.py` without its counters. The records carry
whatever values Python finds in their fields. `msgpack` is a parameter.

* `workItemFromDict_toDict`, `completionEventFromDict_toDict` — records and their `dict` forms.
* `decode_items`, `decode_routeBatch` — what a worker makes of a serialized batch.
* `decode_batchCompletion`, `decode_completion` — what the parent makes of a completion.
* `wire_round_trip` — all of them.
-/

namespace PyrallelConsumer

namespace Wire

open MsgPack

/-- A `dict` with texts for keys. -/
abbrev Fields := List (PyStr × Value)

/-- The `msgpack` package, as far as it is used. -/
structure MsgPackCodec where
  /-- `packb(value, use_bin_type=True)`; `none` where it raises. -/
  packb : Value → Option Bytes
  /-- `list(Unpacker(raw=False, max_buffer_size=n))` after the bytes were fed; `none` where something raises. -/
  unpack : Nat → Bytes → Option (List Value)

/-- What was packed is unpacked again, within the limit of the unpacker. -/
def MsgPackCodec.RoundTrips (codec : MsgPackCodec) : Prop :=
  ∀ (v : Value) (raw : Bytes), v.WellFormed → codec.packb v = some raw →
    ∀ n, raw.length ≤ n → codec.unpack n raw = some [v]

/-- The exceptions of the decoders. -/
inductive CodecError where
  | valueError (text : String)
  | unknownWorkerPipePayloadKind (kind : Value)
  | invalidStatus (value : Value)
  | keyError (name : String)
  /-- `dict(value)`, or a lookup by name in the value. -/
  | notADict (value : Value)
  | notIterable (value : Value)
  | unpackError

/-! ## Reading a `dict` -/

/-- `payload[name]`. -/
def field (payload : Fields) (name : String) : Except CodecError Value :=
  match lookup payload (.text name) with
  | some v => .ok v
  | none => .error (.keyError name)

/-- `payload.get(name, default)`. -/
def fieldOr (payload : Fields) (name : String) (default : Value) : Value := (lookup payload (.text name)).getD default

/-- A value that is used as a `dict`. A list of pairs, of which `dict` would make one as well, is not sent. -/
def asDict : Value → Except CodecError Fields
  | .map payload => .ok payload
  | v => .error (.notADict v)

/-- The elements that a loop over the value sees. -/
def iterate : Value → Except CodecError (List Value)
  | .array l => .ok l
  | .map payload => .ok (payload.map fun f => .str f.1)
  | .bin b => .ok (b.map fun n => .int n.toNat)
  | .str s => .ok (s.codePoints.map fun
      | .scalar c => .str (.text c.toString)
      | .surrogate n => .str (.broken "" n []))
  | v => .error (.notIterable v)

def isText (s : String) : Value → Bool
  | .str (.text t) => t == s
  | _ => false

/-- `_require_fields`. -/
def requireFields (payload : Fields) (requiredFields : List String) (errorName : String) : Except CodecError Unit :=
  let missingFields := requiredFields.filter fun name => (lookup payload (.text name)).isNone
  if missingFields = [] then .ok ()
  else .error (.valueError (errorName ++ "_missing_" ++ "_".intercalate missingFields))

/-- `_require_non_empty_list`. -/
def requireNonEmptyList (value : Value) (fieldName errorName : String) : Except CodecError (List Value) :=
  match value with
  | .array [] => .error (.valueError (errorName ++ "_" ++ fieldName ++ "_empty"))
  | .array l => .ok l
  | _ => .error (.valueError (errorName ++ "_" ++ fieldName ++ "_not_list"))

/-- A route identity has to be a sequence. -/
def requireSequence (value : Value) (error : String) : Except CodecError (List Value) :=
  match value with
  | .array l => .ok l
  | _ => .error (.valueError error)

/-! ## Records -/

structure WorkItem where
  id : Value
  topic : Value
  partition : Value
  offset : Value
  epoch : Value
  key : Value
  payload : Value
  requeueAttempts : Value
  /-- `none` is `WORK_ITEM_POISON_KEY_UNSET`. -/
  poisonKey : Option Value

structure CompletionEvent where
  id : Value
  topic : Value
  partition : Value
  offset : Value
  epoch : Value
  status : CompletionStatus
  error : Value
  attempt : Value

structure RouteBatch where
  batchId : Value
  routeIdentity : List Value
  workerIndex : Value
  items : List WorkItem

structure BatchCompletion where
  batchId : Value
  routeIdentity : List Value
  results : List CompletionEvent

def workItemToDict (item : WorkItem) : Fields :=
  let payload : Fields :=
    [("id", item.id), ("topic", item.topic), ("partition", item.partition), ("offset", item.offset),
      ("epoch", item.epoch), ("key", item.key), ("payload", item.payload),
      ("requeue_attempts", item.requeueAttempts)]
  match item.poisonKey with
  | none => payload
  | some k => setEntry (.text "poison_key") k payload

def workItemFromDict (payload : Fields) : Except CodecError WorkItem := do
  let id ← field payload "id"
  let topic ← field payload "topic"
  let partition ← field payload "partition"
  let offset ← field payload "offset"
  let epoch ← field payload "epoch"
  return {
    id := id
    topic := topic
    partition := partition
    offset := offset
    epoch := epoch
    key := fieldOr payload "key" .nil
    payload := fieldOr payload "payload" .nil
    requeueAttempts := fieldOr payload "requeue_attempts" (.int 0)
    poisonKey := lookup payload (.text "poison_key") }

def statusValue : CompletionStatus → String
  | .success => "success"
  | .failure => "failure"

/-- `CompletionStatus(value)`. -/
def statusOf (value : Value) : Except CodecError CompletionStatus :=
  if isText "success" value then .ok .success
  else if isText "failure" value then .ok .failure
  else .error (.invalidStatus value)

def completionEventToDict (event : CompletionEvent) (extraFields : Fields) : Fields :=
  extraFields.foldl (fun payload f => setEntry f.1 f.2 payload)
    [("id", event.id), ("topic", event.topic), ("partition", event.partition), ("offset", event.offset),
      ("epoch", event.epoch), ("status", .str (statusValue event.status)), ("error", event.error),
      ("attempt", event.attempt)]

def completionEventFromDict (payload : Fields) : Except CodecError CompletionEvent := do
  let id ← field payload "id"
  let topic ← field payload "topic"
  let partition ← field payload "partition"
  let offset ← field payload "offset"
  let epoch ← field payload "epoch"
  let status ← field payload "status"
  let status ← statusOf status
  let attempt ← field payload "attempt"
  return {
    id := id
    topic := topic
    partition := partition
    offset := offset
    epoch := epoch
    status := status
    error := fieldOr payload "error" .nil
    attempt := attempt }

def routeBatchToDict (batch : RouteBatch) : Fields :=
  [("batch_id", batch.batchId), ("route_identity", .array batch.routeIdentity), ("worker_index", batch.workerIndex),
    ("items", .array (batch.items.map fun item => .map (workItemToDict item)))]

def routeBatchFromDict (payload : Fields) : Except CodecError RouteBatch := do
  requireFields payload ["batch_id", "route_identity", "items"] "invalid_route_batch"
  let routeIdentity ← field payload "route_identity"
  let routeIdentity ← requireSequence routeIdentity "invalid_route_batch_route_identity_not_sequence"
  let items ← field payload "items"
  let items ← requireNonEmptyList items "items" "invalid_route_batch"
  let batchId ← field payload "batch_id"
  let items ← items.mapM fun item => asDict item >>= workItemFromDict
  return {
    batchId := batchId
    routeIdentity := routeIdentity
    workerIndex := fieldOr payload "worker_index" .nil
    items := items }

def batchCompletionToDict (completion : BatchCompletion) : Fields :=
  [("batch_id", completion.batchId), ("route_identity", .array completion.routeIdentity),
    ("results", .array (completion.results.map fun event => .map (completionEventToDict event [])))]

def batchCompletionFromDict (payload : Fields) : Except CodecError BatchCompletion := do
  requireFields payload ["batch_id", "route_identity", "results"] "invalid_batch_completion"
  let routeIdentity ← field payload "route_identity"
  let routeIdentity ← requireSequence routeIdentity "invalid_batch_completion_route_identity_not_sequence"
  let results ← field payload "results"
  let results ← requireNonEmptyList results "results" "invalid_batch_completion"
  let batchId ← field payload "batch_id"
  let results ← results.mapM fun event => asDict event >>= completionEventFromDict
  return { batchId := batchId, routeIdentity := routeIdentity, results := results }

/-! ## Envelopes -/

inductive BatchPayload where
  | workItems (items : List WorkItem)
  | routeBatch (batch : RouteBatch)

section Serialize

variable (codec : MsgPackCodec)

/-- The envelope of `serialize_worker_pipe_payload`. -/
def workerPipeEnvelope (payload : BatchPayload) (flushEnqueuedAt : BitVec 64) : Value :=
  let timing : Value := .map [("flush_enqueued_at", .float flushEnqueuedAt)]
  match payload with
  | .routeBatch batch =>
    .map [("kind", .str "route_batch"), ("batch", .map (routeBatchToDict batch)), ("timing", timing)]
  | .workItems items =>
    .map [("kind", .str "work_items"), ("items", .array (items.map fun item => .map (workItemToDict item))),
      ("timing", timing)]

def serializeWorkerPipePayload (payload : BatchPayload) (flushEnqueuedAt : BitVec 64) : Option Bytes :=
  codec.packb (workerPipeEnvelope payload flushEnqueuedAt)

def serializeBatchPayload (batch : BatchPayload) (flushEnqueuedAt : BitVec 64) : Option Bytes :=
  serializeWorkerPipePayload codec batch flushEnqueuedAt

def batchCompletionEnvelope (completion : BatchCompletion) (completionEnqueuedAt : BitVec 64) : Value :=
  .map [("kind", .str "batch_completion"), ("completion", .map (batchCompletionToDict completion)),
    ("timing", .map [("completion_enqueued_at", .float completionEnqueuedAt)])]

def serializeBatchCompletionPayload (completion : BatchCompletion) (completionEnqueuedAt : BitVec 64) : Option Bytes :=
  codec.packb (batchCompletionEnvelope completion completionEnqueuedAt)

/-- A worker packs a single completion with the time of the put, a decode failure without one. -/
def serializeCompletion (event : CompletionEvent) (completionEnqueuedAt : Option (BitVec 64)) : Option Bytes :=
  codec.packb (.map (completionEventToDict event
    (completionEnqueuedAt.toList.map fun t => ("completion_enqueued_at", .float t))))

/-- `_decode_msgpack_payload`. -/
def decodeMsgpackPayload (item : Bytes) (maxBytes : Nat) : Except CodecError Value :=
  if item.length > maxBytes then .error (.valueError "payload_too_large")
  else
    match codec.unpack maxBytes item with
    | none => .error .unpackError
    | some [v] => .ok v
    | some decodedItems => .ok (.array decodedItems)

end Serialize

/-! ## What a worker receives -/

/-- An element of a list that was not packed. -/
inductive Entry where
  | workItem (item : WorkItem)
  | value (v : Value)

/-- What the worker takes from its pipe: bytes, or Python values as they are. -/
inductive IncomingItem where
  | bytes (raw : Bytes)
  | workItem (item : WorkItem)
  | list (entries : List Entry)
  | value (v : Value)

/-- A value of the timing metadata. -/
inductive Metadata where
  /-- `float(value)`, of a number or a `bool`. -/
  | float (v : Value)
  | value (v : Value)
  | tuple (l : List Value)

/-- `isinstance(value, (int, float))`. -/
def isNumber : Value → Bool
  | .int _ => true
  | .float _ => true
  | .bool _ => true
  | _ => false

/-- The numbers of the timing. -/
def timingValues (timing : Value) : Except CodecError (List (PyStr × Metadata)) := do
  let timing ← asDict timing
  return (timing.filter fun f => isNumber f.2).map fun f => (f.1, .float f.2)

/-- `payload["requeue_attempts"] = payload.get("requeue_attempts", 0)`. -/
def withRequeueAttempts (payload : Fields) : Fields :=
  setEntry (.text "requeue_attempts") (fieldOr payload "requeue_attempts" (.int 0)) payload

def entryPayload : Entry → Except CodecError Fields
  | .workItem item => .ok (withRequeueAttempts (workItemToDict item))
  | .value v => do
    let payload ← asDict v
    return withRequeueAttempts payload

/-- The branch of `normalize_decoded_payloads` for a `dict`. -/
def normalizeDict (decoded : Fields) : Except CodecError (List Fields × List (PyStr × Metadata)) :=
  let kind := fieldOr decoded "kind" .nil
  if isText "route_batch" kind then do
    let batch ← field decoded "batch"
    let batch ← asDict batch
    let batch ← routeBatchFromDict batch
    let timing ← timingValues (fieldOr decoded "timing" (.map []))
    let timing := setEntry (.text "route_batch_id") (.value batch.batchId) timing
    let timing := setEntry (.text "route_identity") (.tuple batch.routeIdentity) timing
    return (batch.items.map workItemToDict, timing)
  else
    match kind with
    | .nil => normalizeUnbatched
    | kind => if isText "work_items" kind then normalizeUnbatched else .error (.unknownWorkerPipePayloadKind kind)
where
  /-- An envelope with items, or a single item. -/
  normalizeUnbatched : Except CodecError (List Fields × List (PyStr × Metadata)) :=
    match lookup decoded (.text "items") with
    | some items => do
      let timing ← timingValues (fieldOr decoded "timing" (.map []))
      let items ← iterate items
      let payloads ← items.mapM asDict
      return (payloads, timing)
    | none => .ok ([withRequeueAttempts decoded], [])

def normalizeList (decoded : List Entry) : Except CodecError (List Fields × List (PyStr × Metadata)) := do
  let payloads ← decoded.mapM entryPayload
  return (payloads, [])

def normalizeDecodedPayloads : IncomingItem → Except CodecError (List Fields × List (PyStr × Metadata))
  | .value (.map decoded) => normalizeDict decoded
  | .value (.array decoded) => normalizeList (decoded.map .value)
  | .list decoded => normalizeList decoded
  | .workItem item => .ok ([withRequeueAttempts (workItemToDict item)], [])
  | .value v => .error (.notADict v)
  | .bytes raw => .error (.notADict (.bin raw))

section Decode

variable (codec : MsgPackCodec)

def decodeIncomingPayloads (item : IncomingItem) (maxBytes : Nat) :
    Except CodecError (List Fields × List (PyStr × Metadata)) :=
  match item with
  | .bytes raw => do
    let decoded ← decodeMsgpackPayload codec raw maxBytes
    normalizeDecodedPayloads (.value decoded)
  | item => normalizeDecodedPayloads item

def decodeIncomingItem (item : IncomingItem) (maxBytes : Nat) : Except CodecError (List WorkItem) := do
  let (payloads, _) ← decodeIncomingPayloads codec item maxBytes
  payloads.mapM workItemFromDict

/-! ## What the parent receives -/

/-- What comes from the completion queue. -/
inductive RawEvent where
  | bytes (raw : Bytes)
  | event (e : CompletionEvent)

/-- `decode_batch_completion_payload`, of a value that is decoded already. -/
def decodeBatchCompletionPayload (decoded : Value) : Except CodecError Fields :=
  match decoded with
  | .map payload =>
    if isText "batch_completion" (fieldOr payload "kind" .nil) then .ok payload
    else .error (.valueError "invalid_batch_completion_payload")
  | _ => .error (.valueError "invalid_batch_completion_payload")

/-- `_completion_msgpack_max_bytes`. -/
def completionMsgpackMaxBytes (configured : Int) : Nat := if configured > 0 then configured.toNat else 1000000

def decodeCompletionQueueItemEvents (msgpackMaxBytes : Int) :
    RawEvent → Except CodecError (List CompletionEvent)
  | .event e => .ok [e]
  | .bytes raw => do
    let payload ← decodeMsgpackPayload codec raw (completionMsgpackMaxBytes msgpackMaxBytes)
    match payload with
    | .map payload =>
      if isText "batch_completion" (fieldOr payload "kind" .nil) then
        let decodedPayload ← decodeBatchCompletionPayload (.map payload)
        -- The time of the put is looked up in the timing.
        let _ ← asDict (fieldOr decodedPayload "timing" (.map []))
        let completion ← field decodedPayload "completion"
        let completion ← asDict completion
        let completion ← batchCompletionFromDict completion
        return completion.results
      else
        let event ← completionEventFromDict payload
        return [event]
    | _ => .error (.valueError "invalid_completion_payload_type")

end Decode

/-! ## Records and their dicts -/

def WorkItem.values (item : WorkItem) : List Value :=
  [item.id, item.topic, item.partition, item.offset, item.epoch, item.key, item.payload, item.requeueAttempts] ++
    item.poisonKey.toList

def CompletionEvent.values (event : CompletionEvent) : List Value :=
  [event.id, event.topic, event.partition, event.offset, event.epoch, event.error, event.attempt]

/-- All that the item carries can be packed as it is. -/
def WorkItem.WellFormed (item : WorkItem) : Prop := ∀ v ∈ item.values, v.WellFormed

def CompletionEvent.WellFormed (event : CompletionEvent) : Prop := ∀ v ∈ event.values, v.WellFormed

structure RouteBatch.WellFormed (batch : RouteBatch) : Prop where
  batchId : batch.batchId.WellFormed
  routeIdentity : ∀ v ∈ batch.routeIdentity, v.WellFormed
  workerIndex : batch.workerIndex.WellFormed
  items : ∀ item ∈ batch.items, item.WellFormed

structure BatchCompletion.WellFormed (completion : BatchCompletion) : Prop where
  batchId : completion.batchId.WellFormed
  routeIdentity : ∀ v ∈ completion.routeIdentity, v.WellFormed
  results : ∀ event ∈ completion.results, event.WellFormed

theorem workItemFromDict_toDict (item : WorkItem) : workItemFromDict (workItemToDict item) = .ok item := by
  obtain ⟨id, topic, partition, offset, epoch, key, payload, requeueAttempts, poisonKey⟩ := item
  cases poisonKey <;>
    simp [workItemFromDict, workItemToDict, field, fieldOr, lookup, setEntry, bind, Except.bind, pure, Except.pure]

theorem statusOf_statusValue (status : CompletionStatus) : statusOf (.str (statusValue status)) = .ok status := by
  cases status <;> rfl

/-- The dict of a completion, with the time of its put or without. -/
theorem completionEventFromDict_toDict (event : CompletionEvent) (completionEnqueuedAt : Option (BitVec 64)) :
    completionEventFromDict (completionEventToDict event
      (completionEnqueuedAt.toList.map fun t => ("completion_enqueued_at", .float t))) = .ok event := by
  have hstatus := statusOf_statusValue event.status
  cases completionEnqueuedAt <;>
    simp [completionEventFromDict, completionEventToDict, field, fieldOr, lookup, setEntry, bind, Except.bind, pure,
      Except.pure, hstatus]

theorem wellFormed_workItemToDict {item : WorkItem} (h : item.WellFormed) :
    (Value.map (workItemToDict item)).WellFormed := by
  obtain ⟨id, topic, partition, offset, epoch, key, payload, requeueAttempts, poisonKey⟩ := item
  unfold WorkItem.WellFormed WorkItem.values at h
  rw [Value.wellFormed_map]
  cases poisonKey with
  | none => exact ⟨by simp [workItemToDict], by simpa [workItemToDict] using h⟩
  | some k => exact ⟨by simp [workItemToDict, setEntry], by simpa [workItemToDict, setEntry] using h⟩

theorem wellFormed_completionEventToDict {event : CompletionEvent} (h : event.WellFormed)
    (completionEnqueuedAt : Option (BitVec 64)) :
    (Value.map (completionEventToDict event
      (completionEnqueuedAt.toList.map fun t => ("completion_enqueued_at", .float t)))).WellFormed := by
  obtain ⟨id, topic, partition, offset, epoch, status, error, attempt⟩ := event
  unfold CompletionEvent.WellFormed CompletionEvent.values at h
  rw [Value.wellFormed_map]
  cases completionEnqueuedAt with
  | none => exact ⟨by simp [completionEventToDict], by simpa [completionEventToDict] using h⟩
  | some t => exact ⟨by simp [completionEventToDict, setEntry], by simpa [completionEventToDict, setEntry] using h⟩

/-! ## Envelopes -/

theorem wellFormed_workItems {items : List WorkItem} (h : ∀ item ∈ items, item.WellFormed) :
    (Value.array (items.map fun item => .map (workItemToDict item))).WellFormed := by
  rw [Value.wellFormed_array]
  intro v hv
  obtain ⟨item, hitem, rfl⟩ := List.mem_map.mp hv
  exact wellFormed_workItemToDict (h item hitem)

theorem wellFormed_results {results : List CompletionEvent} (h : ∀ event ∈ results, event.WellFormed) :
    (Value.array (results.map fun event => .map (completionEventToDict event []))).WellFormed := by
  rw [Value.wellFormed_array]
  intro v hv
  obtain ⟨event, hevent, rfl⟩ := List.mem_map.mp hv
  exact wellFormed_completionEventToDict (h event hevent) none

theorem wellFormed_workItemsEnvelope {items : List WorkItem} (h : ∀ item ∈ items, item.WellFormed) (t : BitVec 64) :
    (workerPipeEnvelope (.workItems items) t).WellFormed := by
  have hitems := wellFormed_workItems h
  dsimp only [workerPipeEnvelope]
  generalize Value.array (items.map fun item => .map (workItemToDict item)) = packed at hitems ⊢
  simp [hitems]

theorem wellFormed_routeBatchEnvelope {batch : RouteBatch} (h : batch.WellFormed) (t : BitVec 64) :
    (workerPipeEnvelope (.routeBatch batch) t).WellFormed := by
  have hitems := wellFormed_workItems h.items
  dsimp only [workerPipeEnvelope, routeBatchToDict]
  generalize Value.array (batch.items.map fun item => .map (workItemToDict item)) = packed at hitems ⊢
  simpa [hitems, h.batchId, h.workerIndex] using h.routeIdentity

theorem wellFormed_batchCompletionEnvelope {completion : BatchCompletion} (h : completion.WellFormed)
    (t : BitVec 64) : (batchCompletionEnvelope completion t).WellFormed := by
  have hresults := wellFormed_results h.results
  unfold batchCompletionEnvelope batchCompletionToDict
  generalize Value.array (completion.results.map fun event => .map (completionEventToDict event [])) = packed
    at hresults ⊢
  simpa [hresults, h.batchId] using h.routeIdentity

/-- What was packed is decoded again. -/
theorem decodeMsgpackPayload_packb {codec : MsgPackCodec} (hcodec : codec.RoundTrips) {v : Value} {raw : Bytes}
    (hwf : v.WellFormed) (hraw : codec.packb v = some raw) {maxBytes : Nat} (hmax : raw.length ≤ maxBytes) :
    decodeMsgpackPayload codec raw maxBytes = .ok v := by
  unfold decodeMsgpackPayload
  rw [if_neg (by omega), hcodec v raw hwf hraw maxBytes hmax]

theorem mapM_map_ok {α β : Type} {f : α → β} {g : β → Except CodecError α} (h : ∀ a, g (f a) = .ok a) (l : List α) :
    (l.map f).mapM g = .ok l := by
  induction l with
  | nil => rfl
  | cons a l ih =>
    rw [List.map_cons, List.mapM_cons, h, ih]
    rfl

/-- The items of an envelope. -/
theorem mapM_items (items : List WorkItem) :
    (items.map fun item => Value.map (workItemToDict item)).mapM (fun item => asDict item >>= workItemFromDict) =
      .ok items :=
  mapM_map_ok (f := fun item => Value.map (workItemToDict item)) workItemFromDict_toDict items

theorem mapM_results (results : List CompletionEvent) :
    (results.map fun event => Value.map (completionEventToDict event [])).mapM
      (fun event => asDict event >>= completionEventFromDict) = .ok results :=
  mapM_map_ok (f := fun event => Value.map (completionEventToDict event []))
    (fun event => completionEventFromDict_toDict event none) results

theorem requireNonEmptyList_of_ne_nil {l : List Value} (h : l ≠ []) (fieldName errorName : String) :
    requireNonEmptyList (.array l) fieldName errorName = .ok l := by
  obtain ⟨v, l, rfl⟩ := List.exists_cons_of_ne_nil h
  rfl

theorem ok_bind {α β : Type} (a : α) (f : α → Except CodecError β) : (Except.ok a >>= f) = f a := rfl

theorem routeBatchFromDict_toDict {batch : RouteBatch} (h : batch.items ≠ []) :
    routeBatchFromDict (routeBatchToDict batch) = .ok batch := by
  have hitems := mapM_items batch.items
  have hpacked : requireNonEmptyList (.array (batch.items.map fun item => Value.map (workItemToDict item))) "items"
      "invalid_route_batch" = .ok (batch.items.map fun item => Value.map (workItemToDict item)) :=
    requireNonEmptyList_of_ne_nil (by simpa using h) _ _
  unfold routeBatchFromDict routeBatchToDict
  generalize batch.items.map (fun item => Value.map (workItemToDict item)) = packed at hitems hpacked ⊢
  simp [requireFields, requireSequence, field, fieldOr, lookup, ok_bind, hpacked, hitems, pure, Except.pure]

theorem batchCompletionFromDict_toDict {completion : BatchCompletion} (h : completion.results ≠ []) :
    batchCompletionFromDict (batchCompletionToDict completion) = .ok completion := by
  have hresults := mapM_results completion.results
  have hpacked : requireNonEmptyList (.array (completion.results.map fun event =>
      Value.map (completionEventToDict event []))) "results" "invalid_batch_completion" =
      .ok (completion.results.map fun event => Value.map (completionEventToDict event [])) :=
    requireNonEmptyList_of_ne_nil (by simpa using h) _ _
  unfold batchCompletionFromDict batchCompletionToDict
  generalize completion.results.map (fun event => Value.map (completionEventToDict event [])) = packed
    at hresults hpacked ⊢
  simp [requireFields, requireSequence, field, lookup, ok_bind, hpacked, hresults, pure, Except.pure]

/-! ## Round trips -/

section RoundTrip

variable {codec : MsgPackCodec} {raw : Bytes} {maxBytes : Nat} {t : BitVec 64}

/-- What a worker makes of a serialized list of items. -/
theorem decode_workItems (hcodec : codec.RoundTrips) {items : List WorkItem} (hwf : ∀ item ∈ items, item.WellFormed)
    (hraw : serializeBatchPayload codec (.workItems items) t = some raw) (hmax : raw.length ≤ maxBytes) :
    decodeIncomingPayloads codec (.bytes raw) maxBytes =
      .ok (items.map workItemToDict, [("flush_enqueued_at", .float (.float t))]) := by
  have hdecoded := decodeMsgpackPayload_packb hcodec (wellFormed_workItemsEnvelope hwf t) hraw hmax
  have hpayloads : (items.map fun item => Value.map (workItemToDict item)).mapM asDict =
      .ok (items.map workItemToDict) := by
    have h := mapM_map_ok (f := Value.map) (g := asDict) (fun _ => rfl) (items.map workItemToDict)
    rwa [List.map_map] at h
  simp only [decodeIncomingPayloads, hdecoded, ok_bind]
  dsimp only [workerPipeEnvelope]
  generalize items.map (fun item => Value.map (workItemToDict item)) = packed at hpayloads ⊢
  simp [normalizeDecodedPayloads, normalizeDict, normalizeDict.normalizeUnbatched, fieldOr, lookup, isText, timingValues, asDict,
    isNumber, iterate, ok_bind, hpayloads, pure, Except.pure]

/-- What a worker makes of a serialized route batch. -/
theorem decode_routeBatch (hcodec : codec.RoundTrips) {batch : RouteBatch} (hwf : batch.WellFormed)
    (hitems : batch.items ≠ []) (hraw : serializeBatchPayload codec (.routeBatch batch) t = some raw)
    (hmax : raw.length ≤ maxBytes) :
    decodeIncomingPayloads codec (.bytes raw) maxBytes =
      .ok (batch.items.map workItemToDict,
        [("flush_enqueued_at", .float (.float t)), ("route_batch_id", .value batch.batchId),
          ("route_identity", .tuple batch.routeIdentity)]) := by
  have hdecoded := decodeMsgpackPayload_packb hcodec (wellFormed_routeBatchEnvelope hwf t) hraw hmax
  have hbatch := routeBatchFromDict_toDict hitems
  simp only [decodeIncomingPayloads, hdecoded, ok_bind]
  dsimp only [workerPipeEnvelope]
  generalize routeBatchToDict batch = packed at hbatch ⊢
  simp [normalizeDecodedPayloads, normalizeDict, field, fieldOr, lookup, isText, timingValues, asDict, isNumber,
    setEntry, ok_bind, hbatch, pure, Except.pure]

theorem decodeIncomingItem_of_payloads {item : IncomingItem} {items : List WorkItem} {timing : List (PyStr × Metadata)}
    (h : decodeIncomingPayloads codec item maxBytes = .ok (items.map workItemToDict, timing)) :
    decodeIncomingItem codec item maxBytes = .ok items := by
  unfold decodeIncomingItem
  rw [h, ok_bind]
  exact mapM_map_ok workItemFromDict_toDict items

/-- What the parent makes of the results of a batch. -/
theorem decode_batchCompletion (hcodec : codec.RoundTrips) {completion : BatchCompletion} (hwf : completion.WellFormed)
    (hresults : completion.results ≠ []) {msgpackMaxBytes : Int}
    (hraw : serializeBatchCompletionPayload codec completion t = some raw)
    (hmax : raw.length ≤ completionMsgpackMaxBytes msgpackMaxBytes) :
    decodeCompletionQueueItemEvents codec msgpackMaxBytes (.bytes raw) = .ok completion.results := by
  have hdecoded := decodeMsgpackPayload_packb hcodec (wellFormed_batchCompletionEnvelope hwf t) hraw hmax
  have hcompletion := batchCompletionFromDict_toDict hresults
  simp only [decodeCompletionQueueItemEvents, hdecoded, ok_bind]
  dsimp only [batchCompletionEnvelope]
  generalize batchCompletionToDict completion = packed at hcompletion ⊢
  simp [decodeBatchCompletionPayload, field, fieldOr, lookup, isText, asDict, ok_bind, hcompletion, pure, Except.pure]

/-- What the parent makes of a single completion. -/
theorem decode_completion (hcodec : codec.RoundTrips) {event : CompletionEvent} (hwf : event.WellFormed)
    {completionEnqueuedAt : Option (BitVec 64)} {msgpackMaxBytes : Int}
    (hraw : serializeCompletion codec event completionEnqueuedAt = some raw)
    (hmax : raw.length ≤ completionMsgpackMaxBytes msgpackMaxBytes) :
    decodeCompletionQueueItemEvents codec msgpackMaxBytes (.bytes raw) = .ok [event] := by
  have hdecoded := decodeMsgpackPayload_packb hcodec (wellFormed_completionEventToDict hwf completionEnqueuedAt) hraw hmax
  have hevent := completionEventFromDict_toDict event completionEnqueuedAt
  have hkind : isText "batch_completion" (fieldOr (completionEventToDict event
      (completionEnqueuedAt.toList.map fun t => ("completion_enqueued_at", .float t))) "kind" .nil) = false := by
    cases completionEnqueuedAt <;> simp [completionEventToDict, fieldOr, lookup, setEntry, isText]
  simp only [decodeCompletionQueueItemEvents, hdecoded, ok_bind, hkind, hevent]
  rfl

/-- A route batch without items is serialized, but not accepted. -/
theorem decode_emptyRouteBatch (hcodec : codec.RoundTrips) {batch : RouteBatch} (hwf : batch.WellFormed)
    (hitems : batch.items = []) (hraw : serializeBatchPayload codec (.routeBatch batch) t = some raw)
    (hmax : raw.length ≤ maxBytes) :
    decodeIncomingItem codec (.bytes raw) maxBytes = .error (.valueError "invalid_route_batch_items_empty") := by
  have hdecoded := decodeMsgpackPayload_packb hcodec (wellFormed_routeBatchEnvelope hwf t) hraw hmax
  have hbatch : routeBatchFromDict (routeBatchToDict batch) =
      .error (.valueError "invalid_route_batch_items_empty") := by
    unfold routeBatchToDict
    rw [hitems]
    rfl
  simp only [decodeIncomingItem, decodeIncomingPayloads, hdecoded, ok_bind]
  dsimp only [workerPipeEnvelope]
  generalize routeBatchToDict batch = packed at hbatch ⊢
  simp [normalizeDecodedPayloads, normalizeDict, field, fieldOr, lookup, isText, asDict, ok_bind, hbatch]
  rfl

end RoundTrip

/-- The formats of MessagePack themselves. -/
def messagePack : MsgPackCodec := ⟨Value.pack, MsgPack.unpack⟩

theorem roundTrips_messagePack : messagePack.RoundTrips := fun _ _ hwf hraw _ hmax => unpack_pack hraw hwf hmax

end Wire

/-- **The codec.** Items, route batches with items and completions come back as they were. The timing names the
route batch exactly where there was one. -/
theorem wire_round_trip (codec : Wire.MsgPackCodec) (hcodec : codec.RoundTrips) (raw : MsgPack.Bytes)
    (t : BitVec 64) :
    (∀ (items : List Wire.WorkItem) (maxBytes : Nat), (∀ item ∈ items, item.WellFormed) →
      Wire.serializeBatchPayload codec (.workItems items) t = some raw → raw.length ≤ maxBytes →
      Wire.decodeIncomingItem codec (.bytes raw) maxBytes = .ok items ∧
        ∃ payloads timing, Wire.decodeIncomingPayloads codec (.bytes raw) maxBytes = .ok (payloads, timing) ∧
          lookup timing "route_batch_id" = none ∧ lookup timing "route_identity" = none) ∧
    (∀ (batch : Wire.RouteBatch) (maxBytes : Nat), batch.items ≠ [] → batch.WellFormed →
      Wire.serializeBatchPayload codec (.routeBatch batch) t = some raw → raw.length ≤ maxBytes →
      Wire.decodeIncomingItem codec (.bytes raw) maxBytes = .ok batch.items ∧
        ∃ payloads timing, Wire.decodeIncomingPayloads codec (.bytes raw) maxBytes = .ok (payloads, timing) ∧
          lookup timing "route_batch_id" = some (.value batch.batchId) ∧
          lookup timing "route_identity" = some (.tuple batch.routeIdentity)) ∧
    (∀ (completion : Wire.BatchCompletion) (msgpackMaxBytes : Int), completion.results ≠ [] → completion.WellFormed →
      Wire.serializeBatchCompletionPayload codec completion t = some raw →
      raw.length ≤ Wire.completionMsgpackMaxBytes msgpackMaxBytes →
      Wire.decodeCompletionQueueItemEvents codec msgpackMaxBytes (.bytes raw) = .ok completion.results) ∧
    ∀ (event : Wire.CompletionEvent) (completionEnqueuedAt : Option (BitVec 64)) (msgpackMaxBytes : Int),
      event.WellFormed → Wire.serializeCompletion codec event completionEnqueuedAt = some raw →
      raw.length ≤ Wire.completionMsgpackMaxBytes msgpackMaxBytes →
      Wire.decodeCompletionQueueItemEvents codec msgpackMaxBytes (.bytes raw) = .ok [event] := by
  refine ⟨fun items maxBytes hwf hraw hmax => ?_, fun batch maxBytes hitems hwf hraw hmax => ?_,
    fun completion msgpackMaxBytes hresults hwf hraw hmax => ?_,
    fun event completionEnqueuedAt msgpackMaxBytes hwf hraw hmax => ?_⟩
  · have hpayloads := Wire.decode_workItems hcodec hwf hraw hmax
    exact ⟨Wire.decodeIncomingItem_of_payloads hpayloads, _, _, hpayloads, by simp [lookup], by simp [lookup]⟩
  · have hpayloads := Wire.decode_routeBatch hcodec hwf hitems hraw hmax
    exact ⟨Wire.decodeIncomingItem_of_payloads hpayloads, _, _, hpayloads, by simp [lookup], by simp [lookup]⟩
  · exact Wire.decode_batchCompletion hcodec hwf hresults hraw hmax
  · exact Wire.decode_completion hcodec hwf hraw hmax

section Examples

open Wire MsgPack

/-- An item with a poison key, whose key is bytes and whose payload is a `dict`. -/
def wireItem : Wire.WorkItem :=
  { id := .str "9f"
    topic := .str "orders"
    partition := .int 3
    offset := .int 70000
    epoch := .int 2
    key := .bin [0, 255]
    payload := .map [("total", .float 4608308318706860032), ("notes", .array [.nil, .bool true, .int (-40)])]
    requeueAttempts := .int 1
    poisonKey := some (.str "9") }

theorem wellFormed_wireItem : wireItem.WellFormed := by
  simp [wireItem, Wire.WorkItem.WellFormed, Wire.WorkItem.values]

theorem wire_round_trip_item :
    ∃ raw, serializeBatchPayload messagePack (.workItems [wireItem]) 0 = some raw ∧
      decodeIncomingItem messagePack (.bytes raw) 1000000 = .ok [wireItem] := by
  have hsize : ((workerPipeEnvelope (.workItems [wireItem]) 0).pack.any fun raw => raw.length ≤ 1000000) = true := by
    decide +kernel
  obtain ⟨raw, hraw, hmax⟩ := (Option.any_eq_true _ _).mp hsize
  refine ⟨raw, hraw, ((wire_round_trip messagePack roundTrips_messagePack raw 0).1 [wireItem] 1000000 ?_ hraw
    (by simpa using hmax)).1⟩
  intro item hitem
  rw [List.mem_singleton.mp hitem]
  exact wellFormed_wireItem

def emptyRouteBatch : Wire.RouteBatch := ⟨.str "b", [.str "orders", .int 3, .nil], .int 0, []⟩

/-- A route batch without items is refused by the worker that receives it. -/
theorem empty_routeBatch_refused :
    emptyRouteBatch.WellFormed ∧ ∃ raw, serializeBatchPayload messagePack (.routeBatch emptyRouteBatch) 0 = some raw ∧
      raw.length ≤ 1000000 ∧ decodeIncomingItem messagePack (.bytes raw) 1000000 =
        .error (.valueError "invalid_route_batch_items_empty") := by
  have hwf : emptyRouteBatch.WellFormed := by
    constructor <;> simp [emptyRouteBatch]
  have hsize : ((workerPipeEnvelope (.routeBatch emptyRouteBatch) 0).pack.any fun raw => raw.length ≤ 1000000) = true := by
    decide +kernel
  obtain ⟨raw, hraw, hmax⟩ := (Option.any_eq_true _ _).mp hsize
  have hmax : raw.length ≤ 1000000 := by simpa using hmax
  exact ⟨hwf, raw, hraw, hmax, decode_emptyRouteBatch roundTrips_messagePack hwf rfl hraw hmax⟩

end Examples

end PyrallelConsumer
