import PyrallelConsumer.Dto
import PyrallelConsumer.Lib.Dict
import PyrallelConsumer.Lib.Evictions
import PyrallelConsumer.Lib.Machine

/-!
# PyrallelConsumer.DlqCache

The cache of raw messages for dead letters, `DlqCacheSupport` of `control_plane/broker_support.py`, with
its size as the caller keeps it (`control_plane/broker_poller_dlq.py`). Every subtraction from the size is
clamped at zero, which would hide a drift.

* `Accounted` — the size is the sum of the entries, and within the budget.
* `cacheMessage_spec` — what one call of `cache_message_for_dlq` does.
* `dlqCache_accounted` — both of them along every sequence of calls.
-/

namespace PyrallelConsumer

/-- A raw key or value. The client hands over bytes or `None`; a text is one of Unicode scalar values.
`bytes` stands for all objects whose bytes are counted, and `other` for those that count nothing. -/
inductive RawPayload where
  | absent
  | bytes (content : List UInt8)
  | text (s : String)
  | other (tag : Nat)
deriving DecidableEq, Repr

abbrev RawMessage := RawPayload × RawPayload

abbrev CacheKey := TopicPartition × Int

def estimateCachedPayloadBytes : RawPayload → Nat
  | .absent => 0
  | .bytes content => content.length
  | .text s => s.utf8ByteSize
  | .other _ => 0

def getCachedMessageSize (m : RawMessage) : Nat :=
  estimateCachedPayloadBytes m.1 + estimateCachedPayloadBytes m.2

structure DlqCache where
  messageCache : Dict CacheKey RawMessage
  sizeBytes : Int
deriving DecidableEq, Repr

namespace DlqCache

def empty : DlqCache := ⟨.empty, 0⟩

/-- The sum of the entry sizes. -/
def weight (l : List (CacheKey × RawMessage)) : Nat := totalWeight (fun e => getCachedMessageSize e.2) l

def popCachedMessage (s : DlqCache) (key : CacheKey) : Option RawMessage × DlqCache :=
  match s.messageCache.get? key with
  | none => (none, s)
  | some m => (some m, ⟨s.messageCache.erase key, max 0 (s.sizeBytes - getCachedMessageSize m)⟩)

/-- What is left of a dictionary after its oldest entries. -/
theorem nodup_evictOldest (maxBytes entrySize : Nat) (l : List (CacheKey × RawMessage)) :
    ∀ size, (l.map Prod.fst).Nodup →
      ((evictOldest (fun e => getCachedMessageSize e.2) maxBytes entrySize l size).1.map Prod.fst).Nodup := by
  induction l with
  | nil => intro size h; exact h
  | cons e l ih =>
    intro size h
    simp only [evictOldest]
    split
    · exact ih _ (List.nodup_cons.mp h).2
    · exact h

/-- The `while` loop of `cache_message_for_dlq`, over `message_cache.popitem(last=False)`. -/
def makeRoom (s : DlqCache) (maxBytes entrySize : Nat) : DlqCache :=
  let r := evictOldest (fun e => getCachedMessageSize e.2) maxBytes entrySize s.messageCache.entries s.sizeBytes
  ⟨⟨r.1, nodup_evictOldest maxBytes entrySize _ _ s.messageCache.nodup⟩, r.2⟩

def cacheMessageForDlq (maxBytes : Nat) (s : DlqCache) (shouldCache : Bool) (cacheKey : CacheKey)
    (message : RawMessage) : DlqCache :=
  let s := (s.popCachedMessage cacheKey).2
  if shouldCache = false then s
  else
    let entrySize := getCachedMessageSize message
    if maxBytes > 0 ∧ entrySize > maxBytes then s
    else
      let s := s.makeRoom maxBytes entrySize
      ⟨s.messageCache.set cacheKey message, s.sizeBytes + entrySize⟩

def dropPartitionMessages (s : DlqCache) (tp : TopicPartition) : DlqCache :=
  (s.messageCache.keys.filter fun key => key.1 = tp).foldl (fun s key => (s.popCachedMessage key).2) s

/-! ## Accounts -/

structure Accounted (maxBytes : Nat) (s : DlqCache) : Prop where
  size : s.sizeBytes = weight s.messageCache.entries
  budget : 0 < maxBytes → s.sizeBytes ≤ maxBytes

variable {maxBytes : Nat} {s : DlqCache}

theorem accounted_empty : Accounted maxBytes empty := ⟨rfl, fun _ => Int.natCast_nonneg maxBytes⟩

theorem weight_erase (d : Dict CacheKey RawMessage) {key : CacheKey} {m : RawMessage} (h : d.get? key = some m) :
    weight (d.erase key).entries + getCachedMessageSize m = weight d.entries := by
  have := d.sum_erase getCachedMessageSize key
  rw [h] at this
  exact this

/-- Popping removes one entry, whose size is subtracted without being clamped. -/
theorem popCachedMessage_of_size (h : s.sizeBytes = weight s.messageCache.entries) (key : CacheKey) :
    (s.popCachedMessage key).2 =
      ⟨s.messageCache.erase key, (weight (s.messageCache.erase key).entries : Int)⟩ := by
  unfold popCachedMessage
  cases hget : s.messageCache.get? key with
  | none =>
    have herase : s.messageCache.erase key = s.messageCache := by
      obtain ⟨⟨entries, hnodup⟩, size⟩ := s
      simp only [Dict.erase, Dict.mk.injEq]
      refine List.filter_eq_self.mpr fun e he => ?_
      have hmem := (lookup_eq_none_iff entries key).mp hget
      have hne : e.1 ≠ key := fun heq => hmem (List.mem_map.mpr ⟨e, he, heq⟩)
      simp [hne]
    rw [herase, ← h]
  | some m =>
    have := weight_erase s.messageCache hget
    simp only [DlqCache.mk.injEq, true_and]
    omega

theorem weight_erase_le (d : Dict CacheKey RawMessage) (key : CacheKey) :
    weight (d.erase key).entries ≤ weight d.entries := by
  have hsum : weight (d.erase key).entries + (d.get? key).elim 0 getCachedMessageSize = weight d.entries :=
    d.sum_erase getCachedMessageSize key
  omega

theorem Accounted.pop (h : Accounted maxBytes s) (key : CacheKey) :
    Accounted maxBytes (s.popCachedMessage key).2 := by
  rw [popCachedMessage_of_size h.size]
  refine ⟨rfl, fun hmax => ?_⟩
  have hle := weight_erase_le s.messageCache key
  have hbudget := h.budget hmax
  rw [h.size] at hbudget
  simp only
  omega

theorem Accounted.drop (h : Accounted maxBytes s) (tp : TopicPartition) :
    Accounted maxBytes (s.dropPartitionMessages tp) := by
  unfold dropPartitionMessages
  generalize s.messageCache.keys.filter (fun key => key.1 = tp) = keys
  induction keys generalizing s with
  | nil => exact h
  | cons key keys ih => exact ih (h.pop key)

/-! ## Caching a message -/

/-- What a call that caches does to the entries. The other entries of the cache are those of other keys. -/
inductive Caches (maxBytes : Nat) (s : DlqCache) (cacheKey : CacheKey) (message : RawMessage) : DlqCache → Prop where
  | skipped (htoo : 0 < maxBytes ∧ maxBytes < getCachedMessageSize message) :
      Caches maxBytes s cacheKey message
        ⟨s.messageCache.erase cacheKey, weight (s.messageCache.erase cacheKey).entries⟩
  | stored (k : Nat) (s' : DlqCache)
      (hentries : s'.messageCache.entries =
        (s.messageCache.erase cacheKey).entries.drop k ++ [(cacheKey, message)])
      (hsize : s'.sizeBytes =
        weight ((s.messageCache.erase cacheKey).entries.drop k) + getCachedMessageSize message)
      (hneeded : ∀ j < k, 0 < maxBytes ∧
        maxBytes < weight ((s.messageCache.erase cacheKey).entries.drop j) + getCachedMessageSize message)
      (hfits : 0 < maxBytes → s'.sizeBytes ≤ maxBytes) : Caches maxBytes s cacheKey message s'

/-- **One message.** The entry of its key goes first, then the oldest ones, as far as they are in the way. -/
theorem cacheMessage_spec (h : s.sizeBytes = weight s.messageCache.entries) (cacheKey : CacheKey)
    (message : RawMessage) :
    Caches maxBytes s cacheKey message (s.cacheMessageForDlq maxBytes true cacheKey message) := by
  unfold cacheMessageForDlq
  simp only [popCachedMessage_of_size h, Bool.true_eq_false, if_false]
  split
  · rename_i htoo
    exact .skipped htoo
  · rename_i hsmall
    obtain ⟨k, heq, hneeded, hfits⟩ := evictOldest_spec (fun e : CacheKey × RawMessage => getCachedMessageSize e.2)
      maxBytes (getCachedMessageSize message) (s.messageCache.erase cacheKey).entries
    have hkey : cacheKey ∉ ((s.messageCache.erase cacheKey).entries.drop k).map Prod.fst := by
      intro hmem
      obtain ⟨e, he, rfl⟩ := List.mem_map.mp hmem
      have := (List.mem_filter.mp (List.mem_of_mem_drop he)).2
      simp at this
    refine .stored k _ ?_ ?_ hneeded fun hmax => ?_
    · simp only [makeRoom, Dict.set, weight, heq]
      exact setEntry_of_not_mem hkey message
    · simp only [makeRoom, weight, heq]
    · have := hfits hmax (by omega)
      simp only [makeRoom, weight, heq]
      omega

theorem Accounted.cache (h : Accounted maxBytes s) (shouldCache : Bool) (cacheKey : CacheKey)
    (message : RawMessage) : Accounted maxBytes (s.cacheMessageForDlq maxBytes shouldCache cacheKey message) := by
  cases shouldCache with
  | false => exact h.pop cacheKey
  | true =>
    have hpop := h.pop cacheKey
    rw [popCachedMessage_of_size h.size] at hpop
    have hspec : Caches maxBytes s cacheKey message (s.cacheMessageForDlq maxBytes true cacheKey message) :=
      cacheMessage_spec h.size cacheKey message
    generalize s.cacheMessageForDlq maxBytes true cacheKey message = s' at hspec
    cases hspec with
    | skipped htoo => exact hpop
    | stored k _ hentries hsize hneeded hfits =>
      refine ⟨?_, hfits⟩
      rw [hsize, hentries]
      simp [weight]

end DlqCache

/-! ## Sequences of calls -/

inductive DlqCacheCall where
  | cacheMessageForDlq (shouldCache : Bool) (tp : TopicPartition) (offset : Int) (message : RawMessage)
  | popCachedMessage (cacheKey : CacheKey)
  | dropPartitionMessages (tp : TopicPartition)
deriving DecidableEq, Repr

def dlqCacheMachine (maxBytes : Nat) : Machine DlqCache DlqCacheCall where
  init s := s = .empty
  enabled _ _ := True
  next s
    | .cacheMessageForDlq shouldCache tp offset message =>
      s.cacheMessageForDlq maxBytes shouldCache (tp, offset) message
    | .popCachedMessage cacheKey => (s.popCachedMessage cacheKey).2
    | .dropPartitionMessages tp => s.dropPartitionMessages tp

theorem DlqCache.Accounted.next {maxBytes : Nat} {s : DlqCache} (h : s.Accounted maxBytes) (call : DlqCacheCall) :
    ((dlqCacheMachine maxBytes).next s call).Accounted maxBytes := by
  cases call with
  | cacheMessageForDlq shouldCache tp offset message => exact h.cache shouldCache (tp, offset) message
  | popCachedMessage cacheKey => exact h.pop cacheKey
  | dropPartitionMessages tp => exact h.drop tp

theorem DlqCache.Accounted.run {maxBytes : Nat} (calls : List DlqCacheCall) :
    ∀ {s : DlqCache}, s.Accounted maxBytes → ((dlqCacheMachine maxBytes).run s calls).Accounted maxBytes := by
  induction calls with
  | nil => intro s h; exact h
  | cons call calls ih => intro s h; exact ih (h.next call)

/-- **The cache of raw messages.** After every sequence of calls the size is the sum of the entries and within
the budget. The next message takes the place of the entry of its key, evicts the oldest entries as long as
there is no room for it, and is the newest entry afterwards unless it alone is above the budget. -/
theorem dlqCache_accounted (maxBytes : Nat) (calls : List DlqCacheCall) :
    ((dlqCacheMachine maxBytes).run .empty calls).Accounted maxBytes ∧
      ∀ tp offset message, DlqCache.Caches maxBytes ((dlqCacheMachine maxBytes).run .empty calls) (tp, offset) message
        ((dlqCacheMachine maxBytes).run .empty (calls ++ [.cacheMessageForDlq true tp offset message])) := by
  have haccounted : ((dlqCacheMachine maxBytes).run .empty calls).Accounted maxBytes :=
    DlqCache.Accounted.run calls DlqCache.accounted_empty
  refine ⟨haccounted, fun tp offset message => ?_⟩
  rw [Machine.run_concat]
  exact DlqCache.cacheMessage_spec haccounted.size (tp, offset) message

/-- Two messages of three bytes under a budget of five: the second evicts the first. -/
example :
    ((dlqCacheMachine 5).run .empty
      [.cacheMessageForDlq true ⟨"t", 0⟩ 1 (.absent, .bytes [1, 2, 3]),
        .cacheMessageForDlq true ⟨"t", 0⟩ 2 (.bytes [1], .bytes [2, 3])]).messageCache.keys = [(⟨"t", 0⟩, 2)] := by
  decide

end PyrallelConsumer
