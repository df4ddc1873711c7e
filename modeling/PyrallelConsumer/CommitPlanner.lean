import PyrallelConsumer.OffsetTracker
import PyrallelConsumer.MetadataEncoder

/-!
# PyrallelConsumer.CommitPlanner

`BrokerCommitPlanner` of `control_plane/broker_support.py`: what the commit and revoke paths hand to
`consumer.commit`, the position after a safe offset together with the sparse completed offsets beyond
it, truncated to the first `maxCompletedOffsets`.

* `mem_getCommitMetadataOffsets` — the snapshot holds completed offsets at or above the base only.
* `getCommitMetadataOffsets_eq` — it holds all of them when they are few enough.
-/

namespace PyrallelConsumer

inductive RebalanceStrategy where
  | contiguousOnly
  | metadataSnapshot
deriving DecidableEq, Repr

structure BrokerCommitPlanner where
  metadataEncoder : MetadataEncoder
  maxCompletedOffsets : Nat
deriving DecidableEq, Repr

namespace BrokerCommitPlanner

/-- `islice(completed_offsets.irange(minimum=base_offset), max_completed_offsets)`. -/
def getCommitMetadataOffsets (p : BrokerCommitPlanner) (tracker : OffsetTracker) (baseOffset : Int) :
    SortedSet Int :=
  (tracker.completedOffsets.filter fun o => baseOffset ≤ o).take p.maxCompletedOffsets

def encodeRevokeMetadata (p : BrokerCommitPlanner) (strategy : RebalanceStrategy)
    (tracker : OffsetTracker) (baseOffset : Int) : Str :=
  match strategy with
  | .contiguousOnly => []
  | .metadataSnapshot =>
    p.metadataEncoder.encodeMetadata (p.getCommitMetadataOffsets tracker baseOffset) baseOffset

def offsetToCommit (p : BrokerCommitPlanner) (strategy : RebalanceStrategy) (tp : TopicPartition)
    (tracker : OffsetTracker) (safeOffset : Int) : KafkaTopicPartition :=
  { topic := tp.topic
    partition := tp.partition
    offset := safeOffset + 1
    metadata := some (p.encodeRevokeMetadata strategy tracker (safeOffset + 1)) }

/-- `build_offsets_to_commit`; `none` is the `KeyError` of a partition without tracker. -/
def buildOffsetsToCommit (p : BrokerCommitPlanner) (commitsToMake : List (TopicPartition × Int))
    (trackers : TopicPartition → Option OffsetTracker) (strategy : RebalanceStrategy) :
    Option (List KafkaTopicPartition) :=
  commitsToMake.mapM fun c => (trackers c.1).map fun t => p.offsetToCommit strategy c.1 t c.2

theorem mem_getCommitMetadataOffsets {p : BrokerCommitPlanner} {t : OffsetTracker} {base o : Int}
    (h : o ∈ p.getCommitMetadataOffsets t base) : o ∈ t.completedOffsets ∧ base ≤ o := by
  have h' := SortedSet.mem_take h
  rw [SortedSet.mem_filter, decide_eq_true_eq] at h'
  exact h'

theorem getCommitMetadataOffsets_eq {p : BrokerCommitPlanner} {t : OffsetTracker} {base : Int}
    (h : (t.completedOffsets.filter fun o => base ≤ o).size ≤ p.maxCompletedOffsets) :
    p.getCommitMetadataOffsets t base = t.completedOffsets.filter fun o => base ≤ o :=
  SortedSet.take_of_size_le h

theorem encodeRevokeMetadata_ne_nil (p : BrokerCommitPlanner) (t : OffsetTracker) (base : Int) :
    p.encodeRevokeMetadata .metadataSnapshot t base ≠ [] := by
  simp only [encodeRevokeMetadata, MetadataEncoder.encodeMetadata_eq]
  split
  · simp
  · split
    · simp [MetadataEncoder.bitsetForm]
    · split
      · simp [MetadataEncoder.rleForm]
      · split
        · simp [MetadataEncoder.rleForm]
        · simp [MetadataEncoder.bitsetForm]

/-- What a snapshot reads back as: the truncated set, or nothing when it did not fit. -/
theorem decode_encodeRevokeMetadata (p : BrokerCommitPlanner) (t : OffsetTracker) {base : Int}
    (hbase : 0 ≤ base) :
    MetadataEncoder.decodeMetadata (p.encodeRevokeMetadata .metadataSnapshot t base) =
      if p.encodeRevokeMetadata .metadataSnapshot t base = ['O'] then .empty
      else p.getCommitMetadataOffsets t base := by
  split
  · rename_i h; rw [h]; rfl
  · rename_i h
    exact MetadataEncoder.decodeMetadata_encodeMetadata _ hbase
      (fun o ho => (mem_getCommitMetadataOffsets ho).2) h

end BrokerCommitPlanner

end PyrallelConsumer
