/-! The outcomes of validation. A code tells what is wrong with the index; when a container is at
fault, a container code tells what is wrong inside it. Each code fixes the number of parameters
that locate the violation. -/
namespace Roaring.Validation

/-- Outcomes for the index as a whole. -/
inductive Code where
  | ok
  | nullContainers
  | negativeSize
  | moreContainersThanSpace
  | nonIncreasingKeys
  | nullKeys
  | nullContainer
  | nullContainerValues
  | invalidContainer
deriving DecidableEq

namespace Code

/-- The number of parameters: `[size]`, `[size, capacity]`, `[index, previous key, key]`,
`[index, key]`; for an invalid container those of the container code count. -/
def paramCount : Code → Nat
  | .ok | .nullContainers | .nullKeys | .nullContainerValues | .invalidContainer => 0
  | .negativeSize => 1
  | .moreContainersThanSpace | .nullContainer => 2
  | .nonIncreasingKeys => 3

def name : Code → String
  | .ok => "OK"
  | .nullContainers => "NULL_CONTAINERS"
  | .negativeSize => "NEGATIVE_SIZE"
  | .moreContainersThanSpace => "MORE_CONTAINERS_THAN_SPACE"
  | .nonIncreasingKeys => "NON_INCREASING_KEYS"
  | .nullKeys => "NULL_KEYS"
  | .nullContainer => "NULL_CONTAINER"
  | .nullContainerValues => "NULL_CONTAINER_VALUES"
  | .invalidContainer => "INVALID_CONTAINER"

def all : List Code :=
  [.ok, .nullContainers, .negativeSize, .moreContainersThanSpace, .nonIncreasingKeys, .nullKeys,
    .nullContainer, .nullContainerValues, .invalidContainer]

end Code

/-- Outcomes inside one container. Results that are not about a container carry
`bitmapViolation`; `badRange` is reserved, since no run can have a negative length. -/
inductive ContainerCode where
  | bitmapViolation
  | unknownContainerType
  | negativeCardinality
  | tooBigCardinality
  | cardinalityExceedsCapacity
  | nullContent
  | nonIncreasingValues
  | nullBitmap
  | invalidBitmapLength
  | invalidCardinality
  | negativeRunCount
  | capacityLessThanRunCount
  | nullValuesLength
  | runOverlap
  | runOverflow
  | runsNotMerged
  | badRange
deriving DecidableEq

namespace ContainerCode

/-- The number of parameters, before the key: `[tag]`, `[cardinality]`, `[length]`, `[run count]`;
`[cardinality, limit]`, `[cardinality, capacity]`, `[cached, actual]`, `[run count, capacity]`;
`[index, previous, value]`, `[index, previous last, start]`, `[index, start, length]`. -/
def paramCount : ContainerCode → Nat
  | .bitmapViolation | .nullContent | .nullBitmap | .nullValuesLength | .badRange => 0
  | .unknownContainerType | .negativeCardinality | .invalidBitmapLength | .negativeRunCount => 1
  | .tooBigCardinality | .cardinalityExceedsCapacity | .invalidCardinality
  | .capacityLessThanRunCount => 2
  | .nonIncreasingValues | .runOverlap | .runOverflow | .runsNotMerged => 3

def name : ContainerCode → String
  | .bitmapViolation => "BITMAP_VIOLATION"
  | .unknownContainerType => "UNKNOWN_CONTAINER_TYPE"
  | .negativeCardinality => "NEGATIVE_CARDINALITY"
  | .tooBigCardinality => "TOO_BIG_CARDINALITY"
  | .cardinalityExceedsCapacity => "CARDINALITY_EXCEEDS_CAPACITY"
  | .nullContent => "NULL_CONTENT"
  | .nonIncreasingValues => "NON_INCREASING_VALUES"
  | .nullBitmap => "NULL_BITMAP"
  | .invalidBitmapLength => "INVALID_BITMAP_LENGTH"
  | .invalidCardinality => "INVALID_CARDINALITY"
  | .negativeRunCount => "NEGATIVE_RUN_COUNT"
  | .capacityLessThanRunCount => "CAPACITY_LESS_THAN_RUN_COUNT"
  | .nullValuesLength => "NULL_VALUES_LENGTH"
  | .runOverlap => "RUN_OVERLAP"
  | .runOverflow => "RUN_OVERFLOW"
  | .runsNotMerged => "RUNS_NOT_MERGED"
  | .badRange => "BAD_RANGE"

def all : List ContainerCode :=
  [.bitmapViolation, .unknownContainerType, .negativeCardinality, .tooBigCardinality,
    .cardinalityExceedsCapacity, .nullContent, .nonIncreasingValues, .nullBitmap,
    .invalidBitmapLength, .invalidCardinality, .negativeRunCount, .capacityLessThanRunCount,
    .nullValuesLength, .runOverlap, .runOverflow, .runsNotMerged, .badRange]

end ContainerCode

end Roaring.Validation
