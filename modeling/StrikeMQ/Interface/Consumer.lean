import StrikeMQ.Interface.StoredBatch

/-!
# A consumer that reads a partition from its start

The client the log is made for: it fetches from its position, takes the returned bytes
apart along the batch lengths in their headers, and moves its position behind the last
batch it got. Producers append to the same log between its fetches. `appended` and
`received` are the history of the run; neither the log nor the consumer looks at them.
-/

set_option autoImplicit false

namespace StrikeMQ.Interface

open StrikeMQ.Lib StrikeMQ.Model

/-- The batches of a fetched byte range, cut along the batch lengths at byte 8 of each. -/
def splitBatches : ℕ → Bytes → List Bytes
  | 0, _ => []
  | fuel + 1, data =>
    if 12 ≤ data.length then
      let total := 12 + (intOfBe (slice data 8 4)).toNat
      data.take total :: splitBatches fuel (data.drop total)
    else []

/-- Every batch takes at least 12 bytes, so the number of bytes bounds the number of cuts. -/
def batchesOf (data : Bytes) : List Bytes :=
  splitBatches data.length data

/-- The position behind the last of the fetched batches: its base offset plus its record
count. -/
def nextPosition (position : ℤ) (batches : List Bytes) : ℤ :=
  match batches.getLast? with
  | none => position
  | some b => intOfBe (slice b 0 8) + intOfBe (slice b 57 4)

structure Consumer where
  log : PartitionLog
  position : ℤ := 0
  received : List Bytes := []
  appended : List (ℤ × Bytes) := []

inductive ConsumerEvent where
  | append (batch : RecordBatch)
  | fetch (maxBytes : ℤ)

namespace Consumer

/-- The bytes a fetch returns. -/
def fetched (c : Consumer) (maxBytes : ℤ) : Bytes :=
  ((c.log.read c.position maxBytes).data).getD []

def fetch (c : Consumer) (maxBytes : ℤ) : Consumer :=
  let batches := batchesOf (c.fetched maxBytes)
  { c with
    position := nextPosition c.position batches
    received := c.received ++ batches }

/-- One event of a run; an `append` has no outcome where the serializer has none. -/
def step (c : Consumer) : ConsumerEvent → Option Consumer
  | .append batch => do
    let (log, stored) ← c.log.appendAll [batch]
    return { c with log := log, appended := c.appended ++ stored }
  | .fetch maxBytes => some (c.fetch maxBytes)

def run (c : Consumer) (events : List ConsumerEvent) : Option Consumer :=
  events.foldlM step c

/-- A fetch at this point of the run stays within the log's 32-bit sizes. -/
def Fits (c : Consumer) : ConsumerEvent → Prop
  | .append _ => True
  | .fetch maxBytes => FetchFits maxBytes (batchesFrom c.appended c.position)

/-- Every fetch of the run does. -/
def RunFits : Consumer → List ConsumerEvent → Prop
  | _, [] => True
  | c, e :: es => c.Fits e ∧ ∀ c', c.step e = some c' → RunFits c' es

/-- What the consumer is promised about a fetch: whole batches; together with what it has,
a leading part of what was appended; no more than it takes to reach `maxBytes`; and nothing
only at the end of the log. -/
structure ExactFetch (c : Consumer) (maxBytes : ℤ) : Prop where
  whole : c.fetched maxBytes = (batchesOf (c.fetched maxBytes)).flatten
  in_order : c.received ++ batchesOf (c.fetched maxBytes) <+: c.appended.map Prod.snd
  bounded : 2 ≤ (batchesOf (c.fetched maxBytes)).length →
    ((batchesOf (c.fetched maxBytes)).dropLast.flatten.length : ℤ) < maxBytes
  progress : c.fetched maxBytes = [] → c.position = c.log.nextOffset

end Consumer

end StrikeMQ.Interface
