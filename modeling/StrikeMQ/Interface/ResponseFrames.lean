import StrikeMQ.Lib.WireFormat
import StrikeMQ.Model.RequestRouter

/-!
# Requests and their answers on the wire

A client finds the answers to its requests in one stream of bytes. It takes the stream apart by
the lengths in it and tells from the correlation id which request an answer belongs to.
-/

set_option autoImplicit false

namespace StrikeMQ.Interface

open StrikeMQ.Lib StrikeMQ.Model

/-- A request frame in the memory from which the router reads it, long enough for the key, the
version and the correlation id. -/
structure RequestFrame where
  memory : Memory
  bytes : Bytes
  holds : memory.Holds bytes
  header_le : 8 ≤ bytes.length

/-- The correlation id as it stands in the request. -/
def RequestFrame.correlationId (f : RequestFrame) : Bytes :=
  slice f.bytes 4 4

/-- The responses to frames that are routed one after the other, each in the state that the
handler before it left. -/
def respondAll {σ : Type} (hs : Handlers σ) (cap : ℕ) : List RequestFrame → σ → Option (List Bytes)
  | [], _ => some []
  | f :: fs, s =>
    match RequestRouter.routeRequest hs f.memory f.bytes.length cap s with
    | none => none
    | some out => (respondAll hs cap fs out.state).map (out.response :: ·)

/-- The response says how long it is and which request it answers. -/
structure Answers (f : RequestFrame) (response : Bytes) : Prop where
  length_ge : 8 ≤ response.length
  size_eq : intOfBe (slice response 0 4) = response.length - 4
  correlationId_eq : slice response 4 4 = f.correlationId

end StrikeMQ.Interface
