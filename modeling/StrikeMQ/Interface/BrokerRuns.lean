import StrikeMQ.Model.RestHandlers

/-!
# The states that requests lead a broker to

A broker starts without topics and groups and with the default configuration, which the program
has no way to change. From there on frames on the Kafka port and requests to the REST interface
are handled in any order, each at any time and with any draw of the random generator.
-/

set_option autoImplicit false

namespace StrikeMQ.Interface

open StrikeMQ.Lib StrikeMQ.Model

/-- SOURCE: main.cpp:24-214 -/
inductive Reachable : Broker → Prop
  | start : Reachable {}
  | frame {b b' : Broker} (env : GroupEnv) (frame : Bytes) (h : Reachable b)
    (hstep : (Broker.route env frame (some b)).2 = some b') : Reachable b'
  | request {b b' : Broker} (env : RestEnv) (req : HttpRequest) (h : Reachable b)
    (hstep : (Broker.restRoute env req (some b)).2 = some b') : Reachable b'

/-- The logs are as long as in a reachable broker, whatever bytes they hold: segments that are
mappings of one file overwrite each other, and no step changes more because of what is stored. -/
def ReachedUpToBytes (b : Broker) : Prop :=
  ∃ b₀, Reachable b₀ ∧ ∀ tp, (b.shardedLogs.find tp).map (fun log => log.activeSegment.size) =
    (b₀.shardedLogs.find tp).map fun log => log.activeSegment.size

end StrikeMQ.Interface
