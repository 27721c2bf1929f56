import StrikeMQ.Lib.FilePath
import StrikeMQ.Model.HttpRoutes

/-!
# Deleting a topic

`HttpServer::handle_delete_topic`: the topic's partitions are taken out of the map, and then the
directory of each is removed with everything in it. The directory is found by its path, which is
put together once more from topic and partition.

The tree of directories is the locations in it. Removing a directory that is there succeeds; one
that is not there is left out without an error. There are no links in the tree. A name that
comes from the router has no slash, so that of a path that is removed only the part of the log
directory is walked through.
-/

set_option autoImplicit false

namespace StrikeMQ.Model

open StrikeMQ.Lib

/-- The broker, the tree its logs are in, and the location that relative paths start from. -/
structure Storage where
  broker : Broker := {}
  cwd : Location := []
  dirs : List Location := []

/-- SOURCE: http/http_server.cpp:682 -/
def partitionPath (logDir : Bytes) (tp : TopicPartition) : Bytes :=
  logDir ++ ascii "/" ++ tp.topic ++ ascii "-" ++ decimal tp.partition

/-- SOURCE: http/http_server.cpp:696-700 -/
def HttpServer.deletedResponse (name : Bytes) (removed : ℕ) : HttpResponse where
  body :=
    let j := ({} : JsonWriter).objectBegin
    let j := (j.key (ascii "deleted")).string name
    let j := (j.key (ascii "partitions_removed")).number (toInt32 removed)
    j.objectEnd.buf

namespace Storage

/-- SOURCE: http/http_server.cpp:680-685 -/
def removePartitions (s : Storage) (erased : List TopicPartition) : List Location :=
  erased.foldl
    (fun dirs tp => removeAll dirs (resolve s.cwd (partitionPath s.broker.config.logDir tp))) s.dirs

/-- SOURCE: http/http_server.cpp:666-701 -/
def handleDeleteTopic (name : Bytes) (_req : HttpRequest) (s : Storage) :
    HttpResponse × Storage :=
  let (erased, logs) := s.broker.shardedLogs.eraseIf fun tp _ => tp.topic = name
  let broker := { s.broker with shardedLogs := logs }
  if erased = [] then
    (HttpServer.errorResponse 404 (ascii "Not Found") (ascii "Topic not found"),
      { s with broker := broker })
  else
    (HttpServer.deletedResponse name erased.length,
      { s with broker := broker.removeTopic name, dirs := s.removePartitions erased })

end Storage

end StrikeMQ.Model
