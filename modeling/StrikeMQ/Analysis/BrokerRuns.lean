import StrikeMQ.Analysis.RestRouting
import StrikeMQ.Analysis.ShardedDirectory

/-!
# Invariants of the logs of a broker

Both routers hand a request to one of their handlers and change nothing else, so what every
handler keeps, they keep (`RouterKeeps.dispatch`, `RestKeeps.routeRequest`). On the broker's logs
the handlers do only two things: they create a log, and they append to one. A property of logs
that a new log has and that `append` keeps therefore holds for every log of every reachable
broker (`reachable_logs`).
-/

set_option autoImplicit false

namespace StrikeMQ.Analysis.BrokerRuns

open StrikeMQ.Lib StrikeMQ.Model StrikeMQ.Interface StrikeMQ.Analysis.RestRouting
open StrikeMQ.Analysis.ShardedDirectory (eraseRounds eraseRounds_succ)

/-! ## The two routers -/

section Routers

variable {σ ρ τ : Type} {I : σ → Prop}

def Keeps (I : σ → Prop) (f : ρ → σ → τ × σ) : Prop :=
  ∀ q s, I s → I (f q s).2

/-- Every handler that is set keeps `I`. -/
structure RouterKeeps (I : σ → Prop) (hs : Handlers σ) : Prop where
  produce : ∀ f ∈ hs.produce, Keeps I f
  fetch : ∀ f ∈ hs.fetch, Keeps I f
  metadata : ∀ f ∈ hs.metadata, Keeps I f
  listOffsets : ∀ f ∈ hs.listOffsets, Keeps I f
  findCoordinator : ∀ f ∈ hs.findCoordinator, Keeps I f
  joinGroup : ∀ f ∈ hs.joinGroup, Keeps I f
  syncGroup : ∀ f ∈ hs.syncGroup, Keeps I f
  heartbeat : ∀ f ∈ hs.heartbeat, Keeps I f
  leaveGroup : ∀ f ∈ hs.leaveGroup, Keeps I f
  offsetCommit : ∀ f ∈ hs.offsetCommit, Keeps I f
  offsetFetch : ∀ f ∈ hs.offsetFetch, Keeps I f

theorem keeps_call {handler : Option (ρ → σ → τ × σ)} (h : ∀ f ∈ handler, Keeps I f)
    (body : Request) (q : ρ) (encode : τ → Bytes) {s : σ} (hs : I s) :
    I (RequestRouter.call handler body q encode s).state := by
  cases handler with
  | none => exact hs
  | some f => exact h f rfl q s hs

/-- INTERNAL: what every handler keeps is kept by routing a request. -/
theorem RouterKeeps.dispatch {hs : Handlers σ} (h : RouterKeeps I hs) (cap : ℕ) (r : RoutedRequest)
    {s : σ} (hI : I s) : I (RequestRouter.dispatch hs cap r s).state := by
  obtain ⟨cid, v, body⟩ := r
  cases body with
  | apiVersions => exact hI
  | produce q => exact keeps_call h.produce _ q _ hI
  | listOffsets q => exact keeps_call h.listOffsets _ q _ hI
  | fetch q => exact keeps_call h.fetch _ q _ hI
  | metadata q => exact keeps_call h.metadata _ q _ hI
  | findCoordinator q => exact keeps_call h.findCoordinator _ q _ hI
  | joinGroup q => exact keeps_call h.joinGroup _ q _ hI
  | syncGroup q => exact keeps_call h.syncGroup _ q _ hI
  | heartbeat q => exact keeps_call h.heartbeat _ q _ hI
  | leaveGroup q => exact keeps_call h.leaveGroup _ q _ hI
  | offsetCommit q => exact keeps_call h.offsetCommit _ q _ hI
  | offsetFetch q => exact keeps_call h.offsetFetch _ q _ hI
  | unsupported => exact hI

/-- Every handler of the REST interface keeps `I`. -/
structure RestKeeps (I : σ → Prop) (hs : HttpHandlers σ) : Prop where
  getBroker : Keeps I hs.getBroker
  getTopics : Keeps I hs.getTopics
  getTopic : ∀ name, Keeps I (hs.getTopic name)
  deleteTopic : ∀ name, Keeps I (hs.deleteTopic name)
  getMessages : ∀ name, Keeps I (hs.getMessages name)
  postMessages : ∀ name, Keeps I (hs.postMessages name)
  getGroups : Keeps I hs.getGroups
  getGroup : ∀ id, Keeps I (hs.getGroup id)

/-- INTERNAL: what every REST handler keeps is kept by routing a request. -/
theorem RestKeeps.routeRequest {hs : HttpHandlers σ} (h : RestKeeps I hs) :
    Keeps I (HttpServer.routeRequest hs) := by
  intro req s hI
  rcases routeRequest_cases hs req s with ⟨name, -, hroute⟩ | ⟨-, helse⟩
  · rw [hroute, routeMessages]
    split
    · exact h.getMessages name req s hI
    · split
      · exact h.postMessages name req s hI
      · exact hI
  · generalize HttpServer.routeRequest hs req s = r at helse
    cases helse with
    | answer resp => exact hI
    | getBroker => exact h.getBroker req s hI
    | getTopics => exact h.getTopics req s hI
    | getTopic name => exact h.getTopic name req s hI
    | deleteTopic name => exact h.deleteTopic name req s hI
    | getGroups => exact h.getGroups req s hI
    | getGroup id => exact h.getGroup id req s hI

end Routers

/-! ## The logs of a broker -/

/-- Every log of the broker satisfies `P`, and so would the logs that it creates. -/
structure AllLogs (P : PartitionLog → Prop) (b : Broker) : Prop where
  segmentSize : b.config.segmentSize = 1073741824
  logs : ∀ tp log, b.shardedLogs.find tp = some log → P log

/-- The same of a state that may have lost its meaning. -/
def OnLogs (P : PartitionLog → Prop) (s : Option Broker) : Prop :=
  ∀ b, s = some b → AllLogs P b

section Logs

variable {P : PartitionLog → Prop} {b : Broker}

theorem AllLogs.onLogs (h : AllLogs P b) : OnLogs P (some b) := by
  rintro _ ⟨⟩
  exact h

theorem onLogs_none : OnLogs P none := by
  rintro _ ⟨⟩

theorem AllLogs.put (h : AllLogs P b) {b' : Broker} (hconfig : b'.config = b.config)
    {tp : TopicPartition} {log : PartitionLog} (hlog : P log)
    (hlogs : b'.shardedLogs = b.shardedLogs.put tp log) : AllLogs P b' where
  segmentSize := by rw [hconfig, h.segmentSize]
  logs tp' log' hfind := by
    rw [hlogs] at hfind
    by_cases htp : tp' = tp
    · subst htp
      rw [ShardedLogMap.find_put_self] at hfind
      exact Option.some.inj hfind ▸ hlog
    · rw [ShardedLogMap.find_put_ne _ htp] at hfind
      exact h.logs tp' log' hfind

/-- A handler that does not change the logs keeps what is true of them. -/
theorem AllLogs.of_eq (h : AllLogs P b) {b' : Broker} (hconfig : b'.config = b.config)
    (hlogs : b'.shardedLogs = b.shardedLogs) : AllLogs P b' where
  segmentSize := by rw [hconfig, h.segmentSize]
  logs tp log hfind := h.logs tp log (hlogs ▸ hfind)

theorem keeps_onDefined {ρ τ : Type} {dflt : τ} {f : ρ → Broker → τ × Broker}
    (h : ∀ q b, AllLogs P b → AllLogs P (f q b).2) :
    Keeps (OnLogs P) (Broker.onDefined dflt f) := by
  intro q s hs
  cases s with
  | none => exact onLogs_none
  | some b => exact (h q b (hs b rfl)).onLogs

variable (hcreate : ∀ tp dir, P (.create tp dir 1073741824))
  (happend : ∀ {log log' : PartitionLog} {batch : RecordBatch} {offset : ℤ}, P log →
    log.append batch = some (log', offset) → P log')

include hcreate in
/-- INTERNAL: `P` holds of a log that is found or created, and still of all logs. -/
theorem AllLogs.getOrCreateLog (h : AllLogs P b) (tp : TopicPartition) :
    P (b.getOrCreateLog tp).1 ∧ AllLogs P (b.getOrCreateLog tp).2 := by
  unfold Broker.getOrCreateLog ShardedLogMap.getOrCreate
  cases hfind : b.shardedLogs.find tp with
  | some log => exact ⟨h.logs tp log hfind, h.of_eq rfl rfl⟩
  | none =>
    have hnew : P (.create tp b.config.logDir b.config.segmentSize) := by
      rw [h.segmentSize]
      exact hcreate tp _
    exact ⟨hnew, h.put rfl hnew rfl⟩

include hcreate happend in
/-- INTERNAL: appending a batch keeps `P` of every log. -/
theorem onLogs_produceBatch (batch : RecordBatch) {s : Option Broker} (hs : OnLogs P s) :
    OnLogs P (Broker.produceBatch batch s).2 := by
  cases s with
  | none => exact onLogs_none
  | some b =>
    obtain ⟨hlog, hlogs⟩ := AllLogs.getOrCreateLog hcreate (hs b rfl) batch.topicPartition
    obtain ⟨log, b', hget⟩ : ∃ log b', b.getOrCreateLog batch.topicPartition = (log, b') :=
      ⟨_, _, rfl⟩
    rw [hget] at hlog hlogs
    simp only [Broker.produceBatch, hget]
    cases happ : log.append batch with
    | none => exact onLogs_none
    | some out =>
      obtain ⟨log', offset⟩ := out
      apply AllLogs.onLogs
      exact hlogs.put rfl (happend hlog happ) rfl

include hcreate happend in
theorem onLogs_produceBatches (batches : List RecordBatch) {s : Option Broker} (hs : OnLogs P s) :
    OnLogs P (Broker.produceBatches batches s).2 := by
  induction batches generalizing s with
  | nil => exact hs
  | cons batch batches ih => exact ih (onLogs_produceBatch hcreate happend batch hs)

include hcreate in
/-- INTERNAL: so does creating the logs of the topics that are asked for. -/
theorem AllLogs.metadata (h : AllLogs P b) (requested : List Bytes) :
    AllLogs P (Broker.metadata requested b).2 := by
  show AllLogs P (requested.foldl (fun b topic => (b.getOrCreateLog ⟨topic, 0⟩).2) b)
  induction requested generalizing b with
  | nil => exact h
  | cons topic requested ih => exact ih (AllLogs.getOrCreateLog hcreate h ⟨topic, 0⟩).2

include hcreate happend in
/-- INTERNAL: every handler of the router keeps `P` of every log. -/
theorem routerKeeps_handlers (env : GroupEnv) :
    RouterKeeps (OnLogs P) (Broker.handlers env) where
  produce f hf q s hs := by
    obtain rfl := Option.some.inj hf
    exact onLogs_produceBatches hcreate happend q.batches hs
  fetch f hf := by
    obtain rfl := Option.some.inj hf
    exact keeps_onDefined fun _ _ h => h
  metadata f hf := by
    obtain rfl := Option.some.inj hf
    exact keeps_onDefined fun q _ h => AllLogs.metadata hcreate h q
  listOffsets f hf := by
    obtain rfl := Option.some.inj hf
    exact keeps_onDefined fun _ _ h => h
  findCoordinator f hf := by
    obtain rfl := Option.some.inj hf
    exact keeps_onDefined fun _ _ h => h
  joinGroup f hf := by
    obtain rfl := Option.some.inj hf
    exact keeps_onDefined fun _ _ h => h.of_eq rfl rfl
  syncGroup f hf := by
    obtain rfl := Option.some.inj hf
    exact keeps_onDefined fun _ _ h => h.of_eq rfl rfl
  heartbeat f hf := by
    obtain rfl := Option.some.inj hf
    exact keeps_onDefined fun _ _ h => h.of_eq rfl rfl
  leaveGroup f hf := by
    obtain rfl := Option.some.inj hf
    exact keeps_onDefined fun _ _ h => h.of_eq rfl rfl
  offsetCommit f hf := by
    obtain rfl := Option.some.inj hf
    exact keeps_onDefined fun _ _ h => h.of_eq rfl rfl
  offsetFetch f hf := by
    obtain rfl := Option.some.inj hf
    exact keeps_onDefined fun _ _ h => h

/-! ## Deletions -/

/-- INTERNAL: what one round of `erase_if` leaves was there before. -/
theorem find_of_find_eraseShard {n : ℕ} {m : ShardedLogMap n}
    {pred : TopicPartition → PartitionLog → Bool} {i : ℕ} {tp : TopicPartition}
    {log : PartitionLog} (h : (m.eraseShard pred i).2.find tp = some log) :
    m.find tp = some log := by
  unfold ShardedLogMap.find at h ⊢
  by_cases hi : ShardedLogMap.shardFor n tp = i
  · simp only [ShardedLogMap.eraseShard, hi, Function.update_self] at h
    rw [hi]
    exact lookup_foldl_erase h
  · simp only [ShardedLogMap.eraseShard, Function.update_of_ne hi] at h
    exact h

/-- INTERNAL: what `erase_if` leaves was there before. -/
theorem find_of_find_eraseIf {n : ℕ} {m : ShardedLogMap n}
    {pred : TopicPartition → PartitionLog → Bool} {tp : TopicPartition} {log : PartitionLog}
    (h : (m.eraseIf pred).2.find tp = some log) : m.find tp = some log := by
  have hrounds : ∀ k, (eraseRounds pred m k).2.find tp = some log → m.find tp = some log := by
    intro k
    induction k with
    | zero => exact id
    | succ k ih =>
      intro hk
      rw [eraseRounds_succ] at hk
      exact ih (find_of_find_eraseShard hk)
  exact hrounds n h

/-- INTERNAL: deleting a topic only takes logs away. -/
theorem allLogs_broker_delete {s : Storage} (h : AllLogs P s.broker) (name : Bytes)
    (req : HttpRequest) : AllLogs P (s.handleDeleteTopic name req).2.broker := by
  have hfind : ∀ tp log, (s.broker.shardedLogs.eraseIf fun tp _ => tp.topic = name).2.find tp =
      some log → P log := fun tp log hlog => h.logs tp log (find_of_find_eraseIf hlog)
  unfold Storage.handleDeleteTopic
  -- the map without the topic stays abstract: its 64 rounds must not be run
  generalize (s.broker.shardedLogs.eraseIf fun tp _ => decide (tp.topic = name)) = r at hfind ⊢
  obtain ⟨erased, logs⟩ := r
  by_cases hnone : erased = []
  · simp only [hnone, if_true]
    exact ⟨h.segmentSize, hfind⟩
  · simp only [hnone, if_false]
    exact ⟨h.segmentSize, hfind⟩

theorem AllLogs.handleDeleteTopic (h : AllLogs P b) (name : Bytes) (req : HttpRequest) :
    AllLogs P (b.handleDeleteTopic name req).2 := by
  have hbroker := allLogs_broker_delete (s := { broker := b }) h name req
  unfold Broker.handleDeleteTopic
  generalize Storage.handleDeleteTopic name req { broker := b } = r at hbroker ⊢
  exact hbroker

/-! ## The REST interface -/

include hcreate happend in
/-- INTERNAL: appending a posted batch keeps `P` of every log. -/
theorem AllLogs.postBatch (h : AllLogs P b) (batch : RecordBatch) :
    OnLogs P (b.postBatch batch).2 := by
  obtain ⟨hlog, hlogs⟩ := AllLogs.getOrCreateLog hcreate h batch.topicPartition
  obtain ⟨log, b', hget⟩ : ∃ log b', b.getOrCreateLog batch.topicPartition = (log, b') :=
    ⟨_, _, rfl⟩
  rw [hget] at hlog hlogs
  simp only [Broker.postBatch, hget]
  cases happ : log.append batch with
  | none => exact onLogs_none
  | some out =>
    apply AllLogs.onLogs
    exact hlogs.put rfl (happend hlog happ) rfl

include hcreate happend in
/-- INTERNAL: so does the handler of POST. -/
theorem keeps_handlePostMessages (now : ℤ) (name : Bytes) :
    Keeps (OnLogs P) (Broker.handlePostMessages now name) := by
  intro req s hs
  cases s with
  | none => exact onLogs_none
  | some b =>
    simp only [Broker.handlePostMessages]
    split
    · exact hs
    · split
      · exact hs
      · cases HttpServer.partitionParam req with
        | none => exact onLogs_none
        | some partition => exact AllLogs.postBatch hcreate happend (hs b rfl) _

/-- INTERNAL: the handler of GET changes no log. -/
theorem keeps_handleGetMessages (name : Bytes) :
    Keeps (OnLogs P) (Broker.handleGetMessages name) := by
  intro req s hs
  cases s with
  | none => exact onLogs_none
  | some b =>
    simp only [Broker.handleGetMessages]
    split
    · exact onLogs_none
    · exact hs

theorem keeps_handleDeleteTopic (name : Bytes) :
    Keeps (OnLogs P) (Broker.onDefined ({} : HttpResponse) (Broker.handleDeleteTopic name)) := by
  apply keeps_onDefined
  intro req b h
  exact h.handleDeleteTopic name req

theorem keeps_answer (f : Broker → HttpResponse) : Keeps (OnLogs P) (Broker.answer f) :=
  keeps_onDefined fun _ _ h => h

include hcreate happend in
/-- INTERNAL: every REST handler keeps `P` of every log. -/
theorem restKeeps_handlers (env : RestEnv) : RestKeeps (OnLogs P) (Broker.restHandlers env) where
  getBroker := keeps_answer _
  getTopics := keeps_answer _
  getTopic _ := keeps_answer _
  deleteTopic := keeps_handleDeleteTopic
  getMessages := keeps_handleGetMessages
  postMessages := keeps_handlePostMessages hcreate happend env.now
  getGroups := keeps_answer _
  getGroup _ := keeps_answer _

include hcreate happend in
/-- PROPERTY: **what a new log has and `append` keeps holds for every log of a reachable broker.**
SOURCE: main.cpp:24-214 -/
theorem reachable_logs (h : Reachable b) : AllLogs P b := by
  induction h with
  | start =>
    refine ⟨rfl, fun tp log hfind => ?_⟩
    have hnone : ({} : ShardedLogMap 64).find tp = none := AList.lookup_empty tp
    exact absurd (hnone.symm.trans hfind) (Option.some_ne_none log).symm
  | @frame b b' env frame _ hstep ih =>
    unfold Broker.route RequestRouter.routeRequest at hstep
    cases hdecode : (RequestRouter.decodeRequest (Broker.handlers env).metadata.isSome).run
        (Memory.ofBytes frame) { length := frame.length } with
    | none =>
      rw [hdecode] at hstep
      cases hstep
    | some r =>
      rw [hdecode, Option.map_some] at hstep
      have hkept := (routerKeeps_handlers hcreate happend env).dispatch 65536 r.1 ih.onLogs
      exact hkept b' hstep
  | @request b b' env req _ hstep ih =>
    have hkept := (restKeeps_handlers hcreate happend env).routeRequest req (some b) ih.onLogs
    exact hkept b' hstep

end Logs

end StrikeMQ.Analysis.BrokerRuns
