import StrikeMQ.Interface.TopicRequests
import StrikeMQ.Analysis.RequestTarget
import StrikeMQ.Analysis.RestRouting

/-!
# Requests that reach the topic they name

The path of a request is decoded as a whole before the router looks for slashes in it, so a slash
of the name counts like one that separates. At the end of the name it is cut off, and the request
goes to the topic without it; anywhere else what follows is taken for what is asked of the topic
before it. A name without a slash is reached.
-/

set_option autoImplicit false

namespace StrikeMQ.Analysis.TopicRouting

open StrikeMQ.Lib StrikeMQ.Model StrikeMQ.Model.HttpServer StrikeMQ.Interface
open StrikeMQ.Analysis.RequestTarget StrikeMQ.Analysis.RestRouting

/-! ## The path -/

/-- INTERNAL: what stands before the `?` is decoded to the path. -/
theorem parseUri_queryPart {text path : Bytes} (hmark : (0x3f : UInt8) ∉ text)
    (hdecode : urlDecode text = path) (req : HttpRequest) (query : Option QueryText) :
    ∃ params, parseUri req (text ++ queryPart query) =
      { req with path := path, queryParams := params } := by
  cases query with
  | none =>
    refine ⟨req.queryParams, ?_⟩
    rw [queryPart, List.append_nil, parseUri, findSub_unsplit hmark]
    dsimp only
    rw [hdecode]
  | some q =>
    refine ⟨parseQuery q.val.length q.val req.queryParams, ?_⟩
    rw [queryPart, parseUri, findSub_split hmark]
    dsimp only
    rw [List.take_left, drop_split, hdecode]

/-- INTERNAL: **the path of a topic's line is the name as it is**, between what is written around
it. -/
theorem parseRequestLine_topicLine (style : UriStyle) (query : Option QueryText)
    {method below : Bytes} (hmethod : (0x20 : UInt8) ∉ method)
    (hbelow : ∀ c ∈ below, Unreserved c ∨ c = 0x2f) (name : Bytes) :
    ∃ params, parseRequestLine (topicLine style query method name below) =
      some { method := method, path := ascii "/v1/topics/" ++ name ++ below
             queryParams := params } := by
  have htopics : style.encode true (ascii "/v1/topics/") = ascii "/v1/topics/" :=
    encode_of_kept style (by decide +kernel)
  have hkept : style.encode true below = below := encode_of_kept style hbelow
  generalize htext : ascii "/v1/topics/" ++ style.encode false name ++ below = text
  have hnot : ∀ x ∈ separators, x ∉ text := by
    intro x hx
    rw [← htext, ← htopics, ← hkept, List.mem_append, List.mem_append, not_or, not_or]
    exact ⟨⟨separator_notMem_encode _ _ hx _, separator_notMem_encode _ _ hx _⟩,
      separator_notMem_encode _ _ hx _⟩
  have hdecode : urlDecode text = ascii "/v1/topics/" ++ name ++ below := by
    rw [← htext, ← htopics, ← hkept, List.append_assoc, urlDecode_encode_append,
      urlDecode_encode_append, urlDecode_encode, htopics, hkept, List.append_assoc]
  obtain ⟨params, hparse⟩ :=
    parseUri_queryPart (hnot 0x3f (by decide)) hdecode { method := method } query
  have hspace : (0x20 : UInt8) ∉ text ++ queryPart query := by
    rw [List.mem_append, not_or]
    refine ⟨hnot 0x20 (by decide), ?_⟩
    cases query with
    | none => exact List.not_mem_nil
    | some q => exact List.not_mem_cons_of_ne_of_not_mem (by decide) q.2
  refine ⟨params, ?_⟩
  rw [topicLine, htext, parseRequestLine, findSub_split hmethod]
  simp only [Option.bind_eq_bind, Option.bind_some, drop_split, List.take_left,
    findSub_split hspace, hparse]
  rfl

/-! ## Names without a slash -/

/-- INTERNAL: a topic's path has no slash to strip. -/
theorem stripped_topic {name : Bytes} (hname : name ≠ []) (hslash : (0x2f : UInt8) ∉ name) :
    stripped (ascii "/v1/topics/" ++ name) = ascii "/v1/topics/" ++ name := by
  apply stripped_of_getLast?
  rw [List.getLast?_append_of_ne_nil _ hname]
  intro hlast
  exact hslash (List.mem_of_getLast? hlast)

theorem stripped_messages (name : Bytes) :
    stripped (ascii "/v1/topics/" ++ name ++ ascii "/messages") =
      ascii "/v1/topics/" ++ name ++ ascii "/messages" := by
  apply stripped_of_getLast?
  rw [List.getLast?_append_of_ne_nil _ (by decide)]
  decide

variable {σ : Type}

/-- INTERNAL: a topic's path is routed by its method. -/
theorem routeTopic_name (hs : HttpHandlers σ) {name : Bytes} (hslash : (0x2f : UInt8) ∉ name)
    (req : HttpRequest) (s : σ) :
    routeTopic hs name req s =
      if req.method = ascii "GET" then some (hs.getTopic name req s)
      else if req.method = ascii "DELETE" then some (hs.deleteTopic name req s)
      else some (methodNotAllowed, s) := by
  rw [routeTopic, findSub_unsplit hslash]

/-- INTERNAL: the path of its messages goes to their routes. -/
theorem routeTopic_messages (hs : HttpHandlers σ) {name : Bytes} (hslash : (0x2f : UInt8) ∉ name)
    (req : HttpRequest) (s : σ) :
    routeTopic hs (name ++ ascii "/messages") req s = some (routeMessages hs name req s) := by
  have hmessages : ascii "/messages" = 0x2f :: ascii "messages" := by decide
  rw [hmessages, routeTopic, findSub_split hslash]
  dsimp only
  rw [List.take_left, drop_split, if_pos rfl, routeMessages]
  split
  · rfl
  · split
    · rfl
    · rfl

/-! ## Names with a slash -/

/-- Handlers that remember the topic that was asked for. -/
def recorder : HttpHandlers (Option Bytes) where
  getBroker _ s := ({}, s)
  getTopics _ s := ({}, s)
  getTopic name _ _ := ({}, some name)
  deleteTopic _ _ s := ({}, s)
  getMessages _ _ s := ({}, s)
  postMessages _ _ s := ({}, s)
  getGroups _ s := ({}, s)
  getGroup _ _ s := ({}, s)

/-- INTERNAL: no topic with a slash in its name is ever asked for. -/
theorem recorded_of_routeTopic {after : Bytes} {req : HttpRequest} {name : Bytes}
    (h : ((routeTopic recorder after req none).getD (notFound, none)).2 = some name) :
    (0x2f : UInt8) ∉ name := by
  unfold routeTopic at h
  cases hslash : findSub [0x2f] after with
  | some slash =>
    rw [hslash] at h
    dsimp only at h
    split at h
    · split at h
      · cases h
      · split at h <;> cases h
    · cases h
  | none =>
    rw [hslash] at h
    dsimp only at h
    split at h
    · obtain rfl := Option.some.inj h
      intro hmem
      obtain ⟨front, back, rfl, hfront⟩ := List.eq_append_cons_of_mem hmem
      rw [findSub_split hfront] at hslash
      cases hslash
    · split at h <;> cases h

/-- INTERNAL: the path of a topic stays below `/v1/topics/`, also without its last slash. -/
theorem exists_stripped_topic {name : Bytes} (hname : name ≠ []) :
    ∃ after, stripped (ascii "/v1/topics/" ++ name) = ascii "/v1/topics/" ++ after := by
  have hcases := stripped_cases (ascii "/v1/topics/" ++ name)
  generalize stripped (ascii "/v1/topics/" ++ name) = p at hcases ⊢
  rcases hcases with hpath | hpath
  · exact ⟨name, hpath.symm⟩
  · refine ⟨name.dropLast, ?_⟩
    rw [← List.dropLast_append_getLast hname, ← List.append_assoc] at hpath
    exact (List.append_inj_left' hpath rfl).symm

/-! ## The four requests -/

section Requests

variable (style : UriStyle) (query : Option QueryText) {name : Bytes}

/-- INTERNAL: a line is dispatched by the method and the path that are read from it. -/
theorem dispatches_topicLine {method below : Bytes} (hmethod : (0x20 : UInt8) ∉ method)
    (hbelow : ∀ c ∈ below, Unreserved c ∨ c = 0x2f)
    {handler : (σ : Type) → HttpHandlers σ → HttpRequest → σ → HttpResponse × σ}
    (hroute : ∀ (σ : Type) (hs : HttpHandlers σ) (req : HttpRequest) (s : σ),
      req.method = method → req.path = ascii "/v1/topics/" ++ name ++ below →
        routeRequest hs req s = handler σ hs req s) :
    Dispatches (topicLine style query method name below) handler := by
  obtain ⟨params, hparse⟩ := parseRequestLine_topicLine style query hmethod hbelow name
  exact ⟨_, hparse, fun headers body σ hs s => hroute σ hs _ s rfl rfl⟩

/-- INTERNAL: a request for a topic reaches the handler of its method. -/
theorem dispatches_name {method : Bytes} (hmethod : (0x20 : UInt8) ∉ method) (hname : name ≠ [])
    (hslash : (0x2f : UInt8) ∉ name)
    {handler : (σ : Type) → HttpHandlers σ → HttpRequest → σ → HttpResponse × σ}
    (hroute : ∀ (σ : Type) (hs : HttpHandlers σ) (req : HttpRequest) (s : σ),
      req.method = method → routeTopic hs name req s = some (handler σ hs req s)) :
    Dispatches (topicLine style query method name []) handler := by
  refine dispatches_topicLine style query hmethod (by simp) fun σ hs req s hreq hpath => ?_
  rw [List.append_nil] at hpath
  have hstripped : stripped req.path = ascii "/v1/topics/" ++ name := by
    rw [hpath, stripped_topic hname hslash]
  rw [routeRequest_topics hs s hstripped, hroute σ hs req s hreq, Option.getD_some]

/-- INTERNAL: so does one for its messages. -/
theorem dispatches_messages {method : Bytes} (hmethod : (0x20 : UInt8) ∉ method)
    (hslash : (0x2f : UInt8) ∉ name)
    {handler : (σ : Type) → HttpHandlers σ → HttpRequest → σ → HttpResponse × σ}
    (hroute : ∀ (σ : Type) (hs : HttpHandlers σ) (req : HttpRequest) (s : σ),
      req.method = method → routeMessages hs name req s = handler σ hs req s) :
    Dispatches (topicLine style query method name (ascii "/messages")) handler := by
  refine dispatches_topicLine style query hmethod (by decide +kernel) fun σ hs req s hreq hpath => ?_
  have hstripped : stripped req.path = ascii "/v1/topics/" ++ (name ++ ascii "/messages") := by
    rw [hpath, stripped_messages, List.append_assoc]
  rw [routeRequest_topics hs s hstripped, routeTopic_messages hs hslash, Option.getD_some,
    hroute σ hs req s hreq]

/-- INTERNAL: a topic that is asked for under its own name has no slash in it. -/
theorem slash_notMem_of_dispatches {method : Bytes} (hmethod : (0x20 : UInt8) ∉ method)
    (hname : name ≠ [])
    (h : Dispatches (topicLine style query method name []) fun _ hs => hs.getTopic name) :
    (0x2f : UInt8) ∉ name := by
  have hbelow : ∀ c ∈ ([] : Bytes), Unreserved c ∨ c = 0x2f := by simp
  obtain ⟨params, hparse⟩ := parseRequestLine_topicLine style query hmethod hbelow name
  obtain ⟨req, hreq, hroute⟩ := h
  obtain rfl := Option.some.inj (hreq.symm.trans hparse)
  have hrecord := hroute ∅ [] (Option Bytes) recorder none
  obtain ⟨after, hafter⟩ := exists_stripped_topic hname
  rw [← List.append_nil (ascii "/v1/topics/" ++ name)] at hafter
  rw [routeRequest_topics recorder none hafter] at hrecord
  exact recorded_of_routeTopic (congrArg Prod.snd hrecord)

/-- PROPERTY: **a request reaches the topic whose percent-encoded name it has, exactly if there is
no slash in the name**: a GET and a DELETE of the topic and a GET and a POST of its messages, for
every name that is not empty.
SOURCE: http/http_server.cpp:57-90, 453-549 -/
theorem dispatched_to_topic_iff (name : Bytes) (hname : name ≠ []) :
    (Dispatches (topicLine style query (ascii "GET") name []) (fun _ hs => hs.getTopic name) ∧
      Dispatches (topicLine style query (ascii "DELETE") name [])
        (fun _ hs => hs.deleteTopic name) ∧
      Dispatches (topicLine style query (ascii "GET") name (ascii "/messages"))
        (fun _ hs => hs.getMessages name) ∧
      Dispatches (topicLine style query (ascii "POST") name (ascii "/messages"))
        (fun _ hs => hs.postMessages name)) ↔
    (0x2f : UInt8) ∉ name := by
  constructor
  · rintro ⟨hget, -⟩
    exact slash_notMem_of_dispatches style query (by decide) hname hget
  · intro hslash
    refine ⟨?_, ?_, ?_, ?_⟩
    · refine dispatches_name style query (by decide) hname hslash fun σ hs req s hmethod => ?_
      rw [routeTopic_name hs hslash, if_pos hmethod]
    · refine dispatches_name style query (by decide) hname hslash fun σ hs req s hmethod => ?_
      rw [routeTopic_name hs hslash, hmethod, if_neg (by decide), if_pos rfl]
    · refine dispatches_messages style query (by decide) hslash fun σ hs req s hmethod => ?_
      rw [routeMessages, if_pos hmethod]
    · refine dispatches_messages style query (by decide) hslash fun σ hs req s hmethod => ?_
      rw [routeMessages, hmethod, if_neg (by decide), if_pos rfl]

end Requests

theorem dispatched_to_topic_iff_space :
    Dispatches (ascii "DELETE /v1/topics/a%20b HTTP/1.1") fun _ hs => hs.deleteTopic (ascii "a b") := by
  have hline : topicLine {} none (ascii "DELETE") (ascii "a b") [] =
      ascii "DELETE /v1/topics/a%20b HTTP/1.1" := by decide
  rw [← hline]
  exact ((dispatched_to_topic_iff {} none (ascii "a b") (by decide)).mpr (by decide)).2.1

/-- A topic whose name ends with a slash: the request to delete it deletes another topic. -/
theorem delete_reaches_other_topic :
    topicLine {} none (ascii "DELETE") (ascii "a/") [] =
        ascii "DELETE /v1/topics/a%2F HTTP/1.1" ∧
      Dispatches (ascii "DELETE /v1/topics/a%2F HTTP/1.1") (fun _ hs => hs.deleteTopic (ascii "a")) ∧
      ¬Dispatches (ascii "DELETE /v1/topics/a%2F HTTP/1.1")
        fun _ hs => hs.deleteTopic (ascii "a/") := by
  have hline : topicLine {} none (ascii "DELETE") (ascii "a/") [] =
      ascii "DELETE /v1/topics/a%2F HTTP/1.1" := by decide
  have hother : Dispatches (topicLine {} none (ascii "DELETE") (ascii "a/") [])
      fun _ hs => hs.deleteTopic (ascii "a") := by
    refine dispatches_topicLine {} none (by decide) (by simp) fun σ hs req s hmethod hpath => ?_
    have hstripped : stripped req.path = ascii "/v1/topics/" ++ ascii "a" := by
      rw [hpath]
      decide
    rw [routeRequest_topics hs s hstripped, routeTopic_name hs (by decide), hmethod,
      if_neg (by decide), if_pos rfl, Option.getD_some]
  rw [← hline]
  refine ⟨rfl, hother, ?_⟩
  rintro ⟨req, hreq, hroute⟩
  obtain ⟨req', hreq', hroute'⟩ := hother
  obtain rfl := Option.some.inj (hreq.symm.trans hreq')
  let deletions : HttpHandlers (Option Bytes) :=
    { recorder with deleteTopic := fun name _ _ => ({}, some name) }
  have hsame := (hroute ∅ [] (Option Bytes) deletions none).symm.trans
    (hroute' ∅ [] (Option Bytes) deletions none)
  have hnames : some (ascii "a/") = some (ascii "a") := congrArg Prod.snd hsame
  exact absurd hnames (by decide)

end StrikeMQ.Analysis.TopicRouting
