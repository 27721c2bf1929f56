import StrikeMQ.Interface.RestRequests

/-!
# What the router of the REST interface chooses

The messages of a topic are reached by `MessagesPath` and by nothing else; every other path goes
to one of the other six handlers or is answered by the router itself.
-/

set_option autoImplicit false

namespace StrikeMQ.Analysis.RestRouting

open StrikeMQ.Lib StrikeMQ.Model StrikeMQ.Model.HttpServer StrikeMQ.Interface

variable {σ : Type}

/-- The path without a slash at the end.
SOURCE: http/http_server.cpp:456-458 -/
def stripped (path : Bytes) : Bytes :=
  if path.length > 1 ∧ path.getLast? = some 0x2f then path.dropLast else path

theorem stripped_cases (path : Bytes) :
    path = stripped path ∨ path = stripped path ++ [0x2f] := by
  unfold stripped
  by_cases h : path.length > 1 ∧ path.getLast? = some 0x2f
  · rw [if_pos h]
    exact .inr (List.dropLast_append_getLast? _ h.2).symm
  · rw [if_neg h]
    exact .inl rfl

theorem stripped_append_slash {p : Bytes} (h : p ≠ []) : stripped (p ++ [0x2f]) = p := by
  have hlen := List.length_pos_iff.mpr h
  unfold stripped
  rw [if_pos ⟨by rw [List.length_append, List.length_singleton]; omega, by simp⟩,
    List.dropLast_concat]

theorem stripped_of_getLast? {p : Bytes} (h : p.getLast? ≠ some 0x2f) : stripped p = p :=
  if_neg fun hslash => h hslash.2

/-- INTERNAL: the paths that the router takes for those of a topic's messages. -/
theorem messagesPath_iff {name path : Bytes} :
    MessagesPath name path ↔ (0x2f : UInt8) ∉ name ∧
      stripped path = ascii "/v1/topics/" ++ name ++ ascii "/messages" := by
  have hlast : ascii "/messages/" = ascii "/messages" ++ [0x2f] := by decide
  refine and_congr_right fun _ => ?_
  rw [hlast, ← List.append_assoc]
  generalize hp : ascii "/v1/topics/" ++ name ++ ascii "/messages" = p
  have hend : p.getLast? ≠ some 0x2f := by
    rw [← hp, List.getLast?_append_of_ne_nil _ (by decide)]
    decide
  have hne : p ≠ [] := by
    rw [← hp]
    exact List.append_ne_nil_of_right_ne_nil _ (by decide)
  constructor
  · rintro (rfl | rfl)
    · exact stripped_of_getLast? hend
    · exact stripped_append_slash hne
  · intro h
    rw [← h]
    exact stripped_cases path

theorem MessagesPath.unique {name name' path : Bytes} (h : MessagesPath name path)
    (h' : MessagesPath name' path) : name = name' := by
  have heq := (messagesPath_iff.mp h).2.symm.trans (messagesPath_iff.mp h').2
  exact List.append_cancel_left (List.append_cancel_right heq)

/-- What the router does with a path that is not the path of a topic's messages. -/
inductive Elsewhere (hs : HttpHandlers σ) (req : HttpRequest) (s : σ) : HttpResponse × σ → Prop
  | answer (resp : HttpResponse) : Elsewhere hs req s (resp, s)
  | getBroker : Elsewhere hs req s (hs.getBroker req s)
  | getTopics : Elsewhere hs req s (hs.getTopics req s)
  | getTopic (name : Bytes) : Elsewhere hs req s (hs.getTopic name req s)
  | deleteTopic (name : Bytes) : Elsewhere hs req s (hs.deleteTopic name req s)
  | getGroups : Elsewhere hs req s (hs.getGroups req s)
  | getGroup (id : Bytes) : Elsewhere hs req s (hs.getGroup id req s)

/-- What the router does with the messages of a topic.
SOURCE: http/http_server.cpp:493-506 -/
def routeMessages (hs : HttpHandlers σ) (name : Bytes) (req : HttpRequest) (s : σ) :
    HttpResponse × σ :=
  if req.method = ascii "GET" then hs.getMessages name req s
  else if req.method = ascii "POST" then hs.postMessages name req s
  else (methodNotAllowed, s)

theorem elsewhere_routeGroups (hs : HttpHandlers σ) (rest : Bytes) (req : HttpRequest) (s : σ) :
    Elsewhere hs req s (routeGroups hs rest req s) := by
  unfold routeGroups
  split
  · exact .getGroups
  · split
    · split
      · exact .getGroup _
      · exact .answer _
    · exact .answer _

/-- INTERNAL: a path below the topics is that of a topic's messages or goes elsewhere. -/
theorem routeTopic_cases (hs : HttpHandlers σ) (after : Bytes) (req : HttpRequest) (s : σ) :
    (∃ name, (0x2f : UInt8) ∉ name ∧ after = name ++ ascii "/messages" ∧
      routeTopic hs after req s = some (routeMessages hs name req s)) ∨
    ((¬∃ name, (0x2f : UInt8) ∉ name ∧ after = name ++ ascii "/messages") ∧
      ∀ r ∈ routeTopic hs after req s, Elsewhere hs req s r) := by
  have hmessages : ascii "/messages" = 0x2f :: ascii "messages" := by decide
  unfold routeTopic
  cases hslash : findSub [0x2f] after with
  | some slash =>
    obtain ⟨name, sub, rfl, hname, rfl⟩ := findSub_singleton_iff.mp hslash
    have htake : (name ++ 0x2f :: sub).take name.length = name := List.take_left
    have hdrop : (name ++ 0x2f :: sub).drop (name.length + 1) = sub := by simp
    simp only [htake, hdrop]
    by_cases hsub : sub = ascii "messages"
    · subst hsub
      refine .inl ⟨name, hname, by rw [hmessages], ?_⟩
      rw [if_pos rfl]
      unfold routeMessages
      split
      · rfl
      · split
        · rfl
        · rfl
    · rw [if_neg hsub]
      refine .inr ⟨?_, fun r hr => by cases hr⟩
      rintro ⟨name', hname', heq⟩
      rw [hmessages] at heq
      have hlen : name.length = name'.length := Option.some.inj
        (hslash.symm.trans (findSub_singleton_iff.mpr ⟨name', _, heq, hname', rfl⟩))
      exact hsub (List.cons.inj (List.append_inj heq hlen).2).2
  | none =>
    refine .inr ⟨?_, ?_⟩
    · rintro ⟨name, hname, rfl⟩
      rw [hmessages, findSub_singleton_iff.mpr ⟨name, _, rfl, hname, rfl⟩] at hslash
      cases hslash
    · intro r hr
      dsimp only at hr
      split at hr
      · obtain rfl := Option.some.inj hr
        exact .getTopic after
      · split at hr
        · obtain rfl := Option.some.inj hr
          exact .deleteTopic after
        · obtain rfl := Option.some.inj hr
          exact .answer _

/-- INTERNAL: a path below `/v1/topics/` goes to a topic or nowhere. -/
theorem routeRequest_topics (hs : HttpHandlers σ) {req : HttpRequest} (s : σ) {after : Bytes}
    (h : stripped req.path = ascii "/v1/topics/" ++ after) :
    routeRequest hs req s = (routeTopic hs after req s).getD (notFound, s) := by
  have hfront : ascii "/v1/topics/" = ascii "/v1/" ++ ascii "topics/" := by decide
  have hv1 : (ascii "/v1/" ++ (ascii "topics/" ++ after)).take 4 = ascii "/v1/" :=
    List.take_left' (by decide)
  have hrest : (ascii "/v1/" ++ (ascii "topics/" ++ after)).drop 4 = ascii "topics/" ++ after :=
    List.drop_left' (by decide)
  have htake : (ascii "topics/" ++ after).take 7 = ascii "topics/" := List.take_left' (by decide)
  have hafter : (ascii "topics/" ++ after).drop 7 = after := List.drop_left' (by decide)
  -- none of the other words of the router starts with `topics/`
  have hother : ∀ word : Bytes, word.take 7 ≠ ascii "topics/" → ascii "topics/" ++ after ≠ word :=
    fun word hword heq => hword (heq ▸ htake)
  have hgroups : routeGroups hs (ascii "topics/" ++ after) req s = (notFound, s) := by
    rw [routeGroups, if_neg fun h => hother (ascii "groups") (by decide) h.1, htake,
      if_neg (by decide)]
  rw [hfront, List.append_assoc] at h
  unfold stripped at h
  rw [routeRequest, h]
  dsimp only
  rw [if_neg (not_not.mpr hv1), hrest, if_neg fun h => hother (ascii "broker") (by decide) h.1,
    if_neg fun h => hother (ascii "topics") (by decide) h.1, if_pos htake, hafter, hgroups]
  cases routeTopic hs after req s with
  | some result => rfl
  | none => rfl

/-- INTERNAL: any other path goes elsewhere. -/
theorem elsewhere_of_not_topics (hs : HttpHandlers σ) {req : HttpRequest} (s : σ)
    (h : ∀ after, stripped req.path ≠ ascii "/v1/topics/" ++ after) :
    Elsewhere hs req s (routeRequest hs req s) := by
  have hfront : ascii "/v1/topics/" = ascii "/v1/" ++ ascii "topics/" := by decide
  have hnot : (stripped req.path).take 4 = ascii "/v1/" →
      ((stripped req.path).drop 4).take 7 ≠ ascii "topics/" := by
    intro hv1 htopics
    apply h (((stripped req.path).drop 4).drop 7)
    rw [hfront, ← hv1, ← htopics, List.append_assoc, List.take_append_drop, List.take_append_drop]
  unfold stripped at hnot
  unfold routeRequest
  dsimp only
  generalize (if req.path.length > 1 ∧ req.path.getLast? = some 0x2f then req.path.dropLast
    else req.path) = p at hnot
  split
  · exact .answer _
  · next hv1 =>
    rw [if_neg (hnot (not_not.mp hv1))]
    split
    · exact .getBroker
    · split
      · exact .getTopics
      · exact elsewhere_routeGroups hs _ req s

/-- INTERNAL: **what the router chooses**. -/
theorem routeRequest_cases (hs : HttpHandlers σ) (req : HttpRequest) (s : σ) :
    (∃ name, MessagesPath name req.path ∧ routeRequest hs req s = routeMessages hs name req s) ∨
    ((∀ name, ¬MessagesPath name req.path) ∧ Elsewhere hs req s (routeRequest hs req s)) := by
  simp only [messagesPath_iff]
  by_cases htopics : ∃ after, stripped req.path = ascii "/v1/topics/" ++ after
  · obtain ⟨after, hafter⟩ := htopics
    rw [routeRequest_topics hs s hafter, hafter]
    simp only [List.append_assoc, List.append_cancel_left_eq]
    rcases routeTopic_cases hs after req s with ⟨name, hname, hmsg, hrun⟩ | ⟨hnot, hrun⟩
    · rw [hrun]
      exact .inl ⟨name, ⟨hname, hmsg⟩, rfl⟩
    · refine .inr ⟨fun name h => hnot ⟨name, h⟩, ?_⟩
      cases hresult : routeTopic hs after req s with
      | some result => exact hrun result hresult
      | none => exact .answer _
  · have hnot : ∀ after, stripped req.path ≠ ascii "/v1/topics/" ++ after :=
      fun after h => htopics ⟨after, h⟩
    refine .inr ⟨?_, elsewhere_of_not_topics hs s hnot⟩
    rintro name ⟨-, hpath⟩
    exact hnot _ (hpath.trans (List.append_assoc _ _ _))

end StrikeMQ.Analysis.RestRouting
