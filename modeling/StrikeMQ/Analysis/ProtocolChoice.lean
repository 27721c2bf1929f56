import StrikeMQ.Lib.Ballots
import StrikeMQ.Model.ConsumerGroup

/-!
# The protocol of a group

The members of a group list the protocols they can use, and `choose_protocol` counts over all
lists how often a name occurs. A JoinGroup request may list a name twice, and nobody checks: a
name that one member lists twice can count for two members. So the choice is a protocol that
every member can use, whichever way the member map is walked, exactly if the lists are telling.
-/

set_option autoImplicit false

namespace StrikeMQ.Analysis.ProtocolChoice

open StrikeMQ.Lib StrikeMQ.Lib.Ballots StrikeMQ.Model StrikeMQ.Model.ConsumerGroupManager

/-- The names that a member lists, in its order. -/
def names (m : MemberMetadata) : List Bytes :=
  m.protocols.map JoinGroupProtocol.name

/-- The lists of all members. -/
def lists (members : Members) : List (List Bytes) :=
  members.entries.map fun e => names e.2

/-- Every member lists the name. -/
def ListedByAll (members : Members) (name : Bytes) : Prop :=
  ∀ id m, members.lookup id = some m → name ∈ names m

theorem listedByAll_iff {members : Members} {name : Bytes} :
    ListedByAll members name ↔ OnAll (lists members) name := by
  constructor
  · intro h b hb
    obtain ⟨e, he, rfl⟩ := List.mem_map.mp hb
    exact h e.1 e.2 (AList.mem_lookup_iff.mpr he)
  · intro h id m hm
    exact h _ (List.mem_map_of_mem (f := fun e => names e.2) (AList.mem_lookup_iff.mp hm))

section Choice

variable (env : GroupEnv) (group : ConsumerGroup)

/-- INTERNAL: the lists in the order in which the map is walked. -/
def walked : List (List Bytes) :=
  (env.order group.members).map fun e => names e.2

theorem walked_perm : (walked env group).Perm (lists group.members) := by
  have h := (env.order_perm group.members).map fun e => names e.2
  rwa [List.map_map] at h

/-- INTERNAL: **the source chooses by counting.** -/
theorem chooseProtocol_eq : chooseProtocol env group = choose (walked env group) [] := by
  have hnames : (walked env group).flatten =
      ((env.order group.members).flatMap fun e => e.2.protocols).map JoinGroupProtocol.name := by
    rw [walked, List.map_flatMap, List.flatMap_def]
    rfl
  have hlen : (walked env group).length = group.members.entries.length := by
    rw [(walked_perm env group).length_eq, lists, List.length_map]
  have hfull (name : Bytes) : (((env.order group.members).flatMap fun e => e.2.protocols).filter
      fun p => p.name = name).length = group.members.entries.length ↔
        Full (walked env group) name := by
    rw [Full, hlen, hnames]
    show _ ↔ List.countP (fun x => decide (x = name)) (List.map _ _) = _
    rw [List.countP_map, List.countP_eq_length_filter]
    rfl
  have hfind : (walked env group).flatten.find? (fun x => Full (walked env group) x) =
      (((env.order group.members).flatMap fun e => e.2.protocols).find? fun p =>
        Full (walked env group) p.name).map JoinGroupProtocol.name := by
    rw [hnames, List.find?_map]
    rfl
  unfold chooseProtocol choose
  simp only [hfull, hfind]
  cases ((env.order group.members).flatMap fun e => e.2.protocols).find? fun p =>
      Full (walked env group) p.name with
  | some p => rfl
  | none =>
    unfold walked
    cases env.order group.members with
    | nil => rfl
    | cons e rest =>
      obtain ⟨id, m⟩ := e
      cases hp : m.protocols with
      | nil => simp [names, hp]
      | cons p ps => simp [names, hp]

end Choice

/-- INTERNAL: a walk that starts with the given member. -/
def startingWith (id : Bytes) : GroupEnv where
  now := 0
  nowCheck := 0
  random := 0
  order m := (m.entries.map fun e => (e.1, e.2)).filter (fun e => e.1 = id) ++
    (m.entries.map fun e => (e.1, e.2)).filter fun e => !decide (e.1 = id)
  order_perm _ := List.filter_append_perm _ _

theorem head_walked_startingWith {group : ConsumerGroup} {id : Bytes} {m : MemberMetadata}
    (hm : group.members.lookup id = some m) :
    (walked (startingWith id) group).head? = some (names m) := by
  have hmem : (id, m) ∈ (group.members.entries.map fun e => (e.1, e.2)).filter
      fun e => e.1 = id := by
    refine List.mem_filter.mpr ⟨?_, by simp⟩
    exact List.mem_map_of_mem (f := fun e : Sigma _ => (e.1, e.2)) (AList.mem_lookup_iff.mp hm)
  obtain ⟨e, rest, hfilter⟩ := List.exists_cons_of_ne_nil (List.ne_nil_of_mem hmem)
  have he : e ∈ (group.members.entries.map fun e => (e.1, e.2)).filter fun e => e.1 = id := by
    rw [hfilter]
    exact List.mem_cons_self
  obtain ⟨hentry, hid⟩ := List.mem_filter.mp he
  obtain ⟨⟨k, m'⟩, hkm, rfl⟩ := List.mem_map.mp hentry
  -- a map has one entry for an id
  obtain rfl : k = id := by simpa using hid
  have hm' := AList.mem_lookup_iff.mpr hkm
  obtain rfl : m = m' := Option.some.inj (hm.symm.trans hm')
  simp [walked, startingWith, hfilter]

/-- PROPERTY: for every group with members: whichever way the member map is walked,
`choose_protocol` returns a name that every member lists if there is one, if and only if the lists
are telling if there is such a name: the first name of each member that is listed as often as
there are members is listed by all of them, and if no name is listed that often, the first name
of each member is.
SOURCE: storage/consumer_group.h:381-398 -/
theorem choice_is_listed_by_all_iff (group : ConsumerGroup) (hne : group.members.entries ≠ []) :
    (∀ env, (∃ name, ListedByAll group.members name) →
        ListedByAll group.members (chooseProtocol env group)) ↔
      ((∃ name, ListedByAll group.members name) → Telling (lists group.members)) := by
  have hlists : lists group.members ≠ [] := fun h => hne (List.map_eq_nil_iff.mp h)
  simp only [listedByAll_iff]
  constructor
  · intro h hcommon
    refine telling_of_heads (d := []) fun b hb => ?_
    obtain ⟨e, he, rfl⟩ := List.mem_map.mp hb
    refine ⟨walked (startingWith e.1) group, walked_perm _ group,
      head_walked_startingWith (AList.mem_lookup_iff.mpr he), ?_⟩
    rw [← chooseProtocol_eq]
    exact h (startingWith e.1) hcommon
  · intro h env hcommon
    rw [chooseProtocol_eq]
    exact onAll_choose (h hcommon) (walked_perm env group) hlists hcommon

/-- INTERNAL: the usual lists are telling. -/
theorem telling_of_listed_once {members : Members}
    (h : ∀ id m, members.lookup id = some m → (names m).Nodup)
    (hcommon : ∃ name, ListedByAll members name) : Telling (lists members) := by
  simp only [listedByAll_iff] at hcommon
  refine telling_of_nodup (fun b hb => ?_) hcommon
  obtain ⟨e, he, rfl⟩ := List.mem_map.mp hb
  exact h e.1 e.2 (AList.mem_lookup_iff.mpr he)

/-- A group of members `a` and `b` with the given lists. -/
def groupOf (a b : List Bytes) : ConsumerGroup where
  members := (AList.insert (ascii "a") { protocols := a.map fun name => ⟨name, []⟩ } ∅).insert
    (ascii "b") { protocols := b.map fun name => ⟨name, []⟩ }

/-- Member `a` would rather have `sticky`, but both list `range`. -/
theorem choice_is_listed_by_all_iff_range :
    ListedByAll (groupOf [ascii "sticky", ascii "range"] [ascii "range"]).members
      (chooseProtocol GroupEnv.plain
        (groupOf [ascii "sticky", ascii "range"] [ascii "range"])) := by
  refine (choice_is_listed_by_all_iff _ (by decide)).mpr (fun hcommon => ?_) GroupEnv.plain
    ⟨ascii "range", listedByAll_iff.mpr (by unfold OnAll; decide)⟩
  refine telling_of_listed_once (fun id m hm => ?_) hcommon
  have hall : ∀ b ∈ lists (groupOf [ascii "sticky", ascii "range"] [ascii "range"]).members,
      b.Nodup := by decide
  exact hall _ (List.mem_map_of_mem (f := fun e => names e.2) (AList.mem_lookup_iff.mp hm))

/-- Member `a` lists only `range`; member `b`, which is walked first, lists `sticky` twice, and
`range`. The choice is `sticky`, which counts for two members. -/
theorem choice_is_not_listed_by_all :
    (groupOf [ascii "range"] [ascii "sticky", ascii "sticky", ascii "range"]).members.entries ≠ [] ∧
      ListedByAll (groupOf [ascii "range"]
        [ascii "sticky", ascii "sticky", ascii "range"]).members (ascii "range") ∧
      ¬ ListedByAll (groupOf [ascii "range"]
        [ascii "sticky", ascii "sticky", ascii "range"]).members (chooseProtocol GroupEnv.plain
          (groupOf [ascii "range"] [ascii "sticky", ascii "sticky", ascii "range"])) := by
  rw [listedByAll_iff, listedByAll_iff]
  unfold OnAll
  decide

end StrikeMQ.Analysis.ProtocolChoice
