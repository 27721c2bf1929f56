import StrikeMQ.Lib.Runs
import StrikeMQ.Interface.TopicRegistry
import StrikeMQ.Analysis.ShardedDirectory

/-!
# The list of topics and the partitions

A listed topic has a partition, or a deletion that has erased one is about to take it off the
list. The converse is where a deletion can go wrong: it takes the name off the list whatever
has happened since it went through the shards. A partition that was created meanwhile found its
topic still listed, so it was not listed again, and then the name is gone.
-/

set_option autoImplicit false

namespace StrikeMQ.Analysis.TopicAgreement

open StrikeMQ.Lib StrikeMQ.Model StrikeMQ.Interface
open StrikeMQ.Analysis.ShardedDirectory (mem_eraseShard_topic shardFor_two_pow_lt)

/-! ## The sharded map as a set of topics -/

theorem mem_keys_update {m : ShardedLogMap 64} {i j : ℕ} {shard : LogMap} {tp : TopicPartition} :
    tp ∈ (Function.update m.shards i shard j).keys ↔
      if j = i then tp ∈ shard.keys else tp ∈ (m.shards j).keys := by
  by_cases hij : j = i
  · subst hij
    rw [if_pos rfl, Function.update_self]
  · rw [if_neg hij, Function.update_of_ne hij]

/-- INTERNAL: storing a log adds its topic. -/
theorem holdsTopic_put (m : ShardedLogMap 64) (tp : TopicPartition) (log : PartitionLog)
    (name : Bytes) : HoldsTopic (m.put tp log) name ↔ HoldsTopic m name ∨ tp.topic = name := by
  constructor
  · rintro ⟨i, hi, tp', hmem, hname⟩
    rw [ShardedLogMap.put, mem_keys_update] at hmem
    split at hmem
    · next heq =>
      rw [← AList.mem_keys, AList.mem_insert] at hmem
      cases hmem with
      | inl hnew =>
        rw [hnew] at hname
        exact Or.inr hname
      | inr hold =>
        rw [← heq] at hold
        exact Or.inl ⟨i, hi, tp', AList.mem_keys.mp hold, hname⟩
    · exact Or.inl ⟨i, hi, tp', hmem, hname⟩
  · rintro (⟨i, hi, tp', hmem, hname⟩ | hname)
    · refine ⟨i, hi, tp', ?_, hname⟩
      rw [ShardedLogMap.put, mem_keys_update]
      split
      · next heq =>
        rw [← AList.mem_keys, AList.mem_insert]
        rw [heq] at hmem
        exact Or.inr (AList.mem_keys.mpr hmem)
      · exact hmem
    · refine ⟨ShardedLogMap.shardFor 64 tp, shardFor_two_pow_lt 6 tp, tp, ?_, hname⟩
      rw [ShardedLogMap.put, mem_keys_update, if_pos rfl, ← AList.mem_keys, AList.mem_insert]
      exact Or.inl rfl

/-- INTERNAL: a creation leaves the broker as it is, or stores a log and lists its topic. -/
theorem getOrCreateLog_cases (b : Broker) (tp : TopicPartition) :
    (b.getOrCreateLog tp).2 = b ∨
    ∃ log, (b.getOrCreateLog tp).2.shardedLogs = b.shardedLogs.put tp log ∧
      (b.getOrCreateLog tp).2.knownTopics =
        if tp.topic ∈ b.knownTopics then b.knownTopics else b.knownTopics ++ [tp.topic] := by
  unfold Broker.getOrCreateLog ShardedLogMap.getOrCreate
  cases hfind : b.shardedLogs.find tp with
  | some log => simp
  | none =>
    right
    refine ⟨_, rfl, ?_⟩
    by_cases hlisted : tp.topic ∈ b.knownTopics
    · simp [hlisted]
    · simp [hlisted]

/-- INTERNAL: the partitions that are left in a shard. -/
theorem mem_keys_eraseShard {m : ShardedLogMap 64} {name : Bytes} {i j : ℕ}
    {tp : TopicPartition} :
    tp ∈ ((m.eraseShard (fun tp _ => tp.topic = name) i).2.shards j).keys ↔
      tp ∈ (m.shards j).keys ∧ ¬ (j = i ∧ tp.topic = name) := by
  have hshards : (m.eraseShard (fun tp _ => tp.topic = name) i).2.shards =
      Function.update m.shards i ((m.eraseShard (fun tp _ => tp.topic = name) i).1.foldl
        (fun shard tp => shard.erase tp) (m.shards i)) := rfl
  rw [hshards, mem_keys_update]
  by_cases hij : j = i
  · subst hij
    rw [if_pos rfl, ← AList.mem_keys, mem_foldl_erase, mem_eraseShard_topic, AList.mem_keys]
    tauto
  · rw [if_neg hij]
    tauto

/-- INTERNAL: erasing partitions of one topic keeps those of the others. -/
theorem holdsTopic_eraseShard_ne {m : ShardedLogMap 64} {name other : Bytes} {i : ℕ}
    (hne : other ≠ name) :
    HoldsTopic (m.eraseShard (fun tp _ => tp.topic = name) i).2 other ↔ HoldsTopic m other := by
  constructor
  · rintro ⟨j, hj, tp, hmem, hname⟩
    exact ⟨j, hj, tp, (mem_keys_eraseShard.mp hmem).1, hname⟩
  · rintro ⟨j, hj, tp, hmem, hname⟩
    refine ⟨j, hj, tp, mem_keys_eraseShard.mpr ⟨hmem, ?_⟩, hname⟩
    rintro ⟨-, hother⟩
    exact hne (hname.symm.trans hother)

theorem holdsTopic_of_eraseShard {m : ShardedLogMap 64} {name other : Bytes} {i : ℕ}
    (h : HoldsTopic (m.eraseShard (fun tp _ => tp.topic = name) i).2 other) :
    HoldsTopic m other := by
  obtain ⟨j, hj, tp, hmem, hname⟩ := h
  exact ⟨j, hj, tp, (mem_keys_eraseShard.mp hmem).1, hname⟩

/-- INTERNAL: a round that finds nothing changes nothing. -/
theorem holdsTopic_eraseShard_nil {m : ShardedLogMap 64} {name other : Bytes} {i : ℕ}
    (hnil : (m.eraseShard (fun tp _ => tp.topic = name) i).1 = []) :
    HoldsTopic (m.eraseShard (fun tp _ => tp.topic = name) i).2 other ↔ HoldsTopic m other := by
  have hsame : (m.eraseShard (fun tp _ => tp.topic = name) i).2 = m := by
    have hshards : (m.eraseShard (fun tp _ => tp.topic = name) i).2 =
        ⟨Function.update m.shards i ((m.eraseShard (fun tp _ => tp.topic = name) i).1.foldl
          (fun shard tp => shard.erase tp) (m.shards i))⟩ := rfl
    rw [hshards, hnil, List.foldl_nil, Function.update_eq_self]
  rw [hsame]

/-! ## What always holds -/

/-- INTERNAL: no topic is listed twice, and a listed topic has a partition or a deletion that
will take it off the list. -/
structure Accounted (r : TopicRegistry) : Prop where
  nodup : r.broker.knownTopics.Nodup
  held : ∀ name, name ∈ r.broker.knownTopics → HoldsTopic r.broker.shardedLogs name ∨
    ∃ d ∈ r.deletions, d.name = name ∧ d.erased ≠ []

theorem accounted_start (config : BrokerConfig) : Accounted { broker := { config := config } } where
  nodup := List.nodup_nil
  held _ h := absurd h List.not_mem_nil

/-- INTERNAL: creating a log lists its topic once. -/
theorem Accounted.getOrCreate {r : TopicRegistry} (h : Accounted r) (tp : TopicPartition) :
    Accounted { r with broker := (r.broker.getOrCreateLog tp).2 } := by
  rcases getOrCreateLog_cases r.broker tp with hsame | ⟨log, hlogs, htopics⟩
  · rw [hsame]
    exact h
  · refine ⟨?_, ?_⟩
    · show (r.broker.getOrCreateLog tp).2.knownTopics.Nodup
      rw [htopics]
      split
      · exact h.nodup
      · next hnew => exact List.nodup_append'.mpr ⟨h.nodup, List.nodup_singleton _, by simpa using hnew⟩
    · intro name hname
      show HoldsTopic (r.broker.getOrCreateLog tp).2.shardedLogs name ∨ _
      have hname' : name ∈ (r.broker.getOrCreateLog tp).2.knownTopics := hname
      rw [hlogs, holdsTopic_put]
      rw [htopics] at hname'
      have hcases : name ∈ r.broker.knownTopics ∨ name = tp.topic := by
        split at hname'
        · exact Or.inl hname'
        · simpa using hname'
      cases hcases with
      | inl hold =>
        cases h.held name hold with
        | inl hheld => exact Or.inl (Or.inl hheld)
        | inr hdeletion => exact Or.inr hdeletion
      | inr hnew => exact Or.inl (Or.inr hnew.symm)

/-- INTERNAL: the other deletions go on when one of them makes a step. -/
theorem mem_set_of_ne {ds : List Deletion} {i : ℕ} {d d' e : Deletion} (hd : ds[i]? = some d)
    (hd' : d' ∈ ds) (hne : d' ≠ d) : d' ∈ ds.set i e := by
  obtain ⟨j, hj⟩ := List.mem_iff_getElem?.mp hd'
  have hij : i ≠ j := by
    rintro rfl
    exact hne (Option.some.inj (hj.symm.trans hd))
  refine List.mem_iff_getElem?.mpr ⟨j, ?_⟩
  rw [List.getElem?_set_ne hij, hj]

theorem mem_eraseIdx_of_ne {ds : List Deletion} {i : ℕ} {d d' : Deletion} (hd : ds[i]? = some d)
    (hd' : d' ∈ ds) (hne : d' ≠ d) : d' ∈ ds.eraseIdx i := by
  obtain ⟨j, hj⟩ := List.mem_iff_getElem?.mp hd'
  refine List.mem_eraseIdx_iff_getElem?.mpr ⟨j, ?_, hj⟩
  rintro rfl
  exact hne (Option.some.inj (hj.symm.trans hd))

/-- INTERNAL: a topic stays accounted for without a deletion that has erased nothing of it. -/
theorem Accounted.held_of_rest {r : TopicRegistry} (h : Accounted r) {name : Bytes}
    (hname : name ∈ r.broker.knownTopics) {d : Deletion} (hspare : d.name = name → d.erased = [])
    {ds : List Deletion} (hrest : ∀ d' ∈ r.deletions, d' ≠ d → d' ∈ ds) :
    HoldsTopic r.broker.shardedLogs name ∨ ∃ d' ∈ ds, d'.name = name ∧ d'.erased ≠ [] := by
  refine (h.held name hname).imp_right ?_
  rintro ⟨d', hd', hname', herased⟩
  refine ⟨d', hrest d' hd' ?_, hname', herased⟩
  rintro rfl
  exact herased (hspare hname')

/-- INTERNAL: a shard erased by a deletion leaves its topic to that deletion. -/
theorem Accounted.eraseNext {r : TopicRegistry} (h : Accounted r) {i : ℕ} {d : Deletion}
    (hd : r.deletions[i]? = some d) : Accounted (r.eraseNext i d) := by
  refine ⟨h.nodup, ?_⟩
  intro name hname
  show HoldsTopic (r.broker.shardedLogs.eraseShard (fun tp _ => tp.topic = d.name) d.nextShard).2
    name ∨ _
  by_cases hother : name = d.name
  · by_cases hnone : d.erased ++
        (r.broker.shardedLogs.eraseShard (fun tp _ => tp.topic = d.name) d.nextShard).1 = []
    · -- this deletion has found nothing, so it is not the one that will take the name off
      obtain ⟨hbefore, hround⟩ := List.append_eq_nil_iff.mp hnone
      rw [holdsTopic_eraseShard_nil hround]
      exact h.held_of_rest hname (fun _ => hbefore) fun _ hd' hne => mem_set_of_ne hd hd' hne
    · obtain ⟨hi, -⟩ := List.getElem?_eq_some_iff.mp hd
      exact Or.inr ⟨_, List.mem_set hi _, hother.symm, hnone⟩
  · rw [holdsTopic_eraseShard_ne hother]
    exact h.held_of_rest hname (fun heq => absurd heq.symm hother)
      fun _ hd' hne => mem_set_of_ne hd hd' hne

/-- INTERNAL: a deletion that is done takes its topic off the list. -/
theorem Accounted.finish {r : TopicRegistry} (h : Accounted r) {i : ℕ} {d : Deletion}
    (hd : r.deletions[i]? = some d) : Accounted (r.finish i d) := by
  unfold TopicRegistry.finish
  by_cases hnone : d.erased = []
  · rw [if_pos hnone]
    refine ⟨h.nodup, ?_⟩
    intro name hname
    exact h.held_of_rest hname (fun _ => hnone) fun _ hd' hne => mem_eraseIdx_of_ne hd hd' hne
  · rw [if_neg hnone]
    refine ⟨h.nodup.filter _, ?_⟩
    intro name hname
    obtain ⟨hold, hother⟩ := List.mem_filter.mp hname
    exact h.held_of_rest hold (fun heq => absurd heq.symm (of_decide_eq_true hother))
      fun _ hd' hne => mem_eraseIdx_of_ne hd hd' hne

/-- INTERNAL: what a step does. -/
theorem step_cases {r r' : TopicRegistry} {a : RegistryStep} (hstep : r.step a = some r') :
    (∃ tp, a = .getOrCreate tp ∧ r' = { r with broker := (r.broker.getOrCreateLog tp).2 }) ∨
    (∃ name, a = .beginDelete name ∧
      r' = { r with deletions := r.deletions ++ [{ name := name }] }) ∨
    (∃ i d, a = .eraseShard i ∧ r.deletions[i]? = some d ∧ r' = r.eraseNext i d) ∨
    ∃ i d, a = .finishDelete i ∧ r.deletions[i]? = some d ∧ r' = r.finish i d := by
  cases a with
  | getOrCreate tp => exact Or.inl ⟨tp, rfl, (Option.some.inj hstep).symm⟩
  | beginDelete name => exact Or.inr (Or.inl ⟨name, rfl, (Option.some.inj hstep).symm⟩)
  | eraseShard i =>
    simp only [TopicRegistry.step] at hstep
    split at hstep
    · cases hstep
    · next d hd =>
      split at hstep
      · exact Or.inr (Or.inr (Or.inl ⟨i, d, rfl, hd, (Option.some.inj hstep).symm⟩))
      · cases hstep
  | finishDelete i =>
    simp only [TopicRegistry.step] at hstep
    split at hstep
    · cases hstep
    · next d hd =>
      split at hstep
      · exact Or.inr (Or.inr (Or.inr ⟨i, d, rfl, hd, (Option.some.inj hstep).symm⟩))
      · cases hstep

/-- INTERNAL: **the step lemma**. -/
theorem Accounted.step {r r' : TopicRegistry} {a : RegistryStep} (h : Accounted r)
    (hstep : r.step a = some r') : Accounted r' := by
  rcases step_cases hstep with ⟨tp, -, rfl⟩ | ⟨name, -, rfl⟩ | ⟨i, d, -, hd, rfl⟩ |
    ⟨i, d, -, hd, rfl⟩
  · exact h.getOrCreate tp
  · refine ⟨h.nodup, ?_⟩
    intro name' hname
    cases h.held name' hname with
    | inl hheld => exact Or.inl hheld
    | inr hdeletion =>
      obtain ⟨d, hd, hd'⟩ := hdeletion
      exact Or.inr ⟨d, List.mem_append_left _ hd, hd'⟩
  · exact h.eraseNext hd
  · exact h.finish hd

/-! ## What a deletion may break -/

/-- INTERNAL: only the end of a deletion can leave a topic with a partition off the list, and it
does exactly if its own topic has one then. -/
theorem listed_step_iff {r r' : TopicRegistry} {a : RegistryStep} (hbefore : r.Listed)
    (hstep : r.step a = some r') :
    r'.Listed ↔ ∀ i, a = .finishDelete i → r.RemovesAbsent i := by
  rcases step_cases hstep with ⟨tp, rfl, rfl⟩ | ⟨name, rfl, rfl⟩ | ⟨i, d, rfl, hd, rfl⟩ |
    ⟨i, d, rfl, hd, rfl⟩
  · refine iff_of_true ?_ (fun i hi => by cases hi)
    rcases getOrCreateLog_cases r.broker tp with hsame | ⟨log, hlogs, htopics⟩
    · rw [hsame]
      exact hbefore
    · intro name hname
      have hname' : HoldsTopic (r.broker.getOrCreateLog tp).2.shardedLogs name := hname
      show name ∈ (r.broker.getOrCreateLog tp).2.knownTopics
      rw [hlogs, holdsTopic_put] at hname'
      rw [htopics]
      cases hname' with
      | inl hold =>
        have hlisted := hbefore name hold
        split
        · exact hlisted
        · exact List.mem_append_left _ hlisted
      | inr hnew =>
        subst hnew
        split
        · next hlisted => exact hlisted
        · exact List.mem_append_right _ (List.mem_singleton_self _)
  · exact iff_of_true hbefore (fun i hi => by cases hi)
  · refine iff_of_true ?_ (fun i hi => by cases hi)
    intro name hname
    exact hbefore name (holdsTopic_of_eraseShard hname)
  · have hguard : (∀ j, RegistryStep.finishDelete i = .finishDelete j → r.RemovesAbsent j) ↔
        (d.erased ≠ [] → ¬ HoldsTopic r.broker.shardedLogs d.name) := by
      constructor
      · intro hall
        exact hall i rfl d hd
      · rintro hd' j hj d' hget
        obtain rfl : i = j := by injection hj
        obtain rfl : d = d' := Option.some.inj (hd.symm.trans hget)
        exact hd'
    rw [hguard]
    unfold TopicRegistry.finish
    by_cases hnone : d.erased = []
    · rw [if_pos hnone]
      exact iff_of_true hbefore (fun hsome => absurd hnone hsome)
    · rw [if_neg hnone]
      constructor
      · intro hlisted _ hholds
        obtain ⟨-, hother⟩ := List.mem_filter.mp (hlisted d.name hholds)
        exact of_decide_eq_true hother rfl
      · intro habsent name hholds
        have hname : name ≠ d.name := by
          rintro rfl
          exact habsent hnone hholds
        exact List.mem_filter.mpr ⟨hbefore name hholds, decide_eq_true hname⟩

/-! ## Runs -/

theorem accounted_run {config : BrokerConfig} {steps : List RegistryStep} {r : TopicRegistry}
    (hrun : TopicRegistry.run config steps = some r) : Accounted r :=
  foldlM_invariant (fun _ _ _ h hstep => h.step hstep) (accounted_start config) hrun

/-- PROPERTY: over any interleaving of creations with any number of deletions, no topic is ever
listed twice; every topic with a partition is listed in every state if and only if no deletion
takes its name off the list while the topic has a partition; and in a run in which none does,
the listed topics are exactly those with a partition in every state in which no deletion is in
progress.
SOURCE: main.cpp:57-68, http/http_server.cpp:666-702, storage/sharded_log_map.h:40-105 -/
theorem topics_agree_iff {config : BrokerConfig} {steps : List RegistryStep} {r : TopicRegistry}
    (hrun : TopicRegistry.run config steps = some r) :
    (∀ earlier, earlier <+: steps → ∀ t, TopicRegistry.run config earlier = some t →
      t.broker.knownTopics.Nodup) ∧
    ((∀ earlier, earlier <+: steps → ∀ t, TopicRegistry.run config earlier = some t →
        t.Listed) ↔
      ∀ earlier i, earlier ++ [.finishDelete i] <+: steps →
        ∀ t, TopicRegistry.run config earlier = some t → t.RemovesAbsent i) ∧
    ((∀ earlier i, earlier ++ [.finishDelete i] <+: steps →
        ∀ t, TopicRegistry.run config earlier = some t → t.RemovesAbsent i) →
      ∀ earlier, earlier <+: steps → ∀ t, TopicRegistry.run config earlier = some t →
        t.deletions = [] → t.Agrees) := by
  have hlisted := foldlM_states_iff_of_kind (k := RegistryStep.finishDelete) (I := Accounted)
    (P := TopicRegistry.Listed) (G := fun t i => t.RemovesAbsent i)
    (accounted_start config) (fun _ _ _ h hstep => h.step hstep)
    (fun name hname => by
      obtain ⟨i, -, tp, hmem, -⟩ := hname
      exact absurd hmem List.not_mem_nil)
    (fun _ _ _ _ hbefore hstep => listed_step_iff hbefore hstep) hrun
  refine ⟨fun earlier _ t ht => (accounted_run ht).nodup, hlisted, ?_⟩
  intro habsent earlier hearlier t ht hquiet name
  constructor
  · intro hname
    cases (accounted_run ht).held name hname with
    | inl hholds => exact hholds
    | inr hdeletion =>
      obtain ⟨d, hd, -⟩ := hdeletion
      rw [hquiet] at hd
      exact absurd hd List.not_mem_nil
  · exact hlisted.mpr habsent earlier hearlier t ht name

/-- Partition 0 of topic `t`. -/
def firstPartition : TopicPartition := ⟨ascii "t", 0⟩

/-- A topic is created, and a deletion of it goes through all shards. -/
def createdAndErased : List RegistryStep :=
  [.getOrCreate firstPartition, .beginDelete (ascii "t")] ++ List.replicate 64 (.eraseShard 0)

/-- The deletion finishes with nobody in between, and the topic is neither listed nor held. -/
theorem topics_agree_iff_uninterrupted :
    ∃ r, TopicRegistry.run {} (createdAndErased ++ [.finishDelete 0]) = some r ∧
      r.deletions = [] ∧ r.broker.knownTopics = [] ∧ r.Agrees := by
  have hstate : (TopicRegistry.run {} (createdAndErased ++ [.finishDelete 0])).map
      (fun r => (r.deletions.length, r.broker.knownTopics)) = some (0, []) := by
    decide +kernel
  obtain ⟨r, hrun, hfacts⟩ := Option.map_eq_some_iff.mp hstate
  simp only [Prod.mk.injEq, List.length_eq_zero_iff] at hfacts
  obtain ⟨hquiet, hnone⟩ := hfacts
  have hends : ∀ a ∈ createdAndErased, ∀ i, a ≠ .finishDelete i := by
    simp [createdAndErased]
  have habsent : ∀ earlier i,
      earlier ++ [.finishDelete i] <+: createdAndErased ++ [.finishDelete 0] →
        ∀ t, TopicRegistry.run {} earlier = some t → t.RemovesAbsent i := by
    intro earlier i hearlier t ht d hd hsome
    cases List.prefix_concat_iff.mp hearlier with
    | inl heq =>
      have hholds : (TopicRegistry.run {} createdAndErased).map (fun t =>
          (t.deletions.map Deletion.name,
            decide (HoldsTopic t.broker.shardedLogs (ascii "t")))) =
          some ([ascii "t"], false) := by
        decide +kernel
      obtain ⟨hsame, -⟩ := List.append_inj' heq rfl
      rw [hsame] at ht
      rw [ht, Option.map_some, Option.some.injEq, Prod.mk.injEq, decide_eq_false_iff_not] at hholds
      have hname : d.name ∈ t.deletions.map Deletion.name :=
        List.mem_map_of_mem (List.mem_of_getElem? hd)
      rw [hholds.1, List.mem_singleton] at hname
      rw [hname]
      exact hholds.2
    | inr hbefore => exact absurd rfl (hends _ (hbefore.subset (by simp)) i)
  obtain ⟨-, -, hagrees⟩ := topics_agree_iff hrun
  exact ⟨r, hrun, hquiet, hnone, hagrees habsent _ (List.prefix_refl _) r hrun hquiet⟩

/-- A partition that is created after the deletion went through its shard stays, and its topic
is not listed although no operation is in progress. -/
theorem deletion_unlists_recreated_topic :
    ∃ r, TopicRegistry.run {}
        (createdAndErased ++ [.getOrCreate firstPartition, .finishDelete 0]) = some r ∧
      r.deletions.length = 0 ∧ HoldsTopic r.broker.shardedLogs (ascii "t") ∧
      ascii "t" ∉ r.broker.knownTopics := by
  have hstate : (TopicRegistry.run {}
      (createdAndErased ++ [.getOrCreate firstPartition, .finishDelete 0])).map
      (fun r => (r.deletions.length, decide (HoldsTopic r.broker.shardedLogs (ascii "t")),
        decide (ascii "t" ∈ r.broker.knownTopics))) = some (0, true, false) := by
    decide +kernel
  obtain ⟨r, hrun, hfacts⟩ := Option.map_eq_some_iff.mp hstate
  simp only [Prod.mk.injEq, decide_eq_true_eq, decide_eq_false_iff_not] at hfacts
  exact ⟨r, hrun, hfacts⟩

end StrikeMQ.Analysis.TopicAgreement
