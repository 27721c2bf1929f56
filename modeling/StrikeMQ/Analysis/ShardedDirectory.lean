import StrikeMQ.Lib.FiniteMap
import StrikeMQ.Interface.LogDirectory

/-!
# Sharding is invisible

The sharded map against one map from partitions to logs. A call for one key goes to the shard
that the key's hash selects, a call for all keys walks the shards; that both see the same map
rests on one invariant, that a key is stored in no other shard than its own.
-/

set_option autoImplicit false

namespace StrikeMQ.Analysis.ShardedDirectory

open StrikeMQ.Lib StrikeMQ.Model StrikeMQ.Interface
open StrikeMQ.Model.ShardedLogMap (shardFor)

variable {numShards : ℕ} {m : ShardedLogMap numShards} {d : Directory}

/-- INTERNAL: the sharded map holds what the directory does, each key in its own shard. -/
structure Refines (m : ShardedLogMap numShards) (d : Directory) : Prop where
  placed : Placed (shardFor numShards) m.shards
  find_eq : ∀ tp, m.find tp = d tp

theorem refines_empty (n : ℕ) : Refines ({} : ShardedLogMap n) fun _ => none where
  placed := placed_empty _
  find_eq _ := rfl

theorem shardFor_two_pow_lt (k : ℕ) (tp : TopicPartition) : shardFor (2 ^ k) tp < 2 ^ k := by
  have hle : (topicPartitionHash tp).toNat &&& (2 ^ k - 1) ≤ 2 ^ k - 1 := Nat.and_le_right
  have hpos := Nat.two_pow_pos k
  unfold shardFor
  omega

/-! ## Calls for one key -/

theorem find_update {i : ℕ} {shard : LogMap} (tp : TopicPartition) :
    ShardedLogMap.find (⟨Function.update m.shards i shard⟩ : ShardedLogMap numShards) tp =
      if shardFor numShards tp = i then shard.lookup tp else m.find tp := by
  show AList.lookup tp (Function.update m.shards i shard (shardFor numShards tp)) = _
  by_cases hshard : shardFor numShards tp = i
  · rw [if_pos hshard, hshard, Function.update_self]
  · rw [if_neg hshard, Function.update_of_ne hshard, ShardedLogMap.find]

/-- INTERNAL: storing a log. -/
theorem Refines.put (h : Refines m d) (tp : TopicPartition) (log : PartitionLog) :
    Refines (m.put tp log) (Function.update d tp (some log)) where
  placed := by
    apply h.placed.update
    intro k hk
    rcases (AList.mem_insert _).mp hk with rfl | hk
    · rfl
    · exact h.placed _ k hk
  find_eq tp' := by
    by_cases htp : tp' = tp
    · subst htp
      rw [ShardedLogMap.find_put_self, Function.update_self]
    · rw [ShardedLogMap.find_put_ne m htp, Function.update_of_ne htp, h.find_eq]

/-- INTERNAL: `erase` forgets a partition and tells whether it was there. -/
theorem Refines.erase (h : Refines m d) (tp : TopicPartition) :
    (m.erase tp).1 = (d tp).isSome ∧ Refines (m.erase tp).2 (Function.update d tp none) := by
  refine ⟨?_, ?_, ?_⟩
  · rw [← h.find_eq, ShardedLogMap.find, ShardedLogMap.erase, Bool.eq_iff_iff, decide_eq_true_iff,
      AList.lookup_isSome]
  · apply h.placed.update
    intro k hk
    exact h.placed _ k (AList.mem_erase.mp hk).2
  · intro tp'
    rw [ShardedLogMap.erase, find_update]
    by_cases htp : tp' = tp
    · subst htp
      rw [if_pos rfl, AList.lookup_erase, Function.update_self]
    · rw [Function.update_of_ne htp, ← h.find_eq, AList.lookup_erase_ne htp]
      split
      · next hshard => rw [ShardedLogMap.find, hshard]
      · rfl

/-! ## Calls for all keys -/

section Erasing

variable (pred : TopicPartition → PartitionLog → Bool)

/-- INTERNAL: what one round of `erase_if` finds. -/
theorem mem_eraseShard (m : ShardedLogMap numShards) (i : ℕ) (tp : TopicPartition) :
    tp ∈ (m.eraseShard pred i).1 ↔ ∃ log, (m.shards i).lookup tp = some log ∧ pred tp log := by
  simp only [ShardedLogMap.eraseShard, List.mem_map, List.mem_filter]
  constructor
  · rintro ⟨⟨tp, log⟩, ⟨he, hpred⟩, rfl⟩
    exact ⟨log, AList.mem_lookup_iff.mpr he, hpred⟩
  · rintro ⟨log, hlookup, hpred⟩
    exact ⟨⟨tp, log⟩, ⟨AList.mem_lookup_iff.mp hlookup, hpred⟩, rfl⟩

theorem mem_eraseShard_topic (m : ShardedLogMap numShards) (name : Bytes) (i : ℕ)
    (tp : TopicPartition) :
    tp ∈ (m.eraseShard (fun tp _ => tp.topic = name) i).1 ↔
      tp ∈ m.shards i ∧ tp.topic = name := by
  rw [mem_eraseShard, ← AList.lookup_isSome, Option.isSome_iff_exists]
  simp only [decide_eq_true_eq, exists_and_right]

/-- INTERNAL: while every key is in its own shard, one round finds the keys of that shard. -/
theorem mem_eraseShard_iff (h : Placed (shardFor numShards) m.shards) (i : ℕ)
    (tp : TopicPartition) :
    tp ∈ (m.eraseShard pred i).1 ↔
      shardFor numShards tp = i ∧ ∃ log, m.find tp = some log ∧ pred tp log := by
  rw [mem_eraseShard]
  constructor
  · rintro ⟨log, hlookup, hpred⟩
    obtain rfl := h i tp (AList.lookup_isSome.mp (Option.isSome_of_eq_some hlookup))
    exact ⟨rfl, log, hlookup, hpred⟩
  · rintro ⟨rfl, hfound⟩
    exact hfound

theorem nodup_eraseShard (m : ShardedLogMap numShards) (i : ℕ) :
    (m.eraseShard pred i).1.Nodup :=
  (List.filter_sublist.map Sigma.fst).nodup (m.shards i).nodupKeys

/-- INTERNAL: what one round of `erase_if` leaves. -/
theorem find_eraseShard (h : Placed (shardFor numShards) m.shards) (i : ℕ)
    (tp : TopicPartition) :
    (m.eraseShard pred i).2.find tp =
      (m.find tp).filter fun log => !(decide (shardFor numShards tp = i) && pred tp log) := by
  have hmem := mem_eraseShard_iff pred h i tp
  have hround : (m.eraseShard pred i).2.find tp =
      if shardFor numShards tp = i ∧ tp ∈ (m.eraseShard pred i).1 then none else m.find tp := by
    rw [ShardedLogMap.eraseShard, find_update, lookup_foldl_erase_eq]
    by_cases hshard : shardFor numShards tp = i
    · rw [if_pos hshard, ShardedLogMap.find, hshard]
      simp only [true_and]
    · simp only [hshard, false_and, if_false]
  rw [hround]
  cases hfind : m.find tp with
  | none => rw [Option.filter_none, ite_self]
  | some log =>
    simp only [hmem, hfind, Option.some.injEq, exists_eq_left', Option.filter_some]
    by_cases hshard : shardFor numShards tp = i
    · cases hpred : pred tp log <;> simp [hshard]
    · simp [hshard]

theorem placed_eraseShard (h : Placed (shardFor numShards) m.shards) (i : ℕ) :
    Placed (shardFor numShards) (m.eraseShard pred i).2.shards := by
  apply h.update
  intro k hk
  exact h i k (mem_foldl_erase.mp hk).1

/-- The first `n` rounds of `erase_if`. -/
def eraseRounds (m : ShardedLogMap numShards) (n : ℕ) :
    List TopicPartition × ShardedLogMap numShards :=
  (List.range n).foldl (fun (erased, m) i =>
    let (tps, m') := m.eraseShard pred i
    (erased ++ tps, m')) ([], m)

theorem eraseRounds_succ (m : ShardedLogMap numShards) (n : ℕ) :
    eraseRounds pred m (n + 1) =
      ((eraseRounds pred m n).1 ++ ((eraseRounds pred m n).2.eraseShard pred n).1,
        ((eraseRounds pred m n).2.eraseShard pred n).2) := by
  rw [eraseRounds, List.range_succ, List.foldl_append]
  rfl

/-- INTERNAL: **the rounds of `erase_if`.** After `n` of them the keys of the first `n` shards
that satisfy the predicate are gone, and nothing else has changed. -/
theorem eraseRounds_spec (h : Placed (shardFor numShards) m.shards) (n : ℕ) :
    Placed (shardFor numShards) (eraseRounds pred m n).2.shards ∧
      (eraseRounds pred m n).1.Nodup ∧
      (∀ tp, tp ∈ (eraseRounds pred m n).1 ↔
        shardFor numShards tp < n ∧ ∃ log, m.find tp = some log ∧ pred tp log) ∧
      ∀ tp, (eraseRounds pred m n).2.find tp =
        (m.find tp).filter fun log => !(decide (shardFor numShards tp < n) && pred tp log) := by
  induction n with
  | zero =>
    refine ⟨h, List.nodup_nil, fun tp => ?_, fun tp => ?_⟩
    · simp [eraseRounds]
    · simp only [Nat.not_lt_zero, decide_false, Bool.false_and, Bool.not_false]
      exact (filter_always (m.find tp)).symm
  | succ n ih =>
    obtain ⟨hplaced, hnodup, hmem, hfind⟩ := ih
    -- the keys of shard `n` are still as they were
    have hkept : ∀ tp, shardFor numShards tp = n →
        (eraseRounds pred m n).2.find tp = m.find tp := by
      intro tp htp
      rw [hfind, htp]
      simp only [Nat.lt_irrefl, decide_false, Bool.false_and, Bool.not_false]
      exact filter_always (m.find tp)
    have hround : ∀ tp, tp ∈ ((eraseRounds pred m n).2.eraseShard pred n).1 ↔
        shardFor numShards tp = n ∧ ∃ log, m.find tp = some log ∧ pred tp log := by
      intro tp
      rw [mem_eraseShard_iff pred hplaced]
      refine and_congr_right fun htp => ?_
      rw [hkept tp htp]
    rw [eraseRounds_succ]
    refine ⟨placed_eraseShard pred hplaced n, ?_, fun tp => ?_, fun tp => ?_⟩
    · rw [List.nodup_append']
      refine ⟨hnodup, nodup_eraseShard pred _ n, ?_⟩
      intro tp hold hnew
      have hlt := ((hmem tp).mp hold).1
      have heq := ((hround tp).mp hnew).1
      omega
    · rw [List.mem_append, hmem, hround, ← or_and_right, Nat.lt_succ_iff_lt_or_eq]
    · rw [find_eraseShard pred hplaced, hfind, Option.filter_filter]
      congr 1
      funext log
      by_cases hlt : shardFor numShards tp < n
      · simp [hlt, Nat.lt_succ_of_lt hlt, hlt.ne]
      · by_cases heq : shardFor numShards tp = n
        · simp [heq]
        · have hnot : ¬shardFor numShards tp < n + 1 := by omega
          simp [hlt, heq, hnot]

end Erasing

theorem forEach_eq (m : ShardedLogMap numShards) :
    m.forEach = (walk m.shards numShards).map fun e => (e.1, e.2) := by
  rw [walk, List.map_flatMap]
  rfl

/-! ## Every call -/

section TwoPow

variable {k : ℕ} {m : ShardedLogMap (2 ^ k)}

/-- INTERNAL: `for_each` visits every log once. -/
theorem Refines.forEach (h : Refines m d) :
    (m.forEach.map Prod.fst).Nodup ∧ ∀ tp log, (tp, log) ∈ m.forEach ↔ d tp = some log := by
  rw [forEach_eq]
  constructor
  · rw [List.map_map]
    exact h.placed.nodup_keys_walk (2 ^ k)
  · intro tp log
    have hmem : (tp, log) ∈ (walk m.shards (2 ^ k)).map (fun e => (e.1, e.2)) ↔
        ⟨tp, log⟩ ∈ walk m.shards (2 ^ k) := by
      rw [List.mem_map]
      constructor
      · rintro ⟨⟨tp', log'⟩, he, heq⟩
        cases heq
        exact he
      · intro he
        exact ⟨_, he, rfl⟩
    rw [hmem, h.placed.mem_walk_iff, ← h.find_eq]
    exact and_iff_right (shardFor_two_pow_lt k tp)

/-- INTERNAL: `erase_if` removes exactly the logs that satisfy the predicate. -/
theorem Refines.eraseIf (h : Refines m d) (pred : TopicPartition → PartitionLog → Bool) :
    (m.eraseIf pred).1.Nodup ∧
      (∀ tp, tp ∈ (m.eraseIf pred).1 ↔ ∃ log, d tp = some log ∧ pred tp log) ∧
      Refines (m.eraseIf pred).2 fun tp => (d tp).filter fun log => !pred tp log := by
  obtain ⟨hplaced, hnodup, hmem, hfind⟩ := eraseRounds_spec pred h.placed (2 ^ k)
  refine ⟨hnodup, fun tp => ?_, hplaced, fun tp => ?_⟩
  · rw [← h.find_eq]
    exact (hmem tp).trans (and_iff_right (shardFor_two_pow_lt k tp))
  · refine (hfind tp).trans ?_
    rw [h.find_eq]
    simp only [shardFor_two_pow_lt, decide_true, Bool.true_and]

/-- INTERNAL: **the step lemma.** A call answers as the one map would, and leaves the shards in
agreement with it. -/
theorem Refines.call (h : Refines m d) (c : Call) :
    c.Answers d (ShardedLogMap.call m c).1 ∧ Refines (ShardedLogMap.call m c).2 (c.after d) := by
  cases c with
  | find tp => exact ⟨h.find_eq tp, h⟩
  | getOrCreate tp logDir segmentSize =>
    have hfind := h.find_eq tp
    simp only [ShardedLogMap.call, ShardedLogMap.getOrCreate, Call.Answers, Call.after]
    cases hd : d tp with
    | none =>
      rw [hd] at hfind
      simp only [hfind, true_and, if_true]
      exact h.put tp _
    | some log =>
      rw [hd] at hfind
      simp only [hfind, true_and, Bool.false_eq_true, if_false]
      exact h
  | erase tp => exact h.erase tp
  | eraseIf pred =>
    obtain ⟨hnodup, hmem, hrefines⟩ := h.eraseIf pred
    exact ⟨⟨hnodup, hmem⟩, hrefines⟩
  | forEach => exact ⟨h.forEach, h⟩
  | change tp f =>
    have hfind := h.find_eq tp
    simp only [ShardedLogMap.call, Call.after]
    cases hd : d tp with
    | none =>
      rw [hd] at hfind
      simp only [hfind, Option.map_none]
      rw [Function.update_eq_self_iff.mpr hd.symm]
      exact ⟨trivial, h⟩
    | some log =>
      rw [hd] at hfind
      simp only [hfind, Option.map_some]
      exact ⟨trivial, h.put tp (f log)⟩

/-- INTERNAL: **the run lemma.** -/
theorem Refines.runCalls (h : Refines m d) (calls : List Call) :
    d.Agrees calls (ShardedLogMap.runCalls m calls).1 ∧
      Refines (ShardedLogMap.runCalls m calls).2 (d.run calls) := by
  induction calls generalizing m d with
  | nil => exact ⟨trivial, h⟩
  | cons c cs ih =>
    obtain ⟨hanswer, hstep⟩ := h.call c
    obtain ⟨hagree, hrun⟩ := ih hstep
    exact ⟨⟨hanswer, hagree⟩, hrun⟩

end TwoPow

/-- PROPERTY: **sharding is invisible.** For every power of two of shards and every sequence of
calls on a new map, each call returns what one map from partitions to logs would return; and
after it the map holds the same logs, each key in the one shard that its hash selects and in no
other.
SOURCE: storage/sharded_log_map.h:19-126 -/
theorem sharding_is_invisible (k : ℕ) (calls : List Call) :
    let (results, m) := ShardedLogMap.runCalls ({} : ShardedLogMap (2 ^ k)) calls
    Directory.Agrees (fun _ => none) calls results ∧
      (∀ tp, m.find tp = Directory.run (fun _ => none) calls tp) ∧
      ∀ i tp, tp ∈ m.shards i ↔
        i = shardFor (2 ^ k) tp ∧ (Directory.run (fun _ => none) calls tp).isSome := by
  obtain ⟨hagree, hrefines⟩ := (refines_empty (2 ^ k)).runCalls calls
  refine ⟨hagree, hrefines.find_eq, fun i tp => ?_⟩
  rw [← hrefines.find_eq, ShardedLogMap.find, AList.lookup_isSome]
  constructor
  · intro hmem
    have hplace := hrefines.placed i tp hmem
    exact ⟨hplace.symm, by rw [hplace]; exact hmem⟩
  · rintro ⟨rfl, hmem⟩
    exact hmem

end StrikeMQ.Analysis.ShardedDirectory
