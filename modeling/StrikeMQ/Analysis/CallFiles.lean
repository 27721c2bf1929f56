import StrikeMQ.Analysis.PartitionDirectories
import StrikeMQ.Analysis.ProduceAnswers
import StrikeMQ.Analysis.RestExceptions
import StrikeMQ.Analysis.SegmentFiles

/-!
# The files of the logs that calls create

Calls create logs for the partitions that they name, and only Produce calls append to them. As long
as every batch has a record, a segment without records is empty, so no append rolls one and no two
segments of a log start at one offset. With directories of their own, no two segments of the broker
are then mappings of one file.
-/

set_option autoImplicit false

namespace StrikeMQ.Analysis.CallFiles

open StrikeMQ.Lib StrikeMQ.Model StrikeMQ.Model.PartitionLog StrikeMQ.Interface
open StrikeMQ.Analysis.BatchSerialization StrikeMQ.Analysis.LogLayout
open StrikeMQ.Analysis.PartitionDirectories
open StrikeMQ.Analysis.RestExceptions (SegmentFits segmentFits_create segmentFits_append)
open StrikeMQ.Analysis.SegmentFiles

/-! ## One log -/

/-- INTERNAL: the segments of a log start at different offsets, and one without records is empty. -/
structure OwnFiles (log : PartitionLog) : Prop where
  ascending : Ascending log
  fits : SegmentFits log
  nodup : ((files log).map Prod.snd).Nodup
  empty : log.nextOffset = log.activeSegment.baseOffset → log.activeSegment.size = 0

theorem ownFiles_create (tp : TopicPartition) (dir : Bytes) :
    OwnFiles (create tp dir 1073741824) where
  ascending := ascending_create tp dir _
  fits := segmentFits_create tp dir
  nodup := List.nodup_singleton _
  empty _ := rfl

/-- INTERNAL: **the step lemma:** a batch with a record rolls no segment without records. -/
theorem OwnFiles.append {log log' : PartitionLog} {batch : RecordBatch} {base : ℤ}
    (h : OwnFiles log) (happ : log.append batch = some (log', base)) (hne : batch.records ≠ []) :
    OwnFiles log' ∧ log'.baseDir = log.baseDir := by
  obtain ⟨rfl, out, hser, hlog⟩ := append_eq_some_iff.mp happ
  have hpos := List.length_pos_iff.mpr hne
  have hrolls : ¬RollsEmpty log batch := by
    rintro ⟨hstart, out', hser', hfull⟩
    have hlt := (serializeBatch_spec hser').2.1
    rw [h.empty hstart, h.fits.maxSize] at hfull
    omega
  refine ⟨⟨h.ascending.append happ, segmentFits_append h.fits happ,
    (nodup_append_iff h.ascending happ).mpr ⟨h.nodup, hrolls⟩, fun heq => ?_⟩, ?_⟩
  · -- the new records stand behind the first offset of the active segment
    have hlast := getLast?_files log'
    have hactive := h.ascending.active_le
    rw [hlog, files_commit] at hlast
    rw [hlog, nextOffset_commit] at heq
    split at hlast
    · rw [List.getLast?_concat, Option.some.injEq, Prod.mk.injEq] at hlast
      omega
    · rw [List.append_nil, getLast?_files, Option.some.injEq, Prod.mk.injEq] at hlast
      omega
  · rw [hlog, baseDir_commit]

/-- INTERNAL: a file has one directory and one offset. -/
theorem segmentPath_inj {dir dir' : Bytes} {off off' : ℤ}
    (h : segmentPath dir off = segmentPath dir' off') : dir = dir' ∧ off = off' := by
  unfold segmentPath at h
  have hname := List.append_cancel_right h
  rw [List.append_assoc, List.append_assoc] at hname
  obtain ⟨hdir, hoff⟩ :=
    (append_last_inj (slash_notMem_decimal off) (slash_notMem_decimal off')).mp hname
  exact ⟨hdir, decimal_injective hoff⟩

/-! ## All logs -/

/-- INTERNAL: every log stands in the directory of one of the partitions. -/
structure Stored (tps : List TopicPartition) (b : Broker) : Prop where
  config : b.config = {}
  logs : ∀ tp log, b.shardedLogs.find tp = some log →
    tp ∈ tps ∧ log.baseDir = partitionPath ({} : BrokerConfig).logDir tp ∧ OwnFiles log

section Stored

variable {tps : List TopicPartition} {b : Broker}

theorem stored_new : Stored tps {} :=
  ⟨rfl, fun _ _ hfind => by cases hfind⟩

theorem Stored.put (h : Stored tps b) {b' : Broker} {tp : TopicPartition} {log : PartitionLog}
    (hconfig : b'.config = b.config) (hlogs : b'.shardedLogs = b.shardedLogs.put tp log)
    (htp : tp ∈ tps) (hdir : log.baseDir = partitionPath ({} : BrokerConfig).logDir tp)
    (hown : OwnFiles log) : Stored tps b' where
  config := hconfig.trans h.config
  logs tp' log' hfind := by
    rw [hlogs] at hfind
    by_cases heq : tp' = tp
    · subst heq
      rw [ShardedLogMap.find_put_self] at hfind
      obtain rfl := Option.some.inj hfind
      exact ⟨htp, hdir, hown⟩
    · rw [ShardedLogMap.find_put_ne _ heq] at hfind
      exact h.logs tp' log' hfind

theorem Stored.getOrCreateLog (h : Stored tps b) {tp : TopicPartition} (htp : tp ∈ tps) :
    ((b.getOrCreateLog tp).1.baseDir = partitionPath ({} : BrokerConfig).logDir tp ∧
      OwnFiles (b.getOrCreateLog tp).1) ∧ Stored tps (b.getOrCreateLog tp).2 := by
  unfold Broker.getOrCreateLog ShardedLogMap.getOrCreate
  cases hfind : b.shardedLogs.find tp with
  | some log => exact ⟨(h.logs tp log hfind).2, ⟨h.config, h.logs⟩⟩
  | none =>
    have hnew := ownFiles_create tp ({} : BrokerConfig).logDir
    rw [h.config]
    exact ⟨⟨rfl, hnew⟩, h.put h.config.symm rfl htp rfl hnew⟩

/-- INTERNAL: **what a Produce call stores.** -/
theorem Stored.produceBatches {batches : List RecordBatch}
    (hbatches : ∀ batch ∈ batches, batch.topicPartition ∈ tps ∧ batch.records ≠ [])
    {s : Option Broker} (hs : ∀ b, s = some b → Stored tps b) {b' : Broker}
    (hrun : (Broker.produceBatches batches s).2 = some b') : Stored tps b' := by
  induction batches generalizing s with
  | nil => exact hs b' hrun
  | cons batch rest ih =>
    obtain ⟨htp, hne⟩ := hbatches batch List.mem_cons_self
    refine ih (fun c hc => hbatches c (List.mem_cons_of_mem _ hc)) (fun b₁ hb₁ => ?_) hrun
    cases s with
    | none => cases hb₁
    | some b =>
      obtain ⟨⟨hdir, hown⟩, hstored⟩ := (hs b rfl).getOrCreateLog htp
      cases happ : (b.getOrCreateLog batch.topicPartition).1.append batch with
      | none =>
        simp only [happ] at hb₁
        cases hb₁
      | some out =>
        obtain ⟨log, base⟩ := out
        simp only [happ, Option.some.injEq] at hb₁
        obtain ⟨hafter, hsame⟩ := hown.append happ hne
        rw [← hb₁]
        exact hstored.put rfl rfl htp (hsame.trans hdir) hafter

theorem Stored.metadata (h : Stored tps b) {requested : List Bytes}
    (hrequested : ∀ t ∈ requested, ⟨t, 0⟩ ∈ tps) : Stored tps (b.metadata requested).2 := by
  show Stored tps (requested.foldl (fun b topic => (b.getOrCreateLog ⟨topic, 0⟩).2) b)
  induction requested generalizing b with
  | nil => exact h
  | cons topic requested ih =>
    exact ih (h.getOrCreateLog (hrequested topic List.mem_cons_self)).2
      fun t ht => hrequested t (List.mem_cons_of_mem _ ht)

/-- INTERNAL: **a call keeps the files apart**, whatever it is. -/
theorem Stored.perform (h : Stored tps b) {env : GroupEnv} {call : ServiceCall} {request : Request}
    {result : ServiceResult} {b' : Broker} (hdenotes : call.Denotes request)
    (htps : ∀ tp ∈ call.partitions, tp ∈ tps) (hfills : call.Fills)
    (hperform : perform env b request = some (result, b')) : Stored tps b' := by
  cases call with
  | produce msg =>
    obtain ⟨q, rfl, hpartitions, hrecords⟩ := hdenotes
    obtain ⟨b₁, hrun, heq⟩ := Option.map_eq_some_iff.mp hperform
    obtain ⟨-, rfl⟩ := Prod.mk.inj heq
    refine Stored.produceBatches (fun batch hbatch => ⟨?_, ?_⟩) (by rintro _ ⟨⟩; exact h) hrun
    · apply htps
      rw [ServiceCall.partitions, ← hpartitions]
      exact List.mem_map_of_mem hbatch
    · have hmem := List.mem_map_of_mem (f := fun b : RecordBatch => b.records.map Record.data) hbatch
      rw [hrecords] at hmem
      obtain ⟨p, hp, heq⟩ := List.mem_map.mp hmem
      intro hnil
      rw [hnil, List.map_nil, List.map_eq_nil_iff] at heq
      exact hfills p hp heq
  | apiVersions version cid rest =>
    obtain rfl := hdenotes
    cases hperform
    exact h
  | metadata cid clientId topics =>
    obtain rfl := hdenotes
    cases hperform
    refine h.metadata fun t ht => ?_
    obtain ⟨s, hs, rfl⟩ := List.mem_map.mp ht
    exact htps _ (List.mem_map_of_mem hs)
  | request cid clientId msg =>
    obtain rfl := hdenotes
    cases msg <;> cases hperform <;> exact ⟨h.config, h.logs⟩

theorem Stored.filesApart (h : Stored tps b) (hdirs : OwnDirectories tps) : FilesApart b where
  named tp log hfind := by
    obtain ⟨htp, hdir, -⟩ := h.logs tp log hfind
    rw [h.config]
    exact ⟨hdir, hdirs.named tp htp⟩
  apart tp tp' log log' hfind hfind' i i' s s' hs hs' hpath := by
    obtain ⟨htp, hdir, hown⟩ := h.logs tp log hfind
    obtain ⟨htp', hdir', hown'⟩ := h.logs tp' log' hfind'
    have hfile : ∀ {l : PartitionLog} {k : ℕ} {t : LogSegment}, OwnFiles l →
        l.segments[k]? = some t → t.path = segmentPath l.baseDir t.baseOffset := by
      intro l k t hl ht
      exact hl.ascending.path_eq _ (List.mem_map_of_mem (List.mem_of_getElem? ht))
    rw [hfile hown hs, hfile hown' hs'] at hpath
    obtain ⟨hbase, hoffset⟩ := segmentPath_inj hpath
    rw [hdir, hdir', partitionPath_eq, partitionPath_eq, List.append_cancel_left_eq,
      List.cons.injEq] at hbase
    obtain rfl := hdirs.apart tp htp tp' htp' hbase.2
    obtain rfl := Option.some.inj (hfind.symm.trans hfind')
    refine ⟨rfl, ?_⟩
    have hnodup := hown.nodup
    rw [← map_baseOffset_segments] at hnodup
    have hlt : i < log.segments.length := (List.getElem?_eq_some_iff.mp hs).1
    refine (List.getElem?_inj (by rwa [List.length_map]) hnodup).mp ?_
    rw [List.getElem?_map, List.getElem?_map, hs, hs', Option.map_some, Option.map_some, hoffset]

end Stored

/-- INTERNAL: **the run lemma:** so do calls that are served one after the other. -/
theorem Stored.exchanges {tps : List TopicPartition} {b b' : Broker}
    {calls : List (GroupEnv × ServiceCall)} {responses : List Bytes}
    (hrun : Exchanges b calls responses b') (h : Stored tps b)
    (htps : ∀ c ∈ calls, ∀ tp ∈ c.2.partitions, tp ∈ tps) (hfills : ∀ c ∈ calls, c.2.Fills) :
    Stored tps b' := by
  induction hrun with
  | nil b => exact h
  | cons first _ ih =>
    obtain ⟨request, result, hdenotes, hperform, -⟩ := first.served
    refine ih (h.perform hdenotes (htps _ List.mem_cons_self) (hfills _ List.mem_cons_self) hperform)
      (fun c hc => htps c (List.mem_cons_of_mem _ hc))
      fun c hc => hfills c (List.mem_cons_of_mem _ hc)

end StrikeMQ.Analysis.CallFiles
