import StrikeMQ.Lib.Ring
import StrikeMQ.Lib.Runs
import StrikeMQ.Interface.SpscQueue

/-!
# The ring between two threads is a lossless queue

Both threads decide on copies of the other's counter, and a copy may be old. What makes them
right is that they err on one side: the producer has seen a tail that is not beyond the real
one, so it finds less room than there is, and the consumer a head that is not beyond the real
one, so it finds fewer items than there are. `Inv s seenTail seenHead` says this with the two
counters that were seen, counted from the start without wrapping; and that the slots between
what the consumer has read and what the producer has written hold the items in order.

The counters wrap at `2 ^ 64`. No two that are compared are further apart than the capacity, so
their difference is the same after wrapping.
-/

set_option autoImplicit false

namespace StrikeMQ.Analysis.SpscQueue

open StrikeMQ.Lib StrikeMQ.Model StrikeMQ.Interface
open StrikeMQ.Model.SpscState (noRoom)

variable {α : Type} {capacity : ℕ}

/-! ## Counters that wrap -/

section Counters

variable {a b : ℕ} (hcap : capacity ≤ 2 ^ 63) (hle : a ≤ b) (hnear : b ≤ a + capacity)

include hcap hle hnear

theorem wrapped_sub : toUInt64 ((b % 2 ^ 64 : ℕ) - (a % 2 ^ 64 : ℕ) : ℤ) = b - a := by
  unfold toUInt64
  omega

theorem wrapped_eq_iff : b % 2 ^ 64 = a % 2 ^ 64 ↔ b = a := by
  omega

/-- INTERNAL: the test for room compares the counts themselves, though both wrap. -/
theorem noRoom_iff : noRoom capacity (b % 2 ^ 64) (a % 2 ^ 64) = true ↔ b = a + capacity := by
  have hsub : toUInt64 ((toUInt64 (((b % 2 ^ 64 : ℕ) : ℤ) + 1) : ℤ) - (a % 2 ^ 64 : ℕ)) =
      b + 1 - a := by
    unfold toUInt64
    omega
  rw [noRoom, decide_eq_true_iff, hsub]
  omega

end Counters

theorem wrapped_add (n m : ℕ) : toUInt64 ((n % 2 ^ 64 : ℕ) + (m : ℕ) : ℤ) = (n + m) % 2 ^ 64 := by
  unfold toUInt64
  omega

/-- INTERNAL: the capacity divides the number at which the counters wrap, so a wrapped counter
stands for the same slot. -/
theorem slot_eq (hpow : ∃ k < 64, capacity = 2 ^ k) (n : ℕ) :
    (n % 2 ^ 64) &&& SpscRingBuffer.kMask capacity = n % capacity := by
  obtain ⟨k, hk, rfl⟩ := hpow
  have hdvd : 2 ^ k ∣ 2 ^ 64 := pow_dvd_pow 2 (by omega)
  rw [SpscRingBuffer.kMask, Nat.and_two_pow_sub_one_eq_mod, Nat.mod_mod_of_dvd n hdvd]

/-! ## What the threads are at -/

/-- The slots that the producer has found free and not published yet. -/
def reserved : SpscProducer α → ℕ
  | .writeSlot _ _ => 1
  | .storeHead _ _ => 1
  | _ => 0

/-- The item that the producer has written and not published yet. -/
def written : SpscProducer α → List α
  | .storeHead item _ => [item]
  | _ => []

def loadedHead : SpscProducer α → Option ℕ
  | .loadTail _ head => some head
  | .writeSlot _ head => some head
  | .storeHead _ head => some head
  | _ => none

/-- The number of items that the consumer's call will take. -/
def claimed : SpscConsumer α → ℕ
  | .popReadSlot _ => 1
  | .popStoreTail _ _ => 1
  | .batchReadSlot _ count _ => count
  | .batchStoreTail _ output => output.length
  | _ => 0

/-- The items that the consumer's call has taken out of their slots. -/
def held : SpscConsumer α → List α
  | .popStoreTail _ item => [item]
  | .batchReadSlot _ _ output => output
  | .batchStoreTail _ output => output
  | _ => []

def loadedTail : SpscConsumer α → Option ℕ
  | .popLoadHead tail => some tail
  | .popReadSlot tail => some tail
  | .popStoreTail tail _ => some tail
  | .batchLoadHead _ tail => some tail
  | .batchReadSlot tail _ _ => some tail
  | .batchStoreTail tail _ => some tail
  | _ => none

/-- A batch that is still being read is not complete. -/
def Reading : SpscConsumer α → Prop
  | .batchReadSlot _ count output => output.length < count
  | _ => True

/-! ## The invariant -/

structure Counters (r : SpscRingBuffer α capacity)
    (pushed received seenTail seenHead : ℕ) : Prop where
  head_eq : r.head = pushed % 2 ^ 64
  tail_eq : r.tail = received % 2 ^ 64
  tailCached_eq : r.tailCached = seenTail % 2 ^ 64
  headCached_eq : r.headCached = seenHead % 2 ^ 64
  seenTail_le : seenTail ≤ received
  seenHead_le : seenHead ≤ pushed

structure Inv (capacity : ℕ) (s : SpscState α capacity) (seenTail seenHead : ℕ) : Prop where
  counters : Counters s.ring s.pushed.length s.received.length seenTail seenHead
  room : s.pushed.length + reserved s.producer ≤ seenTail + capacity
  claimed_le : s.received.length + claimed s.consumer ≤ seenHead
  fifo : s.received ++ held s.consumer <+: s.pushed
  window : Window s.ring.storage s.unread capacity
    (s.received.length + (held s.consumer).length) (s.pushed ++ written s.producer)
  head_loaded : ∀ head ∈ loadedHead s.producer, head = s.ring.head
  tail_loaded : ∀ tail ∈ loadedTail s.consumer, tail = s.ring.tail
  reading : Reading s.consumer

theorem inv_new (init : α) :
    Inv capacity ({ ring := SpscRingBuffer.new init } : SpscState α capacity) 0 0 where
  counters := ⟨rfl, rfl, rfl, rfl, Nat.le_refl 0, Nat.le_refl 0⟩
  room := Nat.zero_le _
  claimed_le := Nat.le_refl 0
  fifo := List.prefix_rfl
  window := window_nil _ _
  head_loaded _ h := absurd h (Option.not_mem_none _)
  tail_loaded _ h := absurd h (Option.not_mem_none _)
  reading := trivial

namespace Inv

variable {s : SpscState α capacity} {seenTail seenHead : ℕ}

/-! ### Moves of the producer -/

/-- INTERNAL: a move that touches nothing but the producer's own state. -/
theorem withProducer (h : Inv capacity s seenTail seenHead) (p : SpscProducer α)
    (hroom : s.pushed.length + reserved p ≤ seenTail + capacity)
    (hwritten : written p = written s.producer)
    (hhead : ∀ head ∈ loadedHead p, head = s.ring.head) :
    Inv capacity { s with producer := p } seenTail seenHead where
  counters := h.counters
  room := hroom
  claimed_le := h.claimed_le
  fifo := h.fifo
  window := by
    rw [hwritten]
    exact h.window
  head_loaded := hhead
  tail_loaded := h.tail_loaded
  reading := h.reading

/-- INTERNAL: the producer sees the tail as it is. -/
theorem refreshTail (h : Inv capacity s seenTail seenHead) :
    Inv capacity { s with ring := { s.ring with tailCached := s.ring.tail } } s.received.length
      seenHead where
  counters :=
    { h.counters with tailCached_eq := h.counters.tail_eq, seenTail_le := Nat.le_refl _ }
  room := by
    have hroom := h.room
    have hseen := h.counters.seenTail_le
    show s.pushed.length + reserved s.producer ≤ s.received.length + capacity
    omega
  claimed_le := h.claimed_le
  fifo := h.fifo
  window := h.window
  head_loaded := h.head_loaded
  tail_loaded := h.tail_loaded
  reading := h.reading

/-- INTERNAL: the item goes into the slot behind all those in use. -/
theorem writeSlot (h : Inv capacity s seenTail seenHead) (hpow : ∃ k < 64, capacity = 2 ^ k) {item : α} {head : ℕ}
    (hp : s.producer = .writeSlot item head) :
    head &&& SpscRingBuffer.kMask capacity = s.pushed.length % capacity ∧
      s.pushed.length % capacity ∉ s.unread ∧
      Inv capacity { s with
        ring := { s.ring with
          storage := Function.update s.ring.storage (s.pushed.length % capacity) item }
        producer := .storeHead item head
        unread := insert (s.pushed.length % capacity) s.unread } seenTail seenHead := by
  have hhead : head = s.ring.head := h.head_loaded head (by rw [hp]; rfl)
  have hwindow := h.window
  have hroom := h.room
  have hseen := h.counters.seenTail_le
  rw [hp] at hwindow hroom
  simp only [written, List.append_nil] at hwindow
  simp only [reserved] at hroom
  refine ⟨?_, hwindow.next_notMem (by omega), ?_⟩
  · rw [hhead, h.counters.head_eq, slot_eq hpow]
  · exact {
      counters := ⟨h.counters.1, h.counters.2, h.counters.3, h.counters.4, h.counters.5,
        h.counters.6⟩
      room := hroom
      claimed_le := h.claimed_le
      fifo := h.fifo
      window := hwindow.write (by omega) item
      head_loaded := fun _ hmem => (Option.some.inj hmem).symm.trans hhead
      tail_loaded := h.tail_loaded
      reading := h.reading }

/-- INTERNAL: **publishing an item.** -/
theorem storeHead (h : Inv capacity s seenTail seenHead) {item : α} {head : ℕ}
    (hp : s.producer = .storeHead item head) :
    Inv capacity { s with
      ring := { s.ring with head := toUInt64 (head + 1) }
      producer := .idle (some true)
      pushed := s.pushed ++ [item] } seenTail seenHead := by
  have hhead : head = s.ring.head := h.head_loaded head (by rw [hp]; rfl)
  have hwindow := h.window
  have hroom := h.room
  rw [hp] at hwindow hroom
  have hlen : (s.pushed ++ [item]).length = s.pushed.length + 1 := List.length_append
  exact {
    counters := by
      refine ⟨?_, h.counters.2, h.counters.3, h.counters.4, h.counters.5, ?_⟩
      · show toUInt64 (head + 1) = (s.pushed ++ [item]).length % 2 ^ 64
        rw [hhead, h.counters.head_eq, hlen]
        exact wrapped_add s.pushed.length 1
      · have hseen := h.counters.seenHead_le
        rw [hlen]
        omega
    room := by
      rw [hlen]
      exact hroom
    claimed_le := h.claimed_le
    fifo := h.fifo.trans (List.prefix_append _ _)
    window := by
      show Window _ _ _ _ (s.pushed ++ [item] ++ [])
      rw [List.append_nil]
      exact hwindow
    head_loaded := fun _ hmem => absurd hmem (Option.not_mem_none _)
    tail_loaded := h.tail_loaded
    reading := h.reading }

/-! ### Moves of the consumer -/

/-- INTERNAL: a move that touches nothing but the consumer's own state. -/
theorem withConsumer (h : Inv capacity s seenTail seenHead) (c : SpscConsumer α)
    (hclaimed : s.received.length + claimed c ≤ seenHead) (hheld : held c = held s.consumer)
    (htail : ∀ tail ∈ loadedTail c, tail = s.ring.tail) (hreading : Reading c) :
    Inv capacity { s with consumer := c } seenTail seenHead where
  counters := h.counters
  room := h.room
  claimed_le := hclaimed
  fifo := by
    rw [hheld]
    exact h.fifo
  window := by
    rw [hheld]
    exact h.window
  head_loaded := h.head_loaded
  tail_loaded := htail
  reading := hreading

/-- INTERNAL: the consumer sees the head as it is. -/
theorem refreshHead (h : Inv capacity s seenTail seenHead) :
    Inv capacity { s with ring := { s.ring with headCached := s.ring.head } } seenTail
      s.pushed.length where
  counters :=
    { h.counters with headCached_eq := h.counters.head_eq, seenHead_le := Nat.le_refl _ }
  room := h.room
  claimed_le := by
    have hclaimed := h.claimed_le
    have hseen := h.counters.seenHead_le
    show s.received.length + claimed s.consumer ≤ s.pushed.length
    omega
  fifo := h.fifo
  window := h.window
  head_loaded := h.head_loaded
  tail_loaded := h.tail_loaded
  reading := h.reading

/-- INTERNAL: **taking an item out of its slot.** It is the one behind those that were taken
before. -/
theorem readSlot (h : Inv capacity s seenTail seenHead) (y : α)
    (hmore : (held s.consumer).length < claimed s.consumer) {slot : ℕ}
    (hslot : slot = (s.received.length + (held s.consumer).length) % capacity)
    (c : SpscConsumer α) (hclaimed : claimed c = claimed s.consumer)
    (hheld : held c = held s.consumer ++ [s.ring.storage slot])
    (htail : ∀ tail ∈ loadedTail c, tail = s.ring.tail) (hreading : Reading c) :
    Inv capacity { s with
      ring := { s.ring with storage := Function.update s.ring.storage slot y }
      unread := s.unread.erase slot
      consumer := c } seenTail seenHead := by
  subst hslot
  have hseen := h.counters.seenHead_le
  have hle := h.claimed_le
  have hlt : s.received.length + (held s.consumer).length < s.pushed.length := by omega
  have hmem : s.received.length + (held s.consumer).length <
      (s.pushed ++ written s.producer).length := by
    rw [List.length_append]
    omega
  have hcell := h.window.cell _ (Nat.le_refl _) hmem
  rw [List.getElem?_append_left hlt] at hcell
  exact {
    counters := ⟨h.counters.1, h.counters.2, h.counters.3, h.counters.4, h.counters.5,
      h.counters.6⟩
    room := h.room
    claimed_le := by
      show s.received.length + claimed c ≤ seenHead
      rw [hclaimed]
      exact hle
    fifo := by
      show s.received ++ held c <+: s.pushed
      rw [hheld, ← List.append_assoc]
      refine concat_prefix_of_getElem? h.fifo ?_
      rw [List.length_append]
      exact hcell
    window := by
      show Window _ _ _ (s.received.length + (held c).length) _
      rw [hheld, List.length_append, List.length_singleton, ← Nat.add_assoc]
      exact h.window.read hmem y
    head_loaded := h.head_loaded
    tail_loaded := htail
    reading := hreading }

/-- INTERNAL: **giving the slots back.** The consumer has taken all the items it wanted. -/
theorem storeTail (h : Inv capacity s seenTail seenHead) (tail : ℕ)
    (htail : tail ∈ loadedTail s.consumer)
    (hall : (held s.consumer).length ≤ claimed s.consumer) :
    Inv capacity { s with
      ring := { s.ring with tail := toUInt64 (tail + (held s.consumer).length) }
      consumer := .idle (held s.consumer)
      received := s.received ++ held s.consumer } seenTail seenHead := by
  have hloaded := h.tail_loaded tail htail
  have hlen : (s.received ++ held s.consumer).length =
      s.received.length + (held s.consumer).length := List.length_append
  exact {
    counters := by
      refine ⟨h.counters.1, ?_, h.counters.3, h.counters.4, ?_, h.counters.6⟩
      · show toUInt64 (tail + (held s.consumer).length) =
          (s.received ++ held s.consumer).length % 2 ^ 64
        rw [hloaded, h.counters.tail_eq, hlen]
        exact wrapped_add _ _
      · have hseen := h.counters.seenTail_le
        rw [hlen]
        omega
    room := h.room
    claimed_le := by
      have hle := h.claimed_le
      rw [hlen]
      show s.received.length + (held s.consumer).length + 0 ≤ seenHead
      omega
    fifo := by
      show s.received ++ held s.consumer ++ [] <+: s.pushed
      rw [List.append_nil]
      exact h.fifo
    window := by
      rw [hlen]
      exact h.window
    head_loaded := h.head_loaded
    tail_loaded := fun _ hmem => absurd hmem (Option.not_mem_none _)
    reading := trivial }

/-! ### Steps -/

theorem seenTail_le_pushed (h : Inv capacity s seenTail seenHead) :
    seenTail ≤ s.pushed.length := by
  have htail := h.counters.seenTail_le
  have hhead := h.counters.seenHead_le
  have hclaimed := h.claimed_le
  omega

theorem pushed_le (h : Inv capacity s seenTail seenHead) :
    s.pushed.length ≤ seenTail + capacity := by
  have hroom := h.room
  omega

theorem received_le (h : Inv capacity s seenTail seenHead) :
    s.received.length ≤ s.pushed.length := by
  have hclaimed := h.claimed_le
  have hhead := h.counters.seenHead_le
  omega

theorem next_mem_unread (h : Inv capacity s seenTail seenHead)
    (hmore : (held s.consumer).length < claimed s.consumer) :
    (s.received.length + (held s.consumer).length) % capacity ∈ s.unread := by
  apply h.window.first_mem
  have hseen := h.counters.seenHead_le
  have hle := h.claimed_le
  rw [List.length_append]
  omega

section Steps

variable (hpow : ∃ k < 64, capacity = 2 ^ k)

include hpow

theorem capacity_le : capacity ≤ 2 ^ 63 := by
  obtain ⟨k, hk, rfl⟩ := hpow
  exact Nat.pow_le_pow_right (by norm_num) (by omega)

/-- INTERNAL: the producer sees no room exactly when what it has seen leaves none. -/
theorem noRoom_iff_seen (h : Inv capacity s seenTail seenHead) :
    noRoom capacity s.ring.head s.ring.tailCached = true ↔
      s.pushed.length = seenTail + capacity := by
  rw [h.counters.head_eq, h.counters.tailCached_eq]
  exact noRoom_iff (capacity_le hpow) h.seenTail_le_pushed h.pushed_le

/-- INTERNAL: **a step of the producer.** -/
theorem produce (h : Inv capacity s seenTail seenHead) {s' : SpscState α capacity}
    (hs : s.produce = some s') : ∃ seenTail', Inv capacity s' seenTail' seenHead := by
  have hle := h.pushed_le
  unfold SpscState.produce at hs
  cases hp : s.producer with
  | idle result =>
    rw [hp] at hs
    cases hs
  | loadHead item =>
    simp only [hp] at hs
    have hself : ∀ head ∈ some s.ring.head, head = s.ring.head :=
      fun _ hmem => (Option.some.inj hmem).symm
    split at hs
    · cases hs
      exact ⟨seenTail, h.withProducer _ hle (by rw [hp]; rfl) hself⟩
    · next hroom =>
      rw [noRoom_iff_seen hpow h] at hroom
      cases hs
      refine ⟨seenTail, h.withProducer _ ?_ (by rw [hp]; rfl) hself⟩
      show s.pushed.length + 1 ≤ seenTail + capacity
      omega
  | loadTail item head =>
    simp only [hp] at hs
    have hloaded : ∀ head' ∈ some head, head' = s.ring.head := by
      intro head' hmem
      exact h.head_loaded head' (by rw [hp]; exact hmem)
    have hseen := h.refreshTail
    have hle' := hseen.pushed_le
    split at hs
    · cases hs
      exact ⟨_, hseen.withProducer (.idle (some false)) hle' (by rw [hp]; rfl)
        fun _ hmem => absurd hmem (Option.not_mem_none _)⟩
    · next hroom =>
      rw [hloaded head rfl] at hroom
      have hroom' := mt (noRoom_iff_seen hpow hseen).mpr hroom
      cases hs
      refine ⟨_, hseen.withProducer (.writeSlot item head) ?_ (by rw [hp]; rfl) hloaded⟩
      show s.pushed.length + 1 ≤ s.received.length + capacity
      simp only at hroom' hle'
      omega
  | writeSlot item head =>
    obtain ⟨hslot, -, hinv⟩ := h.writeSlot hpow hp
    simp only [hp, hslot] at hs
    cases hs
    exact ⟨seenTail, hinv⟩
  | storeHead item head =>
    simp only [hp] at hs
    cases hs
    exact ⟨seenTail, h.storeHead hp⟩

/-- INTERNAL: the consumer sees nothing exactly when what it has seen is all received. -/
theorem headCached_eq_tail_iff (h : Inv capacity s seenTail seenHead) :
    s.ring.headCached = s.ring.tail ↔ seenHead = s.received.length := by
  have hclaimed := h.claimed_le
  have hseen := h.counters.seenHead_le
  have htail := h.counters.seenTail_le
  have hle := h.pushed_le
  rw [h.counters.headCached_eq, h.counters.tail_eq]
  exact wrapped_eq_iff (capacity_le hpow) (by omega) (by omega)

/-- INTERNAL: the difference of the indices is the number of items in the ring. -/
theorem available_eq (h : Inv capacity s seenTail seenHead) :
    toUInt64 ((s.ring.head : ℤ) - s.ring.tail) = s.pushed.length - s.received.length := by
  have htail := h.counters.seenTail_le
  have hle := h.pushed_le
  rw [h.counters.head_eq, h.counters.tail_eq]
  exact wrapped_sub (capacity_le hpow) h.received_le (by omega)

theorem popSlot_eq (h : Inv capacity s seenTail seenHead) {tail : ℕ}
    (hc : s.consumer = .popReadSlot tail) :
    tail &&& SpscRingBuffer.kMask capacity =
      (s.received.length + (held s.consumer).length) % capacity := by
  rw [h.tail_loaded tail (by rw [hc]; rfl), h.counters.tail_eq, slot_eq hpow, hc]
  rfl

theorem batchSlot_eq (h : Inv capacity s seenTail seenHead) {tail count : ℕ} {output : List α}
    (hc : s.consumer = .batchReadSlot tail count output) :
    toUInt64 (tail + output.length) &&& SpscRingBuffer.kMask capacity =
      (s.received.length + (held s.consumer).length) % capacity := by
  rw [h.tail_loaded tail (by rw [hc]; rfl), h.counters.tail_eq, wrapped_add, slot_eq hpow, hc]
  rfl

/-- INTERNAL: **taking the item of a pop.** -/
theorem consume_popReadSlot (h : Inv capacity s seenTail seenHead) {tail : ℕ}
    (hc : s.consumer = .popReadSlot tail) {moved : α → α} {s' : SpscState α capacity}
    (hs : s.consume moved = some s') : Inv capacity s' seenTail seenHead := by
  have hslot := popSlot_eq hpow h hc
  have hheld : held s.consumer = [] := by rw [hc]; rfl
  have hone : claimed s.consumer = 1 := by rw [hc]; rfl
  simp only [SpscState.consume, hc, SpscState.takeSlot] at hs
  cases hs
  refine h.readSlot _ ?_ hslot (.popStoreTail tail _) ?_ ?_ ?_ trivial
  · rw [hheld, hone]
    exact Nat.one_pos
  · exact hone.symm
  · rw [hheld]
    rfl
  · intro tail' hmem
    exact h.tail_loaded tail' (by rw [hc]; exact hmem)

/-- INTERNAL: **one round of the loop of a batch**, which ends with the last item wanted. -/
theorem consume_batchReadSlot (h : Inv capacity s seenTail seenHead) {tail count : ℕ}
    {output : List α} (hc : s.consumer = .batchReadSlot tail count output) {moved : α → α}
    {s' : SpscState α capacity} (hs : s.consume moved = some s') :
    Inv capacity s' seenTail seenHead := by
  have hslot := batchSlot_eq hpow h hc
  have hheld : held s.consumer = output := by rw [hc]; rfl
  have hcount : claimed s.consumer = count := by rw [hc]; rfl
  have hreading := h.reading
  rw [hc] at hreading
  have hloaded : ∀ tail' ∈ some tail, tail' = s.ring.tail := by
    intro tail' hmem
    exact h.tail_loaded tail' (by rw [hc]; exact hmem)
  have hmore : (held s.consumer).length < claimed s.consumer := by
    rw [hheld, hcount]
    exact hreading
  simp only [SpscState.consume, hc, SpscState.takeSlot] at hs
  split at hs
  · next hless =>
    cases hs
    refine h.readSlot _ hmore hslot (.batchReadSlot tail count _) hcount.symm ?_ hloaded hless
    rw [hheld]
    rfl
  · next hlast =>
    cases hs
    refine h.readSlot _ hmore hslot (.batchStoreTail tail _) ?_ ?_ hloaded trivial
    · rw [List.length_append, List.length_singleton] at hlast
      show (output ++ [_]).length = claimed s.consumer
      rw [List.length_append, List.length_singleton, hcount]
      have hlt : output.length < count := hreading
      omega
    · rw [hheld]
      rfl

/-- INTERNAL: **a step of the consumer.** -/
theorem consume (h : Inv capacity s seenTail seenHead) {moved : α → α}
    {s' : SpscState α capacity} (hs : s.consume moved = some s') :
    ∃ seenHead', Inv capacity s' seenTail seenHead' := by
  have hself : ∀ tail ∈ some s.ring.tail, tail = s.ring.tail :=
    fun _ hmem => (Option.some.inj hmem).symm
  have hnone : ∀ tail ∈ (none : Option ℕ), tail = s.ring.tail :=
    fun _ hmem => absurd hmem (Option.not_mem_none _)
  have hrefreshed := h.refreshHead
  have hclaimed := h.claimed_le
  have hreceived := h.received_le
  cases hc : s.consumer with
  | idle result =>
    rw [SpscState.consume, hc] at hs
    cases hs
  | popLoadTail =>
    simp only [SpscState.consume, hc] at hs
    have hheld : held s.consumer = [] := by rw [hc]; rfl
    split at hs
    · cases hs
      refine ⟨seenHead, h.withConsumer (.popLoadHead _) ?_ hheld.symm hself trivial⟩
      show s.received.length + 0 ≤ seenHead
      omega
    · next hmore =>
      rw [headCached_eq_tail_iff hpow h] at hmore
      cases hs
      refine ⟨seenHead, h.withConsumer (.popReadSlot _) ?_ hheld.symm hself trivial⟩
      show s.received.length + 1 ≤ seenHead
      omega
  | popLoadHead tail =>
    simp only [SpscState.consume, hc] at hs
    have hheld : held s.consumer = [] := by rw [hc]; rfl
    have htail : tail = s.ring.tail := h.tail_loaded tail (by rw [hc]; rfl)
    subst htail
    split at hs
    · cases hs
      exact ⟨_, hrefreshed.withConsumer (.idle []) hreceived hheld.symm hnone trivial⟩
    · next hmore =>
      have hne := mt (headCached_eq_tail_iff hpow hrefreshed).mpr hmore
      cases hs
      refine ⟨_, hrefreshed.withConsumer (.popReadSlot _) ?_ hheld.symm hself trivial⟩
      show s.received.length + 1 ≤ s.pushed.length
      simp only at hne
      omega
  | popReadSlot tail => exact ⟨seenHead, consume_popReadSlot hpow h hc hs⟩
  | popStoreTail tail item =>
    have hstored := h.storeTail tail (by rw [hc]; rfl) (by rw [hc]; exact Nat.le_refl 1)
    simp only [SpscState.consume, hc] at hs hstored
    cases hs
    exact ⟨seenHead, hstored⟩
  | batchLoadTail maxCount =>
    simp only [SpscState.consume, hc] at hs
    have hheld : held s.consumer = [] := by rw [hc]; rfl
    cases hs
    refine ⟨seenHead, h.withConsumer (.batchLoadHead maxCount _) ?_ hheld.symm hself trivial⟩
    show s.received.length + 0 ≤ seenHead
    omega
  | batchLoadHead maxCount tail =>
    have hheld : held s.consumer = [] := by rw [hc]; rfl
    have htail : tail = s.ring.tail := h.tail_loaded tail (by rw [hc]; rfl)
    subst htail
    simp only [SpscState.consume, hc, available_eq hpow h] at hs
    split at hs
    · next hsome =>
      cases hs
      refine ⟨_, hrefreshed.withConsumer (.batchReadSlot _ _ []) ?_ hheld.symm hself hsome⟩
      show s.received.length + min (s.pushed.length - s.received.length) maxCount ≤
        s.pushed.length
      omega
    · cases hs
      exact ⟨_, hrefreshed.withConsumer (.idle []) hreceived hheld.symm hnone trivial⟩
  | batchReadSlot tail count output => exact ⟨seenHead, consume_batchReadSlot hpow h hc hs⟩
  | batchStoreTail tail output =>
    have hstored := h.storeTail tail (by rw [hc]; rfl) (by rw [hc]; exact Nat.le_refl _)
    simp only [SpscState.consume, hc] at hs hstored
    cases hs
    exact ⟨seenHead, hstored⟩

/-- INTERNAL: **the step lemma.** -/
theorem step (h : Inv capacity s seenTail seenHead) {moved : α → α} {a : SpscStep α}
    {s' : SpscState α capacity} (hs : s.step moved a = some s') :
    ∃ seenTail' seenHead', Inv capacity s' seenTail' seenHead' := by
  have hclaimed := h.claimed_le
  cases a with
  | tryPush item =>
    simp only [SpscState.step] at hs
    split at hs
    · next hp =>
      cases hs
      exact ⟨_, _, h.withProducer (.loadHead item) h.pushed_le (by rw [hp]; rfl)
        fun _ hmem => absurd hmem (Option.not_mem_none _)⟩
    · cases hs
  | tryPop =>
    simp only [SpscState.step] at hs
    split at hs
    · next hc =>
      cases hs
      refine ⟨_, _, h.withConsumer .popLoadTail ?_ (by rw [hc]; rfl)
        (fun _ hmem => absurd hmem (Option.not_mem_none _)) trivial⟩
      exact le_trans (Nat.le_add_right _ _) hclaimed
    · cases hs
  | tryPopBatch maxCount =>
    simp only [SpscState.step] at hs
    split at hs
    · next hc =>
      cases hs
      refine ⟨_, _, h.withConsumer (.batchLoadTail maxCount) ?_ (by rw [hc]; rfl)
        (fun _ hmem => absurd hmem (Option.not_mem_none _)) trivial⟩
      exact le_trans (Nat.le_add_right _ _) hclaimed
    · cases hs
  | produce =>
    obtain ⟨seenTail', h'⟩ := produce hpow h hs
    exact ⟨seenTail', seenHead, h'⟩
  | consume =>
    obtain ⟨seenHead', h'⟩ := consume hpow h hs
    exact ⟨seenTail, seenHead', h'⟩

/-! ### What follows at every moment -/

/-- INTERNAL: the consumer reads slots of items that it has not taken. -/
theorem reads_mem_unread (h : Inv capacity s seenTail seenHead) {slot : ℕ}
    (hreads : Interface.SpscState.reads s = some slot) : slot ∈ s.unread := by
  unfold Interface.SpscState.reads at hreads
  split at hreads
  · next tail hc =>
    obtain rfl := Option.some.inj hreads
    rw [popSlot_eq hpow h hc]
    apply h.next_mem_unread
    rw [hc]
    exact Nat.one_pos
  · next tail count output hc =>
    obtain rfl := Option.some.inj hreads
    rw [batchSlot_eq hpow h hc]
    apply h.next_mem_unread
    have hreading := h.reading
    rw [hc] at hreading ⊢
    exact hreading
  · cases hreads

/-- INTERNAL: the producer writes no such slot. -/
theorem writes_notMem_unread (h : Inv capacity s seenTail seenHead) {slot : ℕ}
    (hwrites : Interface.SpscState.writes s = some slot) : slot ∉ s.unread := by
  unfold Interface.SpscState.writes at hwrites
  split at hwrites
  · next item head hp =>
    obtain ⟨hslot, hfree, -⟩ := h.writeSlot hpow hp
    obtain rfl := Option.some.inj hwrites
    rw [hslot]
    exact hfree
  · cases hwrites

/-- INTERNAL: a push fails after it has looked at the real tail. -/
theorem size_of_pushFails (h : Inv capacity s seenTail seenHead)
    (hfails : Interface.SpscState.PushFails s) : Interface.SpscState.size s = capacity := by
  obtain ⟨s', hs, hresult⟩ := hfails
  unfold SpscState.produce at hs
  unfold Interface.SpscState.size
  cases hp : s.producer with
  | loadTail item head =>
    simp only [hp] at hs
    split at hs
    · next hroom =>
      rw [h.head_loaded head (by rw [hp]; rfl)] at hroom
      have hfull := (noRoom_iff_seen hpow h.refreshTail).mp hroom
      simp only at hfull
      omega
    · cases hs
      cases hresult
  | loadHead item =>
    simp only [hp] at hs
    split at hs <;> cases hs <;> cases hresult
  | idle result =>
    simp only [hp] at hs
    cases hs
  | writeSlot item head =>
    simp only [hp] at hs
    cases hs
    cases hresult
  | storeHead item head =>
    simp only [hp] at hs
    cases hs
    cases hresult

/-- INTERNAL: a pop fails after it has looked at the real head. -/
theorem size_of_popFails (h : Inv capacity s seenTail seenHead) {moved : α → α}
    (hfails : Interface.SpscState.PopFails moved s) : Interface.SpscState.size s = 0 := by
  obtain ⟨hpop, s', hs, hresult⟩ := hfails
  unfold SpscState.consume at hs
  unfold Interface.SpscState.size
  unfold Interface.SpscState.InPop at hpop
  cases hc : s.consumer with
  | popLoadHead tail =>
    simp only [hc] at hs
    split at hs
    · next hempty =>
      rw [h.tail_loaded tail (by rw [hc]; rfl)] at hempty
      have hall := (headCached_eq_tail_iff hpow h.refreshHead).mp hempty
      simp only at hall
      omega
    · cases hs
      cases hresult
  | popLoadTail =>
    simp only [hc] at hs
    split at hs <;> cases hs <;> cases hresult
  | popReadSlot tail =>
    simp only [hc] at hs
    cases hs
    cases hresult
  | popStoreTail tail item =>
    simp only [hc] at hs
    cases hs
    cases hresult
  | idle result => simp only [hc] at hpop
  | batchLoadTail maxCount => simp only [hc] at hpop
  | batchLoadHead maxCount tail => simp only [hc] at hpop
  | batchReadSlot tail count output => simp only [hc] at hpop
  | batchStoreTail tail output => simp only [hc] at hpop

theorem losslessQueue (h : Inv capacity s seenTail seenHead) (moved : α → α) :
    LosslessQueue moved s where
  fifo := (List.prefix_append _ _).trans h.fifo
  bounded := by
    have hle := h.pushed_le
    have hseen := h.counters.seenTail_le
    unfold Interface.SpscState.size
    omega
  overwrites_nothing _ hwrites := writes_notMem_unread hpow h hwrites
  reads_written _ hreads := reads_mem_unread hpow h hreads
  push_fails_full hfails := size_of_pushFails hpow h hfails
  pop_fails_empty hfails := size_of_popFails hpow h hfails

end Steps

end Inv

/-! ## The histories -/

theorem popped_eq_nil {s s' : SpscState α capacity} (h : s'.consumer = s.consumer) :
    SpscState.popped s s' = [] := by
  unfold SpscState.popped
  rw [h]
  cases s.consumer <;> rfl

theorem accepted_eq_nil {s s' : SpscState α capacity} (h : s'.producer = s.producer) :
    SpscState.accepted s s' = [] := by
  unfold SpscState.accepted
  rw [h]
  split
  · next hp => rw [SpscState.pushing, hp]
  · rfl

/-- INTERNAL: an access of the producer adds to what was pushed the item of a push that succeeds. -/
theorem pushed_produce {s s' : SpscState α capacity} (hs : s.produce = some s') :
    (s'.consumer = s.consumer ∧ s'.received = s.received) ∧
      s'.pushed = s.pushed ++ SpscState.accepted s s' := by
  simp only [SpscState.produce] at hs
  split at hs
  case h_1 => cases hs
  case h_2 | h_3 => split at hs <;> cases hs <;> simp [SpscState.accepted]
  case h_4 => cases hs; simp [SpscState.accepted]
  case h_5 item head hp => cases hs; simp [SpscState.accepted, SpscState.pushing, hp]

/-- INTERNAL: an access of the consumer adds to what was received what its call returns. -/
theorem received_consume {moved : α → α} {s s' : SpscState α capacity}
    (hs : s.consume moved = some s') :
    (s'.producer = s.producer ∧ s'.pushed = s.pushed) ∧
      s'.received = s.received ++ SpscState.popped s s' := by
  cases hc : s.consumer <;> simp only [SpscState.consume, hc, SpscState.takeSlot] at hs
  case idle => cases hs
  case popLoadTail | popLoadHead | batchLoadHead | batchReadSlot =>
    split at hs <;> cases hs <;> simp [SpscState.popped, hc]
  case popReadSlot | popStoreTail | batchLoadTail | batchStoreTail =>
    cases hs
    simp [SpscState.popped, hc]

/-- INTERNAL: **the step lemma** for the histories: they grow by what the calls return. -/
theorem histories_step {moved : α → α} {s s' : SpscState α capacity} {a : SpscStep α}
    (hs : s.step moved a = some s') :
    s'.received = s.received ++ SpscState.popped s s' ∧
      s'.pushed = s.pushed ++ SpscState.accepted s s' := by
  cases a with
  | tryPush item =>
    simp only [SpscState.step] at hs
    split at hs <;> cases hs
    refine ⟨?_, (List.append_nil _).symm⟩
    rw [popped_eq_nil, List.append_nil]
    rfl
  | tryPop | tryPopBatch maxCount =>
    simp only [SpscState.step] at hs
    split at hs
    case h_1 hc =>
      cases hs
      refine ⟨by simp [SpscState.popped, hc], ?_⟩
      rw [accepted_eq_nil, List.append_nil]
      rfl
    case h_2 => cases hs
  | produce =>
    obtain ⟨⟨hconsumer, hreceived⟩, hpushed⟩ := pushed_produce hs
    exact ⟨by rw [popped_eq_nil hconsumer, hreceived, List.append_nil], hpushed⟩
  | consume =>
    obtain ⟨⟨hproducer, hpushed⟩, hreceived⟩ := received_consume hs
    exact ⟨hreceived, by rw [accepted_eq_nil hproducer, hpushed, List.append_nil]⟩

/-- PROPERTY: what the consumer has received is what its calls have returned, and what was pushed
are the items of the calls of `try_push` that have returned true.
SOURCE: utils/ring_buffer.h:25-69 -/
theorem histories_run {moved : α → α} {init : α} {steps : List (SpscStep α)}
    {s : SpscState α capacity} (hrun : SpscState.run moved init steps = some s) :
    s.received = outputs (SpscState.step moved) SpscState.popped
        ({ ring := SpscRingBuffer.new init } : SpscState α capacity) steps ∧
      s.pushed = outputs (SpscState.step moved) SpscState.accepted
        ({ ring := SpscRingBuffer.new init } : SpscState α capacity) steps :=
  ⟨history_foldlM (fun _ _ _ hs => (histories_step hs).1) hrun,
    history_foldlM (fun _ _ _ hs => (histories_step hs).2) hrun⟩

/-- PROPERTY: **the ring is a lossless bounded queue.** For every power of two as the capacity
and every interleaving of the accesses of a producer and a consumer, over any number of calls and
of rounds of the counters: what was received is the beginning of what was pushed, in order; no
slot is overwritten before it was read, or read twice; and a push fails only at a moment when
the buffer is full, a pop only when it is empty.
SOURCE: utils/ring_buffer.h:15-87 -/
theorem spsc_is_lossless_queue {k : ℕ} (hk : k < 64) (moved : α → α) (init : α)
    (steps : List (SpscStep α)) {s : SpscState α (2 ^ k)}
    (hrun : SpscState.run moved init steps = some s) : LosslessQueue moved s := by
  have hpow : ∃ n < 64, 2 ^ k = 2 ^ n := ⟨k, hk, rfl⟩
  have hstep : ∀ (s : SpscState α (2 ^ k)) a s', (∃ seenTail seenHead,
      Inv (2 ^ k) s seenTail seenHead) → s.step moved a = some s' →
      ∃ seenTail seenHead, Inv (2 ^ k) s' seenTail seenHead := by
    rintro s a s' ⟨seenTail, seenHead, h⟩ hs
    exact Inv.step hpow h hs
  obtain ⟨seenTail, seenHead, h⟩ := foldlM_invariant hstep ⟨0, 0, inv_new init⟩ hrun
  exact Inv.losslessQueue hpow h moved

/-- Two pushes into a ring of two slots, the second one while a batch is being read. -/
theorem spsc_is_lossless_queue_two_pushes :
    let pushing : List (SpscStep ℕ) := [.tryPush 7, .produce, .produce, .produce]
    let reading : List (SpscStep ℕ) := [.tryPopBatch 2, .consume, .consume]
    let steps := pushing ++ reading ++ [.tryPush 8, .produce, .produce, .consume, .produce, .consume]
    ∃ s : SpscState ℕ (2 ^ 1), SpscState.run (fun _ => 0) 0 steps = some s ∧
      s.pushed = [7, 8] ∧ s.received = [7] ∧ LosslessQueue (fun _ => 0) s := by
  intro pushing reading steps
  obtain ⟨s, hrun, hpushed, hreceived⟩ : ∃ s : SpscState ℕ (2 ^ 1),
      SpscState.run (fun _ => 0) 0 steps = some s ∧ s.pushed = [7, 8] ∧ s.received = [7] :=
    ⟨_, rfl, rfl, rfl⟩
  exact ⟨s, hrun, hpushed, hreceived, spsc_is_lossless_queue (by decide) _ 0 steps hrun⟩

end StrikeMQ.Analysis.SpscQueue
