import StrikeMQ.Lib.Ring
import StrikeMQ.Lib.Runs
import StrikeMQ.Interface.MpscQueue

/-!
# The ring between many producers and a consumer

An index between tail and head is claimed by a producer that has yet to write its slot, or
written and not committed, or committed. At most one producer owns an index, so the slots of
the indices that nobody owns hold their items, and their flags are the ones that are set.

The consumer takes an item whose flag it has seen, clears the flag, and only then moves the
tail. In between the index is out of the queue but its slot is not free: no producer can claim
the index that would use it next, since the tail that it compares with is still the old one.
-/

set_option autoImplicit false

namespace StrikeMQ.Analysis.MpscQueue

open StrikeMQ.Lib StrikeMQ.Model StrikeMQ.Interface
open StrikeMQ.Interface.MpscProducer (owned writing)
open StrikeMQ.Interface.MpscState (Unfinished slot)

variable {α : Type} {capacity : ℕ}

/-! ## What the threads are at -/

/-- The index that each producer owns. -/
def owners (s : MpscState α capacity) : ℕ → Option ℕ :=
  owned ∘ s.producers

/-- The index whose slot each producer has still to write. -/
def writers (s : MpscState α capacity) : ℕ → Option ℕ :=
  writing ∘ s.producers

theorem owners_withProducer (s : MpscState α capacity) (p : ℕ) (a : MpscProducer α) :
    owners (s.withProducer p a) = Function.update (owners s) p (owned a) :=
  Function.comp_update _ _ _ _

theorem writers_withProducer (s : MpscState α capacity) (p : ℕ) (a : MpscProducer α) :
    writers (s.withProducer p a) = Function.update (writers s) p (writing a) :=
  Function.comp_update _ _ _ _

theorem owned_of_writing {a : MpscProducer α} {i : ℕ} (h : writing a = some i) :
    owned a = some i := by
  cases a with
  | writeSlot item head => exact h
  | idle _ => cases h
  | loadHead _ => cases h
  | loadTail _ _ => cases h
  | exchange _ _ => cases h
  | storeCommitted _ _ => cases h

theorem writing_of_owned_none {a : MpscProducer α} (h : owned a = none) : writing a = none := by
  cases hw : writing a with
  | none => rfl
  | some i =>
    rw [owned_of_writing hw] at h
    cases h

theorem producers_withProducer_self (s : MpscState α capacity) (p : ℕ) (a : MpscProducer α) :
    (s.withProducer p a).producers p = a := by
  simp only [MpscState.withProducer, Function.update_self]

theorem producers_withProducer_of_ne (s : MpscState α capacity) {p q : ℕ} (hqp : q ≠ p)
    (a : MpscProducer α) : (s.withProducer p a).producers q = s.producers q := by
  simp only [MpscState.withProducer, Function.update_of_ne hqp]

/-- The item that the consumer has taken out of its slot. -/
def held : MpscConsumer α → List α
  | .clearCommitted _ item => [item]
  | .storeTail _ item => [item]
  | _ => []

/-- The flags that the consumer has cleared before it moves the tail. -/
def cleared : MpscConsumer α → ℕ
  | .storeTail _ _ => 1
  | _ => 0

def loadedTail : MpscConsumer α → Option ℕ
  | .loadHead tail => some tail
  | .loadCommitted tail => some tail
  | .readSlot tail => some tail
  | .clearCommitted tail _ => some tail
  | .storeTail tail _ => some tail
  | _ => none

/-- What the consumer has found out about the oldest index. -/
def Found (received claimed : ℕ) (owners : ℕ → Option ℕ) : MpscConsumer α → Prop
  | .loadCommitted _ => received < claimed
  | .readSlot _ | .clearCommitted _ _ | .storeTail _ _ =>
    received < claimed ∧ ¬Taken owners received
  | _ => True

/-- What a producer has found out, and the item whose index it has claimed. -/
def Claiming (capacity received : ℕ) (claimed : List α) : MpscProducer α → Prop
  | .loadTail _ head => head ≤ claimed.length
  | .exchange _ head => head < received + capacity
  | .writeSlot item index | .storeCommitted item index =>
    received ≤ index ∧ claimed[index]? = some item
  | _ => True

theorem claiming_append {received : ℕ} {claimed : List α} {a : MpscProducer α} (x : α)
    (h : Claiming capacity received claimed a) :
    Claiming capacity received (claimed ++ [x]) a := by
  cases a with
  | writeSlot item index | storeCommitted item index =>
    have hlt := (List.getElem?_eq_some_iff.mp h.2).1
    exact ⟨h.1, by rw [List.getElem?_append_left hlt]; exact h.2⟩
  | loadTail item head =>
    refine le_trans h ?_
    rw [List.length_append]
    exact Nat.le_add_right _ _
  | exchange item head => exact h
  | idle result => trivial
  | loadHead item => trivial

/-- INTERNAL: the oldest index leaves the queue, and no producer owns it. -/
theorem claiming_succ {received : ℕ} {claimed : List α} {a : MpscProducer α}
    (h : Claiming capacity received claimed a) (hne : owned a ≠ some received) :
    Claiming capacity (received + 1) claimed a := by
  have hlater : ∀ index, received ≤ index → some index ≠ some received →
      received + 1 ≤ index := by
    intro index hle hindex
    have : index ≠ received := fun heq => hindex (by rw [heq])
    omega
  cases a with
  | writeSlot item index | storeCommitted item index => exact ⟨hlater index h.1 hne, h.2⟩
  | loadTail item head => exact h
  | exchange item head =>
    show head < received + 1 + capacity
    have hlt : head < received + capacity := h
    omega
  | idle result => trivial
  | loadHead item => trivial

theorem found_of_imp {received claimed claimed' : ℕ} {f f' : ℕ → Option ℕ} {c : MpscConsumer α}
    (h : Found received claimed f c) (hle : claimed ≤ claimed')
    (hf : received < claimed → Taken f' received → Taken f received) :
    Found received claimed' f' c := by
  cases c with
  | loadCommitted tail => exact lt_of_lt_of_le h hle
  | readSlot tail => exact ⟨lt_of_lt_of_le h.1 hle, fun ht => h.2 (hf h.1 ht)⟩
  | clearCommitted tail item => exact ⟨lt_of_lt_of_le h.1 hle, fun ht => h.2 (hf h.1 ht)⟩
  | storeTail tail item => exact ⟨lt_of_lt_of_le h.1 hle, fun ht => h.2 (hf h.1 ht)⟩
  | idle result => trivial
  | loadTail => trivial
  | loadHead tail => trivial

/-! ## The invariant -/

structure Inv (capacity : ℕ) (s : MpscState α capacity) : Prop where
  head_eq : s.ring.head = s.claimed.length
  tail_eq : s.ring.tail = s.received.length
  size_le : s.claimed.length ≤ s.received.length + capacity
  in_order : s.received ++ held s.consumer <+: s.claimed
  claiming : ∀ p, Claiming capacity s.received.length s.claimed (s.producers p)
  exclusive : Exclusive (owners s)
  filled : Filled s.ring.storage capacity (s.received.length + (held s.consumer).length)
    (fun i => ¬Taken (writers s) i) s.claimed
  unread : Marks capacity (s.received.length + (held s.consumer).length) s.claimed.length
    (fun i => ¬Taken (writers s) i) (· ∈ s.unread)
  flags : Marks capacity (s.received.length + cleared s.consumer) s.claimed.length
    (fun i => ¬Taken (owners s) i) (fun c => s.ring.committed c = true)
  tail_loaded : ∀ tail ∈ loadedTail s.consumer, tail = s.received.length
  found : Found s.received.length s.claimed.length (owners s) s.consumer

theorem inv_new (storage : ℕ → α) :
    Inv capacity ({ ring := { storage := storage } } : MpscState α capacity) where
  head_eq := rfl
  tail_eq := rfl
  size_le := Nat.zero_le _
  in_order := List.prefix_rfl
  claiming _ := trivial
  exclusive p q i hp := by cases hp
  filled i _ hi := absurd hi (Nat.not_lt_zero i)
  unread c := by simp
  flags c := by simp
  tail_loaded _ h := absurd h (Option.not_mem_none _)
  found := trivial

namespace Inv

variable {s : MpscState α capacity}

theorem owned_bounds (h : Inv capacity s) {p i : ℕ} (hp : owners s p = some i) :
    s.received.length ≤ i ∧ i < s.claimed.length := by
  have hclaim := h.claiming p
  unfold owners at hp
  rw [Function.comp_apply] at hp
  cases ha : s.producers p with
  | writeSlot item head | storeCommitted item head =>
    rw [ha] at hclaim hp
    obtain rfl : head = i := Option.some.inj hp
    exact ⟨hclaim.1, (List.getElem?_eq_some_iff.mp hclaim.2).1⟩
  | idle result => rw [ha] at hp; cases hp
  | loadHead item => rw [ha] at hp; cases hp
  | loadTail item head => rw [ha] at hp; cases hp
  | exchange item head => rw [ha] at hp; cases hp

/-! ### Moves of a producer -/

theorem claiming_update (h : Inv capacity s) {received : ℕ} {claimed : List α} {p : ℕ}
    {a : MpscProducer α} (ha : Claiming capacity received claimed a)
    (hothers : ∀ b, Claiming capacity s.received.length s.claimed b →
      Claiming capacity received claimed b) (q : ℕ) :
    Claiming capacity received claimed ((s.withProducer p a).producers q) := by
  by_cases hqp : q = p
  · subst hqp
    rw [producers_withProducer_self]
    exact ha
  · rw [producers_withProducer_of_ne s hqp]
    exact hothers _ (h.claiming q)

/-- INTERNAL: a move of a producer that owns no index before or after it. -/
theorem moveProducer (h : Inv capacity s) {p : ℕ} {a : MpscProducer α}
    (hbefore : owned (s.producers p) = none) (hafter : owned a = none)
    (ha : Claiming capacity s.received.length s.claimed a) :
    Inv capacity (s.withProducer p a) := by
  have howners : owners (s.withProducer p a) = owners s := by
    rw [owners_withProducer, hafter, ← hbefore]
    exact Function.update_eq_self p (owners s)
  have hwriters : writers (s.withProducer p a) = writers s := by
    rw [writers_withProducer, writing_of_owned_none hafter, ← writing_of_owned_none hbefore]
    exact Function.update_eq_self p (writers s)
  exact {
    head_eq := h.head_eq
    tail_eq := h.tail_eq
    size_le := h.size_le
    in_order := h.in_order
    claiming := h.claiming_update ha fun _ hb => hb
    exclusive := by
      rw [howners]
      exact h.exclusive
    filled := by
      rw [hwriters]
      exact h.filled
    unread := by
      rw [hwriters]
      exact h.unread
    flags := by
      rw [howners]
      exact h.flags
    tail_loaded := h.tail_loaded
    found := by
      rw [howners]
      exact h.found }

theorem not_taken_received (h : Inv capacity s) (hheld : held s.consumer ≠ []) :
    s.received.length < s.claimed.length ∧ ¬Taken (owners s) s.received.length := by
  have hfound := h.found
  cases hc : s.consumer with
  | clearCommitted tail item =>
    rw [hc] at hfound
    exact hfound
  | storeTail tail item =>
    rw [hc] at hfound
    exact hfound
  | idle result => rw [hc] at hheld; exact absurd rfl hheld
  | loadTail => rw [hc] at hheld; exact absurd rfl hheld
  | loadHead tail => rw [hc] at hheld; exact absurd rfl hheld
  | loadCommitted tail => rw [hc] at hheld; exact absurd rfl hheld
  | readSlot tail => rw [hc] at hheld; exact absurd rfl hheld

theorem length_held_le (c : MpscConsumer α) : (held c).length ≤ 1 := by
  cases c <;> simp [held]

theorem cleared_le_held (c : MpscConsumer α) : cleared c ≤ (held c).length := by
  cases c <;> simp [held, cleared]

/-- INTERNAL: an owned index is not the one that the consumer is taking. -/
theorem owned_ge (h : Inv capacity s) {p i : ℕ} (hp : owners s p = some i) :
    s.received.length + (held s.consumer).length ≤ i := by
  obtain ⟨hge, -⟩ := h.owned_bounds hp
  have hone := length_held_le s.consumer
  by_cases hheld : held s.consumer = []
  · rw [hheld]
    exact hge
  · have hne : i ≠ s.received.length := by
      rintro rfl
      exact (h.not_taken_received hheld).2 ⟨p, hp⟩
    omega

/-- INTERNAL: **claiming an index.** The head is where the producer saw it, so the index is
behind all the others, and there was room for it. -/
theorem exchange (h : Inv capacity s) {p : ℕ} {item : α}
    (hp : s.producers p = .exchange item s.claimed.length)
    (hbound : (s.claimed ++ [item]).length < 2 ^ 64) :
    Inv capacity { s.withProducer p (.writeSlot item s.claimed.length) with
      ring := { s.ring with head := toUInt64 (s.claimed.length + 1) }
      claimed := s.claimed ++ [item] } := by
  have hlen : (s.claimed ++ [item]).length = s.claimed.length + 1 := List.length_append
  have hroom : s.claimed.length < s.received.length + capacity := by
    have hclaim := h.claiming p
    rw [hp] at hclaim
    exact hclaim
  have hle : s.received.length ≤ s.claimed.length := by
    have := h.in_order.length_le
    rw [List.length_append] at this
    omega
  have hfree : owners s p = none := by
    rw [owners, Function.comp_apply, hp]
    rfl
  have hfree' : writers s p = none := by
    rw [writers, Function.comp_apply, hp]
    rfl
  have howned (i : ℕ) : Taken (owners (s.withProducer p (.writeSlot item s.claimed.length))) i ↔
      i = s.claimed.length ∨ Taken (owners s) i := by
    rw [owners_withProducer]
    exact taken_update_some hfree
  have hwriting (i : ℕ) : Taken (writers (s.withProducer p (.writeSlot item s.claimed.length))) i ↔
      i = s.claimed.length ∨ Taken (writers s) i := by
    rw [writers_withProducer]
    exact taken_update_some hfree'
  exact {
    head_eq := by
      show toUInt64 (s.claimed.length + 1) = (s.claimed ++ [item]).length
      rw [hlen] at hbound ⊢
      unfold toUInt64
      omega
    tail_eq := h.tail_eq
    size_le := by
      show (s.claimed ++ [item]).length ≤ s.received.length + capacity
      omega
    in_order := h.in_order.trans (List.prefix_append _ _)
    claiming := h.claiming_update
      (show Claiming _ _ _ (.writeSlot item s.claimed.length) from
        ⟨hle, List.getElem?_concat_length⟩) fun _ hb => claiming_append item hb
    exclusive := by
      show Exclusive (owners (s.withProducer p (.writeSlot item s.claimed.length)))
      rw [owners_withProducer]
      refine h.exclusive.update fun i q hi _ hq => ?_
      obtain rfl : s.claimed.length = i := Option.some.inj hi
      exact absurd (h.owned_bounds hq).2 (Nat.lt_irrefl _)
    filled := h.filled.enter item fun j => (not_congr (hwriting j)).trans not_or
    unread := by
      rw [hlen]
      exact h.unread.enter fun j => (not_congr (hwriting j)).trans not_or
    flags := by
      rw [hlen]
      exact h.flags.enter fun j => (not_congr (howned j)).trans not_or
    tail_loaded := h.tail_loaded
    found := found_of_imp h.found (by rw [hlen]; exact Nat.le_succ _)
      fun hlt ht => ((howned _).mp ht).resolve_left hlt.ne }

/-- INTERNAL: **writing the claimed slot.** -/
theorem writeSlot (h : Inv capacity s) {p i : ℕ} {item : α} (hp : s.producers p = .writeSlot item i)
    {slot : ℕ} (hslot : slot = i % capacity) :
    Inv capacity { s.withProducer p (.storeCommitted item i) with
      ring := { s.ring with storage := Function.update s.ring.storage slot item }
      unread := insert slot s.unread } := by
  subst hslot
  have hclaim := h.claiming p
  rw [hp] at hclaim
  have howner : owners s p = some i := by
    rw [owners, Function.comp_apply, hp]
    rfl
  have hwriter : writers s p = some i := by
    rw [writers, Function.comp_apply, hp]
    rfl
  obtain ⟨hge, hlt⟩ := h.owned_bounds howner
  have hlo := h.owned_ge howner
  have hsize := h.size_le
  have howners : owners (s.withProducer p (.storeCommitted item i)) = owners s := by
    rw [owners_withProducer, show owned (.storeCommitted item i) = owners s p from howner.symm]
    exact Function.update_eq_self p (owners s)
  have hwriting (j : ℕ) : ¬Taken (writers (s.withProducer p (.storeCommitted item i))) j ↔
      j = i ∨ ¬Taken (writers s) j := by
    have hothers : ∀ q, writers s q = some i → q = p := fun q hq =>
      h.exclusive q p i (owned_of_writing hq) howner
    rw [writers_withProducer, show writing (.storeCommitted item i) = none from rfl,
      taken_update_none hwriter hothers]
    tauto
  exact {
    head_eq := h.head_eq
    tail_eq := h.tail_eq
    size_le := h.size_le
    in_order := h.in_order
    claiming := h.claiming_update
      (show Claiming _ _ _ (.storeCommitted item i) from hclaim) fun _ hb => hb
    exclusive := by
      show Exclusive (owners (s.withProducer p (.storeCommitted item i)))
      rw [howners]
      exact h.exclusive
    filled := h.filled.fill (by omega) hlo hclaim.2 hwriting
    unread := h.unread.mark hlo hlt hwriting fun c => Finset.mem_insert
    flags := by
      show Marks _ _ _ (fun i' => ¬Taken (owners (s.withProducer p (.storeCommitted item i))) i') _
      rw [howners]
      exact h.flags
    tail_loaded := h.tail_loaded
    found := by
      show Found _ _ (owners (s.withProducer p (.storeCommitted item i))) _
      rw [howners]
      exact h.found }

/-- INTERNAL: **committing an item.** The flag of a slot is that of the one index in the queue
that uses the slot. -/
theorem storeCommitted (h : Inv capacity s) {p i : ℕ} {item : α}
    (hp : s.producers p = .storeCommitted item i) {slot : ℕ} (hslot : slot = i % capacity) :
    Inv capacity { s.withProducer p (.idle (some true)) with
      ring := { s.ring with committed := Function.update s.ring.committed slot true } } := by
  subst hslot
  have howner : owners s p = some i := by
    rw [owners, Function.comp_apply, hp]
    rfl
  have hwriter : writers s p = none := by
    rw [writers, Function.comp_apply, hp]
    rfl
  have hlo := h.owned_ge howner
  have hcleared := cleared_le_held s.consumer
  have hwriters : writers (s.withProducer p (.idle (some true))) = writers s := by
    rw [writers_withProducer, show writing (.idle (some true)) = writers s p from hwriter.symm]
    exact Function.update_eq_self p (writers s)
  have howned (j : ℕ) : Taken (owners (s.withProducer p (.idle (some true)))) j ↔
      j ≠ i ∧ Taken (owners s) j := by
    rw [owners_withProducer]
    exact taken_update_none howner fun q hq => h.exclusive q p i hq howner
  exact {
    head_eq := h.head_eq
    tail_eq := h.tail_eq
    size_le := h.size_le
    in_order := h.in_order
    claiming := h.claiming_update (show Claiming _ _ _ (.idle (some true)) from trivial)
      fun _ hb => hb
    exclusive := by
      show Exclusive (owners (s.withProducer p (.idle (some true))))
      rw [owners_withProducer]
      refine h.exclusive.update fun y q hy => ?_
      cases hy
    filled := by
      show Filled _ _ _ (fun j => ¬Taken (writers (s.withProducer p (.idle (some true)))) j) _
      rw [hwriters]
      exact h.filled
    unread := by
      show Marks _ _ _ (fun j => ¬Taken (writers (s.withProducer p (.idle (some true)))) j) _
      rw [hwriters]
      exact h.unread
    flags := by
      refine h.flags.mark (by omega) (h.owned_bounds howner).2 (fun j => ?_) fun c => ?_
      · show ¬Taken (owners (s.withProducer p (.idle (some true)))) j ↔ _
        rw [howned]
        tauto
      · show Function.update s.ring.committed (i % capacity) true c = true ↔ _
        by_cases hc : c = i % capacity
        · rw [hc, Function.update_self]
          exact ⟨fun _ => Or.inl rfl, fun _ => rfl⟩
        · rw [Function.update_of_ne hc]
          exact ⟨Or.inr, fun hor => hor.resolve_left hc⟩
    tail_loaded := h.tail_loaded
    found := found_of_imp h.found (Nat.le_refl _) fun _ ht => ((howned _).mp ht).2 }

/-! ### Moves of the consumer -/

theorem received_le (h : Inv capacity s) : s.received.length ≤ s.claimed.length := by
  have hle := h.in_order.length_le
  rw [List.length_append] at hle
  omega

/-- INTERNAL: a move of the consumer that holds no item before or after it. -/
theorem withConsumer (h : Inv capacity s) {c : MpscConsumer α} (hbefore : held s.consumer = [])
    (hafter : held c = []) (htail : ∀ tail ∈ loadedTail c, tail = s.received.length)
    (hfound : Found s.received.length s.claimed.length (owners s) c) :
    Inv capacity { s with consumer := c } := by
  have hzero : ∀ b : MpscConsumer α, held b = [] → cleared b = 0 := by
    intro b hb
    have hle := cleared_le_held b
    rw [hb] at hle
    exact Nat.le_zero.mp hle
  exact {
    head_eq := h.head_eq
    tail_eq := h.tail_eq
    size_le := h.size_le
    in_order := by
      show s.received ++ held c <+: s.claimed
      rw [hafter, ← hbefore]
      exact h.in_order
    claiming := h.claiming
    exclusive := h.exclusive
    filled := by
      show Filled _ _ (s.received.length + (held c).length) _ _
      rw [hafter, ← hbefore]
      exact h.filled
    unread := by
      show Marks _ (s.received.length + (held c).length) _ _ _
      rw [hafter, ← hbefore]
      exact h.unread
    flags := by
      show Marks _ (s.received.length + cleared c) _ _ _
      rw [hzero c hafter, ← hzero _ hbefore]
      exact h.flags
    tail_loaded := htail
    found := hfound }

theorem not_taken_writers (s : MpscState α capacity) {i : ℕ} (h : ¬Taken (owners s) i) :
    ¬Taken (writers s) i := by
  rintro ⟨p, hp⟩
  exact h ⟨p, owned_of_writing hp⟩

/-- INTERNAL: **taking the oldest item out of its slot.** -/
theorem readSlot (h : Inv capacity s) {tail slot : ℕ} (hc : s.consumer = .readSlot tail)
    (hslot : slot = s.received.length % capacity) (y : α) :
    Inv capacity { s with
      ring := { s.ring with storage := Function.update s.ring.storage slot y }
      consumer := .clearCommitted tail (s.ring.storage slot)
      unread := s.unread.erase slot } := by
  subst hslot
  have hfound := h.found
  have hfilled := h.filled
  have hunread := h.unread
  have horder := h.in_order
  have hflags := h.flags
  have htail := h.tail_loaded
  rw [hc] at hfound hfilled hunread horder hflags htail
  have hsize := h.size_le
  have hitem := hfilled s.received.length (Nat.le_refl _) hfound.1
    (not_taken_writers s hfound.2)
  exact {
    head_eq := h.head_eq
    tail_eq := h.tail_eq
    size_le := h.size_le
    in_order := by
      rw [show held (.readSlot tail) = ([] : List α) from rfl, List.append_nil] at horder
      exact concat_prefix_of_getElem? horder hitem
    claiming := h.claiming
    exclusive := h.exclusive
    filled := hfilled.takeFirst hsize y
    unread := hunread.clearFirst hsize fun c => Finset.mem_erase
    flags := hflags
    tail_loaded := htail
    found := hfound }

/-- INTERNAL: **clearing its flag**, while the index is still in the way of the producers. -/
theorem clearCommitted (h : Inv capacity s) {tail slot : ℕ} {item : α}
    (hc : s.consumer = .clearCommitted tail item) (hslot : slot = s.received.length % capacity) :
    Inv capacity { s with
      ring := { s.ring with committed := Function.update s.ring.committed slot false }
      consumer := .storeTail tail item } := by
  subst hslot
  have hfound := h.found
  have hfilled := h.filled
  have hunread := h.unread
  have horder := h.in_order
  have hflags := h.flags
  have htail := h.tail_loaded
  rw [hc] at hfound hfilled hunread horder hflags htail
  exact {
    head_eq := h.head_eq
    tail_eq := h.tail_eq
    size_le := h.size_le
    in_order := horder
    claiming := h.claiming
    exclusive := h.exclusive
    filled := hfilled
    unread := hunread
    flags := by
      refine hflags.clearFirst h.size_le fun c => ?_
      show Function.update s.ring.committed (s.received.length % capacity) false c = true ↔
        c ≠ s.received.length % capacity ∧ s.ring.committed c = true
      by_cases hcell : c = s.received.length % capacity
      · rw [hcell, Function.update_self]
        exact ⟨fun hset => absurd hset Bool.false_ne_true, fun hand => absurd rfl hand.1⟩
      · rw [Function.update_of_ne hcell]
        exact ⟨fun hset => ⟨hcell, hset⟩, And.right⟩
    tail_loaded := htail
    found := hfound }

/-- INTERNAL: **giving the slot back.** -/
theorem storeTail (h : Inv capacity s) (hbound : s.claimed.length < 2 ^ 64) {tail : ℕ} {item : α}
    (hc : s.consumer = .storeTail tail item) :
    Inv capacity { s with
      ring := { s.ring with tail := toUInt64 (tail + 1) }
      consumer := .idle (some item)
      received := s.received ++ [item] } := by
  have hfound := h.found
  have hfilled := h.filled
  have hunread := h.unread
  have horder := h.in_order
  have hflags := h.flags
  have hsize := h.size_le
  have htail : tail = s.received.length := h.tail_loaded tail (by rw [hc]; rfl)
  rw [hc] at hfound hfilled hunread horder hflags
  have hlen : (s.received ++ [item]).length = s.received.length + 1 := List.length_append
  exact {
    head_eq := h.head_eq
    tail_eq := by
      show toUInt64 (tail + 1) = (s.received ++ [item]).length
      have hlt := hfound.1
      rw [hlen, htail]
      unfold toUInt64
      omega
    size_le := by
      show s.claimed.length ≤ (s.received ++ [item]).length + capacity
      omega
    in_order := by
      show s.received ++ [item] ++ [] <+: s.claimed
      rw [List.append_nil]
      exact horder
    claiming := by
      intro p
      show Claiming _ (s.received ++ [item]).length _ _
      rw [hlen]
      exact claiming_succ (h.claiming p) fun howned => hfound.2 ⟨p, howned⟩
    exclusive := h.exclusive
    filled := by
      show Filled _ _ ((s.received ++ [item]).length + 0) _ _
      rw [hlen]
      exact hfilled
    unread := by
      show Marks _ ((s.received ++ [item]).length + 0) _ _ _
      rw [hlen]
      exact hunread
    flags := by
      show Marks _ ((s.received ++ [item]).length + 0) _ _ _
      rw [hlen]
      exact hflags
    tail_loaded := fun _ hmem => absurd hmem (Option.not_mem_none _)
    found := trivial }

/-! ### Steps -/

theorem slot_eq {k : ℕ} (i : ℕ) : i &&& MpscRingBuffer.kMask (2 ^ k) = i % 2 ^ k := by
  rw [MpscRingBuffer.kMask, Nat.and_two_pow_sub_one_eq_mod]

section Steps

variable {k : ℕ} {s s' : MpscState α (2 ^ k)}

/-- INTERNAL: **a step of a producer.** A head that the producer loaded long ago may be behind
the tail by now; then the check or the compare-exchange fails. -/
theorem produce (h : Inv (2 ^ k) s) {p : ℕ} {spurious : Bool}
    (hs : s.produce p spurious = some s') (hbound : s'.claimed.length < 2 ^ 64) :
    Inv (2 ^ k) s' := by
  unfold MpscState.produce at hs
  cases hp : s.producers p with
  | idle result =>
    simp only [hp] at hs
    cases hs
  | loadHead item =>
    simp only [hp] at hs
    cases hs
    refine h.moveProducer (by rw [hp]; rfl) rfl ?_
    show s.ring.head ≤ s.claimed.length
    rw [h.head_eq]
  | loadTail item head =>
    simp only [hp] at hs
    have hhead : head ≤ s.claimed.length := by
      have hclaim := h.claiming p
      rw [hp] at hclaim
      exact hclaim
    split at hs
    · cases hs
      exact h.moveProducer (by rw [hp]; rfl) rfl trivial
    · next hroom =>
      cases hs
      have hclaimed : s.claimed.length < 2 ^ 64 := hbound
      refine h.moveProducer (by rw [hp]; rfl) rfl ?_
      show head < s.received.length + 2 ^ k
      rw [h.tail_eq] at hroom
      unfold toUInt64 at hroom
      by_cases hold : head < s.received.length
      · omega
      · have hsub : ((head : ℤ) - (s.received.length : ℕ)) % 2 ^ 64 =
            (head : ℤ) - (s.received.length : ℕ) :=
          Int.emod_eq_of_lt (by omega) (by omega)
        rw [hsub] at hroom
        omega
  | exchange item head =>
    simp only [hp] at hs
    split at hs
    · next hsame =>
      obtain rfl : s.claimed.length = head := h.head_eq.symm.trans hsame.1
      cases hs
      exact h.exchange hp hbound
    · cases hs
      refine h.moveProducer (by rw [hp]; rfl) rfl ?_
      show s.ring.head ≤ s.claimed.length
      rw [h.head_eq]
  | writeSlot item head =>
    simp only [hp] at hs
    cases hs
    exact h.writeSlot hp (slot_eq head)
  | storeCommitted item head =>
    simp only [hp] at hs
    cases hs
    exact h.storeCommitted hp (slot_eq head)

/-- INTERNAL: **a step of the consumer.** -/
theorem consume (h : Inv (2 ^ k) s) {moved : α → α} (hs : s.consume moved = some s')
    (hbound : s'.claimed.length < 2 ^ 64) : Inv (2 ^ k) s' := by
  have hnone : ∀ tail ∈ (none : Option ℕ), tail = s.received.length :=
    fun _ hmem => absurd hmem (Option.not_mem_none _)
  have hsize := h.size_le
  unfold MpscState.consume at hs
  cases hc : s.consumer with
  | idle result =>
    simp only [hc] at hs
    cases hs
  | loadTail =>
    simp only [hc] at hs
    cases hs
    refine h.withConsumer (by rw [hc]; rfl) rfl ?_ trivial
    intro tail hmem
    rw [← h.tail_eq]
    exact (Option.some.inj hmem).symm
  | loadHead tail =>
    simp only [hc] at hs
    have htail : ∀ tail' ∈ some tail, tail' = s.received.length := by
      have hloaded := h.tail_loaded
      rwa [hc] at hloaded
    split at hs
    · cases hs
      exact h.withConsumer (by rw [hc]; rfl) rfl hnone trivial
    · next hmore =>
      cases hs
      refine h.withConsumer (by rw [hc]; rfl) rfl htail ?_
      show s.received.length < s.claimed.length
      rw [htail tail rfl, h.head_eq] at hmore
      omega
  | loadCommitted tail =>
    simp only [hc] at hs
    have htail : ∀ tail' ∈ some tail, tail' = s.received.length := by
      have hloaded := h.tail_loaded
      rwa [hc] at hloaded
    have hmore := h.found
    rw [hc] at hmore
    split at hs
    · next hset =>
      cases hs
      refine h.withConsumer (by rw [hc]; rfl) rfl htail ⟨hmore, ?_⟩
      have hflags := h.flags
      rw [hc] at hflags
      rw [htail tail rfl, slot_eq] at hset
      exact (hflags.cell_iff hsize (Nat.le_refl _) hmore).mp hset
    · cases hs
      exact h.withConsumer (by rw [hc]; rfl) rfl hnone trivial
  | readSlot tail =>
    simp only [hc] at hs
    have htail : tail = s.received.length := h.tail_loaded tail (by rw [hc]; rfl)
    cases hs
    exact h.readSlot hc (by rw [slot_eq, htail]) _
  | clearCommitted tail item =>
    simp only [hc] at hs
    have htail : tail = s.received.length := h.tail_loaded tail (by rw [hc]; rfl)
    cases hs
    exact h.clearCommitted hc (by rw [slot_eq, htail])
  | storeTail tail item =>
    simp only [hc] at hs
    cases hs
    exact h.storeTail hbound hc

/-- INTERNAL: **the step lemma.** -/
theorem step (h : Inv (2 ^ k) s) {moved : α → α} {a : MpscStep α}
    (hs : s.step moved a = some s') (hbound : s'.claimed.length < 2 ^ 64) : Inv (2 ^ k) s' := by
  cases a with
  | tryPush p item =>
    simp only [MpscState.step] at hs
    split at hs
    · next hp =>
      cases hs
      exact h.moveProducer (by rw [hp]; rfl) rfl trivial
    · cases hs
  | tryPop =>
    simp only [MpscState.step] at hs
    split at hs
    · next hc =>
      cases hs
      exact h.withConsumer (by rw [hc]; rfl) rfl
        (fun _ hmem => absurd hmem (Option.not_mem_none _)) trivial
    · cases hs
  | produce p spurious => exact h.produce hs hbound
  | consume => exact h.consume hs hbound

/-! ### What follows at every moment -/

/-- INTERNAL: a slot that is about to be written belongs to one index of the queue, the one that
its producer owns. -/
theorem slot_notMem_unread (h : Inv (2 ^ k) s) {p i : ℕ}
    (hwriting : writing (s.producers p) = some i) : slot (2 ^ k) i ∉ s.unread := by
  have howner : owners s p = some i := owned_of_writing hwriting
  have hsize := h.size_le
  rw [slot, slot_eq]
  intro hmem
  exact (h.unread.cell_iff (by omega) (h.owned_ge howner) (h.owned_bounds howner).2).mp hmem
    ⟨p, hwriting⟩

/-- INTERNAL: the consumer reads an unread slot that no producer still writes. -/
theorem reads_finished (h : Inv (2 ^ k) s) {i : ℕ}
    (hreads : Interface.MpscState.reads s = some i) :
    slot (2 ^ k) i ∈ s.unread ∧
      ¬∃ other, Unfinished s other ∧ slot (2 ^ k) other = slot (2 ^ k) i := by
  have hsize := h.size_le
  unfold Interface.MpscState.reads at hreads
  split at hreads
  · next tail hc =>
    obtain rfl := Option.some.inj hreads
    obtain rfl : tail = s.received.length := h.tail_loaded tail (by rw [hc]; rfl)
    have hfound := h.found
    have hunread := h.unread
    rw [hc] at hfound hunread
    simp only [slot, slot_eq]
    constructor
    · exact (hunread.cell_iff hsize (Nat.le_refl _) hfound.1).mpr (not_taken_writers s hfound.2)
    · rintro ⟨other, ⟨p, hp⟩, heq⟩
      obtain ⟨hge, hlt⟩ := h.owned_bounds hp
      obtain rfl : other = s.received.length :=
        eq_of_mod_eq hge (by omega) (Nat.le_refl _) (by omega) heq
      exact hfound.2 ⟨p, hp⟩
  · cases hreads

/-- INTERNAL: a pop fails on a queue without items, or before one that is not committed. -/
theorem popFails (h : Inv (2 ^ k) s) {moved : α → α}
    (hfails : Interface.MpscState.PopFails moved s) :
    s.received.length = s.claimed.length ∨ Unfinished s s.received.length := by
  obtain ⟨s', hs, hresult⟩ := hfails
  have hle := h.received_le
  unfold MpscState.consume at hs
  cases hc : s.consumer with
  | loadHead tail =>
    simp only [hc] at hs
    split at hs
    · next hempty =>
      rw [h.tail_loaded tail (by rw [hc]; rfl), h.head_eq] at hempty
      exact Or.inl (by omega)
    · cases hs
      cases hresult
  | loadCommitted tail =>
    simp only [hc] at hs
    have hmore := h.found
    have hflags := h.flags
    rw [hc] at hmore hflags
    split at hs
    · cases hs
      cases hresult
    · next hclear =>
      rw [h.tail_loaded tail (by rw [hc]; rfl), slot_eq] at hclear
      have hiff := hflags.cell_iff h.size_le (Nat.le_refl _) hmore
      exact Or.inr (not_not.mp (mt hiff.mpr hclear))
  | idle result =>
    simp only [hc] at hs
    cases hs
  | loadTail =>
    simp only [hc] at hs
    cases hs
    cases hresult
  | readSlot tail =>
    simp only [hc] at hs
    cases hs
    cases hresult
  | clearCommitted tail item =>
    simp only [hc] at hs
    cases hs
    cases hresult
  | storeTail tail item =>
    simp only [hc] at hs
    cases hs
    cases hresult

theorem claimOrderQueue (h : Inv (2 ^ k) s) (moved : α → α) : ClaimOrderQueue moved s where
  in_claim_order := (List.prefix_append _ _).trans h.in_order
  bounded := h.size_le
  received_finished _ := fun ⟨_, hp⟩ => (h.owned_bounds hp).1
  overwrites_nothing _ _ hwriting := h.slot_notMem_unread hwriting
  reads_written _ hreads := h.reads_finished hreads
  pop_fails := h.popFails

end Steps

end Inv

/-! ## The histories -/

section Histories

variable {s s' : MpscState α capacity} {moved : α → α}

theorem popped_eq_nil (h : s'.consumer = s.consumer) : MpscState.popped s s' = [] := by
  unfold MpscState.popped
  rw [h]
  cases s.consumer <;> rfl

/-- INTERNAL: **what an access of a producer does.** It leaves its producer about to load the tail
only if it has just loaded the head, and ends the call only where the source returns. -/
theorem produce_cases {p : ℕ} {spurious : Bool} (hs : s.produce p spurious = some s') :
    (s'.consumer = s.consumer ∧ s'.received = s.received ∧ s.claimed <+: s'.claimed) ∧
      ∃ a, s'.producers = Function.update s.producers p a ∧
        (∀ item head, a = .loadTail item head → head = s.ring.head) ∧
        (a = .idle (some false) → ∃ item head, s.producers p = .loadTail item head ∧
          capacity ≤ toUInt64 ((head : ℤ) - s.ring.tail)) ∧
        (a = .idle (some true) → ∃ item index, s.producers p = .storeCommitted item index ∧
          s'.claimed = s.claimed) := by
  cases hp : s.producers p <;> simp only [MpscState.produce, hp] at hs
  case idle => cases hs
  case loadHead item =>
    cases hs
    refine ⟨⟨rfl, rfl, List.prefix_rfl⟩, _, rfl, ?_, by simp, by simp⟩
    exact fun _ _ h => (MpscProducer.loadTail.inj h).2.symm
  case loadTail item head =>
    split at hs <;> cases hs
    · next hfull =>
      refine ⟨⟨rfl, rfl, List.prefix_rfl⟩, _, rfl, by simp, ?_, by simp⟩
      exact fun _ => ⟨item, head, rfl, hfull⟩
    · exact ⟨⟨rfl, rfl, List.prefix_rfl⟩, _, rfl, by simp, by simp, by simp⟩
  case exchange item head =>
    split at hs <;> cases hs
    · exact ⟨⟨rfl, rfl, List.prefix_append _ _⟩, _, rfl, by simp, by simp, by simp⟩
    · refine ⟨⟨rfl, rfl, List.prefix_rfl⟩, _, rfl, ?_, by simp, by simp⟩
      exact fun _ _ h => (MpscProducer.loadTail.inj h).2.symm
  case writeSlot item head =>
    cases hs
    exact ⟨⟨rfl, rfl, List.prefix_rfl⟩, _, rfl, by simp, by simp, by simp⟩
  case storeCommitted item head =>
    cases hs
    exact ⟨⟨rfl, rfl, List.prefix_rfl⟩, _, rfl, by simp, by simp, fun _ => ⟨item, head, rfl, rfl⟩⟩

theorem consume_cases (hs : s.consume moved = some s') :
    s'.producers = s.producers ∧ s'.claimed = s.claimed ∧
      s'.received = s.received ++ MpscState.popped s s' := by
  cases hc : s.consumer <;> simp only [MpscState.consume, hc] at hs
  case idle => cases hs
  case loadHead | loadCommitted => split at hs <;> cases hs <;> simp [MpscState.popped, hc]
  case loadTail | readSlot | clearCommitted | storeTail =>
    cases hs
    simp [MpscState.popped, hc]

/-- INTERNAL: **the step lemma** for the histories: what is claimed stays claimed, and what is
received grows by what the call returns. -/
theorem histories_step {a : MpscStep α} (hs : s.step moved a = some s') :
    s.claimed <+: s'.claimed ∧ s'.received = s.received ++ MpscState.popped s s' := by
  cases a with
  | tryPush p item =>
    simp only [MpscState.step] at hs
    split at hs <;> cases hs
    refine ⟨List.prefix_rfl, ?_⟩
    rw [popped_eq_nil, List.append_nil] <;> rfl
  | tryPop =>
    simp only [MpscState.step] at hs
    split at hs
    case h_1 hc =>
      cases hs
      exact ⟨List.prefix_rfl, by simp [MpscState.popped, hc]⟩
    case h_2 => cases hs
  | produce p spurious =>
    obtain ⟨⟨hconsumer, hreceived, hclaimed⟩, -⟩ := produce_cases hs
    exact ⟨hclaimed, by rw [popped_eq_nil hconsumer, hreceived, List.append_nil]⟩
  | consume =>
    obtain ⟨-, hclaimed, hreceived⟩ := consume_cases hs
    exact ⟨hclaimed ▸ List.prefix_rfl, hreceived⟩

end Histories

/-- PROPERTY: what the consumer has received is what its calls have returned.
SOURCE: utils/ring_buffer.h:108-116 -/
theorem received_run {moved : α → α} {storage : ℕ → α} {steps : List (MpscStep α)}
    {s : MpscState α capacity} (hrun : MpscState.run moved storage steps = some s) :
    s.received = outputs (MpscState.step moved) MpscState.popped
      ({ ring := { storage := storage } } : MpscState α capacity) steps :=
  history_foldlM (fun _ _ _ hs => (histories_step hs).2) hrun

/-- INTERNAL: **the run lemma.** -/
theorem inv_run {k : ℕ} {moved : α → α} {storage : ℕ → α} {steps : List (MpscStep α)}
    {s : MpscState α (2 ^ k)} (hrun : MpscState.run moved storage steps = some s)
    (hbound : s.claimed.length < 2 ^ 64) : Inv (2 ^ k) s := by
  have hstep : ∀ (s : MpscState α (2 ^ k)) a s', (s.claimed.length < 2 ^ 64 → Inv (2 ^ k) s) →
      s.step moved a = some s' → s'.claimed.length < 2 ^ 64 → Inv (2 ^ k) s' := by
    intro s a s' h hs hbound
    exact (h (lt_of_le_of_lt (histories_step hs).1.length_le hbound)).step hs hbound
  exact foldlM_invariant hstep (fun _ => inv_new storage) hrun hbound

/-- PROPERTY: the item of a push that returns true was claimed, at the index that its producer
owned.
SOURCE: utils/ring_buffer.h:95-106 -/
theorem claimed_of_true {k : ℕ} {moved : α → α} {storage : ℕ → α} {steps : List (MpscStep α)}
    {s s' : MpscState α (2 ^ k)} (hrun : MpscState.run moved storage steps = some s)
    (hbound : s.claimed.length < 2 ^ 64) {p : ℕ} {spurious : Bool}
    (hs : s.produce p spurious = some s') (htrue : s'.producers p = .idle (some true)) :
    ∃ item index, s.producers p = .storeCommitted item index ∧
      s'.claimed[index]? = some item := by
  obtain ⟨-, a, hproducers, -, -, hstored⟩ := produce_cases hs
  rw [hproducers, Function.update_self] at htrue
  obtain ⟨item, index, hp, hsame⟩ := hstored htrue
  have hclaim := (inv_run hrun hbound).claiming p
  rw [hp] at hclaim
  exact ⟨item, index, hp, hsame ▸ hclaim.2⟩

/-- PROPERTY: **the ring neither loses nor duplicates.** For every power of two as the capacity,
any number of producers and every interleaving of their accesses with the consumer's, as long as
the indices are below 2^64: the consumer receives the items in the order in which their indices
were claimed, each once; no producer writes a slot that holds an unread item, and no slot is read
before its producer has finished with it.
SOURCE: utils/ring_buffer.h:89-124 -/
theorem mpsc_is_claim_order_queue {k : ℕ} (moved : α → α) (storage : ℕ → α)
    (steps : List (MpscStep α)) {s : MpscState α (2 ^ k)}
    (hrun : MpscState.run moved storage steps = some s) (hbound : s.claimed.length < 2 ^ 64) :
    ClaimOrderQueue moved s :=
  (inv_run hrun hbound).claimOrderQueue moved

/-- Two producers claim the two slots; the second one is done first, but its item has to wait. -/
theorem mpsc_is_claim_order_queue_two_producers :
    let steps : List (MpscStep ℕ) :=
      [.tryPush 0 7, .produce 0 false, .produce 0 false, .produce 0 false,
        .tryPush 1 8, .produce 1 false, .produce 1 false, .produce 1 false, .produce 1 false,
        .produce 1 false, .tryPop, .consume, .consume, .consume, .produce 0 false,
        .produce 0 false, .tryPop, .consume, .consume, .consume, .consume, .consume, .consume]
    ∃ s : MpscState ℕ (2 ^ 1), MpscState.run (fun _ => 0) (fun _ => 0) steps = some s ∧
      s.claimed = [7, 8] ∧ s.received = [7] ∧ ClaimOrderQueue (fun _ => 0) s := by
  intro steps
  obtain ⟨s, hrun, hclaimed, hreceived⟩ : ∃ s : MpscState ℕ (2 ^ 1),
      MpscState.run (fun _ => 0) (fun _ => 0) steps = some s ∧ s.claimed = [7, 8] ∧
        s.received = [7] := ⟨_, rfl, rfl, rfl⟩
  refine ⟨s, hrun, hclaimed, hreceived, mpsc_is_claim_order_queue _ _ steps hrun ?_⟩
  rw [hclaimed]
  decide

end StrikeMQ.Analysis.MpscQueue
