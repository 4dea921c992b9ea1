/-
# The queue of confirmed Ethereum events

`InnerEthEventsQueue` of `storage.rs` holds the nonce of the next Ethereum
event the ledger is to process, and confirmed events with that nonce or a later
one, in ascending order of nonce. `push_and_iter` inserts a new event where a
binary search by nonce puts it. It then hands out a draining iterator, which
pops events off the front as long as each has the nonce it expects next.
Dropping the iterator commits the nonce the iterator reached.

Take any run of pushes, each with distinct nonces no lower than the next nonce
at its push, and each iterator called any number of times and dropped. The
run delivers the events in the gap-free run of nonces from the starting one,
each once. It keeps the queue sorted, and commits one past the last
delivered nonce (`eventsQueue_delivers_in_order`).

Nonces are the 256-bit `Uint` of `ethereum_events.rs`, compared as the numbers
they stand for (`eventNonce`). The iterator's `checked_increment` panics
(`expect("Nonce overflow")`) before it pops an event whose nonce is
`Uint::MAX`. Such an event is never delivered, and the run stops there
(`eventsQueue_overflows_at_max`). So delivery needs every nonce below
`2 ^ 256 - 1`.
-/

import Mathlib
import Namada.Math.BinarySearch
import Namada.Math.Except

namespace Namada.Core

open Namada.Math

/-- `GetEventNonce`: the nonce an event carries. -/
class GetEventNonce (E : Type) where
  getEventNonce : E → BitVec 256

export GetEventNonce (getEventNonce)

/-- The panics of the queue and its iterator. -/
inductive QueuePanic
  /-- `unreachable!("Attempted to replay an Ethereum event: ..")` of `push_and_iter`. -/
  | replay
  /-- `unreachable!("An event with an identical nonce was already present in the EthEventsQueue")`
  of `try_push_event`. -/
  | duplicateNonce
  /-- `expect("Nonce overflow")` of the iterator's `next`. -/
  | nonceOverflow
  deriving DecidableEq

/-- `Uint::checked_increment`. -/
def checkedIncrement (nonce : BitVec 256) : Option (BitVec 256) :=
  if nonce.toNat + 1 < 2 ^ 256 then some (nonce + 1) else none

/-- `InnerEthEventsQueue`: the next nonce to process and the queued events, the
`VecDeque` as a list. -/
structure InnerEthEventsQueue (E : Type) where
  nextNonceToProcess : BitVec 256
  inner : List E

/-- `EthEventsQueueIter`: the nonce the iterator expects next, and the queue it
drains. -/
structure EthEventsQueueIter (E : Type) where
  currentNonce : BitVec 256
  queue : InnerEthEventsQueue E

variable {E : Type} [GetEventNonce E]

/-- The number an event's nonce stands for; `Ord for Uint` compares these. -/
def eventNonce (event : E) : ℕ := (getEventNonce event).toNat

namespace InnerEthEventsQueue

/-- `InnerEthEventsQueue::new_at`. -/
def newAt (nextNonceToProcess : BitVec 256) : InnerEthEventsQueue E := ⟨nextNonceToProcess, []⟩

/-- `peek_event_nonce`. -/
def peekEventNonce (self : InnerEthEventsQueue E) : Option (BitVec 256) :=
  self.inner.head?.map getEventNonce

/-- `try_push_event`: insert at the place the binary search by nonce answers, and
panic if the nonce is already there. -/
def tryPushEvent (self : InnerEthEventsQueue E) (newEvent : E) : Except QueuePanic (InnerEthEventsQueue E) :=
  match binarySearchByKey self.inner (eventNonce newEvent) eventNonce with
  | .error insertAt => .ok { self with inner := self.inner.insertIdx insertAt newEvent }
  | .ok _ => .error .duplicateNonce

/-- `pop_event`. -/
def popEvent (self : InnerEthEventsQueue E) : Option E × InnerEthEventsQueue E :=
  (self.inner.head?, { self with inner := self.inner.tail })

/-- `push_and_iter`. -/
def pushAndIter (self : InnerEthEventsQueue E) (latestEvent : E) : Except QueuePanic (EthEventsQueueIter E) :=
  if getEventNonce latestEvent < self.nextNonceToProcess then .error .replay
  else do
    let queue ← self.tryPushEvent latestEvent
    pure ⟨queue.nextNonceToProcess, queue⟩

end InnerEthEventsQueue

namespace EthEventsQueueIter

/-- `Iterator::next for EthEventsQueueIter`. -/
def next (self : EthEventsQueueIter E) : Except QueuePanic (Option E × EthEventsQueueIter E) :=
  match self.queue.peekEventNonce with
  | none => .ok (none, self)
  | some nonceInQueue =>
    if nonceInQueue = self.currentNonce then
      match checkedIncrement self.currentNonce with
      | none => .error .nonceOverflow
      | some currentNonce =>
        let (event, queue) := self.queue.popEvent
        .ok (event, ⟨currentNonce, queue⟩)
    else .ok (none, self)

/-- `Drop for EthEventsQueueIter`: commit the nonce the iterator reached. -/
def drop (self : EthEventsQueueIter E) : InnerEthEventsQueue E :=
  if self.queue.nextNonceToProcess < self.currentNonce then
    { self.queue with nextNonceToProcess := self.currentNonce }
  else self.queue

/-- `count` calls of `next`, and the events they yield. -/
def consume : ℕ → EthEventsQueueIter E → Except QueuePanic (List E × EthEventsQueueIter E)
  | 0, self => .ok ([], self)
  | count + 1, self => do
    let (event, self) ← self.next
    let (events, self) ← consume count self
    pure (event.toList ++ events, self)

end EthEventsQueueIter

namespace InnerEthEventsQueue

/-- One `push_and_iter` whose iterator is called `count` times and dropped. -/
def pushAndConsume (self : InnerEthEventsQueue E) (latestEvent : E) (count : ℕ) :
    Except QueuePanic (List E × InnerEthEventsQueue E) := do
  let iter ← self.pushAndIter latestEvent
  let (events, iter) ← iter.consume count
  pure (events, iter.drop)

/-- A run of pushes, each with the number of calls its iterator gets: the events
yielded over the run, and the queue it leaves. -/
def run : InnerEthEventsQueue E → List (E × ℕ) → Except QueuePanic (List E × InnerEthEventsQueue E)
  | self, [] => .ok ([], self)
  | self, (latestEvent, count) :: pushes => do
    let (events, self) ← self.pushAndConsume latestEvent count
    let (later, self) ← run self pushes
    pure (events ++ later, self)

/-- Each pushed event's nonce is at least the next nonce to process when it is
pushed. -/
def FreshPushes : InnerEthEventsQueue E → List (E × ℕ) → Prop
  | _, [] => True
  | self, (latestEvent, count) :: pushes =>
    self.nextNonceToProcess.toNat ≤ eventNonce latestEvent ∧
      ∀ result, self.pushAndConsume latestEvent count = .ok result → FreshPushes result.2 pushes

end InnerEthEventsQueue

/-! ## Invariants -/

/-- Events in strictly ascending order of nonce. -/
def Ascending (events : List E) : Prop :=
  events.Pairwise fun earlier later => eventNonce earlier < eventNonce later

/-- The invariant of the queue: its events ascend and none is below the next
nonce to process. -/
structure InnerEthEventsQueue.Wellformed (queue : InnerEthEventsQueue E) : Prop where
  ascending : Ascending queue.inner
  from_next : ∀ event ∈ queue.inner, queue.nextNonceToProcess.toNat ≤ eventNonce event

/-- The invariant of a draining iterator: the queue's events ascend, none is
below the nonce the iterator expects, and none has nonce `Uint::MAX`. -/
structure EthEventsQueueIter.Draining (iter : EthEventsQueueIter E) : Prop where
  ascending : Ascending iter.queue.inner
  from_current : ∀ event ∈ iter.queue.inner, iter.currentNonce.toNat ≤ eventNonce event
  below_max : ∀ event ∈ iter.queue.inner, eventNonce event < 2 ^ 256 - 1

/-! ## Pushing -/

namespace InnerEthEventsQueue

variable {self : InnerEthEventsQueue E}

/-- An event whose nonce is not queued goes where the search puts it, which
keeps the queue ascending. -/
theorem tryPushEvent_eq {newEvent : E} (hascending : Ascending self.inner)
    (hmissing : ∀ event ∈ self.inner, eventNonce event ≠ eventNonce newEvent) :
    ∃ inner, self.tryPushEvent newEvent = .ok { self with inner := inner } ∧ Ascending inner ∧
      inner.Perm (newEvent :: self.inner) := by
  have hsorted : self.inner.Pairwise fun earlier later => eventNonce earlier ≤ eventNonce later :=
    hascending.imp Nat.le_of_lt
  obtain ⟨place, hsearch, hwindow⟩ := binarySearchByKey_eq_error hsorted hmissing
  refine ⟨self.inner.insertIdx place newEvent, by rw [tryPushEvent, hsearch], ?_,
    List.perm_insertIdx _ _ hwindow.right_le⟩
  refine pairwise_insertIdx hwindow.right_le hascending (fun earlier hearlier => ?_) fun later hlater => ?_
  · exact compare_lt_iff_lt.mp (hwindow.forall_mem_take earlier hearlier)
  · exact compare_gt_iff_gt.mp (hwindow.forall_mem_drop later hlater)

/-- A fresh event is pushed, and the iterator starts at the next nonce to process. -/
theorem pushAndIter_eq {latestEvent : E} (hwf : self.Wellformed)
    (hfresh : self.nextNonceToProcess.toNat ≤ eventNonce latestEvent)
    (hmissing : ∀ event ∈ self.inner, eventNonce event ≠ eventNonce latestEvent) :
    ∃ inner, self.pushAndIter latestEvent = .ok ⟨self.nextNonceToProcess, { self with inner := inner }⟩ ∧
      Ascending inner ∧ inner.Perm (latestEvent :: self.inner) := by
  obtain ⟨inner, hpush, hascending, hperm⟩ := tryPushEvent_eq hwf.ascending hmissing
  have hnotLt : ¬getEventNonce latestEvent < self.nextNonceToProcess := by
    rw [BitVec.lt_def]
    exact Nat.not_lt.mpr hfresh
  refine ⟨inner, ?_, hascending, hperm⟩
  rw [pushAndIter, if_neg hnotLt, hpush]
  rfl

end InnerEthEventsQueue

/-! ## Draining -/

/-- A nonce below `Uint::MAX` increments without wrapping. -/
theorem toNat_add_one {nonce : BitVec 256} (hlt : nonce.toNat < 2 ^ 256 - 1) :
    (nonce + 1).toNat = nonce.toNat + 1 := by
  have hone : (1 : BitVec 256).toNat = 1 := rfl
  rw [BitVec.toNat_add_of_lt (by rw [hone]; omega), hone]

namespace EthEventsQueueIter

variable {self : EthEventsQueueIter E}

theorem next_of_nil (hnil : self.queue.inner = []) : self.next = .ok (none, self) := by
  rw [next, InnerEthEventsQueue.peekEventNonce, hnil]
  rfl

theorem next_of_ne {event : E} {rest : List E} (hcons : self.queue.inner = event :: rest)
    (hne : getEventNonce event ≠ self.currentNonce) : self.next = .ok (none, self) := by
  rw [next, InnerEthEventsQueue.peekEventNonce, hcons]
  exact if_neg hne

/-- The head event has the expected nonce and is not the last nonce: it is popped
and the iterator expects the one after it. -/
theorem next_of_eq {event : E} {rest : List E} (hcons : self.queue.inner = event :: rest)
    (heq : getEventNonce event = self.currentNonce) (hbelow : eventNonce event < 2 ^ 256 - 1) :
    self.next = .ok (some event, ⟨self.currentNonce + 1, { self.queue with inner := rest }⟩) := by
  have hincrement : checkedIncrement self.currentNonce = some (self.currentNonce + 1) := by
    rw [checkedIncrement, if_pos]
    rw [eventNonce, heq] at hbelow
    omega
  rw [next, InnerEthEventsQueue.peekEventNonce, hcons]
  simp only [List.head?_cons, Option.map_some, if_pos heq, hincrement]
  rw [InnerEthEventsQueue.popEvent, hcons]
  rfl

/-- The head event has the expected nonce `Uint::MAX`: the increment panics. -/
theorem next_of_max {event : E} {rest : List E} (hcons : self.queue.inner = event :: rest)
    (heq : getEventNonce event = self.currentNonce) (hmax : eventNonce event = 2 ^ 256 - 1) :
    self.next = .error .nonceOverflow := by
  have hincrement : checkedIncrement self.currentNonce = none := by
    rw [checkedIncrement, if_neg]
    rw [eventNonce, heq] at hmax
    omega
  rw [next, InnerEthEventsQueue.peekEventNonce, hcons]
  simp only [List.head?_cons, Option.map_some, if_pos heq, hincrement]

theorem consume_succ {count : ℕ} {event : Option E} {after : EthEventsQueueIter E}
    (hnext : self.next = .ok (event, after)) :
    self.consume (count + 1) = (after.consume count).map fun result => (event.toList ++ result.1, result.2) := by
  have hstep : self.consume (count + 1) =
      (do let (events, next) ← after.consume count; pure (event.toList ++ events, next)) := by
    rw [consume, hnext]
    rfl
  rw [hstep]
  cases after.consume count <;> rfl

/-- The popped head was the lowest nonce: the rest of the queue is still
ascending and at or above the next expected nonce. -/
theorem Draining.pop {event : E} {rest : List E} (hdraining : self.Draining)
    (hcons : self.queue.inner = event :: rest) (heq : getEventNonce event = self.currentNonce) :
    Draining (⟨self.currentNonce + 1, { self.queue with inner := rest }⟩ : EthEventsQueueIter E) := by
  have hascending := hdraining.ascending
  rw [hcons, Ascending, List.pairwise_cons] at hascending
  have hbelow := hdraining.below_max event (by rw [hcons]; exact List.mem_cons_self)
  rw [eventNonce, heq] at hbelow
  have hsucc : (self.currentNonce + 1).toNat = eventNonce event + 1 := by
    rw [toNat_add_one hbelow, eventNonce, heq]
  refine ⟨hascending.2, fun later hlater => ?_, fun later hlater => ?_⟩
  · rw [hsucc]
    exact hascending.1 later hlater
  · exact hdraining.below_max later (by rw [hcons]; exact List.mem_cons_of_mem _ hlater)

/-- `count` calls deliver a prefix of the queue whose nonces run without a gap
from the expected one, and leave the rest draining from one past them. -/
theorem consume_spec (count : ℕ) {self : EthEventsQueueIter E} (hdraining : self.Draining) :
    ∃ delivered ≤ count, ∃ after : EthEventsQueueIter E,
      self.consume count = .ok (self.queue.inner.take delivered, after) ∧
        (self.queue.inner.take delivered).map eventNonce = List.range' self.currentNonce.toNat delivered ∧
        after.currentNonce.toNat = self.currentNonce.toNat + delivered ∧
        after.queue = { self.queue with inner := self.queue.inner.drop delivered } ∧ after.Draining := by
  -- induction on the calls; each either pops the head or yields nothing and changes nothing
  induction count generalizing self with
  | zero => exact ⟨0, Nat.le_refl 0, self, rfl, rfl, rfl, rfl, hdraining⟩
  | succ count ih =>
    -- a call that yields nothing leaves the next ones as they were
    have hidle : self.next = .ok (none, self) → ∃ delivered ≤ count + 1, ∃ after : EthEventsQueueIter E,
        self.consume (count + 1) = .ok (self.queue.inner.take delivered, after) ∧
          (self.queue.inner.take delivered).map eventNonce = List.range' self.currentNonce.toNat delivered ∧
          after.currentNonce.toNat = self.currentNonce.toNat + delivered ∧
          after.queue = { self.queue with inner := self.queue.inner.drop delivered } ∧ after.Draining := by
      intro hnext
      obtain ⟨delivered, hle, after, hconsume, hnonces, hcurrent, hqueue, hafter⟩ := ih hdraining
      refine ⟨delivered, Nat.le_succ_of_le hle, after, ?_, hnonces, hcurrent, hqueue, hafter⟩
      rw [consume_succ hnext, hconsume]
      rfl
    cases hcons : self.queue.inner with
    | nil => exact hcons ▸ hidle (next_of_nil hcons)
    | cons event rest =>
      by_cases heq : getEventNonce event = self.currentNonce
      · -- the head is popped and the remaining calls drain the rest
        have hbelow := hdraining.below_max event (by rw [hcons]; exact List.mem_cons_self)
        obtain ⟨delivered, hle, after, hconsume, hnonces, hcurrent, hqueue, hafter⟩ :=
          ih (hdraining.pop hcons heq)
        dsimp only at hconsume hnonces hcurrent hqueue
        have hsucc : (self.currentNonce + 1).toNat = self.currentNonce.toNat + 1 := by
          rw [eventNonce, heq] at hbelow
          exact toNat_add_one hbelow
        refine ⟨delivered + 1, Nat.succ_le_succ hle, after, ?_, ?_, ?_, ?_, hafter⟩
        · rw [consume_succ (next_of_eq hcons heq hbelow), hconsume]
          rfl
        · rw [List.take_succ_cons, List.map_cons, hnonces, hsucc, List.range'_succ, eventNonce, heq]
        · rw [hcurrent, hsucc]
          omega
        · rw [hqueue]
          rfl
      · exact hcons ▸ hidle (next_of_ne hcons heq)

omit [GetEventNonce E] in
/-- Dropping an iterator that got no lower than the queue's next nonce commits
its own. -/
theorem drop_eq (hle : self.queue.nextNonceToProcess.toNat ≤ self.currentNonce.toNat) :
    self.drop = { self.queue with nextNonceToProcess := self.currentNonce } := by
  rw [drop]
  split
  · rfl
  · -- the nonces are equal, so the queue already holds the iterator's
    have heq : self.queue.nextNonceToProcess = self.currentNonce := by
      apply BitVec.eq_of_toNat_eq
      rw [BitVec.lt_def] at *
      omega
    rw [← heq]

end EthEventsQueueIter

/-! ## A push and its iterator -/

namespace InnerEthEventsQueue

variable {self : InnerEthEventsQueue E}

/-- One push of a fresh event, its iterator called `count` times and dropped:
the delivered events have the nonces from the next one on without a gap, the
committed nonce is one past them, and the queue stays well formed with no event
lost or duplicated. -/
theorem pushAndConsume_spec {latestEvent : E} (count : ℕ) (hwf : self.Wellformed)
    (hfresh : self.nextNonceToProcess.toNat ≤ eventNonce latestEvent)
    (hmissing : ∀ event ∈ self.inner, eventNonce event ≠ eventNonce latestEvent)
    (hbound : ∀ event ∈ latestEvent :: self.inner, eventNonce event < 2 ^ 256 - 1) :
    ∃ yielded after, self.pushAndConsume latestEvent count = .ok (yielded, after) ∧
      yielded.map eventNonce = List.range' self.nextNonceToProcess.toNat yielded.length ∧
      after.nextNonceToProcess.toNat = self.nextNonceToProcess.toNat + yielded.length ∧
      after.Wellformed ∧ (yielded ++ after.inner).Perm (latestEvent :: self.inner) := by
  obtain ⟨inner, hpush, hascending, hperm⟩ := pushAndIter_eq hwf hfresh hmissing
  -- the iterator starts at the next nonce, below every queued event and the new one
  have hdraining : EthEventsQueueIter.Draining
      (⟨self.nextNonceToProcess, { self with inner := inner }⟩ : EthEventsQueueIter E) := by
    refine ⟨hascending, fun event hevent => ?_, fun event hevent => hbound event (hperm.subset hevent)⟩
    rcases List.mem_cons.mp (hperm.subset hevent) with rfl | hold
    · exact hfresh
    · exact hwf.from_next event hold
  obtain ⟨delivered, -, iter, hconsume, hnonces, hcurrent, hqueue, hiter⟩ :=
    EthEventsQueueIter.consume_spec count hdraining
  have hdrop : iter.drop = { iter.queue with nextNonceToProcess := iter.currentNonce } := by
    apply EthEventsQueueIter.drop_eq
    rw [hqueue, hcurrent]
    exact Nat.le_add_right _ _
  have hlength : (inner.take delivered).length = delivered := by
    rw [List.length_take, Nat.min_eq_left]
    have := congrArg List.length hnonces
    rw [List.length_map, List.length_range'] at this
    rw [← this, List.length_take]
    exact Nat.min_le_right _ _
  refine ⟨inner.take delivered, iter.drop, ?_, ?_, ?_, ?_, ?_⟩
  · rw [pushAndConsume, hpush, ok_bind, hconsume]
    rfl
  · rw [hlength]
    exact hnonces
  · rw [hdrop, hlength]
    exact hcurrent
  · rw [hdrop]
    refine ⟨?_, fun event hevent => ?_⟩
    · exact hiter.ascending
    · exact hiter.from_current event hevent
  · rw [hdrop, hqueue]
    exact (List.take_append_drop delivered inner).symm ▸ hperm

/-! ## A run of pushes -/

/-- A run of fresh pushes of distinct nonces below `Uint::MAX`, each iterator
called any number of times and dropped: the run delivers the events of the
nonces from the starting one on, without a gap, commits one past them, keeps
the queue well formed, and loses or duplicates no event. -/
theorem run_spec (pushes : List (E × ℕ)) {self : InnerEthEventsQueue E} (hwf : self.Wellformed)
    (hdistinct : ((self.inner ++ pushes.map Prod.fst).map eventNonce).Nodup)
    (hfresh : self.FreshPushes pushes)
    (hbound : ∀ event ∈ self.inner ++ pushes.map Prod.fst, eventNonce event < 2 ^ 256 - 1) :
    ∃ yielded final, self.run pushes = .ok (yielded, final) ∧
      yielded.map eventNonce = List.range' self.nextNonceToProcess.toNat yielded.length ∧
      final.nextNonceToProcess.toNat = self.nextNonceToProcess.toNat + yielded.length ∧
      final.Wellformed ∧ (yielded ++ final.inner).Perm (self.inner ++ pushes.map Prod.fst) := by
  -- induction on the pushes, the queue each one leaves in the role of `self`
  induction pushes generalizing self with
  | nil => exact ⟨[], self, rfl, rfl, rfl, hwf, by simp⟩
  | cons push pushes ih =>
    obtain ⟨latestEvent, count⟩ := push
    obtain ⟨hfirst, hrest⟩ := hfresh
    have hmissing : ∀ event ∈ self.inner, eventNonce event ≠ eventNonce latestEvent := by
      rw [List.map_append, List.nodup_append] at hdistinct
      intro event hevent
      exact hdistinct.2.2 _ (List.mem_map_of_mem hevent) _ (by simp)
    obtain ⟨yielded, after, hstep, hnonces, hnext, hafter, hperm⟩ :=
      pushAndConsume_spec count hwf hfirst hmissing fun event hevent =>
        hbound event (by rcases List.mem_cons.mp hevent with rfl | hold <;> simp [*])
    -- what the first push delivered and what it left are, with the later pushes, the events of the run
    have hall : (yielded ++ (after.inner ++ pushes.map Prod.fst)).Perm
        (self.inner ++ ((latestEvent, count) :: pushes).map Prod.fst) := by
      rw [← List.append_assoc, List.map_cons]
      exact (hperm.append_right _).trans List.perm_middle.symm
    have hsub : (after.inner ++ pushes.map Prod.fst).Sublist
        (yielded ++ (after.inner ++ pushes.map Prod.fst)) := List.sublist_append_right _ _
    obtain ⟨later, final, hrun, hlaterNonces, hfinal, hwfFinal, hpermFinal⟩ :=
      ih hafter ((hsub.map eventNonce).nodup ((hall.map eventNonce).nodup_iff.mpr hdistinct))
        (hrest (yielded, after) hstep)
        (fun event hevent => hbound event (hall.subset (hsub.subset hevent)))
    refine ⟨yielded ++ later, final, ?_, ?_, ?_, hwfFinal, ?_⟩
    · rw [run, hstep, ok_bind]
      dsimp only
      rw [hrun, ok_bind]
      rfl
    · rw [List.map_append, hnonces, hlaterNonces, hnext, List.length_append, ← List.range'_append,
        Nat.one_mul]
    · rw [hfinal, hnext, List.length_append]
      omega
    · rw [List.append_assoc]
      exact (hpermFinal.append_left yielded).trans hall

/-- A run of pushes delivers each event once and in nonce order. The pushes have
distinct nonces below `Uint::MAX`, each no lower than the next nonce to process
when it is pushed, and each iterator is called any number of times and dropped.
The delivered events have the nonces from the starting one on, without a gap,
and they are exactly the events below the committed nonce, which is one past
the last delivered. The queue stays sorted, and no event is lost or
duplicated. -/
theorem eventsQueue_delivers_in_order (self : InnerEthEventsQueue E) (pushes : List (E × ℕ))
    (hwf : self.Wellformed)
    (hdistinct : ((self.inner ++ pushes.map Prod.fst).map eventNonce).Nodup)
    (hfresh : self.FreshPushes pushes)
    (hbound : ∀ event ∈ self.inner ++ pushes.map Prod.fst, eventNonce event < 2 ^ 256 - 1) :
    ∃ yielded final, self.run pushes = .ok (yielded, final) ∧
      yielded.map eventNonce = List.range' self.nextNonceToProcess.toNat yielded.length ∧
      (∀ event ∈ self.inner ++ pushes.map Prod.fst,
        event ∈ yielded ↔ eventNonce event < final.nextNonceToProcess.toNat) ∧
      final.nextNonceToProcess.toNat = self.nextNonceToProcess.toNat + yielded.length ∧
      final.Wellformed ∧ (yielded ++ final.inner).Perm (self.inner ++ pushes.map Prod.fst) := by
  obtain ⟨yielded, final, hrun, hnonces, hfinal, hwfFinal, hperm⟩ :=
    run_spec pushes hwf hdistinct hfresh hbound
  refine ⟨yielded, final, hrun, hnonces, fun event hevent => ⟨fun hyielded => ?_, fun hbelow => ?_⟩,
    hfinal, hwfFinal, hperm⟩
  · -- a delivered nonce is in the run that ends below the committed nonce
    have hmem : eventNonce event ∈ List.range' self.nextNonceToProcess.toNat yielded.length :=
      hnonces ▸ List.mem_map_of_mem hyielded
    rw [List.mem_range'_1] at hmem
    omega
  · -- an event still queued is at or above the committed nonce
    rcases List.mem_append.mp (hperm.symm.subset hevent) with hyielded | hqueued
    · exact hyielded
    · exact absurd (hwfFinal.from_next event hqueued) (Nat.not_le.mpr hbelow)

end InnerEthEventsQueue

/-! ## At the nonces' bounds -/

namespace InnerEthEventsQueue

/-- An event that is nothing but its nonce. -/
structure NonceOnly where
  nonce : BitVec 256

instance : GetEventNonce NonceOnly := ⟨NonceOnly.nonce⟩

/-- The event with nonce `Uint::MAX`. -/
def maxNonceEvent : NonceOnly := ⟨BitVec.allOnes 256⟩

/-- A queue at `Uint::MAX` takes the event of that nonce and then panics on the
first call of its iterator, so the event is never delivered. -/
theorem eventsQueue_overflows_at_max :
    (newAt (BitVec.allOnes 256) : InnerEthEventsQueue NonceOnly).FreshPushes [(maxNonceEvent, 1)] ∧
      (newAt (BitVec.allOnes 256) : InnerEthEventsQueue NonceOnly).run [(maxNonceEvent, 1)] =
        .error .nonceOverflow := by
  have hpush : (newAt (BitVec.allOnes 256) : InnerEthEventsQueue NonceOnly).pushAndIter maxNonceEvent =
      .ok ⟨BitVec.allOnes 256, ⟨BitVec.allOnes 256, [maxNonceEvent]⟩⟩ := by
    have hnotLt : ¬getEventNonce maxNonceEvent <
        (newAt (BitVec.allOnes 256) : InnerEthEventsQueue NonceOnly).nextNonceToProcess :=
      BitVec.lt_irrefl _
    rw [pushAndIter, if_neg hnotLt, tryPushEvent, newAt, binarySearchByKey, binarySearchBy_nil]
    rfl
  have hnext : (⟨BitVec.allOnes 256, ⟨BitVec.allOnes 256, [maxNonceEvent]⟩⟩ :
      EthEventsQueueIter NonceOnly).next = .error .nonceOverflow :=
    EthEventsQueueIter.next_of_max rfl rfl (BitVec.toNat_allOnes)
  refine ⟨⟨Nat.le_refl _, fun _ _ => trivial⟩, ?_⟩
  rw [run, pushAndConsume, hpush, ok_bind, EthEventsQueueIter.consume, hnext, error_bind, error_bind,
    error_bind]

/-- From a fresh queue at nonce zero: the event of nonce 2, then 1, then the
missing 0, with three, one and three calls of the iterators. -/
def gapPushes : List (NonceOnly × ℕ) := [(⟨2⟩, 3), (⟨1⟩, 1), (⟨0⟩, 3)]

/-- The first two pushes leave a gap at nonce 0, so their iterators yield
nothing; the third fills it, and its iterator delivers the three events in
nonce order. -/
theorem eventsQueue_delivers_in_order_after_gap :
    (newAt 0 : InnerEthEventsQueue NonceOnly).run gapPushes = .ok ([⟨0⟩, ⟨1⟩, ⟨2⟩], ⟨3, []⟩) ∧
      (newAt 0 : InnerEthEventsQueue NonceOnly).FreshPushes gapPushes ∧
      ∃ yielded final, (newAt 0 : InnerEthEventsQueue NonceOnly).run gapPushes = .ok (yielded, final) ∧
        yielded.map eventNonce =
          List.range' (newAt 0 : InnerEthEventsQueue NonceOnly).nextNonceToProcess.toNat yielded.length ∧
        (∀ event ∈ (newAt 0 : InnerEthEventsQueue NonceOnly).inner ++ gapPushes.map Prod.fst,
          event ∈ yielded ↔ eventNonce event < final.nextNonceToProcess.toNat) ∧
        final.nextNonceToProcess.toNat =
          (newAt 0 : InnerEthEventsQueue NonceOnly).nextNonceToProcess.toNat + yielded.length ∧
        final.Wellformed ∧
        (yielded ++ final.inner).Perm ((newAt 0 : InnerEthEventsQueue NonceOnly).inner ++
          gapPushes.map Prod.fst) := by
  -- the binary search is by well-founded recursion: the pushes are evaluated with it unfolded
  have hfirst : (newAt 0 : InnerEthEventsQueue NonceOnly).pushAndConsume ⟨2⟩ 3 = .ok ([], ⟨0, [⟨2⟩]⟩) := by
    with_unfolding_all rfl
  have hsecond : (⟨0, [⟨2⟩]⟩ : InnerEthEventsQueue NonceOnly).pushAndConsume ⟨1⟩ 1 =
      .ok ([], ⟨0, [⟨1⟩, ⟨2⟩]⟩) := by
    with_unfolding_all rfl
  have hthird : (⟨0, [⟨1⟩, ⟨2⟩]⟩ : InnerEthEventsQueue NonceOnly).pushAndConsume ⟨0⟩ 3 =
      .ok ([⟨0⟩, ⟨1⟩, ⟨2⟩], ⟨3, []⟩) := by
    with_unfolding_all rfl
  have hrun : (newAt 0 : InnerEthEventsQueue NonceOnly).run gapPushes = .ok ([⟨0⟩, ⟨1⟩, ⟨2⟩], ⟨3, []⟩) := by
    rw [gapPushes, run, hfirst, ok_bind]
    dsimp only
    rw [run, hsecond, ok_bind]
    dsimp only
    rw [run, hthird, ok_bind]
    rfl
  have hwf : (newAt 0 : InnerEthEventsQueue NonceOnly).Wellformed :=
    ⟨List.Pairwise.nil, fun _ hevent => absurd hevent List.not_mem_nil⟩
  -- each push is at or above the nonce the queue is at when it comes
  have hfresh : (newAt 0 : InnerEthEventsQueue NonceOnly).FreshPushes gapPushes := by
    refine ⟨by decide, fun result hresult => ?_⟩
    rw [hfirst] at hresult
    cases hresult
    refine ⟨by decide, fun result hresult => ?_⟩
    rw [hsecond] at hresult
    cases hresult
    exact ⟨by decide, fun _ _ => trivial⟩
  exact ⟨hrun, hfresh,
    eventsQueue_delivers_in_order (newAt 0) gapPushes hwf (by decide) hfresh (by decide)⟩

end InnerEthEventsQueue

end Namada.Core
