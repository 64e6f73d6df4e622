import LightChain.Library.Run
import LightChain.Validator.KV.Store

/-!
# Batched writes of attestations

`SaveAttestationForPubKey` puts a request on a buffered channel, subscribes to the results of
flushes and returns the first result it is sent. One goroutine, `batchAttestationWrites`,
receives the requests and flushes them in batches. A run is any interleaving of the steps of
callers and of the goroutine. A request is always in the channel, in the queue, in the batch
that is being saved or written, so that a result speaks for a request unless the request is
still in the channel when the result is sent.
-/
namespace LightChain.KV
open Library List

def attestationBatchCapacity : Nat := 2048

/-- The request of one call. The number tells the calls apart. -/
structure SaveRequest (PubKey : Type) where
  call : Nat
  record : AttestationRecord PubKey
deriving DecidableEq, Repr

/-- Where a call of `SaveAttestationForPubKey` is. `true` is the result of a flush that
succeeded. -/
inductive Caller (PubKey : Type) where
  | ready
  | enqueued (request : SaveRequest PubKey)
  | subscribed (request : SaveRequest PubKey)
  | responded (request : SaveRequest PubKey) (ok : Bool)
  | returned (request : SaveRequest PubKey) (ok : Bool)
deriving DecidableEq, Repr

/-- Where the goroutine is. `batchedAttestationsFlushInProgress` is set while it is saving or
sending, and only the goroutine itself reads it. -/
inductive Phase (PubKey : Type) where
  | selecting
  | saving (records : List (SaveRequest PubKey))
  | sending (ok : Bool)
  | done
deriving DecidableEq, Repr

/-- `written` lists the requests of the flushes that succeeded. It is not in the source. -/
structure Batcher (PubKey : Type) where
  store : Store PubKey
  batchedAttestationsChan : List (SaveRequest PubKey) := []
  batchedAttestations : List (SaveRequest PubKey) := []
  phase : Phase PubKey := .selecting
  callers : Nat → Caller PubKey := fun _ => .ready
  written : List (SaveRequest PubKey) := []

open Batcher

inductive BatchEvent (PubKey : Type) where
  | enqueue (call : Nat) (record : AttestationRecord PubKey)
  | subscribe (call : Nat)
  | wake (call : Nat)
  | receive
  | tick
  | save (ok : Bool)
  | send
  | cancel
deriving DecidableEq, Repr

section Steps

variable {PubKey : Type}

/-- The queue is taken over by a flush. -/
def Batcher.flush (w : Batcher PubKey) : Batcher PubKey :=
  { w with batchedAttestations := [], phase := .saving w.batchedAttestations }

/-- A subscriber has a buffer for one result. One that holds a result is not sent another. -/
def Caller.notify (ok : Bool) : Caller PubKey → Caller PubKey
  | .subscribed request => .responded request ok
  | caller => caller

variable [DecidableEq PubKey]

def Batcher.enqueue (w : Batcher PubKey) (call : Nat) (record : AttestationRecord PubKey) :
    Batcher PubKey :=
  { w with
    batchedAttestationsChan := w.batchedAttestationsChan ++ [⟨call, record⟩]
    callers := Function.update w.callers call (.enqueued ⟨call, record⟩) }

/-- The transaction commits, or it is reverted and the records go back to the queue. -/
def Batcher.save (w : Batcher PubKey) (records : List (SaveRequest PubKey)) (ok : Bool) :
    Batcher PubKey :=
  if ok then
    { w with
      store := saveAttestationRecords w.store (records.map (·.record))
      written := w.written ++ records
      phase := .sending true }
  else
    { w with
      batchedAttestations := w.batchedAttestations ++ records
      phase := .sending false }

/-- One step of a caller or of the goroutine. An event that cannot happen changes nothing. -/
def Batcher.step (w : Batcher PubKey) : BatchEvent PubKey → Batcher PubKey
  | .enqueue call record =>
    if w.callers call = .ready ∧ w.batchedAttestationsChan.length < attestationBatchCapacity then
      w.enqueue call record
    else w
  | .subscribe call =>
    match w.callers call with
    | .enqueued request =>
      { w with callers := Function.update w.callers call (.subscribed request) }
    | _ => w
  | .wake call =>
    match w.callers call with
    | .responded request ok =>
      { w with callers := Function.update w.callers call (.returned request ok) }
    | _ => w
  | .receive =>
    match w.phase, w.batchedAttestationsChan with
    | .selecting, v :: rest =>
      let w := { w with
        batchedAttestationsChan := rest
        batchedAttestations := w.batchedAttestations ++ [v] }
      if attestationBatchCapacity ≤ w.batchedAttestations.length then w.flush else w
    | _, _ => w
  | .tick =>
    match w.phase with
    | .selecting => if 0 < w.batchedAttestations.length then w.flush else w
    | _ => w
  | .save ok =>
    match w.phase with
    | .saving records => w.save records ok
    | _ => w
  | .send =>
    match w.phase with
    | .sending ok => { w with
        callers := fun call => (w.callers call).notify ok
        phase := .selecting }
    | _ => w
  | .cancel =>
    match w.phase with
    | .selecting => { w with phase := .done }
    | _ => w

def Batcher.run (s : Store PubKey) (events : List (BatchEvent PubKey)) : Batcher PubKey :=
  events.foldl step { store := s }

end Steps

section Durability

variable {PubKey : Type} [DecidableEq PubKey]

/-- The request is in the hands of the goroutine. -/
def Batcher.Pending (w : Batcher PubKey) (request : SaveRequest PubKey) : Prop :=
  request ∈ w.batchedAttestations ∨ ∃ records, w.phase = .saving records ∧ request ∈ records

/-- While a batch is saved or its success is sent, the queue is empty. -/
structure Batcher.Inv (s : Store PubKey) (w : Batcher PubKey) : Prop where
  store : w.store = saveAttestationRecords s (w.written.map (·.record))
  queue : w.phase = .sending true ∨ (∃ records, w.phase = .saving records) →
    w.batchedAttestations = []
  waiting : ∀ call request, w.callers call = .enqueued request ∨
    w.callers call = .subscribed request →
      request ∈ w.batchedAttestationsChan ∨ w.Pending request ∨ request ∈ w.written
  answered : ∀ call request, w.callers call = .responded request true ∨
    w.callers call = .returned request true → request ∈ w.written

variable {s : Store PubKey} {w : Batcher PubKey}

section

variable (h : w.Inv s)

include h

theorem Batcher.Inv.flush (hphase : w.phase = .selecting) : w.flush.Inv s where
  store := h.store
  queue _ := rfl
  waiting call request hcall := by
    rcases h.waiting call request hcall with hchan | (hqueue | ⟨records, hsaving, -⟩) | hwritten
    · exact .inl hchan
    · exact .inr (.inl (.inr ⟨_, rfl, hqueue⟩))
    · cases hphase.symm.trans hsaving
    · exact .inr (.inr hwritten)
  answered := h.answered

theorem Batcher.Inv.save {records : List (SaveRequest PubKey)} (hphase : w.phase = .saving records)
    (ok : Bool) : (w.save records ok).Inv s := by
  have hqueue := h.queue (.inr ⟨records, hphase⟩)
  -- A pending request is in the batch, because the queue is empty.
  have hpending : ∀ request, w.Pending request → request ∈ records := by
    rintro request (hmem | ⟨records', hsaving, hmem⟩)
    · rw [hqueue] at hmem
      cases hmem
    · cases hphase.symm.trans hsaving
      exact hmem
  cases ok with
  | true =>
    refine ⟨?_, fun _ => hqueue, fun call request hcall => ?_, fun call request hcall => ?_⟩
    · simp only [Batcher.save, if_true, h.store, map_append, saveAttestationRecords,
        foldl_append]
    · rcases h.waiting call request hcall with hchan | hpend | hwritten
      · exact .inl hchan
      · exact .inr (.inr (mem_append_right _ (hpending request hpend)))
      · exact .inr (.inr (mem_append_left _ hwritten))
    · exact mem_append_left _ (h.answered call request hcall)
  | false =>
    refine ⟨h.store, ?_, fun call request hcall => ?_, h.answered⟩
    · rintro (hsending | ⟨_, hsaving⟩)
      · cases hsending
      · cases hsaving
    · rcases h.waiting call request hcall with hchan | hpend | hwritten
      · exact .inl hchan
      · exact .inr (.inl (.inl (mem_append_right _ (hpending request hpend))))
      · exact .inr (.inr hwritten)

/-- No subscriber that is sent a success has its request in the channel. -/
def Drained (w : Batcher PubKey) (e : BatchEvent PubKey) : Prop :=
  e = .send → w.phase = .sending true → ∀ call request, w.callers call = .subscribed request →
    request ∉ w.batchedAttestationsChan

theorem Batcher.Inv.send {ok : Bool} (hphase : w.phase = .sending ok) (hdrained : Drained w .send) :
    Batcher.Inv s { w with
      callers := fun call => (w.callers call).notify ok
      phase := .selecting } := by
  have hpending : ∀ request, w.Pending request → request ∈ w.batchedAttestations := by
    rintro request (hmem | ⟨records, hsaving, -⟩)
    · exact hmem
    · cases hphase.symm.trans hsaving
  refine ⟨h.store, ?_, fun call request hcall => ?_, fun call request hcall => ?_⟩
  · rintro (hsending | ⟨_, hsaving⟩)
    · cases hsending
    · cases hsaving
  · -- A caller that is still waiting was not subscribed.
    have henqueued : w.callers call = .enqueued request := by
      cases hw : w.callers call <;> simp_all [Caller.notify]
    rcases h.waiting call request (.inl henqueued) with hchan | hpend | hwritten
    · exact .inl hchan
    · exact .inr (.inl (.inl (hpending request hpend)))
    · exact .inr (.inr hwritten)
  · cases hw : w.callers call with
    | subscribed request' =>
      simp only [hw, Caller.notify, Caller.responded.injEq, reduceCtorEq, or_false] at hcall
      obtain ⟨rfl, rfl⟩ := hcall
      rcases h.waiting call request' (.inr hw) with hchan | hpend | hwritten
      · exact absurd hchan (hdrained rfl hphase call request' hw)
      · have hmem := hpending request' hpend
        rw [h.queue (.inl hphase)] at hmem
        cases hmem
      · exact hwritten
    | ready => simp [hw, Caller.notify] at hcall
    | enqueued _ => simp [hw, Caller.notify] at hcall
    | responded request' ok' =>
      refine h.answered call request ?_
      simpa [hw, Caller.notify] using hcall
    | returned request' ok' =>
      refine h.answered call request ?_
      simpa [hw, Caller.notify] using hcall

theorem Batcher.Inv.receive (hphase : w.phase = .selecting) {v : SaveRequest PubKey}
    {rest : List (SaveRequest PubKey)} (hchan : w.batchedAttestationsChan = v :: rest) :
    Batcher.Inv s { w with
      batchedAttestationsChan := rest
      batchedAttestations := w.batchedAttestations ++ [v] } := by
  refine ⟨h.store, ?_, fun call request hcall => ?_, h.answered⟩
  · rintro (hsending | ⟨_, hsaving⟩)
    · cases hphase.symm.trans hsending
    · cases hphase.symm.trans hsaving
  · rcases h.waiting call request hcall with hmem | (hqueue | ⟨records, hsaving, -⟩) | hwritten
    · rw [hchan] at hmem
      obtain rfl | hmem := mem_cons.1 hmem
      · exact .inr (.inl (.inl (mem_append_right _ mem_cons_self)))
      · exact .inl hmem
    · exact .inr (.inl (.inl (mem_append_left _ hqueue)))
    · cases hphase.symm.trans hsaving
    · exact .inr (.inr hwritten)

theorem Batcher.Inv.move {call : Nat} {caller : Caller PubKey}
    (hwaiting : ∀ request, caller = .enqueued request ∨ caller = .subscribed request →
      request ∈ w.batchedAttestationsChan ∨ w.Pending request ∨ request ∈ w.written)
    (hanswered : ∀ request, caller = .responded request true ∨ caller = .returned request true →
      request ∈ w.written) :
    Batcher.Inv s { w with callers := Function.update w.callers call caller } := by
  refine ⟨h.store, h.queue, fun c request hcall => ?_, fun c request hcall => ?_⟩
  · simp only [Function.update_apply] at hcall
    split_ifs at hcall
    · exact hwaiting request hcall
    · exact h.waiting c request hcall
  · simp only [Function.update_apply] at hcall
    split_ifs at hcall
    · exact hanswered request hcall
    · exact h.answered c request hcall

theorem Batcher.Inv.enqueue (call : Nat) (record : AttestationRecord PubKey) :
    (w.enqueue call record).Inv s := by
  have hmore : Batcher.Inv s { w with
      batchedAttestationsChan := w.batchedAttestationsChan ++ [⟨call, record⟩] } :=
    ⟨h.store, h.queue, fun c request hcall =>
      (h.waiting c request hcall).imp_left (mem_append_left _), h.answered⟩
  refine hmore.move (fun request hcall => ?_) fun request hcall => ?_
  · rcases hcall with hcall | hcall <;> cases hcall
    exact .inl (mem_append_right _ mem_cons_self)
  · rcases hcall with hcall | hcall <;> cases hcall

theorem Batcher.Inv.step {e : BatchEvent PubKey} (he : Drained w e) : (w.step e).Inv s := by
  cases e with
  | enqueue call record =>
    rw [Batcher.step]
    split_ifs
    · exact h.enqueue call record
    · exact h
  | subscribe call =>
    rw [Batcher.step]
    cases hcaller : w.callers call with
    | enqueued request =>
      refine h.move (fun r hr => ?_) fun r hr => ?_
      · rcases hr with hr | hr <;> cases hr
        exact h.waiting call request (.inl hcaller)
      · rcases hr with hr | hr <;> cases hr
    | _ => exact h
  | wake call =>
    rw [Batcher.step]
    cases hcaller : w.callers call with
    | responded request ok =>
      refine h.move (fun r hr => ?_) fun r hr => ?_
      · rcases hr with hr | hr <;> cases hr
      · rcases hr with hr | hr <;> cases hr
        exact h.answered call request (.inl hcaller)
    | _ => exact h
  | receive =>
    rw [Batcher.step]
    cases hphase : w.phase with
    | selecting =>
      cases hchan : w.batchedAttestationsChan with
      | nil => exact h
      | cons v rest =>
        have hreceived := h.receive hphase hchan
        rw [hphase] at hreceived
        dsimp only
        split_ifs
        · exact hreceived.flush rfl
        · exact hreceived
    | _ => exact h
  | tick =>
    rw [Batcher.step]
    cases hphase : w.phase with
    | selecting =>
      dsimp only
      split_ifs
      · exact h.flush hphase
      · exact h
    | _ => exact h
  | save ok =>
    rw [Batcher.step]
    cases hphase : w.phase with
    | saving records => exact h.save hphase ok
    | _ => exact h
  | send =>
    rw [Batcher.step]
    cases hphase : w.phase with
    | sending ok => exact h.send hphase he
    | _ => exact h
  | cancel =>
    rw [Batcher.step]
    cases hphase : w.phase with
    | selecting =>
      refine ⟨h.store, ?_, fun call request hcall => ?_, h.answered⟩
      · rintro (hsending | ⟨_, hsaving⟩)
        · cases hsending
        · cases hsaving
      · refine (h.waiting call request hcall).imp_right (Or.imp_left ?_)
        rintro (hqueue | ⟨records, hsaving, -⟩)
        · exact .inl hqueue
        · cases hphase.symm.trans hsaving
    | _ => exact h

end

/-- In an interleaving in which no success is sent to a subscriber whose request is still in
the channel, a call that returns without an error has had its own request written. -/
theorem returned_of_drained (s : Store PubKey) (events : List (BatchEvent PubKey))
    (h : Along step Drained { store := s } events) (call : Nat)
    (request : SaveRequest PubKey)
    (hreturned : (run s events).callers call = .returned request true) :
    request ∈ (run s events).written ∧
      (run s events).store =
        saveAttestationRecords s ((run s events).written.map (·.record)) := by
  have hnew : Batcher.Inv s { store := s } := by
    refine ⟨rfl, fun _ => rfl, ?_, ?_⟩ <;> rintro call request (⟨⟨⟩⟩ | ⟨⟨⟩⟩)
  have hrun : (run s events).Inv s :=
    h.foldl (I := fun w => w.Inv s) hnew fun w e hw he => hw.step he
  exact ⟨hrun.answered call request (.inr hreturned), hrun.store⟩

end Durability

section Examples

def batchedRecord (source target : Fin 100) : AttestationRecord Unit where
  source := source
  target := target
  source_lt := by omega
  target_lt := by omega
  pubKey := ()
  signingRoot := (rootOf 0).bytes

/-- Two calls whose requests are flushed together, the first time without success. -/
def flushedTogether : List (BatchEvent Unit) :=
  [.enqueue 0 (batchedRecord 1 2), .receive, .tick, .enqueue 1 (batchedRecord 2 3), .save false,
    .send, .subscribe 0, .subscribe 1, .receive, .tick, .save true, .send, .wake 1, .wake 0]

theorem flushedTogether_written :
    (⟨1, batchedRecord 2 3⟩ : SaveRequest Unit) ∈
      (run (Store.new Unit) flushedTogether).written := by
  refine (returned_of_drained (Store.new Unit) flushedTogether ?_ 1 _ ?_).1
  · refine ⟨nofun, nofun, nofun, nofun, nofun, nofun, nofun, nofun, nofun, nofun, nofun,
      fun _ _ call request _ => ?_, nofun, nofun, trivial⟩
    exact not_mem_nil
  · decide +kernel

/-- The second call puts its request on the channel and subscribes while the request of the
first call is being saved, and is sent the result of that flush. -/
def flushedApart : List (BatchEvent Unit) :=
  [.enqueue 0 (batchedRecord 1 2), .subscribe 0, .receive, .tick, .enqueue 1 (batchedRecord 2 3),
    .subscribe 1, .save true, .send, .wake 1]

theorem flushedApart_not_written :
    (run (Store.new Unit) flushedApart).callers 1 =
        .returned ⟨1, batchedRecord 2 3⟩ true ∧
      (run (Store.new Unit) flushedApart).written = [⟨0, batchedRecord 1 2⟩] ∧
      (run (Store.new Unit) flushedApart).batchedAttestationsChan =
        [⟨1, batchedRecord 2 3⟩] := by
  decide +kernel

end Examples

end LightChain.KV
