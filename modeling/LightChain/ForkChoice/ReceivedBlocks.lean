import LightChain.ForkChoice.Stable
import LightChain.Library.RingTable

/-!
# Blocks received in the last epoch

`insert` enters the slot of a new block in a table, at its position in the epoch, unless the
slot is an epoch behind the clock. `ReceivedBlocksLastEpoch` counts the entries from a lower bound
on. The table has room for the compiled number of slots, the positions are those of the
configured epoch, and the lower bound uses the compiled number again.
-/
namespace LightChain.DoublyLinkedTree
open Library Program

section Count

/-- The first slot that counts. `size` is the compiled `SlotsPerEpoch`. -/
def lowerBound (size currentSlot : Nat) : Nat :=
  if size < currentSlot then currentSlot - size else currentSlot

/-- `ReceivedBlocksLastEpoch`. -/
def Store.countReceived (s : Store) (size currentSlot : Nat) : Nat :=
  (List.range size).countP fun i =>
    s.receivedBlocksLastEpoch i ≠ 0 ∧ lowerBound size currentSlot ≤ s.receivedBlocksLastEpoch i

end Count

section Insert

variable (cfg : BeaconChainConfig)

structure Arrival where
  block : Block
  justifiedEpoch : Nat := 0
  finalizedEpoch : Nat := 0
  clock : InsertClock := {}
  ctx : Option Nat := none
deriving DecidableEq, Repr

variable (a : Arrival)

def Arrival.outcome (f : ForkChoice) : EStateM.Result Error World Nat :=
  insert cfg a.block a.justifiedEpoch a.finalizedEpoch a.clock { f with ctx := a.ctx }

/-- The fork choice after the call, whether it succeeds or not. -/
def Arrival.step (f : ForkChoice) : ForkChoice :=
  (after (insert cfg a.block a.justifiedEpoch a.finalizedEpoch a.clock)
    { f with ctx := a.ctx }).toForkChoice

def succeeds {α : Type} : EStateM.Result Error World α → Bool
  | .ok _ _ => true
  | .error _ _ => false

/-- The block is new and the call succeeds. -/
def Arrival.inserted (f : ForkChoice) : Prop :=
  f.nodeByRoot a.block.root = none ∧ succeeds (a.outcome cfg f)

def Arrival.timely (f : ForkChoice) : Prop :=
  a.inserted cfg f ∧ a.clock.receivedSlot < a.block.slot + cfg.slotsPerEpoch

/-- The slot of the block is entered in the table. Before genesis a block with a parent is
inserted without that, and the end of the epoch of the last slots wraps. -/
def Arrival.tracked (f : ForkChoice) : Prop :=
  a.inserted cfg f ∧ ¬(a.clock.beforeGenesis ∧ (f.nodeByRoot a.block.parentRoot).isSome) ∧
    a.clock.receivedSlot < add64 a.block.slot cfg.slotsPerEpoch

instance (a : Arrival) (f : ForkChoice) : Decidable (a.inserted cfg f) :=
  inferInstanceAs (Decidable (_ ∧ _))

instance (a : Arrival) (f : ForkChoice) : Decidable (a.timely cfg f) :=
  inferInstanceAs (Decidable (_ ∧ _))

instance (a : Arrival) (f : ForkChoice) : Decidable (a.tracked cfg f) :=
  inferInstanceAs (Decidable (_ ∧ _ ∧ _))

variable {cfg} {w : World} {clock : InsertClock}

/-- Programs that leave the table alone. -/
def SameReceived (w w' : World) : Prop :=
  w'.receivedBlocksLastEpoch = w.receivedBlocksLastEpoch

theorem Shrinks.sameReceived {w' : World} (h : Shrinks w w') : SameReceived w w' := by
  rw [SameReceived, h.rest]

variable (cfg clock) in
theorem trackReceived_received (hhighest : w.highestReceivedNode.isSome) (n slot : Nat) :
    (after (trackReceived cfg n slot clock) w).receivedBlocksLastEpoch =
      if clock.receivedSlot < add64 slot cfg.slotsPerEpoch then
        recordAt cfg.slotsPerEpoch w.receivedBlocksLastEpoch slot
      else w.receivedBlocksLastEpoch := by
  obtain ⟨h, hh⟩ := Option.isSome_iff_exists.1 hhighest
  unfold trackReceived
  by_cases hs : (w.heap h).slot < slot <;> split_ifs <;>
    simp [hh, deref, hs, after, recordAt]

theorem settleChild_received {block : Block} (hroot : w.treeRootNode.isSome)
    (hhighest : w.highestReceivedNode.isSome) (n : Nat) :
    (after (settleChild cfg n block clock) w).receivedBlocksLastEpoch =
      if succeeds (settleChild cfg n block clock w) ∧ clock.beforeGenesis = false ∧
          clock.receivedSlot < add64 block.slot cfg.slotsPerEpoch then
        recordAt cfg.slotsPerEpoch w.receivedBlocksLastEpoch block.slot
      else w.receivedBlocksLastEpoch := by
  obtain ⟨root, hroot⟩ := Option.isSome_iff_exists.1 hroot
  unfold settleChild
  cases hbefore : clock.beforeGenesis with
  | true => simp
  | false =>
    cases hsss : clock.sinceSlotStart with
    | none => simp [succeeds]
    | some sss =>
      have hboost := boostTimely_decorates block clock w sss
      have hsame : SameReceived w (w.boostTimely block clock sss) := by
        unfold SameReceived World.boostTimely
        split_ifs <;> rfl
      generalize hw₁ : w.boostTimely block clock sss = w₁ at hboost hsame
      have hroot₁ : w₁.treeRootNode = some root := by rw [hboost.rest]; exact hroot
      have hbest := updateBestDescendant_within w₁.justifiedCheckpoint.epoch
        (toEpoch cfg clock.currentSlot) w₁.next root w₁
      simp only [after, Bool.false_eq_true, if_false, modify_bind_run, hw₁, get_bind_run, hroot₁,
        deref, pure_bind_run]
      rw [bind_run, wrap, mapError, withCleanup]
      cases hrun : updateBestDescendant w₁.justifiedCheckpoint.epoch
          (toEpoch cfg clock.currentSlot) w₁.next root w₁ with
      | error e w₂ =>
        rw [after_of_error hrun] at hbest
        obtain ⟨heap, ctx, rfl, -⟩ := hbest
        have hremove := (removeNode_shrinks n { w₁ with heap, ctx }).sameReceived
        simpa [succeeds] using hremove.trans hsame
      | ok _ w₂ =>
        rw [after_of_ok hrun] at hbest
        obtain ⟨heap, ctx, rfl, -⟩ := hbest
        have hhighest₁ := hboost.highest hhighest
        obtain ⟨w₃, h₃⟩ := trackReceived_ok cfg clock
          (w := { w₁ with heap, ctx }) hhighest₁ n block.slot
        have htrack := trackReceived_received cfg clock
          (w := { w₁ with heap, ctx }) hhighest₁ n block.slot
        rw [after_of_ok h₃] at htrack
        simp only [bind_of_ok h₃, pure_run, succeeds, true_and]
        rw [htrack, hsame]

theorem insert_received {block : Block} {justifiedEpoch finalizedEpoch : Nat}
    (h : Allocated w.toStore) :
    (after (insert cfg block justifiedEpoch finalizedEpoch clock) w).receivedBlocksLastEpoch =
      if (w.nodeByRoot block.root = none ∧
            succeeds (insert cfg block justifiedEpoch finalizedEpoch clock w)) ∧
          ¬(clock.beforeGenesis ∧ (w.nodeByRoot block.parentRoot).isSome) ∧
          clock.receivedSlot < add64 block.slot cfg.slotsPerEpoch then
        recordAt cfg.slotsPerEpoch w.receivedBlocksLastEpoch block.slot
      else w.receivedBlocksLastEpoch := by
  unfold after
  cases hpayload : block.payloadHash with
  | none =>
    have hrun : insert cfg block justifiedEpoch finalizedEpoch clock w = .error .execution w := by
      simp [insert, hpayload]
    simp [hrun, succeeds]
  | some payloadHash =>
    cases hknown : w.nodeByRoot block.root with
    | some n =>
      have hrun : insert cfg block justifiedEpoch finalizedEpoch clock w = .ok n w := by
        simp [insert, hpayload, hknown]
      simp [hrun]
    | none =>
      cases hparent : w.nodeByRoot block.parentRoot with
      | some parent =>
        obtain ⟨hroot, hhighest⟩ := h.rooted _ _ hparent
        let w₁ := w.attachTo parent
          (w.newNode cfg block payloadHash justifiedEpoch finalizedEpoch)
        have hrun : insert cfg block justifiedEpoch finalizedEpoch clock w =
            settleChild cfg w.next block clock w₁ := by
          simp [insert, hpayload, hknown, hparent, w₁]
        have hsettle : (after (settleChild cfg w.next block clock) w₁).receivedBlocksLastEpoch =
            _ := settleChild_received (w := w₁) hroot hhighest w.next
        rw [hrun]
        unfold after at hsettle
        rw [hsettle]
        simp [w₁, World.attachTo, World.addNode, World.modifyNode]
      | none =>
        cases hroot : w.treeRootNode with
        | none =>
          let w₁ := w.attachFirst (w.newNode cfg block payloadHash justifiedEpoch finalizedEpoch)
          obtain ⟨w₂, hok⟩ := trackReceived_ok cfg clock (w := w₁) rfl w.next block.slot
          have htrack := trackReceived_received cfg clock (w := w₁) rfl w.next block.slot
          have hrun : insert cfg block justifiedEpoch finalizedEpoch clock w = .ok w.next w₂ := by
            simp only [insert, get_bind_run, hpayload, hknown, hparent, hroot, set_bind_run]
            exact bind_of_ok hok
          rw [after_of_ok hok] at htrack
          simp [hrun, succeeds, htrack, w₁, World.attachFirst, World.addNode]
        | some t =>
          have hrun : insert cfg block justifiedEpoch finalizedEpoch clock w =
              .error .invalidParentRoot w := by
            simp [insert, hpayload, hknown, hparent, hroot]
          simp [hrun, succeeds]

end Insert

section Run

variable (cfg : BeaconChainConfig) (arrivals : List Arrival)

def runArrivals : ForkChoice :=
  arrivals.foldl (fun f a => a.step cfg f) ForkChoice.new

/-- The slots of the calls that meet a condition on the fork choice before them. -/
def slotsOf (P : Arrival → ForkChoice → Prop) [∀ a f, Decidable (P a f)] :
    ForkChoice → List Arrival → List Nat
  | _, [] => []
  | f, a :: arrivals =>
    if P a f then a.block.slot :: slotsOf P (a.step cfg f) arrivals
    else slotsOf P (a.step cfg f) arrivals

def timelySlots : List Nat :=
  slotsOf cfg (Arrival.timely cfg) ForkChoice.new arrivals

def trackedSlots : List Nat :=
  slotsOf cfg (Arrival.tracked cfg) ForkChoice.new arrivals

/-- The slots after genesis in the last epoch up to the current slot whose blocks came in time. -/
def windowSlots (currentSlot : Nat) : Finset Nat :=
  (timelySlots cfg arrivals).toFinset.filter fun s =>
    0 < s ∧ s ≤ currentSlot ∧ currentSlot < s + cfg.slotsPerEpoch

/-- The tracked slots from the lower bound on that no later one has replaced in the table. -/
def countedSlots (size currentSlot : Nat) : Finset Nat :=
  (trackedSlots cfg arrivals).toFinset.filter fun s =>
    (s ≠ 0 ∧ lowerBound size currentSlot ≤ s) ∧
      lastAt cfg.slotsPerEpoch (trackedSlots cfg arrivals) (s % cfg.slotsPerEpoch) = s

variable {cfg}

theorem foldl_step_received {f : ForkChoice} (h : Allocated f.toStore) :
    (arrivals.foldl (fun f a => a.step cfg f) f).receivedBlocksLastEpoch =
      (slotsOf cfg (Arrival.tracked cfg) f arrivals).foldl (recordAt cfg.slotsPerEpoch)
        f.receivedBlocksLastEpoch := by
  induction arrivals generalizing f with
  | nil => rfl
  | cons a arrivals ih =>
    have hkeeps : Within (Keeps fun w => Allocated w.toStore)
        (insert cfg a.block a.justifiedEpoch a.finalizedEpoch a.clock) :=
      (allocated_stable cfg).insert trivial _ _ _
    have hnext : Allocated (a.step cfg f).toStore := hkeeps { f with ctx := a.ctx } h
    have hreceived : (a.step cfg f).receivedBlocksLastEpoch = if a.tracked cfg f then
        recordAt cfg.slotsPerEpoch f.receivedBlocksLastEpoch a.block.slot
        else f.receivedBlocksLastEpoch := insert_received (w := { f with ctx := a.ctx }) h
    rw [List.foldl_cons, ih hnext, hreceived, slotsOf]
    split_ifs <;> rfl

theorem countReceived_eq_card {size : Nat} (hsize : cfg.slotsPerEpoch ≤ size) (currentSlot : Nat) :
    (runArrivals cfg arrivals).countReceived size currentSlot =
      (countedSlots cfg arrivals size currentSlot).card := by
  have htable : (runArrivals cfg arrivals).receivedBlocksLastEpoch =
      lastAt cfg.slotsPerEpoch (trackedSlots cfg arrivals) := by
    rw [runArrivals, foldl_step_received arrivals allocated_new]
    exact foldl_recordAt _
  rw [Store.countReceived, htable]
  exact countP_lastAt _ cfg.slotsPerEpoch_pos hsize
    (fun s => s ≠ 0 ∧ lowerBound size currentSlot ≤ s) (by simp)

def sixSlots : BeaconChainConfig := { slotsPerEpoch := 6 }

/-- A first block that arrives in its slot. -/
def arrivalAt (slot : Nat) : Arrival :=
  { block := ⟨1, slot, 0, some 0⟩, clock := { currentSlot := slot, receivedSlot := slot } }

end Run

end LightChain.DoublyLinkedTree
